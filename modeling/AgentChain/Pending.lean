import AgentChain.Build

/-!
# Proposals, votes and their tables

The consensus engine keeps the proposals that it has seen in a table of eight entries, and
the state of its voting in another one, by slot.  Both evict the oldest entry when they are
full.  This file has the two tables, the priority of a proposal and the wire format of a
vote.
-/

namespace AgentChain

/-! ### Priorities -/

/-- A priority; the lower one wins. -/
abbrev Priority := ByteArr 16

/-- `priority_cmp` -/
def priorityCmp (a b : Priority) : Ordering := memcmp a.bytes b.bytes

instance : Std.TransCmp priorityCmp where
  eq_swap := Std.OrientedOrd.eq_swap (α := Bytes)
  isLE_trans h₁ h₂ := Std.TransOrd.isLE_trans (α := Bytes) h₁ h₂

/-- `compute_priority` -/
def computePriority (P : Platform) (beta : VrfOut) (sqrtStake : UInt64) : Priority :=
  if sqrtStake = 0 then ByteArr.fill 16 0xFF
  else
    let h := acHashMulti P [ascii "AGCH:PRIO", beta.bytes]
    let hi := acRd64 h.bytes
    let lo := acRd64 (h.bytes.drop 8)
    let qHi := hi / sqrtStake
    let rHi := hi % sqrtStake
    let qLo := lo / sqrtStake + u64Max / sqrtStake * rHi
    ByteArr.ofBytes 16 (acBe64 qHi ++ acBe64 qLo)

/-! ### Tables -/

/-- The indexes of a table, in the order of the loops; `AC_PENDING_MAX` is eight. -/
def entryIdx : List (Fin 8) := List.finRange 8

/-- The first index with the least key, the `oldest` of the loops that evict. -/
def oldest (key : Fin 8 → UInt64) : Fin 8 :=
  entryIdx.foldl (fun o i => if key i < key o then i else o) 0

/-- `pending_t`; the signers that were collected so far are kept beside the block. -/
structure Pending where
  committed : Bool
  height : UInt64
  slot : UInt64
  blockHash : Hash
  block : Block
  signers : List CommitSigner
  signers_le : signers.length ≤ acCommitteeMax
  firstSeenMs : UInt64
  priority : Priority
  thresholdReachedMs : UInt64

/-- The table of proposals; an entry that is not occupied is `none`. -/
abbrev PendingTable := Fin 8 → Option Pending

/-- The first entry that satisfies a condition. -/
def PendingTable.first (t : PendingTable) (cond : Pending → Bool) : Option (Fin 8 × Pending) :=
  entryIdx.findSome? fun i =>
    match t i with
    | none => none
    | some p => if cond p then some (i, p) else none

/-- `pending_find` -/
def pendingFind (t : PendingTable) (blockHash : Hash) : Option (Fin 8 × Pending) :=
  t.first fun p => p.blockHash = blockHash

/-- The entry that `pending_alloc` clears: the first that is free, else the one seen first. -/
def pendingAlloc (t : PendingTable) : Fin 8 :=
  match entryIdx.find? fun i => (t i).isNone with
  | some i => i
  | none => oldest fun i => ((t i).map Pending.firstSeenMs).getD 0

lemma PendingTable.first_some {t : PendingTable} {cond : Pending → Bool} {i : Fin 8} {p : Pending}
    (h : t.first cond = some (i, p)) : t i = some p ∧ cond p = true := by
  obtain ⟨j, -, hj⟩ := List.exists_of_findSome?_eq_some h
  split at hj
  · exact absurd hj (by simp)
  · rename_i q hq
    split_ifs at hj with hc
    simp only [Option.some.injEq, Prod.mk.injEq] at hj
    obtain ⟨rfl, rfl⟩ := hj
    exact ⟨hq, hc⟩

/-- `slot_vote_t`; slot zero stands for an unused entry. -/
structure SlotVote where
  slot : UInt64
  bestPriority : Priority
  votedBlock : Hash
  voted : Bool

/-- The voting state by slot. -/
abbrev SlotVotes := Fin 8 → SlotVote

/-- `slot_vote_for`: the entry of the slot, and the table in which it stands. -/
def slotVoteFor (t : SlotVotes) (slot : UInt64) : Fin 8 × SlotVotes :=
  match entryIdx.find? fun i => (t i).slot = slot with
  | some i => (i, t)
  | none =>
      let i := oldest fun i => (t i).slot
      (i, Function.update t i ⟨slot, ByteArr.fill 16 0xFF, ByteArr.fill 32 0, false⟩)

/-! ### Signers -/

/-- A signer is added unless it is listed or the certificate is full. -/
def addSigner (signers : List CommitSigner) (g : CommitSigner) : List CommitSigner :=
  if signers.any fun s => s.signer = g.signer then signers
  else if signers.length < acCommitteeMax then signers ++ [g]
  else signers

lemma length_addSigner_le {signers : List CommitSigner} (h : signers.length ≤ acCommitteeMax)
    (g : CommitSigner) : (addSigner signers g).length ≤ acCommitteeMax := by
  rw [addSigner]
  split_ifs with _ hlt
  · exact h
  · rw [List.length_append, List.length_singleton]
    exact hlt
  · exact h

/-- Whoever is listed was listed before or is the new signer. -/
lemma mem_addSigner {signers : List CommitSigner} {g x : CommitSigner}
    (h : x ∈ addSigner signers g) : x ∈ signers ∨ x = g := by
  rw [addSigner] at h
  split_ifs at h
  · exact Or.inl h
  · rw [List.mem_append, List.mem_singleton] at h
    exact h
  · exact Or.inl h

/-- Whoever was listed stays in its place. -/
lemma prefix_addSigner (signers : List CommitSigner) (g : CommitSigner) :
    signers <+: addSigner signers g := by
  rw [addSigner]
  split_ifs
  · exact List.prefix_refl _
  · exact List.prefix_append _ _
  · exact List.prefix_refl _

/-- Nobody is listed twice. -/
lemma nodup_addSigner {signers : List CommitSigner} (h : (signers.map CommitSigner.signer).Nodup)
    (g : CommitSigner) : ((addSigner signers g).map CommitSigner.signer).Nodup := by
  rw [addSigner]
  split_ifs with hseen
  · exact h
  · have hnot : g.signer ∉ signers.map CommitSigner.signer := by
      intro hmem
      obtain ⟨s, hs, heq⟩ := List.mem_map.mp hmem
      exact hseen (List.any_eq_true.mpr ⟨s, hs, decide_eq_true heq⟩)
    rw [List.map_append, List.map_singleton]
    exact h.append (List.nodup_singleton _) (by simpa using hnot)
  · exact h

/-- The entry with one more signer. -/
def Pending.addSigner (p : Pending) (g : CommitSigner) : Pending :=
  { p with
    signers := AgentChain.addSigner p.signers g
    signers_le := length_addSigner_le p.signers_le g }

/-! ### Votes on the wire -/

/-- The fields of a commit vote. -/
structure Vote where
  height : UInt64
  blockHash : Hash
  signer : Addr
  sig : Sig
  vrfProof : VrfProof
deriving DecidableEq

/-- `AC_VOTE_WIRE_LEN` -/
def acVoteWireLen : ℕ := 200

/-- `vote_encode` -/
def voteEncode (v : Vote) : Bytes :=
  acBe64 v.height ++ v.blockHash.bytes ++ v.signer.bytes ++ v.sig.bytes ++ v.vrfProof.bytes

/-- `vote_decode` -/
def voteDecode (buf : Bytes) : Option Vote :=
  if buf.length ≠ acVoteWireLen then none
  else
    some {
      height := acRd64 buf
      blockHash := ByteArr.ofBytes 32 (buf.drop 8)
      signer := ByteArr.ofBytes 32 (buf.drop 40)
      sig := ByteArr.ofBytes 64 (buf.drop 72)
      vrfProof := ByteArr.ofBytes 64 (buf.drop 136) }

/-- The bytes of a field, behind fields of known length. -/
lemma ofBytes_drop_append {n k : ℕ} (pre : Bytes) (a : ByteArr n) (post : Bytes)
    (hk : pre.length = k) : ByteArr.ofBytes n ((pre ++ a.bytes ++ post).drop k) = a := by
  rw [List.append_assoc, ← hk, List.drop_left, ByteArr.ofBytes_append]

lemma acRd64_acBe64 (v : UInt64) (rest : Bytes) : acRd64 (acBe64 v ++ rest) = v := by
  have hlen : (acBe64 v).length = 8 := length_beEncode 8 _
  rw [acRd64, List.take_left' hlen, acBe64, beDecode_beEncode v.toNat_lt, UInt64.ofNat_toNat]

/-- A vote that was encoded is decoded to itself. -/
theorem voteDecode_voteEncode (v : Vote) : voteDecode (voteEncode v) = some v := by
  have h8 : (acBe64 v.height).length = 8 := length_beEncode 8 _
  have hlen : (voteEncode v).length = acVoteWireLen := by
    simp [voteEncode, acVoteWireLen, h8]
  have hheight : acRd64 (voteEncode v) = v.height := by
    rw [voteEncode, List.append_assoc, List.append_assoc, List.append_assoc, acRd64_acBe64]
  have hhash : ByteArr.ofBytes 32 ((voteEncode v).drop 8) = v.blockHash := by
    rw [voteEncode, List.append_assoc, List.append_assoc]
    exact ofBytes_drop_append _ v.blockHash _ h8
  have hsigner : ByteArr.ofBytes 32 ((voteEncode v).drop 40) = v.signer := by
    rw [voteEncode, List.append_assoc]
    exact ofBytes_drop_append _ v.signer _ (by simp [h8])
  have hsig : ByteArr.ofBytes 64 ((voteEncode v).drop 72) = v.sig :=
    ofBytes_drop_append _ v.sig _ (by simp [h8])
  have hproof : ByteArr.ofBytes 64 ((voteEncode v).drop 136) = v.vrfProof := by
    have h := ofBytes_drop_append (k := 136) (acBe64 v.height ++ v.blockHash.bytes ++
      v.signer.bytes ++ v.sig.bytes) v.vrfProof [] (by simp [h8])
    rwa [List.append_nil] at h
  rw [voteDecode, if_neg (not_not.mpr hlen), hheight, hhash, hsigner, hsig, hproof]

end AgentChain
