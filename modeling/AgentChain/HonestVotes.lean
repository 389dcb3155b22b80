import AgentChain.VoteDelivery
import AgentChain.VoteValidity

/-!
# Votes of one node, counted by another

`our_vote_now` makes a vote, `ac_consensus_handle_vote` checks it at another node, and
`validate_commit` checks it once more as an entry of a certificate.  The three read the stake,
the seed and the total weight at moments of their own.  Two nodes with the same blocks up to
the same tip read the same values, so that a vote which one of them sends is added by the
other, and passes when the block is offered to its chain (`honest_vote_counted`).
-/

namespace AgentChain

open Trace

/-! ### The check of one signer -/

/-- What `validate_commit` checks of one signer of a block that is offered on the chain, with
the seed that it reads for the epoch of the block. -/
def SignerWith (P : Platform) (c : Chain) (seed : Hash) (h : BlockHeader) (g : CommitSigner) :
    Prop :=
  signerOk P (committeeAlpha seed h.slot) (acVoteMessage h.height (acBlockHash P h))
    (acChainTotalSqrtStake c) (acStateGet c.state g.signer).2.stake g = true

/-- The check with the seed of the stored blocks. -/
def SignerOn (P : Platform) (c : Chain) (h : BlockHeader) (g : CommitSigner) : Prop :=
  SignerWith P c (computeEpochSeed P c (acEpochOf h.slot)) h g

instance (P : Platform) (c : Chain) (seed : Hash) (h : BlockHeader) (g : CommitSigner) :
    Decidable (SignerWith P c seed h g) :=
  inferInstanceAs (Decidable (_ = true))

instance (P : Platform) (c : Chain) (h : BlockHeader) (g : CommitSigner) :
    Decidable (SignerOn P c h g) :=
  inferInstanceAs (Decidable (SignerWith P c _ h g))

section Signers

variable {P : Platform} {c d : Chain} {b : Block} {v : Vote} {g : CommitSigner} {h : BlockHeader}
  {seed : Hash}

/-- The check reads nothing but the view of the chain. -/
lemma SignerOn.view (hs : SignerOn P c h g) (hv : c.SameView d) : SignerOn P d h g := by
  rw [SignerOn, SignerWith, hv.computeEpochSeed_eq, hv.state_eq, acChainTotalSqrtStake, hv.state_eq]
  exact hs

/-- The check of a staked and elected signer comes down to its signature. -/
lemma signerOk_elected {alpha msg : Bytes} {total stake : UInt64} {beta : VrfOut}
    (hstake : ¬ stake < acMinStakeUcrd)
    (hvrf : acVrfVerify P g.vrfProof alpha g.signer = some beta)
    (hdraw : committeeEligible P (acRd64 beta.bytes) (acIsqrtU64 stake) total = true) :
    signerOk P alpha msg total stake g = acVerify P g.sig msg g.signer := by
  rw [signerOk, if_neg hstake, hvrf]
  dsimp only
  rw [hdraw, Bool.true_and]

/-- A vote that `ac_consensus_handle_vote` takes is a signer that `validate_commit` takes with
the same seed, when its signature is one for the height of the block. -/
lemma VoteChecked.signerWith_iff (hv : VoteChecked P c seed b v) :
    SignerWith P c seed b.header v.asSigner ↔
      acVerify P v.sig (acVoteMessage b.header.height v.blockHash) v.signer = true := by
  obtain ⟨beta, hvrf, hdraw⟩ := hv.elected
  rw [SignerWith, ← hv.hash_eq]
  exact Eq.congr_left (signerOk_elected (g := v.asSigner) hv.bonded hvrf hdraw)

lemma ValidVote.signerOn (hv : ValidVote P c b v) (hheight : v.height = b.header.height) :
    SignerOn P c b.header v.asSigner :=
  hv.signerWith_iff.mpr (hheight ▸ hv.signed)

end Signers

/-! ### The vote that is sent -/

section Sender

variable {P : Platform} {c d : Chain} {i : Fin 8} {p : Pending} {buf : Bytes}

/-- A member of the committee is an active validator with a lucky draw. -/
lemma amICommittee_some (hcache : c.CacheValid P) {kp : Keypair} {slot : UInt64}
    {proof : VrfProof} (h : amICommittee P c kp slot = (some proof, d)) :
    ¬ (acStateGet c.state kp.pk).2.stake < acMinStakeUcrd ∧
      proof = acVrfProve P (committeeAlpha (computeEpochSeed P c (acEpochOf slot)) slot) kp ∧
      committeeEligible P (acRd64 (vrfComputeBeta P proof).bytes)
        (acIsqrtU64 (acStateGet c.state kp.pk).2.stake) (acChainTotalSqrtStake c) = true := by
  rw [amICommittee] at h
  dsimp only at h
  rw [acChainEpochSeed_fst hcache] at h
  split_ifs at h with hactive hdraw
  · exact absurd (Prod.mk.inj h).1 (by simp)
  · obtain rfl := Option.some.inj (Prod.mk.inj h).1
    rw [not_or] at hactive
    exact ⟨hactive.2, rfl, hdraw⟩
  · exact absurd (Prod.mk.inj h).1 (by simp)

/-- The bytes that `our_vote_now` broadcasts. -/
lemma ourVoteNow_sent (cs : Consensus) (h : .commitVote buf ∈ (ourVoteNow P cs i p).2) :
    ∃ proof d, amICommittee P cs.chain cs.kp p.slot = (some proof, d) ∧
      voteDecode buf = some (castVote P cs.kp p.height p.blockHash proof) := by
  rw [ourVoteNow] at h
  rcases hmember : amICommittee P cs.chain cs.kp p.slot with ⟨_ | proof, d⟩
  · rw [hmember] at h
    exact absurd h List.not_mem_nil
  · rw [hmember] at h
    obtain ⟨rfl⟩ : buf = _ := Msg.commitVote.inj (List.mem_singleton.mp h)
    exact ⟨proof, d, rfl, voteDecode_voteEncode _⟩

/-- It is a vote that every node at the same tip takes. -/
lemma validVote_castVote {kp : Keypair} (hkp : kp.Valid P) (hcache : c.CacheValid P)
    {proof : VrfProof} (hhash : p.blockHash = acBlockHash P p.block.header)
    (hslot : p.slot = p.block.header.slot)
    (h : amICommittee P c kp p.slot = (some proof, d)) :
    ValidVote P c p.block (castVote P kp p.height p.blockHash proof) := by
  obtain ⟨hstake, rfl, hdraw⟩ := amICommittee_some hcache h
  rw [hslot] at hdraw ⊢
  exact ⟨hhash, hkp _, hstake, _, acVrfVerify_prove hkp _, hdraw⟩

end Sender

/-! ### Slots of entries -/

/-- The slot of every entry is that of its block, and a block that waits to be proposed is
one of the current slot. -/
structure SlotsFit (n : Node) : Prop where
  entries : ∀ i p, n.cs.pending i = some p → p.slot = p.block.header.slot
  built : ∀ b, n.pc = .built b → b.header.slot = n.slot

section Slots

variable {P : Platform} {n : Node} {a : NodeAction}

/-- The slot of an entry that an action puts into the table. -/
lemma SlotsFit.stashes (h : SlotsFit n) {p : Pending} (hp : a.stashes P n = some p) :
    p.slot = p.block.header.slot := by
  obtain ⟨x, hx, hp⟩ := Option.bind_eq_some_iff.mp hp
  rcases NodeAction.call_cases hx with ⟨env, m, b, -, rfl⟩ | ⟨env, m, v, -, rfl⟩ |
    ⟨env, junk, b, -, hpc, rfl⟩ | ⟨env, -, -, rfl⟩ | ⟨env, -, -, rfl⟩
  · obtain ⟨-, -, -, -, beta, -, rfl⟩ := receivedEntry_some hp
    rfl
  · cases hp
  · obtain rfl := Option.some.inj hp
    exact (h.built b hpc).symm
  · cases hp
  · cases hp

/-- **An action keeps the slots.** -/
theorem SlotsFit.step (hP : P.MallocBounded) (h : SlotsFit n) : SlotsFit (n.exec P a) := by
  refine ⟨fun i q hq => ?_, fun b hb => ?_⟩
  · obtain ⟨p, hkin, hp | hp⟩ := Node.exec_origin hP hq
    · rw [hkin.slot_eq, hkin.header_eq]
      exact h.entries i p hp
    · rw [hkin.slot_eq, hkin.header_eq]
      exact h.stashes hp
  · have hslot : (n.exec P a).slot = n.slot := by
      refine (n.exec_pc a).1.resolve_right fun hstart => ?_
      rw [hb] at hstart
      cases hstart
    rw [hslot]
    rcases (n.exec_pc a).2 _ hb with hpc | ⟨proof, cands, b₀, -, hbuilt, rfl⟩
    · exact h.built b hpc
    · obtain ⟨-, -, rfl⟩ := acChainBuildBlock_some hP hbuilt
      rfl

lemma NodeRun.slotsFit (hP : P.MallocBounded) {C : Node → NodeAction → Prop} {c : Chain}
    {kp : Keypair} {validator : Bool} {slot : UInt64} {as : List NodeAction}
    (h : NodeRun P C (Node.initial c kp validator slot) as n) : SlotsFit n :=
  h.invariant ⟨fun _ _ hp => (by cases hp), fun _ hb => (by cases hb)⟩ fun _ _ hm _ => hm.step hP

end Slots

/-! ### Two nodes at the same tip -/

/-- The two chains hold the same blocks up to the same tip; the certificates may differ. -/
structure SameTip (c d : Chain) : Prop where
  height_eq : d.height = c.height
  blocks_eq : ∀ k ≤ c.height.toNat, (c.blockAt k).map (fun b => (b.header, b.txs)) =
    (d.blockAt k).map fun b => (b.header, b.txs)

/-- The node has the block of the entry in its table, and no entry of another block with the
same hash. -/
structure Holds (t : PendingTable) (p : Pending) : Prop where
  held : ∃ j q, t j = some q ∧ q.blockHash = p.blockHash
  same : ∀ j q, t j = some q → q.blockHash = p.blockHash → q.block.header = p.block.header

section Receiver

variable {P : Platform} {g : Genesis} {c c' : Chain} {bs bs' : List Block} {n n' : Node}
  {es es' : List NodeEvent} {kp kp' : Keypair} {validator validator' : Bool} {slot slot' : UInt64}
  {as as' : List NodeAction} {i : Fin 8} {p : Pending} {buf : Bytes}

lemma SameTip.sameBlocks (h : SameTip c c') (hl : Ledger P g bs c) (hl' : Ledger P g bs' c') :
    SameBlocks bs bs' := by
  have hlen : bs'.length = bs.length := by rw [← hl.height_eq, ← hl'.height_eq, h.height_eq]
  refine List.ext_getElem? fun k => ?_
  rw [List.getElem?_map, List.getElem?_map]
  by_cases hk : k < bs.length
  · have hstored := h.blocks_eq (k + 1) (by rw [hl.height_eq]; omega)
    rwa [Chain.blockAt, Chain.blockAt, hl.stored _ (by omega), hl'.stored _ (by omega)] at hstored
  · rw [List.getElem?_eq_none (by omega), List.getElem?_eq_none (by omega)]

lemma Holds.find {t : PendingTable} (h : Holds t p) :
    ∃ j q, pendingFind t p.blockHash = some (j, q) ∧ t j = some q ∧
      q.block.header = p.block.header := by
  obtain ⟨j, q, hq, hhash⟩ := h.held
  cases hfind : pendingFind t p.blockHash with
  | none =>
    have hnone := List.findSome?_eq_none_iff.mp hfind j (List.mem_finRange j)
    rw [hq] at hnone
    exact absurd hnone (by simp [hhash])
  | some r =>
    obtain ⟨hr, hrhash⟩ := PendingTable.first_some (i := r.1) (p := r.2) hfind
    exact ⟨r.1, r.2, rfl, hr, h.same _ _ hr (of_decide_eq_true hrhash)⟩

/-- A valid vote goes to the signers of the entry that it finds. -/
lemma handleVote_adds (hP : P.MallocBounded) (env : Env) {cs : Consensus} {b : Block} {v : Vote}
    {j : Fin 8} {q : Pending} (hview : c.SameView cs.chain) (hcache : cs.chain.CacheValid P)
    (hv : ValidVote P c b v)
    (hfind : pendingFind cs.pending (acBlockHash P b.header) = some (j, q))
    (hslot : q.slot = b.header.slot) :
    ∃ q', (handleVote P env cs v).1.pending j = some q' ∧ q'.block.header = q.block.header ∧
      q'.signers = AgentChain.addSigner q.signers v.asSigner := by
  rw [handleVote_found hview hcache hv hfind hslot]
  split_ifs with hlisted
  · exact ⟨q, (PendingTable.first_some hfind).1, rfl, (if_pos hlisted).symm⟩
  · obtain ⟨q', hq', hsettled⟩ := exists_later (tryCommit_table hP env (Consensus.put
      { cs with chain := (acChainEpochSeed P cs.chain (acEpochOf b.header.slot)).2 } j
      (q.addSigner v.asSigner)) j j) (Function.update_self _ _ _)
    exact ⟨q', hq', hsettled.kin.header_eq, hsettled.signers_eq⟩

/-- **Honest votes are accepted.**  Two nodes are at the same tip, and the writes of both have
succeeded.  When `our_vote_now` broadcasts a vote of the first node for an entry of its table,
and the second node holds the block, then the entry of the certificate that the vote makes
passes `validate_commit` on the chain of the second node, and `ac_consensus_handle_vote` adds
it to the signers there, unless the address is listed already or the list is full. -/
theorem honest_vote_counted (hP : P.MallocBounded) (hc : NodeReachable P g es c)
    (hc' : NodeReachable P g es' c')
    (hrun : NodeRun P (Undisturbed P) (Node.initial c kp validator slot) as n)
    (hrun' : NodeRun P (Undisturbed P) (Node.initial c' kp' validator' slot') as' n')
    (hkp : kp.Valid P) (htip : SameTip n.cs.chain n'.cs.chain) (hp : n.cs.pending i = some p)
    {sv : SlotVotes} (hsent : .commitVote buf ∈ (ourVoteNow P { n.cs with slotVotes := sv } i p).2)
    (hholds : Holds n'.cs.pending p) (env : Env) :
    ∃ entry j q q', entry.signer = kp.pk ∧ SignerOn P n'.cs.chain p.block.header entry ∧
      pendingFind n'.cs.pending p.blockHash = some (j, q) ∧ q.block.header = p.block.header ∧
      (acConsensusHandleVote P env n'.cs buf).1.pending j = some q' ∧
      q'.block.header = p.block.header ∧
      (kp.pk ∉ q.signers.map CommitSigner.signer → q.signers.length < acCommitteeMax →
        q'.signers = q.signers ++ [entry]) := by
  obtain ⟨bs, hl⟩ := hrun.ledger hP hc
  obtain ⟨bs', hl'⟩ := hrun'.ledger hP hc'
  have hview := (htip.sameBlocks hl hl').sameView hl hl'
  obtain rfl : n.cs.kp = kp := hrun.kp_eq hP
  have hfits := (hrun.nodeInv hP (NodeInv.initial hP hc _ validator slot)).table.fits i p hp
  -- the vote is one that the other node takes
  obtain ⟨proof, d, hmember, hdecode⟩ : ∃ proof d, amICommittee P n.cs.chain n.cs.kp p.slot =
      (some proof, d) ∧ voteDecode buf = some (castVote P n.cs.kp p.height p.blockHash proof) :=
    ourVoteNow_sent { n.cs with slotVotes := sv } hsent
  have hvalid := validVote_castVote hkp hl.cacheValid hfits.hash_eq
    ((hrun.slotsFit hP).entries i p hp) hmember
  have hsigner := (hvalid.signerOn hfits.height_eq).view hview
  obtain ⟨j, q, hfind, hq, hheader⟩ := hholds.find
  have hslot : q.slot = p.block.header.slot := by
    rw [(hrun'.slotsFit hP).entries j q hq, hheader]
  obtain ⟨q', hq', hheader', hsigners⟩ := handleVote_adds hP env hview hl'.cacheValid hvalid
    (hfits.hash_eq ▸ hfind) hslot
  refine ⟨_, j, q, q', rfl, hsigner, hfind, hheader, ?_, hheader'.trans hheader,
    fun hnew hroom => ?_⟩
  · rw [acConsensusHandleVote, hdecode]
    exact hq'
  · have hunlisted : ¬ (q.signers.any fun s => s.signer = n.cs.kp.pk) = true := by
      simpa using hnew
    rw [hsigners]
    exact (if_neg hunlisted).trans (if_pos hroom)

end Receiver

/-- The second validator has received the block of the first one. -/
def hearingNode : Node :=
  (equalNode 2).execAll labelled [.receive (Env.atMs 2500) (proposalOf 1)]

/-- The vote of the first validator for its block. -/
def leadersVote : Bytes :=
  match votedNode.sent with
  | [_, .commitVote buf] => buf
  | _ => []

theorem honest_vote_counted_leader :
    ∃ p entry q', leadingNode.cs.pending 0 = some p ∧ entry.signer = (referenceKey 1).pk ∧
      SignerOn labelled hearingNode.cs.chain p.block.header entry ∧
      (acConsensusHandleVote labelled (Env.atMs 3150) hearingNode.cs leadersVote).1.pending 0 =
        some q' ∧ q'.signers = [entry] := by
  have hfacts : (leadingNode.cs.pending 0).isSome ∧
      (∀ p ∈ leadingNode.cs.pending 0, .commitVote leadersVote ∈ (ourVoteNow labelled
        { leadingNode.cs with slotVotes := leadingNode.cs.slotVotes } 0 p).2) ∧
      (∀ p ∈ leadingNode.cs.pending 0, ∃ q ∈ hearingNode.cs.pending 0,
        q.blockHash = p.blockHash ∧ q.signers = []) ∧
      (∀ p ∈ leadingNode.cs.pending 0, ∀ j, ∀ q ∈ hearingNode.cs.pending j,
        q.block.header = p.block.header ∧ j = 0) ∧
      leadingNode.cs.chain.height = 0 ∧ hearingNode.cs.chain.height = 0 ∧
      (leadingNode.cs.chain.blockAt 0).map (fun b => (b.header, b.txs)) =
        (hearingNode.cs.chain.blockAt 0).map fun b => (b.header, b.txs) := by
    decide +kernel
  obtain ⟨hsome, hsent, hheld, hsame, hzero, hzero', hgenesis⟩ := hfacts
  obtain ⟨p, hp⟩ := Option.isSome_iff_exists.mp hsome
  have htip : SameTip leadingNode.cs.chain hearingNode.cs.chain := by
    refine ⟨hzero'.trans hzero.symm, fun k hk => ?_⟩
    obtain rfl : k = 0 := by
      rw [hzero] at hk
      exact Nat.le_zero.mp hk
    exact hgenesis
  have hrun : NodeRun labelled (Undisturbed labelled) (equalNode 1) (leadSlot 2000) leadingNode :=
    nodeRun_execAll (by decide +kernel)
  have hrun' : NodeRun labelled (Undisturbed labelled) (equalNode 2)
      [.receive (Env.atMs 2500) (proposalOf 1)] hearingNode := nodeRun_execAll (by decide +kernel)
  obtain ⟨q, hq, hhash, hnil⟩ := hheld p hp
  obtain ⟨entry, j, q₀, q', hkey, hpasses, hfind, -, hq', -, hadds⟩ := honest_vote_counted
    labelled_mallocBounded reachable_equalGenesis.node reachable_equalGenesis.node hrun hrun'
    (labelled_valid _) htip hp (hsent p hp)
    ⟨⟨0, q, hq, hhash⟩, fun j q hq _ => (hsame p hp j q hq).1⟩ (Env.atMs 3150)
  have hfound := (PendingTable.first_some hfind).1
  obtain rfl := (hsame p hp j q₀ hfound).2
  obtain rfl : q = q₀ := Option.some.inj (hq.symm.trans hfound)
  rw [hnil] at hadds
  exact ⟨p, entry, q', hp, hkey, hpasses, hq', hadds List.not_mem_nil (Nat.succ_pos _)⟩

end AgentChain
