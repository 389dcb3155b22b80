import AgentChain.CleanRun
import AgentChain.Nonces

/-!
# The first body of a proposal

The hash of a block is that of its header, and `ac_consensus_handle_block` finds proposals by
this hash alone.  When a block arrives whose hash is in the table, its signers are added to the
entry and the rest of it is dropped, the transactions included.  The transactions are compared
with the root in the header when the block is handed to the chain, not before.

So whoever is first to send a header decides on the transactions that a node keeps for it.  When
they do not fit to the header, the node cannot accept that block from anybody, as long as the
entry is in the table (`forged_body_stays`).
-/

namespace AgentChain

open Trace

/-- The transactions of the entry are not those of its header. -/
def Pending.Forged (P : Platform) (p : Pending) : Prop :=
  acBlockTxRoot P p.block.txs ≠ p.block.header.txRoot

/-- The table has an entry of the hash, and all that it has are forged. -/
structure ForgedAt (P : Platform) (h : Hash) (t : PendingTable) : Prop where
  held : ∃ i p, t i = some p ∧ p.blockHash = h
  forged : ∀ i p, t i = some p → p.blockHash = h → p.Forged P

instance (P : Platform) (h : Hash) (t : PendingTable) : Decidable (ForgedAt P h t) :=
  decidable_of_iff
    ((∃ i, ∃ p ∈ t i, p.blockHash = h) ∧ ∀ i, ∀ p ∈ t i, p.blockHash = h →
      acBlockTxRoot P p.block.txs ≠ p.block.header.txRoot)
    ⟨fun hf => ⟨hf.1, hf.2⟩, fun hf => ⟨hf.held, hf.forged⟩⟩

/-- Every entry of the hash was in its place before: it is the same proposal, with the same
transactions and with all the signers that it had. -/
def KeptFrom (h : Hash) (t t' : PendingTable) : Prop :=
  ∀ i q, t' i = some q → q.blockHash = h →
    ∃ p, t i = some p ∧ p.Kin q ∧ p.signers <+: q.signers

/-- An undisturbed action behind which the table still has an entry of the hash, and which does
not propose a block of this hash. -/
structure KeepsEntry (P : Platform) (h : Hash) (n : Node) (a : NodeAction) : Prop where
  undisturbed : Undisturbed P n a
  held : ∃ i p, (n.exec P a).cs.pending i = some p ∧ p.blockHash = h
  other : ∀ b, n.pc = .built b → acBlockHash P b.header ≠ h

section Forged

variable {P : Platform} {h : Hash} {cs cs' : Consensus} {n n' : Node} {a : NodeAction}
  {msgs : List Msg} {p q : Pending}

lemma Pending.Kin.forged (hkin : p.Kin q) (hp : p.Forged P) : q.Forged P := by
  rw [Pending.Forged, hkin.txs_eq, hkin.header_eq]
  exact hp

lemma KeptFrom.refl (h : Hash) (t : PendingTable) : KeptFrom h t t :=
  fun _ q hq _ => ⟨q, hq, .refl q, List.prefix_refl _⟩

lemma KeptFrom.trans {t u v : PendingTable} (htu : KeptFrom h t u) (huv : KeptFrom h u v) :
    KeptFrom h t v := by
  intro i r hr hhash
  obtain ⟨q, hq, hqr, hgrown⟩ := huv i r hr hhash
  obtain ⟨p, hp, hpq, hgrown'⟩ := htu i q hq (hqr.hash_eq ▸ hhash)
  exact ⟨p, hp, hpq.trans hqr, hgrown'.trans hgrown⟩

/-- Entries that were kept are as forged as they were. -/
lemma ForgedAt.kept {t t' : PendingTable} (hf : ForgedAt P h t) (hkept : KeptFrom h t t')
    {i : Fin 8} (hq : t' i = some q) (hhash : q.blockHash = h) : q.Forged P := by
  obtain ⟨p, hp, hkin, -⟩ := hkept i q hq hhash
  exact hkin.forged (hf.forged i p hp (hkin.hash_eq ▸ hhash))

lemma pendingFind_of_held {t : PendingTable} {i : Fin 8} (hp : t i = some p)
    (hhash : p.blockHash = h) : pendingFind t h ≠ none := by
  intro hnone
  rw [pendingFind, PendingTable.first, List.findSome?_eq_none_iff] at hnone
  have hi := hnone i (List.mem_finRange i)
  rw [hp] at hi
  simp [hhash] at hi

/-- What a call puts into a table with an entry of the hash has another hash. -/
lemma Call.stashes_other {x : Call} (hheld : ∃ i p, cs.pending i = some p ∧ p.blockHash = h)
    (hown : ∀ env junk slot b, x = .propose env junk slot b → acBlockHash P b.header ≠ h)
    (hq : x.stashes P cs = some q) : q.blockHash ≠ h := by
  obtain ⟨i, p, hp, hhash⟩ := hheld
  cases x with
  | block env b =>
    obtain ⟨-, hnone, -, -, beta, -, rfl⟩ := receivedEntry_some hq
    rintro (rfl : acBlockHash P b.header = h)
    exact pendingFind_of_held hp hhash hnone
  | propose env junk slot b =>
    obtain rfl := Option.some.inj hq
    exact hown env junk slot b rfl
  | vote env v => cases hq
  | votePhase env slot => cases hq
  | sealPhase env slot => cases hq

/-- The first change of a call brings no other body for the hash. -/
lemma KeptFrom.entry {x : Call} (hheld : ∃ i p, cs.pending i = some p ∧ p.blockHash = h)
    (hentry : Entry P x cs msgs cs')
    (hown : ∀ env junk slot b, x = .propose env junk slot b → acBlockHash P b.header ≠ h) :
    KeptFrom h cs.pending cs'.pending := by
  intro i q hq hhash
  rcases hentry.table with hsame | ⟨r, hr, htable⟩
  · obtain ⟨p, hp, hext⟩ := exists_earlier (hsame i) hq
    exact ⟨p, hp, hext.kin, hext.signers_prefix⟩
  · rw [htable, Function.update_apply] at hq
    split_ifs at hq
    · obtain rfl := Option.some.inj hq
      exact absurd hhash (Call.stashes_other hheld hown hr)
    · exact KeptFrom.refl h cs.pending i q hq hhash

/-- Attempts to seal leave the signers as they are. -/
lemma KeptFrom.settled {E : Env → Prop} (hP : P.MallocBounded)
    (hsettle : Run (Settle P E) cs msgs cs') : KeptFrom h cs.pending cs'.pending := by
  intro i q hq _
  obtain ⟨p, hp, hsettled⟩ := exists_earlier (settled_table hP hsettle i) hq
  exact ⟨p, hp, hsettled.kin, hsettled.signers_eq ▸ List.prefix_refl _⟩

/-- A block of the hash that is handed to the chain has a forged body. -/
def ForgedBlock (P : Platform) (h : Hash) (b : Block) : Prop :=
  acBlockHash P b.header = h → acBlockTxRoot P b.txs ≠ b.header.txRoot

/-- **One action**: the entries of the hash are kept, and no block of the hash is accepted. -/
lemma ForgedAt.step (hP : P.MallocBounded) (hinv : NodeInv P n) (hf : ForgedAt P h n.cs.pending)
    (ha : KeepsEntry P h n a) : KeptFrom h n.cs.pending (n.exec P a).cs.pending ∧
      ∃ new, Run (CleanStep P (ForgedBlock P h)) n.cs.chain new (n.exec P a).cs.chain := by
  have hown : ∀ x, a.call n = some x → ∀ env junk slot b, x = .propose env junk slot b →
      acBlockHash P b.header ≠ h := by
    rintro x hx env junk slot b rfl
    rcases NodeAction.call_cases hx with ⟨_, _, _, -, heq⟩ | ⟨_, _, _, -, heq⟩ |
      ⟨_, _, b', -, hpc, heq⟩ | ⟨_, -, -, heq⟩ | ⟨_, -, -, heq⟩
    · cases heq
    · cases heq
    · cases heq
      exact ha.other b hpc
    · cases heq
    · cases heq
  refine ⟨?_, n.exec_clean hP hinv ha.undisturbed ?_⟩
  · cases hcall : a.call n with
    | none =>
      obtain ⟨d, msgs, -, hcs, -⟩ := Node.exec_uncalled hP hcall
      rw [hcs]
      exact .refl h _
    | some x =>
      rw [(Node.exec_called hcall).1]
      obtain ⟨cs₁, msgs₁, msgs₂, hentry, hsettle, -⟩ := x.run_effect (P := P) x.meets_true n.cs
      exact (KeptFrom.entry hf.held hentry (hown x hcall)).trans (.settled hP hsettle)
  · intro x hx msgs cs' hentry _ i p hp hhash
    have hfits := (hinv.table.entry (Call.fitting_of_call hinv hx) hentry).fits i p hp
    exact hf.kept (.entry hf.held hentry (hown x hx)) hp (hfits.hash_eq.trans hhash)

/-- A block that has passed the checks does not have a forged body. -/
lemma cleanRun_not_forged {c d : Chain} {new : List Block}
    (hrun : Run (CleanStep P (ForgedBlock P h)) c new d) :
    ∀ b ∈ new, acBlockHash P b.header ≠ h := by
  refine hrun.invariant (I := fun new _ => ∀ b ∈ new, acBlockHash P b.header ≠ h) (by simp) ?_
  intro new d next e hall hs
  refine List.forall_mem_append.mpr ⟨hall, ?_⟩
  cases hs with
  | reseeded => simp
  | accepted now k b buf hQ hpass =>
    exact List.forall_mem_singleton.mpr fun hhash => hQ hhash hpass.txRoot

/-- **A forged body stays.**  Consider a node that has started on a chain which it has reached
before, and whose table has an entry of the hash `h` with transactions that do not fit to its
header.  Let the node go on, with any messages in any order, among them the block itself with
its own transactions and any certificate.  As long as an entry of this hash is in the table, and
unless the node builds the block itself, every entry of this hash is one that was there before:
it keeps its transactions, and it can only get further signers.  No block of this hash gets into
the chain. -/
theorem forged_body_stays (hP : P.MallocBounded) {g : Genesis} {es : List NodeEvent} {c : Chain}
    (hc : NodeReachable P g es c) {kp : Keypair} {validator : Bool} {slot : UInt64}
    {before after : List NodeAction}
    (hstart : NodeRun P (Undisturbed P) (Node.initial c kp validator slot) before n)
    (hforged : ForgedAt P h n.cs.pending) (hrun : NodeRun P (KeepsEntry P h) n after n') :
    ForgedAt P h n'.cs.pending ∧ KeptFrom h n.cs.pending n'.cs.pending ∧
      ∃ bs new, Ledger P g bs n.cs.chain ∧
        Ledger P g (bs ++ new) n'.cs.chain ∧ ∀ b ∈ new, acBlockHash P b.header ≠ h := by
  obtain ⟨bs, hledger⟩ := hstart.ledger hP hc
  have hinv := hstart.nodeInv hP (NodeInv.initial hP hc kp validator slot)
  have hend : NodeInv P n' ∧ ForgedAt P h n'.cs.pending ∧
      KeptFrom h n.cs.pending n'.cs.pending ∧
      ∃ new, Run (CleanStep P (ForgedBlock P h)) n.cs.chain new n'.cs.chain := by
    refine hrun.invariant (I := fun m => NodeInv P m ∧ ForgedAt P h m.cs.pending ∧
      KeptFrom h n.cs.pending m.cs.pending ∧
      ∃ new, Run (CleanStep P (ForgedBlock P h)) n.cs.chain new m.cs.chain)
      ⟨hinv, hforged, .refl h _, [], .refl _⟩ ?_
    rintro m a ⟨hm, hf, hkept, new, hnew⟩ ha
    obtain ⟨hkept', more, hmore⟩ := hf.step hP hm ha
    exact ⟨hm.step hP, ⟨ha.held, fun i q hq hhash => hf.kept hkept' hq hhash⟩,
      hkept.trans hkept', new ++ more, hnew.trans hmore⟩
  obtain ⟨-, hf, hkept, new, hnew⟩ := hend
  exact ⟨hf, hkept, bs, new, hledger, hledger.clean hnew, cleanRun_not_forged hnew⟩

end Forged

/-! The block with the transfer is announced with another transaction in its place, and then as
it is, with its certificate. -/

lemma length_swapped : [bondAllTx].length = payBlock.header.txCount.toNat := by decide +kernel

lemma length_swapped_le : [bondAllTx].length ≤ acBlockMaxTxs := by decide

/-- The block with another transaction, and without a certificate. -/
def swappedBlock : Block :=
  ⟨payBlock.header, [bondAllTx], [], length_swapped, length_swapped_le, Nat.zero_le _⟩

/-- A node that listens. -/
def listeningNode : Node := Node.initial (openedChain mintGenesis) (referenceKey 2) false 1

/-- A block arrives. -/
def announced (b : Block) : NodeAction := .receive (Env.atMs 100000) (.blockAnn (blockBytes b))

/-- The node has heard of the block with the other transaction. -/
def deceivedNode : Node := listeningNode.exec reference (announced swappedBlock)

/-- The certificate arrives with the right transaction, and the node does not accept the block.
A node that has not heard of the other one accepts it. -/
theorem forged_body_stays_swapped :
    (listeningNode.exec reference (announced payBlock)).cs.chain.height = 1 ∧
    (deceivedNode.exec reference (announced payBlock)).cs.chain.height = 0 ∧
    ForgedAt reference (acBlockHash reference payBlock.header)
      (deceivedNode.exec reference (announced payBlock)).cs.pending ∧
    KeptFrom (acBlockHash reference payBlock.header) deceivedNode.cs.pending
      (deceivedNode.exec reference (announced payBlock)).cs.pending ∧
    ∃ bs new, Ledger reference mintGenesis bs deceivedNode.cs.chain ∧
      Ledger reference mintGenesis (bs ++ new)
        (deceivedNode.exec reference (announced payBlock)).cs.chain ∧
      ∀ b ∈ new, acBlockHash reference b.header ≠ acBlockHash reference payBlock.header := by
  have hc : NodeReachable reference mintGenesis [] (openedChain mintGenesis) :=
    (reachable_genesis rfl (acChainOpen_openedChain (by decide +kernel))).node
  have hquiet : Undisturbed reference listeningNode (announced swappedBlock) ∧
      Undisturbed reference deceivedNode (announced payBlock) := by
    decide +kernel
  have hforged : ForgedAt reference (acBlockHash reference payBlock.header)
      deceivedNode.cs.pending := by
    decide +kernel
  have hheld : ForgedAt reference (acBlockHash reference payBlock.header)
      (deceivedNode.exec reference (announced payBlock)).cs.pending := by
    decide +kernel
  have hkeeps : KeepsEntry reference (acBlockHash reference payBlock.header) deceivedNode
      (announced payBlock) :=
    ⟨hquiet.2, hheld.held, fun b hb => by cases hb⟩
  exact ⟨by decide +kernel, by decide +kernel,
    forged_body_stays reference_mallocBounded hc (.single ⟨_, rfl, hquiet.1, rfl⟩) hforged
      (.single ⟨_, rfl, hkeeps, rfl⟩)⟩

end AgentChain
