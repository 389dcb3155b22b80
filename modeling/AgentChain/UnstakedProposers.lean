import AgentChain.FoldedSigners
import AgentChain.CountedVotes

/-!
# Proposers without stake

`validate_proposer_vrf` of the chain looks up the stake of a proposer before it verifies the
proof.  `ac_consensus_handle_block` verifies the proof only, under the key that the block names,
and everybody can prove under a key of their own.  So a block on top of the tip enters the table
of proposals whoever made it.  This file says exactly which block messages leave the table, the
lock and the voting state as they are; the stake of the proposer is not among the reasons.
-/

namespace AgentChain

/-- The lock and the voting state are as before. -/
structure Consensus.SameVoting (cs cs' : Consensus) : Prop where
  slotVotes_eq : cs'.slotVotes = cs.slotVotes
  voteHeight_eq : cs'.voteHeight = cs.voteHeight
  voteBlock_eq : cs'.voteBlock = cs.voteBlock
  votePriority_eq : cs'.votePriority = cs.votePriority

/-- The table of proposals, the lock and the voting state are as before. -/
structure Consensus.Unmoved (cs cs' : Consensus) : Prop extends cs.SameVoting cs' where
  pending_eq : cs'.pending = cs.pending

lemma Consensus.SameVoting.refl (cs : Consensus) : cs.SameVoting cs := ⟨rfl, rfl, rfl, rfl⟩

lemma Consensus.SameVoting.trans {cs cs' cs'' : Consensus} (h : cs.SameVoting cs')
    (h' : cs'.SameVoting cs'') : cs.SameVoting cs'' :=
  ⟨h'.slotVotes_eq.trans h.slotVotes_eq, h'.voteHeight_eq.trans h.voteHeight_eq,
    h'.voteBlock_eq.trans h.voteBlock_eq, h'.votePriority_eq.trans h.votePriority_eq⟩

/-! ### Blocks that wait for votes -/

/-- A block that waits for its votes has no signers of its own. -/
def Pending.Waits (p : Pending) : Prop := p.committed = false → p.block.signers = []

/-- All blocks of the table that are not committed wait for votes. -/
def WaitingTable (t : PendingTable) : Prop := ∀ i p, t i = some p → p.Waits

section Waiting

variable {P : Platform} {E : Env → Prop} {cs cs' : Consensus} {msgs : List Msg} {x : Call}
  {t : PendingTable} {p : Pending}

lemma WaitingTable.update (h : WaitingTable t) (hp : p.Waits) (i : Fin 8) :
    WaitingTable (Function.update t i (some p)) := by
  intro j q hq
  rw [Function.update_apply] at hq
  split_ifs at hq
  · exact Option.some.inj hq ▸ hp
  · exact h j q hq

lemma Pending.Waits.addSigners (h : p.Waits) (gs : List CommitSigner) :
    (gs.foldl Pending.addSigner p).Waits := by
  induction gs generalizing p with
  | nil => exact h
  | cons g gs ih => exact ih (p := p.addSigner g) h

/-- A new entry waits for votes. -/
lemma Call.stashes_waits (h : x.stashes P cs = some p) : p.Waits := by
  cases x with
  | block env b =>
    obtain ⟨-, -, -, -, beta, -, rfl⟩ := receivedEntry_some h
    exact fun _ => rfl
  | propose env junk slot b =>
    obtain rfl := Option.some.inj h
    exact fun _ => rfl
  | vote env v => cases h
  | votePhase env slot => cases h
  | sealPhase env slot => cases h

lemma ourVoteNow_waiting (cs : Consensus) (h : WaitingTable cs.pending) {i : Fin 8}
    (hp : cs.pending i = some p) :
    WaitingTable (ourVoteNow P cs i p).1.pending := by
  rw [ourVoteNow]
  rcases amICommittee P cs.chain cs.kp p.slot with ⟨_ | proof, c⟩
  · exact h
  · exact h.update (p := p.addSigner _) (h i p hp) i

lemma Entry.waiting (he : Entry P x cs msgs cs') (h : WaitingTable cs.pending) :
    WaitingTable cs'.pending := by
  cases he with
  | idle => exact h
  | merged env b _ i p hp hhash => exact h.update ((h i p hp).addSigners b.signers) i
  | stashed _ _ d sv p hd hp => exact h.update (Call.stashes_waits hp) _
  | collected env v _ d i p hd hp => exact h.update (p := p.addSigner _) (h i p hp) i
  | reaffirmed env slot _ sv i p hvalidator hp =>
    exact ourVoteNow_waiting { cs with slotVotes := sv } h hp
  | voted env slot _ sv i p hvalidator hbest =>
    exact ourVoteNow_waiting { cs with slotVotes := sv } h (bestAt_some hbest).1

lemma Settle.waiting (hs : Settle P E cs msgs cs') (h : WaitingTable cs.pending) :
    WaitingTable cs'.pending := by
  cases hs with
  | timed _ i p ms hp => exact h.update (p := { p with thresholdReachedMs := ms }) (h i p hp) i
  | offered env _ i p ms henv hp hopen =>
    rw [sealBlock]
    generalize acChainAcceptBlock P env.acceptMs env.writes cs.chain _ = r
    dsimp only
    split_ifs
    · exact h.update (fun hc => by cases hc) i
    · exact h.update (fun _ => rfl) i

/-- **A call keeps the waiting blocks without signers.** -/
theorem WaitingTable.run (h : WaitingTable cs.pending) : WaitingTable (x.run P cs).1.pending := by
  obtain ⟨cs₁, msgs₁, msgs₂, hentry, hsettle, -⟩ := x.run_effect (P := P) x.meets_true cs
  exact hsettle.invariant (I := fun _ u => WaitingTable u.pending) (hentry.waiting h)
    fun _ _ _ _ hu hs => hs.waiting hu

lemma NodeRun.waiting (hP : P.MallocBounded) {C : Node → NodeAction → Prop} {c : Chain}
    {kp : Keypair} {validator : Bool} {slot : UInt64} {as : List NodeAction} {n : Node}
    (h : NodeRun P C (Node.initial c kp validator slot) as n) : WaitingTable n.cs.pending := by
  refine h.invariant (I := fun m => WaitingTable m.cs.pending) (fun _ _ hp => by cases hp) ?_
  intro m a hm _
  cases hcall : a.call m with
  | some x =>
    rw [(Node.exec_called hcall).1]
    exact hm.run
  | none =>
    obtain ⟨d, msgs, -, hcs, -⟩ := Node.exec_uncalled hP hcall
    rw [hcs]
    exact hm

end Waiting

/-! ### Attempts to seal -/

/-- An attempt to seal leaves the entry as it is: it is committed, it has not enough votes, or
the time of the threshold is noted and the block is either in its grace window or rejected. -/
def Pending.Rests (P : Platform) (env : Env) (c : Chain) (p : Pending) : Prop :=
  p.committed = true ∨ enoughVotes c p.signers = false ∨
    (p.thresholdReachedMs ≠ 0 ∨ env.sealMs = 0) ∧
      ((¬ p.slot + 1 < acChainCurrentSlot env.wallMs c ∧
          env.sealMs - p.thresholdReachedMs < acSealGraceMs) ∨
        ¬ ((acChainAcceptBlock P env.acceptMs env.writes c p.certified).1 = .ok ∨
          (acChainAcceptBlock P env.acceptMs env.writes c p.certified).1 = .dup))

section Seal

variable {P : Platform} {env : Env} {cs : Consensus} {i : Fin 8} {p q : Pending}

/-- Writing an entry changes nothing exactly when it was there. -/
lemma put_pending_iff (cs : Consensus) (hp : cs.pending i = some p) :
    (cs.put i q).pending = cs.pending ↔ q = p := by
  rw [Consensus.put, Function.update_eq_self_iff, hp, Option.some.injEq]

/-- A waiting block without signers is the block of the entry. -/
lemma Pending.Waits.bare_eq (h : p.Waits) (hopen : p.committed = false) :
    { p with block := p.bare } = p := by
  have hnil := h hopen
  obtain ⟨committed, height, slot, hash, ⟨header, txs, signers⟩⟩ := p
  cases hnil
  rfl

/-- Sealing an entry that waits changes the table exactly when the chain takes the block. -/
lemma sealBlock_pending_iff (hp : cs.pending i = some p) (hwaits : p.Waits)
    (hopen : p.committed = false) :
    (sealBlock P env cs i p).1.pending = cs.pending ↔
      ¬ ((acChainAcceptBlock P env.acceptMs env.writes cs.chain p.certified).1 = .ok ∨
        (acChainAcceptBlock P env.acceptMs env.writes cs.chain p.certified).1 = .dup) := by
  rw [sealBlock]
  generalize acChainAcceptBlock P env.acceptMs env.writes cs.chain p.certified = r
  split_ifs with hrc
  · refine iff_of_false (fun h => ?_) (not_not.mpr hrc)
    have heq := congrArg Pending.committed ((put_pending_iff { cs with chain := r.2 } hp).mp h)
    rw [hopen] at heq
    cases heq
  · exact iff_of_true ((put_pending_iff { cs with chain := r.2 } hp).mpr
      (hwaits.bare_eq hopen)) hrc

/-- Noting the time of the threshold shows in the table. -/
lemma sealBlock_timed (hp : cs.pending i = some p) {ms : UInt64} (hms : ms ≠ p.thresholdReachedMs) :
    (sealBlock P env cs i { p with thresholdReachedMs := ms }).1.pending ≠ cs.pending := by
  rw [sealBlock]
  generalize acChainAcceptBlock P env.acceptMs env.writes cs.chain _ = r
  dsimp only
  split_ifs
  · exact fun h => hms (congrArg Pending.thresholdReachedMs
      ((put_pending_iff { cs with chain := r.2 } hp).mp h))
  · exact fun h => hms (congrArg Pending.thresholdReachedMs
      ((put_pending_iff { cs with chain := r.2 } hp).mp h))

/-- **An attempt to seal** changes the table exactly when the entry does not rest. -/
lemma tryCommit_pending_iff (hp : cs.pending i = some p) (hwaits : p.Waits) :
    (tryCommit P env cs i).1.pending = cs.pending ↔ p.Rests P env cs.chain := by
  rw [tryCommit, tryCommitInner, hp, Pending.Rests]
  dsimp only
  by_cases hdone : p.committed = true
  · rw [if_pos hdone]
    exact iff_of_true rfl (Or.inl hdone)
  by_cases hvotes : enoughVotes cs.chain p.signers = true
  swap
  · rw [if_neg hdone, if_pos (by simpa using hvotes)]
    exact iff_of_true rfl (Or.inr (Or.inl (by simpa using hvotes)))
  rw [if_neg hdone, if_neg (by simpa using hvotes)]
  have hopen : p.committed = false := by simpa using hdone
  by_cases hnoted : p.thresholdReachedMs ≠ 0 ∨ env.sealMs = 0
  · -- the time is noted already, or noting it writes the zero that is there
    have hsame : (if p.thresholdReachedMs = 0 then { p with thresholdReachedMs := env.sealMs }
        else p) = p := by
      split_ifs with hzero
      · rw [hnoted.resolve_left (not_not.mpr hzero), ← hzero]
      · rfl
    rw [hsame]
    split_ifs with hgrace
    · refine iff_of_true ((put_pending_iff cs hp).mpr rfl) (Or.inr (Or.inr ⟨hnoted, Or.inl ?_⟩))
      simpa using hgrace
    · rw [sealBlock_pending_iff hp hwaits hopen]
      have hlate : ¬ (¬ p.slot + 1 < acChainCurrentSlot env.wallMs cs.chain ∧
          env.sealMs - p.thresholdReachedMs < acSealGraceMs) := by
        simpa using hgrace
      constructor
      · exact fun h => Or.inr (Or.inr ⟨hnoted, Or.inr h⟩)
      · rintro (h | h | ⟨-, h | h⟩)
        · exact absurd h hdone
        · exact absurd hvotes (by simp [h])
        · exact absurd h hlate
        · exact h
  · have hzero : p.thresholdReachedMs = 0 := by
      by_contra hne
      exact hnoted (Or.inl hne)
    have hms : env.sealMs ≠ p.thresholdReachedMs := by
      rw [hzero]
      exact fun h => hnoted (Or.inr h)
    rw [if_pos hzero]
    refine iff_of_false ?_ (by simp [hdone, hvotes, hnoted])
    split_ifs with hgrace
    · exact fun h => hms (congrArg Pending.thresholdReachedMs ((put_pending_iff cs hp).mp h))
    · exact sealBlock_timed hp hms

/-- An attempt to seal touches neither the lock nor the voting state. -/
lemma tryCommit_sameVoting (cs : Consensus) (i : Fin 8) :
    cs.SameVoting (tryCommit P env cs i).1 := by
  refine (tryCommit_settle (E := fun _ => True) trivial cs i).invariant
    (I := fun _ u => cs.SameVoting u) (.refl cs) ?_
  intro _ u _ u' hu hs
  refine hu.trans ?_
  cases hs with
  | timed _ i p ms hp => exact ⟨rfl, rfl, rfl, rfl⟩
  | offered env _ i p ms henv hp hopen =>
    rw [sealBlock]
    generalize acChainAcceptBlock P env.acceptMs env.writes u.chain _ = r
    dsimp only
    split_ifs
    · exact ⟨rfl, rfl, rfl, rfl⟩
    · exact ⟨rfl, rfl, rfl, rfl⟩

end Seal

/-! ### Block messages -/

/-- A block on top of the tip with a proof under the key of its proposer. -/
structure ProvenChild (P : Platform) (c : Chain) (b : Block) : Prop where
  height_eq : b.header.height = c.height + 1
  parent_eq : b.header.parentHash = c.tipHash
  proven : (acVrfVerify P b.header.proposerVrfProof (leaderAlpha
    (acChainEpochSeed P c (acEpochOf b.header.slot)).1 b.header.slot)
    b.header.proposer).isSome = true

/-- The block messages without effect: another version, a new block that is no proven child of
the tip, or a known block that brings no signer while its entry rests. -/
inductive Harmless (P : Platform) (env : Env) (cs : Consensus) (b : Block) : Prop
  | version (h : b.header.version ≠ acBlockVersion)
  | unproven (hfind : pendingFind cs.pending (acBlockHash P b.header) = none)
      (h : ¬ ProvenChild P cs.chain b)
  | known (i : Fin 8) (p : Pending)
      (hfind : pendingFind cs.pending (acBlockHash P b.header) = some (i, p))
      (hnew : newSigners p.signers b.signers = []) (hrests : p.Rests P env cs.chain)

section Messages

variable {P : Platform} {env : Env} {cs : Consensus} {b : Block} {i : Fin 8} {p : Pending}

lemma blockHash_ne_of_unknown {t : PendingTable} {hash : Hash} (h : pendingFind t hash = none)
    (hp : t i = some p) : p.blockHash ≠ hash := by
  have hnone := List.findSome?_eq_none_iff.mp h i (List.mem_finRange i)
  rw [hp] at hnone
  simpa using hnone

lemma requestGap_unmoved (env : Env) (cs : Consensus) (target : UInt64) :
    cs.Unmoved (requestGap env cs target).1 := by
  rw [requestGap]
  dsimp only
  split_ifs <;> exact ⟨⟨rfl, rfl, rfl, rfl⟩, rfl⟩

/-- A block that the table does not know and that is no proven child of the tip. -/
lemma handleBlock_unproven (hversion : b.header.version = acBlockVersion)
    (hfind : pendingFind cs.pending (acBlockHash P b.header) = none)
    (h : ¬ ProvenChild P cs.chain b) : cs.Unmoved (handleBlock P env cs b).1 := by
  rw [handleBlock, if_neg (not_not.mpr hversion), hfind]
  dsimp only
  split_ifs with hfar hlink
  · exact requestGap_unmoved env cs _
  · exact ⟨.refl cs, rfl⟩
  · rw [not_or, not_not, not_not] at hlink
    cases hvrf : acVrfVerify P b.header.proposerVrfProof (leaderAlpha
        (acChainEpochSeed P cs.chain (acEpochOf b.header.slot)).1 b.header.slot)
        b.header.proposer with
    | none => exact ⟨⟨rfl, rfl, rfl, rfl⟩, rfl⟩
    | some beta => exact absurd ⟨hlink.1, hlink.2, by rw [hvrf]; rfl⟩ h

/-- A proven child of the tip that the table does not know is put there. -/
lemma handleBlock_proven (hP : P.MallocBounded) (env : Env)
    (hversion : b.header.version = acBlockVersion)
    (hfind : pendingFind cs.pending (acBlockHash P b.header) = none)
    (h : ProvenChild P cs.chain b) :
    ∃ q, (handleBlock P env cs b).1.pending (pendingAlloc cs.pending) = some q ∧
      q.blockHash = acBlockHash P b.header := by
  obtain ⟨beta, hvrf⟩ := Option.isSome_iff_exists.mp h.proven
  have hentry : (receivedEntry P env cs b).isSome = true := by
    rw [receivedEntry, if_neg (not_not.mpr hversion), hfind, if_neg (by simp),
      if_neg (by simp [h.height_eq, h.parent_eq])]
    dsimp only
    rw [hvrf]
    rfl
  obtain ⟨p, hp⟩ := Option.isSome_iff_exists.mp hentry
  obtain ⟨q, hq, hkin, -⟩ := handleBlock_stashes hP hp
  obtain ⟨-, -, -, -, beta, -, rfl⟩ := receivedEntry_some hp
  exact ⟨q, hq, hkin.hash_eq⟩

/-- Adding signers changes nothing but the signers. -/
lemma addSigners_signers (p : Pending) (gs : List CommitSigner) :
    { gs.foldl Pending.addSigner p with signers := p.signers, signers_le := p.signers_le } = p := by
  induction gs generalizing p with
  | nil => rfl
  | cons g gs ih =>
    exact congrArg (fun q : Pending => { q with signers := p.signers, signers_le := p.signers_le })
      (ih (p.addSigner g))

lemma addSigners_eq_self {gs : List CommitSigner}
    (h : (gs.foldl Pending.addSigner p).signers = p.signers) :
    gs.foldl Pending.addSigner p = p := by
  refine Eq.trans ?_ (addSigners_signers p gs)
  generalize gs.foldl Pending.addSigner p = q at h
  obtain ⟨committed, height, slot, hash, block, signers, hle⟩ := q
  cases h
  rfl

/-- A message that brings no signer to a known block is an attempt to seal. -/
lemma handleBlock_nothing_new (hversion : b.header.version = acBlockVersion)
    (hfind : pendingFind cs.pending (acBlockHash P b.header) = some (i, p))
    (hnew : newSigners p.signers b.signers = []) :
    handleBlock P env cs b = tryCommit P env cs i := by
  have hp := (PendingTable.first_some hfind).1
  have hsigners : (b.signers.foldl Pending.addSigner p).signers = p.signers := by
    rw [signers_addSigners, foldl_addSigner, hnew, List.append_nil]
  rw [handleBlock_known hversion hfind, addSigners_eq_self hsigners, Consensus.put, ← hp,
    Function.update_eq_self]

/-- **Block messages.**  A message leaves the table, the lock and the voting state as they are
exactly when it is harmless. -/
theorem handleBlock_unmoved_iff (hP : P.MallocBounded) (hwaiting : WaitingTable cs.pending) :
    cs.Unmoved (handleBlock P env cs b).1 ↔ Harmless P env cs b := by
  by_cases hversion : b.header.version = acBlockVersion
  swap
  · rw [handleBlock, if_pos hversion]
    exact iff_of_true ⟨.refl cs, rfl⟩ (.version hversion)
  cases hfind : pendingFind cs.pending (acBlockHash P b.header) with
  | none =>
    constructor
    · intro hsame
      refine .unproven hfind fun hchild => ?_
      obtain ⟨q, hq, hhash⟩ := handleBlock_proven hP env hversion hfind hchild
      rw [hsame.pending_eq] at hq
      exact blockHash_ne_of_unknown hfind hq hhash
    · rintro (hother | ⟨-, h⟩ | ⟨i, p, hfind', -, -⟩)
      · exact absurd hversion hother
      · exact handleBlock_unproven hversion hfind h
      · rw [hfind] at hfind'
        cases hfind'
  | some r =>
    obtain ⟨i, p⟩ := r
    have hp := (PendingTable.first_some hfind).1
    by_cases hnew : newSigners p.signers b.signers = []
    · rw [handleBlock_nothing_new hversion hfind hnew]
      constructor
      · intro hsame
        exact .known i p hfind hnew ((tryCommit_pending_iff hp (hwaiting i p hp)).mp
          hsame.pending_eq)
      · rintro (hother | ⟨hfind', -⟩ | ⟨j, q, hfind', -, hrests⟩)
        · exact absurd hversion hother
        · rw [hfind] at hfind'
          cases hfind'
        · obtain ⟨rfl, rfl⟩ := Prod.mk.inj (Option.some.inj (hfind.symm.trans hfind'))
          exact ⟨tryCommit_sameVoting cs i,
            (tryCommit_pending_iff hp (hwaiting i p hp)).mpr hrests⟩
    · refine iff_of_false (fun hsame => ?_) ?_
      · obtain ⟨q, hq, -, hsigners⟩ := handleBlock_merges hP env hversion hfind
        rw [hsame.pending_eq] at hq
        obtain rfl := Option.some.inj (hp.symm.trans hq)
        exact hnew (by simpa using hsigners)
      · rintro (hother | ⟨hfind', -⟩ | ⟨j, q, hfind', hnone, -⟩)
        · exact hother hversion
        · rw [hfind] at hfind'
          cases hfind'
        · obtain ⟨rfl, rfl⟩ := Prod.mk.inj (Option.some.inj (hfind.symm.trans hfind'))
          exact hnew hnone

/-- The proposer of the block has less than the least stake at the tip. -/
def Unstaked (c : Chain) (b : Block) : Prop :=
  (acStateGet c.state b.header.proposer).2.stake < acMinStakeUcrd

instance (c : Chain) (b : Block) : Decidable (Unstaked c b) := inferInstanceAs (Decidable (_ < _))

/-- **Proposers without stake.**  On every node that can be reached and for every message: that
the block of a proposer without stake leaves the table, the lock and the voting state as they
are amounts to its being harmless. -/
theorem unstaked_block_ignored_iff (hP : P.MallocBounded) {C : Node → NodeAction → Prop} {c : Chain}
    {kp : Keypair} {validator : Bool} {slot : UInt64} {as : List NodeAction} {n : Node}
    (hrun : NodeRun P C (Node.initial c kp validator slot) as n) (env : Env) (buf : Bytes) :
    (∀ b used, acBlockDecode buf = some (b, used) → Unstaked n.cs.chain b →
      n.cs.Unmoved (acConsensusHandleBlock P env n.cs buf).1) ↔
    ∀ b used, acBlockDecode buf = some (b, used) → Unstaked n.cs.chain b →
      Harmless P env n.cs b := by
  refine forall₂_congr fun b used => forall₂_congr fun hdecode _ => ?_
  rw [acConsensusHandleBlock, hdecode]
  exact handleBlock_unmoved_iff hP (hrun.waiting hP)

end Messages

/-! ### Squatters -/

/-- A block that a key without stake has made on top of the genesis, with a proof of its own. -/
def squatterBlock (ms : UInt64) : Block :=
  let c := openedOn labelled datedGenesis
  let proof := acVrfProve labelled (leaderAlpha (computeEpochSeed labelled c 0) 1) (referenceKey 9)
  (builtBlock labelled c 1 (referenceKey 9) proof ⟨[], nil_candidates_le⟩).retimed ms

/-- The first validator has proposed its block. -/
def proposedNode : Node := (datedNode 1).execAll labelled (leadSlot 2001)

lemma proposedNode_run :
    NodeRun labelled anyAction (datedNode 1) (leadSlot 2001) proposedNode :=
  nodeRun_execAll (allMeet_any _ _)

/-- A block without stake whose proof does not verify. -/
def unprovenBlock : Block := (squatterBlock 2001).withProof (ByteArr.fill 64 0)

/-- Such a block is ignored. -/
theorem unstaked_block_ignored_unproven :
    Unstaked proposedNode.cs.chain unprovenBlock ∧
      proposedNode.cs.Unmoved (acConsensusHandleBlock labelled (Env.atMs 2600) proposedNode.cs
        (blockBytes unprovenBlock)).1 := by
  have hfacts : Unstaked proposedNode.cs.chain unprovenBlock ∧
      (pendingFind proposedNode.cs.pending (acBlockHash labelled unprovenBlock.header)).isNone ∧
      acVrfVerify labelled unprovenBlock.header.proposerVrfProof (leaderAlpha (acChainEpochSeed
        labelled proposedNode.cs.chain (acEpochOf unprovenBlock.header.slot)).1
        unprovenBlock.header.slot) unprovenBlock.header.proposer = none := by
    decide +kernel
  obtain ⟨hpoor, hfind, hproof⟩ := hfacts
  have hdecode := acBlockDecode_encoded unprovenBlock
  refine ⟨hpoor, (unstaked_block_ignored_iff labelled_mallocBounded proposedNode_run (Env.atMs 2600)
    (blockBytes unprovenBlock)).mpr ?_ _ _ hdecode hpoor⟩
  intro b used hb _
  obtain ⟨rfl, -⟩ := Prod.mk.inj (Option.some.inj (hdecode.symm.trans hb))
  refine .unproven (Option.isNone_iff_eq_none.mp hfind) fun hchild => ?_
  have hproven := hchild.proven
  rw [hproof] at hproven
  cases hproven

/-- Eight blocks without stake. -/
def squat : List NodeAction :=
  (List.range 8).map fun k => .receive (Env.atMs (2600 + UInt64.ofNat k))
    (.blockAnn (blockBytes (squatterBlock (2001 + UInt64.ofNat k))))

/-- The first validator has proposed its block, and then receives the eight blocks. -/
def squattedNode : Node := (datedNode 1).execAll labelled (leadSlot 2001 ++ squat)

/-- **Squatters evict an honest proposal and get a vote.**  The first block of a key without
stake moves the table.  Eight of them leave no other block there, and the validator votes for
one of them. -/
theorem squatters_get_vote :
    datedGenesis.Loadable ∧
    NodeRun labelled anyAction (datedNode 1) (leadSlot 2001 ++ squat) squattedNode ∧
    Unstaked proposedNode.cs.chain (squatterBlock 2001) ∧
    ¬ proposedNode.cs.Unmoved (acConsensusHandleBlock labelled (Env.atMs 2600) proposedNode.cs
      (blockBytes (squatterBlock 2001))).1 ∧
    (∀ i, ∀ p ∈ squattedNode.cs.pending i, p.block.header.proposer = (referenceKey 9).pk) ∧
    (squattedNode.exec labelled (.own (.vote (Env.atMs 3101)))).cs.voteBlock =
      acBlockHash labelled (squatterBlock 2008).header := by
  have hfacts : Unstaked proposedNode.cs.chain (squatterBlock 2001) ∧
      (proposedNode.cs.pending 1).isNone ∧
      ((acConsensusHandleBlock labelled (Env.atMs 2600) proposedNode.cs
        (blockBytes (squatterBlock 2001))).1.pending 1).isSome ∧
      (∀ i, ∀ p ∈ squattedNode.cs.pending i, p.block.header.proposer = (referenceKey 9).pk) ∧
      (squattedNode.exec labelled (.own (.vote (Env.atMs 3101)))).cs.voteBlock =
        acBlockHash labelled (squatterBlock 2008).header := by
    decide +kernel
  obtain ⟨hpoor, hfree, htaken, hall, hvote⟩ := hfacts
  refine ⟨by decide, nodeRun_execAll (allMeet_any _ _), hpoor, fun hsame => ?_, hall, hvote⟩
  rw [hsame.pending_eq] at htaken
  rw [Option.isNone_iff_eq_none.mp hfree] at htaken
  cases htaken

end AgentChain
