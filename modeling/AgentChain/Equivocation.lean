import AgentChain.VoteLock

/-!
# Votes that contradict each other

Two signed votes for different blocks of one height are evidence against their signer, who
loses the whole stake (`AC_TX_SLASH_EVIDENCE`).  A node whose vote phases never move a vote
that is already cast is safe: all its votes at a height name one block, and no two of its
signatures make up evidence.  The move of `vote_phase` to a lower priority breaks this: the
last part of the file is a run of an honest node that gets slashed for it.
-/

namespace AgentChain

open Trace

/-- The action is a vote phase that moves a vote which was already broadcast: at the height of
the lock the node has voted, and the best entry has a lower priority than the lock. -/
def movesCastVote (n : Node) (a : NodeAction) : Bool :=
  a.isVotePhase n && n.cs.voteHeight == n.cs.chain.height + 1 &&
    (votesOf n.sent).any (fun v => v.height == n.cs.voteHeight) &&
    (bestAt n.cs.pending (n.cs.chain.height + 1)).any fun r =>
      priorityCmp r.2.priority n.cs.votePriority == .lt

/-- The node never moves a vote that is already cast. -/
def KeepsCastVotes (n : Node) (a : NodeAction) : Prop := movesCastVote n a = false

instance (n : Node) (a : NodeAction) : Decidable (KeepsCastVotes n a) :=
  inferInstanceAs (Decidable (_ = _))

/-- The vote signatures of a key verify for no other vote, as those of an ideal signature
scheme do. -/
def Keypair.BindsVotes (P : Platform) (kp : Keypair) : Prop :=
  ∀ height blockHash height' blockHash',
    acVerify P (acSign P (acVoteMessage height blockHash) kp) (acVoteMessage height' blockHash')
      kp.pk = true → height = height' ∧ blockHash = blockHash'

/-! ### The votes of a node -/

/-- All votes of the node were cast with its key; those at the height of the lock name the
block of the lock, all others are below it, and no two contradict each other. -/
structure VoteLog (P : Platform) (n : Node) : Prop where
  cast : ∀ v ∈ votesOf n.sent, ∃ proof, v = castVote P n.cs.kp v.height v.blockHash proof
  bounded : ∀ v ∈ votesOf n.sent, v.height < n.cs.voteHeight ∨
    v.height = n.cs.voteHeight ∧ v.blockHash = n.cs.voteBlock
  agree : ∀ v ∈ votesOf n.sent, ∀ w ∈ votesOf n.sent, v.height = w.height →
    v.blockHash = w.blockHash

section VoteLog

variable {P : Platform} {n : Node}

/-- Votes for the lock are added to a log in which every vote at its height is for it. -/
lemma VoteLog.extend {n' : Node} {new : List Msg} (h : VoteLog P n)
    (hsent : n'.sent = n.sent ++ new) (hkp : n'.cs.kp = n.cs.kp)
    (hold : ∀ v ∈ votesOf n.sent, v.height < n'.cs.voteHeight ∨
      v.height = n'.cs.voteHeight ∧ v.blockHash = n'.cs.voteBlock)
    (hnew : AtMostVote P n.cs.kp n'.cs.voteHeight n'.cs.voteBlock (votesOf new)) :
    VoteLog P n' := by
  have hbounded : ∀ v ∈ votesOf n'.sent, v.height < n'.cs.voteHeight ∨
      v.height = n'.cs.voteHeight ∧ v.blockHash = n'.cs.voteBlock := by
    intro v hv
    rw [hsent, votesOf_append, List.mem_append] at hv
    rcases hv with hv | hv
    · exact hold v hv
    · obtain ⟨proof, rfl⟩ := mem_atMostVote hnew hv
      exact Or.inr ⟨rfl, rfl⟩
  refine ⟨fun v hv => ?_, hbounded, fun v hv w hw hheight => ?_⟩
  · rw [hsent, votesOf_append, List.mem_append] at hv
    rw [hkp]
    rcases hv with hv | hv
    · exact h.cast v hv
    · obtain ⟨proof, rfl⟩ := mem_atMostVote hnew hv
      exact ⟨proof, rfl⟩
  · rcases hbounded v hv, hbounded w hw with ⟨hlt | ⟨hv', hvb⟩, hlt' | ⟨hw', hwb⟩⟩
    · -- both votes are old
      have hmem : ∀ u ∈ votesOf n'.sent, u.height < n'.cs.voteHeight → u ∈ votesOf n.sent := by
        intro u hu hlt
        rw [hsent, votesOf_append, List.mem_append] at hu
        refine hu.resolve_right fun hu => ?_
        obtain ⟨proof, rfl⟩ := mem_atMostVote hnew hu
        exact UInt64.lt_irrefl _ hlt
      exact h.agree v (hmem v hv hlt) w (hmem w hw hlt') hheight
    · rw [hheight, hw'] at hlt
      exact absurd hlt (UInt64.lt_irrefl _)
    · rw [← hheight, hv'] at hlt'
      exact absurd hlt' (UInt64.lt_irrefl _)
    · rw [hvb, hwb]

/-- One action keeps the log, unless it moves a vote that is already cast. -/
lemma VoteLog.step (hP : P.MallocBounded) {a : NodeAction} (h : VoteLog P n)
    (hinv : n.cs.LockInv) (ha : KeepsCastVotes n a) : VoteLog P (n.exec P a) := by
  obtain ⟨new, hsent, hlock, hgrown⟩ := n.exec_lockStep hP a
  have hkp := hlock.kp_eq
  obtain ⟨-, -, hvotes⟩ := hlock.lockLe hinv hgrown
  refine h.extend hsent hkp (fun v hv => ?_) hvotes
  generalize votesOf new = votes at hlock
  cases hlock with
  | kept hsame =>
    rw [hsame.height_eq, hsame.block_eq]
    exact h.bounded v hv
  | repeated hsame _ _ =>
    rw [hsame.height_eq, hsame.block_eq]
    exact h.bounded v hv
  | moved i p hvoting _ hbest hlower hsame _ =>
    have htarget : (n.exec P a).cs.voteHeight = n.cs.chain.height + 1 := hsame.height_eq
    rw [htarget]
    refine Or.inl ?_
    have hle := hinv.height_le
    have hnat := hinv.room.succ_toNat
    have hbound : v.height.toNat ≤ n.cs.voteHeight.toNat := by
      rcases h.bounded v hv with hlt | ⟨heq, -⟩
      · exact (UInt64.lt_iff_toNat_lt.mp hlt).le
      · rw [heq]
    rw [UInt64.lt_iff_toNat_lt, hnat]
    -- a vote at the next height would be one that is moved
    refine lt_of_le_of_ne (hbound.trans hle) fun heq => ?_
    have hlockAt : n.cs.voteHeight = n.cs.chain.height + 1 := UInt64.toNat_inj.mp (by omega)
    have hvAt : v.height = n.cs.voteHeight := UInt64.toNat_inj.mp (by omega)
    have hany : (votesOf n.sent).any (fun v => v.height == n.cs.voteHeight) = true :=
      List.any_eq_true.mpr ⟨v, hv, beq_iff_eq.mpr hvAt⟩
    have hmoves : movesCastVote n a = true := by
      rw [movesCastVote, hvoting, hany, hbest, beq_iff_eq.mpr hlockAt]
      exact beq_iff_eq.mpr (hlower hlockAt)
    rw [KeepsCastVotes, hmoves] at ha
    exact Bool.noConfusion ha

/-- Votes that do not contradict each other are no evidence. -/
lemma VoteLog.slash_fails (h : VoteLog P n) (hkp : n.cs.kp.BindsVotes P) {v w : Vote}
    (hv : v ∈ votesOf n.sent) (hw : w ∈ votesOf n.sent) {s : AcState} {tx : Tx} {a : Admitted}
    {b : BodySlash} (hb : acBodySlashDecode tx.body = some b) (hval : b.validator = n.cs.kp.pk)
    (hsigA : b.sigA = v.sig) (hsigB : b.sigB = w.sig) :
    (applySlashEvidence P s tx a).Failed s a := by
  rw [applySlashEvidence, hb]
  dsimp only
  split_ifs with hsame hsigs hstake
  · exact bodyFails_failed s a _
  · exact bodyFails_failed s a _
  · exact bodyFails_failed s a _
  · -- the signatures fix the height and the two blocks
    rw [Bool.not_eq_true', Bool.not_eq_false, slashSignaturesOk, Bool.and_eq_true, hsigA, hsigB,
      hval] at hsigs
    obtain ⟨proof, hvcast⟩ := h.cast v hv
    obtain ⟨proof', hwcast⟩ := h.cast w hw
    have hvsig : v.sig = acSign P (acVoteMessage v.height v.blockHash) n.cs.kp :=
      congrArg Vote.sig hvcast
    have hwsig : w.sig = acSign P (acVoteMessage w.height w.blockHash) n.cs.kp :=
      congrArg Vote.sig hwcast
    rw [hvsig, hwsig] at hsigs
    obtain ⟨hheight, hblock⟩ := hkp _ _ _ _ hsigs.1
    obtain ⟨hheight', hblock'⟩ := hkp _ _ _ _ hsigs.2
    refine absurd ?_ hsame
    rw [← hblock, ← hblock']
    exact h.agree v hv w hw (hheight.trans hheight'.symm)

end VoteLog

/-! ### Honest nodes -/

/-- **A node that keeps its cast votes is never slashable.**  In every run in which no vote
phase moves a vote that was already broadcast, all votes for one height name the same block,
and no two signatures of the node make up a body that `AC_TX_SLASH_EVIDENCE` accepts. -/
theorem kept_votes_unslashable {P : Platform} (hP : P.MallocBounded) {g : Genesis}
    {es : List NodeEvent} {c : Chain} (hc : NodeReachable P g es c) {kp : Keypair}
    (hkp : kp.BindsVotes P) {validator : Bool} {slot : UInt64} {as : List NodeAction} {n : Node}
    (h : NodeRun P KeepsCastVotes (Node.initial c kp validator slot) as n) :
    (∀ v ∈ votesOf n.sent, ∀ w ∈ votesOf n.sent, v.height = w.height →
      v.blockHash = w.blockHash) ∧
    ∀ v ∈ votesOf n.sent, ∀ w ∈ votesOf n.sent, ∀ s tx a b,
      acBodySlashDecode tx.body = some b → b.validator = kp.pk → b.sigA = v.sig →
        b.sigB = w.sig → (applySlashEvidence P s tx a).Failed s a := by
  have hinit := Consensus.LockInv.initial hP hc kp validator
  have hlog : VoteLog P n ∧ n.cs.LockInv ∧ n.cs.kp = kp := by
    refine h.invariant (I := fun m => VoteLog P m ∧ m.cs.LockInv ∧ m.cs.kp = kp) ?_ ?_
    · exact ⟨⟨nofun, nofun, nofun⟩, hinit, rfl⟩
    · rintro m a ⟨hlog, hinv, hkey⟩ ha
      obtain ⟨new, -, hlock, hgrown⟩ := m.exec_lockStep hP a
      exact ⟨hlog.step hP hinv ha, (hlock.lockLe hinv hgrown).2.1, hlock.kp_eq.trans hkey⟩
  obtain ⟨hlog, -, rfl⟩ := hlog
  exact ⟨hlog.agree, fun v hv w hw s tx a b hb hval hA hB =>
    hlog.slash_fails hkp hv hw hb hval hA hB⟩

/-! ### Witnesses -/

lemma labelled_bindsVotes (kp : Keypair) : kp.BindsVotes labelled :=
  fun _ _ _ _ h => labelSig_vote_inj (of_decide_eq_true h)

/-- The second slot without the block of the other validator: the vote is repeated. -/
def repeatedVote : List NodeAction :=
  [.own (.seal fun _ => Env.atMs 3400)] ++ leadSlot 4000 ++ [.own (.vote (Env.atMs 5100))]

theorem kept_votes_unslashable_labelled :
    ((votesOf ((equalNode 1).execAll labelled (firstVote ++ repeatedVote)).sent).map
        Vote.height = [1, 1]) ∧
      ∀ v ∈ votesOf ((equalNode 1).execAll labelled (firstVote ++ repeatedVote)).sent,
        ∀ w ∈ votesOf ((equalNode 1).execAll labelled (firstVote ++ repeatedVote)).sent,
          v.height = w.height → v.blockHash = w.blockHash := by
  refine ⟨by decide +kernel, ?_⟩
  exact (kept_votes_unslashable labelled_mallocBounded reachable_equalGenesis.node
    (labelled_bindsVotes _) (nodeRun_execAll (by decide +kernel))).1

/-- The report of two votes, by the third validator. -/
def evidenceTx (v w : Vote) : Tx :=
  signTx labelled ⟨acTxVersion, 1, 0x05, (referenceKey 3).pk, 0, 1000, 0, 1000000,
    (v.signer.bytes ++ acBe64 v.height ++ v.blockHash.bytes ++ v.sig.bytes ++ w.blockHash.bytes ++
      w.sig.bytes), [], ByteArr.fill 64 0, by simp [length_acBe64, acTxBodyMax], nil_memo_le⟩
    (referenceKey 3)

/-- The votes of the node that has moved its vote. -/
def movedVote (k : ℕ) : Vote :=
  (votesOf movedNode.sent).getD k
    ⟨0, ByteArr.fill 32 0, ByteArr.fill 32 0, ByteArr.fill 64 0, ByteArr.fill 64 0⟩

/-- **An honest node is slashed.**  It votes for its own block, moves to the block of lower
priority that arrives late, and the two votes cost it its stake. -/
theorem moved_vote_slashed :
    NodeRun labelled anyAction (equalNode 1) (firstVote ++ secondVote) movedNode ∧
      votesOf movedNode.sent = [movedVote 0, movedVote 1] ∧
      (movedVote 0).height = (movedVote 1).height ∧
      (movedVote 0).blockHash ≠ (movedVote 1).blockHash ∧
      (acStateGet movedNode.cs.chain.state (referenceKey 1).pk).2.stake = 400000000 ∧
      (acStateApplyTx labelled movedNode.cs.chain.state
        (evidenceTx (movedVote 0) (movedVote 1)) 3 1).1 = .applied ∧
      (acStateGet (acStateApplyTx labelled movedNode.cs.chain.state
        (evidenceTx (movedVote 0) (movedVote 1)) 3 1).2.2 (referenceKey 1).pk).2.stake = 0 := by
  exact ⟨run_votedNode.trans run_movedNode, by decide +kernel⟩

end AgentChain
