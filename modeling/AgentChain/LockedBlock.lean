import AgentChain.ProposalTable

/-!
# The locked block stays available

A node that has voted at the next height counts on finding its block in the table again, to
repeat the vote or to move it to a lower priority.  This holds as long as no proposal for that
height is evicted from the table, which has room for eight, and as long as no vote phase gives
up at the flag of its slot with a better block at hand.  The table evicts by age alone, so that
a locked block can be driven out by eight newer proposals for its height.
-/

namespace AgentChain

open Trace

/-- The action evicts a proposal for the next height that is open for votes. -/
def evictsOpen (P : Platform) (n : Node) (a : NodeAction) : Bool :=
  (a.stashes P n).isSome &&
    (n.cs.pending (pendingAlloc n.cs.pending)).any fun p => p.votable (n.cs.chain.height + 1)

/-- The `voted` flag of the current slot. -/
def slotVoted (cs : Consensus) (slot : UInt64) : Bool :=
  ((slotVoteFor cs.slotVotes slot).2 (slotVoteFor cs.slotVotes slot).1).voted

/-- The action is a vote phase that returns at the flag of its slot, although there is a block
of lower priority than the one it is locked on. -/
def cutShort (n : Node) (a : NodeAction) : Bool :=
  a.isVotePhase n && slotVoted n.cs n.slot && n.cs.voteHeight == n.cs.chain.height + 1 &&
    (bestAt n.cs.pending (n.cs.chain.height + 1)).any fun r =>
      priorityCmp r.2.priority n.cs.votePriority == .lt

/-- The action does neither. -/
def KeepsProposals (P : Platform) (n : Node) (a : NodeAction) : Prop :=
  evictsOpen P n a = false ∧ cutShort n a = false

instance (P : Platform) (n : Node) (a : NodeAction) : Decidable (KeepsProposals P n a) :=
  inferInstanceAs (Decidable (_ ∧ _))

section Steps

variable {P : Platform} {n : Node} {a : NodeAction}

/-- A vote phase that is not held back locks on its choice, and broadcasts what
`our_vote_now` does. -/
lemma votePhase_locks (hP : P.MallocBounded) (env : Env) {cs : Consensus} {slot : UInt64}
    {i : Fin 8} {p : Pending} (hvalidator : cs.validator = true)
    (hflag : slotVoted cs slot = false)
    (hbest : bestAt cs.pending (cs.chain.height + 1) = some (i, p))
    (hlower : cs.voteHeight = cs.chain.height + 1 →
      priorityCmp p.priority cs.votePriority = .lt) :
    (cs.lockOn (cs.chain.height + 1) p).SameLock (votePhase P env cs slot).1 ∧
      votesOf (votePhase P env cs slot).2 = votesOf (ourVoteNow P
        { cs with slotVotes := (slotVoteFor cs.slotVotes slot).2 } i p).2 := by
  rw [votePhase, if_neg (by simp [hvalidator])]
  dsimp only
  rw [if_neg (by rw [← slotVoted, hflag]; decide), hbest]
  dsimp only
  rw [if_neg (fun h => h.2 (hlower h.1))]
  dsimp only
  obtain ⟨-, hvoted, -⟩ := ourVoteNow_votes (P := P)
    { cs with slotVotes := (slotVoteFor cs.slotVotes slot).2 } i p
  obtain ⟨hnone, hlock, -⟩ := settled_lockStep hP (@tryCommit_settle P (fun _ => True) env
    trivial ((ourVoteNow P { cs with slotVotes := (slotVoteFor cs.slotVotes slot).2 }
      i p).1.lockOn (cs.chain.height + 1) p) i)
  refine ⟨⟨hlock.kp_eq.trans hvoted.kp_eq, hlock.validator_eq.trans hvoted.validator_eq,
    hlock.height_eq, hlock.block_eq, hlock.priority_eq⟩, ?_⟩
  rw [votesOf_append]
  exact (congrArg _ hnone).trans (List.append_nil _)

lemma NodeAction.call_of_isVotePhase (h : a.isVotePhase n = true) :
    ∃ env, a.call n = some (.votePhase env n.slot) := by
  rw [NodeAction.isVotePhase] at h
  cases hcall : a.call n with
  | none =>
    rw [hcall] at h
    cases h
  | some x =>
    rw [hcall, Option.any_some] at h
    rcases NodeAction.call_cases hcall with ⟨env, m, b, -, rfl⟩ | ⟨env, m, v, -, rfl⟩ |
      ⟨env, junk, b, -, -, rfl⟩ | ⟨env, -, -, rfl⟩ | ⟨env, -, -, rfl⟩
    · cases h
    · cases h
    · cases h
    · exact ⟨env, rfl⟩
    · cases h

/-- A proposal for the next height is open for votes. -/
lemma NodeInv.votable (h : NodeInv P n) {i : Fin 8} {p : Pending} (hp : n.cs.pending i = some p)
    (hheight : p.height.toNat = n.cs.chain.height.toNat + 1) :
    p.votable (n.cs.chain.height + 1) = true := by
  refine Pending.votable_iff.mpr ⟨?_, UInt64.toNat_inj.mp ?_⟩
  · by_contra hcommitted
    have := (h.table.fits i p hp).done (by simpa using hcommitted)
    omega
  · rw [hheight, h.table.room.succ_toNat]

/-- A proposal for the next height stays. -/
lemma NodeInv.stays (hP : P.MallocBounded) (h : NodeInv P n) (ha : evictsOpen P n a = false)
    {i : Fin 8} {p : Pending} (hp : n.cs.pending i = some p)
    (hheight : p.height.toNat = n.cs.chain.height.toNat + 1) :
    ∃ q, (n.exec P a).cs.pending i = some q ∧ p.Kin q := by
  refine Node.exec_kin hP hp fun hstash hi => ?_
  rw [evictsOpen, hstash, hi, hp, Bool.true_and] at ha
  exact absurd (h.votable hp hheight) (by simpa using ha)

/-- What a run knows about its locks: they are at most at the next height, and only validators
have one. -/
structure LockerInv (P : Platform) (n : Node) : Prop where
  node : NodeInv P n
  lock : n.cs.LockInv
  validator : n.cs.validator = false → n.cs.voteHeight = 0

lemma LockerInv.step (hP : P.MallocBounded) (h : LockerInv P n) : LockerInv P (n.exec P a) := by
  obtain ⟨new, -, hlock, hgrown⟩ := n.exec_lockStep hP a
  refine ⟨h.node.step hP, (hlock.lockLe h.lock hgrown).2.1, fun hval => ?_⟩
  generalize votesOf new = votes at hlock
  cases hlock with
  | kept hsame =>
    rw [hsame.validator_eq] at hval
    rw [hsame.height_eq]
    exact h.validator hval
  | repeated hsame =>
    rw [hsame.validator_eq] at hval
    rw [hsame.height_eq]
    exact h.validator hval
  | moved i p _ hvalidator _ _ hsame =>
    rw [hsame.validator_eq] at hval
    exact absurd (hvalidator.symm.trans hval) (by decide)

/-! ### The locked block -/

/-- The block of a lock at the next height is in the table. -/
def LockHeld (n : Node) : Prop :=
  n.cs.voteHeight = n.cs.chain.height + 1 →
    ∃ i p, n.cs.pending i = some p ∧ p.height = n.cs.chain.height + 1 ∧
      p.blockHash = n.cs.voteBlock

lemma LockHeld.step (hP : P.MallocBounded) (hinv : LockerInv P n) (h : LockHeld n)
    (ha : KeepsProposals P n a) : LockHeld (n.exec P a) := by
  intro hheight
  obtain ⟨new, -, hlock, hgrown⟩ := n.exec_lockStep hP a
  have hroom := hinv.lock.room.succ_toNat
  have hroom' := (hgrown.room hinv.lock.room).succ_toNat
  have hle := hgrown.height_le
  have hbound := hinv.lock.height_le
  have htarget := congrArg UInt64.toNat hheight
  rw [hroom'] at htarget
  -- a proposal of the old next height is one of the new next height, if that is the lock's
  have hkeep : ∀ i p, n.cs.pending i = some p → p.height.toNat = n.cs.chain.height.toNat + 1 →
      p.height.toNat = (n.exec P a).cs.voteHeight.toNat →
      p.blockHash = (n.exec P a).cs.voteBlock →
      ∃ i q, (n.exec P a).cs.pending i = some q ∧
        q.height = (n.exec P a).cs.chain.height + 1 ∧
        q.blockHash = (n.exec P a).cs.voteBlock := by
    intro i p hp hnext hlocked hhash
    obtain ⟨q, hq, hkin⟩ := hinv.node.stays hP ha.1 hp hnext
    refine ⟨i, q, hq, ?_, hkin.hash_eq.trans hhash⟩
    rw [hkin.height_eq, ← hheight]
    exact UInt64.toNat_inj.mp hlocked
  have hsame_case : n.cs.SameLock (n.exec P a).cs → ∃ i q, (n.exec P a).cs.pending i = some q ∧
      q.height = (n.exec P a).cs.chain.height + 1 ∧ q.blockHash = (n.exec P a).cs.voteBlock := by
    intro hsame
    rw [hsame.height_eq] at htarget
    have hold : n.cs.voteHeight = n.cs.chain.height + 1 := UInt64.toNat_inj.mp (by omega)
    obtain ⟨i, p, hp, hpheight, hphash⟩ := h hold
    refine hkeep i p hp (by rw [hpheight, hroom]) ?_ (hphash.trans hsame.block_eq.symm)
    rw [hpheight, hsame.height_eq, hold]
  generalize votesOf new = votes at hlock
  cases hlock with
  | kept hsame => exact hsame_case hsame
  | repeated hsame => exact hsame_case hsame
  | moved i p _ _ hbest _ hsame =>
    obtain ⟨hp, hvotable⟩ := bestAt_some hbest
    have hpheight := (Pending.votable_iff.mp hvotable).2
    exact hkeep i p hp (by rw [hpheight, hroom]) (by rw [hpheight, hsame.height_eq]; rfl)
      hsame.block_eq.symm

/-! ### The proposals that were considered -/

/-- A proposal is still in the table when its height is the next one. -/
structure StillHeld (q : Pending) (n : Node) : Prop where
  height_le : q.height.toNat ≤ n.cs.chain.height.toNat + 1
  held : q.height.toNat = n.cs.chain.height.toNat + 1 →
    ∃ i p, n.cs.pending i = some p ∧ p.height = q.height ∧ p.priority = q.priority

lemma StillHeld.step (hP : P.MallocBounded) (hinv : LockerInv P n) {q : Pending}
    (h : StillHeld q n) (ha : KeepsProposals P n a) : StillHeld q (n.exec P a) := by
  obtain ⟨new, -, -, hgrown⟩ := n.exec_lockStep hP a
  have hle := hgrown.height_le
  have hq := h.height_le
  refine ⟨by omega, fun hnext => ?_⟩
  obtain ⟨i, p, hp, hpheight, hprio⟩ := h.held (by omega)
  obtain ⟨r, hr, hkin⟩ := hinv.node.stays hP ha.1 hp (by rw [hpheight]; omega)
  exact ⟨i, r, hr, hkin.height_eq.trans hpheight, hkin.priority_eq.trans hprio⟩

/-- The proposals below the choice of a vote phase: there are none. -/
lemma StillHeld.best {q : Pending} (hinv : LockerInv P n) (h : StillHeld q n)
    (hnext : q.height.toNat = n.cs.chain.height.toNat + 1) :
    ∃ i p, bestAt n.cs.pending (n.cs.chain.height + 1) = some (i, p) ∧
      priorityCmp q.priority p.priority ≠ .lt := by
  obtain ⟨j, r, hr, hrheight, hprio⟩ := h.held hnext
  have hvotable := hinv.node.votable hr (by rw [hrheight, hnext])
  cases hbest : bestAt n.cs.pending (n.cs.chain.height + 1) with
  | none =>
    rw [bestAt_eq_firstMin, firstMin_eq_none] at hbest
    have hmem := mem_votables.mpr ⟨hr, hvotable⟩
    rw [hbest] at hmem
    exact absurd hmem List.not_mem_nil
  | some b =>
    refine ⟨b.1, b.2, rfl, ?_⟩
    rw [← hprio]
    exact bestAt_le hbest hr hvotable

/-- The lock is not above a proposal that was considered. -/
structure Considered (q : Pending) (n : Node) : Prop where
  held : StillHeld q n
  lock : n.cs.voteHeight = q.height → q.height.toNat = n.cs.chain.height.toNat + 1 →
    priorityCmp q.priority n.cs.votePriority ≠ .lt

/-- Behind a step the lock is one that was not above the proposal, or it has moved to the
choice of the vote phase. -/
lemma StillHeld.considered (hP : P.MallocBounded) (hinv : LockerInv P n) {q : Pending}
    (h : StillHeld q n) (ha : KeepsProposals P n a)
    (hkept : n.cs.SameLock (n.exec P a).cs → n.cs.voteHeight = q.height →
      q.height.toNat = n.cs.chain.height.toNat + 1 →
      priorityCmp q.priority n.cs.votePriority ≠ .lt) : Considered q (n.exec P a) := by
  refine ⟨h.step hP hinv ha, fun hheight hnext => ?_⟩
  obtain ⟨new, -, hlock, hgrown⟩ := n.exec_lockStep hP a
  have hle := hgrown.height_le
  have hq := h.height_le
  have hnext' : q.height.toNat = n.cs.chain.height.toNat + 1 := by omega
  generalize votesOf new = votes at hlock
  cases hlock with
  | kept hsame =>
    rw [hsame.priority_eq]
    exact hkept hsame (hsame.height_eq.symm.trans hheight) hnext'
  | repeated hsame =>
    rw [hsame.priority_eq]
    exact hkept hsame (hsame.height_eq.symm.trans hheight) hnext'
  | moved i p _ _ hbest _ hsame =>
    obtain ⟨i', p', hbest', hlow⟩ := h.best hinv hnext'
    obtain ⟨-, rfl⟩ := Prod.mk.inj (Option.some.inj (hbest.symm.trans hbest'))
    rw [hsame.priority_eq]
    exact hlow

lemma Considered.step (hP : P.MallocBounded) (hinv : LockerInv P n) {q : Pending}
    (h : Considered q n) (ha : KeepsProposals P n a) : Considered q (n.exec P a) :=
  h.held.considered hP hinv ha fun _ hheight hnext => h.lock hheight hnext

/-- A vote phase considers all proposals for the next height. -/
lemma StillHeld.votePhase (hP : P.MallocBounded) (hinv : LockerInv P n) {q : Pending}
    (h : StillHeld q n) (ha : KeepsProposals P n a) (hvote : a.isVotePhase n = true) :
    Considered q (n.exec P a) := by
  refine h.considered hP hinv ha fun hsame hheight hnext hlow => ?_
  obtain ⟨i, p, hbest, hp⟩ := h.best hinv hnext
  have htarget : n.cs.voteHeight = n.cs.chain.height + 1 := by
    rw [hheight]
    exact UInt64.toNat_inj.mp (by rw [hnext, hinv.lock.room.succ_toNat])
  -- the choice of the phase is below the lock
  have hbelow : priorityCmp p.priority n.cs.votePriority = .lt := by
    refine Std.TransCmp.lt_of_isLE_of_lt ?_ hlow
    rw [← Std.OrientedCmp.isGE_iff_isLE, Ordering.isGE_iff_ne_lt]
    exact hp
  have hvalidator : n.cs.validator = true := by
    by_contra hval
    have hzero := hinv.validator (by simpa using hval)
    rw [hzero] at htarget
    have := congrArg UInt64.toNat htarget
    rw [hinv.lock.room.succ_toNat] at this
    exact absurd this (by simp)
  have hflag : slotVoted n.cs n.slot = false := by
    have hcut := ha.2
    rw [cutShort, hvote, hbest, beq_iff_eq.mpr htarget, Option.any_some, hbelow] at hcut
    simpa using hcut
  obtain ⟨env, hcall⟩ := NodeAction.call_of_isVotePhase hvote
  have hmoves : (AgentChain.votePhase P env n.cs n.slot).1.votePriority = p.priority :=
    (votePhase_locks hP env hvalidator hflag hbest fun _ => hbelow).1.priority_eq
  have hcs : (n.exec P a).cs = (AgentChain.votePhase P env n.cs n.slot).1 :=
    (Node.exec_called hcall).1
  rw [← hcs, hsame.priority_eq] at hmoves
  rw [hmoves, show priorityCmp p.priority p.priority = .eq from Std.ReflCmp.compare_self] at hbelow
  exact Ordering.noConfusion hbelow

end Steps

/-! ### Whole runs -/

section Runs

variable {P : Platform} {g : Genesis} {c : Chain}

lemma LockerInv.initial (hP : P.MallocBounded) {es : List NodeEvent} (hc : NodeReachable P g es c)
    (kp : Keypair) (validator : Bool) (slot : UInt64) :
    LockerInv P (Node.initial c kp validator slot) :=
  ⟨NodeInv.initial hP hc kp validator slot,
    Consensus.LockInv.initial hP hc kp validator, fun _ => rfl⟩

lemma NodeRun.lockerInv (hP : P.MallocBounded) {C : Node → NodeAction → Prop} {n n' : Node}
    {as : List NodeAction} (h : NodeRun P C n as n') (hinv : LockerInv P n) : LockerInv P n' :=
  h.invariant hinv fun _ _ hm _ => hm.step hP

/-- **The locked block stays available.**  In every run in which no action evicts an open
proposal for the next height, and no vote phase returns at the flag of its slot with a better
block at hand, the following holds whenever the lock is at the next height.  The locked block
is in the table, not committed; and the lock is not above any proposal for that height that was
in the table at or before the latest vote phase. -/
theorem locked_block_available (hP : P.MallocBounded) {es : List NodeEvent}
    (hc : NodeReachable P g es c) {kp : Keypair} {validator : Bool} {slot : UInt64}
    {as : List NodeAction} {n : Node}
    (h : NodeRun P (KeepsProposals P) (Node.initial c kp validator slot) as n)
    (hlock : n.cs.voteHeight = n.cs.chain.height + 1) :
    (∃ i p, n.cs.pending i = some p ∧ p.committed = false ∧
      p.height = n.cs.chain.height + 1 ∧ p.blockHash = n.cs.voteBlock) ∧
    ∀ as₁ m as₂ m' v as₃,
      NodeRun P (KeepsProposals P) (Node.initial c kp validator slot) as₁ m →
      NodeRun P (KeepsProposals P) m as₂ m' → v.isVotePhase m' = true → KeepsProposals P m' v →
      NodeRun P (KeepsProposals P) (m'.exec P v) as₃ n →
      ∀ i q, m.cs.pending i = some q → q.height = n.cs.chain.height + 1 →
        priorityCmp q.priority n.cs.votePriority ≠ .lt := by
  have hinit := LockerInv.initial hP hc kp validator slot
  have hinv := h.lockerInv hP hinit
  refine ⟨?_, ?_⟩
  · have hheld : LockerInv P n ∧ LockHeld n := by
      refine h.invariant (I := fun m => LockerInv P m ∧ LockHeld m) ⟨hinit, fun hzero => ?_⟩ ?_
      · have hnat := congrArg UInt64.toNat hzero
        rw [hinit.lock.room.succ_toNat] at hnat
        exact absurd hnat (by simp [Node.initial, acConsensusNew])
      · rintro m a ⟨hm, hheld⟩ ha
        exact ⟨hm.step hP, hheld.step hP hm ha⟩
    obtain ⟨i, p, hp, hheight, hhash⟩ := hheld.2 hlock
    have hvotable := hinv.node.votable hp (by rw [hheight, hinv.lock.room.succ_toNat])
    exact ⟨i, p, hp, (Pending.votable_iff.mp hvotable).1, hheight, hhash⟩
  · intro as₁ m as₂ m' v as₃ h₁ h₂ hv hkeep h₃ i q hq hheight
    have hm := h₁.lockerInv hP hinit
    have hheld : LockerInv P m' ∧ StillHeld q m' := by
      refine h₂.invariant (I := fun m => LockerInv P m ∧ StillHeld q m) ⟨hm, ?_⟩ ?_
      · exact ⟨(hm.node.table.fits i q hq).height_le, fun _ => ⟨i, q, hq, rfl, rfl⟩⟩
      · rintro m a ⟨hm, hheld⟩ ha
        exact ⟨hm.step hP, hheld.step hP hm ha⟩
    have hconsidered : LockerInv P n ∧ Considered q n := by
      refine h₃.invariant (I := fun m => LockerInv P m ∧ Considered q m) ?_ ?_
      · exact ⟨hheld.1.step hP, hheld.2.votePhase hP hheld.1 hkeep hv⟩
      · rintro m a ⟨hm, hcon⟩ ha
        exact ⟨hm.step hP, hcon.step hP hm ha⟩
    refine hconsidered.2.lock (hlock.trans hheight.symm) ?_
    rw [hheight, hinv.lock.room.succ_toNat]

end Runs

/-- The node that has moved its vote in the second slot still holds the block. -/
theorem locked_block_available_moved :
    movedNode.cs.voteHeight = 1 ∧ ∃ i p, movedNode.cs.pending i = some p ∧
      p.committed = false ∧ p.height = movedNode.cs.chain.height + 1 ∧
      p.blockHash = movedNode.cs.voteBlock := by
  have hfacts : AllMeet labelled (KeepsProposals labelled) (equalNode 1) firstVote ∧
      AllMeet labelled (KeepsProposals labelled) votedNode secondVote ∧
      movedNode.cs.voteHeight = 1 ∧
      movedNode.cs.voteHeight = movedNode.cs.chain.height + 1 := by
    decide +kernel
  obtain ⟨hfirst, hsecond, hvoted, hlock⟩ := hfacts
  have hrun : NodeRun labelled (KeepsProposals labelled) (equalNode 1) (firstVote ++ secondVote)
      movedNode := (nodeRun_execAll hfirst).trans (nodeRun_execAll hsecond)
  exact ⟨hvoted, (locked_block_available labelled_mallocBounded reachable_equalGenesis.node hrun
    hlock).1⟩

/-! ### A locked block that is driven out -/

/-- Eight proposals of the first validator, which differ only in their time. -/
def crowd : List NodeAction :=
  (List.range 8).map fun k => .receive (Env.atMs (3200 + UInt64.ofNat k))
    (.blockAnn (blockBytes ((builtBy 1).retimed (2001 + UInt64.ofNat k))))

/-- The third validator has voted for its own block, of the lowest priority, and then receives
the eight proposals. -/
def crowdedNode : Node := (equalNode 3).execAll labelled (firstVote ++ crowd)

/-- **The locked block is evicted.** -/
theorem locked_block_evicted :
    NodeRun labelled anyAction (equalNode 3) (firstVote ++ crowd) crowdedNode ∧
      crowdedNode.cs.voteHeight = crowdedNode.cs.chain.height + 1 ∧
      ∀ i, (crowdedNode.cs.pending i).map Pending.blockHash ≠ some crowdedNode.cs.voteBlock :=
  ⟨nodeRun_execAll (allMeet_any _ _), by decide +kernel⟩

end AgentChain
