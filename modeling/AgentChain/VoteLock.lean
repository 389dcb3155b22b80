import AgentChain.HeightRoom
import AgentChain.Node

/-!
# The lock of the vote

`vote_phase` keeps a lock: the height of its last vote, the block that it voted for and the
priority of that block.  This file says what an action of a node can do to the lock and which
votes it broadcasts (`Node.exec_lockStep`), and draws two conclusions for whole runs.  The lock
only ever moves to greater heights or to lower priorities.  And as long as a node never moves
its vote away from a block that it has already voted for, no two of its votes contradict each
other.
-/

namespace AgentChain

open Trace

/-! ### Votes among the messages -/

/-- The votes among the messages. -/
def votesOf (msgs : List Msg) : List Vote :=
  msgs.filterMap fun
    | .commitVote buf => voteDecode buf
    | _ => none

lemma votesOf_append (ms ns : List Msg) : votesOf (ms ++ ns) = votesOf ms ++ votesOf ns :=
  List.filterMap_append

lemma votesOf_eq_nil {ms : List Msg} (h : ∀ m ∈ ms, ∀ buf, m ≠ .commitVote buf) :
    votesOf ms = [] := by
  refine List.filterMap_eq_nil_iff.mpr fun m hm => ?_
  cases m with
  | commitVote buf => exact absurd rfl (h _ hm buf)
  | headersReq buf => rfl
  | blockRes buf => rfl
  | blockAnn buf => rfl

/-- The vote of a key for a block. -/
def castVote (P : Platform) (kp : Keypair) (height : UInt64) (blockHash : Hash)
    (proof : VrfProof) : Vote :=
  ⟨height, blockHash, kp.pk, acSign P (acVoteMessage height blockHash) kp, proof⟩

/-- At most one vote, which the key has cast for the given block. -/
def AtMostVote (P : Platform) (kp : Keypair) (height : UInt64) (blockHash : Hash)
    (votes : List Vote) : Prop :=
  votes = [] ∨ ∃ proof, votes = [castVote P kp height blockHash proof]

lemma mem_atMostVote {P : Platform} {kp : Keypair} {height : UInt64} {blockHash : Hash}
    {votes : List Vote} (h : AtMostVote P kp height blockHash votes) {v : Vote} (hv : v ∈ votes) :
    ∃ proof, v = castVote P kp height blockHash proof := by
  rcases h with rfl | ⟨proof, rfl⟩
  · exact absurd hv List.not_mem_nil
  · exact ⟨proof, List.mem_singleton.mp hv⟩

/-! ### What happens to the lock -/

/-- The two records have the same lock, of the same key. -/
structure Consensus.SameLock (cs cs' : Consensus) : Prop where
  kp_eq : cs'.kp = cs.kp
  validator_eq : cs'.validator = cs.validator
  height_eq : cs'.voteHeight = cs.voteHeight
  block_eq : cs'.voteBlock = cs.voteBlock
  priority_eq : cs'.votePriority = cs.votePriority

lemma Consensus.SameLock.refl (cs : Consensus) : cs.SameLock cs := ⟨rfl, rfl, rfl, rfl, rfl⟩

lemma Consensus.SameLock.trans {cs cs' cs'' : Consensus} (h : cs.SameLock cs')
    (h' : cs'.SameLock cs'') : cs.SameLock cs'' :=
  ⟨h'.kp_eq.trans h.kp_eq, h'.validator_eq.trans h.validator_eq, h'.height_eq.trans h.height_eq,
    h'.block_eq.trans h.block_eq, h'.priority_eq.trans h.priority_eq⟩

/-- Whether a call is a vote phase. -/
def Call.isVotePhase : Call → Bool
  | .votePhase _ _ => true
  | _ => false

/-- The lock is kept, repeated or moved, and what is broadcast with it; it moves only in a
vote phase. -/
inductive LockStep (P : Platform) (voting : Bool) (cs : Consensus) : List Vote → Consensus → Prop
  | kept {cs' : Consensus} (h : cs.SameLock cs') : LockStep P voting cs [] cs'
  | repeated {votes : List Vote} {cs' : Consensus} (h : cs.SameLock cs')
      (hheight : cs.voteHeight = cs.chain.height + 1)
      (hvotes : AtMostVote P cs.kp cs.voteHeight cs.voteBlock votes) :
      LockStep P voting cs votes cs'
  | moved {votes : List Vote} {cs' : Consensus} (i : Fin 8) (p : Pending)
      (hvoting : voting = true) (hvalidator : cs.validator = true)
      (hbest : bestAt cs.pending (cs.chain.height + 1) = some (i, p))
      (hlower : cs.voteHeight = cs.chain.height + 1 →
        priorityCmp p.priority cs.votePriority = .lt)
      (h : (cs.lockOn (cs.chain.height + 1) p).SameLock cs')
      (hvotes : AtMostVote P cs.kp (cs.chain.height + 1) p.blockHash votes) :
      LockStep P voting cs votes cs'

lemma LockStep.kp_eq {P : Platform} {voting : Bool} {cs cs' : Consensus} {votes : List Vote}
    (h : LockStep P voting cs votes cs') : cs'.kp = cs.kp := by
  cases h with
  | kept h => exact h.kp_eq
  | repeated h => exact h.kp_eq
  | moved _ _ _ _ _ _ h => exact h.kp_eq

/-- The chain has at most grown. -/
structure Chain.Grown (c d : Chain) : Prop where
  room : HeightRoom c → HeightRoom d
  height_le : c.height.toNat ≤ d.height.toNat

section Lock

variable {P : Platform} {E : Env → Prop} {cs cs' : Consensus} {msgs : List Msg}

lemma Chain.Grown.trans {c d e : Chain} (h : c.Grown d) (h' : d.Grown e) : c.Grown e :=
  ⟨fun hc => h'.room (h.room hc), h.height_le.trans h'.height_le⟩

lemma Chain.Reseeded.grown {c d : Chain} (h : c.Reseeded P d) : c.Grown d :=
  ⟨fun hc => hc.reseeded h, by rw [h.same.height_eq]⟩

/-- `our_vote_now` does nothing, or it broadcasts the vote of the node and adds it to the
entry. -/
lemma ourVoteNow_cases (cs : Consensus) (i : Fin 8) (p : Pending) :
    ∃ d, cs.chain.Reseeded P d ∧ (ourVoteNow P cs i p = ({ cs with chain := d }, []) ∨
      ∃ proof sv, ourVoteNow P cs i p =
        ({ cs with chain := d, slotVotes := sv }.put i (p.addSigner ⟨cs.kp.pk,
            acSign P (acVoteMessage p.height p.blockHash) cs.kp, proof⟩),
          [.commitVote (voteEncode (castVote P cs.kp p.height p.blockHash proof))])) := by
  have hseed := amICommittee_reseeded (P := P) cs.chain cs.kp p.slot
  rw [ourVoteNow]
  rcases hcom : amICommittee P cs.chain cs.kp p.slot with ⟨_ | proof, c⟩
  · rw [hcom] at hseed
    exact ⟨c, hseed, Or.inl rfl⟩
  · rw [hcom] at hseed
    exact ⟨c, hseed, Or.inr ⟨proof, _, rfl⟩⟩

/-- A vote of the node, and nothing else of the lock. -/
lemma ourVoteNow_votes (cs : Consensus) (i : Fin 8) (p : Pending) :
    AtMostVote P cs.kp p.height p.blockHash (votesOf (ourVoteNow P cs i p).2) ∧
      cs.SameLock (ourVoteNow P cs i p).1 ∧
      cs.chain.Reseeded P (ourVoteNow P cs i p).1.chain := by
  obtain ⟨d, hd, heq | ⟨proof, sv, heq⟩⟩ := ourVoteNow_cases (P := P) cs i p
  · rw [heq]
    exact ⟨Or.inl rfl, ⟨rfl, rfl, rfl, rfl, rfl⟩, hd⟩
  · rw [heq]
    refine ⟨Or.inr ⟨proof, ?_⟩, ⟨rfl, rfl, rfl, rfl, rfl⟩, hd⟩
    exact List.filterMap_cons_some (voteDecode_voteEncode _)

/-- The first change of a call. -/
lemma Entry.lockStep {x : Call} (h : Entry P x cs msgs cs') :
    LockStep P x.isVotePhase cs (votesOf msgs) cs' ∧ cs.chain.Reseeded P cs'.chain := by
  cases h with
  | idle _ _ d sv ms target _ hd hmsgs =>
    have hnil : votesOf msgs = [] := votesOf_eq_nil fun m hm buf heq => by
      obtain ⟨buf', hbuf⟩ := hmsgs m hm
      rw [hbuf] at heq
      exact Msg.noConfusion heq
    rw [hnil]
    exact ⟨.kept ⟨rfl, rfl, rfl, rfl, rfl⟩, hd⟩
  | merged => exact ⟨.kept ⟨rfl, rfl, rfl, rfl, rfl⟩, .refl _⟩
  | stashed _ _ d sv p hd =>
    have hnil : votesOf x.announces = [] := by
      cases x with
      | propose => rfl
      | block => rfl
      | vote => rfl
      | votePhase => rfl
      | sealPhase => rfl
    rw [hnil]
    exact ⟨.kept ⟨rfl, rfl, rfl, rfl, rfl⟩, hd⟩
  | collected _ _ _ d _ _ hd => exact ⟨.kept ⟨rfl, rfl, rfl, rfl, rfl⟩, hd⟩
  | reaffirmed _ _ _ sv i p hvalidator hp hvotable hheight hhash =>
    obtain ⟨hvotes, hlock, hd⟩ := ourVoteNow_votes (P := P) { cs with slotVotes := sv } i p
    refine ⟨.repeated ⟨hlock.1, hlock.2, hlock.3, hlock.4, hlock.5⟩ hheight ?_, hd⟩
    rwa [(Pending.votable_iff.mp hvotable).2, ← hheight, hhash] at hvotes
  | voted _ _ _ sv i p hvalidator hbest hmove =>
    obtain ⟨hvotes, hlock, hd⟩ := ourVoteNow_votes (P := P) { cs with slotVotes := sv } i p
    refine ⟨.moved i p rfl hvalidator hbest hmove ⟨hlock.1, hlock.2, rfl, rfl, rfl⟩ ?_, hd⟩
    rwa [(Pending.votable_iff.mp (bestAt_some hbest).2).2] at hvotes

/-- An attempt to seal touches neither the lock nor the votes. -/
lemma Settle.lockStep (hP : P.MallocBounded) (h : Settle P E cs msgs cs') :
    votesOf msgs = [] ∧ cs.SameLock cs' ∧ cs.chain.Grown cs'.chain := by
  cases h with
  | timed => exact ⟨rfl, ⟨rfl, rfl, rfl, rfl, rfl⟩, ⟨id, le_rfl⟩⟩
  | offered env _ i p ms =>
    have hgrown : cs.chain.Grown
        (acChainAcceptBlock P env.acceptMs env.writes cs.chain p.certified).2 :=
      ⟨fun hc => hc.accept hP _ _ _, acChainAcceptBlock_height_le hP _ _ _ _⟩
    rw [sealBlock]
    dsimp only
    split_ifs
    · exact ⟨rfl, ⟨rfl, rfl, rfl, rfl, rfl⟩, hgrown⟩
    · exact ⟨rfl, ⟨rfl, rfl, rfl, rfl, rfl⟩, hgrown⟩

lemma settled_lockStep (hP : P.MallocBounded) (h : Run (Settle P E) cs msgs cs') :
    votesOf msgs = [] ∧ cs.SameLock cs' ∧ cs.chain.Grown cs'.chain := by
  refine h.invariant
    (I := fun ms t => votesOf ms = [] ∧ cs.SameLock t ∧ cs.chain.Grown t.chain) ?_ ?_
  · exact ⟨rfl, .refl cs, ⟨id, le_rfl⟩⟩
  · rintro ms t new u ⟨hms, hlock, hgrown⟩ hs
    obtain ⟨hnew, hlock', hgrown'⟩ := hs.lockStep hP
    rw [votesOf_append, hms, hnew]
    exact ⟨rfl, hlock.trans hlock', hgrown.trans hgrown'⟩

/-- Settling behind a change of the lock. -/
lemma LockStep.settled {voting : Bool} {votes : List Vote} {cs'' : Consensus}
    (h : LockStep P voting cs votes cs') (h' : cs'.SameLock cs'') :
    LockStep P voting cs votes cs'' := by
  cases h with
  | kept h => exact .kept (h.trans h')
  | repeated h hheight hvotes => exact .repeated (h.trans h') hheight hvotes
  | moved i p hvoting hvalidator hbest hlower h hvotes =>
    exact .moved i p hvoting hvalidator hbest hlower (h.trans h') hvotes

lemma Call.meets_true (x : Call) : x.Meets fun _ => True := by
  cases x with
  | sealPhase env slot => exact fun _ => trivial
  | block => exact trivial
  | vote => exact trivial
  | propose => exact trivial
  | votePhase => exact trivial

/-- What a call does to the lock. -/
lemma Call.run_lockStep (hP : P.MallocBounded) (x : Call) (cs : Consensus) :
    LockStep P x.isVotePhase cs (votesOf (x.run P cs).2) (x.run P cs).1 ∧
      cs.chain.Grown (x.run P cs).1.chain := by
  obtain ⟨cs₁, msgs₁, msgs₂, hentry, hsettle, heq⟩ := x.run_effect (P := P) x.meets_true cs
  obtain ⟨hlock, hseed⟩ := hentry.lockStep
  obtain ⟨hnone, hsame, hgrown⟩ := settled_lockStep hP hsettle
  rw [heq, votesOf_append, hnone, List.append_nil]
  exact ⟨hlock.settled hsame, hseed.grown.trans hgrown⟩

/-- Whether an action is a vote phase. -/
def NodeAction.isVotePhase (n : Node) (a : NodeAction) : Bool := (a.call n).any Call.isVotePhase

/-- **What an action does to the lock**, and which votes it broadcasts. -/
theorem Node.exec_lockStep (hP : P.MallocBounded) (n : Node) (a : NodeAction) :
    ∃ new, (n.exec P a).sent = n.sent ++ new ∧
      LockStep P (a.isVotePhase n) n.cs (votesOf new) (n.exec P a).cs ∧
      n.cs.chain.Grown (n.exec P a).cs.chain := by
  cases hcall : a.call n with
  | some x =>
    obtain ⟨hcs, hsent⟩ := Node.exec_called (P := P) hcall
    obtain ⟨hlock, hgrown⟩ := x.run_lockStep hP n.cs
    rw [hcs, NodeAction.isVotePhase, hcall]
    exact ⟨_, hsent, hlock, hgrown⟩
  | none =>
    obtain ⟨d, msgs, hd, hcs, hsent, hserved⟩ := Node.exec_uncalled hP hcall
    have hnil : votesOf msgs = [] := by
      rcases hserved with rfl | ⟨_, _, _, _, rfl⟩
      · rfl
      · rfl
    refine ⟨msgs, hsent, ?_, ?_⟩
    · rw [hnil, hcs]
      exact .kept ⟨rfl, rfl, rfl, rfl, rfl⟩
    · rw [hcs]
      exact hd.grown

/-- A node keeps its key. -/
lemma NodeRun.kp_eq (hP : P.MallocBounded) {C : Node → NodeAction → Prop} {n n' : Node}
    {as : List NodeAction} (h : NodeRun P C n as n') : n'.cs.kp = n.cs.kp := by
  refine h.invariant (I := fun m => m.cs.kp = n.cs.kp) rfl fun m a hm _ => ?_
  obtain ⟨new, -, hlock, -⟩ := m.exec_lockStep hP a
  exact hlock.kp_eq.trans hm

end Lock

/-! ### The lock is monotone -/

/-- The lock has stayed, has moved up, or has moved to a lower priority at its height. -/
def Consensus.LockLe (cs cs' : Consensus) : Prop :=
  cs.voteHeight < cs'.voteHeight ∨ cs'.voteHeight = cs.voteHeight ∧
    (cs'.voteBlock = cs.voteBlock ∧ cs'.votePriority = cs.votePriority ∨
      priorityCmp cs'.votePriority cs.votePriority = .lt)

lemma Consensus.LockLe.trans {cs cs' cs'' : Consensus} (h : cs.LockLe cs')
    (h' : cs'.LockLe cs'') : cs.LockLe cs'' := by
  rcases h with hlt | ⟨heq, h⟩
  · rcases h' with hlt' | ⟨heq', -⟩
    · exact Or.inl (UInt64.lt_trans hlt hlt')
    · exact Or.inl (heq' ▸ hlt)
  · rcases h' with hlt' | ⟨heq', h'⟩
    · exact Or.inl (heq ▸ hlt')
    · refine Or.inr ⟨heq'.trans heq, ?_⟩
      rcases h with ⟨hb, hp⟩ | hlow
      · rcases h' with ⟨hb', hp'⟩ | hlow'
        · exact Or.inl ⟨hb'.trans hb, hp'.trans hp⟩
        · exact Or.inr (hp ▸ hlow')
      · rcases h' with ⟨-, hp'⟩ | hlow'
        · exact Or.inr (hp' ▸ hlow)
        · exact Or.inr (Std.TransCmp.lt_trans hlow' hlow)

/-- The lock is at most at the next height, which does not wrap around. -/
structure Consensus.LockInv (cs : Consensus) : Prop where
  room : HeightRoom cs.chain
  height_le : cs.voteHeight.toNat ≤ cs.chain.height.toNat + 1

section Monotone

variable {P : Platform} {g : Genesis} {c : Chain}

/-- One step of the lock. -/
lemma LockStep.lockLe {voting : Bool} {cs cs' : Consensus} {votes : List Vote}
    (hinv : cs.LockInv) (h : LockStep P voting cs votes cs') (hgrown : cs.chain.Grown cs'.chain) :
    cs.LockLe cs' ∧ cs'.LockInv ∧ AtMostVote P cs.kp cs'.voteHeight cs'.voteBlock votes := by
  have hroom := hgrown.room hinv.room
  have hle := hgrown.height_le
  have hheight := hinv.height_le
  cases h with
  | kept h =>
    refine ⟨Or.inr ⟨h.height_eq, Or.inl ⟨h.block_eq, h.priority_eq⟩⟩, ⟨hroom, ?_⟩, Or.inl rfl⟩
    rw [h.height_eq]
    omega
  | repeated h _ hvotes =>
    refine ⟨Or.inr ⟨h.height_eq, Or.inl ⟨h.block_eq, h.priority_eq⟩⟩, ⟨hroom, ?_⟩, ?_⟩
    · rw [h.height_eq]
      omega
    · rwa [h.height_eq, h.block_eq]
  | moved i p _ _ hbest hlower h hvotes =>
    have htarget : cs'.voteHeight = cs.chain.height + 1 := h.height_eq
    have hnat := hinv.room.succ_toNat
    refine ⟨?_, ⟨hroom, ?_⟩, ?_⟩
    · by_cases hsame : cs.voteHeight = cs.chain.height + 1
      · refine Or.inr ⟨htarget.trans hsame.symm, Or.inr ?_⟩
        rw [h.priority_eq]
        exact hlower hsame
      · -- the old lock is below the new height
        refine Or.inl ?_
        have hne : cs.voteHeight.toNat ≠ (cs.chain.height + 1).toNat := fun hn =>
          hsame (UInt64.toNat_inj.mp hn)
        rw [htarget, UInt64.lt_iff_toNat_lt]
        omega
    · rw [htarget]
      omega
    · rw [htarget, h.block_eq]
      exact hvotes

lemma Consensus.LockInv.initial (hP : P.MallocBounded) {es : List NodeEvent}
    (hc : NodeReachable P g es c) (kp : Keypair) (validator : Bool) :
    (acConsensusNew c kp validator).LockInv :=
  ⟨hc.heightRoom hP, Nat.zero_le _⟩

/-- The lock along a run. -/
lemma NodeRun.lockLe (hP : P.MallocBounded) {C : Node → NodeAction → Prop} {n n' : Node}
    {as : List NodeAction} (h : NodeRun P C n as n') (hinv : n.cs.LockInv) :
    n.cs.LockLe n'.cs ∧ n'.cs.LockInv ∧ n'.cs.kp = n.cs.kp := by
  refine h.invariant (I := fun m => n.cs.LockLe m.cs ∧ m.cs.LockInv ∧ m.cs.kp = n.cs.kp) ?_ ?_
  · exact ⟨Or.inr ⟨rfl, Or.inl ⟨rfl, rfl⟩⟩, hinv, rfl⟩
  · rintro m a ⟨hle, hinv, hkp⟩ -
    obtain ⟨new, -, hlock, hgrown⟩ := m.exec_lockStep hP a
    obtain ⟨hle', hinv', -⟩ := hlock.lockLe hinv hgrown
    exact ⟨hle.trans hle', hinv', hlock.kp_eq.trans hkp⟩

/-- **Vote moves are monotone.**  Along every run of a node the height of the lock never
falls, and at one height the lock stays or moves to a strictly lower priority.  Whatever the
node does, it broadcasts at most one vote, and that vote names the lock behind the action; as
long as the lock has not changed, this is a copy of the vote for the same block. -/
theorem vote_moves_monotone (hP : P.MallocBounded) {es : List NodeEvent}
    (hc : NodeReachable P g es c) {kp : Keypair} {validator : Bool} {slot : UInt64}
    {as : List NodeAction} {n : Node}
    (h : NodeRun P anyAction (Node.initial c kp validator slot) as n) :
    (∀ as' n', NodeRun P anyAction n as' n' →
      n.cs.voteHeight ≤ n'.cs.voteHeight ∧
      (n'.cs.voteHeight = n.cs.voteHeight →
        n'.cs.voteBlock = n.cs.voteBlock ∧ n'.cs.votePriority = n.cs.votePriority ∨
          priorityCmp n'.cs.votePriority n.cs.votePriority = .lt)) ∧
    ∀ a, ∃ new, (n.exec P a).sent = n.sent ++ new ∧
      AtMostVote P kp (n.exec P a).cs.voteHeight (n.exec P a).cs.voteBlock (votesOf new) ∧
      ((n.exec P a).cs.voteHeight = n.cs.voteHeight →
        (n.exec P a).cs.voteBlock = n.cs.voteBlock →
          AtMostVote P kp n.cs.voteHeight n.cs.voteBlock (votesOf new)) := by
  obtain ⟨-, hinv, hkp⟩ := h.lockLe hP (Consensus.LockInv.initial hP hc kp validator)
  refine ⟨fun as' n' h' => ?_, fun a => ?_⟩
  · obtain ⟨hlt | ⟨heq, hlow⟩, -⟩ := h'.lockLe hP hinv
    · refine ⟨UInt64.le_of_lt hlt, fun heq => ?_⟩
      exact absurd (heq ▸ hlt) (UInt64.lt_irrefl _)
    · exact ⟨heq ▸ UInt64.le_refl _, fun _ => hlow⟩
  · obtain ⟨new, hsent, hlock, hgrown⟩ := n.exec_lockStep hP a
    obtain ⟨-, -, hvotes⟩ := hlock.lockLe hinv hgrown
    rw [hkp] at hvotes
    refine ⟨new, hsent, hvotes, fun hheight hblock => ?_⟩
    rwa [hheight, hblock] at hvotes

end Monotone

/-! ### A run that moves the vote

Three validators of equal weight.  The first one votes for its own block in the first slot,
since the block of the second, which has a lower priority, arrives late. -/

/-- All clocks show the given time, and all writes succeed. -/
def Env.atMs (ms : UInt64) : Env := ⟨ms, ms, ms, ms, .all⟩

/-- A leader proposes an empty block. -/
def leadSlot (ms : UInt64) : List NodeAction :=
  [.own .checkLeader, .own (.build ⟨[], nil_candidates_le⟩),
    .own (.propose (Env.atMs ms) (ByteArr.fill 32 0))]

/-- Three validators of equal weight. -/
def equalGenesis : Genesis :=
  ⟨1, 0, [⟨(referenceKey 1).pk, 0, 400000000⟩, ⟨(referenceKey 2).pk, 0, 400000000⟩,
    ⟨(referenceKey 3).pk, 5000000, 400000000⟩]⟩

lemma reachable_equalGenesis :
    Reachable labelled equalGenesis [] (openedOn labelled equalGenesis) :=
  reachable_openedOn (by decide +kernel)

/-- The node of the validator number `k`, at the start of the first slot. -/
def equalNode (k : UInt8) : Node :=
  Node.initial (openedOn labelled equalGenesis) (referenceKey k) true 1

/-- The block that a leader has built in the first slot. -/
def builtBy (k : UInt8) : Block :=
  match ((equalNode k).execAll labelled
      [.own .checkLeader, .own (.build ⟨[], nil_candidates_le⟩)]).pc with
  | .built b => b
  | _ => genesisBlock labelled equalGenesis

/-- The block with another time. -/
def Block.retimed (b : Block) (ms : UInt64) : Block :=
  { b with header := { b.header with timestampMs := ms } }

/-- The announcement of its first block. -/
def proposalOf (k : UInt8) : Msg :=
  ((equalNode k).execAll labelled (leadSlot 2000)).sent.headD (.headersReq [])

/-- The first slot, up to the vote. -/
def firstVote : List NodeAction := leadSlot 2000 ++ [.own (.vote (Env.atMs 3100))]

/-- The block of the second validator arrives, and the second slot, up to the vote. -/
def secondVote : List NodeAction :=
  [.receive (Env.atMs 3200) (proposalOf 2), .own (.seal fun _ => Env.atMs 3400)] ++
    leadSlot 4000 ++ [.own (.vote (Env.atMs 5100))]

/-- The node behind the first vote. -/
def votedNode : Node := (equalNode 1).execAll labelled firstVote

/-- The node behind the second vote. -/
def movedNode : Node := votedNode.execAll labelled secondVote

lemma run_votedNode : NodeRun labelled anyAction (equalNode 1) firstVote votedNode :=
  nodeRun_execAll (allMeet_any _ _)

lemma run_movedNode : NodeRun labelled anyAction votedNode secondVote movedNode :=
  nodeRun_execAll (allMeet_any _ _)

theorem vote_moves_monotone_labelled :
    votedNode.cs.voteHeight = 1 ∧ movedNode.cs.voteHeight = 1 ∧
      movedNode.cs.voteBlock ≠ votedNode.cs.voteBlock ∧
      priorityCmp movedNode.cs.votePriority votedNode.cs.votePriority = .lt := by
  have hmono := (vote_moves_monotone labelled_mallocBounded reachable_equalGenesis.node
    run_votedNode).1 secondVote movedNode run_movedNode
  have hheight : votedNode.cs.voteHeight = 1 ∧ movedNode.cs.voteHeight = 1 ∧
      movedNode.cs.voteBlock ≠ votedNode.cs.voteBlock := by decide +kernel
  obtain ⟨h1, h2, hne⟩ := hheight
  exact ⟨h1, h2, hne, (hmono.2 (h2.trans h1.symm)).resolve_left fun h => hne h.1⟩

end AgentChain
