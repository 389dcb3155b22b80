import AgentChain.Engine

/-!
# A node and its runs

A node is an engine, the thread that walks through the phases of one slot after the other,
and the messages that it has broadcast so far.  The phases that do not hold the lock of the
engine, the leader check and the building of a block, are steps of their own: between them
and the stashing of the block other threads may change the chain.

All choices that the code leaves to its surroundings are part of the action, so that a run is
a list of actions.
-/

namespace AgentChain

open Trace

/-- Where the slot thread stands. -/
inductive SlotPc where
  /-- at the start of a slot -/
  | start
  /-- behind `am_i_leader` -/
  | leading (proof : VrfProof)
  /-- behind `ac_chain_build_block` -/
  | built (b : Block)
  /-- before `vote_phase` -/
  | voting
  /-- before `seal_phase` -/
  | sealing

/-- A node with all the messages that it has sent, oldest first. -/
structure Node where
  cs : Consensus
  slot : UInt64
  pc : SlotPc
  sent : List Msg

/-- What a node does by itself. -/
inductive OwnAction where
  | checkLeader
  /-- with a snapshot of the mempool -/
  | build (cands : Candidates)
  | propose (env : Env) (junk : VrfOut)
  | vote (env : Env)
  | seal (env : Fin 8 → Env)
  /-- answer a request for the block at a height -/
  | serve (height : UInt64)

/-- What can happen at a node. -/
inductive NodeAction where
  | own (a : OwnAction)
  | receive (env : Env) (m : Msg)

/-- A node that has just started the slot thread. -/
def Node.initial (c : Chain) (kp : Keypair) (validator : Bool) (slot : UInt64) : Node :=
  ⟨acConsensusNew c kp validator, slot, .start, []⟩

/-- The node behind a call of its engine. -/
def Node.took (n : Node) (r : Consensus × List Msg) : Node :=
  { n with cs := r.1, sent := n.sent ++ r.2 }

section Exec

variable (P : Platform)

/-- The calls of the network threads: `on_block_ann_cb` and `on_commit_vote_cb`. -/
def Node.receive (n : Node) (env : Env) : Msg → Node
  | .blockAnn buf => n.took (acConsensusHandleBlock P env n.cs buf)
  | .blockRes buf => n.took (acConsensusHandleBlock P env n.cs buf)
  | .commitVote buf => n.took (acConsensusHandleVote P env n.cs buf)
  | .headersReq _ => n

/-- The first part of `slot_routine`. -/
def Node.checkLeader (n : Node) : Node :=
  if !n.cs.validator then { n with pc := .voting }
  else
    match amILeader P n.cs.chain n.cs.kp n.slot with
    | (none, c) => { n with cs := { n.cs with chain := c }, pc := .voting }
    | (some proof, c) => { n with cs := { n.cs with chain := c }, pc := .leading proof }

/-- The second part of `slot_routine`; the proof of the leader check replaces the one of the
builder. -/
def Node.build (n : Node) (proof : VrfProof) (cands : Candidates) : Node :=
  match acChainBuildBlock P n.cs.chain n.slot n.cs.kp cands with
  | (none, c) => { n with cs := { n.cs with chain := c }, pc := .voting }
  | (some b, c) => { n with cs := { n.cs with chain := c }, pc := .built (b.withProof proof) }

/-- One round of `on_headers_req_cb`. -/
def Node.serve (n : Node) (height : UInt64) : Node :=
  if n.cs.chain.height < height then n
  else
    match blockRead n.cs.chain.dir height with
    | none => n
    | some b => { n with sent := n.sent ++ [.blockRes (blockBytes b)] }

/-- One action of the slot thread or of the server; nothing happens when the thread is
somewhere else. -/
def Node.own (n : Node) (a : OwnAction) : Node :=
  match n.pc, a with
  | .start, .checkLeader => n.checkLeader P
  | .leading proof, .build cands => n.build P proof cands
  | .built b, .propose env junk =>
      { n.took (proposeBlock P env junk n.cs n.slot b) with pc := .voting }
  | .voting, .vote env => { n.took (votePhase P env n.cs n.slot) with pc := .sealing }
  | .sealing, .seal env =>
      { n.took (sealPhase P env n.cs n.slot) with pc := .start, slot := n.slot + 1 }
  | _, .serve height => n.serve height
  | _, _ => n

/-- One action at a node. -/
def Node.exec (n : Node) : NodeAction → Node
  | .own a => n.own P a
  | .receive env m => n.receive P env m

end Exec

/-- The call of the engine that an action leads to. -/
def NodeAction.call (n : Node) : NodeAction → Option Call
  | .receive env (.blockAnn buf) => (acBlockDecode buf).map fun r => .block env r.1
  | .receive env (.blockRes buf) => (acBlockDecode buf).map fun r => .block env r.1
  | .receive env (.commitVote buf) => (voteDecode buf).map fun v => .vote env v
  | .receive _ (.headersReq _) => none
  | .own a =>
      match n.pc, a with
      | .built b, .propose env junk => some (.propose env junk n.slot b)
      | .voting, .vote env => some (.votePhase env n.slot)
      | .sealing, .seal env => some (.sealPhase env n.slot)
      | _, _ => none

section Inversion

variable {P : Platform} {n : Node} {a : NodeAction}

/-- An action with a call of the engine. -/
lemma Node.exec_called {x : Call} (h : a.call n = some x) :
    (n.exec P a).cs = (x.run P n.cs).1 ∧ (n.exec P a).sent = n.sent ++ (x.run P n.cs).2 := by
  cases a with
  | receive env m =>
    cases m with
    | headersReq buf => exact absurd h (by simp [NodeAction.call])
    | commitVote buf =>
      obtain ⟨v, hv, rfl⟩ := Option.map_eq_some_iff.mp h
      simp only [Node.exec, Node.receive, Node.took, acConsensusHandleVote, hv, Call.run, and_self]
    | blockAnn buf | blockRes buf =>
      obtain ⟨r, hr, rfl⟩ := Option.map_eq_some_iff.mp h
      simp only [Node.exec, Node.receive, Node.took, acConsensusHandleBlock, hr, Call.run, and_self]
  | own a =>
    obtain ⟨cs, slot, pc, sent⟩ := n
    -- only the propose, vote and seal phases call the engine, each at its place of the thread
    cases pc <;> cases a
    all_goals first
      | (obtain rfl := Option.some.inj h; exact ⟨rfl, rfl⟩)
      | cases h

/-- The calls that actions lead to, and where the thread stands for them. -/
lemma NodeAction.call_cases {x : Call} (h : a.call n = some x) :
    (∃ env m b, a = .receive env m ∧ x = .block env b) ∨
    (∃ env m v, a = .receive env m ∧ x = .vote env v) ∨
    (∃ env junk b, a = .own (.propose env junk) ∧ n.pc = .built b ∧
      x = .propose env junk n.slot b) ∨
    (∃ env, a = .own (.vote env) ∧ n.pc = .voting ∧ x = .votePhase env n.slot) ∨
    (∃ env, a = .own (.seal env) ∧ n.pc = .sealing ∧ x = .sealPhase env n.slot) := by
  cases a with
  | receive env m =>
    cases m with
    | headersReq buf => cases h
    | commitVote buf =>
      obtain ⟨v, -, rfl⟩ := Option.map_eq_some_iff.mp h
      exact Or.inr (Or.inl ⟨env, _, v, rfl, rfl⟩)
    | blockAnn buf | blockRes buf =>
      obtain ⟨r, -, rfl⟩ := Option.map_eq_some_iff.mp h
      exact Or.inl ⟨env, _, r.1, rfl, rfl⟩
  | own a =>
    obtain ⟨cs, slot, pc, sent⟩ := n
    cases pc <;> cases a
    all_goals first
      | cases h
        exact Or.inr (Or.inr (Or.inl ⟨_, _, _, rfl, rfl, rfl⟩))
      | cases h
        exact Or.inr (Or.inr (Or.inr (Or.inl ⟨_, rfl, rfl, rfl⟩)))
      | cases h
        exact Or.inr (Or.inr (Or.inr (Or.inr ⟨_, rfl, rfl, rfl⟩)))
      | cases h

/-- The messages of an action without a call: at most a stored block. -/
def Served (n : Node) (msgs : List Msg) : Prop :=
  msgs = [] ∨ ∃ height b, ¬ n.cs.chain.height < height ∧
    blockRead n.cs.chain.dir height = some b ∧ msgs = [.blockRes (blockBytes b)]

/-- The node has changed in nothing but the seed cache, the place of its thread and what it
has served. -/
def Quiet (P : Platform) (n n' : Node) : Prop :=
  ∃ d msgs, n.cs.chain.Reseeded P d ∧ n'.cs = { n.cs with chain := d } ∧
    n'.sent = n.sent ++ msgs ∧ Served n msgs

lemma Quiet.of_eq {n' : Node} (hcs : n'.cs = n.cs) (hsent : n'.sent = n.sent) : Quiet P n n' :=
  ⟨n.cs.chain, [], .refl _, hcs, by rw [hsent, List.append_nil], Or.inl rfl⟩

lemma Quiet.of_reseeded {n' : Node} {d : Chain} (hd : n.cs.chain.Reseeded P d)
    (hcs : n'.cs = { n.cs with chain := d }) (hsent : n'.sent = n.sent) : Quiet P n n' :=
  ⟨d, [], hd, hcs, by rw [hsent, List.append_nil], Or.inl rfl⟩

lemma Node.checkLeader_quiet (n : Node) : Quiet P n (n.checkLeader P) := by
  have hseed := amILeader_reseeded (P := P) n.cs.chain n.cs.kp n.slot
  rw [Node.checkLeader]
  split_ifs
  · exact .of_eq rfl rfl
  · rcases hlead : amILeader P n.cs.chain n.cs.kp n.slot with ⟨_ | proof, c⟩
    · rw [hlead] at hseed
      exact .of_reseeded hseed rfl rfl
    · rw [hlead] at hseed
      exact .of_reseeded hseed rfl rfl

lemma Node.build_quiet (hP : P.MallocBounded) (n : Node) (proof : VrfProof) (cands : Candidates) :
    Quiet P n (n.build P proof cands) := by
  have hseed := acChainBuildBlock_reseeded hP n.cs.chain n.slot n.cs.kp cands
  rw [Node.build]
  rcases hbuild : acChainBuildBlock P n.cs.chain n.slot n.cs.kp cands with ⟨_ | b, c⟩
  · rw [hbuild] at hseed
    exact .of_reseeded hseed rfl rfl
  · rw [hbuild] at hseed
    exact .of_reseeded hseed rfl rfl

lemma Node.serve_quiet (n : Node) (height : UInt64) : Quiet P n (n.serve height) := by
  rw [Node.serve]
  split_ifs with hlt
  · exact .of_eq rfl rfl
  · cases hread : blockRead n.cs.chain.dir height with
    | none => exact .of_eq rfl rfl
    | some b => exact ⟨_, _, .refl _, rfl, rfl, Or.inr ⟨height, b, hlt, hread, rfl⟩⟩

/-- An action without a call of the engine. -/
lemma Node.exec_uncalled (hP : P.MallocBounded) (h : a.call n = none) :
    Quiet P n (n.exec P a) := by
  cases a with
  | receive env m =>
    cases m with
    | headersReq buf => exact .of_eq rfl rfl
    | commitVote buf =>
      have hv := Option.map_eq_none_iff.mp h
      refine .of_eq ?_ ?_
      · simp only [Node.exec, Node.receive, Node.took, acConsensusHandleVote, hv]
      · simp only [Node.exec, Node.receive, Node.took, acConsensusHandleVote, hv, List.append_nil]
    | blockAnn buf | blockRes buf =>
      have hr := Option.map_eq_none_iff.mp h
      refine .of_eq ?_ ?_
      · simp only [Node.exec, Node.receive, Node.took, acConsensusHandleBlock, hr]
      · simp only [Node.exec, Node.receive, Node.took, acConsensusHandleBlock, hr, List.append_nil]
  | own a =>
    have hleader := n.checkLeader_quiet (P := P)
    have hbuild := n.build_quiet hP
    have hserve := n.serve_quiet (P := P)
    obtain ⟨cs, slot, pc, sent⟩ := n
    cases pc <;> cases a
    all_goals first
      | exact hserve _
      | exact .of_eq rfl rfl
      | exact hleader
      | exact hbuild _ _
      | cases h

end Inversion

/-! ### Runs -/

/-- One action of a run in which every action satisfies `C` where it happens. -/
def NodeMove (P : Platform) (C : Node → NodeAction → Prop) (n : Node) (as : List NodeAction)
    (n' : Node) : Prop :=
  ∃ a, as = [a] ∧ C n a ∧ n' = n.exec P a

/-- A run of a node whose actions all satisfy `C`. -/
abbrev NodeRun (P : Platform) (C : Node → NodeAction → Prop) :
    Node → List NodeAction → Node → Prop :=
  Run (NodeMove P C)

/-- Any run. -/
def anyAction (_ : Node) (_ : NodeAction) : Prop := True

/-- The node behind a list of actions. -/
def Node.execAll (P : Platform) (n : Node) (as : List NodeAction) : Node := as.foldl (Node.exec P) n

/-- The actions all satisfy `C` when they are executed one after the other. -/
def AllMeet (P : Platform) (C : Node → NodeAction → Prop) : Node → List NodeAction → Prop
  | _, [] => True
  | n, a :: as => C n a ∧ AllMeet P C (n.exec P a) as

instance decidableAllMeet (P : Platform) (C : Node → NodeAction → Prop)
    [∀ n a, Decidable (C n a)] : ∀ n as, Decidable (AllMeet P C n as)
  | _, [] => inferInstanceAs (Decidable True)
  | n, a :: as =>
      have := decidableAllMeet P C (n.exec P a) as
      inferInstanceAs (Decidable (C n a ∧ AllMeet P C (n.exec P a) as))

section Runs

variable {P : Platform} {C : Node → NodeAction → Prop} {n n' : Node}

/-- A list of actions is a run. -/
lemma nodeRun_execAll {as : List NodeAction} (h : AllMeet P C n as) :
    NodeRun P C n as (n.execAll P as) := by
  induction as generalizing n with
  | nil => exact .refl n
  | cons a as ih => exact (Run.single ⟨a, rfl, h.1, rfl⟩).trans (ih h.2)

lemma allMeet_any (n : Node) (as : List NodeAction) : AllMeet P anyAction n as := by
  induction as generalizing n with
  | nil => exact trivial
  | cons a as ih => exact ⟨trivial, ih _⟩

/-- **Invariants of a node.**  A property of nodes that every action keeps holds along every
run. -/
theorem NodeRun.invariant {I : Node → Prop} {as : List NodeAction} (h : NodeRun P C n as n')
    (hinit : I n) (hstep : ∀ m a, I m → C m a → I (m.exec P a)) : I n' := by
  refine Run.invariant (I := fun _ m => I m) h hinit ?_
  rintro _ m _ m' hm ⟨a, -, ha, rfl⟩
  exact hstep m a hm ha

end Runs

end AgentChain
