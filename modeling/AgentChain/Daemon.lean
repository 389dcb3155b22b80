import AgentChain.CleanRun
import AgentChain.Indexes
import AgentChain.Mempool

/-!
# A node with its pool

`node.c` puts the engine, the chain and the pool of transactions together.  Three kinds of
threads meet there.  The threads of the peers and of the RPC server offer transactions to the
pool, under the lock of the chain.  The slot thread takes a snapshot of the pool, prunes the
pool and builds a block, one after the other and without a lock that covers all three.  And
whichever thread commits a block removes its transactions from the pool one by one, with the
lock of the engine but without that of the chain, so that transactions may be offered between
the commit and the last removal.

`Daemon.Step` has one step for each of these.  A run of the daemon is a run of the pool
(`Daemon.run_pool`).
-/

namespace AgentChain

open Trace

/-! ### The blocks that an action commits -/

/-- Whether the entry was committed before the action, and is still there behind it. -/
def NodeAction.wasCommitted (P : Platform) (n : Node) (a : NodeAction) (i : Fin 8) : Bool :=
  !((a.stashes P n).isSome && decide (i = pendingAlloc n.cs.pending)) &&
    (n.cs.pending i).any Pending.committed

/-- The transactions of the blocks that an action commits, in the order of the table. -/
def NodeAction.commits (P : Platform) (n : Node) (a : NodeAction) : List Tx :=
  entryIdx.flatMap fun i =>
    match (n.exec P a).cs.pending i with
    | none => []
    | some q => if q.committed && !a.wasCommitted P n i then q.block.txs else []

section Commits

variable {P : Platform} {cs cs' : Consensus} {msgs : List Msg} {n : Node} {a : NodeAction}
  {c : Chain}

lemma NodeAction.mem_commits {tx : Tx} : tx ∈ a.commits P n ↔ ∃ i q,
    (n.exec P a).cs.pending i = some q ∧ q.committed = true ∧ a.wasCommitted P n i = false ∧
      tx ∈ q.block.txs := by
  rw [NodeAction.commits, List.mem_flatMap]
  constructor
  · rintro ⟨i, -, htx⟩
    cases hq : (n.exec P a).cs.pending i with
    | none =>
      rw [hq] at htx
      exact absurd htx List.not_mem_nil
    | some q =>
      rw [hq] at htx
      dsimp only at htx
      split_ifs at htx with hcond
      · rw [Bool.and_eq_true, Bool.not_eq_true'] at hcond
        exact ⟨i, q, hq, hcond.1, hcond.2, htx⟩
      · exact absurd htx List.not_mem_nil
  · rintro ⟨i, q, hq, hdone, hwas, htx⟩
    refine ⟨i, List.mem_finRange i, ?_⟩
    rw [hq]
    dsimp only
    rwa [if_pos (by rw [hdone, hwas]; rfl)]

/-- With all writes done, a block is accepted or nothing but the seed cache changes. -/
lemma acChainAcceptBlock_ok_or_reseeded (hP : P.MallocBounded) (now : UInt64) {b : Block}
    (hbuf : PassesChecks P now c b → (acStateSerialize P (postState P c.state b)).isSome) :
    (acChainAcceptBlock P now .all c b).1 = .ok ∨
      c.Reseeded P (acChainAcceptBlock P now .all c b).2 := by
  obtain ⟨k, -, ⟨hreach, d, hd, heq⟩ | ⟨-, -, -, hres⟩⟩ := acChainAcceptBlock_cases hP now .all c b
  · obtain ⟨buf, hser⟩ := Option.isSome_iff_exists.mp (hbuf hreach.passes)
    refine Or.inl ?_
    rw [heq]
    exact persist_all ((congrArg (acStateSerialize P) hd.state_eq).trans hser)
  · exact Or.inr hres

/-- A block that is handed to the chain is committed with its entry, or the chain stays as it
is. -/
lemma sealBlock_closes (hP : P.MallocBounded) {env : Env} (henv : env.writes = .all) (i : Fin 8)
    {p : Pending} (hbuf : PassesChecks P env.acceptMs cs.chain p.certified →
      (acStateSerialize P (postState P cs.chain.state p.certified)).isSome) :
    cs.chain.Reseeded P (sealBlock P env cs i p).1.chain ∨ ∃ k buf,
      PassesChecks P env.acceptMs cs.chain p.certified ∧ CommitOk P cs.chain k p.certified ∧
      acStateSerialize P (postState P cs.chain.state p.certified) = some buf ∧
      (acChainAcceptBlock P env.acceptMs .all cs.chain p.certified).1 = .ok ∧
      (sealBlock P env cs i p).1.chain = committed P cs.chain p.certified buf ∧
      (sealBlock P env cs i p).1.pending i =
        some { p with committed := true, block := p.certified } := by
  have hcases := acChainAcceptBlock_ok_or_reseeded hP env.acceptMs hbuf
  rw [sealBlock, henv]
  rcases hcases with hok | hres
  · obtain ⟨hpass, ⟨k, -, hcommit⟩, -, -, buf, hser, hchain⟩ := acChainAcceptBlock_ok hP hok
    rw [if_pos (Or.inl hok)]
    exact Or.inr ⟨k, buf, hpass, hcommit, hser, hok, hchain, Function.update_self ..⟩
  · refine Or.inl ?_
    split_ifs
    · exact hres
    · exact hres

/-- The block has the transactions of an entry that was open in the first table and is
committed in the second one. -/
def ClosedBetween (t t' : PendingTable) (b : Block) : Prop :=
  ∃ i p q, t i = some p ∧ p.committed = false ∧ t' i = some q ∧ q.committed = true ∧
    q.block.txs = b.txs

lemma ClosedBetween.settled {height : ℕ} {t t' t'' : PendingTable} {b : Block}
    (h : ClosedBetween t t' b) (hsettled : SettledEntries height t' t'') :
    ClosedBetween t t'' b := by
  obtain ⟨i, p, q, hp, hopen, hq, hdone, htxs⟩ := h
  obtain ⟨r, hr, hqr⟩ := exists_later (hsettled i) hq
  exact ⟨i, p, r, hp, hopen, hr, hqr.keeps hdone, hqr.kin.txs_eq.trans htxs⟩

/-- Clean steps for blocks of a weaker property. -/
lemma cleanRun_mono {Q Q' : Block → Prop} (hQ : ∀ b, Q b → Q' b) {bs : List Block} {d : Chain}
    (h : Run (CleanStep P Q) c bs d) : Run (CleanStep P Q') c bs d := by
  refine h.mono fun c new d hs => ?_
  cases hs with
  | reseeded hd => exact .reseeded hd
  | accepted now k b buf hb hpass hcommit hser hok hvotes =>
    exact .accepted now k b buf (hQ b hb) hpass hcommit hser hok hvotes

/-- Attempts to seal close the entry of every block that the chain accepts. -/
lemma settled_closes (hP : P.MallocBounded) (hinv : TableInv P cs)
    (hbuf : ∀ i p, cs.pending i = some p →
      (acStateSerialize P (postState P cs.chain.state p.block)).isSome)
    (h : Run (Settle P fun env => env.writes = .all) cs msgs cs') :
    ∃ new, Run (CleanStep P (ClosedBetween cs.pending cs'.pending)) cs.chain new cs'.chain := by
  have hboth : SettledEntries cs'.chain.height.toNat cs.pending cs'.pending ∧
      ∃ new, Run (CleanStep P (ClosedBetween cs.pending cs'.pending)) cs.chain new cs'.chain := by
    refine h.invariant (I := fun _ t => SettledEntries t.chain.height.toNat cs.pending t.pending ∧
      ∃ new, Run (CleanStep P (ClosedBetween cs.pending t.pending)) cs.chain new t.chain)
      ⟨.refl _ _, [], .refl _⟩ ?_
    rintro _ t msgs u ⟨htable, bs, hbs⟩ hs
    have hnext := hs.table hP
    refine ⟨htable.trans (hs.lockStep hP).2.2.height_le hnext, ?_⟩
    have hold := cleanRun_mono (fun _ hb => ClosedBetween.settled hb hnext) hbs
    cases hs with
    | timed => exact ⟨bs, hold⟩
    | offered env _ i p ms henv hp hopen hvotes =>
      obtain ⟨hheight, hseed⟩ := cleanRun_height hbs
      obtain ⟨p₀, hp₀, hsettled⟩ := exists_earlier (htable i) hp
      have hkin := hsettled.kin
      have hopen₀ : p₀.committed = false := by
        by_contra hdone
        rw [hsettled.keeps (by simpa using hdone)] at hopen
        cases hopen
      have hcases := @sealBlock_closes _ t hP _ henv i
        { p with thresholdReachedMs := ms } fun hpass => by
          -- a block above the tip was in the table before, and nothing was committed since
          have hfits := hinv.fits i p₀ hp₀
          have hb : p.block.header.height.toNat = t.chain.height.toNat + 1 :=
            height_of_checkLink hpass.link
          have hle := hfits.height_le
          rw [hkin.header_eq, ← hfits.height_eq] at hb
          have hnil : bs = [] := List.length_eq_zero_iff.mp (by omega)
          have hpost : postState P cs.chain.state
              (Pending.certified { p with thresholdReachedMs := ms }) =
              postState P cs.chain.state p₀.block := postState_congr hkin.header_eq hkin.txs_eq
          rw [(hseed hnil).same.state_eq, hpost]
          exact hbuf i p₀ hp₀
      rcases hcases with hres | ⟨k, buf, hpass, hcommit, hser, hok, hchain, hentry⟩
      · exact ⟨bs ++ [], .tail hold (.reseeded hres)⟩
      · have hclosed : ClosedBetween cs.pending _ _ := ⟨i, p₀, _, hp₀, hopen₀, hentry, rfl, rfl⟩
        have hstep := CleanStep.accepted env.acceptMs k _ buf hclosed hpass hcommit hser hok hvotes
        rw [← hchain] at hstep
        exact ⟨_, .tail hold hstep⟩
  exact hboth.2

/-- An action closes entries of the table: none that was committed before and is still there. -/
lemma NodeAction.mem_commits_of_closed {x : Call} {b : Block} {tx : Tx} (hcall : a.call n = some x)
    (hentry : Entry P x n.cs msgs cs) (h : ClosedBetween cs.pending (n.exec P a).cs.pending b)
    (htx : tx ∈ b.txs) : tx ∈ a.commits P n := by
  obtain ⟨i, p, q, hp, hopen, hq, hdone, htxs⟩ := h
  refine NodeAction.mem_commits.mpr ⟨i, q, hq, hdone, ?_, htxs ▸ htx⟩
  rw [NodeAction.wasCommitted, NodeAction.stashes, hcall, Option.bind_some]
  rcases hentry.table with hsame | ⟨r, hr, htable⟩
  · obtain ⟨p₀, hp₀, -, hcommitted⟩ := exists_earlier (hsame i) hp
    rw [hp₀, Option.any_some, ← hcommitted, hopen, Bool.and_false]
  · rw [htable, Function.update_apply] at hp
    split_ifs at hp with hi
    · simp [hr, hi]
    · rw [hp, Option.any_some, hopen, Bool.and_false]

/-- **The commits of an undisturbed action** have the transactions of every block by which the
chain grows. -/
theorem Node.exec_commits (hP : P.MallocBounded) (hinv : NodeInv P n) (ha : Undisturbed P n a) :
    ∃ new, Run (CleanStep P fun b => ∀ tx ∈ b.txs, tx ∈ a.commits P n) n.cs.chain new
      (n.exec P a).cs.chain := by
  cases hcall : a.call n with
  | none =>
    obtain ⟨d, msgs, hd, hcs, -⟩ := Node.exec_uncalled hP hcall
    rw [hcs]
    exact ⟨[], .single (.reseeded hd)⟩
  | some x =>
    have hbuf := ha.2
    rw [NodeAction.stashes, hcall, Option.bind_some] at hbuf
    obtain ⟨cs₁, msgs₁, msgs₂, hentry, hsettle, -⟩ :=
      x.run_effect (P := P) (NodeAction.meets_of_envs hcall ha.1) n.cs
    have hcs := (Node.exec_called (P := P) hcall).1
    obtain ⟨new, hnew⟩ := settled_closes hP
      (hinv.table.entry (Call.fitting_of_call hinv hcall) hentry) (hentry.granted hbuf) hsettle
    rw [← hcs] at hnew
    exact ⟨[] ++ new, (Run.single (CleanStep.reseeded hentry.lockStep.2)).trans
      (cleanRun_mono (fun b hb tx => NodeAction.mem_commits_of_closed hcall hentry hb) hnew)⟩

/-- Nothing is committed without a call of the engine. -/
lemma NodeAction.commits_uncalled (hP : P.MallocBounded) (h : a.call n = none) :
    a.commits P n = [] := by
  obtain ⟨c, msgs, -, hcs, -⟩ := Node.exec_uncalled hP h
  refine List.eq_nil_iff_forall_not_mem.mpr fun tx htx => ?_
  obtain ⟨i, q, hq, hdone, hwas, -⟩ := NodeAction.mem_commits.mp htx
  rw [hcs] at hq
  rw [NodeAction.wasCommitted, NodeAction.stashes, h, show n.cs.pending i = some q from hq,
    Option.any_some, hdone] at hwas
  exact absurd hwas (by simp)

/-- Building a block does not call the engine. -/
lemma NodeAction.call_build (n : Node) (cands : Candidates) :
    NodeAction.call n (.own (.build cands)) = none := by
  obtain ⟨cs, slot, pc, sent⟩ := n
  cases pc <;> rfl

end Commits

/-! ### The daemon -/

/-- Where the slot thread stands between `am_i_leader` and `ac_chain_build_block`. -/
inductive SnapPc where
  | idle
  /-- behind `ac_mempool_snapshot` -/
  | taken (cands : Candidates)
  /-- behind `ac_mempool_prune_expired` -/
  | pruned (cands : Candidates)

/-- A node with its pool. -/
structure Daemon where
  node : Node
  pool : Mempool
  snap : SnapPc
  /-- The transactions that the thread which has committed their block is yet to remove from
  the pool. -/
  drops : List Tx

/-- The chain of a daemon. -/
abbrev Daemon.chain (d : Daemon) : Chain := d.node.cs.chain

/-- `ac_node_start`: the pool is new. -/
def Daemon.initial (c : Chain) (kp : Keypair) (validator : Bool) (slot : UInt64) : Daemon :=
  ⟨Node.initial c kp validator slot, acMempoolNew c.chainId, .idle, []⟩

/-- What `on_tx_ann_cb` and `tx_submit` do with a transaction: the result of `ac_mempool_add` at
the current slot, and the pool. -/
def Daemon.offer (P : Platform) (d : Daemon) (realloc : Bool) (now : UInt64) (tx : Tx) :
    MpResult × Mempool :=
  acMempoolAdd P realloc d.pool d.chain.state tx (acChainCurrentSlot now d.chain)

/-- What a run of the daemon records. -/
inductive DaemonEvent where
  | acted (a : NodeAction)
  | offered (tx : Tx) (r : MpResult)
  | pruned (slot : UInt64)
  | removed (tx : Tx)

/-- One step of the daemon, in which every action of the node satisfies `C`. -/
inductive Daemon.Step (P : Platform) (C : Node → NodeAction → Prop) :
    Daemon → List DaemonEvent → Daemon → Prop
  /-- The lock of the engine is held until the last transaction is removed, so that no other
  call of it begins before. -/
  | act (d : Daemon) (a : NodeAction) (hC : C d.node a) (hbuild : ∀ cands, a ≠ .own (.build cands))
      (hlock : (a.call d.node).isSome → d.drops = []) :
      Step P C d [.acted a] { d with
        node := d.node.exec P a
        drops := d.drops ++ a.commits P d.node }
  | snapshot (d : Daemon) (proof : VrfProof) (hpc : d.node.pc = .leading proof)
      (hsnap : d.snap = .idle) : Step P C d [] { d with snap := .taken d.pool.candidates }
  | prune (d : Daemon) (cands : Candidates) (hsnap : d.snap = .taken cands) :
      Step P C d [.pruned d.node.slot] { d with
        pool := (acMempoolPruneExpired d.pool d.node.slot).2
        snap := .pruned cands }
  | build (d : Daemon) (cands : Candidates) (hC : C d.node (.own (.build cands)))
      (hsnap : d.snap = .pruned cands) :
      Step P C d [.acted (.own (.build cands))] { d with
        node := d.node.exec P (.own (.build cands))
        snap := .idle }
  | offer (d : Daemon) (realloc : Bool) (now : UInt64) (payload : Bytes) (tx : Tx)
      (hdecode : acTxDecode payload = some tx) :
      Step P C d [.offered tx (d.offer P realloc now tx).1]
        { d with pool := (d.offer P realloc now tx).2 }
  /-- One round of the loop behind a commit in `try_commit_inner`. -/
  | drop (d : Daemon) (tx : Tx) (rest : List Tx) (hdrops : d.drops = tx :: rest) :
      Step P C d [.removed tx]
        { d with pool := acMempoolRemove d.pool (acTxHash P tx), drops := rest }

/-- The transactions that the pool has accepted in a run. -/
def pooledTxs (es : List DaemonEvent) : List Tx :=
  es.filterMap fun
    | .offered tx r => if r = .accepted then some tx else none
    | _ => none

lemma pooledTxs_append (es fs : List DaemonEvent) :
    pooledTxs (es ++ fs) = pooledTxs es ++ pooledTxs fs :=
  List.filterMap_append

lemma pooledTxs_offered (tx : Tx) (r : MpResult) :
    pooledTxs [.offered tx r] = if r = .accepted then [tx] else [] := by
  cases r <;> rfl

section Projections

variable {P : Platform} {C : Node → NodeAction → Prop} {d d' : Daemon} {es : List DaemonEvent}

/-- A weaker condition on the actions. -/
lemma Daemon.Step.mono {C' : Node → NodeAction → Prop} (hC : ∀ n a, C n a → C' n a)
    (hs : Daemon.Step P C d es d') : Daemon.Step P C' d es d' := by
  cases hs with
  | act a ha hbuild hlock => exact .act d a (hC _ _ ha) hbuild hlock
  | snapshot proof hpc hsnap => exact .snapshot d proof hpc hsnap
  | prune cands hsnap => exact .prune d cands hsnap
  | build cands ha hsnap => exact .build d cands (hC _ _ ha) hsnap
  | offer realloc now payload tx hdecode => exact .offer d realloc now payload tx hdecode
  | drop tx rest hdrops => exact .drop d tx rest hdrops

/-- **The pool of a daemon.**  A run of the daemon is a run of its pool. -/
theorem Daemon.run_pool (h : Run (Daemon.Step P C) d es d') :
    Run (PoolStep P) d.pool ((pooledTxs es).map (acTxHash P)) d'.pool := by
  refine h.invariant (I := fun es t => Run (PoolStep P) d.pool ((pooledTxs es).map (acTxHash P))
    t.pool) (.refl _) ?_
  intro es t new u hrun hs
  have hstay : Run (PoolStep P) d.pool ((pooledTxs es).map (acTxHash P) ++ []) t.pool := by
    rwa [List.append_nil]
  rw [pooledTxs_append, List.map_append]
  cases hs with
  | act | snapshot | build => exact hstay
  | prune => exact .tail hrun (.prune _ _)
  | drop tx => exact .tail hrun (.remove _ _)
  | offer realloc now payload tx =>
    refine .tail hrun ?_
    rw [pooledTxs_offered, apply_ite (List.map (acTxHash P))]
    exact .add realloc t.pool t.chain.state tx (acChainCurrentSlot now t.chain)

end Projections

end AgentChain
