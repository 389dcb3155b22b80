import AgentChain.PoolChain

/-!
# What becomes of a pooled transaction

A transaction that was accepted stays in the pool until something happens to it, and this file
lists what that can be (`Daemon.Leaves`): another transaction of the sender replaces it, a full
pool evicts it, it expires, or its block is committed.  Nothing else takes it out
(`pooled_tx_fate`), and nothing else gets into the blocks that the node builds
(`built_from_pool`).

The list has a gap.  When another transaction of the same sender and nonce is committed, the
one in the pool can never be included any more, but none of the four reasons applies to it
either.  Such transactions keep their places at the front of the pool, and the node builds
smaller blocks for it (`stale_front_crowds`).
-/

namespace AgentChain

open Trace

/-- Why an entry leaves the pool in a step that emits the given events. -/
inductive Daemon.Leaves (P : Platform) (d : Daemon) (e : MpEntry) : List DaemonEvent → Prop
  /-- The next transaction of the sender has a higher tip. -/
  | replaced (tx : Tx) (hsame : e.sameNonce tx = true) (htip : e.tx.tip < tx.tip)
      (hnonce : tx.nonce = nonceOf d.chain.state tx.sender) : Leaves P d e [.offered tx .accepted]
  /-- The pool is full, and no tip in it is lower. -/
  | evicted (tx : Tx) (htip : e.tx.tip < tx.tip)
      (hfull : d.pool.entries.length = acMempoolCapacity)
      (hlowest : ∀ a ∈ d.pool.entries, e.tx.tip ≤ a.tx.tip) : Leaves P d e [.offered tx .accepted]
  | expired (h : e.tx.validUntil ≤ d.node.slot) : Leaves P d e [.pruned d.node.slot]
  /-- A committed block has a transaction of the same hash. -/
  | committed (i : Fin 8) (p : Pending) (tx : Tx) (hp : d.node.cs.pending i = some p)
      (hdone : p.committed = true) (htx : tx ∈ p.block.txs) (hhash : acTxHash P tx = e.hash) :
      Leaves P d e [.removed tx]

/-- The transactions to be removed are those of committed entries of the table. -/
def Daemon.DropsCommitted (d : Daemon) : Prop :=
  ∀ tx ∈ d.drops, ∃ i p, d.node.cs.pending i = some p ∧ p.committed = true ∧ tx ∈ p.block.txs

section Fate

variable {P : Platform} {C : Node → NodeAction → Prop} {d d' d₀ : Daemon} {es : List DaemonEvent}
  {e : MpEntry} {log : List Hash}

lemma Daemon.DropsCommitted.step (hP : P.MallocBounded) (h : d.DropsCommitted)
    (hs : Daemon.Step P C d es d') : d'.DropsCommitted := by
  -- without a call of the engine the table stays as it is
  have hquiet : ∀ {a : NodeAction} {snap : SnapPc}, a.call d.node = none →
      Daemon.DropsCommitted { d with node := d.node.exec P a, snap := snap } := by
    intro a snap hcall tx htx
    obtain ⟨c, msgs, -, hcs, -⟩ := Node.exec_uncalled hP hcall
    rw [show (d.node.exec P a).cs = _ from hcs]
    exact h tx htx
  cases hs with
  | act a hC hbuild hlock =>
    cases hcall : a.call d.node with
    | none =>
      rw [NodeAction.commits_uncalled hP hcall, List.append_nil]
      exact hquiet hcall
    | some x =>
      intro tx htx
      rw [hlock (by rw [hcall]; rfl), List.nil_append] at htx
      obtain ⟨i, q, hq, hdone, -, hin⟩ := NodeAction.mem_commits.mp htx
      exact ⟨i, q, hq, hdone, hin⟩
  | build cands hC hsnap => exact hquiet (NodeAction.call_build _ _)
  | snapshot | prune | offer => exact h
  | drop tx rest hdrops =>
    intro tx' htx'
    exact h tx' (by rw [hdrops]; exact List.mem_cons_of_mem _ htx')

/-- **A step takes an entry out for one of the four reasons.** -/
lemma Daemon.Step.leaves (hpool : PoolInv P log d.pool) (hdrops : d.DropsCommitted)
    (hs : Daemon.Step P C d es d') (he : e ∈ d.pool.entries) :
    e ∈ d'.pool.entries ∨ d.Leaves P e es := by
  cases hs with
  | act | snapshot | build => exact Or.inl he
  | prune cands hsnap =>
    by_cases hexpired : e.tx.validUntil ≤ d.node.slot
    · exact Or.inr (.expired hexpired)
    · exact Or.inl (List.mem_filter.mpr ⟨he, by simpa using hexpired⟩)
  | offer realloc now payload tx hdecode =>
    rcases hpool.add_cases realloc d.chain.state tx (acChainCurrentSlot now d.chain) with
      ⟨-, heq⟩ | ⟨hfree, hacc, -, -, -, hgone⟩
    · exact Or.inl (show e ∈ (d.offer P realloc now tx).2.entries by rwa [Daemon.offer, heq])
    · rw [show (d.offer P realloc now tx).1 = .accepted from hacc]
      rcases hgone e he with hstays | ⟨htip, hsame | ⟨hfull, hlowest⟩⟩
      · exact Or.inl hstays
      · exact Or.inr (.replaced tx hsame htip (mpRefusal_none hfree).2.2)
      · exact Or.inr (.evicted tx htip hfull hlowest)
  | drop tx rest hrest =>
    by_cases hhash : e.hash = acTxHash P tx
    · obtain ⟨i, p, hp, hdone, htx⟩ := hdrops tx (by rw [hrest]; exact List.mem_cons_self)
      exact Or.inr (.committed i p tx hp hdone htx hhash.symm)
    · exact Or.inl ((hpool.mem_remove _).mpr ⟨he, hhash⟩)

/-- The entry is in the pool at the end of the run, or a step of the run has taken it out. -/
def Daemon.Accounted (P : Platform) (C : Node → NodeAction → Prop) (d₀ : Daemon)
    (es : List DaemonEvent) (d : Daemon) (e : MpEntry) : Prop :=
  e ∈ d.pool.entries ∨ ∃ before x after t t', es = before ++ x ++ after ∧
    Run (Daemon.Step P C) d₀ before t ∧ Daemon.Step P C t x t' ∧ Run (Daemon.Step P C) t' after d ∧
    e ∈ t.pool.entries ∧ e ∉ t'.pool.entries ∧ t.Leaves P e x

/-- One step more. -/
lemma Daemon.Accounted.step (hrun : Run (Daemon.Step P C) d₀ es d) (hpool : PoolInv P log d.pool)
    (hdrops : d.DropsCommitted) {new : List DaemonEvent} (hs : Daemon.Step P C d new d')
    (h : Daemon.Accounted P C d₀ es d e) : Daemon.Accounted P C d₀ (es ++ new) d' e := by
  rcases h with hin | ⟨before, x, after, t, t', rfl, hbefore, hstep, hafter, hleft⟩
  · by_cases hin' : e ∈ d'.pool.entries
    · exact Or.inl hin'
    · have hleaves := (hs.leaves hpool hdrops hin).resolve_left hin'
      exact Or.inr ⟨es, new, [], d, d', (List.append_nil _).symm, hrun, hs, .refl _, hin, hin',
        hleaves⟩
  · exact Or.inr ⟨before, x, after ++ new, t, t', List.append_assoc .., hbefore, hstep,
      hafter.tail hs, hleft⟩

/-- **The fate of a pooled transaction.**  Let a node start with an empty pool, and let its
threads run in any order.  Every transaction that its pool has accepted is still there, or a
step of the run has taken it out: the next transaction of its sender was accepted with a higher
tip, or any transaction with a higher tip while the pool was full and no tip in it lower, or it
had expired, or a transaction of its hash was removed that is in a committed block. -/
theorem pooled_tx_fate (hP : P.MallocBounded) (c : Chain) (kp : Keypair) (validator : Bool)
    (slot : UInt64) (hrun : Run (Daemon.Step P C) (Daemon.initial c kp validator slot) es d) :
    ∀ tx ∈ pooledTxs es, ∃ e, e.tx = tx ∧
      Daemon.Accounted P C (Daemon.initial c kp validator slot) es d e := by
  refine (hrun.invariant (I := fun es d =>
    Run (Daemon.Step P C) (Daemon.initial c kp validator slot) es d ∧ d.DropsCommitted ∧
      ∀ tx ∈ pooledTxs es, ∃ e, e.tx = tx ∧
        Daemon.Accounted P C (Daemon.initial c kp validator slot) es d e)
    ⟨.refl _, fun _ h => absurd h List.not_mem_nil, fun _ h => absurd h List.not_mem_nil⟩ ?_).2.2
  rintro es d new d' ⟨hrun, hdrops, hall⟩ hs
  have hpool := Run.poolInv (Daemon.run_pool hrun)
  refine ⟨hrun.tail hs, hdrops.step hP hs, ?_⟩
  rw [pooledTxs_append]
  refine List.forall_mem_append.mpr ⟨fun tx htx => ?_, fun tx htx => ?_⟩
  · obtain ⟨e, rfl, hacc⟩ := hall tx htx
    exact ⟨e, rfl, hacc.step hrun hpool hdrops hs⟩
  · cases hs with
    | act | snapshot | prune | build | drop => exact absurd htx List.not_mem_nil
    | offer realloc now payload tx' hdecode =>
      rw [pooledTxs_offered] at htx
      split_ifs at htx with hacc
      · obtain rfl := List.mem_singleton.mp htx
        rcases hpool.add_cases realloc d.chain.state tx (acChainCurrentSlot now d.chain) with
          ⟨hne, -⟩ | ⟨-, -, -, -, hin, -⟩
        · exact absurd hacc hne
        · exact ⟨_, rfl, Or.inl hin⟩
      · exact absurd htx List.not_mem_nil

end Fate

/-- The daemon behind the removal of the transfer. -/
def emptiedDaemon : Daemon :=
  ⟨sealedDaemon.node, acMempoolRemove sealedDaemon.pool (acTxHash reference payTx), .idle, []⟩

lemma run_emptiedDaemon : ∃ es, Run (Daemon.Step reference (Undisturbed reference)) mintDaemon
    ([.offered payTx .accepted] ++ es) emptiedDaemon := by
  obtain ⟨es, hrun⟩ := run_sealedDaemon
  refine ⟨es ++ [.removed payTx], ?_⟩
  rw [← List.append_assoc]
  exact (run_paidDaemon.trans hrun).tail (.drop sealedDaemon payTx [] rfl)

/-- The transfer was accepted and is gone. -/
theorem pooled_tx_fate_paid : emptiedDaemon.pool.entries = [] ∧ ∃ es, payTx ∈ pooledTxs es ∧
    ∃ e, e.tx = payTx ∧
      Daemon.Accounted reference (Undisturbed reference) mintDaemon es emptiedDaemon e := by
  obtain ⟨es, hrun⟩ := run_emptiedDaemon
  have hin : payTx ∈ pooledTxs ([.offered payTx .accepted] ++ es) := by
    rw [pooledTxs_append, pooledTxs_offered, if_pos rfl]
    exact List.mem_append_left _ (List.mem_singleton.mpr rfl)
  exact ⟨by decide +kernel, _, hin,
    pooled_tx_fate reference_mallocBounded (openedChain mintGenesis) (referenceKey 1) true 1 hrun _
      hin⟩

/-! ### Built blocks -/

section Built

variable {P : Platform} {C : Node → NodeAction → Prop} {d d' : Daemon} {n : Node} {a : NodeAction}
  {es new : List DaemonEvent}

lemma buildStep_kept_sublist (slot baseFee : UInt64) (l : BuildLoop) (tx : Tx) :
    (buildStep P slot baseFee l tx).kept.Sublist (l.kept ++ [tx]) := by
  rw [buildStep]
  dsimp only
  split_ifs
  · exact List.sublist_append_left _ _
  · exact List.sublist_append_left _ _
  · exact List.sublist_append_left _ _
  · exact List.Sublist.refl _

lemma foldl_buildStep_kept_sublist (slot baseFee : UInt64) (txs : List Tx) (l : BuildLoop) :
    (txs.foldl (buildStep P slot baseFee) l).kept.Sublist (l.kept ++ txs) := by
  induction txs generalizing l with
  | nil => rw [List.append_nil, List.foldl_nil]
  | cons tx txs ih =>
    have hstep := (buildStep_kept_sublist (P := P) slot baseFee l tx).append_right txs
    rw [List.append_assoc] at hstep
    exact (ih _).trans hstep

/-- The transactions of a block that waits to be proposed were candidates, when it was not
there before. -/
lemma Node.exec_built (hP : P.MallocBounded) {b : Block} (h : (n.exec P a).pc = .built b) :
    n.pc = .built b ∨ ∃ proof cands c, n.pc = .leading proof ∧ a = .own (.build cands) ∧
      n.cs.chain.Reseeded P c ∧
      b.txs = (buildTxs P n.slot (buildBaseFee c) n.cs.chain.state cands.txs).kept := by
  cases a with
  | receive env m =>
    cases m with
    | headersReq buf | commitVote buf | blockAnn buf | blockRes buf => exact Or.inl h
  | own a =>
    have hbuilt : ∀ proof cands, (n.build P proof cands).pc = .built b → ∃ c,
        n.cs.chain.Reseeded P c ∧
        b.txs = (buildTxs P n.slot (buildBaseFee c) n.cs.chain.state cands.txs).kept := by
      intro proof cands hb
      obtain ⟨b₀, hb₀, rfl⟩ := (n.build_pc (P := P) proof cands).2 b hb
      obtain ⟨-, -, rfl⟩ := acChainBuildBlock_some hP hb₀
      have hseed := acChainBuildBlock_reseeded hP n.cs.chain n.slot n.cs.kp cands
      refine ⟨_, hseed, ?_⟩
      show (buildTxs P _ _ (acChainBuildBlock P n.cs.chain n.slot n.cs.kp cands).2.state _).kept = _
      rw [hseed.same.state_eq]
    have hserve := n.serve_pc
    have hleader := (n.checkLeader_pc (P := P)).2
    obtain ⟨cs, slot, pc, sent⟩ := n
    cases pc <;> cases a
    all_goals first
      | exact Or.inl h
      | exact Or.inl ((hserve _).2.symm.trans h)
      | exact absurd h (hleader b)
      | (obtain ⟨c, hseed, htxs⟩ := hbuilt _ _ h
         exact Or.inr ⟨_, _, c, rfl, rfl, hseed, htxs⟩)
      | cases h

/-- The transactions in the pool, in a snapshot and in a block that waits to be proposed were
accepted before. -/
structure Daemon.Sourced (es : List DaemonEvent) (d : Daemon) : Prop where
  pool : ∀ e ∈ d.pool.entries, e.tx ∈ pooledTxs es
  snap : ∀ cands, d.snap = .taken cands ∨ d.snap = .pruned cands →
    ∀ tx ∈ cands.txs, tx ∈ pooledTxs es
  built : ∀ b, d.node.pc = .built b → ∀ tx ∈ b.txs, tx ∈ pooledTxs es

lemma Daemon.Sourced.initial (c : Chain) (kp : Keypair) (validator : Bool) (slot : UInt64) :
    (Daemon.initial c kp validator slot).Sourced [] where
  pool := fun _ he => absurd he List.not_mem_nil
  snap := fun _ hc => by
    rcases hc with hc | hc
    · cases hc
    · cases hc
  built := fun _ hb => by cases hb

lemma Daemon.Sourced.step (hP : P.MallocBounded) {log : List Hash} (hpool : PoolInv P log d.pool)
    (h : d.Sourced es) (hs : Daemon.Step P C d new d') : d'.Sourced (es ++ new) := by
  have hold : ∀ {tx}, tx ∈ pooledTxs es → tx ∈ pooledTxs (es ++ new) := fun htx => by
    rw [pooledTxs_append]
    exact List.mem_append_left _ htx
  replace h : d.Sourced (es ++ new) :=
    ⟨fun e he => hold (h.pool e he), fun cands hc tx htx => hold (h.snap cands hc tx htx),
      fun b hb tx htx => hold (h.built b hb tx htx)⟩
  cases hs with
  | act a hC hbuild hlock =>
    refine ⟨h.pool, h.snap, fun b hb => ?_⟩
    rcases Node.exec_built hP hb with hb | ⟨proof, cands, c, -, ha, -⟩
    · exact h.built b hb
    · exact absurd ha (hbuild cands)
  | snapshot proof hpc hsnap =>
    refine ⟨h.pool, fun cands hc tx htx => ?_, h.built⟩
    rcases hc with hc | hc
    · obtain rfl := SnapPc.taken.inj hc
      obtain ⟨e, he, rfl⟩ := List.mem_map.mp htx
      exact h.pool e (List.mem_of_mem_take he)
    · cases hc
  | prune cands hsnap =>
    refine ⟨fun e he => h.pool e (List.mem_filter.mp he).1, fun cands' hc => ?_, h.built⟩
    rcases hc with hc | hc
    · cases hc
    · obtain rfl := SnapPc.pruned.inj hc
      exact h.snap cands (Or.inl hsnap)
  | build cands hC hsnap =>
    refine ⟨h.pool, fun cands' hc => ?_, fun b hb tx htx => ?_⟩
    · rcases hc with hc | hc
      · cases hc
      · cases hc
    · rcases Node.exec_built hP hb with hb | ⟨proof, cands', c, -, ha, -, htxs⟩
      · exact h.built b hb tx htx
      · obtain rfl : cands = cands' := by cases ha; rfl
        rw [htxs] at htx
        exact h.snap cands (Or.inr hsnap) tx
          ((foldl_buildStep_kept_sublist _ _ cands.txs ⟨[], 0, 0, _⟩).subset htx)
  | offer realloc now payload tx hdecode =>
    refine ⟨fun e he => ?_, h.snap, h.built⟩
    rcases hpool.add_cases realloc d.chain.state tx (acChainCurrentSlot now d.chain) with
      ⟨-, heq⟩ | ⟨-, hacc, -, hmem, -⟩
    · exact h.pool e (congrArg Mempool.entries heq ▸ he)
    · rcases hmem e he with hin | rfl
      · exact h.pool e hin
      · rw [pooledTxs_append, show (d.offer P realloc now tx).1 = .accepted from hacc,
          pooledTxs_offered, if_pos rfl]
        exact List.mem_append_right _ (List.mem_singleton.mpr rfl)
  | drop tx rest hdrops =>
    exact ⟨fun e he => h.pool e ((hpool.mem_remove _).mp he).1, h.snap, h.built⟩

/-- **Blocks are built from the pool.**  Let a node start with an empty pool, and let its
threads run in any order.  Every transaction in its pool, and every transaction of a block that
it has built and is about to propose, was accepted by its own pool before. -/
theorem built_from_pool (hP : P.MallocBounded) (c : Chain) (kp : Keypair) (validator : Bool)
    (slot : UInt64) (hrun : Run (Daemon.Step P C) (Daemon.initial c kp validator slot) es d) :
    (∀ e ∈ d.pool.entries, e.tx ∈ pooledTxs es) ∧
      ∀ b, d.node.pc = .built b → ∀ tx ∈ b.txs, tx ∈ pooledTxs es := by
  have hsourced := (hrun.invariant (I := fun es d =>
    Run (Daemon.Step P C) (Daemon.initial c kp validator slot) es d ∧ d.Sourced es)
    ⟨.refl _, .initial c kp validator slot⟩ ?_).2
  · exact ⟨hsourced.pool, hsourced.built⟩
  · rintro es d new d' ⟨hrun, h⟩ hs
    exact ⟨hrun.tail hs, h.step hP (Run.poolInv (Daemon.run_pool hrun)) hs⟩

end Built

/-- The block that waits to be proposed. -/
def SlotPc.waiting : SlotPc → Option Block
  | .built b => some b
  | _ => none

/-- The daemon that has built a block with the transfer. -/
def builtDaemon : Daemon :=
  ⟨(paidDaemon.node.exec reference (.own .checkLeader)).exec reference
      (.own (.build paidDaemon.pool.candidates)),
    (acMempoolPruneExpired paidDaemon.pool
      (paidDaemon.node.exec reference (.own .checkLeader)).slot).2, .idle, []⟩

/-- The transfer is in the block, and was accepted. -/
theorem built_from_pool_paid : builtDaemon.node.pc.waiting.map Block.txs = some [payTx] ∧
    ∃ es, Run (Daemon.Step reference anyAction) mintDaemon es builtDaemon ∧
      (∀ e ∈ builtDaemon.pool.entries, e.tx ∈ pooledTxs es) ∧
      ∀ b, builtDaemon.node.pc = .built b → ∀ tx ∈ b.txs, tx ∈ pooledTxs es := by
  have hoffered : Run (Daemon.Step reference anyAction) mintDaemon [.offered payTx .accepted]
      paidDaemon := run_paidDaemon.mono fun _ _ _ hs => hs.mono fun _ _ _ => trivial
  have hrun := Daemon.run_ledBuild (P := reference) (C := anyAction) (d := paidDaemon) rfl rfl
    trivial trivial (by decide +kernel) (by decide +kernel)
  exact ⟨by decide +kernel, _, hoffered.trans hrun,
    built_from_pool reference_mallocBounded (openedChain mintGenesis) (referenceKey 1) true 1
      (hoffered.trans hrun)⟩

end AgentChain
