import AgentChain.PoolFate

/-!
# Stale transactions in the pool

When a block with a transaction is committed, the pool drops the transaction of that hash.
Another transaction of the same sender and nonce, which may have reached this node but not the
proposer, stays in the pool.  It can never be included any more, and it is not replaced either,
since `ac_mempool_add` only takes transactions with the next nonce.  Until it expires or the
pool is full, it keeps its place in the order of the tips, and so its place among the 256
candidates of every block that the node builds (`stale_front_crowds`).
-/

namespace AgentChain

open Trace

/-- The nonce of the entry is used up. -/
def MpEntry.Stale (s : AcState) (e : MpEntry) : Prop :=
  e.tx.nonce.toNat < (nonceOf s e.tx.sender).toNat

section Builder

variable {P : Platform} {s : AcState} {slot baseFee : UInt64}

/-- The candidate loop skips a transaction whose nonce is not the next one. -/
lemma buildStep_stale {l : BuildLoop} {tx : Tx} (h : tx.nonce ≠ nonceOf l.state tx.sender) :
    buildStep P slot baseFee l tx = l := by
  have hrejected : (acStateApplyTx P l.state tx slot baseFee).1 = .rejected := by
    by_contra hinc
    exact h (acStateApplyTx_nonce hinc).1
  rw [buildStep]
  dsimp only
  rw [if_pos hrejected, acStateApplyTx_rejected hrejected]
  split_ifs <;> rfl

/-- Candidates that are skipped leave less room for the others. -/
lemma length_kept_stale {txs rest : List Tx} (h : ∀ tx ∈ txs, tx.nonce ≠ nonceOf s tx.sender) :
    (buildTxs P slot baseFee s (txs ++ rest)).kept.length ≤ rest.length := by
  have hskip : ∀ txs' : List Tx, (∀ tx ∈ txs', tx.nonce ≠ nonceOf s tx.sender) →
      txs'.foldl (buildStep P slot baseFee) ⟨[], 0, 0, s⟩ = ⟨[], 0, 0, s⟩ := by
    intro txs' h'
    induction txs' with
    | nil => rfl
    | cons tx txs' ih =>
      obtain ⟨htx, hrest⟩ := List.forall_mem_cons.mp h'
      rw [List.foldl_cons, buildStep_stale htx, ih hrest]
  have hlen := length_kept_foldl P slot baseFee rest ⟨[], 0, 0, s⟩
  rw [buildTxs, List.foldl_append, hskip txs h]
  rwa [List.length_nil, Nat.zero_add] at hlen

end Builder

section Front

variable {P : Platform} {log : List Hash} {mp : Mempool} {front back kept : List MpEntry}
  {e : MpEntry}

/-- Entries at the front of the pool are spared when none of them has the sender and the nonce
of the new transaction. -/
lemma Spared.keeps_front (h : Spared (front ++ back) e kept)
    (hlen : front.length < acMempoolCapacity)
    (hne : ∀ a ∈ front, a.sameNonce e.tx = false) : ∃ back', kept = front ++ back' := by
  generalize hl : front ++ back = l at h
  cases h with
  | room => exact ⟨back, hl.symm⟩
  | replaced first old rest heq hsame =>
    rcases List.append_eq_append_iff.mp (hl.trans heq) with ⟨mid, rfl, -⟩ | ⟨mid, rfl, hmid⟩
    · exact ⟨mid ++ rest, List.append_assoc ..⟩
    · cases mid with
      | nil => exact ⟨rest, by rw [List.append_nil]⟩
      | cons a mid =>
        obtain ⟨rfl, -⟩ := List.cons.inj hmid
        rw [hne old (by simp)] at hsame
        cases hsame
  | evicted _ last heq hfull =>
    have hback : back ≠ [] := by
      rintro rfl
      rw [← hl, List.append_nil] at hfull
      omega
    refine ⟨back.dropLast, ?_⟩
    rw [← List.dropLast_append_of_ne_nil hback, hl, heq, List.dropLast_concat]

/-- An offer leaves the front of the pool alone when its tip is not higher, and its sender and
nonce are others. -/
lemma PoolInv.add_front (hinv : PoolInv P log mp) (hfront : mp.entries = front ++ back)
    (hlen : front.length < acMempoolCapacity) {realloc : Bool} {s : AcState} {tx : Tx}
    {slot : UInt64}
    (hne : (acMempoolAdd P realloc mp s tx slot).1 = .accepted →
      ∀ a ∈ front, a.sameNonce tx = false ∧ tx.tip ≤ a.tx.tip) :
    ∃ back', (acMempoolAdd P realloc mp s tx slot).2.entries = front ++ back' := by
  have hplaced := hinv.added realloc s tx slot
  generalize acMempoolAdd P realloc mp s tx slot = r at hplaced hne
  cases hplaced with
  | refused => exact ⟨back, hfront⟩
  | accepted kept cap hspared =>
    have hboth := hne rfl
    rw [hfront] at hspared
    obtain ⟨back', rfl⟩ := hspared.keeps_front hlen fun a ha => (hboth a ha).1
    refine ⟨insertBehind MpEntry.tip (mpEntry P tx slot) back', insertBehind_append ?_ back'⟩
    intro a ha
    rw [(hinv.made a (by rw [hfront]; exact List.mem_append_left _ ha)).2]
    exact UInt64.not_lt.mpr (hboth a ha).2

/-- A removal leaves the front of the pool alone when no entry there has the hash. -/
lemma remove_front (hfront : mp.entries = front ++ back) {hash : Hash}
    (hne : ∀ a ∈ front, hash ≠ a.hash) :
    ∃ back', (acMempoolRemove mp hash).entries = front ++ back' := by
  rw [acMempoolRemove]
  cases hfind : mpFind mp hash with
  | none => exact ⟨back, hfront⟩
  | some i =>
    obtain ⟨hi, heq, -⟩ := List.findIdx?_eq_some_iff_getElem.mp hfind
    have hle : front.length ≤ i := by
      by_contra hlt
      have hin : mp.entries[i] ∈ front := by
        simp only [hfront]
        rw [List.getElem_append_left (by omega)]
        exact List.getElem_mem _
      exact hne _ hin (of_decide_eq_true heq).symm
    refine ⟨back.eraseIdx (i - front.length), ?_⟩
    show mp.entries.eraseIdx i = _
    rw [hfront, List.eraseIdx_append_of_length_le hle]

end Front

/-- A daemon with stale entries at the front of its pool. -/
structure Daemon.Crowded (front : List MpEntry) (d : Daemon) : Prop where
  pool : ∃ back, d.pool.entries = front ++ back
  stale : ∀ e ∈ front, e.Stale d.chain.state
  snap : ∀ cands, d.snap = .taken cands ∨ d.snap = .pruned cands →
    ∃ rest, cands.txs = front.map MpEntry.tx ++ rest
  built : ∀ b, d.node.pc = .built b → b.txs.length + front.length ≤ 256

/-- The event does nothing to the entries: no transaction with a higher tip is accepted, they
are not expired when the pool is pruned, and no transaction of their hash is removed. -/
def DaemonEvent.Spares (P : Platform) (front : List MpEntry) : DaemonEvent → Prop
  | .offered tx .accepted => ∀ e ∈ front, tx.tip ≤ e.tx.tip
  | .pruned slot => ∀ e ∈ front, slot < e.tx.validUntil
  | .removed tx => ∀ e ∈ front, acTxHash P tx ≠ e.hash
  | _ => True

section Runs

variable {P : Platform} {g : Genesis} {bs more : List Block} {d d' : Daemon}
  {front back : List MpEntry} {es : List DaemonEvent}

lemma Daemon.Crowded.step (hP : P.MallocBounded) (hlen : front.length ≤ 256)
    (hinv : PoolChainInv P g bs d) (hinv' : PoolChainInv P g (bs ++ more) d')
    (hfew : FewSent (includedTxs (bs ++ more))) (h : d.Crowded front)
    (hs : Daemon.Step P (Undisturbed P) d es d') (hspares : ∀ x ∈ es, x.Spares P front) :
    d'.Crowded front := by
  obtain ⟨log, hpool⟩ := hinv.pool
  obtain ⟨back, hback⟩ := h.pool
  have hcap : front.length < acMempoolCapacity := hlen.trans_lt (by decide)
  have hlog := hinv'.log
  rw [includedTxs_append] at hfew hlog
  have hstale : ∀ e ∈ front, e.Stale d'.chain.state := fun e he =>
    (h.stale e he).trans_le (hinv.log.nonce_mono hlog hfew _)
  cases hs with
  | act a hC hbuild hlock =>
    refine ⟨h.pool, hstale, h.snap, fun b hb => ?_⟩
    rcases Node.exec_built hP hb with hb | ⟨proof, cands, c, -, ha, -⟩
    · exact h.built b hb
    · exact absurd ha (hbuild cands)
  | snapshot proof hpc hsnap =>
    refine ⟨h.pool, hstale, fun cands hc => ?_, h.built⟩
    rcases hc with hc | hc
    · obtain rfl := SnapPc.taken.inj hc
      refine ⟨(back.take (256 - front.length)).map MpEntry.tx, ?_⟩
      show acMempoolSnapshot d.pool 256 = _
      rw [acMempoolSnapshot, hback, List.take_append, List.take_of_length_le hlen, List.map_append]
    · cases hc
  | prune cands hsnap =>
    refine ⟨?_, hstale, fun cands' hc => ?_, h.built⟩
    · refine ⟨back.filter fun e => !decide (e.tx.validUntil ≤ d.node.slot), ?_⟩
      show d.pool.entries.filter _ = _
      rw [hback, List.filter_append, List.filter_eq_self.mpr fun e he => ?_]
      have hvalid : d.node.slot < e.tx.validUntil :=
        hspares (.pruned d.node.slot) (List.mem_singleton.mpr rfl) e he
      simpa using UInt64.not_le.mpr hvalid
    · rcases hc with hc | hc
      · cases hc
      · obtain rfl := SnapPc.pruned.inj hc
        exact h.snap cands (Or.inl hsnap)
  | build cands hC hsnap =>
    refine ⟨h.pool, hstale, fun cands' hc => ?_, fun b hb => ?_⟩
    · rcases hc with hc | hc
      · cases hc
      · cases hc
    · rcases Node.exec_built hP hb with hb | ⟨proof, cands', c, -, ha, -, htxs⟩
      · exact h.built b hb
      · obtain rfl : cands = cands' := by cases ha; rfl
        obtain ⟨rest, hrest⟩ := h.snap cands (Or.inr hsnap)
        have hle := cands.txs_le
        have hused : ∀ tx ∈ front.map MpEntry.tx, tx.nonce ≠ nonceOf d.chain.state tx.sender := by
          intro tx htx heq
          obtain ⟨e, he, rfl⟩ := List.mem_map.mp htx
          have hlt := h.stale e he
          rw [MpEntry.Stale, heq] at hlt
          exact lt_irrefl _ hlt
        rw [htxs, hrest]
        have hkept : (buildTxs P d.node.slot (buildBaseFee c) d.node.cs.chain.state
            (front.map MpEntry.tx ++ rest)).kept.length ≤ rest.length := length_kept_stale hused
        rw [hrest, List.length_append, List.length_map] at hle
        omega
  | offer realloc now payload tx hdecode =>
    refine ⟨hpool.add_front hback hcap fun hacc a ha => ⟨?_, ?_⟩, hstale, h.snap, h.built⟩
    · -- the nonce of the offer is the next one, those of the entries are used up
      rcases hpool.add_cases realloc d.chain.state tx (acChainCurrentSlot now d.chain) with
        ⟨hne, -⟩ | ⟨hfree, -⟩
      · exact absurd hacc hne
      · rw [Bool.eq_false_iff]
        intro hsame
        have hlt := h.stale a ha
        obtain ⟨hnonce, hsender⟩ := of_decide_eq_true hsame
        rw [MpEntry.Stale, hnonce, hsender, ← (mpRefusal_none hfree).2.2] at hlt
        exact lt_irrefl _ hlt
    · have hspare := hspares _ (List.mem_singleton.mpr rfl)
      rw [show (d.offer P realloc now tx).1 = .accepted from hacc] at hspare
      exact hspare a ha
  | drop tx rest hdrops =>
    have hne : ∀ e ∈ front, acTxHash P tx ≠ e.hash :=
      hspares (.removed tx) (List.mem_singleton.mpr rfl)
    exact ⟨remove_front hback hne, hstale, h.snap, h.built⟩

/-- **Stale transactions crowd the blocks.**  Consider a node that has started with an empty pool,
and whose slot thread is not in the middle of building a block.  Let the first entries of its
pool, at most 256, have nonces that are used up, and let its threads run in any order, with no
failed write.  As long as no transaction with a higher tip is accepted, the entries do not
expire and no transaction of their hashes is removed, they stay at the front of the pool, and
every block that the node builds has room for the other candidates only: none, when there are
256 such entries. -/
theorem stale_front_crowds (hP : P.MallocBounded) {es₀ : List NodeEvent} {c : Chain}
    (hc : NodeReachable P g es₀ c) {kp : Keypair} {validator : Bool} {slot : UInt64}
    {evs : List DaemonEvent}
    (hstart : Run (Daemon.Step P (Undisturbed P)) (Daemon.initial c kp validator slot) evs d)
    (hsnap : d.snap = .idle) (hpc : ∀ b, d.node.pc ≠ .built b)
    (hpool : d.pool.entries = front ++ back) (hlen : front.length ≤ 256)
    (hstale : ∀ e ∈ front, e.Stale d.chain.state)
    (hrun : Run (Daemon.Step P (Undisturbed P)) d es d') (hspares : ∀ x ∈ es, x.Spares P front)
    (hheight : d'.chain.height.toNat < 2 ^ 52) :
    (∃ back', d'.pool.entries = front ++ back') ∧
      ∀ b, d'.node.pc = .built b → b.txs.length + front.length ≤ 256 := by
  obtain ⟨new, hinv⟩ :=
    Daemon.run_poolChainInv hP (PoolChainInv.initial hP hc kp validator slot) hstart
  have hcrowded : d.Crowded front := by
    refine ⟨⟨back, hpool⟩, hstale, fun cands hc => ?_, fun b hb => absurd hb (hpc b)⟩
    rw [hsnap] at hc
    rcases hc with hc | hc
    · cases hc
    · cases hc
  have hend : ∃ more, PoolChainInv P g (blocksOf es₀ ++ new ++ more) d' ∧
      ((∀ x ∈ es, x.Spares P front) →
        FewSent (includedTxs (blocksOf es₀ ++ new ++ more)) → d'.Crowded front) := by
    refine hrun.invariant (I := fun es t => ∃ more,
      PoolChainInv P g (blocksOf es₀ ++ new ++ more) t ∧ ((∀ x ∈ es, x.Spares P front) →
        FewSent (includedTxs (blocksOf es₀ ++ new ++ more)) → t.Crowded front))
      ⟨[], by rwa [List.append_nil], fun _ _ => hcrowded⟩ ?_
    rintro es t next u ⟨more, ht, hthen⟩ hs
    obtain ⟨last, hu⟩ := ht.step hP hs
    refine ⟨more ++ last, by rwa [← List.append_assoc], fun hall hfew => ?_⟩
    rw [← List.append_assoc] at hfew
    obtain ⟨hbefore, hnext⟩ := List.forall_mem_append.mp hall
    have hold := hfew
    rw [includedTxs_append] at hold
    exact (hthen hbefore hold.of_append).step hP hlen ht hu hfew hs hnext
  obtain ⟨more, hinv', hthen⟩ := hend
  have hdone := hthen hspares (hinv'.ledger.fewSent hheight)
  exact ⟨hdone.pool, hdone.built⟩

end Runs

/-- The commit of a block with one transaction. -/
lemma Daemon.run_commitOne {P : Platform} {C : Node → NodeAction → Prop} {d : Daemon}
    {a : NodeAction} {tx : Tx} (hdrops : d.drops = []) (hC : C d.node a)
    (hbuild : ∀ cands, a ≠ .own (.build cands)) (htxs : a.commits P d.node = [tx]) :
    Run (Daemon.Step P C) d ([.acted a] ++ [.removed tx])
      ⟨d.node.exec P a, acMempoolRemove d.pool (acTxHash P tx), d.snap, []⟩ :=
  (Run.single (.acted hdrops hC hbuild htxs)).tail (.drop _ tx [] rfl)

/-! The block of another transfer with the same nonce arrives while the first one is in the
pool. -/

/-- The announcement of a block with the other transfer. -/
def otherTransfer : NodeAction :=
  .receive (Env.atMs 100000)
    (.blockAnn (blockBytes (firstBlock mintGenesis ⟨[pooledTx 4], by decide⟩)))

/-- The daemon behind the commit of the block and the removal of its transfer. -/
def staleDaemon : Daemon :=
  ⟨paidDaemon.node.exec reference otherTransfer,
    acMempoolRemove paidDaemon.pool (acTxHash reference (pooledTx 4)), paidDaemon.snap, []⟩

/-- The daemon behind its next block. -/
def crowdedDaemon : Daemon :=
  ⟨(staleDaemon.node.exec reference (.own .checkLeader)).exec reference
      (.own (.build staleDaemon.pool.candidates)),
    (acMempoolPruneExpired staleDaemon.pool
      (staleDaemon.node.exec reference (.own .checkLeader)).slot).2, .idle, []⟩

lemma run_staleDaemon : ∃ es, Run (Daemon.Step reference (Undisturbed reference)) mintDaemon es
    staleDaemon := by
  have hcommits : otherTransfer.commits reference paidDaemon.node = [pooledTx 4] := by
    decide +kernel
  have hquiet : Undisturbed reference paidDaemon.node otherTransfer := by decide +kernel
  exact ⟨_, run_paidDaemon.trans
    (Daemon.run_commitOne rfl hquiet (by simp [otherTransfer]) hcommits)⟩

/-- The first transfer keeps its place, and is not in the block. -/
theorem stale_front_crowds_transfer : staleDaemon.pool.entries.map MpEntry.tx = [payTx] ∧
    crowdedDaemon.node.pc.waiting.map Block.txs = some [] ∧
    (∃ back, crowdedDaemon.pool.entries = staleDaemon.pool.entries ++ back) ∧
    ∀ b, crowdedDaemon.node.pc = .built b →
      b.txs.length + staleDaemon.pool.entries.length ≤ 256 := by
  obtain ⟨es, hstart⟩ := run_staleDaemon
  have hmeet : Undisturbed reference staleDaemon.node (.own .checkLeader) ∧
      Undisturbed reference (staleDaemon.node.exec reference (.own .checkLeader))
        (.own (.build staleDaemon.pool.candidates)) := by
    decide +kernel
  have hrun := Daemon.run_ledBuild (P := reference) (C := Undisturbed reference) (d := staleDaemon)
    rfl rfl hmeet.1 hmeet.2 (by decide +kernel) (by decide +kernel)
  have hnone : staleDaemon.node.pc.waiting.isNone = true := by decide +kernel
  have hstale : ∀ e ∈ staleDaemon.pool.entries,
      e.tx.nonce.toNat < (nonceOf staleDaemon.chain.state e.tx.sender).toNat := by
    decide +kernel
  have hvalid : ∀ e ∈ staleDaemon.pool.entries,
      (staleDaemon.node.exec reference (.own .checkLeader)).slot < e.tx.validUntil := by
    decide +kernel
  refine ⟨by decide +kernel, by decide +kernel, ?_⟩
  refine stale_front_crowds reference_mallocBounded reachable_mintGenesis hstart rfl
    (fun b hb => ?_) (List.append_nil _).symm (by decide +kernel) hstale hrun ?_ (by decide +kernel)
  · rw [hb] at hnone
    cases hnone
  · exact List.forall_mem_cons.mpr ⟨trivial, List.forall_mem_cons.mpr ⟨hvalid,
      List.forall_mem_cons.mpr ⟨trivial, by simp⟩⟩⟩

end AgentChain
