import AgentChain.Daemon

/-!
# The pool and the chain

What `ac_mempool_add` checks against the chain holds when a transaction enters the pool.  The
chain moves on, and this file says what is left of it along every run of the daemon: the pool
has no transaction that is ahead of the chain, and none of the chain itself except those that
the committing thread is about to remove (`pool_apart_from_chain`).
-/

namespace AgentChain

open Trace

/-! ### What the pool has checked -/

/-- The checks of `ac_mempool_add` that do not depend on the chain. -/
structure MpEntry.Admitted (P : Platform) (chainId : UInt64) (e : MpEntry) : Prop where
  hash_eq : e.hash = acTxHash P e.tx
  chainId_eq : e.tx.chainId = chainId
  version_eq : e.tx.version = acTxVersion
  known : acTxIntrinsicGas e.tx.kind ≠ none
  gas_le : acTxTotalGas e.tx ≤ e.tx.gasLimit.toUInt64
  verified : acTxVerify P e.tx = true

section Add

variable {P : Platform} {log : List Hash} {mp : Mempool} {s : AcState} {tx : Tx} {slot : UInt64}
  {realloc : Bool} {e : MpEntry}

/-- A transaction that is not refused. -/
lemma mpRefusal_none (h : mpRefusal P mp s tx slot = none) :
    (mpEntry P tx slot).Admitted P mp.chainId ∧ slot < tx.validUntil ∧
      tx.nonce = nonceOf s tx.sender := by
  rw [mpRefusal] at h
  dsimp only at h
  split_ifs at h with hchain hversion hkind hexpired hgas hsig hnonce hfunds
  have hverified : acTxVerify P tx = true := by simpa using hsig
  exact ⟨⟨rfl, not_not.mp hchain, not_not.mp hversion, hkind, UInt64.not_lt.mp hgas, hverified⟩,
    UInt64.not_le.mp hexpired, not_not.mp hnonce⟩

/-- How an entry can make room for a transaction: it has the sender and the nonce of the
transaction, or it is the last one of a full pool.  Its tip is lower in both cases. -/
def MpEntry.GivesWay (mp : Mempool) (tx : Tx) (e : MpEntry) : Prop :=
  e.tx.tip < tx.tip ∧ (e.sameNonce tx = true ∨
    (mp.entries.length = acMempoolCapacity ∧ ∀ a ∈ mp.entries, e.tx.tip ≤ a.tx.tip))

/-- An entry of the pool that is not spared. -/
lemma Spared.givesWay {new : MpEntry} {kept : List MpEntry} (hinv : PoolInv P log mp)
    (hnew : new.tip = new.tx.tip) (h : Spared mp.entries new kept) (he : e ∈ mp.entries) :
    e ∈ kept ∨ e.GivesWay mp new.tx := by
  have htip := (hinv.made e he).2
  cases h with
  | room => exact Or.inl he
  | replaced front old back heq hsame hlower =>
    rw [heq] at he
    rcases List.mem_append.mp he with hfront | hback
    · exact Or.inl (List.mem_append_left _ hfront)
    · rcases List.mem_cons.mp hback with rfl | hback
      · exact Or.inr ⟨by rwa [← htip, ← hnew], Or.inl hsame⟩
      · exact Or.inl (List.mem_append_right _ hback)
  | evicted _ last heq hfull _ hlower =>
    have hsorted := hinv.sorted.sorted
    rw [heq] at he
    rcases List.mem_append.mp he with hinit | hlast
    · exact Or.inl hinit
    · obtain rfl := List.mem_singleton.mp hlast
      refine Or.inr ⟨by rwa [← htip, ← hnew], Or.inr ⟨hfull, fun a ha => ?_⟩⟩
      have hmade := (hinv.made a ha).2
      rw [heq] at ha hsorted
      rcases List.mem_append.mp ha with ha | ha
      · rw [← htip, ← hmade]
        exact (List.pairwise_append.mp hsorted).2.2 a ha _ (List.mem_singleton.mpr rfl)
      · rw [List.mem_singleton.mp ha]
        exact UInt64.le_refl _

/-- **One call of `ac_mempool_add`**: what is new in the pool has just passed the checks, and
what is gone from it has made room for the new one. -/
lemma PoolInv.add_cases (hinv : PoolInv P log mp) (realloc : Bool) (s : AcState) (tx : Tx)
    (slot : UInt64) :
    ((acMempoolAdd P realloc mp s tx slot).1 ≠ .accepted ∧
        (acMempoolAdd P realloc mp s tx slot).2 = mp) ∨
      (mpRefusal P mp s tx slot = none ∧ (acMempoolAdd P realloc mp s tx slot).1 = .accepted ∧
        (acMempoolAdd P realloc mp s tx slot).2.chainId = mp.chainId ∧
        (∀ e, e ∈ (acMempoolAdd P realloc mp s tx slot).2.entries →
          e ∈ mp.entries ∨ e = mpEntry P tx slot) ∧
        mpEntry P tx slot ∈ (acMempoolAdd P realloc mp s tx slot).2.entries ∧
        ∀ e ∈ mp.entries, e ∈ (acMempoolAdd P realloc mp s tx slot).2.entries ∨
          e.GivesWay mp tx) := by
  have hplaced := hinv.added realloc s tx slot
  cases hrefusal : mpRefusal P mp s tx slot with
  | some r =>
    rw [acMempoolAdd, hrefusal]
    exact Or.inl ⟨mpRefusal_ne_accepted hrefusal, rfl⟩
  | none =>
    generalize acMempoolAdd P realloc mp s tx slot = r at hplaced
    cases hplaced with
    | refused r hr => exact Or.inl ⟨hr, rfl⟩
    | accepted kept cap hspared =>
      have hperm := insertBehind_perm MpEntry.tip (mpEntry P tx slot) kept
      refine Or.inr ⟨rfl, rfl, rfl, fun e he => ?_, hperm.mem_iff.mpr List.mem_cons_self,
        fun e he => ?_⟩
      · rcases List.mem_cons.mp (hperm.mem_iff.mp he) with rfl | he
        · exact Or.inr rfl
        · exact Or.inl (hspared.sublist.subset he)
      · rcases hspared.givesWay hinv rfl he with he | hway
        · exact Or.inl (hperm.mem_iff.mpr (List.mem_cons_of_mem _ he))
        · exact Or.inr hway

lemma chainId_remove (mp : Mempool) (hash : Hash) :
    (acMempoolRemove mp hash).chainId = mp.chainId := by
  rw [acMempoolRemove]
  split <;> rfl

/-- A removal takes the entry of the hash out, and no other one. -/
lemma PoolInv.mem_remove (hinv : PoolInv P log mp) (hash : Hash) :
    e ∈ (acMempoolRemove mp hash).entries ↔ e ∈ mp.entries ∧ e.hash ≠ hash := by
  have hgone := hinv.has_remove hash
  rw [acMempoolHas, Bool.eq_false_iff, ne_eq, mpFind_isSome_iff] at hgone
  constructor
  · intro he
    refine ⟨?_, fun heq => hgone (List.mem_map.mpr ⟨e, he, heq⟩)⟩
    rw [acMempoolRemove] at he
    split at he
    · exact List.mem_of_mem_eraseIdx he
    · exact he
  · rintro ⟨he, hne⟩
    rw [acMempoolRemove]
    cases hfind : mpFind mp hash with
    | none => exact he
    | some i =>
      obtain ⟨hi, heq, -⟩ := List.findIdx?_eq_some_iff_getElem.mp hfind
      obtain ⟨j, hj, rfl⟩ := List.mem_iff_getElem.mp he
      have hij : j ≠ i := by
        rintro rfl
        exact hne (by simpa using heq)
      exact List.mem_eraseIdx_iff_getElem.mpr ⟨j, hj, hij, rfl⟩

end Add

/-! ### The invariant -/

/-- No address has sent as many transactions as a nonce can count. -/
def FewSent (txs : List Tx) : Prop := ∀ a, (sentBy a txs).length < 2 ^ 64

/-- A daemon whose chain has accepted the given blocks. -/
structure PoolChainInv (P : Platform) (g : Genesis) (bs : List Block) (d : Daemon) : Prop where
  node : NodeInv P d.node
  ledger : Ledger P g bs d.chain
  log : NonceLog d.chain.state (includedTxs bs)
  pool : ∃ log, PoolInv P log d.pool
  chainId_eq : d.pool.chainId = g.chainId
  admitted : ∀ e ∈ d.pool.entries, e.Admitted P g.chainId
  /-- No entry is ahead of the chain. -/
  nonce_le : FewSent (includedTxs bs) → ∀ e ∈ d.pool.entries,
    e.tx.nonce.toNat ≤ (nonceOf d.chain.state e.tx.sender).toNat
  /-- An entry whose transaction is in the chain is about to be removed. -/
  apart : FewSent (includedTxs bs) → ∀ e ∈ d.pool.entries, e.tx ∈ includedTxs bs → e.tx ∈ d.drops

section Steps

variable {P : Platform} {g : Genesis} {bs new : List Block} {d d' : Daemon} {s s' : AcState}
  {txs more : List Tx} {c c' : Chain} {Q : Block → Prop}

lemma sentBy_append (a : Addr) (txs more : List Tx) :
    sentBy a (txs ++ more) = sentBy a txs ++ sentBy a more :=
  List.filter_append ..

lemma includedTxs_append (bs new : List Block) :
    includedTxs (bs ++ new) = includedTxs bs ++ includedTxs new :=
  List.flatMap_append

lemma FewSent.of_append (h : FewSent (txs ++ more)) : FewSent txs := by
  intro a
  have ha := h a
  rw [sentBy_append, List.length_append] at ha
  omega

/-- A chain that is not too long has not used up any nonce: a block has at most 4096
transactions. -/
lemma Ledger.fewSent (h : Ledger P g bs c) (hheight : c.height.toNat < 2 ^ 52) :
    FewSent (includedTxs bs) := by
  intro a
  have hsent : (sentBy a (includedTxs bs)).length ≤ (includedTxs bs).length :=
    List.length_filter_le _ _
  have hblocks : (includedTxs bs).length ≤ bs.length * acBlockMaxTxs := by
    rw [includedTxs, List.length_flatMap]
    refine (List.sum_le_card_nsmul _ acBlockMaxTxs fun k hk => ?_).trans (by simp)
    obtain ⟨b, -, rfl⟩ := List.mem_map.mp hk
    exact b.txs_le
  rw [h.height_eq] at hheight
  have hmax : acBlockMaxTxs = 2 ^ 12 := rfl
  rw [hmax] at hblocks
  omega

/-- The nonce of an address as a number. -/
lemma NonceLog.toNat_nonceOf (h : NonceLog s txs) (hfew : FewSent txs) (a : Addr) :
    (nonceOf s a).toNat = (sentBy a txs).length := by
  rw [h.nonce_eq]
  exact UInt64.toNat_ofNat_of_lt' (hfew a)

/-- The nonce of an included transaction is used up. -/
lemma NonceLog.nonce_lt (h : NonceLog s txs) (hfew : FewSent txs) {tx : Tx} (htx : tx ∈ txs) :
    tx.nonce.toNat < (nonceOf s tx.sender).toNat := by
  have hmem : tx ∈ sentBy tx.sender txs := List.mem_filter.mpr ⟨htx, by simp⟩
  have hnumber := List.mem_map_of_mem (f := fun tx : Tx => tx.nonce.toNat) hmem
  rw [h.numbers (hfew _), List.mem_range] at hnumber
  rwa [h.toNat_nonceOf hfew]

/-- The nonces go up with the chain. -/
lemma NonceLog.nonce_mono (h : NonceLog s txs) (h' : NonceLog s' (txs ++ more))
    (hfew : FewSent (txs ++ more)) (a : Addr) :
    (nonceOf s a).toNat ≤ (nonceOf s' a).toNat := by
  rw [h.toNat_nonceOf hfew.of_append, h'.toNat_nonceOf hfew, sentBy_append, List.length_append]
  omega

/-- Clean steps log the transactions of their blocks. -/
lemma NonceLog.clean (h : NonceLog c.state txs) (hrun : Run (CleanStep P Q) c new c') :
    NonceLog c'.state (txs ++ includedTxs new) := by
  refine hrun.invariant (I := fun new c' => NonceLog c'.state (txs ++ includedTxs new)) ?_ ?_
  · rwa [show includedTxs [] = [] from rfl, List.append_nil]
  · intro new d next d' hlog hs
    rw [includedTxs_append, ← List.append_assoc]
    cases hs with
    | reseeded hd =>
      rw [show includedTxs [] = [] from rfl, List.append_nil, hd.same.state_eq]
      exact hlog
    | accepted now k b buf hQ hpass hcommit hser =>
      rw [show includedTxs [b] = b.txs from List.flatMap_singleton ..]
      exact hlog.postState hpass.txs_ok

/-- The blocks of a clean run have the property of its steps. -/
lemma cleanRun_forall (hrun : Run (CleanStep P Q) c new c') : ∀ b ∈ new, Q b := by
  refine hrun.invariant (I := fun new _ => ∀ b ∈ new, Q b) (by simp) ?_
  intro new d next d' hall hs
  refine List.forall_mem_append.mpr ⟨hall, ?_⟩
  cases hs with
  | reseeded => simp
  | accepted now k b buf hQ => exact List.forall_mem_singleton.mpr hQ

/-- A change of the pool that brings in nothing but a transaction that has just passed the
checks. -/
lemma PoolChainInv.repool (h : PoolChainInv P g bs d) {mp : Mempool} {snap : SnapPc}
    (hpool : ∃ log, PoolInv P log mp) (hid : mp.chainId = d.pool.chainId)
    (hmem : ∀ e ∈ mp.entries, e ∈ d.pool.entries ∨ (e.Admitted P d.pool.chainId ∧
      e.tx.nonce = nonceOf d.chain.state e.tx.sender)) :
    PoolChainInv P g bs { d with pool := mp, snap := snap } where
  node := h.node
  ledger := h.ledger
  log := h.log
  pool := hpool
  chainId_eq := hid.trans h.chainId_eq
  admitted := fun e he => by
    rcases hmem e he with hold | ⟨hnew, -⟩
    · exact h.admitted e hold
    · rwa [h.chainId_eq] at hnew
  nonce_le := fun hfew e he => by
    rcases hmem e he with hold | ⟨-, hnonce⟩
    · exact h.nonce_le hfew e hold
    · rw [hnonce]
  apart := fun hfew e he hin => by
    rcases hmem e he with hold | ⟨-, hnonce⟩
    · exact h.apart hfew e hold hin
    · have hlt := h.log.nonce_lt hfew hin
      rw [hnonce] at hlt
      exact absurd hlt (lt_irrefl _)

/-- An action of the node: the transactions of new blocks are queued for removal. -/
lemma PoolChainInv.act (hP : P.MallocBounded) (h : PoolChainInv P g bs d) {a : NodeAction}
    (ha : Undisturbed P d.node a) {snap : SnapPc} {drops : List Tx}
    (hdrops : ∀ tx, tx ∈ d.drops ∨ tx ∈ a.commits P d.node → tx ∈ drops) :
    ∃ new, PoolChainInv P g (bs ++ new)
      { d with node := d.node.exec P a, snap := snap, drops := drops } := by
  obtain ⟨new, hrun⟩ := d.node.exec_commits hP h.node ha
  have hlog := h.log.clean hrun
  rw [← includedTxs_append] at hlog
  refine ⟨new, h.node.step hP, h.ledger.clean hrun, hlog, h.pool, h.chainId_eq, h.admitted, ?_, ?_⟩
  · intro hfew e he
    rw [includedTxs_append] at hfew hlog
    exact (h.nonce_le hfew.of_append e he).trans (h.log.nonce_mono hlog hfew _)
  · intro hfew e he hin
    rw [includedTxs_append] at hfew hin
    refine hdrops _ ?_
    rcases List.mem_append.mp hin with hold | hnew
    · exact Or.inl (h.apart hfew.of_append e he hold)
    · obtain ⟨b, hb, htx⟩ := List.mem_flatMap.mp hnew
      exact Or.inr (cleanRun_forall hrun b hb _ htx)

/-- **A step keeps the invariant.** -/
theorem PoolChainInv.step (hP : P.MallocBounded) (h : PoolChainInv P g bs d)
    {es : List DaemonEvent} (hs : Daemon.Step P (Undisturbed P) d es d') :
    ∃ new, PoolChainInv P g (bs ++ new) d' := by
  obtain ⟨log, hpool⟩ := h.pool
  -- a step that leaves the chain alone
  have hstay : ∀ {t : Daemon}, PoolChainInv P g bs t → ∃ new, PoolChainInv P g (bs ++ new) t :=
    fun ht => ⟨[], by rwa [List.append_nil]⟩
  cases hs with
  | act a hC hbuild hlock =>
    exact h.act hP hC fun tx htx => List.mem_append.mpr htx
  | build cands hC hsnap =>
    refine h.act hP hC fun tx htx => ?_
    rwa [NodeAction.commits_uncalled hP (NodeAction.call_build _ _), or_iff_left List.not_mem_nil]
      at htx
  | snapshot => exact hstay (h.repool ⟨log, hpool⟩ rfl fun e he => Or.inl he)
  | prune cands hsnap =>
    exact hstay (h.repool ⟨_, hpool.step (.prune _ _)⟩ rfl fun e he =>
      Or.inl (List.mem_filter.mp he).1)
  | offer realloc now payload tx hdecode =>
    have hstep := hpool.step (.add realloc _ d.chain.state tx (acChainCurrentSlot now d.chain))
    rcases hpool.add_cases realloc d.chain.state tx (acChainCurrentSlot now d.chain) with
      ⟨-, heq⟩ | ⟨hfree, -, hid, hmem, -⟩
    · exact hstay (h.repool ⟨_, hstep⟩ (congrArg Mempool.chainId heq) fun e he =>
        Or.inl (congrArg Mempool.entries heq ▸ he))
    · refine hstay (h.repool ⟨_, hstep⟩ hid fun e he => ?_)
      rcases hmem e he with hold | rfl
      · exact Or.inl hold
      · exact Or.inr ⟨(mpRefusal_none hfree).1, (mpRefusal_none hfree).2.2⟩
  | drop tx rest hdrops =>
    have hkept : ∀ e ∈ (acMempoolRemove d.pool (acTxHash P tx)).entries,
        e ∈ d.pool.entries ∧ e.hash ≠ acTxHash P tx := fun e he => (hpool.mem_remove _).mp he
    have hrest : PoolChainInv P g bs { d with pool := acMempoolRemove d.pool (acTxHash P tx) } :=
      h.repool ⟨_, hpool.step (.remove _ (acTxHash P tx))⟩ (chainId_remove _ _)
        fun e he => Or.inl (hkept e he).1
    refine hstay { hrest with apart := fun hfew e he hin => ?_ }
    have hqueued := hrest.apart hfew e he hin
    obtain ⟨hold, hne⟩ := hkept e he
    rw [hdrops] at hqueued
    rcases List.mem_cons.mp hqueued with rfl | hqueued
    · exact absurd (h.admitted e hold).hash_eq hne
    · exact hqueued

/-- A daemon that has just started. -/
lemma PoolChainInv.initial (hP : P.MallocBounded) {es : List NodeEvent}
    (hc : NodeReachable P g es c) (kp : Keypair) (validator : Bool) (slot : UInt64) :
    PoolChainInv P g (blocksOf es) (Daemon.initial c kp validator slot) := by
  obtain ⟨w, dir, c₀, hdir, hopen, hrun⟩ := hc
  have hinv : IndexInv P g (blocksOf es) c := IndexReachable.inv hP
    ⟨w, dir, c₀, hdir, hopen, hrun.mono fun _ _ _ hs => .moved hs⟩
  exact ⟨NodeInv.initial hP ⟨w, dir, c₀, hdir, hopen, hrun⟩ kp validator slot, hinv.ledger,
    hinv.log, ⟨[], poolInv_new P _⟩, hinv.ledger.chainId_eq, fun _ he => absurd he List.not_mem_nil,
    fun _ _ he => absurd he List.not_mem_nil, fun _ _ he => absurd he List.not_mem_nil⟩

/-- The invariant along every run. -/
theorem Daemon.run_poolChainInv (hP : P.MallocBounded) (h : PoolChainInv P g bs d)
    {es : List DaemonEvent} (hrun : Run (Daemon.Step P (Undisturbed P)) d es d') :
    ∃ new, PoolChainInv P g (bs ++ new) d' := by
  refine hrun.invariant (I := fun _ t => ∃ new, PoolChainInv P g (bs ++ new) t)
    ⟨[], by rwa [List.append_nil]⟩ ?_
  rintro _ t _ u ⟨new, ht⟩ hs
  obtain ⟨more, hu⟩ := ht.step hP hs
  exact ⟨new ++ more, by rwa [← List.append_assoc]⟩

/-- **The pool is apart from the chain.**  Let a node start on a chain that it has reached
before, with an empty pool, and let its threads run in any order, with no failed write.  Then
every transaction in its pool is signed, for its chain and of a known kind, pays for the gas
it needs and is not ahead of the nonce of its sender.  One that is in the chain is among those
that the committing thread has yet to remove.  So the pool and the chain have nothing in common
whenever the lock of the engine is free.  The bound on the height makes sure that nobody has
used up all nonces. -/
theorem pool_apart_from_chain (hP : P.MallocBounded) {es : List NodeEvent}
    (hc : NodeReachable P g es c) {kp : Keypair} {validator : Bool} {slot : UInt64}
    {evs : List DaemonEvent}
    (hrun : Run (Daemon.Step P (Undisturbed P)) (Daemon.initial c kp validator slot) evs d)
    (hheight : d.chain.height.toNat < 2 ^ 52) :
    ∃ new, Ledger P g (blocksOf es ++ new) d.chain ∧ ∀ e ∈ d.pool.entries,
      e.Admitted P g.chainId ∧
      e.tx.nonce.toNat ≤ (nonceOf d.chain.state e.tx.sender).toNat ∧
      (e.tx ∈ includedTxs (blocksOf es ++ new) → e.tx ∈ d.drops) := by
  obtain ⟨new, hinv⟩ :=
    Daemon.run_poolChainInv hP (PoolChainInv.initial hP hc kp validator slot) hrun
  have hfew := hinv.ledger.fewSent hheight
  exact ⟨new, hinv.ledger, fun e he =>
    ⟨hinv.admitted e he, hinv.nonce_le hfew e he, hinv.apart hfew e he⟩⟩

end Steps

/-! ### A slot in which the node leads -/

/-- The actions of the slot thread in a slot in which it leads. -/
def ledSlot (cands : Candidates) (ms : UInt64) : List NodeAction :=
  [.own .checkLeader, .own (.build cands), .own (.propose (Env.atMs ms) (ByteArr.fill 32 0)),
    .own (.vote (Env.atMs (ms + 1100))), .own (.seal fun _ => Env.atMs (ms + 1400))]

/-- Whether the slot thread has found itself a leader. -/
def SlotPc.leads : SlotPc → Bool
  | .leading _ => true
  | _ => false

section LedSlot

variable {P : Platform} {C : Node → NodeAction → Prop} {d : Daemon}

/-- An action that is not a build, with what it commits. -/
lemma Daemon.Step.acted {a : NodeAction} {txs : List Tx} (hdrops : d.drops = [])
    (hC : C d.node a) (hbuild : ∀ cands, a ≠ .own (.build cands))
    (htxs : a.commits P d.node = txs) :
    Daemon.Step P C d [.acted a] ⟨d.node.exec P a, d.pool, d.snap, txs⟩ := by
  have hstep := Daemon.Step.act (P := P) d a hC hbuild fun _ => hdrops
  rwa [hdrops, List.nil_append, htxs] at hstep

/-- Such a slot, up to the built block. -/
lemma Daemon.run_ledBuild (hsnap : d.snap = .idle) (hdrops : d.drops = [])
    (hleader : C d.node (.own .checkLeader))
    (hbuild : C (d.node.exec P (.own .checkLeader)) (.own (.build d.pool.candidates)))
    (hleads : (d.node.exec P (.own .checkLeader)).pc.leads = true)
    (hcommits : NodeAction.commits P d.node (.own .checkLeader) = []) :
    Run (Daemon.Step P C) d
      [.acted (.own .checkLeader), .pruned (d.node.exec P (.own .checkLeader)).slot,
        .acted (.own (.build d.pool.candidates))]
      ⟨(d.node.exec P (.own .checkLeader)).exec P (.own (.build d.pool.candidates)),
        (acMempoolPruneExpired d.pool (d.node.exec P (.own .checkLeader)).slot).2, .idle, []⟩ := by
  obtain ⟨node, pool, snap, drops⟩ := d
  obtain rfl : snap = .idle := hsnap
  obtain rfl : drops = [] := hdrops
  have hpc : ∃ proof, (node.exec P (.own .checkLeader)).pc = .leading proof := by
    cases hpc : (node.exec P (.own .checkLeader)).pc with
    | leading proof => exact ⟨proof, rfl⟩
    | start | built | voting | sealing =>
      rw [hpc] at hleads
      cases hleads
  obtain ⟨proof, hpc⟩ := hpc
  have hled : Run (Daemon.Step P C) ⟨node, pool, .idle, []⟩ _ _ :=
    .single (.acted rfl hleader (by simp) hcommits)
  exact ((hled.tail (.snapshot _ proof hpc rfl)).tail (.prune _ _ rfl)).tail (.build _ _ hbuild rfl)

/-- Such a slot, when nothing is committed before the seal. -/
lemma Daemon.run_ledSlot {ms : UInt64} {txs : List Tx} (hsnap : d.snap = .idle)
    (hdrops : d.drops = []) (hmeet : AllMeet P C d.node (ledSlot d.pool.candidates ms))
    (hleads : (d.node.exec P (.own .checkLeader)).pc.leads = true)
    (hcommits : ∀ k < 5, (ledSlot d.pool.candidates ms)[k]?.map
      (NodeAction.commits P (d.node.execAll P ((ledSlot d.pool.candidates ms).take k))) =
        some (if k = 4 then txs else [])) :
    ∃ es, Run (Daemon.Step P C) d es
      ⟨d.node.execAll P (ledSlot d.pool.candidates ms),
        (acMempoolPruneExpired d.pool (d.node.exec P (.own .checkLeader)).slot).2, .idle, txs⟩ := by
  obtain ⟨hleader, hbuild, hpropose, hvote, hseal, -⟩ := hmeet
  have hrun := Daemon.run_ledBuild hsnap hdrops hleader hbuild hleads
    (Option.some.inj (hcommits 0 (by omega)))
  have hpropose' := hrun.tail
    (.acted rfl hpropose (by simp) (Option.some.inj (hcommits 2 (by omega))))
  have hvote' := hpropose'.tail
    (.acted rfl hvote (by simp) (Option.some.inj (hcommits 3 (by omega))))
  have hseal' := hvote'.tail
    (.acted rfl hseal (by simp) (Option.some.inj (hcommits 4 (by omega))))
  exact ⟨_, hseal'⟩

end LedSlot

/-! A validator that is alone receives a transfer, and commits it in the first slot. -/

/-- The daemon of the only validator. -/
def mintDaemon : Daemon := Daemon.initial (openedChain mintGenesis) (referenceKey 1) true 1

/-- The daemon with the transfer in its pool. -/
def paidDaemon : Daemon :=
  { mintDaemon with pool := (mintDaemon.offer reference true 2000 payTx).2 }

/-- The daemon behind the seal, before it removes the transfer from its pool. -/
def sealedDaemon : Daemon :=
  ⟨paidDaemon.node.execAll reference (ledSlot paidDaemon.pool.candidates 2000),
    (acMempoolPruneExpired paidDaemon.pool
      (paidDaemon.node.exec reference (.own .checkLeader)).slot).2, .idle, [payTx]⟩

lemma run_paidDaemon : Run (Daemon.Step reference (Undisturbed reference)) mintDaemon
    [.offered payTx .accepted] paidDaemon := by
  have hfacts : acTxDecode ((acTxEncode acTxMaxBytes payTx).getD []) = some payTx ∧
      (mintDaemon.offer reference true 2000 payTx).1 = .accepted := by
    decide +kernel
  have hstep := Daemon.Step.offer (P := reference) (C := Undisturbed reference) mintDaemon true 2000
    _ payTx hfacts.1
  rw [hfacts.2] at hstep
  exact .single hstep

lemma run_sealedDaemon : ∃ es, Run (Daemon.Step reference (Undisturbed reference)) paidDaemon es
    sealedDaemon :=
  Daemon.run_ledSlot rfl rfl (by decide +kernel) (by decide +kernel) (by decide +kernel)

lemma reachable_mintGenesis : NodeReachable reference mintGenesis [] (openedChain mintGenesis) :=
  (reachable_genesis rfl (acChainOpen_openedChain (by decide +kernel))).node

/-- The transfer is in the chain and in the pool, and about to be removed. -/
theorem pool_apart_from_chain_paid : sealedDaemon.chain.height = 1 ∧
    sealedDaemon.pool.entries.map MpEntry.tx = [payTx] ∧ sealedDaemon.drops = [payTx] ∧
    ∃ new, Ledger reference mintGenesis new sealedDaemon.chain ∧
      ∀ e ∈ sealedDaemon.pool.entries, e.Admitted reference 1 ∧
        e.tx.nonce.toNat ≤ (nonceOf sealedDaemon.chain.state e.tx.sender).toNat ∧
        (e.tx ∈ includedTxs new → e.tx ∈ sealedDaemon.drops) := by
  obtain ⟨es, hrun⟩ := run_sealedDaemon
  have hheight : sealedDaemon.chain.height = 1 := by decide +kernel
  exact ⟨hheight, by decide +kernel, rfl, pool_apart_from_chain reference_mallocBounded
    reachable_mintGenesis (run_paidDaemon.trans hrun) (by rw [hheight]; decide)⟩

end AgentChain
