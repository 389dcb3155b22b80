import AgentChain.Lib.StableQueue
import AgentChain.Lib.Trace
import AgentChain.Reference

/-!
# The pool of transactions

A translation of `mempool.c`.  The pool is an array of entries sorted by tip, the highest one
first.  `ac_mempool_add` checks a transaction, replaces one of the same sender and nonce when the
new tip is higher, evicts the last entry when the pool is full and the new tip is higher, and
inserts the new entry in front of the first one with a lower tip.

A run of the pool is any sequence of its calls; its log has the hashes of the transactions that
were accepted.  Along every run the pool keeps its invariant (`Run.poolInv`), and an accepted
transaction changes the pool in exactly one of three ways (`Spared`).
-/

namespace AgentChain

open Trace

/-- `AC_MEMPOOL_CAPACITY` -/
def acMempoolCapacity : ℕ := 8192

/-- `mp_entry_t` -/
structure MpEntry where
  tx : Tx
  hash : Hash
  tip : UInt64
  addedSlot : UInt64
deriving DecidableEq

/-- `ac_mempool_s`; the array has room for `cap` entries. -/
structure Mempool where
  chainId : UInt64
  entries : List MpEntry
  cap : ℕ

/-- `ac_mp_result_t` -/
inductive MpResult where
  | accepted
  | duplicate
  | invalidSig
  | wrongChain
  | badKind
  | expired
  | gasBelowMin
  | fullDropLowTip
  | nonceGap
  | insufficientFunds
deriving DecidableEq, Repr

/-- `ac_mempool_new` -/
def acMempoolNew (chainId : UInt64) : Mempool := ⟨chainId, [], 0⟩

/-- `mp_find` -/
def mpFind (mp : Mempool) (h : Hash) : Option ℕ := mp.entries.findIdx? fun e => e.hash = h

/-- The capacity behind a call of `realloc` in `mp_insert`. -/
def mpGrown (cap : ℕ) : ℕ := min (if cap ≠ 0 then cap * 2 else 128) acMempoolCapacity

/-- `mp_insert`; `realloc` tells whether memory is granted. -/
def mpInsert (realloc : Bool) (mp : Mempool) (e : MpEntry) : Option Mempool :=
  if mp.cap < mp.entries.length + 1 then
    if realloc then
      some { mp with entries := insertBehind MpEntry.tip e mp.entries, cap := mpGrown mp.cap }
    else none
  else some { mp with entries := insertBehind MpEntry.tip e mp.entries }

/-- Whether an entry has the sender and the nonce of a transaction. -/
def MpEntry.sameNonce (tx : Tx) (e : MpEntry) : Bool :=
  decide (e.tx.nonce = tx.nonce ∧ e.tx.sender = tx.sender)

/-- The end of `ac_mempool_add`. -/
def mpFinish (realloc : Bool) (mp : Mempool) (e : MpEntry) : MpResult × Mempool :=
  match mpInsert realloc mp e with
  | some mp' => (.accepted, mp')
  | none => (.fullDropLowTip, mp)

/-- The capacity handling of `ac_mempool_add`. -/
def mpMakeRoom (realloc : Bool) (mp : Mempool) (e : MpEntry) : MpResult × Mempool :=
  if acMempoolCapacity ≤ mp.entries.length then
    match mp.entries.getLast? with
    | some last =>
        if e.tip ≤ last.tip then (.fullDropLowTip, mp)
        else mpFinish realloc { mp with entries := mp.entries.dropLast } e
    | none => (.fullDropLowTip, mp)  -- a full pool has a last entry
  else mpFinish realloc mp e

/-- The part of `ac_mempool_add` under the lock. -/
def mpPlace (realloc : Bool) (mp : Mempool) (e : MpEntry) : MpResult × Mempool :=
  if (mpFind mp e.hash).isSome then (.duplicate, mp)
  else
    match mp.entries.find? (MpEntry.sameNonce e.tx) with
    | some old =>
        if e.tx.tip ≤ old.tx.tip then (.duplicate, mp)
        else mpMakeRoom realloc
          { mp with entries := mp.entries.eraseP (MpEntry.sameNonce e.tx) } e
    | none => mpMakeRoom realloc mp e

section Calls

variable (P : Platform)

/-- The value that the funds check of `ac_mempool_add` reads from the body of a transfer. -/
def mpValue (tx : Tx) : UInt64 :=
  if TxKind.ofCode tx.kind = some .transfer ∧ 40 ≤ tx.body.length then acRd64 (tx.body.drop 32)
  else 0

/-- The checks of `ac_mempool_add` before it takes the lock: why the transaction is refused. -/
def mpRefusal (mp : Mempool) (s : AcState) (tx : Tx) (slot : UInt64) : Option MpResult :=
  if tx.chainId ≠ mp.chainId then some .wrongChain
  else if tx.version ≠ acTxVersion then some .badKind
  else if acTxIntrinsicGas tx.kind = none then some .badKind
  else if tx.validUntil ≤ slot then some .expired
  else if tx.gasLimit.toUInt64 < acTxTotalGas tx then some .gasBelowMin
  else if !acTxVerify P tx then some .invalidSig
  else
    let sender := (acStateGet s tx.sender).2
    if tx.nonce ≠ sender.nonce then some .nonceGap
    else
      let maxFee := tx.gasLimit.toUInt64 * (acMinBaseFee + tx.tip)
      if sender.balance < maxFee + mpValue tx then some .insufficientFunds
      else none

/-- The entry that `ac_mempool_add` makes. -/
def mpEntry (tx : Tx) (slot : UInt64) : MpEntry := ⟨tx, acTxHash P tx, tx.tip, slot⟩

/-- `ac_mempool_add` -/
def acMempoolAdd (realloc : Bool) (mp : Mempool) (s : AcState) (tx : Tx) (slot : UInt64) :
    MpResult × Mempool :=
  match mpRefusal P mp s tx slot with
  | some r => (r, mp)
  | none => mpPlace realloc mp (mpEntry P tx slot)

end Calls

/-- `ac_mempool_has` -/
def acMempoolHas (mp : Mempool) (h : Hash) : Bool := (mpFind mp h).isSome

/-- `ac_mempool_remove` -/
def acMempoolRemove (mp : Mempool) (h : Hash) : Mempool :=
  match mpFind mp h with
  | some i => { mp with entries := mp.entries.eraseIdx i }
  | none => mp

/-- `ac_mempool_prune_expired`: the number of entries that are dropped, and the pool. -/
def acMempoolPruneExpired (mp : Mempool) (slot : UInt64) : ℕ × Mempool :=
  ((mp.entries.filter fun e => e.tx.validUntil ≤ slot).length,
    { mp with entries := mp.entries.filter fun e => !decide (e.tx.validUntil ≤ slot) })

/-- `ac_mempool_snapshot` -/
def acMempoolSnapshot (mp : Mempool) (max : ℕ) : List Tx := (mp.entries.take max).map MpEntry.tx

/-! ### One transaction -/

/-- The entries that stay when a transaction comes in: all of them when there is room, all but
the one of the same sender and nonce, which has a lower tip, or all but the last one of a full
pool, which has a lower tip. -/
inductive Spared (l : List MpEntry) (e : MpEntry) : List MpEntry → Prop
  | room (hroom : l.length < acMempoolCapacity)
      (hnew : ∀ a ∈ l, a.sameNonce e.tx = false) : Spared l e l
  | replaced (front : List MpEntry) (old : MpEntry) (back : List MpEntry)
      (heq : l = front ++ old :: back) (hsame : old.sameNonce e.tx = true)
      (htip : old.tip < e.tip) : Spared l e (front ++ back)
  | evicted (init : List MpEntry) (last : MpEntry) (heq : l = init ++ [last])
      (hfull : l.length = acMempoolCapacity) (hnew : ∀ a ∈ l, a.sameNonce e.tx = false)
      (htip : last.tip < e.tip) : Spared l e init

/-- The sender and the nonce of an entry. -/
def MpEntry.senderNonce (e : MpEntry) : Addr × UInt64 := (e.tx.sender, e.tx.nonce)

/-- The invariant of the pool, for the hashes that were accepted so far. -/
structure PoolInv (P : Platform) (log : List Hash) (mp : Mempool) : Prop where
  length_le : mp.entries.length ≤ mp.cap
  cap_le : mp.cap ≤ acMempoolCapacity
  /-- Every entry has the hash and the tip of its transaction. -/
  made : ∀ e ∈ mp.entries, e.hash = acTxHash P e.tx ∧ e.tip = e.tx.tip
  /-- Tips go down, and entries of equal tips stand in the order of their arrival. -/
  sorted : StableSorted MpEntry.tip MpEntry.hash log mp.entries
  hash_nodup : (mp.entries.map MpEntry.hash).Nodup
  nonce_nodup : (mp.entries.map MpEntry.senderNonce).Nodup

section Place

variable {P : Platform} {log : List Hash} {mp : Mempool} {e : MpEntry} {l kept : List MpEntry}
  {realloc : Bool}

lemma MpEntry.sameNonce_iff {a : MpEntry} :
    a.sameNonce e.tx = true ↔ a.senderNonce = e.senderNonce := by
  rw [sameNonce, decide_eq_true_eq, senderNonce, senderNonce, Prod.mk.injEq, and_comm]

lemma Spared.sublist (h : Spared l e kept) : kept.Sublist l := by
  cases h with
  | room => exact List.Sublist.refl _
  | replaced front old back heq =>
    rw [heq]
    exact (List.sublist_cons_self old back).append_left front
  | evicted init last heq =>
    rw [heq]
    exact List.sublist_append_left _ _

/-- No entry that stays has the sender and the nonce of the transaction. -/
lemma Spared.senderNonce_notMem (h : Spared l e kept)
    (hnodup : (l.map MpEntry.senderNonce).Nodup) :
    e.senderNonce ∉ kept.map MpEntry.senderNonce := by
  have hnone : ∀ t : List MpEntry, (∀ a ∈ t, a.sameNonce e.tx = false) →
      e.senderNonce ∉ t.map MpEntry.senderNonce := by
    intro t ht hmem
    obtain ⟨a, ha, heq⟩ := List.mem_map.mp hmem
    exact absurd (MpEntry.sameNonce_iff.mpr heq) (by simp [ht a ha])
  cases h with
  | room hroom hnew => exact hnone _ hnew
  | replaced front old back heq hsame =>
    rw [heq, List.map_append, List.map_cons, List.nodup_middle, List.nodup_cons] at hnodup
    rw [← MpEntry.sameNonce_iff.mp hsame, List.map_append]
    exact hnodup.1
  | evicted init last heq hfull hnew =>
    exact hnone _ fun a ha => hnew a (heq ▸ List.mem_append_left _ ha)

lemma mpFind_isSome_iff {h : Hash} :
    (mpFind mp h).isSome = true ↔ h ∈ mp.entries.map MpEntry.hash := by
  rw [mpFind, List.findIdx?_isSome, List.any_eq_true, List.mem_map]
  simp

lemma lt_mpGrown {cap : ℕ} (h : cap < acMempoolCapacity) : cap < mpGrown cap := by
  rw [mpGrown, lt_min_iff]
  refine ⟨?_, h⟩
  split_ifs with hzero
  · omega
  · omega

/-- The array has room. -/
lemma mpFinish_room (h : mp.entries.length < mp.cap) : mpFinish realloc mp e =
    (.accepted, { mp with entries := insertBehind MpEntry.tip e mp.entries }) := by
  rw [mpFinish, mpInsert, if_neg (by omega)]

/-- The array grows when it is full, or memory is refused. -/
lemma mpFinish_cases (realloc : Bool) (e : MpEntry) (hle : mp.entries.length ≤ mp.cap)
    (hlt : mp.entries.length < acMempoolCapacity) (hcap : mp.cap ≤ acMempoolCapacity) :
    mpFinish realloc mp e = (.fullDropLowTip, mp) ∨
      ∃ cap, mp.entries.length < cap ∧ cap ≤ acMempoolCapacity ∧ mpFinish realloc mp e =
        (.accepted, { mp with entries := insertBehind MpEntry.tip e mp.entries, cap := cap }) := by
  by_cases hroom : mp.entries.length < mp.cap
  · exact Or.inr ⟨mp.cap, hroom, hcap, mpFinish_room hroom⟩
  · rw [mpFinish, mpInsert, if_pos (by omega)]
    cases realloc with
    | false => exact Or.inl rfl
    | true =>
      refine Or.inr ⟨mpGrown mp.cap, ?_, min_le_right _ _, rfl⟩
      have hgrown := lt_mpGrown (show mp.cap < acMempoolCapacity by omega)
      omega

/-- What the part under the lock does: it refuses and leaves the pool alone, or it accepts. -/
inductive Placed (mp : Mempool) (e : MpEntry) : MpResult × Mempool → Prop
  | refused (r : MpResult) (hr : r ≠ .accepted) : Placed mp e (r, mp)
  | accepted (kept : List MpEntry) (cap : ℕ) (hspared : Spared mp.entries e kept)
      (hfresh : e.hash ∉ mp.entries.map MpEntry.hash) (hlt : kept.length < cap)
      (hcap : cap ≤ acMempoolCapacity) :
      Placed mp e (.accepted, { mp with entries := insertBehind MpEntry.tip e kept, cap := cap })

/-- The capacity handling for a transaction that replaces nothing. -/
lemma mpMakeRoom_placed (hle : mp.entries.length ≤ mp.cap) (hcap : mp.cap ≤ acMempoolCapacity)
    (hfresh : e.hash ∉ mp.entries.map MpEntry.hash)
    (hnew : ∀ a ∈ mp.entries, a.sameNonce e.tx = false) :
    Placed mp e (mpMakeRoom realloc mp e) := by
  rw [mpMakeRoom]
  by_cases hfull : acMempoolCapacity ≤ mp.entries.length
  · rw [if_pos hfull]
    cases hlast : mp.entries.getLast? with
    | none => exact .refused _ (by decide)
    | some last =>
      dsimp only
      split_ifs with htip
      · exact .refused _ (by decide)
      · have heq : mp.entries = mp.entries.dropLast ++ [last] :=
          (List.dropLast_append_getLast? last hlast).symm
        have hlen : mp.entries.dropLast.length + 1 = mp.entries.length := by
          rw [heq, List.dropLast_concat, List.length_append, List.length_singleton]
        have hroom : mp.entries.dropLast.length < mp.cap := by omega
        rw [show mpFinish realloc { mp with entries := mp.entries.dropLast } e = _ from
          mpFinish_room hroom]
        exact .accepted _ mp.cap
          (.evicted _ last heq (by omega) hnew (UInt64.not_le.mp htip)) hfresh (by omega) hcap
  · rw [if_neg hfull]
    rcases mpFinish_cases realloc e hle (by omega) hcap with hnone | ⟨cap, hlt, hcap', hsome⟩
    · rw [hnone]
      exact .refused _ (by decide)
    · rw [hsome]
      exact .accepted _ cap (.room (by omega) hnew) hfresh hlt hcap'

/-- **One transaction.**  Nothing is lost when a transaction is refused: behind a replacement
there is always room. -/
theorem PoolInv.placed (hinv : PoolInv P log mp) (he : e.tip = e.tx.tip) (realloc : Bool) :
    Placed mp e (mpPlace realloc mp e) := by
  have hle := hinv.length_le
  have hcap := hinv.cap_le
  rw [mpPlace]
  split_ifs with hknown
  · exact .refused _ (by decide)
  have hfresh := fun hmem => hknown (mpFind_isSome_iff.mpr hmem)
  cases hfind : mp.entries.find? (MpEntry.sameNonce e.tx) with
  | none =>
    have hnew : ∀ a ∈ mp.entries, a.sameNonce e.tx = false := by
      simpa using List.find?_eq_none.mp hfind
    exact mpMakeRoom_placed hle hcap hfresh hnew
  | some old =>
    dsimp only
    split_ifs with htip
    · exact .refused _ (by decide)
    · obtain ⟨hsame, front, back, heq, hfront⟩ := List.find?_eq_some_iff_append.mp hfind
      have hkept : mp.entries.eraseP (MpEntry.sameNonce e.tx) = front ++ back := by
        rw [heq, List.eraseP_append_right _ (by simpa using hfront), List.eraseP_cons_of_pos hsame]
      have hlen : (front ++ back).length + 1 = mp.entries.length := by
        rw [heq, List.length_append, List.length_append, List.length_cons]
        omega
      have hlower : old.tip < e.tip := by
        rw [(hinv.made old (by rw [heq]; simp)).2, he]
        exact UInt64.not_le.mp htip
      have hroom : (front ++ back).length < mp.cap := by omega
      rw [hkept, mpMakeRoom, if_neg (by dsimp only; omega),
        show mpFinish realloc { mp with entries := front ++ back } e = _ from mpFinish_room hroom]
      exact .accepted _ mp.cap (.replaced front old back heq hsame hlower) hfresh (by omega) hcap

end Place

/-! ### Runs -/

/-- A call on the pool, with the hash of the transaction when one is accepted. -/
inductive PoolStep (P : Platform) : Mempool → List Hash → Mempool → Prop
  | add (realloc : Bool) (mp : Mempool) (s : AcState) (tx : Tx) (slot : UInt64) :
      PoolStep P mp
        (if (acMempoolAdd P realloc mp s tx slot).1 = .accepted then [acTxHash P tx] else [])
        (acMempoolAdd P realloc mp s tx slot).2
  | remove (mp : Mempool) (h : Hash) : PoolStep P mp [] (acMempoolRemove mp h)
  | prune (mp : Mempool) (slot : UInt64) : PoolStep P mp [] (acMempoolPruneExpired mp slot).2

section Runs

variable {P : Platform} {log : List Hash} {mp mp' : Mempool} {tx : Tx} {slot chainId : UInt64}

/-- Dropping entries keeps the invariant. -/
lemma PoolInv.drop (h : PoolInv P log mp) {kept : List MpEntry} (hsub : kept.Sublist mp.entries) :
    PoolInv P log { mp with entries := kept } where
  length_le := hsub.length_le.trans h.length_le
  cap_le := h.cap_le
  made := fun e he => h.made e (hsub.subset he)
  sorted := h.sorted.sublist hsub
  hash_nodup := h.hash_nodup.sublist (hsub.map _)
  nonce_nodup := h.nonce_nodup.sublist (hsub.map _)

/-- An accepted transaction keeps the invariant. -/
lemma PoolInv.insert (h : PoolInv P log mp) {e : MpEntry} {kept : List MpEntry} {cap : ℕ}
    (he : e.hash = acTxHash P e.tx ∧ e.tip = e.tx.tip) (hspared : Spared mp.entries e kept)
    (hfresh : e.hash ∉ mp.entries.map MpEntry.hash) (hlt : kept.length < cap)
    (hcap : cap ≤ acMempoolCapacity) :
    PoolInv P (log ++ [e.hash]) { mp with
      entries := insertBehind MpEntry.tip e kept
      cap := cap } := by
  have hkept := h.drop hspared.sublist
  have hnew : e.hash ∉ kept.map MpEntry.hash := fun hmem =>
    hfresh ((hspared.sublist.map _).subset hmem)
  have hperm := insertBehind_perm MpEntry.tip e kept
  refine ⟨?_, hcap, fun a ha => ?_, hkept.sorted.insert hnew, ?_, ?_⟩
  · rw [hperm.length_eq]
    exact hlt
  · rcases List.mem_cons.mp (hperm.mem_iff.mp ha) with rfl | ha
    · exact he
    · exact hkept.made a ha
  · exact ((hperm.map _).nodup_iff).mpr (List.nodup_cons.mpr ⟨hnew, hkept.hash_nodup⟩)
  · exact ((hperm.map _).nodup_iff).mpr (List.nodup_cons.mpr
      ⟨hspared.senderNonce_notMem h.nonce_nodup, hkept.nonce_nodup⟩)

lemma mpRefusal_ne_accepted {s : AcState} {r : MpResult} (h : mpRefusal P mp s tx slot = some r) :
    r ≠ .accepted := by
  rw [mpRefusal] at h
  dsimp only at h
  split_ifs at h <;> exact Option.some.inj h ▸ by decide

/-- A call of `ac_mempool_add` that does not fail its checks works on the entry. -/
lemma PoolInv.added (h : PoolInv P log mp) (realloc : Bool) (s : AcState) (tx : Tx)
    (slot : UInt64) :
    Placed mp (mpEntry P tx slot) (acMempoolAdd P realloc mp s tx slot) := by
  rw [acMempoolAdd]
  cases hrefusal : mpRefusal P mp s tx slot with
  | some r => exact .refused r (mpRefusal_ne_accepted hrefusal)
  | none => exact h.placed rfl realloc

/-- **A call keeps the invariant.** -/
theorem PoolInv.step {new : List Hash} (h : PoolInv P log mp) (hs : PoolStep P mp new mp') :
    PoolInv P (log ++ new) mp' := by
  cases hs with
  | add realloc mp s tx slot =>
    have hplaced := h.added realloc s tx slot
    generalize acMempoolAdd P realloc mp s tx slot = r at hplaced
    cases hplaced with
    | refused r hr =>
      rw [if_neg hr, List.append_nil]
      exact h
    | accepted kept cap hspared hfresh hlt hcap =>
      rw [if_pos rfl]
      exact h.insert (e := mpEntry P tx slot) ⟨rfl, rfl⟩ hspared hfresh hlt hcap
  | remove mp hash =>
    rw [List.append_nil, acMempoolRemove]
    cases mpFind mp hash with
    | none => exact h
    | some i => exact h.drop (List.eraseIdx_sublist _ _)
  | prune mp slot =>
    rw [List.append_nil]
    exact h.drop List.filter_sublist

lemma poolInv_new (P : Platform) (chainId : UInt64) : PoolInv P [] (acMempoolNew chainId) :=
  ⟨le_rfl, Nat.zero_le _, fun _ he => (by cases he), .nil, .nil, .nil⟩

/-- **The pool along every run.** -/
theorem Run.poolInv (h : Run (PoolStep P) (acMempoolNew chainId) log mp) : PoolInv P log mp :=
  h.invariant (poolInv_new P chainId) fun _ _ _ _ hinv hs => hinv.step hs

/-- **The mempool.**  Behind every sequence of calls on a new pool, whether or not memory is
granted: the entries fit into the array and the array is within the capacity, tips go down with
equal tips in the order of arrival, and no hash and no pair of sender and nonce is there twice.
A transaction that is not accepted leaves the entries as they are.  One that is accepted is put
behind all entries with at least its tip and in front of the others, after at most one entry was
dropped. -/
theorem mempool_representation (h : Run (PoolStep P) (acMempoolNew chainId) log mp) :
    PoolInv P log mp ∧ ∀ (realloc : Bool) (s : AcState) (tx : Tx) (slot : UInt64),
      ((acMempoolAdd P realloc mp s tx slot).1 ≠ .accepted →
        (acMempoolAdd P realloc mp s tx slot).2.entries = mp.entries) ∧
      ((acMempoolAdd P realloc mp s tx slot).1 = .accepted →
        ∃ front back, Spared mp.entries (mpEntry P tx slot) (front ++ back) ∧
          (acMempoolAdd P realloc mp s tx slot).2.entries = front ++ mpEntry P tx slot :: back ∧
          (∀ a ∈ front, tx.tip ≤ a.tip) ∧ ∀ a ∈ back, a.tip < tx.tip) := by
  have hinv := Run.poolInv h
  refine ⟨hinv, fun realloc s tx slot => ?_⟩
  have hplaced := hinv.added realloc s tx slot
  generalize acMempoolAdd P realloc mp s tx slot = r at hplaced
  cases hplaced with
  | refused r hr => exact ⟨fun _ => rfl, fun hacc => absurd hacc hr⟩
  | accepted kept cap hspared =>
    refine ⟨fun hne => absurd rfl hne, fun _ => ?_⟩
    obtain ⟨front, back, rfl, heq, hfront, hback⟩ := insertBehind_split (mpEntry P tx slot)
      (hinv.drop hspared.sublist).sorted.sorted
    exact ⟨front, back, hspared, heq, hfront, hback⟩

end Runs

/-- A first transfer of the second validator with the given tip. -/
def pooledTx (tip : UInt64) : Tx :=
  signTx reference ⟨acTxVersion, 1, 0x01, (referenceKey 2).pk, 0, 1000, tip, 1000000,
    (referenceKey 1).pk.bytes ++ acBe64 5, [], ByteArr.fill 64 0, by decide +kernel, nil_memo_le⟩
    (referenceKey 2)

/-- The pool with such a transaction. -/
def smallPool : Mempool :=
  (acMempoolAdd reference true (acMempoolNew 1) (genesisState referenceGenesis) (pooledTx 3) 1).2

/-- A higher tip replaces the entry. -/
theorem mempool_representation_raised :
    Run (PoolStep reference) (acMempoolNew 1) [acTxHash reference (pooledTx 3)] smallPool ∧
      PoolInv reference [acTxHash reference (pooledTx 3)] smallPool ∧
      ∃ front back, Spared smallPool.entries (mpEntry reference (pooledTx 4) 1) (front ++ back) ∧
        (acMempoolAdd reference true smallPool (genesisState referenceGenesis) (pooledTx 4)
          1).2.entries = front ++ mpEntry reference (pooledTx 4) 1 :: back := by
  have hfacts : (acMempoolAdd reference true (acMempoolNew 1) (genesisState referenceGenesis)
        (pooledTx 3) 1).1 = .accepted ∧
      (acMempoolAdd reference true smallPool (genesisState referenceGenesis) (pooledTx 4) 1).1 =
        .accepted := by
    decide +kernel
  have hstep := PoolStep.add (P := reference) true (acMempoolNew 1) (genesisState referenceGenesis)
    (pooledTx 3) 1
  rw [if_pos hfacts.1] at hstep
  have hrun : Run (PoolStep reference) (acMempoolNew 1) [acTxHash reference (pooledTx 3)]
      smallPool := .single hstep
  obtain ⟨hinv, hadd⟩ := mempool_representation hrun
  obtain ⟨front, back, hspared, heq, -, -⟩ :=
    (hadd true (genesisState referenceGenesis) (pooledTx 4) 1).2 hfacts.2
  exact ⟨hrun, hinv, front, back, hspared, heq⟩

/-! ### Removal -/

/-- **Removal.**  One removal is enough, since no hash is there twice. -/
theorem PoolInv.has_remove {P : Platform} {log : List Hash} {mp : Mempool} (h : PoolInv P log mp)
    (hash : Hash) : acMempoolHas (acMempoolRemove mp hash) hash = false := by
  rw [acMempoolHas, Bool.eq_false_iff, ne_eq, mpFind_isSome_iff, acMempoolRemove]
  cases hfind : mpFind mp hash with
  | none =>
    rw [← mpFind_isSome_iff, hfind]
    simp
  | some i =>
    obtain ⟨hi, heq, -⟩ := List.findIdx?_eq_some_iff_getElem.mp hfind
    have hlt : i < (mp.entries.map MpEntry.hash).length := by simpa using hi
    have hget : (mp.entries.map MpEntry.hash)[i] = hash := by simpa using heq
    rw [← List.eraseIdx_map, ← h.hash_nodup.erase_getElem i hlt, hget]
    exact h.hash_nodup.not_mem_erase

/-! ### Candidates for a block -/

/-- The candidates that `slot_routine` takes from the pool. -/
def Mempool.candidates (mp : Mempool) : Candidates :=
  ⟨acMempoolSnapshot mp 256, by
    rw [acMempoolSnapshot, List.length_map]
    exact List.length_take_le _ _⟩

end AgentChain
