import AgentChain.BulkBlock
import AgentChain.Indexes
import AgentChain.Lib.SortedRun

/-!
# The history of an address

`ac_chain_addr_txs` is to return the last transactions of an address, newest first.  It finds the
first entry of the address in the sorted index, copies the entries of the address from there into
a buffer of 256, and returns the buffer backwards, up to the capacity of the caller.

The index has one entry for an address and a transaction, so the entries of an address are in
strictly ascending order of height and index.  The buffer is filled with the oldest of them.  So
the answer is right exactly for the addresses with at most 256 entries.
-/

namespace AgentChain

open Trace SortedRun

/-! ### The order of the index -/

/-- `addr_index_cmp` compares address, height and index, one after the other. -/
lemma addrIndexCmp_eq (a b : AddrIndexEntry) : addrIndexCmp a b =
    compareLex (compareOn fun e : AddrIndexEntry => e.addr.bytes)
      (compareLex (compareOn fun e : AddrIndexEntry => e.height.toNat)
        (compareOn fun e : AddrIndexEntry => e.txIdx.toNat)) a b := by
  have hheight : compareOn (fun e : AddrIndexEntry => e.height.toNat) a b =
      if a.height < b.height then .lt else if b.height < a.height then .gt else .eq := by
    simp only [compareOn, Nat.compare_eq_ite_lt, UInt64.lt_iff_toNat_lt]
  have hidx : compareOn (fun e : AddrIndexEntry => e.txIdx.toNat) a b =
      if a.txIdx < b.txIdx then .lt else if b.txIdx < a.txIdx then .gt else .eq := by
    simp only [compareOn, Nat.compare_eq_ite_lt, UInt32.lt_iff_toNat_lt]
  have haddr : compareOn (fun e : AddrIndexEntry => e.addr.bytes) a b =
      memcmp a.addr.bytes b.addr.bytes := rfl
  rw [addrIndexCmp, compareLex, compareLex, hheight, hidx, haddr]
  cases memcmp a.addr.bytes b.addr.bytes with
  | lt => rfl
  | gt => rfl
  | eq => split_ifs <;> rfl

instance : Std.TransCmp addrIndexCmp := by
  rw [show addrIndexCmp = _ from funext₂ addrIndexCmp_eq]
  infer_instance

/-- Height and index of an entry come before those of another. -/
def AddrTxEntry.Before (a b : AddrTxEntry) : Prop :=
  a.height < b.height ∨ a.height = b.height ∧ a.txIdx < b.txIdx

lemma AddrTxEntry.Before.asymm {a b : AddrTxEntry} (h : a.Before b) : ¬ b.Before a := by
  simp only [Before, UInt64.lt_iff_toNat_lt, UInt32.lt_iff_toNat_lt, ← UInt64.toNat_inj] at h ⊢
  omega

/-- An entry of the index as it is returned. -/
def AddrIndexEntry.returned (e : AddrIndexEntry) : AddrTxEntry := ⟨e.height, e.txIdx, e.role⟩

/-- The entries of an address in the index. -/
def addrEntries (c : Chain) (addr : Addr) : List AddrTxEntry :=
  (c.addrIndex.filter fun e => e.addr = addr).map AddrIndexEntry.returned

/-- Two entries of one address in ascending order. -/
lemma before_of_cmp {a b : AddrIndexEntry} (h : addrIndexCmp a b ≠ .gt) (haddr : a.addr = b.addr)
    (hne : ¬ (a.height = b.height ∧ a.txIdx = b.txIdx)) : a.returned.Before b.returned := by
  have heq : memcmp a.addr.bytes b.addr.bytes = .eq := by
    rw [haddr]
    exact Std.ReflCmp.compare_self
  rw [addrIndexCmp, heq] at h
  simp only [AddrIndexEntry.returned, AddrTxEntry.Before]
  split_ifs at h with hlt hgt hilt higt
  · exact .inl hlt
  · exact absurd rfl h
  · have hheight : a.height = b.height :=
      UInt64.le_antisymm (UInt64.not_lt.mp hgt) (UInt64.not_lt.mp hlt)
    exact .inr ⟨hheight, hilt⟩
  · exact absurd rfl h
  · refine absurd ⟨?_, ?_⟩ hne
    · exact UInt64.le_antisymm (UInt64.not_lt.mp hgt) (UInt64.not_lt.mp hlt)
    · exact UInt32.le_antisymm (UInt32.not_lt.mp higt) (UInt32.not_lt.mp hilt)

/-! ### The flag of the index -/

/-- An address index that is flagged as sorted is in ascending order. -/
def AddrSorted (c : Chain) : Prop :=
  c.addrIndexSorted = true → c.addrIndex.Pairwise fun a b => addrIndexCmp a b ≠ .gt

section Sorted

variable {P : Platform} {g : Genesis} {c d : Chain} {b : Block}

lemma AddrSorted.congr (h : AddrSorted c) (hindex : d.addrIndex = c.addrIndex)
    (hflag : d.addrIndexSorted = c.addrIndexSorted) : AddrSorted d := by
  intro hs
  rw [hindex]
  exact h (hflag ▸ hs)

/-- After sorting the index is in ascending order. -/
lemma AddrSorted.pairwise_sort (h : AddrSorted c) :
    (addrIndexSort c).addrIndex.Pairwise fun a b => addrIndexCmp a b ≠ .gt := by
  rw [addrIndexSort]
  split_ifs with hs
  · exact h hs
  · exact SortedArray.pairwise_sort id c.addrIndex

lemma AddrSorted.addrIndexSort (h : AddrSorted c) : AddrSorted (addrIndexSort c) :=
  fun _ => h.pairwise_sort

lemma txIndexSort_addr (c : Chain) : (txIndexSort c).addrIndex = c.addrIndex ∧
    (txIndexSort c).addrIndexSorted = c.addrIndexSorted := by
  rw [txIndexSort]
  split_ifs <;> exact ⟨rfl, rfl⟩

/-- A block that leaves the flag set has no transactions. -/
lemma AddrSorted.recordAll (h : AddrSorted c) (height : UInt64) (txs : List Tx) :
    AddrSorted (addrIndexRecordAll c height txs) := by
  intro hs
  rw [addrIndexRecordAll, Bool.and_eq_true, List.isEmpty_iff] at hs
  rw [addrIndexRecordAll, hs.2, List.mapIdx_nil, List.flatten_nil, List.append_nil]
  exact h hs.1

lemma addrSorted_rebuildTo (c : Chain) (n : ℕ) : AddrSorted (rebuildTo P c.core n) := by
  induction n with
  | zero =>
    intro hs
    cases hs
  | succ n ih =>
    rw [rebuildTo, rebuildBlock]
    cases blockRead (rebuildTo P c.core n).dir (UInt64.ofNat (n + 1)) with
    | none => exact ih
    | some b =>
      have hrecord := ih.recordAll (UInt64.ofNat (n + 1)) b.txs
      dsimp only
      split_ifs
      · exact hrecord.congr rfl rfl
      · exact hrecord.congr rfl rfl

/-- Opening a directory. -/
lemma addrSorted_txIndexRebuild (c : Chain) : AddrSorted (txIndexRebuild P c.core) := by
  rw [txIndexRebuild]
  split_ifs
  · intro hs
    cases hs
  · obtain ⟨hindex, hflag⟩ := txIndexSort_addr (rebuildTo P c.core c.core.height.toNat)
    exact ((addrSorted_rebuildTo c _).congr hindex hflag).addrIndexSort

/-- **One step**, of the node or of a query. -/
lemma IndexStep.addrSorted (hP : P.MallocBounded) {bs : List Block} {new : List NodeEvent}
    (hs : IndexStep P c new d) (hinv : IndexInv P g bs c) (h : AddrSorted c) : AddrSorted d := by
  have hseeded : ∀ {d : Chain}, c.Reseeded P d → AddrSorted d := by
    intro d hseed
    rw [hseed.same.eq_withCached]
    exact h.congr rfl rfl
  cases hs with
  | moved hs =>
    cases hs with
    | ran hs =>
      cases hs with
      | accepted now w c b hok =>
        obtain ⟨-, -, -, -, buf, -, hres⟩ := acChainAcceptBlock_ok hP hok
        rw [hres]
        exact (h.recordAll b.header.height b.txs).congr rfl rfl
      | turnedAway now w c b hrc hw => exact hseeded (acChainAcceptBlock_turnedAway hP hrc hw)
      | seeded c epoch => exact hseeded (acChainEpochSeed_reseeded c epoch)
    | reopened w g' hopen =>
      obtain rfl : txIndexRebuild P c.core = d :=
        Option.some.inj ((hinv.ledger.acChainOpen_eq hP w g').symm.trans hopen)
      exact addrSorted_txIndexRebuild c
  | txFind txHash =>
    rw [acChainTxFind]
    split_ifs
    · exact h
    · exact h.congr (txIndexSort_addr c).1 (txIndexSort_addr c).2
  | addrTxs addr cap =>
    rw [acChainAddrTxs]
    split_ifs
    · exact h
    · exact h.addrIndexSort

/-- **Every run** with queries. -/
theorem IndexReachable.addrSorted (hP : P.MallocBounded) {es : List NodeEvent}
    (h : IndexReachable P g es c) : AddrSorted c := by
  obtain ⟨w, dir, c₀, hdir, hopen, hrun⟩ := h
  have hboth : IndexInv P g (blocksOf es) c ∧ AddrSorted c := by
    refine hrun.invariant (I := fun es c => IndexInv P g (blocksOf es) c ∧ AddrSorted c) ?_ ?_
    · obtain ⟨buf, hbuf, rfl⟩ := acChainOpen_genesis hdir hopen
      refine ⟨indexInv_genesis hbuf, fun hs => ?_⟩
      cases hs
    · rintro es c new d ⟨hinv, hsorted⟩ hs
      rw [blocksOf_append]
      exact ⟨hs.inv hP hinv, hs.addrSorted hP hinv hsorted⟩
  exact hboth.2

end Sorted

/-! ### The answer -/

section Answer

variable {P : Platform} {g : Genesis} {c : Chain} {bs : List Block}

lemma addrLowerBound_eq (xs : List AddrIndexEntry) (addr : Addr) (fuel lo hi : ℕ) :
    addrLowerBound xs addr fuel lo hi =
      lowerBound xs (fun e => memcmp e.addr.bytes addr.bytes = .lt) fuel lo hi := by
  induction fuel generalizing lo hi with
  | zero => rfl
  | succ fuel ih =>
    rw [addrLowerBound, lowerBound]
    simp only [ih]

/-- The entries that are copied are the first ones of the address. -/
lemma acChainAddrTxs_fst (hsorted : AddrSorted c) (addr : Addr) {cap : ℕ} (hcap : 0 < cap) :
    (acChainAddrTxs c addr cap).1 =
      ((addrEntries (addrIndexSort c) addr).take 256).reverse.take cap := by
  have hpairs := hsorted.pairwise_sort
  rw [acChainAddrTxs]
  by_cases hnil : c.addrIndex = []
  · have hempty : (addrIndexSort c).addrIndex = [] := by
      rw [addrIndexSort]
      split_ifs
      · exact hnil
      · rw [hnil]
        rfl
    rw [if_pos (.inl hnil), addrEntries, hempty]
    simp
  rw [if_neg (by simp [hnil, hcap.ne'])]
  -- the order of the whole entries is one of the addresses in the first place
  have hbyAddr : (addrIndexSort c).addrIndex.Pairwise fun a b =>
      memcmp a.addr.bytes b.addr.bytes ≠ .gt := by
    refine hpairs.imp fun {a b} hab hgt => hab ?_
    rw [addrIndexCmp, hgt]
  obtain ⟨l, m, r, hsplit, hrun⟩ := run_of_pairwise hbyAddr addr.bytes
  have hentries : addrEntries (addrIndexSort c) addr = m.map AddrIndexEntry.returned := by
    have hfilter := hrun.filter_eq
    rw [← hsplit] at hfilter
    rw [addrEntries, ← hfilter]
    congr 2
    funext e
    rw [decide_eq_decide]
    exact ⟨fun h => h ▸ Std.ReflCmp.compare_self,
      fun h => ByteArr.ext (Std.LawfulEqCmp.eq_of_compare h)⟩
  have hlow := hrun.lowerBound_eq
  dsimp only
  rw [addrLowerBound_eq, hentries, hsplit, hlow, List.drop_left, hrun.takeWhile_eq, List.map_take]
  rfl

/-- There is one transaction at a place. -/
lemma TxAt.unique (h : Consecutive bs) {height : UInt64} {i : UInt32} {tx tx' : Tx}
    (htx : TxAt bs height i tx) (htx' : TxAt bs height i tx') : tx = tx' := by
  obtain ⟨b, hb, hheight, hget⟩ := htx
  obtain ⟨b', hb', hheight', hget'⟩ := htx'
  obtain ⟨j, hj, rfl⟩ := List.getElem_of_mem hb
  obtain ⟨j', hj', rfl⟩ := List.getElem_of_mem hb'
  have heq := congrArg UInt64.toNat (hheight.trans hheight'.symm)
  rw [h j _ (List.getElem?_eq_getElem hj), h j' _ (List.getElem?_eq_getElem hj')] at heq
  obtain rfl : j = j' := Nat.succ.inj heq
  exact Option.some.inj (hget.symm.trans hget')

/-- An address has one role in a transaction. -/
lemma Involves.role_eq {tx : Tx} {addr : Addr} {role role' : UInt8} (h : Involves tx addr role)
    (h' : Involves tx addr role') : role = role' := by
  rcases h with ⟨rfl, hs⟩ | ⟨rfl, -, hs, -⟩
  · rcases h' with ⟨rfl, -⟩ | ⟨-, -, hs', -⟩
    · rfl
    · exact absurd hs hs'
  · rcases h' with ⟨-, hs'⟩ | ⟨rfl, -⟩
    · exact absurd hs' hs
    · rfl

/-- In a sorted index the entries of an address are in strictly ascending order. -/
lemma IndexInv.pairwise_before (h : IndexInv P g bs c)
    (hsorted : c.addrIndex.Pairwise fun a b => addrIndexCmp a b ≠ .gt) (addr : Addr) :
    (addrEntries c addr).Pairwise AddrTxEntry.Before := by
  have hnodup : c.addrIndex.Nodup :=
    h.indexed.addr_perm.nodup_iff.mpr (nodup_addrEntries h.ledger.consecutive h.bodies)
  have hplace : ∀ e ∈ c.addrIndex, ∃ tx, TxAt bs e.height e.txIdx tx ∧ Involves tx e.addr e.role :=
    fun e he => (mem_addrEntries h.bodies).mp (h.indexed.addr_perm.mem_iff.mp he)
  rw [addrEntries, List.pairwise_map]
  refine ((hsorted.and hnodup).filter _).imp_of_mem fun {a b} ha hb hab => ?_
  obtain ⟨ha, haddr⟩ := List.mem_filter.mp ha
  obtain ⟨hb, haddr'⟩ := List.mem_filter.mp hb
  rw [decide_eq_true_eq] at haddr haddr'
  refine before_of_cmp hab.1 (haddr.trans haddr'.symm) ?_
  rintro ⟨hheight, hidx⟩
  obtain ⟨tx, hat, hrole⟩ := hplace a ha
  obtain ⟨tx', hat', hrole'⟩ := hplace b hb
  rw [← hheight, ← hidx] at hat'
  obtain rfl := hat.unique h.ledger.consecutive hat'
  rw [haddr'] at hrole'
  rw [haddr] at hrole
  refine hab.2 ?_
  cases a
  cases b
  exact AddrIndexEntry.mk.injEq .. ▸ ⟨haddr.trans haddr'.symm, hheight, hidx, hrole.role_eq hrole'⟩

/-- Sorting does not change which entries there are. -/
lemma addrEntries_sort_perm (c : Chain) (addr : Addr) :
    (addrEntries (addrIndexSort c) addr).Perm (addrEntries c addr) := by
  rw [addrEntries, addrEntries, addrIndexSort]
  split_ifs
  · rfl
  · exact ((List.perm_insertionSort _ _).filter _).map _

/-- **The history of an address** is the list of its newest transactions, newest first, exactly
when the index has at most 256 entries for the address.  With more entries the newest are
missing, whatever the capacity. -/
theorem address_history_iff (hP : P.MallocBounded) {es : List NodeEvent}
    (h : IndexReachable P g es c) (addr : Addr) {cap : ℕ} (hcap : 0 < cap) :
    Newest AddrTxEntry.Before (addrEntries c addr) cap (acChainAddrTxs c addr cap).1 ↔
      (addrEntries c addr).length ≤ 256 := by
  have hsorted := h.addrSorted hP
  have hperm := addrEntries_sort_perm c addr
  have hpairs := (h.inv hP).addrIndexSort.pairwise_before hsorted.pairwise_sort addr
  rw [acChainAddrTxs_fst hsorted addr hcap, ← newest_perm hperm, ← hperm.length_eq]
  exact newest_take_reverse_iff (fun _ _ => AddrTxEntry.Before.asymm) hpairs (by decide) hcap

/-- The transfer once more, with the next nonce. -/
def payAgainTx : Tx := signTx reference { payTx with nonce := 1 } (referenceKey 2)

/-- The first block on the genesis, with both transfers. -/
def payTwiceBlock : Block := firstBlock mintGenesis ⟨[payTx, payAgainTx], by decide⟩

/-- The sender of two transfers has both in the history. -/
theorem address_history_pay : ∃ c,
    IndexReachable reference mintGenesis [.accepted payTwiceBlock] c ∧
    (addrEntries c payTx.sender).length = 2 ∧
    Newest AddrTxEntry.Before (addrEntries c payTx.sender) 10
      (acChainAddrTxs c payTx.sender 10).1 := by
  have hrun : (acChainAcceptBlock reference 100000 .all (openedChain mintGenesis)
        payTwiceBlock).1 = .ok ∧
      (addrEntries (acChainAcceptBlock reference 100000 .all (openedChain mintGenesis)
        payTwiceBlock).2 payTx.sender).length = 2 := by
    decide +kernel
  obtain ⟨hok, hlen⟩ := hrun
  have hopen := acChainOpen_openedChain (g := mintGenesis) (by decide +kernel)
  have hreach : IndexReachable reference mintGenesis [.accepted payTwiceBlock] _ :=
    ⟨_, _, _, rfl, hopen,
      .single (.moved (.ran (ChainStep.accepted (P := reference) 100000 .all _ payTwiceBlock hok)))⟩
  refine ⟨_, hreach, hlen,
    (address_history_iff reference_mallocBounded hreach _ (by decide)).mpr ?_⟩
  rw [hlen]
  decide

end Answer

/-! ### A long history -/

section Bulk

variable {n : ℕ} {c : Chain}

/-- Every transaction of the block is one of the validator and of nobody else. -/
lemma addrEntriesOf_bulkSealed (h : n ≤ 4096) : addrEntriesOf (bulkSealed n h) =
    (List.range n).map fun i => ⟨bulkKey.pk, 1, UInt32.ofNat i, 0⟩ := by
  have hheight : (bulkSealed n h).header.height = 1 := bulkHeader_height n
  have hone : ∀ k i, addrIndexEntries (bulkTx k) 1 i = [⟨bulkKey.pk, 1, i, 0⟩] := by
    intro k i
    obtain ⟨hkind, -, -, -, hsender⟩ := bulkTx_fields k
    have hbond : ¬ TxKind.ofCode (bulkTx k).kind = some .transfer := by
      rw [hkind]
      decide
    rw [addrIndexEntries, hsender]
    exact congrArg _ (if_neg fun hpay => hbond hpay.1)
  rw [addrEntriesOf, hheight, List.map_eq_flatMap, List.flatMap]
  congr 1
  refine List.ext_getElem ?_ fun i hi hi' => ?_
  · rw [List.length_mapIdx, List.length_map, List.length_range]
    exact length_bulkTxs n
  · rw [List.getElem_mapIdx, List.getElem_map, List.getElem_range]
    exact (congrArg (fun tx => addrIndexEntries tx 1 (UInt32.ofNat i))
      (List.getElem_map ..)).trans (hone _ _)

/-- The entries of the validator once the block is accepted. -/
lemma addrEntries_bulk (h : n ≤ 4096)
    (hc : IndexReachable reference bulkGenesis [.accepted (bulkSealed n h)] c) :
    addrEntries (addrIndexSort c) bulkKey.pk =
      (List.range n).map fun i => ⟨1, UInt32.ofNat i, 0⟩ := by
  have hinv := (hc.inv reference_mallocBounded).addrIndexSort
  have hpairs := hinv.pairwise_before
    (hc.addrSorted reference_mallocBounded).pairwise_sort bulkKey.pk
  have hperm := hinv.indexed.addr_perm
  rw [show blocksOf [.accepted (bulkSealed n h)] = [bulkSealed n h] from rfl,
    List.flatMap_singleton,
    addrEntriesOf_bulkSealed] at hperm
  have hown : ((List.range n).map fun i =>
      (⟨bulkKey.pk, 1, UInt32.ofNat i, 0⟩ : AddrIndexEntry)).filter
      (fun e => e.addr = bulkKey.pk) = _ := List.filter_eq_self.mpr (by simp)
  have hall := (hperm.filter fun e => e.addr = bulkKey.pk).map AddrIndexEntry.returned
  rw [hown, List.map_map] at hall
  refine List.Perm.eq_of_pairwise (fun a b _ _ hab hba => absurd hba hab.asymm) hpairs ?_ hall
  rw [List.pairwise_map]
  refine List.pairwise_lt_range.imp_of_mem fun {i j} hi hj hij => .inr ⟨rfl, ?_⟩
  have hmax : (4096 : ℕ) < 2 ^ 32 := by decide
  show UInt32.ofNat i < UInt32.ofNat j
  rw [List.mem_range] at hi hj
  rw [UInt32.lt_iff_toNat_lt, UInt32.toNat_ofNat_of_lt' (by show i < 2 ^ 32; omega),
    UInt32.toNat_ofNat_of_lt' (by show j < 2 ^ 32; omega)]
  exact hij

/-- **The newest transaction is missing.**  After a block with 257 transactions of one sender
the last of them is not returned, neither to a caller who asks for one nor to one who asks for
a thousand. -/
theorem newest_transaction_missing : ∃ b c,
    IndexReachable reference bulkGenesis [.accepted b] c ∧
      (addrEntries c bulkKey.pk).length = 257 ∧ ⟨1, 256, 0⟩ ∈ addrEntries c bulkKey.pk ∧
      (acChainAddrTxs c bulkKey.pk 1).1 = [⟨1, 255, 0⟩] ∧
      (acChainAddrTxs c bulkKey.pk 1000).1.length = 256 ∧
      ⟨1, 256, 0⟩ ∉ (acChainAddrTxs c bulkKey.pk 1000).1 := by
  have hle : 257 ≤ 4096 := by decide
  have hok : (acChainAcceptBlock reference 100000 .all bulkChain (bulkSealed 257 hle)).1 = .ok :=
    bulkSealed_accepted hle (.refl bulkChain) (by decide)
  have hopen := acChainOpen_openedChain bulkStart.opens
  have hreach : IndexReachable reference bulkGenesis [.accepted (bulkSealed 257 hle)] _ :=
    ⟨_, _, _, rfl, hopen,
      .single (.moved (.ran (ChainStep.accepted (P := reference) 100000 .all _ _ hok)))⟩
  generalize (acChainAcceptBlock reference 100000 .all bulkChain (bulkSealed 257 hle)).2 =
    c at hreach
  have hsorted := hreach.addrSorted reference_mallocBounded
  have hentries := addrEntries_bulk hle hreach
  have hperm := addrEntries_sort_perm c bulkKey.pk
  rw [hentries] at hperm
  refine ⟨_, c, hreach, ?_, ?_, ?_, ?_, ?_⟩
  · rw [← hperm.length_eq, List.length_map, List.length_range]
  · rw [← hperm.mem_iff]
    decide +kernel
  all_goals
    rw [acChainAddrTxs_fst hsorted _ (by decide), hentries]
    decide +kernel

end Bulk

end AgentChain
