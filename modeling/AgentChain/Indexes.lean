import AgentChain.Nonces
import AgentChain.Restart

/-!
# The transaction index and the address index

The two indexes of a chain live in memory only.  Accepting a block appends to them, a query
sorts them before it searches, and opening a directory builds them again from the block files.
So at any time an index is some arrangement of the entries of the accepted blocks, in ascending
order when it is flagged as sorted (`Indexed`).  Every step of a node and every query keeps
this, and since the nonces make all accepted transactions different, the bisection of
`ac_chain_tx_find` then finds a hash exactly where the blocks have it.
-/

namespace AgentChain

open Trace

/-! ### The queries -/

/-- `ac_chain_tx_find`: the height and the index of the transaction, and the chain, whose
index is now sorted. -/
def acChainTxFind (c : Chain) (txHash : Hash) : Option (UInt64 × UInt32) × Chain :=
  if c.txIndex = [] then (none, c)
  else
    let c := txIndexSort c
    let r := SortedArray.find c.txIndex fun e => memcmp e.hash.bytes txHash.bytes
    (r.map fun e => (e.height, e.txIdx), c)

/-- The loop of `ac_chain_addr_txs` for the first entry that is not below an address.  The
interval shrinks in every round. -/
def addrLowerBound (xs : List AddrIndexEntry) (addr : Addr) : ℕ → ℕ → ℕ → ℕ
  | 0, lo, _ => lo
  | fuel + 1, lo, hi =>
      if lo < hi then
        let mid := lo + (hi - lo) / 2
        if (xs[mid]?).any fun e => memcmp e.addr.bytes addr.bytes = .lt then
          addrLowerBound xs addr fuel (mid + 1) hi
        else addrLowerBound xs addr fuel lo mid
      else lo

/-- `ac_addr_tx_entry_t` -/
structure AddrTxEntry where
  height : UInt64
  txIdx : UInt32
  role : UInt8
deriving DecidableEq

/-- `ac_chain_addr_txs`: at most `cap` entries of an address, and the chain, whose index is
now sorted.  The entries pass through a buffer of 256. -/
def acChainAddrTxs (c : Chain) (addr : Addr) (cap : ℕ) : List AddrTxEntry × Chain :=
  if c.addrIndex = [] ∨ cap = 0 then ([], c)
  else
    let c := addrIndexSort c
    let lo := addrLowerBound c.addrIndex addr c.addrIndex.length 0 c.addrIndex.length
    let found := (c.addrIndex.drop lo).takeWhile fun e => memcmp e.addr.bytes addr.bytes = .eq
    let scratch := (found.take 256).map fun e => (⟨e.height, e.txIdx, e.role⟩ : AddrTxEntry)
    (scratch.reverse.take cap, c)

/-! ### What the indexes hold -/

/-- The entries of a block in the transaction index. -/
def txEntriesOf (P : Platform) (b : Block) : List TxIndexEntry :=
  b.txs.mapIdx fun i tx => ⟨acTxHash P tx, b.header.height, UInt32.ofNat i⟩

/-- The entries of a block in the address index. -/
def addrEntriesOf (b : Block) : List AddrIndexEntry :=
  (b.txs.mapIdx fun i tx => addrIndexEntries tx b.header.height (UInt32.ofNat i)).flatten

/-- The indexes hold the entries of the blocks, each once and in some order. -/
structure Indexed (P : Platform) (bs : List Block) (c : Chain) : Prop where
  tx_perm : c.txIndex.Perm (bs.flatMap (txEntriesOf P))
  tx_sorted : c.txIndexSorted = true →
    c.txIndex.Pairwise fun x y => memcmp x.hash.bytes y.hash.bytes ≠ .gt
  addr_perm : c.addrIndex.Perm (bs.flatMap addrEntriesOf)

instance : Std.TransCmp memcmp where
  eq_swap := Std.OrientedOrd.eq_swap (α := Bytes)
  isLE_trans h₁ h₂ := Std.TransOrd.isLE_trans (α := Bytes) h₁ h₂

instance : Std.LawfulEqCmp memcmp where
  compare_self := Std.ReflOrd.compare_self (α := Bytes)
  eq_of_compare h := Std.LawfulEqOrd.eq_of_compare (α := Bytes) h

section Indexed

variable {P : Platform} {g : Genesis} {bs : List Block} {b : Block} {c d : Chain}

/-- Empty indexes belong to no blocks. -/
lemma indexed_nil (htx : c.txIndex = []) (haddr : c.addrIndex = []) : Indexed P [] c where
  tx_perm := by rw [htx]; exact List.Perm.nil
  tx_sorted := fun _ => by rw [htx]; exact List.Pairwise.nil
  addr_perm := by rw [haddr]; exact List.Perm.nil

/-- The fields that the invariant is about. -/
lemma Indexed.congr (h : Indexed P bs c) (htx : d.txIndex = c.txIndex)
    (hsorted : d.txIndexSorted = c.txIndexSorted) (haddr : d.addrIndex = c.addrIndex) :
    Indexed P bs d where
  tx_perm := htx ▸ h.tx_perm
  tx_sorted := fun hs => by
    rw [htx]
    exact h.tx_sorted (hsorted ▸ hs)
  addr_perm := haddr ▸ h.addr_perm

/-- Appending the entries of a block. -/
lemma Indexed.snoc (h : Indexed P bs c) (htx : d.txIndex = c.txIndex ++ txEntriesOf P b)
    (hsorted : d.txIndexSorted = (c.txIndexSorted && b.txs.isEmpty))
    (haddr : d.addrIndex = c.addrIndex ++ addrEntriesOf b) : Indexed P (bs ++ [b]) d where
  tx_perm := by
    rw [htx, List.flatMap_append, List.flatMap_singleton]
    exact h.tx_perm.append_right _
  tx_sorted := by
    intro hs
    -- a block that leaves the flag set has no transactions
    rw [hsorted, Bool.and_eq_true, List.isEmpty_iff] at hs
    rw [htx, txEntriesOf, hs.2, List.mapIdx_nil, List.append_nil]
    exact h.tx_sorted hs.1
  addr_perm := by
    rw [haddr, List.flatMap_append, List.flatMap_singleton]
    exact h.addr_perm.append_right _

/-- Sorting the transaction index. -/
lemma Indexed.txIndexSort (h : Indexed P bs c) : Indexed P bs (txIndexSort c) := by
  rw [AgentChain.txIndexSort]
  split_ifs with hs
  · exact h
  · exact ⟨(List.perm_insertionSort _ _).trans h.tx_perm,
      fun _ => SortedArray.pairwise_sort (fun e : TxIndexEntry => e.hash.bytes) c.txIndex,
      h.addr_perm⟩

/-- Sorting the address index. -/
lemma Indexed.addrIndexSort (h : Indexed P bs c) : Indexed P bs (addrIndexSort c) := by
  rw [AgentChain.addrIndexSort]
  split_ifs with hs
  · exact h
  · exact ⟨h.tx_perm, h.tx_sorted, (List.perm_insertionSort _ _).trans h.addr_perm⟩

/-! ### Rebuilding -/

/-- One round of `tx_index_rebuild`, for a block file with the height of its name. -/
lemma Indexed.rebuildBlock (h : Indexed P bs c) (hb : blockRead c.dir b.header.height = some b) :
    Indexed P (bs ++ [b]) (rebuildBlock P c b.header.height) := by
  rw [AgentChain.rebuildBlock, hb]
  dsimp only
  split_ifs
  · exact h.snoc rfl rfl rfl
  · exact h.snoc rfl rfl rfl

/-- The rounds of `tx_index_rebuild` index the first blocks. -/
lemma Ledger.indexed_rebuildTo (h : Ledger P g bs c) {n : ℕ} (hn : n ≤ bs.length) :
    Indexed P (bs.take n) (rebuildTo P c.core n) := by
  induction n with
  | zero => exact indexed_nil rfl rfl
  | succ n ih =>
    have hget : bs[n]? = some bs[n] := List.getElem?_eq_getElem hn
    have hheight : bs[n].header.height = UInt64.ofNat (n + 1) := by
      rw [← h.consecutive n _ hget, UInt64.ofNat_toNat]
    have hcore := rebuildTo_core (P := P) c.core n
    have hdir : (rebuildTo P c.core n).core.dir = c.dir := by rw [hcore]; rfl
    replace hdir : (rebuildTo P c.core n).dir = c.dir := hdir
    have hb : blockRead (rebuildTo P c.core n).dir bs[n].header.height = some bs[n] := by
      rw [hdir, hheight, h.stored (n + 1) hn, List.getElem?_cons_succ, hget]
    rw [rebuildTo, List.take_succ_eq_append_getElem hn, ← hheight]
    exact (ih (Nat.le_of_succ_le hn)).rebuildBlock hb

/-- **Opening a directory** indexes the blocks in it. -/
lemma Ledger.indexed_rebuild (h : Ledger P g bs c) : Indexed P bs (txIndexRebuild P c.core) := by
  rw [txIndexRebuild]
  split_ifs with h0
  · have hnil : bs = [] := by
      rw [← List.length_eq_zero_iff, ← h.height_eq]
      exact congrArg UInt64.toNat h0
    rw [hnil]
    exact indexed_nil rfl rfl
  · have hheight : c.core.height.toNat = bs.length := h.height_eq
    have hall := h.indexed_rebuildTo (P := P) le_rfl
    rw [List.take_length, ← hheight] at hall
    exact hall.txIndexSort.addrIndexSort

/-! ### Runs -/

/-- What happens to a chain between and in queries: a step of the node, a search for a
transaction, or a search for an address. -/
inductive IndexStep (P : Platform) : Chain → List NodeEvent → Chain → Prop
  | moved {c d : Chain} {new : List NodeEvent} (h : NodeStep P c new d) : IndexStep P c new d
  | txFind (c : Chain) (txHash : Hash) : IndexStep P c [] (acChainTxFind c txHash).2
  | addrTxs (c : Chain) (addr : Addr) (cap : ℕ) : IndexStep P c [] (acChainAddrTxs c addr cap).2

/-- The chain is reached from the genesis by the given events and by any queries between
them. -/
def IndexReachable (P : Platform) (g : Genesis) (es : List NodeEvent) (c : Chain) : Prop :=
  ∃ w d c₀, d.metaBin = none ∧ acChainOpen P w d (some g) = some c₀ ∧ Run (IndexStep P) c₀ es c

/-- The transfers among the transactions have bodies that decode. -/
def BodiesDecode (txs : List Tx) : Prop :=
  ∀ tx ∈ txs, TxKind.ofCode tx.kind = some .transfer → (acBodyTransferDecode tx.body).isSome

lemma BodiesDecode.of_mem (h : BodiesDecode (includedTxs bs)) (hb : b ∈ bs) :
    BodiesDecode b.txs :=
  fun tx htx => h tx (List.mem_flatMap.mpr ⟨b, hb, htx⟩)

/-- A transfer that is included has a body that decodes. -/
lemma acStateApplyTx_decodes {s : AcState} {tx : Tx} {slot baseFee : UInt64}
    (h : (acStateApplyTx P s tx slot baseFee).1 ≠ .rejected)
    (hkind : TxKind.ofCode tx.kind = some .transfer) : (acBodyTransferDecode tx.body).isSome := by
  rcases acStateApplyTx_cases (P := P) s tx slot baseFee with ⟨err, -, he⟩ | ⟨a, ha, -⟩
  · rw [he] at h
    exact absurd rfl h
  · obtain ⟨igas, value, hadm⟩ := admitTx_admission ha
    have hvalue := hadm.value_eq
    rw [Option.some.inj (hadm.kind_eq.symm.trans hkind), transferValue,
      Option.map_eq_some_iff] at hvalue
    obtain ⟨body, hbody, -⟩ := hvalue
    exact Option.isSome_of_mem hbody

/-- The loop over the transactions of a block that passes. -/
lemma bodiesDecode_applyTxs {slot baseFee : UInt64} {txs : List Tx} {l : TxLoop}
    (hok : (applyTxs P slot baseFee txs l).ok = true) : BodiesDecode txs := by
  induction txs generalizing l with
  | nil => exact fun _ h => absurd h List.not_mem_nil
  | cons tx txs ih =>
    rw [applyTxs] at hok
    dsimp only at hok
    split_ifs at hok with hsig hinc hgas
    exact List.forall_mem_cons.mpr ⟨acStateApplyTx_decodes hinc, ih hok⟩

/-- What holds of a chain in every run with queries. -/
structure IndexInv (P : Platform) (g : Genesis) (bs : List Block) (c : Chain) : Prop where
  ledger : Ledger P g bs c
  indexed : Indexed P bs c
  log : NonceLog c.state (includedTxs bs)
  bodies : BodiesDecode (includedTxs bs)

/-- Nothing is indexed at the genesis. -/
lemma indexInv_genesis {dir : DataDir} {buf : Bytes}
    (hbuf : acStateSerialize P (genesisState g) = some buf) :
    IndexInv P g [] (genesisChain P dir g buf) where
  ledger := ledger_genesis hbuf
  indexed := indexed_nil rfl rfl
  log := nonceLog_genesisState g
  bodies := fun _ h => absurd h List.not_mem_nil

/-- An accepted block is appended to the indexes. -/
lemma IndexInv.commit (h : IndexInv P g bs c) {now : UInt64} {buf : Bytes}
    (hpass : PassesChecks P now c b)
    (hbuf : acStateSerialize P (postState P c.state b) = some buf) :
    IndexInv P g (bs ++ [b]) (committed P c b buf) := by
  have htxs : includedTxs (bs ++ [b]) = includedTxs bs ++ b.txs := by simp [includedTxs]
  refine ⟨h.ledger.commit hpass hbuf, h.indexed.snoc rfl rfl rfl, ?_, ?_⟩
  · rw [htxs]
    exact h.log.postState hpass.txs_ok
  · rw [htxs]
    intro tx htx
    rcases List.mem_append.mp htx with hold | hnew
    · exact h.bodies tx hold
    · exact bodiesDecode_applyTxs hpass.txs_ok tx hnew

/-- The seed cache is no concern of the indexes. -/
lemma IndexInv.reseeded (h : IndexInv P g bs c) (hseed : c.Reseeded P d) : IndexInv P g bs d where
  ledger := h.ledger.reseeded hseed
  indexed := by
    rw [hseed.same.eq_withCached]
    exact h.indexed.congr rfl rfl rfl
  log := hseed.same.state_eq ▸ h.log
  bodies := h.bodies

/-- A change of the indexes alone. -/
lemma IndexInv.of_core (h : IndexInv P g bs c) (hcore : d.core = c.core)
    (hcache : d.CacheValid P) (hindexed : Indexed P bs d) : IndexInv P g bs d where
  ledger := h.ledger.of_core hcore hcache
  indexed := hindexed
  log := by
    have hstate : d.core.state = c.core.state := congrArg Chain.state hcore
    replace hstate : d.state = c.state := hstate
    rw [hstate]
    exact h.log
  bodies := h.bodies

/-- Opening the directory again. -/
lemma IndexInv.reopen (hP : P.MallocBounded) (h : IndexInv P g bs c) {w : Writes}
    {g' : Option Genesis} (hopen : acChainOpen P w c.dir g' = some d) : IndexInv P g bs d := by
  obtain rfl : txIndexRebuild P c.core = d :=
    Option.some.inj ((h.ledger.acChainOpen_eq hP w g').symm.trans hopen)
  refine h.of_core (txIndexRebuild_core c.core) (fun e k hk => ?_) h.ledger.indexed_rebuild
  rw [(txIndexRebuild_eq c.core).1] at hk
  exact nomatch hk

/-- A change of the indexes alone keeps a cached seed valid. -/
lemma Chain.CacheValid.of_core (h : c.CacheValid P) (hcore : d.core = c.core)
    (hcached : d.cached = c.cached) : d.CacheValid P := by
  intro epoch seed hk
  have hd : ∀ {α : Type} (f : Chain → α), f d.core = f c.core := fun f => congrArg f hcore
  have hdir : d.dir = c.dir := hd Chain.dir
  rw [computeEpochSeed_congr P (c := c) (d := d) (hd Chain.height) (hd Chain.chainId)
    (hd Chain.genesisTimestampMs)
    (fun k _ => by rw [acChainGetHeaderByHeight, acChainGetHeaderByHeight, hdir])]
  exact h epoch seed (hcached ▸ hk)

/-- A search for a transaction. -/
lemma IndexInv.txIndexSort (h : IndexInv P g bs c) : IndexInv P g bs (txIndexSort c) :=
  h.of_core (txIndexSort_core c)
    (h.ledger.cacheValid.of_core (txIndexSort_core c) (txIndexSort_frame c).1)
    h.indexed.txIndexSort

/-- A search for an address. -/
lemma IndexInv.addrIndexSort (h : IndexInv P g bs c) : IndexInv P g bs (addrIndexSort c) :=
  h.of_core (addrIndexSort_core c)
    (h.ledger.cacheValid.of_core (addrIndexSort_core c) (addrIndexSort_frame c).1)
    h.indexed.addrIndexSort

/-- **One step**, of the node or of a query. -/
lemma IndexStep.inv (hP : P.MallocBounded) {new : List NodeEvent} (hs : IndexStep P c new d)
    (h : IndexInv P g bs c) : IndexInv P g (bs ++ blocksOf new) d := by
  cases hs with
  | moved hs =>
    cases hs with
    | ran hs =>
      rw [blocksOf_accepted]
      cases hs with
      | accepted now w c b hok =>
        obtain ⟨hpass, -, -, -, buf, hbuf, hres⟩ := acChainAcceptBlock_ok hP hok
        rw [hres]
        exact h.commit hpass hbuf
      | turnedAway now w c b hrc hw =>
        rw [List.append_nil]
        exact h.reseeded (acChainAcceptBlock_turnedAway hP hrc hw)
      | seeded c epoch =>
        rw [List.append_nil]
        exact h.reseeded (acChainEpochSeed_reseeded c epoch)
    | reopened w g' hopen =>
      rw [show blocksOf [.reopened] = [] from rfl, List.append_nil]
      exact h.reopen hP hopen
  | txFind txHash =>
    rw [show blocksOf [] = [] from rfl, List.append_nil, acChainTxFind]
    split_ifs
    · exact h
    · exact h.txIndexSort
  | addrTxs addr cap =>
    rw [show blocksOf [] = [] from rfl, List.append_nil, acChainAddrTxs]
    split_ifs
    · exact h
    · exact h.addrIndexSort

/-- **Every run** with queries. -/
theorem IndexReachable.inv (hP : P.MallocBounded) {es : List NodeEvent}
    (h : IndexReachable P g es c) : IndexInv P g (blocksOf es) c := by
  obtain ⟨w, dir, c₀, hdir, hopen, hrun⟩ := h
  refine hrun.invariant (I := fun es c => IndexInv P g (blocksOf es) c) ?_ ?_
  · obtain ⟨buf, hbuf, rfl⟩ := acChainOpen_genesis hdir hopen
    exact indexInv_genesis hbuf
  · intro es c new d hinv hs
    rw [blocksOf_append]
    exact hs.inv hP hinv

/-! ### Transactions by hash -/

/-- The index of a transaction in its block fits its field. -/
lemma toNat_txIdx (b : Block) {i : ℕ} (hi : i < b.txs.length) : (UInt32.ofNat i).toNat = i := by
  have hmax : acBlockMaxTxs < 2 ^ 32 := by decide
  exact UInt32.toNat_ofNat_of_lt' (hi.trans_le (b.txs_le.trans hmax.le))

/-- The place of a transaction: the accepted block of the height has it at the index. -/
def TxAt (bs : List Block) (height : UInt64) (i : UInt32) (tx : Tx) : Prop :=
  ∃ b ∈ bs, b.header.height = height ∧ b.txs[i.toNat]? = some tx

lemma mem_txEntries {e : TxIndexEntry} :
    e ∈ bs.flatMap (txEntriesOf P) ↔
      ∃ tx, TxAt bs e.height e.txIdx tx ∧ acTxHash P tx = e.hash := by
  simp only [List.mem_flatMap, txEntriesOf, List.mem_mapIdx]
  constructor
  · rintro ⟨b, hb, i, hi, rfl⟩
    refine ⟨b.txs[i], ⟨b, hb, rfl, ?_⟩, rfl⟩
    rw [toNat_txIdx b hi]
    exact List.getElem?_eq_getElem hi
  · rintro ⟨tx, ⟨b, hb, hheight, htx⟩, hhash⟩
    obtain ⟨hi, hget⟩ := List.getElem?_eq_some_iff.mp htx
    refine ⟨b, hb, e.txIdx.toNat, hi, ?_⟩
    rw [hget, hhash, hheight, UInt32.ofNat_toNat]

/-- The hashes in the index are those of the included transactions. -/
lemma map_hash_txEntries (bs : List Block) :
    (bs.flatMap (txEntriesOf P)).map TxIndexEntry.hash = (includedTxs bs).map (acTxHash P) := by
  rw [includedTxs, List.map_flatMap, List.map_flatMap]
  congr 1
  funext b
  refine List.ext_getElem (by simp [txEntriesOf]) fun i _ _ => ?_
  simp [txEntriesOf]

/-- **The search** on an index without repeated hashes. -/
lemma Indexed.acChainTxFind_iff (h : Indexed P bs c)
    (hnodup : ((includedTxs bs).map (acTxHash P)).Nodup) (x : Hash) (height : UInt64) (i : UInt32) :
    (acChainTxFind c x).1 = some (height, i) ↔ ∃ tx, TxAt bs height i tx ∧ acTxHash P tx = x := by
  have hmem : (⟨x, height, i⟩ : TxIndexEntry) ∈ bs.flatMap (txEntriesOf P) ↔
      ∃ tx, TxAt bs height i tx ∧ acTxHash P tx = x := mem_txEntries
  rw [acChainTxFind]
  split_ifs with hnil
  · have hnone : bs.flatMap (txEntriesOf P) = [] := List.nil_perm.mp (hnil ▸ h.tx_perm)
    rw [hnone] at hmem
    simpa using hmem
  · have hd := h.txIndexSort
    have hflag : (AgentChain.txIndexSort c).txIndexSorted = true := by
      rw [AgentChain.txIndexSort]
      split_ifs with hs
      · exact hs
      · rfl
    generalize AgentChain.txIndexSort c = d at hd hflag
    have hkeys : (d.txIndex.map fun e => e.hash.bytes).Nodup := by
      have hhash := ((hd.tx_perm.map TxIndexEntry.hash).nodup_iff).mpr
        ((map_hash_txEntries (P := P) bs).symm ▸ hnodup)
      have := hhash.map (f := ByteArr.bytes) fun a b hab => ByteArr.ext hab
      rwa [List.map_map] at this
    have hsorted := SortedArray.sorted_of_nodup (hd.tx_sorted hflag) hkeys
    rw [← hmem, ← hd.tx_perm.mem_iff, Option.map_eq_some_iff]
    constructor
    · rintro ⟨⟨y, height', i'⟩, hfind, heq⟩
      obtain ⟨hin, hy⟩ := (SortedArray.find_eq_some_iff hsorted x.bytes _).mp hfind
      obtain rfl : y = x := ByteArr.ext hy
      cases heq
      exact hin
    · intro hin
      exact ⟨_, (SortedArray.find_eq_some_iff hsorted x.bytes _).mpr ⟨hin, rfl⟩, rfl⟩

/-! ### Transactions by address -/

/-- The address is the sender of the transaction (role 0), or the recipient of a transfer from
somebody else (role 1). -/
def Involves (tx : Tx) (addr : Addr) (role : UInt8) : Prop :=
  role = 0 ∧ tx.sender = addr ∨
    role = 1 ∧ TxKind.ofCode tx.kind = some .transfer ∧ tx.sender ≠ addr ∧
      (acBodyTransferDecode tx.body).map BodyTransfer.recipient = some addr

/-- A transfer body that decodes starts with the recipient. -/
lemma recipient_of_decodes {body : Bytes} (h : (acBodyTransferDecode body).isSome) :
    32 ≤ body.length ∧
      (acBodyTransferDecode body).map BodyTransfer.recipient = some (ByteArr.ofBytes 32 body) := by
  by_cases hlen : 32 ≤ body.length
  · obtain ⟨a, rest, rfl⟩ := exists_arr_append hlen
    rw [ByteArr.ofBytes_append]
    rw [acBodyTransferDecode] at h ⊢
    simp only [rgetArr_append] at h ⊢
    split_ifs at h ⊢ with herr
    · exact nomatch h
    · exact ⟨hlen, rfl⟩
  · -- the first read fails, and so does every later one
    rw [acBodyTransferDecode] at h
    simp [rgetArr, rgetU64, rget, not_le.mp hlen] at h

lemma mem_addrIndexEntries {tx : Tx} {height : UInt64} {i : UInt32} {e : AddrIndexEntry}
    (hbody : TxKind.ofCode tx.kind = some .transfer → (acBodyTransferDecode tx.body).isSome) :
    e ∈ addrIndexEntries tx height i ↔
      e.height = height ∧ e.txIdx = i ∧ Involves tx e.addr e.role := by
  obtain ⟨addr, height', i', role⟩ := e
  rw [addrIndexEntries, Involves]
  dsimp only
  by_cases hkind : TxKind.ofCode tx.kind = some .transfer
  · obtain ⟨hlen, hrec⟩ := recipient_of_decodes (hbody hkind)
    rw [hrec]
    split_ifs with hother
    · simp only [List.mem_cons, AddrIndexEntry.mk.injEq, List.not_mem_nil, or_false]
      constructor
      · rintro (⟨rfl, rfl, rfl, rfl⟩ | ⟨rfl, rfl, rfl, rfl⟩)
        · exact ⟨rfl, rfl, Or.inl ⟨rfl, rfl⟩⟩
        · exact ⟨rfl, rfl, Or.inr ⟨rfl, hkind, hother.2.2.symm, rfl⟩⟩
      · rintro ⟨rfl, rfl, ⟨rfl, rfl⟩ | ⟨rfl, -, -, hr⟩⟩
        · exact Or.inl ⟨rfl, rfl, rfl, rfl⟩
        · exact Or.inr ⟨(Option.some.inj hr).symm, rfl, rfl, rfl⟩
    · have hself : ByteArr.ofBytes 32 tx.body = tx.sender := by
        by_contra hne
        exact hother ⟨hkind, hlen, hne⟩
      simp only [List.mem_singleton, AddrIndexEntry.mk.injEq]
      constructor
      · rintro ⟨rfl, rfl, rfl, rfl⟩
        exact ⟨rfl, rfl, Or.inl ⟨rfl, rfl⟩⟩
      · rintro ⟨rfl, rfl, ⟨rfl, rfl⟩ | ⟨-, -, hne, hr⟩⟩
        · exact ⟨rfl, rfl, rfl, rfl⟩
        · exact absurd (hself.symm.trans (Option.some.inj hr)) hne
  · simp only [hkind, false_and, if_false, and_false, or_false, List.mem_singleton,
      AddrIndexEntry.mk.injEq]
    constructor
    · rintro ⟨rfl, rfl, rfl, rfl⟩
      exact ⟨rfl, rfl, rfl, rfl⟩
    · rintro ⟨rfl, rfl, rfl, rfl⟩
      exact ⟨rfl, rfl, rfl, rfl⟩

lemma mem_addrEntriesOf {e : AddrIndexEntry} (hbody : BodiesDecode b.txs) :
    e ∈ addrEntriesOf b ↔ e.height = b.header.height ∧
      ∃ tx, b.txs[e.txIdx.toNat]? = some tx ∧ Involves tx e.addr e.role := by
  rw [addrEntriesOf, List.mem_flatten]
  constructor
  · rintro ⟨l, hl, he⟩
    obtain ⟨i, hi, rfl⟩ := List.mem_mapIdx.mp hl
    obtain ⟨hheight, hidx, hinv⟩ :=
      (mem_addrIndexEntries (hbody _ (List.getElem_mem hi))).mp he
    refine ⟨hheight, b.txs[i], ?_, hinv⟩
    rw [hidx, toNat_txIdx b hi]
    exact List.getElem?_eq_getElem hi
  · rintro ⟨hheight, tx, htx, hinv⟩
    obtain ⟨hi, rfl⟩ := List.getElem?_eq_some_iff.mp htx
    refine ⟨_, List.mem_mapIdx.mpr ⟨e.txIdx.toNat, hi, rfl⟩, ?_⟩
    rw [mem_addrIndexEntries (hbody _ (List.getElem_mem hi)), UInt32.ofNat_toNat]
    exact ⟨hheight, rfl, hinv⟩

/-- A block indexes nothing twice: the entries of one transaction differ in their role, those
of two transactions in their index. -/
lemma nodup_addrEntriesOf (b : Block) : (addrEntriesOf b).Nodup := by
  have hidx : ∀ {tx : Tx} {height : UInt64} {i : UInt32} {e : AddrIndexEntry},
      e ∈ addrIndexEntries tx height i → e.txIdx = i := by
    intro tx height i e he
    rw [addrIndexEntries] at he
    split_ifs at he
    · rcases List.mem_cons.mp he with rfl | he
      · rfl
      · rw [List.mem_singleton.mp he]
    · rw [List.mem_singleton.mp he]
  rw [addrEntriesOf, List.nodup_flatten]
  constructor
  · intro l hl
    obtain ⟨i, hi, rfl⟩ := List.mem_mapIdx.mp hl
    rw [addrIndexEntries]
    split_ifs
    · simp
    · simp
  · rw [List.pairwise_iff_getElem]
    intro i j hi hj hij e he he'
    rw [List.getElem_mapIdx] at he he'
    rw [List.length_mapIdx] at hi hj
    have heq := congrArg UInt32.toNat ((hidx he).symm.trans (hidx he'))
    rw [toNat_txIdx b hi, toNat_txIdx b hj] at heq
    exact absurd heq hij.ne

/-- The blocks of a chain index nothing twice. -/
lemma nodup_addrEntries (h : Consecutive bs) (hbody : BodiesDecode (includedTxs bs)) :
    (bs.flatMap addrEntriesOf).Nodup := by
  refine List.nodup_flatMap.mpr ⟨fun b _ => nodup_addrEntriesOf b, ?_⟩
  rw [List.pairwise_iff_getElem]
  intro i j hi hj hij e he he'
  have hheight := ((mem_addrEntriesOf (hbody.of_mem (List.getElem_mem hi))).mp he).1
  have hheight' := ((mem_addrEntriesOf (hbody.of_mem (List.getElem_mem hj))).mp he').1
  have heq := congrArg UInt64.toNat (hheight.symm.trans hheight')
  rw [h i _ (List.getElem?_eq_getElem hi), h j _ (List.getElem?_eq_getElem hj)] at heq
  omega

lemma mem_addrEntries {e : AddrIndexEntry} (hbody : BodiesDecode (includedTxs bs)) :
    e ∈ bs.flatMap addrEntriesOf ↔
      ∃ tx, TxAt bs e.height e.txIdx tx ∧ Involves tx e.addr e.role := by
  rw [List.mem_flatMap]
  constructor
  · rintro ⟨b, hb, he⟩
    obtain ⟨hheight, tx, htx, hinv⟩ := (mem_addrEntriesOf (hbody.of_mem hb)).mp he
    exact ⟨tx, ⟨b, hb, hheight.symm, htx⟩, hinv⟩
  · rintro ⟨tx, ⟨b, hb, hheight, htx⟩, hinv⟩
    exact ⟨b, hb, (mem_addrEntriesOf (hbody.of_mem hb)).mpr ⟨hheight.symm, tx, htx, hinv⟩⟩

/-! ### Correctness -/

/-- No two of the transactions collide under the hash. -/
def CollisionFree (P : Platform) (txs : List Tx) : Prop :=
  ∀ tx ∈ txs, ∀ tx' ∈ txs, acTxHash P tx = acTxHash P tx' →
    acTxSignableBytes acTxMaxBytes tx = acTxSignableBytes acTxMaxBytes tx'

/-- The included transactions have different hashes. -/
lemma IndexInv.nodup_hashes (h : IndexInv P g bs c) (hhash : CollisionFree P (includedTxs bs))
    (hfits : c.txIndex.length < 2 ^ 64) : ((includedTxs bs).map (acTxHash P)).Nodup := by
  have hlen : c.txIndex.length = (includedTxs bs).length := by
    rw [h.indexed.tx_perm.length_eq, ← List.length_map (f := TxIndexEntry.hash),
      map_hash_txEntries, List.length_map]
  have hfew : ∀ a, (sentBy a (includedTxs bs)).length < 2 ^ 64 := fun a =>
    (List.length_filter_le _ _).trans_lt (hlen ▸ hfits)
  refine List.pairwise_map.mpr ((h.log.signable_ne hfew).imp_of_mem ?_)
  intro tx tx' htx htx' hne heq
  exact hne (hhash tx htx tx' htx' heq)

/-- **The indexes are correct.**  In every run of a node with restarts, and with any queries in
between: `ac_chain_tx_find` returns a height and an index exactly when the accepted block of
that height has there a transaction with the hash, and nothing when no accepted block has one;
the address index has one entry for each accepted transaction and each address that is its
sender or the other party of a transfer.  The number of entries is a `size_t`. -/
theorem indexes_correct (hP : P.MallocBounded) {es : List NodeEvent}
    (h : IndexReachable P g es c) (hhash : CollisionFree P (includedTxs (blocksOf es)))
    (hfits : c.txIndex.length < 2 ^ 64) :
    (∀ x height i, (acChainTxFind c x).1 = some (height, i) ↔
      ∃ tx, TxAt (blocksOf es) height i tx ∧ acTxHash P tx = x) ∧
    (∀ x, (acChainTxFind c x).1 = none ↔ ∀ tx ∈ includedTxs (blocksOf es), acTxHash P tx ≠ x) ∧
    c.addrIndex.Nodup ∧
    ∀ e, e ∈ c.addrIndex ↔
      ∃ tx, TxAt (blocksOf es) e.height e.txIdx tx ∧ Involves tx e.addr e.role := by
  have hinv := h.inv hP
  have hfind := hinv.indexed.acChainTxFind_iff (hinv.nodup_hashes hhash hfits)
  refine ⟨hfind, fun x => ?_, ?_, fun e => ?_⟩
  · rw [Option.eq_none_iff_forall_ne_some]
    constructor
    · rintro hnone tx htx rfl
      obtain ⟨b, hb, htx⟩ := List.mem_flatMap.mp htx
      obtain ⟨i, hi, hget⟩ := List.getElem_of_mem htx
      refine hnone (b.header.height, UInt32.ofNat i) ((hfind _ _ _).mpr ⟨tx, ⟨b, hb, rfl, ?_⟩, rfl⟩)
      rw [toNat_txIdx b hi, List.getElem?_eq_getElem hi, hget]
    · rintro habsent ⟨height, i⟩ hsome
      obtain ⟨tx, ⟨b, hb, -, htx⟩, hx⟩ := (hfind _ _ _).mp hsome
      exact habsent tx (List.mem_flatMap.mpr ⟨b, hb, List.mem_of_getElem? htx⟩) hx
  · exact hinv.indexed.addr_perm.nodup_iff.mpr
      (nodup_addrEntries hinv.ledger.consecutive hinv.bodies)
  · rw [hinv.indexed.addr_perm.mem_iff, mem_addrEntries hinv.bodies]

/-- The hypotheses are met by a run that accepts a block with a transfer and opens the
directory again: the transfer is found in the first block. -/
theorem indexes_correct_pay :
    ∃ d, acChainOpen reference .all (acChainAcceptBlock reference 100000 .all
        (openedChain mintGenesis) payBlock).2.dir none = some d ∧
      (acChainTxFind d (acTxHash reference payTx)).1 = some (1, 0) := by
  have hrun : (acChainAcceptBlock reference 100000 .all (openedChain mintGenesis)
        payBlock).1 = .ok ∧
      payBlock.txs = [payTx] ∧ payBlock.header.height = 1 := by
    decide +kernel
  obtain ⟨hok, htxs, hheight⟩ := hrun
  have hopen := acChainOpen_openedChain (g := mintGenesis) (by decide +kernel)
  have hstep := NodeStep.ran (ChainStep.accepted (P := reference) 100000 .all _ payBlock hok)
  have hfirst : IndexReachable reference mintGenesis [.accepted payBlock] _ :=
    ⟨_, _, _, rfl, hopen, .single (.moved hstep)⟩
  have hagain := (hfirst.inv reference_mallocBounded).ledger.acChainOpen_eq
    reference_mallocBounded .all none
  have hreach : IndexReachable reference mintGenesis ([.accepted payBlock] ++ [.reopened]) _ :=
    ⟨_, _, _, rfl, hopen, (Run.single (.moved hstep)).trans
      (.single (.moved (.reopened .all none hagain)))⟩
  have hblocks : blocksOf ([.accepted payBlock] ++ [.reopened]) = [payBlock] := rfl
  have hincluded : includedTxs [payBlock] = [payTx] := by
    rw [includedTxs, List.flatMap_singleton, htxs]
  refine ⟨_, hagain, ((indexes_correct reference_mallocBounded hreach ?_ ?_).1 _ 1 0).mpr
    ⟨payTx, ⟨payBlock, ?_, hheight, ?_⟩, rfl⟩⟩
  · rw [hblocks, hincluded]
    intro tx htx tx' htx' _
    rw [List.mem_singleton.mp htx, List.mem_singleton.mp htx']
  · rw [(hreach.inv reference_mallocBounded).indexed.tx_perm.length_eq, hblocks,
      List.flatMap_singleton, txEntriesOf, List.length_mapIdx, htxs]
    decide
  · rw [hblocks]
    exact List.mem_singleton_self _
  · rw [htxs]
    rfl

end Indexed

end AgentChain
