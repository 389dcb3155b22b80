import AgentChain.AcceptInv

/-!
# Genesis and opening a data directory

`ac_chain_open` starts from `meta.bin` and `state.bin` when the directory has a `meta.bin`,
and writes the genesis block, `meta.bin` and `state.bin` otherwise.  The indexes and the
liveness map are not stored; `tx_index_rebuild` collects them from the block files.
-/

namespace AgentChain

/-- `ac_genesis_account_t` -/
structure GenesisAccount where
  addr : Addr
  balance : UInt64
  stake : UInt64
deriving DecidableEq

/-- `ac_genesis_t` -/
structure Genesis where
  chainId : UInt64
  timestampMs : UInt64
  accounts : List GenesisAccount
deriving DecidableEq

/-- What `ac_node_load_genesis` can return: any account lines, and both numbers set. -/
def Genesis.Loadable (g : Genesis) : Prop := g.chainId ≠ 0 ∧ g.timestampMs ≠ 0

instance (g : Genesis) : Decidable g.Loadable := inferInstanceAs (Decidable (_ ∧ _))

/-! ### Genesis -/

/-- The account of an allocation. -/
def GenesisAccount.toAccount (ga : GenesisAccount) : Account :=
  ⟨ga.addr, ga.balance, 0, ga.stake, 0⟩

/-- The reward pool before the first block. -/
def genesisPool : Account := ⟨sysRewardPool, 60000000 * 1000000, 0, 0, 0⟩

/-- The state that `chain_apply_genesis` builds: the pool, then every allocation in order, a
later one replacing an earlier one of the same address. -/
def genesisState (g : Genesis) : AcState :=
  g.accounts.foldl (fun s ga => acStateSet s ga.toAccount)
    (acStateSet (acStateNew g.chainId) genesisPool)

lemma genesisState_chainId (g : Genesis) : (genesisState g).chainId = g.chainId := by
  have hset : ∀ (l : List GenesisAccount) (s : AcState),
      (l.foldl (fun s ga => acStateSet s ga.toAccount) s).chainId = s.chainId := by
    intro l
    induction l with
    | nil => exact fun s => rfl
    | cons ga l ih => exact fun s => ih _
  exact hset g.accounts _

/-- The liveness map that `chain_apply_genesis` builds, one entry per bonded allocation. -/
def genesisLive (g : Genesis) : List LiveEntry :=
  g.accounts.foldl (fun m ga =>
    if ¬ ga.stake < acMinStakeUcrd ∧ m.length < acMaxLive then m ++ [⟨ga.addr, 0⟩] else m) []

/-- The account lines with at least the minimum stake. -/
def bondedLines (g : Genesis) : List GenesisAccount :=
  g.accounts.filter fun ga => !decide (ga.stake < acMinStakeUcrd)

/-- The map has one entry for each of the first bonded lines, whatever their addresses. -/
lemma genesisLive_eq (g : Genesis) :
    genesisLive g = ((bondedLines g).take acMaxLive).map fun ga => ⟨ga.addr, 0⟩ := by
  have hfold : ∀ (l : List GenesisAccount) (m : List LiveEntry),
      l.foldl (fun m ga => if ¬ ga.stake < acMinStakeUcrd ∧ m.length < acMaxLive then
        m ++ [⟨ga.addr, 0⟩] else m) m =
      m ++ ((l.filter fun ga => !decide (ga.stake < acMinStakeUcrd)).take
        (acMaxLive - m.length)).map fun ga => ⟨ga.addr, 0⟩ := by
    intro l
    induction l with
    | nil => intro m; simp
    | cons ga l ih =>
      intro m
      rw [List.foldl_cons, ih, List.filter_cons]
      by_cases hst : ga.stake < acMinStakeUcrd
      · simp [hst]
      · by_cases hroom : m.length < acMaxLive
        · obtain ⟨k, hk⟩ : ∃ k, acMaxLive - m.length = k + 1 := ⟨acMaxLive - m.length - 1, by omega⟩
          have hk' : acMaxLive - (m.length + 1) = k := by omega
          simp [hst, hroom, hk, hk']
        · have hfull : acMaxLive - m.length = 0 := by omega
          simp [hst, hroom, hfull]
  exact hfold g.accounts []

section Genesis

variable (P : Platform)

/-- The header of the genesis block. -/
def genesisHeader (g : Genesis) : BlockHeader where
  version := acBlockVersion
  height := 0
  slot := 0
  parentHash := ByteArr.fill 32 0
  timestampMs := g.timestampMs
  proposer := ByteArr.fill 32 0
  proposerVrfProof := ByteArr.fill 64 0
  stateRoot := acStateRoot P (genesisState g)
  txRoot := ByteArr.fill 32 0
  baseFee := acMinBaseFee
  gasUsed := 0
  gasLimit := acBlockGasLimit
  txCount := 0

/-- The genesis block. -/
def genesisBlock (g : Genesis) : Block where
  header := genesisHeader P g
  txs := []
  signers := []
  txCount_eq := nil_txCount_eq
  txs_le := Nat.zero_le _
  signers_le := Nat.zero_le _

/-- A zeroed chain record over a directory. -/
def Chain.fresh (d : DataDir) (chainId : UInt64) : Chain where
  dir := d
  state := acStateNew chainId
  chainId := 0
  height := 0
  tipHash := ByteArr.fill 32 0
  lastSlot := 0
  lastTimestampMs := 0
  baseFee := 0
  genesisTimestampMs := 0
  cached := none
  txIndex := []
  txIndexSorted := false
  addrIndex := []
  addrIndexSorted := false
  liveMap := []

/-- The chain once the genesis block is written and the tip fields are set. -/
def genesisRecord (d : DataDir) (g : Genesis) : Chain :=
  { Chain.fresh (d.putBlock (genesisBlock P g)) g.chainId with
    state := genesisState g
    chainId := g.chainId
    tipHash := acBlockHash P (genesisHeader P g)
    lastTimestampMs := g.timestampMs
    baseFee := acMinBaseFee
    genesisTimestampMs := g.timestampMs
    liveMap := genesisLive g }

/-- The chain after all three writes of a genesis, the bytes of `state.bin` being `buf`. -/
def genesisChain (d : DataDir) (g : Genesis) (buf : Bytes) : Chain :=
  let c := (genesisRecord P d g).saveMeta
  { c with dir := { c.dir with stateBin := some buf } }

/-- `chain_apply_genesis` on a fresh chain: whether it succeeds, and the chain it leaves. -/
def chainApplyGenesis (w : Writes) (d : DataDir) (g : Genesis) : Bool × Chain :=
  if !w.block then
    (false, { Chain.fresh d g.chainId with state := genesisState g, liveMap := genesisLive g })
  else if !w.metaFile then (false, genesisRecord P d g)
  else
    match acStateSerialize P (genesisState g) with
    | none => (false, (genesisRecord P d g).saveMeta)
    | some buf =>
        if !w.state then (false, (genesisRecord P d g).saveMeta)
        else (true, genesisChain P d g buf)

/-! ### Reading the files back -/

/-- `meta_load` -/
def metaLoad (buf : Bytes) : Option Meta :=
  let magic := ascii "AGCH:META:v1"
  if buf.length < magic.length + 1 + 8 * 6 + 32 then none
  else if memcmp (buf.take magic.length) magic ≠ .eq then none
  else
    let version := rgetU8 ⟨buf.drop magic.length, false⟩
    if version.1 ≠ 1 then none
    else
      let chainId := rgetU64 version.2
      let height := rgetU64 chainId.2
      let tipHash := rgetArr 32 height.2
      let lastSlot := rgetU64 tipHash.2
      let lastTimestampMs := rgetU64 lastSlot.2
      let baseFee := rgetU64 lastTimestampMs.2
      let genesisTimestampMs := rgetU64 baseFee.2
      some ⟨chainId.1, height.1, tipHash.1, lastSlot.1, lastTimestampMs.1, baseFee.1,
        genesisTimestampMs.1⟩

/-- A zeroed chain record with the fields of `meta.bin` and a state. -/
def Chain.ofMeta (d : DataDir) (m : Meta) (s : AcState) : Chain :=
  { Chain.fresh d m.chainId with
    state := s
    chainId := m.chainId
    height := m.height
    tipHash := m.tipHash
    lastSlot := m.lastSlot
    lastTimestampMs := m.lastTimestampMs
    baseFee := m.baseFee
    genesisTimestampMs := m.genesisTimestampMs }

/-- `tx_index_sort`; the order of equal hashes is that of the array. -/
def txIndexSort (c : Chain) : Chain :=
  if c.txIndexSorted then c
  else { c with
    txIndex := c.txIndex.insertionSort fun a b => memcmp a.hash.bytes b.hash.bytes ≠ .gt
    txIndexSorted := true }

/-- `addr_index_cmp` -/
def addrIndexCmp (a b : AddrIndexEntry) : Ordering :=
  match memcmp a.addr.bytes b.addr.bytes with
  | .eq =>
      if a.height < b.height then .lt
      else if b.height < a.height then .gt
      else if a.txIdx < b.txIdx then .lt
      else if b.txIdx < a.txIdx then .gt
      else .eq
  | o => o

/-- `addr_index_sort` -/
def addrIndexSort (c : Chain) : Chain :=
  if c.addrIndexSorted then c
  else { c with
    addrIndex := c.addrIndex.insertionSort fun a b => addrIndexCmp a b ≠ .gt
    addrIndexSorted := true }

/-- One round of `tx_index_rebuild`, for the block file of height `h`.  Only the signers of
the last blocks enter the liveness map. -/
def rebuildBlock (c : Chain) (h : UInt64) : Chain :=
  match blockRead c.dir h with
  | none => c
  | some b =>
      let c := addrIndexRecordAll (txIndexAddAll P c h b.txs) h b.txs
      if c.height < b.header.height + acLivenessWindow then
        { c with liveMap := liveRecordSigners c.liveMap b.signers b.header.height }
      else c

/-- The rounds of `tx_index_rebuild` for the heights from one to `n`. -/
def rebuildTo (c : Chain) : ℕ → Chain
  | 0 => c
  | n + 1 => rebuildBlock P (rebuildTo c n) (UInt64.ofNat (n + 1))

/-- `tx_index_rebuild` -/
def txIndexRebuild (c : Chain) : Chain :=
  if c.height = 0 then c
  else addrIndexSort (txIndexSort (rebuildTo P c c.height.toNat))

/-- `ac_chain_open` on a directory that has a `meta.bin`. -/
def openExisting (d : DataDir) (metaBuf : Bytes) : Option Chain :=
  match metaLoad metaBuf with
  | none => none
  | some m =>
      match d.stateBin with
      | none => none
      | some buf =>
          let r := acStateDeserialize (acStateNew m.chainId) buf
          if r.1 then some (txIndexRebuild P (Chain.ofMeta d m r.2)) else none

/-- `ac_chain_open`; the writes are those of a genesis. -/
def acChainOpen (w : Writes) (d : DataDir) (g : Option Genesis) : Option Chain :=
  match d.metaBin with
  | some metaBuf => openExisting P d metaBuf
  | none =>
      match g with
      | none => none
      | some g =>
          let r := chainApplyGenesis P w d g
          if r.1 then some (txIndexRebuild P r.2) else none

end Genesis

/-! ### What opening yields -/

section Opened

variable {P : Platform}

/-- The stored part of a chain: what is left when cache, indexes and liveness map are
zeroed. -/
def Chain.core (c : Chain) : Chain :=
  { c with
    cached := none
    txIndex := []
    txIndexSorted := false
    addrIndex := []
    addrIndexSorted := false
    liveMap := [] }

/-- `meta_load` reads what `meta_save` wrote. -/
lemma metaLoad_metaBytes (m : Meta) : metaLoad (metaBytes m) = some m := by
  have hflat : metaBytes m = ascii "AGCH:META:v1" ++ (acBe8 1 ++ (acBe64 m.chainId ++
      (acBe64 m.height ++ (m.tipHash.bytes ++ (acBe64 m.lastSlot ++ (acBe64 m.lastTimestampMs ++
      (acBe64 m.baseFee ++ (acBe64 m.genesisTimestampMs ++ [])))))))) := by
    simp [metaBytes, acBe8, beEncode]
  have hlen : ¬ (metaBytes m).length < (ascii "AGCH:META:v1").length + 1 + 8 * 6 + 32 := by
    simp [hflat, acBe8, acBe64]
  have hmagic : memcmp (ascii "AGCH:META:v1") (ascii "AGCH:META:v1") = .eq :=
    Std.ReflOrd.compare_self (α := Bytes)
  rw [metaLoad]
  dsimp only
  rw [if_neg hlen, hflat, List.take_left, List.drop_left, if_neg (not_not.mpr hmagic)]
  simp only [acBe8, acBe64, rgetU8_append, rgetU64_append, rgetArr_append, ne_eq,
    not_true_eq_false, if_false]

lemma rebuildBlock_core (c : Chain) (h : UInt64) : (rebuildBlock P c h).core = c.core := by
  rw [rebuildBlock]
  cases blockRead c.dir h with
  | none => rfl
  | some b =>
    dsimp only
    split_ifs
    · rfl
    · rfl

/-- Rebuilding the indexes leaves the stored part alone. -/
lemma rebuildTo_core (c : Chain) (n : ℕ) : (rebuildTo P c n).core = c.core := by
  induction n with
  | zero => rfl
  | succ n ih => rw [rebuildTo, rebuildBlock_core, ih]

lemma txIndexSort_core (c : Chain) : (txIndexSort c).core = c.core := by
  rw [txIndexSort]
  split_ifs
  · rfl
  · rfl

lemma addrIndexSort_core (c : Chain) : (addrIndexSort c).core = c.core := by
  rw [addrIndexSort]
  split_ifs
  · rfl
  · rfl

lemma txIndexRebuild_core (c : Chain) : (txIndexRebuild P c).core = c.core := by
  rw [txIndexRebuild]
  split_ifs
  · rfl
  · rw [addrIndexSort_core, txIndexSort_core, rebuildTo_core]

/-- At height zero there is nothing to rebuild. -/
lemma txIndexRebuild_of_height_zero {c : Chain} (h : c.height = 0) : txIndexRebuild P c = c :=
  if_pos h

/-- A genesis that succeeds has written all three files. -/
lemma chainApplyGenesis_true {w : Writes} {d : DataDir} {g : Genesis}
    (h : (chainApplyGenesis P w d g).1 = true) :
    ∃ buf, acStateSerialize P (genesisState g) = some buf ∧
      (chainApplyGenesis P w d g).2 = genesisChain P d g buf := by
  rw [chainApplyGenesis] at h ⊢
  cases hser : acStateSerialize P (genesisState g) with
  | none =>
    simp only [hser] at h
    split_ifs at h
  | some buf =>
    refine ⟨buf, rfl, ?_⟩
    simp only [hser] at h ⊢
    split_ifs at h ⊢
    rfl

/-- **Opening without a `meta.bin`** yields the genesis chain. -/
theorem acChainOpen_genesis {w : Writes} {d : DataDir} {g : Genesis} {c : Chain}
    (hd : d.metaBin = none) (h : acChainOpen P w d (some g) = some c) :
    ∃ buf, acStateSerialize P (genesisState g) = some buf ∧ c = genesisChain P d g buf := by
  rw [acChainOpen, hd] at h
  dsimp only at h
  split_ifs at h with hr
  obtain ⟨buf, hbuf, hc⟩ := chainApplyGenesis_true hr
  have hheight : (genesisChain P d g buf).height = 0 := rfl
  rw [hc, txIndexRebuild_of_height_zero hheight, Option.some.injEq] at h
  exact ⟨buf, hbuf, h.symm⟩

/-- **Reopening** a directory whose `meta.bin` and `state.bin` are those of a chain yields the
stored part of the chain with rebuilt indexes. -/
theorem acChainOpen_existing (hP : P.MallocBounded) {w : Writes} {c : Chain} {buf : Bytes}
    {g : Option Genesis} (hmeta : c.dir.metaBin = some (metaBytes c.toMeta))
    (hstate : c.dir.stateBin = some buf) (hbuf : acStateSerialize P c.state = some buf)
    (hid : c.state.chainId = c.chainId) :
    acChainOpen P w c.dir g = some (txIndexRebuild P c.core) := by
  have hdes : acStateDeserialize (acStateNew c.toMeta.chainId) buf = (true, c.state) :=
    acStateDeserialize_serialize hP hbuf hid.symm
  rw [acChainOpen.eq_def, hmeta]
  dsimp only
  rw [openExisting, metaLoad_metaBytes, hstate]
  dsimp only
  rw [hdes, if_pos rfl]
  rfl

end Opened

end AgentChain
