import AgentChain.Apply
import Mathlib.Data.List.Sort

/-!
# The chain and its data directory

A chain is the state in memory together with the tip it belongs to, and a data directory
with one file per block, `state.bin` and `meta.bin`.  This file has the record, the files and
everything that only reads them: the liveness map, the stake sums, the epoch seeds, the
reward and the base fee.
-/

namespace AgentChain

/-! ### Files -/

/-- The data directory: the files `blocks/<height>.blk`, `state.bin` and `meta.bin`. -/
structure DataDir where
  blocks : UInt64 → Option Bytes
  stateBin : Option Bytes
  metaBin : Option Bytes

/-- A directory without files. -/
def DataDir.empty : DataDir := ⟨fun _ => none, none, none⟩

/-- `block_write` when the write succeeds. -/
def DataDir.putBlock (d : DataDir) (b : Block) : DataDir :=
  { d with blocks := Function.update d.blocks b.header.height (some (blockBytes b)) }

/-- `block_read` -/
def blockRead (d : DataDir) (h : UInt64) : Option Block := do
  let buf ← d.blocks h
  let r ← acBlockDecode buf
  return r.1

/-- Reading a block looks at the block files only. -/
lemma blockRead_congr {d e : DataDir} (h : d.blocks = e.blocks) (k : UInt64) :
    blockRead d k = blockRead e k := by
  rw [blockRead, blockRead, h]

/-- A block that was written is read back. -/
@[simp] theorem blockRead_putBlock (d : DataDir) (b : Block) :
    blockRead (d.putBlock b) b.header.height = some b := by
  have hdec := acBlockDecode_encoded b
  simp [blockRead, DataDir.putBlock, hdec]

/-- Writing a block leaves the other block files alone. -/
theorem blockRead_putBlock_of_ne (d : DataDir) {b : Block} {h : UInt64}
    (hne : h ≠ b.header.height) : blockRead (d.putBlock b) h = blockRead d h := by
  simp [blockRead, DataDir.putBlock, Function.update_of_ne hne]

/-! ### The chain record -/

/-- `tx_index_entry_t` -/
structure TxIndexEntry where
  hash : Hash
  height : UInt64
  txIdx : UInt32
deriving DecidableEq

/-- `addr_index_entry_t`; the role is 0 for the sender and 1 for the recipient. -/
structure AddrIndexEntry where
  addr : Addr
  height : UInt64
  txIdx : UInt32
  role : UInt8
deriving DecidableEq

/-- `live_entry_t` -/
structure LiveEntry where
  addr : Addr
  lastSignHeight : UInt64
deriving DecidableEq

/-- `AC_LIVENESS_WINDOW` -/
def acLivenessWindow : UInt64 := 16

/-- `AC_MAX_LIVE` -/
def acMaxLive : ℕ := 256

/-- `ac_chain_t`; the cached epoch and seed are one optional pair. -/
structure Chain where
  dir : DataDir
  state : AcState
  chainId : UInt64
  height : UInt64
  tipHash : Hash
  lastSlot : UInt64
  lastTimestampMs : UInt64
  baseFee : UInt64
  genesisTimestampMs : UInt64
  cached : Option (UInt64 × Hash)
  txIndex : List TxIndexEntry
  txIndexSorted : Bool
  addrIndex : List AddrIndexEntry
  addrIndexSorted : Bool
  liveMap : List LiveEntry

/-- `ac_chain_get_header_by_height` -/
def acChainGetHeaderByHeight (c : Chain) (h : UInt64) : Option BlockHeader :=
  (blockRead c.dir h).map Block.header

section Hashing

variable (P : Platform)

/-- `ac_chain_get_block_hash` -/
def acChainGetBlockHash (c : Chain) (h : UInt64) : Option Hash :=
  if h = c.height then some c.tipHash
  else (acChainGetHeaderByHeight c h).map (acBlockHash P)

/-! ### Indexes -/

/-- `tx_index_add` for every transaction of the block at a height. -/
def txIndexAddAll (c : Chain) (height : UInt64) (txs : List Tx) : Chain :=
  { c with
    txIndex := c.txIndex ++ txs.mapIdx fun i tx => ⟨acTxHash P tx, height, UInt32.ofNat i⟩
    txIndexSorted := c.txIndexSorted && txs.isEmpty }

/-- The entries of `addr_index_record_tx`: the sender, and the recipient of a transfer to
somebody else. -/
def addrIndexEntries (tx : Tx) (height : UInt64) (idx : UInt32) : List AddrIndexEntry :=
  let recipient : Addr := ByteArr.ofBytes 32 tx.body
  ⟨tx.sender, height, idx, 0⟩ ::
    if TxKind.ofCode tx.kind = some .transfer ∧ 32 ≤ tx.body.length ∧ recipient ≠ tx.sender then
      [⟨recipient, height, idx, 1⟩]
    else []

/-- `addr_index_record_tx` for every transaction of the block at a height. -/
def addrIndexRecordAll (c : Chain) (height : UInt64) (txs : List Tx) : Chain :=
  { c with
    addrIndex := c.addrIndex ++ (txs.mapIdx fun i tx =>
      addrIndexEntries tx height (UInt32.ofNat i)).flatten
    addrIndexSorted := c.addrIndexSorted && txs.isEmpty }

end Hashing

/-! ### The liveness map -/

/-- `live_record_signer`: raise the height of the first entry of the address, or append an
entry while there is room. -/
def liveRecord : List LiveEntry → ℕ → Addr → UInt64 → List LiveEntry
  | [], room, a, h => if 0 < room then [⟨a, h⟩] else []
  | e :: es, room, a, h =>
      if e.addr = a then
        (if e.lastSignHeight < h then { e with lastSignHeight := h } else e) :: es
      else e :: liveRecord es (room - 1) a h

/-- `live_record_signer` -/
def liveRecordSigner (m : List LiveEntry) (a : Addr) (h : UInt64) : List LiveEntry :=
  liveRecord m acMaxLive a h

/-- The loop that records the signers of a certificate. -/
def liveRecordSigners (m : List LiveEntry) (signers : List CommitSigner) (h : UInt64) :
    List LiveEntry :=
  signers.foldl (fun m s => liveRecordSigner m s.signer h) m

/-- `live_is_within_window` -/
def liveIsWithinWindow (height last : UInt64) : Bool :=
  if last = 0 ∧ height < acLivenessWindow then true
  else if last = 0 then false
  else if height ≤ last then true
  else decide (height - last < acLivenessWindow)

/-! ### Stake sums -/

/-- The sum of `ac_chain_total_sqrt_stake` over the active validators. -/
def totalSqrtStake (s : AcState) : UInt64 :=
  s.accounts.foldl
    (fun sum a => if a.stake < acMinStakeUcrd then sum else sum + acIsqrtU64 a.stake) 0

/-- `ac_chain_total_sqrt_stake` -/
def acChainTotalSqrtStake (c : Chain) : UInt64 := totalSqrtStake c.state

/-- `ac_chain_active_count` -/
def acChainActiveCount (c : Chain) : ℕ :=
  c.state.accounts.countP fun a => !decide (a.stake < acMinStakeUcrd)

/-- Whether `ac_chain_live_sqrt_stake` counts an entry of the liveness map. -/
def liveCounts (s : AcState) (height : UInt64) (e : LiveEntry) : Bool :=
  liveIsWithinWindow height e.lastSignHeight && (acStateGet s e.addr).1 &&
    !decide ((acStateGet s e.addr).2.stake < acMinStakeUcrd)

/-- `ac_chain_live_sqrt_stake`; without a counted entry it is the total. -/
def acChainLiveSqrtStake (c : Chain) : UInt64 :=
  let counted := c.liveMap.filter (liveCounts c.state c.height)
  if counted.isEmpty then acChainTotalSqrtStake c
  else counted.foldl (fun sum e => sum + acIsqrtU64 (acStateGet c.state e.addr).2.stake) 0

/-! ### Time, reward and fee -/

/-- `ac_chain_slot_time_ms` -/
def acChainSlotTimeMs (c : Chain) (slot : UInt64) : UInt64 :=
  c.genesisTimestampMs + slot * acSlotDurationMs

/-- `ac_chain_current_slot` at clock `now`. -/
def acChainCurrentSlot (now : UInt64) (c : Chain) : UInt64 :=
  if now < c.genesisTimestampMs then 0 else (now - c.genesisTimestampMs) / acSlotDurationMs

/-- `ac_epoch_of` -/
def acEpochOf (slot : UInt64) : UInt64 := slot / acEpochSlots

/-- `ac_chain_block_reward`: 2M CRD a year for ten years, then 0.5M. -/
def acChainBlockReward (height : UInt64) : UInt64 :=
  let slotsPerYear : UInt64 := 15778800
  let annual : UInt64 := if height / slotsPerYear < 10 then 2000000 * 1000000
    else 500000 * 1000000
  annual / slotsPerYear

/-- `ac_chain_next_base_fee`, with the signed 64-bit arithmetic of the source. -/
def acChainNextBaseFee (prevBaseFee gasUsed gasLimit : UInt64) : UInt64 :=
  let target := gasLimit / 2
  if gasUsed = target then prevBaseFee
  else
    let diff := gasUsed.toInt64 - target.toInt64
    let step (d : UInt64) : UInt64 :=
      let v := prevBaseFee * d / target / 8
      if v = 0 then 1 else v
    let delta := if 0 ≤ diff then (step diff.toUInt64).toInt64
      else -(step (-diff).toUInt64).toInt64
    let next := prevBaseFee.toInt64 + delta
    if next < acMinBaseFee.toInt64 then acMinBaseFee else next.toUInt64

/-- `SYS_REWARD_POOL` -/
def sysRewardPool : Addr := ByteArr.ofBytes 32 [0x52, 0x57, 0x44, 0x50]

/-! ### Seeds and sortition -/

section Sortition

variable (P : Platform)

/-- `compute_genesis_seed` -/
def computeGenesisSeed (chainId ts : UInt64) : Hash :=
  acHashMulti P [ascii "AGCH:GENESIS:v1", acBe64 chainId ++ acBe64 ts]

/-- The loop of `compute_epoch_seed`: the last height whose slot lies before the epoch, zero
when there is none, `none` when a header cannot be read. -/
def scanBack (c : Chain) (epochStart : UInt64) : ℕ → Option ℕ
  | 0 => some 0
  | h + 1 =>
      match acChainGetHeaderByHeight c (UInt64.ofNat (h + 1)) with
      | none => none
      | some hdr => if hdr.slot < epochStart then some (h + 1) else scanBack c epochStart h

/-- The header that `compute_epoch_seed` takes the seed from; `none` stands for the
fallback to the genesis seed. -/
def seedHeader (c : Chain) (epochStart : UInt64) : Option BlockHeader :=
  match scanBack c epochStart c.height.toNat with
  | none => none
  | some 0 =>
      match acChainGetHeaderByHeight c 0 with
      | none => none
      | some hdr => if c.height = 0 ∨ hdr.slot < epochStart then some hdr else none
  | some h => acChainGetHeaderByHeight c (UInt64.ofNat h)

/-- `compute_epoch_seed` -/
def computeEpochSeed (c : Chain) (epoch : UInt64) : Hash :=
  if epoch = 0 then computeGenesisSeed P c.chainId c.genesisTimestampMs
  else
    match seedHeader c (epoch * acEpochSlots) with
    | none => computeGenesisSeed P c.chainId c.genesisTimestampMs
    | some hdr => acHashMulti P [ascii "AGCH:SEED", hdr.proposerVrfProof.bytes]

/-- `ac_chain_epoch_seed`: the seed, and the chain with the seed cached. -/
def acChainEpochSeed (c : Chain) (epoch : UInt64) : Hash × Chain :=
  match c.cached with
  | some (e, seed) =>
      if e = epoch then (seed, c)
      else (computeEpochSeed P c epoch,
        { c with cached := some (epoch, computeEpochSeed P c epoch) })
  | none => (computeEpochSeed P c epoch,
      { c with cached := some (epoch, computeEpochSeed P c epoch) })

/-- The scan reads the headers up to its starting height only. -/
lemma scanBack_congr {c d : Chain} (epochStart : UInt64) {n : ℕ}
    (hhead : ∀ k ≤ n, acChainGetHeaderByHeight d (UInt64.ofNat k) =
      acChainGetHeaderByHeight c (UInt64.ofNat k)) :
    scanBack d epochStart n = scanBack c epochStart n := by
  induction n with
  | zero => rfl
  | succ n ih =>
    rw [scanBack, scanBack, hhead (n + 1) le_rfl, ih fun k hk => hhead k (by omega)]

lemma scanBack_le {c : Chain} {epochStart : UInt64} {n k : ℕ}
    (h : scanBack c epochStart n = some k) : k ≤ n := by
  induction n with
  | zero => exact (Option.some.inj h).ge
  | succ n ih =>
    rw [scanBack] at h
    split at h
    · exact absurd h (by simp)
    · split_ifs at h
      · exact (Option.some.inj h).ge
      · exact (ih h).trans n.le_succ

/-- Two chains with the same headers up to their height have the same seeds. -/
theorem computeEpochSeed_congr {c d : Chain} (hheight : d.height = c.height)
    (hid : d.chainId = c.chainId) (hts : d.genesisTimestampMs = c.genesisTimestampMs)
    (hhead : ∀ k ≤ c.height.toNat, acChainGetHeaderByHeight d (UInt64.ofNat k) =
      acChainGetHeaderByHeight c (UInt64.ofNat k)) (epoch : UInt64) :
    computeEpochSeed P d epoch = computeEpochSeed P c epoch := by
  have hseed : ∀ start, seedHeader d start = seedHeader c start := by
    intro start
    rw [seedHeader, seedHeader, hheight, scanBack_congr start hhead]
    cases hscan : scanBack c start c.height.toNat with
    | none => rfl
    | some k =>
      cases k with
      | zero =>
        have h0 : acChainGetHeaderByHeight d 0 = acChainGetHeaderByHeight c 0 :=
          hhead 0 (Nat.zero_le _)
        rw [h0]
        rfl
      | succ k => exact hhead (k + 1) (scanBack_le hscan)
  rw [computeEpochSeed, computeEpochSeed, hid, hts, hseed]

/-- `leader_alpha` -/
def leaderAlpha (seed : Hash) (slot : UInt64) : Bytes :=
  ascii "AGCH:LEADER" ++ seed.bytes ++ acBe64 slot

/-- `committee_alpha` -/
def committeeAlpha (seed : Hash) (slot : UInt64) : Bytes :=
  ascii "AGCH:COMMITTEE" ++ seed.bytes ++ acBe64 slot

/-- `committee_eligible` -/
def committeeEligible (draw sqrtStake totalSqrt : UInt64) : Bool :=
  if totalSqrt = 0 ∨ sqrtStake = 0 then false else P.committeeDraw draw sqrtStake totalSqrt

end Sortition

end AgentChain
