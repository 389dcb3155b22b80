import AgentChain.Chain

/-!
# Accepting a block

`ac_chain_accept_block` checks the header against the tip, applies the block to the state in
place, checks the results and the commit certificate, and then writes three files.  Every
rejection behind the first transaction restores the state from a snapshot.  The clock and
the outcome of each file write are arguments, so that a run can choose them at every call.
-/

namespace AgentChain

/-- `ac_accept_t` -/
inductive AcceptRc where
  | ok
  | dup
  | badHeader
  | badParent
  | badTime
  | badProposer
  | badTx
  | badStateRoot
  | badCommit
  | badGas
  | future
  | internal
deriving DecidableEq, Repr

/-- Whether the writes of the block file, `state.bin` and `meta.bin` succeed. -/
structure Writes where
  block : Bool
  state : Bool
  metaFile : Bool
deriving DecidableEq

/-- All writes succeed. -/
def Writes.all : Writes := ⟨true, true, true⟩

section Accept

variable (P : Platform)

/-! ### Header checks -/

/-- The checks of version, height and parent. -/
def checkLink (c : Chain) (h : BlockHeader) : Option AcceptRc :=
  if h.version ≠ acBlockVersion then some .badHeader
  else if h.height = 0 then some .dup
  else if h.height ≤ c.height then
    match acChainGetBlockHash P c h.height with
    | some hash => if hash = acBlockHash P h then some .dup else some .badParent
    | none => some .badParent
  else if h.height ≠ c.height + 1 then some .badParent
  else if h.parentHash ≠ c.tipHash then some .badParent
  else none

/-- The checks of slot, timestamp and gas limit; the window around the start of the slot is
compared in signed arithmetic. -/
def checkTime (now : UInt64) (c : Chain) (h : BlockHeader) : Option AcceptRc :=
  let slotStart := (acChainSlotTimeMs c h.slot).toInt64
  if h.slot ≤ c.lastSlot then some .badTime
  else if h.timestampMs.toInt64 < slotStart - 3000 ∨ slotStart + 3000 < h.timestampMs.toInt64 then
    some .badTime
  else if now + 1500 < h.timestampMs then some .future
  else if h.gasLimit ≠ acBlockGasLimit then some .badHeader
  else none

/-- `validate_proposer_vrf`, with the chain whose seed cache it may fill. -/
def validateProposerVrf (c : Chain) (h : BlockHeader) : Bool × Chain :=
  let acc := acStateGet c.state h.proposer
  if !acc.1 then (false, c)
  else if acc.2.stake < acMinStakeUcrd then (false, c)
  else
    let seed := acChainEpochSeed P c (acEpochOf h.slot)
    ((acVrfVerify P h.proposerVrfProof (leaderAlpha seed.1 h.slot) h.proposer).isSome, seed.2)

/-- The base fee that the next block is expected to have. -/
def expectedBaseFee (c : Chain) : UInt64 :=
  if 1 ≤ c.height then
    match acChainGetHeaderByHeight c c.height with
    | some prev => acChainNextBaseFee prev.baseFee prev.gasUsed prev.gasLimit
    | none => acChainNextBaseFee c.baseFee 0 acBlockGasLimit
  else acMinBaseFee

/-- The check of the base fee, with a tolerance of one. -/
def checkBaseFee (c : Chain) (h : BlockHeader) : Option AcceptRc :=
  if h.baseFee < acMinBaseFee then some .badHeader
  else if h.baseFee + 1 < expectedBaseFee c ∨ expectedBaseFee c + 1 < h.baseFee then
    some .badHeader
  else none

/-- All checks before the snapshot is taken, and the chain with its seed cache. -/
def checkHeader (now : UInt64) (c : Chain) (h : BlockHeader) : Option AcceptRc × Chain :=
  match checkLink P c h with
  | some rc => (some rc, c)
  | none =>
      match checkTime now c h with
      | some rc => (some rc, c)
      | none =>
          let v := validateProposerVrf P c h
          if v.1 then (checkBaseFee v.2 h, v.2) else (some .badProposer, v.2)

/-! ### Transactions -/

/-- The variables of the transaction loop. -/
structure TxLoop where
  ok : Bool
  totalGas : UInt64
  totalTips : UInt64
  state : AcState

/-- The transaction loop. -/
def applyTxs (slot baseFee : UInt64) : List Tx → TxLoop → TxLoop
  | [], l => l
  | tx :: txs, l =>
      if !acTxVerify P tx then { l with ok := false }
      else
        let r := acStateApplyTx P l.state tx slot baseFee
        if r.1 = .rejected then { l with ok := false, state := r.2.2 }
        else
          let l := ⟨l.ok, l.totalGas + r.2.1.gasUsed, l.totalTips + r.2.1.feeTip, r.2.2⟩
          if acBlockGasLimit < l.totalGas then { l with ok := false }
          else applyTxs slot baseFee txs l

/-- The loop over the transactions of a block, from the state before it. -/
def runTxs (s : AcState) (b : Block) : TxLoop :=
  applyTxs P b.header.slot b.header.baseFee b.txs ⟨true, 0, 0, s⟩

/-- Reward and tips go to the proposer, and the pool is debited by the reward. -/
def payReward (s : AcState) (proposer : Addr) (height tips : UInt64) : AcState :=
  acStateDebit (acStateCredit s proposer (acChainBlockReward height + tips)) sysRewardPool
    (acChainBlockReward height)

/-- The state after the block. -/
def postState (s : AcState) (b : Block) : AcState :=
  let l := runTxs P s b
  payReward l.state b.header.proposer b.header.height l.totalTips

/-! ### The commit certificate -/

/-- The table of `ac_chain_accept_block` with the stake of every signer before the block. -/
def preSignerTable (s : AcState) (signers : List CommitSigner) : List (Addr × UInt64) :=
  signers.map fun g => (g.signer, (acStateGet s g.signer).2.stake)

/-- `ac_chain__pre_stake_lookup`: the first entry of the signer, zero without one. -/
def preStakeLookup (table : List (Addr × UInt64)) (signer : Addr) : UInt64 :=
  ((table.find? fun e => e.1 = signer).map Prod.snd).getD 0

/-- The checks that `validate_commit` makes for one signer of stake `stake`. -/
def signerOk (calpha vmsg : Bytes) (preTotalSqrt stake : UInt64) (g : CommitSigner) : Bool :=
  if stake < acMinStakeUcrd then false
  else
    match acVrfVerify P g.vrfProof calpha g.signer with
    | none => false
    | some beta =>
        committeeEligible P (acRd64 beta.bytes) (acIsqrtU64 stake) preTotalSqrt &&
          acVerify P g.sig vmsg g.signer

/-- The signer loop of `validate_commit`: the signed square roots, `none` when a signer does
not pass.  A signer that is listed twice is counted twice. -/
def signedSqrt (calpha vmsg : Bytes) (preTotalSqrt : UInt64) (preStakeOf : Addr → UInt64) :
    List CommitSigner → UInt64 → Option UInt64
  | [], sum => some sum
  | g :: gs, sum =>
      if signerOk P calpha vmsg preTotalSqrt (preStakeOf g.signer) g then
        signedSqrt calpha vmsg preTotalSqrt preStakeOf gs
          (sum + acIsqrtU64 (preStakeOf g.signer))
      else none

/-- The two thresholds of `validate_commit`: two thirds of the live weight and more than half
of the total. -/
def thresholdsMet (signed liveSqrt preTotalSqrt : UInt64) : Bool :=
  let live := if liveSqrt = 0 then preTotalSqrt else liveSqrt
  !decide (signed * 3 < live * 2) && !decide (signed * 2 ≤ preTotalSqrt)

/-- `validate_commit`, on a chain that holds the state after the block. -/
def validateCommit (c : Chain) (b : Block) (blockHash : Hash) (preTotalSqrt : UInt64)
    (preStakeOf : Addr → UInt64) : Bool × Chain :=
  if b.signers.isEmpty then (false, c)
  else if preTotalSqrt = 0 then (false, c)
  else
    let seed := acChainEpochSeed P c (acEpochOf b.header.slot)
    match signedSqrt P (committeeAlpha seed.1 b.header.slot)
        (acVoteMessage b.header.height blockHash) preTotalSqrt preStakeOf b.signers 0 with
    | none => (false, seed.2)
    | some signed => (thresholdsMet signed (acChainLiveSqrtStake seed.2) preTotalSqrt, seed.2)

/-! ### Files -/

/-- The fields of `meta.bin`. -/
structure Meta where
  chainId : UInt64
  height : UInt64
  tipHash : Hash
  lastSlot : UInt64
  lastTimestampMs : UInt64
  baseFee : UInt64
  genesisTimestampMs : UInt64
deriving DecidableEq

/-- The fields that `meta_save` writes. -/
def Chain.toMeta (c : Chain) : Meta :=
  ⟨c.chainId, c.height, c.tipHash, c.lastSlot, c.lastTimestampMs, c.baseFee, c.genesisTimestampMs⟩

/-- `meta.bin` -/
@[irreducible]
def metaBytes (m : Meta) : Bytes :=
  ascii "AGCH:META:v1" ++ [1] ++ acBe64 m.chainId ++ acBe64 m.height ++ m.tipHash.bytes ++
    acBe64 m.lastSlot ++ acBe64 m.lastTimestampMs ++ acBe64 m.baseFee ++
    acBe64 m.genesisTimestampMs

/-- `meta_save` when the write succeeds. -/
def Chain.saveMeta (c : Chain) : Chain :=
  { c with dir := { c.dir with metaBin := some (metaBytes c.toMeta) } }

/-- The tip fields that a committed block sets. -/
def Chain.advance (c : Chain) (h : BlockHeader) (blockHash : Hash) : Chain :=
  { c with
    height := h.height
    tipHash := blockHash
    lastSlot := h.slot
    lastTimestampMs := h.timestampMs
    baseFee := h.baseFee }

/-- What follows the last write: liveness map, indexes and seed cache. -/
def recordBlock (c : Chain) (b : Block) : Chain :=
  let c := { c with liveMap := liveRecordSigners c.liveMap b.signers b.header.height }
  { txIndexAddAll P (addrIndexRecordAll c b.header.height b.txs) b.header.height b.txs with
    cached := none }

/-- The three writes.  A failed write returns at once and undoes nothing. -/
def persist (w : Writes) (c : Chain) (b : Block) (blockHash : Hash) : AcceptRc × Chain :=
  if !w.block then (.internal, c)
  else
    let c := { c with dir := c.dir.putBlock b }
    match acStateSerialize P c.state with
    | none => (.internal, c)
    | some buf =>
        if !w.state then (.internal, c)
        else
          let c := { c with dir := { c.dir with stateBin := some buf } }
          let c := c.advance b.header blockHash
          if !w.metaFile then (.internal, c) else (.ok, recordBlock P c.saveMeta b)

/-! ### The whole function -/

/-- `ac_state_deserialize` of the snapshot into the state of the chain. -/
def Chain.rollback (c : Chain) (snap : Bytes) : Chain :=
  { c with state := (acStateDeserialize c.state snap).2 }

/-- The part of `ac_chain_accept_block` behind the snapshot. -/
def execBlock (w : Writes) (c : Chain) (b : Block) (snap : Bytes) : AcceptRc × Chain :=
  let l := runTxs P c.state b
  let ran := { c with state := l.state }
  if !l.ok then (.badTx, ran.rollback snap)
  else if l.totalGas ≠ b.header.gasUsed then (.badGas, ran.rollback snap)
  else if acBlockTxRoot P b.txs ≠ b.header.txRoot then (.badTx, ran.rollback snap)
  else
    let post := { c with state := postState P c.state b }
    if acStateRoot P post.state ≠ b.header.stateRoot then (.badStateRoot, post.rollback snap)
    else
      let blockHash := acBlockHash P b.header
      let v := validateCommit P post b blockHash (acChainTotalSqrtStake c)
        (preStakeLookup (preSignerTable c.state b.signers))
      if v.1 then persist P w v.2 b blockHash else (.badCommit, v.2.rollback snap)

/-- `ac_chain_accept_block` at clock `now` with write outcomes `w`. -/
def acChainAcceptBlock (now : UInt64) (w : Writes) (c : Chain) (b : Block) : AcceptRc × Chain :=
  match checkHeader P now c b.header with
  | (some rc, c) => (rc, c)
  | (none, c) =>
      match acStateSerialize P c.state with
      | none => (.internal, c)
      | some snap => execBlock P w c b snap

end Accept

end AgentChain
