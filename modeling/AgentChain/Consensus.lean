import AgentChain.Pending

/-!
# The consensus engine

A translation of `consensus.c`.  Every function that holds the lock of the engine is one
function from the record to the record, with the messages that it broadcasts; the chain
behind the engine is a field of the record, since only the engine commits to it.  What a call
reads from outside, the clock and the outcome of its file writes, is its argument `Env`.
-/

namespace AgentChain

/-- What a call finds: the readings of the clock, by the place that takes them, and the
outcome of the writes of `ac_chain_accept_block`. -/
structure Env where
  /-- in `pending_alloc` and for the rate of requests -/
  seenMs : UInt64
  /-- in `try_commit_inner` -/
  sealMs : UInt64
  /-- in `ac_chain_current_slot` -/
  wallMs : UInt64
  /-- in `ac_chain_accept_block` -/
  acceptMs : UInt64
  writes : Writes

/-- A broadcast message with its payload. -/
inductive Msg where
  | headersReq (payload : Bytes)
  | blockRes (payload : Bytes)
  | blockAnn (payload : Bytes)
  | commitVote (payload : Bytes)
deriving DecidableEq

/-- `ac_consensus_t` -/
structure Consensus where
  chain : Chain
  kp : Keypair
  validator : Bool
  pending : PendingTable
  slotVotes : SlotVotes
  lastHdrsReqMs : UInt64
  lastHdrsReqTarget : UInt64
  voteHeight : UInt64
  voteBlock : Hash
  votePriority : Priority

/-- `ac_consensus_new` -/
def acConsensusNew (c : Chain) (kp : Keypair) (validator : Bool) : Consensus where
  chain := c
  kp := kp
  validator := validator
  pending _ := none
  slotVotes _ := ⟨0, ByteArr.fill 16 0, ByteArr.fill 32 0, false⟩
  lastHdrsReqMs := 0
  lastHdrsReqTarget := 0
  voteHeight := 0
  voteBlock := ByteArr.fill 32 0
  votePriority := ByteArr.fill 16 0

/-- Write an entry of the table of proposals. -/
def Consensus.put (cs : Consensus) (i : Fin 8) (p : Pending) : Consensus :=
  { cs with pending := Function.update cs.pending i (some p) }

section Engine

variable (P : Platform)

/-! ### Sortition -/

/-- `am_i_leader`: the proof when the node may propose in the slot.  The output of the proof
that was just made is computed without the check that it verifies. -/
def amILeader (c : Chain) (kp : Keypair) (slot : UInt64) : Option VrfProof × Chain :=
  let me := acStateGet c.state kp.pk
  if !me.1 ∨ me.2.stake < acMinStakeUcrd then (none, c)
  else
    let seed := acChainEpochSeed P c (acEpochOf slot)
    let proof := acVrfProve P (leaderAlpha seed.1 slot) kp
    let nactive := acChainActiveCount c
    if nactive = 0 then (none, seed.2)
    else if P.leaderDraw (acRd64 (vrfComputeBeta P proof).bytes) nactive then (some proof, seed.2)
    else (none, seed.2)

/-- `am_i_committee`: the proof when the node is in the committee of the slot. -/
def amICommittee (c : Chain) (kp : Keypair) (slot : UInt64) : Option VrfProof × Chain :=
  let me := acStateGet c.state kp.pk
  if !me.1 ∨ me.2.stake < acMinStakeUcrd then (none, c)
  else
    let seed := acChainEpochSeed P c (acEpochOf slot)
    let proof := acVrfProve P (committeeAlpha seed.1 slot) kp
    if committeeEligible P (acRd64 (vrfComputeBeta P proof).bytes) (acIsqrtU64 me.2.stake)
        (acChainTotalSqrtStake c) then
      (some proof, seed.2)
    else (none, seed.2)

/-! ### Voting and sealing -/

/-- `our_vote_now` on an entry. -/
def ourVoteNow (cs : Consensus) (i : Fin 8) (p : Pending) : Consensus × List Msg :=
  match amICommittee P cs.chain cs.kp p.slot with
  | (none, c) => ({ cs with chain := c }, [])
  | (some cproof, c) =>
      let sig := acSign P (acVoteMessage p.height p.blockHash) cs.kp
      let sv := slotVoteFor cs.slotVotes p.slot
      let cs := { cs with
        chain := c
        slotVotes := Function.update sv.2 sv.1 { sv.2 sv.1 with
          voted := true
          votedBlock := p.blockHash
          bestPriority := p.priority } }
      (cs.put i (p.addSigner ⟨cs.kp.pk, sig, cproof⟩),
        [.commitVote (voteEncode ⟨p.height, p.blockHash, cs.kp.pk, sig, cproof⟩)])

/-- `AC_SEAL_GRACE_MS` -/
def acSealGraceMs : UInt64 := 300

/-- The weight of the signers that `try_commit_inner` adds up. -/
def collectedSqrt (s : AcState) (signers : List CommitSigner) : UInt64 :=
  signers.foldl (fun sum g =>
    if (acStateGet s g.signer).2.stake < acMinStakeUcrd then sum
    else sum + acIsqrtU64 (acStateGet s g.signer).2.stake) 0

/-- The two gates of `try_commit_inner`. -/
def enoughVotes (c : Chain) (signers : List CommitSigner) : Bool :=
  let total := acChainTotalSqrtStake c
  let live := if acChainLiveSqrtStake c = 0 then total else acChainLiveSqrtStake c
  let sum := collectedSqrt c.state signers
  decide (live ≠ 0) && !decide (sum * 3 < live * 2) && !decide (0 < total ∧ sum * 2 ≤ total)

/-- The block of an entry with the signers collected for it. -/
def Pending.certified (p : Pending) : Block := p.block.withSigners p.signers p.signers_le

/-- The block of an entry without signers. -/
def Pending.bare (p : Pending) : Block := p.block.withSigners [] (Nat.zero_le _)

/-- The end of `try_commit_inner`: hand the block to the chain, and announce it with its
certificate when it was committed. -/
def sealBlock (env : Env) (cs : Consensus) (i : Fin 8) (p : Pending) : Consensus × List Msg :=
  let r := acChainAcceptBlock P env.acceptMs env.writes cs.chain p.certified
  let cs := { cs with chain := r.2 }
  if r.1 = .ok ∨ r.1 = .dup then
    (cs.put i { p with committed := true, block := p.certified },
      [.blockAnn (blockBytes p.certified)])
  else (cs.put i { p with block := p.bare }, [])

/-- `try_commit_inner` -/
def tryCommitInner (env : Env) (cs : Consensus) (i : Fin 8) (force : Bool) :
    Consensus × List Msg :=
  match cs.pending i with
  | none => (cs, [])
  | some p =>
      if p.committed then (cs, [])
      else if !enoughVotes cs.chain p.signers then (cs, [])
      else
        let catchingUp := decide (p.slot + 1 < acChainCurrentSlot env.wallMs cs.chain)
        let p := if p.thresholdReachedMs = 0 then { p with thresholdReachedMs := env.sealMs } else p
        if !force && !catchingUp && decide (env.sealMs - p.thresholdReachedMs < acSealGraceMs) then
          (cs.put i p, [])
        else sealBlock P env cs i p

/-- `try_commit` -/
def tryCommit (env : Env) (cs : Consensus) (i : Fin 8) : Consensus × List Msg :=
  tryCommitInner P env cs i false

/-! ### Proposals from the network -/

/-- The entry of a proposal that was just seen. -/
def Pending.fresh (seen slot : UInt64) (b : Block) (priority : Priority) : Pending where
  committed := false
  height := b.header.height
  slot := slot
  blockHash := acBlockHash P b.header
  block := b.withSigners [] (Nat.zero_le _)
  signers := b.signers
  signers_le := b.signers_le
  firstSeenMs := seen
  priority := priority
  thresholdReachedMs := 0

/-- Put a proposal into the table, and note its priority for its slot. -/
def stash (cs : Consensus) (seen slot : UInt64) (b : Block) (priority : Priority) :
    Consensus × Fin 8 :=
  let i := pendingAlloc cs.pending
  let sv := slotVoteFor cs.slotVotes slot
  let best := if priorityCmp priority (sv.2 sv.1).bestPriority = .lt then priority
    else (sv.2 sv.1).bestPriority
  let cs := { cs with
    slotVotes := Function.update sv.2 sv.1 { sv.2 sv.1 with bestPriority := best } }
  (cs.put i (Pending.fresh P seen slot b priority), i)

/-- `AC_HDRS_REQ_MIN_INTERVAL_MS` -/
def acHdrsReqMinIntervalMs : UInt64 := 4000

/-- The request for the blocks that are missing below a future block. -/
def requestGap (env : Env) (cs : Consensus) (target : UInt64) : Consensus × List Msg :=
  let stale := decide (acHdrsReqMinIntervalMs ≤ env.seenMs - cs.lastHdrsReqMs)
  let gapGrew := decide (cs.lastHdrsReqTarget + 64 < target)
  if stale || gapGrew then
    let count := (target - cs.chain.height).toUInt32
    let count := if 256 < count then 256 else count
    ({ cs with lastHdrsReqMs := env.seenMs, lastHdrsReqTarget := target },
      [.headersReq (acBe64 (cs.chain.height + 1) ++ acBe32 count)])
  else (cs, [])

/-- `ac_consensus_handle_block` behind the decoder. -/
def handleBlock (env : Env) (cs : Consensus) (b : Block) : Consensus × List Msg :=
  if b.header.version ≠ acBlockVersion then (cs, [])
  else
    match pendingFind cs.pending (acBlockHash P b.header) with
    | some (i, p) => tryCommit P env (cs.put i (b.signers.foldl Pending.addSigner p)) i
    | none =>
        if cs.chain.height + 1 < b.header.height then requestGap env cs b.header.height
        else if b.header.height ≠ cs.chain.height + 1 ∨ b.header.parentHash ≠ cs.chain.tipHash then
          (cs, [])
        else
          let seed := acChainEpochSeed P cs.chain (acEpochOf b.header.slot)
          let cs := { cs with chain := seed.2 }
          match acVrfVerify P b.header.proposerVrfProof (leaderAlpha seed.1 b.header.slot)
              b.header.proposer with
          | none => (cs, [])
          | some beta =>
              let stake := (acStateGet cs.chain.state b.header.proposer).2.stake
              let r := stash P cs env.seenMs b.header.slot b
                (computePriority P beta (acIsqrtU64 stake))
              tryCommit P env r.1 r.2

/-- `ac_consensus_handle_block` -/
def acConsensusHandleBlock (env : Env) (cs : Consensus) (buf : Bytes) : Consensus × List Msg :=
  match acBlockDecode buf with
  | none => (cs, [])
  | some r => handleBlock P env cs r.1

/-! ### Votes from the network -/

/-- `ac_consensus_handle_vote` behind the decoder. -/
def handleVote (env : Env) (cs : Consensus) (v : Vote) : Consensus × List Msg :=
  if !acVerify P v.sig (acVoteMessage v.height v.blockHash) v.signer then (cs, [])
  else
    match pendingFind cs.pending v.blockHash with
    | none => (cs, [])
    | some (i, p) =>
        let seed := acChainEpochSeed P cs.chain (acEpochOf p.slot)
        let total := acChainTotalSqrtStake cs.chain
        let stake := (acStateGet cs.chain.state v.signer).2.stake
        let cs := { cs with chain := seed.2 }
        if stake < acMinStakeUcrd then (cs, [])
        else
          match acVrfVerify P v.vrfProof (committeeAlpha seed.1 p.slot) v.signer with
          | none => (cs, [])
          | some beta =>
              if !committeeEligible P (acRd64 beta.bytes) (acIsqrtU64 stake) total then (cs, [])
              else if p.signers.any fun s => s.signer = v.signer then (cs, [])
              else tryCommit P env (cs.put i (p.addSigner ⟨v.signer, v.sig, v.vrfProof⟩)) i

/-- `ac_consensus_handle_vote` -/
def acConsensusHandleVote (env : Env) (cs : Consensus) (buf : Bytes) : Consensus × List Msg :=
  match voteDecode buf with
  | none => (cs, [])
  | some v => handleVote P env cs v

/-! ### The phases of a slot -/

/-- The stashing part of `slot_routine`, for the block that was built and the proof of
`am_i_leader`.  When the seed of the epoch has changed since, the proof does not verify any
more and the output that the priority is computed from is never written; `junk` is what it
then holds. -/
def proposeBlock (env : Env) (junk : VrfOut) (cs : Consensus) (slot : UInt64) (b : Block) :
    Consensus × List Msg :=
  let stake := (acStateGet cs.chain.state cs.kp.pk).2.stake
  let seed := acChainEpochSeed P cs.chain (acEpochOf slot)
  let cs := { cs with chain := seed.2 }
  let beta := (acVrfVerify P b.header.proposerVrfProof (leaderAlpha seed.1 slot) cs.kp.pk).getD junk
  let r := stash P cs env.seenMs slot b (computePriority P beta (acIsqrtU64 stake))
  let t := tryCommit P env r.1 r.2
  (t.1, .blockAnn (blockBytes b) :: t.2)

/-- The block with another proof of its proposer. -/
def Block.withProof (b : Block) (proof : VrfProof) : Block :=
  { b with header := { b.header with proposerVrfProof := proof } }

/-- Whether `vote_phase` considers an entry. -/
def Pending.votable (p : Pending) (target : UInt64) : Bool := !p.committed && p.height == target

/-- The entry of the lowest priority at the height to be committed next. -/
def bestAt (t : PendingTable) (target : UInt64) : Option (Fin 8 × Pending) :=
  entryIdx.foldl (fun best i =>
    match t i with
    | none => best
    | some p =>
        if !p.votable target then best
        else
          match best with
          | none => some (i, p)
          | some (j, q) => if priorityCmp p.priority q.priority = .lt then some (i, p)
              else some (j, q))
    none

/-- `vote_phase` -/
def votePhase (env : Env) (cs : Consensus) (slot : UInt64) : Consensus × List Msg :=
  if !cs.validator then (cs, [])
  else
    let sv := slotVoteFor cs.slotVotes slot
    let cs := { cs with slotVotes := sv.2 }
    if (sv.2 sv.1).voted then (cs, [])
    else
      let target := cs.chain.height + 1
      match bestAt cs.pending target with
      | none => (cs, [])
      | some (i, best) =>
          if cs.voteHeight = target ∧ priorityCmp best.priority cs.votePriority ≠ .lt then
            match cs.pending.first fun q => q.votable target && q.blockHash == cs.voteBlock with
            | none => (cs, [])
            | some (j, q) =>
                let r := ourVoteNow P cs j q
                let t := tryCommit P env r.1 j
                (t.1, r.2 ++ t.2)
          else
            let r := ourVoteNow P cs i best
            let cs := { r.1 with
              voteHeight := target
              voteBlock := best.blockHash
              votePriority := best.priority }
            let t := tryCommit P env cs i
            (t.1, r.2 ++ t.2)

/-- One round of the loop of `seal_phase`. -/
def sealStep (env : Fin 8 → Env) (slot : UInt64) (r : Consensus × List Msg) (i : Fin 8) :
    Consensus × List Msg :=
  match r.1.pending i with
  | none => r
  | some p =>
      if p.slot ≠ slot ∨ p.committed then r
      else
        let t := tryCommitInner P (env i) r.1 i true
        (t.1, r.2 ++ t.2)

/-- `seal_phase`; each of its calls has readings and writes of its own. -/
def sealPhase (env : Fin 8 → Env) (cs : Consensus) (slot : UInt64) : Consensus × List Msg :=
  entryIdx.foldl (sealStep P env slot) (cs, [])

end Engine

end AgentChain
