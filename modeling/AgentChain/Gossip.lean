import AgentChain.Consensus
import AgentChain.Lib.Ring

/-!
# Incoming messages

`dispatch_message` hands the messages of a peer to the callbacks of the node.  Announcements of
blocks and transactions and commit votes are gossip: each is handled and passed on only once, by
the hash of its payload, of which the last 256 are remembered.  Answers to a request are handled
every time.

A gossip message counts as seen as soon as it has come in, whatever its handler makes of it.
-/

namespace AgentChain

/-- The message types of `net.h`; others are ignored. -/
inductive MsgType where
  | hello
  | headersReq
  | headersRes
  | blockReq
  | blockRes
  | blockAnn
  | txAnn
  | commitVote
  | ping
  | pong
deriving DecidableEq, Repr

/-- A message with its payload. -/
structure Frame where
  type : MsgType
  payload : Bytes
deriving DecidableEq

/-- What is sent in the course of a call. -/
inductive Outgoing where
  /-- Passed on to all peers but the one it came from. -/
  | relay (f : Frame)
  /-- Broadcast by the engine. -/
  | own (m : Msg)
  /-- Sent back to the peer. -/
  | reply (f : Frame)

/-- `AC_DEDUP_CAP` -/
def acDedupCap : ℕ := 256

/-- The hashes of the gossip messages that came in last, and the engine behind the callbacks. -/
structure Inbox where
  dedup : Ring Hash acDedupCap
  cs : Consensus

/-- `ac_net_new` -/
def Inbox.initial (cs : Consensus) : Inbox := ⟨.empty (ByteArr.fill 32 0) (by decide), cs⟩

/-- `ac_rd32` -/
def acRd32 (bs : Bytes) : UInt32 := UInt32.ofNat (beDecode (bs.take 4))

/-- `ac_chain_get_block_by_height` -/
def acChainGetBlockByHeight (c : Chain) (h : UInt64) : Option Block :=
  if c.height < h then none else blockRead c.dir h

/-- `on_headers_req_cb`: the blocks that are sent back. -/
def onHeadersReq (c : Chain) (fromHeight : UInt64) (count : UInt32) : List Frame :=
  if count = 0 then []
  else
    let count := if 256 < count then 256 else count
    if c.height < fromHeight then []
    else
      let count := if c.height + 1 < fromHeight + count.toUInt64 then
        (c.height + 1 - fromHeight).toUInt32 else count
      (List.range count.toNat).filterMap fun i =>
        (acChainGetBlockByHeight c (fromHeight + UInt64.ofNat i)).map fun b =>
          ⟨.blockRes, blockBytes b⟩

section Dispatch

variable (P : Platform)

/-- The three gossip cases of `dispatch_message`, with the callback of the type. -/
def gossip (n : Inbox) (f : Frame) (callback : Consensus → Consensus × List Msg) :
    Inbox × List Outgoing :=
  let h := acHash P f.payload
  if n.dedup.has h then (n, [])
  else
    let r := callback n.cs
    (⟨n.dedup.push h, r.1⟩, r.2.map .own ++ [.relay f])

/-- `dispatch_message`.  The callback of a transaction only concerns the mempool. -/
def dispatchMessage (env : Env) (n : Inbox) (f : Frame) : Inbox × List Outgoing :=
  match f.type with
  | .blockAnn => gossip P n f fun cs => acConsensusHandleBlock P env cs f.payload
  | .txAnn => gossip P n f fun cs => (cs, [])
  | .commitVote => gossip P n f fun cs => acConsensusHandleVote P env cs f.payload
  | .headersReq =>
      if f.payload.length < 12 then (n, [])
      else (n, (onHeadersReq n.cs.chain (acRd64 f.payload) (acRd32 (f.payload.drop 8))).map .reply)
  | .blockReq =>
      if f.payload.length < 8 then (n, [])
      else (n, (onHeadersReq n.cs.chain (acRd64 f.payload) 1).map .reply)
  | .blockRes =>
      let r := acConsensusHandleBlock P env n.cs f.payload
      (⟨n.dedup, r.1⟩, r.2.map .own)
  | .ping => (n, [.reply ⟨.pong, f.payload⟩])
  | .hello => (n, [])
  | .headersRes => (n, [])
  | .pong => (n, [])

end Dispatch

/-- The announcement of a block. -/
def blockFrame (b : Block) : Frame := ⟨.blockAnn, blockBytes b⟩

/-- The message of a vote. -/
def voteFrame (v : Vote) : Frame := ⟨.commitVote, voteEncode v⟩

section Handlers

variable {P : Platform} {env : Env} {n : Inbox}

lemma acConsensusHandleBlock_blockBytes (cs : Consensus) (b : Block) :
    acConsensusHandleBlock P env cs (blockBytes b) = handleBlock P env cs b := by
  have hdecode := acBlockDecode_encoded b
  rw [acConsensusHandleBlock, hdecode]

lemma acConsensusHandleVote_voteEncode (cs : Consensus) (v : Vote) :
    acConsensusHandleVote P env cs (voteEncode v) = handleVote P env cs v := by
  rw [acConsensusHandleVote, voteDecode_voteEncode]

lemma gossip_fst (f : Frame) (callback : Consensus → Consensus × List Msg) :
    (gossip P n f callback).1 = if n.dedup.has (acHash P f.payload) then n
      else ⟨n.dedup.push (acHash P f.payload), (callback n.cs).1⟩ :=
  apply_ite Prod.fst _ _ _

/-- A block that is announced. -/
lemma dispatchMessage_blockFrame (env : Env) (n : Inbox) (b : Block) :
    (dispatchMessage P env n (blockFrame b)).1 =
    if n.dedup.has (acHash P (blockBytes b)) then n
    else ⟨n.dedup.push (acHash P (blockBytes b)), (handleBlock P env n.cs b).1⟩ := by
  rw [← acConsensusHandleBlock_blockBytes]
  exact gossip_fst (blockFrame b) _

/-- A vote that comes in. -/
lemma dispatchMessage_voteFrame (env : Env) (n : Inbox) (v : Vote) :
    (dispatchMessage P env n (voteFrame v)).1 =
    if n.dedup.has (acHash P (voteEncode v)) then n
    else ⟨n.dedup.push (acHash P (voteEncode v)), (handleVote P env n.cs v).1⟩ := by
  rw [← acConsensusHandleVote_voteEncode]
  exact gossip_fst (voteFrame v) _

end Handlers

end AgentChain
