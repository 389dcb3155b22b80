import AgentChain.Gossip

/-!
# Peers and their outgoing queues

The peer table of `net.c`.  Whoever sends puts a copy of the message into the queue of the peer;
a message that the queue does not take shuts the connection down.  A queue takes no message
beyond the size of a frame and is bounded in its number of messages and of bytes.
-/

namespace AgentChain

/-- `AC_MAX_PEERS` -/
def acMaxPeers : ℕ := 64

/-- `AC_FRAME_MAX_BYTES` -/
def acFrameMaxBytes : ℕ := 4 * 1024 * 1024

/-- `AC_OUT_QUEUE_MAX_BYTES` -/
def acOutQueueMaxBytes : ℕ := 4 * 1024 * 1024

/-- `AC_OUT_QUEUE_MAX_MSGS` -/
def acOutQueueMaxMsgs : ℕ := 2048

/-- A string in a `char[128]`, without the NUL behind it.  Host names are only written by
`snprintf` and into zeroed memory. -/
structure HostName where
  bytes : Bytes
  length_lt : bytes.length < 128
  no_nul : 0 ∉ bytes

/-- The queue of a peer.  The counters `out_msgs` and `out_bytes` are changed together with the
list, and are computed from it here. -/
structure Outbox where
  queue : List Frame
  closing : Bool

/-- `out_msgs` -/
def Outbox.outMsgs (o : Outbox) : ℕ := o.queue.length

/-- `out_bytes` -/
def Outbox.outBytes (o : Outbox) : ℕ := (o.queue.map fun f => f.payload.length).sum

/-- `peer_t`; `shut` says whether the enqueue side has shut the connection down. -/
structure Peer where
  inUse : Bool
  fd : ℤ
  peerId : Addr
  peerIdKnown : Bool
  host : HostName
  port : UInt16
  out : Outbox
  shut : Bool

lemma length_nil_lt : ([] : Bytes).length < 128 := by decide

/-- No address. -/
def HostName.empty : HostName := ⟨[], length_nil_lt, List.not_mem_nil⟩

/-- A slot in the memory of `calloc`. -/
def Peer.zeroed : Peer :=
  ⟨false, 0, ByteArr.fill 32 0, false, .empty, 0, ⟨[], false⟩, false⟩

/-- The peers of `ac_net_t`. -/
abbrev PeerTable := Fin acMaxPeers → Peer

/-- `peer_enqueue`; `mallocOk` says whether memory could be had. -/
def peerEnqueue (mallocOk : Bool) (o : Outbox) (f : Frame) : Option Outbox :=
  if acFrameMaxBytes - 2 < f.payload.length then none
  else if o.closing then none
  else if acOutQueueMaxMsgs < o.outMsgs + 1 ∨
      acOutQueueMaxBytes < o.outBytes + f.payload.length then
    none
  else if !mallocOk then none
  else some { o with queue := o.queue ++ [f] }

/-- Put a message into the queue of a peer, or shut its connection down. -/
def Peer.deliver (mallocOk : Bool) (p : Peer) (f : Frame) : Peer :=
  match peerEnqueue mallocOk p.out f with
  | some o => { p with out := o }
  | none => { p with shut := true }

/-- Whether messages are sent to the peer. -/
def Peer.active (p : Peer) : Bool := p.inUse && p.peerIdKnown && decide (0 ≤ p.fd)

/-- `ac_net_broadcast` -/
def acNetBroadcast (mallocOk : Fin acMaxPeers → Bool) (peers : PeerTable) (f : Frame)
    (exclude : Option Addr) : PeerTable := fun i =>
  if !(peers i).active then peers i
  else if exclude = some (peers i).peerId then peers i
  else (peers i).deliver (mallocOk i) f

/-- The peer that a message to a key goes to: the first active one with the key. -/
def PeerTable.routeTo (peers : PeerTable) (peerId : Addr) : Option (Fin acMaxPeers) :=
  (List.finRange acMaxPeers).find? fun i => (peers i).active && decide ((peers i).peerId = peerId)

/-- `ac_net_send_to` -/
def acNetSendTo (mallocOk : Bool) (peers : PeerTable) (f : Frame) (peerId : Addr) : PeerTable :=
  match peers.routeTo peerId with
  | none => peers
  | some i => Function.update peers i ((peers i).deliver mallocOk f)

/-- An empty queue that is open. -/
def Outbox.Fresh (o : Outbox) : Prop := o.queue = [] ∧ o.closing = false

/-- **An empty open queue takes exactly what fits into a frame.** -/
lemma peerEnqueue_fresh {o : Outbox} (h : o.Fresh) (f : Frame) :
    peerEnqueue true o f = none ↔ acFrameMaxBytes - 2 < f.payload.length := by
  have hmsgs : o.outMsgs = 0 := by rw [Outbox.outMsgs, h.1]; rfl
  have hbytes : o.outBytes = 0 := by rw [Outbox.outBytes, h.1]; rfl
  rw [peerEnqueue, h.2, hmsgs, hbytes]
  by_cases hlong : acFrameMaxBytes - 2 < f.payload.length
  · rw [if_pos hlong]
    exact iff_of_true rfl hlong
  · have hroom : ¬ (acOutQueueMaxMsgs < 0 + 1 ∨ acOutQueueMaxBytes < 0 + f.payload.length) := by
      simp only [acFrameMaxBytes, acOutQueueMaxMsgs, acOutQueueMaxBytes] at hlong ⊢
      omega
    rw [if_neg hlong, if_neg Bool.false_ne_true, if_neg hroom, if_neg (by simp)]
    exact iff_of_false (by simp) hlong

/-- A peer with an empty open queue whose connection is up. -/
structure Peer.Idle (p : Peer) : Prop where
  fresh : p.out.Fresh
  up : p.shut = false

/-- The connection of an idle peer is shut down by what is too long, and only by that. -/
lemma Peer.Idle.deliver_shut {p : Peer} (h : p.Idle) (f : Frame) :
    (p.deliver true f).shut = true ↔ acFrameMaxBytes - 2 < f.payload.length := by
  rw [← peerEnqueue_fresh h.fresh f, Peer.deliver]
  cases peerEnqueue true p.out f with
  | none => simp
  | some o => simp [h.up]

section Routes

variable {peers : PeerTable} {i : Fin acMaxPeers}

/-- A broadcast reaches every active peer but the one that is excluded. -/
lemma acNetBroadcast_shut (h : (peers i).Idle) (hactive : (peers i).active = true)
    {exclude : Option Addr} (hother : exclude ≠ some (peers i).peerId) (f : Frame) :
    (acNetBroadcast (fun _ => true) peers f exclude i).shut = true ↔
      acFrameMaxBytes - 2 < f.payload.length := by
  rw [acNetBroadcast, if_neg (by simp [hactive]), if_neg hother]
  exact h.deliver_shut f

/-- A message to a key reaches the peer on its route. -/
lemma acNetSendTo_shut (h : (peers i).Idle) {peerId : Addr} (hroute : peers.routeTo peerId = some i)
    (f : Frame) : (acNetSendTo true peers f peerId i).shut = true ↔
      acFrameMaxBytes - 2 < f.payload.length := by
  rw [acNetSendTo, hroute]
  dsimp only
  rw [Function.update_self]
  exact h.deliver_shut f

end Routes

end AgentChain
