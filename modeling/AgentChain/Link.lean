import AgentChain.FrameWire
import AgentChain.Hello
import AgentChain.Reference

/-!
# A connection

One direction of a connection, with everything that happens on it in any order.  The thread that
opens the connection writes the first message and starts the writer.  Other threads put messages
into the queue, the writer takes them out and writes them in parts of any size, the bytes travel,
and the reader of the other node takes them in pieces of any size.  Both ends can stop at any
time.

Whatever the order of these steps, the other node sees the messages that the queue has taken, in
their order, up to some point (`link_in_order`).  This rests on the first message: `send_hello`
may fail, and nobody looks at its result.
-/

namespace AgentChain

open Trace

/-- The two nodes, and the peer table of the first one at the time of its first message. -/
structure Ends where
  sender : NetConfig
  peers : PeerTable
  receiver : NetConfig

/-- The first message. -/
def Ends.hello (e : Ends) : RawFrame := ⟨MsgType.hello.code, sendHello e.sender e.peers⟩

/-- The thread that writes to the socket. -/
inductive Writer where
  /-- `send_hello`, before the writer is started -/
  | hello (rest : Bytes)
  /-- `writer_loop` waits for a message. -/
  | idle
  /-- `frame_send`, with the bytes that are still to be written -/
  | sending (rest : Bytes)
  | exited

/-- What is still to be written. -/
def Writer.rest : Writer → Bytes
  | .hello rest => rest
  | .sending rest => rest
  | _ => []

/-- A return of `ac_sock_send`. -/
def Writer.advance (k : ℕ) : Writer → Writer
  | .hello rest => .hello (rest.drop k)
  | .sending rest => .sending (rest.drop k)
  | w => w

/-- Where `reader_loop` stands. -/
inductive ReaderLoop where
  | awaitHello
  | steady (peerId : Addr)
  | stopped

/-- One direction of a connection; `wire` is what was written and not yet read. -/
structure Link where
  out : Outbox
  writer : Writer
  wire : Bytes
  reader : FrameReader
  loop : ReaderLoop

/-- What can be observed. -/
inductive LinkEvent where
  /-- `peer_enqueue` has returned 0. -/
  | accepted (f : Frame)
  /-- `send_hello` has failed. -/
  | helloCut
  /-- `frame_recv` has refused a header. -/
  | malformed
  /-- `dispatch_message` is called. -/
  | dispatched (f : RawFrame)
deriving DecidableEq

/-- The messages that the queue has taken. -/
def acceptedFrames (es : List LinkEvent) : List Frame :=
  es.filterMap fun ev =>
    match ev with
    | .accepted f => some f
    | _ => none

/-- The messages that were dispatched. -/
def dispatchedFrames (es : List LinkEvent) : List RawFrame :=
  es.filterMap fun ev =>
    match ev with
    | .dispatched f => some f
    | _ => none

/-- The checks of `reader_loop` on the first frame: the key of the peer. -/
def handshake (cfg : NetConfig) (f : RawFrame) : Option Addr :=
  if f.type ≠ MsgType.hello.code then none
  else
    match parseHello f.payload 128 acHelloPeerMax with
    | some (some h) =>
        if h.chainId ≠ cfg.chainId then none
        else if h.peerId = cfg.keypair.pk then none
        else some h.peerId
    | _ => none

/-- The connection when `send_hello` is called. -/
def Link.start (e : Ends) : Link :=
  ⟨⟨[], false⟩, .hello (frameBytes e.hello), [], .header [], .awaitHello⟩

/-- `reader_loop`, when `ac_sock_recv` returns the first `k` bytes on the wire. -/
def Link.receive (e : Ends) (mallocOk : Bool) (l : Link) (k : ℕ) : Link × List LinkEvent :=
  let r := l.reader.feed mallocOk (l.wire.take k)
  let l' := { l with wire := l.wire.drop k, reader := r.1 }
  match r.2 with
  | .waiting => (l', [])
  | .malformed => ({ l' with loop := .stopped }, [.malformed])
  | .noMemory => ({ l' with loop := .stopped }, [])
  | .frame f =>
      match l.loop with
      | .awaitHello =>
          match handshake e.receiver f with
          | none => ({ l' with reader := .closed, loop := .stopped }, [])
          | some peerId => ({ l' with loop := .steady peerId }, [])
      | .steady _ => (l', [.dispatched f])
      | .stopped => (l', [])

/-- A step of one of the threads. -/
inductive Link.Step (e : Ends) : Link → List LinkEvent → Link → Prop
  /-- `peer_enqueue` in any thread -/
  | enqueued (l : Link) (mallocOk : Bool) (f : Frame) (out : Outbox)
      (h : peerEnqueue mallocOk l.out f = some out) :
      Link.Step e l [.accepted f] { l with out := out }
  /-- `out_closing` is set, by whoever gives the connection up. -/
  | closing (l : Link) : Link.Step e l [] { l with out := { l.out with closing := true } }
  /-- A part of the frame is written. -/
  | written (l : Link) (k : ℕ) :
      Link.Step e l [] { l with
        writer := l.writer.advance k
        wire := l.wire ++ l.writer.rest.take k }
  /-- `frame_send` has written everything. -/
  | sent (l : Link) (hw : l.writer ≠ .exited) (hrest : l.writer.rest = []) :
      Link.Step e l [] { l with writer := .idle }
  /-- `send_hello` fails, and the writer is started all the same. -/
  | helloCut (l : Link) (rest : Bytes) (hw : l.writer = .hello rest) :
      Link.Step e l [.helloCut] { l with writer := .idle }
  /-- `writer_loop` takes the next message. -/
  | dequeued (l : Link) (f : Frame) (queue : List Frame) (bytes : Bytes) (hw : l.writer = .idle)
      (hopen : l.out.closing = false) (hqueue : l.out.queue = f :: queue)
      (hsend : frameSend f.raw = some bytes) :
      Link.Step e l [] { l with writer := .sending bytes, out := { l.out with queue := queue } }
  /-- `writer_loop` ends, in the middle of a frame when a write fails, and drops the queue. -/
  | exited (l : Link) : Link.Step e l [] { l with writer := .exited, out := ⟨[], true⟩ }
  /-- `ac_sock_recv` returns. -/
  | received (l : Link) (mallocOk : Bool) (k : ℕ) (hk : k ≤ l.wire.length)
      (htakes : l.reader.Takes (l.wire.take k)) :
      Link.Step e l (l.receive e mallocOk k).2 (l.receive e mallocOk k).1
  /-- `reader_loop` ends, and what was on the way is lost. -/
  | stopped (l : Link) :
      Link.Step e l [] { l with wire := [], reader := .closed, loop := .stopped }

/-! ### What every step keeps -/

/-- What was written and is not yet part of a received frame, and what is still to be written. -/
def Link.inFlight (l : Link) : Bytes := l.reader.part ++ l.wire ++ l.writer.rest

/-- What `reader_loop` has made of the frames that were received. -/
def ReaderLoop.Took (e : Ends) (received : List RawFrame) (es : List LinkEvent) : ReaderLoop → Prop
  | .awaitHello => received = [] ∧ dispatchedFrames es = []
  | .steady peerId =>
      received = e.hello :: dispatchedFrames es ∧ handshake e.receiver e.hello = some peerId
  | .stopped => dispatchedFrames es = received.tail

/-- The frames that the writer has begun to write and those that were received, with the bytes
between them. -/
structure Link.Inv (e : Ends) (es : List LinkEvent) (l : Link) (sent received : List RawFrame) :
    Prop where
  fits : ∀ f ∈ sent, f.Fits
  queueFits : ∀ f ∈ l.out.queue, f.raw.Fits
  inOrder : sent <+: e.hello :: (acceptedFrames es).map Frame.raw
  queued : l.writer ≠ .exited →
    sent ++ l.out.queue.map Frame.raw = e.hello :: (acceptedFrames es).map Frame.raw
  got : received <+: sent
  reading : l.loop ≠ .stopped → l.reader.Open
  closed : l.loop = .stopped → l.reader = .closed
  stream : l.loop ≠ .stopped → received.flatMap frameBytes ++ l.inFlight <+: sent.flatMap frameBytes
  whole : l.loop ≠ .stopped → l.writer ≠ .exited →
    received.flatMap frameBytes ++ l.inFlight = sent.flatMap frameBytes
  took : l.loop.Took e received es
  clean : .malformed ∉ es

section Keeps

variable {e : Ends} {es new : List LinkEvent} {l l' : Link} {sent received : List RawFrame}
  {f : Frame} {k : ℕ} {mallocOk : Bool}

lemma acceptedFrames_append (es new : List LinkEvent) :
    acceptedFrames (es ++ new) = acceptedFrames es ++ acceptedFrames new :=
  List.filterMap_append

lemma dispatchedFrames_append (es new : List LinkEvent) :
    dispatchedFrames (es ++ new) = dispatchedFrames es ++ dispatchedFrames new :=
  List.filterMap_append

lemma Writer.rest_advance (w : Writer) (k : ℕ) : (w.advance k).rest = w.rest.drop k := by
  cases w with
  | hello rest => rfl
  | idle => exact List.drop_nil.symm
  | sending rest => rfl
  | exited => exact List.drop_nil.symm

lemma Writer.advance_exited {w : Writer} (k : ℕ) (h : w.advance k ≠ .exited) : w ≠ .exited := by
  rintro rfl
  exact h rfl

/-- Only the dispatched frames matter. -/
lemma ReaderLoop.Took.congr {loop : ReaderLoop} {es' : List LinkEvent}
    (h : loop.Took e received es) (hdis : dispatchedFrames es' = dispatchedFrames es) :
    loop.Took e received es' := by
  cases loop with
  | awaitHello => exact ⟨h.1, hdis.trans h.2⟩
  | steady peerId => exact ⟨by rw [hdis]; exact h.1, h.2⟩
  | stopped => exact hdis.trans h

/-- The reader can stop at any time. -/
lemma ReaderLoop.Took.stop {loop : ReaderLoop} (h : loop.Took e received es) :
    ReaderLoop.stopped.Took e received es := by
  cases loop with
  | awaitHello =>
    obtain ⟨rfl, hdis⟩ := h
    exact hdis
  | steady peerId =>
    obtain ⟨rfl, -⟩ := h
    rfl
  | stopped => exact h

/-- What it means that the queue takes a message. -/
lemma peerEnqueue_some {o out : Outbox} (h : peerEnqueue mallocOk o f = some out) :
    f.raw.Fits ∧ out = { o with queue := o.queue ++ [f] } ∧
      out.outMsgs ≤ acOutQueueMaxMsgs ∧ out.outBytes ≤ acOutQueueMaxBytes := by
  rw [peerEnqueue] at h
  split_ifs at h with hlong hclosing hroom hmem
  obtain rfl := Option.some.inj h
  rw [not_or, not_lt, not_lt] at hroom
  refine ⟨not_lt.mp hlong, rfl, ?_, ?_⟩
  · rw [Outbox.outMsgs, List.length_append]
    exact hroom.1
  · rw [Outbox.outBytes, List.map_append, List.sum_append]
    exact hroom.2

lemma frameSend_some {g : RawFrame} {bytes : Bytes} (h : frameSend g = some bytes) :
    bytes = frameBytes g := by
  rw [frameSend] at h
  split_ifs at h
  exact (Option.some.inj h).symm

/-- The first message may be sent. -/
lemma hello_fits (e : Ends) : e.hello.Fits := by
  have hhead := length_helloHead e.sender
  have hhost := e.sender.externalHost.length_lt
  have hle : (advertisedPeers e.peers).length ≤ 8 := List.length_take_le _ _
  have hpeers : ((advertisedPeers e.peers).flatMap peerField).length ≤
      (advertisedPeers e.peers).length * 162 := by
    rw [List.length_flatMap]
    refine (List.sum_le_card_nsmul _ 162 ?_).trans_eq (by rw [List.length_map, smul_eq_mul])
    intro n hn
    obtain ⟨q, -, rfl⟩ := List.mem_map.mp hn
    have hq := q.host.length_lt
    rw [length_peerField]
    omega
  have hlen : (sendHello e.sender e.peers).length ≤ 1500 := by
    rw [sendHello_eq, List.length_append, List.length_cons]
    omega
  exact hlen.trans (by decide)

/-- The connection at the start. -/
lemma Link.inv_start (e : Ends) : Link.Inv e [] (.start e) [e.hello] [] where
  fits := by
    intro f hf
    rw [List.mem_singleton.mp hf]
    exact hello_fits e
  queueFits := by simp [Link.start]
  inOrder := List.prefix_refl _
  queued _ := rfl
  got := List.nil_prefix
  reading _ := Nat.zero_lt_succ 5
  closed h := by cases h
  stream _ := by
    rw [List.flatMap_singleton]
    exact List.prefix_refl _
  whole _ _ := by
    rw [List.flatMap_singleton]
    rfl
  took := ⟨rfl, rfl⟩
  clean := List.not_mem_nil

lemma Link.Inv.enqueued (h : Link.Inv e es l sent received) {out : Outbox}
    (henq : peerEnqueue mallocOk l.out f = some out) :
    Link.Inv e (es ++ [.accepted f]) { l with out := out } sent received := by
  obtain ⟨hfits, rfl, -, -⟩ := peerEnqueue_some henq
  have hacc : acceptedFrames (es ++ [.accepted f]) = acceptedFrames es ++ [f] :=
    acceptedFrames_append ..
  have hdis : dispatchedFrames (es ++ [.accepted f]) = dispatchedFrames es :=
    (dispatchedFrames_append ..).trans (List.append_nil _)
  refine { h with queueFits := ?_, inOrder := ?_, queued := fun hw => ?_, took := ?_, clean := ?_ }
  · intro g hg
    rcases List.mem_append.mp hg with hold | hnew
    · exact h.queueFits g hold
    · rwa [List.mem_singleton.mp hnew]
  · rw [hacc, List.map_append, ← List.cons_append]
    exact h.inOrder.trans (List.prefix_append ..)
  · rw [hacc, List.map_append, List.map_append, ← List.append_assoc, h.queued hw,
      List.cons_append]
  · exact h.took.congr hdis
  · simpa using h.clean

lemma Link.Inv.written (h : Link.Inv e es l sent received) (k : ℕ) :
    Link.Inv e es { l with writer := l.writer.advance k, wire := l.wire ++ l.writer.rest.take k }
      sent received := by
  have hflight : ({ l with
      writer := l.writer.advance k, wire := l.wire ++ l.writer.rest.take k } : Link).inFlight =
      l.inFlight := by
    simp only [Link.inFlight, Writer.rest_advance, List.append_assoc, List.take_append_drop]
  refine { h with queued := fun hw => ?_, stream := fun hl => ?_, whole := fun hl hw => ?_ }
  · exact h.queued (Writer.advance_exited k hw)
  · rw [hflight]
    exact h.stream hl
  · rw [hflight]
    exact h.whole hl (Writer.advance_exited k hw)

lemma Link.Inv.sentAll (h : Link.Inv e es l sent received) (hw : l.writer ≠ .exited)
    (hrest : l.writer.rest = []) :
    Link.Inv e es { l with writer := .idle } sent received := by
  have hflight : ({ l with writer := .idle } : Link).inFlight = l.inFlight := by
    rw [Link.inFlight, Link.inFlight, hrest]
    rfl
  refine { h with queued := fun _ => h.queued hw, stream := fun hl => ?_, whole := fun hl _ => ?_ }
  · rw [hflight]
    exact h.stream hl
  · rw [hflight]
    exact h.whole hl hw

lemma Link.Inv.dequeued (h : Link.Inv e es l sent received) {queue : List Frame} {bytes : Bytes}
    (hw : l.writer = .idle) (hqueue : l.out.queue = f :: queue)
    (hsend : frameSend f.raw = some bytes) :
    Link.Inv e es { l with writer := .sending bytes, out := { l.out with queue := queue } }
      (sent ++ [f.raw]) received := by
  obtain rfl := frameSend_some hsend
  have hidle : l.writer ≠ .exited := by
    rw [hw]
    simp
  have hfits : f.raw.Fits := h.queueFits f (by rw [hqueue]; exact List.mem_cons_self)
  have hall : sent ++ [f.raw] ++ queue.map Frame.raw =
      e.hello :: (acceptedFrames es).map Frame.raw := by
    rw [← h.queued hidle, hqueue, List.map_cons, List.append_assoc]
    rfl
  have hwhole : l.loop ≠ .stopped → received.flatMap frameBytes ++ ({ l with
      writer := .sending (frameBytes f.raw)
      out := { l.out with queue := queue } } : Link).inFlight =
      (sent ++ [f.raw]).flatMap frameBytes := by
    intro hl
    have hold := h.whole hl hidle
    rw [Link.inFlight, hw] at hold
    rw [List.flatMap_append, List.flatMap_singleton, ← hold]
    simp only [Link.inFlight, Writer.rest, List.append_assoc, List.append_nil]
  refine { h with
    fits := ?_, queueFits := ?_, inOrder := ⟨_, hall⟩, queued := fun _ => hall
    got := h.got.trans (List.prefix_append ..)
    stream := fun hl => ?_, whole := fun hl _ => hwhole hl }
  · intro g hg
    rcases List.mem_append.mp hg with hold | hnew
    · exact h.fits g hold
    · rwa [List.mem_singleton.mp hnew]
  · exact fun g hg => h.queueFits g (by rw [hqueue]; exact List.mem_cons_of_mem _ hg)
  · rw [hwhole hl]

lemma Link.Inv.exited (h : Link.Inv e es l sent received) :
    Link.Inv e es { l with writer := .exited, out := ⟨[], true⟩ } sent received := by
  refine { h with
    queueFits := by simp, queued := fun hw => absurd rfl hw, stream := fun hl => ?_
    whole := fun _ hw => absurd rfl hw }
  refine List.IsPrefix.trans ?_ (h.stream hl)
  refine ⟨l.writer.rest, ?_⟩
  simp only [Link.inFlight, Writer.rest, List.append_assoc, List.append_nil]

lemma Link.Inv.stop (h : Link.Inv e es l sent received) (wire : Bytes) :
    Link.Inv e es { l with wire := wire, reader := .closed, loop := .stopped } sent received := by
  refine { h with
    reading := fun hl => absurd rfl hl, closed := fun _ => rfl, stream := fun hl => absurd rfl hl
    whole := fun hl => absurd rfl hl, took := h.took.stop }

/-- What a piece leaves behind it. -/
lemma Link.inFlight_cut (l : Link) (k : ℕ) : l.inFlight =
    l.reader.part ++ l.wire.take k ++ (l.wire.drop k ++ l.writer.rest) := by
  rw [Link.inFlight, List.append_assoc _ (l.wire.take k), ← List.append_assoc (l.wire.take k),
    List.take_append_drop, List.append_assoc]

/-- The frame that a piece completes is the next one that was sent. -/
lemma Link.Inv.next_sent (h : Link.Inv e es l sent received) (hl : l.loop ≠ .stopped)
    {g : RawFrame} (hfits : g.Fits) (hbytes : frameBytes g = l.reader.part ++ l.wire.take k) :
    received ++ [g] <+: sent ∧ (received ++ [g]).flatMap frameBytes ++
      (l.wire.drop k ++ l.writer.rest) = received.flatMap frameBytes ++ l.inFlight := by
  have hcut : (received ++ [g]).flatMap frameBytes ++ (l.wire.drop k ++ l.writer.rest) =
      received.flatMap frameBytes ++ l.inFlight := by
    rw [List.flatMap_append, List.flatMap_singleton, hbytes, l.inFlight_cut k]
    simp only [List.append_assoc]
  have hall : ∀ x ∈ received ++ [g], x.Fits := by
    intro x hx
    rcases List.mem_append.mp hx with hold | hnew
    · exact h.fits x (h.got.subset hold)
    · rwa [List.mem_singleton.mp hnew]
  have hstream := h.stream hl
  rw [← hcut] at hstream
  obtain ⟨rest, hrest, -⟩ := frameBytes_prefixFree.split hall h.fits hstream
  exact ⟨⟨rest, hrest.symm⟩, hcut⟩

/-- The header of a frame that was sent is not refused. -/
lemma Link.Inv.not_malformed (h : Link.Inv e es l sent received) (hl : l.loop ≠ .stopped)
    (hlen : (l.reader.part ++ l.wire.take k).length = 6) :
    checkFrameHeader (l.reader.part ++ l.wire.take k) ≠ none := by
  have hstream := h.stream hl
  rw [l.inFlight_cut k] at hstream
  obtain ⟨rest, hrest, hpart⟩ := frameBytes_prefixFree.split
    (fun x hx => h.fits x (h.got.subset hx)) h.fits hstream
  refine checkFrameHeader_of_prefix (fun x hx => h.fits x ?_) hlen
    ((List.prefix_append ..).trans hpart)
  rw [hrest]
  exact List.mem_append_right _ hx

/-- A piece that completes no frame. -/
lemma Link.Inv.waited (h : Link.Inv e es l sent received) (hl : l.loop ≠ .stopped)
    {r : FrameReader} (hopen : r.Open) (hpart : r.part = l.reader.part ++ l.wire.take k) :
    Link.Inv e es { l with wire := l.wire.drop k, reader := r } sent received := by
  have hflight : ({ l with wire := l.wire.drop k, reader := r } : Link).inFlight = l.inFlight := by
    rw [l.inFlight_cut k, ← hpart, Link.inFlight, List.append_assoc]
  refine { h with
    reading := fun _ => hopen, closed := fun hs => absurd hs hl, stream := fun _ => ?_
    whole := fun _ hw => ?_ }
  · rw [hflight]
    exact h.stream hl
  · rw [hflight]
    exact h.whole hl hw

/-- A piece that completes a frame, when `reader_loop` goes on. -/
lemma Link.Inv.framed (h : Link.Inv e es l sent received) (hl : l.loop ≠ .stopped)
    {g : RawFrame} (hfits : g.Fits) (hbytes : frameBytes g = l.reader.part ++ l.wire.take k)
    {loop : ReaderLoop} (hloop : loop ≠ .stopped)
    (hacc : acceptedFrames new = []) (hclean : .malformed ∉ new)
    (htook : loop.Took e (received ++ [g]) (es ++ new)) :
    Link.Inv e (es ++ new) { l with wire := l.wire.drop k, reader := .header [], loop := loop } sent
      (received ++ [g]) := by
  obtain ⟨hgot, hcut⟩ := h.next_sent hl hfits hbytes
  have hsame : acceptedFrames (es ++ new) = acceptedFrames es := by
    rw [acceptedFrames_append, hacc, List.append_nil]
  refine { h with
    inOrder := by rw [hsame]; exact h.inOrder, queued := by rw [hsame]; exact h.queued, got := hgot
    reading := fun _ => Nat.zero_lt_succ 5, closed := fun hs => absurd hs hloop
    stream := fun _ => ?_, whole := fun _ hw => ?_, took := htook, clean := ?_ }
  · exact hcut ▸ h.stream hl
  · exact hcut.trans (h.whole hl hw)
  · rw [List.mem_append, not_or]
    exact ⟨h.clean, hclean⟩

/-- `reader_loop` takes a frame. -/
lemma Link.Inv.receive (h : Link.Inv e es l sent received) (mallocOk : Bool)
    (htakes : l.reader.Takes (l.wire.take k)) :
    ∃ received', Link.Inv e (es ++ (l.receive e mallocOk k).2) (l.receive e mallocOk k).1 sent
      received' := by
  have hl : l.loop ≠ .stopped := by
    intro hs
    rw [h.closed hs] at htakes
    exact absurd (htakes.1.trans_le htakes.2) (lt_irrefl _)
  have hfed := FrameReader.feed_spec mallocOk (h.reading hl) htakes
  rw [Link.receive]
  generalize l.reader.feed mallocOk (l.wire.take k) = out at hfed
  cases hfed with
  | waiting r hopen hpart =>
    refine ⟨received, ?_⟩
    rw [List.append_nil]
    exact h.waited hl hopen hpart
  | malformed hlen hcheck => exact absurd hcheck (h.not_malformed hl hlen)
  | noMemory =>
    refine ⟨received, ?_⟩
    rw [List.append_nil]
    exact h.stop _
  | frame g hfits hbytes =>
    have htook := h.took
    dsimp only
    cases hloop : l.loop with
    | stopped => exact absurd hloop hl
    | steady peerId =>
      rw [hloop] at htook
      refine ⟨_, h.framed hl hfits hbytes (by simp) rfl (by simp) ⟨?_, htook.2⟩⟩
      rw [dispatchedFrames_append, htook.1]
      rfl
    | awaitHello =>
      rw [hloop] at htook
      obtain ⟨rfl, hnone⟩ := htook
      -- the first frame is the first message of the other node
      obtain rfl : g = e.hello := by
        obtain ⟨rest, hrest⟩ := (h.next_sent hl hfits hbytes).1.trans h.inOrder
        exact (List.cons.inj hrest).1
      cases hshake : handshake e.receiver e.hello with
      | none =>
        refine ⟨[], ?_⟩
        rw [List.append_nil]
        exact h.stop _
      | some peerId =>
        refine ⟨_, h.framed hl hfits hbytes (by simp) rfl (by simp) ⟨?_, hshake⟩⟩
        rw [List.append_nil, hnone]
        rfl

/-- **Every step keeps the order.** -/
lemma Link.Inv.step (h : Link.Inv e es l sent received) (hs : Link.Step e l new l')
    (hhello : .helloCut ∉ new) :
    ∃ sent' received', Link.Inv e (es ++ new) l' sent' received' := by
  cases hs with
  | enqueued mallocOk f out henq => exact ⟨_, _, h.enqueued henq⟩
  | closing =>
    rw [List.append_nil]
    exact ⟨_, _, { h with }⟩
  | written k =>
    rw [List.append_nil]
    exact ⟨_, _, h.written k⟩
  | sent hw hrest =>
    rw [List.append_nil]
    exact ⟨_, _, h.sentAll hw hrest⟩
  | helloCut => exact absurd List.mem_cons_self hhello
  | dequeued f queue bytes hw hopen hqueue hsend =>
    rw [List.append_nil]
    exact ⟨_, _, h.dequeued hw hqueue hsend⟩
  | exited =>
    rw [List.append_nil]
    exact ⟨_, _, h.exited⟩
  | received mallocOk k hk htakes => exact ⟨_, h.receive mallocOk htakes⟩
  | stopped =>
    rw [List.append_nil]
    exact ⟨_, _, h.stop []⟩

/-- Every run without a cut keeps the order. -/
lemma Link.Inv.run (h : Link.Inv e es l sent received) (hrun : Run (Link.Step e) l new l')
    (hhello : .helloCut ∉ new) : ∃ sent' received', Link.Inv e (es ++ new) l' sent' received' := by
  refine hrun.invariant (I := fun fs t => .helloCut ∉ fs →
    ∃ sent received, Link.Inv e (es ++ fs) t sent received)
    (fun _ => ⟨sent, received, ?_⟩) ?_ hhello
  · rwa [List.append_nil]
  · intro fs t new v hI hs hcut
    rw [List.mem_append, not_or] at hcut
    obtain ⟨sent, received, hinv⟩ := hI hcut.1
    rw [← List.append_assoc]
    exact hinv.step hs hcut.2

end Keeps

/-! ### Nothing on its way -/

/-- Nothing is on its way. -/
structure Link.Quiet (l : Link) : Prop where
  queue : l.out.queue = []
  writer : l.writer = .idle
  wire : l.wire = []
  reader : l.reader = .header []
  steady : ∃ peerId, l.loop = .steady peerId

/-- The first message is taken exactly when the chains agree and the keys differ. -/
lemma handshake_hello (e : Ends) (peerId : Addr) : handshake e.receiver e.hello = some peerId ↔
    peerId = e.sender.keypair.pk ∧ e.sender.chainId = e.receiver.chainId ∧
      e.sender.keypair.pk ≠ e.receiver.keypair.pk := by
  rw [handshake, if_neg (by simp [Ends.hello]),
    show e.hello.payload = sendHello e.sender e.peers from rfl, parseHello_sendHello]
  dsimp only
  split_ifs with hchain hkey
  · simp [hchain]
  · simp [hkey]
  · rw [not_not] at hchain
    simp [hchain, hkey, eq_comm]

/-- When nothing is on its way, all messages have been dispatched. -/
lemma Link.Inv.dispatched_all {e : Ends} {es : List LinkEvent} {l : Link}
    {sent received : List RawFrame} (h : Link.Inv e es l sent received) (hquiet : l.Quiet) :
    dispatchedFrames es = (acceptedFrames es).map Frame.raw := by
  obtain ⟨peerId, hloop⟩ := hquiet.steady
  have hidle : l.writer ≠ .exited := by
    rw [hquiet.writer]
    simp
  have hwhole := h.whole (by rw [hloop]; simp) hidle
  have hqueued := h.queued hidle
  rw [Link.inFlight, hquiet.reader, hquiet.wire, hquiet.writer] at hwhole
  rw [hquiet.queue, List.map_nil, List.append_nil] at hqueued
  have hall : received = sent := frameBytes_prefixFree.eq_of_flatMap_eq
    (fun f hf => h.fits f (h.got.subset hf)) h.fits ((List.append_nil _).symm.trans hwhole)
  have htook := h.took
  rw [hloop] at htook
  exact (List.cons.inj (htook.1.symm.trans (hall.trans hqueued))).2

/-! ### Nothing gets stuck -/

/-- Nobody has given the connection up. -/
structure Link.Alive (l : Link) : Prop where
  open_ : l.out.closing = false
  writer : l.writer ≠ .exited
  loop : l.loop ≠ .stopped

/-- Steps that put nothing into the queue, from one state of a connection to another. -/
def Link.Drains (e : Ends) (l l' : Link) : Prop :=
  ∃ es, Run (Link.Step e) l es l' ∧ acceptedFrames es = [] ∧ .helloCut ∉ es

section Drain

variable {e : Ends} {es : List LinkEvent} {l l' l'' : Link} {sent received : List RawFrame}
  {k : ℕ} {peerId : Addr}

lemma Link.Drains.refl (e : Ends) (l : Link) : Link.Drains e l l :=
  ⟨[], .refl l, rfl, List.not_mem_nil⟩

lemma Link.Drains.trans (h : Link.Drains e l l') (h' : Link.Drains e l' l'') :
    Link.Drains e l l'' := by
  obtain ⟨es, hrun, hacc, hcut⟩ := h
  obtain ⟨fs, hrun', hacc', hcut'⟩ := h'
  refine ⟨es ++ fs, hrun.trans hrun', ?_, ?_⟩
  · rw [acceptedFrames_append, hacc, hacc']
    rfl
  · rw [List.mem_append, not_or]
    exact ⟨hcut, hcut'⟩

/-- A step that is not observed. -/
lemma Link.Step.drains (h : Link.Step e l [] l') : Link.Drains e l l' :=
  ⟨[], .single h, rfl, List.not_mem_nil⟩

/-- What a piece leaves unchanged when there is memory and the first message is taken. -/
lemma Link.Inv.receive_alive (h : Link.Inv e es l sent received) (hl : l.loop ≠ .stopped)
    (hshake : handshake e.receiver e.hello = some peerId)
    (htakes : l.reader.Takes (l.wire.take k)) :
    let r := l.receive e true k
    r.1.out = l.out ∧ r.1.writer = l.writer ∧ r.1.wire = l.wire.drop k ∧ r.1.loop ≠ .stopped ∧
      acceptedFrames r.2 = [] ∧ .helloCut ∉ r.2 := by
  have hfed := FrameReader.feed_spec true (h.reading hl) htakes
  rw [Link.receive]
  generalize l.reader.feed true (l.wire.take k) = out at hfed
  cases hfed with
  | waiting r hopen hpart => exact ⟨rfl, rfl, rfl, hl, rfl, List.not_mem_nil⟩
  | malformed hlen hcheck => exact absurd hcheck (h.not_malformed hl hlen)
  | noMemory hmem => cases hmem
  | frame g hfits hbytes =>
    have htook := h.took
    dsimp only
    cases hloop : l.loop with
    | stopped => exact absurd hloop hl
    | steady peerId => exact ⟨rfl, rfl, rfl, by simp, rfl, by simp⟩
    | awaitHello =>
      rw [hloop] at htook
      obtain ⟨rfl, -⟩ := htook
      obtain rfl : g = e.hello := by
        obtain ⟨rest, hrest⟩ := (h.next_sent hl hfits hbytes).1.trans h.inOrder
        exact (List.cons.inj hrest).1
      rw [hshake]
      exact ⟨rfl, rfl, rfl, by simp, rfl, List.not_mem_nil⟩

/-- Everything that was written is read, when there is memory. -/
lemma Link.Inv.drain_wire (h : Link.Inv e es l sent received) (hl : l.loop ≠ .stopped)
    (hshake : handshake e.receiver e.hello = some peerId) :
    ∃ l', Link.Drains e l l' ∧ l'.out = l.out ∧ l'.writer = l.writer ∧ l'.wire = [] ∧
      l'.loop ≠ .stopped := by
  induction hn : l.wire.length using Nat.strong_induction_on generalizing l es received with
  | _ n ih =>
    by_cases hnil : l.wire = []
    · exact ⟨l, .refl e l, rfl, rfl, hnil, hl⟩
    · have hpos : 0 < l.wire.length := List.length_pos_iff.mpr hnil
      have hneed : 0 < l.reader.need := by
        have hopen := h.reading hl
        cases hr : l.reader with
        | header got =>
          rw [hr] at hopen
          exact Nat.sub_pos_of_lt hopen
        | payload type plen got =>
          rw [hr] at hopen
          exact Nat.sub_pos_of_lt hopen.1
        | closed =>
          rw [hr] at hopen
          exact hopen.elim
      have htakes : l.reader.Takes (l.wire.take (min l.reader.need l.wire.length)) := by
        rw [FrameReader.Takes, List.length_take]
        omega
      obtain ⟨hout, hwriter, hwire, hloop, hacc, hcut⟩ := h.receive_alive hl hshake htakes
      obtain ⟨received', hnext⟩ := h.receive true htakes
      have hstep := Link.Step.received (e := e) l true _ (min_le_right l.reader.need _) htakes
      have hless : (l.receive e true (min l.reader.need l.wire.length)).1.wire.length < n := by
        rw [hwire, List.length_drop]
        omega
      obtain ⟨l', hdrain, hout', hwriter', hwire', hloop'⟩ := ih _ hless hnext hloop rfl
      exact ⟨l', Link.Drains.trans ⟨_, .single hstep, hacc, hcut⟩ hdrain, hout'.trans hout,
        hwriter'.trans hwriter, hwire', hloop'⟩

/-- The part of the frame that is being read holds no whole frame. -/
lemma FrameReader.Open.part_short {r : FrameReader} (h : r.Open) {g : RawFrame} (hfits : g.Fits) :
    ¬ frameBytes g <+: r.part := by
  intro hpre
  cases r with
  | closed => exact h
  | header got =>
    have hlen := hpre.length_le
    rw [frameBytes, List.length_append, length_frameHeader] at hlen
    exact absurd (lt_of_le_of_lt hlen h) (by omega)
  | payload type plen got =>
    obtain ⟨rest, hrest⟩ := hpre
    rw [frameBytes, FrameReader.part, List.append_assoc] at hrest
    obtain ⟨hheader, hgot⟩ := List.append_inj hrest
      ((length_frameHeader ..).trans (length_frameHeader ..).symm)
    have hcheck := congrArg checkFrameHeader hheader
    rw [checkFrameHeader_frameHeader _ hfits, checkFrameHeader_frameHeader _ h.2,
      Option.some.injEq, Prod.mk.injEq] at hcheck
    have hlen := congrArg List.length hgot
    rw [List.length_append, hcheck.2] at hlen
    have hlt := h.1
    omega

lemma FrameReader.Open.eq_header {r : FrameReader} (h : r.Open) (hpart : r.part = []) :
    r = .header [] := by
  cases r with
  | closed => exact h.elim
  | header got => rw [show got = [] from hpart]
  | payload type plen got =>
    have hlen := congrArg List.length hpart
    rw [FrameReader.part, List.length_append, length_frameHeader, List.length_nil] at hlen
    omega

/-- When nothing is left to write and to read, everything has arrived. -/
lemma Link.Inv.quiet (h : Link.Inv e es l sent received) (hl : l.loop ≠ .stopped)
    (hqueue : l.out.queue = []) (hwriter : l.writer = .idle) (hwire : l.wire = []) : l.Quiet := by
  have hidle : l.writer ≠ .exited := by
    rw [hwriter]
    simp
  have hopen := h.reading hl
  have hwhole := h.whole hl hidle
  rw [Link.inFlight, hwire, hwriter, List.append_nil] at hwhole
  obtain ⟨rest, hrest⟩ := h.got
  have hpart : l.reader.part = rest.flatMap frameBytes := by
    rw [← hrest, List.flatMap_append] at hwhole
    exact (List.append_nil _).symm.trans (List.append_cancel_left hwhole)
  cases rest with
  | cons g rest =>
    have hwhole : frameBytes g <+: l.reader.part := by
      rw [hpart, List.flatMap_cons]
      exact List.prefix_append ..
    exact absurd hwhole (hopen.part_short (h.fits g (by rw [← hrest]; simp)))
  | nil =>
    rw [List.append_nil] at hrest
    refine ⟨hqueue, hwriter, hwire, hopen.eq_header hpart, ?_⟩
    have htook := h.took
    have hqueued := h.queued hidle
    cases hloop : l.loop with
    | stopped => exact absurd hloop hl
    | steady peerId => exact ⟨peerId, rfl⟩
    | awaitHello =>
      rw [hloop] at htook
      rw [← hrest, htook.1, hqueue] at hqueued
      cases hqueued

/-- The writer finishes the frame that it is writing. -/
lemma Link.Alive.finish (h : l.Alive) : Link.Drains e l
    { l with writer := .idle, wire := l.wire ++ l.writer.rest } := by
  have hwritten := Link.Step.written (e := e) l l.writer.rest.length
  rw [List.take_length] at hwritten
  refine hwritten.drains.trans (Link.Step.drains (.sent _ ?_ ?_))
  · have hw := h.writer
    dsimp only
    cases hwriter : l.writer with
    | exited => exact absurd hwriter hw
    | hello rest => simp [Writer.advance]
    | idle => simp [Writer.advance]
    | sending rest => simp [Writer.advance]
  · rw [Writer.rest_advance, List.drop_length]

/-- Everything behind the queue can be delivered. -/
lemma Link.Inv.flush (h : Link.Inv e es l sent received) (halive : l.Alive)
    (hshake : handshake e.receiver e.hello = some peerId) :
    ∃ l', Link.Drains e l l' ∧ (∃ es' sent' received', Link.Inv e es' l' sent' received') ∧
      l'.out = l.out ∧ l'.writer = .idle ∧ l'.wire = [] ∧ l'.loop ≠ .stopped := by
  obtain ⟨fs, hrun, -, hcut⟩ := halive.finish (e := e)
  obtain ⟨sent₁, received₁, h₁⟩ := h.run hrun hcut
  obtain ⟨l', hdrain, hout, hwriter, hwire, hloop⟩ := h₁.drain_wire halive.loop hshake
  have hinv : ∃ es' sent' received', Link.Inv e es' l' sent' received' := by
    obtain ⟨gs, hrun', -, hcut'⟩ := hdrain
    exact ⟨_, h₁.run hrun' hcut'⟩
  exact ⟨l', halive.finish.trans hdrain, hinv, hout, hwriter, hwire, hloop⟩

/-- A connection that nobody has given up can be emptied. -/
lemma Link.Inv.drain (h : Link.Inv e es l sent received) (halive : l.Alive)
    (hshake : handshake e.receiver e.hello = some peerId) :
    ∃ l', Link.Drains e l l' ∧ l'.Quiet := by
  induction hqueue : l.out.queue generalizing l es sent received with
  | nil =>
    obtain ⟨l', hdrain, ⟨_, _, _, h'⟩, hout, hwriter, hwire, hloop⟩ := h.flush halive hshake
    exact ⟨l', hdrain, h'.quiet hloop (by rw [hout, hqueue]) hwriter hwire⟩
  | cons f queue ih =>
    obtain ⟨l', hdrain, ⟨_, _, _, h'⟩, hout, hwriter, hwire, hloop⟩ := h.flush halive hshake
    have hqueue' : l'.out.queue = f :: queue := by rw [hout, hqueue]
    have hopen : l'.out.closing = false := by rw [hout, halive.open_]
    have hsend : frameSend f.raw = some (frameBytes f.raw) :=
      if_neg (not_lt.mpr (h'.queueFits f (by rw [hqueue']; exact List.mem_cons_self)))
    have hstep := Link.Step.dequeued (e := e) l' f queue _ hwriter hopen hqueue' hsend
    obtain ⟨l'', hdrain', hquiet⟩ := ih (h'.dequeued hwriter hqueue' hsend)
      ⟨hopen, by simp, hloop⟩ rfl
    exact ⟨l'', (hdrain.trans hstep.drains).trans hdrain', hquiet⟩

end Drain

/-! ### A connection with one message -/

/-- A node without an address of its own. -/
def quietConfig (i : UInt8) : NetConfig :=
  ⟨0, .empty, 1, referenceKey i⟩

/-- Two nodes of one chain. -/
def twoNodes : Ends := ⟨quietConfig 1, fun _ => .zeroed, quietConfig 2⟩

/-- A message of one byte. -/
def pingFrame : Frame := ⟨.ping, [7]⟩

/-- The message is put into the queue while the first message is written. -/
def pingLink : Link := { Link.start twoNodes with out := ⟨[pingFrame], false⟩ }

lemma pingLink_run :
    Run (Link.Step twoNodes) (.start twoNodes) [.accepted pingFrame] pingLink :=
  .single (.enqueued _ true pingFrame _ rfl)

lemma pingLink_alive : pingLink.Alive where
  open_ := rfl
  writer := by simp [pingLink, Link.start]
  loop := by simp [pingLink, Link.start]

/-! ### The main results -/

/-- **Order and integrity of a connection.**  Whatever the order of the steps of the threads and
however the bytes are cut: when the first message was not cut off, the messages that the other
node dispatches are the first ones of those that the queue has taken, no header is refused, and
the peer is known by the key of the sender, on the same chain.  When nothing is on its way, all
messages have been dispatched. -/
theorem link_in_order {e : Ends} {es : List LinkEvent} {l : Link}
    (h : Run (Link.Step e) (.start e) es l) (hhello : .helloCut ∉ es) :
    dispatchedFrames es <+: (acceptedFrames es).map Frame.raw ∧ .malformed ∉ es ∧
      (∀ peerId, l.loop = .steady peerId → peerId = e.sender.keypair.pk ∧
        e.sender.chainId = e.receiver.chainId ∧ e.sender.keypair.pk ≠ e.receiver.keypair.pk) ∧
      (l.Quiet → dispatchedFrames es = (acceptedFrames es).map Frame.raw) := by
  obtain ⟨sent, received, hinv⟩ := (Link.inv_start e).run h hhello
  rw [List.nil_append] at hinv
  have htook := hinv.took
  refine ⟨?_, hinv.clean, fun peerId hloop => ?_, fun hquiet => ?_⟩
  · have hstopped : dispatchedFrames es = received.tail := htook.stop
    have hpre := hinv.got.trans hinv.inOrder
    rw [hstopped]
    cases received with
    | nil => exact List.nil_prefix
    | cons g received => exact (List.cons_prefix_cons.mp hpre).2
  · rw [hloop] at htook
    exact (handshake_hello e peerId).mp htook.2
  · exact hinv.dispatched_all hquiet

/-- The message arrives. -/
theorem link_in_order_ping : ∃ (es : List LinkEvent) (l : Link),
    acceptedFrames es = [pingFrame] ∧ l.Quiet ∧
    dispatchedFrames es <+: (acceptedFrames es).map Frame.raw ∧ .malformed ∉ es ∧
      (∀ peerId, l.loop = .steady peerId → peerId = twoNodes.sender.keypair.pk ∧
        twoNodes.sender.chainId = twoNodes.receiver.chainId ∧
        twoNodes.sender.keypair.pk ≠ twoNodes.receiver.keypair.pk) ∧
      (l.Quiet → dispatchedFrames es = (acceptedFrames es).map Frame.raw) := by
  obtain ⟨_, _, hinv⟩ := (Link.inv_start twoNodes).run pingLink_run (by simp)
  obtain ⟨l, ⟨new, hrun, hacc, hcut⟩, hquiet⟩ := hinv.drain pingLink_alive
    ((handshake_hello twoNodes _).mpr ⟨rfl, rfl, by decide⟩)
  refine ⟨_, l, ?_, hquiet, link_in_order (pingLink_run.trans hrun) (by simp [hcut])⟩
  rw [acceptedFrames_append, hacc]
  rfl

/-- **Nothing gets stuck.**  From every state of a connection between two nodes of one chain that
nobody has given up, all messages that the queue has taken can still be dispatched, by steps that
put nothing more into it. -/
theorem link_drains {e : Ends} {es : List LinkEvent} {l : Link}
    (h : Run (Link.Step e) (.start e) es l) (hhello : .helloCut ∉ es) (halive : l.Alive)
    (hchain : e.sender.chainId = e.receiver.chainId)
    (hkeys : e.sender.keypair.pk ≠ e.receiver.keypair.pk) :
    ∃ new l', Run (Link.Step e) l new l' ∧ acceptedFrames new = [] ∧
      dispatchedFrames (es ++ new) = (acceptedFrames es).map Frame.raw := by
  obtain ⟨sent, received, hinv⟩ := (Link.inv_start e).run h hhello
  rw [List.nil_append] at hinv
  obtain ⟨l', ⟨new, hrun, hacc, hcut⟩, hquiet⟩ :=
    hinv.drain halive ((handshake_hello e _).mpr ⟨rfl, hchain, hkeys⟩)
  obtain ⟨_, _, hinv'⟩ := hinv.run hrun hcut
  refine ⟨new, l', hrun, hacc, ?_⟩
  rw [hinv'.dispatched_all hquiet, acceptedFrames_append, hacc, List.append_nil]

/-- The message can be dispatched. -/
theorem link_drains_ping : ∃ new l', Run (Link.Step twoNodes) pingLink new l' ∧
    acceptedFrames new = [] ∧ dispatchedFrames ([.accepted pingFrame] ++ new) = [pingFrame.raw] :=
  link_drains pingLink_run (by simp) pingLink_alive rfl (by decide)

/-- The connection before anything was received. -/
def unreadLink (queue : List Frame) (writer : Writer) (wire : Bytes) : Link :=
  ⟨⟨queue, false⟩, writer, wire, .header [], .awaitHello⟩

/-- **A first message that is cut off spoils the connection.**  The writer is started all the same,
and the header of its first frame is refused. -/
theorem link_hello_cut : ∃ es l, Run (Link.Step twoNodes) (.start twoNodes) es l ∧
    .helloCut ∈ es ∧ .malformed ∈ es := by
  have hbegun : Link.Step twoNodes (.start twoNodes) []
      (unreadLink [] (.hello ((frameBytes twoNodes.hello).drop 1)) [0]) := by
    have hfirst : (frameBytes twoNodes.hello).take 1 = [0] := by decide +kernel
    rw [← hfirst]
    exact .written _ 1
  have hcut : Link.Step twoNodes
      (unreadLink [] (.hello ((frameBytes twoNodes.hello).drop 1)) [0]) [.helloCut]
      (unreadLink [] .idle [0]) := .helloCut (unreadLink ..) _ rfl
  have hring : Link.Step twoNodes (unreadLink [] .idle [0]) [.accepted pingFrame]
      (unreadLink [pingFrame] .idle [0]) := .enqueued (unreadLink ..) true pingFrame _ rfl
  have htaken : Link.Step twoNodes (unreadLink [pingFrame] .idle [0]) []
      (unreadLink [] (.sending [0, 0, 0, 3, 1, 0x0B, 7]) [0]) :=
    .dequeued (unreadLink ..) pingFrame [] _ rfl rfl rfl rfl
  have hsent : Link.Step twoNodes (unreadLink [] (.sending [0, 0, 0, 3, 1, 0x0B, 7]) [0]) []
      (unreadLink [] (.sending []) [0, 0, 0, 0, 3, 1, 0x0B, 7]) := .written (unreadLink ..) 7
  have hread : Link.Step twoNodes (unreadLink [] (.sending []) [0, 0, 0, 0, 3, 1, 0x0B, 7])
      [.malformed] ⟨⟨[], false⟩, .sending [], [0x0B, 7], .closed, .stopped⟩ :=
    .received (unreadLink ..) true 6 (by decide) ⟨by decide, by decide⟩
  exact ⟨_, _, ((((((Run.refl _).tail hbegun).tail hcut).tail hring).tail htaken).tail hsent).tail
    hread, by simp, by simp⟩

end AgentChain
