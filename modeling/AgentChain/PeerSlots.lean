import AgentChain.Hello
import AgentChain.Lib.Trace

/-!
# The life of a peer slot

A connection takes a slot of the peer table.  The thread that opened the connection fills the slot
and starts a writer and a reader; the reader closes the socket when the connection is over; and
`reap_dead_peers` waits for both threads and releases the slot for the next connection.  All of
them work on the slot, mostly without a lock.

The connections of a slot are numbered, and each has its own threads.  What has to hold is that no
thread of an earlier connection touches the slot of a later one, and that nothing is released
while it is used (`slot_owned`).  It holds as long as the slot is not looked at before the thread
that opened the connection has noted that there is a reader; otherwise the note comes too late and
is made in the slot of somebody else (`slot_stale_note`).

The number of a socket is not part of the model: it can be used again as soon as the socket is
closed.
-/

namespace AgentChain

open Trace

/-- The thread that opens a connection: `listen_loop` or `dial_peer`. -/
inductive SpawnerPc where
  | none
  /-- `peer_alloc` has returned the slot. -/
  | allocated
  /-- The socket is in the slot; `send_hello` is called. -/
  | opened
  /-- The writer is started, `writer_started` not yet set. -/
  | startedWriter
  | triedWriter
  /-- The reader is started, `reader_started` not yet set. -/
  | startedReader
  | done
deriving DecidableEq

/-- `writer_loop` -/
inductive WriterPc where
  | none
  | running
  | ended
deriving DecidableEq

/-- `reader_loop` -/
inductive ReaderPc where
  | none
  /-- It waits for the first message. -/
  | greeting
  /-- It has hidden the other slots with the key of this peer. -/
  | evicted (hello : Hello)
  | steady
  | ended

/-- The threads of a connection. -/
structure Threads where
  spawner : SpawnerPc
  writer : WriterPc
  reader : ReaderPc

/-- The threads before a connection. -/
def Threads.unborn : Threads := ⟨.none, .none, .none⟩

/-- Where `reap_dead_peers` stands with a slot; `conn` is the connection whose threads it has
found there. -/
inductive ReaperPc where
  | idle
  | waking (conn : ℕ) (needReader : Bool)
  | joiningWriter (conn : ℕ) (needReader : Bool)
  | joiningReader (conn : ℕ)
  | releasing
deriving DecidableEq

/-- `peer_t` with its threads; `conn` numbers the connections of the slot. -/
structure Slot where
  peer : Peer
  readerStarted : Bool
  writerStarted : Bool
  conn : ℕ
  threads : ℕ → Threads
  reaper : ReaperPc

/-- What has to be observed of a slot. -/
inductive SlotEvent where
  /-- The reaper looks at a slot whose reader is started but not noted. -/
  | earlyLook
  /-- The key of the peer is entered. -/
  | published (peerId : Addr)
deriving DecidableEq

/-- Let the threads of a connection make a step. -/
def Slot.move (s : Slot) (conn : ℕ) (t : Threads) : Slot :=
  { s with threads := Function.update s.threads conn t }

/-- A slot of `ac_net_new`. -/
def Slot.initial : Slot := ⟨.zeroed, false, false, 0, fun _ => .unborn, .idle⟩

/-- `peer_alloc`, on the slot that it has found. -/
def Slot.alloc (s : Slot) : Slot :=
  { s with
    peer := { Peer.zeroed with inUse := true, fd := -1 }
    readerStarted := false
    writerStarted := false
    conn := s.conn + 1
    threads := Function.update s.threads (s.conn + 1) ⟨.allocated, .none, .none⟩ }

/-- The reader of another connection hides the slot. -/
def Slot.evict (s : Slot) (peerId : Addr) : Slot :=
  if s.peer.inUse && s.peer.peerIdKnown && decide (s.peer.peerId = peerId) then
    { s with peer := { s.peer with
        peerIdKnown := false
        shut := s.peer.shut || decide (0 ≤ s.peer.fd)
        out := { s.peer.out with closing := true } } }
  else s

/-- What `reap_dead_peers` takes up, under the lock. -/
def Slot.look (s : Slot) : ReaperPc :=
  if s.peer.inUse && decide (s.peer.fd < 0) then
    if s.writerStarted then .waking s.conn s.readerStarted
    else if s.readerStarted then .joiningReader s.conn
    else .idle
  else .idle

/-- The host name that the peer has sent, unless it is empty. -/
def Peer.hostAfter (p : Peer) (host : HostName) : HostName :=
  if host.bytes = [] then p.host else host

/-- A step of a thread that works on the slot. -/
inductive Slot.Step : Slot → List SlotEvent → Slot → Prop
  /-- `p->fd = fd`, with the address -/
  | opened (s : Slot) (g : ℕ) (fd : ℤ) (host : HostName) (port : UInt16) (hfd : 0 ≤ fd)
      (h : (s.threads g).spawner = .allocated) :
      Slot.Step s [] ({ s with peer := { s.peer with fd := fd, host := host, port := port } }.move g
        { s.threads g with spawner := .opened })
  /-- `pthread_create` of the writer -/
  | startedWriter (s : Slot) (g : ℕ) (h : (s.threads g).spawner = .opened) :
      Slot.Step s [] (s.move g { s.threads g with spawner := .startedWriter, writer := .running })
  | failedWriter (s : Slot) (g : ℕ) (h : (s.threads g).spawner = .opened) :
      Slot.Step s [] (s.move g { s.threads g with spawner := .triedWriter })
  /-- `writer_started = true` -/
  | notedWriter (s : Slot) (g : ℕ) (h : (s.threads g).spawner = .startedWriter) :
      Slot.Step s [] ({ s with writerStarted := true }.move g
        { s.threads g with spawner := .triedWriter })
  /-- `pthread_create` of the reader -/
  | startedReader (s : Slot) (g : ℕ) (h : (s.threads g).spawner = .triedWriter) :
      Slot.Step s [] (s.move g { s.threads g with spawner := .startedReader, reader := .greeting })
  | failedReader (s : Slot) (g : ℕ) (h : (s.threads g).spawner = .triedWriter) :
      Slot.Step s [] (s.move g { s.threads g with spawner := .done })
  /-- `reader_started = true` -/
  | notedReader (s : Slot) (g : ℕ) (h : (s.threads g).spawner = .startedReader) :
      Slot.Step s [] ({ s with readerStarted := true }.move g { s.threads g with spawner := .done })
  /-- `writer_loop` ends and drops the queue. -/
  | endedWriter (s : Slot) (g : ℕ) (h : (s.threads g).writer = .running) :
      Slot.Step s [] ({ s with peer := { s.peer with out := ⟨[], true⟩ } }.move g
        { s.threads g with writer := .ended })
  /-- `reader_loop` enters the key and the address of the peer. -/
  | published (s : Slot) (g : ℕ) (hello : Hello) (host : HostName)
      (h : (s.threads g).reader = .evicted hello)
      (hhost : host.bytes = hello.host.takeWhile (· ≠ 0)) :
      Slot.Step s [.published hello.peerId]
        ({ s with peer := { s.peer with
            peerId := hello.peerId
            peerIdKnown := true
            host := s.peer.hostAfter host
            port := hello.port } }.move g { s.threads g with reader := .steady })
  /-- `peer_close_fd`, and `reader_loop` returns. -/
  | closed (s : Slot) (g : ℕ)
      (h : (s.threads g).reader = .greeting ∨ (s.threads g).reader = .steady) :
      Slot.Step s [] ({ s with peer := { s.peer with fd := -1 } }.move g
        { s.threads g with reader := .ended })
  /-- `reap_dead_peers` looks at the slot. -/
  | looked (s : Slot) (h : s.reaper = .idle) :
      Slot.Step s
        (if s.look ≠ .idle ∧ (s.threads s.conn).spawner = .startedReader then [.earlyLook] else [])
        { s with reaper := s.look }
  /-- It wakes the writer. -/
  | woken (s : Slot) (g : ℕ) (needReader : Bool) (h : s.reaper = .waking g needReader) :
      Slot.Step s [] { s with
        peer := { s.peer with out := { s.peer.out with closing := true } }
        reaper := .joiningWriter g needReader }
  | joinedWriter (s : Slot) (g : ℕ) (needReader : Bool)
      (h : s.reaper = .joiningWriter g needReader) (hended : (s.threads g).writer = .ended) :
      Slot.Step s [] { s with reaper := if needReader then .joiningReader g else .releasing }
  | joinedReader (s : Slot) (g : ℕ) (h : s.reaper = .joiningReader g)
      (hended : (s.threads g).reader = .ended) :
      Slot.Step s [] { s with reaper := .releasing }
  /-- It releases the slot. -/
  | released (s : Slot) (h : s.reaper = .releasing) :
      Slot.Step s []
        (if s.peer.inUse && decide (s.peer.fd < 0) then
          { s with
            peer := { s.peer with inUse := false }
            readerStarted := false
            writerStarted := false
            reaper := .idle }
        else { s with reaper := .idle })

/-! ### Ownership -/

/-- No thread of the connection touches the slot any more. -/
def Threads.Over (t : Threads) : Prop :=
  (t.spawner = .none ∨ t.spawner = .done) ∧ t.writer ≠ .running ∧
    (t.reader = .none ∨ t.reader = .ended)

/-- How far the connection of a slot in use has come, and what is in the slot then. -/
def Slot.Stage (s : Slot) : Prop :=
  let t := s.threads s.conn
  match t.spawner with
  | .none => False
  | .allocated => s.peer.fd < 0 ∧ s.writerStarted = false ∧ s.readerStarted = false ∧
      t.writer = .none ∧ t.reader = .none
  | .opened => 0 ≤ s.peer.fd ∧ s.writerStarted = false ∧ s.readerStarted = false ∧
      t.writer = .none ∧ t.reader = .none
  | .startedWriter => 0 ≤ s.peer.fd ∧ s.writerStarted = false ∧ s.readerStarted = false ∧
      t.writer ≠ .none ∧ t.reader = .none
  | .triedWriter => 0 ≤ s.peer.fd ∧ (s.writerStarted = true ↔ t.writer ≠ .none) ∧
      s.readerStarted = false ∧ t.reader = .none
  | .startedReader => (s.writerStarted = true ↔ t.writer ≠ .none) ∧ s.readerStarted = false ∧
      t.reader ≠ .none ∧ (s.peer.fd < 0 ↔ t.reader = .ended)
  | .done => (s.writerStarted = true ↔ t.writer ≠ .none) ∧
      (s.readerStarted = true ↔ t.reader ≠ .none) ∧ (s.peer.fd < 0 ↔ t.reader = .ended)

/-- The connection is over but for the writer. -/
structure Slot.Dead (s : Slot) : Prop where
  inUse : s.peer.inUse = true
  closed : s.peer.fd < 0
  spawned : (s.threads s.conn).spawner = .done

/-- What the reaper knows. -/
def Slot.Reaping (s : Slot) : Prop :=
  match s.reaper with
  | .idle => True
  | .waking g needReader => s.Dead ∧ g = s.conn ∧ needReader = s.readerStarted
  | .joiningWriter g needReader => s.Dead ∧ g = s.conn ∧ needReader = s.readerStarted
  | .joiningReader g => s.Dead ∧ g = s.conn ∧ (s.threads s.conn).writer ≠ .running
  | .releasing => s.Dead ∧ (s.threads s.conn).writer ≠ .running

/-- What holds of a slot at all times. -/
structure Slot.Inv (s : Slot) : Prop where
  others : ∀ g, g ≠ s.conn → (s.threads g).Over
  free : s.peer.inUse = false → (s.threads s.conn).Over
  stage : s.peer.inUse = true → s.Stage
  reaping : s.Reaping

section Ownership

variable {s s' : Slot} {g : ℕ} {es : List SlotEvent} {t : Threads}

/-- A thread at work belongs to the connection that the slot was handed out for. -/
lemma Slot.Inv.current (h : s.Inv) (hbusy : ¬ (s.threads g).Over) :
    g = s.conn ∧ s.peer.inUse = true := by
  have hg : g = s.conn := by
    by_contra hne
    exact hbusy (h.others g hne)
  refine ⟨hg, ?_⟩
  by_contra hfree
  rw [hg] at hbusy
  exact hbusy (h.free (by simpa using hfree))

/-- The reaper leaves a slot alone whose connection is not over. -/
lemma Slot.Inv.reaper_idle (h : s.Inv) (hlive : ¬ s.Dead) : s.reaper = .idle := by
  have hreaping := h.reaping
  rw [Slot.Reaping] at hreaping
  cases hr : s.reaper with
  | idle => rfl
  | waking => rw [hr] at hreaping; exact absurd hreaping.1 hlive
  | joiningWriter => rw [hr] at hreaping; exact absurd hreaping.1 hlive
  | joiningReader => rw [hr] at hreaping; exact absurd hreaping.1 hlive
  | releasing => rw [hr] at hreaping; exact absurd hreaping.1 hlive

/-- A step of the threads of a slot in use. -/
lemma Slot.Inv.moved (h : s.Inv) (hconn : s'.conn = s.conn)
    (hthreads : ∀ g, g ≠ s.conn → s'.threads g = s.threads g) (huse : s'.peer.inUse = true)
    (hstage : s'.Stage) (hreaping : s'.Reaping) : s'.Inv where
  others g hg := by
    rw [hconn] at hg
    rw [hthreads g hg]
    exact h.others g hg
  free hfree := by
    rw [huse] at hfree
    cases hfree
  stage _ := hstage
  reaping := hreaping

/-- The same, before the connection is over. -/
lemma Slot.Inv.advanced (h : s.Inv) (hlive : ¬ s.Dead) (hconn : s'.conn = s.conn)
    (hthreads : ∀ g, g ≠ s.conn → s'.threads g = s.threads g) (huse : s'.peer.inUse = true)
    (hstage : s'.Stage) (hreaper : s'.reaper = s.reaper) : s'.Inv := by
  refine h.moved hconn hthreads huse hstage ?_
  rw [Slot.Reaping, hreaper, h.reaper_idle hlive]
  trivial

lemma Slot.inv_initial : Slot.initial.Inv where
  others _ _ := ⟨.inl rfl, by simp [Slot.initial, Threads.unborn], .inl rfl⟩
  free _ := ⟨.inl rfl, by simp [Slot.initial, Threads.unborn], .inl rfl⟩
  stage h := by cases h
  reaping := trivial

lemma Slot.move_threads_of_ne {g' : ℕ} (h : g' ≠ g) : (s.move g t).threads g' = s.threads g' :=
  Function.update_of_ne h ..

@[simp] lemma Slot.move_threads_self : (s.move g t).threads g = t := Function.update_self ..

/-- A step of the thread that opens the connection. -/
lemma Slot.Inv.spawner_step (h : s.Inv) {pc : SpawnerPc} (hpc : (s.threads g).spawner = pc)
    (hnone : pc ≠ .none) (hdone : pc ≠ .done) (hconn : s'.conn = s.conn)
    (hthreads : ∀ g', g' ≠ g → s'.threads g' = s.threads g')
    (huse : s'.peer.inUse = s.peer.inUse) (hreaper : s'.reaper = s.reaper)
    (hstage : g = s.conn → s.Stage → s'.Stage) : s'.Inv := by
  have hbusy : ¬ (s.threads g).Over := by
    rintro ⟨hover, -, -⟩
    rw [hpc] at hover
    exact hover.elim hnone hdone
  obtain ⟨rfl, hin⟩ := h.current hbusy
  have hlive : ¬ s.Dead := fun hdead => hdone (hpc.symm.trans hdead.spawned)
  exact h.advanced hlive hconn hthreads (huse.trans hin) (hstage rfl (h.stage hin)) hreaper

/-- The stage depends on the socket and on what the threads have done only so far. -/
lemma Slot.Stage.congr (h : s.Stage) (hfd : s'.peer.fd < 0 ↔ s.peer.fd < 0)
    (hws : s'.writerStarted = s.writerStarted) (hrs : s'.readerStarted = s.readerStarted)
    (hspawner : (s'.threads s'.conn).spawner = (s.threads s.conn).spawner)
    (hwriter : (s'.threads s'.conn).writer = .none ↔ (s.threads s.conn).writer = .none)
    (hnone : (s'.threads s'.conn).reader = .none ↔ (s.threads s.conn).reader = .none)
    (hended : (s'.threads s'.conn).reader = .ended ↔ (s.threads s.conn).reader = .ended) :
    s'.Stage := by
  have hfd' : 0 ≤ s'.peer.fd ↔ 0 ≤ s.peer.fd := by rw [← not_lt, ← not_lt, hfd]
  simp only [Slot.Stage, ne_eq, hspawner, hws, hrs, hfd, hfd', hwriter, hnone, hended] at h ⊢
  exact h

/-- The reader is started after everything else. -/
lemma Slot.Stage.of_reader (h : s.Stage) (hreader : (s.threads s.conn).reader ≠ .none) :
    (s.threads s.conn).spawner = .startedReader ∨ (s.threads s.conn).spawner = .done := by
  rw [Slot.Stage] at h
  cases hsp : (s.threads s.conn).spawner with
  | none => simp only [hsp] at h
  | allocated => simp only [hsp] at h; exact absurd h.2.2.2.2 hreader
  | opened => simp only [hsp] at h; exact absurd h.2.2.2.2 hreader
  | startedWriter => simp only [hsp] at h; exact absurd h.2.2.2.2 hreader
  | triedWriter => simp only [hsp] at h; exact absurd h.2.2.2 hreader
  | startedReader => exact .inl rfl
  | done => exact .inr rfl

/-- What the reaper knows stays true. -/
lemma Slot.Reaping.congr (h : s.Reaping) (hreaper : s'.reaper = s.reaper)
    (hconn : s'.conn = s.conn) (hrs : s'.readerStarted = s.readerStarted)
    (hdead : s.Dead → s'.Dead)
    (hwriter : (s.threads s.conn).writer ≠ .running → (s'.threads s.conn).writer ≠ .running) :
    s'.Reaping := by
  rw [Slot.Reaping] at h ⊢
  rw [hreaper, hconn, hrs]
  cases hr : s.reaper with
  | idle => trivial
  | waking => rw [hr] at h; exact ⟨hdead h.1, h.2⟩
  | joiningWriter => rw [hr] at h; exact ⟨hdead h.1, h.2⟩
  | joiningReader => rw [hr] at h; exact ⟨hdead h.1, h.2.1, hwriter h.2.2⟩
  | releasing => rw [hr] at h; exact ⟨hdead h.1, hwriter h.2⟩

/-- A reader at work belongs to a slot whose connection is not over. -/
lemma Slot.Inv.reader_current (h : s.Inv) (hnone : (s.threads g).reader ≠ .none)
    (hended : (s.threads g).reader ≠ .ended) :
    g = s.conn ∧ s.peer.inUse = true ∧ ¬ s.Dead := by
  obtain ⟨rfl, huse⟩ := h.current fun hover => hover.2.2.elim hnone hended
  refine ⟨rfl, huse, fun hdead => hended ?_⟩
  have hst := h.stage huse
  simp only [Slot.Stage, hdead.spawned] at hst
  exact hst.2.2.mp hdead.closed

/-- The socket is open as long as the reader is at work. -/
lemma Slot.Inv.reader_open (h : s.Inv) {hello : Hello}
    (hpc : (s.threads g).reader = .evicted hello) :
    g = s.conn ∧ s.peer.inUse = true ∧ 0 ≤ s.peer.fd := by
  have hat : (s.threads g).reader ≠ .none ∧ (s.threads g).reader ≠ .ended := by simp [hpc]
  obtain ⟨rfl, huse, -⟩ := h.reader_current hat.1 hat.2
  refine ⟨rfl, huse, not_lt.mp fun hfd => hat.2 ?_⟩
  have hst := h.stage huse
  rcases hst.of_reader hat.1 with hsp | hsp
  · simp only [Slot.Stage, hsp] at hst
    exact hst.2.2.2.mp hfd
  · simp only [Slot.Stage, hsp] at hst
    exact hst.2.2.mp hfd

/-- A closed socket in a slot in use: the connection is not open yet, or its reader has ended. -/
lemma Slot.Stage.of_closed (h : s.Stage) (hfd : s.peer.fd < 0) :
    (s.writerStarted = false ∧ s.readerStarted = false) ∨
      (s.threads s.conn).spawner = .startedReader ∨ (s.threads s.conn).spawner = .done := by
  by_cases hreader : (s.threads s.conn).reader = .none
  · refine .inl ?_
    rw [Slot.Stage] at h
    cases hsp : (s.threads s.conn).spawner with
    | none => simp only [hsp] at h
    | allocated => simp only [hsp] at h; exact ⟨h.2.1, h.2.2.1⟩
    | opened => simp only [hsp] at h; exact absurd hfd (not_lt.mpr h.1)
    | startedWriter => simp only [hsp] at h; exact absurd hfd (not_lt.mpr h.1)
    | triedWriter => simp only [hsp] at h; exact absurd hfd (not_lt.mpr h.1)
    | startedReader => simp only [hsp] at h; exact absurd hreader h.2.2.1
    | done =>
      simp only [hsp, hreader] at h
      exact absurd (h.2.2.mp hfd) (by simp)
  · exact .inr (h.of_reader hreader)

/-- What the reaper takes up is over, unless it looks too early. -/
lemma Slot.Inv.dead_of_look (h : s.Inv) (huse : s.peer.inUse = true) (hfd : s.peer.fd < 0)
    (hflag : s.writerStarted = true ∨ s.readerStarted = true)
    (hspawner : (s.threads s.conn).spawner ≠ .startedReader) :
    s.Dead ∧ (s.writerStarted = true ↔ (s.threads s.conn).writer ≠ .none) := by
  have hst := h.stage huse
  rcases hst.of_closed hfd with hflags | hsp | hsp
  · exact absurd hflag (by simp [hflags])
  · exact absurd hsp hspawner
  · simp only [Slot.Stage, hsp] at hst
    exact ⟨⟨huse, hfd, hsp⟩, hst.1⟩

lemma Slot.Inv.look (h : s.Inv)
    (hearly : ¬ (s.look ≠ .idle ∧ (s.threads s.conn).spawner = .startedReader)) :
    Slot.Reaping { s with reaper := s.look } := by
  by_cases hidle : s.look = .idle
  · rw [hidle]
    trivial
  · have hspawner : (s.threads s.conn).spawner ≠ .startedReader := fun hsp => hearly ⟨hidle, hsp⟩
    rw [Slot.look] at hidle ⊢
    split_ifs with hclosed hws hrs
    · rw [Bool.and_eq_true, decide_eq_true_eq] at hclosed
      have hdead := (h.dead_of_look hclosed.1 hclosed.2 (.inl hws) hspawner).1
      exact ⟨⟨hdead.inUse, hdead.closed, hdead.spawned⟩, rfl, rfl⟩
    · rw [Bool.and_eq_true, decide_eq_true_eq] at hclosed
      obtain ⟨hdead, hwriter⟩ := h.dead_of_look hclosed.1 hclosed.2 (.inr hrs) hspawner
      refine ⟨⟨hdead.inUse, hdead.closed, hdead.spawned⟩, rfl, fun hrunning => hws ?_⟩
      rw [hwriter, show (s.threads s.conn).writer = .running from hrunning]
      simp
    · trivial
    · trivial

/-- **Every step keeps the invariant**, as long as the reaper does not look too early. -/
lemma Slot.Inv.step (h : s.Inv) (hs : Slot.Step s es s') (hearly : .earlyLook ∉ es) : s'.Inv := by
  cases hs with
  | opened g fd host port hfd hpc =>
    refine h.spawner_step hpc (by simp) (by simp) rfl (fun _ => Slot.move_threads_of_ne) rfl rfl ?_
    rintro rfl hst
    simp only [Slot.Stage, hpc] at hst
    simp only [Slot.Stage, Slot.move, Function.update_self]
    exact ⟨hfd, hst.2⟩
  | startedWriter g hpc =>
    refine h.spawner_step hpc (by simp) (by simp) rfl (fun _ => Slot.move_threads_of_ne) rfl rfl ?_
    rintro rfl hst
    simp only [Slot.Stage, hpc] at hst
    simp only [Slot.Stage, Slot.move, Function.update_self]
    exact ⟨hst.1, hst.2.1, hst.2.2.1, by simp, hst.2.2.2.2⟩
  | failedWriter g hpc =>
    refine h.spawner_step hpc (by simp) (by simp) rfl (fun _ => Slot.move_threads_of_ne) rfl rfl ?_
    rintro rfl hst
    simp only [Slot.Stage, hpc] at hst
    simp only [Slot.Stage, Slot.move, Function.update_self]
    obtain ⟨hfd, hws, hrs, hw, hr⟩ := hst
    exact ⟨hfd, by simp [hws, hw], hrs, hr⟩
  | notedWriter g hpc =>
    refine h.spawner_step hpc (by simp) (by simp) rfl (fun _ => Slot.move_threads_of_ne) rfl rfl ?_
    rintro rfl hst
    simp only [Slot.Stage, hpc] at hst
    simp only [Slot.Stage, Slot.move, Function.update_self]
    obtain ⟨hfd, -, hrs, hw, hr⟩ := hst
    exact ⟨hfd, by simp [hw], hrs, hr⟩
  | startedReader g hpc =>
    refine h.spawner_step hpc (by simp) (by simp) rfl (fun _ => Slot.move_threads_of_ne) rfl rfl ?_
    rintro rfl hst
    simp only [Slot.Stage, hpc] at hst
    simp only [Slot.Stage, Slot.move, Function.update_self]
    obtain ⟨hfd, hws, hrs, -⟩ := hst
    exact ⟨hws, hrs, by simp, by simp [hfd]⟩
  | failedReader g hpc =>
    refine h.spawner_step hpc (by simp) (by simp) rfl (fun _ => Slot.move_threads_of_ne) rfl rfl ?_
    rintro rfl hst
    simp only [Slot.Stage, hpc] at hst
    simp only [Slot.Stage, Slot.move, Function.update_self]
    obtain ⟨hfd, hws, hrs, hr⟩ := hst
    exact ⟨hws, by simp [hrs, hr], by simp [hfd, hr]⟩
  | notedReader g hpc =>
    refine h.spawner_step hpc (by simp) (by simp) rfl (fun _ => Slot.move_threads_of_ne) rfl rfl ?_
    rintro rfl hst
    simp only [Slot.Stage, hpc] at hst
    simp only [Slot.Stage, Slot.move, Function.update_self]
    obtain ⟨hws, -, hr, hfd⟩ := hst
    exact ⟨hws, by simp [hr], hfd⟩
  | endedWriter g hpc =>
    obtain ⟨rfl, huse⟩ := h.current fun hover => hover.2.1 hpc
    refine h.moved rfl (fun _ => Slot.move_threads_of_ne) huse ?_ ?_
    · exact (h.stage huse).congr Iff.rfl rfl rfl (by simp [Slot.move]) (by simp [Slot.move, hpc])
        (by simp [Slot.move]) (by simp [Slot.move])
    · refine h.reaping.congr rfl rfl rfl (fun hd => ⟨hd.inUse, hd.closed, ?_⟩) (by simp)
      simpa [Slot.move] using hd.spawned
  | published g hello host hpc hhost =>
    have hat : (s.threads g).reader ≠ .none ∧ (s.threads g).reader ≠ .ended := by simp [hpc]
    obtain ⟨rfl, huse, hlive⟩ := h.reader_current hat.1 hat.2
    refine h.advanced hlive rfl (fun _ => Slot.move_threads_of_ne) huse ?_ rfl
    exact (h.stage huse).congr Iff.rfl rfl rfl (by simp [Slot.move]) (by simp [Slot.move])
      (by simp [Slot.move, hpc]) (by simp [Slot.move, hpc])
  | closed g hpc =>
    have hat : (s.threads g).reader ≠ .none ∧ (s.threads g).reader ≠ .ended := by
      rcases hpc with hpc | hpc
      · simp [hpc]
      · simp [hpc]
    obtain ⟨rfl, huse, hlive⟩ := h.reader_current hat.1 hat.2
    refine h.advanced hlive rfl (fun _ => Slot.move_threads_of_ne) huse ?_ rfl
    have hst := h.stage huse
    rcases hst.of_reader hat.1 with hsp | hsp
    · simp only [Slot.Stage, Slot.move, Function.update_self, hsp] at hst ⊢
      exact ⟨hst.1, hst.2.1, by simp, by simp⟩
    · simp only [Slot.Stage, Slot.move, Function.update_self, hsp] at hst ⊢
      exact ⟨hst.1, by simp [hst.2.1, hat.1], by simp⟩
  | looked hidle =>
    have hlate : ¬ (s.look ≠ .idle ∧ (s.threads s.conn).spawner = .startedReader) := by
      intro hcond
      rw [if_pos hcond] at hearly
      exact hearly List.mem_cons_self
    exact ⟨h.others, h.free, fun huse => (h.stage huse).congr Iff.rfl rfl rfl rfl Iff.rfl Iff.rfl
      Iff.rfl, h.look hlate⟩
  | woken g needReader hpc =>
    have hreaping := h.reaping
    rw [Slot.Reaping, hpc] at hreaping
    obtain ⟨hdead, rfl, hneed⟩ := hreaping
    exact ⟨h.others, h.free, fun huse => (h.stage huse).congr Iff.rfl rfl rfl rfl Iff.rfl Iff.rfl
      Iff.rfl, ⟨hdead.inUse, hdead.closed, hdead.spawned⟩, rfl, hneed⟩
  | joinedWriter g needReader hpc hended =>
    have hreaping := h.reaping
    rw [Slot.Reaping, hpc] at hreaping
    obtain ⟨hdead, rfl, -⟩ := hreaping
    have hwriter : (s.threads s.conn).writer ≠ .running := by simp [hended]
    refine ⟨h.others, h.free, fun huse => (h.stage huse).congr Iff.rfl rfl rfl rfl Iff.rfl Iff.rfl
      Iff.rfl, ?_⟩
    cases needReader with
    | true => exact ⟨⟨hdead.inUse, hdead.closed, hdead.spawned⟩, rfl, hwriter⟩
    | false => exact ⟨⟨hdead.inUse, hdead.closed, hdead.spawned⟩, hwriter⟩
  | joinedReader g hpc hended =>
    have hreaping := h.reaping
    rw [Slot.Reaping, hpc] at hreaping
    obtain ⟨hdead, rfl, hwriter⟩ := hreaping
    exact ⟨h.others, h.free, fun huse => (h.stage huse).congr Iff.rfl rfl rfl rfl Iff.rfl Iff.rfl
      Iff.rfl, ⟨hdead.inUse, hdead.closed, hdead.spawned⟩, hwriter⟩
  | released hpc =>
    have hreaping := h.reaping
    rw [Slot.Reaping, hpc] at hreaping
    obtain ⟨hdead, hwriter⟩ := hreaping
    have hst := h.stage hdead.inUse
    simp only [Slot.Stage, hdead.spawned] at hst
    rw [if_pos (by simp [hdead.inUse, hdead.closed])]
    refine ⟨h.others, fun _ => ⟨.inr hdead.spawned, hwriter, .inr ?_⟩, fun huse => ?_, trivial⟩
    · exact hst.2.2.mp hdead.closed
    · cases huse

end Ownership

/-! ### The table -/

/-- The slots of `ac_net_t`. -/
abbrev SlotTable := Fin acMaxPeers → Slot

/-- The slots after `ac_net_new`. -/
def SlotTable.initial : SlotTable := fun _ => .initial

/-- What is seen of the table under the lock. -/
def SlotTable.peers (n : SlotTable) : PeerTable := fun i => (n i).peer

/-- The slot that `peer_alloc` finds. -/
def SlotTable.firstFree (n : SlotTable) : Option (Fin acMaxPeers) :=
  (List.finRange acMaxPeers).find? fun i => !(n i).peer.inUse

/-- The loop of `reader_loop` over the other slots: those with the key of the peer are hidden, and
the reader goes on. -/
def SlotTable.evictOthers (n : SlotTable) (i : Fin acMaxPeers) (g : ℕ) (hello : Hello) :
    SlotTable := fun j =>
  if j = i then (n i).move g { (n i).threads g with reader := .evicted hello }
  else (n j).evict hello.peerId

/-- A reader of the slot is about to enter the key. -/
def Slot.Entering (s : Slot) (peerId : Addr) : Prop :=
  ∃ g hello, (s.threads g).reader = .evicted hello ∧ hello.peerId = peerId

/-- What has to be observed of the table. -/
inductive NetEvent where
  | slot (i : Fin acMaxPeers) (ev : SlotEvent)
  /-- A reader hides the slots with a key that another reader is about to enter. -/
  | overlap
deriving DecidableEq

/-- A step of one of the threads of a node with the given configuration. -/
inductive SlotTable.Step (cfg : NetConfig) : SlotTable → List NetEvent → SlotTable → Prop
  /-- A step that works on one slot. -/
  | slot (n : SlotTable) (i : Fin acMaxPeers) (es : List SlotEvent) (s : Slot)
      (h : Slot.Step (n i) es s) :
      SlotTable.Step cfg n (es.map (.slot i)) (Function.update n i s)
  /-- `peer_alloc` -/
  | alloc (n : SlotTable) (i : Fin acMaxPeers) (h : n.firstFree = some i) :
      SlotTable.Step cfg n [] (Function.update n i (n i).alloc)
  /-- A reader takes the first message of its peer. -/
  | handshake (n : SlotTable) (i : Fin acMaxPeers) (g : ℕ) (hello : Hello)
      (h : ((n i).threads g).reader = .greeting) (hchain : hello.chainId = cfg.chainId)
      (hself : hello.peerId ≠ cfg.keypair.pk)
      (hclear : ∀ j, j ≠ i → ¬ (n j).Entering hello.peerId) :
      SlotTable.Step cfg n [] (n.evictOthers i g hello)
  | overlapping (n : SlotTable) (i : Fin acMaxPeers) (g : ℕ) (hello : Hello)
      (h : ((n i).threads g).reader = .greeting) (hchain : hello.chainId = cfg.chainId)
      (hself : hello.peerId ≠ cfg.keypair.pk)
      (hmeet : ∃ j, j ≠ i ∧ (n j).Entering hello.peerId) :
      SlotTable.Step cfg n [.overlap] (n.evictOthers i g hello)
  /-- `ac_net_broadcast` -/
  | broadcast (n : SlotTable) (mallocOk : Fin acMaxPeers → Bool) (f : Frame)
      (exclude : Option Addr) :
      SlotTable.Step cfg n [] fun i =>
        { n i with peer := acNetBroadcast mallocOk n.peers f exclude i }
  /-- `ac_net_send_to` -/
  | sendTo (n : SlotTable) (mallocOk : Bool) (f : Frame) (peerId : Addr) :
      SlotTable.Step cfg n [] fun i => { n i with peer := acNetSendTo mallocOk n.peers f peerId i }

section Table

variable {cfg : NetConfig} {n n' : SlotTable} {es : List NetEvent} {s s' : Slot} {g : ℕ}
  {i : Fin acMaxPeers}

/-- Nothing but the socket and the use of the slot matters. -/
lemma Slot.Inv.peer_congr (h : s.Inv) {p : Peer} (huse : p.inUse = s.peer.inUse)
    (hfd : p.fd = s.peer.fd) : Slot.Inv { s with peer := p } where
  others := h.others
  free hfree := h.free (huse ▸ hfree)
  stage hin := (h.stage (huse ▸ hin)).congr (by rw [hfd]) rfl rfl rfl Iff.rfl Iff.rfl Iff.rfl
  reaping := h.reaping.congr rfl rfl rfl
    (fun hd => ⟨huse.trans hd.inUse, hfd.trans_lt hd.closed, hd.spawned⟩) id

lemma Slot.Inv.evict (h : s.Inv) (peerId : Addr) : (s.evict peerId).Inv := by
  rw [Slot.evict]
  split_ifs
  · exact h.peer_congr rfl rfl
  · exact h

lemma Peer.deliver_same (p : Peer) (mallocOk : Bool) (f : Frame) :
    (p.deliver mallocOk f).inUse = p.inUse ∧ (p.deliver mallocOk f).fd = p.fd ∧
      (p.deliver mallocOk f).peerId = p.peerId ∧
      (p.deliver mallocOk f).peerIdKnown = p.peerIdKnown := by
  rw [Peer.deliver]
  cases peerEnqueue mallocOk p.out f with
  | none => exact ⟨rfl, rfl, rfl, rfl⟩
  | some o => exact ⟨rfl, rfl, rfl, rfl⟩

/-- Sending changes no more than queues. -/
lemma acNetBroadcast_same (mallocOk : Fin acMaxPeers → Bool) (peers : PeerTable) (f : Frame)
    (exclude : Option Addr) (i : Fin acMaxPeers) :
    let p := acNetBroadcast mallocOk peers f exclude i
    p.inUse = (peers i).inUse ∧ p.fd = (peers i).fd ∧ p.peerId = (peers i).peerId ∧
      p.peerIdKnown = (peers i).peerIdKnown := by
  rw [acNetBroadcast]
  split_ifs
  · exact ⟨rfl, rfl, rfl, rfl⟩
  · exact ⟨rfl, rfl, rfl, rfl⟩
  · exact Peer.deliver_same ..

lemma acNetSendTo_same (mallocOk : Bool) (peers : PeerTable) (f : Frame) (peerId : Addr)
    (i : Fin acMaxPeers) :
    let p := acNetSendTo mallocOk peers f peerId i
    p.inUse = (peers i).inUse ∧ p.fd = (peers i).fd ∧ p.peerId = (peers i).peerId ∧
      p.peerIdKnown = (peers i).peerIdKnown := by
  rw [acNetSendTo]
  cases peers.routeTo peerId with
  | none => exact ⟨rfl, rfl, rfl, rfl⟩
  | some j =>
    dsimp only
    rw [Function.update_apply]
    split_ifs with hij
    · rw [hij]
      exact Peer.deliver_same ..
    · exact ⟨rfl, rfl, rfl, rfl⟩

lemma Slot.Inv.alloc (h : s.Inv) (hfree : s.peer.inUse = false) : s.alloc.Inv where
  others g hg := by
    rw [show s.alloc.threads g = s.threads g from Function.update_of_ne hg ..]
    by_cases hcur : g = s.conn
    · rw [hcur]
      exact h.free hfree
    · exact h.others g hcur
  free hfree := by cases hfree
  stage _ := by
    simp [Slot.Stage, Slot.alloc]
  reaping := by
    have hidle := h.reaper_idle fun hd => by
      rw [hd.inUse] at hfree
      cases hfree
    simp only [Slot.Reaping, Slot.alloc, hidle]

/-- The reader goes on after the first message. -/
lemma Slot.Inv.greeted (h : s.Inv) (hpc : (s.threads g).reader = .greeting) (hello : Hello) :
    (s.move g { s.threads g with reader := .evicted hello }).Inv := by
  have hat : (s.threads g).reader ≠ .none ∧ (s.threads g).reader ≠ .ended := by simp [hpc]
  obtain ⟨rfl, huse, hlive⟩ := h.reader_current hat.1 hat.2
  refine h.advanced hlive rfl (fun _ => Slot.move_threads_of_ne) huse ?_ rfl
  exact (h.stage huse).congr Iff.rfl rfl rfl (by simp [Slot.move]) (by simp [Slot.move])
    (by simp [Slot.move, hpc]) (by simp [Slot.move, hpc])

lemma SlotTable.evictOthers_inv (hn : ∀ i, (n i).Inv)
    (hpc : ((n i).threads g).reader = .greeting) (hello : Hello) (j : Fin acMaxPeers) :
    (n.evictOthers i g hello j).Inv := by
  rw [SlotTable.evictOthers]
  split_ifs
  · exact (hn i).greeted hpc hello
  · exact (hn j).evict hello.peerId

/-- Every step keeps the invariant of every slot. -/
lemma SlotTable.Step.inv (h : SlotTable.Step cfg n es n') (hn : ∀ i, (n i).Inv)
    (hearly : ∀ i, .slot i .earlyLook ∉ es) : ∀ i, (n' i).Inv := by
  intro j
  cases h with
  | slot i es s hs =>
    rw [Function.update_apply]
    split_ifs
    · exact (hn i).step hs fun hmem => hearly i (List.mem_map_of_mem hmem)
    · exact hn j
  | alloc i hfree =>
    rw [Function.update_apply]
    split_ifs
    · exact (hn i).alloc (by simpa using List.find?_some hfree)
    · exact hn j
  | handshake i g hello hpc hchain hself hclear => exact evictOthers_inv hn hpc hello j
  | overlapping i g hello hpc hchain hself hmeet => exact evictOthers_inv hn hpc hello j
  | broadcast mallocOk f exclude =>
    have hsame := acNetBroadcast_same mallocOk n.peers f exclude j
    exact (hn j).peer_congr hsame.1 hsame.2.1
  | sendTo mallocOk f peerId =>
    have hsame := acNetSendTo_same mallocOk n.peers f peerId j
    exact (hn j).peer_congr hsame.1 hsame.2.1

/-- The invariant holds along every run. -/
lemma SlotTable.inv_of_run (h : Run (SlotTable.Step cfg) .initial es n)
    (hearly : ∀ i, .slot i .earlyLook ∉ es) : ∀ i, (n i).Inv := by
  refine h.invariant (I := fun es n => (∀ i, .slot i .earlyLook ∉ es) → ∀ i, (n i).Inv)
    (fun _ _ => Slot.inv_initial) ?_ hearly
  intro fs t new v hI hs hlate
  simp only [List.mem_append, not_or] at hlate
  exact hs.inv (hI fun i => (hlate i).1) fun i => (hlate i).2

end Table

/-! ### The first connection of a slot -/

section Single

variable {cfg : NetConfig} {n : SlotTable} {s s' : Slot} {es : List SlotEvent} {i : Fin acMaxPeers}

/-- Steps on one slot are steps of the table. -/
lemma SlotTable.run_slot (h : Run Slot.Step s es s') : Run (SlotTable.Step cfg)
    (Function.update n i s) (es.map (.slot i)) (Function.update n i s') := by
  induction h with
  | refl => exact .refl _
  | @tail t u es new h hs ih =>
    have hstep : SlotTable.Step cfg (Function.update n i t) _ _ :=
      .slot _ i new u (by rwa [Function.update_self])
    rw [Function.update_idem] at hstep
    rw [List.map_append]
    exact ih.tail hstep

end Single

lemma firstSlot_lt : 0 < acMaxPeers := by decide

/-- The slot that is handed out first. -/
def firstSlot : Fin acMaxPeers := ⟨0, firstSlot_lt⟩

/-- A slot with a connection that is about to be opened. -/
lemma SlotTable.run_alloc (cfg : NetConfig) : Run (SlotTable.Step cfg) .initial []
    (Function.update SlotTable.initial firstSlot Slot.initial.alloc) :=
  .single (.alloc .initial firstSlot rfl)

/-- A node without an address. -/
def bareConfig : NetConfig := ⟨0, Peer.zeroed.host, 1, ⟨ByteArr.fill 32 0, ByteArr.fill 64 0⟩⟩

/-! ### Main results -/

/-- **Slots are owned by their connections.**  Whatever the order of the steps of all threads of a
node: as long as the reaper does not look at a slot between the start of its reader and the note
of it, every thread that is still at work on a slot belongs to the connection that the slot was
handed out for last, and the slot is in use.  When the reaper releases a slot, all threads of the
connection are through with it. -/
theorem slot_owned {cfg : NetConfig} {es : List NetEvent} {n : SlotTable}
    (h : Run (SlotTable.Step cfg) .initial es n) (hearly : ∀ i, .slot i .earlyLook ∉ es)
    (i : Fin acMaxPeers) :
    (∀ g, ¬ ((n i).threads g).Over → g = (n i).conn ∧ (n i).peer.inUse = true) ∧
      ((n i).reaper = .releasing → ((n i).threads (n i).conn).Over) := by
  have hinv := SlotTable.inv_of_run h hearly i
  refine ⟨fun g hbusy => hinv.current hbusy, fun hreleasing => ?_⟩
  have hreaping := hinv.reaping
  rw [Slot.Reaping, hreleasing] at hreaping
  obtain ⟨hdead, hwriter⟩ := hreaping
  have hst := hinv.stage hdead.inUse
  simp only [Slot.Stage, hdead.spawned] at hst
  exact ⟨.inr hdead.spawned, hwriter, .inr (hst.2.2.mp hdead.closed)⟩

/-- The first slot with an open connection. -/
theorem slot_owned_opened : ∃ (es : List NetEvent) (n : SlotTable),
    Run (SlotTable.Step bareConfig) .initial es n ∧ ¬ ((n firstSlot).threads 1).Over ∧
      (∀ g, ¬ ((n firstSlot).threads g).Over →
        g = (n firstSlot).conn ∧ (n firstSlot).peer.inUse = true) ∧
      ((n firstSlot).reaper = .releasing →
        ((n firstSlot).threads (n firstSlot).conn).Over) := by
  have hopened : Run Slot.Step Slot.initial.alloc _ _ :=
    .single (.opened _ 1 7 Peer.zeroed.host 0 (by decide) rfl)
  have hrun := (SlotTable.run_alloc bareConfig).trans (SlotTable.run_slot hopened)
  refine ⟨_, _, hrun, ?_, slot_owned hrun (by simp) firstSlot⟩
  rintro ⟨hspawner | hspawner, -⟩
  · cases hspawner
  · cases hspawner

/-- **A note that comes too late.**  When the reaper looks too early, a slot in use can say that it
has a reader when there is none: the note was made for the connection before. -/
theorem slot_stale_note (cfg : NetConfig) : ∃ (es : List NetEvent) (n : SlotTable),
    Run (SlotTable.Step cfg) .initial es n ∧ (n firstSlot).peer.inUse = true ∧
      (n firstSlot).readerStarted = true ∧
      ((n firstSlot).threads (n firstSlot).conn).reader = .none := by
  have hlife : Run Slot.Step Slot.initial.alloc _ _ :=
    (Run.refl _).tail (.opened _ 1 7 Peer.zeroed.host 0 (by decide) rfl)
      |>.tail (.startedWriter _ 1 rfl) |>.tail (.notedWriter _ 1 rfl)
      |>.tail (.startedReader _ 1 rfl) |>.tail (.closed _ 1 (.inl rfl))
      |>.tail (.looked _ rfl) |>.tail (.woken _ 1 false rfl) |>.tail (.endedWriter _ 1 rfl)
      |>.tail (.joinedWriter _ 1 false rfl rfl) |>.tail (.released _ rfl)
  have hagain := ((SlotTable.run_alloc cfg).trans (SlotTable.run_slot hlife)).tail
    (.alloc _ firstSlot rfl)
  exact ⟨_, _, hagain.tail (.slot _ firstSlot _ _ (.notedReader _ 1 rfl)), rfl, rfl, rfl⟩

end AgentChain
