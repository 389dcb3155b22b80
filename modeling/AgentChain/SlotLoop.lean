import AgentChain.Consensus
import AgentChain.Lib.Trace

/-!
# The clock of the slot thread

`slot_loop` waits for the genesis, goes to sleep until the next slot starts, and then runs the
three phases of one slot after the other: at the start of the slot, `AC_VOTE_DELAY_MS` later, and
`AC_SEAL_GRACE_MS` after that.  Before every phase it reads the clock, and sleeps if there is time
left; a phase that takes too long delays those behind it, and no phase is left out.

The clock that is read and the time that passes in a sleep are not the same.  `ac_now_ms` reads
`CLOCK_REALTIME`, which can be set, and a sleep is a single `nanosleep`, which a signal cuts short.
The thread does not read the clock again behind a sleep.  So the order of the phases is certain,
but not their times: a phase begins when it is due if no sleep is cut short and the clock does not
go back (`slot_loop_schedule`), and otherwise it can begin early (`phase_begins_early`).
-/

namespace AgentChain

open Trace

/-- `AC_VOTE_DELAY_MS` -/
def acVoteDelayMs : UInt64 := 1100

/-- The phases of a slot. -/
inductive SlotPhase where
  | propose
  | vote
  | sealing
deriving DecidableEq

/-- The time of a phase behind the start of its slot. -/
def SlotPhase.delay : SlotPhase → UInt64
  | .propose => 0
  | .vote => acVoteDelayMs
  | .sealing => acVoteDelayMs + acSealGraceMs

/-- A slot and one of its phases. -/
abbrev Turn := UInt64 × SlotPhase

/-- What comes next. -/
def turnAfter : Turn → Turn
  | (slot, .propose) => (slot, .vote)
  | (slot, .vote) => (slot, .sealing)
  | (slot, .sealing) => (slot + 1, .propose)

/-- The time for which `slot_loop` waits before a phase: `slot_start`, `vote_at`, `seal_at` and
`next_start`. -/
def wakeAt (genesis : UInt64) (turn : Turn) : UInt64 :=
  genesis + turn.1 * acSlotDurationMs + turn.2.delay

/-- The slot behind the current one at a reading of the clock. -/
def firstSlotAfter (genesis now : UInt64) : UInt64 := (now - genesis) / acSlotDurationMs + 1

/-- The argument of `ac_sleep_ms`, when there is time left. -/
def sleepTime (t now : UInt64) : ℕ := if now < t then (t - now).toNat else 0

/-- Where `slot_loop` stands. -/
inductive LoopPc where
  | entry
  /-- asleep until the genesis -/
  | waiting (wake : ℕ)
  /-- asleep before a phase -/
  | asleep (wake : ℕ) (turn : Turn)
  | working (turn : Turn) (since : ℕ)
  | stopped

/-- The thread, the time that has passed, and what `ac_now_ms` returns. -/
structure SlotLoop where
  elapsed : ℕ
  clock : UInt64
  pc : LoopPc

/-- What can be seen of the thread and the clock. -/
inductive LoopEvent where
  /-- A phase begins at the time of the clock, so long behind the end of the sleep. -/
  | began (turn : Turn) (clock : UInt64) (late : ℕ)
  | finished (took : ℕ)
  /-- A sleep ends before its time. -/
  | interrupted
  | ticked (old new : UInt64)
  /-- The clock is set.  A reading that fails returns 0, like a clock that is set to 0. -/
  | clockSet (old new : UInt64)

/-- A step of the thread or the clock. -/
inductive SlotLoop.Step (genesis : UInt64) : SlotLoop → List LoopEvent → SlotLoop → Prop
  | tick (elapsed : ℕ) (clock d : UInt64) (pc : LoopPc) :
      Step genesis ⟨elapsed, clock, pc⟩ [.ticked clock (clock + d)]
        ⟨elapsed + d.toNat, clock + d, pc⟩
  | clockSet (elapsed : ℕ) (clock new : UInt64) (pc : LoopPc) :
      Step genesis ⟨elapsed, clock, pc⟩ [.clockSet clock new] ⟨elapsed, new, pc⟩
  | entered (elapsed : ℕ) (clock : UInt64) :
      Step genesis ⟨elapsed, clock, .entry⟩ []
        ⟨elapsed, clock, .waiting (elapsed + sleepTime genesis clock)⟩
  /-- `nanosleep` returns early, in the sleep until the genesis. -/
  | roused (elapsed : ℕ) (clock : UInt64) (wake : ℕ) (hearly : elapsed < wake) :
      Step genesis ⟨elapsed, clock, .waiting wake⟩ [.interrupted]
        ⟨elapsed, clock, .waiting elapsed⟩
  | aligned (elapsed : ℕ) (clock : UInt64) (wake : ℕ) (hwake : wake ≤ elapsed) :
      Step genesis ⟨elapsed, clock, .waiting wake⟩ []
        ⟨elapsed, clock, .asleep
          (elapsed + sleepTime (wakeAt genesis (firstSlotAfter genesis clock, .propose)) clock)
          (firstSlotAfter genesis clock, .propose)⟩
  /-- `nanosleep` returns early, before a phase. -/
  | interrupted (elapsed : ℕ) (clock : UInt64) (wake : ℕ) (turn : Turn)
      (hearly : elapsed < wake) :
      Step genesis ⟨elapsed, clock, .asleep wake turn⟩ [.interrupted]
        ⟨elapsed, clock, .asleep elapsed turn⟩
  | began (elapsed : ℕ) (clock : UInt64) (wake : ℕ) (turn : Turn) (hwake : wake ≤ elapsed) :
      Step genesis ⟨elapsed, clock, .asleep wake turn⟩ [.began turn clock (elapsed - wake)]
        ⟨elapsed, clock, .working turn elapsed⟩
  /-- The flag `running` is down, which is looked at behind the sleep. -/
  | stopped (elapsed : ℕ) (clock : UInt64) (wake : ℕ) (turn : Turn) (hwake : wake ≤ elapsed) :
      Step genesis ⟨elapsed, clock, .asleep wake turn⟩ [] ⟨elapsed, clock, .stopped⟩
  | finished (elapsed : ℕ) (clock : UInt64) (turn : Turn) (since : ℕ) :
      Step genesis ⟨elapsed, clock, .working turn since⟩ [.finished (elapsed - since)]
        ⟨elapsed, clock, .asleep
          (elapsed + sleepTime (wakeAt genesis (turnAfter turn)) clock) (turnAfter turn)⟩

/-- The phases that have begun, and when. -/
def begun (es : List LoopEvent) : List (Turn × UInt64) :=
  es.filterMap fun
    | .began turn clock _ => some (turn, clock)
    | _ => none

/-- The turns from a slot on. -/
def turnsFrom (first : UInt64) (n : ℕ) : List Turn :=
  (List.range n).map fun k => turnAfter^[k] (first, .propose)

/-- When a phase of a slot is due. -/
def due (genesis : UInt64) (turn : Turn) : ℕ :=
  genesis.toNat + turn.1.toNat * acSlotDurationMs.toNat + turn.2.delay.toNat

/-- No sleep is cut short, and the clock does not go back. -/
structure Unhurried (es : List LoopEvent) : Prop where
  slept : .interrupted ∉ es
  ticked : ∀ old new, .ticked old new ∈ es → old ≤ new
  set : ∀ old new, .clockSet old new ∈ es → old ≤ new

/-- The clock is not set, a phase takes at most `work`, and the thread wakes up at most `delay` too
late; both together fit between two phases. -/
structure Prompt (work delay : ℕ) (es : List LoopEvent) : Prop where
  unset : ∀ old new, .clockSet old new ∉ es
  took : ∀ t, .finished t ∈ es → t ≤ work
  late : ∀ turn clock t, .began turn clock t ∈ es → t ≤ delay
  room : work + delay ≤ acSealGraceMs.toNat

section Loop

variable {genesis start : UInt64} {work delay : ℕ} {es new : List LoopEvent} {s s' : SlotLoop}

lemma Unhurried.mono (h : Unhurried es) (hsub : new ⊆ es) : Unhurried new :=
  ⟨fun hmem => h.slept (hsub hmem), fun _ _ hmem => h.ticked _ _ (hsub hmem),
    fun _ _ hmem => h.set _ _ (hsub hmem)⟩

lemma Prompt.mono (h : Prompt work delay es) (hsub : new ⊆ es) : Prompt work delay new :=
  ⟨fun _ _ hmem => h.unset _ _ (hsub hmem), fun _ hmem => h.took _ (hsub hmem),
    fun _ _ _ hmem => h.late _ _ _ (hsub hmem), h.room⟩

lemma begun_append (es new : List LoopEvent) : begun (es ++ new) = begun es ++ begun new :=
  List.filterMap_append

/-! ### The order of the phases -/

lemma turnsFrom_succ (first : UInt64) (n : ℕ) :
    turnsFrom first (n + 1) = turnsFrom first n ++ [turnAfter^[n] (first, .propose)] := by
  rw [turnsFrom, List.range_succ, List.map_append]
  rfl

/-- The thread stands before or in the phase that follows on `n` others. -/
def LoopPc.Next (first : UInt64) (n : ℕ) : LoopPc → Prop
  | .entry => n = 0
  | .waiting _ => n = 0
  | .asleep _ turn => turn = turnAfter^[n] (first, .propose)
  | .working turn _ => turnAfter turn = turnAfter^[n] (first, .propose)
  | .stopped => True

/-- The phases that have begun are those from a slot on, and the thread is at the next one. -/
structure InTurn (first : UInt64) (es : List LoopEvent) (s : SlotLoop) : Prop where
  turns : (begun es).map Prod.fst = turnsFrom first (begun es).length
  next : s.pc.Next first (begun es).length

/-- No phase begins. -/
lemma InTurn.quiet {first : UInt64} (h : InTurn first es s) (hnew : begun new = [])
    (hpc : ∀ n, s.pc.Next first n → s'.pc.Next first n) : InTurn first (es ++ new) s' := by
  have hsame : begun (es ++ new) = begun es := by rw [begun_append, hnew, List.append_nil]
  exact ⟨hsame ▸ h.turns, hsame ▸ hpc _ h.next⟩

/-- **A step keeps the order**; the first slot is chosen when the thread has aligned. -/
lemma InTurn.step {first : UInt64} (h : InTurn first es s)
    (hs : SlotLoop.Step genesis s new s') : ∃ first', InTurn first' (es ++ new) s' := by
  cases hs with
  | tick => exact ⟨first, h.quiet rfl fun _ hn => hn⟩
  | clockSet => exact ⟨first, h.quiet rfl fun _ hn => hn⟩
  | entered => exact ⟨first, h.quiet rfl fun _ hn => hn⟩
  | roused => exact ⟨first, h.quiet rfl fun _ hn => hn⟩
  | aligned elapsed clock wake hwake =>
    have hnone : begun es = [] := List.length_eq_zero_iff.mp h.next
    rw [List.append_nil]
    exact ⟨firstSlotAfter genesis clock, by rw [hnone]; rfl, by rw [hnone]; rfl⟩
  | interrupted => exact ⟨first, h.quiet rfl fun _ hn => hn⟩
  | began elapsed clock wake turn hwake =>
    have hturn : turn = turnAfter^[(begun es).length] (first, .propose) := h.next
    have hmore : begun (es ++ [.began turn clock (elapsed - wake)]) =
        begun es ++ [(turn, clock)] := begun_append _ _
    refine ⟨first, ?_, ?_⟩
    · rw [hmore, List.map_append, h.turns, List.length_append, List.length_singleton,
        turnsFrom_succ, List.map_singleton, ← hturn]
    · rw [hmore, List.length_append, List.length_singleton]
      change turnAfter turn = _
      rw [Function.iterate_succ_apply', ← hturn]
  | stopped => exact ⟨first, h.quiet rfl fun _ _ => trivial⟩
  | finished => exact ⟨first, h.quiet rfl fun _ hn => hn⟩

/-! ### Times of the phases -/

lemma slotDuration_toNat : acSlotDurationMs.toNat = 2000 := rfl

/-- The sum of the source, when it stays below `2 ^ 64`. -/
lemma wakeAt_toNat {turn : Turn} (h : due genesis turn < 2 ^ 64) :
    (wakeAt genesis turn).toNat = due genesis turn := by
  rw [due] at h ⊢
  rw [wakeAt, UInt64.toNat_add, UInt64.toNat_add, UInt64.toNat_mul,
    Nat.mod_eq_of_lt (a := turn.1.toNat * _) (by omega),
    Nat.mod_eq_of_lt (a := _ + _ * _) (by omega),
    Nat.mod_eq_of_lt h]

/-- Two phases are at least `AC_SEAL_GRACE_MS` apart, and at most a slot. -/
lemma due_turnAfter (turn : Turn) (h : due genesis turn < 2 ^ 64) :
    due genesis turn + acSealGraceMs.toNat ≤ due genesis (turnAfter turn) ∧
      due genesis (turnAfter turn) ≤ due genesis turn + acSlotDurationMs.toNat := by
  have hvote : acVoteDelayMs.toNat = 1100 := rfl
  have hgrace : acSealGraceMs.toNat = 300 := rfl
  have hboth : (acVoteDelayMs + acSealGraceMs).toNat = 1400 := rfl
  have hzero : (0 : UInt64).toNat = 0 := rfl
  obtain ⟨slot, phase⟩ := turn
  cases phase with
  | propose =>
    simp only [due, turnAfter, SlotPhase.delay, slotDuration_toNat, hvote, hgrace, hzero]
    omega
  | vote =>
    simp only [due, turnAfter, SlotPhase.delay, slotDuration_toNat, hvote, hgrace, hboth]
    omega
  | sealing =>
    simp only [due, SlotPhase.delay, slotDuration_toNat, hboth] at h
    have hsucc : (slot + 1).toNat = slot.toNat + 1 := by
      rw [UInt64.toNat_add]
      exact Nat.mod_eq_of_lt (by simp only [UInt64.toNat_one]; omega)
    simp only [due, turnAfter, SlotPhase.delay, slotDuration_toNat, hgrace, hboth, hzero, hsucc]
    omega

/-- The first slot has not started at the reading, and starts soon. -/
lemma due_firstSlotAfter (now : UInt64) (hle : genesis.toNat ≤ now.toNat) :
    now.toNat < due genesis (firstSlotAfter genesis now, .propose) ∧
      due genesis (firstSlotAfter genesis now, .propose) ≤
        now.toNat + acSlotDurationMs.toNat := by
  have hsub : (now - genesis).toNat = now.toNat - genesis.toNat :=
    UInt64.toNat_sub_of_le _ _ (UInt64.le_iff_toNat_le.mpr hle)
  have hzero : (0 : UInt64).toNat = 0 := rfl
  have hslot : (firstSlotAfter genesis now).toNat = (now.toNat - genesis.toNat) / 2000 + 1 := by
    have hlt := now.toNat_lt
    rw [firstSlotAfter, UInt64.toNat_add, UInt64.toNat_div, hsub, slotDuration_toNat]
    exact Nat.mod_eq_of_lt (by simp only [UInt64.toNat_one]; omega)
  simp only [due, SlotPhase.delay, hslot, slotDuration_toNat, hzero]
  omega

/-- A sleep is as long as there is time left. -/
lemma sleepTime_eq (t now : UInt64) : sleepTime t now = t.toNat - now.toNat := by
  rw [sleepTime]
  split_ifs with h
  · exact UInt64.toNat_sub_of_le _ _ (UInt64.le_of_lt h)
  · have hle := UInt64.le_iff_toNat_le.mp (UInt64.not_lt.mp h)
    omega

/-- A clock that does not go back has moved by the time of the tick. -/
lemma toNat_ticked {clock d : UInt64} (h : clock ≤ clock + d) :
    (clock + d).toNat = clock.toNat + d.toNat := by
  have hle := UInt64.le_iff_toNat_le.mp h
  have hclock := clock.toNat_lt
  have hd := d.toNat_lt
  rw [UInt64.toNat_add] at hle ⊢
  omega

lemma SlotLoop.Step.clock_le (hs : SlotLoop.Step genesis s new s') (h : Unhurried new) :
    s.clock.toNat ≤ s'.clock.toNat := by
  cases hs with
  | tick => exact UInt64.le_iff_toNat_le.mp (h.ticked _ _ (List.mem_singleton_self _))
  | clockSet => exact UInt64.le_iff_toNat_le.mp (h.set _ _ (List.mem_singleton_self _))
  | entered => exact le_rfl
  | roused => exact le_rfl
  | aligned => exact le_rfl
  | interrupted => exact le_rfl
  | began => exact le_rfl
  | stopped => exact le_rfl
  | finished => exact le_rfl

/-- The sums of `slot_loop` are below `2 ^ 64` at the time of the clock. -/
def SlotLoop.HasRoom (s : SlotLoop) : Prop := s.clock.toNat + acSlotDurationMs.toNat < 2 ^ 64

/-- When a sleep ends, the clock shows at least the time for which it was begun. -/
def InTime (genesis start : UInt64) (s : SlotLoop) : Prop :=
  start.toNat ≤ s.clock.toNat ∧
    match s.pc with
    | .entry => True
    | .waiting wake => genesis.toNat + s.elapsed ≤ s.clock.toNat + wake
    | .asleep wake turn => start.toNat < due genesis turn ∧
        due genesis turn + s.elapsed ≤ s.clock.toNat + wake
    | .working turn _ => start.toNat < due genesis turn ∧ due genesis turn ≤ s.clock.toNat
    | .stopped => True

/-- **A step keeps the times**, when it is not hurried: a phase that begins is due. -/
lemma InTime.step (h : InTime genesis start s) (hs : SlotLoop.Step genesis s new s')
    (hnew : Unhurried new) (hroom : s'.HasRoom) :
    InTime genesis start s' ∧
      ∀ e ∈ begun new, start.toNat < due genesis e.1 ∧ due genesis e.1 ≤ e.2.toNat := by
  obtain ⟨hstart, hpc⟩ := h
  have hclock := hs.clock_le hnew
  rw [SlotLoop.HasRoom, slotDuration_toNat] at hroom
  cases hs with
  | tick elapsed clock d pc =>
    have hmoved := toNat_ticked (hnew.ticked _ _ (List.mem_singleton_self _))
    refine ⟨⟨hstart.trans hclock, ?_⟩, by simp [begun]⟩
    cases pc <;> simp only [hmoved] at hpc ⊢ <;> omega
  | clockSet elapsed clock v pc =>
    refine ⟨⟨hstart.trans hclock, ?_⟩, by simp [begun]⟩
    cases pc <;> simp only at hpc hclock ⊢ <;> omega
  | entered elapsed clock =>
    refine ⟨⟨hstart, ?_⟩, by simp [begun]⟩
    simp only [sleepTime_eq]
    omega
  | roused => exact absurd (List.mem_singleton_self _) hnew.slept
  | aligned elapsed clock wake hwake =>
    simp only at hpc hstart hroom
    obtain ⟨hafter, hsoon⟩ := due_firstSlotAfter clock (show genesis.toNat ≤ _ by omega)
    rw [slotDuration_toNat] at hsoon
    refine ⟨⟨hstart, by omega, ?_⟩, by simp [begun]⟩
    simp only [sleepTime_eq, wakeAt_toNat (hsoon.trans_lt hroom)]
    omega
  | interrupted => exact absurd (List.mem_singleton_self _) hnew.slept
  | began elapsed clock wake turn hwake =>
    obtain ⟨hahead, hdue⟩ := hpc
    simp only at hdue
    have hbegins : due genesis turn ≤ clock.toNat := by omega
    refine ⟨⟨hstart, hahead, hbegins⟩, fun e he => ?_⟩
    obtain rfl : e = (turn, clock) := List.mem_singleton.mp he
    exact ⟨hahead, hbegins⟩
  | stopped => exact ⟨⟨hstart, trivial⟩, by simp [begun]⟩
  | finished elapsed clock turn since =>
    obtain ⟨hahead, hdue⟩ := hpc
    simp only at hdue hroom
    obtain ⟨hlater, hsoon⟩ := due_turnAfter turn (show due genesis turn < _ by omega)
    rw [slotDuration_toNat] at hsoon
    refine ⟨⟨hstart, by omega, ?_⟩, by simp [begun]⟩
    simp only [sleepTime_eq, wakeAt_toNat (show due genesis (turnAfter turn) < 2 ^ 64 by omega)]
    omega

/-- When a sleep ends, the clock shows the time for which it was begun; a phase has begun at most
`delay` behind it. -/
def OnTime (genesis : UInt64) (delay : ℕ) (s : SlotLoop) : Prop :=
  match s.pc with
  | .asleep wake turn => due genesis turn + s.elapsed = s.clock.toNat + wake
  | .working turn since => since ≤ s.elapsed ∧
      s.clock.toNat + since ≤ due genesis turn + delay + s.elapsed
  | _ => True

/-- **A prompt step is on time.** -/
lemma OnTime.step (h : OnTime genesis delay s) (htime : InTime genesis start s)
    (hs : SlotLoop.Step genesis s new s') (hnew : Unhurried new) (hprompt : Prompt work delay new)
    (hroom : s'.HasRoom) :
    OnTime genesis delay s' ∧ ∀ e ∈ begun new, e.2.toNat ≤ due genesis e.1 + delay := by
  obtain ⟨-, hpc⟩ := htime
  rw [SlotLoop.HasRoom, slotDuration_toNat] at hroom
  cases hs with
  | tick elapsed clock d pc =>
    have hmoved := toNat_ticked (hnew.ticked _ _ (List.mem_singleton_self _))
    refine ⟨?_, by simp [begun]⟩
    cases pc <;> simp only [OnTime, hmoved] at h ⊢ <;> omega
  | clockSet => exact absurd (List.mem_singleton_self _) (hprompt.unset _ _)
  | entered => exact ⟨trivial, by simp [begun]⟩
  | roused => exact ⟨trivial, by simp [begun]⟩
  | aligned elapsed clock wake hwake =>
    simp only at hpc hroom
    obtain ⟨hafter, hsoon⟩ := due_firstSlotAfter clock (show genesis.toNat ≤ _ by omega)
    rw [slotDuration_toNat] at hsoon
    refine ⟨?_, by simp [begun]⟩
    simp only [OnTime, sleepTime_eq, wakeAt_toNat (hsoon.trans_lt hroom)]
    omega
  | interrupted => exact absurd (List.mem_singleton_self _) hnew.slept
  | began elapsed clock wake turn hwake =>
    have hlate := hprompt.late _ _ _ (List.mem_singleton_self _)
    simp only [OnTime] at h
    refine ⟨⟨le_rfl, by simp only; omega⟩, fun e he => ?_⟩
    obtain rfl : e = (turn, clock) := List.mem_singleton.mp he
    simp only
    omega
  | stopped => exact ⟨trivial, by simp [begun]⟩
  | finished elapsed clock turn since =>
    have htook := hprompt.took _ (List.mem_singleton_self _)
    have hfits := hprompt.room
    obtain ⟨-, hdue⟩ := hpc
    obtain ⟨hsince, hbegan⟩ := h
    simp only at hdue hroom hsince hbegan
    obtain ⟨hlater, hsoon⟩ := due_turnAfter turn (show due genesis turn < _ by omega)
    rw [slotDuration_toNat] at hsoon
    refine ⟨?_, by simp [begun]⟩
    -- the phase has ended before the next one is due
    simp only [OnTime, sleepTime_eq,
      wakeAt_toNat (show due genesis (turnAfter turn) < 2 ^ 64 by omega)]
    omega

/-- The thread before its first reading of the clock. -/
def SlotLoop.initial (start : UInt64) : SlotLoop := ⟨0, start, .entry⟩

lemma SlotLoop.inTurn_of_run (h : Run (SlotLoop.Step genesis) (.initial start) es s) :
    ∃ first, InTurn first es s :=
  h.invariant (I := fun es s => ∃ first, InTurn first es s) ⟨0, rfl, rfl⟩
    fun _ _ _ _ ⟨_, hturn⟩ hs => hturn.step hs

lemma SlotLoop.inTime_of_run (h : Run (SlotLoop.Step genesis) (.initial start) es s)
    (hes : Unhurried es) (hroom : s.HasRoom) : InTime genesis start s ∧
      ∀ e ∈ begun es, start.toNat < due genesis e.1 ∧ due genesis e.1 ≤ e.2.toNat := by
  refine h.invariant (I := fun es s => Unhurried es → SlotLoop.HasRoom s →
    InTime genesis start s ∧
      ∀ e ∈ begun es, start.toNat < due genesis e.1 ∧ due genesis e.1 ≤ e.2.toNat)
    (fun _ _ => ⟨⟨le_rfl, trivial⟩, by simp [begun]⟩) ?_ hes hroom
  intro fs t new v hI hs hall hv
  have hnew := hall.mono (List.subset_append_right fs new)
  -- the clock has not gone back, so there was room before the step as well
  have ht : t.HasRoom := lt_of_le_of_lt (Nat.add_le_add_right (hs.clock_le hnew) _) hv
  obtain ⟨htime, hbegun⟩ := hI (hall.mono (List.subset_append_left fs new)) ht
  obtain ⟨htime', hbegun'⟩ := htime.step hs hnew hv
  rw [begun_append]
  exact ⟨htime', List.forall_mem_append.mpr ⟨hbegun, hbegun'⟩⟩

lemma SlotLoop.onTime_of_run (h : Run (SlotLoop.Step genesis) (.initial start) es s)
    (hes : Unhurried es) (hprompt : Prompt work delay es) (hroom : s.HasRoom) :
    ∀ e ∈ begun es, e.2.toNat ≤ due genesis e.1 + delay := by
  refine (h.invariant (I := fun es s => Unhurried es → Prompt work delay es →
    SlotLoop.HasRoom s → InTime genesis start s ∧ OnTime genesis delay s ∧
      ∀ e ∈ begun es, e.2.toNat ≤ due genesis e.1 + delay)
    (fun _ _ _ => ⟨⟨le_rfl, trivial⟩, trivial, by simp [begun]⟩) ?_ hes hprompt hroom).2.2
  intro fs t new v hI hs hall hfast hv
  have hnew := hall.mono (List.subset_append_right fs new)
  have hfs := List.subset_append_left fs new
  have ht : t.HasRoom := lt_of_le_of_lt (Nat.add_le_add_right (hs.clock_le hnew) _) hv
  obtain ⟨htime, hon, hbegun⟩ := hI (hall.mono hfs) (hfast.mono hfs) ht
  obtain ⟨hon', hbegun'⟩ := hon.step htime hs hnew
    (hfast.mono (List.subset_append_right fs new)) hv
  rw [begun_append]
  exact ⟨(htime.step hs hnew hv).1, hon', List.forall_mem_append.mpr ⟨hbegun, hbegun'⟩⟩

/-- **The phases of the slot thread.**  From a first slot on, every slot has its three phases, once
and in their order, whatever the clock does and however the sleeps end.

If no sleep is cut short, the clock does not go back and it stays a slot below `2 ^ 64`
milliseconds, then no phase begins before it is due, and the first slot had not started when the
thread did.  If moreover nobody sets the clock, and a phase and a wake-up together take no longer
than `AC_SEAL_GRACE_MS`, no phase begins later than a wake-up takes. -/
theorem slot_loop_schedule (hrun : Run (SlotLoop.Step genesis) (.initial start) es s) :
    (∃ first, (begun es).map Prod.fst = turnsFrom first (begun es).length) ∧
      (Unhurried es → s.HasRoom →
        (∀ e ∈ begun es, start.toNat < due genesis e.1 ∧ due genesis e.1 ≤ e.2.toNat) ∧
          ∀ work delay, Prompt work delay es →
            ∀ e ∈ begun es, e.2.toNat ≤ due genesis e.1 + delay) := by
  obtain ⟨first, hturn⟩ := SlotLoop.inTurn_of_run hrun
  exact ⟨⟨first, hturn.turns⟩, fun hes hroom => ⟨(SlotLoop.inTime_of_run hrun hes hroom).2,
    fun _ _ hprompt => SlotLoop.onTime_of_run hrun hes hprompt hroom⟩⟩

end Loop

/-- A thread that starts before the genesis, wakes up a little late, and works for a while before
it sleeps until the votes. -/
theorem slot_loop_schedule_first : ∃ (es : List LoopEvent) (s : SlotLoop),
    Run (SlotLoop.Step 1000) (.initial 0) es s ∧
      begun es = [((1, .propose), 3010), ((1, .vote), 4100)] ∧
      (∃ first, (begun es).map Prod.fst = turnsFrom first (begun es).length) ∧
      ∀ e ∈ begun es, due 1000 e.1 ≤ e.2.toNat ∧ e.2.toNat ≤ due 1000 e.1 + 50 := by
  have hrun : Run (SlotLoop.Step 1000) (.initial 0) _ _ :=
    (Run.refl _).tail (.entered 0 0) |>.tail (.tick 0 0 1000 _)
      |>.tail (.aligned 1000 1000 1000 (by decide)) |>.tail (.tick 1000 1000 2010 _)
      |>.tail (.began 3010 3010 3000 (1, .propose) (by decide)) |>.tail (.tick 3010 3010 40 _)
      |>.tail (.finished 3050 3050 (1, .propose) 3010) |>.tail (.tick 3050 3050 1050 _)
      |>.tail (.began 4100 4100 4100 (1, .vote) (by decide))
  obtain ⟨hturns, htimes⟩ := slot_loop_schedule hrun
  have hforward : ∀ old new : UInt64, (old = 0 ∧ new = 1000 ∨ old = 1000 ∧ new = 3010 ∨
      old = 3010 ∧ new = 3050 ∨ old = 3050 ∧ new = 4100) → old ≤ new := by
    rintro old new (⟨rfl, rfl⟩ | ⟨rfl, rfl⟩ | ⟨rfl, rfl⟩ | ⟨rfl, rfl⟩) <;> decide
  obtain ⟨hdue, hprompt⟩ := htimes ⟨by simp, by simpa using hforward, by simp⟩
    (show 4100 + 2000 < 2 ^ 64 by decide)
  have hlate := hprompt 100 50 ⟨by simp, by simp, ?_, by decide⟩
  · exact ⟨_, _, hrun, rfl, hturns, fun e he => ⟨(hdue e he).2, hlate e he⟩⟩
  · intro turn clock t ht
    simp only [List.mem_append, List.mem_singleton, List.not_mem_nil, LoopEvent.began.injEq,
      reduceCtorEq, false_or, or_false] at ht
    omega

/-- **A phase that begins early.**  It takes a sleep that is cut short, with a clock that nobody
sets, or a clock that is set back during a sleep, with sleeps of full length. -/
theorem phase_begins_early :
    (∃ es s, Run (SlotLoop.Step 1000) (.initial 1000) es s ∧
      (∀ old new, .clockSet old new ∉ es) ∧ ∃ e ∈ begun es, e.2.toNat < due 1000 e.1) ∧
    ∃ es s, Run (SlotLoop.Step 1000) (.initial 1000) es s ∧
      .interrupted ∉ es ∧ ∃ e ∈ begun es, e.2.toNat < due 1000 e.1 := by
  have hasleep : Run (SlotLoop.Step 1000) (.initial 1000) []
      ⟨0, 1000, .asleep 2000 (1, .propose)⟩ :=
    (Run.single (SlotLoop.Step.entered 0 1000)).tail (SlotLoop.Step.aligned 0 1000 0 le_rfl)
  refine ⟨⟨_, _, hasleep.tail (.interrupted 0 1000 2000 _ (by decide))
    |>.tail (.began 0 1000 0 _ le_rfl), by simp, ((1, .propose), 1000), ?_, by decide⟩,
    ⟨_, _, hasleep.tail (.tick 0 1000 2000 _) |>.tail (.clockSet 2000 3000 1000 _)
    |>.tail (.began 2000 1000 2000 _ le_rfl), by simp, ((1, .propose), 1000), ?_, by decide⟩⟩
  · exact List.mem_singleton_self _
  · exact List.mem_singleton_self _

end AgentChain
