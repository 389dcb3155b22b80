import Mathlib.Data.List.Basic

/-!
# Runs of a step relation

A step leads from one state to the next and emits a list of events.  A run is a sequence of
steps together with the events of all of them, in order.  Every invariant of a run is proved
from its steps with `Run.invariant`.
-/

namespace AgentChain
namespace Trace

variable {σ ε : Type*} {step : σ → List ε → σ → Prop}

/-- A finite run and the events it emits. -/
inductive Run (step : σ → List ε → σ → Prop) : σ → List ε → σ → Prop
  | refl (s : σ) : Run step s [] s
  | tail {s t u : σ} {es new : List ε} (h : Run step s es t) (hs : step t new u) :
      Run step s (es ++ new) u

/-- A single step is a run. -/
lemma Run.single {s t : σ} {new : List ε} (h : step s new t) : Run step s new t :=
  .tail (.refl s) h

/-- Runs compose, and their events are appended. -/
theorem Run.trans {s t u : σ} {es fs : List ε} (h : Run step s es t) (h' : Run step t fs u) :
    Run step s (es ++ fs) u := by
  induction h' with
  | refl => rwa [List.append_nil]
  | tail _ hs ih =>
    rw [← List.append_assoc]
    exact .tail ih hs

/-- **Invariants of runs.**  A relation between the events so far and the state that holds
at the start and is kept by every step holds at the end of every run. -/
theorem Run.invariant {I : List ε → σ → Prop} {s u : σ} {es : List ε}
    (h : Run step s es u) (hinit : I [] s)
    (hstep : ∀ fs t new v, I fs t → step t new v → I (fs ++ new) v) : I es u := by
  induction h with
  | refl => exact hinit
  | tail _ hs ih => exact hstep _ _ _ _ ih hs

/-- A run of one step relation is a run of every weaker one. -/
lemma Run.mono {step' : σ → List ε → σ → Prop} (hle : ∀ s new t, step s new t → step' s new t)
    {s u : σ} {es : List ε} (h : Run step s es u) : Run step' s es u := by
  induction h with
  | refl => exact .refl _
  | tail _ hs ih => exact .tail ih (hle _ _ _ hs)

/-- When no step emits more than one event, every event of a run is emitted by a step of it,
between the run before and the run behind. -/
theorem Run.exists_step (hone : ∀ t new v, step t new v → new.length ≤ 1) {s u : σ}
    {before after : List ε} {e : ε} (h : Run step s (before ++ e :: after) u) :
    ∃ t v, Run step s before t ∧ step t [e] v ∧ Run step v after u := by
  generalize hes : before ++ e :: after = es at h
  induction h generalizing after with
  | refl => exact absurd hes (by simp)
  | @tail t u es new h hs ih =>
    have hnew : new = [] ∨ ∃ x, new = [x] := by
      have hle := hone _ _ _ hs
      rcases new with _ | ⟨x, _ | ⟨y, ys⟩⟩
      · exact Or.inl rfl
      · exact Or.inr ⟨x, rfl⟩
      · rw [List.length_cons, List.length_cons] at hle
        omega
    rcases hnew with rfl | ⟨x, rfl⟩
    · rw [List.append_nil] at hes
      obtain ⟨a, b, hab, hstep, hb⟩ := ih hes
      refine ⟨a, b, hab, hstep, ?_⟩
      have := Run.tail hb hs
      rwa [List.append_nil] at this
    · -- the last step emits either the event itself or the last event behind it
      rcases List.eq_nil_or_concat after with rfl | ⟨after', y, rfl⟩
      · obtain ⟨rfl, hx⟩ := List.append_inj' hes rfl
        rw [List.cons.injEq] at hx
        obtain ⟨rfl, -⟩ := hx
        exact ⟨t, u, h, hs, .refl u⟩
      · rw [List.concat_eq_append, ← List.cons_append, ← List.append_assoc] at hes
        obtain ⟨hes', hx⟩ := List.append_inj' hes rfl
        obtain ⟨a, b, hab, hstep, hb⟩ := ih hes'
        rw [List.concat_eq_append, hx]
        exact ⟨a, b, hab, hstep, .tail hb hs⟩

end Trace
end AgentChain
