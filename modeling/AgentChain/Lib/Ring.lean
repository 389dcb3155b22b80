import Mathlib.Data.List.Basic
import Mathlib.Logic.Function.Basic
import Mathlib.Tactic

/-!
# A ring of the latest values

A ring has room for a fixed number of values and a position.  A new value is written at the
position, which then advances and starts over at the end, so that the oldest value is the one
that is lost.  A lookup compares with every value that is held.

The values that were written last, newest first, are a list as long as there is room for all
of them (`Latest.push`), and nothing turns up that was not written (`Ring.has_push`).
-/

namespace AgentChain

/-- A ring of values. -/
structure Ring (α : Type*) (cap : ℕ) where
  slots : ℕ → α
  /-- How many values are held. -/
  n : ℕ
  /-- Where the next value is written. -/
  pos : ℕ
  n_le : n ≤ cap
  pos_lt : pos < cap
  /-- The ring is filled from the start. -/
  pos_eq : n < cap → pos = n

namespace Ring

variable {α : Type*} {cap : ℕ}

/-- The empty ring, with a value in all slots that is never looked at. -/
def empty (zero : α) (hcap : 0 < cap) : Ring α cap :=
  ⟨fun _ => zero, 0, 0, hcap.le, hcap, fun _ => rfl⟩

/-- Whether a value is held. -/
def has [DecidableEq α] (r : Ring α cap) (a : α) : Bool :=
  (List.range r.n).any fun i => r.slots i = a

/-- Write a value. -/
def push (r : Ring α cap) (a : α) : Ring α cap where
  slots := Function.update r.slots r.pos a
  n := if r.n < cap then r.n + 1 else r.n
  pos := (r.pos + 1) % cap
  n_le := by
    have hle := r.n_le
    split_ifs with h
    · exact h
    · exact hle
  pos_lt := Nat.mod_lt _ (Nat.zero_lt_of_lt r.pos_lt)
  pos_eq := by
    intro h
    split_ifs at h ⊢ with hlt
    · rw [r.pos_eq hlt, Nat.mod_eq_of_lt h]
    · exact absurd h hlt

/-- The slot of the value that was written `j` values before the last one. -/
def back (r : Ring α cap) (j : ℕ) : ℕ := if j < r.pos then r.pos - 1 - j else r.pos + cap - 1 - j

/-- The last values that were written are those of the list, newest first. -/
structure Latest (r : Ring α cap) (xs : List α) : Prop where
  length_le : xs.length ≤ r.n
  slots_eq : ∀ j a, xs[j]? = some a → r.slots (r.back j) = a

variable {r : Ring α cap} {xs : List α} {a x : α}

lemma Latest.nil (r : Ring α cap) : r.Latest [] := ⟨Nat.zero_le _, by simp⟩

/-- A new value is the latest one, and the others move back by one. -/
theorem Latest.push (h : r.Latest xs) (hlen : xs.length < cap) (a : α) :
    (r.push a).Latest (a :: xs) := by
  have hn := h.length_le
  have hpos := r.pos_lt
  have hnext : (r.push a).pos = if r.pos + 1 < cap then r.pos + 1 else 0 := by
    show (r.pos + 1) % cap = _
    split_ifs with hlt
    · exact Nat.mod_eq_of_lt hlt
    · rw [show r.pos + 1 = cap by omega, Nat.mod_self]
  refine ⟨?_, fun j x hx => ?_⟩
  · show xs.length + 1 ≤ if r.n < cap then r.n + 1 else r.n
    split_ifs
    · omega
    · omega
  · cases j with
    | zero =>
      rw [List.getElem?_cons_zero, Option.some.injEq] at hx
      have hback : (r.push a).back 0 = r.pos := by
        rw [back, hnext]
        split_ifs <;> omega
      rw [hback, ← hx]
      exact Function.update_self _ _ _
    | succ j =>
      rw [List.getElem?_cons_succ] at hx
      have hj : j < xs.length := (List.getElem?_eq_some_iff.mp hx).1
      have hback : (r.push a).back (j + 1) = r.back j ∧ r.back j ≠ r.pos := by
        rw [back, back, hnext]
        split_ifs <;> omega
      rw [hback.1, ← h.slots_eq j x hx]
      exact Function.update_of_ne hback.2 _ _

variable [DecidableEq α]

lemma has_iff : r.has x = true ↔ ∃ i < r.n, r.slots i = x := by
  simp [has]

/-- The latest values are held. -/
theorem Latest.has (h : r.Latest xs) (hx : x ∈ xs) : r.has x = true := by
  obtain ⟨j, hj⟩ := List.mem_iff_getElem?.mp hx
  have hlt : j < xs.length := (List.getElem?_eq_some_iff.mp hj).1
  refine has_iff.mpr ⟨r.back j, ?_, h.slots_eq j x hj⟩
  have hn := h.length_le
  have hle := r.n_le
  have hpos := r.pos_lt
  have heq := r.pos_eq
  rw [back]
  split_ifs <;> omega

/-- A value that is held was just written, or it was held before. -/
theorem has_push (h : (r.push a).has x = true) : x = a ∨ r.has x = true := by
  obtain ⟨i, hi, hx⟩ := has_iff.mp h
  replace hx : Function.update r.slots r.pos a i = x := hx
  replace hi : i < if r.n < cap then r.n + 1 else r.n := hi
  rw [Function.update_apply] at hx
  split_ifs at hx with hslot
  · exact Or.inl hx.symm
  · refine Or.inr (has_iff.mpr ⟨i, ?_, hx⟩)
    have heq := r.pos_eq
    split_ifs at hi
    · omega
    · exact hi

end Ring

end AgentChain
