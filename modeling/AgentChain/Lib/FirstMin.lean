import Mathlib.Data.List.Basic
import Mathlib.Tactic

/-!
# The loop that keeps the first least element

A loop over a list remembers an element and replaces it by every later one that compares
strictly less.  What it returns is the first of the least elements: everything in front of it
is strictly greater, and nothing behind it is less (`firstMin_spec`).
-/

namespace AgentChain

variable {α : Type*}

/-- One round of the loop. -/
def keepLess (cmp : α → α → Ordering) (best : Option α) (a : α) : Option α :=
  match best with
  | none => some a
  | some b => if cmp a b = .lt then some a else some b

/-- The element that the loop returns. -/
def firstMin (cmp : α → α → Ordering) (l : List α) : Option α := l.foldl (keepLess cmp) none

variable {cmp : α → α → Ordering}

lemma firstMin_snoc (l : List α) (a : α) :
    firstMin cmp (l ++ [a]) = keepLess cmp (firstMin cmp l) a := by
  rw [firstMin, List.foldl_append]
  rfl

lemma firstMin_eq_none {l : List α} : firstMin cmp l = none ↔ l = [] := by
  constructor
  · intro h
    induction l using List.reverseRecOn with
    | nil => rfl
    | append_singleton l a ih =>
      rw [firstMin_snoc, keepLess.eq_def] at h
      split at h
      · exact absurd h (by simp)
      · split_ifs at h
  · rintro rfl
    rfl

/-- **The first least element.** -/
theorem firstMin_spec [Std.TransCmp cmp] {l : List α} {a : α} (h : firstMin cmp l = some a) :
    ∃ before after, l = before ++ a :: after ∧ (∀ b ∈ before, cmp a b = .lt) ∧
      ∀ b ∈ after, cmp b a ≠ .lt := by
  induction l using List.reverseRecOn generalizing a with
  | nil => exact absurd h (by simp [firstMin])
  | append_singleton l x ih =>
    rw [firstMin_snoc, keepLess.eq_def] at h
    split at h
    · rename_i hnone
      rw [firstMin_eq_none.mp hnone]
      obtain rfl := Option.some.inj h
      exact ⟨[], [], rfl, by simp, by simp⟩
    · rename_i b hb
      obtain ⟨before, after, hl, hbefore, hafter⟩ := ih hb
      split_ifs at h with hlt
      · -- the new element is below the old minimum, hence below everything
        obtain rfl := Option.some.inj h
        refine ⟨l, [], rfl, fun y hy => ?_, by simp⟩
        rw [hl, List.mem_append, List.mem_cons] at hy
        rcases hy with hy | rfl | hy
        · exact Std.TransCmp.lt_trans hlt (hbefore y hy)
        · exact hlt
        · refine Std.TransCmp.lt_of_lt_of_isLE hlt ?_
          rw [← Std.OrientedCmp.isGE_iff_isLE, Ordering.isGE_iff_ne_lt]
          exact hafter y hy
      · obtain rfl := Option.some.inj h
        refine ⟨before, after ++ [x], ?_, hbefore, fun y hy => ?_⟩
        · rw [hl, List.append_assoc, List.cons_append]
        · rw [List.mem_append, List.mem_singleton] at hy
          rcases hy with hy | rfl
          · exact hafter y hy
          · exact hlt

lemma firstMin_mem [Std.TransCmp cmp] {l : List α} {a : α} (h : firstMin cmp l = some a) :
    a ∈ l := by
  obtain ⟨before, after, rfl, -⟩ := firstMin_spec h
  exact List.mem_append_right before List.mem_cons_self

/-- Nothing is below the element that the loop returns. -/
lemma firstMin_le [Std.TransCmp cmp] {l : List α} {a b : α} (h : firstMin cmp l = some a)
    (hb : b ∈ l) : cmp b a ≠ .lt := by
  obtain ⟨before, after, rfl, hbefore, hafter⟩ := firstMin_spec h
  have hself : cmp a a = .eq := Std.ReflCmp.compare_self
  rw [List.mem_append, List.mem_cons] at hb
  rcases hb with hb | rfl | hb
  · intro hlt
    have htrans := Std.TransCmp.lt_trans hlt (hbefore b hb)
    have hrefl : cmp b b = .eq := Std.ReflCmp.compare_self
    rw [hrefl] at htrans
    exact Ordering.noConfusion htrans
  · rw [hself]
    exact Ordering.noConfusion
  · exact hafter b hb

end AgentChain
