import Mathlib.Algebra.BigOperators.Group.Finset.Basic
import Mathlib.Algebra.Order.BigOperators.Group.Finset
import Mathlib.Tactic

/-!
# Weighted majorities

Two sets that each carry more than half of the weight of a common universe have a member in
common.  A list that is summed entry by entry carries the weight of its set of entries when
nothing is listed twice.

Sums kept in a machine word agree with the sums in the natural numbers as long as the number
of terms times their bound fits (`toNat_foldl_add`).
-/

namespace AgentChain
namespace Quorum

variable {α : Type*} [DecidableEq α]

/-- A set with more than half of the weight of the universe. -/
def Majority (w : α → ℕ) (U A : Finset α) : Prop := A ⊆ U ∧ ∑ x ∈ U, w x < 2 * ∑ x ∈ A, w x

/-- **Two weighted majorities intersect.** -/
theorem Majority.inter_nonempty {w : α → ℕ} {U A B : Finset α} (hA : Majority w U A)
    (hB : Majority w U B) : (A ∩ B).Nonempty := by
  by_contra hne
  have hdisj : Disjoint A B := Finset.disjoint_iff_inter_eq_empty.mpr
    (Finset.not_nonempty_iff_eq_empty.mp hne)
  have hle : ∑ x ∈ A ∪ B, w x ≤ ∑ x ∈ U, w x :=
    Finset.sum_le_sum_of_subset (Finset.union_subset hA.1 hB.1)
  rw [Finset.sum_union hdisj] at hle
  have h₁ := hA.2
  have h₂ := hB.2
  omega

/-- Without repetition, the sum over a list is the sum over its set of entries. -/
lemma sum_map_of_nodup (w : α → ℕ) {xs : List α} (h : xs.Nodup) :
    (xs.map w).sum = ∑ x ∈ xs.toFinset, w x :=
  (List.sum_toFinset w h).symm

/-! ### Sums in a 64-bit word -/

/-- A running 64-bit sum of terms below `2 ^ 32` does not wrap while the terms are few. -/
theorem toNat_foldl_add {β : Type*} (f : β → UInt64) (hf : ∀ x, (f x).toNat < 2 ^ 32)
    (xs : List β) (a : UInt64) (ha : a.toNat + xs.length * 2 ^ 32 ≤ 2 ^ 64) :
    (xs.foldl (fun sum x => sum + f x) a).toNat = a.toNat + (xs.map fun x => (f x).toNat).sum := by
  induction xs generalizing a with
  | nil => simp
  | cons x xs ih =>
    have hx := hf x
    rw [List.length_cons] at ha
    have hadd : (a + f x).toNat = a.toNat + (f x).toNat := by
      rw [UInt64.toNat_add, Nat.mod_eq_of_lt (by omega)]
    rw [List.foldl_cons, ih (a + f x) (by rw [hadd]; omega), hadd, List.map_cons, List.sum_cons]
    omega

end Quorum
end AgentChain
