import AgentChain.Common
import AgentChain.Lib.CheckedWord

/-!
# The integer square root, operation by operation

`ac_isqrt_u64` runs Newton's iteration from above and then corrects its result in both
directions.  This file writes it a second time with checked operations and with loops that may
run out of rounds, and shows that each loop does what the one of `acIsqrtU64` does.  From above, an
iterate stays between the square root and the 32-bit limit, so the sum `r + x / r` is far from
overflowing and no divisor is zero.
-/

namespace AgentChain

open CheckedWord

/-! ### The checked program -/

/-- One round of the Newton loop. -/
def newtonRound (x r : UInt64) : Option (UInt64 ⊕ UInt64) := do
  let q ← div x r
  let sum ← add r q
  let nr ← div sum 2
  pure (if r ≤ nr then .inr r else .inl nr)

/-- One round of the downward correction; the quotient is only formed for `r > 0`. -/
def downRound (x r : UInt64) : Option (UInt64 ⊕ UInt64) :=
  if 0 < r then do
    let q ← div x r
    if q < r then (sub r 1).map .inl else pure (.inr r)
  else pure (.inr r)

/-- One round of the upward correction; the sum is only formed for `r < SQRT_MAX`. -/
def upRound (x r : UInt64) : Option (UInt64 ⊕ UInt64) :=
  if r < sqrtMax then do
    let next ← add r 1
    let q ← div x next
    if next ≤ q then (add r 1).map .inl else pure (.inr r)
  else pure (.inr r)

/-- `ac_isqrt_u64` with checked operations and at most `fuel` rounds of each loop. -/
def isqrtChecked (fuel : ℕ) (x : UInt64) : Option UInt64 :=
  if x = 0 then some 0
  else if x = 1 then some 1
  else do
    let r ← loop (newtonRound x) fuel (if sqrtMax < x then sqrtMax else x)
    let r ← loop (downRound x) fuel r
    loop (upRound x) fuel r

/-! ### The loops -/

section Loops

variable {x r : UInt64}

lemma toNat_sqrtMax : sqrtMax.toNat = 4294967295 := rfl

/-- An iterate from above: the next square exceeds `x`. -/
structure Above (x r : UInt64) : Prop where
  pos : 0 < r.toNat
  le : r.toNat ≤ sqrtMax.toNat
  lt_sq : x.toNat < (r.toNat + 1) * (r.toNat + 1)

/-- Newton's step in natural numbers does not fall below the square root. -/
lemma newton_lt_sq {x r : ℕ} (hr : 0 < r) :
    x < ((r + x / r) / 2 + 1) * ((r + x / r) / 2 + 1) := by
  have hq : x < r * (x / r + 1) := Nat.lt_mul_div_succ x hr
  generalize x / r = q at hq ⊢
  have hhalf : r + (q + 1) ≤ 2 * ((r + q) / 2 + 1) := by omega
  generalize (r + q) / 2 + 1 = m at hhalf ⊢
  -- four times a product is at most the square of the sum
  have hsq : 4 * (r * (q + 1)) ≤ (r + (q + 1)) * (r + (q + 1)) := by
    zify
    nlinarith [sq_nonneg ((r : ℤ) - (q + 1))]
  have hm := Nat.mul_le_mul hhalf hhalf
  nlinarith

/-- From above the quotient is hardly larger than the iterate. -/
lemma Above.quotient_le (h : Above x r) : (x / r).toNat ≤ r.toNat + 2 := by
  have hlt := h.lt_sq
  rw [UInt64.toNat_div]
  refine Nat.div_le_of_le_mul ?_
  nlinarith

lemma newtonRound_eq (h : Above x r) : newtonRound x r =
    some (if ¬ r ≤ (r + x / r) / 2 then .inl ((r + x / r) / 2) else .inr r) := by
  have hq := h.quotient_le
  have hmax : r.toNat ≤ 4294967295 := h.le
  have hfits : r.toNat + (x / r).toNat < 2 ^ 64 := by omega
  simp only [newtonRound, div_eq h.pos, add_eq hfits, div_eq (b := 2) (by decide),
    Option.bind_eq_bind, Option.bind_some, ite_not]
  rfl

/-- An iterate that goes down stays above the square root. -/
lemma Above.next (hx : 0 < x.toNat) (h : Above x r) (hgo : ¬ r ≤ (r + x / r) / 2) :
    Above x ((r + x / r) / 2) ∧ ((r + x / r) / 2).toNat < r.toNat := by
  have htwo : (2 : UInt64).toNat = 2 := rfl
  have hq := h.quotient_le
  have hmax : r.toNat ≤ 4294967295 := h.le
  have hlt : ((r + x / r) / 2).toNat < r.toNat := by
    rwa [UInt64.le_iff_toNat_le, not_le] at hgo
  have hnext : x.toNat < (((r + x / r) / 2).toNat + 1) * (((r + x / r) / 2).toNat + 1) := by
    rw [UInt64.toNat_div, toNat_add (by omega), UInt64.toNat_div, htwo]
    exact newton_lt_sq h.pos
  refine ⟨⟨?_, hlt.le.trans h.le, hnext⟩, hlt⟩
  -- an iterate of zero would have `x` below one
  rcases Nat.eq_zero_or_pos ((r + x / r) / 2).toNat with hz | hpos
  · rw [hz] at hnext
    omega
  · exact hpos

lemma isqrtNewton_eq (x : UInt64) (n : ℕ) (r : UInt64) : isqrtNewton x n r =
    whileLoop (fun r => ¬ r ≤ (r + x / r) / 2) (fun r => (r + x / r) / 2) n r := by
  induction n generalizing r with
  | zero => rfl
  | succ n ih => rw [isqrtNewton, whileLoop, ite_not, ih]

lemma loop_newtonRound (hx : 0 < x.toNat) (h : Above x r) {fuel : ℕ} (hfuel : r.toNat < fuel) :
    loop (newtonRound x) fuel r = some (isqrtNewton x r.toNat r) := by
  rw [isqrtNewton_eq]
  exact loop_eq_whileLoop UInt64.toNat (fun _ => newtonRound_eq) (fun _ hs => hs.next hx) h le_rfl
    hfuel

lemma downRound_eq (x r : UInt64) : downRound x r =
    some (if 0 < r ∧ x / r < r then .inl (r - 1) else .inr r) := by
  rw [downRound]
  by_cases hpos : 0 < r
  · have hrpos : (1 : UInt64).toNat ≤ r.toNat := UInt64.lt_iff_toNat_lt.mp hpos
    rw [if_pos hpos, div_eq hrpos, sub_eq hrpos, Option.bind_eq_bind, Option.bind_some]
    by_cases hgt : x / r < r
    · rw [if_pos hgt, if_pos ⟨hpos, hgt⟩]
      rfl
    · rw [if_neg hgt, if_neg fun h => hgt h.2]
      rfl
  · rw [if_neg hpos, if_neg fun h => hpos h.1]
    rfl

lemma isqrtDown_eq (x : UInt64) (n : ℕ) (r : UInt64) : isqrtDown x n r =
    whileLoop (fun r => 0 < r ∧ x / r < r) (fun r => r - 1) n r := by
  induction n generalizing r with
  | zero => rfl
  | succ n ih => rw [isqrtDown, whileLoop, ih]

lemma loop_downRound (x r : UInt64) {fuel : ℕ} (hfuel : r.toNat < fuel) :
    loop (downRound x) fuel r = some (isqrtDown x r.toNat r) := by
  rw [isqrtDown_eq]
  refine loop_eq_whileLoop (I := fun _ => True) UInt64.toNat (fun s _ => downRound_eq x s)
    (fun s _ hgo => ⟨trivial, ?_⟩) trivial le_rfl hfuel
  have hpos : (1 : UInt64).toNat ≤ s.toNat := UInt64.lt_iff_toNat_lt.mp hgo.1
  have hone : (1 : UInt64).toNat = 1 := rfl
  rw [toNat_sub hpos]
  omega

lemma upRound_eq (x r : UInt64) : upRound x r =
    some (if r < sqrtMax ∧ r + 1 ≤ x / (r + 1) then .inl (r + 1) else .inr r) := by
  rw [upRound]
  by_cases hlt : r < sqrtMax
  · have hone : (1 : UInt64).toNat = 1 := rfl
    have hmax := toNat_sqrtMax
    have hr : r.toNat < sqrtMax.toNat := UInt64.lt_iff_toNat_lt.mp hlt
    have hfits : r.toNat + (1 : UInt64).toNat < 2 ^ 64 := by omega
    have hpos : 0 < (r + 1).toNat := by rw [toNat_add hfits]; omega
    simp only [if_pos hlt, add_eq hfits, Option.bind_eq_bind, Option.bind_some, div_eq hpos]
    by_cases hle : r + 1 ≤ x / (r + 1)
    · rw [if_pos hle, if_pos ⟨hlt, hle⟩]
      rfl
    · rw [if_neg hle, if_neg fun h => hle h.2]
      rfl
  · rw [if_neg hlt, if_neg fun h => hlt h.1]
    rfl

lemma isqrtUp_eq (x : UInt64) (n : ℕ) (r : UInt64) : isqrtUp x n r =
    whileLoop (fun r => r < sqrtMax ∧ r + 1 ≤ x / (r + 1)) (fun r => r + 1) n r := by
  induction n generalizing r with
  | zero => rfl
  | succ n ih => rw [isqrtUp, whileLoop, ih]

lemma loop_upRound (x r : UInt64) {fuel : ℕ} (hfuel : sqrtMax.toNat < fuel) :
    loop (upRound x) fuel r = some (isqrtUp x sqrtMax.toNat r) := by
  have hone : (1 : UInt64).toNat = 1 := rfl
  have hmax := toNat_sqrtMax
  rw [isqrtUp_eq]
  refine loop_eq_whileLoop (I := fun _ => True) (fun s => sqrtMax.toNat - s.toNat)
    (fun s _ => upRound_eq x s) (fun s _ hgo => ⟨trivial, ?_⟩) trivial (Nat.sub_le _ _)
    ((Nat.sub_le _ _).trans_lt hfuel)
  have hlt : s.toNat < sqrtMax.toNat := UInt64.lt_iff_toNat_lt.mp hgo.1
  rw [toNat_add (by omega)]
  omega

end Loops

/-! ### Correctness -/

/-- The result is the square root of the natural numbers. -/
lemma acIsqrtU64_eq_sqrt (x : UInt64) : (acIsqrtU64 x).toNat = x.toNat.sqrt :=
  Nat.eq_sqrt.mpr (acIsqrtU64_spec x)

/-- For all large numbers of rounds the checked program has the result of `acIsqrtU64`. -/
lemma isqrtChecked_eq (x : UInt64) {fuel : ℕ} (hfuel : 2 ^ 32 ≤ fuel) :
    isqrtChecked fuel x = some (acIsqrtU64 x) := by
  have hmax := toNat_sqrtMax
  rw [isqrtChecked]
  by_cases h0 : x = 0
  · rw [if_pos h0, h0]
    rfl
  by_cases h1 : x = 1
  · rw [if_neg h0, if_pos h1, h1]
    rfl
  · rw [if_neg h0, if_neg h1]
    have hpos : 0 < x.toNat := by
      rcases Nat.eq_zero_or_pos x.toNat with hz | hpos
      · exact absurd (UInt64.toNat_inj.mp hz) h0
      · exact hpos
    have hstart : Above x (if sqrtMax < x then sqrtMax else x) := by
      have hxlt : x.toNat < 2 ^ 64 := x.toNat_lt
      split_ifs with hbig
      · exact ⟨by omega, le_rfl, by rw [hmax]; omega⟩
      · rw [UInt64.lt_iff_toNat_lt, not_lt] at hbig
        exact ⟨hpos, hbig, by nlinarith⟩
    rw [acIsqrtU64, if_neg h0, if_neg h1]
    generalize (if sqrtMax < x then sqrtMax else x) = r at hstart ⊢
    have hle := hstart.le
    have hle' := (isqrtNewton_le x r.toNat r).trans hle
    simp only [loop_newtonRound hpos hstart (show r.toNat < fuel by omega), Option.bind_eq_bind,
      Option.bind_some]
    rw [loop_downRound x _ (by omega), Option.bind_some, loop_upRound x _ (by omega)]

/-- **The integer square root is exact.**  The checked program ends, without an overflow and
without a division by zero, and returns the only `r` with `r² ≤ x < (r + 1)²`.  So the square
root is monotone and fits in 32 bits. -/
theorem isqrt_exact (x : UInt64) :
    (∃ enough, ∀ fuel ≥ enough, isqrtChecked fuel x = some (acIsqrtU64 x)) ∧
    (∀ r : ℕ, r * r ≤ x.toNat ∧ x.toNat < (r + 1) * (r + 1) ↔ r = (acIsqrtU64 x).toNat) ∧
    (acIsqrtU64 x).toNat ≤ 2 ^ 32 - 1 ∧
    ∀ y, x ≤ y → acIsqrtU64 x ≤ acIsqrtU64 y := by
  refine ⟨⟨2 ^ 32, fun fuel hfuel => isqrtChecked_eq x hfuel⟩, fun r => ?_, ?_, fun y hxy => ?_⟩
  · rw [acIsqrtU64_eq_sqrt]
    exact Nat.eq_sqrt.symm
  · exact Nat.le_sub_one_of_lt (acIsqrtU64_lt x)
  · rw [UInt64.le_iff_toNat_le] at hxy ⊢
    rw [acIsqrtU64_eq_sqrt, acIsqrtU64_eq_sqrt]
    exact Nat.sqrt_le_sqrt hxy

/-- At the top of the range, where an earlier version of the source returned a constant, and for
two stakes in order. -/
theorem isqrt_exact_top :
    (acIsqrtU64 18446744073709551615).toNat = 4294967295 ∧
      acIsqrtU64 100000000 ≤ acIsqrtU64 400000000 :=
  ⟨(((isqrt_exact 18446744073709551615).2.1 4294967295).mp (by decide)).symm,
    (isqrt_exact 100000000).2.2.2 400000000 (by decide)⟩

end AgentChain
