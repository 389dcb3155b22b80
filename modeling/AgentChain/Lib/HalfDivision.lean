import Mathlib.Tactic

/-!
# Dividing a double word by halves

A number of two digits in base `B` is divided by `s` digit by digit.  The remainder of the upper
digit ought to be carried into the lower one with its full weight `B / s`; the approximation
here carries it with `(B - 1) / s`, an integer.  The lower digit of the result then never
overflows, the error is below `s`, and the order is kept: the result does not decrease with the
number and does not increase with the divisor.
-/

namespace AgentChain
namespace HalfDivision

/-- The lower digit of the result. -/
def low (B hi lo s : ℕ) : ℕ := lo / s + (B - 1) / s * (hi % s)

/-- The result, as a number. -/
def quot (B hi lo s : ℕ) : ℕ := hi / s * B + low B hi lo s

variable {B hi lo hi' lo' s s' : ℕ}

/-- The carry alone does not overflow. -/
lemma carry_lt (hB : 0 < B) (hs : 0 < s) : (B - 1) / s * (hi % s) < B := by
  have hmod : hi % s ≤ s := (Nat.mod_lt hi hs).le
  calc (B - 1) / s * (hi % s) ≤ (B - 1) / s * s := Nat.mul_le_mul_left _ hmod
    _ ≤ B - 1 := Nat.div_mul_le_self _ _
    _ < B := Nat.sub_lt hB one_pos

/-- The lower digit does not overflow. -/
lemma low_lt (hs : 0 < s) (hlo : lo < B) : low B hi lo s < B := by
  have hmod : hi % s + 1 ≤ s := Nat.mod_lt hi hs
  have hlow : lo / s ≤ (B - 1) / s := Nat.div_le_div_right (by omega)
  calc low B hi lo s ≤ (B - 1) / s + (B - 1) / s * (hi % s) := Nat.add_le_add_right hlow _
    _ = (B - 1) / s * (hi % s + 1) := by ring
    _ ≤ (B - 1) / s * s := Nat.mul_le_mul_left _ hmod
    _ ≤ B - 1 := Nat.div_mul_le_self _ _
    _ < B := Nat.sub_lt (by omega) one_pos

/-- The result is at most the quotient. -/
lemma quot_le (B hi lo : ℕ) (hs : 0 < s) : quot B hi lo s ≤ (hi * B + lo) / s := by
  rw [Nat.le_div_iff_mul_le hs]
  have hcarry : (B - 1) / s * s ≤ B := (Nat.div_mul_le_self _ _).trans (Nat.sub_le _ _)
  calc quot B hi lo s * s
      = hi / s * s * B + lo / s * s + (B - 1) / s * s * (hi % s) := by
        rw [quot, low]
        ring
    _ ≤ hi / s * s * B + lo + B * (hi % s) := by
        gcongr
        exact Nat.div_mul_le_self _ _
    _ = (hi / s * s + hi % s) * B + lo := by ring
    _ = hi * B + lo := by rw [Nat.div_add_mod']

/-- The quotient exceeds the result by less than the divisor. -/
lemma div_lt_quot_add (hi lo : ℕ) (hB : 0 < B) (hs : 0 < s) :
    (hi * B + lo) / s < quot B hi lo s + s := by
  rw [Nat.div_lt_iff_lt_mul hs]
  have hhi : hi / s * s + hi % s = hi := Nat.div_add_mod' hi s
  have hlo : lo / s * s + lo % s = lo := Nat.div_add_mod' lo s
  have hbase : (B - 1) / s * s + ((B - 1) % s + 1) = B := by
    have := Nat.div_add_mod' (B - 1) s
    omega
  have hr : hi % s + 1 ≤ s := Nat.mod_lt hi hs
  have hm : lo % s + 1 ≤ s := Nat.mod_lt lo hs
  have he : (B - 1) % s + 1 ≤ s := Nat.mod_lt (B - 1) hs
  -- what is lost: the remainder of the base for each unit carried, and that of the lower digit
  have hlost : hi % s * ((B - 1) % s + 1) + lo % s < s * s := by
    calc hi % s * ((B - 1) % s + 1) + lo % s
        ≤ hi % s * s + lo % s := Nat.add_le_add_right (Nat.mul_le_mul_left _ he) _
      _ < hi % s * s + s := Nat.add_lt_add_left hm _
      _ = (hi % s + 1) * s := by ring
      _ ≤ s * s := Nat.mul_le_mul_right _ hr
  calc hi * B + lo
      = hi / s * s * B + hi % s * B + lo := by rw [← Nat.add_mul, hhi]
    _ = hi / s * s * B + hi % s * ((B - 1) / s * s + ((B - 1) % s + 1)) +
          (lo / s * s + lo % s) := by rw [hbase, hlo]
    _ = (hi / s * B + (lo / s + (B - 1) / s * (hi % s))) * s +
          (hi % s * ((B - 1) % s + 1) + lo % s) := by ring
    _ < quot B hi lo s * s + s * s := Nat.add_lt_add_left hlost _
    _ = (quot B hi lo s + s) * s := by ring

/-- With an upper digit of a smaller quotient the result is smaller. -/
lemma quot_lt_of_div_lt (hs : 0 < s) (hlo : lo < B) (h : hi / s < hi' / s') :
    quot B hi lo s < quot B hi' lo' s' := by
  have hlow : low B hi lo s < B := low_lt hs hlo
  calc quot B hi lo s < hi / s * B + B := Nat.add_lt_add_left hlow _
    _ = (hi / s + 1) * B := by ring
    _ ≤ hi' / s' * B := Nat.mul_le_mul_right _ h
    _ ≤ quot B hi' lo' s' := Nat.le_add_right _ _

/-- The result does not decrease with the number. -/
lemma quot_mono (hs : 0 < s) (hlo : lo < B) (hlo' : lo' < B) (h : hi * B + lo ≤ hi' * B + lo') :
    quot B hi lo s ≤ quot B hi' lo' s := by
  have hhi : hi ≤ hi' := by
    by_contra hlt
    have : (hi' + 1) * B ≤ hi * B := Nat.mul_le_mul_right _ (not_le.mp hlt)
    rw [Nat.add_mul, Nat.one_mul] at this
    omega
  rcases (Nat.div_le_div_right (c := s) hhi).lt_or_eq with hlt | heq
  · exact (quot_lt_of_div_lt hs hlo hlt).le
  rcases hhi.lt_or_eq with hlt | rfl
  · -- the remainder has grown, and one unit of it outweighs any lower digit
    have hmod : hi % s + 1 ≤ hi' % s := by
      have h₁ := Nat.div_add_mod' hi s
      have h₂ := Nat.div_add_mod' hi' s
      rw [← heq] at h₂
      omega
    have hlow : lo / s ≤ (B - 1) / s := Nat.div_le_div_right (by omega)
    rw [quot, quot, low, low, heq]
    refine Nat.add_le_add_left ?_ _
    calc lo / s + (B - 1) / s * (hi % s)
        ≤ (B - 1) / s + (B - 1) / s * (hi % s) := Nat.add_le_add_right hlow _
      _ = (B - 1) / s * (hi % s + 1) := by ring
      _ ≤ (B - 1) / s * (hi' % s) := Nat.mul_le_mul_left _ hmod
      _ ≤ lo' / s + (B - 1) / s * (hi' % s) := Nat.le_add_left _ _
  · have hle : lo / s ≤ lo' / s := Nat.div_le_div_right (by omega)
    exact Nat.add_le_add_left (Nat.add_le_add_right hle _) _

/-- The result does not increase with the divisor. -/
lemma quot_anti (hs : 0 < s) (hlo : lo < B) (h : s ≤ s') : quot B hi lo s' ≤ quot B hi lo s := by
  have hs' : 0 < s' := hs.trans_le h
  rcases (Nat.div_le_div_left (a := hi) h hs).lt_or_eq with hlt | heq
  · exact (quot_lt_of_div_lt hs' hlo hlt).le
  · have hmod : hi % s' ≤ hi % s := by
      have h₁ := Nat.div_add_mod' hi s
      have h₂ := Nat.div_add_mod' hi s'
      have hmul : hi / s * s ≤ hi / s * s' := Nat.mul_le_mul_left _ h
      rw [heq] at h₂
      omega
    have hlow : lo / s' ≤ lo / s := Nat.div_le_div_left h hs
    have hbase : (B - 1) / s' ≤ (B - 1) / s := Nat.div_le_div_left h hs
    rw [quot, quot, heq]
    exact Nat.add_le_add_left (Nat.add_le_add hlow (Nat.mul_le_mul hbase hmod)) _

end HalfDivision
end AgentChain
