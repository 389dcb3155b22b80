import Mathlib.Tactic

/-!
# Exact operations on 64-bit words, and loops that end

Unsigned arithmetic wraps around without a trace.  Here every operation has a second form that
has no result where the machine would not compute in unbounded integers: a sum or a product
that does not fit, a difference below zero, a division by zero.  A program written with these
forms that has a result has met none of them.

A `loop` repeats a round until the round leaves it, and has no result when the given number of
rounds is used up.  A `whileLoop` is the same loop with plain operations, which stops wherever it
is when the rounds are used up.  `loop_eq_whileLoop` relates the two: when no round fails under an
invariant and a measure goes down, they have the same result for all large numbers of rounds.
-/

namespace AgentChain
namespace CheckedWord

/-! ### Operations -/

/-- The sum, when it fits. -/
def add (a b : UInt64) : Option UInt64 := if a.toNat + b.toNat < 2 ^ 64 then some (a + b) else none

/-- The difference, when it is not negative. -/
def sub (a b : UInt64) : Option UInt64 := if b.toNat ≤ a.toNat then some (a - b) else none

/-- The product, when it fits. -/
def mul (a b : UInt64) : Option UInt64 := if a.toNat * b.toNat < 2 ^ 64 then some (a * b) else none

/-- The quotient, for a divisor other than zero. -/
def div (a b : UInt64) : Option UInt64 := if 0 < b.toNat then some (a / b) else none

/-- The remainder, for a divisor other than zero. -/
def mod (a b : UInt64) : Option UInt64 := if 0 < b.toNat then some (a % b) else none

variable {a b : UInt64}

lemma add_eq (h : a.toNat + b.toNat < 2 ^ 64) : add a b = some (a + b) := if_pos h

lemma sub_eq (h : b.toNat ≤ a.toNat) : sub a b = some (a - b) := if_pos h

lemma mul_eq (h : a.toNat * b.toNat < 2 ^ 64) : mul a b = some (a * b) := if_pos h

lemma div_eq (h : 0 < b.toNat) : div a b = some (a / b) := if_pos h

lemma mod_eq (h : 0 < b.toNat) : mod a b = some (a % b) := if_pos h

lemma toNat_add (h : a.toNat + b.toNat < 2 ^ 64) : (a + b).toNat = a.toNat + b.toNat := by
  rw [UInt64.toNat_add, Nat.mod_eq_of_lt h]

lemma toNat_sub (h : b.toNat ≤ a.toNat) : (a - b).toNat = a.toNat - b.toNat :=
  UInt64.toNat_sub_of_le _ _ (UInt64.le_iff_toNat_le.mpr h)

lemma toNat_mul (h : a.toNat * b.toNat < 2 ^ 64) : (a * b).toNat = a.toNat * b.toNat := by
  rw [UInt64.toNat_mul, Nat.mod_eq_of_lt h]

/-! ### Loops -/

section Loop

variable {σ ρ : Type*}

/-- At most `fuel` rounds of a loop.  A round fails, goes on with a state or leaves with a
result. -/
def loop (round : σ → Option (σ ⊕ ρ)) : ℕ → σ → Option ρ
  | 0, _ => none
  | fuel + 1, s =>
      match round s with
      | none => none
      | some (.inl s') => loop round fuel s'
      | some (.inr r) => some r

/-- At most `n` rounds of `while (cond) s = next (s)`. -/
def whileLoop (cond : σ → Prop) [DecidablePred cond] (next : σ → σ) : ℕ → σ → σ
  | 0, s => s
  | n + 1, s => if cond s then whileLoop cond next n (next s) else s

variable {cond : σ → Prop} [DecidablePred cond] {next : σ → σ} {round : σ → Option (σ ⊕ σ)}
  {I : σ → Prop} {s : σ}

lemma whileLoop_of_not (h : ¬ cond s) (n : ℕ) : whileLoop cond next n s = s := by
  cases n with
  | zero => rfl
  | succ n => rw [whileLoop, if_neg h]

/-- **Checked loops follow plain ones.**  From a state with the invariant `I` a round does what the
plain loop does, and it goes on with the invariant and a smaller measure.  Then both loops have the
same result, for all numbers of rounds that the measure allows for. -/
theorem loop_eq_whileLoop (μ : σ → ℕ)
    (hround : ∀ s, I s → round s = some (if cond s then .inl (next s) else .inr s))
    (hnext : ∀ s, I s → cond s → I (next s) ∧ μ (next s) < μ s) (hs : I s) {n fuel : ℕ}
    (hn : μ s ≤ n) (hfuel : μ s < fuel) :
    loop round fuel s = some (whileLoop cond next n s) := by
  induction fuel generalizing s n with
  | zero => exact absurd hfuel (Nat.not_lt_zero _)
  | succ fuel ih =>
    rw [loop, hround s hs]
    by_cases hcond : cond s
    · obtain ⟨hs', hlt⟩ := hnext s hs hcond
      obtain ⟨n, rfl⟩ := Nat.exists_eq_succ_of_ne_zero (Nat.ne_zero_of_lt (hlt.trans_le hn))
      rw [if_pos hcond, whileLoop, if_pos hcond]
      exact ih hs' (by omega) (by omega)
    · rw [if_neg hcond, whileLoop_of_not hcond]

end Loop

end CheckedWord
end AgentChain
