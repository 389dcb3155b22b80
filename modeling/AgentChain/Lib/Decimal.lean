import Mathlib.Data.Nat.Digits.Lemmas
import Mathlib.Tactic

/-!
# Decimal numbers in a text

Numbers are printed without a sign and without leading zeros, or filled up with zeros to a given
width.  The digits that were printed have the value that was printed.
-/

namespace AgentChain

/-- The character of a digit. -/
def digitChar (d : ℕ) : UInt8 := UInt8.ofNat (48 + d)

/-- The value of a digit. -/
def digitValue (c : UInt8) : ℕ := c.toNat - 48

/-- `%u` -/
def printDec (n : ℕ) : List UInt8 :=
  if n = 0 then [48] else (Nat.digits 10 n).reverse.map digitChar

/-- `%0wu` -/
def padDec (w n : ℕ) : List UInt8 := List.replicate (w - (printDec n).length) 48 ++ printDec n

/-- The value of a list of digits behind the digits of `a`. -/
def digitsValue (a : ℕ) (l : List UInt8) : ℕ := l.foldl (fun a c => 10 * a + digitValue c) a

section Digits

variable {d n a : ℕ}

lemma toNat_digitChar (hd : d < 10) : (digitChar d).toNat = 48 + d :=
  UInt8.toNat_ofNat_of_lt' (show 48 + d < 2 ^ 8 by omega)

lemma digitValue_digitChar (hd : d < 10) : digitValue (digitChar d) = d := by
  rw [digitValue, toNat_digitChar hd]
  omega

@[simp] lemma digitsValue_nil (a : ℕ) : digitsValue a [] = a := rfl

@[simp] lemma digitsValue_cons (a : ℕ) (c : UInt8) (l : List UInt8) :
    digitsValue a (c :: l) = digitsValue (10 * a + digitValue c) l := by
  rw [digitsValue, List.foldl_cons, digitsValue]

@[simp] lemma digitsValue_append (a : ℕ) (l r : List UInt8) :
    digitsValue a (l ++ r) = digitsValue (digitsValue a l) r := List.foldl_append

/-- Little-endian digits, printed in reverse. -/
lemma digitsValue_reverse {ds : List ℕ} (h : ∀ d ∈ ds, d < 10) :
    digitsValue 0 (ds.reverse.map digitChar) = Nat.ofDigits 10 ds := by
  induction ds with
  | nil => rfl
  | cons d ds ih =>
    rw [List.reverse_cons, List.map_append, digitsValue_append,
      ih fun e he => h e (List.mem_cons_of_mem _ he), List.map_singleton, digitsValue_cons,
      digitsValue_nil, digitValue_digitChar (h d List.mem_cons_self), Nat.ofDigits_cons]
    omega

/-- **A printed number is read back.** -/
theorem digitsValue_printDec (n : ℕ) : digitsValue 0 (printDec n) = n := by
  rw [printDec]
  split_ifs with h
  · rw [h]
    rfl
  · rw [digitsValue_reverse fun d hd => Nat.digits_lt_base (by decide) hd, Nat.ofDigits_digits]

lemma digitsValue_padDec (w n : ℕ) : digitsValue 0 (padDec w n) = n := by
  have hzeros : ∀ k, digitsValue 0 (List.replicate k 48) = 0 := by
    intro k
    induction k with
    | zero => rfl
    | succ k ih => exact ih
  rw [padDec, digitsValue_append, hzeros, digitsValue_printDec]

lemma padDec_injective (w : ℕ) : Function.Injective (padDec w) := by
  intro m n h
  rw [← digitsValue_padDec w m, h, digitsValue_padDec]

/-- A number below a power of ten. -/
lemma length_printDec_le {k : ℕ} (hk : 0 < k) (hn : n < 10 ^ k) : (printDec n).length ≤ k := by
  rw [printDec]
  split_ifs with h
  · exact hk
  · rw [List.length_map, List.length_reverse]
    exact (Nat.digits_length_le_iff (by decide) n).mpr hn

end Digits

end AgentChain
