import AgentChain.HeaderBounds
import AgentChain.Lib.CheckedWord

/-!
# The step of the base fee

`ac_chain_next_base_fee` follows EIP-1559: the fee moves by an eighth of its share above or
below the gas target, at least by one, and not below one.  The source forms the product of the
fee and the distance to the target in 64 bits, where it wraps around for large fees.  This file
compares the function with the rule in unbounded integers: they agree exactly where the
product fits.  Without that the fee still moves by at most an eighth and stays positive, but
fuller blocks no longer give higher fees.
-/

namespace AgentChain

/-! ### The rule -/

/-- The size of a step in unbounded integers, at a distance `d` from the target. -/
def exactStep (prev d target : ℕ) : ℕ := max 1 (prev * d / target / 8)

/-- The rule of EIP-1559 in unbounded integers. -/
def exactBaseFee (prev gasUsed target : ℕ) : ℤ :=
  if gasUsed = target then prev
  else if target < gasUsed then max 1 ((prev : ℤ) + exactStep prev (gasUsed - target) target)
  else max 1 ((prev : ℤ) - exactStep prev (target - gasUsed) target)

/-- The step with the product of the source, which is taken modulo `2 ^ 64`. -/
def wrappedStep (prev d : ℕ) : ℕ := max 1 (prev * d % 2 ^ 64 / 15000000 / 8)

section Steps

variable (prev : ℕ) {d d' : ℕ}

lemma exactStep_le (hd : d ≤ 15000000) : exactStep prev d 15000000 ≤ max 1 (prev / 8) := by
  have hshare : prev * d / 15000000 ≤ prev :=
    Nat.div_le_of_le_mul (by rw [Nat.mul_comm]; exact Nat.mul_le_mul_right _ hd)
  exact max_le_max le_rfl (Nat.div_le_div_right hshare)

lemma exactStep_mono (h : d ≤ d') : exactStep prev d 15000000 ≤ exactStep prev d' 15000000 :=
  max_le_max le_rfl (Nat.div_le_div_right (Nat.div_le_div_right (Nat.mul_le_mul_left _ h)))

lemma wrappedStep_le (d : ℕ) : wrappedStep prev d ≤ exactStep prev d 15000000 :=
  max_le_max le_rfl (Nat.div_le_div_right (Nat.div_le_div_right (Nat.mod_le _ _)))

/-- A product that wraps around loses more than one step. -/
lemma wrappedStep_eq_iff (d : ℕ) :
    wrappedStep prev d = exactStep prev d 15000000 ↔ prev * d < 2 ^ 64 := by
  rw [wrappedStep, exactStep]
  generalize prev * d = a
  constructor
  · intro heq
    by_contra hge
    omega
  · intro hlt
    rw [Nat.mod_eq_of_lt hlt]

end Steps

/-! ### The source -/

section Source

variable {prev gas : UInt64}

/-- The step of the source. -/
lemma toNat_step (prev d : UInt64) :
    (if prev * d / 15000000 / 8 = 0 then 1 else prev * d / 15000000 / 8 : UInt64).toNat =
      wrappedStep prev.toNat d.toNat := by
  have hval : (prev * d / 15000000 / 8).toNat = prev.toNat * d.toNat % 2 ^ 64 / 15000000 / 8 := by
    rw [UInt64.toNat_div, UInt64.toNat_div, UInt64.toNat_mul]
    rfl
  rw [wrappedStep, ← hval]
  split_ifs with hz
  · rw [hz]
    rfl
  · have hpos : (prev * d / 15000000 / 8).toNat ≠ 0 := fun h => hz (UInt64.toNat_inj.mp h)
    omega

/-- The signed difference to the target. -/
lemma toInt_gasDiff (hgas : gas.toNat ≤ 30000000) :
    (gas.toInt64 - (15000000 : UInt64).toInt64).toInt = (gas.toNat : ℤ) - 15000000 := by
  have hg := toInt_toInt64 (show gas.toNat < 2 ^ 63 by omega)
  have ht : (15000000 : UInt64).toInt64.toInt = 15000000 := by decide
  rw [Int64.toInt_sub, hg, ht, Int.bmod_eq_of_le (by omega) (by omega)]

/-- Adding a step that leaves room for the sign. -/
lemma toNat_signed_add {w : UInt64} (hpos : 1 ≤ prev.toNat) (h : prev.toNat + w.toNat < 2 ^ 63) :
    (if prev.toInt64 + w.toInt64 < acMinBaseFee.toInt64 then acMinBaseFee
      else (prev.toInt64 + w.toInt64).toUInt64).toNat = prev.toNat + w.toNat := by
  have hone : acMinBaseFee.toInt64.toInt = 1 := by decide
  have hsum : (prev.toInt64 + w.toInt64).toInt = (prev.toNat : ℤ) + w.toNat := by
    rw [Int64.toInt_add, toInt_toInt64 (by omega), toInt_toInt64 (by omega),
      Int.bmod_eq_of_le (by omega) (by omega)]
  rw [if_neg (by rw [Int64.lt_iff_toInt_lt, hsum, hone]; omega)]
  exact CheckedWord.toNat_add (a := prev) (b := w) (by omega)

/-- Subtracting a step. -/
lemma toNat_signed_sub {w : UInt64} (hprev : prev.toNat < 2 ^ 63) (hw : w.toNat < 2 ^ 63) :
    ((if prev.toInt64 + -w.toInt64 < acMinBaseFee.toInt64 then acMinBaseFee
      else (prev.toInt64 + -w.toInt64).toUInt64).toNat : ℤ) =
      max 1 ((prev.toNat : ℤ) - w.toNat) := by
  have hone : acMinBaseFee.toInt64.toInt = 1 := by decide
  have hdiff : (prev.toInt64 + -w.toInt64).toInt = (prev.toNat : ℤ) - w.toNat := by
    rw [← Int64.sub_eq_add_neg, Int64.toInt_sub, toInt_toInt64 hprev, toInt_toInt64 hw,
      Int.bmod_eq_of_le (by omega) (by omega)]
  split_ifs with hlow
  · rw [Int64.lt_iff_toInt_lt, hdiff, hone] at hlow
    rw [max_eq_left hlow.le]
    rfl
  · rw [Int64.lt_iff_toInt_lt, hdiff, hone] at hlow
    have hle : w.toNat ≤ prev.toNat := by omega
    rw [← Int64.sub_eq_add_neg]
    have hsub : (prev.toInt64 - w.toInt64).toUInt64 = prev - w := rfl
    rw [hsub, CheckedWord.toNat_sub hle]
    omega

/-- **The function in unbounded integers**: the rule, with the wrapped step. -/
lemma toNat_nextBaseFee (hpos : 1 ≤ prev.toNat) (hle : prev.toNat ≤ 2 ^ 63 - 1 - 2 ^ 60)
    (hgas : gas.toNat ≤ 30000000) :
    ((acChainNextBaseFee prev gas acBlockGasLimit).toNat : ℤ) =
      if gas.toNat = 15000000 then (prev.toNat : ℤ)
      else if 15000000 < gas.toNat then prev.toNat + wrappedStep prev.toNat (gas.toNat - 15000000)
      else max 1 ((prev.toNat : ℤ) - wrappedStep prev.toNat (15000000 - gas.toNat)) := by
  have htarget : acBlockGasLimit / 2 = 15000000 := by decide
  have ht : (15000000 : UInt64).toNat = 15000000 := rfl
  have hzero : (0 : Int64).toInt = 0 := by decide
  have hdiff := toInt_gasDiff hgas
  have hstep : ∀ {d : ℕ}, d ≤ 15000000 → wrappedStep prev.toNat d ≤ max 1 (prev.toNat / 8) :=
    fun hd => (wrappedStep_le _ _).trans (exactStep_le _ hd)
  rw [acChainNextBaseFee]
  dsimp only
  rw [htarget]
  by_cases heq : gas = 15000000
  · rw [if_pos heq, if_pos (by rw [heq, ht])]
  have hne : gas.toNat ≠ 15000000 := fun h => heq (UInt64.toNat_inj.mp h)
  rw [if_neg heq, if_neg hne]
  by_cases habove : 15000000 < gas.toNat
  · -- the distance above the target
    have hd : (gas.toInt64 - (15000000 : UInt64).toInt64).toUInt64.toNat = gas.toNat - 15000000 :=
      CheckedWord.toNat_sub (a := gas) (b := 15000000) (by omega)
    have hw := toNat_step prev (gas.toInt64 - (15000000 : UInt64).toInt64).toUInt64
    rw [hd] at hw
    have hbound := hstep (d := gas.toNat - 15000000) (by omega)
    have hsign : (0 : Int64) ≤ gas.toInt64 - (15000000 : UInt64).toInt64 := by
      rw [Int64.le_iff_toInt_le, hdiff, hzero]
      omega
    rw [if_pos hsign, if_pos habove, toNat_signed_add hpos (by rw [hw]; omega), hw]
    rfl
  · -- the distance below it
    have hd : (-(gas.toInt64 - (15000000 : UInt64).toInt64)).toUInt64.toNat =
        15000000 - gas.toNat := by
      rw [Int64.neg_sub]
      exact CheckedWord.toNat_sub (a := 15000000) (b := gas) (by omega)
    have hw := toNat_step prev (-(gas.toInt64 - (15000000 : UInt64).toInt64)).toUInt64
    rw [hd] at hw
    have hbound := hstep (d := 15000000 - gas.toNat) (by omega)
    have hsign : ¬ (0 : Int64) ≤ gas.toInt64 - (15000000 : UInt64).toInt64 := by
      rw [Int64.le_iff_toInt_le, hdiff, hzero]
      omega
    rw [if_neg hsign, if_neg habove, toNat_signed_sub (by omega) (by rw [hw]; omega), hw]

end Source

/-! ### Agreement -/

section Agreement

variable {prev gas : UInt64}

/-- The operands of the difference are small for a gas up to the limit. -/
lemma stepFits_iff (hgas : gas.toNat ≤ 30000000) : StepFits prev gas acBlockGasLimit ↔
    prev.toNat * ((gas.toNat : ℤ) - 15000000).natAbs < 2 ^ 64 := by
  have htarget : (acBlockGasLimit / 2).toNat = 15000000 := rfl
  constructor
  · intro h
    exact h.product
  · intro h
    exact ⟨⟨by omega, by rw [htarget]; decide⟩, h⟩

/-- The function agrees with the rule exactly where the product fits. -/
lemma nextBaseFee_eq_iff (hpos : 1 ≤ prev.toNat) (hle : prev.toNat ≤ 2 ^ 63 - 1 - 2 ^ 60)
    (hgas : gas.toNat ≤ 30000000) :
    ((acChainNextBaseFee prev gas acBlockGasLimit).toNat : ℤ) =
      exactBaseFee prev.toNat gas.toNat 15000000 ↔ StepFits prev gas acBlockGasLimit := by
  rw [toNat_nextBaseFee hpos hle hgas, exactBaseFee, stepFits_iff hgas]
  by_cases heq : gas.toNat = 15000000
  · rw [if_pos heq, if_pos heq, heq]
    simp
  rw [if_neg heq, if_neg heq]
  by_cases habove : 15000000 < gas.toNat
  · have hdist : ((gas.toNat : ℤ) - 15000000).natAbs = gas.toNat - 15000000 := by omega
    have hiff := wrappedStep_eq_iff prev.toNat (gas.toNat - 15000000)
    rw [if_pos habove, if_pos habove, hdist, ← hiff]
    omega
  · have hdist : ((gas.toNat : ℤ) - 15000000).natAbs = 15000000 - gas.toNat := by omega
    have hiff := wrappedStep_eq_iff prev.toNat (15000000 - gas.toNat)
    have hone : 1 ≤ wrappedStep prev.toNat (15000000 - gas.toNat) := le_max_left _ _
    have hwrap := wrappedStep_le prev.toNat (15000000 - gas.toNat)
    have hstep := exactStep_le prev.toNat (d := 15000000 - gas.toNat) (by omega)
    rw [if_neg habove, if_neg habove, hdist, ← hiff]
    -- a step above one is at most an eighth of the fee, and the difference stays positive
    omega

/-- The rule is monotone in the gas. -/
lemma exactBaseFee_mono {prev g g' : ℕ} (hpos : 1 ≤ prev) (h : g ≤ g') :
    exactBaseFee prev g 15000000 ≤ exactBaseFee prev g' 15000000 := by
  have hup := exactStep_mono prev (show g - 15000000 ≤ g' - 15000000 by omega)
  have hdown := exactStep_mono prev (show 15000000 - g' ≤ 15000000 - g by omega)
  rw [exactBaseFee, exactBaseFee]
  split_ifs <;> omega

/-- **The base fee follows EIP-1559 where its product fits.**  For every fee for which the next
one is a signed integer and every gas up to the limit, the next fee is the one of the rule in
unbounded integers if and only if the product of the fee and the distance to the target fits in
64 bits.  In any case it moves by at most an eighth, or by one, and stays positive; where the
products fit it is monotone in the gas. -/
theorem base_fee_rule_iff (prev gas : UInt64) (hpos : 1 ≤ prev.toNat)
    (hle : prev.toNat ≤ 2 ^ 63 - 1 - 2 ^ 60) (hgas : gas.toNat ≤ 30000000) :
    (((acChainNextBaseFee prev gas acBlockGasLimit).toNat : ℤ) =
      exactBaseFee prev.toNat gas.toNat 15000000 ↔
        prev.toNat * ((gas.toNat : ℤ) - 15000000).natAbs < 2 ^ 64) ∧
    (((acChainNextBaseFee prev gas acBlockGasLimit).toNat : ℤ) - prev.toNat).natAbs ≤
      max 1 (prev.toNat / 8) ∧
    1 ≤ (acChainNextBaseFee prev gas acBlockGasLimit).toNat ∧
    ∀ gas' : UInt64, gas.toNat ≤ gas'.toNat → gas'.toNat ≤ 30000000 →
      prev.toNat * ((gas.toNat : ℤ) - 15000000).natAbs < 2 ^ 64 →
      prev.toNat * ((gas'.toNat : ℤ) - 15000000).natAbs < 2 ^ 64 →
      (acChainNextBaseFee prev gas acBlockGasLimit).toNat ≤
        (acChainNextBaseFee prev gas' acBlockGasLimit).toNat := by
  have hnext := toNat_nextBaseFee hpos hle hgas
  have hbound : ∀ {d : ℕ}, d ≤ 15000000 →
      1 ≤ wrappedStep prev.toNat d ∧ wrappedStep prev.toNat d ≤ max 1 (prev.toNat / 8) :=
    fun hd => ⟨le_max_left _ _, (wrappedStep_le _ _).trans (exactStep_le _ hd)⟩
  have hup := hbound (d := gas.toNat - 15000000) (by omega)
  have hdown := hbound (d := 15000000 - gas.toNat) (by omega)
  refine ⟨?_, ?_, ?_, ?_⟩
  · rw [nextBaseFee_eq_iff hpos hle hgas, stepFits_iff hgas]
  · rw [hnext]
    split_ifs <;> omega
  · zify
    rw [hnext]
    split_ifs <;> omega
  · intro gas' hmono hgas' hfits hfits'
    have hexact := (nextBaseFee_eq_iff hpos hle hgas).mpr ((stepFits_iff hgas).mpr hfits)
    have hexact' := (nextBaseFee_eq_iff hpos hle hgas').mpr ((stepFits_iff hgas').mpr hfits')
    zify
    rw [hexact, hexact']
    exact exactBaseFee_mono hpos hmono

end Agreement

/-- A fee of 800, behind an empty and behind a full block. -/
theorem base_fee_rule_small :
    ((acChainNextBaseFee 800 30000000 acBlockGasLimit).toNat : ℤ) =
        exactBaseFee 800 30000000 15000000 ∧ exactBaseFee 800 30000000 15000000 = 900 ∧
      (acChainNextBaseFee 800 0 acBlockGasLimit).toNat ≤
        (acChainNextBaseFee 800 30000000 acBlockGasLimit).toNat :=
  ⟨(base_fee_rule_iff 800 30000000 (by decide) (by decide) (by decide)).1.mpr
      (by decide), by decide,
    (base_fee_rule_iff 800 0 (by decide) (by decide) (by decide)).2.2.2 30000000
      (by decide) (by decide) (by decide) (by decide)⟩

/-- **The product wraps around.**  A full block behind a fee of `2 ^ 58` moves the fee by one and
not by an eighth, and the block with one gas less gives a higher fee. -/
theorem full_block_nudges_fee :
    (288230376151711744 : UInt64).toNat = 2 ^ 58 ∧
      (acChainNextBaseFee 288230376151711744 30000000 acBlockGasLimit).toNat = 2 ^ 58 + 1 ∧
      exactBaseFee (2 ^ 58) 30000000 15000000 = 2 ^ 58 + 2 ^ 55 ∧
      (acChainNextBaseFee 288230376151711744 30000000 acBlockGasLimit).toNat <
        (acChainNextBaseFee 288230376151711744 29999999 acBlockGasLimit).toNat := by
  decide +kernel

end AgentChain
