import AgentChain.Pending
import AgentChain.Lib.CheckedWord
import AgentChain.Lib.HalfDivision

/-!
# The priority of a proposal as a number

`compute_priority` divides the first 16 bytes of a digest, a 128-bit number, by the square root
of the proposer's stake.  It divides the two halves one after the other, with an approximate
carry, and never overflows.  Read as numbers, the priorities are close to the exact quotients,
in the order of the digests for one stake, and in the reverse order of the stakes for one
digest; `priority_cmp` compares them as these numbers.
-/

namespace AgentChain

open CheckedWord HalfDivision

/-- The 128-bit number at the start of a digest. -/
def digestNum (h : Hash) : ℕ := beDecode (h.bytes.take 16)

/-- A priority as a number. -/
def Priority.num (p : Priority) : ℕ := beDecode p.bytes

/-- `compute_priority` behind the hash. -/
def priorityOf (h : Hash) (sqrtStake : UInt64) : Priority :=
  if sqrtStake = 0 then ByteArr.fill 16 0xFF
  else
    let hi := acRd64 h.bytes
    let lo := acRd64 (h.bytes.drop 8)
    let qHi := hi / sqrtStake
    let rHi := hi % sqrtStake
    let qLo := lo / sqrtStake + u64Max / sqrtStake * rHi
    ByteArr.ofBytes 16 (acBe64 qHi ++ acBe64 qLo)

/-- The same with checked operations, in the order of the source. -/
def priorityChecked (h : Hash) (sqrtStake : UInt64) : Option Priority :=
  if sqrtStake = 0 then some (ByteArr.fill 16 0xFF)
  else do
    let hi := acRd64 h.bytes
    let lo := acRd64 (h.bytes.drop 8)
    let qHi ← div hi sqrtStake
    let rHi ← mod hi sqrtStake
    let qLo ← div lo sqrtStake
    let unit ← div u64Max sqrtStake
    let carry ← mul unit rHi
    let qLo ← add qLo carry
    pure (ByteArr.ofBytes 16 (acBe64 qHi ++ acBe64 qLo))

lemma computePriority_eq (P : Platform) (beta : VrfOut) (s : UInt64) :
    computePriority P beta s = priorityOf (acHashMulti P [ascii "AGCH:PRIO", beta.bytes]) s := rfl

/-! ### The halves as numbers -/

section Halves

variable {h h' : Hash} {s s' : UInt64}

/-- The upper and the lower half of a digest. -/
lemma digestNum_eq (h : Hash) :
    digestNum h = (acRd64 h.bytes).toNat * 2 ^ 64 + (acRd64 (h.bytes.drop 8)).toNat := by
  have hlen := h.length_bytes
  have hsplit : h.bytes.take 16 = h.bytes.take 8 ++ (h.bytes.drop 8).take 8 := by
    rw [← List.take_add]
  have hlow : ((h.bytes.drop 8).take 8).length = 8 := by
    rw [List.length_take, List.length_drop]
    omega
  have hhi : beDecode (h.bytes.take 8) < 2 ^ 64 := by
    have := beDecode_lt (h.bytes.take 8)
    rw [List.length_take, hlen] at this
    exact this
  have hlo : beDecode ((h.bytes.drop 8).take 8) < 2 ^ 64 := by
    have := beDecode_lt ((h.bytes.drop 8).take 8)
    rw [hlow] at this
    exact this
  rw [digestNum, hsplit, beDecode_append, hlow, acRd64, acRd64, UInt64.toNat_ofNat_of_lt' hhi,
    UInt64.toNat_ofNat_of_lt' hlo]
  norm_num

/-- Two words in a row as one number. -/
lemma num_words (a b : UInt64) :
    Priority.num (ByteArr.ofBytes 16 (acBe64 a ++ acBe64 b)) = a.toNat * 2 ^ 64 + b.toNat := by
  have hlen : (acBe64 a ++ acBe64 b).length = 16 := by
    rw [List.length_append, length_acBe64, length_acBe64]
  rw [Priority.num, ByteArr.bytes_ofBytes hlen, beDecode_append, length_acBe64, acBe64, acBe64,
    beDecode_beEncode a.toNat_lt, beDecode_beEncode b.toNat_lt]
  norm_num

lemma toNat_u64Max : u64Max.toNat = 2 ^ 64 - 1 := rfl

/-- The product and the sum of the lower half fit. -/
lemma low_fits (h : Hash) (hs : 0 < s.toNat) :
    (u64Max / s).toNat * (acRd64 h.bytes % s).toNat < 2 ^ 64 ∧
      (acRd64 (h.bytes.drop 8) / s).toNat + (u64Max / s * (acRd64 h.bytes % s)).toNat < 2 ^ 64 := by
  have hcarry : (u64Max / s).toNat * (acRd64 h.bytes % s).toNat < 2 ^ 64 := by
    rw [UInt64.toNat_div, UInt64.toNat_mod, toNat_u64Max]
    exact carry_lt (by norm_num) hs
  refine ⟨hcarry, ?_⟩
  rw [toNat_mul hcarry, UInt64.toNat_div, UInt64.toNat_div, UInt64.toNat_mod, toNat_u64Max]
  exact low_lt hs (UInt64.toNat_lt _)

/-- The priority is the quotient by halves. -/
lemma num_priorityOf (h : Hash) (hs : 0 < s.toNat) :
    (priorityOf h s).num =
      quot (2 ^ 64) (acRd64 h.bytes).toNat (acRd64 (h.bytes.drop 8)).toNat s.toNat := by
  have hne : s ≠ 0 := by
    rintro rfl
    exact absurd hs (by decide)
  obtain ⟨hcarry, hsum⟩ := low_fits h hs
  rw [priorityOf, if_neg hne]
  dsimp only
  rw [num_words, toNat_add hsum, toNat_mul hcarry, UInt64.toNat_div, UInt64.toNat_div,
    UInt64.toNat_div, UInt64.toNat_mod, toNat_u64Max, quot, low]

/-- No operation fails. -/
lemma priorityChecked_eq (h : Hash) (s : UInt64) :
    priorityChecked h s = some (priorityOf h s) := by
  rw [priorityChecked, priorityOf]
  split_ifs with hz
  · rfl
  · have hs : 0 < s.toNat := Nat.pos_of_ne_zero fun h0 => hz (UInt64.toNat_inj.mp h0)
    obtain ⟨hcarry, hsum⟩ := low_fits h hs
    simp only [div_eq hs, mod_eq hs, mul_eq hcarry, add_eq hsum, Option.bind_eq_bind,
      Option.bind_some]
    rfl

end Halves

/-! ### The order of priorities -/

/-- **Priorities divide and keep the order.**  For every digest and every square root of a stake
but zero the division behind the hash is free of overflow, its result is the quotient up to an
error below the divisor, it does not decrease with the digest and does not increase with the
stake.  The comparison of priorities is the one of their numbers, and without stake the
priority is the largest. -/
theorem priority_keeps_order :
    (∀ P beta s, computePriority P beta s =
      priorityOf (acHashMulti P [ascii "AGCH:PRIO", beta.bytes]) s) ∧
    (∀ h s, priorityChecked h s = some (priorityOf h s)) ∧
    (∀ h s, 0 < s.toNat → (priorityOf h s).num ≤ digestNum h / s.toNat ∧
      digestNum h / s.toNat - (priorityOf h s).num < s.toNat) ∧
    (∀ h h' s, 0 < s.toNat → digestNum h ≤ digestNum h' →
      (priorityOf h s).num ≤ (priorityOf h' s).num) ∧
    (∀ h s s', 0 < s.toNat → s.toNat ≤ s'.toNat →
      (priorityOf h s').num ≤ (priorityOf h s).num) ∧
    (∀ p q : Priority, priorityCmp p q = compare p.num q.num) ∧
    ∀ h (q : Priority), (priorityOf h 0).num = 2 ^ 128 - 1 ∧ q.num ≤ (priorityOf h 0).num := by
  refine ⟨computePriority_eq, priorityChecked_eq, ?_, ?_, ?_, ?_, ?_⟩
  · intro h s hs
    have hle := quot_le (2 ^ 64) (acRd64 h.bytes).toNat (acRd64 (h.bytes.drop 8)).toNat hs
    have hlt := div_lt_quot_add (acRd64 h.bytes).toNat (acRd64 (h.bytes.drop 8)).toNat
      (show 0 < 2 ^ 64 by norm_num) hs
    rw [← num_priorityOf h hs, ← digestNum_eq] at hle hlt
    exact ⟨hle, by omega⟩
  · intro h h' s hs hle
    rw [num_priorityOf h hs, num_priorityOf h' hs]
    rw [digestNum_eq, digestNum_eq] at hle
    exact quot_mono hs (UInt64.toNat_lt _) (UInt64.toNat_lt _) hle
  · intro h s s' hs hle
    rw [num_priorityOf h hs, num_priorityOf h (hs.trans_le hle)]
    exact quot_anti hs (UInt64.toNat_lt _) hle
  · intro p q
    exact compare_eq_compare_beDecode (p.length_bytes.trans q.length_bytes.symm)
  · intro h q
    have htop : (priorityOf h 0).num = 2 ^ 128 - 1 := by
      rw [priorityOf, if_pos rfl]
      decide
    have hq := beDecode_lt q.bytes
    rw [q.length_bytes] at hq
    refine ⟨htop, ?_⟩
    rw [htop, Priority.num]
    omega

/-- The digest of all ones, for the square root of the minimal stake and of four times as
much. -/
theorem priority_keeps_order_ones :
    (priorityOf (ByteArr.fill 32 0xFF) 20000).num ≤ (priorityOf (ByteArr.fill 32 0xFF) 10000).num ∧
      digestNum (ByteArr.fill 32 0xFF) / 10000 - (priorityOf (ByteArr.fill 32 0xFF) 10000).num <
        10000 := by
  obtain ⟨-, -, hdiv, -, hstake, -⟩ := priority_keeps_order
  exact ⟨hstake _ 10000 20000 (by decide) (by decide), (hdiv _ 10000 (by decide)).2⟩

end AgentChain
