import AgentChain.Lib.Cursor

/-!
# Fixed-size values, limits and the integer square root

The byte-array types of `common.h`, the hard limits of `codec.h` and `ac_isqrt_u64` of
`common.c`.  Addresses and hashes are compared with `memcmp`, which on two arrays of one
size is the lexicographic order of their bytes.
-/

namespace AgentChain

/-- An Ed25519 public key, used as the address of an account. -/
abbrev Addr := ByteArr 32

instance : LawfulBEq Addr := inferInstance

/-- A BLAKE2b-256 digest. -/
abbrev Hash := ByteArr 32

/-- An Ed25519 signature. -/
abbrev Sig := ByteArr 64

/-- A VRF proof, which is an Ed25519 signature as well. -/
abbrev VrfProof := ByteArr 64

/-- A VRF output. -/
abbrev VrfOut := ByteArr 32

/-- The bytes of an ASCII string literal, without the terminating NUL. -/
def ascii (s : String) : Bytes := s.toList.map fun c => UInt8.ofNat c.toNat

/-- Bytewise unsigned comparison. -/
def memcmp (a b : Bytes) : Ordering := compare a b

/-- Comparison of two addresses. -/
def acAddrCmp (a b : Addr) : Ordering := memcmp a.bytes b.bytes

instance : Std.TransCmp acAddrCmp where
  eq_swap := Std.OrientedOrd.eq_swap (α := Bytes)
  isLE_trans h₁ h₂ := Std.TransOrd.isLE_trans (α := Bytes) h₁ h₂

instance : Std.LawfulEqCmp acAddrCmp where
  compare_self := Std.ReflOrd.compare_self (α := Bytes)
  eq_of_compare h := ByteArr.ext (Std.LawfulEqOrd.eq_of_compare (α := Bytes) h)

/-! ### Limits -/

/-- `AC_TX_VERSION` -/
def acTxVersion : UInt8 := 1

/-- `AC_BLOCK_VERSION` -/
def acBlockVersion : UInt8 := 1

/-- `AC_MEMO_MAX` -/
def acMemoMax : ℕ := 512

/-- `AC_TX_BODY_MAX` -/
def acTxBodyMax : ℕ := 512

/-- `AC_TX_MAX_BYTES` -/
def acTxMaxBytes : ℕ := 2048

/-- `AC_BLOCK_MAX_TXS` -/
def acBlockMaxTxs : ℕ := 4096

/-- `AC_BLOCK_GAS_LIMIT` -/
def acBlockGasLimit : UInt64 := 30000000

/-- `AC_MIN_BASE_FEE`, in µCRD per gas. -/
def acMinBaseFee : UInt64 := 1

/-- `AC_NAME_MIN_LEN` -/
def acNameMinLen : ℕ := 1

/-- `AC_NAME_MAX_LEN` -/
def acNameMaxLen : ℕ := 32

/-- `AC_COMMITTEE_MAX`, the cap on the signers of one block. -/
def acCommitteeMax : ℕ := 256

/-- `AC_SLOT_DURATION_MS` -/
def acSlotDurationMs : UInt64 := 2000

/-- `AC_EPOCH_SLOTS` -/
def acEpochSlots : UInt64 := 7200

/-- `AC_MIN_STAKE_UCRD`, 100 CRD. -/
def acMinStakeUcrd : UInt64 := 100000000

/-! ### Integer square root -/

/-- `SQRT_MAX`, the largest 32-bit value. -/
def sqrtMax : UInt64 := 4294967295

/-- The Newton loop `nr = (r + x / r) / 2`, left as soon as it stops decreasing.  Every
round that goes on decreases `r`, so `r` rounds are enough. -/
def isqrtNewton (x : UInt64) : ℕ → UInt64 → UInt64
  | 0, r => r
  | fuel + 1, r =>
      if r ≤ (r + x / r) / 2 then r else isqrtNewton x fuel ((r + x / r) / 2)

/-- The correction `while (r > 0 && r > x / r) --r`. -/
def isqrtDown (x : UInt64) : ℕ → UInt64 → UInt64
  | 0, r => r
  | fuel + 1, r => if 0 < r ∧ x / r < r then isqrtDown x fuel (r - 1) else r

/-- The correction `while (r < SQRT_MAX && (r + 1) <= x / (r + 1)) ++r`. -/
def isqrtUp (x : UInt64) : ℕ → UInt64 → UInt64
  | 0, r => r
  | fuel + 1, r => if r < sqrtMax ∧ r + 1 ≤ x / (r + 1) then isqrtUp x fuel (r + 1) else r

/-- `ac_isqrt_u64`: integer square root. -/
def acIsqrtU64 (x : UInt64) : UInt64 :=
  if x = 0 then 0
  else if x = 1 then 1
  else
    let r := if sqrtMax < x then sqrtMax else x
    let r := isqrtNewton x r.toNat r
    let r := isqrtDown x r.toNat r
    isqrtUp x sqrtMax.toNat r

lemma isqrtNewton_le (x : UInt64) (fuel : ℕ) (r : UInt64) :
    (isqrtNewton x fuel r).toNat ≤ r.toNat := by
  induction fuel generalizing r with
  | zero => exact le_rfl
  | succ fuel ih =>
    rw [isqrtNewton]
    split_ifs with h
    · exact le_rfl
    · rw [UInt64.le_iff_toNat_le] at h
      exact (ih _).trans (by omega)

lemma isqrtDown_le (x : UInt64) (fuel : ℕ) (r : UInt64) :
    (isqrtDown x fuel r).toNat ≤ r.toNat := by
  induction fuel generalizing r with
  | zero => exact le_rfl
  | succ fuel ih =>
    rw [isqrtDown]
    split_ifs with h
    · have h0 : (0 : UInt64).toNat < r.toNat := UInt64.lt_iff_toNat_lt.mp h.1
      have h1 : (1 : UInt64) ≤ r := UInt64.le_iff_toNat_le.mpr h0
      refine (ih _).trans ?_
      rw [UInt64.toNat_sub_of_le _ _ h1]
      omega
    · exact le_rfl

lemma isqrtUp_le (x : UInt64) (fuel : ℕ) (r : UInt64) (hr : r.toNat ≤ sqrtMax.toNat) :
    (isqrtUp x fuel r).toNat ≤ sqrtMax.toNat := by
  induction fuel generalizing r with
  | zero => exact hr
  | succ fuel ih =>
    rw [isqrtUp]
    split_ifs with h
    · have hlt : r.toNat < sqrtMax.toNat := UInt64.lt_iff_toNat_lt.mp h.1
      have hmax : sqrtMax.toNat = 4294967295 := rfl
      have hone : (1 : UInt64).toNat = 1 := rfl
      apply ih
      rw [UInt64.toNat_add, hone, Nat.mod_eq_of_lt (by omega)]
      exact hlt
    · exact hr

/-- A square root fits in 32 bits. -/
theorem acIsqrtU64_lt (x : UInt64) : (acIsqrtU64 x).toNat < 2 ^ 32 := by
  have hmax : sqrtMax.toNat = 4294967295 := rfl
  have hloops : ∀ r : UInt64, r.toNat ≤ sqrtMax.toNat →
      (isqrtUp x sqrtMax.toNat (isqrtDown x (isqrtNewton x r.toNat r).toNat
        (isqrtNewton x r.toNat r))).toNat ≤ sqrtMax.toNat := by
    intro r hr
    exact isqrtUp_le _ _ _ ((isqrtDown_le _ _ _).trans ((isqrtNewton_le _ _ _).trans hr))
  rw [acIsqrtU64]
  split_ifs with h0 h1 h2
  · decide
  · decide
  · exact (hloops sqrtMax le_rfl).trans_lt (by omega)
  · rw [UInt64.lt_iff_toNat_lt] at h2
    exact (hloops x (by omega)).trans_lt (by omega)

lemma le_div_iff_mul_self_le {r x : UInt64} (hr : 0 < r.toNat) :
    r ≤ x / r ↔ r.toNat * r.toNat ≤ x.toNat := by
  rw [UInt64.le_iff_toNat_le, UInt64.toNat_div, Nat.le_div_iff_mul_le hr]

/-- The downward correction ends at a number whose square is not above `x`. -/
lemma isqrtDown_sq_le (x : UInt64) (fuel : ℕ) (r : UInt64) (hf : r.toNat ≤ fuel) :
    (isqrtDown x fuel r).toNat * (isqrtDown x fuel r).toNat ≤ x.toNat := by
  induction fuel generalizing r with
  | zero =>
    rw [isqrtDown, Nat.le_zero.mp hf]
    exact Nat.zero_le _
  | succ fuel ih =>
    rw [isqrtDown]
    split_ifs with h
    · have h0 : (0 : UInt64).toNat < r.toNat := UInt64.lt_iff_toNat_lt.mp h.1
      have h1 : (1 : UInt64) ≤ r := UInt64.le_iff_toNat_le.mpr h0
      have hone : (1 : UInt64).toNat = 1 := rfl
      apply ih
      rw [UInt64.toNat_sub_of_le _ _ h1, hone]
      omega
    · -- the loop stops at zero, or where `r` does not exceed `x / r`
      rcases Nat.eq_zero_or_pos r.toNat with hz | hpos
      · rw [hz]
        exact Nat.zero_le _
      · have hnot : ¬ x / r < r := fun hlt => h ⟨UInt64.lt_iff_toNat_lt.mpr hpos, hlt⟩
        rw [UInt64.lt_iff_toNat_lt, not_lt, ← UInt64.le_iff_toNat_le] at hnot
        exact (le_div_iff_mul_self_le hpos).mp hnot

/-- The upward correction keeps the square below `x` and ends where the next one is above. -/
lemma isqrtUp_spec (x : UInt64) (fuel : ℕ) (r : UInt64) (hr : r.toNat ≤ sqrtMax.toNat)
    (hsq : r.toNat * r.toNat ≤ x.toNat) (hf : sqrtMax.toNat - r.toNat ≤ fuel) :
    (isqrtUp x fuel r).toNat * (isqrtUp x fuel r).toNat ≤ x.toNat ∧
      x.toNat < ((isqrtUp x fuel r).toNat + 1) * ((isqrtUp x fuel r).toNat + 1) := by
  have hmax : sqrtMax.toNat = 4294967295 := rfl
  have hx : x.toNat < 2 ^ 64 := x.toNat_lt
  -- at the largest 32-bit value the next square no longer fits in 64 bits
  have htop : r.toNat = sqrtMax.toNat → x.toNat < (r.toNat + 1) * (r.toNat + 1) := by
    intro h
    rw [h, hmax]
    omega
  induction fuel generalizing r with
  | zero => exact ⟨hsq, htop (by omega)⟩
  | succ fuel ih =>
    have hone : (1 : UInt64).toNat = 1 := rfl
    have hadd : (r + 1).toNat = r.toNat + 1 := by
      rw [UInt64.toNat_add, hone, Nat.mod_eq_of_lt (by omega)]
    have hiff : r + 1 ≤ x / (r + 1) ↔ (r.toNat + 1) * (r.toNat + 1) ≤ x.toNat := by
      rw [le_div_iff_mul_self_le (by omega), hadd]
    rw [isqrtUp]
    split_ifs with h
    · have hlt : r.toNat < sqrtMax.toNat := UInt64.lt_iff_toNat_lt.mp h.1
      refine ih (r + 1) (by omega) (by rw [hadd]; exact hiff.mp h.2) (by omega) ?_
      intro heq
      rw [heq, hmax]
      omega
    · refine ⟨hsq, ?_⟩
      by_cases hlt : r.toNat < sqrtMax.toNat
      · by_contra hge
        exact h ⟨UInt64.lt_iff_toNat_lt.mpr hlt, hiff.mpr (not_lt.mp hge)⟩
      · exact htop (by omega)

/-- The integer square root is exact. -/
theorem acIsqrtU64_spec (x : UInt64) :
    (acIsqrtU64 x).toNat * (acIsqrtU64 x).toNat ≤ x.toNat ∧
      x.toNat < ((acIsqrtU64 x).toNat + 1) * ((acIsqrtU64 x).toNat + 1) := by
  have hmax : sqrtMax.toNat = 4294967295 := rfl
  have hloops : ∀ r : UInt64, r.toNat ≤ sqrtMax.toNat →
      let q := isqrtUp x sqrtMax.toNat (isqrtDown x (isqrtNewton x r.toNat r).toNat
        (isqrtNewton x r.toNat r))
      q.toNat * q.toNat ≤ x.toNat ∧ x.toNat < (q.toNat + 1) * (q.toNat + 1) := by
    intro r hr
    exact isqrtUp_spec x _ _ ((isqrtDown_le _ _ _).trans ((isqrtNewton_le _ _ _).trans hr))
      (isqrtDown_sq_le x _ _ le_rfl) (Nat.sub_le _ _)
  rw [acIsqrtU64]
  split_ifs with h0 h1 h2
  · rw [h0]
    decide
  · rw [h1]
    decide
  · exact hloops sqrtMax le_rfl
  · rw [UInt64.lt_iff_toNat_lt] at h2
    exact hloops x (by omega)

/-- The square root of a square. -/
theorem acIsqrtU64_sq {x : UInt64} {r : ℕ} (h : x.toNat = r * r) : (acIsqrtU64 x).toNat = r := by
  obtain ⟨hle, hlt⟩ := acIsqrtU64_spec x
  rw [h] at hle hlt
  have h₁ : (acIsqrtU64 x).toNat ≤ r := Nat.mul_self_le_mul_self_iff.mp hle
  have h₂ : r < (acIsqrtU64 x).toNat + 1 := Nat.mul_self_lt_mul_self_iff.mp hlt
  omega

end AgentChain
