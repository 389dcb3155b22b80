import Mathlib.Data.List.Basic
import Mathlib.Tactic

/-!
# Byte strings, big-endian integers and bounded cursors

A wire format is written through a cursor that refuses to pass the end of its buffer and
read through one that refuses to pass the end of its input.  Both keep an error flag that
is never cleared: after the first overrun nothing more is written, and every later read
returns zero bytes.

The results used by every codec are `wputs_init`, which turns a whole sequence of
writes into one concatenation and one bound, and `rget_append`, which reads back a field
in front of an arbitrary rest.  Its converse `rget_inv` says that a read that leaves no error
has consumed what it returned; the flag being sticky, it applies to every read before the
last one as well.
-/

namespace AgentChain

/-- A byte string. -/
abbrev Bytes := List UInt8

/-- An array `uint8_t b[n]`. -/
def ByteArr (n : ℕ) : Type := { l : Bytes // l.length = n }

namespace ByteArr

variable {n : ℕ}

instance : DecidableEq (ByteArr n) := inferInstanceAs (DecidableEq { l : Bytes // l.length = n })

/-- The bytes of an array. -/
def bytes (a : ByteArr n) : Bytes := a.val

@[simp] lemma length_bytes (a : ByteArr n) : a.bytes.length = n := a.property

@[ext] lemma ext {a b : ByteArr n} (h : a.bytes = b.bytes) : a = b := Subtype.ext h

/-- An array filled with one byte, the effect of `memset`. -/
def fill (n : ℕ) (x : UInt8) : ByteArr n := ⟨List.replicate n x, List.length_replicate⟩

/-- The first `n` bytes of a string, padded with zeros when it is too short. -/
def ofBytes (n : ℕ) (bs : Bytes) : ByteArr n :=
  ⟨bs.take n ++ List.replicate (n - bs.length) 0, by
    rw [List.length_append, List.length_take, List.length_replicate]
    omega⟩

lemma bytes_ofBytes {bs : Bytes} (h : bs.length = n) : (ofBytes n bs).bytes = bs := by
  simp only [ofBytes, bytes]
  rw [List.take_of_length_le h.le, h, Nat.sub_self, List.replicate_zero, List.append_nil]

@[simp] lemma ofBytes_bytes (a : ByteArr n) : ofBytes n a.bytes = a :=
  ext (bytes_ofBytes a.length_bytes)

/-- The array at the start of a string. -/
@[simp] lemma ofBytes_append (a : ByteArr n) (rest : Bytes) : ofBytes n (a.bytes ++ rest) = a := by
  ext1
  have hlen := a.length_bytes
  simp only [ofBytes, bytes] at hlen ⊢
  rw [List.take_left' hlen, List.length_append, hlen, Nat.sub_eq_zero_of_le (Nat.le_add_right _ _),
    List.replicate_zero, List.append_nil]

end ByteArr

/-! ### Big-endian integers -/

/-- The `w` low bytes of a number, most significant byte first. -/
def beEncode : ℕ → ℕ → Bytes
  | 0, _ => []
  | w + 1, v => UInt8.ofNat (v / 256 ^ w) :: beEncode w v

/-- The number with the given bytes, most significant byte first. -/
def beDecode (bs : Bytes) : ℕ := bs.foldl (fun acc b => acc * 256 + b.toNat) 0

@[simp] lemma length_beEncode (w v : ℕ) : (beEncode w v).length = w := by
  induction w with
  | zero => rfl
  | succ w ih => rw [beEncode, List.length_cons, ih]

lemma foldl_beDecode (bs : Bytes) (a : ℕ) :
    bs.foldl (fun acc b => acc * 256 + b.toNat) a = a * 256 ^ bs.length + beDecode bs := by
  induction bs generalizing a with
  | nil => simp [beDecode]
  | cons b bs ih =>
    rw [beDecode, List.foldl_cons, List.foldl_cons, ih, ih (0 * 256 + b.toNat),
      List.length_cons]
    ring

lemma beDecode_cons (b : UInt8) (bs : Bytes) :
    beDecode (b :: bs) = b.toNat * 256 ^ bs.length + beDecode bs := by
  rw [beDecode, List.foldl_cons, foldl_beDecode]
  simp

lemma beDecode_lt (bs : Bytes) : beDecode bs < 256 ^ bs.length := by
  induction bs with
  | nil => simp [beDecode]
  | cons b bs ih =>
    rw [beDecode_cons, List.length_cons, pow_succ]
    have hb : b.toNat < 256 := b.toNat_lt
    nlinarith

lemma beDecode_beEncode_mod (w v : ℕ) : beDecode (beEncode w v) = v % 256 ^ w := by
  induction w with
  | zero => simp [beEncode, beDecode, Nat.mod_one]
  | succ w ih =>
    have hsplit : v % 256 ^ (w + 1) = v % 256 ^ w + 256 ^ w * (v / 256 ^ w % 256) := by
      rw [pow_succ, Nat.mod_mul]
    have hbyte : (UInt8.ofNat (v / 256 ^ w)).toNat = v / 256 ^ w % 256 :=
      UInt8.toNat_ofNat'
    rw [beEncode, beDecode_cons, ih, length_beEncode, hbyte, hsplit, Nat.add_comm,
      Nat.mul_comm (256 ^ w)]

/-- Reading back a number that fits. -/
theorem beDecode_beEncode {w v : ℕ} (h : v < 256 ^ w) : beDecode (beEncode w v) = v := by
  rw [beDecode_beEncode_mod, Nat.mod_eq_of_lt h]

lemma beEncode_add_mul (w v k : ℕ) : beEncode w (v + k * 256 ^ w) = beEncode w v := by
  induction w generalizing k with
  | zero => rfl
  | succ w ih =>
    have h1 : v + k * 256 ^ (w + 1) = v + k * 256 * 256 ^ w := by rw [pow_succ]; ring
    have h2 : UInt8.ofNat (v / 256 ^ w + k * 256) = UInt8.ofNat (v / 256 ^ w) := by
      apply UInt8.toNat_inj.mp
      rw [UInt8.toNat_ofNat', UInt8.toNat_ofNat']
      omega
    rw [beEncode, beEncode, h1, Nat.add_mul_div_right _ _ (by positivity), h2, ih]

/-- Writing back the number that was read. -/
theorem beEncode_beDecode (bs : Bytes) : beEncode bs.length (beDecode bs) = bs := by
  induction bs with
  | nil => rfl
  | cons b bs ih =>
    have hlt := beDecode_lt bs
    rw [List.length_cons, beEncode, beDecode_cons]
    congr 1
    · apply UInt8.toNat_inj.mp
      rw [UInt8.toNat_ofNat', Nat.mul_comm, Nat.mul_add_div (by positivity),
        Nat.div_eq_of_lt hlt, Nat.add_zero, Nat.mod_eq_of_lt b.toNat_lt]
    · rw [Nat.add_comm, beEncode_add_mul, ih]

lemma beDecode_append (as bs : Bytes) :
    beDecode (as ++ bs) = beDecode as * 256 ^ bs.length + beDecode bs := by
  rw [beDecode, List.foldl_append, foldl_beDecode]
  rfl

/-- Strings of one length are in the order of their numbers. -/
theorem compare_eq_compare_beDecode {as bs : Bytes} (h : as.length = bs.length) :
    compare as bs = compare (beDecode as) (beDecode bs) := by
  induction as generalizing bs with
  | nil =>
    cases bs with
    | nil => rfl
    | cons b bs => cases h
  | cons a as ih =>
    cases bs with
    | nil => cases h
    | cons b bs =>
      have hlen : as.length = bs.length := by simpa using h
      have has := beDecode_lt as
      have hbs := beDecode_lt bs
      rw [hlen] at has
      rw [List.compare_cons_cons, beDecode_cons, beDecode_cons, ih hlen, hlen]
      generalize 256 ^ bs.length = w at has hbs
      rcases Nat.lt_trichotomy a.toNat b.toNat with hab | hab | hab
      · have hcmp : compare a b = .lt := Std.compare_eq_lt.mpr (UInt8.lt_iff_toNat_lt.mpr hab)
        rw [hcmp]
        exact (Nat.compare_eq_lt.mpr (by nlinarith)).symm
      · rw [UInt8.toNat_inj.mp hab, Std.ReflOrd.compare_self]
        simp [Nat.compare_eq_ite_lt]
      · have hcmp : compare a b = .gt := Std.compare_eq_gt.mpr (UInt8.lt_iff_toNat_lt.mpr hab)
        rw [hcmp]
        exact (Nat.compare_eq_gt.mpr (by nlinarith)).symm
/-! ### The write cursor -/

/-- A write cursor over a buffer of `cap` bytes. -/
structure WCur where
  /-- The bytes written so far. -/
  out : Bytes
  cap : ℕ
  err : Bool

/-- Write `src`, or raise the error flag when it does not fit. -/
def wput (c : WCur) (src : Bytes) : WCur :=
  if c.err ∨ c.cap < c.out.length + src.length then { c with err := true }
  else { c with out := c.out ++ src }

/-- A sequence of writes. -/
def wputs (c : WCur) (chunks : List Bytes) : WCur := chunks.foldl wput c

/-- What the writer returns: its bytes, or nothing after an error. -/
def WCur.finish (c : WCur) : Option Bytes := if c.err then none else some c.out

lemma finish_wputs_err (chunks : List Bytes) {c : WCur} (h : c.err = true) :
    (wputs c chunks).finish = none := by
  induction chunks generalizing c with
  | nil => simp [wputs, WCur.finish, h]
  | cons b chunks ih =>
    rw [wputs, List.foldl_cons]
    exact ih (by simp [wput, h])

lemma finish_wputs (chunks : List Bytes) {c : WCur} (h : c.err = false)
    (hc : c.out.length ≤ c.cap) :
    (wputs c chunks).finish =
      if c.out.length + chunks.flatten.length ≤ c.cap then some (c.out ++ chunks.flatten)
      else none := by
  induction chunks generalizing c with
  | nil => simp [wputs, WCur.finish, h, hc]
  | cons b chunks ih =>
    rw [wputs, List.foldl_cons, List.flatten_cons, List.length_append]
    by_cases hb : c.cap < c.out.length + b.length
    · rw [if_neg (by omega)]
      exact finish_wputs_err _ (by simp [wput, hb])
    · have hput : wput c b = { c with out := c.out ++ b } := by simp [wput, h, hb]
      have hlen : (wput c b).out.length = c.out.length + b.length := by
        rw [hput, List.length_append]
      have hcap : (wput c b).cap = c.cap := by rw [hput]
      have := ih (c := wput c b) (by rw [hput]; exact h) (by rw [hlen, hcap]; omega)
      rw [wputs] at this
      rw [this, hlen, hcap, hput]
      simp only [Nat.add_assoc, List.append_assoc]

/-- A sequence of writes into an empty buffer succeeds exactly when everything fits, and
then leaves the concatenation. -/
theorem wputs_init (cap : ℕ) (chunks : List Bytes) :
    (wputs ⟨[], cap, false⟩ chunks).finish =
      if chunks.flatten.length ≤ cap then some chunks.flatten else none := by
  have := finish_wputs chunks (c := ⟨[], cap, false⟩) rfl (by simp)
  simpa using this

/-! ### The read cursor -/

/-- A read cursor: the bytes not read yet and the error flag. -/
structure RCur where
  rest : Bytes
  err : Bool

/-- Read `n` bytes.  On an overrun the flag is raised, nothing is consumed and the
destination keeps its zero bytes. -/
def rget (n : ℕ) (c : RCur) : Bytes × RCur :=
  if c.err ∨ c.rest.length < n then (List.replicate n 0, { c with err := true })
  else (c.rest.take n, { c with rest := c.rest.drop n })

@[simp] lemma length_rget (n : ℕ) (c : RCur) : (rget n c).1.length = n := by
  rw [rget]
  split_ifs with h
  · simp
  · simp only [not_or] at h
    simp only [List.length_take]
    omega

/-- Reading back a field in front of an arbitrary rest. -/
theorem rget_append (bs rest : Bytes) {n : ℕ} (h : bs.length = n) :
    rget n ⟨bs ++ rest, false⟩ = (bs, ⟨rest, false⟩) := by
  subst h
  rw [rget, if_neg (by simp)]
  simp

/-- A read that leaves no error has consumed exactly what it returned. -/
theorem rget_inv {n : ℕ} {c : RCur} (h : (rget n c).2.err = false) :
    c.err = false ∧ c.rest = (rget n c).1 ++ (rget n c).2.rest := by
  rw [rget] at h ⊢
  split_ifs at h ⊢ with hc
  simp only [not_or, Bool.not_eq_true] at hc
  exact ⟨hc.1, by simp⟩

/-- Read an array of `n` bytes. -/
def rgetArr (n : ℕ) (c : RCur) : ByteArr n × RCur :=
  (⟨(rget n c).1, length_rget n c⟩, (rget n c).2)

/-- Read a byte. -/
def rgetU8 (c : RCur) : UInt8 × RCur := (UInt8.ofNat (beDecode (rget 1 c).1), (rget 1 c).2)

/-- Read a big-endian 32-bit integer. -/
def rgetU32 (c : RCur) : UInt32 × RCur := (UInt32.ofNat (beDecode (rget 4 c).1), (rget 4 c).2)

/-- Read a big-endian 64-bit integer. -/
def rgetU64 (c : RCur) : UInt64 × RCur := (UInt64.ofNat (beDecode (rget 8 c).1), (rget 8 c).2)

/-- A string that is long enough starts with an array. -/
lemma exists_arr_append {n : ℕ} {bs : Bytes} (h : n ≤ bs.length) :
    ∃ (a : ByteArr n) (rest : Bytes), bs = a.bytes ++ rest :=
  ⟨⟨bs.take n, List.length_take_of_le h⟩, bs.drop n, (List.take_append_drop n bs).symm⟩

/-- A string that is long enough starts with a number. -/
lemma exists_be_append {w : ℕ} {bs : Bytes} (h : w ≤ bs.length) :
    ∃ v < 256 ^ w, ∃ rest, bs = beEncode w v ++ rest := by
  have hlen : (bs.take w).length = w := List.length_take_of_le h
  have hlt := beDecode_lt (bs.take w)
  have hback := beEncode_beDecode (bs.take w)
  rw [hlen] at hlt hback
  refine ⟨beDecode (bs.take w), hlt, bs.drop w, ?_⟩
  rw [hback, List.take_append_drop]

@[simp] lemma rgetArr_append {n : ℕ} (a : ByteArr n) (rest : Bytes) :
    rgetArr n ⟨a.bytes ++ rest, false⟩ = (a, ⟨rest, false⟩) := by
  simp only [rgetArr, rget_append a.bytes rest a.length_bytes]
  rfl

@[simp] lemma rgetU8_append (v : UInt8) (rest : Bytes) :
    rgetU8 ⟨beEncode 1 v.toNat ++ rest, false⟩ = (v, ⟨rest, false⟩) := by
  have hv : v.toNat < 256 ^ 1 := v.toNat_lt
  simp only [rgetU8, rget_append _ rest (length_beEncode 1 v.toNat), beDecode_beEncode hv,
    UInt8.ofNat_toNat]

@[simp] lemma rgetU32_append (v : UInt32) (rest : Bytes) :
    rgetU32 ⟨beEncode 4 v.toNat ++ rest, false⟩ = (v, ⟨rest, false⟩) := by
  have hv : v.toNat < 256 ^ 4 := v.toNat_lt
  simp only [rgetU32, rget_append _ rest (length_beEncode 4 v.toNat), beDecode_beEncode hv,
    UInt32.ofNat_toNat]

@[simp] lemma rgetU64_append (v : UInt64) (rest : Bytes) :
    rgetU64 ⟨beEncode 8 v.toNat ++ rest, false⟩ = (v, ⟨rest, false⟩) := by
  have hv : v.toNat < 256 ^ 8 := v.toNat_lt
  simp only [rgetU64, rget_append _ rest (length_beEncode 8 v.toNat), beDecode_beEncode hv,
    UInt64.ofNat_toNat]

lemma rgetArr_inv {n : ℕ} {c : RCur} (h : (rgetArr n c).2.err = false) :
    c.err = false ∧ c.rest = (rgetArr n c).1.bytes ++ (rgetArr n c).2.rest :=
  rget_inv h

/-- The same for numbers, which are written back as they were read. -/
lemma rget_be_inv {w : ℕ} {c : RCur} (h : (rget w c).2.err = false) :
    c.err = false ∧ beDecode (rget w c).1 < 256 ^ w ∧
      c.rest = beEncode w (beDecode (rget w c).1) ++ (rget w c).2.rest := by
  obtain ⟨herr, hrest⟩ := rget_inv h
  have hlt := beDecode_lt (rget w c).1
  have hback := beEncode_beDecode (rget w c).1
  rw [length_rget] at hlt hback
  exact ⟨herr, hlt, by rwa [hback]⟩

lemma rgetU8_inv {c : RCur} (h : (rgetU8 c).2.err = false) :
    c.err = false ∧ c.rest = beEncode 1 (rgetU8 c).1.toNat ++ (rgetU8 c).2.rest := by
  obtain ⟨herr, hlt, hrest⟩ := rget_be_inv (w := 1) h
  have hval : (rgetU8 c).1.toNat = beDecode (rget 1 c).1 := UInt8.toNat_ofNat_of_lt' hlt
  exact ⟨herr, by rw [hval]; exact hrest⟩

lemma rgetU32_inv {c : RCur} (h : (rgetU32 c).2.err = false) :
    c.err = false ∧ c.rest = beEncode 4 (rgetU32 c).1.toNat ++ (rgetU32 c).2.rest := by
  obtain ⟨herr, hlt, hrest⟩ := rget_be_inv (w := 4) h
  have hval : (rgetU32 c).1.toNat = beDecode (rget 4 c).1 := UInt32.toNat_ofNat_of_lt' hlt
  exact ⟨herr, by rw [hval]; exact hrest⟩

lemma rgetU64_inv {c : RCur} (h : (rgetU64 c).2.err = false) :
    c.err = false ∧ c.rest = beEncode 8 (rgetU64 c).1.toNat ++ (rgetU64 c).2.rest := by
  obtain ⟨herr, hlt, hrest⟩ := rget_be_inv (w := 8) h
  have hval : (rgetU64 c).1.toNat = beDecode (rget 8 c).1 := UInt64.toNat_ofNat_of_lt' hlt
  exact ⟨herr, by rw [hval]; exact hrest⟩

end AgentChain
