import Mathlib.Data.List.Basic

/-!
# Checked reads at an offset

Reading a range of a buffer that does not lie inside it is an outcome of its own, so that a
parser which always has a result is one that never leaves its input.
-/

namespace AgentChain
namespace Window

variable {α : Type*}

/-- The `n` elements from position `pos` on, unless the range leaves the buffer. -/
def readAt (buf : List α) (pos n : ℕ) : Option (List α) :=
  if pos + n ≤ buf.length then some ((buf.drop pos).take n) else none

/-- A range inside the buffer can be read. -/
lemma readAt_of_le (buf : List α) (pos n : ℕ) (h : pos + n ≤ buf.length) :
    ∃ w, readAt buf pos n = some w ∧ w.length = n := by
  refine ⟨(buf.drop pos).take n, if_pos h, ?_⟩
  rw [List.length_take, List.length_drop]
  omega

/-- A block between others is read back. -/
lemma readAt_append {pre mid post : List α} {pos n : ℕ} (hpos : pos = pre.length)
    (hn : n = mid.length) : readAt (pre ++ (mid ++ post)) pos n = some mid := by
  have hfits : pos + n ≤ (pre ++ (mid ++ post)).length := by
    rw [List.length_append, List.length_append]
    omega
  rw [readAt, if_pos hfits, hpos, List.drop_left, hn, List.take_left]

/-- So is a single element. -/
lemma getElem?_append_cons {pre post : List α} {x : α} {pos : ℕ} (hpos : pos = pre.length) :
    (pre ++ x :: post)[pos]? = some x := by
  rw [hpos, List.getElem?_append_right (Nat.le_refl _), Nat.sub_self, List.getElem?_cons_zero]

end Window
end AgentChain
