import Mathlib.Data.List.Basic
import Mathlib.Data.List.Nodup

/-!
# Queues by priority and arrival

A queue is a list of elements with a key and a name.  A new element is inserted in front of the
first one with a lower key, hence behind its equals; elements may be dropped anywhere.  The log
has the names in the order of their arrival.  A name may arrive again after it was dropped, and
then its last arrival counts.

`StableSorted` says that the keys go down and that equals stand in the order of their arrival.
It is kept by dropping (`StableSorted.sublist`) and by inserting a name that is not in the queue
(`StableSorted.insert`).
-/

namespace AgentChain

section LastAt

variable {ν : Type*} [DecidableEq ν]

/-- The place of the last arrival of a name in a log, counted from one. -/
def lastAt (log : List ν) (x : ν) : ℕ := log.length - log.reverse.findIdx fun y => y = x

lemma lastAt_le (log : List ν) (x : ν) : lastAt log x ≤ log.length := Nat.sub_le _ _

@[simp] lemma lastAt_concat_self (log : List ν) (x : ν) :
    lastAt (log ++ [x]) x = log.length + 1 := by
  simp [lastAt, List.findIdx_cons]

lemma lastAt_concat_of_ne {log : List ν} {x y : ν} (h : x ≠ y) :
    lastAt (log ++ [y]) x = lastAt log x := by
  have hne : (decide (y = x)) = false := by simpa using h.symm
  simp [lastAt, List.findIdx_cons, hne]

end LastAt

/-! ### The order of a queue -/

section Order

variable {α κ ν : Type*} [LT κ] [DecidableEq ν]

/-- The keys go down, and equals stand in the order of their last arrival. -/
def StableSorted (key : α → κ) (name : α → ν) (log : List ν) (l : List α) : Prop :=
  l.Pairwise fun a b =>
    key b < key a ∨ key a = key b ∧ lastAt log (name a) < lastAt log (name b)

variable {key : α → κ} {name : α → ν} {log : List ν} {l l' : List α}

lemma StableSorted.sublist (h : StableSorted key name log l) (hsub : l'.Sublist l) :
    StableSorted key name log l' :=
  List.Pairwise.sublist hsub h

/-- The log may go on with a name that is not in the queue. -/
lemma StableSorted.concat (h : StableSorted key name log l) {y : ν} (hfresh : y ∉ l.map name) :
    StableSorted key name (log ++ [y]) l := by
  refine List.Pairwise.imp_of_mem (fun {a b} ha hb hab => ?_) h
  have hname : ∀ c ∈ l, name c ≠ y := fun c hc heq => hfresh (heq ▸ List.mem_map_of_mem hc)
  rwa [lastAt_concat_of_ne (hname a ha), lastAt_concat_of_ne (hname b hb)]

lemma StableSorted.sorted [LE κ] [Std.IsLinearOrder κ] [Std.LawfulOrderLT κ]
    (h : StableSorted key name log l) : l.Pairwise fun a b => key b ≤ key a :=
  h.imp fun hab => hab.elim Std.le_of_lt fun heq => Std.le_of_eq heq.1.symm

end Order

/-! ### Insertion -/

section Insert

variable {α κ ν : Type*} [LT κ] [DecidableLT κ]

/-- Insert an element in front of the first one with a lower key. -/
def insertBehind (key : α → κ) (x : α) (l : List α) : List α :=
  let pos := l.findIdx fun y => key y < key x
  l.take pos ++ x :: l.drop pos

lemma insertBehind_perm (key : α → κ) (x : α) (l : List α) :
    (insertBehind key x l).Perm (x :: l) := by
  rw [insertBehind]
  generalize (l.findIdx fun y => key y < key x) = pos
  have hperm : (l.take pos ++ x :: l.drop pos).Perm (x :: (l.take pos ++ l.drop pos)) :=
    List.perm_middle
  rwa [List.take_append_drop] at hperm

/-- Elements that are not below the new one stay in front of it. -/
lemma insertBehind_append {key : α → κ} {x : α} {front : List α}
    (h : ∀ a ∈ front, ¬ key a < key x) (back : List α) :
    insertBehind key x (front ++ back) = front ++ insertBehind key x back := by
  have hnone : (front.findIdx fun y => key y < key x) = front.length :=
    List.findIdx_eq_length.mpr fun a ha => by simpa using h a ha
  have hpos : ((front ++ back).findIdx fun y => key y < key x) =
      front.length + back.findIdx fun y => key y < key x := by
    rw [List.findIdx_append, hnone, if_neg (Nat.lt_irrefl _), Nat.add_comm]
  rw [insertBehind, hpos, List.take_length_add_append, List.drop_length_add_append,
    List.append_assoc]
  rfl

variable [LE κ] [Std.IsLinearOrder κ] [Std.LawfulOrderLT κ] {key : α → κ} {x : α} {l : List α}

/-- **The place of a new element**: behind all that are not below it, and in front of those that
are, when the keys go down. -/
lemma insertBehind_split (x : α) (hsorted : l.Pairwise fun a b => key b ≤ key a) :
    ∃ front back, l = front ++ back ∧ insertBehind key x l = front ++ x :: back ∧
      (∀ a ∈ front, key x ≤ key a) ∧ ∀ a ∈ back, key a < key x := by
  refine ⟨_, _, (List.take_append_drop (l.findIdx fun y => key y < key x) l).symm, rfl, ?_, ?_⟩
  · intro a ha
    obtain ⟨i, hi, rfl⟩ := List.getElem_of_mem ha
    rw [List.length_take] at hi
    rw [List.getElem_take]
    have hnot := List.not_of_lt_findIdx (Nat.lt_of_lt_of_le hi (Nat.min_le_left _ _))
    exact Std.not_lt.mp (by simpa using hnot)
  · intro a ha
    obtain ⟨i, hi, rfl⟩ := List.getElem_of_mem ha
    rw [List.length_drop] at hi
    rw [List.getElem_drop]
    -- the first element of the rest is below the new one, and the others are not above it
    have hlt : (l.findIdx fun y => key y < key x) < l.length := by omega
    have hfirst : key l[l.findIdx fun y => key y < key x] < key x := by
      simpa using @List.findIdx_getElem _ (fun y => key y < key x) l hlt
    rcases Nat.eq_zero_or_pos i with rfl | hpos
    · simpa using hfirst
    · have hle := List.pairwise_iff_getElem.mp hsorted _ (l.findIdx (fun y => key y < key x) + i)
        hlt
        (by omega) (by omega)
      exact Std.lt_of_le_of_lt hle hfirst

/-- **Insertion** behind the equals keeps the order. -/
theorem StableSorted.insert [DecidableEq ν] {name : α → ν} {log : List ν}
    (h : StableSorted key name log l) (hfresh : name x ∉ l.map name) :
    StableSorted key name (log ++ [name x]) (insertBehind key x l) := by
  have hold := h.concat hfresh
  obtain ⟨front, back, rfl, heq, hfront, hback⟩ := insertBehind_split x h.sorted
  rw [StableSorted, List.pairwise_append] at hold
  obtain ⟨hf, hb, hcross⟩ := hold
  rw [heq, StableSorted, List.pairwise_append, List.pairwise_cons]
  refine ⟨hf, ⟨fun b hmem => Or.inl (hback b hmem), hb⟩, fun a ha b hmem => ?_⟩
  rcases List.mem_cons.mp hmem with rfl | hmem
  · by_cases hkey : key b = key a
    · have hne : name a ≠ name b := fun hname =>
        hfresh (hname ▸ List.mem_map_of_mem (List.mem_append_left _ ha))
      rw [lastAt_concat_self, lastAt_concat_of_ne hne]
      exact Or.inr ⟨hkey.symm, Nat.lt_succ_of_le (lastAt_le _ _)⟩
    · exact Or.inl (Std.lt_of_le_of_ne (hfront a ha) hkey)
  · exact hcross a ha b hmem

end Insert

end AgentChain
