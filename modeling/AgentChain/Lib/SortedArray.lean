import Mathlib.Data.List.Sort
import Mathlib.Tactic

/-!
# Arrays kept sorted by a key and searched by bisection

A dynamic array whose entries are strictly increasing in a key is searched with the loop
`while (lo <= hi)` that returns the position of the key, or `-(pos + 1)` with the position
at which the key would have to be inserted.  This file contains that loop and the list
operations built on it, over an arbitrary comparison.

Every result is stated through a *cut* of the array at a key: the entries below the key,
possibly the entry with the key, and the entries above it.  A sorted array has a cut at
every key (`cut_of_sorted`), the loop finds it (`search_found`, `search_missing`), and
replacing, removing or inserting an entry is then plain list algebra.
-/

namespace AgentChain
namespace SortedArray

variable {α κ : Type*}

/-! ### The bisection loop -/

/-- The loop `while (lo <= hi)` of a bisection.  `c` compares an entry with the key that is
looked for.  The interval shrinks in every round, so `hi - lo + 1` rounds are enough. -/
def searchLoop (xs : List α) (c : α → Ordering) : ℕ → ℤ → ℤ → ℤ
  | 0, lo, _ => -(lo + 1)
  | fuel + 1, lo, hi =>
      if lo ≤ hi then
        match (xs[((lo + hi) / 2).toNat]?).map c with
        | some .eq => (lo + hi) / 2
        | some .lt => searchLoop xs c fuel ((lo + hi) / 2 + 1) hi
        | _ => searchLoop xs c fuel lo ((lo + hi) / 2 - 1)
      else -(lo + 1)

/-- Bisection over the whole array. -/
def search (xs : List α) (c : α → Ordering) : ℤ :=
  searchLoop xs c xs.length 0 (xs.length - 1)

/-- The array is cut at the key: the entries of `l` are below it, those of `r` above. -/
structure Cut (c : α → Ordering) (l r : List α) : Prop where
  below : ∀ y ∈ l, c y = .lt
  above : ∀ y ∈ r, c y = .gt

lemma getElem?_left {c : α → Ordering} {l r : List α} (h : Cut c l r) {i : ℕ}
    (hi : i < l.length) (m : List α) : ((l ++ m)[i]?).map c = some .lt := by
  rw [List.getElem?_append_left hi, List.getElem?_eq_getElem hi, Option.map_some,
    h.below _ (List.getElem_mem hi)]

lemma getElem?_right {c : α → Ordering} {l r : List α} (h : Cut c l r) {i : ℕ}
    (hi : l.length ≤ i) (hi' : i < (l ++ r).length) :
    ((l ++ r)[i]?).map c = some .gt := by
  have hlt : i - l.length < r.length := by
    rw [List.length_append] at hi'
    omega
  rw [List.getElem?_append_right hi, List.getElem?_eq_getElem hlt, Option.map_some,
    h.above _ (List.getElem_mem hlt)]

lemma searchLoop_found {c : α → Ordering} {l r : List α} {x : α} (h : Cut c l r)
    (hx : c x = .eq) (fuel : ℕ) (lo hi : ℤ) (hlo : 0 ≤ lo) (hl : lo ≤ l.length)
    (hr : (l.length : ℤ) ≤ hi) (hhi : hi < (l ++ x :: r).length) (hf : hi - lo < fuel) :
    searchLoop (l ++ x :: r) c fuel lo hi = l.length := by
  induction fuel generalizing lo hi with
  | zero => omega
  | succ fuel ih =>
    rw [searchLoop, if_pos (by omega)]
    rcases lt_trichotomy ((lo + hi) / 2).toNat l.length with hm | hm | hm
    · rw [getElem?_left h hm]
      exact ih _ _ (by omega) (by omega) hr hhi (by omega)
    · rw [hm, List.getElem?_append_right le_rfl, Nat.sub_self, List.getElem?_cons_zero,
        Option.map_some, hx]
      simp only
      omega
    · have hm' : ((l ++ x :: r)[((lo + hi) / 2).toNat]?).map c = some .gt := by
        rw [List.getElem?_append_right (by omega)]
        obtain ⟨k, hk⟩ : ∃ k, ((lo + hi) / 2).toNat - l.length = k + 1 :=
          ⟨((lo + hi) / 2).toNat - l.length - 1, by omega⟩
        have hkr : k < r.length := by
          rw [List.length_append, List.length_cons] at hhi
          omega
        rw [hk, List.getElem?_cons_succ, List.getElem?_eq_getElem hkr, Option.map_some,
          h.above _ (List.getElem_mem hkr)]
      rw [hm']
      exact ih _ _ hlo (by omega) (by omega) (by omega) (by omega)

lemma searchLoop_missing {c : α → Ordering} {l r : List α} (h : Cut c l r)
    (fuel : ℕ) (lo hi : ℤ) (hlo : 0 ≤ lo) (hl : lo ≤ l.length)
    (hr : (l.length : ℤ) ≤ hi + 1) (hhi : hi < (l ++ r).length) (hf : hi - lo < fuel) :
    searchLoop (l ++ r) c fuel lo hi = -((l.length : ℤ) + 1) := by
  induction fuel generalizing lo hi with
  | zero =>
    rw [searchLoop]
    omega
  | succ fuel ih =>
    rw [searchLoop]
    split_ifs with hlh
    · rcases lt_or_ge ((lo + hi) / 2).toNat l.length with hm | hm
      · rw [getElem?_left h hm]
        exact ih _ _ (by omega) (by omega) hr hhi (by omega)
      · rw [getElem?_right h hm (by omega)]
        exact ih _ _ hlo hl (by omega) (by omega) (by omega)
    · omega

/-- The loop finds the entry with the key. -/
theorem search_found {c : α → Ordering} {l r : List α} {x : α} (h : Cut c l r)
    (hx : c x = .eq) : search (l ++ x :: r) c = l.length := by
  have hlen : (l ++ x :: r).length = l.length + (r.length + 1) := by simp
  exact searchLoop_found h hx _ _ _ le_rfl (by omega) (by omega) (by omega) (by omega)

/-- The loop reports the position of a missing key. -/
theorem search_missing {c : α → Ordering} {l r : List α} (h : Cut c l r) :
    search (l ++ r) c = -((l.length : ℤ) + 1) := by
  have hlen : (l ++ r).length = l.length + r.length := by simp
  exact searchLoop_missing h _ _ _ le_rfl (by omega) (by omega) (by omega) (by omega)

/-! ### Sorted arrays -/

variable (key : α → κ) (cmp : κ → κ → Ordering)

/-- The keys of the array are strictly increasing. -/
def Sorted (xs : List α) : Prop := xs.Pairwise fun x y => cmp (key x) (key y) = .lt

variable {key cmp}

lemma sorted_nil : Sorted key cmp [] := List.Pairwise.nil

variable [Std.TransCmp cmp]

/-- Sorted arrays with the same entries are the same. -/
theorem Sorted.eq_of_mem_iff {xs ys : List α} (hx : Sorted key cmp xs) (hy : Sorted key cmp ys)
    (h : ∀ x, x ∈ xs ↔ x ∈ ys) : xs = ys := by
  have hself : ∀ x, cmp (key x) (key x) ≠ .lt := by
    intro x
    rw [show cmp (key x) (key x) = .eq from Std.ReflCmp.compare_self]
    decide
  have hirrefl : Std.Irrefl fun x y => cmp (key x) (key y) = .lt := ⟨hself⟩
  have hanti : Std.Antisymm fun x y => cmp (key x) (key y) = .lt :=
    ⟨fun x y hlt hgt => absurd (Std.TransCmp.lt_trans hlt hgt) (hself x)⟩
  exact List.Pairwise.eq_of_mem_iff hx hy h

/-- A sorted array has a cut at every key, with the entry of the key in between when there
is one. -/
theorem cut_of_sorted [Std.LawfulEqCmp cmp] {xs : List α} (h : Sorted key cmp xs) (k : κ) :
    (∃ l x r, xs = l ++ x :: r ∧ key x = k ∧ Cut (fun y => cmp (key y) k) l r) ∨
      (∃ l r, xs = l ++ r ∧ Cut (fun y => cmp (key y) k) l r) := by
  induction xs with
  | nil => exact Or.inr ⟨[], [], rfl, by simp, by simp⟩
  | cons a xs ih =>
    obtain ⟨ha, hxs⟩ := List.pairwise_cons.mp h
    have habove : ∀ {o}, cmp (key a) k = o → o ≠ .lt →
        ∀ y ∈ xs, cmp (key y) k = .gt := by
      intro o ho hne y hy
      have hya : cmp (key y) (key a) = .gt := Std.OrientedCmp.gt_of_lt (ha y hy)
      have hak : (cmp (key a) k).isGE := by
        rw [ho]
        cases o with
        | lt => exact absurd rfl hne
        | eq => rfl
        | gt => rfl
      exact Std.TransCmp.gt_of_gt_of_isGE hya hak
    cases hc : cmp (key a) k with
    | lt =>
      rcases ih hxs with ⟨l, x, r, rfl, hx, hcut⟩ | ⟨l, r, rfl, hcut⟩
      · refine Or.inl ⟨a :: l, x, r, rfl, hx, ?_, hcut.above⟩
        simpa [hc] using hcut.below
      · refine Or.inr ⟨a :: l, r, rfl, ?_, hcut.above⟩
        simpa [hc] using hcut.below
    | eq =>
      exact Or.inl ⟨[], a, xs, rfl, Std.LawfulEqCmp.eq_of_compare hc, by simp,
        habove hc (by decide)⟩
    | gt =>
      refine Or.inr ⟨[], a :: xs, rfl, by simp, ?_⟩
      simpa [hc] using habove hc (by decide)

omit [Std.TransCmp cmp] in
/-- Cutting entries out of a sorted array keeps it sorted. -/
theorem Sorted.cut_out {l m r : List α} (hs : Sorted key cmp (l ++ m ++ r)) :
    Sorted key cmp (l ++ r) := by
  refine List.Pairwise.sublist ?_ hs
  rw [List.append_assoc]
  exact List.Sublist.append (List.Sublist.refl l) (List.sublist_append_right m r)

/-- Cutting a sorted array out and putting an entry with the key of the cut in its place
keeps the array sorted. -/
theorem Cut.sorted_insert [Std.LawfulEqCmp cmp] {l m r : List α} {x : α}
    (hs : Sorted key cmp (l ++ m ++ r)) (h : Cut (fun y => cmp (key y) (key x)) l r) :
    Sorted key cmp (l ++ x :: r) := by
  obtain ⟨hl, hr, hcross⟩ := List.pairwise_append.mp hs.cut_out
  refine List.pairwise_append.mpr ⟨hl, List.pairwise_cons.mpr ⟨?_, hr⟩, ?_⟩
  · intro y hy
    exact Std.OrientedCmp.lt_of_gt (h.above y hy)
  · intro a ha b hb
    rcases List.mem_cons.mp hb with rfl | hb
    · exact h.below a ha
    · exact hcross a ha b hb

/-- Inserting at the cut. -/
lemma insertIdx_length_append {α : Type*} (l r : List α) (x : α) :
    (l ++ r).insertIdx l.length x = l ++ x :: r := by
  induction l with
  | nil => rfl
  | cons y l ih => simp [ih]

/-! ### Sorting and looking up -/

omit [Std.TransCmp cmp] in
/-- An array in ascending order without a repeated key is strictly increasing. -/
lemma sorted_of_nodup [Std.LawfulEqCmp cmp] {xs : List α}
    (h : xs.Pairwise fun x y => cmp (key x) (key y) ≠ .gt) (hk : (xs.map key).Nodup) :
    Sorted key cmp xs := by
  refine (h.and (List.pairwise_map.mp hk)).imp ?_
  rintro x y ⟨hle, hne⟩
  cases hc : cmp (key x) (key y) with
  | lt => rfl
  | eq => exact absurd (Std.LawfulEqCmp.eq_of_compare hc) hne
  | gt => exact absurd hc hle

/-- Sorting yields an array in ascending order. -/
lemma pairwise_sort (key : α → κ) (xs : List α) :
    (xs.insertionSort fun x y => cmp (key x) (key y) ≠ .gt).Pairwise
      fun x y => cmp (key x) (key y) ≠ .gt := by
  have htotal : Std.Total fun x y : α => cmp (key x) (key y) ≠ .gt := by
    refine ⟨fun x y => ?_⟩
    by_cases hxy : cmp (key x) (key y) = .gt
    · exact Or.inr (by simp [Std.OrientedCmp.lt_of_gt hxy])
    · exact Or.inl hxy
  have htrans : IsTrans α fun x y => cmp (key x) (key y) ≠ .gt := by
    refine ⟨fun x y z hxy hyz => ?_⟩
    rw [ne_eq, ← Ordering.isLE_iff_ne_gt] at hxy hyz ⊢
    exact Std.TransCmp.isLE_trans hxy hyz
  exact List.pairwise_insertionSort _ xs

/-- The entry that `bsearch` returns. -/
def find (xs : List α) (c : α → Ordering) : Option α :=
  if search xs c < 0 then none else xs[(search xs c).toNat]?

/-- On a sorted array the search returns the entry with the key. -/
theorem find_eq_some_iff [Std.LawfulEqCmp cmp] {xs : List α} (h : Sorted key cmp xs) (k : κ)
    (x : α) : find xs (fun y => cmp (key y) k) = some x ↔ x ∈ xs ∧ key x = k := by
  have hself : cmp k k = .eq := Std.ReflCmp.compare_self
  have hother : ∀ {l r : List α}, Cut (fun y => cmp (key y) k) l r → key x = k →
      x ∉ l ∧ x ∉ r := by
    intro l r hcut hx
    have heq : cmp (key x) k = .eq := by rw [hx, hself]
    constructor
    · intro hl
      simp [hcut.below x hl] at heq
    · intro hr
      simp [hcut.above x hr] at heq
  rcases cut_of_sorted h k with ⟨l, y, r, rfl, hy, hcut⟩ | ⟨l, r, rfl, hcut⟩
  · have hfound : cmp (key y) k = .eq := by rw [hy, hself]
    have hfind : find (l ++ y :: r) (fun y => cmp (key y) k) = some y := by
      rw [find, search_found hcut hfound]
      simp
    rw [hfind, Option.some.injEq]
    constructor
    · rintro rfl
      exact ⟨by simp, hy⟩
    · rintro ⟨hmem, hx⟩
      obtain ⟨hl, hr⟩ := hother hcut hx
      simpa [hl, hr, eq_comm] using hmem
  · have hfind : find (l ++ r) (fun y => cmp (key y) k) = none := by
      rw [find, search_missing hcut, if_pos (by omega)]
    rw [hfind]
    constructor
    · nofun
    · rintro ⟨hmem, hx⟩
      obtain ⟨hl, hr⟩ := hother hcut hx
      simp [hl, hr] at hmem

/-! ### Reading a sorted array back -/

section Read

variable {β : Type*} (one : List β → Option (α × List β)) (key : α → κ)
  (cmp : κ → κ → Ordering)

/-- Read `n` entries with `one`, each with a key above the key `prev` of the entry before
it.  The first entry has no entry before it. -/
def readSorted : ℕ → Option κ → List β → Option (List α × List β)
  | 0, _, rest => some ([], rest)
  | n + 1, prev, rest =>
      match one rest with
      | none => none
      | some (x, rest) =>
          if prev.any fun p => cmp p (key x) != .lt then none
          else (readSorted n (some (key x)) rest).map fun r => (x :: r.1, r.2)

variable {one key cmp}

/-- One successful round of the reader. -/
lemma readSorted_succ {n : ℕ} {prev : Option κ} {rest : List β} {r : List α × List β}
    (h : readSorted one key cmp (n + 1) prev rest = some r) :
    ∃ x rest' xs, one rest = some (x, rest') ∧ (∀ p ∈ prev, cmp p (key x) = .lt) ∧
      readSorted one key cmp n (some (key x)) rest' = some (xs, r.2) ∧ r.1 = x :: xs := by
  rw [readSorted] at h
  split at h
  · exact absurd h (by simp)
  · rename_i x rest' hone
    split_ifs at h with hp
    obtain ⟨q, hq, rfl⟩ := Option.map_eq_some_iff.mp h
    refine ⟨x, rest', q.1, hone, ?_, hq, rfl⟩
    intro p hmem
    rw [Option.mem_def] at hmem
    simpa [hmem] using hp

/-- What the reader accepts is sorted and lies above `prev`. -/
theorem readSorted_sorted [Std.TransCmp cmp] {n : ℕ} {prev : Option κ} {rest : List β}
    {r : List α × List β} (h : readSorted one key cmp n prev rest = some r) :
    Sorted key cmp r.1 ∧ ∀ p ∈ prev, ∀ x ∈ r.1, cmp p (key x) = .lt := by
  induction n generalizing prev rest r with
  | zero =>
    simp only [readSorted, Option.some.injEq] at h
    subst h
    exact ⟨sorted_nil, by simp⟩
  | succ n ih =>
    obtain ⟨x, rest', xs, -, hprev, hrec, hr⟩ := readSorted_succ h
    obtain ⟨hxs, habove⟩ := ih hrec
    rw [hr]
    refine ⟨List.pairwise_cons.mpr ⟨habove (key x) rfl, hxs⟩, ?_⟩
    intro p hp y hy
    rcases List.mem_cons.mp hy with rfl | hy
    · exact hprev p hp
    · exact Std.TransCmp.lt_trans (hprev p hp) (habove (key x) rfl y hy)

/-- Every entry that was read has what the entry reader checks. -/
theorem readSorted_forall {Q : α → Prop} (hQ : ∀ rest x rest', one rest = some (x, rest') → Q x)
    {n : ℕ} {prev : Option κ} {rest : List β} {r : List α × List β}
    (h : readSorted one key cmp n prev rest = some r) : ∀ x ∈ r.1, Q x := by
  induction n generalizing prev rest r with
  | zero =>
    simp only [readSorted, Option.some.injEq] at h
    subst h
    simp
  | succ n ih =>
    obtain ⟨x, rest', xs, hone, -, hrec, hr⟩ := readSorted_succ h
    rw [hr]
    exact List.forall_mem_cons.mpr ⟨hQ _ _ _ hone, ih hrec⟩

/-- What the reader has consumed is the encoding of what it returns. -/
theorem readSorted_enc {enc : α → List β}
    (hone : ∀ rest x rest', one rest = some (x, rest') → rest = enc x ++ rest')
    {n : ℕ} {prev : Option κ} {rest : List β} {r : List α × List β}
    (h : readSorted one key cmp n prev rest = some r) :
    rest = r.1.flatMap enc ++ r.2 ∧ r.1.length = n := by
  induction n generalizing prev rest r with
  | zero =>
    simp only [readSorted, Option.some.injEq] at h
    subst h
    exact ⟨rfl, rfl⟩
  | succ n ih =>
    obtain ⟨x, rest', xs, hx, -, hrec, hr⟩ := readSorted_succ h
    obtain ⟨hrest, hlen⟩ := ih hrec
    rw [hr, List.flatMap_cons, List.append_assoc, ← hrest, List.length_cons, hlen]
    exact ⟨hone _ _ _ hx, rfl⟩

/-- A sorted array is read back from its encoding, in front of an arbitrary rest. -/
theorem readSorted_flatMap {enc : α → List β} {xs : List α} (hs : Sorted key cmp xs)
    (hone : ∀ x ∈ xs, ∀ rest, one (enc x ++ rest) = some (x, rest)) (prev : Option κ)
    (hprev : ∀ p ∈ prev, ∀ x ∈ xs, cmp p (key x) = .lt) (rest : List β) :
    readSorted one key cmp xs.length prev (xs.flatMap enc ++ rest) = some (xs, rest) := by
  induction xs generalizing prev with
  | nil => rfl
  | cons x xs ih =>
    obtain ⟨hx, hxs⟩ := List.pairwise_cons.mp hs
    have hp : (prev.any fun p => cmp p (key x) != .lt) = false := by
      cases prev with
      | none => rfl
      | some p => simp [hprev p rfl x (List.mem_cons_self ..)]
    have hrec := ih hxs (fun y hy => hone y (List.mem_cons_of_mem _ hy)) (some (key x))
      (fun p hp y hy => by
        rw [Option.mem_def, Option.some.injEq] at hp
        exact hp ▸ hx y hy)
    rw [List.length_cons, readSorted, List.flatMap_cons, List.append_assoc,
      hone x (List.mem_cons_self ..)]
    simp only [hp, Bool.false_eq_true, if_false, hrec, Option.map_some]

end Read

end SortedArray
end AgentChain
