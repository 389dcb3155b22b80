import AgentChain.Lib.SortedArray

/-!
# The entries with one key in a sorted array

In an array in ascending order that may hold a key many times, the entries with a key stand
together.  This file has the loop `while (lo < hi)` that finds the first of them, and what it
means to select the last entries of an ascending list, newest first.
-/

namespace AgentChain
namespace SortedRun

variable {α κ : Type*}

/-! ### The first entry that is not below -/

/-- The loop `while (lo < hi)` of a lower bound.  The interval shrinks in every round. -/
def lowerBound (xs : List α) (below : α → Bool) : ℕ → ℕ → ℕ → ℕ
  | 0, lo, _ => lo
  | fuel + 1, lo, hi =>
      if lo < hi then
        let mid := lo + (hi - lo) / 2
        if (xs[mid]?).any below then lowerBound xs below fuel (mid + 1) hi
        else lowerBound xs below fuel lo mid
      else lo

/-- The loop ends at the first entry that is not below. -/
theorem lowerBound_eq {below : α → Bool} {l r : List α} (hl : ∀ y ∈ l, below y = true)
    (hr : ∀ y ∈ r, below y = false) (fuel : ℕ) {lo hi : ℕ} (hlo : lo ≤ l.length)
    (hhi : l.length ≤ hi) (hlen : hi ≤ (l ++ r).length) (hfuel : hi - lo ≤ fuel) :
    lowerBound (l ++ r) below fuel lo hi = l.length := by
  induction fuel generalizing lo hi with
  | zero =>
    rw [lowerBound]
    omega
  | succ fuel ih =>
    rw [lowerBound]
    by_cases hlt : lo < hi
    · rw [if_pos hlt]
      dsimp only
      have hmid : lo + (hi - lo) / 2 < (l ++ r).length := by omega
      rw [List.getElem?_eq_getElem hmid, Option.any_some]
      by_cases hin : lo + (hi - lo) / 2 < l.length
      · rw [List.getElem_append_left hin, hl _ (List.getElem_mem hin), if_pos rfl]
        exact ih hin hhi hlen (by omega)
      · rw [not_lt] at hin
        rw [List.getElem_append_right hin, hr _ (List.getElem_mem _), if_neg Bool.false_ne_true]
        exact ih hlo hin hmid.le (by omega)
    · rw [if_neg hlt]
      omega

/-! ### The run of a key -/

/-- An array around the entries with a key: `l` is below them and `r` above. -/
structure Run (c : α → Ordering) (l m r : List α) : Prop where
  below : ∀ y ∈ l, c y = .lt
  equal : ∀ y ∈ m, c y = .eq
  above : ∀ y ∈ r, c y = .gt

/-- In ascending order the entries with a key stand together. -/
theorem run_of_pairwise {key : α → κ} {cmp : κ → κ → Ordering} [Std.TransCmp cmp] {xs : List α}
    (h : xs.Pairwise fun x y => cmp (key x) (key y) ≠ .gt) (k : κ) :
    ∃ l m r, xs = l ++ (m ++ r) ∧ Run (fun y => cmp (key y) k) l m r := by
  induction xs with
  | nil => exact ⟨[], [], [], rfl, by simp, by simp, by simp⟩
  | cons a xs ih =>
    obtain ⟨ha, hxs⟩ := List.pairwise_cons.mp h
    have hge : ∀ y ∈ xs, (cmp (key y) (key a)).isGE := fun y hy =>
      Std.OrientedCmp.isGE_iff_isLE.mpr (Ordering.isLE_iff_ne_gt.mpr (ha y hy))
    obtain ⟨l, m, r, hsplit, hrun⟩ := ih hxs
    -- an entry behind `a` is not below the key when `a` is not
    have hnil : cmp (key a) k ≠ .lt → l = [] := by
      intro hak
      rw [List.eq_nil_iff_forall_not_mem]
      intro y hy
      have hyk := Std.TransCmp.isGE_trans (hge y (by rw [hsplit]; simp [hy]))
        (Ordering.isGE_iff_ne_lt.mpr hak)
      exact Ordering.isGE_iff_ne_lt.mp hyk (hrun.below y hy)
    cases hc : cmp (key a) k with
    | lt =>
      refine ⟨a :: l, m, r, by rw [hsplit]; rfl, ?_, hrun.equal, hrun.above⟩
      simpa [hc] using hrun.below
    | eq =>
      refine ⟨[], a :: m, r, ?_, by simp, ?_, hrun.above⟩
      · rw [hsplit, hnil (by simp [hc])]
        rfl
      · simpa [hc] using hrun.equal
    | gt =>
      refine ⟨[], [], a :: xs, rfl, by simp, by simp, ?_⟩
      intro y hy
      rcases List.mem_cons.mp hy with rfl | hy
      · exact hc
      · exact Std.TransCmp.gt_of_isGE_of_gt (hge y hy) hc

namespace Run

variable {c : α → Ordering} {l m r : List α}

lemma filter_eq (h : Run c l m r) : (l ++ (m ++ r)).filter (fun y => c y = .eq) = m := by
  rw [List.filter_append, List.filter_append,
    List.filter_eq_nil_iff.mpr fun y hy => by simp [h.below y hy],
    List.filter_eq_self.mpr fun y hy => by simp [h.equal y hy],
    List.filter_eq_nil_iff.mpr fun y hy => by simp [h.above y hy],
    List.nil_append, List.append_nil]

lemma takeWhile_eq (h : Run c l m r) : (m ++ r).takeWhile (fun y => c y = .eq) = m := by
  rw [List.takeWhile_append_of_pos fun y hy => by simp [h.equal y hy]]
  cases r with
  | nil => simp
  | cons y r => simp [h.above y (List.mem_cons_self ..)]

/-- The loop finds the start of the run. -/
lemma lowerBound_eq (h : Run c l m r) :
    lowerBound (l ++ (m ++ r)) (fun y => c y = .lt) (l ++ (m ++ r)).length 0
      (l ++ (m ++ r)).length = l.length := by
  refine SortedRun.lowerBound_eq (fun y hy => by simp [h.below y hy]) ?_ _ (Nat.zero_le _)
    (by simp) le_rfl (by simp)
  intro y hy
  rcases List.mem_append.mp hy with hy | hy
  · simp [h.equal y hy]
  · simp [h.above y hy]

end Run

/-! ### The newest entries -/

/-- `out` lists the `cap` newest of the entries, or all when there are fewer, newest first. -/
structure Newest (before : α → α → Prop) (entries : List α) (cap : ℕ) (out : List α) : Prop where
  length_eq : out.length = min cap entries.length
  newest_first : out.Pairwise fun a b => before b a
  mem_entries : ∀ a ∈ out, a ∈ entries
  newer : ∀ e ∈ entries, e ∉ out → ∀ a ∈ out, before e a

variable {before : α → α → Prop} {entries : List α} {cap k : ℕ}

/-- The order of the entries does not matter. -/
lemma newest_perm {entries' out : List α} (h : entries.Perm entries') :
    Newest before entries cap out ↔ Newest before entries' cap out := by
  have himp : ∀ {es es' : List α}, es.Perm es' → Newest before es cap out →
      Newest before es' cap out := fun hperm hn =>
    ⟨hperm.length_eq ▸ hn.length_eq, hn.newest_first,
      fun a ha => hperm.mem_iff.mp (hn.mem_entries a ha),
      fun e he => hn.newer e (hperm.mem_iff.mpr he)⟩
  exact ⟨himp h, himp h.symm⟩

/-- The end of an ascending list, backwards. -/
lemma newest_reverse (h : entries.Pairwise before) :
    Newest before entries cap (entries.reverse.take cap) where
  length_eq := by rw [List.length_take, List.length_reverse]
  newest_first := (List.pairwise_reverse.mpr h).sublist (List.take_sublist _ _)
  mem_entries := fun a ha => List.mem_reverse.mp (List.mem_of_mem_take ha)
  newer := by
    intro e he hout a ha
    rw [← List.mem_reverse, ← List.take_append_drop cap entries.reverse, List.mem_append] at he
    have hpairs := List.pairwise_reverse.mpr h
    rw [← List.take_append_drop cap entries.reverse, List.pairwise_append] at hpairs
    exact hpairs.2.2 a ha e (he.resolve_left hout)

/-- **A buffer that is filled from the oldest end** and then read backwards holds the newest
entries exactly when all entries fit into it. -/
theorem newest_take_reverse_iff (hasymm : ∀ a b, before a b → ¬ before b a)
    (h : entries.Pairwise before) (hk : 0 < k) (hcap : 0 < cap) :
    Newest before entries cap ((entries.take k).reverse.take cap) ↔ entries.length ≤ k := by
  constructor
  · intro hn
    by_contra hlong
    rw [not_le] at hlong
    have hpairs := List.pairwise_iff_getElem.mp h
    -- the newest entry in the buffer, and the newest of all
    have hlast : entries[k - 1] ∈ (entries.take k).reverse.take cap := by
      rw [List.mem_take_iff_getElem]
      refine ⟨0, ?_, ?_⟩
      · rw [List.length_reverse, List.length_take]
        omega
      · rw [List.getElem_reverse, List.getElem_take]
        congr 1
        rw [List.length_take]
        omega
    have habsent : entries[entries.length - 1] ∉ (entries.take k).reverse.take cap := by
      intro hmem
      obtain ⟨i, hi, heq⟩ := List.mem_take_iff_getElem.mp
          (List.mem_reverse.mp (List.mem_of_mem_take hmem))
      have hself := hpairs i (entries.length - 1) (by omega) (by omega) (by omega)
      rw [heq] at hself
      exact hasymm _ _ hself hself
    exact hasymm _ _ (hpairs (k - 1) (entries.length - 1) (by omega) (by omega) (by omega))
      (hn.newer _ (List.getElem_mem _) habsent _ hlast)
  · intro hle
    rw [List.take_of_length_le hle]
    exact newest_reverse h

end SortedRun
end AgentChain
