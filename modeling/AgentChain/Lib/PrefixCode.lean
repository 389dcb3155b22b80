import Mathlib.Data.List.Flatten
import Mathlib.Data.Set.Basic

/-!
# Prefix-free codes

Values are written one after the other, each by its code.  When no code is empty and none starts
another one, the bytes that have arrived so far determine the values that are complete, and what
is left over is the start of the codes of the others (`PrefixFreeOn.split`).
-/

namespace AgentChain

variable {α β : Type*} {S : Set α} {enc : α → List β}

/-- On the values of `S` no code is empty, and none starts another one. -/
structure PrefixFreeOn (S : Set α) (enc : α → List β) : Prop where
  nonempty : ∀ a ∈ S, enc a ≠ []
  separates : ∀ a ∈ S, ∀ b ∈ S, enc a <+: enc b → a = b

namespace PrefixFreeOn

/-- Two codes that start the same list are codes of the same value. -/
lemma eq_of_append_eq (h : PrefixFreeOn S enc) {a b : α} (ha : a ∈ S) (hb : b ∈ S)
    {x y : List β} (hxy : enc a ++ x = enc b ++ y) : a = b := by
  have hcommon : enc a <+: enc b ++ y := ⟨x, hxy⟩
  rcases List.prefix_or_prefix_of_prefix hcommon (List.prefix_append (enc b) y) with hab | hba
  · exact h.separates a ha b hb hab
  · exact (h.separates b hb a ha hba).symm

/-- **The complete values are determined by what has arrived.**  If the codes of `as`, followed by
`part`, start the codes of `bs`, then `bs` starts with `as`, and `part` starts the codes of the
others. -/
theorem split (h : PrefixFreeOn S enc) {as bs : List α} {part : List β} (has : ∀ a ∈ as, a ∈ S)
    (hbs : ∀ b ∈ bs, b ∈ S) (hpart : as.flatMap enc ++ part <+: bs.flatMap enc) :
    ∃ rest, bs = as ++ rest ∧ part <+: rest.flatMap enc := by
  induction as generalizing bs with
  | nil => exact ⟨bs, rfl, hpart⟩
  | cons a as ih =>
    obtain ⟨tail, htail⟩ := hpart
    have ha := has a List.mem_cons_self
    rw [List.flatMap_cons, List.append_assoc, List.append_assoc] at htail
    cases bs with
    | nil => exact absurd (List.append_eq_nil_iff.mp htail).1 (h.nonempty a ha)
    | cons b bs =>
      rw [List.flatMap_cons] at htail
      obtain rfl := h.eq_of_append_eq ha (hbs b List.mem_cons_self) htail
      obtain ⟨rest, rfl, hrest⟩ := ih (fun x hx => has x (List.mem_cons_of_mem _ hx))
        (fun x hx => hbs x (List.mem_cons_of_mem _ hx))
        ⟨tail, (List.append_assoc ..).trans (List.append_cancel_left htail)⟩
      exact ⟨rest, rfl, hrest⟩

/-- When the codes of `as` are all that was to come, `as` is complete. -/
theorem eq_of_flatMap_eq (h : PrefixFreeOn S enc) {as bs : List α} (has : ∀ a ∈ as, a ∈ S)
    (hbs : ∀ b ∈ bs, b ∈ S) (heq : as.flatMap enc = bs.flatMap enc) : as = bs := by
  have hstart : as.flatMap enc ++ [] <+: bs.flatMap enc := ⟨[], by
    rw [List.append_nil, List.append_nil, heq]⟩
  obtain ⟨rest, rfl, -⟩ := h.split has hbs hstart
  cases rest with
  | nil => exact (List.append_nil as).symm
  | cons b rest =>
    rw [List.flatMap_append, List.flatMap_cons, List.self_eq_append_right,
      List.append_eq_nil_iff] at heq
    exact absurd heq.1 (h.nonempty b (hbs b (by simp)))

end PrefixFreeOn

end AgentChain
