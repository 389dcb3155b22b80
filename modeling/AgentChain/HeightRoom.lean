import AgentChain.Builder

/-!
# The height of a chain does not wrap around

The engine computes the height of the next block as `height + 1` in 64 bits.  The sum never
wraps: heights do not overtake slots, and for every genesis time there is a slot that no block
can have.  It is the one that starts within the last three seconds before the signed clock
overflows, where the window of `checkTime` is empty.
-/

namespace AgentChain

/-! ### The slot without a window -/

/-- From this time on, until the signed clock overflows, the window of a slot is empty. -/
def lastSafeMs : ℕ := 2 ^ 63 - 3000

/-- A slot behind the first one whose window is empty. -/
def deadSlot (genesisMs : UInt64) : ℕ :=
  if genesisMs.toNat ≤ lastSafeMs then (lastSafeMs - genesisMs.toNat) / 2000 + 1
  else (lastSafeMs + 2 ^ 64 - genesisMs.toNat) / 2000 + 1

lemma deadSlot_pos (genesisMs : UInt64) : 0 < deadSlot genesisMs := by
  rw [deadSlot]
  split_ifs
  · exact Nat.succ_pos _
  · exact Nat.succ_pos _

lemma deadSlot_lt (genesisMs : UInt64) : deadSlot genesisMs < 2 ^ 64 := by
  rw [deadSlot, lastSafeMs]
  split_ifs
  · omega
  · omega

/-- The start of a slot is computed modulo `2 ^ 64`. -/
lemma toNat_acChainSlotTimeMs (c : Chain) (slot : UInt64) :
    (acChainSlotTimeMs c slot).toNat =
      (c.genesisTimestampMs.toNat + 2000 * slot.toNat) % 2 ^ 64 := by
  rw [acChainSlotTimeMs, UInt64.toNat_add, UInt64.toNat_mul, Nat.add_mod_mod, mul_comm]
  rfl

/-- The dead slot starts in the last three seconds. -/
lemma deadSlot_start {c : Chain} {slot : UInt64}
    (h : slot.toNat = deadSlot c.genesisTimestampMs) :
    lastSafeMs < (acChainSlotTimeMs c slot).toNat ∧
      (acChainSlotTimeMs c slot).toNat < 2 ^ 63 := by
  have hlt := c.genesisTimestampMs.toNat_lt
  rw [toNat_acChainSlotTimeMs, h, deadSlot, lastSafeMs]
  split_ifs
  · omega
  · omega

/-- No block of the dead slot passes the check of its time. -/
lemma checkTime_deadSlot {now : UInt64} {c : Chain} {h : BlockHeader}
    (hslot : h.slot.toNat = deadSlot c.genesisTimestampMs) : checkTime now c h ≠ none := by
  intro hnone
  obtain ⟨-, hwindow, -⟩ := checkTime_eq_none.mp hnone
  obtain ⟨hlow, hhigh⟩ := deadSlot_start hslot
  rw [lastSafeMs] at hlow
  have hstart := toInt_toInt64 hhigh
  have h3000 : (3000 : Int64).toInt = 3000 := rfl
  rw [not_or, Int64.not_lt, Int64.not_lt, Int64.le_iff_toInt_le, Int64.le_iff_toInt_le,
    Int64.toInt_sub, Int64.toInt_add, hstart, h3000] at hwindow
  -- the end of the window wraps around to the far past
  rw [Int.bmod_eq_of_le (by omega) (by omega)] at hwindow
  have hwrap : (((acChainSlotTimeMs c h.slot).toNat : ℤ) + 3000).bmod (2 ^ 64) =
      (acChainSlotTimeMs c h.slot).toNat + 3000 - 2 ^ 64 := by
    rw [Int.bmod_def]
    omega
  rw [hwrap] at hwindow
  omega

/-! ### Room above the tip -/

/-- Heights do not overtake slots, and fall behind at the dead slot. -/
structure HeightRoom (c : Chain) : Prop where
  height_le : c.height.toNat ≤ c.lastSlot.toNat
  height_lt : deadSlot c.genesisTimestampMs ≤ c.lastSlot.toNat → c.height.toNat < c.lastSlot.toNat

namespace HeightRoom

variable {P : Platform} {c d : Chain}

/-- The next height does not wrap around. -/
theorem succ_toNat (h : HeightRoom c) : (c.height + 1).toNat = c.height.toNat + 1 := by
  have hdead := deadSlot_lt c.genesisTimestampMs
  have hslot := c.lastSlot.toNat_lt
  have h1 : (1 : UInt64).toNat = 1 := rfl
  have hle := h.height_le
  have hlt : c.height.toNat + 1 < 2 ^ 64 := by
    by_contra hge
    have := h.height_lt (by omega)
    omega
  rw [UInt64.toNat_add, h1, Nat.mod_eq_of_lt hlt]

/-- Only the fields of the tip matter. -/
lemma congr (h : HeightRoom c) (hheight : d.height = c.height) (hslot : d.lastSlot = c.lastSlot)
    (hgenesis : d.genesisTimestampMs = c.genesisTimestampMs) : HeightRoom d := by
  refine ⟨?_, ?_⟩
  · rw [hheight, hslot]
    exact h.height_le
  · rw [hheight, hslot, hgenesis]
    exact h.height_lt

/-- A block that passed the checks leaves room above it. -/
lemma advance (h : HeightRoom c) {now : UInt64} {b : Block} (hpass : PassesChecks P now c b)
    (hheight : d.height = b.header.height) (hslot : d.lastSlot = b.header.slot)
    (hgenesis : d.genesisTimestampMs = c.genesisTimestampMs) : HeightRoom d := by
  have hb := height_of_checkLink hpass.link
  have hlater := (checkTime_eq_none.mp hpass.time).1
  rw [UInt64.not_le, UInt64.lt_iff_toNat_lt] at hlater
  have hdead : b.header.slot.toNat ≠ deadSlot c.genesisTimestampMs := fun heq =>
    checkTime_deadSlot heq hpass.time
  have hle := h.height_le
  have hlt := h.height_lt
  refine ⟨?_, ?_⟩
  · rw [hheight, hslot]
    omega
  · rw [hheight, hslot, hgenesis]
    omega

end HeightRoom

section Tip

variable {P : Platform} {g : Genesis} {c : Chain}

/-- The tip behind the three writes: it has moved when the first two succeeded. -/
lemma persist_tip (w : Writes) (c : Chain) (b : Block) (blockHash : Hash) :
    (persist P w c b blockHash).2.genesisTimestampMs = c.genesisTimestampMs ∧
      ((persist P w c b blockHash).2.height = c.height ∧
          (persist P w c b blockHash).2.lastSlot = c.lastSlot ∨
        (persist P w c b blockHash).2.height = b.header.height ∧
          (persist P w c b blockHash).2.lastSlot = b.header.slot) := by
  rw [persist]
  cases hser : acStateSerialize P c.state with
  | none =>
    simp only [hser]
    split_ifs
    · exact ⟨rfl, Or.inl ⟨rfl, rfl⟩⟩
    · exact ⟨rfl, Or.inl ⟨rfl, rfl⟩⟩
  | some buf =>
    simp only [hser]
    split_ifs
    · exact ⟨rfl, Or.inl ⟨rfl, rfl⟩⟩
    · exact ⟨rfl, Or.inl ⟨rfl, rfl⟩⟩
    · exact ⟨rfl, Or.inr ⟨rfl, rfl⟩⟩
    · exact ⟨rfl, Or.inr ⟨rfl, rfl⟩⟩

/-- **The tip behind a call**, whatever the outcome of its writes. -/
theorem acChainAcceptBlock_tip (hP : P.MallocBounded) (now : UInt64) (w : Writes) (c : Chain)
    (b : Block) :
    (acChainAcceptBlock P now w c b).2.genesisTimestampMs = c.genesisTimestampMs ∧
      ((acChainAcceptBlock P now w c b).2.height = c.height ∧
          (acChainAcceptBlock P now w c b).2.lastSlot = c.lastSlot ∨
        PassesChecks P now c b ∧ (acChainAcceptBlock P now w c b).2.height = b.header.height ∧
          (acChainAcceptBlock P now w c b).2.lastSlot = b.header.slot) := by
  obtain ⟨k, -, ⟨hreach, d, hd, heq⟩ | ⟨-, -, -, hres⟩⟩ := acChainAcceptBlock_cases hP now w c b
  · obtain ⟨hgenesis, htip⟩ := persist_tip (P := P) w d b (acBlockHash P b.header)
    rw [heq]
    rw [hd.eq_withCached] at hgenesis htip ⊢
    refine ⟨hgenesis, ?_⟩
    rcases htip with htip | htip
    · exact Or.inl htip
    · exact Or.inr ⟨hreach.passes, htip⟩
  · rw [hres.same.eq_withCached]
    exact ⟨rfl, Or.inl ⟨rfl, rfl⟩⟩

/-- Only the check of the height finds duplicates. -/
lemma acChainAcceptBlock_dup {now : UInt64} {w : Writes} {b : Block}
    (h : (acChainAcceptBlock P now w c b).1 = .dup) : checkLink P c b.header = some .dup := by
  have htime : checkTime now c b.header ≠ some .dup := by
    rw [checkTime]
    split_ifs
    all_goals decide
  have hfee : ∀ d, checkBaseFee d b.header ≠ some .dup := by
    intro d
    rw [checkBaseFee]
    split_ifs
    all_goals decide
  have hexec : ∀ d snap, (execBlock P w d b snap).1 ≠ .dup := by
    intro d snap
    rw [execBlock]
    dsimp only
    split_ifs
    · rintro ⟨⟩
    · rintro ⟨⟩
    · rintro ⟨⟩
    · rintro ⟨⟩
    · intro hdup
      rcases persist_rc (P := P) w _ b (acBlockHash P b.header) with hrc | hrc
      · exact AcceptRc.noConfusion (hrc.symm.trans hdup)
      · exact AcceptRc.noConfusion (hrc.symm.trans hdup)
    · rintro ⟨⟩
  rw [acChainAcceptBlock, checkHeader] at h
  cases hlink : checkLink P c b.header with
  | some rc =>
    rw [hlink] at h
    exact congrArg some h
  | none =>
    rw [hlink] at h
    cases ht : checkTime now c b.header with
    | some rc =>
      rw [ht] at h
      exact absurd (ht.trans (congrArg some h)) htime
    | none =>
      rw [ht] at h
      dsimp only at h
      split_ifs at h with hprop
      · cases hf : checkBaseFee (validateProposerVrf P c b.header).2 b.header with
        | some rc =>
          rw [hf] at h
          exact absurd (hf.trans (congrArg some h)) (hfee _)
        | none =>
          rw [hf] at h
          dsimp only at h
          cases hser : acStateSerialize P (validateProposerVrf P c b.header).2.state with
          | none =>
            rw [hser] at h
            exact AcceptRc.noConfusion h
          | some snap =>
            rw [hser] at h
            exact absurd h (hexec _ _)

/-- A duplicate is not above the tip. -/
lemma height_le_of_dup {now : UInt64} {w : Writes} {b : Block}
    (h : (acChainAcceptBlock P now w c b).1 = .dup) :
    b.header.height.toNat ≤ c.height.toNat := by
  have hlink := acChainAcceptBlock_dup h
  rw [← UInt64.le_iff_toNat_le]
  by_contra hle
  have hne : b.header.height ≠ 0 := by
    intro hzero
    rw [hzero] at hle
    exact hle (UInt64.le_iff_toNat_le.mpr (Nat.zero_le _))
  rw [checkLink, if_neg hne, if_neg hle] at hlink
  split_ifs at hlink
  all_goals cases hlink

lemma HeightRoom.accept (hP : P.MallocBounded) (h : HeightRoom c) (now : UInt64) (w : Writes)
    (b : Block) : HeightRoom (acChainAcceptBlock P now w c b).2 := by
  obtain ⟨hgenesis, ⟨hheight, hslot⟩ | ⟨hpass, hheight, hslot⟩⟩ :=
    acChainAcceptBlock_tip hP now w c b
  · exact h.congr hheight hslot hgenesis
  · exact h.advance hpass hheight hslot hgenesis

lemma HeightRoom.reseeded {d : Chain} (h : HeightRoom c) (hd : c.Reseeded P d) : HeightRoom d := by
  rw [hd.same.eq_withCached]
  exact h.congr rfl rfl rfl

/-- The height never falls. -/
lemma acChainAcceptBlock_height_le (hP : P.MallocBounded) (now : UInt64) (w : Writes) (c : Chain)
    (b : Block) : c.height.toNat ≤ (acChainAcceptBlock P now w c b).2.height.toNat := by
  obtain ⟨-, ⟨hheight, -⟩ | ⟨hpass, hheight, -⟩⟩ := acChainAcceptBlock_tip hP now w c b
  · rw [hheight]
  · rw [hheight, height_of_checkLink hpass.link]
    exact Nat.le_succ _

/-- **Every chain has room above its tip.** -/
theorem NodeReachable.heightRoom (hP : P.MallocBounded) {es : List NodeEvent}
    (h : NodeReachable P g es c) : HeightRoom c := by
  have hl := (h.ledger hP).1
  have hroom : (blocksOf es).length ≤ (tipBlock P g (blocksOf es)).header.slot.toNat ∧
      (deadSlot g.timestampMs ≤ (tipBlock P g (blocksOf es)).header.slot.toNat →
        (blocksOf es).length < (tipBlock P g (blocksOf es)).header.slot.toNat) := by
    refine h.invariant hP (I := fun bs => bs.length ≤ (tipBlock P g bs).header.slot.toNat ∧
      (deadSlot g.timestampMs ≤ (tipBlock P g bs).header.slot.toNat →
        bs.length < (tipBlock P g bs).header.slot.toNat)) ?_ ?_
    · refine ⟨Nat.zero_le _, fun hdead => ?_⟩
      have hpos := deadSlot_pos g.timestampMs
      have hzero : (tipBlock P g []).header.slot.toNat = 0 := rfl
      omega
    · rintro bs c now b hc hpass ⟨hle, hlt⟩
      have hc' : HeightRoom c := by
        refine ⟨?_, ?_⟩
        · rw [hc.height_eq, hc.lastSlot_eq]
          exact hle
        · rw [hc.height_eq, hc.lastSlot_eq, hc.genesisTimestampMs_eq]
          exact hlt
      have hnext := hc'.advance (d := c.advance b.header (acBlockHash P b.header)) hpass rfl rfl rfl
      have hheight : (c.advance b.header (acBlockHash P b.header)).height.toNat =
          bs.length + 1 := by
        rw [← hc.height_eq]
        exact height_of_checkLink hpass.link
      have hgenesis := hc.genesisTimestampMs_eq
      rw [tipBlock_snoc, List.length_append, List.length_singleton, ← hheight, ← hgenesis]
      exact ⟨hnext.height_le, hnext.height_lt⟩
  refine ⟨?_, ?_⟩
  · rw [hl.height_eq, hl.lastSlot_eq]
    exact hroom.1
  · rw [hl.height_eq, hl.lastSlot_eq, hl.genesisTimestampMs_eq]
    exact hroom.2

end Tip

end AgentChain
