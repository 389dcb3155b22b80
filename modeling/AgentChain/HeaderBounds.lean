import AgentChain.HeightRoom
import AgentChain.Nonces

/-!
# Times and base fees of accepted blocks

The start of a slot is computed modulo `2 ^ 64` and compared through signed casts.  For a
clock below `2 ^ 62`, an accepted block is timely exactly when the start of its slot fits into
the signed clock.  A slot that is a multiple of `2 ^ 60` ahead of the real one starts, modulo
`2 ^ 64`, at the same time as that one, and is accepted.

The base fee of an accepted block is the minimum or one more: the fee expected behind every
block is the minimum, and the check has a tolerance of one.  The products of the fee market
are therefore small.
-/

namespace AgentChain

/-! ### The window of a slot -/

section Window

variable {P : Platform} {now : UInt64} {w : Writes} {c : Chain} {b : Block}

/-- Inside the window of a slot that starts in the signed range.  The end of a window that
wraps around lies in the far past. -/
lemma window_of_checkTime {h : BlockHeader} (hts : h.timestampMs.toNat < 2 ^ 63)
    (hstart : (acChainSlotTimeMs c h.slot).toNat < 2 ^ 63) (hnone : checkTime now c h = none) :
    h.timestampMs.toNat ≤ (acChainSlotTimeMs c h.slot).toNat + 3000 ∧
      (acChainSlotTimeMs c h.slot).toNat ≤ h.timestampMs.toNat + 3000 := by
  obtain ⟨-, hwindow, -⟩ := checkTime_eq_none.mp hnone
  have h3000 : (3000 : Int64).toInt = 3000 := rfl
  rw [not_or, Int64.not_lt, Int64.not_lt, Int64.le_iff_toInt_le, Int64.le_iff_toInt_le,
    Int64.toInt_sub, Int64.toInt_add, toInt_toInt64 hstart, toInt_toInt64 hts, h3000,
    Int.bmod_def, Int.bmod_def] at hwindow
  split_ifs at hwindow
  all_goals omega

/-- The time of a block is within three seconds of the start of its slot, in unbounded
integers, and not ahead of the clock by more than 1500 ms; the slot at the tip of the chain
behind it is therefore bounded by the clock. -/
structure Timely (now : UInt64) (c : Chain) (b : Block) (d : Chain) : Prop where
  window : |(b.header.timestampMs.toNat : ℤ) -
    (c.genesisTimestampMs.toNat + 2000 * b.header.slot.toNat)| ≤ 3000
  not_ahead : (b.header.timestampMs.toNat : ℤ) ≤ now.toNat + 1500
  lastSlot_le : (d.lastSlot.toNat : ℤ) ≤ (now.toNat + 4500 - c.genesisTimestampMs.toNat) / 2000

/-- **Slots and real time.**  An accepted block is timely exactly when the start of its slot
fits into the signed clock. -/
theorem timely_iff (hP : P.MallocBounded) (hnow : now.toNat < 2 ^ 62)
    (hok : (acChainAcceptBlock P now w c b).1 = .ok) :
    Timely now c b (acChainAcceptBlock P now w c b).2 ↔
      c.genesisTimestampMs.toNat + 2000 * b.header.slot.toNat < 2 ^ 63 := by
  obtain ⟨hpass, -, -, -, buf, -, hres⟩ := acChainAcceptBlock_ok hP hok
  have hslot : (acChainAcceptBlock P now w c b).2.lastSlot = b.header.slot := by
    rw [hres]
    rfl
  have hahead : b.header.timestampMs.toNat ≤ now.toNat + 1500 := by
    obtain ⟨-, -, hfuture, -⟩ := checkTime_eq_none.mp hpass.time
    rw [UInt64.lt_iff_toNat_lt, UInt64.toNat_add,
      show (1500 : UInt64).toNat = 1500 from rfl, Nat.mod_eq_of_lt (by omega)] at hfuture
    omega
  constructor
  · rintro ⟨hstamp, -, -⟩
    rw [abs_le] at hstamp
    omega
  · intro hfits
    have hstart := toNat_acChainSlotTimeMs c b.header.slot
    rw [Nat.mod_eq_of_lt (by omega)] at hstart
    have hwindow := window_of_checkTime (by omega) (by omega) hpass.time
    refine ⟨?_, ?_, ?_⟩
    · rw [abs_le]
      omega
    · omega
    · rw [hslot]
      omega

end Window

/-- The accepted block of slot one starts in time. -/
theorem timely_referenceBlock :
    Timely 2000 (openedChain referenceGenesis) referenceBlock
      (acChainAcceptBlock reference 2000 .all (openedChain referenceGenesis) referenceBlock).2 :=
  (timely_iff reference_mallocBounded (by decide) (by decide +kernel)).mpr
    (by decide +kernel)

/-- A block of slot `2 ^ 60 + 1`, which begins more than seventy billion years after the
genesis. -/
def farSlotBlock : Block :=
  nextBlock (openedChain referenceGenesis) 0x1000000000000001 (referenceKey 1)
    ⟨[], nil_candidates_le⟩
    [referenceKey 1, referenceKey 2]

/-- **A far slot is accepted** two seconds after the genesis, and becomes the last slot of the
chain. -/
theorem far_slot_accepted :
    (openedChain referenceGenesis).genesisTimestampMs.toNat < 2 ^ 62 ∧
      (acChainAcceptBlock reference 2000 .all (openedChain referenceGenesis) farSlotBlock).1 = .ok ∧
      (acChainAcceptBlock reference 2000 .all (openedChain referenceGenesis)
        farSlotBlock).2.lastSlot = 0x1000000000000001 ∧
      ¬ Timely 2000 (openedChain referenceGenesis) farSlotBlock
        (acChainAcceptBlock reference 2000 .all (openedChain referenceGenesis) farSlotBlock).2 := by
  have hrun : (openedChain referenceGenesis).genesisTimestampMs.toNat < 2 ^ 62 ∧
      (acChainAcceptBlock reference 2000 .all (openedChain referenceGenesis) farSlotBlock).1 = .ok ∧
      (acChainAcceptBlock reference 2000 .all (openedChain referenceGenesis)
        farSlotBlock).2.lastSlot = 0x1000000000000001 := by
    decide +kernel
  obtain ⟨hgenesis, hok, hlast⟩ := hrun
  refine ⟨hgenesis, hok, hlast, fun h => ?_⟩
  have hle := h.lastSlot_le
  rw [hlast] at hle
  revert hle
  decide +kernel

/-! ### The base fee -/

section BaseFee

variable {P : Platform} {g : Genesis} {es : List NodeEvent} {bs : List Block} {c : Chain}

/-- The product of `ac_chain_next_base_fee` for a parent with the given fee and gas fits into
64 bits, and so do the operands of its signed difference. -/
structure StepFits (prevBaseFee gasUsed gasLimit : UInt64) : Prop where
  signed : gasUsed.toNat < 2 ^ 63 ∧ (gasLimit / 2).toNat < 2 ^ 63
  product : prevBaseFee.toNat * ((gasUsed.toNat : ℤ) - (gasLimit / 2).toNat).natAbs < 2 ^ 64

/-- The fee of a block that is tried on a chain, or built on it. -/
def OfferedFee (c : Chain) (fee : UInt64) : Prop :=
  fee = buildBaseFee c ∨ ∃ h : BlockHeader, checkBaseFee c h = none ∧ h.baseFee = fee

/-- The products of the fee market on a chain: both calls of `ac_chain_next_base_fee`, and
`actual_gas * base_fee` for every transaction that is admitted at a fee offered there. -/
structure MarketFits (P : Platform) (c : Chain) : Prop where
  fallback : StepFits c.baseFee 0 acBlockGasLimit
  parent : ∀ prev, acChainGetHeaderByHeight c c.height = some prev →
    StepFits prev.baseFee prev.gasUsed prev.gasLimit
  charge : ∀ fee, OfferedFee c fee → ∀ s tx slot a, admitTx s tx slot fee = .ok a →
    (actualGas tx (applyBody P s tx slot a)).toNat * fee.toNat < 2 ^ 64

/-- A header with a base fee of one or two, and less gas than the target. -/
structure LowFee (h : BlockHeader) : Prop where
  fee : h.baseFee = acMinBaseFee ∨ h.baseFee = acMinBaseFee + 1
  gas : h.gasUsed.toNat < 15000000
  limit : h.gasLimit = acBlockGasLimit

/-- A fee within the tolerance around the minimum. -/
lemma fee_of_checkBaseFee {h : BlockHeader} (hexp : expectedBaseFee c = acMinBaseFee)
    (hnone : checkBaseFee c h = none) :
    h.baseFee = acMinBaseFee ∨ h.baseFee = acMinBaseFee + 1 := by
  obtain ⟨hmin, hlow, hhigh⟩ := checkBaseFee_eq_none.mp hnone
  have hle := (fee_tolerance hmin hlow hhigh).1
  have hone : acMinBaseFee.toNat = 1 := rfl
  rw [hexp, hone] at hle
  rw [UInt64.lt_iff_toNat_lt, hone] at hmin
  have hcases : h.baseFee.toNat = 1 ∨ h.baseFee.toNat = 2 := by omega
  exact hcases.imp (fun h => UInt64.toNat_inj.mp h) fun h => UInt64.toNat_inj.mp h

/-- The minimum is expected behind every block. -/
lemma expectedBaseFee_eq_min (hc : Ledger P g bs c) (hbs : TipInvariant P g bs) :
    expectedBaseFee c = acMinBaseFee := hc.expectedBaseFee_eq.trans hbs.fee

/-- Every accepted block has a low fee. -/
lemma NodeReachable.lowFee (hP : P.MallocBounded) (h : NodeReachable P g es c) :
    ∀ b ∈ blocksOf es, LowFee b.header := by
  refine (h.invariant (I := fun bs => TipInvariant P g bs ∧ ∀ b ∈ bs, LowFee b.header) hP
    ⟨⟨rfl, Nat.zero_le _⟩, by simp⟩ ?_).2
  rintro bs c now b hc hpass ⟨htip, hlow⟩
  refine ⟨htip.commit hc hpass, fun x hx => ?_⟩
  rcases List.mem_append.mp hx with hx | hx
  · exact hlow x hx
  · obtain rfl : x = b := by simpa using hx
    have hgas := runTxs_totalGas_le (P := P) c.state x
    rw [hpass.gas] at hgas
    obtain ⟨-, -, -, hlimit⟩ := checkTime_eq_none.mp hpass.time
    exact ⟨fee_of_checkBaseFee (expectedBaseFee_eq_min hc htip) hpass.fee, by omega, hlimit⟩

lemma lowFee_genesis (P : Platform) (g : Genesis) : LowFee (genesisHeader P g) :=
  ⟨Or.inl rfl, show (0 : UInt64).toNat < 15000000 by decide, rfl⟩

/-- Fees of one or two and gas below the target do not overflow. -/
lemma stepFits_of_low {fee gas : UInt64} (hfee : fee = acMinBaseFee ∨ fee = acMinBaseFee + 1)
    (hgas : gas.toNat < 15000000) : StepFits fee gas acBlockGasLimit := by
  have htarget : (acBlockGasLimit / 2).toNat = 15000000 := rfl
  have hle : fee.toNat ≤ 2 := by
    rcases hfee with rfl | rfl
    · decide
    · decide
  refine ⟨⟨by omega, by rw [htarget]; decide⟩, ?_⟩
  rw [htarget]
  calc fee.toNat * ((gas.toNat : ℤ) - (15000000 : ℕ)).natAbs
      ≤ 2 * 15000000 := Nat.mul_le_mul hle (by omega)
    _ < 2 ^ 64 := by norm_num

/-- **The base fee cannot run away.**  Every accepted block has the minimal base fee or one
more and stays below the gas target, and no product of the fee market overflows on the chain
behind it. -/
theorem base_fee_bounded (hP : P.MallocBounded) (h : NodeReachable P g es c) :
    (∀ b ∈ blocksOf es, (b.header.baseFee = acMinBaseFee ∨ b.header.baseFee = acMinBaseFee + 1) ∧
      b.header.gasUsed.toNat < 15000000) ∧ MarketFits P c := by
  have hlow := h.lowFee hP
  have hc := (h.ledger hP).1
  have hexp := expectedBaseFee_eq_min hc (h.tipInvariant hP)
  have htip : LowFee (tipBlock P g (blocksOf es)).header := by
    rw [tipBlock]
    cases hlast : (blocksOf es).getLast? with
    | none => exact lowFee_genesis P g
    | some b => exact hlow b (List.mem_of_getLast? hlast)
  refine ⟨fun b hb => ⟨(hlow b hb).fee, (hlow b hb).gas⟩, ?_, ?_, ?_⟩
  · exact stepFits_of_low (hc.baseFee_eq ▸ htip.fee) (by decide)
  · intro prev hprev
    obtain rfl : (tipBlock P g (blocksOf es)).header = prev :=
      Option.some.inj (hc.getHeader_tip.symm.trans hprev)
    rw [htip.limit]
    exact stepFits_of_low htip.fee htip.gas
  · intro fee hfee s tx slot a ha
    have hle : fee.toNat ≤ 2 := by
      rcases hfee with rfl | ⟨hdr, hnone, rfl⟩
      · rw [hc.buildBaseFee_eq, hexp]
        decide
      · rcases fee_of_checkBaseFee hexp hnone with heq | heq
        · rw [heq]
          decide
        · rw [heq]
          decide
    calc (actualGas tx (applyBody P s tx slot a)).toNat * fee.toNat
        ≤ 1083 * 2 := Nat.mul_le_mul (actualGas_applyBody_le ha) hle
      _ < 2 ^ 64 := by norm_num

/-- A run with a block that uses gas and a restart. -/
theorem base_fee_bounded_pay :
    ∃ es c, NodeReachable reference mintGenesis es c ∧ blocksOf es = [payBlock] ∧
      0 < payBlock.header.gasUsed ∧
      (∀ b ∈ blocksOf es, (b.header.baseFee = acMinBaseFee ∨
        b.header.baseFee = acMinBaseFee + 1) ∧ b.header.gasUsed.toNat < 15000000) ∧
      MarketFits reference c := by
  have hrun : (acChainAcceptBlock reference 100000 .all (openedChain mintGenesis)
      payBlock).1 = .ok ∧ 0 < payBlock.header.gasUsed := by
    decide +kernel
  obtain ⟨hok, hgas⟩ := hrun
  have hran := (reachable_openedChain (g := mintGenesis) (by decide +kernel)).step
    (ChainStep.accepted 100000 .all _ payBlock hok)
  obtain ⟨d, hd, -⟩ := (hran.ledger reference_mallocBounded).reopen reference_mallocBounded .all
    none
  have hreopened := hran.node.step (.reopened .all none hd)
  exact ⟨_, d, hreopened, rfl, hgas, base_fee_bounded reference_mallocBounded hreopened⟩

end BaseFee

end AgentChain
