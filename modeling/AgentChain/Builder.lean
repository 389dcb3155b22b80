import AgentChain.ChainInvariant
import AgentChain.Nonces
import AgentChain.Restart

/-!
# The builder and the validator agree

`ac_chain_build_block` and `ac_chain_accept_block` have loops of their own over the
transactions: the first skips candidates that do not apply, the second gives up at the first
one.  The transactions that the builder keeps pass the loop of the validator with the same
gas, tips and state (`KeptApplied`), so that on a chain with any history a built block passes
every check before its certificate is looked at.

No block reaches the gas target: a transaction is charged at most 1083 gas, and a block holds
at most 4096 of them.  The base fee therefore falls back to its minimum behind every block.
-/

namespace AgentChain

/-! ### Gas and base fee of accepted blocks -/

section Fee

variable {P : Platform} {g : Genesis} {bs : List Block} {c : Chain}

/-- The loop charges at most 1083 gas for a transaction. -/
lemma applyTxs_totalGas_le (slot baseFee : UInt64) (txs : List Tx) (l : TxLoop) :
    (applyTxs P slot baseFee txs l).totalGas.toNat ≤ l.totalGas.toNat + 1083 * txs.length := by
  induction txs generalizing l with
  | nil => exact le_rfl
  | cons tx txs ih =>
    have hsum : (l.totalGas + (acStateApplyTx P l.state tx slot baseFee).2.1.gasUsed).toNat ≤
        l.totalGas.toNat + 1083 := by
      have hgas := acStateApplyTx_gasUsed_le (P := P) l.state tx slot baseFee
      rw [UInt64.toNat_add]
      exact (Nat.mod_le _ _).trans (by omega)
    rw [applyTxs, List.length_cons]
    dsimp only
    split_ifs
    · exact Nat.le_add_right _ _
    · exact Nat.le_add_right _ _
    · exact hsum.trans (by omega)
    · refine (ih _).trans ?_
      dsimp only
      omega

lemma runTxs_totalGas_le (s : AcState) (b : Block) :
    (runTxs P s b).totalGas.toNat ≤ 4435968 := by
  have hgas := applyTxs_totalGas_le (P := P) b.header.slot b.header.baseFee b.txs ⟨true, 0, 0, s⟩
  have hlen := b.txs_le
  have hmax : acBlockMaxTxs = 4096 := rfl
  have hzero : (0 : UInt64).toNat = 0 := rfl
  dsimp only at hgas
  rw [runTxs]
  omega

/-- The cast to a signed integer, below `2 ^ 63`. -/
lemma toInt_toInt64 {t : UInt64} (h : t.toNat < 2 ^ 63) : t.toInt64.toInt = t.toNat := by
  rw [← UInt64.ofNat_toNat (x := t), UInt64.toInt64_ofNat', Int64.toInt_ofNat_of_lt h,
    UInt64.ofNat_toNat]

/-- Behind a block with less gas than the target and a base fee of at most two, the base fee
is the minimum. -/
lemma acChainNextBaseFee_eq_min {fee gas : UInt64} (hpos : 1 ≤ fee.toNat) (hle : fee.toNat ≤ 2)
    (hgas : gas.toNat ≤ 4435968) : acChainNextBaseFee fee gas acBlockGasLimit = acMinBaseFee := by
  have htarget : acBlockGasLimit / 2 = 15000000 := by decide
  have ht : (15000000 : UInt64).toNat = 15000000 := rfl
  have hne : gas ≠ 15000000 := by
    intro h
    rw [h, ht] at hgas
    omega
  -- the difference to the target is negative, and its absolute value does not wrap
  have hneg : ¬ (0 : Int64) ≤ gas.toInt64 - (15000000 : UInt64).toInt64 := by
    have hg := toInt_toInt64 (show gas.toNat < 2 ^ 63 by omega)
    have hT : (15000000 : UInt64).toInt64.toInt = 15000000 := by decide
    have hz : (0 : Int64).toInt = 0 := by decide
    rw [Int64.le_iff_toInt_le, Int64.toInt_sub, hg, hT, hz, Int.bmod_eq_of_le (by omega) (by omega)]
    omega
  have habs : (-(gas.toInt64 - (15000000 : UInt64).toInt64)).toUInt64 = 15000000 - gas := by
    rw [Int64.neg_sub]
    rfl
  have hsub : (15000000 - gas).toNat = 15000000 - gas.toNat := by
    rw [UInt64.toNat_sub_of_le _ _ (by rw [UInt64.le_iff_toNat_le]; omega), ht]
  have hzero : fee * (15000000 - gas) / 15000000 / 8 = 0 := by
    have hmul : fee.toNat * (15000000 - gas.toNat) ≤ 2 * 15000000 :=
      Nat.mul_le_mul hle (Nat.sub_le _ _)
    have h8 : (8 : UInt64).toNat = 8 := rfl
    refine UInt64.toNat_inj.mp ?_
    rw [UInt64.toNat_div, UInt64.toNat_div, UInt64.toNat_mul, hsub, ht, h8,
      Nat.mod_eq_of_lt (by omega)]
    show _ = 0
    omega
  have hfee : fee = 1 ∨ fee = 2 := by
    have h : fee.toNat = 1 ∨ fee.toNat = 2 := by omega
    exact h.imp (fun h => UInt64.toNat_inj.mp h) fun h => UInt64.toNat_inj.mp h
  rw [acChainNextBaseFee]
  dsimp only
  rw [htarget, if_neg hne, if_neg hneg, habs, hzero]
  rcases hfee with rfl | rfl
  · decide
  · decide

/-- What a chain of any history knows about its tip: the base fee behind it is the minimum,
and there are no more blocks than slots. -/
structure TipInvariant (P : Platform) (g : Genesis) (bs : List Block) : Prop where
  fee : nextFee bs.length (tipBlock P g bs).header = acMinBaseFee
  length_le : bs.length ≤ (tipBlock P g bs).header.slot.toNat

/-- One accepted block keeps the invariant. -/
lemma TipInvariant.commit (h : TipInvariant P g bs) (hc : Ledger P g bs c) {now : UInt64}
    {b : Block} (hpass : PassesChecks P now c b) : TipInvariant P g (bs ++ [b]) := by
  have hlink := hpass.linksTo hc
  have hmin : acMinBaseFee.toNat = 1 := rfl
  have hfee := hlink.fee_le
  rw [h.fee, hmin] at hfee
  obtain ⟨hlow, -⟩ := checkBaseFee_eq_none.mp hpass.fee
  obtain ⟨-, -, -, hlimit⟩ := checkTime_eq_none.mp hpass.time
  rw [UInt64.lt_iff_toNat_lt, hmin] at hlow
  have hgas := runTxs_totalGas_le (P := P) c.state b
  rw [hpass.gas] at hgas
  have hslot := UInt64.lt_iff_toNat_lt.mp hlink.slot
  have hlen := h.length_le
  refine ⟨?_, ?_⟩
  · rw [tipBlock_snoc, List.length_append, List.length_singleton, nextFee,
      if_neg (Nat.succ_ne_zero _), hlimit]
    exact acChainNextBaseFee_eq_min (by omega) hfee hgas
  · rw [tipBlock_snoc, List.length_append, List.length_singleton]
    omega

/-- Every chain, with restarts or without, satisfies the invariant. -/
lemma NodeReachable.tipInvariant (hP : P.MallocBounded) {es : List NodeEvent}
    (h : NodeReachable P g es c) : TipInvariant P g (blocksOf es) :=
  h.invariant hP ⟨rfl, Nat.zero_le _⟩ fun _ _ _ _ hc hpass hbs => hbs.commit hc hpass

end Fee

/-! ### The two loops -/

section Loops

variable {P : Platform} {slot baseFee : UInt64} {s : AcState}

/-- A loop that passes the first transactions goes on with the others. -/
lemma applyTxs_append {xs ys : List Tx} {l : TxLoop}
    (h : (applyTxs P slot baseFee xs l).ok = true) :
    applyTxs P slot baseFee (xs ++ ys) l =
      applyTxs P slot baseFee ys (applyTxs P slot baseFee xs l) := by
  induction xs generalizing l with
  | nil => rfl
  | cons tx xs ih =>
    rw [List.cons_append, applyTxs, applyTxs]
    rw [applyTxs] at h
    dsimp only at h ⊢
    split_ifs at h ⊢
    exact ih h

/-- The variables of the candidate loop are those of the transaction loop behind the kept
transactions. -/
structure KeptApplied (P : Platform) (slot baseFee : UInt64) (s : AcState) (l : BuildLoop) :
    Prop where
  applied : applyTxs P slot baseFee l.kept ⟨true, 0, 0, s⟩ =
    ⟨true, l.totalGas, l.totalTips, l.state⟩

lemma KeptApplied.totalGas_le {l : BuildLoop} (h : KeptApplied P slot baseFee s l) :
    l.totalGas.toNat ≤ 1083 * l.kept.length := by
  have hgas := applyTxs_totalGas_le (P := P) slot baseFee l.kept ⟨true, 0, 0, s⟩
  rw [h.applied] at hgas
  have hzero : (0 : UInt64).toNat = 0 := rfl
  dsimp only at hgas
  omega

/-- One candidate.  A candidate that is skipped leaves no trace: either it was not tried, or
it was rejected and the state is as before. -/
lemma KeptApplied.step {l : BuildLoop} (h : KeptApplied P slot baseFee s l)
    (hlen : l.kept.length < 256) (tx : Tx) :
    KeptApplied P slot baseFee s (buildStep P slot baseFee l tx) := by
  rw [buildStep]
  dsimp only
  split_ifs with hsig hgas hrej
  · exact h
  · exact h
  · rw [acStateApplyTx_rejected hrej]
    exact h
  · have hle := h.totalGas_le
    have htx := acStateApplyTx_gasUsed_le (P := P) l.state tx slot baseFee
    have hlimit : acBlockGasLimit.toNat = 30000000 := rfl
    -- the validator compares the charged gas with the limit, which 256 transactions miss by far
    have hroom : ¬ acBlockGasLimit <
        l.totalGas + (acStateApplyTx P l.state tx slot baseFee).2.1.gasUsed := by
      rw [UInt64.lt_iff_toNat_lt, UInt64.toNat_add, hlimit, Nat.mod_eq_of_lt (by omega)]
      omega
    refine ⟨?_⟩
    rw [applyTxs_append (by rw [h.applied]), h.applied, applyTxs]
    dsimp only
    rw [if_neg hsig, if_neg hrej, if_neg hroom]
    rfl

/-- The whole candidate loop. -/
theorem buildTxs_keptApplied (slot baseFee : UInt64) (s : AcState) (cands : Candidates) :
    KeptApplied P slot baseFee s (buildTxs P slot baseFee s cands.txs) := by
  have hloop : ∀ (txs : List Tx) (l : BuildLoop), l.kept.length + txs.length ≤ 256 →
      KeptApplied P slot baseFee s l →
      KeptApplied P slot baseFee s (txs.foldl (buildStep P slot baseFee) l) := by
    intro txs
    induction txs with
    | nil => exact fun l _ hl => hl
    | cons tx txs ih =>
      intro l hlen hl
      have hkept := length_kept_buildStep P slot baseFee l tx
      rw [List.length_cons] at hlen
      exact ih _ (by omega) (hl.step (by omega) tx)
  exact hloop cands.txs ⟨[], 0, 0, s⟩ (by simpa using cands.txs_le) ⟨rfl⟩

end Loops

/-! ### The built block -/

section Built

variable {P : Platform} {g : Genesis} {bs : List Block} {es : List NodeEvent} {c : Chain}
  {slot now : UInt64} {kp : Keypair} {cands : Candidates} {b : Block}

/-- The builder takes the fee that the validator expects. -/
lemma Ledger.buildBaseFee_eq (h : Ledger P g bs c) : buildBaseFee c = expectedBaseFee c := by
  have hpos : 1 ≤ c.height ↔ ¬ c.height = 0 := by
    rw [UInt64.le_iff_toNat_le, ← UInt64.toNat_inj]
    exact Nat.one_le_iff_ne_zero
  rw [buildBaseFee, expectedBaseFee, h.getHeader_tip]
  by_cases h0 : c.height = 0
  · rw [if_pos h0, if_neg fun h1 => hpos.mp h1 h0]
  · rw [if_neg h0, if_pos (hpos.mpr h0)]

/-- The header checks of version, height and parent. -/
lemma checkLink_builtHeader (h : Ledger P g bs c) (hbs : TipInvariant P g bs)
    (hslot : c.lastSlot < slot) (proposer : Addr) (proof : VrfProof) (baseFee : UInt64)
    (l : BuildLoop) : checkLink P c (builtHeader P c slot proposer proof baseFee l) = none := by
  have hlen := hbs.length_le
  rw [← h.lastSlot_eq, ← h.height_eq] at hlen
  have hlt := UInt64.lt_iff_toNat_lt.mp hslot
  have hmax := slot.toNat_lt
  -- there are fewer blocks than slots, so the height has room for one more
  have hnext : (c.height + 1).toNat = c.height.toNat + 1 := by
    rw [UInt64.toNat_add]
    exact Nat.mod_eq_of_lt (show c.height.toNat + 1 < 2 ^ 64 by omega)
  have hheight : (builtHeader P c slot proposer proof baseFee l).height = c.height + 1 := rfl
  refine checkLink_eq_none.mpr ⟨rfl, ?_, ?_, rfl, rfl⟩
  · intro h0
    have := congrArg UInt64.toNat h0
    rw [hheight, hnext] at this
    exact absurd this (Nat.succ_ne_zero _)
  · rw [hheight, UInt64.le_iff_toNat_le, hnext]
    omega

/-- The start of a slot, and the window around it, as signed integers. -/
lemma slotTime_window (hstart : c.genesisTimestampMs.toNat + 2000 * slot.toNat + 3000 < 2 ^ 63) :
    (acChainSlotTimeMs c slot).toNat = c.genesisTimestampMs.toNat + 2000 * slot.toNat ∧
      ¬ (acChainSlotTimeMs c slot).toInt64 < (acChainSlotTimeMs c slot).toInt64 - 3000 ∧
      ¬ (acChainSlotTimeMs c slot).toInt64 + 3000 < (acChainSlotTimeMs c slot).toInt64 := by
  have hdur : acSlotDurationMs.toNat = 2000 := rfl
  have hstartNat : (acChainSlotTimeMs c slot).toNat =
      c.genesisTimestampMs.toNat + 2000 * slot.toNat := by
    rw [acChainSlotTimeMs, UInt64.toNat_add, UInt64.toNat_mul, hdur]
    omega
  have hint := toInt_toInt64 (t := acChainSlotTimeMs c slot) (by omega)
  have h3000 : (3000 : Int64).toInt = 3000 := by decide
  refine ⟨hstartNat, ?_, ?_⟩
  · rw [Int64.lt_iff_toInt_lt, Int64.toInt_sub, hint, h3000,
      Int.bmod_eq_of_le (by omega) (by omega)]
    omega
  · rw [Int64.lt_iff_toInt_lt, Int64.toInt_add, hint, h3000,
      Int.bmod_eq_of_le (by omega) (by omega)]
    omega

/-- **A block with the header of the builder passes every check** before its certificate is
looked at, whatever transactions were kept. -/
theorem passesChecks_of_builtHeader (h : Ledger P g bs c) (hbs : TipInvariant P g bs)
    (hkp : kp.Valid P) (hstake : ¬ (acStateGet c.state kp.pk).2.stake < acMinStakeUcrd)
    (hslot : c.lastSlot < slot)
    (hstart : c.genesisTimestampMs.toNat + 2000 * slot.toNat + 3000 < 2 ^ 63)
    (hnow : c.genesisTimestampMs.toNat + 2000 * slot.toNat ≤ (now + 1500).toNat) {l : BuildLoop}
    (hkept : KeptApplied P slot (buildBaseFee c) c.state l)
    (hheader : b.header = builtHeader P c slot kp.pk
      (acVrfProve P (leaderAlpha (computeEpochSeed P c (acEpochOf slot)) slot) kp)
      (buildBaseFee c) l)
    (htxs : b.txs = l.kept) : PassesChecks P now c b := by
  obtain ⟨hnat, hlow, hhigh⟩ := slotTime_window hstart
  have hfee : buildBaseFee c = acMinBaseFee := by
    rw [h.buildBaseFee_eq, h.expectedBaseFee_eq, hbs.fee]
  have hrun : runTxs P c.state b = ⟨true, l.totalGas, l.totalTips, l.state⟩ := by
    rw [runTxs, hheader, htxs]
    exact hkept.applied
  have hclock : ¬ now + 1500 < acChainSlotTimeMs c slot := by
    rw [UInt64.lt_iff_toNat_lt, hnat]
    omega
  refine
    { link := by
        rw [hheader]
        exact checkLink_builtHeader h hbs hslot _ _ _ _
      time := by
        rw [hheader]
        exact checkTime_eq_none.mpr ⟨UInt64.not_le.mpr hslot, not_or.mpr ⟨hlow, hhigh⟩, hclock, rfl⟩
      proposer := (validateProposerVrf_iff h.cacheValid).mpr ?_
      fee := ?_
      txs_ok := by rw [hrun]
      gas := by rw [hrun, hheader]; rfl
      txRoot := by rw [htxs, hheader]; rfl
      stateRoot := by rw [postState, hrun, hheader]; rfl }
  · rw [hheader]
    refine ⟨hstake, ?_⟩
    show (acVrfVerify P (acVrfProve P (leaderAlpha (computeEpochSeed P c (acEpochOf slot)) slot) kp)
      (leaderAlpha (computeEpochSeed P c (acEpochOf slot)) slot) kp.pk).isSome = true
    rw [acVrfVerify_prove hkp]
    rfl
  · rw [hheader]
    refine checkBaseFee_eq_none.mpr ?_
    show ¬ buildBaseFee c < acMinBaseFee ∧ ¬ buildBaseFee c + 1 < expectedBaseFee c ∧
      ¬ expectedBaseFee c + 1 < buildBaseFee c
    rw [← h.buildBaseFee_eq, hfee]
    decide

/-- **The builder and the validator agree.**  On a chain with any history, a block that is
built for a slot behind the tip, whose time window fits into a signed integer and whose start
is at most 1500 ms ahead of the clock, leaves the chain as it was, passes every check before
the certificate, and is accepted with every certificate that `validate_commit` lets pass. -/
theorem built_block_accepted (hP : P.MallocBounded) (h : NodeReachable P g es c)
    (hkp : kp.Valid P) (hslot : c.lastSlot < slot)
    (hstart : c.genesisTimestampMs.toNat + 2000 * slot.toNat + 3000 < 2 ^ 63)
    (hnow : c.genesisTimestampMs.toNat + 2000 * slot.toNat ≤ (now + 1500).toNat)
    (hbuild : (acChainBuildBlock P c slot kp cands).1 = some b) :
    (acChainBuildBlock P c slot kp cands).2.state = c.state ∧
      c.SameButCache (acChainBuildBlock P c slot kp cands).2 ∧
      PassesChecks P now (acChainBuildBlock P c slot kp cands).2 b ∧
      ∀ signers hs,
        CommitOk P (acChainBuildBlock P c slot kp cands).2
          (acChainBuildBlock P c slot kp cands).2.cached (b.withSigners signers hs) →
        (acStateSerialize P (postState P c.state b)).isSome →
        (acChainAcceptBlock P now .all (acChainBuildBlock P c slot kp cands).2
          (b.withSigners signers hs)).1 = .ok := by
  obtain ⟨hstake, hsnap, hb⟩ := acChainBuildBlock_some hP hbuild
  have hseed := acChainBuildBlock_reseeded hP c slot kp cands
  have hc := (h.ledger hP).1
  generalize (acChainBuildBlock P c slot kp cands).2 = d at hseed hb ⊢
  have hd := hc.reseeded hseed
  have hstate := hseed.same.state_eq
  have hpass : PassesChecks P now d b := by
    have hepoch : (acChainEpochSeed P c (acEpochOf slot)).1 =
        computeEpochSeed P d (acEpochOf slot) := by
      rw [acChainEpochSeed_fst hc.cacheValid, hseed.same.computeEpochSeed_eq]
    rw [hb, hepoch]
    have hlast : d.lastSlot = c.lastSlot := hd.lastSlot_eq.trans hc.lastSlot_eq.symm
    have hgen : d.genesisTimestampMs = c.genesisTimestampMs :=
      hd.genesisTimestampMs_eq.trans hc.genesisTimestampMs_eq.symm
    exact passesChecks_of_builtHeader hd (h.tipInvariant hP) hkp (hstate ▸ hstake) (hlast ▸ hslot)
      (hgen ▸ hstart) (hgen ▸ hnow) (buildTxs_keptApplied _ _ _ cands) rfl rfl
  refine ⟨hstate, hseed.same, hpass, fun signers hs hcommit hbuf => ?_⟩
  -- none of the checks before the certificate looks at the signers
  refine (acChainAcceptBlock_ok_iff hP hd.cacheValid).mpr
    ⟨{ hpass with }, (commitOk_iff hd.cacheValid).mp hcommit, ?_, ?_, rfl⟩
  · rw [hstate]
    exact hsnap
  · rw [hstate]
    exact hbuf

end Built

/-! ### First blocks -/

/-- What the first validator does at slot one of a genesis. -/
def firstBuild (g : Genesis) : Option Block × Chain :=
  acChainBuildBlock reference (openedChain g) 1 (referenceKey 1) ⟨[], nil_candidates_le⟩

/-- The block it builds; the genesis block when nothing is built. -/
def firstBuilt (g : Genesis) : Block := (firstBuild g).1.getD (genesisBlock reference g)

lemma firstBuild_eq_some {g : Genesis} (h : (firstBuild g).1.isSome = true) :
    (firstBuild g).1 = some (firstBuilt g) := by
  obtain ⟨b, hb⟩ := Option.isSome_iff_exists.mp h
  rw [firstBuilt, hb, Option.getD_some]

/-- The block with the votes of both validators. -/
def firstCertified (g : Genesis) : Block :=
  (firstBuilt g).certify reference (openedChain g) [referenceKey 1, referenceKey 2]

/-- What the validator does with a transfer that is offered twice. -/
def paidTwice : Option Block × Chain :=
  acChainBuildBlock reference (openedChain mintGenesis) 1 (referenceKey 1)
    ⟨[payTx, payTx], by decide⟩

/-- The first candidate is kept and the second one skipped, and the block is accepted with the vote
of the validator. -/
theorem built_block_accepted_reference : ∃ b, paidTwice.1 = some b ∧ b.txs = [payTx] ∧
    (acChainAcceptBlock reference 2000 .all paidTwice.2
      (b.certify reference (openedChain mintGenesis) [referenceKey 1])).1 = .ok := by
  have hrun : (paidTwice.1.map fun b => b.txs) = some [payTx] ∧ ∀ b ∈ paidTwice.1,
      CommitOk reference paidTwice.2 paidTwice.2.cached
          (b.certify reference (openedChain mintGenesis) [referenceKey 1]) ∧
        (acStateSerialize reference (postState reference (openedChain mintGenesis).state
          b)).isSome := by
    decide +kernel
  obtain ⟨hkept, hbuilt⟩ := hrun
  obtain ⟨b, hb, htxs⟩ := Option.map_eq_some_iff.mp hkept
  obtain ⟨hcommit, hbuf⟩ := hbuilt b hb
  have hreach := (reachable_openedChain (g := mintGenesis) (by decide +kernel)).node
  exact ⟨b, hb, htxs, (built_block_accepted reference_mallocBounded hreach
    (reference_valid (referenceKey 1)) (by decide +kernel) (by decide +kernel) (by decide +kernel)
    hb).2.2.2 _ _ hcommit hbuf⟩

/-- A genesis whose first slot starts a millisecond before the signed integers end. -/
def lateGenesis : Genesis := { referenceGenesis with timestampMs := 9223372036854773807 }

/-- The end of the window around a slot start below `2 ^ 63` need not be below it: on such a
slot the built block is rejected for its own timestamp, whatever its certificate.  And where
1500 ms from now wraps around, a slot of the past counts as one of the future. -/
theorem late_slot_rejected :
    Reachable reference lateGenesis [] (openedChain lateGenesis) ∧
    (referenceKey 1).Valid reference ∧ (openedChain lateGenesis).lastSlot < 1 ∧
    (openedChain lateGenesis).genesisTimestampMs.toNat + 2000 * (1 : UInt64).toNat < 2 ^ 63 ∧
    (openedChain lateGenesis).genesisTimestampMs.toNat + 2000 * (1 : UInt64).toNat ≤
      (9223372036854775807 : UInt64).toNat + 1500 ∧
    (firstBuild lateGenesis).1 = some (firstBuilt lateGenesis) ∧
    CommitOk reference (firstBuild lateGenesis).2 (firstBuild lateGenesis).2.cached
      (firstCertified lateGenesis) ∧
    (acChainAcceptBlock reference 9223372036854775807 .all (firstBuild lateGenesis).2
      (firstCertified lateGenesis)).1 = .badTime ∧
    (openedChain referenceGenesis).genesisTimestampMs.toNat + 2000 * (1 : UInt64).toNat ≤
      (18446744073709551615 : UInt64).toNat + 1500 ∧
    (acChainAcceptBlock reference 18446744073709551615 .all (firstBuild referenceGenesis).2
      (firstCertified referenceGenesis)).1 = .future :=
  ⟨reachable_openedChain (by decide +kernel), reference_valid _, by decide +kernel,
    by decide +kernel, by decide +kernel, firstBuild_eq_some (by decide +kernel),
    by decide +kernel, by decide +kernel, by decide +kernel, by decide +kernel⟩

end AgentChain
