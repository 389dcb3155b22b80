import AgentChain.Supply

/-!
# The fees of a transaction

A transaction is included when `ac_state_apply_tx` returns `0` or `1`.  This file is about the
fee of an included transaction in unbounded integers: which one is admitted, which one is
reported and which one is paid, and what is left behind when the body fails.
-/

namespace AgentChain

section Included

variable {P : Platform} {s : AcState} {tx : Tx} {slot baseFee : UInt64} {a : Admitted}
  {o : BodyOutcome}

/-! ### The common end of all bodies -/

/-- An included transaction was admitted, and its body was charged. -/
lemma exists_admitted (h : (acStateApplyTx P s tx slot baseFee).1 ≠ .rejected) :
    ∃ a, admitTx s tx slot baseFee = .ok a ∧
      acStateApplyTx P s tx slot baseFee = chargeTx tx baseFee (applyBody P s tx slot a) := by
  rcases acStateApplyTx_cases (P := P) s tx slot baseFee with ⟨err, -, he⟩ | ha
  · rw [he] at h
    exact absurd rfl h
  · exact ha

lemma chargeTx_applied_iff : (chargeTx tx baseFee o).1 = .applied ↔ o.err = none := by
  rw [chargeTx]
  cases o.err <;> simp

lemma chargeTx_bodyFailed_iff : (chargeTx tx baseFee o).1 = .bodyFailed ↔ o.err.isSome := by
  rw [chargeTx]
  cases o.err <;> simp

/-- The records behind the charge. -/
lemma get_chargeTx (tx : Tx) (baseFee : UInt64) (o : BodyOutcome) (x : Addr) :
    (acStateGet (chargeTx tx baseFee o).2.2 x).2 =
    if x = tx.sender then settledSender tx baseFee o else (acStateGet o.state x).2 := by
  rw [chargeTx_state, acStateGet_set_snd]
  rfl

lemma get_chargeTx_of_ne {x : Addr} (hx : x ≠ tx.sender) :
    acStateGet (chargeTx tx baseFee o).2.2 x = acStateGet o.state x := by
  rw [chargeTx_state, acStateGet_set]
  exact if_neg hx

/-- A body that is done reports no error, and only a registration burns more than gas. -/
lemma BodyDone.err_eq (h : BodyDone P s tx a o) : o.err = none := by
  cases h <;> rfl

lemma BodyDone.burned_eq (h : BodyDone P s tx a o) :
    o.burned = if a.kind = .registerName then nameFee else 0 := by
  cases h <;> simp_all

/-- A body reports an error exactly if it has failed. -/
lemma applyBody_failed (h : (applyBody P s tx slot a).err.isSome) :
    (applyBody P s tx slot a).Failed s a := by
  rcases applyBody_cases (P := P) s tx slot a with ho | ho
  · exact ho
  · rw [ho.err_eq] at h
    exact absurd h (by simp)

lemma applyBody_done (h : (applyBody P s tx slot a).err = none) :
    BodyDone P s tx a (applyBody P s tx slot a) := by
  rcases applyBody_cases (P := P) s tx slot a with ho | ho
  · exact absurd ho.err_some (by simp [h])
  · exact ho

/-- The fees that are reported, for a rate that does not wrap around. -/
lemma AdmittedOk.reported (h : AdmittedOk s tx baseFee a) (o : BodyOutcome) :
    (chargeTx tx baseFee o).2.1.gasUsed = actualGas tx o ∧
      (chargeTx tx baseFee o).2.1.feeTip.toNat = (actualGas tx o).toNat * tx.tip.toNat ∧
      (chargeTx tx baseFee o).2.1.feeBurned = o.burned + actualGas tx o * baseFee ∧
      (actualGas tx o * baseFee).toNat = (actualGas tx o).toNat * baseFee.toNat :=
  ⟨rfl, (h.fee_exact o).2.1, rfl, (h.fee_exact o).1⟩

/-! ### Admission -/

/-- The amount of a transfer, and nothing for the other kinds. -/
def transferAmount (tx : Tx) : UInt64 :=
  match TxKind.ofCode tx.kind, acBodyTransferDecode tx.body with
  | some .transfer, some b => b.amount
  | _, _ => 0

/-- The name fee that `fee_burned` contains. -/
def nameFeePart (rc : ApplyRc) (tx : Tx) : UInt64 :=
  if rc = .applied ∧ TxKind.ofCode tx.kind = some .registerName then nameFee else 0

/-- The fee check and the reported fees are those of unbounded integers. -/
structure FeesExact (P : Platform) (s : AcState) (tx : Tx) (slot baseFee : UInt64) : Prop where
  covered : tx.gasLimit.toNat * (baseFee.toNat + tx.tip.toNat) + (transferAmount tx).toNat ≤
    (acStateGet s tx.sender).2.balance.toNat
  tip : (acStateApplyTx P s tx slot baseFee).2.1.feeTip.toNat =
    (acStateApplyTx P s tx slot baseFee).2.1.gasUsed.toNat * tx.tip.toNat
  burned : ((acStateApplyTx P s tx slot baseFee).2.1.feeBurned -
      nameFeePart (acStateApplyTx P s tx slot baseFee).1 tx).toNat =
    (acStateApplyTx P s tx slot baseFee).2.1.gasUsed.toNat * baseFee.toNat

lemma transferAmount_eq {kind : TxKind} {value : UInt64}
    (hkind : TxKind.ofCode tx.kind = some kind) (hvalue : transferValue kind tx.body = some value) :
    transferAmount tx = value := by
  rw [transferAmount.eq_def, hkind]
  cases kind with
  | transfer =>
    rw [transferValue] at hvalue
    obtain ⟨b, hb, rfl⟩ := Option.map_eq_some_iff.mp hvalue
    rw [hb]
  | _ => simpa [transferValue] using hvalue

/-- The burned part that is not gas. -/
lemma burned_eq_nameFeePart (hkind : TxKind.ofCode tx.kind = some a.kind) :
    (applyBody P s tx slot a).burned =
      nameFeePart (chargeTx tx baseFee (applyBody P s tx slot a)).1 tx := by
  simp only [nameFeePart, chargeTx_applied_iff, hkind, Option.some.injEq]
  rcases applyBody_cases (P := P) s tx slot a with ho | ho
  · have herr : (applyBody P s tx slot a).err ≠ none := fun h => by
      simpa [h] using ho.err_some
    rw [ho.burned_eq, if_neg fun h => herr h.1]
  · simp [ho.burned_eq, ho.err_eq]

/-- Every kind needs gas. -/
lemma acTxIntrinsicGas_pos {kind : UInt8} {igas : UInt64} (h : acTxIntrinsicGas kind = some igas) :
    0 < igas.toNat := by
  rw [acTxIntrinsicGas] at h
  split at h
  all_goals first | exact Option.some.inj h ▸ by decide | cases h

lemma admitTx_gasLimit_pos (h : admitTx s tx slot baseFee = .ok a) : 0 < tx.gasLimit.toNat := by
  obtain ⟨igas, value, hadm⟩ := admitTx_admission h
  have hmemo := tx.memo_le
  have hmax : acMemoMax = 512 := rfl
  have hle := acTxIntrinsicGas_le hadm.igas_eq
  have hpos := acTxIntrinsicGas_pos hadm.igas_eq
  have hlow := hadm.gas_le
  rw [UInt64.not_lt, UInt64.le_iff_toNat_le, hadm.gas_eq, UInt64.toNat_add,
    UInt64.toNat_ofNat_of_lt' (show tx.memo.length < 2 ^ 64 by omega),
    Nat.mod_eq_of_lt (by omega), UInt32.toNat_toUInt64] at hlow
  omega

/-- **Fee admission.**  The check of the fee and the reported fees are exact if and only if the
sum of base fee and tip does not wrap around. -/
theorem fees_exact_iff (P : Platform) (s : AcState) (tx : Tx) (slot baseFee : UInt64)
    (h : (acStateApplyTx P s tx slot baseFee).1 ≠ .rejected) :
    FeesExact P s tx slot baseFee ↔ baseFee.toNat + tx.tip.toNat < 2 ^ 64 := by
  obtain ⟨a, ha, he⟩ := exists_admitted h
  constructor
  · -- one gas at a rate of `2 ^ 64` is more than any balance
    intro hexact
    have hpos := admitTx_gasLimit_pos ha
    have hbalance := (acStateGet s tx.sender).2.balance.toNat_lt
    by_contra hwrap
    have hmul := Nat.mul_le_mul hpos (not_lt.mp hwrap)
    have hcov := hexact.covered
    omega
  · intro hrate
    have hadm := admitTx_ok hrate ha
    obtain ⟨hgas, htip, hburned, hexact⟩ := hadm.reported (applyBody P s tx slot a)
    obtain ⟨value, hvalue, hcov⟩ := hadm.covered
    refine ⟨?_, ?_, ?_⟩
    · rw [transferAmount_eq hadm.kind_eq hvalue]
      rwa [hadm.sender_eq, UInt32.toNat_toUInt64] at hcov
    · rw [he, hgas, htip]
    · rw [he, hgas, hburned, ← burned_eq_nameFeePart hadm.kind_eq, UInt64.add_comm,
        UInt64.add_sub_cancel, hexact]

/-- The hypothesis is met, and the fees are exact, for a transfer with a small tip. -/
theorem fees_exact_pay : FeesExact reference (genesisState mintGenesis) payTx 1 acMinBaseFee :=
  (fees_exact_iff reference (genesisState mintGenesis) payTx 1 acMinBaseFee
    (by decide +kernel)).mpr (by decide +kernel)

/-- A transfer of one µCRD with a tip that makes the rate wrap around to zero. -/
def wrappedTipTx : Tx :=
  firstTx 0x01 (referenceKey 2) (0 - acMinBaseFee) ((referenceKey 1).pk.bytes ++ acBe64 1)
    (by decide +kernel)

/-- **A wrapped rate.**  The transaction is included although its fee is more than `2 ^ 64`, and
the reported tip is not the product. -/
theorem wrapped_tip_included :
    (acStateApplyTx reference (genesisState mintGenesis) wrappedTipTx 1 acMinBaseFee).1 =
      .applied ∧
    (acStateGet (genesisState mintGenesis) wrappedTipTx.sender).2.balance.toNat <
      wrappedTipTx.gasLimit.toNat * (acMinBaseFee.toNat + wrappedTipTx.tip.toNat) ∧
    (acStateApplyTx reference (genesisState mintGenesis) wrappedTipTx 1
        acMinBaseFee).2.1.feeTip.toNat ≠
      (acStateApplyTx reference (genesisState mintGenesis) wrappedTipTx 1
        acMinBaseFee).2.1.gasUsed.toNat * wrappedTipTx.tip.toNat := by
  decide +kernel

/-! ### Failed transactions -/

/-- The gas of a transaction before the limit is applied. -/
def chargedGas (s : AcState) (tx : Tx) : ℕ :=
  (acTxTotalGas tx).toNat + match TxKind.ofCode tx.kind with
    | some kind => (newAccountGas s kind tx.body).toNat
    | none => 0

lemma AdmittedOk.toNat_chargedGas (h : admitTx s tx slot baseFee = .ok a)
    (hadm : AdmittedOk s tx baseFee a) :
    (applyBody P s tx slot a).chargedGas.toNat = chargedGas s tx := by
  have hneed := admitTx_neededGas_le h
  have hnew := newAccountGas_le s a.kind tx.body
  rw [applyBody_chargedGas, UInt64.toNat_add, Nat.mod_eq_of_lt (by omega), chargedGas,
    hadm.kind_eq, hadm.gas_eq]

lemma actualGas_eq_min (tx : Tx) (o : BodyOutcome) :
    (actualGas tx o).toNat = min o.chargedGas.toNat tx.gasLimit.toNat := by
  rw [actualGas]
  split_ifs with h
  · rw [UInt64.lt_iff_toNat_lt] at h
    rw [UInt32.toNat_toUInt64] at h ⊢
    exact (min_eq_right h.le).symm
  · rw [UInt64.not_lt, UInt64.le_iff_toNat_le, UInt32.toNat_toUInt64] at h
    exact (min_eq_left h).symm

/-- What a transaction with a failed body leaves: the sender has paid the gas and its nonce is
used, and everything else is as before. -/
structure OnlyCharged (s : AcState) (tx : Tx) (baseFee : UInt64) (r : ApplyResult) (t : AcState) :
    Prop where
  gasUsed_eq : r.gasUsed.toNat = min (chargedGas s tx) tx.gasLimit.toNat
  nonce_eq : (acStateGet t tx.sender).2.nonce.toNat = (acStateGet s tx.sender).2.nonce.toNat + 1
  balance_eq : (acStateGet t tx.sender).2.balance.toNat +
    r.gasUsed.toNat * (baseFee.toNat + tx.tip.toNat) = (acStateGet s tx.sender).2.balance.toNat
  stake_eq : (acStateGet t tx.sender).2.stake = (acStateGet s tx.sender).2.stake
  unbondAt_eq : (acStateGet t tx.sender).2.unbondAt = (acStateGet s tx.sender).2.unbondAt
  others_eq : ∀ x, x ≠ tx.sender → acStateGet t x = acStateGet s x
  names_eq : t.names = s.names

/-- A failed body is charged. -/
lemma AdmittedOk.onlyCharged (h : admitTx s tx slot baseFee = .ok a)
    (hadm : AdmittedOk s tx baseFee a)
    (hnonce : (acStateGet s tx.sender).2.nonce.toNat < 2 ^ 64 - 1)
    (ho : (applyBody P s tx slot a).Failed s a) :
    OnlyCharged s tx baseFee (chargeTx tx baseFee (applyBody P s tx slot a)).2.1
      (chargeTx tx baseFee (applyBody P s tx slot a)).2.2 := by
  have hget := get_chargeTx tx baseFee (applyBody P s tx slot a) tx.sender
  have hbalance := hadm.settled_balance (applyBody P s tx slot a)
  obtain ⟨value, -, hfee⟩ := hadm.fee_le (applyBody P s tx slot a)
  have hsender := ho.sender_eq
  rw [if_pos rfl] at hget
  rw [hsender] at hbalance
  have hold : a.sender.balance = (acStateGet s tx.sender).2.balance := by rw [hadm.sender_eq]
  refine ⟨?_, ?_, ?_, ?_, ?_, fun x hx => ?_, ?_⟩
  · exact (actualGas_eq_min tx _).trans (by rw [hadm.toNat_chargedGas h])
  · have hone : (1 : UInt64).toNat = 1 := rfl
    rw [hget, settledSender, hsender, hadm.sender_eq]
    dsimp only
    rw [UInt64.toNat_add, hone, Nat.mod_eq_of_lt (by omega)]
  · rw [hget, hbalance, ← hold]
    exact Nat.sub_add_cancel (by omega)
  · rw [hget, settledSender, hsender, hadm.sender_eq]
  · rw [hget, settledSender, hsender, hadm.sender_eq]
  · rw [get_chargeTx_of_ne hx, ho.state_eq]
  · rw [chargeTx_state, acStateSet_names, ho.state_eq]

/-- **Failed transactions.**  A rejected transaction leaves accounts and names alone; one whose
body has failed is charged, and nothing else happens. -/
theorem failed_tx_atomic (P : Platform) (s : AcState) (tx : Tx) (slot baseFee : UInt64) :
    ((acStateApplyTx P s tx slot baseFee).1 = .rejected →
      (acStateApplyTx P s tx slot baseFee).2.2.accounts = s.accounts ∧
        (acStateApplyTx P s tx slot baseFee).2.2.names = s.names) ∧
    ((acStateApplyTx P s tx slot baseFee).1 = .bodyFailed →
      baseFee.toNat + tx.tip.toNat < 2 ^ 64 →
      (acStateGet s tx.sender).2.nonce.toNat < 2 ^ 64 - 1 →
      OnlyCharged s tx baseFee (acStateApplyTx P s tx slot baseFee).2.1
        (acStateApplyTx P s tx slot baseFee).2.2) := by
  constructor
  · intro h
    rw [acStateApplyTx_rejected h]
    exact ⟨rfl, rfl⟩
  · intro h hrate hnonce
    have hne : (acStateApplyTx P s tx slot baseFee).1 ≠ .rejected := by
      rw [h]
      decide
    obtain ⟨a, ha, he⟩ := exists_admitted hne
    rw [he] at h ⊢
    exact (admitTx_ok hrate ha).onlyCharged ha hnonce
      (applyBody_failed (chargeTx_bodyFailed_iff.mp h))

/-- A bond of more than the account has. -/
def overbondTx : Tx := firstTx 0x02 (referenceKey 2) 3 (acBe64 2000000000) (by decide +kernel)

/-- The hypotheses are met by a bond of more than the account has. -/
theorem failed_tx_atomic_overbond :
    OnlyCharged (genesisState mintGenesis) overbondTx acMinBaseFee
      (acStateApplyTx reference (genesisState mintGenesis) overbondTx 1 acMinBaseFee).2.1
      (acStateApplyTx reference (genesisState mintGenesis) overbondTx 1 acMinBaseFee).2.2 :=
  (failed_tx_atomic reference (genesisState mintGenesis) overbondTx 1 acMinBaseFee).2
    (by decide +kernel) (by decide +kernel) (by decide +kernel)

/-! ### Reported fees -/

/-- The sender has lost exactly the fees that are reported. -/
def FeesPaid (P : Platform) (s : AcState) (tx : Tx) (slot baseFee : UInt64) : Prop :=
  (acStateGet (acStateApplyTx P s tx slot baseFee).2.2 tx.sender).2.funds +
      ((acStateApplyTx P s tx slot baseFee).2.1.feeBurned.toNat +
        (acStateApplyTx P s tx slot baseFee).2.1.feeTip.toNat) =
    (acStateGet s tx.sender).2.funds

/-- What a bond or a registration takes out of the balance before the gas is charged, when it
does not fail. -/
def bodySpends (s : AcState) (tx : Tx) : ℕ :=
  match TxKind.ofCode tx.kind with
  | some .stakeBond =>
      match acBodyStakeDecode tx.body with
      | some amount =>
          if (acStateGet s tx.sender).2.balance < amount then 0 else amount.toNat
      | none => 0
  | some .registerName =>
      match acBodyNameDecode tx.body with
      | some name =>
          if (acStateGet s tx.sender).2.balance < nameFee ∨
            (acStateNameRegister s name tx.sender).isNone then 0 else nameFee.toNat
      | none => 0
  | _ => 0

/-- When a body only moves funds within the record of the sender and burns some, the reported
fees are paid if and only if the balance that it leaves covers them. -/
lemma AdmittedOk.feesPaid_iff (h : AdmittedOk s tx baseFee a) {o : BodyOutcome}
    (hfunds : o.sender.funds + o.burned.toNat = a.sender.funds) (hlt : a.sender.funds < 2 ^ 64) :
    (acStateGet (chargeTx tx baseFee o).2.2 tx.sender).2.funds +
        ((chargeTx tx baseFee o).2.1.feeBurned.toNat + (chargeTx tx baseFee o).2.1.feeTip.toNat) =
      (acStateGet s tx.sender).2.funds ↔ exactFee tx baseFee o ≤ o.sender.balance.toNat := by
  obtain ⟨-, htip, hburned, hgas⟩ := h.reported o
  obtain ⟨value, -, hle⟩ := h.fee_le o
  have hbalance := h.settled_balance o
  have hstake : (settledSender tx baseFee o).stake = o.sender.stake := rfl
  have hlim := a.sender.balance.toNat_lt
  have hburnlt := o.burned.toNat_lt
  rw [get_chargeTx, if_pos rfl, ← h.funds_eq, htip, hburned, UInt64.toNat_add, hgas]
  simp only [Account.funds, hstake] at hfunds hlt ⊢
  rw [exactFee, Nat.mul_add] at hle hbalance ⊢
  omega

/-- What a body of one of these kinds does to the record of the sender. -/
structure BodyOutcome.Moves (s : AcState) (tx : Tx) (a : Admitted) (o : BodyOutcome) : Prop where
  funds_eq : o.sender.funds + o.burned.toNat = a.sender.funds
  balance_le : a.sender.balance.toNat ≤ o.sender.balance.toNat + bodySpends s tx
  spends : bodySpends s tx = 0 ∨
    o.sender.balance.toNat + bodySpends s tx = a.sender.balance.toNat

lemma moves_stakeBond (h : AdmittedOk s tx baseFee a) (hk : a.kind = .stakeBond)
    (hlt : a.sender.funds < 2 ^ 64) : (applyStakeBond s tx a).Moves s tx a := by
  have hkind : TxKind.ofCode tx.kind = some .stakeBond := hk ▸ h.kind_eq
  have hold : a.sender.balance = (acStateGet s tx.sender).2.balance := by rw [h.sender_eq]
  have h0 : (0 : UInt64).toNat = 0 := rfl
  rw [applyStakeBond]
  cases hdec : acBodyStakeDecode tx.body with
  | none =>
    have hspend : bodySpends s tx = 0 := by simp [bodySpends, hkind, hdec]
    exact ⟨by simp [bodyFails], by simp [bodyFails, hspend], Or.inl hspend⟩
  | some amount =>
    by_cases hlow : a.sender.balance < amount
    · have hspend : bodySpends s tx = 0 := by simp [bodySpends, hkind, hdec, ← hold, hlow]
      simp only [hlow, if_true]
      exact ⟨by simp [bodyFails], by simp [bodyFails, hspend], Or.inl hspend⟩
    · have hspend : bodySpends s tx = amount.toNat := by
        simp [bodySpends, hkind, hdec, ← hold, hlow]
      have hle := UInt64.not_lt.mp hlow
      have hbal := UInt64.toNat_sub_of_le _ _ hle
      rw [UInt64.le_iff_toNat_le] at hle
      simp only [Account.funds] at hlt
      have hstake : (a.sender.stake + amount).toNat = a.sender.stake.toNat + amount.toNat :=
        CheckedWord.toNat_add (by omega)
      simp only [hlow, if_false]
      refine ⟨?_, ?_, Or.inr ?_⟩
      · simp only [Account.funds, hbal, hstake, h0]
        omega
      · dsimp only
        omega
      · dsimp only
        omega

lemma moves_stakeUnbond (h : AdmittedOk s tx baseFee a) (hk : a.kind = .stakeUnbond)
    (hlt : a.sender.funds < 2 ^ 64) : (applyStakeUnbond s tx slot a).Moves s tx a := by
  have hkind : TxKind.ofCode tx.kind = some .stakeUnbond := hk ▸ h.kind_eq
  have hspend : bodySpends s tx = 0 := by simp [bodySpends, hkind]
  have h0 : (0 : UInt64).toNat = 0 := rfl
  rcases applyStakeUnbond_cases s tx slot a with ho | ⟨amount, unbondAt, -, hle, ho⟩
  · exact ⟨by simp [ho.sender_eq, ho.burned_eq], by simp [ho.sender_eq], Or.inl hspend⟩
  · rw [UInt64.not_lt] at hle
    have hstake := UInt64.toNat_sub_of_le _ _ hle
    rw [UInt64.le_iff_toNat_le] at hle
    simp only [Account.funds] at hlt
    have hbal : (a.sender.balance + amount).toNat = a.sender.balance.toNat + amount.toNat :=
      CheckedWord.toNat_add (by omega)
    rw [ho]
    refine ⟨?_, ?_, Or.inl hspend⟩
    · simp only [Account.funds, hbal, hstake, h0]
      omega
    · dsimp only
      omega

lemma moves_registerName (h : AdmittedOk s tx baseFee a) (hk : a.kind = .registerName) :
    (applyRegisterName s tx a).Moves s tx a := by
  have hkind : TxKind.ofCode tx.kind = some .registerName := hk ▸ h.kind_eq
  have hold : a.sender.balance = (acStateGet s tx.sender).2.balance := by rw [h.sender_eq]
  rw [applyRegisterName]
  cases hdec : acBodyNameDecode tx.body with
  | none =>
    have hspend : bodySpends s tx = 0 := by simp [bodySpends, hkind, hdec]
    exact ⟨by simp [bodyFails], by simp [bodyFails, hspend], Or.inl hspend⟩
  | some name =>
    by_cases hlow : a.sender.balance < nameFee
    · have hspend : bodySpends s tx = 0 := by simp [bodySpends, hkind, hdec, ← hold, hlow]
      simp only [hlow, if_true]
      exact ⟨by simp [bodyFails], by simp [bodyFails, hspend], Or.inl hspend⟩
    · simp only [hlow, if_false]
      cases hreg : acStateNameRegister s name tx.sender with
      | none =>
        have hspend : bodySpends s tx = 0 := by simp [bodySpends, hkind, hdec, hreg]
        simp only [UInt64.sub_add_cancel]
        exact ⟨by simp, by simp, Or.inl hspend⟩
      | some t =>
        have hspend : bodySpends s tx = nameFee.toNat := by
          simp [bodySpends, hkind, hdec, hreg, ← hold, hlow]
        have hle := UInt64.not_lt.mp hlow
        have hbal := UInt64.toNat_sub_of_le _ _ hle
        rw [UInt64.le_iff_toNat_le] at hle
        refine ⟨?_, ?_, Or.inr ?_⟩
        · simp only [Account.funds, hbal]
          omega
        · dsimp only
          omega
        · dsimp only
          omega

/-- A body that is not a transfer needs the gas of its kind and its memo. -/
lemma AdmittedOk.actualGas_eq (h : AdmittedOk s tx baseFee a) (hk : a.kind ≠ .transfer) :
    actualGas tx (applyBody P s tx slot a) = acTxTotalGas tx := by
  have hnew : newAccountGas s a.kind tx.body = 0 := by
    rw [newAccountGas.eq_def]
    split
    · rename_i hkind _
      exact absurd hkind hk
    · rfl
  rw [actualGas, applyBody_chargedGas, hnew, UInt64.add_zero, if_neg (UInt64.not_lt.mpr h.gas_le),
    h.gas_eq]

/-- **Reported fees.**  The fees that a bond, an unbond or a registration reports are paid if and
only if the balance covers them together with what the body takes out of it. -/
theorem fees_paid_iff (P : Platform) (s : AcState) (tx : Tx) (slot baseFee : UInt64)
    (hs : supply s < 2 ^ 64) (hrate : baseFee.toNat + tx.tip.toNat < 2 ^ 64)
    (hkind : TxKind.ofCode tx.kind = some .stakeBond ∨
      TxKind.ofCode tx.kind = some .stakeUnbond ∨ TxKind.ofCode tx.kind = some .registerName)
    (h : (acStateApplyTx P s tx slot baseFee).1 ≠ .rejected) :
    FeesPaid P s tx slot baseFee ↔
      bodySpends s tx + (acTxTotalGas tx).toNat * (baseFee.toNat + tx.tip.toNat) ≤
        (acStateGet s tx.sender).2.balance.toNat := by
  obtain ⟨a, ha, he⟩ := exists_admitted h
  have hadm := admitTx_ok hrate ha
  have hlt : a.sender.funds < 2 ^ 64 := by
    rw [hadm.funds_eq]
    exact (funds_le_supply s tx.sender).trans_lt hs
  rw [hadm.kind_eq] at hkind
  simp only [Option.some.injEq] at hkind
  have hmoves : (applyBody P s tx slot a).Moves s tx a := by
    rw [applyBody]
    rcases hkind with hk | hk | hk
    · simpa only [hk] using moves_stakeBond hadm hk hlt
    · simpa only [hk] using moves_stakeUnbond hadm hk hlt
    · simpa only [hk] using moves_registerName hadm hk
  have hgas : actualGas tx (applyBody P s tx slot a) = acTxTotalGas tx :=
    hadm.actualGas_eq (by rcases hkind with hk | hk | hk <;> simp [hk])
  obtain ⟨value, -, hfee⟩ := hadm.fee_le (applyBody P s tx slot a)
  have hold : a.sender.balance = (acStateGet s tx.sender).2.balance := by rw [hadm.sender_eq]
  have hbalance := hmoves.balance_le
  rw [FeesPaid, he, hadm.feesPaid_iff hmoves.funds_eq hlt, ← hold]
  rw [exactFee, hgas] at hfee ⊢
  rcases hmoves.spends with hspend | hspend <;> omega

/-- A bond of half of the balance. -/
def bondHalfTx : Tx := firstTx 0x02 (referenceKey 2) 3 (acBe64 500000000) (by decide +kernel)

/-- The hypotheses are met, and the fees are paid, by a bond of half of the balance. -/
theorem fees_paid_bond :
    FeesPaid reference (genesisState mintGenesis) bondHalfTx 1 acMinBaseFee :=
  (fees_paid_iff reference (genesisState mintGenesis) bondHalfTx 1 acMinBaseFee
    (by decide +kernel) (by decide +kernel) (Or.inl (by decide +kernel)) (by decide +kernel)).mpr
    (by decide +kernel)

/-- **A bond of everything.**  The transaction is applied and reports its fees, and the sender
pays nothing. -/
theorem bond_all_unpaid :
    (acStateApplyTx reference (genesisState mintGenesis) bondAllTx 1 acMinBaseFee).1 = .applied ∧
    (acStateGet (acStateApplyTx reference (genesisState mintGenesis) bondAllTx 1
      acMinBaseFee).2.2 bondAllTx.sender).2.funds =
      (acStateGet (genesisState mintGenesis) bondAllTx.sender).2.funds ∧
    0 < (acStateApplyTx reference (genesisState mintGenesis) bondAllTx 1
      acMinBaseFee).2.1.feeTip.toNat := by
  decide +kernel

end Included

end AgentChain
