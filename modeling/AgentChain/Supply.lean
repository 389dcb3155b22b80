import AgentChain.Lib.CheckedWord
import AgentChain.Reference

/-!
# The total supply

The supply is the sum of all balances and stakes, in unbounded integers.  A transaction that
was admitted moves funds between two records and pays its fee from the record of the sender,
and the tip that the block credits to the proposer later has to come out of what was paid.
There are four ways to pay out more than was paid in: a fee rate that wraps around, a bond
that leaves less than the tip, evidence against its own sender, and a reward pool that holds
less than the reward.  Blocks that avoid them never increase the supply.
-/

namespace AgentChain

open Trace

/-- Balance and stake of an account. -/
def Account.funds (a : Account) : ℕ := a.balance.toNat + a.stake.toNat

/-- The total supply. -/
def supply (s : AcState) : ℕ := (s.accounts.map Account.funds).sum

section Supply

variable {P : Platform} {s : AcState}

/-! ### Sums -/

/-- An update changes the supply by the record it replaces. -/
lemma supply_set (s : AcState) (acc : Account) :
    supply (acStateSet s acc) + (acStateGet s acc.addr).2.funds = supply s + acc.funds := by
  refine sum_set Account.funds (fun a ha => ?_) s acc
  rw [eq_zeroAccount_of_empty ha]
  rfl

/-- The same for an update of the balance alone. -/
lemma supply_setBalance (s : AcState) (a : Addr) (v : UInt64) :
    supply (acStateSet s { (acStateGet s a).2 with balance := v }) +
      (acStateGet s a).2.balance.toNat = supply s + v.toNat := by
  have hset := supply_set s { (acStateGet s a).2 with balance := v }
  simp only [acStateGet_addr, Account.funds] at hset ⊢
  omega

/-- No record holds more than the supply. -/
lemma funds_le_supply (s : AcState) (a : Addr) : (acStateGet s a).2.funds ≤ supply s := by
  rcases acStateGet_cases s a with ⟨x, hx, -, hget⟩ | ⟨-, hget⟩
  · rw [hget]
    exact List.single_le_sum (fun _ _ => Nat.zero_le _) _ (List.mem_map_of_mem hx)
  · rw [hget]
    exact Nat.zero_le _

/-- Two records together hold no more than the supply. -/
lemma funds_add_funds_le_supply (s : AcState) {a b : Addr} (hab : a ≠ b) :
    (acStateGet s a).2.funds + (acStateGet s b).2.funds ≤ supply s := by
  -- empty the record of the first address
  have hset := supply_set s (zeroAccount a)
  have hle := funds_le_supply (acStateSet s (zeroAccount a)) b
  have hzero : (zeroAccount a).funds = 0 := rfl
  have haddr : (zeroAccount a).addr = a := rfl
  rw [acStateGet_set_snd, haddr, if_neg (Ne.symm hab)] at hle
  rw [haddr] at hset
  omega

/-! ### Admission -/

/-- What the admission checks leave about the sender and the fee, for a rate that does not
wrap around. -/
structure AdmittedOk (s : AcState) (tx : Tx) (baseFee : UInt64) (a : Admitted) : Prop where
  kind_eq : TxKind.ofCode tx.kind = some a.kind
  gas_eq : a.neededGas = acTxTotalGas tx
  gas_le : a.neededGas ≤ tx.gasLimit.toUInt64
  sender_eq : a.sender = { (acStateGet s tx.sender).2 with
    nonce := (acStateGet s tx.sender).2.nonce + 1 }
  covered : ∃ value, transferValue a.kind tx.body = some value ∧
    tx.gasLimit.toUInt64.toNat * (baseFee.toNat + tx.tip.toNat) + value.toNat ≤
      a.sender.balance.toNat

/-- The overflow check of the source is exact. -/
lemma mul_lt_of_le_div {gas rate : UInt64} (h : ¬ (rate ≠ 0 ∧ u64Max / rate < gas)) :
    gas.toNat * rate.toNat < 2 ^ 64 := by
  by_cases h0 : rate = 0
  · rw [h0]
    simp
  · have hle : gas ≤ u64Max / rate := UInt64.not_lt.mp fun hlt => h ⟨h0, hlt⟩
    have hmax : u64Max.toNat = 2 ^ 64 - 1 := rfl
    rw [UInt64.le_iff_toNat_le, UInt64.toNat_div, hmax] at hle
    have hmul := Nat.mul_le_of_le_div _ _ _ hle
    omega

/-- An admitted sender can pay the whole gas limit and the value of a transfer. -/
lemma admitTx_ok {tx : Tx} {slot baseFee : UInt64} {a : Admitted}
    (hrate : baseFee.toNat + tx.tip.toNat < 2 ^ 64) (h : admitTx s tx slot baseFee = .ok a) :
    AdmittedOk s tx baseFee a := by
  have hsum : (baseFee + tx.tip).toNat = baseFee.toNat + tx.tip.toNat := by
    rw [UInt64.toNat_add, Nat.mod_eq_of_lt hrate]
  obtain ⟨igas, value, hadm⟩ := admitTx_admission h
  have hmul := mul_lt_of_le_div hadm.rate
  have hfee : (tx.gasLimit.toUInt64 * (baseFee + tx.tip)).toNat =
      tx.gasLimit.toUInt64.toNat * (baseFee.toNat + tx.tip.toNat) := by
    rw [UInt64.toNat_mul, Nat.mod_eq_of_lt hmul, hsum]
  have hmax : u64Max.toNat = 2 ^ 64 - 1 := rfl
  have hv := value.toNat_lt
  have hsub : (u64Max - value).toNat = 2 ^ 64 - 1 - value.toNat := by
    rw [UInt64.toNat_sub_of_le _ _ (by rw [UInt64.le_iff_toNat_le]; omega), hmax]
  have hfits := hadm.fits
  have hcov := hadm.covered
  rw [UInt64.lt_iff_toNat_lt, hsub, hfee] at hfits
  rw [UInt64.lt_iff_toNat_lt, UInt64.toNat_add, hfee, Nat.mod_eq_of_lt (by omega)] at hcov
  refine ⟨hadm.kind_eq, ?_, UInt64.not_lt.mp hadm.gas_le, hadm.sender_eq, value, hadm.value_eq,
    not_lt.mp hcov⟩
  simp only [acTxTotalGas, hadm.igas_eq, hadm.gas_eq]

/-! ### One transaction -/

/-- A transaction that cannot mint: its fee rate does not wrap around, a bond leaves the tip,
and evidence accuses somebody else. -/
structure TxSafe (s : AcState) (tx : Tx) (baseFee : UInt64) : Prop where
  rate : baseFee.toNat + tx.tip.toNat < 2 ^ 64
  bond : TxKind.ofCode tx.kind = some .stakeBond → ∀ amount,
    acBodyStakeDecode tx.body = some amount →
    amount ≤ (acStateGet s tx.sender).2.balance →
    (acTxTotalGas tx).toNat * tx.tip.toNat + amount.toNat ≤ (acStateGet s tx.sender).2.balance.toNat
  slash : TxKind.ofCode tx.kind = some .slashEvidence → ∀ b, acBodySlashDecode tx.body = some b →
    b.validator ≠ tx.sender

/-- What a body keeps: the store without the sender, the record of the sender and the burned
fee hold no more than before, and the record covers the tip. -/
structure BodyOutcome.Conserves (s : AcState) (tx : Tx) (o : BodyOutcome) : Prop where
  funds_le : supply o.state + o.sender.funds + o.burned.toNat ≤
    supply s + (acStateGet o.state tx.sender).2.funds
  tip_le : (actualGas tx o).toNat * tx.tip.toNat ≤ o.sender.balance.toNat + o.burned.toNat

variable {tx : Tx} {slot baseFee : UInt64} {a : Admitted}

lemma AdmittedOk.funds_eq (h : AdmittedOk s tx baseFee a) :
    a.sender.funds = (acStateGet s tx.sender).2.funds := by
  rw [h.sender_eq]
  rfl

/-- The tip is within the balance that was admitted. -/
lemma AdmittedOk.tip_le (h : AdmittedOk s tx baseFee a) (o : BodyOutcome) :
    (actualGas tx o).toNat * tx.tip.toNat ≤ a.sender.balance.toNat := by
  obtain ⟨value, -, hcov⟩ := h.covered
  have hgas := (actualGas_le tx o).1
  calc (actualGas tx o).toNat * tx.tip.toNat
      ≤ tx.gasLimit.toUInt64.toNat * (baseFee.toNat + tx.tip.toNat) :=
        Nat.mul_le_mul hgas (Nat.le_add_left _ _)
    _ ≤ a.sender.balance.toNat := by omega

/-- A failed body. -/
lemma AdmittedOk.conserves_failed (h : AdmittedOk s tx baseFee a) {o : BodyOutcome}
    (ho : o.Failed s a) : o.Conserves s tx := by
  have hfunds := h.funds_eq
  have htip := h.tip_le o
  have hburned : o.burned.toNat = 0 := by rw [ho.burned_eq]; rfl
  constructor
  · rw [ho.state_eq, ho.sender_eq]
    omega
  · rw [ho.sender_eq]
    omega

lemma conserves_transfer (hs : supply s < 2 ^ 64) (h : AdmittedOk s tx baseFee a)
    (hk : a.kind = .transfer) : (applyTransfer s tx a).Conserves s tx := by
  have hfunds := h.funds_eq
  rcases applyTransfer_cases s tx a with ho | ⟨b, hb, ho⟩
  · exact h.conserves_failed ho
  obtain ⟨value, hvalue, hcov⟩ := h.covered
  obtain rfl : b.amount = value := by
    rw [hk, transferValue, hb] at hvalue
    exact Option.some.inj hvalue
  have htip : (actualGas tx (applyTransfer s tx a)).toNat * tx.tip.toNat ≤
      tx.gasLimit.toUInt64.toNat * (baseFee.toNat + tx.tip.toNat) :=
    Nat.mul_le_mul (actualGas_le tx _).1 (Nat.le_add_left _ _)
  have hbal : (a.sender.balance - b.amount).toNat = a.sender.balance.toNat - b.amount.toNat :=
    UInt64.toNat_sub_of_le _ _ (by rw [UInt64.le_iff_toNat_le]; omega)
  have hb0 : (applyTransfer s tx a).burned.toNat = 0 := by rw [ho]; rfl
  have hstate : (applyTransfer s tx a).state = acStateSet s { (acStateGet s b.recipient).2 with
      addr := b.recipient
      balance := (acStateGet s b.recipient).2.balance + b.amount } :=
    congrArg BodyOutcome.state ho
  have hsender : (applyTransfer s tx a).sender =
      { a.sender with balance := a.sender.balance - b.amount } := congrArg BodyOutcome.sender ho
  constructor
  · rw [hstate, hsender, hb0]
    set rcv : Account := { (acStateGet s b.recipient).2 with
      addr := b.recipient
      balance := (acStateGet s b.recipient).2.balance + b.amount } with hrcv
    have hset := supply_set s rcv
    have hnew : Account.funds { a.sender with balance := a.sender.balance - b.amount } +
        b.amount.toNat = a.sender.funds := by
      simp only [Account.funds, hbal]
      omega
    have haddr : rcv.addr = b.recipient := rfl
    rw [haddr] at hset
    rw [acStateGet_set_snd, haddr]
    by_cases hself : tx.sender = b.recipient
    · -- the store keeps the credited record, and it is overwritten
      rw [if_pos hself]
      rw [← hself] at hset
      omega
    · rw [if_neg hself]
      have htwo := funds_add_funds_le_supply s hself
      have hcredit : rcv.funds = (acStateGet s b.recipient).2.funds + b.amount.toNat := by
        have hfit : (acStateGet s b.recipient).2.balance.toNat + b.amount.toNat < 2 ^ 64 := by
          simp only [Account.funds] at htwo hfunds
          omega
        simp only [Account.funds, hrcv, CheckedWord.toNat_add hfit]
        omega
      omega
  · rw [hsender, hb0, hbal]
    omega

lemma conserves_stakeBond (hs : supply s < 2 ^ 64) (hsafe : TxSafe s tx baseFee)
    (h : AdmittedOk s tx baseFee a) (hk : a.kind = .stakeBond) :
    (applyStakeBond s tx a).Conserves s tx := by
  have hfunds := h.funds_eq
  rcases applyStakeBond_cases s tx a with ho | ⟨amount, hamount, hle, ho⟩
  · exact h.conserves_failed ho
  have hsender : a.sender.balance = (acStateGet s tx.sender).2.balance := by rw [h.sender_eq]
  have hgas := (actualGas_le tx (applyStakeBond s tx a)).2
  rw [ho] at hgas ⊢
  have hle' : amount ≤ a.sender.balance := UInt64.not_lt.mp hle
  have hbond := hsafe.bond (hk ▸ h.kind_eq) amount hamount (hsender ▸ hle')
  rw [← hsender, ← h.gas_eq] at hbond
  have htip := Nat.mul_le_mul_right tx.tip.toNat hgas
  dsimp only at htip
  have hbal := UInt64.toNat_sub_of_le _ _ hle'
  have hsup := funds_le_supply s tx.sender
  simp only [Account.funds] at hfunds hsup
  have hstake : (a.sender.stake + amount).toNat = a.sender.stake.toNat + amount.toNat :=
    CheckedWord.toNat_add (by omega)
  have h0 : (0 : UInt64).toNat = 0 := rfl
  constructor
  · simp only [Account.funds, hbal, hstake, h0]
    omega
  · dsimp only
    rw [hbal, h0]
    omega

lemma conserves_stakeUnbond (hs : supply s < 2 ^ 64) (h : AdmittedOk s tx baseFee a) :
    (applyStakeUnbond s tx slot a).Conserves s tx := by
  have hfunds := h.funds_eq
  have htip := h.tip_le (applyStakeUnbond s tx slot a)
  rcases applyStakeUnbond_cases s tx slot a with ho | ⟨amount, unbondAt, -, hle, ho⟩
  · exact h.conserves_failed ho
  rw [ho] at htip ⊢
  have hle' : amount ≤ a.sender.stake := UInt64.not_lt.mp hle
  have hstake := UInt64.toNat_sub_of_le _ _ hle'
  rw [UInt64.le_iff_toNat_le] at hle'
  have hsup := funds_le_supply s tx.sender
  simp only [Account.funds] at hfunds hsup
  have hbal : (a.sender.balance + amount).toNat = a.sender.balance.toNat + amount.toNat :=
    CheckedWord.toNat_add (by omega)
  have h0 : (0 : UInt64).toNat = 0 := rfl
  constructor
  · simp only [Account.funds, hbal, hstake, h0]
    omega
  · dsimp only at htip ⊢
    rw [hbal, h0]
    omega

lemma conserves_registerName (h : AdmittedOk s tx baseFee a) :
    (applyRegisterName s tx a).Conserves s tx := by
  have hfunds := h.funds_eq
  have htip := h.tip_le (applyRegisterName s tx a)
  rcases applyRegisterName_cases s tx a with ho | ⟨name, t, -, hle, ht, ho⟩
  · exact h.conserves_failed ho
  rw [ho] at htip ⊢
  have hle' : nameFee ≤ a.sender.balance := UInt64.not_lt.mp hle
  have hbal := UInt64.toNat_sub_of_le _ _ hle'
  rw [UInt64.le_iff_toNat_le] at hle'
  have haccounts := (acStateNameRegister_accounts ht).1
  have hget : acStateGet t tx.sender = acStateGet s tx.sender := by
    rw [acStateGet, acStateGet, haccounts]
  have hsupply : supply t = supply s := by rw [supply, supply, haccounts]
  simp only [Account.funds] at hfunds
  constructor
  · simp only [hget, hsupply, Account.funds, hbal]
    omega
  · dsimp only at htip ⊢
    rw [hbal]
    omega

lemma conserves_slashEvidence (hs : supply s < 2 ^ 64) (hsafe : TxSafe s tx baseFee)
    (h : AdmittedOk s tx baseFee a) (hk : a.kind = .slashEvidence) :
    (applySlashEvidence P s tx a).Conserves s tx := by
  have hfunds := h.funds_eq
  have htip := h.tip_le (applySlashEvidence P s tx a)
  rcases applySlashEvidence_cases (P := P) s tx a with ho | ⟨b, hb, -, -, -, ho⟩
  · exact h.conserves_failed ho
  rw [ho] at htip ⊢
  have hother := hsafe.slash (hk ▸ h.kind_eq) b hb
  have htwo := funds_add_funds_le_supply s hother
  have hset := supply_set s { (acStateGet s b.validator).2 with stake := 0 }
  have haddr : (Account.mk (acStateGet s b.validator).2.addr (acStateGet s b.validator).2.balance
      (acStateGet s b.validator).2.nonce 0 (acStateGet s b.validator).2.unbondAt).addr =
      b.validator := acStateGet_addr s b.validator
  have hget : (acStateGet (acStateSet s { (acStateGet s b.validator).2 with stake := 0 })
      tx.sender).2 = (acStateGet s tx.sender).2 := by
    rw [acStateGet_set_snd, haddr, if_neg (Ne.symm hother)]
  rw [haddr] at hset
  have hhalf : ((acStateGet s b.validator).2.stake / 2).toNat =
      (acStateGet s b.validator).2.stake.toNat / 2 := UInt64.toNat_div _ _
  have h0 : (0 : UInt64).toNat = 0 := rfl
  simp only [Account.funds, h0] at hfunds htwo hset
  have hbal : (a.sender.balance + (acStateGet s b.validator).2.stake / 2).toNat =
      a.sender.balance.toNat + (acStateGet s b.validator).2.stake.toNat / 2 := by
    rw [CheckedWord.toNat_add, hhalf]
    omega
  constructor
  · simp only [hget, Account.funds, hbal, h0]
    omega
  · dsimp only at htip ⊢
    rw [hbal, h0]
    omega

/-- Every body conserves. -/
lemma conserves_applyBody (hs : supply s < 2 ^ 64) (hsafe : TxSafe s tx baseFee)
    (h : AdmittedOk s tx baseFee a) : (applyBody P s tx slot a).Conserves s tx := by
  rw [applyBody]
  cases hk : a.kind with
  | transfer => exact conserves_transfer hs h hk
  | stakeBond => exact conserves_stakeBond hs hsafe h hk
  | stakeUnbond => exact conserves_stakeUnbond hs h
  | registerName => exact conserves_registerName h
  | slashEvidence => exact conserves_slashEvidence hs hsafe h hk

/-- The fee for the gas of a body, in unbounded integers. -/
def exactFee (tx : Tx) (baseFee : UInt64) (o : BodyOutcome) : ℕ :=
  (actualGas tx o).toNat * (baseFee.toNat + tx.tip.toNat)

/-- The admitted balance covers the fee and the value of a transfer. -/
lemma AdmittedOk.fee_le (h : AdmittedOk s tx baseFee a) (o : BodyOutcome) :
    ∃ value, transferValue a.kind tx.body = some value ∧
      exactFee tx baseFee o + value.toNat ≤ a.sender.balance.toNat := by
  obtain ⟨value, hvalue, hcov⟩ := h.covered
  have hgas := Nat.mul_le_mul_right (baseFee.toNat + tx.tip.toNat) (actualGas_le tx o).1
  exact ⟨value, hvalue, (Nat.add_le_add_right hgas _).trans hcov⟩

/-- Neither of the two products wraps around, nor their sum. -/
lemma AdmittedOk.fee_exact (h : AdmittedOk s tx baseFee a) (o : BodyOutcome) :
    (actualGas tx o * baseFee).toNat = (actualGas tx o).toNat * baseFee.toNat ∧
      (actualGas tx o * tx.tip).toNat = (actualGas tx o).toNat * tx.tip.toNat ∧
      (actualGas tx o * baseFee + actualGas tx o * tx.tip).toNat = exactFee tx baseFee o := by
  obtain ⟨value, -, hle⟩ := h.fee_le o
  have hbalance := a.sender.balance.toNat_lt
  rw [exactFee, Nat.mul_add] at hle ⊢
  have hburn : (actualGas tx o * baseFee).toNat = (actualGas tx o).toNat * baseFee.toNat := by
    rw [UInt64.toNat_mul, Nat.mod_eq_of_lt (by omega)]
  have htip : (actualGas tx o * tx.tip).toNat = (actualGas tx o).toNat * tx.tip.toNat := by
    rw [UInt64.toNat_mul, Nat.mod_eq_of_lt (by omega)]
  refine ⟨hburn, htip, ?_⟩
  rw [CheckedWord.toNat_add (by rw [hburn, htip]; omega), hburn, htip]

/-- What is charged: the fee, or what is left when that is less. -/
lemma AdmittedOk.chargedFee_eq (h : AdmittedOk s tx baseFee a) (o : BodyOutcome) :
    (chargedFee tx baseFee o).toNat = min (exactFee tx baseFee o) o.sender.balance.toNat := by
  obtain ⟨-, -, htotal⟩ := h.fee_exact o
  rw [chargedFee]
  split_ifs with hlt
  · rw [UInt64.lt_iff_toNat_lt, htotal] at hlt
    exact (min_eq_right hlt.le).symm
  · rw [UInt64.lt_iff_toNat_lt, htotal, not_lt] at hlt
    rw [htotal, min_eq_left hlt]

/-- The record of the sender behind the charge. -/
def settledSender (tx : Tx) (baseFee : UInt64) (o : BodyOutcome) : Account :=
  { o.sender with
    addr := tx.sender
    balance := o.sender.balance - chargedFee tx baseFee o }

lemma chargeTx_state (tx : Tx) (baseFee : UInt64) (o : BodyOutcome) :
    (chargeTx tx baseFee o).2.2 = acStateSet o.state (settledSender tx baseFee o) := rfl

lemma AdmittedOk.settled_balance (h : AdmittedOk s tx baseFee a) (o : BodyOutcome) :
    (settledSender tx baseFee o).balance.toNat =
      o.sender.balance.toNat - exactFee tx baseFee o := by
  have hfee := h.chargedFee_eq o
  have hsub : (o.sender.balance - chargedFee tx baseFee o).toNat =
      o.sender.balance.toNat - (chargedFee tx baseFee o).toNat :=
    UInt64.toNat_sub_of_le _ _ (by rw [UInt64.le_iff_toNat_le, hfee]; exact min_le_right _ _)
  rw [settledSender]
  dsimp only
  omega

/-- Charging a body pays for the tip. -/
lemma supply_chargeTx (h : AdmittedOk s tx baseFee a) {o : BodyOutcome} (ho : o.Conserves s tx) :
    supply (chargeTx tx baseFee o).2.2 + (chargeTx tx baseFee o).2.1.feeTip.toNat ≤ supply s := by
  have htip : (chargeTx tx baseFee o).2.1.feeTip.toNat =
      (actualGas tx o).toNat * tx.tip.toNat := (h.fee_exact o).2.1
  have hbalance := h.settled_balance o
  have hset := supply_set o.state (settledSender tx baseFee o)
  have hfunds := ho.funds_le
  have htiple := ho.tip_le
  have haddr : (settledSender tx baseFee o).addr = tx.sender := rfl
  have hstake : (settledSender tx baseFee o).stake = o.sender.stake := rfl
  rw [exactFee, Nat.mul_add] at hbalance
  simp only [haddr, Account.funds, hstake] at hset hfunds
  rw [chargeTx_state, htip]
  omega

/-- **A safe transaction** does not create funds, the tip included. -/
theorem supply_applyTx (hs : supply s < 2 ^ 64) (hsafe : TxSafe s tx baseFee) :
    supply (acStateApplyTx P s tx slot baseFee).2.2 +
      (acStateApplyTx P s tx slot baseFee).2.1.feeTip.toNat ≤ supply s := by
  rcases acStateApplyTx_cases (P := P) s tx slot baseFee with ⟨err, -, he⟩ | ⟨a, ha, he⟩
  · rw [he]
    exact le_rfl
  · have hadm := admitTx_ok hsafe.rate ha
    rw [he]
    exact supply_chargeTx hadm (conserves_applyBody hs hsafe hadm)

/-! ### One block -/

/-- Every transaction is safe on the state it meets. -/
def TxsSafe (P : Platform) (slot baseFee : UInt64) : List Tx → AcState → Prop
  | [], _ => True
  | tx :: txs, s => TxSafe s tx baseFee ∧
      TxsSafe P slot baseFee txs (acStateApplyTx P s tx slot baseFee).2.2

/-- A block that cannot mint: its transactions are safe, and the pool covers the reward when
it is paid. -/
structure BlockSafe (P : Platform) (s : AcState) (b : Block) : Prop where
  txs : TxsSafe P b.header.slot b.header.baseFee b.txs s
  pool : acChainBlockReward b.header.height ≤
    (acStateGet (runTxs P s b).state sysRewardPool).2.balance

/-- The tips that the loop collects were paid. -/
lemma supply_applyTxs {txs : List Tx} {l : TxLoop}
    (hl : supply l.state + l.totalTips.toNat < 2 ^ 64)
    (hsafe : TxsSafe P slot baseFee txs l.state) :
    supply (applyTxs P slot baseFee txs l).state + (applyTxs P slot baseFee txs l).totalTips.toNat ≤
      supply l.state + l.totalTips.toNat := by
  induction txs generalizing l with
  | nil => exact le_rfl
  | cons tx txs ih =>
    have htx : supply (acStateApplyTx P l.state tx slot baseFee).2.2 +
        (acStateApplyTx P l.state tx slot baseFee).2.1.feeTip.toNat ≤ supply l.state :=
      supply_applyTx (by omega) hsafe.1
    have htips : (l.totalTips + (acStateApplyTx P l.state tx slot baseFee).2.1.feeTip).toNat =
        l.totalTips.toNat + (acStateApplyTx P l.state tx slot baseFee).2.1.feeTip.toNat :=
      CheckedWord.toNat_add (by omega)
    rw [applyTxs]
    dsimp only
    split_ifs
    · exact le_rfl
    · dsimp only
      omega
    · dsimp only
      omega
    · refine (ih ?_ hsafe.2).trans ?_
      · dsimp only
        omega
      · dsimp only
        omega

/-- Reward and tips are covered by the pool and by the fees. -/
lemma supply_payReward {proposer : Addr} {height tips : UInt64}
    (hs : supply s + tips.toNat < 2 ^ 64)
    (hpool : acChainBlockReward height ≤ (acStateGet s sysRewardPool).2.balance) :
    supply (payReward s proposer height tips) ≤ supply s + tips.toNat := by
  rw [UInt64.le_iff_toNat_le] at hpool
  have hle := funds_le_supply s sysRewardPool
  set reward := acChainBlockReward height
  have hsum : (reward + tips).toNat = reward.toNat + tips.toNat :=
    CheckedWord.toNat_add (by simp only [Account.funds] at hle; omega)
  have hcredit : supply (acStateCredit s proposer (reward + tips)) + _ = _ :=
    supply_setBalance s proposer ((acStateGet s proposer).2.balance + (reward + tips))
  have hget : (acStateGet (acStateCredit s proposer (reward + tips)) sysRewardPool).2 =
      if sysRewardPool = proposer then
        { (acStateGet s proposer).2 with
          balance := (acStateGet s proposer).2.balance + (reward + tips) }
      else (acStateGet s sysRewardPool).2 := by
    rw [acStateCredit, acStateGet_set_snd]
    simp only [acStateGet_addr]
  have hdebit : supply (payReward s proposer height tips) + _ = _ :=
    supply_setBalance (acStateCredit s proposer (reward + tips)) sysRewardPool
      (if (acStateGet (acStateCredit s proposer (reward + tips)) sysRewardPool).2.balance < reward
        then 0
        else (acStateGet (acStateCredit s proposer (reward + tips))
          sysRewardPool).2.balance - reward)
  have hclamp : ∀ x : UInt64, (if x < reward then 0 else x - reward).toNat =
      x.toNat - reward.toNat := by
    intro x
    split_ifs with hx
    · rw [UInt64.lt_iff_toNat_lt] at hx
      rw [Nat.sub_eq_zero_of_le hx.le]
      rfl
    · exact UInt64.toNat_sub_of_le _ _ (UInt64.not_lt.mp hx)
  rw [hclamp, hget] at hdebit
  by_cases hself : sysRewardPool = proposer
  · rw [if_pos hself] at hdebit
    have hmod : ((acStateGet s proposer).2.balance + (reward + tips)).toNat ≤
        (acStateGet s proposer).2.balance.toNat + (reward.toNat + tips.toNat) := by
      rw [UInt64.toNat_add, hsum]
      exact Nat.mod_le _ _
    dsimp only at hdebit
    omega
  · have htwo := funds_add_funds_le_supply s hself
    simp only [Account.funds] at htwo
    have hnew : ((acStateGet s proposer).2.balance + (reward + tips)).toNat =
        (acStateGet s proposer).2.balance.toNat + (reward.toNat + tips.toNat) := by
      rw [CheckedWord.toNat_add, hsum]
      rw [hsum]
      omega
    rw [if_neg hself] at hdebit
    omega

/-- **A safe block** does not increase the supply. -/
theorem supply_postState {b : Block} (hs : supply s < 2 ^ 64) (hb : BlockSafe P s b) :
    supply (postState P s b) ≤ supply s := by
  have h0 : (0 : UInt64).toNat = 0 := rfl
  have hl : supply s + (0 : UInt64).toNat < 2 ^ 64 := by omega
  have htxs := supply_applyTxs (P := P) (l := ⟨true, 0, 0, s⟩) hl hb.txs
  have hpay : supply (postState P s b) ≤
      supply (runTxs P s b).state + (runTxs P s b).totalTips.toNat :=
    supply_payReward (by rw [runTxs]; dsimp only at htxs; omega) hb.pool
  exact hpay.trans (htxs.trans (by dsimp only; omega))

/-! ### Runs -/

/-- A call of `ac_chain_accept_block`, with any clock and any outcome of the writes.  A block
that passes the checks is safe. -/
inductive SafeCall (P : Platform) : Chain → List Block → Chain → Prop
  | call (now : UInt64) (w : Writes) (c : Chain) (b : Block)
      (hsafe : PassesChecks P now c b → BlockSafe P c.state b) :
      SafeCall P c [b] (acChainAcceptBlock P now w c b).2

/-- One call does not increase the supply. -/
lemma SafeCall.supply_le (hP : P.MallocBounded) {c d : Chain} {bs : List Block}
    (h : SafeCall P c bs d) (hs : supply c.state < 2 ^ 64) : supply d.state ≤ supply c.state := by
  cases h with
  | call now w c b hsafe =>
    rcases acChainAcceptBlock_state hP now w c b with heq | ⟨hpass, heq⟩
    · rw [heq]
    · rw [heq]
      exact supply_postState hs (hsafe hpass)

/-- The allocations of a genesis and the reward pool. -/
def Genesis.funds (g : Genesis) : ℕ :=
  (g.accounts.map fun ga => ga.balance.toNat + ga.stake.toNat).sum + 60000000 * 1000000

/-- The genesis state holds at most what the genesis allocates; an address that is listed
twice keeps the second allocation. -/
lemma supply_genesisState_le (g : Genesis) : supply (genesisState g) ≤ g.funds := by
  have hfold : ∀ (l : List GenesisAccount) (s : AcState),
      supply (l.foldl (fun s ga => acStateSet s ga.toAccount) s) ≤
        supply s + (l.map fun ga => ga.balance.toNat + ga.stake.toNat).sum := by
    intro l
    induction l with
    | nil => exact fun s => le_rfl
    | cons ga l ih =>
      intro s
      have hset := supply_set s ga.toAccount
      have hfunds : ga.toAccount.funds = ga.balance.toNat + ga.stake.toNat := rfl
      have hrest := ih (acStateSet s ga.toAccount)
      rw [List.foldl_cons, List.map_cons, List.sum_cons]
      omega
  have hpool : supply (acStateSet (acStateNew g.chainId) genesisPool) = 60000000 * 1000000 := by
    have hset := supply_set (acStateNew g.chainId) genesisPool
    have hnew : supply (acStateNew g.chainId) = 0 := rfl
    have hfunds : genesisPool.funds = 60000000 * 1000000 := rfl
    have hget : (acStateGet (acStateNew g.chainId) genesisPool.addr).2.funds ≤ 0 :=
      hnew ▸ funds_le_supply (acStateNew g.chainId) genesisPool.addr
    omega
  have := hfold g.accounts (acStateSet (acStateNew g.chainId) genesisPool)
  rw [hpool] at this
  rw [Genesis.funds, genesisState]
  omega

/-! ### Concrete blocks -/

/-- A validator, and an account with 1000 CRD. -/
def mintGenesis : Genesis :=
  ⟨1, 0, [⟨(referenceKey 1).pk, 10000000, 900000000⟩, ⟨(referenceKey 2).pk, 1000000000, 0⟩]⟩

/-- A validator, and an allocation that replaces the reward pool. -/
def drainedGenesis : Genesis :=
  ⟨1, 0, [⟨(referenceKey 1).pk, 10000000, 900000000⟩, ⟨sysRewardPool, 0, 0⟩]⟩

/-- A first transaction of an account, with a gas limit of 1000. -/
def firstTx (kind : UInt8) (kp : Keypair) (tip : UInt64) (body : Bytes)
    (hbody : body.length ≤ acTxBodyMax) : Tx :=
  signTx reference ⟨acTxVersion, 1, kind, kp.pk, 0, 1000, tip, 1000000, body, [],
    ByteArr.fill 64 0, hbody, nil_memo_le⟩ kp

/-- The account sends 5 CRD to the validator. -/
def payTx : Tx :=
  firstTx 0x01 (referenceKey 2) 3 ((referenceKey 1).pk.bytes ++ acBe64 5000000) (by decide +kernel)

/-- The account bonds everything it has, and promises a tip. -/
def bondAllTx : Tx := firstTx 0x02 (referenceKey 2) 100000 (acBe64 1000000000) (by decide +kernel)

/-- Two votes of the validator for different blocks at one height. -/
def selfEvidence : Bytes :=
  (referenceKey 1).pk.bytes ++ acBe64 7 ++ (ByteArr.fill 32 0 : Hash).bytes ++
    (acSign reference (acVoteMessage 7 (ByteArr.fill 32 0)) (referenceKey 1)).bytes ++
    (ByteArr.fill 32 1 : Hash).bytes ++
    (acSign reference (acVoteMessage 7 (ByteArr.fill 32 1)) (referenceKey 1)).bytes

lemma selfEvidence_le : selfEvidence.length ≤ acTxBodyMax := by decide +kernel

/-- The validator reports itself. -/
def selfSlashTx : Tx := firstTx 0x05 (referenceKey 1) 0 selfEvidence selfEvidence_le

/-- The first block on a genesis, with the given candidates. -/
def firstBlock (g : Genesis) (cands : Candidates) : Block :=
  nextBlock (openedChain g) 1 (referenceKey 1) cands [referenceKey 1]

/-- Three blocks: evidence against its sender, a bond that leaves no tip, and a reward from
an empty pool. -/
def mintingBlocks : List (Genesis × Block) :=
  [(mintGenesis, firstBlock mintGenesis ⟨[selfSlashTx], by decide⟩),
    (mintGenesis, firstBlock mintGenesis ⟨[bondAllTx], by decide⟩),
    (drainedGenesis, firstBlock drainedGenesis ⟨[], by decide⟩)]

/-! ### No minting -/

/-- **No minting.**  From a genesis that allocates less than `2 ^ 64`, in every run of calls
in which the blocks that pass the checks are safe, no call increases the supply. -/
theorem supply_never_increases (hP : P.MallocBounded) {g : Genesis} (hg : g.funds < 2 ^ 64)
    {w : Writes} {dir : DataDir} {c₀ c d : Chain} {bs new : List Block} (hdir : dir.metaBin = none)
    (hopen : acChainOpen P w dir (some g) = some c₀) (hrun : Run (SafeCall P) c₀ bs c)
    (hstep : SafeCall P c new d) : supply d.state ≤ supply c.state := by
  refine hstep.supply_le hP ?_
  refine hrun.invariant (I := fun _ c => supply c.state < 2 ^ 64) ?_ ?_
  · obtain ⟨buf, -, rfl⟩ := acChainOpen_genesis hdir hopen
    exact (supply_genesisState_le g).trans_lt hg
  · intro _ c _ d hc hs
    exact (hs.supply_le hP hc).trans_lt hc

/-- The hypotheses are met by a block with a transfer that leaves a tip. -/
theorem supply_never_increases_pay :
    supply (acChainAcceptBlock reference 100000 .all (openedChain mintGenesis)
      (firstBlock mintGenesis ⟨[payTx], by decide⟩)).2.state ≤
      supply (openedChain mintGenesis).state := by
  have htxs : (firstBlock mintGenesis ⟨[payTx], by decide⟩).txs = [payTx] := by decide +kernel
  have hkind : TxKind.ofCode payTx.kind = some .transfer := by decide +kernel
  have hsafe : BlockSafe reference (openedChain mintGenesis).state
      (firstBlock mintGenesis ⟨[payTx], by decide⟩) := by
    refine ⟨?_, by decide +kernel⟩
    rw [htxs]
    refine ⟨⟨by decide +kernel, ?_, ?_⟩, trivial⟩
    · intro hbond
      exact absurd (hkind.symm.trans hbond) (by decide)
    · intro hslash
      exact absurd (hkind.symm.trans hslash) (by decide)
  exact supply_never_increases reference_mallocBounded (g := mintGenesis) (by decide +kernel) rfl
    (acChainOpen_openedChain (by decide +kernel)) (.refl _) (.call 100000 .all _ _ fun _ => hsafe)

/-- **Three ways to mint.**  Each of the three blocks is accepted on its genesis and increases
the supply. -/
theorem three_blocks_mint : mintingBlocks.length = 3 ∧ ∀ x ∈ mintingBlocks, x.1.funds < 2 ^ 64 ∧
    (acChainOpen reference .all .empty (some x.1)).isSome ∧
    (acChainAcceptBlock reference 100000 .all (openedChain x.1) x.2).1 = .ok ∧
    supply (openedChain x.1).state <
      supply (acChainAcceptBlock reference 100000 .all (openedChain x.1) x.2).2.state := by
  decide +kernel

end Supply

end AgentChain
