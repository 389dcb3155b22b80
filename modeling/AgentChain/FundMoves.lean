import AgentChain.Certificate
import AgentChain.Payment

/-!
# Transfers and slashing

The record of the sender is loaded at the start of `ac_state_apply_tx`, held apart from the store
while the body runs and written back at the end.  Whatever the body stores at the address of the
sender in between is lost, which is why a transfer to oneself destroys its amount and evidence
against oneself leaves the stake.
-/

namespace AgentChain

section Included

variable {P : Platform} {s : AcState} {tx : Tx} {slot baseFee : UInt64} {a : Admitted}
  {o : BodyOutcome}

/-! ### Transfers -/

/-- Where a transfer to another account puts the money, and what it leaves alone. -/
structure MovedTo (s : AcState) (tx : Tx) (b : BodyTransfer) (r : ApplyResult) (t : AcState) :
    Prop where
  recipient_eq : (acStateGet t b.recipient).2.balance.toNat =
    (acStateGet s b.recipient).2.balance.toNat + b.amount.toNat
  sender_eq : (acStateGet t tx.sender).2.balance.toNat + b.amount.toNat +
    (r.feeBurned.toNat + r.feeTip.toNat) = (acStateGet s tx.sender).2.balance.toNat
  others_eq : ∀ x, x ≠ tx.sender → x ≠ b.recipient → acStateGet t x = acStateGet s x
  stake_eq : ∀ x, (acStateGet t x).2.stake = (acStateGet s x).2.stake
  unbondAt_eq : ∀ x, (acStateGet t x).2.unbondAt = (acStateGet s x).2.unbondAt
  names_eq : t.names = s.names

/-- A transfer loses nothing but the reported fees. -/
structure TransferConserves (P : Platform) (s : AcState) (tx : Tx) (slot baseFee : UInt64)
    (b : BodyTransfer) : Prop where
  total_eq : supply (acStateApplyTx P s tx slot baseFee).2.2 +
      ((acStateApplyTx P s tx slot baseFee).2.1.feeBurned.toNat +
        (acStateApplyTx P s tx slot baseFee).2.1.feeTip.toNat) = supply s
  moved : b.recipient ≠ tx.sender → MovedTo s tx b (acStateApplyTx P s tx slot baseFee).2.1
    (acStateApplyTx P s tx slot baseFee).2.2

/-- The outcome of a transfer that is done. -/
def transferred (s : AcState) (a : Admitted) (b : BodyTransfer) : BodyOutcome :=
  ⟨acStateSet s { (acStateGet s b.recipient).2 with
      addr := b.recipient
      balance := (acStateGet s b.recipient).2.balance + b.amount },
    { a.sender with balance := a.sender.balance - b.amount },
    a.neededGas + (if (acStateGet s b.recipient).1 then 0 else 50), 0, none⟩

lemma applyBody_transfer (hkind : a.kind = .transfer)
    (h : (applyBody P s tx slot a).err = none) :
    ∃ b, acBodyTransferDecode tx.body = some b ∧ applyBody P s tx slot a = transferred s a b := by
  have hdone := applyBody_done h
  generalize applyBody P s tx slot a = o at hdone ⊢
  cases hdone with
  | transfer b _ hbody => exact ⟨b, hbody, rfl⟩
  | stakeBond _ hk => exact absurd (hkind.symm.trans hk) (by decide)
  | stakeUnbond _ _ hk => exact absurd (hkind.symm.trans hk) (by decide)
  | registerName _ _ hk => exact absurd (hkind.symm.trans hk) (by decide)
  | slashEvidence _ hk => exact absurd (hkind.symm.trans hk) (by decide)

/-- The fees of a body that burns nothing else. -/
lemma AdmittedOk.reported_sum (h : AdmittedOk s tx baseFee a) {o : BodyOutcome}
    (hburned : o.burned = 0) :
    (chargeTx tx baseFee o).2.1.feeBurned.toNat + (chargeTx tx baseFee o).2.1.feeTip.toNat =
      exactFee tx baseFee o := by
  obtain ⟨-, htip, hburn, hgas⟩ := h.reported o
  rw [htip, hburn, hburned, UInt64.zero_add, hgas, exactFee, Nat.mul_add]

section Transfer

variable {b : BodyTransfer}

/-- The balance of the sender covers amount and fees. -/
lemma AdmittedOk.transferred_balance (h : AdmittedOk s tx baseFee a) (hkind : a.kind = .transfer)
    (hb : acBodyTransferDecode tx.body = some b) :
    (settledSender tx baseFee (transferred s a b)).balance.toNat + b.amount.toNat +
      exactFee tx baseFee (transferred s a b) = (acStateGet s tx.sender).2.balance.toNat := by
  obtain ⟨value, hvalue, hle⟩ := h.fee_le (transferred s a b)
  obtain rfl : b.amount = value := by
    rw [hkind, transferValue, hb] at hvalue
    exact Option.some.inj hvalue
  have hsub : (a.sender.balance - b.amount).toNat = a.sender.balance.toNat - b.amount.toNat :=
    UInt64.toNat_sub_of_le _ _ (by rw [UInt64.le_iff_toNat_le]; omega)
  have hbalance := h.settled_balance (transferred s a b)
  have hsender : (transferred s a b).sender.balance = a.sender.balance - b.amount := rfl
  have hold : a.sender.balance = (acStateGet s tx.sender).2.balance := by rw [h.sender_eq]
  rw [hsender, hsub] at hbalance
  rw [← hold]
  omega

lemma AdmittedOk.transferred_stake (h : AdmittedOk s tx baseFee a) :
    (settledSender tx baseFee (transferred s a b)).stake = (acStateGet s tx.sender).2.stake ∧
      (settledSender tx baseFee (transferred s a b)).unbondAt =
        (acStateGet s tx.sender).2.unbondAt := by
  rw [settledSender, transferred, h.sender_eq]
  exact ⟨rfl, rfl⟩

/-- The total after a transfer: the amount is lost when it goes to the sender, since the credited
record is overwritten. -/
lemma AdmittedOk.supply_transferred (h : AdmittedOk s tx baseFee a) (hs : supply s < 2 ^ 64)
    (hkind : a.kind = .transfer) (hb : acBodyTransferDecode tx.body = some b) :
    supply (chargeTx tx baseFee (transferred s a b)).2.2 +
        exactFee tx baseFee (transferred s a b) +
        (if b.recipient = tx.sender then b.amount.toNat else 0) = supply s := by
  have hbalance := h.transferred_balance hkind hb
  have hstake := congrArg UInt64.toNat (h.transferred_stake (b := b)).1
  set rcv : Account := { (acStateGet s b.recipient).2 with
    addr := b.recipient
    balance := (acStateGet s b.recipient).2.balance + b.amount } with hrcv
  have hcredit := supply_set s rcv
  have hcharge := supply_set (acStateSet s rcv) (settledSender tx baseFee (transferred s a b))
  have haddr : rcv.addr = b.recipient := rfl
  have hsender : (settledSender tx baseFee (transferred s a b)).addr = tx.sender := rfl
  have hstate : (transferred s a b).state = acStateSet s rcv := rfl
  rw [acStateGet_set_snd, hsender] at hcharge
  rw [haddr] at hcredit hcharge
  rw [chargeTx_state, hstate]
  split_ifs with hself
  · rw [if_pos hself.symm] at hcharge
    rw [hself] at hcredit
    simp only [Account.funds] at hcredit hcharge
    omega
  · rw [if_neg (Ne.symm hself)] at hcharge
    have htwo := funds_add_funds_le_supply s hself
    simp only [Account.funds] at hcredit hcharge htwo
    have hnew : rcv.balance.toNat =
        (acStateGet s b.recipient).2.balance.toNat + b.amount.toNat :=
      CheckedWord.toNat_add (by omega)
    have hsame : rcv.stake = (acStateGet s b.recipient).2.stake := rfl
    rw [hnew, hsame] at hcredit
    omega

/-- A transfer to another account. -/
lemma AdmittedOk.movedTo (h : AdmittedOk s tx baseFee a) (hs : supply s < 2 ^ 64)
    (hkind : a.kind = .transfer) (hb : acBodyTransferDecode tx.body = some b)
    (hother : b.recipient ≠ tx.sender) :
    MovedTo s tx b (chargeTx tx baseFee (transferred s a b)).2.1
      (chargeTx tx baseFee (transferred s a b)).2.2 := by
  have hbalance := h.transferred_balance hkind hb
  have hsum := h.reported_sum (o := transferred s a b) rfl
  have hget : ∀ x, (acStateGet (chargeTx tx baseFee (transferred s a b)).2.2 x).2 =
      if x = tx.sender then settledSender tx baseFee (transferred s a b)
      else if x = b.recipient then { (acStateGet s b.recipient).2 with
        addr := b.recipient
        balance := (acStateGet s b.recipient).2.balance + b.amount }
      else (acStateGet s x).2 := by
    intro x
    rw [get_chargeTx, transferred, acStateGet_set_snd]
  obtain ⟨hstake, hunbond⟩ := h.transferred_stake (b := b)
  refine ⟨?_, ?_, fun x hx hx' => ?_, fun x => ?_, fun x => ?_, rfl⟩
  · have htwo := funds_add_funds_le_supply s hother
    simp only [Account.funds] at htwo
    rw [hget, if_neg hother, if_pos rfl]
    exact CheckedWord.toNat_add (by omega)
  · rw [hget, if_pos rfl, hsum]
    exact hbalance
  · rw [get_chargeTx_of_ne hx, transferred, acStateGet_set]
    exact if_neg hx'
  · rw [hget]
    split_ifs with hx hx'
    · rw [hstake, hx]
    · rw [hx']
    · rfl
  · rw [hget]
    split_ifs with hx hx'
    · rw [hunbond, hx]
    · rw [hx']
    · rfl

end Transfer

/-- **Transfers.**  A transfer that is applied loses nothing but the reported fees if and only if
it goes to another account or moves nothing. -/
theorem transfer_conserves_iff (P : Platform) (s : AcState) (tx : Tx) (slot baseFee : UInt64)
    (hs : supply s < 2 ^ 64) (hrate : baseFee.toNat + tx.tip.toNat < 2 ^ 64)
    (hkind : TxKind.ofCode tx.kind = some .transfer)
    (h : (acStateApplyTx P s tx slot baseFee).1 = .applied) :
    ∃ b, acBodyTransferDecode tx.body = some b ∧
      (TransferConserves P s tx slot baseFee b ↔ b.recipient ≠ tx.sender ∨ b.amount = 0) := by
  have hne : (acStateApplyTx P s tx slot baseFee).1 ≠ .rejected := by
    rw [h]
    decide
  obtain ⟨a, ha, he⟩ := exists_admitted hne
  have hadm := admitTx_ok hrate ha
  have hk : a.kind = .transfer := Option.some.inj (hadm.kind_eq.symm.trans hkind)
  rw [he] at h
  obtain ⟨b, hb, ho⟩ := applyBody_transfer hk (chargeTx_applied_iff.mp h)
  rw [ho] at he
  have hsum := hadm.reported_sum (o := transferred s a b) rfl
  have htotal := hadm.supply_transferred hs hk hb
  refine ⟨b, hb, fun hcons => ?_, fun hcond => ⟨?_, fun hother => ?_⟩⟩
  · have hall := hcons.total_eq
    rw [he, hsum] at hall
    by_cases hself : b.recipient = tx.sender
    · rw [if_pos hself] at htotal
      exact Or.inr (UInt64.toNat_inj.mp (show b.amount.toNat = 0 by omega))
    · exact Or.inl hself
  · rw [he, hsum]
    rcases hcond with hother | hzero
    · rwa [if_neg hother] at htotal
    · have h0 : b.amount.toNat = 0 := by
        rw [hzero]
        rfl
      rwa [h0, ite_self] at htotal
  · rw [he]
    exact hadm.movedTo hs hk hb hother

/-- The hypotheses are met, and nothing but the fees is lost, by a payment to the validator. -/
theorem transfer_conserves_pay : ∃ b, acBodyTransferDecode payTx.body = some b ∧
    TransferConserves reference (genesisState mintGenesis) payTx 1 acMinBaseFee b := by
  obtain ⟨b, hb, hiff⟩ := transfer_conserves_iff reference (genesisState mintGenesis) payTx 1
    acMinBaseFee (by decide +kernel) (by decide +kernel) (by decide +kernel) (by decide +kernel)
  have hother : (acBodyTransferDecode payTx.body).map BodyTransfer.recipient =
      some (referenceKey 1).pk := by decide +kernel
  rw [hb] at hother
  refine ⟨b, hb, hiff.mpr (Or.inl ?_)⟩
  rw [Option.some.inj hother]
  decide +kernel

/-- An account sends 5 CRD to itself. -/
def selfPayTx : Tx :=
  firstTx 0x01 (referenceKey 2) 3 ((referenceKey 2).pk.bytes ++ acBe64 5000000) (by decide +kernel)

/-- **A transfer to oneself.**  The transaction is applied, and the amount disappears together
with the fees. -/
theorem self_transfer_loses :
    (acStateApplyTx reference (genesisState mintGenesis) selfPayTx 1 acMinBaseFee).1 = .applied ∧
    supply (acStateApplyTx reference (genesisState mintGenesis) selfPayTx 1 acMinBaseFee).2.2 +
      ((acStateApplyTx reference (genesisState mintGenesis) selfPayTx 1
          acMinBaseFee).2.1.feeBurned.toNat +
        (acStateApplyTx reference (genesisState mintGenesis) selfPayTx 1
          acMinBaseFee).2.1.feeTip.toNat) + 5000000 = supply (genesisState mintGenesis) := by
  decide +kernel

/-! ### Slashing -/

/-- What happens to the accounts behind a transaction. -/
inductive StateEvent where
  | tx (tx : Tx) (slot baseFee : UInt64)
  | reward (proposer : Addr) (height tips : UInt64)

/-- The state behind an event. -/
def StateEvent.apply (P : Platform) (s : AcState) : StateEvent → AcState
  | .tx tx slot baseFee => (acStateApplyTx P s tx slot baseFee).2.2
  | .reward proposer height tips => payReward s proposer height tips

/-- The event is a bond of the given account. -/
def StateEvent.BondOf (x : Addr) : StateEvent → Prop
  | .tx tx _ _ => tx.sender = x ∧ TxKind.ofCode tx.kind = some .stakeBond
  | .reward _ _ _ => False

/-- A slashing takes effect: the stake of the accused is gone, the sender gets half of it, and no
other account changes.  The evidence is of no use again until the accused bonds. -/
structure SlashEffective (P : Platform) (s : AcState) (tx : Tx) (slot baseFee : UInt64)
    (b : BodySlash) : Prop where
  stake_eq : ∀ x, (acStateGet (acStateApplyTx P s tx slot baseFee).2.2 x).2.stake =
    if x = b.validator then 0 else (acStateGet s x).2.stake
  balance_eq : (acStateGet (acStateApplyTx P s tx slot baseFee).2.2 tx.sender).2.balance.toNat +
      ((acStateApplyTx P s tx slot baseFee).2.1.feeBurned.toNat +
        (acStateApplyTx P s tx slot baseFee).2.1.feeTip.toNat) =
    (acStateGet s tx.sender).2.balance.toNat + (acStateGet s b.validator).2.stake.toNat / 2
  others_eq : ∀ x, x ≠ tx.sender →
    (acStateGet (acStateApplyTx P s tx slot baseFee).2.2 x).2.balance = (acStateGet s x).2.balance
  spent : ∀ events : List StateEvent, (∀ e ∈ events, ¬ e.BondOf b.validator) →
    ∀ tx' slot' baseFee', TxKind.ofCode tx'.kind = some .slashEvidence →
      acBodySlashDecode tx'.body = some b →
      (acStateApplyTx P (events.foldl (StateEvent.apply P)
        (acStateApplyTx P s tx slot baseFee).2.2) tx' slot' baseFee').1 ≠ .applied

/-- The outcome of evidence that is accepted. -/
def slashed (s : AcState) (a : Admitted) (b : BodySlash) : BodyOutcome :=
  ⟨acStateSet s { (acStateGet s b.validator).2 with stake := 0 },
    { a.sender with balance := a.sender.balance + (acStateGet s b.validator).2.stake / 2 },
    a.neededGas, 0, none⟩

lemma applyBody_slash (hkind : a.kind = .slashEvidence)
    (h : (applyBody P s tx slot a).err = none) :
    ∃ b, acBodySlashDecode tx.body = some b ∧ (acStateGet s b.validator).2.stake ≠ 0 ∧
      applyBody P s tx slot a = slashed s a b := by
  have hdone := applyBody_done h
  generalize applyBody P s tx slot a = o at hdone ⊢
  cases hdone with
  | transfer _ hk => exact absurd (hkind.symm.trans hk) (by decide)
  | stakeBond _ hk => exact absurd (hkind.symm.trans hk) (by decide)
  | stakeUnbond _ _ hk => exact absurd (hkind.symm.trans hk) (by decide)
  | registerName _ _ hk => exact absurd (hkind.symm.trans hk) (by decide)
  | slashEvidence b _ hbody _ _ hstake => exact ⟨b, hbody, hstake, rfl⟩

/-- Without stake there is nothing to slash. -/
lemma slash_needs_stake {b : BodySlash} (hkind : TxKind.ofCode tx.kind = some .slashEvidence)
    (hb : acBodySlashDecode tx.body = some b) (hzero : (acStateGet s b.validator).2.stake = 0) :
    (acStateApplyTx P s tx slot baseFee).1 ≠ .applied := by
  intro h
  have hne : (acStateApplyTx P s tx slot baseFee).1 ≠ .rejected := by
    rw [h]
    decide
  obtain ⟨a, ha, he⟩ := exists_admitted hne
  obtain ⟨igas, value, hadm⟩ := admitTx_admission ha
  rw [he] at h
  obtain ⟨b', hb', hstake, -⟩ := applyBody_slash
    (Option.some.inj (hadm.kind_eq.symm.trans hkind)) (chargeTx_applied_iff.mp h)
  obtain rfl := Option.some.inj (hb.symm.trans hb')
  exact hstake hzero

/-- What a body does to a stake of zero: nothing, unless it is a bond of the account itself. -/
lemma BodyDone.stake_zero {x : Addr} (h : BodyDone P s tx a o)
    (hzero : (acStateGet s x).2.stake = 0) : (acStateGet o.state x).2.stake = 0 := by
  cases h with
  | transfer b hkind hbody =>
    rw [acStateGet_set_snd]
    split_ifs with hx
    · rwa [hx] at hzero
    · exact hzero
  | stakeBond => exact hzero
  | stakeUnbond => exact hzero
  | registerName name t hkind hbody hle hnew =>
    rwa [acStateGet, (acStateNameRegister_accounts hnew).1, ← acStateGet]
  | slashEvidence b hkind hbody hne hsig hstake =>
    rw [acStateGet_set_snd]
    split_ifs with hx
    · rfl
    · exact hzero

lemma BodyDone.sender_stake_zero (h : BodyDone P s tx a o) (hzero : a.sender.stake = 0)
    (hkind : a.kind ≠ .stakeBond) : o.sender.stake = 0 := by
  cases h with
  | transfer => exact hzero
  | stakeBond amount hk => exact absurd hk hkind
  | stakeUnbond amount unbondAt hk hbody hle =>
    rw [hzero, UInt64.not_lt] at hle
    show a.sender.stake - amount = 0
    rw [hzero, UInt64.le_antisymm hle UInt64.zero_le]
    rfl
  | registerName => exact hzero
  | slashEvidence => exact hzero

/-- **One event.**  A stake of zero stays until the account bonds. -/
lemma StateEvent.stake_zero {x : Addr} (e : StateEvent) (hbond : ¬ e.BondOf x)
    (hzero : (acStateGet s x).2.stake = 0) : (acStateGet (e.apply P s) x).2.stake = 0 := by
  cases e with
  | reward proposer height tips => exact (payReward_stake s proposer x height tips).trans hzero
  | tx tx slot baseFee =>
    show (acStateGet (acStateApplyTx P s tx slot baseFee).2.2 x).2.stake = 0
    rcases acStateApplyTx_cases (P := P) s tx slot baseFee with ⟨err, -, he⟩ | ⟨a, ha, he⟩
    · rw [he]
      exact hzero
    · obtain ⟨igas, value, hadm⟩ := admitTx_admission ha
      rw [he, get_chargeTx]
      split_ifs with hx
      · -- the record of the sender, loaded before the body
        have hsender : a.sender.stake = 0 := by
          rw [hadm.sender_eq, ← hx]
          exact hzero
        have hkind : a.kind ≠ .stakeBond := fun hk =>
          hbond ⟨hx.symm, by rw [hadm.kind_eq, hk]⟩
        show (applyBody P s tx slot a).sender.stake = 0
        rcases applyBody_cases (P := P) s tx slot a with ho | ho
        · rw [ho.sender_eq]
          exact hsender
        · exact ho.sender_stake_zero hsender hkind
      · rcases applyBody_cases (P := P) s tx slot a with ho | ho
        · rw [ho.state_eq]
          exact hzero
        · exact ho.stake_zero hzero

/-- **All events.** -/
lemma foldl_stake_zero {x : Addr} (events : List StateEvent)
    (hbond : ∀ e ∈ events, ¬ e.BondOf x) (hzero : (acStateGet s x).2.stake = 0) :
    (acStateGet (events.foldl (StateEvent.apply P) s) x).2.stake = 0 := by
  induction events generalizing s with
  | nil => exact hzero
  | cons e events ih =>
    exact ih (fun e' he' => hbond e' (List.mem_cons_of_mem _ he'))
      (e.stake_zero (hbond e List.mem_cons_self) hzero)

/-- Evidence against another account. -/
lemma AdmittedOk.slashEffective {b : BodySlash} (h : AdmittedOk s tx baseFee a)
    (hs : supply s < 2 ^ 64) (hother : b.validator ≠ tx.sender)
    (he : acStateApplyTx P s tx slot baseFee = chargeTx tx baseFee (slashed s a b)) :
    SlashEffective P s tx slot baseFee b := by
  have hsum := h.reported_sum (o := slashed s a b) rfl
  obtain ⟨value, -, hfee⟩ := h.fee_le (slashed s a b)
  have hold : a.sender.balance = (acStateGet s tx.sender).2.balance := by rw [h.sender_eq]
  have hget : ∀ x, (acStateGet (acStateApplyTx P s tx slot baseFee).2.2 x).2 =
      if x = tx.sender then settledSender tx baseFee (slashed s a b)
      else if x = b.validator then { (acStateGet s b.validator).2 with stake := 0 }
      else (acStateGet s x).2 := by
    intro x
    rw [he, get_chargeTx, slashed, acStateGet_set_snd]
    dsimp only
    rw [acStateGet_addr]
  have hstake : ∀ x, (acStateGet (acStateApplyTx P s tx slot baseFee).2.2 x).2.stake =
      if x = b.validator then 0 else (acStateGet s x).2.stake := by
    intro x
    rw [hget]
    by_cases hx : x = tx.sender
    · rw [if_pos hx, if_neg (by rw [hx]; exact Ne.symm hother), settledSender, slashed, h.sender_eq,
        hx]
    · rw [if_neg hx]
      split_ifs <;> rfl
  refine ⟨hstake, ?_, fun x hx => ?_, fun events hevents tx' slot' baseFee' hkind hb => ?_⟩
  · have htwo := funds_add_funds_le_supply s hother
    simp only [Account.funds] at htwo
    have hhalf : ((acStateGet s b.validator).2.stake / 2).toNat =
        (acStateGet s b.validator).2.stake.toNat / 2 := UInt64.toNat_div _ _
    have hreward : (a.sender.balance + (acStateGet s b.validator).2.stake / 2).toNat =
        a.sender.balance.toNat + (acStateGet s b.validator).2.stake.toNat / 2 := by
      rw [CheckedWord.toNat_add (by rw [hhalf, hold]; omega), hhalf]
    have hbalance := h.settled_balance (slashed s a b)
    have hsender : (slashed s a b).sender.balance =
        a.sender.balance + (acStateGet s b.validator).2.stake / 2 := rfl
    rw [hsender, hreward] at hbalance
    rw [hget, if_pos rfl, he, hsum, hbalance, ← hold]
    omega
  · rw [hget, if_neg hx]
    split_ifs with hx'
    · rw [hx']
    · rfl
  · refine slash_needs_stake hkind hb (foldl_stake_zero events hevents ?_)
    rw [hstake, if_pos rfl]

/-- **Slashing.**  Evidence that is accepted takes effect if and only if it accuses another
account than that of its sender. -/
theorem slash_effective_iff (P : Platform) (s : AcState) (tx : Tx) (slot baseFee : UInt64)
    (hs : supply s < 2 ^ 64) (hrate : baseFee.toNat + tx.tip.toNat < 2 ^ 64)
    (hkind : TxKind.ofCode tx.kind = some .slashEvidence)
    (h : (acStateApplyTx P s tx slot baseFee).1 = .applied) :
    ∃ b, acBodySlashDecode tx.body = some b ∧ 0 < (acStateGet s b.validator).2.stake ∧
      (SlashEffective P s tx slot baseFee b ↔ b.validator ≠ tx.sender) := by
  have hne : (acStateApplyTx P s tx slot baseFee).1 ≠ .rejected := by
    rw [h]
    decide
  obtain ⟨a, ha, he⟩ := exists_admitted hne
  have hadm := admitTx_ok hrate ha
  rw [he] at h
  obtain ⟨b, hb, hstake, ho⟩ := applyBody_slash
    (Option.some.inj (hadm.kind_eq.symm.trans hkind)) (chargeTx_applied_iff.mp h)
  rw [ho] at he
  refine ⟨b, hb, UInt64.pos_iff_ne_zero.mpr hstake, fun heff hself => ?_, fun hother =>
    hadm.slashEffective hs hother he⟩
  -- the record that was loaded before the body still has the stake
  have hzero := heff.stake_eq b.validator
  rw [if_pos rfl, he, get_chargeTx, if_pos hself, settledSender, slashed, hadm.sender_eq,
    ← hself] at hzero
  exact hstake hzero

/-- The second account reports the validator. -/
def slashTx : Tx := firstTx 0x05 (referenceKey 2) 3 selfEvidence selfEvidence_le

/-- The hypotheses are met, and the slashing takes effect, for a report of another account. -/
theorem slash_effective_report : ∃ b, acBodySlashDecode slashTx.body = some b ∧
    SlashEffective reference (genesisState mintGenesis) slashTx 1 acMinBaseFee b := by
  obtain ⟨b, hb, -, hiff⟩ := slash_effective_iff reference (genesisState mintGenesis) slashTx 1
    acMinBaseFee (by decide +kernel) (by decide +kernel) (by decide +kernel) (by decide +kernel)
  have hother : (acBodySlashDecode slashTx.body).map BodySlash.validator =
      some (referenceKey 1).pk := by decide +kernel
  rw [hb] at hother
  refine ⟨b, hb, hiff.mpr ?_⟩
  rw [Option.some.inj hother]
  decide +kernel

/-- **Evidence against oneself.**  The validator reports itself twice.  Both reports are applied,
and its stake stays while the rewards are paid. -/
theorem self_slash_keeps_stake :
    let once := acStateApplyTx reference (genesisState mintGenesis) selfSlashTx 1 acMinBaseFee
    let again := acStateApplyTx reference once.2.2 { selfSlashTx with nonce := 1 } 1 acMinBaseFee
    once.1 = .applied ∧ again.1 = .applied ∧
      (acStateGet again.2.2 (referenceKey 1).pk).2.stake =
        (acStateGet (genesisState mintGenesis) (referenceKey 1).pk).2.stake ∧
      supply (genesisState mintGenesis) < supply once.2.2 ∧ supply once.2.2 < supply again.2.2 := by
  decide +kernel

end Included

end AgentChain
