import AgentChain.Snapshot

/-!
# The state transition of one transaction

`ac_state_apply_tx` runs in three parts.  The admission checks either reject the
transaction, leaving the state alone, or fix the gas it needs.  The body then acts on the
store while the sender's record is held apart from it.  At the end the gas is charged to
that record, which is written back over whatever the body left at the sender's address.
-/

namespace AgentChain

/-- The return code of `ac_state_apply_tx`. -/
inductive ApplyRc where
  /-- `-1`: not to be included. -/
  | rejected
  /-- `0`: included. -/
  | applied
  /-- `1`: included, and only the gas was charged. -/
  | bodyFailed
deriving DecidableEq, Repr

/-- `ac_apply_result_t` -/
structure ApplyResult where
  ok : Bool
  gasUsed : UInt64
  feeBurned : UInt64
  feeTip : UInt64
  err : String
deriving DecidableEq, Repr

/-! ### Admission -/

/-- What the admission checks hand on: the kind, the sender with its nonce advanced and the
gas that is charged in any case. -/
structure Admitted where
  kind : TxKind
  sender : Account
  neededGas : UInt64

/-- `UINT64_MAX` -/
def u64Max : UInt64 := 18446744073709551615

/-- The value that the sender has to cover besides the fee; `none` for a bad transfer body. -/
def transferValue (kind : TxKind) (body : Bytes) : Option UInt64 :=
  match kind with
  | .transfer => (acBodyTransferDecode body).map BodyTransfer.amount
  | _ => some 0

/-- The checks of `ac_state_apply_tx` before the nonce is advanced. -/
def admitTx (s : AcState) (tx : Tx) (slot baseFee : UInt64) : Except String Admitted :=
  if tx.version ≠ acTxVersion then .error "bad version"
  else if tx.chainId ≠ s.chainId then .error "wrong chain_id"
  else if tx.validUntil ≤ slot then .error "expired"
  else
    let sender := (acStateGet s tx.sender).2
    if tx.nonce ≠ sender.nonce then .error "bad nonce"
    else
      match TxKind.ofCode tx.kind, acTxIntrinsicGas tx.kind with
      | some kind, some igas =>
          let neededGas := igas + UInt64.ofNat tx.memo.length
          let perGas := baseFee + tx.tip
          let maxFee := tx.gasLimit.toUInt64 * perGas
          if tx.gasLimit.toUInt64 < neededGas then .error "gas limit too low"
          else if perGas ≠ 0 ∧ u64Max / perGas < tx.gasLimit.toUInt64 then .error "fee overflow"
          else
            match transferValue kind tx.body with
            | none => .error "bad body"
            | some value =>
                if u64Max - value < maxFee ∨ sender.balance < maxFee + value then
                  .error "insufficient balance"
                else .ok ⟨kind, { sender with nonce := sender.nonce + 1 }, neededGas⟩
      | _, _ => .error "unknown kind"

/-! ### Bodies -/

/-- What the `switch` over the kind leaves: the store, the sender's record held apart from
it, the gas, the burned name fee and the error of a failed body. -/
structure BodyOutcome where
  state : AcState
  sender : Account
  chargedGas : UInt64
  burned : UInt64
  err : Option String

/-- A body that fails without having changed anything. -/
def bodyFails (s : AcState) (a : Admitted) (err : String) : BodyOutcome :=
  ⟨s, a.sender, a.neededGas, 0, some err⟩

/-- `case AC_TX_TRANSFER`; a new recipient costs 50 gas. -/
def applyTransfer (s : AcState) (tx : Tx) (a : Admitted) : BodyOutcome :=
  match acBodyTransferDecode tx.body with
  | none => bodyFails s a "bad body"  -- excluded by the admission checks
  | some b =>
      let rcv := acStateGet s b.recipient
      let chargedGas := a.neededGas + if rcv.1 then 0 else 50
      if tx.gasLimit.toUInt64 < chargedGas then ⟨s, a.sender, chargedGas, 0, some "out of gas"⟩
      else
        ⟨acStateSet s { rcv.2 with addr := b.recipient, balance := rcv.2.balance + b.amount },
          { a.sender with balance := a.sender.balance - b.amount }, chargedGas, 0, none⟩

/-- `case AC_TX_STAKE_BOND` -/
def applyStakeBond (s : AcState) (tx : Tx) (a : Admitted) : BodyOutcome :=
  match acBodyStakeDecode tx.body with
  | none => bodyFails s a "bad body"
  | some amount =>
      if a.sender.balance < amount then bodyFails s a "insufficient"
      else
        ⟨s, { a.sender with
          balance := a.sender.balance - amount
          stake := a.sender.stake + amount }, a.neededGas, 0, none⟩

/-- `case AC_TX_STAKE_UNBOND` -/
def applyStakeUnbond (s : AcState) (tx : Tx) (slot : UInt64) (a : Admitted) : BodyOutcome :=
  match acBodyStakeDecode tx.body with
  | none => bodyFails s a "bad body"
  | some amount =>
      if a.sender.stake < amount then bodyFails s a "insufficient stake"
      else
        ⟨s, { a.sender with
          stake := a.sender.stake - amount
          balance := a.sender.balance + amount
          unbondAt := if a.sender.unbondAt = 0 then slot + acEpochSlots * 6 / 24
            else a.sender.unbondAt }, a.neededGas, 0, none⟩

/-- The fee of a name registration, 1 CRD. -/
def nameFee : UInt64 := 1000000

/-- `case AC_TX_REGISTER_NAME`; the fee is refunded when the name is taken. -/
def applyRegisterName (s : AcState) (tx : Tx) (a : Admitted) : BodyOutcome :=
  match acBodyNameDecode tx.body with
  | none => bodyFails s a "bad name"
  | some name =>
      if a.sender.balance < nameFee then bodyFails s a "fee"
      else
        match acStateNameRegister s name tx.sender with
        | none =>
            ⟨s, { a.sender with balance := a.sender.balance - nameFee + nameFee },
              a.neededGas, 0, some "name taken"⟩
        | some t =>
            ⟨t, { a.sender with balance := a.sender.balance - nameFee }, a.neededGas,
              nameFee, none⟩

section Transition

variable (P : Platform)

/-- Whether both signatures of an evidence body verify as votes of the accused. -/
def slashSignaturesOk (b : BodySlash) : Bool :=
  acVerify P b.sigA (acVoteMessage b.height b.blockHashA) b.validator &&
    acVerify P b.sigB (acVoteMessage b.height b.blockHashB) b.validator

/-- `case AC_TX_SLASH_EVIDENCE`; half of the stake goes to the reporter. -/
def applySlashEvidence (s : AcState) (tx : Tx) (a : Admitted) : BodyOutcome :=
  match acBodySlashDecode tx.body with
  | none => bodyFails s a "bad evidence"
  | some b =>
      if b.blockHashA = b.blockHashB then bodyFails s a "non-conflicting evidence"
      else if !slashSignaturesOk P b then bodyFails s a "bad signatures"
      else
        let v := (acStateGet s b.validator).2
        if v.stake = 0 then bodyFails s a "no stake"
        else
          ⟨acStateSet s { v with stake := 0 },
            { a.sender with balance := a.sender.balance + v.stake / 2 }, a.neededGas, 0, none⟩

/-- The `switch` over the kind. -/
def applyBody (s : AcState) (tx : Tx) (slot : UInt64) (a : Admitted) : BodyOutcome :=
  match a.kind with
  | .transfer => applyTransfer s tx a
  | .stakeBond => applyStakeBond s tx a
  | .stakeUnbond => applyStakeUnbond s tx slot a
  | .registerName => applyRegisterName s tx a
  | .slashEvidence => applySlashEvidence P s tx a

/-! ### Charging -/

/-- The gas that is charged, at most the limit. -/
def actualGas (tx : Tx) (o : BodyOutcome) : UInt64 :=
  if tx.gasLimit.toUInt64 < o.chargedGas then tx.gasLimit.toUInt64 else o.chargedGas

/-- The charged gas is within the limit and within what the body needed. -/
lemma actualGas_le (tx : Tx) (o : BodyOutcome) :
    (actualGas tx o).toNat ≤ tx.gasLimit.toUInt64.toNat ∧
      (actualGas tx o).toNat ≤ o.chargedGas.toNat := by
  rw [actualGas]
  split_ifs with h
  · rw [UInt64.lt_iff_toNat_lt] at h
    exact ⟨le_rfl, h.le⟩
  · rw [UInt64.not_lt, UInt64.le_iff_toNat_le] at h
    exact ⟨h, le_rfl⟩

/-- What the sender pays: burned fee and tip, or its whole balance when that is less. -/
def chargedFee (tx : Tx) (baseFee : UInt64) (o : BodyOutcome) : UInt64 :=
  let total := actualGas tx o * baseFee + actualGas tx o * tx.tip
  if o.sender.balance < total then o.sender.balance else total

/-- The end of `ac_state_apply_tx`.  The result reports the fee and the tip in full, also
when the sender could not pay them. -/
def chargeTx (tx : Tx) (baseFee : UInt64) (o : BodyOutcome) : ApplyRc × ApplyResult × AcState :=
  let sender := { o.sender with
    addr := tx.sender
    balance := o.sender.balance - chargedFee tx baseFee o }
  (if o.err.isSome then .bodyFailed else .applied,
    { ok := o.err.isNone
      gasUsed := actualGas tx o
      feeBurned := o.burned + actualGas tx o * baseFee
      feeTip := actualGas tx o * tx.tip
      err := o.err.getD "" },
    acStateSet o.state sender)

/-- `ac_state_apply_tx` -/
def acStateApplyTx (s : AcState) (tx : Tx) (slot baseFee : UInt64) :
    ApplyRc × ApplyResult × AcState :=
  match admitTx s tx slot baseFee with
  | .error err => (.rejected, ⟨false, 0, 0, 0, err⟩, s)
  | .ok a => chargeTx tx baseFee (applyBody P s tx slot a)

variable {P}

/-- What a transaction can do: it is rejected and the state stays, or it was admitted and
its body was run and charged. -/
theorem acStateApplyTx_cases (s : AcState) (tx : Tx) (slot baseFee : UInt64) :
    (∃ err, admitTx s tx slot baseFee = .error err ∧
      acStateApplyTx P s tx slot baseFee = (.rejected, ⟨false, 0, 0, 0, err⟩, s)) ∨
    (∃ a, admitTx s tx slot baseFee = .ok a ∧
      acStateApplyTx P s tx slot baseFee = chargeTx tx baseFee (applyBody P s tx slot a)) := by
  rw [acStateApplyTx]
  cases h : admitTx s tx slot baseFee with
  | error err => exact Or.inl ⟨err, rfl, rfl⟩
  | ok a => exact Or.inr ⟨a, rfl, rfl⟩

/-- What the admission checks have established about a transaction that they let pass. -/
structure Admission (s : AcState) (tx : Tx) (baseFee : UInt64) (a : Admitted)
    (igas value : UInt64) : Prop where
  kind_eq : TxKind.ofCode tx.kind = some a.kind
  igas_eq : acTxIntrinsicGas tx.kind = some igas
  gas_eq : a.neededGas = igas + UInt64.ofNat tx.memo.length
  gas_le : ¬ tx.gasLimit.toUInt64 < a.neededGas
  rate : ¬ (baseFee + tx.tip ≠ 0 ∧ u64Max / (baseFee + tx.tip) < tx.gasLimit.toUInt64)
  value_eq : transferValue a.kind tx.body = some value
  fits : ¬ u64Max - value < tx.gasLimit.toUInt64 * (baseFee + tx.tip)
  covered : ¬ a.sender.balance < tx.gasLimit.toUInt64 * (baseFee + tx.tip) + value
  sender_eq : a.sender = { (acStateGet s tx.sender).2 with
    nonce := (acStateGet s tx.sender).2.nonce + 1 }

theorem admitTx_admission {s : AcState} {tx : Tx} {slot baseFee : UInt64} {a : Admitted}
    (h : admitTx s tx slot baseFee = .ok a) :
    ∃ igas value, Admission s tx baseFee a igas value := by
  rw [admitTx] at h
  dsimp only at h
  cases hkind : TxKind.ofCode tx.kind with
  | none =>
    simp only [hkind] at h
    split_ifs at h
  | some kind =>
    cases hgas : acTxIntrinsicGas tx.kind with
    | none =>
      simp only [hkind, hgas] at h
      split_ifs at h
    | some igas =>
      cases hvalue : transferValue kind tx.body with
      | none =>
        simp only [hkind, hgas, hvalue] at h
        split_ifs at h
      | some value =>
        simp only [hkind, hgas, hvalue] at h
        split_ifs at h with h1 h2 h3 h4 hlow hover hbal
        obtain rfl := Except.ok.inj h
        rw [not_or] at hbal
        exact ⟨igas, value, hkind, hgas, rfl, hlow, hover, hvalue, hbal.1, hbal.2, rfl⟩

lemma chargeTx_ne_rejected (tx : Tx) (baseFee : UInt64) (o : BodyOutcome) :
    (chargeTx tx baseFee o).1 ≠ .rejected := by
  show (if o.err.isSome then ApplyRc.bodyFailed else .applied) ≠ .rejected
  split_ifs <;> decide

/-- A rejected transaction changes nothing. -/
theorem acStateApplyTx_rejected {s : AcState} {tx : Tx} {slot baseFee : UInt64}
    (h : (acStateApplyTx P s tx slot baseFee).1 = .rejected) :
    (acStateApplyTx P s tx slot baseFee).2.2 = s := by
  rcases acStateApplyTx_cases (P := P) s tx slot baseFee with ⟨err, -, he⟩ | ⟨a, -, he⟩
  · rw [he]
  · rw [he] at h
    exact absurd h (chargeTx_ne_rejected tx baseFee _)

/-- A body that failed: the store and the sender's record are as they were admitted. -/
structure BodyOutcome.Failed (s : AcState) (a : Admitted) (o : BodyOutcome) : Prop where
  state_eq : o.state = s
  sender_eq : o.sender = a.sender
  burned_eq : o.burned = 0
  err_some : o.err.isSome = true

lemma bodyFails_failed (s : AcState) (a : Admitted) (err : String) :
    (bodyFails s a err).Failed s a := ⟨rfl, rfl, rfl, rfl⟩

lemma applyTransfer_cases (s : AcState) (tx : Tx) (a : Admitted) :
    (applyTransfer s tx a).Failed s a ∨ ∃ b, acBodyTransferDecode tx.body = some b ∧
      applyTransfer s tx a =
        ⟨acStateSet s { (acStateGet s b.recipient).2 with
            addr := b.recipient
            balance := (acStateGet s b.recipient).2.balance + b.amount },
          { a.sender with balance := a.sender.balance - b.amount },
          a.neededGas + (if (acStateGet s b.recipient).1 then 0 else 50), 0, none⟩ := by
  rw [applyTransfer]
  cases acBodyTransferDecode tx.body with
  | none => exact Or.inl (bodyFails_failed s a _)
  | some b =>
    dsimp only
    by_cases h : tx.gasLimit.toUInt64 <
        a.neededGas + if (acStateGet s b.recipient).1 then 0 else 50
    · rw [if_pos h]
      exact Or.inl ⟨rfl, rfl, rfl, rfl⟩
    · rw [if_neg h]
      exact Or.inr ⟨b, rfl, rfl⟩

lemma applyStakeBond_cases (s : AcState) (tx : Tx) (a : Admitted) :
    (applyStakeBond s tx a).Failed s a ∨ ∃ amount, acBodyStakeDecode tx.body = some amount ∧
      ¬ a.sender.balance < amount ∧
      applyStakeBond s tx a = ⟨s, { a.sender with
        balance := a.sender.balance - amount
        stake := a.sender.stake + amount }, a.neededGas, 0, none⟩ := by
  rw [applyStakeBond]
  cases acBodyStakeDecode tx.body with
  | none => exact Or.inl (bodyFails_failed s a _)
  | some amount =>
    dsimp only
    split_ifs with h
    · exact Or.inl (bodyFails_failed s a _)
    · exact Or.inr ⟨amount, rfl, h, rfl⟩

lemma applyStakeUnbond_cases (s : AcState) (tx : Tx) (slot : UInt64) (a : Admitted) :
    (applyStakeUnbond s tx slot a).Failed s a ∨ ∃ amount unbondAt,
      acBodyStakeDecode tx.body = some amount ∧ ¬ a.sender.stake < amount ∧
      applyStakeUnbond s tx slot a = ⟨s, { a.sender with
        stake := a.sender.stake - amount
        balance := a.sender.balance + amount
        unbondAt := unbondAt }, a.neededGas, 0, none⟩ := by
  rw [applyStakeUnbond]
  cases acBodyStakeDecode tx.body with
  | none => exact Or.inl (bodyFails_failed s a _)
  | some amount =>
    dsimp only
    by_cases h : a.sender.stake < amount
    · rw [if_pos h]
      exact Or.inl (bodyFails_failed s a _)
    · rw [if_neg h]
      exact Or.inr ⟨amount, _, rfl, h, rfl⟩

lemma applyRegisterName_cases (s : AcState) (tx : Tx) (a : Admitted) :
    (applyRegisterName s tx a).Failed s a ∨ ∃ name t,
      acBodyNameDecode tx.body = some name ∧ ¬ a.sender.balance < nameFee ∧
      acStateNameRegister s name tx.sender = some t ∧
      applyRegisterName s tx a = ⟨t, { a.sender with
        balance := a.sender.balance - nameFee }, a.neededGas, nameFee, none⟩ := by
  rw [applyRegisterName]
  cases acBodyNameDecode tx.body with
  | none => exact Or.inl (bodyFails_failed s a _)
  | some name =>
    dsimp only
    by_cases h : a.sender.balance < nameFee
    · rw [if_pos h]
      exact Or.inl (bodyFails_failed s a _)
    · rw [if_neg h]
      cases ht : acStateNameRegister s name tx.sender with
      | none =>
        -- the refund gives back exactly what was taken
        have hrefund : a.sender.balance - nameFee + nameFee = a.sender.balance :=
          UInt64.sub_add_cancel _ _
        exact Or.inl ⟨rfl, congrArg (fun v => { a.sender with balance := v }) hrefund, rfl, rfl⟩
      | some t => exact Or.inr ⟨name, t, rfl, h, ht, rfl⟩

lemma applySlashEvidence_cases (s : AcState) (tx : Tx) (a : Admitted) :
    (applySlashEvidence P s tx a).Failed s a ∨ ∃ b, acBodySlashDecode tx.body = some b ∧
      b.blockHashA ≠ b.blockHashB ∧ slashSignaturesOk P b = true ∧
      (acStateGet s b.validator).2.stake ≠ 0 ∧
      applySlashEvidence P s tx a =
        ⟨acStateSet s { (acStateGet s b.validator).2 with stake := 0 },
          { a.sender with
            balance := a.sender.balance + (acStateGet s b.validator).2.stake / 2 },
          a.neededGas, 0, none⟩ := by
  rw [applySlashEvidence]
  cases acBodySlashDecode tx.body with
  | none => exact Or.inl (bodyFails_failed s a _)
  | some b =>
    dsimp only
    split_ifs with hne hsig hst
    · exact Or.inl (bodyFails_failed s a _)
    · exact Or.inl (bodyFails_failed s a _)
    · exact Or.inl (bodyFails_failed s a _)
    · exact Or.inr ⟨b, rfl, hne, by simpa using hsig, hst, rfl⟩

/-- What a body does when it does not fail. -/
inductive BodyDone (P : Platform) (s : AcState) (tx : Tx) (a : Admitted) : BodyOutcome → Prop
  | transfer (b : BodyTransfer) (hkind : a.kind = .transfer)
      (hbody : acBodyTransferDecode tx.body = some b) :
      BodyDone P s tx a
        ⟨acStateSet s { (acStateGet s b.recipient).2 with
            addr := b.recipient
            balance := (acStateGet s b.recipient).2.balance + b.amount },
          { a.sender with balance := a.sender.balance - b.amount },
          a.neededGas + (if (acStateGet s b.recipient).1 then 0 else 50), 0, none⟩
  | stakeBond (amount : UInt64) (hkind : a.kind = .stakeBond)
      (hbody : acBodyStakeDecode tx.body = some amount) (hle : ¬ a.sender.balance < amount) :
      BodyDone P s tx a ⟨s, { a.sender with
        balance := a.sender.balance - amount
        stake := a.sender.stake + amount }, a.neededGas, 0, none⟩
  | stakeUnbond (amount unbondAt : UInt64) (hkind : a.kind = .stakeUnbond)
      (hbody : acBodyStakeDecode tx.body = some amount) (hle : ¬ a.sender.stake < amount) :
      BodyDone P s tx a ⟨s, { a.sender with
        stake := a.sender.stake - amount
        balance := a.sender.balance + amount
        unbondAt := unbondAt }, a.neededGas, 0, none⟩
  | registerName (name : Bytes) (t : AcState) (hkind : a.kind = .registerName)
      (hbody : acBodyNameDecode tx.body = some name) (hle : ¬ a.sender.balance < nameFee)
      (hnew : acStateNameRegister s name tx.sender = some t) :
      BodyDone P s tx a ⟨t, { a.sender with balance := a.sender.balance - nameFee },
        a.neededGas, nameFee, none⟩
  | slashEvidence (b : BodySlash) (hkind : a.kind = .slashEvidence)
      (hbody : acBodySlashDecode tx.body = some b) (hne : b.blockHashA ≠ b.blockHashB)
      (hsig : slashSignaturesOk P b = true) (hstake : (acStateGet s b.validator).2.stake ≠ 0) :
      BodyDone P s tx a ⟨acStateSet s { (acStateGet s b.validator).2 with stake := 0 },
        { a.sender with balance := a.sender.balance + (acStateGet s b.validator).2.stake / 2 },
        a.neededGas, 0, none⟩

/-- **Bodies.**  A body fails, or it does what its kind says. -/
theorem applyBody_cases (s : AcState) (tx : Tx) (slot : UInt64) (a : Admitted) :
    (applyBody P s tx slot a).Failed s a ∨ BodyDone P s tx a (applyBody P s tx slot a) := by
  rw [applyBody]
  cases hk : a.kind with
  | transfer =>
    dsimp only
    rcases applyTransfer_cases s tx a with h | ⟨b, hb, h⟩
    · exact Or.inl h
    · exact Or.inr (h ▸ .transfer b hk hb)
  | stakeBond =>
    dsimp only
    rcases applyStakeBond_cases s tx a with h | ⟨amount, hb, hle, h⟩
    · exact Or.inl h
    · exact Or.inr (h ▸ .stakeBond amount hk hb hle)
  | stakeUnbond =>
    dsimp only
    rcases applyStakeUnbond_cases s tx slot a with h | ⟨amount, unbondAt, hb, hle, h⟩
    · exact Or.inl h
    · exact Or.inr (h ▸ .stakeUnbond amount unbondAt hk hb hle)
  | registerName =>
    dsimp only
    rcases applyRegisterName_cases s tx a with h | ⟨name, t, hb, hle, ht, h⟩
    · exact Or.inl h
    · exact Or.inr (h ▸ .registerName name t hk hb hle ht)
  | slashEvidence =>
    dsimp only
    rcases applySlashEvidence_cases (P := P) s tx a with h | ⟨b, hb, hne, hsig, hst, h⟩
    · exact Or.inl h
    · exact Or.inr (h ▸ .slashEvidence b hk hb hne hsig hst)

lemma applyBody_chainId (s : AcState) (tx : Tx) (slot : UInt64) (a : Admitted) :
    (applyBody P s tx slot a).state.chainId = s.chainId := by
  rcases applyBody_cases (P := P) s tx slot a with h | h
  · exact congrArg AcState.chainId h.state_eq
  · generalize applyBody P s tx slot a = o at h ⊢
    cases h with
    | registerName name t hkind hbody hle hnew => exact (acStateNameRegister_accounts hnew).2
    | _ => rfl

/-! ### Gas -/

lemma acTxIntrinsicGas_le {kind : UInt8} {igas : UInt64} (h : acTxIntrinsicGas kind = some igas) :
    igas.toNat ≤ 521 := by
  rw [acTxIntrinsicGas] at h
  split at h
  · exact Option.some.inj h ▸ by decide
  · exact Option.some.inj h ▸ by decide
  · exact Option.some.inj h ▸ by decide
  · exact Option.some.inj h ▸ by decide
  · exact Option.some.inj h ▸ by decide
  · cases h

/-- The gas that an admitted transaction needs: the largest intrinsic gas and a full memo. -/
lemma admitTx_neededGas_le {s : AcState} {tx : Tx} {slot baseFee : UInt64} {a : Admitted}
    (h : admitTx s tx slot baseFee = .ok a) : a.neededGas.toNat ≤ 1033 := by
  obtain ⟨igas, value, hadm⟩ := admitTx_admission h
  have hmemo := tx.memo_le
  have hmax : acMemoMax = 512 := rfl
  have hle := acTxIntrinsicGas_le hadm.igas_eq
  rw [hadm.gas_eq, UInt64.toNat_add,
    UInt64.toNat_ofNat_of_lt' (show tx.memo.length < 2 ^ 64 by omega)]
  exact (Nat.mod_le _ _).trans (by omega)

/-- The surcharge for a transfer to an address without an account. -/
def newAccountGas (s : AcState) (kind : TxKind) (body : Bytes) : UInt64 :=
  match kind, acBodyTransferDecode body with
  | .transfer, some b => if (acStateGet s b.recipient).1 then 0 else 50
  | _, _ => 0

lemma newAccountGas_le (s : AcState) (kind : TxKind) (body : Bytes) :
    (newAccountGas s kind body).toNat ≤ 50 := by
  rw [newAccountGas.eq_def]
  split
  · split_ifs <;> decide
  · decide

/-- The gas of a body, whether it fails or not. -/
lemma applyBody_chargedGas (s : AcState) (tx : Tx) (slot : UInt64) (a : Admitted) :
    (applyBody P s tx slot a).chargedGas = a.neededGas + newAccountGas s a.kind tx.body := by
  rw [applyBody, newAccountGas.eq_def]
  cases a.kind with
  | transfer =>
    simp only [applyTransfer]
    cases acBodyTransferDecode tx.body with
    | none => exact (UInt64.add_zero _).symm
    | some b =>
      dsimp only
      rw [apply_ite BodyOutcome.chargedGas, ite_self]
  | stakeBond =>
    simp only [applyStakeBond, UInt64.add_zero]
    cases acBodyStakeDecode tx.body with
    | none => rfl
    | some amount =>
      dsimp only
      split_ifs <;> rfl
  | stakeUnbond =>
    simp only [applyStakeUnbond, UInt64.add_zero]
    cases acBodyStakeDecode tx.body with
    | none => rfl
    | some amount =>
      dsimp only
      split_ifs <;> rfl
  | registerName =>
    simp only [applyRegisterName, UInt64.add_zero]
    split
    · rfl
    · split_ifs
      · rfl
      · split <;> rfl
  | slashEvidence =>
    simp only [applySlashEvidence, UInt64.add_zero]
    split
    · rfl
    · split_ifs <;> rfl

/-- The gas that an admitted transaction pays for. -/
lemma actualGas_applyBody_le {s : AcState} {tx : Tx} {slot baseFee : UInt64} {a : Admitted}
    (h : admitTx s tx slot baseFee = .ok a) :
    (actualGas tx (applyBody P s tx slot a)).toNat ≤ 1083 := by
  have hneed := admitTx_neededGas_le h
  have hnew := newAccountGas_le s a.kind tx.body
  have hgas := (actualGas_le tx (applyBody P s tx slot a)).2
  rw [applyBody_chargedGas, UInt64.toNat_add, Nat.mod_eq_of_lt (by omega)] at hgas
  exact hgas.trans (by omega)

/-- **Gas of one transaction.** -/
theorem acStateApplyTx_gasUsed_le (s : AcState) (tx : Tx) (slot baseFee : UInt64) :
    (acStateApplyTx P s tx slot baseFee).2.1.gasUsed.toNat ≤ 1083 := by
  rcases acStateApplyTx_cases (P := P) s tx slot baseFee with ⟨err, -, he⟩ | ⟨a, ha, he⟩
  · rw [he]
    exact Nat.zero_le _
  · rw [he]
    exact actualGas_applyBody_le ha

/-- A transaction never changes the chain id, so a snapshot taken before it can be restored
after it. -/
theorem acStateApplyTx_chainId (s : AcState) (tx : Tx) (slot baseFee : UInt64) :
    (acStateApplyTx P s tx slot baseFee).2.2.chainId = s.chainId := by
  rcases acStateApplyTx_cases (P := P) s tx slot baseFee with ⟨err, -, he⟩ | ⟨a, -, he⟩
  · rw [he]
  · rw [he]
    exact applyBody_chainId s tx slot a

end Transition

end AgentChain
