import AgentChain.Mempool
import AgentChain.Payment

/-!
# Pooled transactions in blocks

`ac_mempool_add` and `ac_state_apply_tx` check a transaction in the same respects, but they are
written apart.  The pool compares the chain with its own identifier, computes the fee and its sum
with the value modulo `2 ^ 64`, and takes every body of a transfer; the state transition has its
own identifier, guards both sums against overflow and wants a body of 40 bytes.  A pooled
transaction can be included right away exactly when these points agree
(`pooled_tx_includable_iff`).
-/

namespace AgentChain

/-! ### Two readings of a body -/

/-- `ac_body_transfer_decode` takes the bodies of 40 bytes. -/
lemma acBodyTransferDecode_amount (body : Bytes) :
    (acBodyTransferDecode body).map BodyTransfer.amount =
      if body.length = 40 then some (acRd64 (body.drop 32)) else none := by
  by_cases hlen : body.length = 40
  · obtain ⟨recipient, rest, rfl⟩ := exists_arr_append (show 32 ≤ body.length by omega)
    rw [List.length_append, recipient.length_bytes] at hlen
    have htail : rest.length = 8 := by omega
    rw [if_pos (by rw [List.length_append, recipient.length_bytes]; omega)]
    simp [acBodyTransferDecode, rgetU64, rget, acRd64, htail]
  · rw [if_neg hlen, Option.map_eq_none_iff, acBodyTransferDecode, if_pos]
    by_contra hread
    -- two reads without an error that leave nothing behind
    rw [not_or, Bool.not_eq_true, not_not] at hread
    obtain ⟨herr, hrest⟩ := rgetU64_inv hread.1
    obtain ⟨-, hbody⟩ := rgetArr_inv herr
    rw [hrest, hread.2, List.append_nil] at hbody
    have hcount := congrArg List.length hbody
    rw [List.length_append, ByteArr.length_bytes, length_beEncode] at hcount
    exact hlen hcount

/-- The value that the state transition reads is that of the pool, except for the bodies that it
rejects. -/
lemma transferValue_eq {tx : Tx} {kind : TxKind} (hkind : TxKind.ofCode tx.kind = some kind) :
    transferValue kind tx.body =
      if kind = .transfer ∧ tx.body.length ≠ 40 then none else some (mpValue tx) := by
  rw [mpValue, hkind]
  cases kind with
  | transfer =>
    rw [transferValue, acBodyTransferDecode_amount]
    by_cases hlen : tx.body.length = 40
    · simp [hlen]
    · simp [hlen]
  | _ => simp [transferValue]

/-! ### The fee -/

/-- The two overflow guards of `ac_state_apply_tx` in unbounded integers. -/
lemma fee_fits_iff {gas rate value : UInt64} :
    ¬ (rate ≠ 0 ∧ u64Max / rate < gas) ∧ ¬ u64Max - value < gas * rate ↔
      gas.toNat * rate.toNat + value.toNat < 2 ^ 64 := by
  have hmax : u64Max.toNat = 2 ^ 64 - 1 := rfl
  have hvalue := value.toNat_lt
  have hsub : (u64Max - value).toNat = 2 ^ 64 - 1 - value.toNat := by
    rw [UInt64.toNat_sub_of_le _ _ (by rw [UInt64.le_iff_toNat_le]; omega), hmax]
  have hfits : gas.toNat * rate.toNat < 2 ^ 64 →
      (¬ u64Max - value < gas * rate ↔ gas.toNat * rate.toNat + value.toNat < 2 ^ 64) := by
    intro hlt
    rw [UInt64.lt_iff_toNat_lt, hsub, UInt64.toNat_mul, Nat.mod_eq_of_lt hlt]
    omega
  constructor
  · rintro ⟨hrate, hsum⟩
    exact (hfits (mul_lt_of_le_div hrate)).mp hsum
  · intro hlt
    refine ⟨?_, (hfits (by omega)).mpr hlt⟩
    rintro ⟨hzero, hdiv⟩
    have hpos : 0 < rate.toNat := by
      rw [Nat.pos_iff_ne_zero]
      exact fun h => hzero (UInt64.toNat_inj.mp h)
    rw [UInt64.lt_iff_toNat_lt, UInt64.toNat_div, Nat.div_lt_iff_lt_mul hpos, hmax] at hdiv
    omega

/-! ### Admission -/

section Admission

variable {P : Platform} {mp : Mempool} {s : AcState} {tx : Tx} {slot : UInt64}

/-- What the checks of the pool have established about a transaction. -/
structure Screened (P : Platform) (mp : Mempool) (s : AcState) (tx : Tx)
    (slot : UInt64) : Prop where
  chain_eq : tx.chainId = mp.chainId
  version_eq : tx.version = acTxVersion
  known : acTxIntrinsicGas tx.kind ≠ none
  valid : ¬ tx.validUntil ≤ slot
  gas_le : ¬ tx.gasLimit.toUInt64 < acTxTotalGas tx
  signed : acTxVerify P tx = true
  nonce_eq : tx.nonce = (acStateGet s tx.sender).2.nonce
  funds : ¬ (acStateGet s tx.sender).2.balance <
    tx.gasLimit.toUInt64 * (acMinBaseFee + tx.tip) + mpValue tx

lemma screened_of_mpRefusal (h : mpRefusal P mp s tx slot = none) : Screened P mp s tx slot := by
  rw [mpRefusal] at h
  dsimp only at h
  split_ifs at h with hchain hversion hkind hvalid hgas hsig hnonce hfunds
  exact ⟨not_not.mp hchain, not_not.mp hversion, hkind, hvalid, hgas, by simpa using hsig,
    not_not.mp hnonce, hfunds⟩

lemma screened_of_accepted {realloc : Bool}
    (h : (acMempoolAdd P realloc mp s tx slot).1 = .accepted) : Screened P mp s tx slot := by
  rw [acMempoolAdd] at h
  cases hrefusal : mpRefusal P mp s tx slot with
  | some r =>
    rw [hrefusal] at h
    exact absurd h (mpRefusal_ne_accepted hrefusal)
  | none => exact screened_of_mpRefusal hrefusal

/-- The checks of the state transition that are left behind those of the pool. -/
lemma Screened.admitTx_eq (h : Screened P mp s tx slot) (hchain : s.chainId = mp.chainId) :
    ∃ kind, TxKind.ofCode tx.kind = some kind ∧ ∃ a, admitTx s tx slot acMinBaseFee =
      if acMinBaseFee + tx.tip ≠ 0 ∧ u64Max / (acMinBaseFee + tx.tip) < tx.gasLimit.toUInt64 then
        .error "fee overflow"
      else if kind = .transfer ∧ tx.body.length ≠ 40 then .error "bad body"
      else if u64Max - mpValue tx < tx.gasLimit.toUInt64 * (acMinBaseFee + tx.tip) then
        .error "insufficient balance"
      else .ok a := by
  obtain ⟨igas, higas⟩ := Option.ne_none_iff_exists'.mp h.known
  cases hkind : TxKind.ofCode tx.kind with
  | none => exact absurd higas (by simp [acTxIntrinsicGas, hkind])
  | some kind =>
    have hgas : ¬ tx.gasLimit.toUInt64 < igas + UInt64.ofNat tx.memo.length := by
      simpa only [acTxTotalGas, higas] using h.gas_le
    refine ⟨kind, rfl, ⟨kind, { (acStateGet s tx.sender).2 with
      nonce := (acStateGet s tx.sender).2.nonce + 1 }, igas + UInt64.ofNat tx.memo.length⟩, ?_⟩
    rw [admitTx, if_neg (not_not.mpr h.version_eq),
      if_neg (not_not.mpr (h.chain_eq.trans hchain.symm)),
      if_neg h.valid]
    dsimp only
    rw [if_neg (not_not.mpr h.nonce_eq), hkind, higas]
    dsimp only
    rw [if_neg hgas, transferValue_eq hkind]
    by_cases hbody : kind = .transfer ∧ tx.body.length ≠ 40
    · rw [if_pos hbody, if_pos hbody]
    · simp only [if_neg hbody, h.funds, or_false]

/-- The admission checks of the state transition behind those of the pool. -/
lemma Screened.admitTx_isOk_iff (h : Screened P mp s tx slot) :
    (∃ a, admitTx s tx slot acMinBaseFee = .ok a) ↔
      s.chainId = mp.chainId ∧
        (TxKind.ofCode tx.kind = some .transfer → tx.body.length = 40) ∧
        tx.gasLimit.toNat * (acMinBaseFee + tx.tip).toNat + (mpValue tx).toNat < 2 ^ 64 := by
  by_cases hchain : s.chainId = mp.chainId
  swap
  · refine iff_of_false ?_ fun hall => hchain hall.1
    rintro ⟨a, ha⟩
    rw [admitTx, if_neg (not_not.mpr h.version_eq),
      if_pos fun heq => hchain (heq.symm.trans h.chain_eq)] at ha
    cases ha
  obtain ⟨kind, hkind, a, heq⟩ := h.admitTx_eq hchain
  have hfits := @fee_fits_iff tx.gasLimit.toUInt64 (acMinBaseFee + tx.tip) (mpValue tx)
  rw [UInt32.toNat_toUInt64] at hfits
  rw [heq, hkind, ← hfits, Option.some.injEq]
  split_ifs with hrate hbody hsum
  · exact iff_of_false (by simp) fun hall => hall.2.2.1 hrate
  · exact iff_of_false (by simp) fun hall => hbody.2 (hall.2.1 hbody.1)
  · exact iff_of_false (by simp) fun hall => hall.2.2.2 hsum
  · refine iff_of_true ⟨a, rfl⟩ ⟨hchain, fun htransfer => ?_, hrate, hsum⟩
    by_contra hlen
    exact hbody ⟨htransfer, hlen⟩

/-- **Pooled transactions.**  A transaction that the pool accepts is included by the state
transition, on the same state, at the same slot and at the lowest base fee, exactly when the pool
has the chain identifier of the state, a transfer has a body of 40 bytes, and the largest fee and
the value are below `2 ^ 64`. -/
theorem pooled_tx_includable_iff (P : Platform) (realloc : Bool) (mp : Mempool) (s : AcState)
    (tx : Tx) (slot : UInt64) (h : (acMempoolAdd P realloc mp s tx slot).1 = .accepted) :
    (acStateApplyTx P s tx slot acMinBaseFee).1 ≠ .rejected ↔
      s.chainId = mp.chainId ∧
        (TxKind.ofCode tx.kind = some .transfer → tx.body.length = 40) ∧
        tx.gasLimit.toNat * (acMinBaseFee + tx.tip).toNat + (mpValue tx).toNat < 2 ^ 64 := by
  rw [← (screened_of_accepted h).admitTx_isOk_iff]
  rcases acStateApplyTx_cases (P := P) s tx slot acMinBaseFee with ⟨err, herr, he⟩ | ⟨a, ha, he⟩
  · refine iff_of_false (not_not.mpr (by rw [he])) ?_
    rintro ⟨a, ha⟩
    rw [herr] at ha
    cases ha
  · rw [he]
    exact iff_of_true (chargeTx_ne_rejected tx acMinBaseFee _) ⟨a, ha⟩

end Admission

/-- A transfer with a small tip is included. -/
theorem pooled_tx_includable_small :
    (acMempoolAdd reference true (acMempoolNew 1) (genesisState referenceGenesis)
      (pooledTx 3) 1).1 =
        .accepted ∧
      (acStateApplyTx reference (genesisState referenceGenesis) (pooledTx 3) 1 acMinBaseFee).1 ≠
        .rejected := by
  have hfacts : (acMempoolAdd reference true (acMempoolNew 1) (genesisState referenceGenesis)
        (pooledTx 3) 1).1 = .accepted ∧
      (genesisState referenceGenesis).chainId = (acMempoolNew 1).chainId ∧
      (pooledTx 3).body.length = 40 ∧
      (pooledTx 3).gasLimit.toNat * (acMinBaseFee + (pooledTx 3).tip).toNat +
        (mpValue (pooledTx 3)).toNat < 2 ^ 64 := by
    decide +kernel
  obtain ⟨hacc, hchain, hlen, hfits⟩ := hfacts
  exact ⟨hacc, (pooled_tx_includable_iff reference true (acMempoolNew 1)
    (genesisState referenceGenesis) (pooledTx 3) 1 hacc).mpr ⟨hchain, fun _ => hlen, hfits⟩⟩

/-! ### Transactions that no block can include -/

/-- A transfer whose fee wraps around to zero: the rate is `2 ^ 63` and the gas limit is even. -/
def wrappedFeeTx : Tx := pooledTx 9223372036854775807

/-- A transfer without a body. -/
def bodilessTx : Tx :=
  signTx reference ⟨acTxVersion, 1, 0x01, (referenceKey 1).pk, 0, 1000, 3, 1000000, [], [],
    ByteArr.fill 64 0, nil_body_le, nil_memo_le⟩ (referenceKey 1)

/-- The pool with both of them. -/
def cloggedPool : Mempool :=
  (acMempoolAdd reference true (acMempoolAdd reference true (acMempoolNew 1)
    (genesisState referenceGenesis) wrappedFeeTx 1).2 (genesisState referenceGenesis)
    bodilessTx 1).2

/-- **Accepted and never included.**  Both transactions are accepted, the state transition
rejects both, and they are what the next block is built from. -/
theorem pooled_tx_rejected :
    (acMempoolAdd reference true (acMempoolNew 1) (genesisState referenceGenesis) wrappedFeeTx
      1).1 = .accepted ∧
    (acStateApplyTx reference (genesisState referenceGenesis) wrappedFeeTx 1 acMinBaseFee).1 =
      .rejected ∧
    (acMempoolAdd reference true (acMempoolNew 1) (genesisState referenceGenesis) bodilessTx 1).1 =
      .accepted ∧
    (acStateApplyTx reference (genesisState referenceGenesis) bodilessTx 1 acMinBaseFee).1 =
      .rejected ∧
    cloggedPool.candidates.txs = [wrappedFeeTx, bodilessTx] ∧
    (buildTxs reference 1 acMinBaseFee (genesisState referenceGenesis)
      cloggedPool.candidates.txs).kept = [] := by
  decide +kernel

end AgentChain
