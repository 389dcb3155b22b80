import AgentChain.Builder
import AgentChain.QuorumIntersection

/-!
# Blocks with many large transactions

The builder takes at most 256 candidates, but a validator accepts up to 4096 transactions in a
block, from any proposer.  This file has a chain with one validator and, for every number of
transactions, a block that this validator may propose: bonds with a body of the wrong length and
a long memo, which are charged and change nothing else.  The block is accepted with the vote of
the validator (`bulkSealed_accepted`).
-/

namespace AgentChain

/-! ### The transactions -/

/-- The only validator. -/
def bulkKey : Keypair := referenceKey 1

/-- A body that is no amount. -/
def bulkBody : Bytes := List.replicate 512 0

/-- A memo of 511 bytes. -/
def bulkMemo : Bytes := List.replicate 511 0

lemma bulkBody_le : bulkBody.length ≤ acTxBodyMax := by
  rw [bulkBody, List.length_replicate]
  exact le_rfl

lemma bulkMemo_le : bulkMemo.length ≤ acMemoMax := by
  rw [bulkMemo, List.length_replicate]
  decide

/-- A bond that fails, before it is signed. -/
def plainBulkTx (k : ℕ) : Tx :=
  ⟨acTxVersion, 1, 0x02, bulkKey.pk, UInt64.ofNat k, 562, 0, 1000000, bulkBody, bulkMemo,
    ByteArr.fill 64 0, bulkBody_le, bulkMemo_le⟩

/-- Transaction number `k` of the validator. -/
def bulkTx (k : ℕ) : Tx := signTx reference (plainBulkTx k) bulkKey

/-- The first `n` transactions of the validator. -/
def bulkTxs (n : ℕ) : List Tx := (List.range n).map bulkTx

lemma length_bulkTxs (n : ℕ) : (bulkTxs n).length = n := by
  rw [bulkTxs, List.length_map, List.length_range]

/-- Signing fills in the signature. -/
lemma signTx_eq (P : Platform) (tx : Tx) (kp : Keypair) : signTx P tx kp =
    { tx with
      sig := acSign P (acHash P (ascii "AGCH:TX:v1" :: txBodyChunks tx).flatten).bytes kp } := by
  have hsign : ∀ o, acTxSignableBytes acTxMaxBytes tx = some o →
      signTx P tx kp = { tx with sig := acSign P (acHash P o).bytes kp } := by
    intro o ho
    delta signTx
    rw [ho]
  exact hsign _ (acTxSignableBytes_eq tx)

/-- What the signed transaction says. -/
lemma bulkTx_fields (k : ℕ) : (bulkTx k).kind = 0x02 ∧ (bulkTx k).body = bulkBody ∧
    (bulkTx k).gasLimit = 562 ∧ (bulkTx k).tip = 0 ∧ (bulkTx k).sender = bulkKey.pk := by
  rw [bulkTx, signTx_eq]
  exact ⟨rfl, rfl, rfl, rfl, rfl⟩

lemma acTxVerify_signTx {P : Platform} {kp : Keypair} (h : kp.Valid P) (tx : Tx)
    (hsender : tx.sender = kp.pk) : acTxVerify P (signTx P tx kp) = true := by
  have hsig := h (acHash P (ascii "AGCH:TX:v1" :: txBodyChunks tx).flatten).bytes
  rw [← hsender] at hsig
  rw [signTx_eq, acTxVerify_eq]
  exact hsig

lemma length_txBytes_bulkTx (k : ℕ) : (txBytes (bulkTx k)).length = 1165 := by
  rw [length_txBytes, bulkTx, signTx_eq]
  simp only [plainBulkTx, bulkBody, bulkMemo, List.length_replicate]

/-! ### Applying them -/

section Apply

variable {s : AcState} {k : ℕ}

/-- The transaction is admitted when it is next and its gas can be paid. -/
lemma admitTx_bulkTx (hchain : s.chainId = 1)
    (hnonce : (acStateGet s bulkKey.pk).2.nonce = UInt64.ofNat k)
    (hbal : 562 ≤ (acStateGet s bulkKey.pk).2.balance.toNat) :
    admitTx s (bulkTx k) 1 acMinBaseFee = .ok ⟨.stakeBond, { (acStateGet s bulkKey.pk).2 with
      nonce := (acStateGet s bulkKey.pk).2.nonce + 1 }, 562⟩ := by
  have hgas : (51 : UInt64) + UInt64.ofNat bulkMemo.length = 562 := by
    rw [bulkMemo, List.length_replicate]
    rfl
  have hfee : (562 : UInt32).toUInt64 * (acMinBaseFee + 0) = 562 := rfl
  have hcovered : ¬ (acStateGet s bulkKey.pk).2.balance < 562 + 0 := by
    rw [UInt64.lt_iff_toNat_lt]
    exact not_lt.mpr hbal
  have hexpired : ¬ (1000000 : UInt64) ≤ 1 := by decide
  have hnext : ¬ UInt64.ofNat k ≠ (acStateGet s bulkKey.pk).2.nonce := not_not.mpr hnonce.symm
  have hlow : ¬ (562 : UInt32).toUInt64 < 562 := by decide
  have hrate : ¬ (acMinBaseFee + 0 ≠ 0 ∧
      u64Max / (acMinBaseFee + 0) < (562 : UInt32).toUInt64) := by
    decide
  have hfits : ¬ u64Max - 0 < 562 := by decide
  have hkind : TxKind.ofCode 0x02 = some .stakeBond := rfl
  have higas : acTxIntrinsicGas 0x02 = some 51 := rfl
  have hvalue : transferValue .stakeBond bulkBody = some 0 := rfl
  rw [bulkTx, signTx_eq, admitTx]
  simp only [plainBulkTx, hchain, hkind, higas, hgas, hfee, hvalue]
  rw [if_neg (not_not.mpr rfl), if_neg (not_not.mpr rfl), if_neg hexpired, if_neg hnext,
    if_neg hlow, if_neg hrate, if_neg (not_or.mpr ⟨hfits, hcovered⟩)]

/-- The account of the validator behind one of the transactions. -/
def bulkPaid (acc : Account) : Account :=
  { acc with addr := bulkKey.pk, nonce := acc.nonce + 1, balance := acc.balance - 562 }

/-- It is charged 562 µCRD, and its body fails. -/
lemma acStateApplyTx_bulkTx (hchain : s.chainId = 1)
    (hnonce : (acStateGet s bulkKey.pk).2.nonce = UInt64.ofNat k)
    (hbal : 562 ≤ (acStateGet s bulkKey.pk).2.balance.toNat) :
    ∃ r : ApplyResult, r.gasUsed = 562 ∧ r.feeTip = 0 ∧
      acStateApplyTx reference s (bulkTx k) 1 acMinBaseFee =
        (.bodyFailed, r, acStateSet s (bulkPaid (acStateGet s bulkKey.pk).2)) := by
  have hadmit := admitTx_bulkTx hchain hnonce hbal
  have hlen : bulkBody.length ≠ 8 := by
    rw [bulkBody, List.length_replicate]
    decide
  have hpays : ¬ (acStateGet s bulkKey.pk).2.balance < 562 := by
    rw [UInt64.lt_iff_toNat_lt]
    exact not_lt.mpr hbal
  obtain ⟨-, hbody, hlimit, htip, hsender⟩ := bulkTx_fields k
  generalize ha : (⟨.stakeBond, _, 562⟩ : Admitted) = a at hadmit
  have hbal' : a.sender.balance = (acStateGet s bulkKey.pk).2.balance := by rw [← ha]
  have hfails : applyBody reference s (bulkTx k) 1 a = bodyFails s a "bad body" := by
    rw [← ha, applyBody, applyStakeBond, acBodyStakeDecode, hbody, if_pos hlen]
  have hgas : actualGas (bulkTx k) (bodyFails s a "bad body") = 562 := by
    rw [actualGas, hlimit, ← ha]
    rfl
  have hfee : chargedFee (bulkTx k) acMinBaseFee (bodyFails s a "bad body") = 562 := by
    rw [chargedFee, hgas, htip]
    refine if_neg ?_
    show ¬ a.sender.balance < 562
    rw [hbal']
    exact hpays
  refine ⟨(chargeTx (bulkTx k) acMinBaseFee (bodyFails s a "bad body")).2.1, hgas, ?_, ?_⟩
  · show actualGas (bulkTx k) (bodyFails s a "bad body") * (bulkTx k).tip = 0
    rw [hgas, htip]
    rfl
  · rw [acStateApplyTx, hadmit]
    dsimp only
    rw [hfails]
    refine Prod.ext rfl (Prod.ext rfl ?_)
    rw [chargeTx, hfee, hsender, ← ha]
    rfl

/-- The record of the validator behind one of the transactions. -/
lemma acStateGet_bulkPaid (s : AcState) (acc : Account) :
    (acStateGet (acStateSet s (bulkPaid acc)) bulkKey.pk).2 = bulkPaid acc := by
  rw [acStateGet_set_snd, if_pos (show bulkKey.pk = (bulkPaid acc).addr from rfl)]

/-- One round of the loop over the transactions. -/
lemma applyTxs_bulkTx {l : TxLoop} (hchain : l.state.chainId = 1)
    (hnonce : (acStateGet l.state bulkKey.pk).2.nonce = UInt64.ofNat k)
    (hbal : 562 ≤ (acStateGet l.state bulkKey.pk).2.balance.toNat)
    (hgas : (l.totalGas + 562).toNat ≤ 30000000) (txs : List Tx) :
    applyTxs reference 1 acMinBaseFee (bulkTx k :: txs) l =
      applyTxs reference 1 acMinBaseFee txs ⟨l.ok, l.totalGas + 562, l.totalTips,
        acStateSet l.state (bulkPaid (acStateGet l.state bulkKey.pk).2)⟩ := by
  obtain ⟨r, hused, htip, happly⟩ := acStateApplyTx_bulkTx hchain hnonce hbal
  have hverify : acTxVerify reference (bulkTx k) = true :=
    acTxVerify_signTx (reference_valid bulkKey) (plainBulkTx k) rfl
  have hroom : ¬ acBlockGasLimit < l.totalGas + 562 := by
    rw [UInt64.lt_iff_toNat_lt]
    exact not_lt.mpr hgas
  rw [applyTxs, hverify, happly]
  dsimp only
  rw [hused, htip, UInt64.add_zero, if_neg (by simp), if_neg (by simp), if_neg hroom]

/-- What the loop over the transactions leaves. -/
structure Charged (l r : TxLoop) (n : ℕ) : Prop where
  ok : r.ok = l.ok
  stake_eq : (acStateGet r.state bulkKey.pk).2.stake = (acStateGet l.state bulkKey.pk).2.stake
  names_eq : r.state.names = l.state.names
  accounts_le : r.state.accounts.length ≤ l.state.accounts.length + n

/-- The loop passes all transactions from number `k` on: each is next when it is its turn, and
the gas of 4096 of them is far below the limit. -/
lemma applyTxs_bulk (n k : ℕ) {l : TxLoop} (hchain : l.state.chainId = 1)
    (hnonce : (acStateGet l.state bulkKey.pk).2.nonce = UInt64.ofNat k)
    (hbal : 562 * n ≤ (acStateGet l.state bulkKey.pk).2.balance.toNat)
    (hgas : l.totalGas.toNat + 562 * n ≤ 30000000) :
    Charged l (applyTxs reference 1 acMinBaseFee ((List.range' k n).map bulkTx) l) n := by
  induction n generalizing k l with
  | zero => exact ⟨rfl, rfl, rfl, le_rfl⟩
  | succ n ih =>
    have hone : 562 ≤ (acStateGet l.state bulkKey.pk).2.balance.toNat :=
      (Nat.le_mul_of_pos_right 562 n.succ_pos).trans hbal
    have h562 : (562 : UInt64).toNat = 562 := rfl
    have hsum : (l.totalGas + 562).toNat = l.totalGas.toNat + 562 := by
      rw [UInt64.toNat_add, h562]
      omega
    have hget := acStateGet_bulkPaid l.state (acStateGet l.state bulkKey.pk).2
    have hlen := length_acStateSet_le l.state (bulkPaid (acStateGet l.state bulkKey.pk).2)
    have hrest := @ih (k + 1) ⟨l.ok, l.totalGas + 562, l.totalTips,
      acStateSet l.state (bulkPaid (acStateGet l.state bulkKey.pk).2)⟩
      ((acStateSet_chainId _ _).trans hchain) ?nonce ?balance ?gas
    case nonce =>
      dsimp only
      rw [hget, bulkPaid, hnonce]
      simp
    case balance =>
      have hpaid : (bulkPaid (acStateGet l.state bulkKey.pk).2).balance.toNat =
          (acStateGet l.state bulkKey.pk).2.balance.toNat - 562 :=
        UInt64.toNat_sub_of_le _ _ (UInt64.le_iff_toNat_le.mpr hone)
      dsimp only
      rw [hget, hpaid]
      exact Nat.le_sub_of_add_le (Nat.mul_succ 562 n ▸ hbal)
    case gas =>
      dsimp only
      rw [hsum, Nat.add_assoc, Nat.add_comm 562, ← Nat.mul_succ]
      exact hgas
    rw [List.range'_succ, List.map_cons, applyTxs_bulkTx hchain hnonce hone (by omega)]
    refine ⟨hrest.ok, hrest.stake_eq.trans ?_, hrest.names_eq, hrest.accounts_le.trans ?_⟩
    · dsimp only
      rw [hget]
      rfl
    · dsimp only
      omega

end Apply

/-! ### The chain and its block -/

/-- The validator with enough to pay for the transactions. -/
def bulkGenesis : Genesis := ⟨1, 1, [⟨bulkKey.pk, 1000000000, 400000000⟩]⟩

/-- The chain at genesis. -/
def bulkChain : Chain := openedChain bulkGenesis

/-- What the genesis has. -/
structure BulkStart : Prop where
  opens : (acChainOpen reference .all .empty (some bulkGenesis)).isSome = true
  account : acStateGet bulkChain.state bulkKey.pk =
    (true, ⟨bulkKey.pk, 1000000000, 0, 400000000, 0⟩)
  chainId : bulkChain.state.chainId = 1
  names : bulkChain.state.names = []
  accounts : bulkChain.state.accounts.length = 2
  height : bulkChain.height = 0
  lastSlot : bulkChain.lastSlot = 0
  genesisTimestampMs : bulkChain.genesisTimestampMs = 1
  liveMap : bulkChain.liveMap = [⟨bulkKey.pk, 0⟩]
  sqrtStake : acIsqrtU64 400000000 = 20000
  total : acChainTotalSqrtStake bulkChain = 20000
  live : acChainLiveSqrtStake bulkChain = 20000

lemma bulkStart : BulkStart := by
  constructor <;> decide +kernel

/-- The transaction loop over the block. -/
def bulkRun (n : ℕ) : TxLoop :=
  applyTxs reference 1 acMinBaseFee (bulkTxs n) ⟨true, 0, 0, bulkChain.state⟩

/-- The variables of a builder that has kept all the transactions. -/
def bulkLoop (n : ℕ) : BuildLoop :=
  ⟨bulkTxs n, (bulkRun n).totalGas, (bulkRun n).totalTips, (bulkRun n).state⟩

/-- The header with which the validator proposes the transactions in the first slot. -/
def bulkHeader (n : ℕ) : BlockHeader :=
  builtHeader reference bulkChain 1 bulkKey.pk
    (acVrfProve reference (leaderAlpha (computeEpochSeed reference bulkChain (acEpochOf 1)) 1)
      bulkKey)
    (buildBaseFee bulkChain) (bulkLoop n)

lemma bulkHeader_height (n : ℕ) : (bulkHeader n).height = 1 := by
  show bulkChain.height + 1 = 1
  rw [bulkStart.height]
  rfl

lemma bulk_txCount_eq {n : ℕ} (h : n ≤ 4096) :
    (bulkTxs n).length = (bulkHeader n).txCount.toNat := by
  show (bulkTxs n).length = (UInt32.ofNat (bulkTxs n).length).toNat
  rw [length_bulkTxs]
  exact (UInt32.toNat_ofNat_of_lt' (h.trans_lt (by decide))).symm

lemma bulk_txs_le {n : ℕ} (h : n ≤ 4096) : (bulkTxs n).length ≤ acBlockMaxTxs := by
  rw [length_bulkTxs]
  exact h

lemma nil_signers_le : ([] : List CommitSigner).length ≤ acCommitteeMax := Nat.zero_le _

/-- The proposal. -/
def bulkBlock (n : ℕ) (h : n ≤ 4096) : Block where
  header := bulkHeader n
  txs := bulkTxs n
  signers := []
  txCount_eq := bulk_txCount_eq h
  txs_le := bulk_txs_le h
  signers_le := nil_signers_le

/-- The vote of the validator. -/
def bulkVote (n : ℕ) : CommitSigner := voteOf reference bulkChain (bulkHeader n) bulkKey

lemma bulkVote_le (n : ℕ) : [bulkVote n].length ≤ acCommitteeMax := by
  rw [List.length_singleton]
  decide

/-- The block with the vote. -/
def bulkSealed (n : ℕ) (h : n ≤ 4096) : Block :=
  (bulkBlock n h).withSigners [bulkVote n] (bulkVote_le n)

lemma bulkBlock_txs (n : ℕ) (h : n ≤ 4096) : (bulkBlock n h).txs = bulkTxs n := rfl

/-- The vote changes neither the header nor the transactions. -/
lemma bulkSealed_eq (n : ℕ) (h : n ≤ 4096) : (bulkSealed n h).header = (bulkBlock n h).header ∧
    (bulkSealed n h).txs = (bulkBlock n h).txs := ⟨rfl, rfl⟩

/-- A block of these transactions has the size of its header, its transactions and its
certificate. -/
lemma length_blockBytes_bulk {b : Block} {n : ℕ} (h : b.txs = bulkTxs n) :
    (blockBytes b).length = 249 + 1165 * n + 160 * b.signers.length := by
  have htxs : ((bulkTxs n).flatMap txBytes).length = 1165 * n := by
    rw [List.length_flatMap, List.map_congr_left (g := fun _ => 1165), List.map_const',
      List.sum_replicate, length_bulkTxs, smul_eq_mul, Nat.mul_comm]
    intro tx htx
    obtain ⟨k, -, rfl⟩ := List.mem_map.mp htx
    exact length_txBytes_bulkTx k
  rw [length_blockBytes, h, htxs]

section Accepted

variable {n : ℕ} {c : Chain}

lemma bulkRun_charged (h : n ≤ 4096) : Charged ⟨true, 0, 0, bulkChain.state⟩ (bulkRun n) n := by
  have hget := bulkStart.account
  rw [bulkRun, bulkTxs, List.range_eq_range']
  have hbal : (1000000000 : UInt64).toNat = 1000000000 := rfl
  have hgas : (0 : UInt64).toNat = 0 := rfl
  refine applyTxs_bulk n 0 bulkStart.chainId ?_ ?_ ?_
  · dsimp only
    rw [hget]
    rfl
  · dsimp only
    rw [hget]
    dsimp only
    omega
  · dsimp only
    omega

lemma bulkLoop_keptApplied (h : n ≤ 4096) :
    KeptApplied reference 1 (buildBaseFee bulkChain) bulkChain.state (bulkLoop n) := by
  have hfee : buildBaseFee bulkChain = acMinBaseFee := if_pos bulkStart.height
  have hok : (bulkRun n).ok = true := (bulkRun_charged h).ok
  refine ⟨?_⟩
  rw [hfee]
  show bulkRun n = ⟨true, (bulkRun n).totalGas, (bulkRun n).totalTips, (bulkRun n).state⟩
  rw [← hok]

/-- A state without names and with few accounts is granted its snapshot. -/
lemma reference_serialize {s : AcState} (ha : s.accounts.length ≤ 5000) (hn : s.names = []) :
    (acStateSerialize reference s).isSome = true := by
  have hcap : snapshotCap s < 2 ^ 38 := by
    have hmagic : stateMagic.length = 17 := by decide
    rw [snapshotCap, hn, hmagic, List.length_nil]
    omega
  have hgranted : acStateSerialize reference s = some (stateBytes s) := if_pos (decide_eq_true hcap)
  rw [hgranted]
  rfl

/-- The chain behind the block. -/
lemma bulk_postState (h : n ≤ 4096) {b : Block} (hheader : b.header = bulkHeader n)
    (htxs : b.txs = bulkTxs n) :
    (acStateGet (postState reference bulkChain.state b) bulkKey.pk).2.stake = 400000000 ∧
      (acStateSerialize reference (postState reference bulkChain.state b)).isSome = true := by
  have hcharged := bulkRun_charged h
  have hlen := bulkStart.accounts
  have hrun : runTxs reference bulkChain.state b = bulkRun n := by
    have hfee : buildBaseFee bulkChain = acMinBaseFee := if_pos bulkStart.height
    rw [runTxs, hheader, htxs]
    show applyTxs reference 1 (buildBaseFee bulkChain) (bulkTxs n) _ = _
    rw [hfee]
    rfl
  rw [postState, hrun]
  constructor
  · rw [payReward_stake, hcharged.stake_eq]
    dsimp only
    rw [bulkStart.account]
  · refine reference_serialize ?_ ?_
    · have hcredit := length_acStateSet_le (bulkRun n).state
      have hle := hcharged.accounts_le
      dsimp only at hle
      refine (length_acStateSet_le _ _).trans (Nat.succ_le_succ (hcredit _) |>.trans ?_)
      omega
    · exact hcharged.names_eq.trans bulkStart.names

/-- The vote of a validator passes on the reference platform, where every draw succeeds. -/
lemma signerOk_voteOf {h : BlockHeader} {kp : Keypair} {total stake : UInt64}
    (hstake : ¬ stake < acMinStakeUcrd) (htotal : total ≠ 0) (hroot : acIsqrtU64 stake ≠ 0) :
    signerOk reference (committeeAlpha (computeEpochSeed reference c (acEpochOf h.slot)) h.slot)
      (acVoteMessage h.height (acBlockHash reference h)) total stake (voteOf reference c h kp) =
        true := by
  have hvrf := acVrfVerify_prove (reference_valid kp)
    (committeeAlpha (computeEpochSeed reference c (acEpochOf h.slot)) h.slot)
  have hsig : acVerify reference (voteOf reference c h kp).sig
      (acVoteMessage h.height (acBlockHash reference h)) kp.pk = true := reference_valid kp _
  rw [signerOk, if_neg hstake]
  simp only [voteOf] at hsig ⊢
  rw [hvrf, hsig]
  simp [committeeEligible, htotal, hroot, reference]

/-- The certificate with the one vote passes. -/
lemma bulkSealed_certificateOk (h : n ≤ 4096) :
    CertificateOk reference bulkChain (bulkSealed n h) := by
  have hget := bulkStart.account
  have htotal := bulkStart.total
  have hroot := bulkStart.sqrtStake
  obtain ⟨hstake, -⟩ := bulk_postState h (b := bulkSealed n h) rfl rfl
  have hsigner : (bulkVote n).signer = bulkKey.pk := rfl
  refine
    { nonempty := List.cons_ne_nil _ _
      total_ne := by rw [htotal]; decide
      signers_ok := ?_
      thresholds := ?_ }
  · intro g hg
    obtain rfl := List.mem_singleton.mp hg
    rw [htotal, hsigner, hget]
    refine signerOk_voteOf (by decide) (by decide) ?_
    rw [hroot]
    decide
  · have hcount : liveCounts (postState reference bulkChain.state (bulkSealed n h)) bulkChain.height
        ⟨bulkKey.pk, 0⟩ = true := by
      have hstaked : ¬ (acStateGet (postState reference bulkChain.state (bulkSealed n h))
          bulkKey.pk).2.stake < acMinStakeUcrd := by
        rw [hstake]
        decide
      obtain ⟨x, -, -, hget⟩ := acStateGet_staked hstaked
      have hfound : (acStateGet (postState reference bulkChain.state (bulkSealed n h))
          bulkKey.pk).1 = true := congrArg Prod.fst hget
      rw [liveCounts, hstake, bulkStart.height, hfound]
      decide
    have hweight : acChainLiveSqrtStake
        { bulkChain with state := postState reference bulkChain.state (bulkSealed n h) } =
        20000 := by
      rw [acChainLiveSqrtStake]
      dsimp only
      rw [bulkStart.liveMap, List.filter_cons_of_pos hcount]
      simp [hstake, hroot]
    rw [hweight, htotal]
    show thresholdsMet (0 + acIsqrtU64 (acStateGet bulkChain.state bulkKey.pk).2.stake)
      20000 20000 = true
    rw [hget, hroot]
    decide

/-- **The block is accepted** with the vote of the validator, whatever seed is cached. -/
theorem bulkSealed_accepted (h : n ≤ 4096) (hc : bulkChain.Reseeded reference c) {now : UInt64}
    (hnow : 2001 ≤ (now + 1500).toNat) :
    (acChainAcceptBlock reference now .all c (bulkSealed n h)).1 = .ok := by
  have hreach := (reachable_openedChain bulkStart.opens).node
  have hledger := (hreach.ledger reference_mallocBounded).1
  have hslot : bulkChain.lastSlot < 1 := by
    rw [bulkStart.lastSlot]
    decide
  have hpass : PassesChecks reference now bulkChain (bulkSealed n h) := by
    refine passesChecks_of_builtHeader hledger (hreach.tipInvariant reference_mallocBounded)
      (reference_valid bulkKey) ?_ hslot ?_ ?_ (bulkLoop_keptApplied h) rfl rfl
    · rw [bulkStart.account]
      decide
    · rw [bulkStart.genesisTimestampMs]
      decide
    · rw [bulkStart.genesisTimestampMs]
      exact hnow
  have hsnap : (acStateSerialize reference bulkChain.state).isSome = true :=
    reference_serialize (bulkStart.accounts.le.trans (by decide)) bulkStart.names
  have hok : (acChainAcceptBlock reference now .all bulkChain (bulkSealed n h)).1 = .ok :=
    (acChainAcceptBlock_ok_iff reference_mallocBounded hledger.cacheValid).mpr
      ⟨hpass, bulkSealed_certificateOk h, hsnap, (bulk_postState h rfl rfl).2, rfl⟩
  rw [← hok]
  refine hc.sameView.acceptBlock_rc_eq hledger.cacheValid (hc.valid hledger.cacheValid) ?_ now .all
  rw [hc.same.eq_withCached]
  rfl

end Accepted

end AgentChain
