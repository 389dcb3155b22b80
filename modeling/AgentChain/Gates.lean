import AgentChain.FundMoves
import AgentChain.HonestVotes

/-!
# The two gates of a commit

`try_commit_inner` adds up the weight of the signers before it hands a block to the chain, and
`validate_commit` adds it up again inside `ac_chain_accept_block`.  Both demand two thirds of the
live weight and more than half of the total.  The total and the weights of the signers are those
before the block at both gates, but the second gate reads the live weight when the transactions
of the block have been applied.

A transaction changes the stake of at most one address: a bond or an unbond that of its sender,
evidence that of the validator it convicts (`Tx.stakeTarget`).  The gates agree on a block in
which no transaction aims at a stake that the live weight reads (`gates_agree`); the bond of a
live validator can bring the weight of the signers between the two demands.
-/

namespace AgentChain

/-- What both gates compare three times the weight of the signers with: twice the live weight,
or twice the total when nothing is live. -/
def demand (live total : UInt64) : ℕ := ((if live = 0 then total else live) * 2).toNat

/-- The demand before a block, and behind its transactions. -/
def demandBefore (c : Chain) : ℕ := demand (acChainLiveSqrtStake c) (acChainTotalSqrtStake c)

def demandAfter (P : Platform) (c : Chain) (b : Block) : ℕ :=
  demand (acChainLiveSqrtStake { c with state := postState P c.state b }) (acChainTotalSqrtStake c)

/-- The address whose stake a transaction changes when it succeeds: the sender of a bond or an
unbond of some amount, and the validator that valid evidence convicts.  Evidence of a validator
against itself is undone when its own record is written back. -/
def Tx.stakeTarget (P : Platform) (tx : Tx) : Option Addr :=
  match TxKind.ofCode tx.kind with
  | some .stakeBond | some .stakeUnbond =>
      (acBodyStakeDecode tx.body).bind fun amount => if amount = 0 then none else some tx.sender
  | some .slashEvidence =>
      (acBodySlashDecode tx.body).bind fun b =>
        if b.blockHashA ≠ b.blockHashB ∧ slashSignaturesOk P b = true ∧ b.validator ≠ tx.sender then
          some b.validator
        else none
  | _ => none

/-- The addresses whose stakes the live weight reads: those with an entry within the window,
and all of them when no entry counts and the total stands in. -/
def Chain.LiveReads (c : Chain) (a : Addr) : Prop :=
  (∃ e ∈ c.liveMap, e.addr = a ∧ liveIsWithinWindow c.height e.lastSignHeight = true) ∨
    c.liveMap.filter (liveCounts c.state c.height) = []

instance (c : Chain) (a : Addr) : Decidable (c.LiveReads a) :=
  inferInstanceAs (Decidable (_ ∨ _))

/-- No transaction of the block aims at a stake that the live weight reads. -/
def LiveStakesKept (P : Platform) (c : Chain) (b : Block) : Prop :=
  ∀ tx ∈ b.txs, ∀ a ∈ tx.stakeTarget P, ¬ c.LiveReads a

instance (P : Platform) (c : Chain) (b : Block) : Decidable (LiveStakesKept P c b) :=
  inferInstanceAs (Decidable (∀ tx ∈ b.txs, ∀ a ∈ tx.stakeTarget P, ¬ c.LiveReads a))

/-! ### Stakes behind a block -/

section Stakes

variable {P : Platform} {s t : AcState} {tx : Tx} {a : Admitted} {o : BodyOutcome} {x : Addr}

lemma stakeTarget_of_amount {kind : TxKind} (hkind : TxKind.ofCode tx.kind = some kind)
    (hstake : kind = .stakeBond ∨ kind = .stakeUnbond) {amount : UInt64}
    (hbody : acBodyStakeDecode tx.body = some amount) (hne : amount ≠ 0) :
    tx.stakeTarget P = some tx.sender := by
  rcases hstake with rfl | rfl <;> simp [Tx.stakeTarget, hkind, hbody, hne]

lemma stakeTarget_of_evidence (hkind : TxKind.ofCode tx.kind = some .slashEvidence) {b : BodySlash}
    (hbody : acBodySlashDecode tx.body = some b) (hne : b.blockHashA ≠ b.blockHashB)
    (hsig : slashSignaturesOk P b = true) (hother : b.validator ≠ tx.sender) :
    tx.stakeTarget P = some b.validator := by
  simp [Tx.stakeTarget, hkind, hbody, hne, hsig, hother]

/-- A body leaves the stakes in the store alone, except for the one it convicts. -/
lemma BodyDone.stake_eq (h : BodyDone P s tx a o) (hkind : TxKind.ofCode tx.kind = some a.kind)
    (hx : x ≠ tx.sender) (htarget : x ∉ tx.stakeTarget P) :
    (acStateGet o.state x).2.stake = (acStateGet s x).2.stake := by
  cases h with
  | transfer b =>
    rw [acStateGet_set_snd]
    split_ifs with hrec
    · rw [hrec]
    · rfl
  | stakeBond => rfl
  | stakeUnbond => rfl
  | registerName name u hk hbody hle hnew =>
    rw [acStateGet, (acStateNameRegister_accounts hnew).1, ← acStateGet]
  | slashEvidence b hk hbody hne hsig hstake =>
    rw [acStateGet_set_snd, acStateGet_addr, if_neg]
    rintro rfl
    rw [hk] at hkind
    exact htarget (stakeTarget_of_evidence hkind hbody hne hsig hx)

/-- A body leaves the stake in the record of the sender alone, unless it is a bond or an unbond
of some amount. -/
lemma BodyDone.sender_stake_eq (h : BodyDone P s tx a o)
    (hkind : TxKind.ofCode tx.kind = some a.kind) (htarget : tx.sender ∉ tx.stakeTarget P) :
    o.sender.stake = a.sender.stake := by
  cases h with
  | transfer => rfl
  | stakeBond amount hk hbody =>
    have hzero : amount = 0 := by
      by_contra hne
      exact htarget (stakeTarget_of_amount hkind (Or.inl hk) hbody hne)
    show a.sender.stake + amount = a.sender.stake
    rw [hzero, UInt64.add_zero]
  | stakeUnbond amount unbondAt hk hbody =>
    have hzero : amount = 0 := by
      by_contra hne
      exact htarget (stakeTarget_of_amount hkind (Or.inr hk) hbody hne)
    show a.sender.stake - amount = a.sender.stake
    rw [hzero, UInt64.sub_zero]
  | registerName => rfl
  | slashEvidence => rfl

/-- **One transaction** leaves every stake alone but that of its target. -/
lemma acStateApplyTx_stake (slot baseFee : UInt64) (htarget : x ∉ tx.stakeTarget P) :
    (acStateGet (acStateApplyTx P s tx slot baseFee).2.2 x).2.stake =
      (acStateGet s x).2.stake := by
  rcases acStateApplyTx_cases (P := P) s tx slot baseFee with ⟨err, -, he⟩ | ⟨a, ha, he⟩
  · rw [he]
  obtain ⟨igas, value, hadm⟩ := admitTx_admission ha
  rw [he, get_chargeTx]
  split_ifs with hx
  · -- the record of the sender, loaded before the body
    subst hx
    show (applyBody P s tx slot a).sender.stake = _
    have hsender : a.sender.stake = (acStateGet s tx.sender).2.stake := by rw [hadm.sender_eq]
    rw [← hsender]
    rcases applyBody_cases (P := P) s tx slot a with ho | ho
    · rw [ho.sender_eq]
    · exact ho.sender_stake_eq hadm.kind_eq htarget
  · rcases applyBody_cases (P := P) s tx slot a with ho | ho
    · rw [ho.state_eq]
    · exact ho.stake_eq hadm.kind_eq hx htarget

/-- The loop over the transactions. -/
lemma applyTxs_stake {slot baseFee : UInt64} {txs : List Tx} {l : TxLoop}
    (h : ∀ tx ∈ txs, x ∉ tx.stakeTarget P) :
    (acStateGet (applyTxs P slot baseFee txs l).state x).2.stake =
      (acStateGet l.state x).2.stake := by
  induction txs generalizing l with
  | nil => rfl
  | cons tx txs ih =>
    have hrest := fun tx' htx' => h tx' (List.mem_cons_of_mem _ htx')
    have hone := acStateApplyTx_stake (s := l.state) slot baseFee (h tx List.mem_cons_self)
    rw [applyTxs]
    dsimp only
    split_ifs
    · rfl
    · exact hone
    · exact hone
    · exact (ih hrest).trans hone

/-- **A block** leaves every stake alone that no transaction aims at. -/
lemma postState_stake {b : Block} (h : ∀ tx ∈ b.txs, x ∉ tx.stakeTarget P) :
    (acStateGet (postState P s b) x).2.stake = (acStateGet s x).2.stake :=
  (payReward_stake _ _ _ _ _).trans (applyTxs_stake h)

/-! ### Weights that read the same stakes -/

lemma validators_sorted (s : AcState) : SortedArray.Sorted id acAddrCmp (validators s) :=
  List.Pairwise.map Account.addr (fun _ _ h => h) (List.Pairwise.filter _ s.accounts_sorted)

/-- The total depends on the stakes alone. -/
lemma totalSqrtStake_congr (h : ∀ a, (acStateGet t a).2.stake = (acStateGet s a).2.stake) :
    totalSqrtStake t = totalSqrtStake s := by
  have hvalidators : validators t = validators s :=
    (validators_sorted t).eq_of_mem_iff (validators_sorted s) fun a => by
      rw [mem_validators, mem_validators, h]
  rw [totalSqrtStake_eq_foldl, totalSqrtStake_eq_foldl, hvalidators]
  refine List.foldl_ext _ _ _ fun sum a _ => ?_
  rw [h]

/-- Whether an entry counts depends on the stake of its address. -/
lemma liveCounts_eq (s : AcState) (height : UInt64) (e : LiveEntry) :
    liveCounts s height e = (liveIsWithinWindow height e.lastSignHeight &&
      !decide ((acStateGet s e.addr).2.stake < acMinStakeUcrd)) := by
  rw [liveCounts, Bool.and_assoc]
  congr 1
  by_cases hst : (acStateGet s e.addr).2.stake < acMinStakeUcrd
  · simp [hst]
  · obtain ⟨y, -, -, hget⟩ := acStateGet_staked hst
    simp [hget]

/-- **The live weight** depends on the stakes that it reads. -/
lemma acChainLiveSqrtStake_of_stakes {c : Chain}
    (h : ∀ a, c.LiveReads a → (acStateGet t a).2.stake = (acStateGet c.state a).2.stake) :
    acChainLiveSqrtStake { c with state := t } = acChainLiveSqrtStake c := by
  have hcounts : c.liveMap.filter (liveCounts t c.height) =
      c.liveMap.filter (liveCounts c.state c.height) := by
    refine List.filter_congr fun e he => ?_
    rw [liveCounts_eq, liveCounts_eq]
    by_cases hwin : liveIsWithinWindow c.height e.lastSignHeight = true
    · rw [h e.addr (Or.inl ⟨e, he, rfl, hwin⟩)]
    · rw [Bool.not_eq_true] at hwin
      rw [hwin, Bool.false_and, Bool.false_and]
  rw [acChainLiveSqrtStake, acChainLiveSqrtStake]
  dsimp only
  rw [hcounts]
  split_ifs with hempty
  · exact totalSqrtStake_congr fun a => h a (Or.inr (List.isEmpty_iff.mp hempty))
  · refine List.foldl_ext _ _ _ fun sum e he => ?_
    obtain ⟨hmem, hcount⟩ := List.mem_filter.mp he
    rw [liveCounts_eq, Bool.and_eq_true] at hcount
    rw [h e.addr (Or.inl ⟨e, hmem, rfl, hcount.1⟩)]

/-- So the demand of both gates is the same when no transaction aims at these stakes. -/
lemma LiveStakesKept.demand_eq {c : Chain} {b : Block} (h : LiveStakesKept P c b) :
    demandAfter P c b = demandBefore c := by
  have hlive : acChainLiveSqrtStake { c with state := postState P c.state b } =
      acChainLiveSqrtStake c :=
    acChainLiveSqrtStake_of_stakes fun a ha =>
      postState_stake fun tx htx hmem => h tx htx a hmem ha
  rw [demandAfter, hlive, demandBefore]

end Stakes

section Gates

variable {P : Platform} {g : Genesis} {es : List NodeEvent} {c : Chain} {b : Block}
  {signers : List CommitSigner}

/-- Signers that pass are counted at the first gate. -/
lemma collectedSqrt_eq (h : ∀ x ∈ signers, SignerOn P c b.header x) :
    collectedSqrt c.state signers = signedWeight c.state signers :=
  List.foldl_ext _ _ _ fun _ x hx => if_neg (signerOk_stake (h x hx))

/-- A state with an active validator has weight. -/
lemma totalSqrtStake_pos {s : AcState} (hs : s.Countable) {a : Addr}
    (ha : ¬ (acStateGet s a).2.stake < acMinStakeUcrd) : 0 < (totalSqrtStake s).toNat := by
  have hweight : 0 < weight s a := by
    by_contra hzero
    have hroot := (acIsqrtU64_spec (acStateGet s a).2.stake).2
    rw [weight, Nat.not_lt, Nat.le_zero] at hzero
    rw [hzero] at hroot
    rw [UInt64.lt_iff_toNat_lt, show acMinStakeUcrd.toNat = 100000000 from rfl] at ha
    omega
  rw [totalSqrtStake_toNat hs]
  exact hweight.trans_le (Finset.single_le_sum (f := weight s) (fun _ _ => Nat.zero_le _)
    (List.mem_toFinset.mpr (mem_validators.mpr ha)))

/-- Without weight there is no live weight. -/
lemma acChainLiveSqrtStake_eq_zero (hs : c.state.Countable) (h : acChainTotalSqrtStake c = 0) :
    acChainLiveSqrtStake c = 0 := by
  have hnone : c.liveMap.filter (liveCounts c.state c.height) = [] := by
    refine List.filter_eq_nil_iff.mpr fun e _ hcounts => ?_
    rw [liveCounts, Bool.and_eq_true, Bool.not_eq_true', decide_eq_false_iff_not] at hcounts
    have hpos := totalSqrtStake_pos hs hcounts.2
    rw [show totalSqrtStake c.state = 0 from h] at hpos
    exact absurd hpos (by decide)
  rw [acChainLiveSqrtStake, hnone]
  exact h

/-- Signers with weight show that the total is not zero. -/
lemma total_ne_zero_of_signed (hs : c.state.Countable)
    (h : ∀ x ∈ signers, SignerOn P c b.header x)
    (hlt : (acChainTotalSqrtStake c).toNat < 2 * (signedWeight c.state signers).toNat) :
    signers ≠ [] ∧ acChainTotalSqrtStake c ≠ 0 := by
  have hne : signers ≠ [] := by
    rintro rfl
    exact absurd hlt (Nat.not_lt_zero _)
  obtain ⟨x, hx⟩ := List.exists_mem_of_ne_nil signers hne
  have hpos := totalSqrtStake_pos hs (signerOk_stake (h x hx))
  refine ⟨hne, fun hzero => ?_⟩
  rw [show totalSqrtStake c.state = 0 from hzero] at hpos
  exact absurd hpos (by decide)

/-- The first gate, in the natural numbers. -/
lemma enoughVotes_iff (hs : c.state.Countable) (hlen : signers.length ≤ acCommitteeMax)
    (h : ∀ x ∈ signers, SignerOn P c b.header x) :
    enoughVotes c signers = true ↔ demandBefore c ≤ 3 * (signedWeight c.state signers).toNat ∧
      (acChainTotalSqrtStake c).toNat < 2 * (signedWeight c.state signers).toNat := by
  by_cases hzero : acChainTotalSqrtStake c = 0
  · refine iff_of_false ?_ fun hmet => (total_ne_zero_of_signed hs h hmet.2).2 hzero
    simp [enoughVotes, hzero, acChainLiveSqrtStake_eq_zero hs hzero]
  · have hne : (if acChainLiveSqrtStake c = 0 then acChainTotalSqrtStake c
        else acChainLiveSqrtStake c) ≠ 0 := by
      split_ifs with hlive
      · exact hzero
      · exact hlive
    rw [demandBefore, demand, ← thresholdsMet_iff (signedWeight_le hlen), enoughVotes,
      collectedSqrt_eq h, thresholdsMet]
    simp [hne, UInt64.pos_iff_ne_zero.mpr hzero]

/-- The second gate, in the natural numbers. -/
lemma commitOk_signed_iff {k : Option (UInt64 × Hash)} (hs : c.state.Countable)
    (hk : Chain.CacheValid P { c with cached := k }) (hlen : signers.length ≤ acCommitteeMax)
    (h : ∀ x ∈ signers, SignerOn P c b.header x) :
    CommitOk P c k (b.withSigners signers hlen) ↔
      demandAfter P c b ≤ 3 * (signedWeight c.state signers).toNat ∧
        (acChainTotalSqrtStake c).toNat < 2 * (signedWeight c.state signers).toNat := by
  rw [commitOk_iff hk]
  constructor
  · intro hcert
    exact (thresholdsMet_iff (signedWeight_le hlen)).mp hcert.thresholds
  · intro hmet
    obtain ⟨hne, htotal⟩ := total_ne_zero_of_signed hs h hmet.2
    exact ⟨hne, htotal, h, (thresholdsMet_iff (signedWeight_le hlen)).mpr hmet⟩

end Gates

/-! ### A bond between the gates -/

/-- Two validators of weights 30000 and 15000, and an account without a stake. -/
def gatesGenesis : Genesis :=
  ⟨1, 0, [⟨(referenceKey 1).pk, 0, 900000000⟩, ⟨(referenceKey 2).pk, 1000000000, 225000000⟩,
    ⟨(referenceKey 3).pk, 1000000000, 0⟩]⟩

/-- A bond of 175000000 by one of the keys.  It raises the weight of the second validator to
20000, and makes the third account a validator of weight 13228. -/
def raiseTx (kp : Keypair) : Tx :=
  signTx reference ⟨acTxVersion, 1, 0x02, kp.pk, 0, 1000, 0, 1000000,
    acBe64 175000000, [], ByteArr.fill 64 0, by decide, nil_memo_le⟩ kp

lemma raise_candidates_le (kp : Keypair) : [raiseTx kp].length ≤ 256 :=
  show 1 ≤ 256 by decide

/-- The first block, with a bond and the vote of the first validator. -/
def raiseBlock (kp : Keypair) : Block :=
  nextBlock (openedChain gatesGenesis) 1 (referenceKey 1) ⟨[raiseTx kp], raise_candidates_le kp⟩
    [referenceKey 1]

end AgentChain
