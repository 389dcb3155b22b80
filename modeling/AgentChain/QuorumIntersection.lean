import AgentChain.Certificate

/-!
# Do two certificates share a signer?

The safety floor of `validate_commit` asks for more than half of the total weight, so that
two blocks of one height cannot both be committed without a common signer.  The floor is
compared with a sum over the *list* of signers.  For lists without repetition this is the
weight of the signer set and the argument goes through.  For every list with a repetition
there is a chain on which the listed weight passes the floor and the weight of the set does
not.
-/

namespace AgentChain

open Quorum

/-! ### A chain for a given list of signers -/

/-- A platform on which every hash is zero and every signature verifies.  What is left are
the stakes. -/
def lenient : Platform where
  genericHash _ := ByteArr.fill 32 0
  signDetached _ _ := ByteArr.fill 64 0
  verifyDetached _ _ _ := true
  committeeDraw _ _ _ := true
  leaderDraw _ _ := true
  malloc n := decide (n < 2 ^ 38)

lemma lenient_mallocBounded : lenient.MallocBounded := fun _ hn =>
  decide_eq_false (not_lt.mpr hn)

/-- An account with nothing but a stake. -/
def bonded (a : Addr) (stake : UInt64) : Account := ⟨a, 0, 0, stake, 0⟩

/-- Bond every address of a list with the minimum stake. -/
def bondAll (s : AcState) (L : List Addr) : AcState :=
  L.foldl (fun s a => acStateSet s (bonded a acMinStakeUcrd)) s

lemma acStateGet_bondAll (s : AcState) (L : List Addr) (a : Addr) :
    (acStateGet (bondAll s L) a).2 =
      if a ∈ L then bonded a acMinStakeUcrd else (acStateGet s a).2 := by
  induction L generalizing s with
  | nil => simp [bondAll]
  | cons x L ih =>
    have hrec : bondAll s (x :: L) = bondAll (acStateSet s (bonded x acMinStakeUcrd)) L := rfl
    rw [hrec, ih, acStateGet_set_snd]
    by_cases hL : a ∈ L
    · simp [hL]
    · by_cases hx : a = x
      · simp [hx, bonded]
      · simp [hL, hx, bonded]

/-- The signers of `L` with the minimum stake, and an outsider with as much weight as all of
them together. -/
def opposedState (L : List Addr) (f : Addr) : AcState :=
  acStateSet (bondAll (acStateNew 0) L)
    (bonded f (UInt64.ofNat (L.toFinset.card * 10000 * (L.toFinset.card * 10000))))

lemma acStateGet_opposedState (L : List Addr) (f a : Addr) :
    (acStateGet (opposedState L f) a).2 =
      if a = f then
        bonded f (UInt64.ofNat (L.toFinset.card * 10000 * (L.toFinset.card * 10000)))
      else if a ∈ L then bonded a acMinStakeUcrd else zeroAccount a := by
  rw [opposedState, acStateGet_set_snd, acStateGet_bondAll]
  have hnew : (acStateGet (acStateNew 0) a).2 = zeroAccount a := by
    rw [acStateGet_of_notMem (by simp [acStateNew])]
  rw [hnew]
  rfl

lemma length_acStateSet_le (s : AcState) (acc : Account) :
    (acStateSet s acc).accounts.length ≤ s.accounts.length + 1 := by
  obtain ⟨l, m, r, h⟩ := exists_cutAt s.accounts_sorted acc.addr
  have hk : (kept acc).length ≤ 1 := by
    rw [kept]
    split_ifs <;> simp
  show (setAccounts s.accounts acc).length ≤ _
  rw [h.setAccounts_eq]
  conv_rhs => rw [h.eq]
  simp only [List.length_append]
  omega

lemma length_bondAll_le (s : AcState) (L : List Addr) :
    (bondAll s L).accounts.length ≤ s.accounts.length + L.length := by
  induction L generalizing s with
  | nil => exact le_rfl
  | cons x L ih =>
    have hstep := length_acStateSet_le s (bonded x acMinStakeUcrd)
    have hrec : bondAll s (x :: L) = bondAll (acStateSet s (bonded x acMinStakeUcrd)) L := rfl
    rw [hrec, List.length_cons]
    exact (ih _).trans (by omega)

lemma bondAll_names (s : AcState) (L : List Addr) : (bondAll s L).names = s.names := by
  induction L generalizing s with
  | nil => rfl
  | cons x L ih => exact (ih _).trans (acStateSet_names _ _)

/-! ### Its weights -/

section Weights

variable {L : List Addr} {f : Addr}

lemma weight_opposedState_mem (hf : f ∉ L) {a : Addr} (ha : a ∈ L) :
    weight (opposedState L f) a = 10000 := by
  have hne : a ≠ f := fun h => hf (h ▸ ha)
  rw [weight, acStateGet_opposedState, if_neg hne, if_pos ha]
  exact acIsqrtU64_sq (show acMinStakeUcrd.toNat = 10000 * 10000 by decide)

lemma toNat_outsiderStake (hL : L.length ≤ 256) :
    (UInt64.ofNat (L.toFinset.card * 10000 * (L.toFinset.card * 10000))).toNat =
      L.toFinset.card * 10000 * (L.toFinset.card * 10000) := by
  have hcard : L.toFinset.card ≤ 256 := (List.toFinset_card_le L).trans hL
  have hsq : L.toFinset.card * 10000 * (L.toFinset.card * 10000) ≤ 2560000 * 2560000 :=
    Nat.mul_le_mul (by omega) (by omega)
  exact UInt64.toNat_ofNat_of_lt' (lt_of_le_of_lt hsq (by decide))

lemma weight_opposedState_outsider (hL : L.length ≤ 256) :
    weight (opposedState L f) f = L.toFinset.card * 10000 := by
  rw [weight, acStateGet_opposedState, if_pos rfl]
  exact acIsqrtU64_sq (toNat_outsiderStake hL)

lemma validators_opposedState (hL : L.length ≤ 256) (hne : L ≠ []) :
    (validators (opposedState L f)).toFinset = insert f L.toFinset := by
  have hcard : 0 < L.toFinset.card := Finset.card_pos.mpr (List.toFinset_nonempty_iff L |>.mpr hne)
  ext a
  rw [List.mem_toFinset, mem_validators, acStateGet_opposedState, Finset.mem_insert,
    List.mem_toFinset, UInt64.lt_iff_toNat_lt]
  have hmin : acMinStakeUcrd.toNat = 100000000 := rfl
  by_cases ha : a = f
  · rw [if_pos ha]
    have hge : 100000000 ≤ L.toFinset.card * 10000 * (L.toFinset.card * 10000) :=
      Nat.mul_le_mul (show 10000 ≤ _ by omega) (show 10000 ≤ _ by omega)
    simp only [bonded, toNat_outsiderStake hL, hmin, ha, true_or, iff_true, not_lt]
    exact hge
  · by_cases haL : a ∈ L
    · simp [ha, haL, bonded]
    · simp only [ha, haL, if_false, or_self, iff_false, not_not]
      exact show (0 : UInt64).toNat < acMinStakeUcrd.toNat by decide

/-- The state is small: an account per signer and one more, and no names. -/
lemma opposedState_small (hL : L.length ≤ 256) (f : Addr) :
    (opposedState L f).accounts.length ≤ 257 ∧ (opposedState L f).names = [] := by
  have h₁ := length_acStateSet_le (bondAll (acStateNew 0) L)
    (bonded f (UInt64.ofNat (L.toFinset.card * 10000 * (L.toFinset.card * 10000))))
  have h₂ := length_bondAll_le (acStateNew 0) L
  have h₀ : (acStateNew 0).accounts.length = 0 := rfl
  refine ⟨?_, bondAll_names _ _⟩
  show (acStateSet _ _).accounts.length ≤ 257
  omega

lemma sum_weight_opposedState (hf : f ∉ L) :
    ∑ a ∈ L.toFinset, weight (opposedState L f) a = L.toFinset.card * 10000 := by
  rw [Finset.sum_congr rfl fun a ha => weight_opposedState_mem hf (List.mem_toFinset.mp ha),
    Finset.sum_const, smul_eq_mul]

/-- The listed signers hold exactly half of the total. -/
lemma totalSqrtStake_opposedState (hf : f ∉ L) (hL : L.length ≤ 256) (hne : L ≠ []) :
    (totalSqrtStake (opposedState L f)).toNat = 2 * (L.toFinset.card * 10000) := by
  obtain ⟨haccounts, hnames⟩ := opposedState_small hL f
  have hs : (opposedState L f).Countable :=
    ⟨by omega, by rw [hnames]; exact show 0 < 2 ^ 32 by decide⟩
  rw [totalSqrtStake_toNat hs, validators_opposedState hL hne,
    Finset.sum_insert (by simpa using hf), weight_opposedState_outsider hL,
    sum_weight_opposedState hf]
  omega

end Weights

/-! ### Its chain and block -/

/-- A chain at genesis with the opposed state, on which only the first signer is live. -/
def opposedChain (L : List Addr) (f proposer : Addr) : Chain where
  dir := DataDir.empty
  state := opposedState L f
  chainId := 0
  height := 0
  tipHash := ByteArr.fill 32 0
  lastSlot := 0
  lastTimestampMs := 0
  baseFee := acMinBaseFee
  genesisTimestampMs := 0
  cached := none
  txIndex := []
  txIndexSorted := true
  addrIndex := []
  addrIndexSorted := true
  liveMap := [⟨proposer, 0⟩]

/-- An empty block on top of it, signed by the list. -/
def opposedBlock (L : List Addr) (hL : L.length ≤ 256) (proposer : Addr) : Block where
  header := {
    version := acBlockVersion
    height := 1
    slot := 1
    parentHash := ByteArr.fill 32 0
    timestampMs := 2000
    proposer := proposer
    proposerVrfProof := ByteArr.fill 64 0
    stateRoot := ByteArr.fill 32 0
    txRoot := ByteArr.fill 32 0
    baseFee := acMinBaseFee
    gasUsed := 0
    gasLimit := acBlockGasLimit
    txCount := 0 }
  txs := []
  signers := L.map fun a => ⟨a, ByteArr.fill 64 0, ByteArr.fill 64 0⟩
  txCount_eq := nil_txCount_eq
  txs_le := Nat.zero_le _
  signers_le := by rw [List.length_map]; exact hL

section Accepted

variable {L : List Addr} {f p : Addr} (hL : L.length ≤ 256)

lemma opposedBlock_signerAddrs : (opposedBlock L hL p).signerAddrs = L := by
  simp [Block.signerAddrs, opposedBlock, Function.comp_def]

lemma lenient_stateRoot (s : AcState) : acStateRoot lenient s = ByteArr.fill 32 0 := by
  rw [acStateRoot]
  split_ifs <;> rfl

lemma stake_opposedState_mem (hf : f ∉ L) {a : Addr} (ha : a ∈ L) :
    (acStateGet (opposedState L f) a).2.stake = acMinStakeUcrd := by
  have hne : a ≠ f := fun h => hf (h ▸ ha)
  rw [acStateGet_opposedState, if_neg hne, if_pos ha]
  rfl

/-- An account with the minimum stake is stored. -/
lemma found_of_stake {s : AcState} {a : Addr} (h : (acStateGet s a).2.stake = acMinStakeUcrd) :
    (acStateGet s a).1 = true := by
  apply acStateGet_found
  rw [accountIsEmpty, h]
  have : (acMinStakeUcrd == 0) = false := by decide
  simp [this]

include hL in
lemma opposed_passes (hf : f ∉ L) (hp : p ∈ L) :
    PassesChecks lenient 2000 (opposedChain L f p) (opposedBlock L hL p) := by
  have hstake := stake_opposedState_mem hf hp
  have hmin : ¬ acMinStakeUcrd < acMinStakeUcrd := by decide
  exact {
    link := checkLink_eq_none.mpr ⟨rfl, show (1 : UInt64) ≠ 0 by decide,
      show ¬ (1 : UInt64) ≤ 0 by decide, rfl, rfl⟩
    time := checkTime_eq_none.mpr ⟨show ¬ (1 : UInt64) ≤ 0 by decide,
      show ¬ ((2000 : UInt64).toInt64 < ((0 : UInt64) + 1 * acSlotDurationMs).toInt64 - 3000 ∨
        ((0 : UInt64) + 1 * acSlotDurationMs).toInt64 + 3000 < (2000 : UInt64).toInt64) by decide,
      show ¬ (2000 : UInt64) + 1500 < 2000 by decide, rfl⟩
    proposer := by
      rw [validateProposerVrf]
      simp only [opposedChain, opposedBlock, found_of_stake hstake, hstake, hmin, Bool.not_true,
        Bool.false_eq_true, if_false, acVrfVerify, acVerify, lenient, if_true, Option.isSome_some]
    fee := by
      rw [checkBaseFee_eq_none, expectedBaseFee_genesis rfl]
      exact show ¬ acMinBaseFee < acMinBaseFee ∧ ¬ acMinBaseFee + 1 < acMinBaseFee ∧
        ¬ acMinBaseFee + 1 < acMinBaseFee by decide
    txs_ok := rfl
    gas := rfl
    txRoot := rfl
    stateRoot := lenient_stateRoot _ }

lemma opposed_stake_post {a : Addr} :
    (acStateGet (postState lenient (opposedState L f) (opposedBlock L hL p)) a).2.stake =
      (acStateGet (opposedState L f) a).2.stake :=
  payReward_stake _ _ _ _ _

/-- Only the first signer is live. -/
lemma opposed_live (hf : f ∉ L) (hp : p ∈ L) (k : Option (UInt64 × Hash)) :
    acChainLiveSqrtStake { opposedChain L f p with
      state := postState lenient (opposedState L f) (opposedBlock L hL p)
      cached := k } = acIsqrtU64 acMinStakeUcrd := by
  have hstake := (opposed_stake_post hL (p := p) (f := f) (a := p)).trans
    (stake_opposedState_mem hf hp)
  have hcount : liveCounts (postState lenient (opposedState L f) (opposedBlock L hL p)) 0
      ⟨p, 0⟩ = true := by
    have hwin : liveIsWithinWindow 0 0 = true := by decide
    have hmin : ¬ acMinStakeUcrd < acMinStakeUcrd := by decide
    simp only [liveCounts, hwin, found_of_stake hstake, hstake, hmin, decide_false,
      Bool.not_false, Bool.and_self]
  rw [acChainLiveSqrtStake]
  simp only [opposedChain, List.filter_cons, hcount, if_true, List.filter_nil, List.isEmpty_cons,
    Bool.false_eq_true, if_false, List.foldl_cons, List.foldl_nil, hstake]
  exact UInt64.zero_add _

/-- The listed weight passes both thresholds as soon as somebody is listed twice. -/
lemma opposed_commitOk (hf : f ∉ L) (hp : p ∈ L) (hdup : ¬ L.Nodup)
    (k : Option (UInt64 × Hash)) :
    CommitOk lenient (opposedChain L f p) k (opposedBlock L hL p) := by
  have hne : L ≠ [] := List.ne_nil_of_mem hp
  have htotal : (acChainTotalSqrtStake (opposedChain L f p)).toNat =
      2 * (L.toFinset.card * 10000) :=
    totalSqrtStake_opposedState hf hL hne
  have hcard : 0 < L.toFinset.card := Finset.card_pos.mpr (List.toFinset_nonempty_iff L |>.mpr hne)
  have hless : L.toFinset.card < L.length := by
    refine lt_of_le_of_ne (List.toFinset_card_le L) fun h => hdup ?_
    exact Multiset.toFinset_card_eq_card_iff_nodup.mp h
  have htotal0 : acChainTotalSqrtStake (opposedChain L f p) ≠ 0 := by
    intro h
    rw [h] at htotal
    exact absurd htotal (by show ¬ 0 = _; omega)
  have hroot : (acIsqrtU64 acMinStakeUcrd).toNat = 10000 :=
    acIsqrtU64_sq (show acMinStakeUcrd.toNat = 10000 * 10000 by decide)
  have hroot0 : acIsqrtU64 acMinStakeUcrd ≠ 0 := by
    intro h
    rw [h] at hroot
    exact absurd hroot (by decide)
  have hlisted : ∀ g ∈ (opposedBlock L hL p).signers, g.signer ∈ L := by
    intro g hg
    obtain ⟨a, ha, rfl⟩ := List.mem_map.mp hg
    exact ha
  -- the loop counts every entry of the list
  have hsigned : (signedWeight (opposedState L f) (opposedBlock L hL p).signers).toNat =
      L.length * 10000 := by
    have hlen : (opposedBlock L hL p).signers.length = L.length := List.length_map ..
    rw [toNat_signedWeight (opposedBlock L hL p).signers_le,
      List.map_congr_left fun g hg => weight_opposedState_mem hf (hlisted g hg), List.map_const',
      List.sum_replicate, smul_eq_mul, hlen]
  refine validateCommit_iff.mpr ⟨by simpa [opposedBlock] using hne, htotal0, ?_, ?_⟩
  · intro g hg
    have hmin : ¬ acMinStakeUcrd < acMinStakeUcrd := by decide
    have hstake : preStakeLookup (preSignerTable (opposedState L f) (opposedBlock L hL p).signers)
        g.signer = acMinStakeUcrd :=
      (preStakeLookup_mem hg).trans (stake_opposedState_mem hf (hlisted g hg))
    show signerOk lenient _ _ (acChainTotalSqrtStake (opposedChain L f p)) (preStakeLookup
      (preSignerTable (opposedState L f) (opposedBlock L hL p).signers) g.signer) g = true
    rw [hstake, signerOk, if_neg hmin]
    simp only [acVrfVerify, acVerify, lenient, if_true, committeeEligible, htotal0, hroot0,
      or_self, if_false, Bool.and_self]
  · have h2 : (2 : UInt64).toNat = 2 := rfl
    have hmet : thresholdsMet (signedWeight (opposedState L f) (opposedBlock L hL p).signers)
        (acIsqrtU64 acMinStakeUcrd) (acChainTotalSqrtStake (opposedChain L f p)) = true := by
      rw [thresholdsMet_iff (signedWeight_le (opposedBlock L hL p).signers_le), if_neg hroot0,
        UInt64.toNat_mul, hroot, h2, hsigned, htotal]
      omega
    rw [← opposed_live hL hf hp k, ← foldl_preStake] at hmet
    exact hmet

end Accepted

/-! ### Both directions -/

/-- A small state without names is granted its snapshot. -/
lemma lenient_serialize {s : AcState} (ha : s.accounts.length ≤ 1000) (hn : s.names = []) :
    acStateSerialize lenient s = some (stateBytes s) := by
  have hcap : snapshotCap s < 2 ^ 38 := by
    have hmagic : stateMagic.length = 17 := by decide
    rw [snapshotCap, hn, hmagic, List.length_nil]
    omega
  exact if_pos (decide_eq_true hcap)

/-- The address that spells a number. -/
def numAddr (i : ℕ) : Addr := ByteArr.ofBytes 32 (beEncode 32 i)

lemma numAddr_injOn : Set.InjOn numAddr (Finset.range 257 : Set ℕ) := by
  intro i hi j hj h
  have hb := congrArg ByteArr.bytes h
  rw [numAddr, numAddr, ByteArr.bytes_ofBytes (length_beEncode 32 i),
    ByteArr.bytes_ofBytes (length_beEncode 32 j)] at hb
  have hbound : ∀ n ∈ (Finset.range 257 : Set ℕ), n < 256 ^ 32 := by
    intro n hn
    have : n < 257 := Finset.mem_range.mp (Finset.mem_coe.mp hn)
    exact this.trans (by decide)
  rw [← beDecode_beEncode (hbound i hi), hb, beDecode_beEncode (hbound j hj)]

/-- A certificate cannot list everybody. -/
lemma exists_outsider {L : List Addr} (hL : L.length ≤ 256) : ∃ f, f ∉ L := by
  by_contra hall
  push Not at hall
  have hle := Finset.card_le_card_of_injOn numAddr
    (fun i _ => Finset.mem_coe.mpr (List.mem_toFinset.mpr (hall (numAddr i)))) numAddr_injOn
  have := (hle.trans (List.toFinset_card_le L)).trans hL
  rw [Finset.card_range] at this
  omega

/-- For every list with a repetition, some chain accepts it with half of the weight. -/
lemma exists_opposed_accepted {L : List Addr} (hL : L.length ≤ 256) (hdup : ¬ L.Nodup) :
    ∃ c b, Block.signerAddrs b = L ∧ (acChainAcceptBlock lenient 2000 .all c b).1 = .ok ∧
      ¬ (acChainTotalSqrtStake c).toNat < 2 * ∑ a ∈ L.toFinset, weight c.state a := by
  obtain ⟨f, hf⟩ := exists_outsider hL
  obtain ⟨p, hp⟩ : ∃ p, p ∈ L := List.exists_mem_of_ne_nil L fun h => hdup (h ▸ List.nodup_nil)
  have hsmall := opposedState_small hL f
  have hpost : (postState lenient (opposedState L f) (opposedBlock L hL p)).accounts.length ≤
      1000 := by
    refine (length_acStateSet_le _ _).trans ?_
    have h₁ := length_acStateSet_le (opposedState L f) { (acStateGet (opposedState L f) p).2 with
      balance := (acStateGet (opposedState L f) p).2.balance + (acChainBlockReward 1 + 0) }
    have h₂ : (acStateCredit (opposedState L f) p (acChainBlockReward 1 + 0)).accounts.length ≤
        258 :=
      h₁.trans (by have := hsmall.1; omega)
    exact Nat.succ_le_succ h₂ |>.trans (by decide)
  refine ⟨opposedChain L f p, opposedBlock L hL p, opposedBlock_signerAddrs hL,
    acChainAcceptBlock_of_passes (opposed_passes hL hf hp) (opposed_commitOk hL hf hp hdup _)
      (lenient_serialize (hsmall.1.trans (by decide)) hsmall.2)
      (lenient_serialize hpost hsmall.2), ?_⟩
  show ¬ (totalSqrtStake (opposedState L f)).toNat <
      2 * ∑ a ∈ L.toFinset, weight (opposedState L f) a
  rw [totalSqrtStake_opposedState hf hL (List.ne_nil_of_mem hp), sum_weight_opposedState hf]
  exact lt_irrefl _

/-- **Quorum intersection holds exactly for certificates without repetition.**  A list of
signers carries more than half of the total in every chain that accepts it if and only if it
lists nobody twice; and two such certificates for one chain share a signer. -/
theorem quorum_intersection_iff_nodup (L : List Addr) (hL : L.length ≤ acCommitteeMax) :
    ((∀ P : Platform, P.MallocBounded → ∀ (now : UInt64) (w : Writes) (c : Chain) (b : Block),
      b.signerAddrs = L → (acChainAcceptBlock P now w c b).1 = .ok →
        (acChainTotalSqrtStake c).toNat < 2 * ∑ a ∈ L.toFinset, weight c.state a) ↔ L.Nodup) ∧
    (∀ P : Platform, P.MallocBounded → ∀ (now₁ now₂ : UInt64) (w₁ w₂ : Writes) (c : Chain)
      (b₁ b₂ : Block), b₁.signerAddrs.Nodup → b₂.signerAddrs.Nodup →
        (acChainAcceptBlock P now₁ w₁ c b₁).1 = .ok → (acChainAcceptBlock P now₂ w₂ c b₂).1 = .ok →
          ∃ a, a ∈ b₁.signerAddrs ∧ a ∈ b₂.signerAddrs) := by
  have hmaj : ∀ P : Platform, P.MallocBounded → ∀ (now : UInt64) (w : Writes) (c : Chain)
      (b : Block), b.signerAddrs.Nodup → (acChainAcceptBlock P now w c b).1 = .ok →
      c.state.Countable ∧
        Majority (weight c.state) (validators c.state).toFinset b.signerAddrs.toFinset := by
    intro P hP now w c b hn hacc
    obtain ⟨-, ⟨k, -, hcommit⟩, ⟨snap, hsnap⟩, -⟩ := acChainAcceptBlock_ok hP hacc
    have hs := (countable_of_serialize hP hsnap).1
    exact ⟨hs, hcommit.majority hs hn⟩
  refine ⟨⟨fun h => ?_, fun hn P hP now w c b hb hacc => ?_⟩, ?_⟩
  · by_contra hdup
    obtain ⟨c, b, hb, hacc, hnot⟩ := exists_opposed_accepted hL hdup
    exact hnot (h lenient lenient_mallocBounded 2000 .all c b hb hacc)
  · subst hb
    obtain ⟨hs, hm⟩ := hmaj P hP now w c b hn hacc
    have := hm.2
    rwa [← totalSqrtStake_toNat hs] at this
  · intro P hP now₁ now₂ w₁ w₂ c b₁ b₂ hn₁ hn₂ h₁ h₂
    obtain ⟨a, ha⟩ := (hmaj P hP now₁ w₁ c b₁ hn₁ h₁).2.inter_nonempty
      (hmaj P hP now₂ w₂ c b₂ hn₂ h₂).2
    rw [Finset.mem_inter, List.mem_toFinset, List.mem_toFinset] at ha
    exact ⟨a, ha.1, ha.2⟩

/-- Two validators of equal stake, and two blocks that each of them signed twice: both blocks
are accepted and no address signed both. -/
theorem repeated_signers_split : ¬ ∀ P : Platform, P.MallocBounded →
    ∀ (now : UInt64) (w : Writes) (c : Chain) (b₁ b₂ : Block),
      (acChainAcceptBlock P now w c b₁).1 = .ok → (acChainAcceptBlock P now w c b₂).1 = .ok →
        ∃ a, a ∈ b₁.signerAddrs ∧ a ∈ b₂.signerAddrs := by
  intro h
  obtain ⟨a, ha₁, ha₂⟩ := h lenient lenient_mallocBounded 2000 .all
    (opposedChain [numAddr 1, numAddr 1] (numAddr 2) (numAddr 1))
    (opposedBlock [numAddr 1, numAddr 1] (by decide) (numAddr 1))
    (opposedBlock [numAddr 2, numAddr 2] (by decide) (numAddr 1))
    (by decide +kernel) (by decide +kernel)
  rw [opposedBlock_signerAddrs] at ha₁ ha₂
  have h₁ : a = numAddr 1 := by simpa using ha₁
  have h₂ : a = numAddr 2 := by simpa using ha₂
  exact absurd (h₁.symm.trans h₂) (by decide)

/-- The same two validators signing once each: both blocks are accepted and share a signer. -/
theorem signed_once_share_signer :
    let c := opposedChain [numAddr 1, numAddr 1] (numAddr 2) (numAddr 1)
    let b₁ := opposedBlock [numAddr 1, numAddr 2] (by decide) (numAddr 1)
    let b₂ := opposedBlock [numAddr 2, numAddr 1] (by decide) (numAddr 2)
    ((acChainAcceptBlock lenient 2000 .all c b₁).1 = .ok ∧
      (acChainAcceptBlock lenient 2000 .all c b₂).1 = .ok) ∧
    ∃ a, a ∈ b₁.signerAddrs ∧ a ∈ b₂.signerAddrs := by
  intro c b₁ b₂
  have h₁ : (acChainAcceptBlock lenient 2000 .all c b₁).1 = .ok := by decide +kernel
  have h₂ : (acChainAcceptBlock lenient 2000 .all c b₂).1 = .ok := by decide +kernel
  exact ⟨⟨h₁, h₂⟩, (quorum_intersection_iff_nodup b₁.signerAddrs (by decide)).2 lenient
    lenient_mallocBounded 2000 2000 .all .all c b₁ b₂ (by decide) (by decide) h₁ h₂⟩

end AgentChain
