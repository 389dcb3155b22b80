import AgentChain.AcceptInv
import AgentChain.Lib.Quorum

/-!
# The weight of a commit certificate

`validate_commit` adds up the square roots of the stakes over the list of signers and
compares the sum with the total over all active validators.  Both sums are kept in 64 bits
and neither wraps: a certificate has at most 256 signers, and a state of which a snapshot
was taken has fewer than `2 ^ 32` accounts.
-/

namespace AgentChain

open Quorum

/-- The weight of an address: the square root of its stake. -/
def weight (s : AcState) (a : Addr) : ℕ := (acIsqrtU64 (acStateGet s a).2.stake).toNat

/-- The active validators. -/
def validators (s : AcState) : List Addr :=
  (s.accounts.filter fun a => !decide (a.stake < acMinStakeUcrd)).map Account.addr

lemma mem_validators {s : AcState} {a : Addr} :
    a ∈ validators s ↔ ¬ (acStateGet s a).2.stake < acMinStakeUcrd := by
  simp only [validators, List.mem_map, List.mem_filter, Bool.not_eq_true', decide_eq_false_iff_not]
  constructor
  · rintro ⟨x, ⟨hx, hst⟩, rfl⟩
    rwa [acStateGet_of_mem hx]
  · intro h
    obtain ⟨x, hx, ha, hget⟩ := acStateGet_staked h
    rw [hget] at h
    exact ⟨x, ⟨hx, h⟩, ha⟩

lemma validators_nodup (s : AcState) : (validators s).Nodup := by
  have hpw : (s.accounts.map Account.addr).Nodup := by
    refine List.Pairwise.map _ ?_ s.accounts_sorted
    intro x y hlt heq
    rw [heq, acAddrCmp_self] at hlt
    exact absurd hlt (by decide)
  exact hpw.sublist (List.Sublist.map _ List.filter_sublist)

/-- The total as a sum over the addresses of the validators. -/
lemma totalSqrtStake_eq_foldl (s : AcState) :
    totalSqrtStake s =
      (validators s).foldl (fun sum a => sum + acIsqrtU64 (acStateGet s a).2.stake) 0 := by
  rw [totalSqrtStake, validators, List.foldl_map, List.foldl_filter]
  refine List.foldl_ext _ _ _ fun sum a ha => ?_
  rw [acStateGet_of_mem ha]
  by_cases h : a.stake < acMinStakeUcrd
  · simp [h]
  · simp [h]

/-- The total is the weight of the active validators. -/
theorem totalSqrtStake_toNat {s : AcState} (hs : s.Countable) :
    (totalSqrtStake s).toNat = ∑ a ∈ (validators s).toFinset, weight s a := by
  have h0 : (0 : UInt64).toNat = 0 := rfl
  have hlen : (validators s).length ≤ s.accounts.length := by
    rw [validators, List.length_map]
    exact List.length_filter_le ..
  have hlt := hs.accounts_lt
  rw [totalSqrtStake_eq_foldl, toNat_foldl_add (fun a => acIsqrtU64 (acStateGet s a).2.stake)
    (fun a => acIsqrtU64_lt _) (validators s) 0 (by omega), h0, Nat.zero_add,
    ← sum_map_of_nodup _ (validators_nodup s)]
  rfl

/-! ### Stakes after a block -/

/-- Credits and debits leave every stake alone. -/
lemma acStateSet_balance_stake (s : AcState) (x a : Addr) (v : UInt64) :
    (acStateGet (acStateSet s { (acStateGet s x).2 with balance := v }) a).2.stake =
      (acStateGet s a).2.stake := by
  rw [acStateGet_set_snd]
  split_ifs with h
  · rw [h, acStateGet_addr]
  · rfl

lemma payReward_stake (s : AcState) (proposer a : Addr) (height tips : UInt64) :
    (acStateGet (payReward s proposer height tips) a).2.stake = (acStateGet s a).2.stake :=
  (acStateSet_balance_stake _ _ _ _).trans (acStateSet_balance_stake _ _ _ _)

/-! ### The signers -/

/-- The stake of a listed signer is its stake before the block. -/
lemma preStakeLookup_mem {s : AcState} {signers : List CommitSigner} {g : CommitSigner}
    (hg : g ∈ signers) :
    preStakeLookup (preSignerTable s signers) g.signer = (acStateGet s g.signer).2.stake := by
  have hex : ∃ e, (preSignerTable s signers).find? (fun e => decide (e.1 = g.signer)) = some e := by
    rw [← Option.isSome_iff_exists, List.find?_isSome]
    exact ⟨_, List.mem_map.mpr ⟨g, hg, rfl⟩, by simp⟩
  obtain ⟨e, he⟩ := hex
  obtain ⟨g', -, rfl⟩ := List.mem_map.mp (List.mem_of_find?_eq_some he)
  have haddr : g'.signer = g.signer := by simpa using List.find?_some he
  rw [preStakeLookup, he, ← haddr]
  rfl

variable {P : Platform}

/-- A certificate that passes the signer loop: every signer passed and the sum is theirs. -/
lemma signedSqrt_some {calpha vmsg : Bytes} {total : UInt64} {stakeOf : Addr → UInt64}
    {gs : List CommitSigner} {sum r : UInt64}
    (h : signedSqrt P calpha vmsg total stakeOf gs sum = some r) :
    (∀ g ∈ gs, signerOk P calpha vmsg total (stakeOf g.signer) g = true) ∧
      r = gs.foldl (fun sum g => sum + acIsqrtU64 (stakeOf g.signer)) sum := by
  induction gs generalizing sum with
  | nil => exact ⟨by simp, (Option.some.inj h).symm⟩
  | cons g gs ih =>
    rw [signedSqrt] at h
    split_ifs at h with hg
    obtain ⟨hgs, hr⟩ := ih h
    exact ⟨List.forall_mem_cons.mpr ⟨hg, hgs⟩, hr⟩

lemma signedSqrt_of_ok {calpha vmsg : Bytes} {total : UInt64} {stakeOf : Addr → UInt64}
    {gs : List CommitSigner} (sum : UInt64)
    (h : ∀ g ∈ gs, signerOk P calpha vmsg total (stakeOf g.signer) g = true) :
    signedSqrt P calpha vmsg total stakeOf gs sum =
      some (gs.foldl (fun sum g => sum + acIsqrtU64 (stakeOf g.signer)) sum) := by
  induction gs generalizing sum with
  | nil => rfl
  | cons g gs ih =>
    rw [signedSqrt, if_pos (h g (List.mem_cons_self ..)), List.foldl_cons]
    exact ih _ fun g' hg' => h g' (List.mem_cons_of_mem _ hg')

/-- The live weight does not depend on the cache. -/
lemma acChainLiveSqrtStake_same {c d : Chain} (h : c.SameButCache d) :
    acChainLiveSqrtStake d = acChainLiveSqrtStake c := by
  rw [h.eq_withCached]
  rfl

/-- A signer that passes is an active validator. -/
lemma signerOk_stake {calpha vmsg : Bytes} {total stake : UInt64} {g : CommitSigner}
    (h : signerOk P calpha vmsg total stake g = true) : ¬ stake < acMinStakeUcrd := by
  intro hlt
  rw [signerOk, if_pos hlt] at h
  exact absurd h (by decide)

/-- A signer that passes has signed the vote. -/
lemma signerOk_verify {calpha vmsg : Bytes} {total stake : UInt64} {g : CommitSigner}
    (h : signerOk P calpha vmsg total stake g = true) : acVerify P g.sig vmsg g.signer = true := by
  rw [signerOk] at h
  split_ifs at h
  cases hvrf : acVrfVerify P g.vrfProof calpha g.signer with
  | none =>
    rw [hvrf] at h
    exact Bool.noConfusion h
  | some beta =>
    rw [hvrf, Bool.and_eq_true] at h
    exact h.2

/-- `validate_commit` passes exactly when every signer passes and the sum of their roots
meets both thresholds. -/
theorem validateCommit_iff {c : Chain} {b : Block} {blockHash : Hash} {total : UInt64}
    {stakeOf : Addr → UInt64} :
    (validateCommit P c b blockHash total stakeOf).1 = true ↔ b.signers ≠ [] ∧ total ≠ 0 ∧
      (∀ g ∈ b.signers, signerOk P
        (committeeAlpha (acChainEpochSeed P c (acEpochOf b.header.slot)).1 b.header.slot)
        (acVoteMessage b.header.height blockHash) total (stakeOf g.signer) g = true) ∧
      thresholdsMet (b.signers.foldl (fun sum g => sum + acIsqrtU64 (stakeOf g.signer)) 0)
        (acChainLiveSqrtStake c) total = true := by
  have hlive := acChainLiveSqrtStake_same
    (acChainEpochSeed_reseeded (P := P) c (acEpochOf b.header.slot)).same
  rw [validateCommit]
  constructor
  · intro h
    split_ifs at h with hempty htotal
    dsimp only at h
    split at h
    · exact absurd h (by simp)
    · rename_i signed hsigned
      obtain ⟨hok, hsum⟩ := signedSqrt_some hsigned
      rw [hsum, hlive] at h
      exact ⟨by simpa using hempty, htotal, hok, h⟩
  · rintro ⟨hne, htotal, hok, hthr⟩
    rw [if_neg (by simpa using hne), if_neg htotal]
    dsimp only
    rw [signedSqrt_of_ok 0 hok]
    dsimp only
    rw [hlive]
    exact hthr

/-- The weight of some signers, in 64 bits. -/
def signedWeight (s : AcState) (gs : List CommitSigner) : UInt64 :=
  gs.foldl (fun sum g => sum + acIsqrtU64 (acStateGet s g.signer).2.stake) 0

lemma toNat_signedWeight {s : AcState} {gs : List CommitSigner}
    (hlen : gs.length ≤ acCommitteeMax) :
    (signedWeight s gs).toNat = (gs.map fun g => weight s g.signer).sum := by
  have hle : gs.length ≤ 256 := hlen
  have h0 : (0 : UInt64).toNat = 0 := rfl
  rw [signedWeight, toNat_foldl_add _ (fun g => acIsqrtU64_lt _) gs 0 (by omega), h0, Nat.zero_add]
  rfl

/-- 256 roots below `2 ^ 32` stay far below the wrap, also when tripled. -/
lemma signedWeight_le {s : AcState} {gs : List CommitSigner} (hlen : gs.length ≤ acCommitteeMax) :
    (signedWeight s gs).toNat ≤ 2 ^ 40 := by
  rw [toNat_signedWeight hlen]
  refine (List.sum_le_card_nsmul _ (2 ^ 32) ?_).trans ?_
  · intro x hx
    obtain ⟨g, -, rfl⟩ := List.mem_map.mp hx
    exact (acIsqrtU64_lt _).le
  · have hle : gs.length ≤ 256 := hlen
    rw [List.length_map, smul_eq_mul]
    omega

/-- The weight that the signer loop adds up, from the stakes before the block. -/
lemma foldl_preStake (s : AcState) (gs : List CommitSigner) :
    gs.foldl (fun sum g => sum + acIsqrtU64 (preStakeLookup (preSignerTable s gs) g.signer)) 0 =
      signedWeight s gs :=
  List.foldl_ext _ _ _ fun _ _ hg => by rw [preStakeLookup_mem hg]

/-- The thresholds in the natural numbers, for a weight that does not wrap when tripled. -/
lemma thresholdsMet_iff {signed live total : UInt64} (hs : signed.toNat ≤ 2 ^ 40) :
    thresholdsMet signed live total = true ↔
      ((if live = 0 then total else live) * 2).toNat ≤ 3 * signed.toNat ∧
        total.toNat < 2 * signed.toNat := by
  have h2 : (2 : UInt64).toNat = 2 := rfl
  have h3 : (3 : UInt64).toNat = 3 := rfl
  rw [thresholdsMet]
  simp only [Bool.and_eq_true, Bool.not_eq_true', decide_eq_false_iff_not, UInt64.lt_iff_toNat_lt,
    UInt64.le_iff_toNat_le]
  rw [UInt64.toNat_mul signed, UInt64.toNat_mul signed, h2, h3, Nat.mod_eq_of_lt (by omega),
    Nat.mod_eq_of_lt (by omega)]
  omega

/-- **An accepted certificate**, counted entry by entry, carries more than half of the total
weight, and every entry is an active validator. -/
theorem CommitOk.majority_of_list {c : Chain} {k : Option (UInt64 × Hash)} {b : Block}
    (h : CommitOk P c k b) :
    (∀ g ∈ b.signers, g.signer ∈ validators c.state) ∧
      (acChainTotalSqrtStake c).toNat <
        2 * (b.signers.map fun g => weight c.state g.signer).sum := by
  obtain ⟨-, -, hok, hthr⟩ := validateCommit_iff.mp h
  rw [foldl_preStake] at hthr
  refine ⟨fun g hg => mem_validators.mpr ?_, ?_⟩
  · rw [← preStakeLookup_mem hg]
    exact signerOk_stake (hok g hg)
  · rw [← toNat_signedWeight b.signers_le]
    exact ((thresholdsMet_iff (signedWeight_le b.signers_le)).mp hthr).2

/-- The addresses that signed a block. -/
def Block.signerAddrs (b : Block) : List Addr := b.signers.map CommitSigner.signer

/-- A certificate that lists nobody twice is a weighted majority of the validators. -/
theorem CommitOk.majority {c : Chain} {k : Option (UInt64 × Hash)} {b : Block}
    (hs : c.state.Countable) (h : CommitOk P c k b) (hn : b.signerAddrs.Nodup) :
    Majority (weight c.state) (validators c.state).toFinset b.signerAddrs.toFinset := by
  obtain ⟨hval, hsum⟩ := h.majority_of_list
  refine ⟨?_, ?_⟩
  · intro a ha
    obtain ⟨g, hg, rfl⟩ := List.mem_map.mp (List.mem_toFinset.mp ha)
    exact List.mem_toFinset.mpr (hval g hg)
  · rw [← totalSqrtStake_toNat hs, ← sum_map_of_nodup _ hn, Block.signerAddrs, List.map_map]
    exact hsum

end AgentChain
