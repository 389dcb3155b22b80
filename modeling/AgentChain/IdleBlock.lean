import AgentChain.Nonces

/-!
# Blocks that leave the state alone

A block that passes the checks changes the state nearly always: a transaction advances the
nonce of its sender, and the reward, which is never zero, raises the balance of the proposer.
What is left is a block without transactions whose proposer is the reward pool itself.  The
pool is then credited with what it is debited by, and the state is the one before the block
unless the credit overflows.  So whether a block changes the state can be read off its
proposer, its transactions and the balance of the pool (`postState_eq_iff`).
-/

namespace AgentChain

/-- A block without transactions that the reward pool proposes, with room for the reward in
its balance. -/
structure Block.Idle (b : Block) (s : AcState) : Prop where
  txs_nil : b.txs = []
  proposer_eq : b.header.proposer = sysRewardPool
  room : (acStateGet s sysRewardPool).2.balance.toNat +
    (acChainBlockReward b.header.height).toNat < 2 ^ 64

section IdleBlock

variable {P : Platform} {s : AcState} {b : Block}

/-- There is a reward at every height. -/
lemma acChainBlockReward_pos (height : UInt64) : 0 < (acChainBlockReward height).toNat := by
  rw [acChainBlockReward]
  split_ifs
  · decide
  · decide

/-! ### Transactions -/

lemma sentBy_cons (a : Addr) (tx : Tx) (txs : List Tx) :
    (sentBy a (tx :: txs)).length = (if a = tx.sender then 1 else 0) + (sentBy a txs).length := by
  rw [sentBy, List.filter_cons, sentBy]
  by_cases ha : a = tx.sender
  · simp [ha, Nat.add_comm]
  · simp [ha, Ne.symm ha]

/-- The loop over the transactions of a block advances every nonce by the transactions that
its address has sent. -/
lemma nonceOf_applyTxs {slot baseFee : UInt64} {txs : List Tx} {l : TxLoop}
    (hok : (applyTxs P slot baseFee txs l).ok = true) (a : Addr) :
    nonceOf (applyTxs P slot baseFee txs l).state a =
      nonceOf l.state a + UInt64.ofNat (sentBy a txs).length := by
  induction txs generalizing l with
  | nil => exact (UInt64.add_zero _).symm
  | cons tx txs ih =>
    rw [applyTxs] at hok ⊢
    dsimp only at hok ⊢
    split_ifs at hok ⊢ with hsig hinc hgas
    rw [ih hok, sentBy_cons, (acStateApplyTx_nonce hinc).2 a]
    split_ifs with ha
    · rw [UInt64.ofNat_add, ← UInt64.add_assoc]
      rfl
    · rw [Nat.zero_add]

/-- A block with a transaction changes the state. -/
lemma postState_ne_of_txs (hok : (runTxs P s b).ok = true) (htxs : b.txs ≠ []) :
    postState P s b ≠ s := by
  obtain ⟨tx, txs, hcons⟩ := List.exists_cons_of_ne_nil htxs
  intro heq
  have hnonce : nonceOf (postState P s b) tx.sender =
      nonceOf s tx.sender + UInt64.ofNat (sentBy tx.sender b.txs).length :=
    (nonceOf_payReward _ _ _ _).trans (nonceOf_applyTxs (l := ⟨true, 0, 0, s⟩) hok tx.sender)
  -- the sender of the first transaction has sent between 1 and 256 of them
  have hpos : 0 < (sentBy tx.sender b.txs).length := by
    rw [hcons, sentBy_cons, if_pos rfl]
    omega
  have hle : (sentBy tx.sender b.txs).length ≤ acBlockMaxTxs :=
    (List.length_filter_le _ _).trans b.txs_le
  rw [heq, UInt64.left_eq_add] at hnonce
  have hmod := congrArg UInt64.toNat hnonce
  rw [UInt64.toNat_ofNat_of_lt' (hle.trans_lt (by decide))] at hmod
  exact hpos.ne' hmod

/-! ### The reward -/

/-- The state after a block without transactions. -/
lemma postState_of_nil (htxs : b.txs = []) :
    postState P s b = payReward s b.header.proposer b.header.height 0 := by
  rw [postState, runTxs, htxs]
  rfl

/-- The balance of the proposer after a reward that another account pays. -/
lemma balance_payReward_of_ne {proposer : Addr} (hne : proposer ≠ sysRewardPool)
    (height : UInt64) :
    (acStateGet (payReward s proposer height 0) proposer).2.balance =
      (acStateGet s proposer).2.balance + acChainBlockReward height := by
  rw [payReward, acStateDebit, acStateGet_set_snd, acStateGet_addr, if_neg hne, acStateCredit,
    acStateGet_set_snd, acStateGet_addr, if_pos rfl, UInt64.add_zero]

/-- A reward that the pool pays itself writes its record twice. -/
lemma payReward_pool (height : UInt64) :
    payReward s sysRewardPool height 0 =
      let a := (acStateGet s sysRewardPool).2
      let r := acChainBlockReward height
      acStateSet (acStateSet s { a with balance := a.balance + r })
        { a with balance := if a.balance + r < r then 0 else a.balance + r - r } := by
  simp only [payReward, acStateDebit, acStateCredit, acStateGet_set_snd, acStateGet_addr,
    UInt64.add_zero, if_true]

/-- A record that is written and then written back as it was. -/
lemma acStateSet_set_self {x y : Account} (hx : x ∈ s.accounts) (hfull : accountIsEmpty x = false)
    (haddr : y.addr = x.addr) : acStateSet (acStateSet s y) x = s := by
  refine AcState.ext rfl ?_ rfl
  refine (acStateSet (acStateSet s y) x).accounts_sorted.eq_of_mem_iff s.accounts_sorted
    fun z => ?_
  rw [mem_acStateSet, mem_acStateSet, haddr]
  constructor
  · rintro (⟨rfl, -⟩ | ⟨⟨rfl, -⟩ | ⟨hz, -⟩, hne⟩)
    · exact hx
    · exact absurd haddr hne
    · exact hz
  · intro hz
    by_cases hzx : z.addr = x.addr
    · refine Or.inl ⟨?_, hfull⟩
      have hget := acStateGet_of_mem hz
      rw [hzx, acStateGet_of_mem hx] at hget
      exact (Prod.mk.inj hget).2.symm
    · exact Or.inr ⟨Or.inr ⟨hz, hzx⟩, hzx⟩

/-- Credit and debit of one amount, in words. -/
lemma credit_debit_eq_iff {x r : UInt64} (hr : 0 < r.toNat) :
    (if x + r < r then 0 else x + r - r) = x ↔ x.toNat + r.toNat < 2 ^ 64 := by
  have hx := x.toNat_lt
  have hr' := r.toNat_lt
  split_ifs with hlt
  · rw [UInt64.lt_iff_toNat_lt, UInt64.toNat_add] at hlt
    rw [← UInt64.toNat_inj, UInt64.toNat_zero]
    omega
  · rw [UInt64.lt_iff_toNat_lt, UInt64.toNat_add] at hlt
    refine iff_of_true (UInt64.add_sub_cancel x r) ?_
    omega

/-- A reward that the pool pays itself leaves the state exactly when it fits. -/
lemma payReward_pool_eq_iff (hstake : ¬ (acStateGet s sysRewardPool).2.stake < acMinStakeUcrd)
    (height : UInt64) :
    payReward s sysRewardPool height 0 = s ↔
      (acStateGet s sysRewardPool).2.balance.toNat + (acChainBlockReward height).toNat <
        2 ^ 64 := by
  rw [payReward_pool, ← credit_debit_eq_iff (acChainBlockReward_pos height)]
  dsimp only
  constructor
  · intro heq
    have hbal := congrArg (fun t => (acStateGet t sysRewardPool).2.balance) heq
    rw [acStateGet_set_snd, acStateGet_addr, if_pos rfl] at hbal
    exact hbal
  · intro hbal
    rw [hbal]
    obtain ⟨x, hx, haddr, hget⟩ := acStateGet_staked hstake
    rw [hget] at hstake ⊢
    refine acStateSet_set_self hx ?_ rfl
    have hne : x.stake ≠ 0 := fun hzero => by
      rw [hzero] at hstake
      exact hstake (by decide)
    simp [accountIsEmpty, hne]

/-! ### The state after a block -/

/-- **When a block leaves the state alone.**  The proposer of a block that passes the checks is
a validator, and a block with a staked proposer changes the state unless it is idle. -/
theorem postState_eq_iff (hok : (runTxs P s b).ok = true)
    (hstake : ¬ (acStateGet s b.header.proposer).2.stake < acMinStakeUcrd) :
    postState P s b = s ↔ b.Idle s := by
  by_cases htxs : b.txs = []
  · by_cases hpool : b.header.proposer = sysRewardPool
    · rw [hpool] at hstake
      rw [postState_of_nil htxs, hpool, payReward_pool_eq_iff hstake]
      exact ⟨fun hroom => ⟨htxs, hpool, hroom⟩, fun h => h.room⟩
    · refine iff_of_false (fun heq => ?_) fun h => hpool h.proposer_eq
      rw [postState_of_nil htxs] at heq
      have hbal := balance_payReward_of_ne (s := s) hpool b.header.height
      rw [heq, UInt64.left_eq_add] at hbal
      exact (acChainBlockReward_pos b.header.height).ne' (congrArg UInt64.toNat hbal)
  · exact iff_of_false (postState_ne_of_txs hok htxs) fun h => htxs h.txs_nil

end IdleBlock

end AgentChain
