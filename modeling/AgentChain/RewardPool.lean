import AgentChain.Names
import AgentChain.Restart

/-!
# The reward pool

After the transactions of a block, `ac_chain_accept_block` credits the proposer with the reward
and the tips and debits the pool by the reward.  The credit is unconditional and adds modulo
`2 ^ 64`, the debit stops at zero.  So the reward is a payment out of the pool exactly when
the pool holds it and the proposer has room for it; once the pool is empty the reward is new
money.  As long as every reward is covered, what was paid is what has left the pool.  It is no
more than the pool ever held, provided that the pool itself neither proposes a block nor sends
a transaction: the pool is an ordinary account, and nothing in the code keeps a holder of its
key from doing so.
-/

namespace AgentChain

open Trace

/-- The balance of an address. -/
def balanceOf (s : AcState) (a : Addr) : UInt64 := (acStateGet s a).2.balance

/-- The pool has no part in the block: it does not propose it and sends no transaction of it. -/
structure Block.PoolPassive (b : Block) : Prop where
  proposer_ne : b.header.proposer ≠ sysRewardPool
  sender_ne : ∀ tx ∈ b.txs, tx.sender ≠ sysRewardPool

section RewardPool

variable {P : Platform} {s : AcState} {b : Block}

/-! ### One block -/

/-- The reward of a block. -/
def Block.reward (b : Block) : ℕ := (acChainBlockReward b.header.height).toNat

variable (P) in
/-- The state between the credit of the proposer and the debit of the pool. -/
def creditedState (s : AcState) (b : Block) : AcState :=
  acStateCredit (runTxs P s b).state b.header.proposer
    (acChainBlockReward b.header.height + (runTxs P s b).totalTips)

variable (P) in
/-- What the debit takes out of the pool. -/
def poolPaid (s : AcState) (b : Block) : ℕ :=
  (balanceOf (creditedState P s b) sysRewardPool).toNat -
    (balanceOf (postState P s b) sysRewardPool).toNat

/-- The reward is a payment from the pool: the proposer gets it, beside the tips, and the pool
loses it. -/
structure PaysFromPool (P : Platform) (s : AcState) (b : Block) : Prop where
  credited : (balanceOf (creditedState P s b) b.header.proposer).toNat =
    (balanceOf (runTxs P s b).state b.header.proposer).toNat + b.reward +
      (runTxs P s b).totalTips.toNat
  debited : poolPaid P s b = b.reward

/-- When the reward is due, the proposer has room for it and the pool holds it, unless the pool
is the proposer and pays out of what it is credited with. -/
structure PoolCovers (P : Platform) (s : AcState) (b : Block) : Prop where
  room : (balanceOf (runTxs P s b).state b.header.proposer).toNat + b.reward +
    (runTxs P s b).totalTips.toNat < 2 ^ 64
  funded : b.header.proposer ≠ sysRewardPool →
    b.reward ≤ (balanceOf (runTxs P s b).state sysRewardPool).toNat

lemma balanceOf_credit (s : AcState) (addr : Addr) (amount : UInt64) (x : Addr) :
    balanceOf (acStateCredit s addr amount) x =
      if x = addr then balanceOf s addr + amount else balanceOf s x := by
  rw [balanceOf, acStateCredit, acStateGet_set_snd]
  simp only [acStateGet_addr]
  split_ifs <;> rfl

/-- A debit takes the amount, or everything when that is less. -/
lemma balanceOf_debit (s : AcState) (addr : Addr) (amount : UInt64) :
    (balanceOf (acStateDebit s addr amount) addr).toNat =
      (balanceOf s addr).toNat - amount.toNat := by
  rw [balanceOf, acStateDebit, acStateGet_set_snd]
  simp only [acStateGet_addr, if_true]
  split_ifs with h
  · rw [UInt64.lt_iff_toNat_lt] at h
    rw [balanceOf, Nat.sub_eq_zero_of_le h.le]
    rfl
  · exact UInt64.toNat_sub_of_le _ _ (UInt64.not_lt.mp h)

/-- The pool after a block. -/
lemma balanceOf_postState (s : AcState) (b : Block) :
    (balanceOf (postState P s b) sysRewardPool).toNat =
      (balanceOf (creditedState P s b) sysRewardPool).toNat - b.reward :=
  balanceOf_debit (creditedState P s b) sysRewardPool _

/-- The credit does not touch the pool, unless the pool proposes. -/
lemma balanceOf_creditedState (hne : b.header.proposer ≠ sysRewardPool) :
    balanceOf (creditedState P s b) sysRewardPool =
      balanceOf (runTxs P s b).state sysRewardPool := by
  rw [creditedState, balanceOf_credit, if_neg hne.symm]

/-- **One block** pays its reward from the pool exactly when the pool covers it. -/
theorem paysFromPool_iff : PaysFromPool P s b ↔ PoolCovers P s b := by
  have hpool := balanceOf_postState (P := P) s b
  have hcredit := congrArg UInt64.toNat (balanceOf_credit (runTxs P s b).state b.header.proposer
    (acChainBlockReward b.header.height + (runTxs P s b).totalTips) b.header.proposer)
  rw [if_pos rfl, UInt64.toNat_add, UInt64.toNat_add, Nat.add_mod_mod, ← Nat.add_assoc] at hcredit
  constructor
  · rintro ⟨hcred, hdeb⟩
    refine ⟨?_, fun hne => ?_⟩
    · rw [← hcred]
      exact UInt64.toNat_lt _
    · rw [poolPaid, hpool, balanceOf_creditedState hne] at hdeb
      omega
  · rintro ⟨hroom, hfunded⟩
    have hcredited := hcredit.trans (Nat.mod_eq_of_lt hroom)
    refine ⟨hcredited, ?_⟩
    rw [poolPaid, hpool]
    by_cases hne : b.header.proposer = sysRewardPool
    · -- the credit holds the reward
      rw [← hne]
      have hle : b.reward ≤ (balanceOf (creditedState P s b) b.header.proposer).toNat := by
        rw [creditedState, hcredited, Block.reward]
        omega
      omega
    · have hle := hfunded hne
      rw [balanceOf_creditedState hne]
      omega

/-! ### Transfers into the pool -/

/-- What a transaction with the given return code transfers to the pool. -/
def poolTransfer (e : Tx × ApplyRc) : ℕ :=
  match TxKind.ofCode e.1.kind, acBodyTransferDecode e.1.body with
  | some .transfer, some body =>
      if e.2 = .applied ∧ body.recipient = sysRewardPool then body.amount.toNat else 0
  | _, _ => 0

variable (P) in
/-- What the transactions of a block transfer to the pool. -/
def poolTransfers (s : AcState) (b : Block) : ℕ :=
  ((txLog P b.header.slot b.header.baseFee s b.txs).map poolTransfer).sum

lemma balanceOf_set (s : AcState) (acc : Account) (x : Addr) :
    balanceOf (acStateSet s acc) x = if x = acc.addr then acc.balance else balanceOf s x := by
  rw [balanceOf, acStateGet_set_snd]
  split_ifs <;> rfl

/-- **One transaction** of somebody else adds to the pool what it transfers there. -/
lemma balanceOf_applyTx_le (s : AcState) (tx : Tx) (slot baseFee : UInt64)
    (hne : tx.sender ≠ sysRewardPool) :
    (balanceOf (acStateApplyTx P s tx slot baseFee).2.2 sysRewardPool).toNat ≤
      (balanceOf s sysRewardPool).toNat +
        poolTransfer (tx, (acStateApplyTx P s tx slot baseFee).1) := by
  rcases acStateApplyTx_cases (P := P) s tx slot baseFee with ⟨err, -, he⟩ | ⟨a, ha, he⟩
  · rw [he]
    exact Nat.le_add_right _ _
  · obtain ⟨igas, value, hadm⟩ := admitTx_admission ha
    -- the record of the sender is written back beside the pool
    have hbody : balanceOf (acStateApplyTx P s tx slot baseFee).2.2 sysRewardPool =
        balanceOf (applyBody P s tx slot a).state sysRewardPool := by
      rw [he]
      exact (balanceOf_set _ _ _).trans (if_neg hne.symm)
    rw [hbody, he]
    rcases applyBody_cases (P := P) s tx slot a with hfail | hdone
    · rw [hfail.state_eq]
      exact Nat.le_add_right _ _
    · generalize applyBody P s tx slot a = o at hdone ⊢
      cases hdone with
      | transfer body hkind hdec =>
        have hcode := hadm.kind_eq
        rw [hkind] at hcode
        rw [balanceOf_set]
        by_cases hrec : sysRewardPool = body.recipient
        · rw [if_pos hrec]
          have hval : poolTransfer (tx, ApplyRc.applied) = body.amount.toNat := by
            simp [poolTransfer, hcode, hdec, hrec]
          have hle : ((acStateGet s body.recipient).2.balance + body.amount).toNat ≤
              (balanceOf s sysRewardPool).toNat + body.amount.toNat := by
            rw [UInt64.toNat_add, ← hrec]
            exact Nat.mod_le _ _
          exact hle.trans_eq (congrArg _ hval.symm)
        · rw [if_neg hrec]
          exact Nat.le_add_right _ _
      | registerName name t hkind hdec hle hnew =>
        have haccounts := (acStateNameRegister_accounts hnew).1
        have hsame : balanceOf t sysRewardPool = balanceOf s sysRewardPool := by
          rw [balanceOf, balanceOf, acStateGet, acStateGet, haccounts]
        rw [hsame]
        exact Nat.le_add_right _ _
      | slashEvidence body hkind hdec =>
        rw [balanceOf_set]
        dsimp only
        rw [acStateGet_addr]
        split_ifs with hv
        · rw [← hv]
          exact Nat.le_add_right _ _
        · exact Nat.le_add_right _ _
      | stakeBond => exact Nat.le_add_right _ _
      | stakeUnbond => exact Nat.le_add_right _ _

/-- Transactions of others add to the pool what they transfer there. -/
lemma balanceOf_applyTxs_le {slot baseFee : UInt64} {txs : List Tx} {l : TxLoop}
    (hsenders : ∀ tx ∈ txs, tx.sender ≠ sysRewardPool)
    (hok : (applyTxs P slot baseFee txs l).ok = true) :
    (balanceOf (applyTxs P slot baseFee txs l).state sysRewardPool).toNat ≤
      (balanceOf l.state sysRewardPool).toNat +
        ((txLog P slot baseFee l.state txs).map poolTransfer).sum := by
  induction txs generalizing l with
  | nil => exact Nat.le_add_right _ _
  | cons tx txs ih =>
    rw [applyTxs] at hok ⊢
    dsimp only at hok ⊢
    split_ifs at hok ⊢ with hsig hinc hgas
    have htx := balanceOf_applyTx_le (P := P) l.state tx slot baseFee
      (hsenders tx List.mem_cons_self)
    have hrest := ih (fun tx' htx' => hsenders tx' (List.mem_cons_of_mem _ htx')) hok
    rw [txLog, List.map_cons, List.sum_cons]
    dsimp only at hrest ⊢
    omega

/-! ### Runs -/

/-- The account of the pool over a list of blocks that was executed from a state: when every
reward was covered and the pool had no part in a block, what it holds is at most what it had
and got, less the rewards. -/
def PoolAccount (P : Platform) (s₀ : AcState) (bs : List Block) : Prop :=
  (∀ x ∈ blockSteps P s₀ bs, PoolCovers P x.1 x.2) → (∀ b ∈ bs, b.PoolPassive) →
    (balanceOf (replay P s₀ bs) sysRewardPool).toNat +
        ((blockSteps P s₀ bs).map fun x => x.2.reward).sum ≤
      (balanceOf s₀ sysRewardPool).toNat +
        ((blockSteps P s₀ bs).map fun x => poolTransfers P x.1 x.2).sum

/-- A block that passes keeps the account. -/
lemma PoolAccount.concat {s₀ : AcState} {bs : List Block} {now : UInt64} {c : Chain}
    (h : PoolAccount P s₀ bs) (hstate : c.state = replay P s₀ bs)
    (hpass : PassesChecks P now c b) : PoolAccount P s₀ (bs ++ [b]) := by
  intro hcov hpassive
  rw [blockSteps_concat] at hcov ⊢
  have hprev := h (fun x hx => hcov x (List.mem_append_left _ hx))
    fun x hx => hpassive x (List.mem_append_left _ hx)
  obtain ⟨hne, hsenders⟩ := hpassive b (List.mem_append_right _ (List.mem_singleton_self _))
  have hlast := (hcov _ (List.mem_append_right _ (List.mem_singleton_self _))).funded hne
  have hok := hpass.txs_ok
  rw [hstate] at hok
  have hin : (balanceOf (runTxs P (replay P s₀ bs) b).state sysRewardPool).toNat ≤
      (balanceOf (replay P s₀ bs) sysRewardPool).toNat + poolTransfers P (replay P s₀ bs) b :=
    balanceOf_applyTxs_le (l := ⟨true, 0, 0, replay P s₀ bs⟩) hsenders hok
  have hpost := balanceOf_postState (P := P) (replay P s₀ bs) b
  rw [balanceOf_creditedState hne] at hpost
  rw [replay_snoc, hpost, List.map_append, List.map_append, List.sum_append, List.sum_append,
    List.map_singleton, List.map_singleton, List.sum_singleton, List.sum_singleton]
  dsimp only at hlast ⊢
  omega

/-- A genesis file with a validator and a line that replaces the reward pool. -/
def poolLineGenesis : Genesis := { drainedGenesis with timestampMs := 1 }

end RewardPool

end AgentChain
