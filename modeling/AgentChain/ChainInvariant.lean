import AgentChain.Nonces

/-!
# The stored chain and its replay

Whatever blocks are offered to a chain that was opened from a genesis, the block files up to
its height are the linked history of its tip, and the state in memory is what a plain replay
of these files yields.  The replay applies every transaction in order and pays the reward;
none of the checks of `ac_chain_accept_block` is part of it.
-/

namespace AgentChain

open Trace

section Replay

variable (P : Platform)

/-- One transaction of a replay, with the gas and the tips so far. -/
def replayTx (slot baseFee : UInt64) (a : AcState × UInt64 × UInt64) (tx : Tx) :
    AcState × UInt64 × UInt64 :=
  let r := acStateApplyTx P a.1 tx slot baseFee
  (r.2.2, a.2.1 + r.2.1.gasUsed, a.2.2 + r.2.1.feeTip)

/-- The transactions of a block, one after the other. -/
def replayTxs (s : AcState) (b : Block) : AcState × UInt64 × UInt64 :=
  b.txs.foldl (replayTx P b.header.slot b.header.baseFee) (s, 0, 0)

/-- A block: its transactions, then the reward and the tips. -/
def replayBlock (s : AcState) (b : Block) : AcState :=
  let r := replayTxs P s b
  payReward r.1 b.header.proposer b.header.height r.2.2

/-- The replay of the block files of the heights from one to `n`; `none` when a file is
missing. -/
def replayStored (d : DataDir) (s : AcState) : ℕ → Option AcState
  | 0 => some s
  | n + 1 =>
      match replayStored d s n, blockRead d (UInt64.ofNat (n + 1)) with
      | some t, some b => some (replayBlock P t b)
      | _, _ => none

variable {P}

/-- The transaction loop of a block that passes is a replay. -/
lemma applyTxs_eq_foldl {slot baseFee : UInt64} {txs : List Tx} {l : TxLoop}
    (h : (applyTxs P slot baseFee txs l).ok = true) :
    ((applyTxs P slot baseFee txs l).state, (applyTxs P slot baseFee txs l).totalGas,
      (applyTxs P slot baseFee txs l).totalTips) =
        txs.foldl (replayTx P slot baseFee) (l.state, l.totalGas, l.totalTips) := by
  induction txs generalizing l with
  | nil => rfl
  | cons tx txs ih =>
    rw [applyTxs] at h ⊢
    dsimp only at h ⊢
    split_ifs at h ⊢
    exact ih h

lemma runTxs_eq_replayTxs {s : AcState} {b : Block} (h : (runTxs P s b).ok = true) :
    ((runTxs P s b).state, (runTxs P s b).totalGas, (runTxs P s b).totalTips) =
      replayTxs P s b :=
  applyTxs_eq_foldl h

/-- The state after an accepted block is the replayed one. -/
lemma postState_eq_replayBlock {s : AcState} {b : Block} (h : (runTxs P s b).ok = true) :
    postState P s b = replayBlock P s b := by
  rw [postState, replayBlock, ← runTxs_eq_replayTxs h]

end Replay

/-! ### The invariant -/

/-- The block stored at a height. -/
def Chain.blockAt (c : Chain) (k : ℕ) : Option Block := blockRead c.dir (UInt64.ofNat k)

/-- The base fee that a block on top of the block `a` at height `k` should have. -/
def nextFee (k : ℕ) (a : BlockHeader) : UInt64 :=
  if k = 0 then acMinBaseFee else acChainNextBaseFee a.baseFee a.gasUsed a.gasLimit

/-- What holds between the block `a` at height `k` and the block `b` on top of it. -/
structure LinksTo (P : Platform) (k : ℕ) (a b : Block) : Prop where
  parent : b.header.parentHash = acBlockHash P a.header
  slot : a.header.slot < b.header.slot
  fee_le : b.header.baseFee.toNat ≤ (nextFee k a.header).toNat + 1
  le_fee : (nextFee k a.header).toNat ≤ b.header.baseFee.toNat + 1

/-- What holds of a stored block and the state before it. -/
structure Executes (P : Platform) (s : AcState) (b : Block) : Prop where
  txRoot : b.header.txRoot = acBlockTxRoot P b.txs
  gasUsed : b.header.gasUsed = (replayTxs P s b).2.1
  stateRoot : b.header.stateRoot = acStateRoot P (replayBlock P s b)

/-- The stored chain is the history of the tip, and the state is its replay. -/
structure ChainInvariant (P : Platform) (g : Genesis) (c : Chain) : Prop where
  genesis : ∃ b, c.blockAt 0 = some b ∧ b.txs = [] ∧ b.header.txRoot = acBlockTxRoot P b.txs ∧
    b.header.gasUsed = 0 ∧ b.header.stateRoot = acStateRoot P (genesisState g)
  stored : ∀ k ≤ c.height.toNat, ∃ b, c.blockAt k = some b ∧ b.header.height.toNat = k
  links : ∀ k < c.height.toNat, ∀ a b, c.blockAt k = some a → c.blockAt (k + 1) = some b →
    LinksTo P k a b
  executes : ∀ k < c.height.toNat, ∀ b, c.blockAt (k + 1) = some b →
    ∃ s, replayStored P c.dir (genesisState g) k = some s ∧ Executes P s b
  tip : ∃ b, c.blockAt c.height.toNat = some b ∧ c.tipHash = acBlockHash P b.header ∧
    c.lastSlot = b.header.slot ∧ c.lastTimestampMs = b.header.timestampMs ∧
    c.baseFee = b.header.baseFee
  state : replayStored P c.dir (genesisState g) c.height.toNat = some c.state

section Invariant

variable {P : Platform} {g : Genesis} {bs : List Block} {c : Chain}

lemma Ledger.blockAt_eq (h : Ledger P g bs c) {k : ℕ} (hk : k ≤ bs.length) :
    c.blockAt k = some (tipBlock P g (bs.take k)) :=
  (h.stored k hk).trans (getElem?_eq_tipBlock hk)

/-- The base fee check in the natural numbers. -/
lemma fee_tolerance {fee expected : UInt64} (hmin : ¬ fee < acMinBaseFee)
    (hlow : ¬ fee + 1 < expected) (hhigh : ¬ expected + 1 < fee) :
    fee.toNat ≤ expected.toNat + 1 ∧ expected.toNat ≤ fee.toNat + 1 := by
  have h1 : (1 : UInt64).toNat = 1 := rfl
  have hm : acMinBaseFee.toNat = 1 := rfl
  have hf := fee.toNat_lt
  have he := expected.toNat_lt
  rw [UInt64.lt_iff_toNat_lt, hm] at hmin
  rw [UInt64.lt_iff_toNat_lt, UInt64.toNat_add, h1] at hlow hhigh
  omega

lemma Ledger.getHeader_tip (h : Ledger P g bs c) :
    acChainGetHeaderByHeight c c.height = some (tipBlock P g bs).header := by
  have hat := h.blockAt_eq le_rfl
  rw [List.take_length, Chain.blockAt, ← h.height_eq, UInt64.ofNat_toNat] at hat
  rw [acChainGetHeaderByHeight, hat]
  rfl

/-- The fee expected on a chain is the one expected on top of its tip. -/
lemma Ledger.expectedBaseFee_eq (h : Ledger P g bs c) :
    expectedBaseFee c = nextFee bs.length (tipBlock P g bs).header := by
  have hzero : 1 ≤ c.height ↔ bs.length ≠ 0 := by
    rw [UInt64.le_iff_toNat_le, h.height_eq, show (1 : UInt64).toNat = 1 from rfl]
    omega
  rw [expectedBaseFee, nextFee, h.getHeader_tip]
  by_cases hlen : bs.length = 0
  · rw [if_neg (fun hge => hzero.mp hge hlen), if_pos hlen]
  · rw [if_pos (hzero.mpr hlen), if_neg hlen]

/-- A block that passes the checks links to the tip. -/
lemma PassesChecks.linksTo {now : UInt64} {b : Block} (hc : Ledger P g bs c)
    (h : PassesChecks P now c b) : LinksTo P bs.length (tipBlock P g bs) b := by
  obtain ⟨-, -, -, -, hparent⟩ := checkLink_eq_none.mp h.link
  obtain ⟨hslot, -⟩ := checkTime_eq_none.mp h.time
  obtain ⟨hmin, hlow, hhigh⟩ := checkBaseFee_eq_none.mp h.fee
  rw [hc.expectedBaseFee_eq] at hlow hhigh
  obtain ⟨hfee, hfee'⟩ := fee_tolerance hmin hlow hhigh
  refine ⟨hparent.trans hc.tipHash_eq, ?_, hfee, hfee'⟩
  rw [← hc.lastSlot_eq]
  exact UInt64.not_le.mp hslot

/-- A block that passes the checks executes on the state of the chain. -/
lemma PassesChecks.executes {now : UInt64} {b : Block} (h : PassesChecks P now c b) :
    Executes P c.state b where
  txRoot := h.txRoot.symm
  gasUsed := by rw [← h.gas, ← runTxs_eq_replayTxs h.txs_ok]
  stateRoot := by rw [← h.stateRoot, postState_eq_replayBlock h.txs_ok]

/-- The replay of the files up to a height is the state of the chain at that height. -/
lemma Reachable.replayStored_eq (hP : P.MallocBounded) (h : Reachable P g bs c) {k : ℕ}
    (hk : k ≤ bs.length) :
    replayStored P c.dir (genesisState g) k = some (replay P (genesisState g) (bs.take k)) := by
  induction k with
  | zero => rfl
  | succ k ih =>
    have hb : bs[k]? = some bs[k] := List.getElem?_eq_getElem hk
    obtain ⟨c₁, now, -, hc₁, hpass, -⟩ := h.accepted_at hP hb
    have hat : blockRead c.dir (UInt64.ofNat (k + 1)) = some bs[k] := by
      rw [(h.ledger hP).stored (k + 1) hk, List.getElem?_cons_succ, hb]
    have hpost := postState_eq_replayBlock hpass.txs_ok
    rw [(hc₁.ledger hP).state_eq] at hpost
    rw [replayStored, ih (Nat.le_of_succ_le hk), hat, List.take_succ_eq_append_getElem hk,
      replay_snoc, hpost]

/-- Every reachable chain satisfies the invariant. -/
lemma Reachable.chainInvariant (hP : P.MallocBounded) (h : Reachable P g bs c) :
    ChainInvariant P g c := by
  have hc := h.ledger hP
  have hlen := hc.height_eq
  -- the block above height `k`, and the chain that accepted it
  have hnext : ∀ k < bs.length, ∀ b, c.blockAt (k + 1) = some b →
      ∃ c₁ now, Ledger P g (bs.take k) c₁ ∧ PassesChecks P now c₁ b := by
    intro k hk b hb
    have hget : bs[k]? = some b := by
      rw [← hb, Chain.blockAt, hc.stored (k + 1) hk, List.getElem?_cons_succ]
    obtain ⟨c₁, now, -, hc₁, hpass, -⟩ := h.accepted_at hP hget
    exact ⟨c₁, now, hc₁.ledger hP, hpass⟩
  refine
    { genesis := ⟨genesisBlock P g, hc.stored 0 (Nat.zero_le _), rfl, rfl, rfl, rfl⟩
      stored := ?_
      links := ?_
      executes := ?_
      tip := ⟨tipBlock P g bs, ?_, hc.tipHash_eq, hc.lastSlot_eq, hc.lastTimestampMs_eq,
        hc.baseFee_eq⟩
      state := ?_ }
  · intro k hk
    rw [hlen] at hk
    refine ⟨_, hc.blockAt_eq hk, ?_⟩
    cases k with
    | zero => rfl
    | succ k =>
      obtain ⟨c₁, now, hc₁, hpass⟩ := hnext k hk _ (hc.blockAt_eq hk)
      rw [height_of_checkLink hpass.link, hc₁.height_eq, List.length_take]
      omega
  · intro k hk a b ha hb
    rw [hlen] at hk
    obtain ⟨c₁, now, hc₁, hpass⟩ := hnext k hk b hb
    rw [hc.blockAt_eq hk.le, Option.some.injEq] at ha
    have hlink := hpass.linksTo hc₁
    rw [ha, List.length_take, Nat.min_eq_left hk.le] at hlink
    exact hlink
  · intro k hk b hb
    rw [hlen] at hk
    obtain ⟨c₁, now, hc₁, hpass⟩ := hnext k hk b hb
    exact ⟨_, h.replayStored_eq hP hk.le, hc₁.state_eq ▸ hpass.executes⟩
  · rw [hlen, hc.blockAt_eq le_rfl, List.take_length]
  · rw [hlen, h.replayStored_eq hP le_rfl, List.take_length, hc.state_eq]

/-- A run leaves the block files up to the height alone. -/
lemma Reachable.blockAt_run (hP : P.MallocBounded) (h : Reachable P g bs c) {new : List Block}
    {d : Chain} (hrun : Run (ChainStep P) c new d) {k : ℕ} (hk : k ≤ c.height.toNat) :
    d.blockAt k = c.blockAt k := by
  have hc := h.ledger hP
  have hd : Ledger P g (bs ++ new) d := by
    obtain ⟨w, dir, c₀, hdir, hopen, hrun₀⟩ := h
    exact Reachable.ledger hP ⟨w, dir, c₀, hdir, hopen, hrun₀.trans hrun⟩
  rw [hc.height_eq] at hk
  rw [hc.blockAt_eq hk, hd.blockAt_eq (hk.trans (by simp)), List.take_append_of_le_length hk]

/-- **The chain invariant and replay.**  On every chain reached from a genesis the stored
blocks are linked, the tip fields are those of the stored tip, every block executes to what
its header says and the state is the replay of the block files; and no run changes a stored
block. -/
theorem stored_chain_replays (hP : P.MallocBounded) (h : Reachable P g bs c) :
    ChainInvariant P g c ∧ ∀ new d, Run (ChainStep P) c new d →
      ∀ k ≤ c.height.toNat, d.blockAt k = c.blockAt k :=
  ⟨h.chainInvariant hP, fun _ _ hrun _ hk => h.blockAt_run hP hrun hk⟩

end Invariant

/-- A chain on the reference platform whose only block has a transfer. -/
theorem stored_chain_replays_reference : ∃ c, c.height = 1 ∧ payBlock.txs = [payTx] ∧
    Reachable reference mintGenesis [payBlock] c ∧
    ChainInvariant reference mintGenesis c ∧ ∀ new d, Run (ChainStep reference) c new d →
      ∀ k ≤ c.height.toNat, d.blockAt k = c.blockAt k := by
  have hrun : (acChainAcceptBlock reference 100000 .all (openedChain mintGenesis)
        payBlock).1 = .ok ∧
      (acChainAcceptBlock reference 100000 .all (openedChain mintGenesis) payBlock).2.height = 1 ∧
      payBlock.txs = [payTx] := by
    decide +kernel
  obtain ⟨hok, hheight, htxs⟩ := hrun
  have hreach := (reachable_openedChain (g := mintGenesis) (by decide +kernel)).step
    (ChainStep.accepted 100000 .all _ payBlock hok)
  exact ⟨_, hheight, htxs, hreach, stored_chain_replays reference_mallocBounded hreach⟩

end AgentChain
