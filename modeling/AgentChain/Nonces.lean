import AgentChain.Supply

/-!
# Nonces and replay

A transaction is admitted with the nonce that its sender's record holds, and the record is
written back with the next one, whether the body succeeded or not.  Nothing else touches a
nonce: a body rewrites the records of a recipient or of a slashed validator with the nonce
they had, rewards and debits keep it, and a block that is rejected is rolled back.  So the
nonce of an address counts the transactions it has sent, as long as every block that was
executed is also accepted.  A call that fails in one of its writes leaves the nonces advanced
and accepts nothing.
-/

namespace AgentChain

open Trace

/-- The nonce of an address, zero without an account. -/
def nonceOf (s : AcState) (a : Addr) : UInt64 := (acStateGet s a).2.nonce

section Nonces

variable {P : Platform} {s : AcState}

/-! ### One transaction -/

/-- A record that is written back with its nonce leaves every nonce alone. -/
lemma nonceOf_set {acc : Account} (h : acc.nonce = nonceOf s acc.addr) (x : Addr) :
    nonceOf (acStateSet s acc) x = nonceOf s x := by
  rw [nonceOf, acStateGet_set_snd]
  split_ifs with hx
  · rw [h, hx]
  · rfl

/-- What a body does to nonces: those in the store stay, and so does the one in the record of
the sender. -/
structure BodyOutcome.KeepsNonces (s : AcState) (a : Admitted) (o : BodyOutcome) : Prop where
  state_eq : ∀ x, nonceOf o.state x = nonceOf s x
  sender_eq : o.sender.nonce = a.sender.nonce

lemma BodyOutcome.Failed.keepsNonces {a : Admitted} {o : BodyOutcome} (h : o.Failed s a) :
    o.KeepsNonces s a :=
  ⟨fun x => by rw [h.state_eq], by rw [h.sender_eq]⟩

lemma applyBody_keepsNonces (s : AcState) (tx : Tx) (slot : UInt64) (a : Admitted) :
    (applyBody P s tx slot a).KeepsNonces s a := by
  rcases applyBody_cases (P := P) s tx slot a with h | h
  · exact h.keepsNonces
  · generalize applyBody P s tx slot a = o at h ⊢
    cases h with
    | transfer b hkind hbody => exact ⟨fun x => nonceOf_set rfl x, rfl⟩
    | stakeBond amount hkind hbody hle => exact ⟨fun _ => rfl, rfl⟩
    | stakeUnbond amount unbondAt hkind hbody hle => exact ⟨fun _ => rfl, rfl⟩
    | registerName name t hkind hbody hle hnew =>
      refine ⟨fun x => ?_, rfl⟩
      dsimp only
      rw [nonceOf, nonceOf, acStateGet, acStateGet, (acStateNameRegister_accounts hnew).1]
    | slashEvidence b hkind hbody hne hsig hstake =>
      refine ⟨fun x => nonceOf_set ?_ x, rfl⟩
      dsimp only
      rw [acStateGet_addr, nonceOf]

/-- A transaction is admitted with the nonce of its sender. -/
lemma admitTx_nonce {tx : Tx} {slot baseFee : UInt64} {a : Admitted}
    (h : admitTx s tx slot baseFee = .ok a) : tx.nonce = nonceOf s tx.sender := by
  rw [admitTx] at h
  by_contra hne
  rw [nonceOf] at hne
  simp only [ne_eq, hne, not_false_eq_true, if_true] at h
  split_ifs at h

/-- **One transaction.**  A transaction that is included carries the nonce of its sender and
advances this nonce alone. -/
theorem acStateApplyTx_nonce {tx : Tx} {slot baseFee : UInt64}
    (h : (acStateApplyTx P s tx slot baseFee).1 ≠ .rejected) :
    tx.nonce = nonceOf s tx.sender ∧ ∀ x, nonceOf (acStateApplyTx P s tx slot baseFee).2.2 x =
      if x = tx.sender then nonceOf s x + 1 else nonceOf s x := by
  rcases acStateApplyTx_cases (P := P) s tx slot baseFee with ⟨err, -, he⟩ | ⟨a, ha, he⟩
  · rw [he] at h
    exact absurd rfl h
  · obtain ⟨igas, value, hadm⟩ := admitTx_admission ha
    have hbody := applyBody_keepsNonces (P := P) s tx slot a
    refine ⟨admitTx_nonce ha, fun x => ?_⟩
    rw [he]
    -- the record of the sender overwrites what the body left at its address
    show (acStateGet (acStateSet _ _) x).2.nonce = _
    rw [acStateGet_set_snd]
    split_ifs with hx
    · show (applyBody P s tx slot a).sender.nonce = _
      rw [hbody.sender_eq, hadm.sender_eq, hx]
      rfl
    · exact hbody.state_eq x

/-! ### Blocks -/

/-- The transactions that an address has sent, in order. -/
def sentBy (a : Addr) (txs : List Tx) : List Tx := txs.filter fun tx => tx.sender = a

/-- The nonces in a state, against the transactions that were included to reach it: each
counts the transactions of its address, and these were numbered from zero. -/
structure NonceLog (s : AcState) (txs : List Tx) : Prop where
  nonce_eq : ∀ a, nonceOf s a = UInt64.ofNat (sentBy a txs).length
  numbered : ∀ a, (sentBy a txs).map Tx.nonce =
    (List.range (sentBy a txs).length).map UInt64.ofNat

/-- The log only depends on the nonces. -/
lemma NonceLog.congr {t : AcState} {txs : List Tx} (h : NonceLog s txs)
    (ht : ∀ x, nonceOf t x = nonceOf s x) : NonceLog t txs :=
  ⟨fun a => (ht a).trans (h.nonce_eq a), h.numbered⟩

/-- An included transaction is logged. -/
lemma NonceLog.applyTx {txs : List Tx} (h : NonceLog s txs) {tx : Tx} {slot baseFee : UInt64}
    (hinc : (acStateApplyTx P s tx slot baseFee).1 ≠ .rejected) :
    NonceLog (acStateApplyTx P s tx slot baseFee).2.2 (txs ++ [tx]) := by
  obtain ⟨hnonce, hnext⟩ := acStateApplyTx_nonce hinc
  have hsent : ∀ a, sentBy a (txs ++ [tx]) =
      sentBy a txs ++ if tx.sender = a then [tx] else [] := by
    intro a
    rw [sentBy, List.filter_append, sentBy]
    by_cases ha : tx.sender = a
    · simp [ha]
    · simp [ha]
  refine ⟨fun a => ?_, fun a => ?_⟩
  · rw [hnext, hsent]
    by_cases ha : tx.sender = a
    · rw [if_pos ha.symm, if_pos ha, h.nonce_eq, List.length_append, List.length_singleton,
        UInt64.ofNat_add]
      rfl
    · rw [if_neg (Ne.symm ha), if_neg ha, List.append_nil, h.nonce_eq]
  · rw [hsent]
    by_cases ha : tx.sender = a
    · rw [if_pos ha, List.map_append, h.numbered, List.length_append, List.length_singleton,
        List.range_succ, List.map_append, List.map_singleton, List.map_singleton, hnonce, ha,
        h.nonce_eq]
    · rw [if_neg ha, List.append_nil, h.numbered]

/-- The loop over the transactions of a block that passes. -/
lemma NonceLog.applyTxs {slot baseFee : UInt64} {txs done : List Tx} {l : TxLoop}
    (h : NonceLog l.state done) (hok : (applyTxs P slot baseFee txs l).ok = true) :
    NonceLog (applyTxs P slot baseFee txs l).state (done ++ txs) := by
  induction txs generalizing l done with
  | nil => rwa [List.append_nil]
  | cons tx txs ih =>
    rw [AgentChain.applyTxs] at hok ⊢
    dsimp only at hok ⊢
    split_ifs at hok ⊢ with hsig hinc hgas
    rw [List.append_cons]
    exact ih (h.applyTx hinc) hok

/-- Rewards and debits keep every nonce. -/
lemma nonceOf_payReward (proposer : Addr) (height tips : UInt64) (x : Addr) :
    nonceOf (payReward s proposer height tips) x = nonceOf s x := by
  have hcredit : ∀ y, nonceOf (acStateCredit s proposer (acChainBlockReward height + tips)) y =
      nonceOf s y := fun y => nonceOf_set (by dsimp only; rw [acStateGet_addr, nonceOf]) y
  rw [payReward, acStateDebit, nonceOf_set, hcredit]
  dsimp only
  rw [acStateGet_addr, nonceOf]

/-- A block that passes is logged. -/
lemma NonceLog.postState {txs : List Tx} {b : Block} (h : NonceLog s txs)
    (hok : (runTxs P s b).ok = true) : NonceLog (postState P s b) (txs ++ b.txs) :=
  NonceLog.congr (NonceLog.applyTxs (l := ⟨true, 0, 0, s⟩) h hok)
    fun x => nonceOf_payReward _ _ _ x

/-- Nobody has sent anything before the first block. -/
lemma nonceLog_genesisState (g : Genesis) : NonceLog (genesisState g) [] := by
  have hfold : ∀ (l : List GenesisAccount) (s : AcState), (∀ a, nonceOf s a = 0) →
      ∀ a, nonceOf (l.foldl (fun s ga => acStateSet s ga.toAccount) s) a = 0 := by
    intro l
    induction l with
    | nil => exact fun s hs => hs
    | cons ga l ih =>
      intro s hs
      refine ih _ fun a => ?_
      have hset : nonceOf (acStateSet s ga.toAccount) a = nonceOf s a := nonceOf_set (hs _).symm a
      exact hset.trans (hs a)
  have hnew : ∀ a, nonceOf (acStateNew g.chainId) a = 0 := fun _ => rfl
  refine ⟨hfold g.accounts _ fun a => ?_, fun _ => rfl⟩
  have hset : nonceOf (acStateSet (acStateNew g.chainId) genesisPool) a =
      nonceOf (acStateNew g.chainId) a := nonceOf_set (hnew _).symm a
  exact hset.trans (hnew a)

/-! ### Signable bytes -/

/-- Transactions that are numbered per sender have different signable bytes. -/
lemma pairwise_signable_ne {txs : List Tx}
    (h : ∀ a, ((sentBy a txs).map Tx.nonce).Nodup) :
    txs.Pairwise fun tx tx' =>
      acTxSignableBytes acTxMaxBytes tx ≠ acTxSignableBytes acTxMaxBytes tx' := by
  rw [List.pairwise_iff_forall_sublist]
  intro tx tx' hsub heq
  have hfields := acTxSignableBytes_injective heq
  have hsender : tx.sender = tx'.sender := by rw [← hfields]
  have hnonce : tx.nonce = tx'.nonce := by rw [← hfields]
  -- both stand among the transactions of one sender, with one nonce
  have hsent : [tx, tx'].Sublist (sentBy tx.sender txs) := by
    have := hsub.filter fun y => decide (y.sender = tx.sender)
    rwa [List.filter_eq_self.mpr (by simp [hsender])] at this
  have hnodup := (h tx.sender).sublist (hsent.map Tx.nonce)
  simp [hnonce] at hnodup

/-- The transactions of a sender are numbered 0, 1, 2 and so on. -/
lemma NonceLog.numbers {txs : List Tx} (h : NonceLog s txs) {a : Addr}
    (hfew : (sentBy a txs).length < 2 ^ 64) :
    (sentBy a txs).map (fun tx => tx.nonce.toNat) = List.range (sentBy a txs).length := by
  have hcomp := congrArg (List.map UInt64.toNat) (h.numbered a)
  rw [List.map_map, List.map_map] at hcomp
  refine hcomp.trans ((List.map_congr_left fun i hi => ?_).trans (List.map_id _))
  exact UInt64.toNat_ofNat_of_lt' ((List.mem_range.mp hi).trans hfew)

/-- No two logged transactions have the same signable bytes. -/
lemma NonceLog.signable_ne {txs : List Tx} (h : NonceLog s txs)
    (hfew : ∀ a, (sentBy a txs).length < 2 ^ 64) :
    txs.Pairwise fun tx tx' =>
      acTxSignableBytes acTxMaxBytes tx ≠ acTxSignableBytes acTxMaxBytes tx' := by
  refine pairwise_signable_ne fun a => List.Nodup.of_map UInt64.toNat ?_
  rw [List.map_map]
  exact (h.numbers (hfew a)) ▸ List.nodup_range

/-! ### Runs -/

/-- The transactions of a list of blocks, in order. -/
def includedTxs (bs : List Block) : List Tx := bs.flatMap Block.txs

/-- A call of `ac_chain_accept_block` at any clock, with the block when it is accepted.  When
a block with transactions passes the checks, no write fails and the buffer for the new state
is granted. -/
inductive WrittenCall (P : Platform) : Chain → List Block → Chain → Prop
  | call (now : UInt64) (w : Writes) (c : Chain) (b : Block)
      (hw : PassesChecks P now c b → b.txs ≠ [] →
        w = .all ∧ (acStateSerialize P (postState P c.state b)).isSome) :
      WrittenCall P c (if (acChainAcceptBlock P now w c b).1 = .ok then [b] else [])
        (acChainAcceptBlock P now w c b).2

/-- **One call** keeps the log, with the transactions of the block that it accepts. -/
lemma WrittenCall.nonceLog (hP : P.MallocBounded) {c d : Chain} {new : List Block} {txs : List Tx}
    (h : WrittenCall P c new d) (hlog : NonceLog c.state txs) :
    NonceLog d.state (txs ++ includedTxs new) := by
  cases h with
  | call now w c b hw =>
    obtain ⟨k, -, ⟨hreach, d, hd, heq⟩ | ⟨-, hne, -, hres⟩⟩ := acChainAcceptBlock_cases hP now w c b
    · have hpost := hlog.postState hreach.passes.txs_ok
      have hstate : (acChainAcceptBlock P now w c b).2.state = postState P c.state b := by
        rw [heq, persist_state, hd.state_eq]
      rw [hstate]
      by_cases hok : (acChainAcceptBlock P now w c b).1 = .ok
      · rw [if_pos hok, includedTxs, List.flatMap_singleton]
        exact hpost
      · -- a write has failed, which only a block without transactions may meet
        have hempty : b.txs = [] := by
          by_contra htxs
          obtain ⟨rfl, hbuf⟩ := hw hreach.passes htxs
          obtain ⟨buf, hbuf⟩ := Option.isSome_iff_exists.mp hbuf
          rw [heq] at hok
          exact hok (persist_all ((congrArg (acStateSerialize P) hd.state_eq).trans hbuf))
        rw [hempty] at hpost
        rw [if_neg hok]
        exact hpost
    · rw [if_neg hne, hres.same.state_eq]
      rwa [show includedTxs [] = [] from rfl, List.append_nil]

/-- Every run keeps the log. -/
lemma nonceLog_of_run (hP : P.MallocBounded) {g : Genesis} {w : Writes} {dir : DataDir}
    {c₀ c : Chain} {bs : List Block} (hdir : dir.metaBin = none)
    (hopen : acChainOpen P w dir (some g) = some c₀) (hrun : Run (WrittenCall P) c₀ bs c) :
    NonceLog c.state (includedTxs bs) := by
  refine hrun.invariant (I := fun bs c => NonceLog c.state (includedTxs bs)) ?_ ?_
  · obtain ⟨buf, -, rfl⟩ := acChainOpen_genesis hdir hopen
    exact nonceLog_genesisState g
  · intro bs c new d hlog hs
    rw [includedTxs, List.flatMap_append]
    exact hs.nonceLog hP hlog

/-- **Replay protection.**  In every run from a genesis in which no call with transactions
fails in a write, and with less than `2 ^ 64` transactions per sender: each nonce is the number
of transactions that its address has in the accepted blocks, these are numbered 0, 1, 2 and so
on in order, and no two transactions in the accepted blocks have the same signable bytes. -/
theorem nonces_count_transactions (hP : P.MallocBounded) {g : Genesis} {w : Writes} {dir : DataDir}
    {c₀ c : Chain} {bs : List Block} (hdir : dir.metaBin = none)
    (hopen : acChainOpen P w dir (some g) = some c₀) (hrun : Run (WrittenCall P) c₀ bs c)
    (hfew : ∀ a, (sentBy a (includedTxs bs)).length < 2 ^ 64) :
    (∀ a, (nonceOf c.state a).toNat = (sentBy a (includedTxs bs)).length) ∧
    (∀ a, (sentBy a (includedTxs bs)).map (fun tx => tx.nonce.toNat) =
      List.range (sentBy a (includedTxs bs)).length) ∧
    (includedTxs bs).Pairwise fun tx tx' =>
      acTxSignableBytes acTxMaxBytes tx ≠ acTxSignableBytes acTxMaxBytes tx' := by
  have hlog := nonceLog_of_run hP hdir hopen hrun
  refine ⟨fun a => ?_, fun a => hlog.numbers (hfew a), hlog.signable_ne hfew⟩
  rw [hlog.nonce_eq, UInt64.toNat_ofNat_of_lt' (hfew a)]

/-! ### A failed write -/

/-- The first block on the genesis, with one transfer. -/
def payBlock : Block := firstBlock mintGenesis ⟨[payTx], by decide⟩

/-- The hypotheses are met by a run that accepts a block with a transfer. -/
theorem nonces_count_transactions_pay :
    (nonceOf (acChainAcceptBlock reference 100000 .all (openedChain mintGenesis) payBlock).2.state
      payTx.sender).toNat = 1 := by
  have hrun : (acChainAcceptBlock reference 100000 .all (openedChain mintGenesis)
        payBlock).1 = .ok ∧
      payBlock.txs = [payTx] ∧
      (acStateSerialize reference (postState reference (openedChain mintGenesis).state
        payBlock)).isSome := by
    decide +kernel
  obtain ⟨hok, htxs, hbuf⟩ := hrun
  have hsent : ∀ a, (sentBy a (includedTxs [payBlock])).length =
      if payTx.sender = a then 1 else 0 := by
    intro a
    rw [includedTxs, List.flatMap_singleton, htxs, sentBy]
    by_cases ha : payTx.sender = a
    · simp [ha]
    · simp [ha]
  have hcall := WrittenCall.call (P := reference) 100000 .all (openedChain mintGenesis) payBlock
    fun _ _ => ⟨rfl, hbuf⟩
  rw [if_pos hok] at hcall
  have h := (nonces_count_transactions reference_mallocBounded rfl
    (acChainOpen_openedChain (g := mintGenesis) (by decide +kernel)) (.single hcall) (fun a => by
      rw [hsent]
      split_ifs <;> decide)).1 payTx.sender
  rwa [hsent, if_pos rfl] at h

/-- **A failed write.**  The first block arrives and its file cannot be written.  Nothing is
accepted and the height stays, but the nonce of the sender has advanced, so that the same block
is refused when it comes again. -/
theorem failed_write_advances_nonce :
    (acChainOpen reference .all .empty (some mintGenesis)).isSome ∧
    (acChainAcceptBlock reference 100000 ⟨false, true, true⟩ (openedChain mintGenesis)
      payBlock).1 = .internal ∧
    (acChainAcceptBlock reference 100000 ⟨false, true, true⟩ (openedChain mintGenesis)
      payBlock).2.height = 0 ∧
    nonceOf (acChainAcceptBlock reference 100000 ⟨false, true, true⟩ (openedChain mintGenesis)
      payBlock).2.state payTx.sender = 1 ∧
    (acChainAcceptBlock reference 100000 .all (acChainAcceptBlock reference 100000
      ⟨false, true, true⟩ (openedChain mintGenesis) payBlock).2 payBlock).1 = .badTx := by
  decide +kernel

end Nonces

end AgentChain
