import AgentChain.Accept

/-!
# What accepting a block can do

A call of `ac_chain_accept_block` ends in one of three ways: the block is committed, it is
turned away and only the seed cache may differ, or a file write failed half way.  The results
of this file say so once (`acChainAcceptBlock_ok`, `acChainAcceptBlock_turnedAway`), and every
property of runs is proved from them.
-/

namespace AgentChain

/-! ### The seed cache -/

/-- The two chains differ at most in the cached epoch seed. -/
def Chain.SameButCache (c d : Chain) : Prop := { c with cached := none } = { d with cached := none }

namespace Chain.SameButCache

variable {c d e : Chain}

lemma refl (c : Chain) : c.SameButCache c := rfl

lemma symm (h : c.SameButCache d) : d.SameButCache c := Eq.symm h

lemma trans (h₁ : c.SameButCache d) (h₂ : d.SameButCache e) : c.SameButCache e := Eq.trans h₁ h₂

lemma withCached (c : Chain) (k : Option (UInt64 × Hash)) : c.SameButCache { c with cached := k } :=
  rfl

/-- The other chain is this one with some cache. -/
lemma eq_withCached (h : c.SameButCache d) : d = { c with cached := d.cached } := by
  have := congrArg (fun x : Chain => { x with cached := d.cached }) h
  exact this.symm

lemma state_eq (h : c.SameButCache d) : d.state = c.state := by rw [h.eq_withCached]

lemma height_eq (h : c.SameButCache d) : d.height = c.height := by rw [h.eq_withCached]

end Chain.SameButCache

/-- The cached seed is the one that would be computed. -/
def Chain.CacheValid (P : Platform) (c : Chain) : Prop :=
  ∀ epoch seed, c.cached = some (epoch, seed) → seed = computeEpochSeed P c epoch

lemma Chain.SameButCache.computeEpochSeed_eq {P : Platform} {c d : Chain} (h : c.SameButCache d)
    (epoch : UInt64) : computeEpochSeed P d epoch = computeEpochSeed P c epoch := by
  rw [h.eq_withCached]
  exact computeEpochSeed_congr P (c := c) (d := { c with cached := d.cached }) rfl rfl rfl
    (fun _ _ => rfl) epoch

/-- The second chain is the first after some seeds were asked for: only the cache may differ,
and it stays valid. -/
structure Chain.Reseeded (P : Platform) (c d : Chain) : Prop where
  same : c.SameButCache d
  valid : c.CacheValid P → d.CacheValid P

section Inversion

variable {P : Platform}

namespace Chain.Reseeded

variable {c d e : Chain}

lemma refl (c : Chain) : c.Reseeded P c := ⟨.refl c, id⟩

lemma trans (h₁ : c.Reseeded P d) (h₂ : d.Reseeded P e) : c.Reseeded P e :=
  ⟨h₁.same.trans h₂.same, h₂.valid ∘ h₁.valid⟩

/-- The seed does not depend on the state of the accounts. -/
lemma withState (h : c.Reseeded P d) (s : AcState) :
    Chain.Reseeded P { c with state := s } { d with state := s } := by
  have hseed : ∀ (x : Chain) (t : AcState) (epoch : UInt64),
      computeEpochSeed P { x with state := t } epoch = computeEpochSeed P x epoch :=
    fun x t epoch => computeEpochSeed_congr P (c := x) (d := { x with state := t }) rfl rfl rfl
      (fun _ _ => rfl) epoch
  refine ⟨?_, fun hc epoch seed hd => ?_⟩
  · rw [h.same.eq_withCached]
    exact .withCached _ _
  · rw [hseed]
    exact h.valid (fun e k hk => (hc e k hk).trans (hseed c s e)) epoch seed hd

end Chain.Reseeded

/-- A fresh seed may be cached. -/
lemma reseeded_compute (c : Chain) (epoch : UInt64) :
    c.Reseeded P { c with cached := some (epoch, computeEpochSeed P c epoch) } := by
  refine ⟨.withCached c _, fun _ e seed h => ?_⟩
  simp only [Option.some.injEq, Prod.mk.injEq] at h
  rw [← h.2, ← h.1]
  exact ((Chain.SameButCache.withCached c _).computeEpochSeed_eq epoch).symm

lemma acChainEpochSeed_reseeded (c : Chain) (epoch : UInt64) :
    c.Reseeded P (acChainEpochSeed P c epoch).2 := by
  rw [acChainEpochSeed]
  split
  · split_ifs
    · exact .refl c
    · exact reseeded_compute c epoch
  · exact reseeded_compute c epoch

/-- With a valid cache the seed is the computed one. -/
lemma acChainEpochSeed_fst {c : Chain} (hc : c.CacheValid P) (epoch : UInt64) :
    (acChainEpochSeed P c epoch).1 = computeEpochSeed P c epoch := by
  rw [acChainEpochSeed]
  split
  · rename_i e seed hcached
    split_ifs with he
    · exact he ▸ hc e seed hcached
    · rfl
  · rfl

lemma validateProposerVrf_reseeded (c : Chain) (h : BlockHeader) :
    c.Reseeded P (validateProposerVrf P c h).2 := by
  rw [validateProposerVrf]
  dsimp only
  split_ifs
  · exact .refl c
  · exact .refl c
  · exact acChainEpochSeed_reseeded c _

lemma checkHeader_reseeded (now : UInt64) (c : Chain) (h : BlockHeader) :
    c.Reseeded P (checkHeader P now c h).2 := by
  rw [checkHeader]
  split
  · exact .refl c
  · split
    · exact .refl c
    · dsimp only
      split_ifs
      · exact validateProposerVrf_reseeded c h
      · exact validateProposerVrf_reseeded c h

lemma validateCommit_reseeded (c : Chain) (b : Block) (blockHash : Hash) (total : UInt64)
    (stakeOf : Addr → UInt64) :
    c.Reseeded P (validateCommit P c b blockHash total stakeOf).2 := by
  rw [validateCommit]
  split_ifs
  · exact .refl c
  · exact .refl c
  · dsimp only
    split
    · exact acChainEpochSeed_reseeded c _
    · exact acChainEpochSeed_reseeded c _

/-! ### Committing -/

/-- The chain after all three writes of a block, the bytes of `state.bin` being `buf`. -/
def committed (P : Platform) (c : Chain) (b : Block) (buf : Bytes) : Chain :=
  let c := { c with
    state := postState P c.state b
    dir := { c.dir.putBlock b with stateBin := some buf } }
  recordBlock P (c.advance b.header (acBlockHash P b.header)).saveMeta b

/-- The checks that a block passes before its certificate is looked at. -/
structure PassesChecks (P : Platform) (now : UInt64) (c : Chain) (b : Block) : Prop where
  link : checkLink P c b.header = none
  time : checkTime now c b.header = none
  proposer : (validateProposerVrf P c b.header).1 = true
  fee : checkBaseFee c b.header = none
  txs_ok : (runTxs P c.state b).ok = true
  gas : (runTxs P c.state b).totalGas = b.header.gasUsed
  txRoot : acBlockTxRoot P b.txs = b.header.txRoot
  stateRoot : acStateRoot P (postState P c.state b) = b.header.stateRoot

/-- The certificate of a block passes on a chain whose seed cache is `k`. -/
def CommitOk (P : Platform) (c : Chain) (k : Option (UInt64 × Hash)) (b : Block) : Prop :=
  (validateCommit P { c with state := postState P c.state b, cached := k } b
    (acBlockHash P b.header) (acChainTotalSqrtStake c)
    (preStakeLookup (preSignerTable c.state b.signers))).1 = true

instance (P : Platform) (c : Chain) (k : Option (UInt64 × Hash)) (b : Block) :
    Decidable (CommitOk P c k b) :=
  inferInstanceAs (Decidable (_ = true))

/-- The base fee does not depend on the cache. -/
lemma checkBaseFee_same {c d : Chain} (h : c.SameButCache d) (hdr : BlockHeader) :
    checkBaseFee d hdr = checkBaseFee c hdr := by
  rw [h.eq_withCached]
  rfl

/-- Passing the header checks. -/
lemma checkHeader_eq_none {now : UInt64} {c : Chain} {h : BlockHeader} :
    (checkHeader P now c h).1 = none ↔ checkLink P c h = none ∧ checkTime now c h = none ∧
      (validateProposerVrf P c h).1 = true ∧ checkBaseFee c h = none := by
  rw [checkHeader]
  cases hl : checkLink P c h with
  | some rc => simp
  | none =>
    cases ht : checkTime now c h with
    | some rc => simp
    | none =>
      have hfee := checkBaseFee_same (validateProposerVrf_reseeded (P := P) c h).same h
      cases hv : (validateProposerVrf P c h).1 with
      | false => simp [hv]
      | true => simp [hv, hfee]

/-- A header that links to the tip. -/
lemma checkLink_eq_none {c : Chain} {h : BlockHeader} :
    checkLink P c h = none ↔ h.version = acBlockVersion ∧ h.height ≠ 0 ∧
      ¬ h.height ≤ c.height ∧ h.height = c.height + 1 ∧ h.parentHash = c.tipHash := by
  rw [checkLink]
  constructor
  · intro hn
    split_ifs at hn with h1 h2 h3 h4 h5
    · split at hn
      · split_ifs at hn
      · exact absurd hn (by simp)
    · exact ⟨not_not.mp h1, h2, h3, not_not.mp h4, not_not.mp h5⟩
  · rintro ⟨h1, h2, h3, h4, h5⟩
    rw [if_neg (not_not.mpr h1), if_neg h2, if_neg h3, if_neg (not_not.mpr h4),
      if_neg (not_not.mpr h5)]

/-- A header within its time window. -/
lemma checkTime_eq_none {now : UInt64} {c : Chain} {h : BlockHeader} :
    checkTime now c h = none ↔ ¬ h.slot ≤ c.lastSlot ∧
      ¬ (h.timestampMs.toInt64 < (acChainSlotTimeMs c h.slot).toInt64 - 3000 ∨
        (acChainSlotTimeMs c h.slot).toInt64 + 3000 < h.timestampMs.toInt64) ∧
      ¬ now + 1500 < h.timestampMs ∧ h.gasLimit = acBlockGasLimit := by
  rw [checkTime]
  constructor
  · intro hn
    split_ifs at hn with h1 h2 h3 h4
    exact ⟨h1, h2, h3, not_not.mp h4⟩
  · rintro ⟨h1, h2, h3, h4⟩
    rw [if_neg h1, if_neg h2, if_neg h3, if_neg (not_not.mpr h4)]

/-- A base fee within the tolerance. -/
lemma checkBaseFee_eq_none {c : Chain} {h : BlockHeader} :
    checkBaseFee c h = none ↔ ¬ h.baseFee < acMinBaseFee ∧
      ¬ h.baseFee + 1 < expectedBaseFee c ∧ ¬ expectedBaseFee c + 1 < h.baseFee := by
  rw [checkBaseFee]
  constructor
  · intro hn
    split_ifs at hn with h1 h2
    exact ⟨h1, fun h => h2 (Or.inl h), fun h => h2 (Or.inr h)⟩
  · rintro ⟨h1, h2, h3⟩
    rw [if_neg h1, if_neg (not_or.mpr ⟨h2, h3⟩)]

/-- On top of genesis the base fee is the minimum. -/
lemma expectedBaseFee_genesis {c : Chain} (h : c.height = 0) :
    expectedBaseFee c = acMinBaseFee := by
  rw [expectedBaseFee, h]
  rfl

/-- `AC_ACCEPT_DUP` and the `AC_ACCEPT_REJECT_*` codes. -/
def AcceptRc.Rejects (rc : AcceptRc) : Prop := rc ≠ .ok ∧ rc ≠ .internal

lemma checkLink_rejects {c : Chain} {h : BlockHeader} {rc : AcceptRc}
    (hrc : checkLink P c h = some rc) : rc.Rejects := by
  rw [checkLink] at hrc
  split_ifs at hrc
  all_goals try (split at hrc)
  all_goals try (split_ifs at hrc)
  all_goals
    cases hrc
    simp [AcceptRc.Rejects]

lemma checkTime_rejects {now : UInt64} {c : Chain} {h : BlockHeader} {rc : AcceptRc}
    (hrc : checkTime now c h = some rc) : rc.Rejects := by
  rw [checkTime] at hrc
  split_ifs at hrc
  all_goals
    cases hrc
    simp [AcceptRc.Rejects]

lemma checkBaseFee_rejects {c : Chain} {h : BlockHeader} {rc : AcceptRc}
    (hrc : checkBaseFee c h = some rc) : rc.Rejects := by
  rw [checkBaseFee] at hrc
  split_ifs at hrc
  all_goals
    cases hrc
    simp [AcceptRc.Rejects]

/-- The header checks turn a block away with a reject code. -/
lemma checkHeader_rejects {now : UInt64} {c : Chain} {h : BlockHeader} {rc : AcceptRc}
    (hrc : (checkHeader P now c h).1 = some rc) : rc.Rejects := by
  rw [checkHeader] at hrc
  cases hl : checkLink P c h with
  | some r =>
    rw [hl] at hrc
    exact Option.some.inj hrc ▸ checkLink_rejects hl
  | none =>
    cases ht : checkTime now c h with
    | some r =>
      rw [hl, ht] at hrc
      exact Option.some.inj hrc ▸ checkTime_rejects ht
    | none =>
      rw [hl, ht] at hrc
      dsimp only at hrc
      split_ifs at hrc
      · exact checkBaseFee_rejects hrc
      · cases hrc
        simp [AcceptRc.Rejects]

/-! ### Rolling back -/

lemma applyTxs_chainId (slot baseFee : UInt64) (txs : List Tx) (l : TxLoop) :
    (applyTxs P slot baseFee txs l).state.chainId = l.state.chainId := by
  induction txs generalizing l with
  | nil => rfl
  | cons tx txs ih =>
    have htx := acStateApplyTx_chainId (P := P) l.state tx slot baseFee
    rw [applyTxs]
    dsimp only
    split_ifs
    · rfl
    · exact htx
    · exact htx
    · exact (ih _).trans htx

lemma runTxs_chainId (s : AcState) (b : Block) : (runTxs P s b).state.chainId = s.chainId :=
  applyTxs_chainId _ _ _ _

lemma postState_chainId (s : AcState) (b : Block) : (postState P s b).chainId = s.chainId :=
  runTxs_chainId s b

/-- Rolling back to the snapshot of the state before the block. -/
lemma rollback_eq (hP : P.MallocBounded) {c : Chain} {snap : Bytes} {t : AcState}
    (hsnap : acStateSerialize P c.state = some snap) (ht : t.chainId = c.state.chainId) :
    Chain.rollback { c with state := t } snap = c := by
  rw [Chain.rollback, acStateDeserialize_serialize hP hsnap ht]

/-! ### The two outcomes -/

/-- The outcomes of the three writes, for a block that passed all checks. -/
lemma persist_ok {w : Writes} {c : Chain} {b : Block} {blockHash : Hash}
    (h : (persist P w c b blockHash).1 = .ok) :
    ∃ buf, acStateSerialize P c.state = some buf ∧ w = .all ∧
      (persist P w c b blockHash).2 =
        recordBlock P ({ c with dir := { c.dir.putBlock b with stateBin := some buf } }.advance
          b.header blockHash).saveMeta b := by
  rw [persist] at h ⊢
  cases hser : acStateSerialize P c.state with
  | none =>
    simp only [hser] at h
    split_ifs at h
  | some buf =>
    simp only [hser] at h ⊢
    split_ifs at h ⊢ with hb hs hm
    refine ⟨buf, rfl, ?_, rfl⟩
    obtain ⟨block, state, metaFile⟩ := w
    simp only [Bool.not_eq_true', Bool.not_eq_false] at hb hs hm
    rw [hb, hs, hm]
    rfl

lemma persist_rc (w : Writes) (c : Chain) (b : Block) (blockHash : Hash) :
    (persist P w c b blockHash).1 = .ok ∨ (persist P w c b blockHash).1 = .internal := by
  rw [persist]
  cases hser : acStateSerialize P c.state with
  | none =>
    simp only [hser]
    split_ifs
    all_goals exact Or.inr rfl
  | some buf =>
    simp only [hser]
    split_ifs
    all_goals first | exact Or.inl rfl | exact Or.inr rfl

/-- The writes never touch the state in memory. -/
lemma persist_state (w : Writes) (c : Chain) (b : Block) (blockHash : Hash) :
    (persist P w c b blockHash).2.state = c.state := by
  rw [persist]
  cases hser : acStateSerialize P c.state with
  | none =>
    simp only [hser]
    split_ifs <;> rfl
  | some buf =>
    simp only [hser]
    split_ifs <;> rfl

/-- The checks behind the snapshot, on the chain whose cache the certificate is judged with. -/
structure ExecOk (P : Platform) (c : Chain) (b : Block) : Prop where
  txs_ok : (runTxs P c.state b).ok = true
  gas : (runTxs P c.state b).totalGas = b.header.gasUsed
  txRoot : acBlockTxRoot P b.txs = b.header.txRoot
  stateRoot : acStateRoot P (postState P c.state b) = b.header.stateRoot
  commit : CommitOk P c c.cached b

/-- The part behind the snapshot either passes every check and goes on to the writes, or
rejects the block and restores the chain. -/
lemma execBlock_cases (hP : P.MallocBounded) (w : Writes) {c : Chain} {b : Block} {snap : Bytes}
    (hsnap : acStateSerialize P c.state = some snap) :
    (ExecOk P c b ∧ ∃ d, Chain.SameButCache { c with state := postState P c.state b } d ∧
      execBlock P w c b snap = persist P w d b (acBlockHash P b.header)) ∨
    (¬ ExecOk P c b ∧ (execBlock P w c b snap).1.Rejects ∧
      c.Reseeded P (execBlock P w c b snap).2) := by
  have hran := rollback_eq (c := c) hP hsnap (runTxs_chainId (P := P) c.state b)
  have hpost := rollback_eq (c := c) hP hsnap (postState_chainId (P := P) c.state b)
  rw [execBlock]
  dsimp only
  split_ifs with hok hgas hroot hstate hcommit
  · refine Or.inr ⟨fun h => ?_, ⟨nofun, nofun⟩, by rw [hran]; exact .refl c⟩
    rw [h.txs_ok] at hok
    exact absurd hok (by decide)
  · exact Or.inr ⟨fun h => hgas h.gas, ⟨nofun, nofun⟩, by rw [hran]; exact .refl c⟩
  · exact Or.inr ⟨fun h => hroot h.txRoot, ⟨nofun, nofun⟩, by rw [hran]; exact .refl c⟩
  · exact Or.inr ⟨fun h => hstate h.stateRoot, ⟨nofun, nofun⟩, by rw [hpost]; exact .refl c⟩
  · exact Or.inl ⟨⟨by simpa using hok, not_not.mp hgas, not_not.mp hroot, not_not.mp hstate,
      hcommit⟩, _, (validateCommit_reseeded _ b _ _ _).same, rfl⟩
  · refine Or.inr ⟨fun h => hcommit h.commit, ⟨nofun, nofun⟩, ?_⟩
    -- the certificate check has only touched the cache
    have hseed := validateCommit_reseeded (P := P) { c with state := postState P c.state b } b
      (acBlockHash P b.header) (acChainTotalSqrtStake c)
      (preStakeLookup (preSignerTable c.state b.signers))
    rw [Chain.rollback, hseed.same.state_eq,
      acStateDeserialize_serialize hP hsnap (postState_chainId c.state b)]
    exact hseed.withState c.state

/-- The block passes every check, the snapshot is granted, and the certificate passes with
the cache `k`. -/
structure ReachesWrites (P : Platform) (now : UInt64) (c : Chain) (k : Option (UInt64 × Hash))
    (b : Block) : Prop where
  passes : PassesChecks P now c b
  snapshot : (acStateSerialize P c.state).isSome
  commit : CommitOk P c k b

/-- **What a call can do.**  Either the block goes on to the writes, with its state in memory,
or it is turned away and only the seed cache may change. -/
theorem acChainAcceptBlock_cases (hP : P.MallocBounded) (now : UInt64) (w : Writes) (c : Chain)
    (b : Block) : ∃ k, c.Reseeded P { c with cached := k } ∧
      ((ReachesWrites P now c k b ∧
        ∃ d, Chain.SameButCache { c with state := postState P c.state b } d ∧
          acChainAcceptBlock P now w c b = persist P w d b (acBlockHash P b.header)) ∨
      (¬ ReachesWrites P now c k b ∧ (acChainAcceptBlock P now w c b).1 ≠ .ok ∧
        ((acChainAcceptBlock P now w c b).1 = .internal → acStateSerialize P c.state = none) ∧
        c.Reseeded P (acChainAcceptBlock P now w c b).2)) := by
  have hseed := checkHeader_reseeded (P := P) now c b.header
  rw [acChainAcceptBlock]
  rcases hh : checkHeader P now c b.header with ⟨_ | rc, c'⟩
  · obtain ⟨hlink, htime, hprop, hfee⟩ := checkHeader_eq_none.mp (congrArg Prod.fst hh)
    rw [hh] at hseed
    dsimp only at hseed ⊢
    obtain ⟨k, rfl⟩ : ∃ k, c' = { c with cached := k } := ⟨_, hseed.same.eq_withCached⟩
    refine ⟨k, hseed, ?_⟩
    cases hsnap : acStateSerialize P c.state with
    | none =>
      refine Or.inr ⟨fun h => ?_, nofun, fun _ => rfl, hseed⟩
      have := h.snapshot
      rw [hsnap] at this
      exact absurd this (by decide)
    | some snap =>
      dsimp only
      rcases execBlock_cases hP w (c := { c with cached := k }) hsnap (b := b) with
        ⟨hexec, d, hd, heq⟩ | ⟨hnot, hrej, hres⟩
      · exact Or.inl ⟨⟨⟨hlink, htime, hprop, hfee, hexec.txs_ok, hexec.gas, hexec.txRoot,
          hexec.stateRoot⟩, by rw [hsnap]; rfl, hexec.commit⟩, d, hd, heq⟩
      · refine Or.inr ⟨fun h => hnot ⟨h.passes.txs_ok, h.passes.gas, h.passes.txRoot,
          h.passes.stateRoot, h.commit⟩, hrej.1, fun h => absurd h hrej.2, hseed.trans hres⟩
  · rw [hh] at hseed
    have hrej := checkHeader_rejects (congrArg Prod.fst hh)
    refine ⟨c.cached, .refl c, Or.inr ⟨fun h => ?_, hrej.1, fun h => absurd h hrej.2, hseed⟩⟩
    have hnone := checkHeader_eq_none.mpr ⟨h.passes.link, h.passes.time, h.passes.proposer,
      h.passes.fee⟩
    rw [hh] at hnone
    exact absurd hnone (by simp)

/-- **An accepted block** passed every check and its certificate, and was committed. -/
theorem acChainAcceptBlock_ok (hP : P.MallocBounded) {now : UInt64} {w : Writes} {c : Chain}
    {b : Block} (h : (acChainAcceptBlock P now w c b).1 = .ok) :
    PassesChecks P now c b ∧ (∃ k, c.Reseeded P { c with cached := k } ∧ CommitOk P c k b) ∧
      (∃ snap, acStateSerialize P c.state = some snap) ∧
      w = .all ∧ ∃ buf, acStateSerialize P (postState P c.state b) = some buf ∧
        (acChainAcceptBlock P now w c b).2 = committed P c b buf := by
  obtain ⟨k, hseed, ⟨hreach, d, hd, heq⟩ | ⟨-, hne, -⟩⟩ := acChainAcceptBlock_cases hP now w c b
  · rw [heq] at h ⊢
    obtain ⟨buf, hbuf, hw, hres⟩ := persist_ok h
    rw [hd.state_eq] at hbuf
    refine ⟨hreach.passes, ⟨k, hseed, hreach.commit⟩,
      Option.isSome_iff_exists.mp hreach.snapshot, hw, buf, hbuf, ?_⟩
    rw [hres, hd.eq_withCached]
    rfl
  · exact absurd h hne

/-- **A block that is turned away**, be it rejected or for want of a snapshot buffer, leaves
the chain as it was, up to the seed cache. -/
theorem acChainAcceptBlock_turnedAway (hP : P.MallocBounded) {now : UInt64} {w : Writes} {c : Chain}
    {b : Block} (h : (acChainAcceptBlock P now w c b).1 ≠ .ok)
    (hw : (acChainAcceptBlock P now w c b).1 = .internal → acStateSerialize P c.state = none) :
    c.Reseeded P (acChainAcceptBlock P now w c b).2 := by
  obtain ⟨k, -, ⟨hreach, d, -, heq⟩ | ⟨-, -, -, hres⟩⟩ := acChainAcceptBlock_cases hP now w c b
  · -- the snapshot was granted, so a write has failed
    have hsnap := hreach.snapshot
    rw [heq] at h hw
    rw [hw ((persist_rc w d b _).resolve_left h)] at hsnap
    exact absurd hsnap (by decide)
  · exact hres

/-- **The state in memory** after a call is the state before it, or the state after a block
that passed every check; the latter also when a write failed. -/
theorem acChainAcceptBlock_state (hP : P.MallocBounded) (now : UInt64) (w : Writes) (c : Chain)
    (b : Block) :
    (acChainAcceptBlock P now w c b).2.state = c.state ∨
      PassesChecks P now c b ∧
        (acChainAcceptBlock P now w c b).2.state = postState P c.state b := by
  obtain ⟨k, -, ⟨hreach, d, hd, heq⟩ | ⟨-, -, -, hres⟩⟩ := acChainAcceptBlock_cases hP now w c b
  · refine Or.inr ⟨hreach.passes, ?_⟩
    rw [heq, persist_state, hd.state_eq]
  · exact Or.inl hres.same.state_eq

/-! ### Sufficient conditions -/

lemma persist_all {c : Chain} {b : Block} {blockHash : Hash} {buf : Bytes}
    (hbuf : acStateSerialize P c.state = some buf) :
    (persist P .all c b blockHash).1 = .ok := by
  rw [persist]
  simp only [Writes.all, Bool.not_true, Bool.false_eq_true, if_false, hbuf]

/-- A block that passes every check and whose certificate passes is accepted when the
snapshots are granted and the writes succeed. -/
theorem acChainAcceptBlock_of_passes {now : UInt64} {c : Chain} {b : Block} {snap buf : Bytes}
    (hpass : PassesChecks P now c b)
    (hcommit : CommitOk P c (validateProposerVrf P c b.header).2.cached b)
    (hsnap : acStateSerialize P c.state = some snap)
    (hbuf : acStateSerialize P (postState P c.state b) = some buf) :
    (acChainAcceptBlock P now .all c b).1 = .ok := by
  have hsame := (validateProposerVrf_reseeded (P := P) c b.header).same
  have hhead : checkHeader P now c b.header = (none, (validateProposerVrf P c b.header).2) := by
    have hfee := checkBaseFee_same hsame b.header
    rw [checkHeader, hpass.link, hpass.time]
    simp only [hpass.proposer, if_true, hfee, hpass.fee]
  rw [acChainAcceptBlock, hhead]
  generalize (validateProposerVrf P c b.header).2 = d at hsame hcommit
  rw [hsame.eq_withCached]
  dsimp only
  rw [hsnap]
  dsimp only
  rw [execBlock]
  simp only [hpass.txs_ok, hpass.gas, hpass.txRoot, hpass.stateRoot, Bool.not_true,
    Bool.false_eq_true, ne_eq, not_true_eq_false, if_false]
  have hcs := validateCommit_reseeded (P := P)
    { c with state := postState P c.state b, cached := d.cached } b (acBlockHash P b.header)
    (acChainTotalSqrtStake c) (preStakeLookup (preSignerTable c.state b.signers))
  -- the total is read before the block, from a chain with the same state
  rw [if_pos (by exact hcommit)]
  exact persist_all ((congrArg (acStateSerialize P) hcs.same.state_eq).trans hbuf)

end Inversion

end AgentChain
