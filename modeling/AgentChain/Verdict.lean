import AgentChain.Certificate
import AgentChain.History

/-!
# The verdict on a block

With a valid seed cache, whether a block is accepted is a condition on the block, the clock
and the chain in which the cache does not occur (`acChainAcceptBlock_ok_iff`).  Two chains
that hold the same state, the same tip and the same headers can only differ in the weight
they count as live, and so do two chains with ledgers of the same blocks.
-/

namespace AgentChain

/-- The certificate of a block passes on a chain: the checks of `validate_commit` with the
stakes before the block. -/
structure CertificateOk (P : Platform) (c : Chain) (b : Block) : Prop where
  nonempty : b.signers ≠ []
  total_ne : acChainTotalSqrtStake c ≠ 0
  signers_ok : ∀ g ∈ b.signers, signerOk P
    (committeeAlpha (computeEpochSeed P c (acEpochOf b.header.slot)) b.header.slot)
    (acVoteMessage b.header.height (acBlockHash P b.header)) (acChainTotalSqrtStake c)
    (acStateGet c.state g.signer).2.stake g = true
  thresholds : thresholdsMet
    (b.signers.foldl (fun sum g => sum + acIsqrtU64 (acStateGet c.state g.signer).2.stake) 0)
    (acChainLiveSqrtStake { c with state := postState P c.state b })
    (acChainTotalSqrtStake c) = true

section Verdict

variable {P : Platform} {c d : Chain} {b : Block}

/-- The seed depends neither on the state nor on the cache. -/
lemma computeEpochSeed_withState (c : Chain) (s : AcState) (k : Option (UInt64 × Hash))
    (epoch : UInt64) :
    computeEpochSeed P { c with state := s, cached := k } epoch = computeEpochSeed P c epoch :=
  computeEpochSeed_congr P (c := c) (d := { c with state := s, cached := k }) rfl rfl rfl
    (fun _ _ => rfl) epoch

lemma cacheValid_withState {k : Option (UInt64 × Hash)} (s : AcState)
    (hk : Chain.CacheValid P { c with cached := k }) :
    Chain.CacheValid P { c with state := s, cached := k } := by
  intro epoch seed h
  rw [computeEpochSeed_withState, hk epoch seed h]
  exact computeEpochSeed_withState c c.state k epoch

/-- With a valid cache, `validate_commit` is the condition without the cache. -/
theorem commitOk_iff {k : Option (UInt64 × Hash)}
    (hk : Chain.CacheValid P { c with cached := k }) : CommitOk P c k b ↔ CertificateOk P c b := by
  have hseed := acChainEpochSeed_fst (cacheValid_withState (postState P c.state b) hk)
    (acEpochOf b.header.slot)
  rw [computeEpochSeed_withState] at hseed
  have hstake : ∀ g ∈ b.signers, preStakeLookup (preSignerTable c.state b.signers) g.signer =
      (acStateGet c.state g.signer).2.stake := fun g hg => preStakeLookup_mem hg
  rw [CommitOk, validateCommit_iff, hseed, foldl_preStake]
  constructor
  · rintro ⟨hne, htotal, hok, hthr⟩
    exact ⟨hne, htotal, fun g hg => by rw [← hstake g hg]; exact hok g hg, hthr⟩
  · rintro ⟨hne, htotal, hok, hthr⟩
    exact ⟨hne, htotal, fun g hg => by rw [hstake g hg]; exact hok g hg, hthr⟩

/-- The block passes every check and its certificate, and the snapshot is granted, so that the
call goes on to the writes. -/
structure Committable (P : Platform) (now : UInt64) (c : Chain) (b : Block) : Prop where
  passes : PassesChecks P now c b
  certificate : CertificateOk P c b
  snapshot : (acStateSerialize P c.state).isSome

/-- **What a call can do** on a chain with a valid cache. -/
theorem acChainAcceptBlock_committable (hP : P.MallocBounded) (hc : c.CacheValid P) (now : UInt64)
    (w : Writes) (b : Block) :
    (Committable P now c b ∧
      ∃ d, Chain.SameButCache { c with state := postState P c.state b } d ∧
        acChainAcceptBlock P now w c b = persist P w d b (acBlockHash P b.header)) ∨
    (¬ Committable P now c b ∧ (acChainAcceptBlock P now w c b).1 ≠ .ok ∧
      c.Reseeded P (acChainAcceptBlock P now w c b).2) := by
  obtain ⟨k, hseed, ⟨hreach, hd⟩ | ⟨hnot, hne, -, hres⟩⟩ := acChainAcceptBlock_cases hP now w c b
  · exact Or.inl ⟨⟨hreach.passes, (commitOk_iff (hseed.valid hc)).mp hreach.commit,
      hreach.snapshot⟩, hd⟩
  · refine Or.inr ⟨fun h => hnot ⟨h.passes, h.snapshot, ?_⟩, hne, hres⟩
    exact (commitOk_iff (hseed.valid hc)).mpr h.certificate

/-- With a valid cache, the proposer check in terms of the computed seed. -/
lemma validateProposerVrf_iff (hc : c.CacheValid P) {h : BlockHeader} :
    (validateProposerVrf P c h).1 = true ↔
      ¬ (acStateGet c.state h.proposer).2.stake < acMinStakeUcrd ∧
      (acVrfVerify P h.proposerVrfProof
        (leaderAlpha (computeEpochSeed P c (acEpochOf h.slot)) h.slot) h.proposer).isSome := by
  have hfound : ¬ (acStateGet c.state h.proposer).2.stake < acMinStakeUcrd →
      (acStateGet c.state h.proposer).1 = true := by
    intro hst
    obtain ⟨x, -, -, hx⟩ := acStateGet_staked hst
    rw [hx]
  rw [validateProposerVrf]
  dsimp only
  rw [acChainEpochSeed_fst hc]
  constructor
  · intro hv
    split_ifs at hv with h1 h2
    exact ⟨h2, hv⟩
  · rintro ⟨h2, hv⟩
    rw [hfound h2, if_neg (by simp), if_neg h2]
    exact hv

/-- **When a block is accepted.** -/
theorem acChainAcceptBlock_ok_iff (hP : P.MallocBounded) (hc : c.CacheValid P) {now : UInt64}
    {w : Writes} :
    (acChainAcceptBlock P now w c b).1 = .ok ↔ PassesChecks P now c b ∧ CertificateOk P c b ∧
      (acStateSerialize P c.state).isSome ∧ (acStateSerialize P (postState P c.state b)).isSome ∧
      w = .all := by
  constructor
  · intro h
    obtain ⟨hpass, ⟨k, hseed, hcommit⟩, ⟨snap, hsnap⟩, hw, buf, hbuf, -⟩ :=
      acChainAcceptBlock_ok hP h
    exact ⟨hpass, (commitOk_iff (hseed.valid hc)).mp hcommit, by rw [hsnap]; rfl,
      by rw [hbuf]; rfl, hw⟩
  · rintro ⟨hpass, hcert, hsnap, hbuf, rfl⟩
    obtain ⟨snap, hsnap⟩ := Option.isSome_iff_exists.mp hsnap
    obtain ⟨buf, hbuf⟩ := Option.isSome_iff_exists.mp hbuf
    refine acChainAcceptBlock_of_passes hpass ?_ hsnap hbuf
    have hseed := validateProposerVrf_reseeded (P := P) c b.header
    have hvalid := hseed.valid hc
    rw [hseed.same.eq_withCached] at hvalid
    exact (commitOk_iff hvalid).mpr hcert

/-- Whether the writes succeed depends on the chain only through its state. -/
lemma persist_rc_congr (w : Writes) {blockHash blockHash' : Hash} (h : d.state = c.state) :
    (persist P w d b blockHash).1 = (persist P w c b blockHash').1 := by
  rw [persist, persist]
  dsimp only
  rw [h]
  cases acStateSerialize P c.state with
  | none => split_ifs <;> rfl
  | some buf => split_ifs <;> rfl

/-! ### Two chains with the same view -/

/-- The two chains hold the same state, tip and headers. -/
structure Chain.SameView (c d : Chain) : Prop where
  state_eq : d.state = c.state
  height_eq : d.height = c.height
  tipHash_eq : d.tipHash = c.tipHash
  lastSlot_eq : d.lastSlot = c.lastSlot
  baseFee_eq : d.baseFee = c.baseFee
  chainId_eq : d.chainId = c.chainId
  genesisTimestampMs_eq : d.genesisTimestampMs = c.genesisTimestampMs
  headers_eq : ∀ k ≤ c.height.toNat, acChainGetHeaderByHeight d (UInt64.ofNat k) =
    acChainGetHeaderByHeight c (UInt64.ofNat k)

namespace Chain.SameView

lemma symm (h : c.SameView d) : d.SameView c where
  state_eq := h.state_eq.symm
  height_eq := h.height_eq.symm
  tipHash_eq := h.tipHash_eq.symm
  lastSlot_eq := h.lastSlot_eq.symm
  baseFee_eq := h.baseFee_eq.symm
  chainId_eq := h.chainId_eq.symm
  genesisTimestampMs_eq := h.genesisTimestampMs_eq.symm
  headers_eq := fun k hk => (h.headers_eq k (h.height_eq ▸ hk)).symm

lemma trans {e : Chain} (h : c.SameView d) (h' : d.SameView e) : c.SameView e where
  state_eq := h'.state_eq.trans h.state_eq
  height_eq := h'.height_eq.trans h.height_eq
  tipHash_eq := h'.tipHash_eq.trans h.tipHash_eq
  lastSlot_eq := h'.lastSlot_eq.trans h.lastSlot_eq
  baseFee_eq := h'.baseFee_eq.trans h.baseFee_eq
  chainId_eq := h'.chainId_eq.trans h.chainId_eq
  genesisTimestampMs_eq := h'.genesisTimestampMs_eq.trans h.genesisTimestampMs_eq
  headers_eq := fun k hk => (h'.headers_eq k (h.height_eq ▸ hk)).trans (h.headers_eq k hk)

lemma computeEpochSeed_eq (h : c.SameView d) (epoch : UInt64) :
    computeEpochSeed P d epoch = computeEpochSeed P c epoch :=
  computeEpochSeed_congr P h.height_eq h.chainId_eq h.genesisTimestampMs_eq h.headers_eq epoch

lemma expectedBaseFee_eq (h : c.SameView d) : expectedBaseFee d = expectedBaseFee c := by
  have htip : acChainGetHeaderByHeight d c.height = acChainGetHeaderByHeight c c.height := by
    have := h.headers_eq c.height.toNat le_rfl
    rwa [UInt64.ofNat_toNat] at this
  rw [expectedBaseFee, expectedBaseFee, h.height_eq, htip, h.baseFee_eq]

lemma checkLink_eq (h : c.SameView d) (hdr : BlockHeader) :
    checkLink P d hdr = checkLink P c hdr := by
  have hhash : hdr.height ≤ c.height →
      acChainGetBlockHash P d hdr.height = acChainGetBlockHash P c hdr.height := by
    intro hle
    have hhead := h.headers_eq hdr.height.toNat (UInt64.le_iff_toNat_le.mp hle)
    rw [UInt64.ofNat_toNat] at hhead
    rw [acChainGetBlockHash, acChainGetBlockHash, h.height_eq, h.tipHash_eq, hhead]
  rw [checkLink, checkLink, h.height_eq, h.tipHash_eq]
  by_cases hle : hdr.height ≤ c.height
  · rw [hhash hle]
  · rw [if_neg hle, if_neg hle]

lemma checkTime_eq (h : c.SameView d) (now : UInt64) (hdr : BlockHeader) :
    checkTime now d hdr = checkTime now c hdr := by
  rw [checkTime, checkTime, h.lastSlot_eq, acChainSlotTimeMs, acChainSlotTimeMs,
    h.genesisTimestampMs_eq]

lemma validateProposerVrf_eq (h : c.SameView d) (hc : c.CacheValid P) (hd : d.CacheValid P)
    (hdr : BlockHeader) : (validateProposerVrf P d hdr).1 = (validateProposerVrf P c hdr).1 := by
  rw [Bool.eq_iff_iff, validateProposerVrf_iff hd, validateProposerVrf_iff hc, h.state_eq,
    h.computeEpochSeed_eq]

lemma checkBaseFee_eq (h : c.SameView d) (hdr : BlockHeader) :
    checkBaseFee d hdr = checkBaseFee c hdr := by
  rw [checkBaseFee, checkBaseFee, h.expectedBaseFee_eq]

/-- The checks before the snapshot have the same outcome. -/
lemma checkHeader_eq (h : c.SameView d) (hc : c.CacheValid P) (hd : d.CacheValid P) (now : UInt64)
    (hdr : BlockHeader) : (checkHeader P now d hdr).1 = (checkHeader P now c hdr).1 := by
  have hvc := validateProposerVrf_reseeded (P := P) c hdr
  have hvd := validateProposerVrf_reseeded (P := P) d hdr
  rw [checkHeader, checkHeader, h.checkLink_eq, h.checkTime_eq]
  cases checkLink P c hdr with
  | some rc => rfl
  | none =>
    cases checkTime now c hdr with
    | some rc => rfl
    | none =>
      dsimp only
      rw [h.validateProposerVrf_eq hc hd, checkBaseFee_same hvc.same, checkBaseFee_same hvd.same,
        h.checkBaseFee_eq]
      split_ifs
      · rfl
      · rfl

/-- The certificate is judged alike when the live weight behind the block is the same. -/
lemma certificateOk (h : c.SameView d)
    (hlive : acChainLiveSqrtStake { d with state := postState P d.state b } =
      acChainLiveSqrtStake { c with state := postState P c.state b })
    (hb : CertificateOk P c b) : CertificateOk P d b where
  nonempty := hb.nonempty
  total_ne := by
    rw [acChainTotalSqrtStake, h.state_eq]
    exact hb.total_ne
  signers_ok := by
    rw [acChainTotalSqrtStake, h.state_eq, h.computeEpochSeed_eq]
    exact hb.signers_ok
  thresholds := by
    rw [hlive, acChainTotalSqrtStake, h.state_eq]
    exact hb.thresholds

/-- The part behind the snapshot returns the same code. -/
lemma execBlock_rc_eq (h : c.SameView d) (hc : c.CacheValid P) (hd : d.CacheValid P)
    (hlive : acChainLiveSqrtStake { d with state := postState P d.state b } =
      acChainLiveSqrtStake { c with state := postState P c.state b }) (w : Writes) (snap : Bytes) :
    (execBlock P w d b snap).1 = (execBlock P w c b snap).1 := by
  have hcommit : CommitOk P d d.cached b ↔ CommitOk P c c.cached b := by
    rw [commitOk_iff hd, commitOk_iff hc]
    exact ⟨h.symm.certificateOk hlive.symm, h.certificateOk hlive⟩
  have hwrite : ∀ (x y : Chain) (t t' : UInt64) (f f' : Addr → UInt64), x.state = y.state →
      (persist P w (validateCommit P x b (acBlockHash P b.header) t f).2 b
        (acBlockHash P b.header)).1 =
      (persist P w (validateCommit P y b (acBlockHash P b.header) t' f').2 b
        (acBlockHash P b.header)).1 := by
    intro x y t t' f f' hxy
    refine persist_rc_congr w ?_
    rw [(validateCommit_reseeded x b _ t f).same.state_eq,
      (validateCommit_reseeded y b _ t' f').same.state_eq, hxy]
  rw [execBlock, execBlock]
  dsimp only
  by_cases hok : CommitOk P c c.cached b
  · have hok' := hcommit.mpr hok
    rw [CommitOk] at hok hok'
    rw [if_pos hok, if_pos hok', h.state_eq]
    split_ifs
    · rfl
    · rfl
    · rfl
    · rfl
    · exact hwrite _ _ _ _ _ _ rfl
  · have hok' := fun hd' => hok (hcommit.mp hd')
    rw [CommitOk] at hok hok'
    rw [if_neg hok, if_neg hok', h.state_eq]
    split_ifs
    all_goals rfl

/-- **Same view, same live weight, same verdict.** -/
theorem acceptBlock_rc_eq (h : c.SameView d) (hc : c.CacheValid P) (hd : d.CacheValid P)
    (hlive : acChainLiveSqrtStake { d with state := postState P d.state b } =
      acChainLiveSqrtStake { c with state := postState P c.state b }) (now : UInt64) (w : Writes) :
    (acChainAcceptBlock P now w d b).1 = (acChainAcceptBlock P now w c b).1 := by
  have hhead := h.checkHeader_eq hc hd now b.header
  have hsc := checkHeader_reseeded (P := P) now c b.header
  have hsd := checkHeader_reseeded (P := P) now d b.header
  rw [acChainAcceptBlock, acChainAcceptBlock]
  rcases hcc : checkHeader P now c b.header with ⟨rc, c'⟩
  rcases hdd : checkHeader P now d b.header with ⟨rc', d'⟩
  rw [hcc] at hhead hsc
  rw [hdd] at hhead hsd
  obtain rfl : rc' = rc := hhead
  cases rc' with
  | some rc => rfl
  | none =>
    dsimp only at hsc hsd ⊢
    have hview : c'.SameView d' := by
      rw [hsc.same.eq_withCached, hsd.same.eq_withCached]
      exact { h with }
    rw [hview.state_eq]
    cases acStateSerialize P c'.state with
    | none => rfl
    | some snap =>
      refine hview.execBlock_rc_eq (hsc.valid hc) (hsd.valid hd) ?_ w snap
      rw [hsc.same.eq_withCached, hsd.same.eq_withCached]
      exact hlive

end Chain.SameView

lemma Chain.Reseeded.sameView (h : c.Reseeded P d) : c.SameView d := by
  rw [h.same.eq_withCached]
  exact ⟨rfl, rfl, rfl, rfl, rfl, rfl, rfl, fun _ _ => rfl⟩

end Verdict

/-! ### Ledgers of the same blocks -/

/-- The two lists hold the same headers and transactions; the certificates may differ. -/
def SameBlocks (bs bs' : List Block) : Prop :=
  bs.map (fun b => (b.header, b.txs)) = bs'.map fun b => (b.header, b.txs)

section SameBlocks

variable {P : Platform} {g : Genesis} {bs bs' : List Block} {c c' : Chain}

lemma SameBlocks.length_eq (h : SameBlocks bs bs') : bs.length = bs'.length := by
  have := congrArg List.length h
  rwa [List.length_map, List.length_map] at this

/-- The state after a block does not depend on the certificate. -/
lemma postState_congr {s : AcState} {b b' : Block} (hh : b.header = b'.header)
    (ht : b.txs = b'.txs) : postState P s b = postState P s b' := by
  rw [postState, postState, runTxs, runTxs, hh, ht]

lemma SameBlocks.replay_eq (h : SameBlocks bs bs') (s : AcState) :
    replay P s bs = replay P s bs' := by
  induction bs generalizing bs' s with
  | nil =>
    have := h.length_eq
    rw [List.length_nil] at this
    rw [List.length_eq_zero_iff.mp this.symm]
  | cons b bs ih =>
    cases bs' with
    | nil => exact absurd h.length_eq (by simp)
    | cons b' bs' =>
      rw [SameBlocks, List.map_cons, List.map_cons, List.cons.injEq, Prod.mk.injEq] at h
      obtain ⟨⟨hh, ht⟩, hrest⟩ := h
      have hrec := ih (show SameBlocks bs bs' from hrest) (postState P s b)
      rw [postState_congr hh ht] at hrec
      rw [replay, replay, List.foldl_cons, List.foldl_cons, postState_congr hh ht]
      exact hrec

lemma SameBlocks.header_eq (h : SameBlocks bs bs') (k : ℕ) :
    ((genesisBlock P g :: bs)[k]?).map Block.header =
      ((genesisBlock P g :: bs')[k]?).map Block.header := by
  cases k with
  | zero => rfl
  | succ k =>
    have := congrArg (fun l : List (BlockHeader × List Tx) => (l[k]?).map Prod.fst) h
    simpa [List.getElem?_map, Option.map_map, Function.comp_def] using this

lemma SameBlocks.tipHeader_eq (h : SameBlocks bs bs') :
    (tipBlock P g bs).header = (tipBlock P g bs').header := by
  have hlen := h.length_eq
  have hk := h.header_eq (P := P) (g := g) bs.length
  rw [getElem?_eq_tipBlock le_rfl, getElem?_eq_tipBlock hlen.le, List.take_length, hlen,
    List.take_length] at hk
  simpa using hk

/-- **Same blocks, same view.** -/
theorem SameBlocks.sameView (h : SameBlocks bs bs') (hc : Ledger P g bs c)
    (hc' : Ledger P g bs' c') : c.SameView c' where
  state_eq := by rw [hc.state_eq, hc'.state_eq, h.replay_eq]
  height_eq := UInt64.toNat_inj.mp (by rw [hc.height_eq, hc'.height_eq, h.length_eq])
  tipHash_eq := by rw [hc.tipHash_eq, hc'.tipHash_eq, h.tipHeader_eq]
  lastSlot_eq := by rw [hc.lastSlot_eq, hc'.lastSlot_eq, h.tipHeader_eq]
  baseFee_eq := by rw [hc.baseFee_eq, hc'.baseFee_eq, h.tipHeader_eq]
  chainId_eq := by rw [hc.chainId_eq, hc'.chainId_eq]
  genesisTimestampMs_eq := by rw [hc.genesisTimestampMs_eq, hc'.genesisTimestampMs_eq]
  headers_eq := by
    intro k hk
    rw [hc.height_eq] at hk
    rw [acChainGetHeaderByHeight, acChainGetHeaderByHeight, hc.stored k hk,
      hc'.stored k (h.length_eq ▸ hk), h.header_eq]

end SameBlocks

end AgentChain
