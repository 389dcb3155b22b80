import AgentChain.History

/-!
# Building a block

`ac_chain_build_block` tries the candidate transactions on the state of the chain, keeps
those that apply, and restores the state from a snapshot once the state root is known.  The
certificate is left empty; it is gathered by the consensus engine.
-/

namespace AgentChain

/-- The array of candidates that `slot_routine` takes from the mempool. -/
structure Candidates where
  txs : List Tx
  txs_le : txs.length ≤ 256

lemma nil_candidates_le : ([] : List Tx).length ≤ 256 := Nat.zero_le _

section Build

variable (P : Platform)

/-- The variables of the candidate loop. -/
structure BuildLoop where
  kept : List Tx
  totalGas : UInt64
  totalTips : UInt64
  state : AcState

/-- One round of the candidate loop. -/
def buildStep (slot baseFee : UInt64) (l : BuildLoop) (tx : Tx) : BuildLoop :=
  if !acTxVerify P tx then l
  else if acBlockGasLimit < l.totalGas + acTxTotalGas tx then l
  else
    let r := acStateApplyTx P l.state tx slot baseFee
    if r.1 = .rejected then { l with state := r.2.2 }
    else ⟨l.kept ++ [tx], l.totalGas + r.2.1.gasUsed, l.totalTips + r.2.1.feeTip, r.2.2⟩

/-- The candidate loop. -/
def buildTxs (slot baseFee : UInt64) (s : AcState) (txs : List Tx) : BuildLoop :=
  txs.foldl (buildStep P slot baseFee) ⟨[], 0, 0, s⟩

lemma length_kept_buildStep (slot baseFee : UInt64) (l : BuildLoop) (tx : Tx) :
    (buildStep P slot baseFee l tx).kept.length ≤ l.kept.length + 1 := by
  rw [buildStep]
  dsimp only
  split_ifs <;> simp

lemma length_kept_foldl (slot baseFee : UInt64) (txs : List Tx) (l : BuildLoop) :
    (txs.foldl (buildStep P slot baseFee) l).kept.length ≤ l.kept.length + txs.length := by
  induction txs generalizing l with
  | nil => exact le_rfl
  | cons tx txs ih =>
    have hstep := length_kept_buildStep P slot baseFee l tx
    have hrest := ih (buildStep P slot baseFee l tx)
    rw [List.foldl_cons, List.length_cons]
    omega

/-- At most as many transactions are kept as there are candidates. -/
lemma length_kept_le (slot baseFee : UInt64) (s : AcState) (cands : Candidates) :
    (buildTxs P slot baseFee s cands.txs).kept.length ≤ 256 := by
  have hlen := length_kept_foldl P slot baseFee cands.txs ⟨[], 0, 0, s⟩
  have hle := cands.txs_le
  rw [List.length_nil] at hlen
  rw [buildTxs]
  omega

/-- The base fee of the next block. -/
def buildBaseFee (c : Chain) : UInt64 :=
  if c.height = 0 then acMinBaseFee
  else
    match acChainGetHeaderByHeight c c.height with
    | none => acMinBaseFee
    | some prev => acChainNextBaseFee prev.baseFee prev.gasUsed prev.gasLimit

/-- The header of a built block. -/
def builtHeader (c : Chain) (slot : UInt64) (proposer : Addr) (proof : VrfProof) (baseFee : UInt64)
    (l : BuildLoop) : BlockHeader where
  version := acBlockVersion
  height := c.height + 1
  slot := slot
  parentHash := c.tipHash
  timestampMs := acChainSlotTimeMs c slot
  proposer := proposer
  proposerVrfProof := proof
  stateRoot := acStateRoot P (payReward l.state proposer (c.height + 1) l.totalTips)
  txRoot := acBlockTxRoot P l.kept
  baseFee := baseFee
  gasUsed := l.totalGas
  gasLimit := acBlockGasLimit
  txCount := UInt32.ofNat l.kept.length

/-- The built block. -/
def builtBlock (c : Chain) (slot : UInt64) (kp : Keypair) (proof : VrfProof)
    (cands : Candidates) : Block where
  header := builtHeader P c slot kp.pk proof (buildBaseFee c)
    (buildTxs P slot (buildBaseFee c) c.state cands.txs)
  txs := (buildTxs P slot (buildBaseFee c) c.state cands.txs).kept
  signers := []
  txCount_eq := by
    have hle := length_kept_le P slot (buildBaseFee c) c.state cands
    exact (UInt32.toNat_ofNat_of_lt' (hle.trans_lt (by decide))).symm
  txs_le := (length_kept_le P slot (buildBaseFee c) c.state cands).trans (by decide)
  signers_le := Nat.zero_le _

/-- `ac_chain_build_block`: the block, or `none` for `-1`, and the chain it leaves. -/
def acChainBuildBlock (c : Chain) (slot : UInt64) (kp : Keypair) (cands : Candidates) :
    Option Block × Chain :=
  let acc := acStateGet c.state kp.pk
  if !acc.1 then (none, c)
  else if acc.2.stake < acMinStakeUcrd then (none, c)
  else
    let seed := acChainEpochSeed P c (acEpochOf slot)
    let proof := acVrfProve P (leaderAlpha seed.1 slot) kp
    let c := seed.2
    match acStateSerialize P c.state with
    | none => (none, c)
    | some snap =>
        let l := buildTxs P slot (buildBaseFee c) c.state cands.txs
        let post := payReward l.state kp.pk (c.height + 1) l.totalTips
        (some (builtBlock P c slot kp proof cands), Chain.rollback { c with state := post } snap)

variable {P}

/-! ### What a call can do -/

lemma payReward_chainId (s : AcState) (proposer : Addr) (height tips : UInt64) :
    (payReward s proposer height tips).chainId = s.chainId := rfl

lemma buildStep_chainId (slot baseFee : UInt64) (l : BuildLoop) (tx : Tx) :
    (buildStep P slot baseFee l tx).state.chainId = l.state.chainId := by
  have htx := acStateApplyTx_chainId (P := P) l.state tx slot baseFee
  rw [buildStep]
  dsimp only
  split_ifs
  · rfl
  · rfl
  · exact htx
  · exact htx

lemma buildTxs_chainId (slot baseFee : UInt64) (s : AcState) (txs : List Tx) :
    (buildTxs P slot baseFee s txs).state.chainId = s.chainId := by
  have hloop : ∀ l : BuildLoop, (txs.foldl (buildStep P slot baseFee) l).state.chainId =
      l.state.chainId := by
    induction txs with
    | nil => exact fun l => rfl
    | cons tx txs ih => exact fun l => (ih _).trans (buildStep_chainId slot baseFee l tx)
  exact hloop ⟨[], 0, 0, s⟩

/-- The chain is as before, up to the seed cache: the state that the loop and the reward leave
is overwritten from the snapshot. -/
lemma acChainBuildBlock_reseeded (hP : P.MallocBounded) (c : Chain) (slot : UInt64) (kp : Keypair)
    (cands : Candidates) : c.Reseeded P (acChainBuildBlock P c slot kp cands).2 := by
  have hseed := acChainEpochSeed_reseeded (P := P) c (acEpochOf slot)
  rw [acChainBuildBlock]
  dsimp only
  split_ifs
  · exact .refl c
  · exact .refl c
  · cases hsnap : acStateSerialize P (acChainEpochSeed P c (acEpochOf slot)).2.state with
    | none => exact hseed
    | some snap =>
      dsimp only
      rw [rollback_eq hP hsnap ((payReward_chainId _ _ _ _).trans (buildTxs_chainId _ _ _ _))]
      exact hseed

/-- A block that was built: the proposer is active and the snapshot was granted. -/
lemma acChainBuildBlock_some (hP : P.MallocBounded) {c : Chain} {slot : UInt64} {kp : Keypair}
    {cands : Candidates} {b : Block} (h : (acChainBuildBlock P c slot kp cands).1 = some b) :
    ¬ (acStateGet c.state kp.pk).2.stake < acMinStakeUcrd ∧
      (acStateSerialize P c.state).isSome ∧
      b = builtBlock P (acChainBuildBlock P c slot kp cands).2 slot kp
        (acVrfProve P (leaderAlpha (acChainEpochSeed P c (acEpochOf slot)).1 slot) kp) cands := by
  have hstate := (acChainEpochSeed_reseeded (P := P) c (acEpochOf slot)).same.state_eq
  rw [acChainBuildBlock] at h ⊢
  dsimp only at h ⊢
  split_ifs at h ⊢ with hfound hstake
  cases hsnap : acStateSerialize P (acChainEpochSeed P c (acEpochOf slot)).2.state with
  | none =>
    rw [hsnap] at h
    exact absurd h (by simp)
  | some snap =>
    rw [hsnap] at h
    dsimp only at h ⊢
    rw [rollback_eq hP hsnap ((payReward_chainId _ _ _ _).trans (buildTxs_chainId _ _ _ _))]
    rw [hstate] at hsnap
    exact ⟨hstake, by rw [hsnap]; rfl, (Option.some.inj h).symm⟩

end Build

end AgentChain
