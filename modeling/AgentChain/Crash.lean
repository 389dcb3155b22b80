import AgentChain.IdleBlock
import AgentChain.Restart

/-!
# Crashes and failed writes

Three files are written one after the other: the block, `state.bin` and `meta.bin` when a
block is accepted, and the block, `meta.bin` and `state.bin` at genesis.  Each write is all or
nothing.  A process that stops in front of a write leaves the directory that it leaves when
this write fails, so the outcomes `Writes` of a call range over all points at which it can
stop.

`ac_chain_open` trusts `meta.bin` and `state.bin` without comparing them.  A stop between the
two leaves a directory that does not open as the chain before or after the block, and a
failed write leaves the state of the block in memory.  Both are harmless for a block that
leaves the state alone, which the transactions, the proposer and the balance of the pool show.
-/

namespace AgentChain

/-- What the two files hold of a chain: its state, and the fields of `meta.bin`. -/
def Chain.record (c : Chain) : AcState × Meta := (c.state, c.toMeta)

/-- The record after a block. -/
def postRecord (P : Platform) (c : Chain) (b : Block) : AcState × Meta :=
  (postState P c.state b, (c.advance b.header (acBlockHash P b.header)).toMeta)

/-- The directory opens as a chain with the given record, and the root of its state is the one
in the stored header at its height. -/
def ReopensAs (P : Platform) (dir : DataDir) (g : Option Genesis) (r : AcState × Meta) : Prop :=
  ∃ d, acChainOpen P .all dir g = some d ∧ d.record = r ∧
    (acChainGetHeaderByHeight d d.height).map BlockHeader.stateRoot = some (acStateRoot P d.state)

/-- The fields in memory that a call must not change unless it succeeds. -/
structure Chain.SameMemory (c d : Chain) : Prop where
  state_eq : d.state = c.state
  height_eq : d.height = c.height
  tipHash_eq : d.tipHash = c.tipHash
  lastSlot_eq : d.lastSlot = c.lastSlot
  baseFee_eq : d.baseFee = c.baseFee

/-- The block file and `state.bin` are written and `meta.bin` is not. -/
structure StopsBeforeMeta (P : Platform) (w : Writes) (c : Chain) (b : Block) : Prop where
  block : w.block = true
  snapshot : (acStateSerialize P (postState P c.state b)).isSome
  state : w.state = true
  metaFile : w.metaFile = false

/-- No write fails, and the buffer for `state.bin` is granted. -/
structure FilesWritten (P : Platform) (w : Writes) (c : Chain) (b : Block) : Prop where
  writes : w = .all
  snapshot : (acStateSerialize P (postState P c.state b)).isSome

section Crash

variable {P : Platform} {g : Genesis} {bs : List Block} {c d : Chain} {b : Block} {now : UInt64}

/-! ### Ledgers and directories -/

lemma Ledger.record_eq (h : Ledger P g bs c) (h' : Ledger P g bs d) : d.record = c.record := by
  have hheight : d.height = c.height :=
    UInt64.toNat_inj.mp (by rw [h.height_eq, h'.height_eq])
  rw [Chain.record, Chain.record, Chain.toMeta, Chain.toMeta, h.state_eq, h'.state_eq, hheight,
    h.tipHash_eq, h'.tipHash_eq, h.lastSlot_eq, h'.lastSlot_eq, h.lastTimestampMs_eq,
    h'.lastTimestampMs_eq, h.baseFee_eq, h'.baseFee_eq, h.chainId_eq, h'.chainId_eq,
    h.genesisTimestampMs_eq, h'.genesisTimestampMs_eq]

/-- The stored header at the height names the root of the state. -/
lemma Ledger.root_stored (h : Ledger P g bs c) :
    (acChainGetHeaderByHeight c c.height).map BlockHeader.stateRoot =
      some (acStateRoot P c.state) := by
  have htip := h.stored bs.length le_rfl
  rw [getElem?_eq_tipBlock le_rfl, List.take_length, ← h.height_eq, UInt64.ofNat_toNat] at htip
  rw [acChainGetHeaderByHeight, htip, h.root_eq]
  rfl

/-- The directory of a ledger opens as its chain. -/
lemma Ledger.reopensAs (hP : P.MallocBounded) (h : Ledger P g bs c) (g' : Option Genesis) :
    ReopensAs P c.dir g' c.record := by
  obtain ⟨d, hd, hl, -⟩ := h.reopen hP .all g'
  exact ⟨d, hd, h.record_eq hl, hl.root_stored⟩

/-- So does every directory with the same files up to the height. -/
lemma Ledger.reopensAs_of_agree (hP : P.MallocBounded) (h : Ledger P g bs c) {dir : DataDir}
    (hblocks : ∀ k ≤ bs.length, blockRead dir (UInt64.ofNat k) = blockRead c.dir (UInt64.ofNat k))
    (hmeta : dir.metaBin = c.dir.metaBin) (hstate : dir.stateBin = c.dir.stateBin)
    (g' : Option Genesis) : ReopensAs P dir g' c.record := by
  have hdir : Ledger P g bs { c with dir := dir, cached := none } :=
    { h with
      stored := fun k hk => (hblocks k hk).trans (h.stored k hk)
      metaBin_eq := hmeta.trans h.metaBin_eq
      stateBin_eq := by
        obtain ⟨buf, hbuf, hb⟩ := h.stateBin_eq
        exact ⟨buf, hbuf, hstate.trans hb⟩
      cacheValid := fun _ _ hk => absurd hk nofun }
  exact hdir.reopensAs hP g'

/-- The block file of the next block is above the height. -/
lemma Ledger.blockRead_putBlock (h : Ledger P g bs c) (hlink : checkLink P c b.header = none)
    {k : ℕ}
    (hk : k ≤ bs.length) :
    blockRead (c.dir.putBlock b) (UInt64.ofNat k) = blockRead c.dir (UInt64.ofNat k) := by
  have hb := height_of_checkLink hlink
  have hlt := b.header.height.toNat_lt
  rw [h.height_eq] at hb
  have hof : (UInt64.ofNat k).toNat = k := UInt64.toNat_ofNat_of_lt' (show k < 2 ^ 64 by omega)
  refine blockRead_putBlock_of_ne c.dir fun heq => ?_
  rw [heq] at hof
  omega

/-! ### The writes of a block -/

/-- What the writes leave, in the order in which they can stop. -/
lemma persist_cases (w : Writes) (d : Chain) (b : Block) (blockHash : Hash) :
    (w.block = false ∧ persist P w d b blockHash = (.internal, d)) ∨
    (w.block = true ∧ (acStateSerialize P d.state = none ∨ w.state = false) ∧
      persist P w d b blockHash = (.internal, { d with dir := d.dir.putBlock b })) ∨
    (∃ buf, w.block = true ∧ acStateSerialize P d.state = some buf ∧ w.state = true ∧
      w.metaFile = false ∧ persist P w d b blockHash = (.internal,
        { d with dir := { d.dir.putBlock b with stateBin := some buf } }.advance
          b.header blockHash)) ∨
    (persist P w d b blockHash).1 = .ok := by
  rw [persist]
  by_cases hblock : w.block = false
  · exact Or.inl ⟨hblock, by simp [hblock]⟩
  rw [Bool.not_eq_false] at hblock
  refine Or.inr ?_
  cases hser : acStateSerialize P d.state with
  | none => exact Or.inl ⟨hblock, Or.inl rfl, by simp [hblock, hser]⟩
  | some buf =>
    by_cases hstate : w.state = false
    · exact Or.inl ⟨hblock, Or.inr hstate, by simp [hblock, hser, hstate]⟩
    rw [Bool.not_eq_false] at hstate
    refine Or.inr ?_
    by_cases hmeta : w.metaFile = false
    · exact Or.inl ⟨buf, hblock, rfl, hstate, hmeta, by simp [hblock, hser, hstate, hmeta]⟩
    · rw [Bool.not_eq_false] at hmeta
      exact Or.inr (by simp [hblock, hser, hstate, hmeta])

/-- Behind `state.bin` neither its buffer nor its write has failed. -/
lemma StopsBeforeMeta.not_stopped {w : Writes} (h : StopsBeforeMeta P w c b) :
    ¬ (acStateSerialize P (postState P c.state b) = none ∨ w.state = false) := by
  rintro (hnone | hstate)
  · exact absurd h.snapshot (by simp [hnone])
  · exact absurd hstate (by simp [h.state])

lemma FilesWritten.not_stopped {w : Writes} (h : FilesWritten P w c b) :
    ¬ (acStateSerialize P (postState P c.state b) = none ∨ w.state = false) := by
  rintro (hnone | hstate)
  · exact absurd h.snapshot (by simp [hnone])
  · exact absurd hstate (by simp [h.writes, Writes.all])

/-- A `state.bin` of the next block with the `meta.bin` before it opens as a mixture. -/
lemma Ledger.torn_record (hP : P.MallocBounded) (h : Ledger P g bs c) {buf : Bytes}
    (hbuf : acStateSerialize P (postState P c.state b) = some buf) (g' : Option Genesis) (e : Chain)
    (he : acChainOpen P .all { c.dir.putBlock b with stateBin := some buf } g' = some e) :
    e.record = (postState P c.state b, c.toMeta) := by
  have hid : (postState P c.state b).chainId = c.chainId := by
    rw [postState_chainId, h.state_eq, replay_chainId, h.chainId_eq]
  have hopen := acChainOpen_existing hP (w := .all) (g := g')
    (c := { c with
      state := postState P c.state b
      dir := { c.dir.putBlock b with stateBin := some buf } }) h.metaBin_eq rfl hbuf hid
  obtain rfl := Option.some.inj (he.symm.trans hopen)
  exact congrArg Chain.record (txIndexRebuild_core _)

/-- What a committable block does to the state. -/
lemma Committable.postState_eq_iff (h : Committable P now c b) (hc : c.CacheValid P) :
    postState P c.state b = c.state ↔ b.Idle c.state :=
  AgentChain.postState_eq_iff h.passes.txs_ok ((validateProposerVrf_iff hc).mp h.passes.proposer).1

/-- **Stopping inside a call**: the directory opens as the chain before or after the block,
except for a stop between `state.bin` and `meta.bin` of a block that is not idle. -/
theorem reopens_iff (hP : P.MallocBounded) (h : Ledger P g bs c) (now : UInt64) (w : Writes)
    (b : Block) (g' : Option Genesis) :
    (ReopensAs P (acChainAcceptBlock P now w c b).2.dir g' c.record ∨
      ReopensAs P (acChainAcceptBlock P now w c b).2.dir g' (postRecord P c b)) ↔
    (Committable P now c b → StopsBeforeMeta P w c b → b.Idle c.state) := by
  have hpre := h.reopensAs hP g'
  rcases acChainAcceptBlock_committable hP h.cacheValid now w b with
    ⟨hcom, d, hd, heq⟩ | ⟨hnot, -, hres⟩
  · obtain ⟨k, rfl⟩ : ∃ k, d = { c with state := postState P c.state b, cached := k } :=
      ⟨_, hd.eq_withCached⟩
    have hput := fun k hk => h.blockRead_putBlock hcom.passes.link (k := k) hk
    rcases persist_cases (P := P) w { c with state := postState P c.state b, cached := k } b
        (acBlockHash P b.header) with
      ⟨hw, hp⟩ | ⟨-, hw, hp⟩ | ⟨buf, hw, hbuf, hws, hwm, hp⟩ | hok
    · -- nothing was written
      rw [heq, hp]
      exact iff_of_true (Or.inl hpre) fun _ hstop => absurd hw (by simp [hstop.block])
    · -- only the block file, which lies above the height
      rw [heq, hp]
      refine iff_of_true (Or.inl (h.reopensAs_of_agree hP hput rfl rfl g')) fun _ hstop => ?_
      exact absurd hw (hstop.not_stopped)
    · -- `state.bin` is that of the block, `meta.bin` the one before it
      rw [heq, hp]
      have hstop : StopsBeforeMeta P w c b := ⟨hw, by rw [hbuf]; rfl, hws, hwm⟩
      by_cases hsame : postState P c.state b = c.state
      · have hidle := (hcom.postState_eq_iff h.cacheValid).mp hsame
        refine iff_of_true (Or.inl ?_) fun _ _ => hidle
        obtain ⟨buf', hbuf', hbin⟩ := h.stateBin_eq
        obtain rfl : buf = buf' := Option.some.inj ((hsame ▸ hbuf).symm.trans hbuf')
        have hblocks : ∀ k ≤ bs.length, blockRead { c.dir.putBlock b with stateBin := some buf }
            (UInt64.ofNat k) = blockRead c.dir (UInt64.ofNat k) :=
          fun k hk => (blockRead_congr rfl _).trans (hput k hk)
        exact h.reopensAs_of_agree hP hblocks rfl hbin.symm g'
      · have hidle : ¬ b.Idle c.state := mt (hcom.postState_eq_iff h.cacheValid).mpr hsame
        refine iff_of_false (fun hopen => ?_) fun hgood => hidle (hgood hcom hstop)
        have htorn := h.torn_record hP hbuf g'
        rcases hopen with ⟨e, he, hrec, -⟩ | ⟨e, he, hrec, -⟩
        · exact absurd (congrArg Prod.fst ((htorn e he).symm.trans hrec)) hsame
        · have hheight := congrArg (fun r : AcState × Meta => r.2.height.toNat)
            ((htorn e he).symm.trans hrec)
          have hb := height_of_checkLink hcom.passes.link
          change c.height.toNat = b.header.height.toNat at hheight
          omega
    · have hok' : (acChainAcceptBlock P now w c b).1 = .ok := by rw [heq]; exact hok
      obtain ⟨-, -, -, hw, buf, hbuf, hres⟩ := acChainAcceptBlock_ok hP hok'
      refine iff_of_true (Or.inr ?_) fun _ hstop => absurd hstop.metaFile (by simp [hw, Writes.all])
      rw [hres]
      exact (h.commit hcom.passes hbuf).reopensAs hP g'
  · refine iff_of_true (Or.inl ?_) fun hcom => absurd hcom hnot
    rw [hres.same.eq_withCached]
    exact hpre

/-! ### Memory after a failed call -/

lemma internal_ne_ok : AcceptRc.internal ≠ .ok := by decide

/-- **Memory after a failed call**: it is as before, except when a file is not written for a
block that is not idle, or `meta.bin` alone is not written. -/
theorem sameMemory_iff (hP : P.MallocBounded) (h : Ledger P g bs c) (now : UInt64) (w : Writes)
    (b : Block) :
    ((acChainAcceptBlock P now w c b).1 ≠ .ok → c.SameMemory (acChainAcceptBlock P now w c b).2) ↔
    (Committable P now c b →
      FilesWritten P w c b ∨ (b.Idle c.state ∧ ¬ StopsBeforeMeta P w c b)) := by
  rcases acChainAcceptBlock_committable hP h.cacheValid now w b with
    ⟨hcom, d, hd, heq⟩ | ⟨hnot, -, hres⟩
  · obtain ⟨k, rfl⟩ : ∃ k, d = { c with state := postState P c.state b, cached := k } :=
      ⟨_, hd.eq_withCached⟩
    have hidle := hcom.postState_eq_iff h.cacheValid
    -- a failure before `meta.bin` leaves only the state of the block
    have hearly : ∀ dir, ¬ FilesWritten P w c b → ¬ StopsBeforeMeta P w c b →
        (c.SameMemory { c with state := postState P c.state b, cached := k, dir := dir } ↔
          (Committable P now c b →
            FilesWritten P w c b ∨ (b.Idle c.state ∧ ¬ StopsBeforeMeta P w c b))) := by
      intro dir hfiles hstop
      constructor
      · intro hsame _
        exact Or.inr ⟨hidle.mp hsame.state_eq, hstop⟩
      · intro hgood
        exact ⟨hidle.mpr ((hgood hcom).resolve_left hfiles).1, rfl, rfl, rfl, rfl⟩
    rcases persist_cases (P := P) w { c with state := postState P c.state b, cached := k } b
        (acBlockHash P b.header) with
      ⟨hw, hp⟩ | ⟨-, hw, hp⟩ | ⟨buf, hw, hbuf, hws, hwm, hp⟩ | hok
    · rw [heq, hp, forall_prop_of_true internal_ne_ok]
      exact hearly c.dir (fun hall => absurd hw (by simp [hall.writes, Writes.all]))
        fun hstop => absurd hw (by simp [hstop.block])
    · rw [heq, hp, forall_prop_of_true internal_ne_ok]
      exact hearly (c.dir.putBlock b) (fun hall => absurd hw hall.not_stopped)
        fun hstop => absurd hw hstop.not_stopped
    · have hstop : StopsBeforeMeta P w c b := ⟨hw, by rw [hbuf]; rfl, hws, hwm⟩
      rw [heq, hp, forall_prop_of_true internal_ne_ok]
      refine iff_of_false (fun hsame => ?_) fun hgood => ?_
      · -- the tip has advanced
        have hheight := congrArg UInt64.toNat hsame.height_eq
        have hb := height_of_checkLink hcom.passes.link
        change b.header.height.toNat = c.height.toNat at hheight
        omega
      · rcases hgood hcom with hall | ⟨-, hno⟩
        · exact absurd hwm (by simp [hall.writes, Writes.all])
        · exact hno hstop
    · have hok' : (acChainAcceptBlock P now w c b).1 = .ok := by rw [heq]; exact hok
      obtain ⟨-, -, -, hw, buf, hbuf, -⟩ := acChainAcceptBlock_ok hP hok'
      exact iff_of_true (fun hne => absurd hok' hne)
        fun _ => Or.inl ⟨hw, by rw [hbuf]; rfl⟩
  · refine iff_of_true (fun _ => ?_) fun hcom => absurd hcom hnot
    rw [hres.same.eq_withCached]
    exact ⟨rfl, rfl, rfl, rfl, rfl⟩

/-! ### Genesis -/

/-- A `state.bin` that holds the given state. -/
def DataDir.HoldsState (dir : DataDir) (s : AcState) : Prop :=
  ∃ buf, dir.stateBin = some buf ∧ acStateDeserialize (acStateNew s.chainId) buf = (true, s)

/-- Without a `meta.bin` the genesis is applied again. -/
lemma reopensAs_genesis {dir dir' : DataDir} (hdir : dir.metaBin = none) :
    ReopensAs P dir (some g) (genesisRecord P dir' g).record ↔
      (acStateSerialize P (genesisState g)).isSome := by
  constructor
  · rintro ⟨d, hd, -⟩
    obtain ⟨buf, hbuf, -⟩ := acChainOpen_genesis hdir hd
    rw [hbuf]
    rfl
  · intro hbuf
    obtain ⟨buf, hbuf⟩ := Option.isSome_iff_exists.mp hbuf
    refine ⟨genesisChain P dir g buf, ?_, rfl, (ledger_genesis hbuf).root_stored⟩
    rw [acChainOpen.eq_def, hdir]
    dsimp only
    rw [chainApplyGenesis]
    simp only [Writes.all, Bool.not_true, Bool.false_eq_true, if_false, hbuf, if_true]
    rw [txIndexRebuild_of_height_zero rfl]

/-- Between `meta.bin` and `state.bin` of a genesis, only an older `state.bin` can help. -/
lemma reopensAs_genesisMeta {dir : DataDir} :
    ReopensAs P (genesisRecord P dir g).saveMeta.dir (some g) (genesisRecord P dir g).record ↔
      dir.HoldsState (genesisState g) := by
  have hopen : acChainOpen P .all (genesisRecord P dir g).saveMeta.dir (some g) =
      openExisting P (genesisRecord P dir g).saveMeta.dir
        (metaBytes (genesisRecord P dir g).toMeta) := by
    rw [acChainOpen.eq_def]
    rfl
  have hid : (genesisRecord P dir g).toMeta.chainId = (genesisState g).chainId :=
    (genesisState_chainId g).symm
  have hbin : (genesisRecord P dir g).saveMeta.dir.stateBin = dir.stateBin := rfl
  have hread : blockRead (genesisRecord P dir g).saveMeta.dir 0 = some (genesisBlock P g) :=
    (blockRead_congr rfl 0).trans (blockRead_putBlock dir (genesisBlock P g))
  rw [ReopensAs, hopen, openExisting, metaLoad_metaBytes, hbin]
  dsimp only
  rw [hid]
  cases hstate : dir.stateBin with
  | none =>
    refine ⟨fun h => ?_, fun h => ?_⟩
    · obtain ⟨d, hd, -⟩ := h
      cases hd
    · obtain ⟨buf, hbuf, -⟩ := h
      rw [hstate] at hbuf
      cases hbuf
  | some buf =>
    dsimp only
    constructor
    · rintro ⟨d, hd, hrec, -⟩
      split_ifs at hd with hok
      obtain rfl := Option.some.inj hd
      rw [txIndexRebuild_of_height_zero rfl] at hrec
      exact ⟨buf, hstate, Prod.ext hok (congrArg Prod.fst hrec)⟩
    · rintro ⟨buf', hbuf', hdes⟩
      obtain rfl := Option.some.inj (hstate.symm.trans hbuf')
      rw [hdes, if_pos rfl]
      refine ⟨_, rfl, ?_, ?_⟩
      · rw [txIndexRebuild_of_height_zero rfl]
        rfl
      · rw [txIndexRebuild_of_height_zero rfl]
        exact congrArg (fun x => (x.map Block.header).map BlockHeader.stateRoot) hread

/-- **Stopping inside a genesis**: the directory opens as the genesis chain when the state
fits into a buffer, except for a stop between `meta.bin` and `state.bin`. -/
theorem reopens_genesis_iff (hP : P.MallocBounded) {dir : DataDir} (hdir : dir.metaBin = none)
    (w : Writes) :
    ReopensAs P (chainApplyGenesis P w dir g).2.dir (some g) (genesisRecord P dir g).record ↔
      if w.block = true ∧ w.metaFile = true then
        (w.state = true ∧ (acStateSerialize P (genesisState g)).isSome) ∨
          dir.HoldsState (genesisState g)
      else (acStateSerialize P (genesisState g)).isSome := by
  rw [chainApplyGenesis]
  by_cases hblock : w.block = true
  · by_cases hmeta : w.metaFile = true
    · simp only [hblock, hmeta, Bool.not_true, Bool.false_eq_true, if_false, true_and, if_true]
      cases hser : acStateSerialize P (genesisState g) with
      | none =>
        simp only [Option.isSome_none, Bool.false_eq_true, and_false, false_or]
        exact reopensAs_genesisMeta
      | some buf =>
        by_cases hstate : w.state = true
        · simp only [hstate, Bool.not_true, Bool.false_eq_true, if_false, Option.isSome_some,
            true_and, true_or, iff_true]
          exact (ledger_genesis hser).reopensAs hP (some g)
        · simp only [Bool.not_eq_true] at hstate
          simp only [hstate, Bool.not_false, if_true, Bool.false_eq_true, false_and, false_or]
          exact reopensAs_genesisMeta
    · simp only [Bool.not_eq_true] at hmeta
      simp only [hblock, hmeta, Bool.not_true, Bool.not_false, Bool.false_eq_true, if_false,
        if_true, and_false]
      exact reopensAs_genesis hdir
  · simp only [Bool.not_eq_true] at hblock
    simp only [hblock, Bool.not_false, if_true, Bool.false_eq_true, false_and, if_false]
    exact reopensAs_genesis hdir

/-! ### Atomicity -/

/-- **When a stop or a failed write is harmless.**  Both conditions for a committable block are
about the writes, the buffer for the new `state.bin` and whether the block is idle; the
condition for a genesis is about the writes and the memory for the state. -/
theorem crash_and_failure_atomic_iff (hP : P.MallocBounded) (g : Genesis) :
    (∀ es c, NodeReachable P g es c → ∀ now w b g',
      ((ReopensAs P (acChainAcceptBlock P now w c b).2.dir g' c.record ∨
          ReopensAs P (acChainAcceptBlock P now w c b).2.dir g' (postRecord P c b)) ↔
        (Committable P now c b → StopsBeforeMeta P w c b → b.Idle c.state)) ∧
      (((acChainAcceptBlock P now w c b).1 ≠ .ok →
          c.SameMemory (acChainAcceptBlock P now w c b).2) ↔
        (Committable P now c b →
          FilesWritten P w c b ∨ (b.Idle c.state ∧ ¬ StopsBeforeMeta P w c b)))) ∧
    (∀ dir w, dir.metaBin = none →
      (ReopensAs P (chainApplyGenesis P w dir g).2.dir (some g) (genesisRecord P dir g).record ↔
        if w.block = true ∧ w.metaFile = true then
          (w.state = true ∧ (acStateSerialize P (genesisState g)).isSome) ∨
            dir.HoldsState (genesisState g)
        else (acStateSerialize P (genesisState g)).isSome)) := by
  refine ⟨fun es c h now w b g' => ?_, fun dir w hdir => reopens_genesis_iff hP hdir w⟩
  have hl := (h.ledger hP).1
  exact ⟨reopens_iff hP hl now w b g', sameMemory_iff hP hl now w b⟩

/-- A stop behind the block file is harmless, for the first block and for its genesis. -/
theorem crash_behind_block_file :
    (ReopensAs reference (acChainAcceptBlock reference 100000 ⟨true, false, true⟩
        (openedChain referenceGenesis) referenceBlock).2.dir none
        (openedChain referenceGenesis).record ∨
      ReopensAs reference (acChainAcceptBlock reference 100000 ⟨true, false, true⟩
        (openedChain referenceGenesis) referenceBlock).2.dir none
        (postRecord reference (openedChain referenceGenesis) referenceBlock)) ∧
    ReopensAs reference (chainApplyGenesis reference ⟨true, true, false⟩ .empty
      referenceGenesis).2.dir (some referenceGenesis)
      (genesisRecord reference .empty referenceGenesis).record := by
  have hall := crash_and_failure_atomic_iff reference_mallocBounded referenceGenesis
  have hreach : NodeReachable reference referenceGenesis [] (openedChain referenceGenesis) :=
    (reachable_openedChain (by decide +kernel)).node
  constructor
  · refine ((hall.1 _ _ hreach 100000 ⟨true, false, true⟩ referenceBlock none).1).mpr ?_
    intro _ hstop
    exact absurd hstop.state (by decide)
  · refine (hall.2 .empty ⟨true, true, false⟩ rfl).mpr ?_
    rw [if_neg (by decide)]
    decide +kernel

/-- **Torn directories.**  The first block is stopped between `state.bin` and `meta.bin`: the
directory opens at height 0 with a state whose root is not the one of the stored header.  The
same write failing returns with the height advanced; the write of the block file failing
returns with other accounts.  A genesis that is stopped between its last two writes does not
open any more. -/
theorem torn_directory :
    NodeReachable reference referenceGenesis [] (openedChain referenceGenesis) ∧
    (∃ d, acChainOpen reference .all (acChainAcceptBlock reference 100000 ⟨true, true, false⟩
        (openedChain referenceGenesis) referenceBlock).2.dir none = some d ∧ d.height = 0 ∧
      (acChainGetHeaderByHeight d d.height).map BlockHeader.stateRoot ≠
        some (acStateRoot reference d.state)) ∧
    ((acChainAcceptBlock reference 100000 ⟨true, true, false⟩ (openedChain referenceGenesis)
        referenceBlock).1 = .internal ∧
      (acChainAcceptBlock reference 100000 ⟨true, true, false⟩ (openedChain referenceGenesis)
        referenceBlock).2.height ≠ (openedChain referenceGenesis).height) ∧
    ((acChainAcceptBlock reference 100000 ⟨false, true, true⟩ (openedChain referenceGenesis)
        referenceBlock).1 = .internal ∧
      (acChainAcceptBlock reference 100000 ⟨false, true, true⟩ (openedChain referenceGenesis)
        referenceBlock).2.state.accounts ≠ (openedChain referenceGenesis).state.accounts) ∧
    acChainOpen reference .all (chainApplyGenesis reference ⟨true, false, true⟩ .empty
      referenceGenesis).2.dir (some referenceGenesis) = none := by
  have hopen : (acChainOpen reference .all (acChainAcceptBlock reference 100000
      ⟨true, true, false⟩ (openedChain referenceGenesis) referenceBlock).2.dir none).map
      (fun d => (d.height, decide ((acChainGetHeaderByHeight d d.height).map BlockHeader.stateRoot =
        some (acStateRoot reference d.state)))) = some (0, false) := by decide +kernel
  refine ⟨(reachable_openedChain (by decide +kernel)).node, ?_, ?_, ?_, ?_⟩
  · obtain ⟨d, hd, hval⟩ := Option.map_eq_some_iff.mp hopen
    rw [Prod.mk.injEq, decide_eq_false_iff_not] at hval
    exact ⟨d, hd, hval⟩
  · decide +kernel
  · decide +kernel
  · exact Option.isNone_iff_eq_none.mp (by decide +kernel)

end Crash

end AgentChain
