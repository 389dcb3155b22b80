import AgentChain.Open
import AgentChain.Lib.Trace

/-!
# Runs of the chain

A chain that was opened on a fresh directory changes by accepting blocks; blocks that are
turned away and questions for epoch seeds only touch the seed cache.  `Ledger` says what the
record and the files hold after any such run, in terms of the genesis and of the blocks
accepted so far.
-/

namespace AgentChain

open Trace

/-- The state after a list of blocks, oldest first. -/
def replay (P : Platform) (s : AcState) (bs : List Block) : AcState := bs.foldl (postState P) s

lemma replay_snoc (P : Platform) (s : AcState) (bs : List Block) (b : Block) :
    replay P s (bs ++ [b]) = postState P (replay P s bs) b := by
  rw [replay, List.foldl_append]
  rfl

lemma replay_chainId (P : Platform) (g : Genesis) (bs : List Block) :
    (replay P (genesisState g) bs).chainId = g.chainId := by
  induction bs using List.reverseRecOn with
  | nil => exact genesisState_chainId g
  | append_singleton bs b ih => rw [replay_snoc, postState_chainId, ih]

/-- One call on the chain, with the block it accepts.  A call may run out of memory for its
snapshot, but no write fails. -/
inductive ChainStep (P : Platform) : Chain → List Block → Chain → Prop
  | accepted (now : UInt64) (w : Writes) (c : Chain) (b : Block)
      (h : (acChainAcceptBlock P now w c b).1 = .ok) :
      ChainStep P c [b] (acChainAcceptBlock P now w c b).2
  | turnedAway (now : UInt64) (w : Writes) (c : Chain) (b : Block)
      (h : (acChainAcceptBlock P now w c b).1 ≠ .ok)
      (hw : (acChainAcceptBlock P now w c b).1 = .internal → acStateSerialize P c.state = none) :
      ChainStep P c [] (acChainAcceptBlock P now w c b).2
  | seeded (c : Chain) (epoch : UInt64) : ChainStep P c [] (acChainEpochSeed P c epoch).2

/-- The chain is reached from the genesis by accepting the given blocks, oldest first. -/
def Reachable (P : Platform) (g : Genesis) (bs : List Block) (c : Chain) : Prop :=
  ∃ w d c₀, d.metaBin = none ∧ acChainOpen P w d (some g) = some c₀ ∧ Run (ChainStep P) c₀ bs c

/-- The block at the tip. -/
def tipBlock (P : Platform) (g : Genesis) (bs : List Block) : Block :=
  bs.getLast?.getD (genesisBlock P g)

lemma tipBlock_snoc (P : Platform) (g : Genesis) (bs : List Block) (b : Block) :
    tipBlock P g (bs ++ [b]) = b := by
  rw [tipBlock, List.getLast?_concat, Option.getD_some]

/-- The block at a height is the tip of the blocks up to it. -/
lemma getElem?_eq_tipBlock {P : Platform} {g : Genesis} {bs : List Block} {k : ℕ}
    (hk : k ≤ bs.length) :
    (genesisBlock P g :: bs)[k]? = some (tipBlock P g (bs.take k)) := by
  cases k with
  | zero => rfl
  | succ k =>
    rw [List.getElem?_cons_succ, List.getElem?_eq_getElem hk, List.take_succ_eq_append_getElem hk,
      tipBlock_snoc]

/-- The blocks have the heights from one on. -/
def Consecutive (bs : List Block) : Prop :=
  ∀ i b, bs[i]? = some b → b.header.height.toNat = i + 1

/-- The liveness map after a list of blocks, oldest first. -/
def liveAfter (m : List LiveEntry) (bs : List Block) : List LiveEntry :=
  bs.foldl (fun m b => liveRecordSigners m b.signers b.header.height) m

lemma liveAfter_snoc (m : List LiveEntry) (bs : List Block) (b : Block) :
    liveAfter m (bs ++ [b]) =
      liveRecordSigners (liveAfter m bs) b.signers b.header.height := by
  rw [liveAfter, List.foldl_append]
  rfl

/-- What a chain holds after accepting the given blocks. -/
structure Ledger (P : Platform) (g : Genesis) (bs : List Block) (c : Chain) : Prop where
  height_eq : c.height.toNat = bs.length
  stored : ∀ k ≤ bs.length, blockRead c.dir (UInt64.ofNat k) = (genesisBlock P g :: bs)[k]?
  state_eq : c.state = replay P (genesisState g) bs
  tipHash_eq : c.tipHash = acBlockHash P (tipBlock P g bs).header
  lastSlot_eq : c.lastSlot = (tipBlock P g bs).header.slot
  lastTimestampMs_eq : c.lastTimestampMs = (tipBlock P g bs).header.timestampMs
  baseFee_eq : c.baseFee = (tipBlock P g bs).header.baseFee
  chainId_eq : c.chainId = g.chainId
  genesisTimestampMs_eq : c.genesisTimestampMs = g.timestampMs
  metaBin_eq : c.dir.metaBin = some (metaBytes c.toMeta)
  stateBin_eq : ∃ buf, acStateSerialize P c.state = some buf ∧ c.dir.stateBin = some buf
  cacheValid : c.CacheValid P
  consecutive : Consecutive bs
  root_eq : acStateRoot P c.state = (tipBlock P g bs).header.stateRoot

section Ledger

variable {P : Platform} {g : Genesis} {bs : List Block} {c d : Chain}

/-- The genesis chain holds the genesis. -/
lemma ledger_genesis {dir : DataDir} {buf : Bytes}
    (hbuf : acStateSerialize P (genesisState g) = some buf) :
    Ledger P g [] (genesisChain P dir g buf) where
  height_eq := rfl
  stored := by
    intro k hk
    obtain rfl : k = 0 := Nat.le_zero.mp hk
    exact (blockRead_congr rfl 0).trans (blockRead_putBlock dir (genesisBlock P g))
  state_eq := rfl
  tipHash_eq := rfl
  lastSlot_eq := rfl
  lastTimestampMs_eq := rfl
  baseFee_eq := rfl
  chainId_eq := rfl
  genesisTimestampMs_eq := rfl
  metaBin_eq := rfl
  stateBin_eq := ⟨buf, hbuf, rfl⟩
  cacheValid := by
    intro epoch seed h
    exact absurd h (by simp [genesisChain, genesisRecord, Chain.saveMeta, Chain.fresh])
  consecutive := by
    intro i b hb
    exact absurd hb (by simp)
  root_eq := rfl

/-- Asking for seeds changes nothing in the ledger. -/
lemma Ledger.reseeded (h : Ledger P g bs c) (hd : c.Reseeded P d) : Ledger P g bs d := by
  have hvalid := hd.valid h.cacheValid
  obtain ⟨k, rfl⟩ : ∃ k, d = { c with cached := k } := ⟨_, hd.same.eq_withCached⟩
  exact { h with cacheValid := hvalid }

/-- A block that links to the tip is one higher. -/
lemma height_of_checkLink {h : BlockHeader} (hlink : checkLink P c h = none) :
    h.height.toNat = c.height.toNat + 1 := by
  obtain ⟨-, hne, -, heq, -⟩ := checkLink_eq_none.mp hlink
  have hlt := c.height.toNat_lt
  have h1 : (1 : UInt64).toNat = 1 := rfl
  have hsum : h.height.toNat = (c.height.toNat + 1) % 2 ^ 64 := by
    rw [heq, UInt64.toNat_add, h1]
  -- the sum does not wrap, since the height is not zero
  have hpos : h.height.toNat ≠ 0 := fun h0 => hne (UInt64.toNat_inj.mp h0)
  omega

/-- The block files after a commit. -/
lemma blockRead_committed (b : Block) (buf : Bytes) (k : UInt64) :
    blockRead (committed P c b buf).dir k =
      if k = b.header.height then some b else blockRead c.dir k := by
  have hblocks : (committed P c b buf).dir.blocks = (c.dir.putBlock b).blocks := rfl
  rw [blockRead_congr hblocks]
  split_ifs with hk
  · rw [hk]
    exact blockRead_putBlock c.dir b
  · exact blockRead_putBlock_of_ne c.dir hk

/-- Committing a block appends it to the ledger. -/
lemma Ledger.commit (h : Ledger P g bs c) {now : UInt64} {b : Block} {buf : Bytes}
    (hpass : PassesChecks P now c b)
    (hbuf : acStateSerialize P (postState P c.state b) = some buf) :
    Ledger P g (bs ++ [b]) (committed P c b buf) := by
  have hb : b.header.height.toNat = bs.length + 1 := by
    rw [height_of_checkLink hpass.link, h.height_eq]
  have hlt := b.header.height.toNat_lt
  have htip := tipBlock_snoc P g bs b
  refine
    { height_eq := ?height
      stored := ?stored
      state_eq := ?state
      tipHash_eq := by rw [htip]; rfl
      lastSlot_eq := by rw [htip]; rfl
      lastTimestampMs_eq := by rw [htip]; rfl
      baseFee_eq := by rw [htip]; rfl
      chainId_eq := h.chainId_eq
      genesisTimestampMs_eq := h.genesisTimestampMs_eq
      metaBin_eq := rfl
      stateBin_eq := ⟨buf, hbuf, rfl⟩
      cacheValid := fun _ _ hk => absurd hk nofun
      consecutive := ?heights
      root_eq := by rw [htip]; exact hpass.stateRoot }
  case height =>
    rw [List.length_append, List.length_singleton]
    exact hb
  case stored =>
    intro k hk
    rw [List.length_append, List.length_singleton] at hk
    rw [blockRead_committed]
    have hof : (UInt64.ofNat k).toNat = k :=
      UInt64.toNat_ofNat_of_lt' (show k < 2 ^ 64 by omega)
    split_ifs with hkb
    · obtain rfl : k = bs.length + 1 := by rw [← hof, hkb, hb]
      simp
    · have hne : k ≠ bs.length + 1 := fun hk' =>
        hkb (UInt64.toNat_inj.mp (by rw [hof, hb, hk']))
      rw [h.stored k (by omega), ← List.cons_append, List.getElem?_append_left]
      rw [List.length_cons]
      omega
  case state =>
    rw [replay_snoc, ← h.state_eq]
    rfl
  case heights =>
    intro i x hx
    by_cases hi : i < bs.length
    · rw [List.getElem?_append_left hi] at hx
      exact h.consecutive i x hx
    · rw [List.getElem?_append_right (not_lt.mp hi), List.getElem?_singleton] at hx
      split_ifs at hx with h0
      obtain rfl := Option.some.inj hx
      omega

/-! ### Reachable chains -/

/-- The genesis chain is reachable. -/
lemma reachable_genesis {w : Writes} {dir : DataDir} (hdir : dir.metaBin = none)
    (hopen : acChainOpen P w dir (some g) = some c) : Reachable P g [] c :=
  ⟨w, dir, c, hdir, hopen, .refl c⟩

lemma Reachable.step {new : List Block} (h : Reachable P g bs c) (hs : ChainStep P c new d) :
    Reachable P g (bs ++ new) d := by
  obtain ⟨w, dir, c₀, hdir, hopen, hrun⟩ := h
  exact ⟨w, dir, c₀, hdir, hopen, .tail hrun hs⟩

/-- One step keeps the ledger and records the signers of the accepted block. -/
theorem ChainStep.ledger (hP : P.MallocBounded) {new : List Block} (hs : ChainStep P c new d)
    (h : Ledger P g bs c) : Ledger P g (bs ++ new) d ∧ d.liveMap = liveAfter c.liveMap new := by
  cases hs with
  | accepted now w c b hok =>
    obtain ⟨hpass, -, -, -, buf, hbuf, hres⟩ := acChainAcceptBlock_ok hP hok
    rw [hres]
    exact ⟨h.commit hpass hbuf, rfl⟩
  | turnedAway now w c b hrc hw =>
    have hseed := acChainAcceptBlock_turnedAway hP hrc hw
    rw [List.append_nil]
    refine ⟨h.reseeded hseed, ?_⟩
    rw [hseed.same.eq_withCached]
    rfl
  | seeded c epoch =>
    have hseed := acChainEpochSeed_reseeded (P := P) c epoch
    rw [List.append_nil]
    refine ⟨h.reseeded hseed, ?_⟩
    rw [hseed.same.eq_withCached]
    rfl

/-- **The ledger of a reachable chain**, and its liveness map. -/
theorem Reachable.ledger_and_live (hP : P.MallocBounded) (h : Reachable P g bs c) :
    Ledger P g bs c ∧ c.liveMap = liveAfter (genesisLive g) bs := by
  obtain ⟨w, dir, c₀, hdir, hopen, hrun⟩ := h
  refine hrun.invariant
    (I := fun bs c => Ledger P g bs c ∧ c.liveMap = liveAfter (genesisLive g) bs) ?_ ?_
  · obtain ⟨buf, hbuf, rfl⟩ := acChainOpen_genesis hdir hopen
    exact ⟨ledger_genesis hbuf, rfl⟩
  · rintro bs c new d ⟨hl, hm⟩ hs
    obtain ⟨hl', hm'⟩ := hs.ledger hP hl
    refine ⟨hl', ?_⟩
    rw [hm', hm, liveAfter, liveAfter, liveAfter, List.foldl_append]

lemma Reachable.ledger (hP : P.MallocBounded) (h : Reachable P g bs c) : Ledger P g bs c :=
  (h.ledger_and_live hP).1

lemma Reachable.live_eq (hP : P.MallocBounded) (h : Reachable P g bs c) :
    c.liveMap = liveAfter (genesisLive g) bs :=
  (h.ledger_and_live hP).2

/-- Every accepted block passed the checks on the chain of the blocks before it. -/
theorem Reachable.accepted_at (hP : P.MallocBounded) (h : Reachable P g bs c) {i : ℕ} {b : Block}
    (hb : bs[i]? = some b) :
    ∃ c₁ now k, Reachable P g (bs.take i) c₁ ∧ PassesChecks P now c₁ b ∧ CommitOk P c₁ k b := by
  obtain ⟨w, dir, c₀, hdir, hopen, hrun⟩ := h
  obtain ⟨hi, rfl⟩ := List.getElem?_eq_some_iff.mp hb
  have hsplit : bs = bs.take i ++ bs[i] :: bs.drop (i + 1) := by simp
  have hone : ∀ t new v, ChainStep P t new v → new.length ≤ 1 := by
    intro t new v hs
    cases hs with
    | accepted => exact le_rfl
    | turnedAway => exact Nat.zero_le 1
    | seeded => exact Nat.zero_le 1
  rw [hsplit] at hrun
  obtain ⟨t, v, hbefore, hstep, -⟩ := hrun.exists_step hone
  generalize hnew : [bs[i]] = new at hstep
  cases hstep with
  | accepted now w t b hok =>
    obtain ⟨hpass, ⟨k, -, hk⟩, -⟩ := acChainAcceptBlock_ok hP hok
    obtain rfl := (List.cons.inj hnew).1
    exact ⟨t, now, k, ⟨_, dir, c₀, hdir, hopen, hbefore⟩, hpass, hk⟩
  | turnedAway => exact absurd hnew (by simp)
  | seeded => exact absurd hnew (by simp)

end Ledger

end AgentChain
