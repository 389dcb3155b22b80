import AgentChain.ChainInvariant
import AgentChain.Verdict

/-!
# Epoch seeds

`compute_epoch_seed` goes back from the tip to the last block before the epoch and hashes its
proof.  `ac_chain_epoch_seed` keeps one seed, of whatever epoch was asked for last, until a
block is accepted.  Slots increase along the chain, so that the block is the same for all
chains that have entered the epoch: the seed of an epoch moves with the tip before its first
block and stands from that block on.
-/

namespace AgentChain

open Trace

/-- The stored block of the greatest height whose slot is below the bound. -/
def HighestBelow (c : Chain) (start : ℕ) (b : Block) : Prop :=
  ∃ k ≤ c.height.toNat, c.blockAt k = some b ∧ b.header.slot.toNat < start ∧
    ∀ j b', k < j → j ≤ c.height.toNat → c.blockAt j = some b' → start ≤ b'.header.slot.toNat

section EpochSeeds

variable {P : Platform} {g : Genesis} {bs : List Block} {c d : Chain} {epoch : UInt64}

/-- There is one such block at most. -/
lemma HighestBelow.unique {start : ℕ} {b b' : Block} (h : HighestBelow c start b)
    (h' : HighestBelow c start b') : b = b' := by
  obtain ⟨k, hk, hb, hslot, habove⟩ := h
  obtain ⟨k', hk', hb', hslot', habove'⟩ := h'
  rcases lt_trichotomy k k' with hlt | rfl | hlt
  · exact absurd (habove k' b' hlt hk' hb') (by omega)
  · exact Option.some.inj (hb.symm.trans hb')
  · exact absurd (habove' k b hlt hk hb) (by omega)

/-! ### The search -/

/-- The search stops at the highest block below the epoch, or at height zero. -/
lemma scanBack_spec (start : UInt64) {n : ℕ} (hstored : ∀ k ≤ n, (c.blockAt k).isSome) :
    ∃ k ≤ n, scanBack c start n = some k ∧
      (k ≠ 0 → ∀ b, c.blockAt k = some b → b.header.slot < start) ∧
      ∀ j b, k < j → j ≤ n → c.blockAt j = some b → ¬ b.header.slot < start := by
  induction n with
  | zero => exact ⟨0, le_rfl, rfl, fun h => absurd rfl h, fun j b hj hj' => by omega⟩
  | succ n ih =>
    obtain ⟨b, hb⟩ := Option.isSome_iff_exists.mp (hstored (n + 1) le_rfl)
    have hhead : acChainGetHeaderByHeight c (UInt64.ofNat (n + 1)) = some b.header := by
      rw [acChainGetHeaderByHeight, ← Chain.blockAt, hb, Option.map_some]
    rw [scanBack, hhead]
    dsimp only
    split_ifs with hslot
    · refine ⟨n + 1, le_rfl, rfl, fun _ b' hb' => ?_, fun j b' hj hj' => by omega⟩
      obtain rfl := Option.some.inj (hb.symm.trans hb')
      exact hslot
    · obtain ⟨k, hk, hscan, hbelow, habove⟩ := ih fun k hk => hstored k (by omega)
      refine ⟨k, by omega, hscan, hbelow, fun j b' hj hj' hb' => ?_⟩
      rcases Nat.lt_or_ge n j with hlast | hj''
      · obtain rfl : j = n + 1 := by omega
        obtain rfl := Option.some.inj (hb.symm.trans hb')
        exact hslot
      · exact habove j b' hj hj'' hb'

/-- The header that the seed is taken from. -/
lemma Ledger.seedHeader_eq (h : Ledger P g bs c) {start : UInt64} (hstart : 0 < start) :
    ∃ b, HighestBelow c start.toNat b ∧ seedHeader c start = some b.header := by
  have hstored : ∀ k ≤ c.height.toNat, (c.blockAt k).isSome := by
    intro k hk
    rw [h.height_eq] at hk
    rw [h.blockAt_eq hk]
    rfl
  obtain ⟨k, hk, hscan, hbelow, habove⟩ := scanBack_spec start hstored
  obtain ⟨b, hb⟩ := Option.isSome_iff_exists.mp (hstored k hk)
  have hgenesis : c.blockAt 0 = some (genesisBlock P g) := h.blockAt_eq (Nat.zero_le _)
  have hslot : b.header.slot < start := by
    by_cases hk0 : k = 0
    · subst hk0
      obtain rfl := Option.some.inj (hgenesis.symm.trans hb)
      exact hstart
    · exact hbelow hk0 b hb
  refine ⟨b, ⟨k, hk, hb, UInt64.lt_iff_toNat_lt.mp hslot, fun j b' hj hj' hb' => ?_⟩, ?_⟩
  · exact UInt64.le_iff_toNat_le.mp (UInt64.not_lt.mp (habove j b' hj hj' hb'))
  · rw [seedHeader, hscan]
    cases k with
    | zero =>
      have hhead : acChainGetHeaderByHeight c 0 = some b.header := by
        rw [acChainGetHeaderByHeight]
        exact congrArg (Option.map Block.header) hb
      rw [hhead]
      exact if_pos (Or.inr hslot)
    | succ k => exact congrArg (Option.map Block.header) hb

/-- The seed that is computed for an epoch after the first. -/
lemma Ledger.computeEpochSeed_eq (h : Ledger P g bs c) (hne : epoch ≠ 0)
    (hfits : epoch.toNat * 7200 < 2 ^ 64) :
    ∃ b, HighestBelow c (epoch.toNat * 7200) b ∧ computeEpochSeed P c epoch =
      acHashMulti P [ascii "AGCH:SEED", b.header.proposerVrfProof.bytes] := by
  have hmul : (epoch * acEpochSlots).toNat = epoch.toNat * 7200 := by
    rw [UInt64.toNat_mul]
    exact Nat.mod_eq_of_lt hfits
  have hpos : 0 < epoch.toNat := Nat.pos_of_ne_zero fun h0 => hne (UInt64.toNat_inj.mp h0)
  have hstart : 0 < epoch * acEpochSlots := by
    rw [UInt64.lt_iff_toNat_lt, hmul]
    exact Nat.mul_pos hpos (by decide)
  obtain ⟨b, hb, hhead⟩ := h.seedHeader_eq hstart
  rw [hmul] at hb
  refine ⟨b, hb, ?_⟩
  rw [computeEpochSeed, if_neg hne, hhead]

/-! ### Slots along a run -/

/-- What a run adds to the chain it starts from: blocks of later slots. -/
structure Extends (P : Platform) (g : Genesis) (bs : List Block) (c : Chain) (new : List Block)
    (d : Chain) : Prop where
  ledger : Ledger P g (bs ++ new) d
  slots : ∀ b ∈ new, c.lastSlot.toNat < b.header.slot.toNat ∧ b.header.slot.toNat ≤ d.lastSlot.toNat
  lastSlot_le : c.lastSlot.toNat ≤ d.lastSlot.toNat

/-- One step: an accepted block has a later slot, which becomes the last one. -/
lemma ChainStep.lastSlot (hP : P.MallocBounded) {new : List Block} (hs : ChainStep P c new d) :
    (new = [] ∧ d.lastSlot = c.lastSlot) ∨
      ∃ b, new = [b] ∧ c.lastSlot.toNat < b.header.slot.toNat ∧ d.lastSlot = b.header.slot := by
  cases hs with
  | accepted now w c b hok =>
    obtain ⟨hpass, -, -, -, buf, -, hres⟩ := acChainAcceptBlock_ok hP hok
    obtain ⟨hslot, -⟩ := checkTime_eq_none.mp hpass.time
    rw [hres]
    exact Or.inr ⟨b, rfl, UInt64.lt_iff_toNat_lt.mp (UInt64.not_le.mp hslot), rfl⟩
  | turnedAway now w c b hrc hw =>
    rw [(acChainAcceptBlock_turnedAway hP hrc hw).same.eq_withCached]
    exact Or.inl ⟨rfl, rfl⟩
  | seeded c e =>
    rw [(acChainEpochSeed_reseeded (P := P) c e).same.eq_withCached]
    exact Or.inl ⟨rfl, rfl⟩

/-- **A run** only adds blocks of later slots. -/
lemma Ledger.extends (hP : P.MallocBounded) (h : Ledger P g bs c) {new : List Block}
    (hrun : Run (ChainStep P) c new d) : Extends P g bs c new d := by
  refine hrun.invariant (I := fun new d => Extends P g bs c new d) ?_ ?_
  · exact ⟨by rwa [List.append_nil], by simp, le_rfl⟩
  · intro new d more e hd hs
    have hledger := (hs.ledger hP hd.ledger).1
    rw [List.append_assoc] at hledger
    have hlast := hd.lastSlot_le
    rcases hs.lastSlot hP with ⟨rfl, heq⟩ | ⟨b, rfl, hlt, heq⟩
    · rw [List.append_nil] at hledger ⊢
      exact ⟨hledger, fun x hx => by rw [heq]; exact hd.slots x hx, by rw [heq]; exact hlast⟩
    · refine ⟨hledger, fun x hx => ?_, by rw [heq]; omega⟩
      rw [List.mem_append, List.mem_singleton] at hx
      rw [heq]
      rcases hx with hx | rfl
      · have := hd.slots x hx
        omega
      · omega

/-- Blocks of later slots than the bound leave the highest block below it. -/
lemma HighestBelow.extends {new : List Block} {start : ℕ} {b : Block}
    (hb : HighestBelow c start b) (hc : Ledger P g bs c) (hd : Ledger P g (bs ++ new) d)
    (hnew : ∀ x ∈ new, start ≤ x.header.slot.toNat) : HighestBelow d start b := by
  obtain ⟨k, hk, hat, hslot, habove⟩ := hb
  have hlen : d.height.toNat = c.height.toNat + new.length := by
    rw [hd.height_eq, hc.height_eq, List.length_append]
  have hsame : ∀ j ≤ c.height.toNat, d.blockAt j = c.blockAt j := by
    intro j hj
    rw [hc.height_eq] at hj
    rw [hc.blockAt_eq hj, hd.blockAt_eq (by rw [List.length_append]; omega),
      List.take_append_of_le_length hj]
  refine ⟨k, by omega, (hsame k hk).trans hat, hslot, fun j b' hj hj' hb' => ?_⟩
  rcases Nat.lt_or_ge c.height.toNat j with hnewer | hold
  · -- a block that the run has added
    rw [hc.height_eq] at hnewer
    have hget := hd.stored j (by rw [← hd.height_eq]; exact hj')
    rw [← Chain.blockAt, hb'] at hget
    obtain ⟨i, rfl⟩ : ∃ i, j = bs.length + i + 1 := ⟨j - bs.length - 1, by omega⟩
    rw [List.getElem?_cons_succ, List.getElem?_append_right (by omega)] at hget
    exact hnew b' (List.mem_of_getElem? hget.symm)
  · exact habove j b' hj hold ((hsame j hold).symm.trans hb')

/-- The seed of an epoch stands when the added blocks are not before the epoch. -/
lemma computeEpochSeed_extends {new : List Block} (hc : Ledger P g bs c)
    (hd : Ledger P g (bs ++ new) d) (hfits : epoch.toNat * 7200 < 2 ^ 64)
    (hnew : ∀ x ∈ new, epoch.toNat * 7200 ≤ x.header.slot.toNat) :
    computeEpochSeed P d epoch = computeEpochSeed P c epoch := by
  by_cases hne : epoch = 0
  · rw [computeEpochSeed, computeEpochSeed, if_pos hne, if_pos hne, hd.chainId_eq,
      hd.genesisTimestampMs_eq, hc.chainId_eq, hc.genesisTimestampMs_eq]
  · obtain ⟨b, hb, hseed⟩ := hc.computeEpochSeed_eq hne hfits
    obtain ⟨b', hb', hseed'⟩ := hd.computeEpochSeed_eq hne hfits
    rw [hseed, hseed', hb'.unique (hb.extends hc hd hnew)]

/-! ### The result -/

/-- The proofs of the proposer and of the signers of a block verify for the seed. -/
structure ValidatedWith (P : Platform) (seed : Hash) (b : Block) : Prop where
  proposer : (acVrfVerify P b.header.proposerVrfProof (leaderAlpha seed b.header.slot)
    b.header.proposer).isSome
  signers : ∀ x ∈ b.signers, (acVrfVerify P x.vrfProof (committeeAlpha seed b.header.slot)
    x.signer).isSome

/-- A block is accepted with the seed of its epoch. -/
lemma validatedWith_of_accepted (hP : P.MallocBounded) (hc : c.CacheValid P) {now : UInt64}
    {w : Writes} {b : Block} (hok : (acChainAcceptBlock P now w c b).1 = .ok) :
    ValidatedWith P (acChainEpochSeed P c (acEpochOf b.header.slot)).1 b := by
  obtain ⟨hpass, hcert, -⟩ := (acChainAcceptBlock_ok_iff hP hc).mp hok
  rw [acChainEpochSeed_fst hc]
  refine ⟨((validateProposerVrf_iff hc).mp hpass.proposer).2, fun x hx => ?_⟩
  have hx := hcert.signers_ok x hx
  rw [signerOk] at hx
  split_ifs at hx
  cases hvrf : acVrfVerify P x.vrfProof (committeeAlpha (computeEpochSeed P c
      (acEpochOf b.header.slot)) b.header.slot) x.signer with
  | none =>
    rw [hvrf] at hx
    exact Bool.noConfusion hx
  | some beta => rfl

/-- The epoch of a slot starts at or before it. -/
lemma acEpochOf_mul_le (slot : UInt64) : (acEpochOf slot).toNat * 7200 ≤ slot.toNat := by
  rw [acEpochOf, UInt64.toNat_div]
  exact Nat.div_mul_le_self _ _

/-- **Epoch seeds are correct and stable.**  On every reachable chain, whatever was asked for
before: epoch zero has the genesis seed, a later epoch the hash of the proof of the highest
stored block before it.  Once a block of the epoch or behind it is accepted, the seed never
changes.  A block is accepted with the seed of its epoch, which is the one of every later block
of that epoch. -/
theorem epoch_seeds_stable (hP : P.MallocBounded) (h : Reachable P g bs c) :
    (acChainEpochSeed P c 0).1 = computeGenesisSeed P g.chainId g.timestampMs ∧
    (∀ epoch : UInt64, epoch ≠ 0 → epoch.toNat * 7200 < 2 ^ 64 →
      ∃ b, HighestBelow c (epoch.toNat * 7200) b ∧ (acChainEpochSeed P c epoch).1 =
        acHashMulti P [ascii "AGCH:SEED", b.header.proposerVrfProof.bytes]) ∧
    (∀ epoch : UInt64, epoch.toNat * 7200 < 2 ^ 64 →
      (∃ b ∈ bs, epoch.toNat * 7200 ≤ b.header.slot.toNat) →
      ∀ new d, Run (ChainStep P) c new d →
        (acChainEpochSeed P d epoch).1 = (acChainEpochSeed P c epoch).1) ∧
    ∀ now w b, (acChainAcceptBlock P now w c b).1 = .ok →
      ValidatedWith P (acChainEpochSeed P c (acEpochOf b.header.slot)).1 b ∧
      ∀ new d, Run (ChainStep P) (acChainAcceptBlock P now w c b).2 new d →
        ∀ now' w' b', (acChainAcceptBlock P now' w' d b').1 = .ok →
          acEpochOf b'.header.slot = acEpochOf b.header.slot →
          ValidatedWith P (acChainEpochSeed P c (acEpochOf b.header.slot)).1 b' ∧
          (acChainEpochSeed P d (acEpochOf b'.header.slot)).1 =
            (acChainEpochSeed P c (acEpochOf b.header.slot)).1 := by
  have hc := h.ledger hP
  refine ⟨?_, fun epoch hne hfits => ?_, fun epoch hfits hentered new d hrun => ?_,
    fun now w b hok => ⟨validatedWith_of_accepted hP hc.cacheValid hok, ?_⟩⟩
  · rw [acChainEpochSeed_fst hc.cacheValid, computeEpochSeed, if_pos rfl, hc.chainId_eq,
      hc.genesisTimestampMs_eq]
  · rw [acChainEpochSeed_fst hc.cacheValid]
    exact hc.computeEpochSeed_eq hne hfits
  · -- the blocks of the run come after the last slot, which is not before the epoch
    obtain ⟨b, hb, hslot⟩ := hentered
    have hext := hc.extends hP hrun
    have hlast : b.header.slot.toNat ≤ c.lastSlot.toNat := by
      obtain ⟨w, dir, c₀, hdir, hopen, hrun₀⟩ := h
      obtain ⟨buf, hbuf, rfl⟩ := acChainOpen_genesis hdir hopen
      exact (((ledger_genesis hbuf).extends hP hrun₀).slots b hb).2
    rw [acChainEpochSeed_fst hext.ledger.cacheValid, acChainEpochSeed_fst hc.cacheValid]
    refine computeEpochSeed_extends hc hext.ledger hfits fun x hx => ?_
    have := (hext.slots x hx).1
    omega
  · intro new d hrun now' w' b' hok' hepoch
    have hstep : Run (ChainStep P) c [b] (acChainAcceptBlock P now w c b).2 :=
      .single (.accepted now w c b hok)
    have hext := hc.extends hP (hstep.trans hrun)
    have hfirst := (hc.extends hP hstep).ledger
    have hlater := hfirst.extends hP hrun
    -- the first block of the epoch and all blocks behind it lie in the epoch or after it
    have hstart := acEpochOf_mul_le b.header.slot
    have hlast : (acChainAcceptBlock P now w c b).2.lastSlot = b.header.slot := by
      rcases ChainStep.lastSlot hP (.accepted now w c b hok) with ⟨hnil, -⟩ | ⟨x, hx, -, heq⟩
      · cases hnil
      · rw [heq, (List.cons.inj hx).1]
    have hseed : (acChainEpochSeed P d (acEpochOf b.header.slot)).1 =
        (acChainEpochSeed P c (acEpochOf b.header.slot)).1 := by
      rw [acChainEpochSeed_fst hext.ledger.cacheValid, acChainEpochSeed_fst hc.cacheValid]
      refine computeEpochSeed_extends hc hext.ledger
        (hstart.trans_lt (UInt64.toNat_lt _)) fun x hx => ?_
      rw [List.singleton_append, List.mem_cons] at hx
      rcases hx with rfl | hx
      · exact hstart
      · have := (hlater.slots x hx).1
        rw [hlast] at this
        omega
    have hvalid := validatedWith_of_accepted hP hext.ledger.cacheValid hok'
    rw [hepoch, hseed] at hvalid ⊢
    exact ⟨hvalid, rfl⟩

/-- The chain behind the first block. -/
def firstEpochChain : Chain :=
  (acChainAcceptBlock reference 100000 .all (openedChain referenceGenesis) referenceBlock).2

/-- The first block of the second epoch. -/
def enteringBlock : Block :=
  nextBlock firstEpochChain 7201 (referenceKey 1) ⟨[], nil_candidates_le⟩
    [referenceKey 1, referenceKey 2]

/-- The chain in the second epoch. -/
def secondEpochChain : Chain :=
  (acChainAcceptBlock reference 20000000 .all firstEpochChain enteringBlock).2

/-- Another block of the second epoch. -/
def followingBlock : Block :=
  nextBlock secondEpochChain 7202 (referenceKey 1) ⟨[], nil_candidates_le⟩
    [referenceKey 1, referenceKey 2]

/-- The seed of the second epoch is made from the block of the first one.  It stays the same when
blocks of the second epoch are accepted, and these are accepted with it. -/
theorem epoch_seeds_stable_first :
    let d := (acChainAcceptBlock reference 20000000 .all secondEpochChain followingBlock).2
    (acChainEpochSeed reference firstEpochChain 0).1 = computeGenesisSeed reference 1 0 ∧
    (∃ b, HighestBelow firstEpochChain 7200 b ∧ (acChainEpochSeed reference firstEpochChain 1).1 =
      acHashMulti reference [ascii "AGCH:SEED", b.header.proposerVrfProof.bytes]) ∧
    (acChainEpochSeed reference d 1).1 = (acChainEpochSeed reference secondEpochChain 1).1 ∧
    ValidatedWith reference (acChainEpochSeed reference firstEpochChain 1).1 enteringBlock ∧
    ValidatedWith reference (acChainEpochSeed reference firstEpochChain 1).1 followingBlock := by
  have hrun : (acChainOpen reference .all .empty (some referenceGenesis)).isSome ∧
      (acChainAcceptBlock reference 100000 .all (openedChain referenceGenesis)
        referenceBlock).1 = .ok ∧
      (acChainAcceptBlock reference 20000000 .all firstEpochChain enteringBlock).1 = .ok ∧
      (acChainAcceptBlock reference 20000000 .all secondEpochChain followingBlock).1 = .ok ∧
      enteringBlock.header.slot = 7201 ∧ followingBlock.header.slot = 7202 := by
    decide +kernel
  obtain ⟨hopen, hfirst, henter, hfollow, hslot, hslot'⟩ := hrun
  have hreach : Reachable reference referenceGenesis [referenceBlock] firstEpochChain :=
    (reachable_openedChain hopen).step (.accepted _ _ _ _ hfirst)
  obtain ⟨hzero, hlater, -, haccepted⟩ := epoch_seeds_stable reference_mallocBounded hreach
  obtain ⟨-, -, hstable, -⟩ := epoch_seeds_stable reference_mallocBounded
    (hreach.step (.accepted _ _ _ _ henter))
  obtain ⟨hvalid, hothers⟩ := haccepted 20000000 .all enteringBlock henter
  have hepoch : acEpochOf enteringBlock.header.slot = 1 := by rw [hslot]; rfl
  have hepoch' : acEpochOf followingBlock.header.slot = 1 := by rw [hslot']; rfl
  have hvalid' := (hothers [] _ (.refl _) 20000000 .all followingBlock hfollow
    (hepoch'.trans hepoch.symm)).1
  rw [hepoch] at hvalid hvalid'
  refine ⟨hzero, hlater 1 (by decide) (by decide), ?_, hvalid, hvalid'⟩
  exact hstable 1 (by decide) ⟨enteringBlock, by simp, by rw [hslot]; decide⟩ _ _
    (.single (.accepted _ _ _ _ hfollow))

end EpochSeeds

end AgentChain
