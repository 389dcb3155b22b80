import AgentChain.Restart

/-!
# The live weight

`ac_chain_live_sqrt_stake` is meant to be the weight of the bonded validators that signed one of
the last sixteen blocks or, on a young chain, were bonded at genesis.  What it adds up are the
entries of the liveness map.  The two agree as long as the map has one entry for every address
that should have one: the genesis must not list a bonded address twice, and the map, which
never forgets an address, must have room for all that ever signed.
-/

namespace AgentChain

open Quorum

instance (bs : List Block) (a : Addr) : Decidable (SignedRecently bs a) :=
  inferInstanceAs (Decidable (∃ b ∈ bs.drop (bs.length - 16), a ∈ b.signerAddrs))

/-- The validators that count as live: those with the minimum stake that signed one of the last
sixteen blocks or, below height sixteen, had the minimum stake at genesis. -/
def liveSet (g : Genesis) (bs : List Block) (c : Chain) : Finset Addr :=
  (validators c.state).toFinset.filter fun a =>
    SignedRecently bs a ∨ c.height < 16 ∧ a ∈ validators (genesisState g)

/-- The live weight is the weight of the live validators, or the total without any. -/
def LiveWeightOk (g : Genesis) (bs : List Block) (c : Chain) : Prop :=
  if liveSet g bs c = ∅ then acChainLiveSqrtStake c = acChainTotalSqrtStake c
  else (acChainLiveSqrtStake c).toNat = ∑ a ∈ liveSet g bs c, weight c.state a

/-- The addresses that a bonded line of the genesis or a certificate names. -/
def namedAddrs (g : Genesis) (bs : List Block) : List Addr :=
  (bondedLines g).map GenesisAccount.addr ++ bs.flatMap Block.signerAddrs

/-- The liveness map has one entry for everybody: no address has two bonded lines in the genesis,
none that has one is overwritten by a line without enough stake, and at most 256 different
addresses are bonded there or have signed. -/
structure LiveMapFits (g : Genesis) (bs : List Block) : Prop where
  once : ((bondedLines g).map GenesisAccount.addr).Nodup
  kept : ∀ ga ∈ bondedLines g, ga.addr ∈ validators (genesisState g)
  room : (namedAddrs g bs).toFinset.card ≤ acMaxLive

section LiveWeight

variable {P : Platform} {g : Genesis} {bs : List Block} {c : Chain}

/-! ### The genesis -/

/-- Who has the minimum stake at genesis has a bonded line. -/
lemma exists_bondedLine {a : Addr} (h : a ∈ validators (genesisState g)) :
    ∃ ga ∈ bondedLines g, ga.addr = a := by
  have hfold : ∀ (l : List GenesisAccount) (s : AcState),
      ¬ (acStateGet (l.foldl (fun s ga => acStateSet s ga.toAccount) s) a).2.stake <
        acMinStakeUcrd →
      (∃ ga ∈ l, ga.addr = a ∧ ¬ ga.stake < acMinStakeUcrd) ∨
        ¬ (acStateGet s a).2.stake < acMinStakeUcrd := by
    intro l
    induction l with
    | nil => exact fun s hs => Or.inr hs
    | cons ga l ih =>
      intro s hs
      rcases ih _ hs with ⟨ga', hga', hbond⟩ | hset
      · exact Or.inl ⟨ga', List.mem_cons_of_mem _ hga', hbond⟩
      · rw [acStateGet_set_snd] at hset
        split_ifs at hset with ha
        · exact Or.inl ⟨ga, List.mem_cons_self .., ha.symm, hset⟩
        · exact Or.inr hset
  have hpool : ¬ ¬ (acStateGet (acStateSet (acStateNew g.chainId) genesisPool) a).2.stake <
      acMinStakeUcrd := by
    rw [not_not, acStateGet_set_snd]
    split_ifs
    · decide
    · exact (by decide : (0 : UInt64) < acMinStakeUcrd)
  obtain ⟨ga, hga, rfl, hst⟩ := (hfold g.accounts _ (mem_validators.mp h)).resolve_right hpool
  exact ⟨ga, List.mem_filter.mpr ⟨hga, by simpa using hst⟩, rfl⟩

/-- The genesis entries, when they fit. -/
lemma LiveMapFits.genesisLive_addrs (h : LiveMapFits g bs) :
    (genesisLive g).map LiveEntry.addr = (bondedLines g).map GenesisAccount.addr := by
  have hle : (bondedLines g).length ≤ acMaxLive := by
    have hcard := List.toFinset_card_of_nodup h.once
    rw [List.length_map] at hcard
    rw [← hcard]
    refine (Finset.card_le_card fun a ha => ?_).trans h.room
    rw [namedAddrs, List.toFinset_append]
    exact Finset.mem_union_left _ ha
  rw [genesisLive_eq, List.take_of_length_le hle, List.map_map]
  rfl

/-- An address has one genesis entry if it is bonded at genesis and none otherwise. -/
lemma LiveMapFits.length_heightsOf (h : LiveMapFits g bs) (a : Addr) :
    (heightsOf (genesisLive g) a).length = if a ∈ validators (genesisState g) then 1 else 0 := by
  have haddrs := h.genesisLive_addrs
  split_ifs with ha
  · refine length_heightsOf_of_nodup (haddrs ▸ h.once) (mem_heightsOf_ne_nil.mpr ?_)
    obtain ⟨ga, hga, rfl⟩ := exists_bondedLine ha
    rw [haddrs]
    exact List.mem_map_of_mem hga
  · rw [List.length_eq_zero_iff]
    by_contra hne
    rw [← Ne, mem_heightsOf_ne_nil, haddrs] at hne
    obtain ⟨ga, hga, rfl⟩ := List.mem_map.mp hne
    exact ha (h.kept ga hga)

/-! ### The room -/

/-- The map has the named addresses and no others, each once, and all signers are among them. -/
lemma LiveMapFits.recorded (h : LiveMapFits g bs) : AllRecorded (genesisLive g) bs := by
  obtain ⟨S, hS, hmem⟩ : ∃ S : List Addr, S.length ≤ acMaxLive ∧ ∀ a, a ∈ S ↔ a ∈ namedAddrs g bs :=
    ⟨(namedAddrs g bs).toFinset.toList, by rw [Finset.length_toList]; exact h.room, by simp⟩
  have hsigners : ∀ b ∈ bs, b.signerAddrs ⊆ S := by
    intro b hb a ha
    exact (hmem a).mpr (List.mem_append_right _ (List.mem_flatMap.mpr ⟨b, hb, ha⟩))
  have hstart : ((genesisLive g).map LiveEntry.addr).Nodup ∧
      (genesisLive g).map LiveEntry.addr ⊆ S := by
    rw [h.genesisLive_addrs]
    exact ⟨h.once, fun a ha => (hmem a).mpr (List.mem_append_left _ ha)⟩
  -- block by block, from the genesis on
  have hall : ∀ bs', (∀ b ∈ bs', b.signerAddrs ⊆ S) → AllRecorded (genesisLive g) bs' ∧
      ((liveAfter (genesisLive g) bs').map LiveEntry.addr).Nodup ∧
      (liveAfter (genesisLive g) bs').map LiveEntry.addr ⊆ S := by
    intro bs'
    induction bs' using List.reverseRecOn with
    | nil => exact fun _ => ⟨allRecorded_nil _, hstart⟩
    | append_singleton bs' b ih =>
      intro hsub
      obtain ⟨hrec, hnd, hin⟩ := ih fun x hx => hsub x (List.mem_append_left _ hx)
      have hb := liveRecordSigners_within hS hnd hin (hsub b (by simp)) b.header.height
      rw [allRecorded_snoc, liveAfter_snoc]
      refine ⟨⟨hrec, fun a ha => mem_heightsOf_ne_nil.mpr (hb.2.2 ha)⟩, hb.1, hb.2.1⟩
  exact (hall bs hsigners).1

/-! ### The weight -/

/-- The entries of a validator with the minimum stake are those that count. -/
lemma countsInState_iff {s : AcState} {a : Addr} : countsInState s a = true ↔ a ∈ validators s := by
  rw [mem_validators, countsInState]
  rcases acStateGet_cases s a with ⟨x, -, -, hget⟩ | ⟨-, hget⟩
  · simp [hget]
  · have hzero : (zeroAccount a).stake < acMinStakeUcrd :=
      (by decide : (0 : UInt64) < acMinStakeUcrd)
    simp [hget, hzero]

/-- The addresses that are counted, with repetition. -/
def countedAddrs (c : Chain) : List Addr :=
  (c.liveMap.filter (liveCounts c.state c.height)).map LiveEntry.addr

/-- Every live validator is counted once, and nobody else. -/
lemma count_countedAddrs (hP : P.MallocBounded) (h : Reachable P g bs c) (hfits : LiveMapFits g bs)
    (a : Addr) : (countedAddrs c).count a = if a ∈ liveSet g bs c then 1 else 0 := by
  have hlen := (h.ledger hP).height_eq
  have hsigned : SignedRecently bs a ↔ bs.length - 16 < (lastSigned bs a).toNat :=
    exists_signed_drop_iff (h.ledger hP).consecutive a _
  have hyoung : c.height < 16 ↔ bs.length < 16 := by
    rw [UInt64.lt_iff_toNat_lt, hlen]
    rfl
  have hset : a ∈ liveSet g bs c ↔ a ∈ validators c.state ∧
      (SignedRecently bs a ∨ bs.length < 16 ∧ a ∈ validators (genesisState g)) := by
    rw [liveSet, Finset.mem_filter, List.mem_toFinset, hyoung]
  rw [countedAddrs, count_liveCounts, h.heightsOf_liveMap hP hfits.recorded, countP_entryHeights,
    hfits.length_heightsOf, hlen]
  simp only [countsInState_iff, hset, ← hsigned]
  by_cases hst : a ∈ validators c.state
  · by_cases hgen : a ∈ validators (genesisState g)
    · by_cases hlt : bs.length < 16 <;> simp [hst, hgen, hlt]
    · simp [hst, hgen]
  · simp [hst]

/-- **The live weight matches its definition** on every chain that is reached without a restart
from a genesis and by blocks whose signers fit into the liveness map. -/
theorem live_weight_matches (hP : P.MallocBounded) (h : Reachable P g bs c)
    (hfits : LiveMapFits g bs) : LiveWeightOk g bs c := by
  have hcount := count_countedAddrs hP h hfits
  have hnodup : (countedAddrs c).Nodup := by
    rw [List.nodup_iff_count_le_one]
    intro a
    rw [hcount]
    split_ifs <;> omega
  have hset : (countedAddrs c).toFinset = liveSet g bs c := by
    ext a
    rw [List.mem_toFinset, ← List.count_pos_iff, hcount]
    split_ifs with ha <;> simp [ha]
  have hempty : (c.liveMap.filter (liveCounts c.state c.height)).isEmpty = true ↔
      liveSet g bs c = ∅ := by
    rw [← hset, List.toFinset_eq_empty_iff, countedAddrs, List.map_eq_nil_iff, List.isEmpty_iff]
  rw [LiveWeightOk, acChainLiveSqrtStake]
  split_ifs with hnone hnone' hnone'
  · rfl
  · exact absurd (hempty.mpr hnone) hnone'
  · exact absurd (hempty.mp hnone') hnone
  · have hlive : c.liveMap.length ≤ 256 := by
      rw [h.live_eq hP]
      exact length_liveAfter_le (length_genesisLive_le g)
    have hle := List.length_filter_le (liveCounts c.state c.height) c.liveMap
    have h0 : (0 : UInt64).toNat = 0 := rfl
    rw [toNat_foldl_add (fun e : LiveEntry => acIsqrtU64 (acStateGet c.state e.addr).2.stake)
      (fun e => acIsqrtU64_lt _) _ 0 (by omega), h0, Nat.zero_add, ← hset,
      ← sum_map_of_nodup _ hnodup, countedAddrs, List.map_map]
    rfl

/-- Three validators that are listed once and have all signed the first block. -/
theorem live_weight_matches_trio :
    LiveWeightOk trioGenesis [trioBlock [referenceKey 1, referenceKey 2, referenceKey 3]]
      (trioChain [referenceKey 1, referenceKey 2, referenceKey 3]) := by
  have hrun : (acChainAcceptBlock reference 100000 .all (openedChain trioGenesis)
        (trioBlock [referenceKey 1, referenceKey 2, referenceKey 3])).1 = .ok ∧
      ((bondedLines trioGenesis).map GenesisAccount.addr).Nodup ∧
      (∀ ga ∈ bondedLines trioGenesis, ga.addr ∈ validators (genesisState trioGenesis)) ∧
      (namedAddrs trioGenesis
        [trioBlock [referenceKey 1, referenceKey 2, referenceKey 3]]).toFinset.card ≤
        acMaxLive := by
    decide +kernel
  obtain ⟨hok, honce, hkept, hroom⟩ := hrun
  exact live_weight_matches reference_mallocBounded (reachable_trioChain hok) ⟨honce, hkept, hroom⟩

/-- A genesis file that lists its validator twice. -/
def doubledGenesis : Genesis :=
  ⟨1, 1, [⟨(referenceKey 1).pk, 0, 900000000⟩, ⟨(referenceKey 1).pk, 0, 900000000⟩,
    ⟨(referenceKey 2).pk, 0, 900000000⟩]⟩

/-- **A validator that counts twice.**  Two validators of weight 30000 are live, and the live
weight is 90000. -/
theorem doubled_validator_counts_twice :
    doubledGenesis.Loadable ∧
    (acChainOpen reference .all .empty (some doubledGenesis)).isSome ∧
    liveSet doubledGenesis [] (openedChain doubledGenesis) =
      {(referenceKey 1).pk, (referenceKey 2).pk} ∧
    weight (openedChain doubledGenesis).state (referenceKey 1).pk = 30000 ∧
    weight (openedChain doubledGenesis).state (referenceKey 2).pk = 30000 ∧
    acChainLiveSqrtStake (openedChain doubledGenesis) = 90000 := by
  decide +kernel

end LiveWeight

end AgentChain
