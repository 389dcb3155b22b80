import AgentChain.Liveness
import AgentChain.Reference

/-!
# Restarts

A node that is closed and opened again has the record and the files it had before, but its
liveness map is collected anew from the signers of the last sixteen block files.  The map of
the node that never restarted also has an entry for every bonded genesis account, and it
counts all of those during the first sixteen blocks.  The two maps count the same addresses
once every one of these accounts has signed.
-/

namespace AgentChain

open Trace

/-! ### A map that starts empty -/

section Replayed

variable {m : List LiveEntry} {bs : List Block} {S : List Addr}

lemma mem_heightsOf_ne_nil {a : Addr} :
    heightsOf m a ≠ [] ↔ a ∈ m.map LiveEntry.addr := by
  rw [heightsOf, Ne, List.map_eq_nil_iff, List.filter_eq_nil_iff]
  simp [eq_comm]

lemma length_liveRecord_le (m : List LiveEntry) (room : ℕ) (a : Addr) (h : UInt64) :
    (liveRecord m room a h).length ≤ max m.length room := by
  induction m generalizing room with
  | nil =>
    rw [liveRecord]
    split_ifs with hroom
    · rw [List.length_singleton]
      omega
    · exact Nat.zero_le _
  | cons e m ih =>
    rw [liveRecord]
    split_ifs
    · exact le_max_left _ _
    · exact le_max_left _ _
    · have := ih (room - 1)
      rw [List.length_cons, List.length_cons]
      omega

/-- The liveness map never outgrows its array. -/
lemma length_liveRecordSigners_le (hm : m.length ≤ acMaxLive) (signers : List CommitSigner)
    (h : UInt64) : (liveRecordSigners m signers h).length ≤ acMaxLive := by
  induction signers generalizing m with
  | nil => exact hm
  | cons g gs ih =>
    exact ih ((length_liveRecord_le m acMaxLive g.signer h).trans (max_le hm le_rfl))

lemma length_liveAfter_le (hm : m.length ≤ acMaxLive) :
    (liveAfter m bs).length ≤ acMaxLive := by
  induction bs using List.reverseRecOn with
  | nil => exact hm
  | append_singleton bs b ih =>
    rw [liveAfter_snoc]
    exact length_liveRecordSigners_le ih _ _

/-- Recording changes the addresses of the map by at most the new one. -/
lemma map_addr_liveRecord (m : List LiveEntry) (room : ℕ) (a : Addr) (h : UInt64) :
    (liveRecord m room a h).map LiveEntry.addr = m.map LiveEntry.addr ∧
        (a ∈ m.map LiveEntry.addr ∨ room ≤ m.length) ∨
      (liveRecord m room a h).map LiveEntry.addr = m.map LiveEntry.addr ++ [a] ∧
        a ∉ m.map LiveEntry.addr := by
  induction m generalizing room with
  | nil =>
    rw [liveRecord]
    split_ifs with hroom
    · exact Or.inr ⟨rfl, by simp⟩
    · exact Or.inl ⟨rfl, Or.inr (by simpa using hroom)⟩
  | cons e m ih =>
    rw [liveRecord]
    split_ifs with ha hlt
    · exact Or.inl ⟨rfl, Or.inl (by simp [ha])⟩
    · exact Or.inl ⟨rfl, Or.inl (by simp [ha])⟩
    · rcases ih (room - 1) with ⟨heq, hor⟩ | ⟨heq, hnot⟩
      · refine Or.inl ⟨by rw [List.map_cons, heq, List.map_cons], ?_⟩
        rcases hor with hmem | hroom
        · exact Or.inl (List.mem_cons_of_mem _ hmem)
        · refine Or.inr ?_
          rw [List.length_cons]
          omega
      · refine Or.inr ⟨by rw [List.map_cons, heq, List.map_cons, List.cons_append], ?_⟩
        rw [List.map_cons, List.mem_cons, not_or]
        exact ⟨fun h => ha h.symm, hnot⟩

/-- A map without repetitions whose addresses all fit into the array has room for each of
them. -/
lemma liveRecord_within (hS : S.length ≤ acMaxLive) (hnd : (m.map LiveEntry.addr).Nodup)
    (hsub : m.map LiveEntry.addr ⊆ S) {a : Addr} (ha : a ∈ S) (h : UInt64) :
    ((liveRecord m acMaxLive a h).map LiveEntry.addr).Nodup ∧
      (liveRecord m acMaxLive a h).map LiveEntry.addr ⊆ S ∧
      a ∈ (liveRecord m acMaxLive a h).map LiveEntry.addr := by
  rcases map_addr_liveRecord m acMaxLive a h with ⟨heq, hor⟩ | ⟨heq, hnot⟩
  · rw [heq]
    refine ⟨hnd, hsub, ?_⟩
    by_contra hnot
    -- the new address would be one more of the at most 256 that occur
    have hle : (a :: m.map LiveEntry.addr).length ≤ S.length :=
      ((List.nodup_cons.mpr ⟨hnot, hnd⟩).subperm (List.cons_subset.mpr ⟨ha, hsub⟩)).length_le
    rw [List.length_cons, List.length_map] at hle
    have := hor.resolve_left hnot
    omega
  · rw [heq]
    refine ⟨List.nodup_append.mpr ⟨hnd, List.nodup_singleton a, ?_⟩,
      List.append_subset.mpr ⟨hsub, by simpa using ha⟩, by simp⟩
    rintro x hx y hy rfl
    exact hnot (List.mem_singleton.mp hy ▸ hx)

/-- The same for a certificate: all its signers have an entry afterwards. -/
lemma liveRecordSigners_within (hS : S.length ≤ acMaxLive) (hnd : (m.map LiveEntry.addr).Nodup)
    (hsub : m.map LiveEntry.addr ⊆ S) {signers : List CommitSigner}
    (hsigners : signers.map CommitSigner.signer ⊆ S) (h : UInt64) :
    ((liveRecordSigners m signers h).map LiveEntry.addr).Nodup ∧
      (liveRecordSigners m signers h).map LiveEntry.addr ⊆ S ∧
      signers.map CommitSigner.signer ⊆ (liveRecordSigners m signers h).map LiveEntry.addr := by
  induction signers generalizing m with
  | nil => exact ⟨hnd, hsub, List.nil_subset _⟩
  | cons g gs ih =>
    rw [List.map_cons, List.cons_subset] at hsigners
    obtain ⟨hnd', hsub', hmem⟩ := liveRecord_within hS hnd hsub hsigners.1 h
    obtain ⟨hnd'', hsub'', hmem'⟩ := ih hnd' hsub' hsigners.2
    refine ⟨hnd'', hsub'', ?_⟩
    rw [List.map_cons, List.cons_subset]
    refine ⟨?_, hmem'⟩
    rw [← mem_heightsOf_ne_nil] at hmem ⊢
    exact heightsOf_liveRecordSigners_ne_nil hmem gs h

/-- A map that starts empty has no repetitions, and it has an entry for every signer when
there are at most as many addresses as the array has room for. -/
lemma liveAfter_nil_within (hS : S.length ≤ acMaxLive) (hbs : ∀ b ∈ bs, b.signerAddrs ⊆ S) :
    ((liveAfter [] bs).map LiveEntry.addr).Nodup ∧ (liveAfter [] bs).map LiveEntry.addr ⊆ S := by
  induction bs using List.reverseRecOn with
  | nil => exact ⟨List.nodup_nil, List.nil_subset _⟩
  | append_singleton bs b ih =>
    obtain ⟨hnd, hsub⟩ := ih fun x hx => hbs x (List.mem_append_left _ hx)
    rw [liveAfter_snoc]
    have hb := liveRecordSigners_within hS hnd hsub (hbs b (by simp)) b.header.height
    exact ⟨hb.1, hb.2.1⟩

/-- An address with an entry keeps one through a history. -/
lemma heightsOf_liveAfter_ne_nil {a : Addr} (hm : heightsOf m a ≠ []) (bs : List Block) :
    heightsOf (liveAfter m bs) a ≠ [] := by
  induction bs generalizing m with
  | nil => exact hm
  | cons b bs ih => exact ih (heightsOf_liveRecordSigners_ne_nil hm b.signers b.header.height)

/-- Every signer of a history that the map has recorded has an entry at its end. -/
lemma AllRecorded.signerAddrs_subset (h : AllRecorded m bs) {b : Block} (hb : b ∈ bs) :
    b.signerAddrs ⊆ (liveAfter m bs).map LiveEntry.addr := by
  intro a ha
  obtain ⟨i, hi⟩ := List.getElem?_of_mem hb
  have hsplit : liveAfter m bs = liveAfter (liveAfter m (bs.take (i + 1))) (bs.drop (i + 1)) := by
    rw [liveAfter, liveAfter, liveAfter, ← List.foldl_append, List.take_append_drop]
  rw [← mem_heightsOf_ne_nil, hsplit]
  exact heightsOf_liveAfter_ne_nil (h i b hi a ha) _

/-- The entry of an address that last signed at `l`, in a map that started empty at height
`k`. -/
def entrySince (k : ℕ) (l : UInt64) : List UInt64 := if k < l.toNat then [l] else []

lemma raise_entrySince {k : ℕ} {l h : UInt64} (hlt : l < h) (hk : k < h.toNat) :
    raise h (entrySince k l) = entrySince k h := by
  by_cases hl : k < l.toNat
  · simp [entrySince, hl, hk, raise, hlt]
  · simp [entrySince, hl, hk, raise]

/-- **The entries of an address in a map that started empty** at height `k`. -/
theorem heightsOf_liveAfter_drop (hbs : Consecutive bs) (hS : S.length ≤ acMaxLive)
    (hsub : ∀ b ∈ bs, b.signerAddrs ⊆ S) {k : ℕ} (hk : k ≤ bs.length) (a : Addr) :
    heightsOf (liveAfter [] (bs.drop k)) a = entrySince k (lastSigned bs a) := by
  induction bs using List.reverseRecOn with
  | nil =>
    rw [List.drop_nil]
    simp [entrySince, lastSigned, liveAfter, heightsOf]
  | append_singleton bs b ih =>
    obtain ⟨hcons, hb⟩ := hbs.of_snoc
    have hold := fun x hx => hsub x (List.mem_append_left [b] hx)
    rcases Nat.lt_or_ge bs.length k with hlt | hle
    · -- nothing has been recorded yet
      have hlast := lastSigned_le hbs a
      rw [List.length_append, List.length_singleton] at hk hlast
      rw [List.drop_eq_nil_of_le (by simp; omega), entrySince, if_neg (by omega)]
      rfl
    · have hprev := ih hcons hold hle
      have hdrop := fun x (hx : x ∈ bs.drop k) => hold x (List.mem_of_mem_drop hx)
      obtain ⟨hnd, hin⟩ := liveAfter_nil_within hS hdrop
      have hrec := (liveRecordSigners_within hS hnd hin (hsub b (by simp)) b.header.height).2.2
      rw [List.drop_append_of_le_length hle, liveAfter_snoc, lastSigned_snoc]
      split_ifs with ha
      · have hl := lastSigned_le hcons a
        rw [heightsOf_liveRecordSigners_of_mem ha (mem_heightsOf_ne_nil.mpr (hrec ha)), hprev,
          raise_entrySince (by rw [UInt64.lt_iff_toNat_lt]; omega) (by omega)]
      · rw [heightsOf_liveRecordSigners_of_notMem ha, hprev]

/-- How many entries of such a map are within the window. -/
lemma countP_entrySince {height l : UInt64} {k : ℕ} (hk : k ≤ height.toNat - 16) :
    (entrySince k l).countP (liveIsWithinWindow height) =
      if height.toNat - 16 < l.toNat then 1 else 0 := by
  rw [entrySince]
  by_cases hl : k < l.toNat
  · have hne : l ≠ 0 := by
      rintro rfl
      exact absurd hl (Nat.not_lt_zero k)
    have hw : liveIsWithinWindow height l = decide (height.toNat - 16 < l.toNat) := by
      rw [Bool.eq_iff_iff, liveIsWithinWindow_iff, if_neg hne, decide_eq_true_eq]
    simp [hl, hw, List.countP_cons]
  · rw [if_neg hl, if_neg (by omega)]
    rfl

end Replayed

/-! ### Opening the directory of a chain -/

section Reopen

variable {P : Platform} {g : Genesis} {bs : List Block} {c d : Chain}

lemma rebuildBlock_liveMap (c : Chain) (h : UInt64) {b : Block} (hb : blockRead c.dir h = some b) :
    (rebuildBlock P c h).liveMap =
      if c.height < b.header.height + acLivenessWindow then
        liveRecordSigners c.liveMap b.signers b.header.height
      else c.liveMap := by
  have hheight : (addrIndexRecordAll (txIndexAddAll P c h b.txs) h b.txs).height = c.height := rfl
  rw [rebuildBlock, hb]
  dsimp only
  rw [hheight]
  split_ifs
  · rfl
  · rfl

lemma rebuildBlock_cached (c : Chain) (h : UInt64) : (rebuildBlock P c h).cached = c.cached := by
  rw [rebuildBlock]
  cases blockRead c.dir h with
  | none => rfl
  | some b =>
    dsimp only
    split_ifs
    · rfl
    · rfl

lemma rebuildTo_cached (c : Chain) (n : ℕ) : (rebuildTo P c n).cached = c.cached := by
  induction n with
  | zero => rfl
  | succ n ih => rw [rebuildTo, rebuildBlock_cached, ih]

/-- Sorting an index changes neither cache nor liveness map. -/
lemma txIndexSort_frame (c : Chain) :
    (txIndexSort c).cached = c.cached ∧ (txIndexSort c).liveMap = c.liveMap := by
  rw [txIndexSort]
  split_ifs
  · exact ⟨rfl, rfl⟩
  · exact ⟨rfl, rfl⟩

lemma addrIndexSort_frame (c : Chain) :
    (addrIndexSort c).cached = c.cached ∧ (addrIndexSort c).liveMap = c.liveMap := by
  rw [addrIndexSort]
  split_ifs
  · exact ⟨rfl, rfl⟩
  · exact ⟨rfl, rfl⟩

lemma txIndexRebuild_eq (c : Chain) :
    (txIndexRebuild P c).cached = c.cached ∧
      (txIndexRebuild P c).liveMap = (rebuildTo P c c.height.toNat).liveMap := by
  rw [txIndexRebuild]
  split_ifs with h0
  · rw [h0]
    exact ⟨rfl, rfl⟩
  · obtain ⟨hcached, hlive⟩ := addrIndexSort_frame (txIndexSort (rebuildTo P c c.height.toNat))
    obtain ⟨hcached', hlive'⟩ := txIndexSort_frame (rebuildTo P c c.height.toNat)
    exact ⟨(hcached.trans hcached').trans (rebuildTo_cached c _), hlive.trans hlive'⟩

/-- The rounds of `tx_index_rebuild` collect the signers of the last sixteen blocks. -/
lemma Ledger.rebuildTo_liveMap (h : Ledger P g bs c) (hlen : bs.length + 16 < 2 ^ 64) {n : ℕ}
    (hn : n ≤ bs.length) :
    (rebuildTo P c.core n).liveMap = liveAfter [] ((bs.take n).drop (bs.length - 16)) := by
  induction n with
  | zero =>
    rw [List.take_zero, List.drop_nil]
    rfl
  | succ n ih =>
    have hcore := rebuildTo_core (P := P) c.core n
    have hdir : (rebuildTo P c.core n).core.dir = c.dir := by rw [hcore]; rfl
    have hheight : (rebuildTo P c.core n).core.height = c.height := by rw [hcore]; rfl
    have hget : bs[n]? = some bs[n] := List.getElem?_eq_getElem hn
    have hb : blockRead (rebuildTo P c.core n).dir (UInt64.ofNat (n + 1)) = some bs[n] := by
      rw [← hget, ← List.getElem?_cons_succ, ← h.stored (n + 1) hn, ← hdir]
      rfl
    have hbh : (bs[n].header.height + acLivenessWindow).toNat = n + 1 + 16 := by
      have hw : acLivenessWindow.toNat = 16 := rfl
      rw [UInt64.toNat_add, h.consecutive n _ hget, hw, Nat.mod_eq_of_lt (by omega)]
    have hin : c.height < bs[n].header.height + acLivenessWindow ↔ bs.length - 16 ≤ n := by
      rw [UInt64.lt_iff_toNat_lt, hbh, h.height_eq]
      omega
    replace hheight : (rebuildTo P c.core n).height = c.height := hheight
    rw [rebuildTo, rebuildBlock_liveMap _ _ hb, hheight, ih (Nat.le_of_succ_le hn),
      List.take_succ_eq_append_getElem hn]
    split_ifs with hlt
    · rw [List.drop_append_of_le_length, liveAfter_snoc]
      rw [List.length_take]
      have := hin.mp hlt
      omega
    · have hge : ¬ bs.length - 16 ≤ n := fun hle => hlt (hin.mpr hle)
      rw [List.drop_eq_nil_of_le, List.drop_eq_nil_of_le]
      · rw [List.length_append, List.length_take, List.length_singleton]
        omega
      · rw [List.length_take]
        omega

/-- The ledger is about the stored part and the seed cache. -/
lemma Ledger.of_core (h : Ledger P g bs c) (hcore : d.core = c.core) (hcache : d.CacheValid P) :
    Ledger P g bs d := by
  have hd : ∀ {α : Type} (f : Chain → α), f d.core = f c.core := fun f => congrArg f hcore
  have hdir : d.dir = c.dir := hd Chain.dir
  have hstate : d.state = c.state := hd Chain.state
  have hmeta : d.toMeta = c.toMeta := hd Chain.toMeta
  exact
    { height_eq := (congrArg UInt64.toNat (hd Chain.height)).trans h.height_eq
      stored := by
        rw [hdir]
        exact h.stored
      state_eq := hstate.trans h.state_eq
      tipHash_eq := (hd Chain.tipHash).trans h.tipHash_eq
      lastSlot_eq := (hd Chain.lastSlot).trans h.lastSlot_eq
      lastTimestampMs_eq := (hd Chain.lastTimestampMs).trans h.lastTimestampMs_eq
      baseFee_eq := (hd Chain.baseFee).trans h.baseFee_eq
      chainId_eq := (hd Chain.chainId).trans h.chainId_eq
      genesisTimestampMs_eq := (hd Chain.genesisTimestampMs).trans h.genesisTimestampMs_eq
      metaBin_eq := by
        rw [hdir, hmeta]
        exact h.metaBin_eq
      stateBin_eq := by
        rw [hdir, hstate]
        exact h.stateBin_eq
      cacheValid := hcache
      consecutive := h.consecutive
      root_eq := by
        rw [hstate]
        exact h.root_eq }

/-- The directory of a chain opens to what the rebuild makes of its stored part. -/
lemma Ledger.acChainOpen_eq (hP : P.MallocBounded) (h : Ledger P g bs c) (w : Writes)
    (g' : Option Genesis) : acChainOpen P w c.dir g' = some (txIndexRebuild P c.core) := by
  obtain ⟨buf, hbuf, hstate⟩ := h.stateBin_eq
  have hid : c.state.chainId = c.chainId := by rw [h.state_eq, replay_chainId, h.chainId_eq]
  exact acChainOpen_existing hP h.metaBin_eq hstate hbuf hid

/-- **Reopening keeps the ledger**, and the liveness map is that of the last sixteen
blocks. -/
theorem Ledger.reopen (hP : P.MallocBounded) (h : Ledger P g bs c) (w : Writes)
    (g' : Option Genesis) :
    ∃ d, acChainOpen P w c.dir g' = some d ∧ Ledger P g bs d ∧
      (bs.length + 16 < 2 ^ 64 → d.liveMap = liveAfter [] (bs.drop (bs.length - 16))) := by
  refine ⟨_, h.acChainOpen_eq hP w g', ?_, fun hlen => ?_⟩
  · have hcached : (txIndexRebuild P c.core).cached = none := (txIndexRebuild_eq c.core).1
    refine h.of_core (txIndexRebuild_core c.core) fun e k hk => ?_
    rw [hcached] at hk
    exact nomatch hk
  · have hheight : c.core.height.toNat = bs.length := h.height_eq
    rw [(txIndexRebuild_eq c.core).2, hheight, h.rebuildTo_liveMap hlen le_rfl, List.take_length]

end Reopen

/-! ### Runs with restarts -/

/-- What a node does: it accepts a block, or it is closed and opened again. -/
inductive NodeEvent where
  | accepted (b : Block)
  | reopened

/-- The accepted blocks, oldest first. -/
def blocksOf (es : List NodeEvent) : List Block :=
  es.filterMap fun
    | .accepted b => some b
    | .reopened => none

/-- A call on the chain, or a restart on the directory as it is. -/
inductive NodeStep (P : Platform) : Chain → List NodeEvent → Chain → Prop
  | ran {c d : Chain} {new : List Block} (h : ChainStep P c new d) :
      NodeStep P c (new.map .accepted) d
  | reopened (w : Writes) (g : Option Genesis) {c d : Chain}
      (h : acChainOpen P w c.dir g = some d) :
      NodeStep P c [.reopened] d

/-- The chain is reached from the genesis by the given events, oldest first. -/
def NodeReachable (P : Platform) (g : Genesis) (es : List NodeEvent) (c : Chain) : Prop :=
  ∃ w d c₀, d.metaBin = none ∧ acChainOpen P w d (some g) = some c₀ ∧ Run (NodeStep P) c₀ es c

/-- A restart behind the given blocks that the liveness map survives: in the first sixteen
blocks, every bonded genesis account is listed once and has signed a block.  The second part
excludes heights at which the window of `tx_index_rebuild` wraps around. -/
structure RestartSafe (g : Genesis) (bs : List Block) : Prop where
  nodup : bs.length < 16 → ((genesisLive g).map LiveEntry.addr).Nodup
  signed : bs.length < 16 → ∀ e ∈ genesisLive g, ∃ b ∈ bs, e.addr ∈ b.signerAddrs
  length_lt : bs.length + 16 < 2 ^ 64

/-- All restarts of a run are safe. -/
def RestartsSafe (g : Genesis) (es : List NodeEvent) : Prop :=
  ∀ before after, es = before ++ .reopened :: after → RestartSafe g (blocksOf before)

/-- The liveness map of a node: it stems from the genesis, or from a safe restart behind the
first `r` blocks. -/
def MapOf (g : Genesis) (bs : List Block) (m : List LiveEntry) : Prop :=
  m = liveAfter (genesisLive g) bs ∨
    ∃ r ≤ bs.length, RestartSafe g (bs.take r) ∧ m = liveAfter [] (bs.drop (r - 16))

section Node

variable {P : Platform} {g : Genesis} {es : List NodeEvent} {bs : List Block} {c d : Chain}

lemma blocksOf_append (es fs : List NodeEvent) : blocksOf (es ++ fs) = blocksOf es ++ blocksOf fs :=
  List.filterMap_append

lemma blocksOf_accepted (bs : List Block) : blocksOf (bs.map .accepted) = bs := by
  rw [blocksOf, List.filterMap_map]
  exact List.filterMap_some

/-- New blocks are recorded in either kind of map. -/
lemma MapOf.append {m : List LiveEntry} (h : MapOf g bs m) (new : List Block) :
    MapOf g (bs ++ new) (liveAfter m new) := by
  have happ : ∀ (m : List LiveEntry) (xs ys : List Block),
      liveAfter (liveAfter m xs) ys = liveAfter m (xs ++ ys) := by
    intro m xs ys
    rw [liveAfter, liveAfter, liveAfter, List.foldl_append]
  rcases h with rfl | ⟨r, hr, hsafe, rfl⟩
  · exact Or.inl (happ _ _ _)
  · refine Or.inr ⟨r, by simp; omega, ?_, ?_⟩
    · rwa [List.take_append_of_le_length hr]
    · rw [happ, List.drop_append_of_le_length (by omega)]

/-- **A node that restarts** has the ledger of its blocks, and a map of one of the two
kinds when its restarts are safe. -/
theorem NodeReachable.ledger (hP : P.MallocBounded) (h : NodeReachable P g es c) :
    Ledger P g (blocksOf es) c ∧ (RestartsSafe g es → MapOf g (blocksOf es) c.liveMap) := by
  obtain ⟨w, dir, c₀, hdir, hopen, hrun⟩ := h
  refine hrun.invariant (I := fun es c => Ledger P g (blocksOf es) c ∧
    (RestartsSafe g es → MapOf g (blocksOf es) c.liveMap)) ?_ ?_
  · obtain ⟨buf, hbuf, rfl⟩ := acChainOpen_genesis hdir hopen
    exact ⟨ledger_genesis hbuf, fun _ => Or.inl rfl⟩
  · rintro es c new d ⟨hl, hm⟩ hs
    have hprev : RestartsSafe g (es ++ new) → RestartsSafe g es := by
      rintro hsafe before after rfl
      exact hsafe before (after ++ new) (by simp)
    cases hs with
    | ran hs =>
      obtain ⟨hl', hm'⟩ := hs.ledger hP hl
      rw [blocksOf_append, blocksOf_accepted]
      refine ⟨hl', fun hsafe => ?_⟩
      rw [hm']
      exact (hm (hprev hsafe)).append _
    | reopened w g' hopen =>
      obtain ⟨d', hd', hl', hm'⟩ := hl.reopen hP w g'
      obtain rfl : d' = d := Option.some.inj (hd'.symm.trans hopen)
      have hblocks : blocksOf (es ++ [.reopened]) = blocksOf es := by
        rw [blocksOf_append]
        exact List.append_nil _
      rw [hblocks]
      refine ⟨hl', fun hsafe => ?_⟩
      have hnow := hsafe es [] rfl
      refine Or.inr ⟨_, le_rfl, ?_, hm' hnow.length_lt⟩
      rwa [List.take_length]

/-- A property of the accepted blocks that every commit keeps holds on every node. -/
theorem NodeReachable.invariant {I : List Block → Prop} (hP : P.MallocBounded)
    (h : NodeReachable P g es c) (hinit : I [])
    (hcommit : ∀ bs c now b, Ledger P g bs c → PassesChecks P now c b → I bs → I (bs ++ [b])) :
    I (blocksOf es) := by
  obtain ⟨w, dir, c₀, hdir, hopen, hrun⟩ := h
  refine (hrun.invariant (I := fun es c => Ledger P g (blocksOf es) c ∧ I (blocksOf es)) ?_ ?_).2
  · obtain ⟨buf, hbuf, rfl⟩ := acChainOpen_genesis hdir hopen
    exact ⟨ledger_genesis hbuf, hinit⟩
  · rintro es c new d ⟨hl, hI⟩ hs
    rw [blocksOf_append]
    cases hs with
    | ran hs =>
      rw [blocksOf_accepted]
      refine ⟨(hs.ledger hP hl).1, ?_⟩
      cases hs with
      | accepted now w c b hok => exact hcommit _ c now b hl (acChainAcceptBlock_ok hP hok).1 hI
      | turnedAway => rwa [List.append_nil]
      | seeded => rwa [List.append_nil]
    | reopened w g' hopen =>
      obtain ⟨d', hd', hl', -⟩ := hl.reopen hP w g'
      obtain rfl : d' = d := Option.some.inj (hd'.symm.trans hopen)
      exact ⟨by rwa [show blocksOf [.reopened] = [] from rfl, List.append_nil],
        by rwa [show blocksOf [.reopened] = [] from rfl, List.append_nil]⟩

lemma length_genesisLive_le (g : Genesis) : (genesisLive g).length ≤ acMaxLive := by
  rw [genesisLive_eq, List.length_map]
  exact List.length_take_le _ _

/-- A bonded genesis account that is listed once has one entry. -/
lemma length_heightsOf_of_nodup {m : List LiveEntry} (hnd : (m.map LiveEntry.addr).Nodup)
    {a : Addr} (ha : heightsOf m a ≠ []) : (heightsOf m a).length = 1 := by
  have hcount : (heightsOf m a).length = (m.map LiveEntry.addr).count a := by
    rw [heightsOf, List.length_map, ← List.countP_eq_length_filter, List.count, List.countP_map]
    exact List.countP_congr fun e _ => by simp
  rw [hcount, List.count_eq_one_of_mem hnd (mem_heightsOf_ne_nil.mp ha)]

/-- Either kind of map counts the same entries of an address. -/
lemma MapOf.countP_eq {m : List LiveEntry} (h : MapOf g bs m) (hbs : Consecutive bs)
    (hrec : AllRecorded (genesisLive g) bs) {height : UInt64} (hheight : height.toNat = bs.length)
    (a : Addr) :
    (heightsOf m a).countP (liveIsWithinWindow height) =
      (heightsOf (liveAfter (genesisLive g) bs) a).countP (liveIsWithinWindow height) := by
  rcases h with rfl | ⟨r, hr, hsafe, rfl⟩
  · rfl
  · rw [heightsOf_liveAfter hbs hrec (heightsOf_genesisLive g a), countP_entryHeights,
      heightsOf_liveAfter_drop hbs (S := (liveAfter (genesisLive g) bs).map LiveEntry.addr)
        (by rw [List.length_map]; exact length_liveAfter_le (length_genesisLive_le g))
        (fun b hb => hrec.signerAddrs_subset hb) (by omega) a,
      countP_entrySince (by omega)]
    -- the two differ only in the first sixteen blocks, on the bonded genesis accounts
    by_cases hfirst : height.toNat < 16 ∧ 0 < (heightsOf (genesisLive g) a).length
    · obtain ⟨hlt, hpos⟩ := hfirst
      have hlen : (bs.take r).length < 16 := by
        rw [List.length_take]
        omega
      have hne : heightsOf (genesisLive g) a ≠ [] := List.ne_nil_of_length_pos hpos
      have hone := length_heightsOf_of_nodup (hsafe.nodup hlen) hne
      obtain ⟨e, he, rfl⟩ := List.mem_map.mp (mem_heightsOf_ne_nil.mp hne)
      obtain ⟨b, hb, hsigned⟩ := hsafe.signed hlen e he
      have hlast := (exists_signed_drop_iff hbs e.addr 0).mp
        ⟨b, List.mem_of_mem_take hb, hsigned⟩
      have hcond : height.toNat < 16 ∧ 0 < (heightsOf (genesisLive g) e.addr).length := ⟨hlt, hpos⟩
      rw [if_pos hcond, hone, if_pos (by omega)]
    · rw [if_neg hfirst]

/-! ### A restart after the first block -/

lemma NodeReachable.step {new : List NodeEvent} (h : NodeReachable P g es c)
    (hs : NodeStep P c new d) : NodeReachable P g (es ++ new) d := by
  obtain ⟨w, dir, c₀, hdir, hopen, hrun⟩ := h
  exact ⟨w, dir, c₀, hdir, hopen, .tail hrun hs⟩

/-- A run without restarts. -/
lemma Reachable.node (h : Reachable P g bs c) : NodeReachable P g (bs.map .accepted) c := by
  obtain ⟨w, dir, c₀, hdir, hopen, hrun⟩ := h
  refine ⟨w, dir, c₀, hdir, hopen, ?_⟩
  refine hrun.invariant (I := fun bs c => Run (NodeStep P) c₀ (bs.map .accepted) c) (.refl c₀) ?_
  intro bs c new d hrun hs
  rw [List.map_append]
  exact .tail hrun (.ran hs)

/-- Three validators of weights 50000, 20000 and 20000. -/
def trioGenesis : Genesis :=
  ⟨1, 0, [⟨(referenceKey 1).pk, 0, 2500000000⟩, ⟨(referenceKey 2).pk, 0, 400000000⟩,
    ⟨(referenceKey 3).pk, 0, 400000000⟩]⟩

/-- The first block, with the votes of the given validators. -/
def trioBlock (keys : List Keypair) : Block :=
  nextBlock (openedChain trioGenesis) 1 (referenceKey 1) ⟨[], nil_candidates_le⟩ keys

/-- The chain behind the first block. -/
def trioChain (keys : List Keypair) : Chain :=
  (acChainAcceptBlock reference 100000 .all (openedChain trioGenesis) (trioBlock keys)).2

/-- The same chain, closed and opened again. -/
def reopenedTrio (keys : List Keypair) : Chain :=
  (acChainOpen reference .all (trioChain keys).dir none).getD (trioChain keys)

/-- The second block, with the vote of the first validator alone. -/
def trioNext : Block :=
  nextBlock (trioChain [referenceKey 1, referenceKey 2]) 2 (referenceKey 1) ⟨[], nil_candidates_le⟩
    [referenceKey 1]

lemma reachable_trioChain {keys : List Keypair}
    (h : (acChainAcceptBlock reference 100000 .all (openedChain trioGenesis)
      (trioBlock keys)).1 = .ok) :
    Reachable reference trioGenesis [trioBlock keys] (trioChain keys) :=
  (reachable_openedChain (by decide +kernel)).step (.accepted 100000 .all _ (trioBlock keys) h)

lemma nodeReachable_reopenedTrio {keys : List Keypair}
    (h : (acChainAcceptBlock reference 100000 .all (openedChain trioGenesis)
      (trioBlock keys)).1 = .ok) :
    NodeReachable reference trioGenesis [.accepted (trioBlock keys), .reopened]
      (reopenedTrio keys) := by
  have hran := reachable_trioChain h
  obtain ⟨d, hd, -⟩ := (hran.ledger reference_mallocBounded).reopen reference_mallocBounded .all
    none
  exact hran.node.step (.reopened .all none (by rw [reopenedTrio, hd, Option.getD_some]))

/-! ### Transparency -/

/-- **Restart transparency.**  A node whose restarts are safe counts the same live weight as a
node that accepted the same blocks and never restarted, and returns the same code for every
further block. -/
theorem restart_transparent (hP : P.MallocBounded) (h : NodeReachable P g es c)
    (h' : Reachable P g (blocksOf es) d) (hsafe : RestartsSafe g es)
    (hrec : AllRecorded (genesisLive g) (blocksOf es)) :
    acChainLiveSqrtStake c = acChainLiveSqrtStake d ∧
      ∀ now w b, (acChainAcceptBlock P now w c b).1 = (acChainAcceptBlock P now w d b).1 := by
  obtain ⟨hl, hm⟩ := h.ledger hP
  have hl' := h'.ledger hP
  have hview := SameBlocks.sameView rfl hl hl'
  have hlive : ∀ s, acChainLiveSqrtStake { c with state := s } =
      acChainLiveSqrtStake { d with state := s } := by
    intro s
    refine acChainLiveSqrtStake_congr (c := { d with state := s }) (d := { c with state := s })
      rfl hview.height_eq.symm fun a => ?_
    show (heightsOf c.liveMap a).countP _ = (heightsOf d.liveMap a).countP _
    rw [h'.live_eq hP]
    exact (hm hsafe).countP_eq hl.consecutive hrec hl'.height_eq a
  constructor
  · rw [hlive c.state, ← hview.state_eq]
  · intro now w b
    refine (hview.acceptBlock_rc_eq hl.cacheValid hl'.cacheValid ?_ now w).symm
    rw [hview.state_eq]
    exact (hlive _).symm

/-- The hypotheses are met by a restart behind a block that all three validators signed. -/
theorem restart_transparent_trio :
    acChainLiveSqrtStake (reopenedTrio [referenceKey 1, referenceKey 2, referenceKey 3]) =
      acChainLiveSqrtStake (trioChain [referenceKey 1, referenceKey 2, referenceKey 3]) ∧
    ∀ now w b,
      (acChainAcceptBlock reference now w
        (reopenedTrio [referenceKey 1, referenceKey 2, referenceKey 3]) b).1 =
      (acChainAcceptBlock reference now w
        (trioChain [referenceKey 1, referenceKey 2, referenceKey 3]) b).1 := by
  have hrun : (acChainAcceptBlock reference 100000 .all (openedChain trioGenesis)
        (trioBlock [referenceKey 1, referenceKey 2, referenceKey 3])).1 = .ok ∧
      ∀ a ∈ (trioBlock [referenceKey 1, referenceKey 2, referenceKey 3]).signerAddrs,
        heightsOf (liveAfter (genesisLive trioGenesis)
          [trioBlock [referenceKey 1, referenceKey 2, referenceKey 3]]) a ≠ [] := by
    decide +kernel
  obtain ⟨hok, hrecorded⟩ := hrun
  have haddrs : (trioBlock [referenceKey 1, referenceKey 2, referenceKey 3]).signerAddrs =
      [(referenceKey 1).pk, (referenceKey 2).pk, (referenceKey 3).pk] := map_signer_nextBlock ..
  have hsafe : RestartSafe trioGenesis
      [trioBlock [referenceKey 1, referenceKey 2, referenceKey 3]] := by
    refine ⟨fun _ => by decide +kernel, fun _ e he => ⟨_, List.mem_singleton_self _, ?_⟩, by decide⟩
    rw [haddrs]
    revert e
    decide +kernel
  refine restart_transparent reference_mallocBounded (nodeReachable_reopenedTrio hok)
    (reachable_trioChain hok) ?_ ((@allRecorded_snoc _ [] _).mpr ⟨allRecorded_nil _, ?_⟩)
  · intro before after hsplit
    -- the only restart is the second event
    match before, hsplit with
    | [x], hsplit =>
      obtain rfl := (List.cons.inj hsplit).1
      exact hsafe
    | x :: y :: rest, hsplit => exact absurd (congrArg List.length hsplit) (by simp)
  · exact hrecorded

/-- **A restart changes the verdict.**  The third validator has not signed the first block.
The node that restarts forgets it and accepts the second block, the other one does not. -/
theorem restart_changes_verdict : ∃ (g : Genesis) (es : List NodeEvent) (c d : Chain) (b : Block),
    NodeReachable reference g es c ∧ Reachable reference g (blocksOf es) d ∧
      acChainLiveSqrtStake c = 70000 ∧ acChainLiveSqrtStake d = 90000 ∧
      (acChainAcceptBlock reference 100000 .all c b).1 = .ok ∧
      (acChainAcceptBlock reference 100000 .all d b).1 = .badCommit := by
  have hrun : (acChainAcceptBlock reference 100000 .all (openedChain trioGenesis)
        (trioBlock [referenceKey 1, referenceKey 2])).1 = .ok ∧
      acChainLiveSqrtStake (reopenedTrio [referenceKey 1, referenceKey 2]) = 70000 ∧
      acChainLiveSqrtStake (trioChain [referenceKey 1, referenceKey 2]) = 90000 ∧
      (acChainAcceptBlock reference 100000 .all (reopenedTrio [referenceKey 1, referenceKey 2])
        trioNext).1 = .ok ∧
      (acChainAcceptBlock reference 100000 .all (trioChain [referenceKey 1, referenceKey 2])
        trioNext).1 = .badCommit := by
    decide +kernel
  obtain ⟨hok, hverdicts⟩ := hrun
  exact ⟨trioGenesis, _, _, _, trioNext, nodeReachable_reopenedTrio hok, reachable_trioChain hok,
    hverdicts⟩

end Node

end AgentChain
