import AgentChain.LockedBlock

/-!
# The choice of `vote_phase`

Validators with the same tip hear the same proposals for the next height, each in an order of
its own.  At most eight proposals fit into the table, so all of them are there when
`vote_phase` runs, and each has the priority that the tip gives it.  The loop of `vote_phase`
returns the first entry of the lowest priority.  When only one block has that priority the
order of arrival does not matter; when two blocks share it, as two blocks of one proposer for
one slot do, the one that arrived first wins.
-/

namespace AgentChain

open Trace

/-! ### Proposals -/

/-- The output of the proof with which a header claims the leadership of its slot. -/
def leaderBeta (P : Platform) (c : Chain) (h : BlockHeader) : Option VrfOut :=
  acVrfVerify P h.proposerVrfProof
    (leaderAlpha (computeEpochSeed P c (acEpochOf h.slot)) h.slot) h.proposer

/-- The priority of a header on top of a chain. -/
def leaderPriority (P : Platform) (c : Chain) (h : BlockHeader) : Priority :=
  computePriority P ((leaderBeta P c h).getD (ByteArr.fill 32 0))
    (acIsqrtU64 (acStateGet c.state h.proposer).2.stake)

/-- A block that passes the checks of `ac_consensus_handle_block`. -/
structure Proposal (P : Platform) (c : Chain) (b : Block) : Prop where
  version_eq : b.header.version = acBlockVersion
  height_eq : b.header.height = c.height + 1
  parent_eq : b.header.parentHash = c.tipHash
  leader : (leaderBeta P c b.header).isSome

/-- Only one block has the lowest priority. -/
def SoleLowest (P : Platform) (c : Chain) (bs : List Block) : Prop :=
  ∃ b ∈ bs, ∀ b' ∈ bs, acBlockHash P b'.header ≠ acBlockHash P b.header →
    priorityCmp (leaderPriority P c b.header) (leaderPriority P c b'.header) = .lt

/-! ### The table while proposals arrive -/

/-- The entry of a proposal. -/
structure Pending.HeardAs (P : Platform) (c : Chain) (b : Block) (p : Pending) : Prop where
  proposal : Proposal P c b
  hash_eq : p.blockHash = acBlockHash P b.header
  header_eq : p.block.header = b.header
  height_eq : p.height = c.height + 1
  slot_eq : p.slot = b.header.slot
  priority_eq : p.priority = leaderPriority P c b.header
  uncommitted : p.committed = false

/-- An entry from before the given time that is of no use at the next height: it may not be
voted for, and it is none of the proposals. -/
structure Pending.Stale (P : Platform) (c : Chain) (since : UInt64) (bs : List Block)
    (p : Pending) : Prop where
  seen_le : p.firstSeenMs ≤ since
  idle : p.votable (c.height + 1) = false
  hash_ne : ∀ b ∈ bs, p.blockHash ≠ acBlockHash P b.header

/-- The entries that came in after the given time. -/
def newEntries (since : UInt64) (t : PendingTable) : Finset (Fin 8) :=
  Finset.univ.filter fun i => (t i).any fun p => since < p.firstSeenMs

/-- The table when the proposals of the list `seen` out of `bs` have arrived. -/
structure HeardTable (P : Platform) (c : Chain) (since : UInt64) (bs seen : List Block)
    (t : PendingTable) : Prop where
  heard : ∀ b ∈ seen, ∃ i p, t i = some p ∧ p.HeardAs P c b
  known : ∀ i p, t i = some p → p.Stale P c since bs ∨
    since < p.firstSeenMs ∧ ∃ b ∈ seen, p.HeardAs P c b
  few : (newEntries since t).card ≤ seen.length

section Table

variable {P : Platform} {c : Chain} {since : UInt64} {bs seen : List Block} {t t' : PendingTable}
  {p q : Pending} {b : Block}

lemma mem_newEntries {i : Fin 8} :
    i ∈ newEntries since t ↔ ∃ p, t i = some p ∧ since < p.firstSeenMs := by
  rw [newEntries, Finset.mem_filter, Option.any_eq_true]
  simp

/-- `oldest` returns an index with the least key. -/
lemma oldest_le (key : Fin 8 → UInt64) (i : Fin 8) : key (oldest key) ≤ key i := by
  have hfold : ∀ (l : List (Fin 8)) (o : Fin 8),
      key (l.foldl (fun o i => if key i < key o then i else o) o) ≤ key o ∧
        ∀ i ∈ l, key (l.foldl (fun o i => if key i < key o then i else o) o) ≤ key i := by
    intro l
    induction l with
    | nil => exact fun o => ⟨UInt64.le_refl _, by simp⟩
    | cons j l ih =>
      intro o
      rw [List.foldl_cons]
      obtain ⟨hstart, hrest⟩ := ih (if key j < key o then j else o)
      have hstep : key (if key j < key o then j else o) ≤ key o ∧
          key (if key j < key o then j else o) ≤ key j := by
        split_ifs with hlt
        · exact ⟨UInt64.le_of_lt hlt, UInt64.le_refl _⟩
        · exact ⟨UInt64.le_refl _, UInt64.not_lt.mp hlt⟩
      refine ⟨UInt64.le_trans hstart hstep.1, fun k hk => ?_⟩
      rcases List.mem_cons.mp hk with rfl | hk
      · exact UInt64.le_trans hstart hstep.2
      · exact hrest k hk
  exact (hfold entryIdx 0).2 i (List.mem_finRange i)

/-- `pending_alloc` spares the new entries as long as there are less than eight. -/
lemma pendingAlloc_notMem (h : (newEntries since t).card < 8) :
    pendingAlloc t ∉ newEntries since t := by
  intro hmem
  obtain ⟨p, hp, hseen⟩ := mem_newEntries.mp hmem
  rw [pendingAlloc] at hp
  cases hfree : entryIdx.find? fun i => (t i).isNone with
  | some i =>
    have hnone := List.find?_some hfree
    rw [hfree] at hp
    dsimp only at hp
    rw [hp] at hnone
    exact absurd hnone (by simp)
  | none =>
    rw [hfree] at hp
    dsimp only at hp
    -- the oldest entry is new, so every entry is
    have hall : newEntries since t = Finset.univ := by
      refine Finset.eq_univ_iff_forall.mpr fun i => mem_newEntries.mpr ?_
      have hi := List.find?_eq_none.mp hfree i (List.mem_finRange i)
      obtain ⟨q, hq⟩ : ∃ q, t i = some q := by
        cases ht : t i with
        | none => exact absurd (by rw [ht]; rfl) hi
        | some q => exact ⟨q, rfl⟩
      have hle := oldest_le (fun i => ((t i).map Pending.firstSeenMs).getD 0) i
      rw [hp, hq] at hle
      exact ⟨q, hq, UInt64.lt_of_lt_of_le hseen hle⟩
    rw [hall, Finset.card_univ, Fintype.card_fin] at h
    exact absurd h (by decide)

/-- The entry at a later time, while the tip is at the given height: nothing above it has got
committed. -/
structure Pending.Remains (height : ℕ) (p q : Pending) : Prop where
  kin : p.Kin q
  keeps : p.committed = true → q.committed = true
  height_le : q.committed = true → p.committed = true ∨ p.block.header.height.toNat ≤ height

lemma Pending.HeardAs.votable (h : p.HeardAs P c b) : p.votable (c.height + 1) = true :=
  Pending.votable_iff.mpr ⟨h.uncommitted, h.height_eq⟩

lemma Pending.HeardAs.congr {b' : Block} (h : p.HeardAs P c b) (hb : Proposal P c b')
    (heq : b.header = b'.header) : p.HeardAs P c b' := by
  refine ⟨hb, ?_, ?_, h.height_eq, ?_, ?_, h.uncommitted⟩
  · rw [← heq, h.hash_eq]
  · rw [← heq, h.header_eq]
  · rw [← heq, h.slot_eq]
  · rw [← heq, h.priority_eq]

lemma Pending.HeardAs.remains (hroom : HeightRoom c) (h : p.HeardAs P c b)
    (hq : p.Remains c.height.toNat q) : q.HeardAs P c b := by
  have hkin := hq.kin
  refine ⟨h.proposal, hkin.hash_eq.trans h.hash_eq, hkin.header_eq.trans h.header_eq,
    hkin.height_eq.trans h.height_eq, hkin.slot_eq.trans h.slot_eq,
    hkin.priority_eq.trans h.priority_eq, ?_⟩
  by_contra hcommitted
  rcases hq.height_le (by simpa using hcommitted) with hp | hle
  · rw [h.uncommitted] at hp
    exact absurd hp (by decide)
  · rw [h.header_eq, h.proposal.height_eq, hroom.succ_toNat] at hle
    omega

lemma Pending.Stale.remains (h : p.Stale P c since bs) (hq : p.Remains c.height.toNat q) :
    q.Stale P c since bs := by
  have hkin := hq.kin
  refine ⟨by rw [hkin.seen_eq]; exact h.seen_le, ?_, fun b hb => ?_⟩
  · have hidle := h.idle
    rw [← Bool.not_eq_true, Pending.votable_iff] at hidle ⊢
    rintro ⟨hopen, hheight⟩
    refine hidle ⟨?_, hkin.height_eq ▸ hheight⟩
    by_contra hp
    rw [hq.keeps (by simpa using hp)] at hopen
    exact absurd hopen (by decide)
  · rw [hkin.hash_eq]
    exact h.hash_ne b hb

/-- The table at a later time. -/
lemma HeardTable.remains (hroom : HeightRoom c) (h : HeardTable P c since bs seen t)
    (hrel : ∀ i, Option.Rel (Pending.Remains c.height.toNat) (t i) (t' i)) :
    HeardTable P c since bs seen t' := by
  refine ⟨fun b hb => ?_, fun i q hq => ?_, ?_⟩
  · obtain ⟨i, p, hp, hheard⟩ := h.heard b hb
    obtain ⟨q, hq, hpq⟩ := exists_later (hrel i) hp
    exact ⟨i, q, hq, hheard.remains hroom hpq⟩
  · obtain ⟨p, hp, hpq⟩ := exists_earlier (hrel i) hq
    rw [hpq.kin.seen_eq]
    rcases h.known i p hp with hstale | ⟨hseen, b, hb, hheard⟩
    · exact Or.inl (hstale.remains hpq)
    · exact Or.inr ⟨hseen, b, hb, hheard.remains hroom hpq⟩
  · refine (Finset.card_le_card fun i hi => ?_).trans h.few
    obtain ⟨q, hq, hseen⟩ := mem_newEntries.mp hi
    obtain ⟨p, hp, hpq⟩ := exists_earlier (hrel i) hq
    exact mem_newEntries.mpr ⟨p, hp, hpq.kin.seen_eq ▸ hseen⟩

/-- A proposal that is in the table arrives again. -/
lemma HeardTable.again (h : HeardTable P c since bs seen t)
    (hb : ∃ i p, t i = some p ∧ p.HeardAs P c b) : HeardTable P c since bs (seen ++ [b]) t := by
  refine ⟨fun x hx => ?_, fun i p hp => ?_, ?_⟩
  · rcases List.mem_append.mp hx with hx | hx
    · exact h.heard x hx
    · rwa [List.mem_singleton.mp hx]
  · rcases h.known i p hp with hstale | ⟨hseen, x, hx, hheard⟩
    · exact Or.inl hstale
    · exact Or.inr ⟨hseen, x, List.mem_append_left _ hx, hheard⟩
  · rw [List.length_append]
    exact h.few.trans (Nat.le_add_right _ _)

/-- A proposal is put into the table, and no other one is evicted for it. -/
lemma HeardTable.stash (h : HeardTable P c since bs seen t) (hlen : seen.length < 8)
    (hseen : since < p.firstSeenMs) (hp : p.HeardAs P c b) :
    HeardTable P c since bs (seen ++ [b]) (Function.update t (pendingAlloc t) (some p)) := by
  have hspare := pendingAlloc_notMem (h.few.trans_lt hlen)
  refine ⟨fun x hx => ?_, fun i q hq => ?_, ?_⟩
  · rcases List.mem_append.mp hx with hx | hx
    · obtain ⟨i, q, hq, hheard⟩ := h.heard x hx
      have hi : i ≠ pendingAlloc t := by
        rintro rfl
        rcases h.known _ q hq with hstale | ⟨hnew, -⟩
        · exact absurd (hheard.votable.symm.trans hstale.idle) (by decide)
        · exact hspare (mem_newEntries.mpr ⟨q, hq, hnew⟩)
      exact ⟨i, q, by rwa [Function.update_of_ne hi], hheard⟩
    · rw [List.mem_singleton.mp hx]
      exact ⟨pendingAlloc t, p, Function.update_self _ _ _, hp⟩
  · rw [Function.update_apply] at hq
    split_ifs at hq
    · obtain rfl := Option.some.inj hq
      exact Or.inr ⟨hseen, b, by simp, hp⟩
    · rcases h.known i q hq with hstale | ⟨hnew, x, hx, hheard⟩
      · exact Or.inl hstale
      · exact Or.inr ⟨hnew, x, List.mem_append_left _ hx, hheard⟩
  · have hsub : newEntries since (Function.update t (pendingAlloc t) (some p)) ⊆
        insert (pendingAlloc t) (newEntries since t) := by
      intro i hi
      obtain ⟨q, hq, hnew⟩ := mem_newEntries.mp hi
      rw [Function.update_apply] at hq
      split_ifs at hq with heq
      · exact heq ▸ Finset.mem_insert_self _ _
      · exact Finset.mem_insert_of_mem (mem_newEntries.mpr ⟨q, hq, hnew⟩)
    rw [List.length_append]
    exact (Finset.card_le_card hsub).trans ((Finset.card_insert_le _ _).trans
      (Nat.succ_le_succ h.few))

end Table

/-! ### Validators that hear the proposals -/

/-- A validator before the first proposal for the next height arrives: it has the tip of the
given chain, has not voted at the next height, and its table holds nothing for that height. -/
structure Awaits (P : Platform) (c : Chain) (since : UInt64) (bs : List Block) (cs : Consensus) :
    Prop where
  validator : cs.validator = true
  view : c.SameView cs.chain
  cache : cs.chain.CacheValid P
  unvoted : cs.voteHeight ≠ c.height + 1
  stale : ∀ i p, cs.pending i = some p → p.Stale P c since bs

/-- A proposal is delivered after the given time, and nothing is committed. -/
inductive Hear (P : Platform) (since : UInt64) : Consensus → List Block → Consensus → Prop
  | heard (env : Env) (cs : Consensus) (b : Block) (hseen : since < env.seenMs)
      (hquiet : cs.chain.Reseeded P (handleBlock P env cs b).1.chain) :
      Hear P since cs [b] (handleBlock P env cs b).1

/-- A validator to which all proposals were delivered, in an order of its own. -/
def Informed (P : Platform) (c : Chain) (bs : List Block) (cs : Consensus) : Prop :=
  ∃ since cs₀ order, Awaits P c since bs cs₀ ∧ order.Perm bs ∧ Run (Hear P since) cs₀ order cs

/-- A validator to which the proposals of the list `seen` were delivered. -/
structure Listening (P : Platform) (c : Chain) (since : UInt64) (bs seen : List Block)
    (cs : Consensus) : Prop where
  validator : cs.validator = true
  view : c.SameView cs.chain
  cache : cs.chain.CacheValid P
  unvoted : cs.voteHeight ≠ c.height + 1
  table : HeardTable P c since bs seen cs.pending

section Validators

variable {P : Platform} {c : Chain} {since : UInt64} {bs seen : List Block} {cs cs' : Consensus}
  {b : Block} {env : Env}

lemma Awaits.listening (h : Awaits P c since bs cs) : Listening P c since bs [] cs := by
  refine ⟨h.validator, h.view, h.cache, h.unvoted, by simp,
    fun i p hp => Or.inl (h.stale i p hp), ?_⟩
  refine Nat.le_of_eq (Finset.card_eq_zero.mpr (Finset.eq_empty_of_forall_notMem fun i hi => ?_))
  obtain ⟨p, hp, hseen⟩ := mem_newEntries.mp hi
  exact UInt64.not_lt.mpr (h.stale i p hp).seen_le hseen

/-- A block that is in the table. -/
lemma handleBlock_known (hversion : b.header.version = acBlockVersion) {i : Fin 8} {p : Pending}
    (hfind : pendingFind cs.pending (acBlockHash P b.header) = some (i, p)) :
    handleBlock P env cs b =
      tryCommit P env (cs.put i (b.signers.foldl Pending.addSigner p)) i := by
  rw [handleBlock, if_neg (not_not.mpr hversion), hfind]

/-- A proposal that is not in the table. -/
lemma handleBlock_unknown (hview : c.SameView cs.chain) (hcache : cs.chain.CacheValid P)
    (hb : Proposal P c b) (hfind : pendingFind cs.pending (acBlockHash P b.header) = none) :
    handleBlock P env cs b =
      tryCommit P env (stash P { cs with
          chain := (acChainEpochSeed P cs.chain (acEpochOf b.header.slot)).2 } env.seenMs
        b.header.slot b (leaderPriority P c b.header)).1 (pendingAlloc cs.pending) := by
  have hseed := acChainEpochSeed_reseeded (P := P) cs.chain (acEpochOf b.header.slot)
  obtain ⟨beta, hbeta⟩ := Option.isSome_iff_exists.mp hb.leader
  have hvrf : acVrfVerify P b.header.proposerVrfProof (leaderAlpha
      (acChainEpochSeed P cs.chain (acEpochOf b.header.slot)).1 b.header.slot)
      b.header.proposer = some beta := by
    rw [acChainEpochSeed_fst hcache, hview.computeEpochSeed_eq]
    exact hbeta
  have hheight : ¬ (cs.chain.height + 1 < b.header.height) := by
    rw [hview.height_eq, hb.height_eq]
    exact UInt64.lt_irrefl _
  rw [handleBlock, if_neg (not_not.mpr hb.version_eq), hfind]
  dsimp only
  rw [if_neg hheight, if_neg (by
    rw [hview.height_eq, hview.tipHash_eq]
    simp [hb.height_eq, hb.parent_eq]), hvrf]
  dsimp only
  rw [hseed.same.state_eq, hview.state_eq, leaderPriority, hbeta]
  rfl

/-- What a delivery does to the table: the proposal is there already, or it is put into the
place that `pending_alloc` chooses; the attempt to seal it commits nothing above the tip. -/
lemma Listening.delivered (hP : P.MallocBounded) (hmem : b ∈ bs) (hb : Proposal P c b)
    (hcoll : ∀ x ∈ seen, acBlockHash P x.header = acBlockHash P b.header → x.header = b.header)
    (h : Listening P c since bs seen cs) (hs : Hear P since cs [b] cs') :
    ∃ t, (∀ i, Option.Rel (Pending.Remains c.height.toNat) (t i) (cs'.pending i)) ∧
      ((t = cs.pending ∧ ∃ i p, cs.pending i = some p ∧ p.HeardAs P c b) ∨
        ∃ p, since < p.firstSeenMs ∧ p.HeardAs P c b ∧
          t = Function.update cs.pending (pendingAlloc cs.pending) (some p)) := by
  cases hs with
  | heard env _ _ hseen hquiet =>
    have hheight := (h.view.trans hquiet.sameView).height_eq
    have hsettled : ∀ (cs₁ : Consensus) (i : Fin 8),
        handleBlock P env cs b = tryCommit P env cs₁ i →
        ∀ j, Option.Rel (Pending.Remains c.height.toNat) (cs₁.pending j)
          ((handleBlock P env cs b).1.pending j) := by
      intro cs₁ i heq j
      have hrel := tryCommit_table hP env cs₁ i
      rw [← heq, hheight] at hrel
      exact rel_mono (hrel j) fun _ _ hpq => ⟨hpq.kin, hpq.keeps, hpq.height_le⟩
    cases hfind : pendingFind cs.pending (acBlockHash P b.header) with
    | none =>
      refine ⟨_, hsettled _ _ (handleBlock_unknown h.view h.cache hb hfind), Or.inr
        ⟨_, hseen, ⟨hb, rfl, rfl, hb.height_eq, rfl, rfl, rfl⟩, rfl⟩⟩
    | some r =>
      obtain ⟨i, p⟩ := r
      obtain ⟨hp, hhash⟩ := PendingTable.first_some hfind
      rw [decide_eq_true_eq] at hhash
      have hheard : p.HeardAs P c b := by
        rcases h.table.known i p hp with hstale | ⟨-, x, hx, hheard⟩
        · exact absurd hhash (hstale.hash_ne b hmem)
        · exact hheard.congr hb (hcoll x hx (hheard.hash_eq.symm.trans hhash))
      refine ⟨cs.pending, fun j => ?_, Or.inl ⟨rfl, i, p, hp, hheard⟩⟩
      refine rel_trans (SameEntries.update hp (p.extended_addSigners b.signers) j)
        (hsettled _ _ (handleBlock_known hb.version_eq hfind) j) fun q r s hqr hrs => ?_
      refine ⟨hqr.kin.trans hrs.kin, fun hq => hrs.keeps (hqr.committed_eq.trans hq),
        fun hs => ?_⟩
      rw [← hqr.committed_eq, ← hqr.kin.header_eq]
      exact hrs.height_le hs

/-- **One delivery.**  The proposal is in the table, and so are those that came before it. -/
lemma Listening.hear (hP : P.MallocBounded) (hroom : HeightRoom c) (hlen : seen.length < 8)
    (hmem : b ∈ bs) (hb : Proposal P c b)
    (hcoll : ∀ x ∈ seen, acBlockHash P x.header = acBlockHash P b.header → x.header = b.header)
    (h : Listening P c since bs seen cs) (hs : Hear P since cs [b] cs') :
    Listening P c since bs (seen ++ [b]) cs' := by
  obtain ⟨t, hrel, ht⟩ := h.delivered hP hmem hb hcoll hs
  have htable : HeardTable P c since bs (seen ++ [b]) t := by
    rcases ht with ⟨rfl, hheard⟩ | ⟨p, hseen, hheard, rfl⟩
    · exact h.table.again hheard
    · exact h.table.stash hlen hseen hheard
  cases hs with
  | heard env _ _ hseen hquiet =>
    have hlock : cs.SameLock (handleBlock P env cs b).1 := by
      have hstep := (Call.run_lockStep hP (.block env b) cs).1
      generalize votesOf _ = votes at hstep
      cases hstep with
      | kept hsame => exact hsame
      | repeated hsame => exact hsame
      | moved i p hvoting => exact absurd hvoting Bool.false_ne_true
    exact ⟨hlock.validator_eq.trans h.validator, h.view.trans hquiet.sameView,
      hquiet.valid h.cache, by rw [hlock.height_eq]; exact h.unvoted, htable.remains hroom hrel⟩

/-- A proposal keeps its place while others arrive. -/
lemma Listening.stays (hP : P.MallocBounded) (hroom : HeightRoom c) (hlen : seen.length < 8)
    (hmem : b ∈ bs) (hb : Proposal P c b)
    (hcoll : ∀ x ∈ seen, acBlockHash P x.header = acBlockHash P b.header → x.header = b.header)
    (h : Listening P c since bs seen cs) (hs : Hear P since cs [b] cs') {i : Fin 8} {p : Pending}
    {x : Block} (hp : cs.pending i = some p) (hseen : since < p.firstSeenMs)
    (hheard : p.HeardAs P c x) :
    ∃ q, cs'.pending i = some q ∧ since < q.firstSeenMs ∧ q.HeardAs P c x := by
  obtain ⟨t, hrel, ht⟩ := h.delivered hP hmem hb hcoll hs
  have hti : t i = some p := by
    rcases ht with ⟨rfl, -⟩ | ⟨q, -, -, rfl⟩
    · exact hp
    · have hspare := pendingAlloc_notMem (h.table.few.trans_lt hlen)
      rw [Function.update_of_ne, hp]
      rintro rfl
      exact hspare (mem_newEntries.mpr ⟨p, hp, hseen⟩)
  obtain ⟨q, hq, hpq⟩ := exists_later (hrel i) hti
  exact ⟨q, hq, hpq.kin.seen_eq ▸ hseen, hheard.remains hroom hpq⟩

/-- **All deliveries.**  Every proposal is in the table, and those that were there keep their
places. -/
lemma Listening.run (hP : P.MallocBounded) (hroom : HeightRoom c)
    (hprop : ∀ b ∈ bs, Proposal P c b)
    (hcoll : ∀ b ∈ bs, ∀ b' ∈ bs, acBlockHash P b.header = acBlockHash P b'.header →
      b.header = b'.header)
    {order : List Block} (h : Listening P c since bs seen cs)
    (hrun : Run (Hear P since) cs order cs') (hmem : ∀ b ∈ seen ++ order, b ∈ bs)
    (hlen : (seen ++ order).length ≤ 8) :
    Listening P c since bs (seen ++ order) cs' ∧ ∀ i p x, cs.pending i = some p →
      since < p.firstSeenMs → p.HeardAs P c x →
      ∃ q, cs'.pending i = some q ∧ since < q.firstSeenMs ∧ q.HeardAs P c x := by
  induction hrun with
  | refl =>
    rw [List.append_nil]
    exact ⟨h, fun i p x hp hseen hheard => ⟨p, hp, hseen, hheard⟩⟩
  | @tail t u es new hrun hs ih =>
    obtain ⟨b, rfl⟩ : ∃ b, new = [b] := by
      cases hs
      exact ⟨_, rfl⟩
    rw [← List.append_assoc] at hmem hlen ⊢
    rw [List.length_append, List.length_singleton] at hlen
    have hb := hmem b (by simp)
    have hold : ∀ x ∈ seen ++ es, x ∈ bs := fun x hx => hmem x (List.mem_append_left _ hx)
    obtain ⟨hlisten, hplaces⟩ := ih hold (by omega)
    have hfresh := fun x hx => hcoll x (hold x hx) b hb
    refine ⟨hlisten.hear hP hroom (by omega) hb (hprop b hb) hfresh hs,
      fun i p x hp hseen hheard => ?_⟩
    obtain ⟨q, hq, hqseen, hqheard⟩ := hplaces i p x hp hseen hheard
    exact hlisten.stays hP hroom (by omega) hb (hprop b hb) hfresh hs hq hqseen hqheard

/-- The `vote_phase` of a slot locks on a block, votes for no other one, and does vote when the
validator is in the committee of the block. -/
structure LocksOn (P : Platform) (env : Env) (cs : Consensus) (slot : UInt64) (b : Block) :
    Prop where
  height_eq : (votePhase P env cs slot).1.voteHeight = cs.chain.height + 1
  block_eq : (votePhase P env cs slot).1.voteBlock = acBlockHash P b.header
  votes_eq : ∀ v ∈ votesOf (votePhase P env cs slot).2, v.blockHash = acBlockHash P b.header
  votes : (amICommittee P cs.chain cs.kp b.header.slot).1.isSome →
    votesOf (votePhase P env cs slot).2 ≠ []

/-- The lock is on the entry that the loop returns. -/
lemma Listening.locksOn (hP : P.MallocBounded) (h : Listening P c since bs seen cs) {i : Fin 8}
    {p : Pending} (hbest : bestAt cs.pending (c.height + 1) = some (i, p))
    (hp : p.HeardAs P c b) {slot : UInt64} (hflag : slotVoted cs slot = false) :
    LocksOn P env cs slot b := by
  have hheight := h.view.height_eq
  obtain ⟨hlock, hvotes⟩ := votePhase_locks hP env h.validator hflag
    (by rw [hheight]; exact hbest) (fun heq => absurd (heq.trans (by rw [hheight])) h.unvoted)
  refine ⟨hlock.height_eq, hlock.block_eq.trans hp.hash_eq, fun v hv => ?_, fun hcom => ?_⟩
  · rw [hvotes] at hv
    obtain ⟨proof, rfl⟩ := mem_atMostVote (ourVoteNow_votes _ i p).1 hv
    exact hp.hash_eq
  · rw [← hp.slot_eq] at hcom
    rw [hvotes, ourVoteNow]
    dsimp only
    rcases hmine : amICommittee P cs.chain cs.kp p.slot with ⟨_ | proof, d⟩
    · rw [hmine] at hcom
      exact absurd hcom (by simp)
    · have hone : votesOf [.commitVote (voteEncode (castVote P cs.kp p.height p.blockHash proof))] =
          [castVote P cs.kp p.height p.blockHash proof] :=
        List.filterMap_cons_some (voteDecode_voteEncode _)
      exact fun hnil => List.cons_ne_nil _ _ (hone.symm.trans hnil)

/-! ### A calm network -/

/-- The clocks of a delivery that seals nothing. -/
def lull : Env := ⟨1, 0, 0, 0, .all⟩

/-- No entry has met the threshold at a later time, and no vote was cast. -/
structure Calm (P : Platform) (c : Chain) (cs : Consensus) : Prop where
  view : c.SameView cs.chain
  cache : cs.chain.CacheValid P
  times : ∀ i p, cs.pending i = some p → p.thresholdReachedMs = 0
  votes : ∀ i, (cs.slotVotes i).voted = false

lemma tryCommit_lull (h : ∀ i p, cs.pending i = some p → p.thresholdReachedMs = 0) (i : Fin 8) :
    tryCommit P lull cs i = (cs, []) := by
  rw [tryCommit, tryCommitInner]
  cases hp : cs.pending i with
  | none => rfl
  | some p =>
    have htime := h i p hp
    have hslot : acChainCurrentSlot lull.wallMs cs.chain = 0 := by
      rw [acChainCurrentSlot, ite_eq_left_iff]
      intro hgenesis
      rw [UInt64.le_antisymm (UInt64.not_lt.mp hgenesis) (UInt64.zero_le)]
      rfl
    have hsame : (if p.thresholdReachedMs = 0 then
        { p with thresholdReachedMs := lull.sealMs } else p) = p := by
      rw [if_pos htime, lull, ← htime]
    have hput : cs.put i p = cs := by
      rw [Consensus.put, ← hp, Function.update_eq_self]
    dsimp only
    rw [hslot, hsame, htime]
    split_ifs with hcommitted hvotes hwait
    · rfl
    · rfl
    · rw [hput]
    · exact absurd rfl hwait

lemma addSigners_times (p : Pending) (gs : List CommitSigner) :
    (gs.foldl Pending.addSigner p).thresholdReachedMs = p.thresholdReachedMs := by
  induction gs generalizing p with
  | nil => rfl
  | cons g gs ih => exact ih (p.addSigner g)

lemma slotVoteFor_voted {sv : SlotVotes} (h : ∀ i, (sv i).voted = false) (slot : UInt64)
    (i : Fin 8) :
    ((slotVoteFor sv slot).2 i).voted = false := by
  rw [slotVoteFor]
  split
  · exact h i
  · dsimp only
    rw [Function.update_apply]
    split_ifs
    · rfl
    · exact h i

/-- A delivery that seals nothing. -/
lemma Calm.hear (h : Calm P c cs) (hb : Proposal P c b) :
    ∃ cs', Hear P 0 cs [b] cs' ∧ Calm P c cs' := by
  have hsteps : ∃ cs₁ i, handleBlock P lull cs b = tryCommit P lull cs₁ i ∧
      cs.chain.Reseeded P cs₁.chain ∧
      (∀ j p, cs₁.pending j = some p → p.thresholdReachedMs = 0) ∧
      ∀ j, (cs₁.slotVotes j).voted = false := by
    cases hfind : pendingFind cs.pending (acBlockHash P b.header) with
    | some r =>
      obtain ⟨i, p⟩ := r
      obtain ⟨hp, -⟩ := PendingTable.first_some hfind
      refine ⟨_, _, handleBlock_known hb.version_eq hfind, .refl _, fun j q hq => ?_, h.votes⟩
      replace hq : Function.update cs.pending i (some _) j = some q := hq
      rw [Function.update_apply] at hq
      split_ifs at hq
      · rw [← Option.some.inj hq, addSigners_times]
        exact h.times i p hp
      · exact h.times j q hq
    | none =>
      have hseed := acChainEpochSeed_reseeded (P := P) cs.chain (acEpochOf b.header.slot)
      refine ⟨_, _, handleBlock_unknown h.view h.cache hb hfind, hseed, fun j q hq => ?_,
        fun j => ?_⟩
      · replace hq : Function.update cs.pending _ (some _) j = some q := hq
        rw [Function.update_apply] at hq
        split_ifs at hq
        · rw [← Option.some.inj hq]
          rfl
        · exact h.times j q hq
      · have hvoted := slotVoteFor_voted h.votes b.header.slot
        show (Function.update (slotVoteFor cs.slotVotes b.header.slot).2 _ _ j).voted = false
        by_cases hj : j = (slotVoteFor cs.slotVotes b.header.slot).1
        · rw [hj, Function.update_self]
          exact hvoted _
        · rw [Function.update_of_ne hj]
          exact hvoted j
  obtain ⟨cs₁, i, heq, hseed, htimes, hvotes⟩ := hsteps
  have hres : (handleBlock P lull cs b).1 = cs₁ := by rw [heq, tryCommit_lull htimes]
  refine ⟨_, .heard lull cs b (by decide) (by rw [hres]; exact hseed), ?_⟩
  rw [hres]
  exact ⟨h.view.trans hseed.sameView, hseed.valid h.cache, htimes, hvotes⟩

/-- All deliveries, in any order, without sealing. -/
lemma Calm.run (h : Calm P c cs) {order : List Block} (hprop : ∀ b ∈ order, Proposal P c b) :
    ∃ cs', Run (Hear P 0) cs order cs' ∧ Calm P c cs' := by
  induction order generalizing cs with
  | nil => exact ⟨cs, .refl cs, h⟩
  | cons b order ih =>
    obtain ⟨cs₁, hs, h₁⟩ := h.hear (hprop b List.mem_cons_self)
    obtain ⟨cs', hrun, h'⟩ := ih h₁ fun x hx => hprop x (List.mem_cons_of_mem _ hx)
    exact ⟨cs', (Run.single hs).trans hrun, h'⟩

lemma Calm.slotVoted (h : Calm P c cs) (slot : UInt64) : slotVoted cs slot = false :=
  slotVoteFor_voted h.votes slot _

/-- The first entry wins when nothing is below it. -/
lemma bestAt_first {t : PendingTable} {target : UInt64} {p : Pending} (hp : t 0 = some p)
    (hv : p.votable target = true) (hlow : ∀ i q, t i = some q → q.votable target = true →
      priorityCmp q.priority p.priority ≠ .lt) : bestAt t target = some (0, p) := by
  have hcons : ∃ rest, votables t target = (0, p) :: rest := by
    rw [votables, entryIdx, List.finRange_succ]
    exact ⟨_, List.filterMap_cons_some (by rw [hp]; exact if_pos hv)⟩
  obtain ⟨rest, hrest⟩ := hcons
  rw [bestAt_eq_firstMin]
  cases hmin : firstMin entryCmp (votables t target) with
  | none => exact absurd (firstMin_eq_none.mp hmin) (by rw [hrest]; simp)
  | some a =>
    obtain ⟨before, after, hl, hbefore, -⟩ := firstMin_spec hmin
    cases before with
    | nil =>
      rw [hrest] at hl
      exact congrArg some (List.cons.inj hl).1.symm
    | cons x before =>
      rw [hrest] at hl
      obtain rfl : (0, p) = x := (List.cons.inj hl).1
      obtain ⟨ha, hav⟩ := mem_votables.mp (hrest ▸ hl ▸
        List.mem_append_right (_ :: before) List.mem_cons_self : (a.1, a.2) ∈ votables t target)
      exact absurd (hbefore _ List.mem_cons_self) (hlow a.1 a.2 ha hav)

/-- A validator that has just started. -/
lemma awaits_new (hroom : HeightRoom c) (hcache : c.CacheValid P) (bs : List Block) :
    Awaits P c 0 bs (acConsensusNew c (referenceKey 1) true) ∧
      Calm P c (acConsensusNew c (referenceKey 1) true) := by
  refine ⟨⟨rfl, (Chain.Reseeded.refl (P := P) c).sameView, hcache, fun hzero => ?_, nofun⟩,
    (Chain.Reseeded.refl (P := P) c).sameView, hcache, nofun, fun _ => rfl⟩
  have hnext := hroom.succ_toNat
  rw [← hzero] at hnext
  exact absurd hnext (by simp [acConsensusNew])

/-- The block that arrives first wins against all that are not below it. -/
lemma exists_locksOn_first (hP : P.MallocBounded) (hroom : HeightRoom c) (hcache : c.CacheValid P)
    (hlen : bs.length ≤ 8) (hprop : ∀ b ∈ bs, Proposal P c b)
    (hcoll : ∀ b ∈ bs, ∀ b' ∈ bs, acBlockHash P b.header = acBlockHash P b'.header →
      b.header = b'.header) (hb : b ∈ bs)
    (hlow : ∀ x ∈ bs, priorityCmp (leaderPriority P c x.header)
      (leaderPriority P c b.header) ≠ .lt) :
    ∃ cs, Informed P c bs cs ∧ Calm P c cs ∧ ∀ env slot, LocksOn P env cs slot b := by
  obtain ⟨hawaits, hcalm⟩ := awaits_new (P := P) hroom hcache bs
  have hperm := (List.perm_cons_erase hb).symm
  have hmem : ∀ x ∈ b :: bs.erase b, x ∈ bs := fun x hx => hperm.mem_iff.mp hx
  obtain ⟨cs₁, hfirst, hcalm₁⟩ := hcalm.hear (hprop b hb)
  obtain ⟨cs, hrun, hcalm₂⟩ := hcalm₁.run
    fun x (hx : x ∈ bs.erase b) => hprop x (hmem x (List.mem_cons_of_mem _ hx))
  -- the first proposal is put into the first place
  have hlisten := hawaits.listening
  obtain ⟨t, hrel, ⟨rfl, i, p, hp, -⟩ | ⟨p, hseen, hheard, rfl⟩⟩ :=
    hlisten.delivered hP hb (hprop b hb) (by simp) hfirst
  · exact absurd hp nofun
  obtain ⟨p₁, hp₁, hpp₁⟩ := exists_later (hrel 0) (p := p) (Function.update_self (0 : Fin 8) _ _)
  have hlisten₁ := hlisten.hear hP hroom (by decide) hb (hprop b hb) (by simp) hfirst
  obtain ⟨hlisten₂, hplaces⟩ := hlisten₁.run hP hroom hprop hcoll hrun hmem
    (by rw [List.nil_append, List.singleton_append, hperm.length_eq]; exact hlen)
  obtain ⟨q, hq, -, hqheard⟩ := hplaces 0 p₁ b hp₁ (hpp₁.kin.seen_eq ▸ hseen)
    (hheard.remains hroom hpp₁)
  refine ⟨cs, ⟨0, _, _, hawaits, hperm, (Run.single hfirst).trans hrun⟩, hcalm₂, fun env slot =>
    hlisten₂.locksOn hP (bestAt_first hq hqheard.votable fun i r hr hv => ?_) hqheard
      (hcalm₂.slotVoted slot)⟩
  rcases hlisten₂.table.known i r hr with hstale | ⟨-, x, hx, hxheard⟩
  · exact absurd (hv.symm.trans hstale.idle) (by decide)
  · rw [hxheard.priority_eq, hqheard.priority_eq]
    exact hlow x (hmem x hx)

/-- Some block has a lowest priority. -/
lemma exists_lowest (P : Platform) (c : Chain) {bs : List Block} (hbs : bs ≠ []) :
    ∃ b ∈ bs, ∀ x ∈ bs,
      priorityCmp (leaderPriority P c x.header) (leaderPriority P c b.header) ≠ .lt := by
  let cmp (x y : Block) : Ordering :=
    priorityCmp (leaderPriority P c x.header) (leaderPriority P c y.header)
  have htrans : Std.TransCmp cmp :=
    { eq_swap := fun {_ _} => @Std.OrientedCmp.eq_swap _ priorityCmp _ _ _
      isLE_trans := fun h₁ h₂ => @Std.TransCmp.isLE_trans _ priorityCmp _ _ _ _ h₁ h₂ }
  cases hmin : firstMin cmp bs with
  | none => exact absurd (firstMin_eq_none.mp hmin) hbs
  | some b =>
    have hle : ∀ x ∈ bs, cmp x b ≠ .lt := fun x hx => firstMin_le hmin hx
    exact ⟨b, firstMin_mem hmin, hle⟩

/-- A block of the lowest priority is the choice of everybody who has heard all proposals, when
no other block shares the priority. -/
lemma locksOn_of_soleLowest (hP : P.MallocBounded) (hroom : HeightRoom c) (hlen : bs.length ≤ 8)
    (hprop : ∀ b ∈ bs, Proposal P c b)
    (hcoll : ∀ b ∈ bs, ∀ b' ∈ bs, acBlockHash P b.header = acBlockHash P b'.header →
      b.header = b'.header) (hb : b ∈ bs)
    (hsole : ∀ b' ∈ bs, acBlockHash P b'.header ≠ acBlockHash P b.header →
      priorityCmp (leaderPriority P c b.header) (leaderPriority P c b'.header) = .lt)
    (h : Informed P c bs cs) {slot : UInt64} (hflag : slotVoted cs slot = false) :
    LocksOn P env cs slot b := by
  obtain ⟨since, cs₀, order, hawaits, hperm, hrun⟩ := h
  have hlisten := (hawaits.listening.run hP hroom hprop hcoll hrun
    (fun x hx => hperm.mem_iff.mp hx) (hperm.length_eq ▸ hlen)).1
  rw [List.nil_append] at hlisten
  obtain ⟨j, q, hq, hqheard⟩ := hlisten.table.heard b (hperm.mem_iff.mpr hb)
  cases hbest : bestAt cs.pending (c.height + 1) with
  | none =>
    rw [bestAt_eq_firstMin, firstMin_eq_none] at hbest
    have hmem := mem_votables.mpr ⟨hq, hqheard.votable⟩
    rw [hbest] at hmem
    exact absurd hmem List.not_mem_nil
  | some r =>
    obtain ⟨i, p⟩ := r
    obtain ⟨hp, hv⟩ := bestAt_some hbest
    have hle := bestAt_le hbest hq hqheard.votable
    refine hlisten.locksOn hP hbest ?_ hflag
    rcases hlisten.table.known i p hp with hstale | ⟨-, x, hx, hheard⟩
    · exact absurd (hv.symm.trans hstale.idle) (by decide)
    · have hxbs := hperm.mem_iff.mp hx
      by_cases hhash : acBlockHash P x.header = acBlockHash P b.header
      · exact hheard.congr (hprop b hb) (hcoll x hxbs b hb hhash)
      · rw [hqheard.priority_eq, hheard.priority_eq] at hle
        exact absurd (hsole x hxbs hhash) hle

/-- **Selection by the set of proposals.**  For up to eight proposals on top of a reachable
chain, no two of which have different headers with one hash: any two validators that have heard
all of them, each in an order of its own, lock on one block and vote for no other one, if and
only if one block alone has the lowest priority. -/
theorem same_choice_iff (hP : P.MallocBounded) {g : Genesis} {es : List NodeEvent}
    (hc : NodeReachable P g es c) (hlen : bs.length ≤ 8) (hprop : ∀ b ∈ bs, Proposal P c b)
    (hcoll : ∀ b ∈ bs, ∀ b' ∈ bs, acBlockHash P b.header = acBlockHash P b'.header →
      b.header = b'.header) :
    (∀ cs cs', Informed P c bs cs → Informed P c bs cs' → ∀ env env' slot slot',
      slotVoted cs slot = false → slotVoted cs' slot' = false →
      ∃ b ∈ bs, LocksOn P env cs slot b ∧ LocksOn P env' cs' slot' b) ↔ SoleLowest P c bs := by
  have hroom := hc.heightRoom hP
  have hcache := (hc.ledger hP).1.cacheValid
  constructor
  · intro hsame
    by_cases hbs : bs = []
    · -- without proposals nobody locks
      subst hbs
      obtain ⟨hawaits, hcalm⟩ := awaits_new (P := P) hroom hcache []
      have hinf : Informed P c [] (acConsensusNew c (referenceKey 1) true) :=
        ⟨0, _, [], hawaits, .refl _, .refl _⟩
      obtain ⟨b, hb, -⟩ := hsame _ _ hinf hinf lull lull 1 1 (hcalm.slotVoted 1)
        (hcalm.slotVoted 1)
      exact absurd hb List.not_mem_nil
    · obtain ⟨b, hb, hlow⟩ := exists_lowest P c hbs
      refine ⟨b, hb, fun b' hb' hne => ?_⟩
      by_contra hnot
      -- a second block with the lowest priority wins where it arrives first
      have hlow' : ∀ x ∈ bs, priorityCmp (leaderPriority P c x.header)
          (leaderPriority P c b'.header) ≠ .lt := by
        intro x hx hlt
        refine hlow x hx (Std.TransCmp.lt_of_lt_of_isLE hlt ?_)
        rw [← Std.OrientedCmp.isGE_iff_isLE, Ordering.isGE_iff_ne_lt]
        exact hnot
      obtain ⟨cs, hinf, hcalm, hlock⟩ :=
        exists_locksOn_first hP hroom hcache hlen hprop hcoll hb hlow
      obtain ⟨cs', hinf', hcalm', hlock'⟩ :=
        exists_locksOn_first hP hroom hcache hlen hprop hcoll hb' hlow'
      obtain ⟨x, -, hx, hx'⟩ := hsame cs cs' hinf hinf' lull lull 1 1 (hcalm.slotVoted 1)
        (hcalm'.slotVoted 1)
      refine hne ?_
      rw [← (hlock lull 1).block_eq, ← (hlock' lull 1).block_eq, hx.block_eq, hx'.block_eq]
  · rintro ⟨b, hb, hsole⟩ cs cs' hinf hinf' env env' slot slot' hflag hflag'
    exact ⟨b, hb, locksOn_of_soleLowest hP hroom hlen hprop hcoll hb hsole hinf hflag,
      locksOn_of_soleLowest hP hroom hlen hprop hcoll hb hsole hinf' hflag'⟩

end Validators

/-! ### Two blocks of one proposer -/

/-- The chain of three validators of equal weight, at genesis. -/
def equalChain : Chain := openedOn labelled equalGenesis

/-- A second block that the leader of the first slot signs for this slot. -/
def twinBlock : Block := (builtBy 1).retimed 2001

/-- The third validator, when blocks have arrived in the given order. -/
def heardBy (bs : List Block) : Consensus :=
  bs.foldl (fun cs b => (handleBlock labelled (Env.atMs 2500) cs b).1) (equalNode 3).cs

/-- The hypotheses are met by the blocks of two leaders of the first slot. -/
theorem same_choice_two_leaders : SoleLowest labelled equalChain [builtBy 1, builtBy 2] ∧
    ∀ cs cs', Informed labelled equalChain [builtBy 1, builtBy 2] cs →
      Informed labelled equalChain [builtBy 1, builtBy 2] cs' → ∀ env env' slot slot',
      slotVoted cs slot = false → slotVoted cs' slot' = false →
      ∃ b ∈ [builtBy 1, builtBy 2], LocksOn labelled env cs slot b ∧
        LocksOn labelled env' cs' slot' b := by
  have hfacts : (∀ b ∈ [builtBy 1, builtBy 2], b.header.version = acBlockVersion ∧
      b.header.height = equalChain.height + 1 ∧ b.header.parentHash = equalChain.tipHash ∧
      (leaderBeta labelled equalChain b.header).isSome) ∧
      acBlockHash labelled (builtBy 1).header ≠ acBlockHash labelled (builtBy 2).header ∧
      priorityCmp (leaderPriority labelled equalChain (builtBy 2).header)
        (leaderPriority labelled equalChain (builtBy 1).header) = .lt := by
    decide +kernel
  obtain ⟨hprop, hne, hlt⟩ := hfacts
  have hsole : SoleLowest labelled equalChain [builtBy 1, builtBy 2] := by
    refine ⟨builtBy 2, by simp, fun b' hb' hb => ?_⟩
    simp only [List.mem_cons, List.not_mem_nil, or_false] at hb'
    rcases hb' with rfl | rfl
    · exact hlt
    · exact absurd rfl hb
  refine ⟨hsole, (same_choice_iff labelled_mallocBounded reachable_equalGenesis.node (by decide)
    (fun b hb => ?_) fun b hb b' hb' heq => ?_).mpr hsole⟩
  · obtain ⟨h1, h2, h3, h4⟩ := hprop b hb
    exact ⟨h1, h2, h3, h4⟩
  · simp only [List.mem_cons, List.not_mem_nil, or_false] at hb hb'
    rcases hb with rfl | rfl
    · rcases hb' with rfl | rfl
      · rfl
      · exact absurd heq hne
    · rcases hb' with rfl | rfl
      · exact absurd heq.symm hne
      · rfl

/-- **Two blocks for one slot.**  The leader of the first slot signs two blocks, which have one
priority.  The same validator locks on the first or on the second and votes for it, according
to which of them has arrived first. -/
theorem twin_blocks_split :
    acBlockHash labelled twinBlock.header ≠ acBlockHash labelled (builtBy 1).header ∧
    (votePhase labelled (Env.atMs 3100) (heardBy [builtBy 1, twinBlock]) 1).1.voteBlock =
      acBlockHash labelled (builtBy 1).header ∧
    (votePhase labelled (Env.atMs 3100) (heardBy [twinBlock, builtBy 1]) 1).1.voteBlock =
      acBlockHash labelled twinBlock.header ∧
    (votesOf (votePhase labelled (Env.atMs 3100) (heardBy [builtBy 1, twinBlock]) 1).2).map
      Vote.blockHash = [acBlockHash labelled (builtBy 1).header] ∧
    (votesOf (votePhase labelled (Env.atMs 3100) (heardBy [twinBlock, builtBy 1]) 1).2).map
      Vote.blockHash = [acBlockHash labelled twinBlock.header] := by
  decide +kernel

end AgentChain
