import AgentChain.VoteLock

/-!
# The table of proposals over whole runs

A proposal enters the table when a call stashes it, and leaves it when `pending_alloc` evicts
it.  In between only its signers, its times and its mark of being committed change
(`Pending.Kin`).  All entries are at most one above the tip of the chain, and those that are
one above it are not committed (`TableInv`).  A proposal for the next height that is in the
table therefore stays there, open for votes, until the tip moves or the proposal is evicted
(`Node.exec_open`).
-/

namespace AgentChain

open Trace

/-! ### Tables at two times -/

section Related

variable {R S T : Pending → Pending → Prop} {o o' o'' : Option Pending} {p q : Pending}

lemma rel_mono (h : Option.Rel R o o') (hRS : ∀ p q, R p q → S p q) : Option.Rel S o o' := by
  cases h with
  | none => exact .none
  | some h => exact .some (hRS _ _ h)

lemma rel_trans (h : Option.Rel R o o') (h' : Option.Rel S o' o'')
    (hRS : ∀ p q r, R p q → S q r → T p r) : Option.Rel T o o'' := by
  cases h with
  | none =>
    cases h'
    exact .none
  | some h =>
    cases h' with
    | some h' => exact .some (hRS _ _ _ h h')

/-- The later of two related entries. -/
lemma exists_later (h : Option.Rel R o o') (hp : o = some p) : ∃ q, o' = some q ∧ R p q := by
  subst hp
  cases h with
  | some h => exact ⟨_, rfl, h⟩

/-- The earlier of two related entries. -/
lemma exists_earlier (h : Option.Rel R o o') (hq : o' = some q) : ∃ p, o = some p ∧ R p q := by
  subst hq
  cases h with
  | some h => exact ⟨_, rfl, h⟩

end Related

/-! ### The life of an entry -/

/-- The same proposal at another time. -/
structure Pending.Kin (p q : Pending) : Prop where
  height_eq : q.height = p.height
  slot_eq : q.slot = p.slot
  hash_eq : q.blockHash = p.blockHash
  header_eq : q.block.header = p.block.header
  txs_eq : q.block.txs = p.block.txs
  seen_eq : q.firstSeenMs = p.firstSeenMs
  priority_eq : q.priority = p.priority

lemma Pending.Kin.refl (p : Pending) : p.Kin p := ⟨rfl, rfl, rfl, rfl, rfl, rfl, rfl⟩

lemma Pending.Kin.trans {p q r : Pending} (h : p.Kin q) (h' : q.Kin r) : p.Kin r :=
  ⟨h'.height_eq.trans h.height_eq, h'.slot_eq.trans h.slot_eq, h'.hash_eq.trans h.hash_eq,
    h'.header_eq.trans h.header_eq, h'.txs_eq.trans h.txs_eq, h'.seen_eq.trans h.seen_eq,
    h'.priority_eq.trans h.priority_eq⟩

/-- The same proposal, as open as before and with all the signers that it had. -/
structure Pending.Extended (p q : Pending) : Prop where
  kin : p.Kin q
  committed_eq : q.committed = p.committed
  signers_prefix : p.signers <+: q.signers

lemma Pending.Extended.refl (p : Pending) : p.Extended p := ⟨.refl p, rfl, List.prefix_refl _⟩

lemma Pending.Extended.trans {p q r : Pending} (h : p.Extended q) (h' : q.Extended r) :
    p.Extended r :=
  ⟨h.kin.trans h'.kin, h'.committed_eq.trans h.committed_eq,
    h.signers_prefix.trans h'.signers_prefix⟩

lemma Pending.extended_addSigner (p : Pending) (g : CommitSigner) : p.Extended (p.addSigner g) :=
  ⟨⟨rfl, rfl, rfl, rfl, rfl, rfl, rfl⟩, rfl, prefix_addSigner p.signers g⟩

lemma Pending.extended_addSigners (p : Pending) (gs : List CommitSigner) :
    p.Extended (gs.foldl Pending.addSigner p) := by
  induction gs generalizing p with
  | nil => exact .refl p
  | cons g gs ih => exact (p.extended_addSigner g).trans (ih (p.addSigner g))

/-- Every entry is the same proposal as before, with all the signers that it had. -/
def SameEntries (t t' : PendingTable) : Prop :=
  ∀ i, Option.Rel Pending.Extended (t i) (t' i)

lemma SameEntries.refl (t : PendingTable) : SameEntries t t := by
  intro i
  cases t i with
  | none => exact .none
  | some p => exact .some (.refl p)

lemma SameEntries.update {t : PendingTable} {i : Fin 8} {p q : Pending} (hp : t i = some p)
    (hext : p.Extended q) : SameEntries t (Function.update t i (some q)) := by
  intro j
  by_cases hj : j = i
  · rw [hj, Function.update_self, hp]
    exact .some hext
  · rw [Function.update_of_ne hj]
    exact SameEntries.refl t j

/-! ### Steps of the table -/

section Steps

variable {P : Platform} {E : Env → Prop} {cs cs' : Consensus} {msgs : List Msg}

/-- `our_vote_now` changes nothing but signers. -/
lemma ourVoteNow_sameEntries (cs : Consensus) {i : Fin 8} {p : Pending}
    (hp : cs.pending i = some p) :
    SameEntries cs.pending (ourVoteNow P cs i p).1.pending := by
  rw [ourVoteNow]
  rcases amICommittee P cs.chain cs.kp p.slot with ⟨_ | proof, c⟩
  · exact .refl _
  · exact .update hp (p.extended_addSigner _)

/-- The first change of a call keeps all entries, or puts a new one into the place that
`pending_alloc` chooses. -/
lemma Entry.table {x : Call} (h : Entry P x cs msgs cs') :
    SameEntries cs.pending cs'.pending ∨ ∃ p, x.stashes P cs = some p ∧
      cs'.pending = Function.update cs.pending (pendingAlloc cs.pending) (some p) := by
  cases h with
  | idle => exact Or.inl (.refl _)
  | merged env b _ i p hp hhash =>
    exact Or.inl (.update hp (p.extended_addSigners b.signers))
  | stashed _ _ d sv p hd hp => exact Or.inr ⟨p, hp, rfl⟩
  | collected env v _ d i p hd hp =>
    exact Or.inl (.update hp (p.extended_addSigner _))
  | reaffirmed env slot _ sv i p hvalidator hp =>
    exact Or.inl (ourVoteNow_sameEntries { cs with slotVotes := sv } hp)
  | voted env slot _ sv i p hvalidator hbest =>
    exact Or.inl (ourVoteNow_sameEntries { cs with slotVotes := sv } (bestAt_some hbest).1)

/-- An entry before and behind attempts to seal on a chain that has reached the given height:
what got committed is not above it. -/
structure Pending.Settled (height : ℕ) (p q : Pending) : Prop where
  kin : p.Kin q
  signers_eq : q.signers = p.signers
  keeps : p.committed = true → q.committed = true
  height_le : q.committed = true → p.committed = true ∨ p.block.header.height.toNat ≤ height

lemma Pending.Settled.refl (height : ℕ) (p : Pending) : p.Settled height p :=
  ⟨.refl p, rfl, id, Or.inl⟩

lemma Pending.Settled.trans {height height' : ℕ} (hle : height ≤ height') {p q r : Pending}
    (h : p.Settled height q) (h' : q.Settled height' r) : p.Settled height' r := by
  refine ⟨h.kin.trans h'.kin, h'.signers_eq.trans h.signers_eq, fun hp => h'.keeps (h.keeps hp),
    fun hr => ?_⟩
  rcases h'.height_le hr with hq | hheight
  · rcases h.height_le hq with hp | hheight
    · exact Or.inl hp
    · exact Or.inr (hheight.trans hle)
  · rw [h.kin.header_eq] at hheight
    exact Or.inr hheight

/-- The tables before and behind attempts to seal. -/
def SettledEntries (height : ℕ) (t t' : PendingTable) : Prop :=
  ∀ i, Option.Rel (Pending.Settled height) (t i) (t' i)

lemma SettledEntries.refl (height : ℕ) (t : PendingTable) : SettledEntries height t t := by
  intro i
  cases t i with
  | none => exact .none
  | some p => exact .some (.refl height p)

lemma SettledEntries.update {height : ℕ} {t : PendingTable} {i : Fin 8} {p q : Pending}
    (hp : t i = some p) (hsettled : p.Settled height q) :
    SettledEntries height t (Function.update t i (some q)) := by
  intro j
  by_cases hj : j = i
  · rw [hj, Function.update_self, hp]
    exact .some hsettled
  · rw [Function.update_of_ne hj]
    exact SettledEntries.refl height t j

lemma SettledEntries.trans {height height' : ℕ} (hle : height ≤ height')
    {t t' t'' : PendingTable} (h : SettledEntries height t t')
    (h' : SettledEntries height' t' t'') : SettledEntries height' t t'' :=
  fun i => rel_trans (h i) (h' i) fun _ _ _ hpq hqr => hpq.trans hle hqr

/-- A block that the chain reports as accepted or known is not above its tip. -/
lemma height_le_of_sealed (hP : P.MallocBounded) {now : UInt64} {w : Writes} {c : Chain} {b : Block}
    (h : (acChainAcceptBlock P now w c b).1 = .ok ∨ (acChainAcceptBlock P now w c b).1 = .dup) :
    b.header.height.toNat ≤ (acChainAcceptBlock P now w c b).2.height.toNat := by
  rcases h with hok | hdup
  · obtain ⟨-, -, -, -, buf, -, hres⟩ := acChainAcceptBlock_ok hP hok
    rw [hres]
    exact le_rfl
  · exact (height_le_of_dup hdup).trans (acChainAcceptBlock_height_le hP now w c b)

lemma Settle.table (hP : P.MallocBounded) (h : Settle P E cs msgs cs') :
    SettledEntries cs'.chain.height.toNat cs.pending cs'.pending := by
  cases h with
  | timed _ i p ms hp =>
    exact .update hp ⟨⟨rfl, rfl, rfl, rfl, rfl, rfl, rfl⟩, rfl, id, Or.inl⟩
  | offered env _ i p ms henv hp hopen =>
    have hheight := @height_le_of_sealed P hP env.acceptMs env.writes cs.chain
      (Pending.certified { p with thresholdReachedMs := ms })
    rw [sealBlock]
    -- the call is a variable from here on, so that no later step unfolds it
    generalize acChainAcceptBlock P env.acceptMs env.writes cs.chain _ = r at hheight ⊢
    dsimp only
    split_ifs with hrc
    · exact .update hp ⟨⟨rfl, rfl, rfl, rfl, rfl, rfl, rfl⟩, rfl, fun _ => rfl,
        fun _ => Or.inr (hheight hrc)⟩
    · exact .update hp ⟨⟨rfl, rfl, rfl, rfl, rfl, rfl, rfl⟩, rfl, id, Or.inl⟩

lemma settled_table (hP : P.MallocBounded) (h : Run (Settle P E) cs msgs cs') :
    SettledEntries cs'.chain.height.toNat cs.pending cs'.pending := by
  refine h.invariant (I := fun _ t => SettledEntries t.chain.height.toNat cs.pending t.pending)
    ?_ ?_
  · exact .refl _ _
  · intro _ t new u ht hs
    exact ht.trans (hs.lockStep hP).2.2.height_le (hs.table hP)

lemma tryCommit_table (hP : P.MallocBounded) (env : Env) (cs : Consensus) (i : Fin 8) :
    SettledEntries (tryCommit P env cs i).1.chain.height.toNat cs.pending
      (tryCommit P env cs i).1.pending :=
  settled_table hP (tryCommit_settle (E := fun _ => True) trivial cs i)

end Steps

/-! ### The invariant of the table -/

/-- An entry that belongs to its block, is at most one above the tip, and not above it when
it is committed. -/
structure Pending.Fits (P : Platform) (c : Chain) (p : Pending) : Prop where
  hash_eq : p.blockHash = acBlockHash P p.block.header
  height_eq : p.height = p.block.header.height
  height_le : p.height.toNat ≤ c.height.toNat + 1
  done : p.committed = true → p.height.toNat ≤ c.height.toNat

/-- All entries fit to the chain, which has room for one more block. -/
structure TableInv (P : Platform) (cs : Consensus) : Prop where
  room : HeightRoom cs.chain
  fits : ∀ i p, cs.pending i = some p → p.Fits P cs.chain

/-- A block that a call proposes is at most one above the tip. -/
def Call.Fitting (cs : Consensus) : Call → Prop
  | .propose _ _ _ b => b.header.height.toNat ≤ cs.chain.height.toNat + 1
  | _ => True

section Invariant

variable {P : Platform} {cs cs' : Consensus} {msgs : List Msg} {c d : Chain} {p q : Pending}

lemma Pending.Fits.same (h : p.Fits P c) (hkin : p.Kin q) (hcommitted : q.committed = p.committed) :
    q.Fits P c := by
  refine ⟨?_, ?_, ?_, ?_⟩
  · rw [hkin.hash_eq, hkin.header_eq]
    exact h.hash_eq
  · rw [hkin.height_eq, hkin.header_eq]
    exact h.height_eq
  · rw [hkin.height_eq]
    exact h.height_le
  · rw [hkin.height_eq, hcommitted]
    exact h.done

lemma Pending.Fits.settled (h : p.Fits P c) (hle : c.height.toNat ≤ d.height.toNat)
    (hsettled : p.Settled d.height.toNat q) : q.Fits P d := by
  have hkin := hsettled.kin
  refine ⟨?_, ?_, ?_, fun hq => ?_⟩
  · rw [hkin.hash_eq, hkin.header_eq]
    exact h.hash_eq
  · rw [hkin.height_eq, hkin.header_eq]
    exact h.height_eq
  · rw [hkin.height_eq]
    exact h.height_le.trans (Nat.succ_le_succ hle)
  · rw [hkin.height_eq]
    rcases hsettled.height_le hq with hp | hheight
    · exact (h.done hp).trans hle
    · rw [h.height_eq]
      exact hheight

/-- What `ac_consensus_handle_block` has checked about a block that it stashes. -/
lemma receivedEntry_some {env : Env} {b : Block} (h : receivedEntry P env cs b = some p) :
    b.header.version = acBlockVersion ∧ pendingFind cs.pending (acBlockHash P b.header) = none ∧
      b.header.height = cs.chain.height + 1 ∧ b.header.parentHash = cs.chain.tipHash ∧
      ∃ beta, acVrfVerify P b.header.proposerVrfProof (leaderAlpha
          (acChainEpochSeed P cs.chain (acEpochOf b.header.slot)).1 b.header.slot)
          b.header.proposer = some beta ∧
        p = Pending.fresh P env.seenMs b.header.slot b (computePriority P beta
          (acIsqrtU64 (acStateGet cs.chain.state b.header.proposer).2.stake)) := by
  rw [receivedEntry] at h
  split_ifs at h with hversion hfind hlink
  obtain ⟨beta, hbeta, rfl⟩ := Option.map_eq_some_iff.mp h
  rw [not_or, not_not, not_not] at hlink
  exact ⟨not_not.mp hversion, by simpa using hfind, hlink.1, hlink.2, beta, hbeta, rfl⟩

lemma Call.stashes_fits {x : Call} (hroom : HeightRoom cs.chain) (hx : x.Fitting cs)
    (h : x.stashes P cs = some p) : p.Fits P cs.chain := by
  cases x with
  | block env b =>
    obtain ⟨-, -, hheight, -, beta, -, rfl⟩ := receivedEntry_some h
    refine ⟨rfl, rfl, ?_, nofun⟩
    show b.header.height.toNat ≤ _
    rw [hheight, hroom.succ_toNat]
  | propose env junk slot b =>
    obtain rfl := Option.some.inj h
    exact ⟨rfl, rfl, hx, nofun⟩
  | vote env v => cases h
  | votePhase env slot => cases h
  | sealPhase env slot => cases h

/-- The invariant behind a change of the table. -/
lemma TableInv.entry {x : Call} (h : TableInv P cs) (hx : x.Fitting cs)
    (he : Entry P x cs msgs cs') : TableInv P cs' := by
  have hseed := he.lockStep.2
  have hroom := h.room.reseeded hseed
  have hheight := hseed.same.height_eq
  have hfits : ∀ i p, cs'.pending i = some p → p.Fits P cs.chain := by
    intro i p hp
    rcases he.table with hsame | ⟨q, hq, htable⟩
    · obtain ⟨p₀, hp₀, hkin, hcommitted⟩ := exists_earlier (hsame i) hp
      exact (h.fits i p₀ hp₀).same hkin hcommitted
    · rw [htable, Function.update_apply] at hp
      split_ifs at hp with hi
      · exact Option.some.inj hp ▸ Call.stashes_fits h.room hx hq
      · exact h.fits i p hp
  refine ⟨hroom, fun i p hp => ?_⟩
  have hf := hfits i p hp
  refine ⟨hf.hash_eq, hf.height_eq, ?_, ?_⟩
  · rw [hheight]
    exact hf.height_le
  · rw [hheight]
    exact hf.done

/-- The invariant behind attempts to seal. -/
lemma TableInv.settled {E : Env → Prop} (hP : P.MallocBounded) (h : TableInv P cs)
    (hsettle : Run (Settle P E) cs msgs cs') : TableInv P cs' := by
  obtain ⟨-, -, hgrown⟩ := settled_lockStep hP hsettle
  have htable := settled_table hP hsettle
  refine ⟨hgrown.room h.room, fun i p hp => ?_⟩
  obtain ⟨p₀, hp₀, hsettled⟩ := exists_earlier (htable i) hp
  exact (h.fits i p₀ hp₀).settled hgrown.height_le hsettled

/-- **A call keeps the invariant.** -/
theorem TableInv.run (hP : P.MallocBounded) {x : Call} (h : TableInv P cs) (hx : x.Fitting cs) :
    TableInv P (x.run P cs).1 := by
  obtain ⟨cs₁, msgs₁, msgs₂, hentry, hsettle, -⟩ := x.run_effect (P := P) x.meets_true cs
  exact (h.entry hx hentry).settled hP hsettle

end Invariant

/-! ### Nodes -/

/-- The entry that an action puts into the table. -/
def NodeAction.stashes (P : Platform) (n : Node) (a : NodeAction) : Option Pending :=
  (a.call n).bind (Call.stashes P n.cs)

/-- The table of a node, and the block that it is about to propose. -/
structure NodeInv (P : Platform) (n : Node) : Prop where
  table : TableInv P n.cs
  built : ∀ b, n.pc = .built b → b.header.height.toNat ≤ n.cs.chain.height.toNat + 1

section Nodes

variable {P : Platform} {n : Node} {a : NodeAction}

/-- Serving a block moves nothing. -/
lemma Node.serve_pc (n : Node) (height : UInt64) :
    (n.serve height).slot = n.slot ∧ (n.serve height).pc = n.pc := by
  rw [Node.serve]
  split_ifs
  · exact ⟨rfl, rfl⟩
  · cases blockRead n.cs.chain.dir height with
    | none => exact ⟨rfl, rfl⟩
    | some b => exact ⟨rfl, rfl⟩

/-- The draw for the leader leaves no block to propose. -/
lemma Node.checkLeader_pc (n : Node) :
    (n.checkLeader P).slot = n.slot ∧ ∀ b, (n.checkLeader P).pc ≠ .built b := by
  rw [Node.checkLeader]
  split_ifs
  · exact ⟨rfl, fun _ h => by cases h⟩
  · rcases amILeader P n.cs.chain n.cs.kp n.slot with ⟨_ | proof, c⟩
    · exact ⟨rfl, fun _ h => by cases h⟩
    · exact ⟨rfl, fun _ h => by cases h⟩

/-- A build leaves the block to propose, if there is one. -/
lemma Node.build_pc (n : Node) (proof : VrfProof) (cands : Candidates) :
    (n.build P proof cands).slot = n.slot ∧ ∀ b, (n.build P proof cands).pc = .built b →
      ∃ b₀, (acChainBuildBlock P n.cs.chain n.slot n.cs.kp cands).1 = some b₀ ∧
        b = b₀.withProof proof := by
  rw [Node.build]
  rcases acChainBuildBlock P n.cs.chain n.slot n.cs.kp cands with ⟨_ | b₀, c⟩
  · exact ⟨rfl, fun _ h => by cases h⟩
  · exact ⟨rfl, fun b hb => ⟨b₀, rfl, (SlotPc.built.inj hb).symm⟩⟩

/-- Where an action leaves the slot thread.  The slot moves on at its end only, and a block
that waits to be proposed has waited before, or was just built. -/
lemma Node.exec_pc (n : Node) (a : NodeAction) :
    ((n.exec P a).slot = n.slot ∨ (n.exec P a).pc = .start) ∧
      ∀ b, (n.exec P a).pc = .built b → n.pc = .built b ∨ ∃ proof cands b₀,
        n.pc = .leading proof ∧
        (acChainBuildBlock P n.cs.chain n.slot n.cs.kp cands).1 = some b₀ ∧
        b = b₀.withProof proof := by
  cases a with
  | receive env m =>
    cases m with
    | headersReq buf => exact ⟨Or.inl rfl, fun _ => Or.inl⟩
    | commitVote buf => exact ⟨Or.inl rfl, fun _ => Or.inl⟩
    | blockAnn buf => exact ⟨Or.inl rfl, fun _ => Or.inl⟩
    | blockRes buf => exact ⟨Or.inl rfl, fun _ => Or.inl⟩
  | own a =>
    obtain ⟨cs, slot, pc, sent⟩ := n
    cases pc <;> cases a
    all_goals first
      | exact ⟨Or.inl rfl, fun _ => Or.inl⟩
      | exact ⟨Or.inl (Node.serve_pc _ _).1, fun _ h => Or.inl ((Node.serve_pc _ _).2.symm.trans h)⟩
      | exact ⟨Or.inl (Node.checkLeader_pc _).1, fun b h => absurd h ((Node.checkLeader_pc _).2 b)⟩
      | (refine ⟨Or.inl (Node.build_pc _ _ _).1, fun b h => ?_⟩
         obtain ⟨b₀, hb₀, heq⟩ := (Node.build_pc _ _ _).2 b h
         exact Or.inr ⟨_, _, b₀, rfl, hb₀, heq⟩)
      | exact ⟨Or.inl rfl, fun _ => nofun⟩
      | exact ⟨Or.inr rfl, fun _ => nofun⟩

lemma Call.fitting_of_call {x : Call} (h : NodeInv P n) (hx : a.call n = some x) :
    x.Fitting n.cs := by
  rcases NodeAction.call_cases hx with ⟨env, m, b, -, rfl⟩ | ⟨env, m, v, -, rfl⟩ |
    ⟨env, junk, b, -, hpc, rfl⟩ | ⟨env, -, -, rfl⟩ | ⟨env, -, -, rfl⟩
  · exact trivial
  · exact trivial
  · exact h.built b hpc
  · exact trivial
  · exact trivial

/-- **An action keeps the invariant.** -/
theorem NodeInv.step (hP : P.MallocBounded) (h : NodeInv P n) : NodeInv P (n.exec P a) := by
  obtain ⟨new, -, -, hgrown⟩ := n.exec_lockStep hP a
  refine ⟨?_, fun b hb => ?_⟩
  · cases hcall : a.call n with
    | some x =>
      rw [(Node.exec_called hcall).1]
      exact h.table.run hP (Call.fitting_of_call h hcall)
    | none =>
      obtain ⟨d, msgs, hd, hcs, -⟩ := Node.exec_uncalled hP hcall
      rw [hcs]
      refine ⟨h.table.room.reseeded hd, fun i p hp => ?_⟩
      have hf := h.table.fits i p hp
      refine ⟨hf.hash_eq, hf.height_eq, ?_, ?_⟩
      · rw [hd.same.height_eq]
        exact hf.height_le
      · rw [hd.same.height_eq]
        exact hf.done
  · refine le_trans ?_ (Nat.succ_le_succ hgrown.height_le)
    rcases (n.exec_pc a).2 _ hb with hold | ⟨proof, cands, b₀, -, hb₀, rfl⟩
    · exact h.built b hold
    · obtain ⟨-, -, rfl⟩ := acChainBuildBlock_some hP hb₀
      show ((acChainBuildBlock P n.cs.chain n.slot n.cs.kp cands).2.height + 1).toNat ≤ _
      rw [(acChainBuildBlock_reseeded hP _ _ _ _).same.height_eq, h.table.room.succ_toNat]

/-- A node that has just started. -/
lemma NodeInv.initial (hP : P.MallocBounded) {g : Genesis} {es : List NodeEvent} {c : Chain}
    (hc : NodeReachable P g es c) (kp : Keypair) (validator : Bool) (slot : UInt64) :
    NodeInv P (Node.initial c kp validator slot) :=
  ⟨⟨hc.heightRoom hP, fun _ _ hp => by cases hp⟩, fun _ hb => by cases hb⟩

lemma NodeRun.nodeInv (hP : P.MallocBounded) {C : Node → NodeAction → Prop} {n' : Node}
    {as : List NodeAction} (h : NodeRun P C n as n') (hinv : NodeInv P n) : NodeInv P n' :=
  h.invariant hinv fun _ _ hm _ => hm.step hP

/-- A proposal stays in its place unless it is evicted. -/
lemma Node.exec_kin (hP : P.MallocBounded) {i : Fin 8} {p : Pending} (hp : n.cs.pending i = some p)
    (hkeep : (a.stashes P n).isSome = true → pendingAlloc n.cs.pending ≠ i) :
    ∃ q, (n.exec P a).cs.pending i = some q ∧ p.Kin q := by
  cases hcall : a.call n with
  | some x =>
    rw [(Node.exec_called hcall).1]
    obtain ⟨cs₁, msgs₁, msgs₂, hentry, hsettle, -⟩ := x.run_effect (P := P) x.meets_true n.cs
    obtain ⟨p₁, hp₁, hkin₁⟩ : ∃ p₁, cs₁.pending i = some p₁ ∧ p.Kin p₁ := by
      rcases hentry.table with hsame | ⟨q, hq, htable⟩
      · obtain ⟨p₁, hp₁, hkin, -⟩ := exists_later (hsame i) hp
        exact ⟨p₁, hp₁, hkin⟩
      · have hne := hkeep (by rw [NodeAction.stashes, hcall, Option.bind_some, hq]; rfl)
        exact ⟨p, by rw [htable, Function.update_of_ne hne.symm, hp], .refl p⟩
    obtain ⟨q, hq, hsettled⟩ := exists_later (settled_table hP hsettle i) hp₁
    exact ⟨q, hq, hkin₁.trans hsettled.kin⟩
  | none =>
    obtain ⟨d, msgs, -, hcs, -⟩ := Node.exec_uncalled hP hcall
    rw [hcs]
    exact ⟨p, hp, .refl p⟩

/-- Every entry was in the table before, or was just put there. -/
lemma Node.exec_origin (hP : P.MallocBounded) {i : Fin 8} {q : Pending}
    (hq : (n.exec P a).cs.pending i = some q) :
    ∃ p, p.Kin q ∧ (n.cs.pending i = some p ∨ a.stashes P n = some p) := by
  cases hcall : a.call n with
  | some x =>
    rw [(Node.exec_called hcall).1] at hq
    obtain ⟨cs₁, msgs₁, msgs₂, hentry, hsettle, -⟩ := x.run_effect (P := P) x.meets_true n.cs
    obtain ⟨p₁, hp₁, hsettled⟩ := exists_earlier (settled_table hP hsettle i) hq
    rcases hentry.table with hsame | ⟨p, hp, htable⟩
    · obtain ⟨p, hp, hkin, -⟩ := exists_earlier (hsame i) hp₁
      exact ⟨p, hkin.trans hsettled.kin, Or.inl hp⟩
    · rw [htable, Function.update_apply] at hp₁
      split_ifs at hp₁
      · obtain rfl := Option.some.inj hp₁
        refine ⟨p, hsettled.kin, Or.inr ?_⟩
        rw [NodeAction.stashes, hcall, Option.bind_some, hp]
      · exact ⟨p₁, hsettled.kin, Or.inl hp₁⟩
  | none =>
    obtain ⟨d, msgs, -, hcs, -⟩ := Node.exec_uncalled hP hcall
    rw [hcs] at hq
    exact ⟨q, .refl q, Or.inl hq⟩

end Nodes

end AgentChain
