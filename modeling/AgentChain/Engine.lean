import AgentChain.Consensus
import AgentChain.Lib.FirstMin
import AgentChain.Lib.Trace

/-!
# What a call of the engine can do

Every function of the engine first makes one change that depends on what it was called for,
and then tries to seal an entry.  `Entry` lists the changes of the first kind, `Settle` those
of the second, and the results of this file say that each function is an entry followed by
settling.  Everything about runs of the engine is proved from these two relations.
-/

namespace AgentChain

open Trace

/-- A call of the engine under its lock, with what was received or is to be done. -/
inductive Call where
  | block (env : Env) (b : Block)
  | vote (env : Env) (v : Vote)
  | propose (env : Env) (junk : VrfOut) (slot : UInt64) (b : Block)
  | votePhase (env : Env) (slot : UInt64)
  | sealPhase (env : Fin 8 → Env) (slot : UInt64)

/-- Run a call. -/
def Call.run (P : Platform) (cs : Consensus) : Call → Consensus × List Msg
  | .block env b => handleBlock P env cs b
  | .vote env v => handleVote P env cs v
  | .propose env junk slot b => proposeBlock P env junk cs slot b
  | .votePhase env slot => AgentChain.votePhase P env cs slot
  | .sealPhase env slot => AgentChain.sealPhase P env cs slot

/-- The surroundings that a call meets. -/
def Call.Meets (E : Env → Prop) : Call → Prop
  | .block env _ => E env
  | .vote env _ => E env
  | .propose env _ _ _ => E env
  | .votePhase env _ => E env
  | .sealPhase env _ => ∀ i, E (env i)

/-- The record with another lock of the vote. -/
def Consensus.lockOn (cs : Consensus) (target : UInt64) (p : Pending) : Consensus :=
  { cs with voteHeight := target, voteBlock := p.blockHash, votePriority := p.priority }

/-- The entry of a received block, when `ac_consensus_handle_block` puts it into the table. -/
def receivedEntry (P : Platform) (env : Env) (cs : Consensus) (b : Block) : Option Pending :=
  if b.header.version ≠ acBlockVersion then none
  else if (pendingFind cs.pending (acBlockHash P b.header)).isSome then none
  else if b.header.height ≠ cs.chain.height + 1 ∨ b.header.parentHash ≠ cs.chain.tipHash then none
  else
    let seed := (acChainEpochSeed P cs.chain (acEpochOf b.header.slot)).1
    (acVrfVerify P b.header.proposerVrfProof (leaderAlpha seed b.header.slot)
      b.header.proposer).map fun beta =>
        Pending.fresh P env.seenMs b.header.slot b
          (computePriority P beta
            (acIsqrtU64 (acStateGet cs.chain.state b.header.proposer).2.stake))

/-- The entry of the block of the node itself. -/
def proposedEntry (P : Platform) (env : Env) (junk : VrfOut) (cs : Consensus) (slot : UInt64)
    (b : Block) : Pending :=
  let seed := (acChainEpochSeed P cs.chain (acEpochOf slot)).1
  let beta := (acVrfVerify P b.header.proposerVrfProof (leaderAlpha seed slot) cs.kp.pk).getD junk
  Pending.fresh P env.seenMs slot b
    (computePriority P beta (acIsqrtU64 (acStateGet cs.chain.state cs.kp.pk).2.stake))

/-- The entry that a call puts into the table. -/
def Call.stashes (P : Platform) (cs : Consensus) : Call → Option Pending
  | .block env b => receivedEntry P env cs b
  | .propose env junk slot b => some (proposedEntry P env junk cs slot b)
  | _ => none

/-- What is broadcast with it. -/
def Call.announces : Call → List Msg
  | .propose _ _ _ b => [.blockAnn (blockBytes b)]
  | _ => []

/-- The first change of a call. -/
inductive Entry (P : Platform) : Call → Consensus → List Msg → Consensus → Prop
  /-- Nothing but the seed cache, the votes by slot and the rate of requests. -/
  | idle (x : Call) (cs : Consensus) (d : Chain) (sv : SlotVotes) (ms target : UInt64)
      (msgs : List Msg) (hd : cs.chain.Reseeded P d)
      (hmsgs : ∀ m ∈ msgs, ∃ buf, m = .headersReq buf) :
      Entry P x cs msgs { cs with
        chain := d
        slotVotes := sv
        lastHdrsReqMs := ms
        lastHdrsReqTarget := target }
  /-- The signers of a known block are added. -/
  | merged (env : Env) (b : Block) (cs : Consensus) (i : Fin 8) (p : Pending)
      (hp : cs.pending i = some p) (hhash : p.blockHash = acBlockHash P b.header) :
      Entry P (.block env b) cs [] (cs.put i (b.signers.foldl Pending.addSigner p))
  /-- A proposal is put into the table, in the place of the entry that `pending_alloc` evicts. -/
  | stashed (x : Call) (cs : Consensus) (d : Chain) (sv : SlotVotes) (p : Pending)
      (hd : cs.chain.Reseeded P d) (hp : x.stashes P cs = some p) :
      Entry P x cs x.announces
        ({ cs with chain := d, slotVotes := sv }.put (pendingAlloc cs.pending) p)
  /-- The vote of somebody else is added. -/
  | collected (env : Env) (v : Vote) (cs : Consensus) (d : Chain) (i : Fin 8) (p : Pending)
      (hd : cs.chain.Reseeded P d) (hp : cs.pending i = some p)
      (hhash : p.blockHash = v.blockHash)
      (hsig : acVerify P v.sig (acVoteMessage v.height v.blockHash) v.signer = true) :
      Entry P (.vote env v) cs []
        ({ cs with chain := d }.put i (p.addSigner ⟨v.signer, v.sig, v.vrfProof⟩))
  /-- The vote of the node is repeated. -/
  | reaffirmed (env : Env) (slot : UInt64) (cs : Consensus) (sv : SlotVotes) (i : Fin 8)
      (p : Pending) (hvalidator : cs.validator = true) (hp : cs.pending i = some p)
      (hvotable : p.votable (cs.chain.height + 1) = true)
      (hheight : cs.voteHeight = cs.chain.height + 1) (hhash : p.blockHash = cs.voteBlock) :
      Entry P (.votePhase env slot) cs (ourVoteNow P { cs with slotVotes := sv } i p).2
        (ourVoteNow P { cs with slotVotes := sv } i p).1
  /-- The node votes at a new height, or moves its vote to a block of lower priority. -/
  | voted (env : Env) (slot : UInt64) (cs : Consensus) (sv : SlotVotes) (i : Fin 8)
      (p : Pending) (hvalidator : cs.validator = true)
      (hbest : bestAt cs.pending (cs.chain.height + 1) = some (i, p))
      (hmove : cs.voteHeight = cs.chain.height + 1 →
        priorityCmp p.priority cs.votePriority = .lt) :
      Entry P (.votePhase env slot) cs (ourVoteNow P { cs with slotVotes := sv } i p).2
        ((ourVoteNow P { cs with slotVotes := sv } i p).1.lockOn (cs.chain.height + 1) p)

/-- An attempt to seal an entry, in surroundings that satisfy `E`. -/
inductive Settle (P : Platform) (E : Env → Prop) : Consensus → List Msg → Consensus → Prop
  /-- The first time at which the threshold is met is noted. -/
  | timed (cs : Consensus) (i : Fin 8) (p : Pending) (ms : UInt64) (hp : cs.pending i = some p) :
      Settle P E cs [] (cs.put i { p with thresholdReachedMs := ms })
  /-- The block has enough votes and is handed to the chain. -/
  | offered (env : Env) (cs : Consensus) (i : Fin 8) (p : Pending) (ms : UInt64) (henv : E env)
      (hp : cs.pending i = some p) (hopen : p.committed = false)
      (hvotes : enoughVotes cs.chain p.signers = true) :
      Settle P E cs (sealBlock P env cs i { p with thresholdReachedMs := ms }).2
        (sealBlock P env cs i { p with thresholdReachedMs := ms }).1

/-- An entry, then settling. -/
def Effect (P : Platform) (E : Env → Prop) (x : Call) (cs : Consensus) (msgs : List Msg)
    (cs' : Consensus) : Prop :=
  ∃ cs₁ msgs₁ msgs₂, Entry P x cs msgs₁ cs₁ ∧ Run (Settle P E) cs₁ msgs₂ cs' ∧
    msgs = msgs₁ ++ msgs₂

/-! ### The choice of `vote_phase` -/

/-- The entries that `vote_phase` chooses from, in the order of the table. -/
def votables (t : PendingTable) (target : UInt64) : List (Fin 8 × Pending) :=
  entryIdx.filterMap fun i =>
    match t i with
    | none => none
    | some p => if p.votable target then some (i, p) else none

/-- Entries are compared by their priority. -/
def entryCmp (a b : Fin 8 × Pending) : Ordering := priorityCmp a.2.priority b.2.priority

instance : Std.TransCmp entryCmp where
  eq_swap {_ _} := @Std.OrientedCmp.eq_swap _ priorityCmp _ _ _
  isLE_trans h₁ h₂ := @Std.TransCmp.isLE_trans _ priorityCmp _ _ _ _ h₁ h₂

lemma mem_votables {t : PendingTable} {target : UInt64} {i : Fin 8} {p : Pending} :
    (i, p) ∈ votables t target ↔ t i = some p ∧ p.votable target = true := by
  rw [votables, List.mem_filterMap]
  constructor
  · rintro ⟨j, -, hj⟩
    split at hj
    · exact absurd hj (by simp)
    · rename_i q hq
      split_ifs at hj with hv
      simp only [Option.some.injEq, Prod.mk.injEq] at hj
      obtain ⟨rfl, rfl⟩ := hj
      exact ⟨hq, hv⟩
  · rintro ⟨hp, hv⟩
    refine ⟨i, List.mem_finRange i, ?_⟩
    rw [hp]
    exact if_pos hv

/-- The loop of `vote_phase` returns the first entry of the lowest priority. -/
lemma bestAt_eq_firstMin (t : PendingTable) (target : UInt64) :
    bestAt t target = firstMin entryCmp (votables t target) := by
  rw [bestAt, firstMin, votables, List.foldl_filterMap]
  congr 1
  funext best i
  cases t i with
  | none => rfl
  | some p =>
    dsimp only
    cases p.votable target with
    | false => rfl
    | true =>
      cases best with
      | none => rfl
      | some b => rfl

lemma bestAt_some {t : PendingTable} {target : UInt64} {i : Fin 8} {p : Pending}
    (h : bestAt t target = some (i, p)) : t i = some p ∧ p.votable target = true := by
  rw [bestAt_eq_firstMin] at h
  exact mem_votables.mp (firstMin_mem h)

/-- No entry that may be voted for is below the chosen one. -/
lemma bestAt_le {t : PendingTable} {target : UInt64} {i j : Fin 8} {p q : Pending}
    (h : bestAt t target = some (i, p)) (hq : t j = some q) (hv : q.votable target = true) :
    priorityCmp q.priority p.priority ≠ .lt := by
  rw [bestAt_eq_firstMin] at h
  have hle := firstMin_le h (mem_votables.mpr ⟨hq, hv⟩)
  exact hle

lemma Pending.votable_iff {p : Pending} {target : UInt64} :
    p.votable target = true ↔ p.committed = false ∧ p.height = target := by
  rw [Pending.votable, Bool.and_eq_true, beq_iff_eq, Bool.not_eq_true']

section Inversion

variable {P : Platform} {E : Env → Prop} {env : Env} {cs : Consensus}

lemma amILeader_reseeded (c : Chain) (kp : Keypair) (slot : UInt64) :
    c.Reseeded P (amILeader P c kp slot).2 := by
  have hseed := acChainEpochSeed_reseeded (P := P) c (acEpochOf slot)
  rw [amILeader]
  dsimp only
  split_ifs
  · exact .refl c
  · exact hseed
  · exact hseed
  · exact hseed

lemma amICommittee_reseeded (c : Chain) (kp : Keypair) (slot : UInt64) :
    c.Reseeded P (amICommittee P c kp slot).2 := by
  have hseed := acChainEpochSeed_reseeded (P := P) c (acEpochOf slot)
  rw [amICommittee]
  dsimp only
  split_ifs
  · exact .refl c
  · exact hseed
  · exact hseed

/-! ### Sealing -/

/-- `try_commit_inner` waits, notes the time or hands the block to the chain. -/
lemma tryCommitInner_settle (henv : E env) (cs : Consensus) (i : Fin 8) (force : Bool) :
    Run (Settle P E) cs (tryCommitInner P env cs i force).2
      (tryCommitInner P env cs i force).1 := by
  rw [tryCommitInner]
  cases hp : cs.pending i with
  | none => exact .refl cs
  | some p =>
    dsimp only
    have htime : ∃ ms, (if p.thresholdReachedMs = 0 then
        { p with thresholdReachedMs := env.sealMs } else p) =
        { p with thresholdReachedMs := ms } := by
      split_ifs
      · exact ⟨_, rfl⟩
      · exact ⟨p.thresholdReachedMs, rfl⟩
    obtain ⟨ms, hms⟩ := htime
    rw [hms]
    split_ifs with hcommitted hvotes hgrace
    · exact .refl cs
    · exact .refl cs
    · exact .single (.timed cs i p ms hp)
    · exact .single (.offered env cs i p ms henv hp (by simpa using hcommitted)
        (by simpa using hvotes))

lemma tryCommit_settle (henv : E env) (cs : Consensus) (i : Fin 8) :
    Run (Settle P E) cs (tryCommit P env cs i).2 (tryCommit P env cs i).1 :=
  tryCommitInner_settle henv cs i false

/-- `seal_phase` settles entry by entry. -/
lemma sealPhase_settle {envs : Fin 8 → Env} (henv : ∀ i, E (envs i)) (cs : Consensus)
    (slot : UInt64) :
    Run (Settle P E) cs (sealPhase P envs cs slot).2 (sealPhase P envs cs slot).1 := by
  have hloop : ∀ (l : List (Fin 8)) (r : Consensus × List Msg), Run (Settle P E) cs r.2 r.1 →
      Run (Settle P E) cs (l.foldl (sealStep P envs slot) r).2
        (l.foldl (sealStep P envs slot) r).1 := by
    intro l
    induction l with
    | nil => exact fun r hr => hr
    | cons i l ih =>
      intro r hr
      refine ih _ ?_
      rw [sealStep]
      split
      · exact hr
      · split_ifs
        · exact hr
        · exact hr.trans (tryCommitInner_settle (henv i) r.1 i true)
  exact hloop entryIdx (cs, []) (.refl cs)

/-! ### The calls -/

/-- An entry without settling. -/
lemma Entry.effect {x : Call} {msgs : List Msg} {cs' : Consensus} (h : Entry P x cs msgs cs') :
    Effect P E x cs msgs cs' :=
  ⟨cs', msgs, [], h, .refl cs', (List.append_nil msgs).symm⟩

/-- An entry and a call of `try_commit`. -/
lemma Entry.thenCommit {x : Call} {msgs : List Msg} {cs₁ : Consensus} (h : Entry P x cs msgs cs₁)
    (henv : E env) (i : Fin 8) :
    Effect P E x cs (msgs ++ (tryCommit P env cs₁ i).2) (tryCommit P env cs₁ i).1 :=
  ⟨cs₁, msgs, _, h, tryCommit_settle henv cs₁ i, rfl⟩

/-- A call that changes at most the seed cache. -/
lemma effect_reseeded {x : Call} {d : Chain} (hd : cs.chain.Reseeded P d) :
    Effect P E x cs [] { cs with chain := d } :=
  (Entry.idle x cs d cs.slotVotes cs.lastHdrsReqMs cs.lastHdrsReqTarget [] hd (by simp)).effect

lemma requestGap_effect (env : Env) (b : Block) (target : UInt64) :
    Effect P E (.block env b) cs (requestGap env cs target).2 (requestGap env cs target).1 := by
  rw [requestGap]
  dsimp only
  split_ifs
  · refine (Entry.idle _ cs cs.chain cs.slotVotes env.seenMs target _ (.refl _) ?_).effect
    intro m hm
    exact ⟨_, List.mem_singleton.mp hm⟩
  · refine (Entry.idle _ cs cs.chain cs.slotVotes env.seenMs target _ (.refl _) ?_).effect
    intro m hm
    exact ⟨_, List.mem_singleton.mp hm⟩
  · exact effect_reseeded (.refl _)

/-- `ac_consensus_handle_block` -/
lemma handleBlock_effect (henv : E env) (cs : Consensus) (b : Block) :
    Effect P E (.block env b) cs (handleBlock P env cs b).2 (handleBlock P env cs b).1 := by
  rw [handleBlock]
  by_cases hversion : b.header.version = acBlockVersion
  · rw [if_neg (not_not.mpr hversion)]
    cases hfind : pendingFind cs.pending (acBlockHash P b.header) with
    | some r =>
      obtain ⟨i, p⟩ := r
      obtain ⟨hp, hhash⟩ := PendingTable.first_some hfind
      exact (Entry.merged env b cs i p hp (by simpa using hhash)).thenCommit henv i
    | none =>
      dsimp only
      split_ifs with hfuture hlink
      · exact requestGap_effect env b _
      · exact effect_reseeded (.refl _)
      · have hseed := acChainEpochSeed_reseeded (P := P) cs.chain (acEpochOf b.header.slot)
        cases hvrf : acVrfVerify P b.header.proposerVrfProof
            (leaderAlpha (acChainEpochSeed P cs.chain (acEpochOf b.header.slot)).1 b.header.slot)
            b.header.proposer with
        | none => exact effect_reseeded hseed
        | some beta =>
          have hstake := congrArg (fun s => (acStateGet s b.header.proposer).2.stake)
            hseed.same.state_eq
          have hentry : (Call.block env b).stashes P cs = some (Pending.fresh P env.seenMs
              b.header.slot b (computePriority P beta (acIsqrtU64 (acStateGet
                (acChainEpochSeed P cs.chain (acEpochOf b.header.slot)).2.state
                b.header.proposer).2.stake))) := by
            rw [Call.stashes, receivedEntry, if_neg (not_not.mpr hversion), hfind, if_neg (by simp),
              if_neg hlink]
            dsimp only at hstake ⊢
            rw [hvrf, Option.map_some, hstake]
          exact (Entry.stashed (.block env b) cs _ _ _ hseed hentry).thenCommit henv _
  · rw [if_pos hversion]
    exact effect_reseeded (.refl _)

/-- `ac_consensus_handle_vote` -/
lemma handleVote_effect (henv : E env) (cs : Consensus) (v : Vote) :
    Effect P E (.vote env v) cs (handleVote P env cs v).2 (handleVote P env cs v).1 := by
  rw [handleVote]
  cases hsig : acVerify P v.sig (acVoteMessage v.height v.blockHash) v.signer with
  | false => exact effect_reseeded (.refl _)
  | true =>
    rw [if_neg (by simp)]
    cases hfind : pendingFind cs.pending v.blockHash with
    | none => exact effect_reseeded (.refl _)
    | some r =>
      obtain ⟨i, p⟩ := r
      obtain ⟨hp, hhash⟩ := PendingTable.first_some hfind
      have hseed := acChainEpochSeed_reseeded (P := P) cs.chain (acEpochOf p.slot)
      dsimp only
      cases acVrfVerify P v.vrfProof
          (committeeAlpha (acChainEpochSeed P cs.chain (acEpochOf p.slot)).1 p.slot) v.signer with
      | none =>
        dsimp only
        split_ifs
        · exact effect_reseeded hseed
        · exact effect_reseeded hseed
      | some beta =>
        dsimp only
        split_ifs
        · exact effect_reseeded hseed
        · exact effect_reseeded hseed
        · exact effect_reseeded hseed
        · exact (Entry.collected env v cs _ i p hseed hp (by simpa using hhash) hsig).thenCommit
            henv i

/-- The stashing part of `slot_routine`. -/
lemma proposeBlock_effect (henv : E env) (junk : VrfOut) (cs : Consensus) (slot : UInt64)
    (b : Block) :
    Effect P E (.propose env junk slot b) cs (proposeBlock P env junk cs slot b).2
      (proposeBlock P env junk cs slot b).1 :=
  (Entry.stashed (.propose env junk slot b) cs _ _ _
    (acChainEpochSeed_reseeded cs.chain (acEpochOf slot)) rfl).thenCommit henv _

/-- `vote_phase` -/
lemma votePhase_effect (henv : E env) (cs : Consensus) (slot : UInt64) :
    Effect P E (.votePhase env slot) cs (votePhase P env cs slot).2
      (votePhase P env cs slot).1 := by
  have hsv : Effect P E (.votePhase env slot) cs []
      { cs with slotVotes := (slotVoteFor cs.slotVotes slot).2 } :=
    (Entry.idle _ cs cs.chain _ cs.lastHdrsReqMs cs.lastHdrsReqTarget [] (.refl _) (by simp)).effect
  rw [votePhase]
  by_cases hval : cs.validator = true
  · rw [if_neg (by simp [hval])]
    dsimp only
    cases hbest : bestAt cs.pending (cs.chain.height + 1) with
    | none =>
      dsimp only
      rw [ite_self]
      exact hsv
    | some r =>
      obtain ⟨i, best⟩ := r
      dsimp only
      split_ifs with hvoted hlock
      · exact hsv
      · -- the vote stays where it is
        cases hfirst : cs.pending.first fun q =>
            q.votable (cs.chain.height + 1) && q.blockHash == cs.voteBlock with
        | none => exact hsv
        | some r =>
          obtain ⟨j, q⟩ := r
          obtain ⟨hq, hcond⟩ := PendingTable.first_some hfirst
          rw [Bool.and_eq_true, beq_iff_eq] at hcond
          exact (Entry.reaffirmed env slot cs _ j q hval hq hcond.1 hlock.1 hcond.2).thenCommit
            henv j
      · refine (Entry.voted env slot cs _ i best hval hbest fun hheight => ?_).thenCommit henv i
        by_contra hne
        exact hlock ⟨hheight, hne⟩
  · rw [if_pos (by simp [hval])]
    exact effect_reseeded (.refl _)

/-- **Every call is an entry followed by settling.** -/
theorem Call.run_effect {x : Call} (hx : x.Meets E) (cs : Consensus) :
    Effect P E x cs (x.run P cs).2 (x.run P cs).1 := by
  cases x with
  | block env b => exact handleBlock_effect hx cs b
  | vote env v => exact handleVote_effect hx cs v
  | propose env junk slot b => exact proposeBlock_effect hx junk cs slot b
  | votePhase env slot => exact votePhase_effect hx cs slot
  | sealPhase env slot =>
    refine ⟨cs, [], _, ?_, sealPhase_settle hx cs slot, rfl⟩
    exact Entry.idle _ cs cs.chain cs.slotVotes cs.lastHdrsReqMs cs.lastHdrsReqTarget [] (.refl _)
      (by simp)

end Inversion

end AgentChain
