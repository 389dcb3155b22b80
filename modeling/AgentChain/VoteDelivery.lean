import Mathlib.Data.List.TakeWhile
import AgentChain.Backing
import AgentChain.Gossip
import AgentChain.Selection

/-!
# A proposal and its votes

A proposal and the votes for it reach a node through `dispatch_message`, each message any
number of times and in any order.  A vote that comes in before the proposal finds no entry and
is dropped, and its hash is remembered all the same, so that no later copy of it is handled.
What ends up on the entry are the signers that the proposal brings and those whose votes came in
behind it, as far as there is room (`Handled.after`), so that the order of arrival shows in the
signers (`same_signers_iff`).
-/

namespace AgentChain

open Trace

/-! ### The entry of a block -/

/-- The block has exactly one entry, with the given signers. -/
def RecordedAs (P : Platform) (b : Block) (signers : List CommitSigner) (t : PendingTable) : Prop :=
  ∃ i p, t i = some p ∧ p.blockHash = acBlockHash P b.header ∧ p.slot = b.header.slot ∧
    p.signers = signers ∧
    ∀ j q, t j = some q → q.blockHash = acBlockHash P b.header → j = i

/-- The block has no entry. -/
def Unrecorded (P : Platform) (b : Block) (t : PendingTable) : Prop :=
  ∀ i p, t i = some p → p.blockHash ≠ acBlockHash P b.header

section Entries

variable {P : Platform} {b : Block} {signers : List CommitSigner} {t t' : PendingTable}
  {height : ℕ}

lemma Unrecorded.find (h : Unrecorded P b t) : pendingFind t (acBlockHash P b.header) = none := by
  cases hfind : pendingFind t (acBlockHash P b.header) with
  | none => rfl
  | some r =>
    obtain ⟨hp, hhash⟩ := PendingTable.first_some (i := r.1) (p := r.2) hfind
    exact absurd (of_decide_eq_true hhash) (h r.1 r.2 hp)

lemma RecordedAs.find (h : RecordedAs P b signers t) :
    ∃ i p, pendingFind t (acBlockHash P b.header) = some (i, p) ∧ t i = some p ∧
      p.blockHash = acBlockHash P b.header ∧ p.slot = b.header.slot ∧ p.signers = signers ∧
      ∀ j q, t j = some q → q.blockHash = acBlockHash P b.header → j = i := by
  obtain ⟨i, p, hp, hhash, hslot, hsigners, huniq⟩ := h
  cases hfind : pendingFind t (acBlockHash P b.header) with
  | none =>
    have hnone := List.findSome?_eq_none_iff.mp hfind i (List.mem_finRange i)
    rw [hp] at hnone
    exact absurd hnone (by simp [hhash])
  | some r =>
    obtain ⟨j, q⟩ := r
    obtain ⟨hq, hqhash⟩ := PendingTable.first_some hfind
    obtain rfl := huniq j q hq (of_decide_eq_true hqhash)
    obtain rfl := Option.some.inj (hp.symm.trans hq)
    exact ⟨j, p, rfl, hp, hhash, hslot, hsigners, huniq⟩

/-- Attempts to seal leave the signers alone. -/
lemma RecordedAs.settled (h : RecordedAs P b signers t) (hrel : SettledEntries height t t') :
    RecordedAs P b signers t' := by
  obtain ⟨i, p, hp, hhash, hslot, hsigners, huniq⟩ := h
  obtain ⟨q, hq, hpq⟩ := exists_later (hrel i) hp
  refine ⟨i, q, hq, hpq.kin.hash_eq.trans hhash, hpq.kin.slot_eq.trans hslot,
    hpq.signers_eq.trans hsigners, fun j r hr hrhash => ?_⟩
  obtain ⟨r₀, hr₀, hrr⟩ := exists_earlier (hrel j) hr
  exact huniq j r₀ hr₀ (hrr.kin.hash_eq.symm.trans hrhash)

/-- The entry is written with other signers. -/
lemma RecordedAs.update {i : Fin 8} {p q : Pending}
    (hhash : p.blockHash = acBlockHash P b.header) (hslot : p.slot = b.header.slot)
    (huniq : ∀ j q, t j = some q → q.blockHash = acBlockHash P b.header → j = i)
    (hkin : p.Kin q) : RecordedAs P b q.signers (Function.update t i (some q)) := by
  refine ⟨i, q, Function.update_self _ _ _, hkin.hash_eq.trans hhash, hkin.slot_eq.trans hslot, rfl,
    fun j r hr hrhash => ?_⟩
  rw [Function.update_apply] at hr
  split_ifs at hr with hj
  · exact hj
  · exact huniq j r hr hrhash

/-- The entry is new. -/
lemma Unrecorded.stash (h : Unrecorded P b t) (i : Fin 8) (seen slot : UInt64)
    (priority : Priority) (hslot : slot = b.header.slot) :
    RecordedAs P b b.signers
      (Function.update t i (some (Pending.fresh P seen slot b priority))) := by
  refine ⟨i, _, Function.update_self _ _ _, rfl, hslot, rfl, fun j r hr hrhash => ?_⟩
  rw [Function.update_apply] at hr
  split_ifs at hr with hj
  · exact hj
  · exact absurd hrhash (h j r hr)

end Entries

/-! ### Signers -/

/-- Whether a signer is not in a list yet. -/
def unlisted (signers : List CommitSigner) (g : CommitSigner) : Bool :=
  !signers.any fun s => s.signer = g.signer

lemma unlisted_iff {signers : List CommitSigner} {g : CommitSigner} :
    unlisted signers g = true ↔ g.signer ∉ signers.map CommitSigner.signer := by
  simp [unlisted]

/-- The first entry of every address. -/
def firstOfEach : List CommitSigner → List CommitSigner
  | [] => []
  | g :: gs => g :: (firstOfEach gs).filter fun x => x.signer ≠ g.signer

lemma firstOfEach_of_nodup {gs : List CommitSigner} (h : (gs.map CommitSigner.signer).Nodup) :
    firstOfEach gs = gs := by
  induction gs with
  | nil => rfl
  | cons g gs ih =>
    rw [List.map_cons, List.nodup_cons] at h
    rw [firstOfEach, ih h.2, List.filter_eq_self.mpr fun x hx => ?_]
    have hne : x.signer ≠ g.signer := fun heq => h.1 (heq ▸ List.mem_map_of_mem hx)
    simpa using hne

/-- The entries of a certificate that go into a list of signers: the first one of every address
that is not listed, as far as there is room. -/
def newSigners (signers gs : List CommitSigner) : List CommitSigner :=
  ((firstOfEach gs).filter (unlisted signers)).take (acCommitteeMax - signers.length)

/-- Signers are added one after the other. -/
theorem foldl_addSigner (gs signers : List CommitSigner) :
    gs.foldl addSigner signers = signers ++ newSigners signers gs := by
  induction gs generalizing signers with
  | nil => simp [newSigners, firstOfEach]
  | cons g gs ih =>
    have hskip : ∀ x : CommitSigner, unlisted (signers ++ [g]) x =
        (unlisted signers x && decide (x.signer ≠ g.signer)) := by
      intro x
      simp [unlisted, eq_comm]
    have hnew : newSigners signers (g :: gs) =
        ((g :: (firstOfEach gs).filter fun x => x.signer ≠ g.signer).filter (unlisted signers)).take
          (acCommitteeMax - signers.length) := rfl
    rw [List.foldl_cons, ih, hnew, addSigner]
    cases hlisted : unlisted signers g with
    | false =>
      have hany : (signers.any fun s => s.signer = g.signer) = true := by
        rwa [unlisted, Bool.not_eq_false'] at hlisted
      rw [if_pos hany, List.filter_cons_of_neg (by rw [hlisted]; decide), newSigners,
        List.filter_filter]
      -- what the new entry would displace is listed as well
      congr 2
      refine List.filter_congr fun x _ => ?_
      by_cases heq : x.signer = g.signer
      · have hx : unlisted signers x = false := by rw [← hlisted, unlisted, unlisted, heq]
        simp [hx]
      · simp [heq]
    | true =>
      have hany : (signers.any fun s => s.signer = g.signer) = false := by
        rwa [unlisted, Bool.not_eq_true'] at hlisted
      rw [if_neg (by rw [hany]; decide), List.filter_cons_of_pos hlisted, List.filter_filter]
      split_ifs with hroom
      · rw [newSigners, List.append_assoc, List.length_append, List.length_singleton,
          show acCommitteeMax - signers.length = acCommitteeMax - (signers.length + 1) + 1 by omega,
          List.filter_congr fun x _ => hskip x]
        rfl
      · rw [newSigners, show acCommitteeMax - signers.length = 0 by omega]
        rfl

/-! ### Votes -/

/-- What `ac_consensus_handle_vote` checks of a vote for a block on top of the chain, with the
seed that it reads for the epoch of the block. -/
structure VoteChecked (P : Platform) (c : Chain) (seed : Hash) (b : Block) (v : Vote) : Prop where
  hash_eq : v.blockHash = acBlockHash P b.header
  signed : acVerify P v.sig (acVoteMessage v.height v.blockHash) v.signer = true
  bonded : ¬ (acStateGet c.state v.signer).2.stake < acMinStakeUcrd
  elected : ∃ beta, acVrfVerify P v.vrfProof (committeeAlpha seed b.header.slot) v.signer =
      some beta ∧
    committeeEligible P (acRd64 beta.bytes) (acIsqrtU64 (acStateGet c.state v.signer).2.stake)
      (acChainTotalSqrtStake c) = true

/-- A vote that it takes when the seed is the one of the stored blocks. -/
abbrev ValidVote (P : Platform) (c : Chain) (b : Block) (v : Vote) : Prop :=
  VoteChecked P c (computeEpochSeed P c (acEpochOf b.header.slot)) b v

section Votes

variable {P : Platform} {c : Chain} {b : Block} {cs : Consensus} {env : Env} {v : Vote}
  {signers : List CommitSigner}

/-- A vote for a block that is not known. -/
lemma handleVote_unknown (hv : ValidVote P c b v) (h : Unrecorded P b cs.pending) :
    handleVote P env cs v = (cs, []) := by
  rw [handleVote, if_neg (by rw [hv.signed]; decide), hv.hash_eq, h.find]

/-- A vote for a known block. -/
lemma handleVote_found (hview : c.SameView cs.chain) (hcache : cs.chain.CacheValid P)
    (hv : ValidVote P c b v) {i : Fin 8} {p : Pending}
    (hfind : pendingFind cs.pending (acBlockHash P b.header) = some (i, p))
    (hslot : p.slot = b.header.slot) :
    handleVote P env cs v =
      if p.signers.any fun s => s.signer = v.signer then
        ({ cs with chain := (acChainEpochSeed P cs.chain (acEpochOf b.header.slot)).2 }, [])
      else tryCommit P env (Consensus.put
        { cs with chain := (acChainEpochSeed P cs.chain (acEpochOf b.header.slot)).2 } i
        (p.addSigner v.asSigner)) i := by
  obtain ⟨beta, hvrf, hdraw⟩ := hv.elected
  have hseed := acChainEpochSeed_fst hcache (acEpochOf b.header.slot)
  have htotal : acChainTotalSqrtStake cs.chain = acChainTotalSqrtStake c := by
    rw [acChainTotalSqrtStake, acChainTotalSqrtStake, hview.state_eq]
  rw [handleVote, if_neg (by rw [hv.signed]; decide), hv.hash_eq, hfind]
  dsimp only
  rw [hslot, hview.state_eq, if_neg hv.bonded, hseed, hview.computeEpochSeed_eq, hvrf]
  dsimp only
  rw [htotal, if_neg (by rw [hdraw]; decide)]
  rfl

/-- A vote for a known block is added to its signers. -/
lemma handleVote_known (hP : P.MallocBounded) (hview : c.SameView cs.chain)
    (hcache : cs.chain.CacheValid P) (hv : ValidVote P c b v)
    (h : RecordedAs P b signers cs.pending) :
    RecordedAs P b (addSigner signers v.asSigner) (handleVote P env cs v).1.pending := by
  obtain ⟨i, p, hfind, hp, hhash, hslot, rfl, huniq⟩ := h.find
  rw [handleVote_found hview hcache hv hfind hslot]
  split_ifs with hlisted
  · have hsame : addSigner p.signers v.asSigner = p.signers := if_pos hlisted
    rw [hsame]
    exact h
  · refine RecordedAs.settled ?_ (tryCommit_table hP env _ i)
    exact RecordedAs.update (q := p.addSigner v.asSigner) hhash hslot huniq
      (p.extended_addSigner _).kin

end Votes

/-! ### Deliveries -/

/-- The announcement of a block and the votes for it. -/
def blockMessages (b : Block) (vs : List Vote) : List Frame := blockFrame b :: vs.map voteFrame

/-- The messages that came in, each at the place of its first copy, the last one first. -/
def arrivals (fs : List Frame) : List Frame := fs.reverse.dedup

/-- The votes that came in behind the announcement of a block. -/
def lateVotes (b : Block) (fs : List Frame) : List Vote :=
  (((arrivals fs).takeWhile (· ≠ blockFrame b)).filterMap fun f => voteDecode f.payload).reverse

/-- A proposal for the next height and valid votes of different validators for it: few messages,
and no two of them with the same hash. -/
structure Ballot (P : Platform) (c : Chain) (b : Block) (vs : List Vote) : Prop where
  proposal : Proposal P c b
  valid : ∀ v ∈ vs, ValidVote P c b v
  distinct : (vs.map Vote.signer).Nodup
  few : (blockMessages b vs).length < acDedupCap
  hash_inj : ∀ x ∈ blockMessages b vs, ∀ y ∈ blockMessages b vs,
    acHash P x.payload = acHash P y.payload → x = y

/-- A message is dispatched, and the tip does not move. -/
inductive Arrive (P : Platform) : Inbox → List Frame → Inbox → Prop
  | arrived (env : Env) (n : Inbox) (f : Frame)
      (hquiet : n.cs.chain.Reseeded P (dispatchMessage P env n f).1.cs.chain) :
      Arrive P n [f] (dispatchMessage P env n f).1

/-- A node that has none of the messages and does not know the block. -/
structure Unaware (P : Platform) (c : Chain) (b : Block) (vs : List Vote) (n : Inbox) : Prop where
  view : c.SameView n.cs.chain
  cache : n.cs.chain.CacheValid P
  unseen : ∀ f ∈ blockMessages b vs, n.dedup.has (acHash P f.payload) = false
  unrecorded : Unrecorded P b n.cs.pending

/-- The node when messages have come in. -/
structure Handled (P : Platform) (c : Chain) (b : Block) (vs : List Vote) (seen : List Frame)
    (n : Inbox) : Prop where
  view : c.SameView n.cs.chain
  cache : n.cs.chain.CacheValid P
  memory : n.dedup.Latest ((arrivals seen).map fun f => acHash P f.payload)
  known : ∀ f ∈ blockMessages b vs, n.dedup.has (acHash P f.payload) = true → f ∈ seen
  before : blockFrame b ∉ seen → Unrecorded P b n.cs.pending
  after : blockFrame b ∈ seen →
    RecordedAs P b (((lateVotes b seen).map Vote.asSigner).foldl addSigner b.signers) n.cs.pending

section Deliveries

variable {P : Platform} {c : Chain} {b : Block} {vs : List Vote} {seen : List Frame} {n n' : Inbox}
  {f : Frame}

lemma mem_arrivals {fs : List Frame} : f ∈ arrivals fs ↔ f ∈ fs := by
  rw [arrivals, List.mem_dedup, List.mem_reverse]

/-- A further copy. -/
lemma arrivals_again (hf : f ∈ seen) : arrivals (seen ++ [f]) = arrivals seen := by
  rw [arrivals, List.reverse_append, List.reverse_singleton, List.singleton_append,
    List.dedup_cons_of_mem (List.mem_reverse.mpr hf)]
  rfl

/-- A first copy. -/
lemma arrivals_new (hf : f ∉ seen) : arrivals (seen ++ [f]) = f :: arrivals seen := by
  rw [arrivals, List.reverse_append, List.reverse_singleton, List.singleton_append,
    List.dedup_cons_of_notMem (mt List.mem_reverse.mp hf)]
  rfl

lemma voteFrame_ne_blockFrame (v : Vote) : voteFrame v ≠ blockFrame b := by
  intro heq
  exact absurd (congrArg Frame.type heq) (by simp [voteFrame, blockFrame])

/-- The announcement comes in. -/
lemma lateVotes_blockFrame (hb : blockFrame b ∉ seen) :
    lateVotes b (seen ++ [blockFrame b]) = [] := by
  rw [lateVotes, arrivals_new hb, List.takeWhile_cons_of_neg (by simp)]
  rfl

/-- A vote comes in. -/
lemma lateVotes_voteFrame {v : Vote} (hv : voteFrame v ∉ seen) :
    lateVotes b (seen ++ [voteFrame v]) = lateVotes b seen ++ [v] := by
  rw [lateVotes, arrivals_new hv,
    List.takeWhile_cons_of_pos (by simp [voteFrame_ne_blockFrame]),
    List.filterMap_cons_some (f := fun f : Frame => voteDecode f.payload) (voteDecode_voteEncode v),
    List.reverse_cons]
  rfl

lemma Unaware.handled (h : Unaware P c b vs n) : Handled P c b vs [] n where
  view := h.view
  cache := h.cache
  memory := .nil _
  known := by
    intro f hf hhas
    rw [h.unseen f hf] at hhas
    exact absurd hhas (by decide)
  before := fun _ => h.unrecorded
  after := by simp

/-- A message that was seen comes in again. -/
lemma Handled.again (h : Handled P c b vs seen n) (hf : f ∈ seen) :
    Handled P c b vs (seen ++ [f]) n := by
  have hmem : ∀ x, x ∈ seen ++ [f] ↔ x ∈ seen := by
    intro x
    rw [← mem_arrivals, arrivals_again hf, mem_arrivals]
  refine ⟨h.view, h.cache, ?_, fun x hx hhas => ?_, fun hb => ?_, fun hb => ?_⟩
  · rw [arrivals_again hf]
    exact h.memory
  · exact (hmem x).mpr (h.known x hx hhas)
  · exact h.before fun hb' => hb ((hmem _).mpr hb')
  · rw [lateVotes, arrivals_again hf]
    exact h.after ((hmem _).mp hb)

/-- A new message is remembered, and the earlier ones are not forgotten. -/
lemma Handled.remembered (hballot : Ballot P c b vs)
    (hseen : ∀ x ∈ seen, x ∈ blockMessages b vs) (h : Handled P c b vs seen n) (hnew : f ∉ seen) :
    (n.dedup.push (acHash P f.payload)).Latest
      ((arrivals (seen ++ [f])).map fun x => acHash P x.payload) := by
  have hsub : arrivals seen ⊆ blockMessages b vs := fun x hx => hseen x (mem_arrivals.mp hx)
  have hlen := (List.subperm_of_subset (List.nodup_dedup _) hsub).length_le
  rw [arrivals_new hnew, List.map_cons]
  refine h.memory.push ?_ _
  rw [List.length_map]
  exact hlen.trans_lt hballot.few

/-- The announcement comes in. -/
lemma Handled.announced {env : Env} (hP : P.MallocBounded) (hb : Proposal P c b)
    (h : Handled P c b vs seen n) (hnew : blockFrame b ∉ seen) :
    RecordedAs P b b.signers (handleBlock P env n.cs b).1.pending := by
  have hunknown := h.before hnew
  rw [handleBlock_unknown h.view h.cache hb hunknown.find]
  refine RecordedAs.settled ?_ (tryCommit_table hP env _ _)
  exact hunknown.stash _ _ _ _ rfl

/-- **One delivery.** -/
lemma Handled.arrive (hP : P.MallocBounded) (hballot : Ballot P c b vs)
    (hseen : ∀ x ∈ seen, x ∈ blockMessages b vs) (hf : f ∈ blockMessages b vs)
    (h : Handled P c b vs seen n) (hs : Arrive P n [f] n') :
    Handled P c b vs (seen ++ [f]) n' := by
  cases hs with
  | arrived env _ _ hquiet =>
    have hview := h.view.trans hquiet.sameView
    have hcache := hquiet.valid h.cache
    by_cases hhas : n.dedup.has (acHash P f.payload) = true
    · -- a copy of a message that was handled
      have hsame : (dispatchMessage P env n f).1 = n := by
        rcases List.mem_cons.mp hf with rfl | hmem
        · exact (dispatchMessage_blockFrame env n b).trans (if_pos hhas)
        · obtain ⟨v, -, rfl⟩ := List.mem_map.mp hmem
          exact (dispatchMessage_voteFrame env n v).trans (if_pos hhas)
      rw [hsame]
      exact h.again (h.known f hf hhas)
    · have hnew : f ∉ seen := fun hmem =>
        hhas (h.memory.has (List.mem_map_of_mem (mem_arrivals.mpr hmem)))
      have hmemory := h.remembered hballot hseen hnew
      have hknown : ∀ x ∈ blockMessages b vs,
          (n.dedup.push (acHash P f.payload)).has (acHash P x.payload) = true →
          x ∈ seen ++ [f] := by
        intro x hx hhas
        rcases Ring.has_push hhas with heq | hold
        · rw [hballot.hash_inj x hx f hf heq]
          simp
        · exact List.mem_append_left _ (h.known x hx hold)
      rcases List.mem_cons.mp hf with rfl | hmem
      · have hstep := (dispatchMessage_blockFrame (P := P) env n b).trans (if_neg hhas)
        rw [hstep] at hview hcache ⊢
        refine ⟨hview, hcache, hmemory, hknown, fun habsent => absurd (by simp) habsent,
          fun _ => ?_⟩
        rw [lateVotes_blockFrame hnew]
        exact h.announced hP hballot.proposal hnew
      · obtain ⟨v, hv, rfl⟩ := List.mem_map.mp hmem
        have hstep := (dispatchMessage_voteFrame (P := P) env n v).trans (if_neg hhas)
        rw [hstep] at hview hcache ⊢
        have hblock : blockFrame b ∈ seen ++ [voteFrame v] ↔ blockFrame b ∈ seen := by
          simp [(voteFrame_ne_blockFrame v).symm]
        refine ⟨hview, hcache, hmemory, hknown, fun habsent => ?_, fun hpresent => ?_⟩
        · have hunknown := h.before fun hpresent => habsent (hblock.mpr hpresent)
          rw [handleVote_unknown (hballot.valid v hv) hunknown]
          exact hunknown
        · rw [lateVotes_voteFrame hnew, List.map_append, List.foldl_append]
          exact handleVote_known hP h.view h.cache (hballot.valid v hv)
            (h.after (hblock.mp hpresent))

/-- **All deliveries.** -/
lemma Handled.run (hP : P.MallocBounded) (hballot : Ballot P c b vs)
    {fs : List Frame} (h : Unaware P c b vs n) (hrun : Run (Arrive P) n fs n')
    (hfs : ∀ f ∈ fs, f ∈ blockMessages b vs) : Handled P c b vs fs n' := by
  induction hrun with
  | refl => exact h.handled
  | @tail t u fs new hrun hs ih =>
    have hseen : ∀ x ∈ fs, x ∈ blockMessages b vs := fun x hx =>
      hfs x (List.mem_append_left _ hx)
    have hmem : ∀ x ∈ new, x ∈ blockMessages b vs := fun x hx =>
      hfs x (List.mem_append_right _ hx)
    cases hs with
    | arrived env _ f hquiet =>
      exact (ih hseen).arrive hP hballot hseen (hmem f (by simp))
        (.arrived env _ f hquiet)

/-! ### Deliveries that leave the tip alone -/

/-- Signers that do not carry more than half of the weight. -/
def Minority (c : Chain) (signers : List CommitSigner) : Prop :=
  0 < acChainTotalSqrtStake c ∧ collectedSqrt c.state signers * 2 ≤ acChainTotalSqrtStake c

instance (c : Chain) (signers : List CommitSigner) : Decidable (Minority c signers) :=
  inferInstanceAs (Decidable (_ ∧ _))

/-- An entry with few signers stays as it is. -/
lemma tryCommit_minority {env : Env} {cs : Consensus} {i : Fin 8} {p : Pending}
    (hp : cs.pending i = some p) (hstate : cs.chain.state = c.state) (h : Minority c p.signers) :
    tryCommit P env cs i = (cs, []) := by
  have hfew : enoughVotes cs.chain p.signers = false := by
    have htotal : acChainTotalSqrtStake cs.chain = acChainTotalSqrtStake c := by
      rw [acChainTotalSqrtStake, acChainTotalSqrtStake, hstate]
    rw [enoughVotes, htotal, hstate, decide_eq_true (p := _ ∧ _) h]
    simp
  rw [tryCommit, tryCommitInner, hp]
  dsimp only
  rw [hfew, if_pos (c := (!false) = true) rfl, ite_self]

/-- A delivery behind which the block has few signers. -/
lemma Handled.quiet (env : Env) (hballot : Ballot P c b vs) (hf : f ∈ blockMessages b vs)
    (h : Handled P c b vs seen n)
    (hfew : Minority c (((lateVotes b (seen ++ [f])).map Vote.asSigner).foldl addSigner
      b.signers)) :
    n.cs.chain.Reseeded P (dispatchMessage P env n f).1.cs.chain := by
  have hseed := acChainEpochSeed_reseeded (P := P) n.cs.chain (acEpochOf b.header.slot)
  have hstate := hseed.same.state_eq.trans h.view.state_eq
  have hnew : ¬ n.dedup.has (acHash P f.payload) = true → f ∉ seen := fun hhas hmem =>
    hhas (h.memory.has (List.mem_map_of_mem (mem_arrivals.mpr hmem)))
  rcases List.mem_cons.mp hf with rfl | hmem
  · rw [dispatchMessage_blockFrame]
    split_ifs with hhas
    · exact .refl _
    · have hunknown := h.before (hnew hhas)
      have hstashed : Minority c (Pending.fresh P env.seenMs b.header.slot b
          (leaderPriority P c b.header)).signers := by
        rwa [lateVotes_blockFrame (hnew hhas)] at hfew
      rw [handleBlock_unknown h.view h.cache hballot.proposal hunknown.find,
        tryCommit_minority (Function.update_self _ _ _) hstate hstashed]
      exact hseed
  · obtain ⟨v, hv, rfl⟩ := List.mem_map.mp hmem
    rw [dispatchMessage_voteFrame]
    split_ifs with hhas
    · exact .refl _
    · by_cases hb : blockFrame b ∈ seen
      · obtain ⟨i, p, hfind, hp, -, hslot, hsigners, -⟩ := (h.after hb).find
        have hvoted : Minority c (p.addSigner v.asSigner).signers := by
          rwa [lateVotes_voteFrame (hnew hhas), List.map_append, List.foldl_append, ← hsigners]
            at hfew
        rw [handleVote_found h.view h.cache (hballot.valid v hv) hfind hslot]
        split_ifs
        · exact hseed
        · rw [tryCommit_minority (Function.update_self _ _ _) hstate hvoted]
          exact hseed
      · rw [handleVote_unknown (hballot.valid v hv) (h.before hb)]
        exact .refl _

/-- As long as the votes are few, messages can come in in any order. -/
lemma Unaware.exists_run (hP : P.MallocBounded) (hballot : Ballot P c b vs)
    (h : Unaware P c b vs n) (fs : List Frame) (hfs : ∀ f ∈ fs, f ∈ blockMessages b vs)
    (hfew : ∀ fs' ∈ fs.inits,
      Minority c (((lateVotes b fs').map Vote.asSigner).foldl addSigner b.signers)) :
    ∃ n', Run (Arrive P) n fs n' := by
  induction fs using List.reverseRecOn with
  | nil => exact ⟨n, .refl n⟩
  | append_singleton fs f ih =>
    have hmem : ∀ x ∈ fs, x ∈ blockMessages b vs := fun x hx => hfs x (List.mem_append_left _ hx)
    obtain ⟨n', hrun⟩ := ih hmem fun fs' hfs' => hfew fs' (by
      rw [List.mem_inits] at hfs' ⊢
      exact hfs'.trans (List.prefix_append _ _))
    have hquiet := (Handled.run hP hballot h hrun hmem).quiet lull hballot
      (hfs f (by simp)) (hfew _ (by rw [List.mem_inits]))
    exact ⟨_, .tail hrun (.arrived lull n' f hquiet)⟩

end Deliveries

/-! ### Votes that are counted -/

/-- The votes that come in behind the announcement and whose signers it does not list, as far as
there is room. -/
def countedVotes (b : Block) (fs : List Frame) : List Vote :=
  ((lateVotes b fs).filter fun v => unlisted b.signers v.asSigner).take
    (acCommitteeMax - b.signers.length)

/-- The messages in front of the first announcement of a block. -/
def earlierThan (b : Block) (fs : List Frame) : List Frame := fs.takeWhile (· ≠ blockFrame b)

section Counted

variable {P : Platform} {c : Chain} {b : Block} {vs : List Vote} {fs : List Frame} {v : Vote}

lemma voteFrame_injective : Function.Injective voteFrame := by
  intro v w h
  have hpayload : voteEncode v = voteEncode w := congrArg Frame.payload h
  have hdec := voteDecode_voteEncode v
  rw [hpayload, voteDecode_voteEncode] at hdec
  exact (Option.some.inj hdec).symm

/-- Behind the announcement there are only votes. -/
lemma map_lateVotes (hfs : ∀ f ∈ fs, f ∈ blockMessages b vs) :
    (lateVotes b fs).map voteFrame =
      ((arrivals fs).takeWhile (· ≠ blockFrame b)).reverse := by
  rw [lateVotes, List.map_reverse, List.map_filterMap]
  congr 1
  conv_rhs => rw [← List.filterMap_some (l := List.takeWhile _ _)]
  refine List.filterMap_congr fun f hf => ?_
  have hne := List.mem_takeWhile_imp hf
  rw [decide_eq_true_eq] at hne
  have hmem := hfs f (mem_arrivals.mp ((List.takeWhile_prefix _).subset hf))
  obtain ⟨v, -, rfl⟩ := List.mem_map.mp (List.mem_of_ne_of_mem hne hmem)
  show (voteDecode (voteEncode v)).map voteFrame = some (voteFrame v)
  rw [voteDecode_voteEncode]
  rfl

lemma mem_lateVotes (hfs : ∀ f ∈ fs, f ∈ blockMessages b vs) :
    v ∈ lateVotes b fs ↔ voteFrame v ∈ (arrivals fs).takeWhile (· ≠ blockFrame b) := by
  rw [← List.mem_map_of_injective voteFrame_injective, map_lateVotes hfs, List.mem_reverse]

lemma lateVotes_subset (hfs : ∀ f ∈ fs, f ∈ blockMessages b vs) : lateVotes b fs ⊆ vs := by
  intro v hv
  have hmem := (List.takeWhile_prefix _).subset ((mem_lateVotes hfs).mp hv)
  have hvote := List.mem_of_ne_of_mem (voteFrame_ne_blockFrame v) (hfs _ (mem_arrivals.mp hmem))
  exact (List.mem_map_of_injective voteFrame_injective).mp hvote

lemma nodup_lateVotes (hfs : ∀ f ∈ fs, f ∈ blockMessages b vs) : (lateVotes b fs).Nodup := by
  refine List.Nodup.of_map voteFrame ?_
  rw [map_lateVotes hfs, List.nodup_reverse]
  exact (List.nodup_dedup _).sublist (List.takeWhile_sublist _)

/-- What is recorded on the entry. -/
lemma foldl_lateVotes (hdistinct : (vs.map Vote.signer).Nodup)
    (hfs : ∀ f ∈ fs, f ∈ blockMessages b vs) :
    ((lateVotes b fs).map Vote.asSigner).foldl addSigner b.signers =
      b.signers ++ (countedVotes b fs).map Vote.asSigner := by
  have hnodup : (((lateVotes b fs).map Vote.asSigner).map CommitSigner.signer).Nodup := by
    rw [List.map_map]
    refine List.Nodup.map_on (fun v hv w hw heq => ?_) (nodup_lateVotes hfs)
    exact List.inj_on_of_nodup_map hdistinct (lateVotes_subset hfs hv) (lateVotes_subset hfs hw) heq
  rw [foldl_addSigner, newSigners, firstOfEach_of_nodup hnodup, countedVotes, List.filter_map,
    List.map_take]
  rfl

lemma mem_signers_counted {a : Addr} :
    a ∈ (b.signers ++ (countedVotes b fs).map Vote.asSigner).map CommitSigner.signer ↔
      a ∈ b.signers.map CommitSigner.signer ∨ a ∈ (countedVotes b fs).map Vote.signer := by
  rw [List.map_append, List.mem_append, List.map_map]
  rfl

lemma mem_of_mem_countedVotes (hv : v ∈ countedVotes b fs) :
    v ∈ lateVotes b fs ∧ v.signer ∉ b.signers.map CommitSigner.signer := by
  obtain ⟨hlate, hunlisted⟩ := List.mem_filter.mp (List.mem_of_mem_take hv)
  exact ⟨hlate, unlisted_iff.mp hunlisted⟩

/-- The signers of a counted vote tell which vote it is. -/
lemma signers_subset_iff {fs' : List Frame} (hdistinct : (vs.map Vote.signer).Nodup)
    (hfs : ∀ f ∈ fs, f ∈ blockMessages b vs) (hfs' : ∀ f ∈ fs', f ∈ blockMessages b vs) :
    (∀ a ∈ (b.signers ++ (countedVotes b fs).map Vote.asSigner).map CommitSigner.signer,
      a ∈ (b.signers ++ (countedVotes b fs').map Vote.asSigner).map CommitSigner.signer) ↔
    countedVotes b fs ⊆ countedVotes b fs' := by
  simp only [mem_signers_counted]
  constructor
  · intro h v hv
    obtain ⟨hlate, hunlisted⟩ := mem_of_mem_countedVotes hv
    rcases h v.signer (Or.inr (List.mem_map_of_mem hv)) with hlisted | hcounted
    · exact absurd hlisted hunlisted
    · obtain ⟨w, hw, heq⟩ := List.mem_map.mp hcounted
      have hwlate := (mem_of_mem_countedVotes hw).1
      rwa [← List.inj_on_of_nodup_map hdistinct (lateVotes_subset hfs' hwlate)
        (lateVotes_subset hfs hlate) heq]
  · rintro h a (hlisted | hcounted)
    · exact Or.inl hlisted
    · exact Or.inr (List.map_subset _ h hcounted)

/-- What stands in front of the first announcement does not change behind it. -/
lemma earlierThan_append (hb : blockFrame b ∈ fs) (f : Frame) :
    earlierThan b (fs ++ [f]) = earlierThan b fs := by
  rw [earlierThan, List.takeWhile_append, if_neg]
  · rfl
  · intro hlen
    have hself := (List.takeWhile_prefix fun x => decide (x ≠ blockFrame b)).eq_of_length hlen
    exact absurd (List.takeWhile_eq_self_iff.mp hself _ hb) (by simp)

/-- Until the announcement all messages are early. -/
lemma earlierThan_blockFrame (hb : blockFrame b ∉ fs) :
    earlierThan b (fs ++ [blockFrame b]) = fs := by
  rw [earlierThan, List.takeWhile_append_of_pos, List.takeWhile_cons_of_neg (by simp),
    List.append_nil]
  intro x hx
  exact decide_eq_true fun heq => hb (heq ▸ hx)

/-- A vote is either early or late. -/
lemma mem_takeWhile_arrivals_iff (hb : blockFrame b ∈ fs) (hv : voteFrame v ∈ fs) :
    voteFrame v ∈ (arrivals fs).takeWhile (· ≠ blockFrame b) ↔
      voteFrame v ∉ earlierThan b fs := by
  -- over the deliveries; only first copies of the announcement and of the vote matter
  induction fs using List.reverseRecOn with
  | nil => exact absurd hb List.not_mem_nil
  | append_singleton fs f ih =>
    rw [List.mem_append, List.mem_singleton] at hb hv
    by_cases hold : f ∈ fs
    · have hb' : blockFrame b ∈ fs := hb.elim id fun heq => heq ▸ hold
      rw [arrivals_again hold, earlierThan_append hb']
      exact ih hb' (hv.elim id fun heq => heq ▸ hold)
    · rw [arrivals_new hold]
      by_cases hf : f = blockFrame b
      · subst hf
        have hv' := hv.resolve_right (voteFrame_ne_blockFrame v)
        rw [List.takeWhile_cons_of_neg (by simp), earlierThan_blockFrame hold]
        simp [hv']
      · have hb' := hb.resolve_right (Ne.symm hf)
        rw [List.takeWhile_cons_of_pos (by simp [hf]), earlierThan_append hb', List.mem_cons]
        by_cases hvf : voteFrame v = f
        · refine iff_of_true (Or.inl hvf) fun hearly => hold ?_
          exact hvf ▸ (List.takeWhile_prefix _).subset hearly
        · rw [or_iff_right hvf]
          exact ih hb' (hv.resolve_right hvf)

/-- With room for all of them, the votes that are counted are those that are not early. -/
lemma mem_countedVotes_iff (hfs : ∀ f, f ∈ fs ↔ f ∈ blockMessages b vs)
    (hroom : b.signers.length + (vs.filter fun v => unlisted b.signers v.asSigner).length ≤
      acCommitteeMax) :
    v ∈ countedVotes b fs ↔ v ∈ vs ∧ unlisted b.signers v.asSigner = true ∧
      voteFrame v ∉ earlierThan b fs := by
  have hmem : ∀ f ∈ fs, f ∈ blockMessages b vs := fun f => (hfs f).mp
  have hsub : (lateVotes b fs).filter (fun v => unlisted b.signers v.asSigner) ⊆
      vs.filter fun v => unlisted b.signers v.asSigner :=
    List.filter_subset _ (lateVotes_subset hmem)
  have hlen := (List.subperm_of_subset ((nodup_lateVotes hmem).filter _) hsub).length_le
  have hblock : blockFrame b ∈ fs := (hfs _).mpr List.mem_cons_self
  rw [countedVotes, List.take_of_length_le (by omega), List.mem_filter]
  constructor
  · rintro ⟨hlate, hunlisted⟩
    have hvs := lateVotes_subset hmem hlate
    have hframe := (hfs _).mpr (List.mem_cons_of_mem _ (List.mem_map_of_mem hvs))
    rw [mem_lateVotes hmem, mem_takeWhile_arrivals_iff hblock hframe] at hlate
    exact ⟨hvs, hunlisted, hlate⟩
  · rintro ⟨hvs, hunlisted, hlate⟩
    have hframe := (hfs _).mpr (List.mem_cons_of_mem _ (List.mem_map_of_mem hvs))
    rw [mem_lateVotes hmem, mem_takeWhile_arrivals_iff hblock hframe]
    exact ⟨hlate, hunlisted⟩

end Counted

/-! ### The order of the deliveries -/

section Order

variable {P : Platform} {c : Chain} {b : Block} {vs : List Vote} {fs₁ fs₂ : List Frame}
  {n₁ n₂ n₁' n₂' : Inbox}

/-- The entry when everything has come in. -/
lemma Handled.entry {fs : List Frame} {n : Inbox} (hballot : Ballot P c b vs)
    (h : Handled P c b vs fs n) (hfs : ∀ f, f ∈ fs ↔ f ∈ blockMessages b vs) :
    ∃ i p, pendingFind n.cs.pending (acBlockHash P b.header) = some (i, p) ∧
      p.signers = b.signers ++ (countedVotes b fs).map Vote.asSigner := by
  have hrec := h.after ((hfs _).mpr List.mem_cons_self)
  rw [foldl_lateVotes hballot.distinct fun f => (hfs f).mp] at hrec
  obtain ⟨i, p, hfind, -, -, -, hsigners, -⟩ := hrec.find
  exact ⟨i, p, hfind, hsigners⟩

/-- **The order of the deliveries.**  Two nodes with the same tip receive the same proposal and
the same votes for it, each message once or several times.  They record the same signers exactly
if the same votes count for both; if there is room for all of them, exactly if the same votes
came in before the announcement. -/
theorem same_signers_iff (hP : P.MallocBounded) (hballot : Ballot P c b vs)
    (h₁ : Unaware P c b vs n₁) (h₂ : Unaware P c b vs n₂)
    (hrun₁ : Run (Arrive P) n₁ fs₁ n₁') (hrun₂ : Run (Arrive P) n₂ fs₂ n₂')
    (hfs₁ : ∀ f, f ∈ fs₁ ↔ f ∈ blockMessages b vs)
    (hfs₂ : ∀ f, f ∈ fs₂ ↔ f ∈ blockMessages b vs) :
    ∃ i p j q, pendingFind n₁'.cs.pending (acBlockHash P b.header) = some (i, p) ∧
      pendingFind n₂'.cs.pending (acBlockHash P b.header) = some (j, q) ∧
      ((∀ a, a ∈ p.signers.map CommitSigner.signer ↔ a ∈ q.signers.map CommitSigner.signer) ↔
        ∀ v, v ∈ countedVotes b fs₁ ↔ v ∈ countedVotes b fs₂) ∧
      (b.signers.length + (vs.filter fun v => unlisted b.signers v.asSigner).length ≤
          acCommitteeMax →
        ((∀ a, a ∈ p.signers.map CommitSigner.signer ↔ a ∈ q.signers.map CommitSigner.signer) ↔
          ∀ v ∈ vs, unlisted b.signers v.asSigner = true →
            (voteFrame v ∈ earlierThan b fs₁ ↔ voteFrame v ∈ earlierThan b fs₂))) := by
  have hmem₁ : ∀ f ∈ fs₁, f ∈ blockMessages b vs := fun f => (hfs₁ f).mp
  have hmem₂ : ∀ f ∈ fs₂, f ∈ blockMessages b vs := fun f => (hfs₂ f).mp
  obtain ⟨i, p, hfind₁, hp⟩ := (Handled.run hP hballot h₁ hrun₁ hmem₁).entry hballot hfs₁
  obtain ⟨j, q, hfind₂, hq⟩ := (Handled.run hP hballot h₂ hrun₂ hmem₂).entry hballot hfs₂
  have hsame : (∀ a, a ∈ p.signers.map CommitSigner.signer ↔
      a ∈ q.signers.map CommitSigner.signer) ↔
      ∀ v, v ∈ countedVotes b fs₁ ↔ v ∈ countedVotes b fs₂ := by
    have hsub₁ := signers_subset_iff hballot.distinct hmem₁ hmem₂
    have hsub₂ := signers_subset_iff hballot.distinct hmem₂ hmem₁
    rw [hp, hq]
    constructor
    · exact fun h v => ⟨fun hv => hsub₁.mp (fun a => (h a).mp) hv,
        fun hv => hsub₂.mp (fun a => (h a).mpr) hv⟩
    · exact fun h a => ⟨hsub₁.mpr (fun v => (h v).mp) a, hsub₂.mpr (fun v => (h v).mpr) a⟩
  refine ⟨i, p, j, q, hfind₁, hfind₂, hsame, fun hroom => hsame.trans ?_⟩
  simp only [mem_countedVotes_iff hfs₁ hroom, mem_countedVotes_iff hfs₂ hroom]
  refine forall_congr' fun v => ?_
  tauto

end Order

/-! ### A vote that comes in before the block -/

/-- The vote of a validator for the block of the first leader. -/
def voteForFirst (k : UInt8) : Vote :=
  castVote labelled (referenceKey k) (builtBy 1).header.height
    (acBlockHash labelled (builtBy 1).header)
    (voteOf labelled equalChain (builtBy 1).header (referenceKey k)).vrfProof

/-- The third validator, when messages have come in. -/
def reached (fs : List Frame) : Inbox :=
  fs.foldl (fun n f => (dispatchMessage labelled (Env.atMs 2500) n f).1)
    (Inbox.initial (equalNode 3).cs)

/-- The signers of the block of the first leader. -/
def signersFor (n : Inbox) : Option (List Addr) :=
  (pendingFind n.cs.pending (acBlockHash labelled (builtBy 1).header)).map fun r =>
    r.2.signers.map CommitSigner.signer

lemma voteForFirst_facts :
    (builtBy 1).header.version = acBlockVersion ∧
    (builtBy 1).header.height = equalChain.height + 1 ∧
    (builtBy 1).header.parentHash = equalChain.tipHash ∧
    (leaderBeta labelled equalChain (builtBy 1).header).isSome ∧
    acVerify labelled (voteForFirst 2).sig
      (acVoteMessage (voteForFirst 2).height (voteForFirst 2).blockHash)
      (voteForFirst 2).signer = true ∧
    ¬ (acStateGet equalChain.state (voteForFirst 2).signer).2.stake < acMinStakeUcrd ∧
    ((acVrfVerify labelled (voteForFirst 2).vrfProof (committeeAlpha
      (computeEpochSeed labelled equalChain (acEpochOf (builtBy 1).header.slot))
        (builtBy 1).header.slot) (voteForFirst 2).signer).any fun beta =>
      committeeEligible labelled (acRd64 beta.bytes)
        (acIsqrtU64 (acStateGet equalChain.state (voteForFirst 2).signer).2.stake)
        (acChainTotalSqrtStake equalChain)) = true ∧
    acHash labelled (blockFrame (builtBy 1)).payload ≠
      acHash labelled (voteFrame (voteForFirst 2)).payload ∧
    (∀ f ∈ blockMessages (builtBy 1) [voteForFirst 2],
      (Inbox.initial (equalNode 3).cs).dedup.has (acHash labelled f.payload) = false) ∧
    ∀ fs' ∈ [blockFrame (builtBy 1), voteFrame (voteForFirst 2),
      voteFrame (voteForFirst 2)].inits, Minority equalChain
        (((lateVotes (builtBy 1) fs').map Vote.asSigner).foldl addSigner (builtBy 1).signers) := by
  decide +kernel

lemma ballot_first : Ballot labelled equalChain (builtBy 1) [voteForFirst 2] := by
  obtain ⟨hversion, hheight, hparent, hleader, hsigned, hbonded, helected, hne, -⟩ :=
    voteForFirst_facts
  refine ⟨⟨hversion, hheight, hparent, hleader⟩, fun v hv => ?_, by simp, ?_, ?_⟩
  · rw [List.mem_singleton] at hv
    subst hv
    exact ⟨rfl, hsigned, hbonded, (Option.any_eq_true _ _).mp helected⟩
  · show 2 < acDedupCap
    decide
  · intro x hx y hy heq
    simp only [blockMessages, List.map_cons, List.map_nil, List.mem_cons, List.not_mem_nil,
      or_false] at hx hy
    rcases hx with rfl | rfl
    · rcases hy with rfl | rfl
      · rfl
      · exact absurd heq hne
    · rcases hy with rfl | rfl
      · exact absurd heq.symm hne
      · rfl

lemma unaware_first :
    Unaware labelled equalChain (builtBy 1) [voteForFirst 2] (Inbox.initial (equalNode 3).cs) where
  view := (Chain.Reseeded.refl (P := labelled) equalChain).sameView
  cache := (reachable_equalGenesis.ledger labelled_mallocBounded).cacheValid
  unseen := by
    obtain ⟨-, -, -, -, -, -, -, -, hunseen, -⟩ := voteForFirst_facts
    exact hunseen
  unrecorded := by
    intro i p hp
    exact absurd hp (by simp [Inbox.initial, equalNode, Node.initial, acConsensusNew])

/-- The hypotheses are met, and the signers are the same, when the announcement comes in first
and the vote once or twice behind it. -/
theorem same_signers_block_first : ∃ n₁ n₂,
    Run (Arrive labelled) (Inbox.initial (equalNode 3).cs)
      [blockFrame (builtBy 1), voteFrame (voteForFirst 2)] n₁ ∧
    Run (Arrive labelled) (Inbox.initial (equalNode 3).cs)
      [blockFrame (builtBy 1), voteFrame (voteForFirst 2), voteFrame (voteForFirst 2)] n₂ ∧
    ∃ i p j q,
      pendingFind n₁.cs.pending (acBlockHash labelled (builtBy 1).header) = some (i, p) ∧
      pendingFind n₂.cs.pending (acBlockHash labelled (builtBy 1).header) = some (j, q) ∧
      ∀ a, a ∈ p.signers.map CommitSigner.signer ↔ a ∈ q.signers.map CommitSigner.signer := by
  obtain ⟨-, -, -, -, -, -, -, -, -, hfew⟩ := voteForFirst_facts
  have hprefix : [blockFrame (builtBy 1), voteFrame (voteForFirst 2)] <+:
      [blockFrame (builtBy 1), voteFrame (voteForFirst 2), voteFrame (voteForFirst 2)] :=
    ⟨[voteFrame (voteForFirst 2)], rfl⟩
  obtain ⟨n₁, hrun₁⟩ := unaware_first.exists_run labelled_mallocBounded ballot_first
    [blockFrame (builtBy 1), voteFrame (voteForFirst 2)] (by simp [blockMessages])
    fun fs' hfs' => hfew fs' (by
      rw [List.mem_inits] at hfs' ⊢
      exact hfs'.trans hprefix)
  obtain ⟨n₂, hrun₂⟩ := unaware_first.exists_run labelled_mallocBounded ballot_first
    [blockFrame (builtBy 1), voteFrame (voteForFirst 2), voteFrame (voteForFirst 2)]
    (by simp [blockMessages]) hfew
  obtain ⟨i, p, j, q, hfind₁, hfind₂, hsame, -⟩ := same_signers_iff labelled_mallocBounded
    ballot_first unaware_first unaware_first hrun₁ hrun₂ (by simp [blockMessages])
    (by simp [blockMessages])
  refine ⟨n₁, n₂, hrun₁, hrun₂, i, p, j, q, hfind₁, hfind₂, hsame.mpr fun v => ?_⟩
  have hagain := @arrivals_again [blockFrame (builtBy 1), voteFrame (voteForFirst 2)]
    (voteFrame (voteForFirst 2)) (by simp)
  rw [List.cons_append, List.singleton_append] at hagain
  rw [countedVotes, countedVotes, lateVotes, lateVotes, hagain]

/-- **A vote that comes in before the block is lost.**  The vote of the second validator comes
in, then the block, then the same vote again, and it is not among the signers.  Without the
first copy it is. -/
theorem early_vote_lost :
    signersFor (reached [voteFrame (voteForFirst 2), blockFrame (builtBy 1),
      voteFrame (voteForFirst 2)]) = some [] ∧
    signersFor (reached [blockFrame (builtBy 1), voteFrame (voteForFirst 2)]) =
      some [(referenceKey 2).pk] ∧
    (reached [voteFrame (voteForFirst 2), blockFrame (builtBy 1),
      voteFrame (voteForFirst 2)]).cs.chain.height = 0 ∧
    (reached [blockFrame (builtBy 1), voteFrame (voteForFirst 2)]).cs.chain.height = 0 := by
  decide +kernel

end AgentChain
