import AgentChain.VoteDelivery
import AgentChain.GapRequests
import AgentChain.Replicas
import AgentChain.VoteValidity

/-!
# Catching up

A node that hears of a block far above its tip asks for the blocks in between
(`ac_consensus_handle_block`), the peers answer with the blocks as they have stored them
(`on_headers_req_cb`), and the node hands each answer to its engine, which seals a block of the
past at once.

The node decides on each block by itself, with the live weight that it has recorded.  It comes to
the same decisions as the peer when it has seen the same certificates.  A peer that has run from
the genesis without a restart has committed every block with enough votes on the chain of the
blocks before it (`NodeRun.chronicle`); then every part of the answer that arrives is accepted,
block by block (`catch_up_rounds`).
-/

namespace AgentChain

open Trace

/-- The frame of a broadcast message. -/
def Msg.frame : Msg → Frame
  | .headersReq buf => ⟨.headersReq, buf⟩
  | .blockRes buf => ⟨.blockRes, buf⟩
  | .blockAnn buf => ⟨.blockAnn, buf⟩
  | .commitVote buf => ⟨.commitVote, buf⟩

/-- A stored block as the answer to a request. -/
def answerFrame (b : Block) : Frame := ⟨.blockRes, blockBytes b⟩

/-- The frames that are handed to the engine one after the other. -/
def deliverAll (P : Platform) (n : Inbox) (fs : List (Env × Frame)) : Inbox :=
  fs.foldl (fun n f => (dispatchMessage P f.1 n f.2).1) n

/-- Every block was accepted on a chain of the blocks before it, where its signers had enough
votes for `try_commit_inner`. -/
def CommitHistory (P : Platform) (g : Genesis) (bs : List Block) : Prop :=
  ∀ i b, bs[i]? = some b → ∃ c now w, Reachable P g (bs.take i) c ∧
    enoughVotes c b.signers = true ∧ (acChainAcceptBlock P now w c b).1 = .ok

/-- A chain with such a history: it holds the blocks, and up to its seed cache it is a chain that
was reached by accepting them. -/
structure Chronicle (P : Platform) (g : Genesis) (bs : List Block) (c : Chain) : Prop where
  history : CommitHistory P g bs
  ledger : Ledger P g bs c
  mirror : ∃ c₁, Reachable P g bs c₁ ∧ c₁.SameButCache c

/-- The slot of a time, on a chain of the given genesis. -/
def slotAt (g : Genesis) (now : UInt64) : UInt64 :=
  if now < g.timestampMs then 0 else (now - g.timestampMs) / acSlotDurationMs

/-- What a node finds when it handles a block of the past: the writes succeed, the slot of the
block is over, and the clock is not behind its time. -/
structure Late (g : Genesis) (b : Block) (env : Env) : Prop where
  writes : env.writes = .all
  past : b.header.slot + 1 < slotAt g env.wallMs
  clock : ¬ env.acceptMs + 1500 < b.header.timestampMs

/-- A node that has accepted the first `h` of the blocks and has none of the others among its
proposals. -/
structure Following (P : Platform) (g : Genesis) (bs : List Block) (h : ℕ) (n : Inbox) : Prop where
  reached : Reachable P g (bs.take h) n.cs.chain
  unrecorded : ∀ b ∈ bs.drop h, Unrecorded P b n.cs.pending

section Gate

variable {P : Platform} {g : Genesis} {bs : List Block} {c d : Chain} {b : Block}

/-- The first gate depends on the accepted blocks only. -/
lemma Reachable.enoughVotes_eq (hP : P.MallocBounded) (h : Reachable P g bs c)
    (h' : Reachable P g bs d) (signers : List CommitSigner) :
    enoughVotes d signers = enoughVotes c signers := by
  have hstate : d.state = c.state := by rw [(h.ledger hP).state_eq, (h'.ledger hP).state_eq]
  have hheight : d.height = c.height :=
    UInt64.toNat_inj.mp (by rw [(h.ledger hP).height_eq, (h'.ledger hP).height_eq])
  have hlive : d.liveMap = c.liveMap := by rw [h.live_eq hP, h'.live_eq hP]
  have htotal : acChainTotalSqrtStake d = acChainTotalSqrtStake c := by
    rw [acChainTotalSqrtStake, acChainTotalSqrtStake, hstate]
  have hweight : acChainLiveSqrtStake d = acChainLiveSqrtStake c := by
    rw [acChainLiveSqrtStake, acChainLiveSqrtStake, hstate, hheight, hlive, htotal]
  rw [enoughVotes, enoughVotes, htotal, hweight, hstate]

/-- The live weight behind a block depends on the accepted blocks only. -/
lemma Reachable.liveSqrtStake_post_eq (hP : P.MallocBounded) (h : Reachable P g bs c)
    (h' : Reachable P g bs d) (s : AcState) :
    acChainLiveSqrtStake { d with state := s } = acChainLiveSqrtStake { c with state := s } := by
  have hheight : d.height = c.height :=
    UInt64.toNat_inj.mp (by rw [(h.ledger hP).height_eq, (h'.ledger hP).height_eq])
  have hlive : d.liveMap = c.liveMap := by rw [h.live_eq hP, h'.live_eq hP]
  simp only [acChainLiveSqrtStake, acChainTotalSqrtStake, hheight, hlive]

/-- The checks on a block have the same outcome at any clock that is not behind its time. -/
lemma PassesChecks.clock {now now' : UInt64} (h : PassesChecks P now c b)
    (hclock : ¬ now' + 1500 < b.header.timestampMs) : PassesChecks P now' c b := by
  obtain ⟨hslot, hwindow, -, hgas⟩ := checkTime_eq_none.mp h.time
  exact { h with time := checkTime_eq_none.mpr ⟨hslot, hwindow, hclock, hgas⟩ }

/-- **The next block of a history is accepted again** by every node that has accepted the blocks
before it. -/
theorem CommitHistory.accepts_next (hP : P.MallocBounded) (h : CommitHistory P g bs) {i : ℕ}
    (hb : bs[i]? = some b) (hd : Reachable P g (bs.take i) d) {now : UInt64}
    (hclock : ¬ now + 1500 < b.header.timestampMs) :
    PassesChecks P now d b ∧ (acChainAcceptBlock P now .all d b).1 = .ok := by
  obtain ⟨c₁, now₁, w, hc₁, -, hok⟩ := h i b hb
  have hl := hc₁.ledger hP
  have hl' := hd.ledger hP
  obtain ⟨hpass, hcert, hsnap, hpost, -⟩ := (acChainAcceptBlock_ok_iff hP hl.cacheValid).mp hok
  have hview : c₁.SameView d := SameBlocks.sameView rfl hl hl'
  have hpass' := (hpass.view hview hl.cacheValid hl'.cacheValid).clock hclock
  refine ⟨hpass', (acChainAcceptBlock_ok_iff hP hl'.cacheValid).mpr ⟨hpass', ?_, ?_, ?_, rfl⟩⟩
  · refine hview.certificateOk ?_ hcert
    rw [hview.state_eq]
    exact hc₁.liveSqrtStake_post_eq hP hd _
  · rwa [hview.state_eq]
  · rwa [hview.state_eq]

end Gate

/-! ### The history of a node -/

section History

variable {P : Platform} {Q : Block → Prop} {g : Genesis} {bs new : List Block} {c d : Chain}
  {b : Block}

lemma Chain.SameButCache.enoughVotes_eq (h : c.SameButCache d) (signers : List CommitSigner) :
    enoughVotes d signers = enoughVotes c signers := by
  rw [h.eq_withCached]
  rfl

/-- The history with one more block. -/
lemma CommitHistory.concat (h : CommitHistory P g bs) {now : UInt64} {w : Writes}
    (hc : Reachable P g bs c) (hvotes : enoughVotes c b.signers = true)
    (hok : (acChainAcceptBlock P now w c b).1 = .ok) : CommitHistory P g (bs ++ [b]) := by
  intro i x hx
  rcases Nat.lt_trichotomy i bs.length with hi | rfl | hi
  · rw [List.getElem?_append_left hi] at hx
    rw [List.take_append_of_le_length hi.le]
    exact h i x hx
  · rw [List.getElem?_concat_length] at hx
    obtain rfl := Option.some.inj hx
    rw [List.take_left]
    exact ⟨c, now, w, hc, hvotes, hok⟩
  · rw [List.getElem?_eq_none (by rw [List.length_append, List.length_singleton]; omega)] at hx
    cases hx

/-- **One clean step** of a chain extends its history. -/
lemma Chronicle.step (hP : P.MallocBounded) (h : Chronicle P g bs c) (hs : CleanStep P Q c new d) :
    Chronicle P g (bs ++ new) d := by
  obtain ⟨c₁, hc₁, hsame⟩ := h.mirror
  cases hs with
  | reseeded hd =>
    rw [List.append_nil]
    exact ⟨h.history, h.ledger.reseeded hd, c₁, hc₁, hsame.trans hd.same⟩
  | accepted now k b buf _ hpass hcommit hbuf hok hvotes =>
    -- the block is accepted on the chain beside it as well, which differs in its cache
    have hl₁ := hc₁.ledger hP
    have hview : c.SameView c₁ := SameBlocks.sameView rfl h.ledger hl₁
    obtain ⟨-, hcert, hsnap, hpost, -⟩ :=
      (acChainAcceptBlock_ok_iff hP h.ledger.cacheValid).mp hok
    have hok₁ : (acChainAcceptBlock P now .all c₁ b).1 = .ok := by
      refine (acChainAcceptBlock_ok_iff hP hl₁.cacheValid).mpr
        ⟨hpass.view hview h.ledger.cacheValid hl₁.cacheValid, hview.certificateOk ?_ hcert, ?_, ?_,
          rfl⟩
      · rw [hsame.eq_withCached]
        rfl
      · rwa [hview.state_eq]
      · rwa [hview.state_eq]
    refine ⟨h.history.concat hc₁ ((hsame.enoughVotes_eq _).symm.trans hvotes) hok₁,
      h.ledger.commit hpass hbuf, _, hc₁.step (.accepted now .all c₁ b hok₁), ?_⟩
    obtain ⟨-, -, -, -, buf₁, hbuf₁, hres₁⟩ := acChainAcceptBlock_ok hP hok₁
    rw [hview.state_eq, hbuf] at hbuf₁
    obtain rfl := Option.some.inj hbuf₁
    rw [hres₁, hsame.eq_withCached]
    rfl

/-- Clean steps extend the history. -/
lemma Chronicle.clean (hP : P.MallocBounded) (h : Chronicle P g bs c)
    (hrun : Run (CleanStep P Q) c new d) : Chronicle P g (bs ++ new) d := by
  refine hrun.invariant (I := fun new d => Chronicle P g (bs ++ new) d) ?_ ?_
  · rwa [List.append_nil]
  · intro new d more e hchron hs
    rw [← List.append_assoc]
    exact hchron.step hP hs

/-- **A node commits blocks with enough votes only.**  The chain of a node that has run from the
genesis, with all writes done and without a restart, has a history of such blocks. -/
theorem NodeRun.chronicle (hP : P.MallocBounded) {kp : Keypair} {validator : Bool} {slot : UInt64}
    {as : List NodeAction} {n : Node} (hc : Reachable P g [] c)
    (hrun : NodeRun P (Undisturbed P) (Node.initial c kp validator slot) as n) :
    ∃ bs, Chronicle P g bs n.cs.chain := by
  have hfirst : Chronicle P g [] c :=
    ⟨fun i b hb => absurd hb (by simp), hc.ledger hP, c, hc, .refl c⟩
  refine (hrun.invariant (I := fun m => NodeInv P m ∧ ∃ bs, Chronicle P g bs m.cs.chain)
    ⟨NodeInv.initial hP hc.node kp validator slot, [], hfirst⟩ ?_).2
  rintro m a ⟨hinv, bs, hchron⟩ ha
  obtain ⟨new, hclean⟩ := m.exec_clean (Q := fun _ => True) hP hinv ha
    fun _ _ _ _ _ _ _ _ _ => trivial
  exact ⟨hinv.step hP, _, hchron.clean hP hclean⟩

/-- The blocks that a chain holds are those of its history. -/
lemma Ledger.blocks_eq {bs' : List Block} (h : Ledger P g bs c) (h' : Ledger P g bs' c) :
    bs' = bs := by
  have hlen : bs'.length = bs.length := h'.height_eq.symm.trans h.height_eq
  refine List.ext_getElem? fun k => ?_
  rcases Nat.lt_or_ge k bs.length with hk | hk
  · have hstored := (h'.stored (k + 1) (by omega)).symm.trans (h.stored (k + 1) hk)
    rwa [List.getElem?_cons_succ, List.getElem?_cons_succ] at hstored
  · rw [List.getElem?_eq_none hk, List.getElem?_eq_none (by omega)]

end History

/-! ### One block -/

section Block

variable {P : Platform} {g : Genesis} {bs : List Block} {c : Chain} {b : Block} {env : Env}
  {cs : Consensus} {n : Inbox} {h : ℕ}

/-- Behind its slot an entry with enough votes is sealed without waiting. -/
lemma tryCommit_seals {i : Fin 8} {p : Pending} (hp : cs.pending i = some p)
    (hopen : p.committed = false) (hvotes : enoughVotes cs.chain p.signers = true)
    (hlate : p.slot + 1 < acChainCurrentSlot env.wallMs cs.chain) :
    ∃ ms, tryCommit P env cs i = sealBlock P env cs i { p with thresholdReachedMs := ms } := by
  rw [tryCommit, tryCommitInner, hp]
  dsimp only
  rw [if_neg (by simp [hopen]), if_neg (by simp [hvotes]), if_neg (by simp [hlate])]
  split_ifs
  · exact ⟨env.sealMs, rfl⟩
  · exact ⟨p.thresholdReachedMs, rfl⟩

/-- A block that passes the checks is a proposal for the next height. -/
lemma PassesChecks.isProposal {now : UInt64} (hpass : PassesChecks P now c b)
    (hc : c.CacheValid P) : Proposal P c b := by
  obtain ⟨hversion, -, -, hheight, hparent⟩ := checkLink_eq_none.mp hpass.link
  exact ⟨hversion, hheight, hparent, ((validateProposerVrf_iff hc).mp hpass.proposer).2⟩

/-- The engine with the entry of a block, and with the seed of its slot. -/
def stashed (P : Platform) (env : Env) (cs : Consensus) (b : Block) : Consensus :=
  (stash P { cs with chain := (acChainEpochSeed P cs.chain (acEpochOf b.header.slot)).2 } env.seenMs
    b.header.slot b (leaderPriority P cs.chain b.header)).1

/-- When the chain accepts the block of an entry, the entry is committed. -/
lemma sealBlock_accepted {i : Fin 8} {p : Pending}
    (hok : (acChainAcceptBlock P env.acceptMs env.writes cs.chain p.certified).1 = .ok) :
    (sealBlock P env cs i p).1 = { cs with
        chain := (acChainAcceptBlock P env.acceptMs env.writes cs.chain p.certified).2 }.put i
      { p with committed := true, block := p.certified } := by
  rw [sealBlock, if_pos (.inl hok)]

/-- **A block of the past that carries its votes is committed as soon as it arrives.** -/
lemma handleBlock_commits (hP : P.MallocBounded) {past : List Block}
    (hc : Reachable P g past cs.chain)
    (hfind : pendingFind cs.pending (acBlockHash P b.header) = none)
    (hlate : Late g b env) (hpass : PassesChecks P env.acceptMs cs.chain b)
    (hok : ∀ d, Reachable P g past d → (acChainAcceptBlock P env.acceptMs .all d b).1 = .ok)
    (hvotes : enoughVotes cs.chain b.signers = true) :
    Reachable P g (past ++ [b]) (handleBlock P env cs b).1.chain ∧
      ∃ i p, (handleBlock P env cs b).1.pending = Function.update cs.pending i (some p) ∧
        p.blockHash = acBlockHash P b.header := by
  have hl := hc.ledger hP
  have hseeded : Reachable P g past (stashed P env cs b).chain := by
    have := hc.step (.seeded cs.chain (acEpochOf b.header.slot))
    rwa [List.append_nil] at this
  have hpast : b.header.slot + 1 < acChainCurrentSlot env.wallMs (stashed P env cs b).chain := by
    rw [acChainCurrentSlot, (hseeded.ledger hP).genesisTimestampMs_eq]
    exact hlate.past
  have hentry : (stashed P env cs b).pending (pendingAlloc cs.pending) =
      some (Pending.fresh P env.seenMs b.header.slot b (leaderPriority P cs.chain b.header)) :=
    Function.update_self ..
  obtain ⟨ms, hseal⟩ := tryCommit_seals (P := P) hentry rfl
    ((hc.enoughVotes_eq hP hseeded b.signers).trans hvotes) hpast
  have hacc := hok _ hseeded
  rw [← hlate.writes] at hacc
  have hstep := hseeded.step (.accepted env.acceptMs env.writes _ b hacc)
  have hheard : handleBlock P env cs b = tryCommit P env (stashed P env cs b)
      (pendingAlloc cs.pending) :=
    handleBlock_unknown (SameBlocks.sameView rfl hl hl) hl.cacheValid
      (hpass.isProposal hl.cacheValid) hfind
  rw [hheard, hseal, sealBlock_accepted hacc]
  refine ⟨hstep, pendingAlloc cs.pending, _, Function.update_idem .., ?_⟩
  rfl

/-- **The answer to a request is taken block by block.** -/
theorem Following.next (hP : P.MallocBounded) (hhistory : CommitHistory P g bs)
    (hdistinct : (bs.map fun b => acBlockHash P b.header).Nodup)
    (hn : Following P g bs h n) (hb : bs[h]? = some b) (hlate : Late g b env) :
    Following P g bs (h + 1) (dispatchMessage P env n (answerFrame b)).1 := by
  obtain ⟨hi, rfl⟩ := List.getElem?_eq_some_iff.mp hb
  have hdrop : bs.drop h = bs[h] :: bs.drop (h + 1) := List.drop_eq_getElem_cons hi
  obtain ⟨hpass, -⟩ := hhistory.accepts_next hP hb hn.reached hlate.clock
  obtain ⟨c₁, -, -, hc₁, hvotes, -⟩ := hhistory h _ hb
  have hcommit := handleBlock_commits hP hn.reached
    (hn.unrecorded _ (by rw [hdrop]; exact List.mem_cons_self ..)).find hlate hpass
    (fun d hd => (hhistory.accepts_next hP hb hd hlate.clock).2)
    ((hc₁.enoughVotes_eq hP hn.reached _).trans hvotes)
  have hdispatch : (dispatchMessage P env n (answerFrame bs[h])).1.cs =
      (handleBlock P env n.cs bs[h]).1 := by
    rw [← acConsensusHandleBlock_blockBytes]
    rfl
  obtain ⟨hreached, i, p, htable, hhash⟩ := hcommit
  refine ⟨?_, fun x hx => ?_⟩
  · rw [hdispatch, List.take_succ_eq_append_getElem hi]
    exact hreached
  · -- the entry of the block that was taken is not the one of a later block
    have hne : acBlockHash P bs[h].header ≠ acBlockHash P x.header := by
      rw [← List.take_append_drop h bs, hdrop, List.map_append, List.map_cons] at hdistinct
      have hnotin := (List.nodup_cons.mp (List.nodup_append.mp hdistinct).2.1).1
      exact fun heq => hnotin (heq ▸ List.mem_map_of_mem hx)
    rw [hdispatch, htable]
    intro j q hq
    rw [Function.update_apply] at hq
    split_ifs at hq
    · obtain rfl := Option.some.inj hq
      rw [hhash]
      exact hne
    · exact hn.unrecorded x (by rw [hdrop]; exact List.mem_cons_of_mem _ hx) j q hq

end Block

/-! ### The answer -/

section Answer

variable {P : Platform} {g : Genesis} {bs : List Block} {c : Chain} {h : ℕ}

/-- A node finds the blocks of its history under their heights. -/
lemma Ledger.getBlock (hl : Ledger P g bs c) {k : ℕ} (hk : k < bs.length) :
    acChainGetBlockByHeight c (UInt64.ofNat (k + 1)) = bs[k]? := by
  have hheight := c.height.toNat_lt
  rw [hl.height_eq] at hheight
  have hlow : ¬ c.height < UInt64.ofNat (k + 1) := by
    rw [UInt64.lt_iff_toNat_lt, hl.height_eq,
      UInt64.toNat_ofNat_of_lt' (show k + 1 < 2 ^ 64 by omega)]
    omega
  rw [acChainGetBlockByHeight, if_neg hlow, hl.stored (k + 1) hk, List.getElem?_cons_succ]

/-- How many blocks are sent back. -/
lemma onHeadersReq_count (hlen : bs.length < 2 ^ 32) (hheight : c.height.toNat = bs.length)
    (hle : h < bs.length) {count : UInt32} (hcount : count ≤ 256) :
    (if c.height + 1 < UInt64.ofNat (h + 1) + count.toUInt64 then
      (c.height + 1 - UInt64.ofNat (h + 1)).toUInt32 else count).toNat =
      min count.toNat (bs.length - h) := by
  have h256 : count.toNat ≤ 256 := UInt32.le_iff_toNat_le.mp hcount
  have hfrom : (UInt64.ofNat (h + 1)).toNat = h + 1 :=
    UInt64.toNat_ofNat_of_lt' (show h + 1 < 2 ^ 64 by omega)
  have htip : (c.height + 1).toNat = bs.length + 1 := by
    rw [UInt64.toNat_add, hheight, UInt64.toNat_one, Nat.mod_eq_of_lt (by omega)]
  have hend : (UInt64.ofNat (h + 1) + count.toUInt64).toNat = h + 1 + count.toNat := by
    rw [UInt64.toNat_add, hfrom, UInt32.toNat_toUInt64, Nat.mod_eq_of_lt (by omega)]
  split_ifs with hlong
  all_goals rw [UInt64.lt_iff_toNat_lt, htip, hend] at hlong
  · rw [UInt64.toNat_toUInt32, UInt64.toNat_sub_of_le _ _ (by
      rw [UInt64.le_iff_toNat_le, htip, hfrom]; omega), htip, hfrom]
    omega
  · omega

/-- The first entries of a list, looked up one after the other. -/
lemma filterMap_range_getElem? {α β : Type*} (l : List α) (f : α → β) (k : ℕ) :
    ((List.range k).filterMap fun i => (l[i]?).map f) = (l.take k).map f := by
  induction k with
  | zero => rfl
  | succ k ih =>
    rw [List.range_succ, List.filterMap_append, ih, List.take_add_one, List.map_append]
    cases hk : l[k]? with
    | none => simp [hk]
    | some a => simp [hk]

/-- **A request is answered with the stored blocks**, at most 256 of them. -/
theorem onHeadersReq_stored (hl : Ledger P g bs c) (hlen : bs.length < 2 ^ 32)
    (hle : h < bs.length) {count : UInt32} (hpos : count ≠ 0)
    (hcount : count ≤ 256) : onHeadersReq c (UInt64.ofNat (h + 1)) count =
      ((bs.drop h).take count.toNat).map answerFrame := by
  have hheight := hl.height_eq
  have hlow : ¬ c.height < UInt64.ofNat (h + 1) := by
    rw [UInt64.lt_iff_toNat_lt, hheight, UInt64.toNat_ofNat_of_lt' (show h + 1 < 2 ^ 64 by omega)]
    omega
  have hclip : (if 256 < count then 256 else count) = count := if_neg (UInt32.not_lt.mpr hcount)
  rw [onHeadersReq, if_neg hpos]
  dsimp only
  rw [if_neg hlow, hclip, onHeadersReq_count hlen hheight hle hcount]
  have hread : ∀ i ∈ List.range (min count.toNat (bs.length - h)),
      ((acChainGetBlockByHeight c (UInt64.ofNat (h + 1) + UInt64.ofNat i)).map fun b =>
        (⟨.blockRes, blockBytes b⟩ : Frame)) = ((bs.drop h)[i]?).map answerFrame := by
    intro i hi
    have hlt : h + i < bs.length := by
      rw [List.mem_range] at hi
      omega
    rw [← UInt64.ofNat_add, show h + 1 + i = h + i + 1 by omega, hl.getBlock hlt,
      List.getElem?_drop]
    rfl
  rw [List.filterMap_congr hread, filterMap_range_getElem?, ← List.length_drop, ← List.take_take,
    List.take_length]

end Answer

/-! ### The exchange -/

/-- The delivery of a stored block to a node that is late for it. -/
structure LateAnswer (g : Genesis) (f : Env × Frame) (b : Block) : Prop where
  frame_eq : f.2 = answerFrame b
  late : Late g b f.1

section Exchange

variable {P : Platform} {g : Genesis} {bs : List Block} {c : Chain} {b : Block} {env : Env}
  {n server : Inbox} {h : ℕ}

/-- **Any first part of the missing blocks is accepted**, when it is delivered in order. -/
theorem Following.deliver (hP : P.MallocBounded) (hhistory : CommitHistory P g bs)
    (hdistinct : (bs.map fun b => acBlockHash P b.header).Nodup)
    {fs : List (Env × Frame)} {part : List Block} (hpart : part <+: bs.drop h)
    (hn : Following P g bs h n) (hfs : List.Forall₂ (LateAnswer g) fs part) :
    Following P g bs (h + part.length) (deliverAll P n fs) := by
  induction hfs generalizing h n with
  | nil => exact hn
  | @cons f b fs part hf hfs ih =>
    obtain ⟨rest, hrest⟩ := hpart
    have hb : bs[h]? = some b := by
      rw [← List.head?_drop, ← hrest]
      rfl
    have hnext := hn.next hP hhistory hdistinct hb hf.late
    have hpart' : part <+: bs.drop (h + 1) := by
      refine ⟨rest, ?_⟩
      rw [← List.tail_drop, ← hrest]
      rfl
    have hall := ih hpart' hnext
    rw [deliverAll, List.foldl_cons, hf.frame_eq, List.length_cons, add_comm part.length,
      ← add_assoc]
    exact hall

/-- The number of blocks that are asked for. -/
lemma reqCount_gap {target height : UInt64} (hlt : height.toNat ≤ target.toNat)
    (htarget : target.toNat < 2 ^ 32) :
    (reqCount target height).toNat = min 256 (target.toNat - height.toNat) := by
  have hgap : (target - height).toUInt32.toNat = target.toNat - height.toNat := by
    rw [UInt64.toNat_toUInt32, UInt64.toNat_sub_of_le _ _ (UInt64.le_iff_toNat_le.mpr hlt),
      Nat.mod_eq_of_lt (by omega)]
  have h256 : (256 : UInt32).toNat = 256 := rfl
  rw [reqCount]
  split_ifs with hlong
  all_goals rw [UInt32.lt_iff_toNat_lt, hgap, h256] at hlong
  · omega
  · omega

/-- A block of the history far above the tip leads to a request for the blocks in between. -/
lemma Following.handleBlock_far (hP : P.MallocBounded) (hserver : Chronicle P g bs c)
    (hn : Following P g bs h n) {t : ℕ} (hb : bs[t]? = some b) (hfar : h < t) :
    handleBlock P env n.cs b = requestGap env n.cs b.header.height := by
  obtain ⟨c₁, now, w, hc₁, -, hok⟩ := hserver.history t b hb
  have hversion := (checkLink_eq_none.mp
    ((acChainAcceptBlock_ok_iff hP (hc₁.ledger hP).cacheValid).mp hok).1.link).1
  have hheight : b.header.height.toNat = t + 1 := hserver.ledger.consecutive t b hb
  have hmissing : b ∈ bs.drop h := by
    refine List.mem_of_getElem? (i := t - h) ?_
    rw [List.getElem?_drop, show h + (t - h) = t by omega, hb]
  have hfuture : n.cs.chain.height + 1 < b.header.height := by
    have hlt := b.header.height.toNat_lt
    have htip : n.cs.chain.height.toNat ≤ h := by
      rw [(hn.reached.ledger hP).height_eq]
      exact List.length_take_le h bs
    rw [UInt64.lt_iff_toNat_lt, hheight, UInt64.toNat_add, UInt64.toNat_one,
      Nat.mod_eq_of_lt (by omega)]
    omega
  rw [handleBlock, if_neg (not_not.mpr hversion), (hn.unrecorded b hmissing).find]
  exact if_pos hfuture

/-- A node that hears of a block far above its tip asks for the blocks in between. -/
lemma Following.request (hP : P.MallocBounded) (hserver : Chronicle P g bs c)
    (hn : Following P g bs h n) {t : ℕ} (hb : bs[t]? = some b) (hfar : h < t)
    (hnew : n.dedup.has (acHash P (blockBytes b)) = false)
    (hdue : acHdrsReqMinIntervalMs ≤ env.seenMs - n.cs.lastHdrsReqMs) :
    (dispatchMessage P env n (blockFrame b)).2 =
        [.own (.headersReq (acBe64 (UInt64.ofNat (h + 1)) ++
          acBe32 (reqCount b.header.height n.cs.chain.height))), .relay (blockFrame b)] ∧
      Following P g bs h (dispatchMessage P env n (blockFrame b)).1 := by
  have ht : t < bs.length := (List.getElem?_eq_some_iff.mp hb).1
  have hnext : n.cs.chain.height + 1 = UInt64.ofNat (h + 1) := by
    have htip : n.cs.chain.height.toNat = h := by
      rw [(hn.reached.ledger hP).height_eq, List.length_take]
      omega
    rw [UInt64.ofNat_add, ← htip, UInt64.ofNat_toNat]
    rfl
  have hgossip : dispatchMessage P env n (blockFrame b) =
      (⟨n.dedup.push (acHash P (blockBytes b)), (requestGap env n.cs b.header.height).1⟩,
        (requestGap env n.cs b.header.height).2.map .own ++ [.relay (blockFrame b)]) := by
    rw [← hn.handleBlock_far hP hserver hb hfar, ← acConsensusHandleBlock_blockBytes]
    show gossip P n (blockFrame b) (fun cs => acConsensusHandleBlock P env cs (blockBytes b)) = _
    rw [gossip, show n.dedup.has (acHash P (blockFrame b).payload) = false from hnew]
    rfl
  rw [hgossip, requestGap_eq, if_pos (.inl hdue), hnext]
  exact ⟨rfl, hn.reached, hn.unrecorded⟩

/-- The peer reads the request as it was written. -/
lemma dispatchMessage_headersReq (env : Env) (server : Inbox) (height : UInt64) (count : UInt32) :
    (dispatchMessage P env server ⟨.headersReq, acBe64 height ++ acBe32 count⟩).2 =
      (onHeadersReq server.cs.chain height count).map .reply := by
  have hcount : acRd32 ((acBe64 height ++ acBe32 count).drop 8) = count := by
    rw [List.drop_left' (by simp [acBe64]), acRd32_acBe32]
  rw [dispatchMessage]
  dsimp only
  rw [if_neg (by simp [acBe64, acBe32]), acRd64_acBe64, hcount]

/-- **One exchange.**  A node that has accepted the first `h` blocks of a peer hears of a later
one.  It asks for the blocks in between, the peer answers with up to 256 of them, and whatever
first part of the answer arrives is accepted. -/
theorem Following.exchange (hP : P.MallocBounded) (hserver : Chronicle P g bs server.cs.chain)
    (hlen : bs.length < 2 ^ 32)
    (hdistinct : (bs.map fun b => acBlockHash P b.header).Nodup) (hn : Following P g bs h n)
    {t : ℕ} (hb : bs[t]? = some b) (hfar : h < t)
    (hnew : n.dedup.has (acHash P (blockBytes b)) = false)
    (hdue : acHdrsReqMinIntervalMs ≤ env.seenMs - n.cs.lastHdrsReqMs) :
    ∃ req, (dispatchMessage P env n (blockFrame b)).2 =
        [.own (.headersReq req), .relay (blockFrame b)] ∧
      (∀ senv, (dispatchMessage P senv server ⟨.headersReq, req⟩).2 =
        (((bs.drop h).take (min 256 (t + 1 - h))).map answerFrame).map .reply) ∧
      ∀ fs part, part <+: (bs.drop h).take (min 256 (t + 1 - h)) →
        List.Forall₂ (LateAnswer g) fs part →
        Following P g bs (h + part.length)
          (deliverAll P (dispatchMessage P env n (blockFrame b)).1 fs) := by
  have ht : t < bs.length := (List.getElem?_eq_some_iff.mp hb).1
  have hheight : b.header.height.toNat = t + 1 := hserver.ledger.consecutive t b hb
  have htip : n.cs.chain.height.toNat = h := by
    rw [(hn.reached.ledger hP).height_eq, List.length_take]
    omega
  have hcount : (reqCount b.header.height n.cs.chain.height).toNat = min 256 (t + 1 - h) := by
    rw [reqCount_gap (by omega) (by omega), hheight, htip]
  obtain ⟨hsent, hheard⟩ := hn.request hP hserver hb hfar hnew hdue
  refine ⟨_, hsent, fun senv => ?_, fun fs part hpart hfs => ?_⟩
  · rw [dispatchMessage_headersReq, onHeadersReq_stored hserver.ledger hlen (by omega) ?_
      (reqCount_le ..), hcount]
    intro hzero
    rw [hzero, UInt32.toNat_zero] at hcount
    omega
  · exact hheard.deliver hP hserver.history hdistinct (hpart.trans (List.take_prefix ..)) hfs

end Exchange

/-! ### Joining -/

/-- The frames that a node sends to its peers by itself. -/
def ownFrames (out : List Outgoing) : List Frame :=
  out.filterMap fun o =>
    match o with
    | .own m => some m.frame
    | _ => none

/-- The frames that are sent back to a peer. -/
def replyFrames (out : List Outgoing) : List Frame :=
  out.filterMap fun o =>
    match o with
    | .reply f => some f
    | _ => none

/-- The answers of a peer to what a node has sent. -/
def answersTo (P : Platform) (env : Env) (server : Inbox) (out : List Outgoing) : List Frame :=
  (ownFrames out).flatMap fun f => replyFrames (dispatchMessage P env server f).2

/-- Rounds of catching up with a peer that holds the blocks `bs`: the node hears of a block of
index at least `goal` that is far above its tip, and all answers to its request arrive. -/
inductive Rounds (P : Platform) (g : Genesis) (bs : List Block) (server : Inbox) (goal : ℕ) :
    ℕ → Inbox → Inbox → Prop
  | none (n : Inbox) : Rounds P g bs server goal 0 n n
  | next {k : ℕ} {n n' : Inbox} (h : Rounds P g bs server goal k n n') (env senv : Env) (b : Block)
      (t : ℕ) (fs : List (Env × Frame)) (hb : bs[t]? = some b) (hgoal : goal ≤ t)
      (hfar : n'.cs.chain.height.toNat < t)
      (hnew : n'.dedup.has (acHash P (blockBytes b)) = false)
      (hdue : acHdrsReqMinIntervalMs ≤ env.seenMs - n'.cs.lastHdrsReqMs)
      (hanswers : fs.map Prod.snd =
        answersTo P senv server (dispatchMessage P env n' (blockFrame b)).2)
      (hlate : ∀ f ∈ fs, ∀ b ∈ bs, f.2 = answerFrame b → Late g b f.1) :
      Rounds P g bs server goal (k + 1) n
        (deliverAll P (dispatchMessage P env n' (blockFrame b)).1 fs)

section Joining

variable {P : Platform} {g : Genesis} {bs : List Block} {c : Chain} {n n' server : Inbox} {h k : ℕ}

/-- A node that has just opened the genesis has accepted none of the blocks. -/
lemma following_initial (hc : Reachable P g [] c) (kp : Keypair) (validator : Bool) :
    Following P g bs 0 (Inbox.initial (acConsensusNew c kp validator)) where
  reached := hc
  unrecorded := by
    intro b _ i p hp
    cases hp

/-- Answers that arrive late, paired with their blocks. -/
lemma forall₂_lateAnswer {fs : List (Env × Frame)} {part : List Block}
    (hfs : fs.map Prod.snd = part.map answerFrame)
    (hlate : ∀ f ∈ fs, ∀ b ∈ part, f.2 = answerFrame b → Late g b f.1) :
    List.Forall₂ (LateAnswer g) fs part := by
  induction fs generalizing part with
  | nil =>
    cases part with
    | nil => exact .nil
    | cons b part => cases hfs
  | cons f fs ih =>
    cases part with
    | nil => cases hfs
    | cons b part =>
      rw [List.map_cons, List.map_cons, List.cons.injEq] at hfs
      refine .cons ⟨hfs.1, hlate f List.mem_cons_self b List.mem_cons_self hfs.1⟩ (ih hfs.2 ?_)
      exact fun f hf b hb => hlate f (List.mem_cons_of_mem _ hf) b (List.mem_cons_of_mem _ hb)

/-- **Catching up.**  A peer has run from the genesis without a restart and without failed writes,
and holds fewer than `2 ^ 32` blocks, no two of them with the same hash.  In every round a node
that has accepted the first of these blocks commits up to 256 further ones: after `k` rounds it
has accepted all blocks up to the goal, or 256 in each round, and holds the state of the peer at
that height. -/
theorem catch_up_rounds (hP : P.MallocBounded) {kp : Keypair} {validator : Bool} {slot : UInt64}
    {as : List NodeAction} {peer : Node} (hopen : Reachable P g [] c)
    (hrun : NodeRun P (Undisturbed P) (Node.initial c kp validator slot) as peer)
    (hserver : server.cs = peer.cs) (hblocks : Ledger P g bs peer.cs.chain)
    (hlen : bs.length < 2 ^ 32) (hdistinct : (bs.map fun b => acBlockHash P b.header).Nodup)
    (hn : Following P g bs h n) {goal : ℕ} (hrounds : Rounds P g bs server goal k n n') :
    ∃ h', min (goal + 1) (h + 256 * k) ≤ h' ∧ Following P g bs h' n' ∧
      n'.cs.chain.state = replay P (genesisState g) (bs.take h') := by
  obtain ⟨bs', hchron⟩ := hrun.chronicle hP hopen
  obtain rfl := hchron.ledger.blocks_eq hblocks
  rw [← hserver] at hchron
  suffices hall : ∃ h', min (goal + 1) (h + 256 * k) ≤ h' ∧ Following P g bs h' n' by
    obtain ⟨h', hle, hfollows⟩ := hall
    exact ⟨h', hle, hfollows, (hfollows.reached.ledger hP).state_eq⟩
  induction hrounds with
  | none n => exact ⟨h, by omega, hn⟩
  | @next k n n' hrounds env senv b t fs hb hgoal hfar hnew hdue hanswers hlate ih =>
    obtain ⟨h', hle, hfollows⟩ := ih hn
    have ht : t < bs.length := (List.getElem?_eq_some_iff.mp hb).1
    have hheight := (hfollows.reached.ledger hP).height_eq
    rw [List.length_take] at hheight
    have hfar' : h' < t := by omega
    obtain ⟨req, hsent, hreply, hdeliver⟩ := hfollows.exchange hP hchron hlen hdistinct hb
      hfar' hnew hdue
    have hframes : fs.map Prod.snd =
        ((bs.drop h').take (min 256 (t + 1 - h'))).map answerFrame := by
      rw [hanswers, hsent]
      simp only [answersTo, ownFrames, replyFrames, List.filterMap_cons, List.filterMap_nil,
        Msg.frame, List.flatMap_cons, List.flatMap_nil, List.append_nil, hreply]
      rw [List.filterMap_map]
      exact List.filterMap_some
    refine ⟨_, ?_, hdeliver fs _ (List.prefix_refl _) (forall₂_lateAnswer hframes ?_)⟩
    · rw [List.length_take, List.length_drop]
      omega
    · exact fun f hf b hb => hlate f hf b (List.mem_of_mem_drop (List.mem_of_mem_take hb))

/-- A peer that has opened the genesis and received two blocks with their votes. -/
def bondingPeer : Node :=
  (Node.initial (openedChain bondingGenesis) (referenceKey 1) true 1).execAll reference
    [.receive (Env.atMs 100000) (.blockRes (blockBytes bondingBlock)),
      .receive (Env.atMs 100000) (.blockRes (blockBytes (bondedBlock [referenceKey 1])))]

/-- A node that has just opened the genesis of the peer. -/
def bondingJoiner : Inbox :=
  .initial (acConsensusNew (openedChain bondingGenesis) (referenceKey 2) false)

/-- What the peer answers when the node hears of the second block. -/
def bondingAnswers : List (Env × Frame) :=
  (answersTo reference (Env.atMs 100000) (.initial bondingPeer.cs) (dispatchMessage reference
    (Env.atMs 100000) bondingJoiner (blockFrame (bondedBlock [referenceKey 1]))).2).map
    fun f => (Env.atMs 100000, f)

/-- A node on the opened genesis takes both blocks of the peer in one round. -/
theorem catch_up_rounds_bonding :
    ∃ n' h', min (1 + 1) (0 + 256 * 1) ≤ h' ∧
      Following reference bondingGenesis [bondingBlock, bondedBlock [referenceKey 1]] h' n' ∧
      n'.cs.chain.state = replay reference (genesisState bondingGenesis)
        ([bondingBlock, bondedBlock [referenceKey 1]].take h') := by
  have hfacts : AllMeet reference (Undisturbed reference)
        (Node.initial (openedChain bondingGenesis) (referenceKey 1) true 1)
        [.receive (Env.atMs 100000) (.blockRes (blockBytes bondingBlock)),
          .receive (Env.atMs 100000) (.blockRes (blockBytes (bondedBlock [referenceKey 1])))] ∧
      bondingPeer.cs.chain.height = 2 ∧
      blockRead bondingPeer.cs.chain.dir 1 = some bondingBlock ∧
      blockRead bondingPeer.cs.chain.dir 2 = some (bondedBlock [referenceKey 1]) ∧
      ([bondingBlock, bondedBlock [referenceKey 1]].map fun b =>
        acBlockHash reference b.header).Nodup ∧
      ∀ b ∈ [bondingBlock, bondedBlock [referenceKey 1]],
        b.header.slot + 1 < slotAt bondingGenesis 100000 ∧
          ¬ (100000 : UInt64) + 1500 < b.header.timestampMs := by
    decide +kernel
  obtain ⟨hmeet, hheight, hfirst, hsecond, hdistinct, hlate⟩ := hfacts
  have hopened := reachable_openedChain (g := bondingGenesis) (by decide +kernel)
  have hrun : NodeRun reference (Undisturbed reference)
      (Node.initial (openedChain bondingGenesis) (referenceKey 1) true 1) _ bondingPeer :=
    nodeRun_execAll hmeet
  have hblocks : Ledger reference bondingGenesis [bondingBlock, bondedBlock [referenceKey 1]]
      bondingPeer.cs.chain := by
    obtain ⟨bs, hl⟩ := hrun.ledger reference_mallocBounded hopened.node
    have hlen : bs.length = 2 := by rw [← hl.height_eq, hheight]; rfl
    match bs, hlen with
    | [b, b'], _ =>
      obtain rfl := Option.some.inj (hfirst.symm.trans (hl.stored 1 (by simp)))
      obtain rfl := Option.some.inj (hsecond.symm.trans (hl.stored 2 (by simp)))
      exact hl
  have hn : Following reference bondingGenesis [bondingBlock, bondedBlock [referenceKey 1]] 0
      bondingJoiner := following_initial hopened (referenceKey 2) false
  have hround : Rounds reference bondingGenesis [bondingBlock, bondedBlock [referenceKey 1]]
      (.initial bondingPeer.cs) 1 1 bondingJoiner (deliverAll reference (dispatchMessage reference
        (Env.atMs 100000) bondingJoiner (blockFrame (bondedBlock [referenceKey 1]))).1
        bondingAnswers) := by
    refine .next (.none _) (Env.atMs 100000) (Env.atMs 100000) (bondedBlock [referenceKey 1]) 1
      bondingAnswers rfl le_rfl (by decide +kernel) rfl (by decide) ?_ ?_
    · rw [bondingAnswers, List.map_map]
      exact List.map_id _
    · intro f hf b hb _
      obtain ⟨x, -, rfl⟩ := List.mem_map.mp hf
      exact ⟨rfl, (hlate b hb).1, (hlate b hb).2⟩
  exact ⟨_, catch_up_rounds reference_mallocBounded hopened hrun rfl hblocks (by decide) hdistinct
    hn hround⟩

end Joining

end AgentChain
