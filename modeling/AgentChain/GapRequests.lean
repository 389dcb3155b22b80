import AgentChain.Gossip
import AgentChain.VoteLock

/-!
# Requests for missing blocks

A block above the next height shows that the node lags behind, and
`ac_consensus_handle_block` asks the peers for what is missing.  It asks again when four seconds
have passed since the last request, or when the target has grown by more than 64.

The test for the growth adds 64 to the last target in 64 bits, and the number of blocks asked for
is cut to 32 bits before it is limited to 256.  The rule that is kept for all heights is therefore
the one in words, `requests_in_words`.  The rule in numbers is kept as long as no block message
brings one of the last 64 heights, and requests are not empty as long as none brings a height
that agrees with the own height in the low 32 bits (`requests_limited`).
-/

namespace AgentChain

open Trace

/-- A `HEADERS_REQ` message: when it was sent, for which block, at which own height, and for how
many blocks. -/
structure HdrsReq where
  ms : UInt64
  target : UInt64
  height : UInt64
  count : UInt32
deriving DecidableEq

/-- What happens at the engine: a block message comes in, or it is called for something else. -/
inductive EngineEvent where
  | message (env : Env) (payload : Bytes)
  | other (x : Call) (hx : ∀ env b, x ≠ .block env b)

/-- The clock readings of the block messages. -/
def EngineEvent.readings : EngineEvent → List UInt64
  | .message env _ => [env.seenMs]
  | .other _ _ => []

/-- A block message brings no height above the next one that is too high or that agrees with
the own height in the low 32 bits. -/
def EngineEvent.HeightFits (cs : Consensus) : EngineEvent → Prop
  | .message _ payload => ∀ r ∈ acBlockDecode payload,
      cs.chain.height + 1 < r.1.header.height →
        r.1.header.height.toNat + 64 < 2 ^ 64 ∧
          ¬ r.1.header.height.toNat ≡ cs.chain.height.toNat [MOD 2 ^ 32]
  | .other _ _ => True

instance (cs : Consensus) : (e : EngineEvent) → Decidable (e.HeightFits cs)
  | .message _ payload => inferInstanceAs (Decidable (∀ r ∈ acBlockDecode payload,
      cs.chain.height + 1 < r.1.header.height →
        r.1.header.height.toNat + 64 < 2 ^ 64 ∧
          ¬ r.1.header.height.toNat ≡ cs.chain.height.toNat [MOD 2 ^ 32]))
  | .other _ _ => isTrue trivial

section Requests

variable (P : Platform)

/-- The header requests that `ac_consensus_handle_block` broadcasts for a message. -/
def hdrsReqsOf (env : Env) (cs : Consensus) (payload : Bytes) : List HdrsReq :=
  match acBlockDecode payload with
  | none => []
  | some r => (acConsensusHandleBlock P env cs payload).2.filterMap fun m =>
      match m with
      | .headersReq req =>
          some ⟨env.seenMs, r.1.header.height, cs.chain.height, acRd32 (req.drop 8)⟩
      | _ => none

/-- The state after an event, and the requests. -/
def EngineEvent.step (cs : Consensus) : EngineEvent → Consensus × List HdrsReq
  | .message env payload =>
      ((acConsensusHandleBlock P env cs payload).1, hdrsReqsOf P env cs payload)
  | .other x _ => ((x.run P cs).1, [])

/-- The requests of a sequence of events, in order. -/
def hdrsReqs : Consensus → List EngineEvent → List HdrsReq
  | _, [] => []
  | cs, e :: es => (e.step P cs).2 ++ hdrsReqs (e.step P cs).1 es

/-- Every message of a sequence brings a height that fits when it comes in. -/
def HeightsFit : Consensus → List EngineEvent → Prop
  | _, [] => True
  | cs, e :: es => e.HeightFits cs ∧ HeightsFit (e.step P cs).1 es

instance decHeightsFit : (cs : Consensus) → (es : List EngineEvent) → Decidable (HeightsFit P cs es)
  | _, [] => isTrue trivial
  | cs, e :: es =>
      haveI := decHeightsFit (e.step P cs).1 es
      inferInstanceAs (Decidable (e.HeightFits cs ∧ HeightsFit P (e.step P cs).1 es))

end Requests

/-! ### What keeps the record of the last request -/

/-- The record of the last request is the same. -/
def Consensus.SameRate (cs cs' : Consensus) : Prop :=
  cs'.lastHdrsReqMs = cs.lastHdrsReqMs ∧ cs'.lastHdrsReqTarget = cs.lastHdrsReqTarget

lemma Consensus.SameRate.refl (cs : Consensus) : cs.SameRate cs := ⟨rfl, rfl⟩

lemma Consensus.SameRate.trans {cs cs' cs'' : Consensus} (h : cs.SameRate cs')
    (h' : cs'.SameRate cs'') : cs.SameRate cs'' :=
  ⟨h'.1.trans h.1, h'.2.trans h.2⟩

/-- A message that asks for no headers. -/
def Msg.NoRequest : Msg → Prop
  | .headersReq _ => False
  | _ => True

section Rate

variable {P : Platform} {env : Env} {cs : Consensus}

lemma sealBlock_sameRate (i : Fin 8) (p : Pending) :
    cs.SameRate (sealBlock P env cs i p).1 ∧ ∀ m ∈ (sealBlock P env cs i p).2, m.NoRequest := by
  rw [sealBlock]
  split_ifs
  · refine ⟨⟨rfl, rfl⟩, ?_⟩
    intro m hm
    rw [List.mem_singleton.mp hm]
    trivial
  · exact ⟨⟨rfl, rfl⟩, by simp⟩

lemma Settle.sameRate {E : Env → Prop} {msgs : List Msg} {cs' : Consensus}
    (h : Settle P E cs msgs cs') : cs.SameRate cs' ∧ ∀ m ∈ msgs, m.NoRequest := by
  cases h with
  | timed => exact ⟨⟨rfl, rfl⟩, by simp⟩
  | offered => exact sealBlock_sameRate _ _

/-- Attempts to seal send no request. -/
lemma settled_sameRate {E : Env → Prop} {msgs : List Msg} {cs' : Consensus}
    (h : Run (Settle P E) cs msgs cs') : cs.SameRate cs' ∧ ∀ m ∈ msgs, m.NoRequest := by
  refine h.invariant (I := fun ms t => cs.SameRate t ∧ ∀ m ∈ ms, m.NoRequest)
    ⟨.refl cs, by simp⟩ ?_
  rintro ms t new u ⟨hrate, hms⟩ hs
  obtain ⟨hrate', hnew⟩ := hs.sameRate
  refine ⟨hrate.trans hrate', fun m hm => ?_⟩
  rcases List.mem_append.mp hm with hm | hm
  · exact hms m hm
  · exact hnew m hm

/-- A change that keeps the record, and then an attempt to seal. -/
lemma tryCommit_sameRate {cs' : Consensus} (h : cs.SameRate cs') (i : Fin 8) :
    cs.SameRate (tryCommit P env cs' i).1 :=
  h.trans (settled_sameRate (tryCommit_settle (E := fun _ => True) trivial cs' i)).1

lemma ourVoteNow_sameRate (i : Fin 8) (p : Pending) : cs.SameRate (ourVoteNow P cs i p).1 := by
  rw [ourVoteNow]
  split <;> exact ⟨rfl, rfl⟩

lemma handleVote_sameRate (cs : Consensus) (v : Vote) :
    cs.SameRate (handleVote P env cs v).1 := by
  rw [handleVote]
  split_ifs
  · exact .refl cs
  cases pendingFind cs.pending v.blockHash with
  | none => exact .refl cs
  | some ip =>
    dsimp only
    by_cases hstake : (acStateGet cs.chain.state v.signer).2.stake < acMinStakeUcrd
    · rw [if_pos hstake]
      exact ⟨rfl, rfl⟩
    rw [if_neg hstake]
    cases acVrfVerify P v.vrfProof (committeeAlpha
        (acChainEpochSeed P cs.chain (acEpochOf ip.2.slot)).1 ip.2.slot) v.signer with
    | none => exact ⟨rfl, rfl⟩
    | some beta =>
      dsimp only
      split_ifs
      · exact ⟨rfl, rfl⟩
      · exact ⟨rfl, rfl⟩
      · exact tryCommit_sameRate ⟨rfl, rfl⟩ _

lemma votePhase_sameRate (cs : Consensus) (slot : UInt64) :
    cs.SameRate (votePhase P env cs slot).1 := by
  have hvote : ∀ (sv : SlotVotes) (i : Fin 8) (p : Pending),
      cs.SameRate (ourVoteNow P { cs with slotVotes := sv } i p).1 :=
    fun _ i p => ourVoteNow_sameRate i p
  rw [votePhase]
  dsimp only
  by_cases hvalidator : (!cs.validator) = true
  · rw [if_pos hvalidator]
    exact .refl cs
  rw [if_neg hvalidator]
  by_cases hvoted : ((slotVoteFor cs.slotVotes slot).2 (slotVoteFor cs.slotVotes slot).1).voted
  · rw [if_pos hvoted]
    exact ⟨rfl, rfl⟩
  rw [if_neg hvoted]
  cases bestAt cs.pending (cs.chain.height + 1) with
  | none => exact ⟨rfl, rfl⟩
  | some ip =>
    dsimp only
    split_ifs
    · split
      · exact ⟨rfl, rfl⟩
      · exact tryCommit_sameRate (hvote _ _ _) _
    · -- the lock of the vote is moved before the attempt to seal
      refine tryCommit_sameRate ?_ _
      exact hvote (slotVoteFor cs.slotVotes slot).2 ip.1 ip.2

lemma sealPhase_sameRate (envs : Fin 8 → Env) (cs : Consensus) (slot : UInt64) :
    cs.SameRate (sealPhase P envs cs slot).1 :=
  (settled_sameRate (sealPhase_settle (E := fun _ => True) (fun _ => trivial) cs slot)).1

/-- Only block messages change the record of the last request. -/
lemma Call.run_sameRate {x : Call} (hx : ∀ env b, x ≠ .block env b) (cs : Consensus) :
    cs.SameRate (x.run P cs).1 := by
  cases x with
  | block env b => exact absurd rfl (hx env b)
  | vote env v => exact handleVote_sameRate cs v
  | propose env junk slot b => exact tryCommit_sameRate ⟨rfl, rfl⟩ _
  | votePhase env slot => exact votePhase_sameRate cs slot
  | sealPhase envs slot => exact sealPhase_sameRate envs cs slot

end Rate

/-! ### One message -/

/-- The number of blocks that is asked for. -/
def reqCount (target height : UInt64) : UInt32 :=
  if 256 < (target - height).toUInt32 then 256 else (target - height).toUInt32

lemma reqCount_le (target height : UInt64) : reqCount target height ≤ 256 := by
  rw [reqCount]
  split_ifs with h
  · exact UInt32.le_refl _
  · exact UInt32.not_lt.mp h

/-- A request is empty when the low halves of the target and of the own height agree. -/
lemma reqCount_eq_zero_iff (target height : UInt64) :
    reqCount target height = 0 ↔ target.toNat ≡ height.toNat [MOD 2 ^ 32] := by
  have hword : (target - height).toUInt32 = 0 ↔ target.toNat ≡ height.toNat [MOD 2 ^ 32] := by
    have ht := target.toNat_lt
    have hh := height.toNat_lt
    rw [← UInt32.toNat_inj, UInt64.toNat_toUInt32, UInt64.toNat_sub, UInt32.toNat_zero, Nat.ModEq]
    omega
  rw [← hword, reqCount]
  split_ifs with h
  · constructor
    · intro h0
      exact absurd h0 (by decide)
    · intro h0
      rw [h0] at h
      exact absurd h (by decide)
  · exact Iff.rfl

/-- What a block message does to the record of the last request: nothing when no request is
sent; otherwise there is one request, it is recorded, and it was due. -/
structure Requested (env : Env) (cs : Consensus) (r : HdrsReq) (cs' : Consensus) : Prop where
  ms_eq : r.ms = env.seenMs
  lastMs_eq : cs'.lastHdrsReqMs = r.ms
  lastTarget_eq : cs'.lastHdrsReqTarget = r.target
  due : acHdrsReqMinIntervalMs ≤ env.seenMs - cs.lastHdrsReqMs ∨
    cs.lastHdrsReqTarget + 64 < r.target
  count_eq : r.count = reqCount r.target r.height

section Step

variable {P : Platform} {env : Env} {cs : Consensus}

/-- The requests among messages. -/
def reqsIn (env : Env) (cs : Consensus) (target : UInt64) (msgs : List Msg) : List HdrsReq :=
  msgs.filterMap fun m =>
    match m with
    | .headersReq req => some ⟨env.seenMs, target, cs.chain.height, acRd32 (req.drop 8)⟩
    | _ => none

lemma reqsIn_eq_nil {target : UInt64} {msgs : List Msg} (h : ∀ m ∈ msgs, m.NoRequest) :
    reqsIn env cs target msgs = [] := by
  refine List.filterMap_eq_nil_iff.mpr fun m hm => ?_
  have hno := h m hm
  cases m with
  | headersReq req => exact hno.elim
  | blockRes _ => rfl
  | blockAnn _ => rfl
  | commitVote _ => rfl

lemma acRd32_acBe32 (v : UInt32) : acRd32 (acBe32 v) = v := by
  rw [acRd32, acBe32, List.take_of_length_le (by simp), beDecode_beEncode v.toNat_lt,
    UInt32.ofNat_toNat]

lemma requestGap_eq (env : Env) (cs : Consensus) (target : UInt64) : requestGap env cs target =
    if acHdrsReqMinIntervalMs ≤ env.seenMs - cs.lastHdrsReqMs ∨
      cs.lastHdrsReqTarget + 64 < target then
      ({ cs with lastHdrsReqMs := env.seenMs, lastHdrsReqTarget := target },
        [.headersReq (acBe64 (cs.chain.height + 1) ++ acBe32 (reqCount target cs.chain.height))])
    else (cs, []) := by
  simp only [requestGap, reqCount, Bool.or_eq_true, decide_eq_true_iff]

/-- The request for the gap. -/
lemma requestGap_requested (env : Env) (cs : Consensus) (target : UInt64) :
    (reqsIn env cs target (requestGap env cs target).2 = [] ∧
        cs.SameRate (requestGap env cs target).1) ∨
      ∃ r, reqsIn env cs target (requestGap env cs target).2 = [r] ∧
        Requested env cs r (requestGap env cs target).1 := by
  rw [requestGap_eq]
  split_ifs with hdue
  · right
    refine ⟨⟨env.seenMs, target, cs.chain.height, reqCount target cs.chain.height⟩, ?_, ?_⟩
    · simp only [reqsIn, List.filterMap_cons, List.filterMap_nil]
      rw [List.drop_left' (by simp [acBe64]), acRd32_acBe32]
    · exact ⟨rfl, rfl, rfl, hdue, rfl⟩
  · exact .inl ⟨rfl, .refl cs⟩

/-- Only a block above the next height leads to a request. -/
lemma handleBlock_requested (env : Env) (cs : Consensus) (b : Block) :
    (reqsIn env cs b.header.height (handleBlock P env cs b).2 = [] ∧
        cs.SameRate (handleBlock P env cs b).1) ∨
      (cs.chain.height + 1 < b.header.height ∧
        ((reqsIn env cs b.header.height (handleBlock P env cs b).2 = [] ∧
            cs.SameRate (handleBlock P env cs b).1) ∨
          ∃ r, reqsIn env cs b.header.height (handleBlock P env cs b).2 = [r] ∧
            Requested env cs r (handleBlock P env cs b).1)) := by
  have hcommit : ∀ (cs' : Consensus) (i : Fin 8), cs.SameRate cs' →
      reqsIn env cs b.header.height (tryCommit P env cs' i).2 = [] ∧
        cs.SameRate (tryCommit P env cs' i).1 := fun cs' i h =>
    ⟨reqsIn_eq_nil (settled_sameRate (tryCommit_settle (E := fun _ => True) trivial cs' i)).2,
      tryCommit_sameRate h i⟩
  rw [handleBlock]
  by_cases hversion : b.header.version ≠ acBlockVersion
  · rw [if_pos hversion]
    exact .inl ⟨rfl, .refl cs⟩
  rw [if_neg hversion]
  cases pendingFind cs.pending (acBlockHash P b.header) with
  | some ip => exact .inl (hcommit _ _ ⟨rfl, rfl⟩)
  | none =>
    dsimp only
    by_cases hfar : cs.chain.height + 1 < b.header.height
    · rw [if_pos hfar]
      exact .inr ⟨hfar, requestGap_requested env cs b.header.height⟩
    rw [if_neg hfar]
    left
    by_cases hlink : b.header.height ≠ cs.chain.height + 1 ∨ b.header.parentHash ≠ cs.chain.tipHash
    · rw [if_pos hlink]
      exact ⟨rfl, .refl cs⟩
    rw [if_neg hlink]
    cases acVrfVerify P b.header.proposerVrfProof (leaderAlpha
        (acChainEpochSeed P cs.chain (acEpochOf b.header.slot)).1 b.header.slot)
        b.header.proposer with
    | none => exact ⟨rfl, rfl, rfl⟩
    | some beta => exact hcommit _ _ ⟨rfl, rfl⟩

/-- **One event.** -/
lemma EngineEvent.step_requested (P : Platform) (cs : Consensus) (e : EngineEvent) :
    ((e.step P cs).2 = [] ∧ cs.SameRate (e.step P cs).1) ∨
      ∃ env r, e.readings = [env.seenMs] ∧ (e.step P cs).2 = [r] ∧
        Requested env cs r (e.step P cs).1 := by
  cases e with
  | other x hx => exact .inl ⟨rfl, Call.run_sameRate hx cs⟩
  | message env payload =>
    rw [step, hdrsReqsOf, acConsensusHandleBlock]
    cases acBlockDecode payload with
    | none => exact .inl ⟨rfl, .refl cs⟩
    | some bn =>
      rcases handleBlock_requested (P := P) env cs bn.1 with hnone | ⟨-, hnone | ⟨r, hreq, hr⟩⟩
      · exact .inl hnone
      · exact .inl hnone
      · exact .inr ⟨env, r, rfl, hreq, hr⟩

/-- A request names the height of the block and the own height. -/
lemma fields_of_mem_reqsIn {target : UInt64} {msgs : List Msg} {r : HdrsReq}
    (h : r ∈ reqsIn env cs target msgs) : r.target = target ∧ r.height = cs.chain.height := by
  obtain ⟨m, -, hm⟩ := List.mem_filterMap.mp h
  split at hm
  · rw [← Option.some.inj hm]
    exact ⟨rfl, rfl⟩
  · cases hm

/-- The requests of an event whose height fits. -/
lemma EngineEvent.HeightFits.request {e : EngineEvent} (h : e.HeightFits cs) {r : HdrsReq}
    (hr : r ∈ (e.step P cs).2) :
    r.target.toNat + 64 < 2 ^ 64 ∧ ¬ r.target.toNat ≡ r.height.toNat [MOD 2 ^ 32] := by
  cases e with
  | other x hx => exact absurd hr List.not_mem_nil
  | message env payload =>
    rw [step, hdrsReqsOf, acConsensusHandleBlock] at hr
    cases hdec : acBlockDecode payload with
    | none =>
      rw [hdec] at hr
      exact absurd hr List.not_mem_nil
    | some bn =>
      rw [hdec] at hr
      change r ∈ reqsIn env cs bn.1.header.height (handleBlock P env cs bn.1).2 at hr
      rcases handleBlock_requested (P := P) env cs bn.1 with ⟨hnone, -⟩ | ⟨hfar, -⟩
      · rw [hnone] at hr
        exact absurd hr List.not_mem_nil
      · obtain ⟨htarget, hheight⟩ := fields_of_mem_reqsIn hr
        rw [htarget, hheight]
        exact h bn hdec hfar

end Step

/-! ### Sequences of events -/

/-- Two requests in a row that are less than four seconds apart. -/
def HdrsReq.Close (a b : HdrsReq) : Prop := b.ms.toNat < a.ms.toNat + 4000

instance : DecidableRel HdrsReq.Close := fun _ _ => Nat.decLt _ _

section Run

variable {P : Platform} {cs : Consensus} {es : List EngineEvent}

lemma due_of_close {now last : UInt64} (hle : last ≤ now) (hclose : now.toNat < last.toNat + 4000) :
    ¬ acHdrsReqMinIntervalMs ≤ now - last := by
  rw [UInt64.le_iff_toNat_le, UInt64.toNat_sub_of_le _ _ hle, not_le]
  have h4000 : acHdrsReqMinIntervalMs.toNat = 4000 := rfl
  omega

/-- The rule in words, behind a request that is on record. -/
lemma requests_behind (es : List EngineEvent) {cs : Consensus} {r : HdrsReq}
    (hms : cs.lastHdrsReqMs = r.ms) (htarget : cs.lastHdrsReqTarget = r.target)
    (hclock : (r.ms :: es.flatMap EngineEvent.readings).Pairwise (· ≤ ·)) :
    (r :: hdrsReqs P cs es).IsChain fun a b => a.Close b → a.target + 64 < b.target := by
  induction es generalizing cs r with
  | nil => exact List.isChain_singleton r
  | cons e es ih =>
    rw [hdrsReqs]
    rw [List.flatMap_cons] at hclock
    rcases e.step_requested P cs with ⟨hnone, hsame⟩ | ⟨env, r', hread, hreq, hr⟩
    · rw [hnone, List.nil_append]
      refine ih (hsame.1.trans hms) (hsame.2.trans htarget) (hclock.sublist ?_)
      exact (List.sublist_append_right _ _).cons_cons r.ms
    · rw [hread, ← hr.ms_eq, List.singleton_append, List.pairwise_cons] at hclock
      rw [hreq, List.singleton_append, List.isChain_cons_cons]
      refine ⟨?_, ih hr.lastMs_eq hr.lastTarget_eq hclock.2⟩
      intro hclose
      have hle : r.ms ≤ r'.ms := hclock.1 r'.ms (List.mem_cons_self ..)
      rw [← htarget]
      refine hr.due.resolve_left ?_
      rw [← hr.ms_eq, hms]
      exact due_of_close hle hclose

/-- **The rule in words.**  Whatever the heights, a request that comes less than four seconds
after the last one has a target above the last one by more than 64, in 64 bits. -/
theorem requests_in_words (cs : Consensus) (es : List EngineEvent)
    (hclock : (es.flatMap EngineEvent.readings).Pairwise (· ≤ ·)) :
    (hdrsReqs P cs es).IsChain fun a b => a.Close b → a.target + 64 < b.target := by
  induction es generalizing cs with
  | nil => exact List.isChain_nil
  | cons e es ih =>
    rw [hdrsReqs]
    rw [List.flatMap_cons] at hclock
    rcases e.step_requested P cs with ⟨hnone, -⟩ | ⟨env, r, hread, hreq, hr⟩
    · rw [hnone, List.nil_append]
      exact ih _ (hclock.sublist (List.sublist_append_right _ _))
    · rw [hread, ← hr.ms_eq] at hclock
      rw [hreq]
      exact requests_behind es hr.lastMs_eq hr.lastTarget_eq hclock

/-- The count of every request. -/
lemma count_of_mem_requests {r : HdrsReq} (h : r ∈ hdrsReqs P cs es) :
    r.count = reqCount r.target r.height := by
  induction es generalizing cs with
  | nil => cases h
  | cons e es ih =>
    rw [hdrsReqs, List.mem_append] at h
    rcases h with h | h
    · rcases e.step_requested P cs with ⟨hnone, -⟩ | ⟨env, r', -, hreq, hr⟩
      · rw [hnone] at h
        cases h
      · rw [hreq, List.mem_singleton] at h
        rw [h]
        exact hr.count_eq
    · exact ih h

/-- The targets of a sequence of messages whose heights fit. -/
lemma HeightsFit.requests {r : HdrsReq} (h : HeightsFit P cs es) (hr : r ∈ hdrsReqs P cs es) :
    r.target.toNat + 64 < 2 ^ 64 ∧ ¬ r.target.toNat ≡ r.height.toNat [MOD 2 ^ 32] := by
  induction es generalizing cs with
  | nil => cases hr
  | cons e es ih =>
    rw [hdrsReqs, List.mem_append] at hr
    rcases hr with hr | hr
    · exact h.1.request hr
    · exact ih h.2 hr

/-- **Requests are limited and never empty.**  For every sequence of block messages and other
calls with readings of the clock that do not decrease, in which every message brings a height
that fits: requests in a row that are less than four seconds apart have targets more than 64
apart, and every request asks for 1 to 256 blocks. -/
theorem requests_limited (P : Platform) (cs : Consensus) (es : List EngineEvent)
    (hclock : (es.flatMap EngineEvent.readings).Pairwise (· ≤ ·)) (hfits : HeightsFit P cs es) :
    (hdrsReqs P cs es).IsChain (fun a b => a.Close b → a.target.toNat + 64 < b.target.toNat) ∧
      ∀ r ∈ hdrsReqs P cs es, 1 ≤ r.count ∧ r.count ≤ 256 := by
  have hwords := requests_in_words (P := P) cs es hclock
  refine ⟨List.isChain_iff_getElem.mpr fun i hi hclose => ?_, fun r hr => ?_⟩
  · have hsum := (hfits.requests (List.getElem_mem (Nat.lt_of_succ_lt hi))).1
    have hlt := UInt64.lt_iff_toNat_lt.mp (List.isChain_iff_getElem.mp hwords i hi hclose)
    rw [UInt64.toNat_add] at hlt
    exact (Nat.mod_eq_of_lt hsum).symm.trans_lt hlt
  · have hcount : r.count ≠ 0 := by
      rw [count_of_mem_requests hr, ne_eq, reqCount_eq_zero_iff]
      exact (hfits.requests hr).2
    rw [count_of_mem_requests hr] at hcount ⊢
    exact ⟨UInt32.pos_iff_ne_zero.mpr hcount, reqCount_le _ _⟩

end Run

/-! ### A poisoned target -/

/-- The block of the first validator at another height. -/
def Block.lifted (b : Block) (height : UInt64) : Block :=
  { b with header := { b.header with height := height } }

/-- The announcement of a block at a height, with the reading of the clock. -/
def aheadAt (ms height : UInt64) : EngineEvent :=
  .message (Env.atMs ms) (blockBytes ((builtBy 1).lifted height))

/-- Two blocks far enough ahead, five milliseconds apart. -/
theorem requests_limited_steps :
    hdrsReqs labelled (equalNode 2).cs [aheadAt 10000 100, aheadAt 10005 200] =
        [⟨10000, 100, 0, 100⟩, ⟨10005, 200, 0, 200⟩] ∧
      (hdrsReqs labelled (equalNode 2).cs [aheadAt 10000 100, aheadAt 10005 200]).IsChain
        (fun a b => a.Close b → a.target.toNat + 64 < b.target.toNat) := by
  have hreqs : hdrsReqs labelled (equalNode 2).cs [aheadAt 10000 100, aheadAt 10005 200] =
      [⟨10000, 100, 0, 100⟩, ⟨10005, 200, 0, 200⟩] := by
    decide +kernel
  exact ⟨hreqs, (requests_limited labelled (equalNode 2).cs
    [aheadAt 10000 100, aheadAt 10005 200] (by decide) (by decide +kernel)).1⟩

/-- **A poisoned target.**  The block of the last height sets the target to where adding 64 wraps
around.  Ten milliseconds later a block that is not as high is asked for again, and this request
asks for no blocks at all. -/
theorem wrapped_target_requests :
    hdrsReqs labelled (equalNode 2).cs
        [aheadAt 10000 18446744073709551615, aheadAt 10010 4294967296] =
      [⟨10000, 18446744073709551615, 0, 256⟩, ⟨10010, 4294967296, 0, 0⟩] := by
  decide +kernel

end AgentChain
