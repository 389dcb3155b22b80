import AgentChain.BlockWire
import AgentChain.BulkBlock
import AgentChain.Peers
import AgentChain.VoteDelivery

/-!
# Committed blocks and the size of a frame

A proposal comes in as the payload of a frame.  When its votes are collected it is committed, and
`try_commit_inner` announces it again, now with the certificate.  Nothing leaves room for the
certificate in the frame that brought the proposal: 160 bytes are added for each vote that the
frame did not have.  `ac_net_broadcast` and `ac_net_send_to` shut the connection down when a
message does not fit, so a proposal close to the limit costs the node the peers that it is
announced to.
-/

namespace AgentChain

open Trace

/-! ### Where entries come from -/

/-- The entry holds the block that is decoded from a payload. -/
structure Pending.CameIn (p : Pending) (buf : Bytes) (b : Block) (k : ℕ) : Prop where
  decoded : acBlockDecode buf = some (b, k)
  header_eq : p.block.header = b.header
  txs_eq : p.block.txs = b.txs

/-- The action is the arrival of a block message with the payload. -/
def NodeAction.Brings (a : NodeAction) (buf : Bytes) : Prop :=
  ∃ env, a = .receive env (.blockAnn buf) ∨ a = .receive env (.blockRes buf)

/-- The block of the entry came in with one of the actions, or the key has proposed it. -/
def Pending.Origin (as : List NodeAction) (key : Addr) (p : Pending) : Prop :=
  (∃ a ∈ as, ∃ buf b k, a.Brings buf ∧ p.CameIn buf b k) ∨ p.block.header.proposer = key

section Origin

variable {P : Platform} {n : Node} {a : NodeAction} {as bs : List NodeAction} {key : Addr}
  {p q : Pending}

lemma Pending.Origin.kin (h : p.Origin as key) (hkin : p.Kin q) : q.Origin as key := by
  rcases h with ⟨a, ha, buf, b, k, hbuf, hin⟩ | hown
  · exact .inl ⟨a, ha, buf, b, k, hbuf, hin.decoded, hkin.header_eq.trans hin.header_eq,
      hkin.txs_eq.trans hin.txs_eq⟩
  · exact .inr (hkin.header_eq ▸ hown)

lemma Pending.Origin.append (h : p.Origin as key) (bs : List NodeAction) :
    p.Origin (as ++ bs) key :=
  h.imp_left fun ⟨a, ha, hin⟩ => ⟨a, List.mem_append_left bs ha, hin⟩

/-- An entry that an action puts into the table. -/
lemma NodeAction.stashes_origin (hbuilt : ∀ b, n.pc = .built b → b.header.proposer = key)
    (h : a.stashes P n = some p) : p.Origin [a] key := by
  have hframe : ∀ {env buf r}, a.Brings buf → acBlockDecode buf = some r →
      receivedEntry P env n.cs r.1 = some p → p.Origin [a] key := by
    intro env buf r hbrings hdecode hentry
    obtain ⟨-, -, -, -, beta, -, rfl⟩ := receivedEntry_some hentry
    exact .inl ⟨a, List.mem_singleton_self a, buf, r.1, r.2, hbrings, hdecode, rfl, rfl⟩
  obtain ⟨x, hx, hstash⟩ := Option.bind_eq_some_iff.mp h
  rcases NodeAction.call_cases hx with ⟨env, m, b, rfl, rfl⟩ | ⟨env, m, v, rfl, rfl⟩ |
    ⟨env, junk, b, rfl, hpc, rfl⟩ | ⟨env, rfl, -, rfl⟩ | ⟨env, rfl, -, rfl⟩
  · cases m with
    | headersReq buf => cases hx
    | commitVote buf =>
      obtain ⟨v, -, hv⟩ := Option.map_eq_some_iff.mp hx
      cases hv
    | blockAnn buf =>
      obtain ⟨r, hr, hb⟩ := Option.map_eq_some_iff.mp hx
      cases hb
      exact hframe ⟨env, .inl rfl⟩ hr hstash
    | blockRes buf =>
      obtain ⟨r, hr, hb⟩ := Option.map_eq_some_iff.mp hx
      cases hb
      exact hframe ⟨env, .inr rfl⟩ hr hstash
  · cases hstash
  · obtain rfl := Option.some.inj hstash
    exact .inr (hbuilt b hpc)
  · cases hstash
  · cases hstash

/-- Every entry has an origin among the actions, and the block that the thread has built names
the node as its proposer. -/
structure OriginInv (as : List NodeAction) (n : Node) : Prop where
  entries : ∀ i p, n.cs.pending i = some p → p.Origin as n.cs.kp.pk
  built : ∀ b, n.pc = .built b → b.header.proposer = n.cs.kp.pk

/-- **One action.** -/
lemma OriginInv.step (hP : P.MallocBounded) (h : OriginInv as n) :
    OriginInv (as ++ [a]) (n.exec P a) := by
  obtain ⟨new, -, hlock, -⟩ := n.exec_lockStep hP a
  have hkp := hlock.kp_eq
  refine ⟨fun i q hq => ?_, fun b hb => ?_⟩
  · rw [hkp]
    obtain ⟨p, hkin, hold | hnew⟩ := Node.exec_origin hP hq
    · exact ((h.entries i p hold).append [a]).kin hkin
    · rcases NodeAction.stashes_origin h.built hnew with ⟨x, hx, hin⟩ | hown
      · exact Pending.Origin.kin (.inl ⟨x, List.mem_append_right as hx, hin⟩) hkin
      · exact Pending.Origin.kin (.inr hown) hkin
  · rw [hkp]
    rcases (n.exec_pc a).2 b hb with hold | ⟨proof, cands, b₀, -, hb₀, rfl⟩
    · exact h.built b hold
    · obtain ⟨-, -, rfl⟩ := acChainBuildBlock_some hP hb₀
      rfl

/-- **Every run**: an entry whose proposer is not the node itself came in with a frame of the
run. -/
theorem NodeRun.entry_origin (hP : P.MallocBounded) {C : Node → NodeAction → Prop} {c : Chain}
    {kp : Keypair} {validator : Bool} {slot : UInt64}
    (h : NodeRun P C (Node.initial c kp validator slot) as n) {i : Fin 8}
    (hp : n.cs.pending i = some p) : p.Origin as kp.pk := by
  have hinv : OriginInv as n := by
    refine Run.invariant (I := OriginInv) h ⟨fun i p hp => ?_, fun b hb => ?_⟩ ?_
    · cases hp
    · cases hb
    · rintro as m _ m' hm ⟨a, rfl, -, rfl⟩
      exact hm.step hP
  have hkp : n.cs.kp = kp := h.kp_eq hP
  rw [← hkp]
  exact hinv.entries i p hp

end Origin

/-! ### What a commit sends -/

section Commit

variable {P : Platform} {env : Env} {cs : Consensus} {i : Fin 8} {p : Pending} {force : Bool}
  {buf : Bytes} {b : Block} {k : ℕ}

/-- The certificate takes the place of the signers that came with the proposal. -/
lemma Pending.CameIn.length_certified (h : p.CameIn buf b k) :
    (blockBytes p.certified).length + 160 * b.signers.length = k + 160 * p.signers.length := by
  obtain ⟨rfl, -⟩ := acBlockDecode_eq_some.mp h.decoded
  have htxs : p.certified.txs = b.txs := h.txs_eq
  have hsigners : p.certified.signers = p.signers := rfl
  rw [length_blockBytes, length_blockBytes, htxs, hsigners]
  omega

/-- The certified block fits when the proposal and the additional signers do. -/
lemma Pending.CameIn.fits_iff (h : p.CameIn buf b k) :
    (blockBytes p.certified).length ≤ acFrameMaxBytes - 2 ↔
      k + 160 * p.signers.length ≤ acFrameMaxBytes - 2 + 160 * b.signers.length := by
  rw [← h.length_certified]
  exact (Nat.add_le_add_iff_right).symm

/-- A connection that is shut down by the certified block alone. -/
lemma Pending.CameIn.up_iff (h : p.CameIn buf b k) {shut : Bool}
    (hshut : shut = true ↔ acFrameMaxBytes - 2 < (blockBytes p.certified).length) :
    shut = false ↔
      k + 160 * p.signers.length ≤ acFrameMaxBytes - 2 + 160 * b.signers.length := by
  rw [← h.fits_iff, ← Bool.not_eq_true, hshut, not_lt]

/-- An entry that gets committed is announced with its certificate. -/
lemma tryCommitInner_commits (hp : cs.pending i = some p) (hopen : p.committed = false)
    (hcommit : ((tryCommitInner P env cs i force).1.pending i).any Pending.committed = true) :
    (tryCommitInner P env cs i force).2 = [.blockAnn (blockBytes p.certified)] ∧
      (tryCommitInner P env cs i force).1.chain =
        (acChainAcceptBlock P env.acceptMs env.writes cs.chain p.certified).2 := by
  have hseal : ∀ q : Pending, q.certified = p.certified → q.committed = false →
      ((sealBlock P env cs i q).1.pending i).any Pending.committed = true →
      (sealBlock P env cs i q).2 = [.blockAnn (blockBytes p.certified)] ∧
        (sealBlock P env cs i q).1.chain =
          (acChainAcceptBlock P env.acceptMs env.writes cs.chain p.certified).2 := by
    intro q hq hqopen hdone
    rw [sealBlock, hq] at hdone ⊢
    generalize acChainAcceptBlock P env.acceptMs env.writes cs.chain p.certified = r at hdone ⊢
    split_ifs at hdone ⊢ with hrc
    · exact ⟨rfl, rfl⟩
    · simp [Consensus.put, hqopen] at hdone
  rw [tryCommitInner, hp] at hcommit ⊢
  dsimp only at hcommit ⊢
  rw [if_neg (by simp [hopen])] at hcommit ⊢
  by_cases hvotes : enoughVotes cs.chain p.signers = true
  swap
  · rw [if_pos (by simpa using hvotes)] at hcommit
    simp [hp, hopen] at hcommit
  rw [if_neg (by simpa using hvotes)] at hcommit ⊢
  by_cases htime : p.thresholdReachedMs = 0
  · rw [if_pos htime] at hcommit ⊢
    split_ifs at hcommit ⊢
    · simp [Consensus.put, hopen] at hcommit
    · exact hseal _ rfl hopen hcommit
  · rw [if_neg htime] at hcommit ⊢
    split_ifs at hcommit ⊢
    · simp [Consensus.put, hopen] at hcommit
    · exact hseal _ rfl hopen hcommit

/-- A node that has accepted a block answers a request for it with the block. -/
lemma onHeadersReq_accepted (hP : P.MallocBounded) {now : UInt64} {w : Writes} {c : Chain}
    (hok : (acChainAcceptBlock P now w c b).1 = .ok) :
    onHeadersReq (acChainAcceptBlock P now w c b).2 b.header.height 1 =
      [⟨.blockRes, blockBytes b⟩] := by
  obtain ⟨-, -, -, -, buf, -, hres⟩ := acChainAcceptBlock_ok hP hok
  have hheight : (committed P c b buf).height = b.header.height := rfl
  have hread := blockRead_committed (P := P) (c := c) b buf b.header.height
  rw [if_pos rfl] at hread
  have hone : ¬ b.header.height + 1 < b.header.height + (1 : UInt32).toUInt64 := UInt64.lt_irrefl _
  have hfew : (if (256 : UInt32) < 1 then (256 : UInt32) else 1) = 1 := rfl
  rw [hres, onHeadersReq, if_neg (by decide)]
  dsimp only
  rw [hheight, if_neg (UInt64.lt_irrefl _), hfew, if_neg hone]
  have hzero : b.header.height + UInt64.ofNat 0 = b.header.height := UInt64.add_zero _
  simp only [UInt32.toNat_one, List.range_one, List.filterMap_cons, List.filterMap_nil, hzero,
    acChainGetBlockByHeight, hheight, if_neg (UInt64.lt_irrefl _), hread, Option.map_some]

/-- **Committed blocks and frames.**  A block came in as the first `k` bytes of a payload, and
`try_commit_inner` commits it with the signers that were collected.  Then it is announced with
its certificate, and a request for it is answered with the certificate when the chain has just
accepted it.  The announcement and the answer leave the connection of a peer with an empty open
queue up exactly when the bytes of the proposal and of the additional signers fit into a
frame. -/
theorem committed_block_fits_iff (hP : P.MallocBounded) (hp : cs.pending i = some p)
    (hopen : p.committed = false) (hframe : p.CameIn buf b k)
    (hcommit : ((tryCommitInner P env cs i force).1.pending i).any Pending.committed = true) :
    (tryCommitInner P env cs i force).2 = [.blockAnn (blockBytes p.certified)] ∧
    ((blockBytes p.certified).length ≤ acFrameMaxBytes - 2 ↔
      k + 160 * p.signers.length ≤ acFrameMaxBytes - 2 + 160 * b.signers.length) ∧
    (∀ (peers : PeerTable) j exclude, (peers j).Idle → (peers j).active = true →
      exclude ≠ some (peers j).peerId →
      ((acNetBroadcast (fun _ => true) peers ⟨.blockAnn, blockBytes p.certified⟩ exclude j).shut =
          false ↔
        k + 160 * p.signers.length ≤ acFrameMaxBytes - 2 + 160 * b.signers.length)) ∧
    ((acChainAcceptBlock P env.acceptMs env.writes cs.chain p.certified).1 = .ok →
      onHeadersReq (tryCommitInner P env cs i force).1.chain p.block.header.height 1 =
        [⟨.blockRes, blockBytes p.certified⟩] ∧
      ∀ (peers : PeerTable) j peerId, (peers j).Idle → peers.routeTo peerId = some j →
        ((acNetSendTo true peers ⟨.blockRes, blockBytes p.certified⟩ peerId j).shut = false ↔
          k + 160 * p.signers.length ≤ acFrameMaxBytes - 2 + 160 * b.signers.length)) := by
  obtain ⟨hsent, hchain⟩ := tryCommitInner_commits hp hopen hcommit
  refine ⟨hsent, hframe.fits_iff, ?_, fun hok => ⟨?_, ?_⟩⟩
  · intro peers j exclude hidle hactive hother
    exact hframe.up_iff (acNetBroadcast_shut hidle hactive hother _)
  · rw [hchain]
    exact onHeadersReq_accepted hP hok
  · intro peers j peerId hidle hroute
    exact hframe.up_iff (acNetSendTo_shut hidle hroute _)

/-- **Commits in a run.**  When a node commits a block that it has not proposed itself, the block
came in with a frame of the run, and the announcement leaves the connections up exactly when the
bytes that it took there and the additional signers fit into a frame. -/
theorem NodeRun.announcement_fits_iff (hP : P.MallocBounded) {C : Node → NodeAction → Prop}
    {c : Chain} {kp : Keypair} {validator : Bool} {slot : UInt64} {as : List NodeAction} {n : Node}
    (hrun : NodeRun P C (Node.initial c kp validator slot) as n) (hp : n.cs.pending i = some p)
    (hopen : p.committed = false) (hother : p.block.header.proposer ≠ kp.pk)
    (hcommit : ((tryCommitInner P env n.cs i force).1.pending i).any Pending.committed = true) :
    (tryCommitInner P env n.cs i force).2 = [.blockAnn (blockBytes p.certified)] ∧
      ∃ a ∈ as, ∃ buf b k, a.Brings buf ∧ p.CameIn buf b k ∧
        ∀ (peers : PeerTable) j exclude, (peers j).Idle → (peers j).active = true →
          exclude ≠ some (peers j).peerId →
          ((acNetBroadcast (fun _ => true) peers ⟨.blockAnn, blockBytes p.certified⟩
              exclude j).shut = false ↔
            k + 160 * p.signers.length ≤ acFrameMaxBytes - 2 + 160 * b.signers.length) := by
  refine ⟨(tryCommitInner_commits hp hopen hcommit).1, ?_⟩
  rcases hrun.entry_origin hP hp with ⟨a, ha, buf, b, k, hbrings, hframe⟩ | hown
  · exact ⟨a, ha, buf, b, k, hbrings, hframe, fun peers j exclude hidle hactive hexclude =>
      hframe.up_iff (acNetBroadcast_shut hidle hactive hexclude _)⟩
  · exact absurd hown hother

end Commit

/-! ### A proposal close to the limit -/

section Late

variable {P : Platform} {env : Env} {cs : Consensus} {i : Fin 8} {p : Pending}

/-- Without signers nothing is committed while somebody has stake. -/
lemma tryCommit_unsigned (hp : cs.pending i = some p) (hnil : p.signers = [])
    (htotal : acChainTotalSqrtStake cs.chain ≠ 0) : tryCommit P env cs i = (cs, []) := by
  have hpos : 0 < acChainTotalSqrtStake cs.chain := by
    rw [UInt64.lt_iff_toNat_lt]
    exact Nat.pos_of_ne_zero fun h0 => htotal (UInt64.toNat_inj.mp h0)
  have hfew : enoughVotes cs.chain p.signers = false := by
    rw [enoughVotes, hnil]
    simp [collectedSqrt, hpos, UInt64.zero_le]
  rw [tryCommit, tryCommitInner, hp]
  dsimp only
  rw [hfew, if_pos (show (!false) = true from rfl)]
  exact ite_self _

/-- A node that is late commits an entry as soon as it has the votes. -/
lemma tryCommit_late (hp : cs.pending i = some p) (hopen : p.committed = false)
    (hvotes : enoughVotes cs.chain p.signers = true)
    (hlate : p.slot + 1 < acChainCurrentSlot env.wallMs cs.chain)
    (hok : (acChainAcceptBlock P env.acceptMs env.writes cs.chain p.certified).1 = .ok) :
    ((tryCommitInner P env cs i false).1.pending i).any Pending.committed = true := by
  have hseal : ∀ q : Pending, q.certified = p.certified →
      ((sealBlock P env cs i q).1.pending i).any Pending.committed = true := by
    intro q hq
    rw [sealBlock, hq, if_pos (.inl hok)]
    simp [Consensus.put]
  rw [tryCommitInner, hp]
  dsimp only
  rw [if_neg (by simp [hopen]), if_neg (by simp [hvotes]), if_neg (by simp [hlate])]
  split_ifs
  · exact hseal _ rfl
  · exact hseal _ rfl

/-- The only entry of a table is found by its hash. -/
lemma pendingFind_only {t : PendingTable} (hempty : ∀ j, t j = none) (i : Fin 8) (p : Pending) :
    pendingFind (Function.update t i (some p)) p.blockHash = some (i, p) := by
  cases hfind : pendingFind (Function.update t i (some p)) p.blockHash with
  | none =>
    have hnone := List.findSome?_eq_none_iff.mp hfind i (List.mem_finRange i)
    rw [Function.update_self] at hnone
    exact absurd hnone (by simp)
  | some r =>
    obtain ⟨hr, -⟩ := PendingTable.first_some (i := r.1) (p := r.2) hfind
    by_cases hri : r.1 = i
    · rw [hri, Function.update_self] at hr
      rw [← hri, Option.some.inj hr]
    · rw [Function.update_of_ne hri, hempty] at hr
      cases hr

end Late

/-- The vote of the validator as it is sent. -/
def bulkBallot (n : ℕ) : Vote :=
  castVote reference bulkKey (bulkHeader n).height (acBlockHash reference (bulkHeader n))
    (bulkVote n).vrfProof

/-- A node without stake, on the chain of the validator. -/
def bulkListener : Node := Node.initial bulkChain (referenceKey 2) false 1

/-- The proposal arrives, and then the vote, long after the first slot. -/
def bulkArrivals (n : ℕ) (h : n ≤ 4096) : List NodeAction :=
  [.receive (.atMs 100000) (.blockAnn (blockBytes (bulkBlock n h))),
    .receive (.atMs 100000) (.commitVote (voteEncode (bulkBallot n)))]

section Bulk

variable {n : ℕ}

lemma bulkChain_cacheValid : bulkChain.CacheValid reference :=
  ((reachable_openedChain bulkStart.opens).node.ledger reference_mallocBounded).1.cacheValid

lemma bulkBlock_proposal (h : n ≤ 4096) : Proposal reference bulkChain (bulkBlock n h) := by
  refine ⟨rfl, rfl, rfl, ?_⟩
  have hvrf := acVrfVerify_prove (reference_valid bulkKey)
    (leaderAlpha (computeEpochSeed reference bulkChain (acEpochOf 1)) 1)
  exact Option.isSome_of_mem hvrf

lemma bulkBallot_valid (h : n ≤ 4096) :
    ValidVote reference bulkChain (bulkBlock n h) (bulkBallot n) := by
  have hvrf := acVrfVerify_prove (reference_valid bulkKey)
    (committeeAlpha (computeEpochSeed reference bulkChain (acEpochOf 1)) 1)
  have hsigner : (bulkBallot n).signer = bulkKey.pk := rfl
  refine ⟨rfl, reference_valid bulkKey _, ?_, _, hvrf, ?_⟩
  · rw [hsigner, bulkStart.account]
    decide
  · rw [hsigner, bulkStart.account, bulkStart.total, bulkStart.sqrtStake]
    rfl

/-- The engine holds the proposal with the given signers. -/
structure BulkHeld (n : ℕ) (h : n ≤ 4096) (signers : List CommitSigner) (cs : Consensus) (i : Fin 8)
    (p : Pending) : Prop where
  reseeded : bulkChain.Reseeded reference cs.chain
  held : cs.pending i = some p
  uncommitted : p.committed = false
  slot_eq : p.slot = 1
  signers_eq : p.signers = signers
  block_eq : p.block = bulkBlock n h

/-- The proposal arrives. -/
lemma bulkBlock_heard (h : n ≤ 4096) : ∃ cs i p, BulkHeld n h [] cs i p ∧
    pendingFind cs.pending (acBlockHash reference (bulkHeader n)) = some (i, p) ∧
    handleBlock reference (.atMs 100000) (acConsensusNew bulkChain (referenceKey 2) false)
      (bulkBlock n h) = (cs, []) := by
  generalize hnew : acConsensusNew bulkChain (referenceKey 2) false = cs
  have hchain : cs.chain = bulkChain := by rw [← hnew]; rfl
  have hempty : ∀ j, cs.pending j = none := by
    intro j
    rw [← hnew]
    rfl
  have hview : bulkChain.SameView cs.chain := by
    rw [hchain]
    exact (Chain.Reseeded.refl (P := reference) bulkChain).sameView
  have hunknown : pendingFind cs.pending (acBlockHash reference (bulkHeader n)) = none := by
    refine List.findSome?_eq_none_iff.mpr fun j _ => ?_
    rw [hempty j]
  have hseed := acChainEpochSeed_reseeded (P := reference) cs.chain (acEpochOf 1)
  rw [handleBlock_unknown hview (hchain ▸ bulkChain_cacheValid) (bulkBlock_proposal h) hunknown]
  generalize hheard : (stash reference { cs with
    chain := (acChainEpochSeed reference cs.chain (acEpochOf (bulkBlock n h).header.slot)).2 } _ _
    (bulkBlock n h) _).1 = cs₁
  generalize hi : pendingAlloc cs.pending = i
  have hchain₁ : bulkChain.Reseeded reference cs₁.chain := by
    rw [hchain] at hseed
    rw [← hheard, hchain]
    exact hseed
  obtain ⟨p, htable, hhash, hcommitted, hslot, hsigners, hblock⟩ : ∃ p,
      cs₁.pending = Function.update cs.pending i (some p) ∧
      p.blockHash = acBlockHash reference (bulkHeader n) ∧ p.committed = false ∧ p.slot = 1 ∧
      p.signers = [] ∧ p.block = bulkBlock n h := by
    rw [← hheard, ← hi]
    exact ⟨_, rfl, rfl, rfl, rfl, rfl, rfl⟩
  have hp : cs₁.pending i = some p := by rw [htable, Function.update_self]
  refine ⟨cs₁, i, p, ⟨hchain₁, hp, hcommitted, hslot, hsigners, hblock⟩, ?_,
    tryCommit_unsigned hp hsigners ?_⟩
  · rw [htable, ← hhash]
    exact pendingFind_only hempty i p
  · rw [acChainTotalSqrtStake, hchain₁.same.state_eq]
    show acChainTotalSqrtStake bulkChain ≠ 0
    rw [bulkStart.total]
    decide

/-- The vote arrives, and the engine tries to commit the block with it. -/
lemma bulkBallot_collected (h : n ≤ 4096) {cs : Consensus} {i : Fin 8} {p : Pending}
    (hheld : BulkHeld n h [] cs i p)
    (hfind : pendingFind cs.pending (acBlockHash reference (bulkHeader n)) = some (i, p)) :
    ∃ cs₁ p₁, BulkHeld n h [bulkVote n] cs₁ i p₁ ∧
      handleVote reference (.atMs 100000) cs (bulkBallot n) =
        tryCommit reference (.atMs 100000) cs₁ i := by
  have hvote : handleVote reference (.atMs 100000) cs (bulkBallot n) = _ :=
    handleVote_found hheld.reseeded.sameView (hheld.reseeded.valid bulkChain_cacheValid)
      (bulkBallot_valid h) hfind hheld.slot_eq
  rw [hheld.signers_eq, if_neg (by simp)] at hvote
  refine ⟨_, p.addSigner (bulkVote n), ⟨?_, ?_, hheld.uncommitted,
    hheld.slot_eq, ?_, hheld.block_eq⟩,
    hvote⟩
  · exact hheld.reseeded.trans (acChainEpochSeed_reseeded cs.chain (acEpochOf 1))
  · exact Function.update_self _ _ _
  · show addSigner p.signers (bulkVote n) = [bulkVote n]
    rw [hheld.signers_eq]
    rfl

namespace BulkHeld

variable {h : n ≤ 4096} {cs : Consensus} {i : Fin 8} {p : Pending}

lemma certified_eq (hheld : BulkHeld n h [bulkVote n] cs i p) : p.certified = bulkSealed n h := by
  have hcongr : ∀ {b b' : Block} {gs gs' : List CommitSigner} {hgs hgs'}, b = b' → gs = gs' →
      b.withSigners gs hgs = b'.withSigners gs' hgs' := by
    rintro b _ gs _ hgs hgs' rfl rfl
    rfl
  exact hcongr hheld.block_eq hheld.signers_eq

lemma accepted (hheld : BulkHeld n h [bulkVote n] cs i p) :
    (acChainAcceptBlock reference 100000 .all cs.chain p.certified).1 = .ok := by
  rw [hheld.certified_eq]
  exact bulkSealed_accepted h hheld.reseeded (by decide)

/-- The votes that the engine counts for the block suffice. -/
lemma enoughVotes (hheld : BulkHeld n h [bulkVote n] cs i p) :
    enoughVotes cs.chain p.signers = true := by
  have hsum : collectedSqrt bulkChain.state [bulkVote n] = 20000 := by
    show (if (acStateGet bulkChain.state bulkKey.pk).2.stake < acMinStakeUcrd then 0
      else 0 + acIsqrtU64 (acStateGet bulkChain.state bulkKey.pk).2.stake) = 20000
    rw [bulkStart.account, if_neg (by decide), bulkStart.sqrtStake]
    rfl
  rw [hheld.signers_eq, hheld.reseeded.same.eq_withCached]
  show (let total := acChainTotalSqrtStake bulkChain
    let live := if acChainLiveSqrtStake bulkChain = 0 then total else acChainLiveSqrtStake bulkChain
    let sum := collectedSqrt bulkChain.state [bulkVote n]
    decide (live ≠ 0) && !decide (sum * 3 < live * 2) &&
      !decide (0 < total ∧ sum * 2 ≤ total)) = true
  rw [hsum, bulkStart.total, bulkStart.live]
  decide

/-- The attempt succeeds, since the node is late. -/
lemma commits (hheld : BulkHeld n h [bulkVote n] cs i p) :
    ((tryCommitInner reference (.atMs 100000) cs i false).1.pending i).any Pending.committed =
      true := by
  refine tryCommit_late hheld.held hheld.uncommitted hheld.enoughVotes ?_ hheld.accepted
  have htime : cs.chain.genesisTimestampMs = 1 := by
    rw [hheld.reseeded.same.eq_withCached]
    exact bulkStart.genesisTimestampMs
  rw [hheld.slot_eq, acChainCurrentSlot]
  show 1 + 1 < if 100000 < cs.chain.genesisTimestampMs then 0
    else (100000 - cs.chain.genesisTimestampMs) / acSlotDurationMs
  rw [htime]
  decide

end BulkHeld

/-- **The arrivals** bring the engine to an attempt to commit the block with the vote. -/
lemma bulkArrivals_exec (h : n ≤ 4096) : ∃ cs i p, BulkHeld n h [bulkVote n] cs i p ∧
    (bulkListener.execAll reference (bulkArrivals n h)).cs =
      (tryCommitInner reference (.atMs 100000) cs i false).1 ∧
    (bulkListener.execAll reference (bulkArrivals n h)).sent =
      (tryCommitInner reference (.atMs 100000) cs i false).2 := by
  obtain ⟨cs, i, p, hheld, hfind, hblock⟩ := bulkBlock_heard h
  obtain ⟨cs₁, p₁, hheld₁, hvote⟩ := bulkBallot_collected h hheld hfind
  have hfirst : bulkListener.exec reference
      (.receive (.atMs 100000) (.blockAnn (blockBytes (bulkBlock n h)))) =
        bulkListener.took (cs, []) := by
    rw [← hblock]
    exact congrArg bulkListener.took (acConsensusHandleBlock_blockBytes _ _)
  have hexec : bulkListener.execAll reference (bulkArrivals n h) =
      (bulkListener.took (cs, [])).took (tryCommit reference (.atMs 100000) cs₁ i) := by
    rw [bulkArrivals, Node.execAll, List.foldl_cons, List.foldl_cons, List.foldl_nil,
      hfirst, ← hvote]
    exact congrArg (bulkListener.took (cs, [])).took (acConsensusHandleVote_voteEncode _ _)
  rw [hexec]
  exact ⟨cs₁, i, p₁, hheld₁, rfl, rfl⟩

end Bulk

/-- With one transaction there is room for the vote. -/
theorem committed_small_block_fits : ∃ cs i p,
    cs.pending i = some p ∧ p.signers.length = 1 ∧
      ((tryCommitInner reference (.atMs 100000) cs i false).1.pending i).any Pending.committed =
        true ∧
      (blockBytes p.certified).length ≤ acFrameMaxBytes - 2 := by
  have hle : 1 ≤ 4096 := by decide
  obtain ⟨cs, i, p, hheld, -⟩ := bulkArrivals_exec hle
  have hdecode := acBlockDecode_encoded (bulkBlock 1 hle)
  have hin : p.CameIn (blockBytes (bulkBlock 1 hle)) (bulkBlock 1 hle) _ :=
    ⟨hdecode, congrArg Block.header hheld.block_eq, congrArg Block.txs hheld.block_eq⟩
  refine ⟨cs, i, p, hheld.held, by rw [hheld.signers_eq]; rfl, hheld.commits,
    (committed_block_fits_iff reference_mallocBounded hheld.held hheld.uncommitted hin
      hheld.commits).2.1.mpr ?_⟩
  have hnone : (bulkBlock 1 hle).signers = [] := rfl
  rw [length_blockBytes_bulk (bulkBlock_txs 1 hle), hheld.signers_eq, hnone]
  decide

/-- **A committed block that no frame holds.**  A proposal of 4194249 bytes, which is below the
limit of 4194302, is committed with one vote.  The node announces it with 4194409 bytes, and
shuts down every peer it is sent to: those of the broadcast, and whoever asks for the block. -/
theorem committed_block_exceeds_frame : ∃ (b s : Block) (v : Vote) (n : Node),
    NodeReachable reference bulkGenesis [] bulkChain ∧
      NodeRun reference anyAction (Node.initial bulkChain (referenceKey 2) false 1)
        [.receive (.atMs 100000) (.blockAnn (blockBytes b)),
          .receive (.atMs 100000) (.commitVote (voteEncode v))] n ∧
      (blockBytes b).length = 4194249 ∧ s.header = b.header ∧ s.txs = b.txs ∧
      n.sent = [.blockAnn (blockBytes s)] ∧ (blockBytes s).length = 4194409 ∧
      (∀ (peers : PeerTable) j exclude, (peers j).Idle → (peers j).active = true →
        exclude ≠ some (peers j).peerId →
        (acNetBroadcast (fun _ => true) peers ⟨.blockAnn, blockBytes s⟩ exclude j).shut = true) ∧
      onHeadersReq n.cs.chain 1 1 = [⟨.blockRes, blockBytes s⟩] ∧
      ∀ (peers : PeerTable) j peerId, (peers j).Idle → peers.routeTo peerId = some j →
        (acNetSendTo true peers ⟨.blockRes, blockBytes s⟩ peerId j).shut = true := by
  have hle : 3600 ≤ 4096 := by decide
  obtain ⟨cs, i, p, hheld, hcs, hsent⟩ := bulkArrivals_exec hle
  obtain ⟨hannounced, hchain⟩ :=
    tryCommitInner_commits hheld.held hheld.uncommitted hheld.commits
  have hok := hheld.accepted
  rw [hheld.certified_eq] at hok hannounced hchain
  obtain ⟨hheader, htxs⟩ := bulkSealed_eq 3600 hle
  have hshort : (blockBytes (bulkBlock 3600 hle)).length = 4194249 := by
    have hnone : (bulkBlock 3600 hle).signers.length = 0 := rfl
    rw [length_blockBytes_bulk (bulkBlock_txs 3600 hle), hnone]
  have hlen : (blockBytes (bulkSealed 3600 hle)).length = 4194409 := by
    have hone : (bulkSealed 3600 hle).signers.length = 1 := rfl
    rw [length_blockBytes_bulk (htxs.trans (bulkBlock_txs 3600 hle)), hone]
  have hlong : acFrameMaxBytes - 2 < (blockBytes (bulkSealed 3600 hle)).length := by
    rw [hlen]
    decide
  have hserved := onHeadersReq_accepted reference_mallocBounded hok
  rw [hheader, show (bulkBlock 3600 hle).header.height = 1 from bulkHeader_height 3600] at hserved
  have hrun : NodeRun reference anyAction bulkListener (bulkArrivals 3600 hle) _ :=
    nodeRun_execAll ⟨trivial, trivial, trivial⟩
  refine ⟨bulkBlock 3600 hle, bulkSealed 3600 hle, bulkBallot 3600, _,
    (reachable_openedChain bulkStart.opens).node, hrun, hshort, hheader, htxs,
    hsent.trans hannounced, hlen, ?_, ?_, ?_⟩
  · intro peers j exclude hidle hactive hother
    exact (acNetBroadcast_shut hidle hactive hother _).mpr hlong
  · rw [hcs, hchain]
    exact hserved
  · intro peers j peerId hidle hroute
    exact (acNetSendTo_shut hidle hroute _).mpr hlong

end AgentChain
