import AgentChain.Agreement
import AgentChain.HonestVotes

/-!
# Signers that come with a block

`ac_consensus_handle_vote` checks a vote before it adds the signer.  `ac_consensus_handle_block`
takes the signers of a block message as they are: all of them when the block is new, and those
with an address that is not listed when the block is known.  The list that results is sound
exactly when the message brings nothing bad (`folded_signers_sound_iff`).  One bad entry spoils
a certificate that the chain would have taken, as the run at the end of the file shows.
-/

namespace AgentChain

/-! ### Longer certificates -/

section Longer

variable {P : Platform} {c : Chain} {b : Block}

/-- Sound signers that are added to a certificate leave it sound. -/
lemma CertificateOk.append {signers new : List CommitSigner} {hold hnew}
    (h : CertificateOk P c (b.withSigners signers hold))
    (hsound : ∀ g ∈ new, SignerOn P c b.header g) :
    CertificateOk P c (b.withSigners (signers ++ new) hnew) where
  nonempty := fun hnil => h.nonempty (List.append_eq_nil_iff.mp hnil).1
  total_ne := h.total_ne
  signers_ok := fun g hg => (List.mem_append.mp hg).elim (h.signers_ok g) (hsound g)
  thresholds := by
    obtain ⟨hlive, htotal⟩ := (thresholdsMet_iff (signedWeight_le hold)).mp h.thresholds
    have hle : (signedWeight c.state signers).toNat ≤
        (signedWeight c.state (signers ++ new)).toNat := by
      rw [toNat_signedWeight hold, toNat_signedWeight hnew, List.map_append, List.sum_append]
      exact Nat.le_add_right _ _
    exact (thresholdsMet_iff (signedWeight_le hnew)).mpr
      ⟨hlive.trans (Nat.mul_le_mul_left _ hle), htotal.trans_le (Nat.mul_le_mul_left _ hle)⟩

end Longer

/-! ### New signers -/

section New

variable {signers gs : List CommitSigner}

lemma nodup_firstOfEach (gs : List CommitSigner) :
    ((firstOfEach gs).map CommitSigner.signer).Nodup := by
  induction gs with
  | nil => exact List.nodup_nil
  | cons g gs ih =>
    rw [firstOfEach, List.map_cons, List.nodup_cons]
    refine ⟨fun hmem => ?_, ih.sublist (List.filter_sublist.map _)⟩
    obtain ⟨x, hx, heq⟩ := List.mem_map.mp hmem
    exact absurd heq (by simpa using (List.mem_filter.mp hx).2)

/-- New signers bring no address twice. -/
lemma nodup_append_newSigners :
    ((signers ++ newSigners signers gs).map CommitSigner.signer).Nodup ↔
      (signers.map CommitSigner.signer).Nodup := by
  rw [List.map_append, List.nodup_append']
  refine ⟨fun h => h.1, fun h => ⟨h, ?_, ?_⟩⟩
  · exact (nodup_firstOfEach gs).sublist (((List.take_sublist _ _).trans
      List.filter_sublist).map _)
  · intro a ha hnew
    obtain ⟨x, hx, rfl⟩ := List.mem_map.mp hnew
    exact unlisted_iff.mp (List.mem_filter.mp (List.mem_of_mem_take hx)).2 ha

lemma signers_addSigners (p : Pending) (gs : List CommitSigner) :
    (gs.foldl Pending.addSigner p).signers = gs.foldl addSigner p.signers := by
  induction gs generalizing p with
  | nil => rfl
  | cons g gs ih => exact ih (p.addSigner g)

end New

/-! ### What a message does to a certificate -/

/-- The signers of an entry behind a message.  The first `recorded` of them were there before;
the others come from the message and pass the checks of `validate_commit`, no address is listed
twice, and a certificate that the chain takes is not spoiled. -/
structure FoldSound (P : Platform) (c : Chain) (b : Block) (recorded signers : List CommitSigner) :
    Prop where
  passes : ∀ g ∈ signers.drop recorded.length, SignerOn P c b.header g
  nodup : (signers.map CommitSigner.signer).Nodup
  keeps : ∀ hold hnew, CertificateOk P c (b.withSigners recorded hold) →
    CertificateOk P c (b.withSigners signers hnew)

section Fold

variable {P : Platform} {c : Chain} {cs : Consensus} {b : Block} {env : Env} {buf : Bytes}
  {used : ℕ}

lemma foldSound_append_iff {recorded new : List CommitSigner} :
    FoldSound P c b recorded (recorded ++ new) ↔
      ((recorded ++ new).map CommitSigner.signer).Nodup ∧ ∀ g ∈ new, SignerOn P c b.header g := by
  constructor
  · intro h
    refine ⟨h.nodup, fun g hg => h.passes g ?_⟩
    rwa [List.drop_left]
  · rintro ⟨hnodup, hpasses⟩
    refine ⟨fun g hg => hpasses g ?_, hnodup, fun _ _ hcert => hcert.append hpasses⟩
    rwa [List.drop_left] at hg

/-- The entry of a block that is known, behind the message. -/
lemma handleBlock_merges (hP : P.MallocBounded) (env : Env)
    (hversion : b.header.version = acBlockVersion) {i : Fin 8} {p : Pending}
    (hfind : pendingFind cs.pending (acBlockHash P b.header) = some (i, p)) :
    ∃ q, (handleBlock P env cs b).1.pending i = some q ∧ p.Kin q ∧
      q.signers = p.signers ++ newSigners p.signers b.signers := by
  rw [handleBlock_known hversion hfind]
  obtain ⟨q, hq, hsettled⟩ := exists_later (tryCommit_table hP env
    (cs.put i (b.signers.foldl Pending.addSigner p)) i i) (Function.update_self _ _ _)
  refine ⟨q, hq, (p.extended_addSigners b.signers).kin.trans hsettled.kin, ?_⟩
  rw [hsettled.signers_eq, signers_addSigners, foldl_addSigner]

/-- The entry of a block that is new, behind the message. -/
lemma handleBlock_stashes (hP : P.MallocBounded) {p : Pending}
    (h : receivedEntry P env cs b = some p) :
    ∃ q, (handleBlock P env cs b).1.pending (pendingAlloc cs.pending) = some q ∧ p.Kin q ∧
      q.signers = b.signers := by
  obtain ⟨hversion, hfind, hheight, hparent, beta, hvrf, rfl⟩ := receivedEntry_some h
  have hseed := acChainEpochSeed_reseeded (P := P) cs.chain (acEpochOf b.header.slot)
  have hnext : ¬ cs.chain.height + 1 < b.header.height := by
    rw [hheight]
    exact UInt64.lt_irrefl _
  rw [handleBlock, if_neg (not_not.mpr hversion), hfind]
  dsimp only
  rw [if_neg hnext, if_neg (by simp [hheight, hparent]), hvrf]
  dsimp only
  rw [hseed.same.state_eq]
  obtain ⟨q, hq, hsettled⟩ := exists_later (tryCommit_table hP env (stash P { cs with
      chain := (acChainEpochSeed P cs.chain (acEpochOf b.header.slot)).2 } env.seenMs
      b.header.slot b
      (computePriority P beta (acIsqrtU64 (acStateGet cs.chain.state b.header.proposer).2.stake))).1
    (pendingAlloc cs.pending) (pendingAlloc cs.pending)) (Function.update_self _ _ _)
  exact ⟨q, hq, hsettled.kin, hsettled.signers_eq⟩

/-- **Signers of block messages.**  A message with the block `b` reaches a node.  When the block
is known, the signers of its entry are sound exactly when no address was listed twice before and
every entry of the message that is new to the list passes.  When the block is new, they are
sound exactly when the certificate of the message lists no address twice and all its entries
pass. -/
theorem folded_signers_sound_iff (hP : P.MallocBounded) (env : Env) (cs : Consensus)
    (hdecode : acBlockDecode buf = some (b, used))
    (hversion : b.header.version = acBlockVersion) :
    (∀ i p, pendingFind cs.pending (acBlockHash P b.header) = some (i, p) →
      ∃ q, (acConsensusHandleBlock P env cs buf).1.pending i = some q ∧ p.Kin q ∧
        (FoldSound P cs.chain p.block p.signers q.signers ↔
          (p.signers.map CommitSigner.signer).Nodup ∧
            ∀ g ∈ newSigners p.signers b.signers, SignerOn P cs.chain p.block.header g)) ∧
    (∀ p, receivedEntry P env cs b = some p →
      ∃ q, (acConsensusHandleBlock P env cs buf).1.pending (pendingAlloc cs.pending) = some q ∧
        p.Kin q ∧ (FoldSound P cs.chain b [] q.signers ↔
          (b.signers.map CommitSigner.signer).Nodup ∧
            ∀ g ∈ b.signers, SignerOn P cs.chain b.header g)) := by
  have hhandle : acConsensusHandleBlock P env cs buf = handleBlock P env cs b := by
    rw [acConsensusHandleBlock, hdecode]
  rw [hhandle]
  constructor
  · intro i p hfind
    obtain ⟨q, hq, hkin, hsigners⟩ := handleBlock_merges hP env hversion hfind
    refine ⟨q, hq, hkin, ?_⟩
    rw [hsigners, foldSound_append_iff, nodup_append_newSigners]
  · intro p hp
    obtain ⟨q, hq, hkin, hsigners⟩ := handleBlock_stashes hP hp
    refine ⟨q, hq, hkin, ?_⟩
    rw [hsigners]
    exact foldSound_append_iff

end Fold

/-- The block of the first validator with its vote. -/
def backedBlock : Block := (builtBy 1).certify labelled hearingNode.cs.chain [referenceKey 1]

/-- The second validator knows the block without signers, and takes the vote over. -/
theorem folded_signers_sound_backed :
    ∃ p q, hearingNode.cs.pending 0 = some p ∧ p.signers = [] ∧
      (acConsensusHandleBlock labelled (Env.atMs 3150) hearingNode.cs
        (blockBytes backedBlock)).1.pending 0 = some q ∧ q.signers.length = 1 ∧
      FoldSound labelled hearingNode.cs.chain p.block p.signers q.signers := by
  have hrun : (hearingNode.cs.pending 0).isSome ∧
      (∀ p ∈ hearingNode.cs.pending 0,
        p.blockHash = acBlockHash labelled backedBlock.header ∧ p.signers = [] ∧
        ∀ g ∈ newSigners p.signers backedBlock.signers,
          SignerOn labelled hearingNode.cs.chain p.block.header g) ∧
      (∀ q ∈ (acConsensusHandleBlock labelled (Env.atMs 3150) hearingNode.cs
        (blockBytes backedBlock)).1.pending 0, q.signers.length = 1) ∧
      backedBlock.header.version = acBlockVersion := by
    decide +kernel
  obtain ⟨hsome, hknown, hadded, hversion⟩ := hrun
  obtain ⟨p, hp⟩ := Option.isSome_iff_exists.mp hsome
  obtain ⟨hhash, hnil, hpasses⟩ := hknown p hp
  have hfind : pendingFind hearingNode.cs.pending (acBlockHash labelled backedBlock.header) =
      some (0, p) := by
    rw [pendingFind, PendingTable.first, entryIdx, List.finRange_succ, List.findSome?_cons, hp]
    simp [hhash]
  have hdecode := acBlockDecode_encoded backedBlock
  obtain ⟨q, hq, -, hiff⟩ := (folded_signers_sound_iff labelled_mallocBounded (Env.atMs 3150)
    hearingNode.cs hdecode hversion).1 0 p hfind
  exact ⟨p, q, hp, hnil, hq, hadded q hq, hiff.mpr ⟨by rw [hnil]; exact List.nodup_nil, hpasses⟩⟩

/-! ### A spoilt certificate -/

/-- The first validator has voted for the block of the second one, and has received the vote of
that one. -/
def gather : List NodeAction :=
  leadSlot 2000 ++ [.receive (Env.atMs 2500) ((voterNode 2).message 0),
    .own (.vote (Env.atMs 3100)), .receive (Env.atMs 3150) ((voterNode 2).message 1)]

def gatheredNode : Node := (equalNode 1).execAll labelled gather

/-- The block with an entry of an unknown address and a signature of zeros. -/
def spoiltBlock : Block :=
  (builtBy 2).withSigners [⟨(referenceKey 9).pk, ByteArr.fill 64 0, ByteArr.fill 64 0⟩] (by decide)

/-- **One bad entry spoils a certificate.**  The two votes would commit the block; with the
entry that the message adds to them the chain rejects the certificate. -/
theorem bad_signer_folded :
    NodeRun labelled anyAction (equalNode 1) gather gatheredNode ∧
      ∃ p q, gatheredNode.cs.pending 1 = some p ∧
        (acConsensusHandleBlock labelled (Env.atMs 3200) gatheredNode.cs
          (blockBytes spoiltBlock)).1.pending 1 = some q ∧
        (acChainAcceptBlock labelled 3200 .all gatheredNode.cs.chain p.certified).1 = .ok ∧
        (acChainAcceptBlock labelled 3200 .all gatheredNode.cs.chain q.certified).1 = .badCommit ∧
        ¬ FoldSound labelled gatheredNode.cs.chain p.block p.signers q.signers := by
  refine ⟨nodeRun_execAll (allMeet_any _ _), ?_⟩
  have hrun : (gatheredNode.cs.pending 1).isSome ∧
      ((acConsensusHandleBlock labelled (Env.atMs 3200) gatheredNode.cs
        (blockBytes spoiltBlock)).1.pending 1).isSome ∧
      ∀ p ∈ gatheredNode.cs.pending 1,
      ∀ q ∈ (acConsensusHandleBlock labelled (Env.atMs 3200) gatheredNode.cs
        (blockBytes spoiltBlock)).1.pending 1,
      (acChainAcceptBlock labelled 3200 .all gatheredNode.cs.chain p.certified).1 = .ok ∧
      (acChainAcceptBlock labelled 3200 .all gatheredNode.cs.chain q.certified).1 = .badCommit ∧
      ∃ g ∈ q.signers.drop p.signers.length,
        ¬ SignerOn labelled gatheredNode.cs.chain p.block.header g := by
    decide +kernel
  obtain ⟨hsome, hsome', hfacts⟩ := hrun
  obtain ⟨p, hp⟩ := Option.isSome_iff_exists.mp hsome
  obtain ⟨q, hq⟩ := Option.isSome_iff_exists.mp hsome'
  obtain ⟨hok, hbad, g, hg, hfails⟩ := hfacts p hp q hq
  exact ⟨p, q, hp, hq, hok, hbad, fun h => hfails (h.passes g hg)⟩

end AgentChain
