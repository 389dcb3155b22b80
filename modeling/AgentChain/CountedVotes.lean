import AgentChain.HonestVotes

/-!
# Votes that are counted

`ac_consensus_handle_vote` verifies a signature over the height and the hash that the vote
itself carries, finds the pending block by the hash alone, and appends the signer.  When the
block is offered to the chain, `validate_commit` verifies the same signature over the height of
the header.  Stake, proof and draw are checked alike at both places; the heights are never
compared.  As signatures do not fit two heights, an entry that was counted is usable exactly
when the vote carries the height of the block.  The vote of a committee member for another
height counts towards the threshold all the same, and the block is rejected when it is offered
with this entry.
-/

namespace AgentChain

/-- No signature under the address fits votes at two heights for one block. -/
def Platform.BindsHeights (P : Platform) (a : Addr) : Prop :=
  ∀ sig blockHash height height', acVerify P sig (acVoteMessage height blockHash) a = true →
    acVerify P sig (acVoteMessage height' blockHash) a = true → height = height'

/-- The seed that the chain reads for the slot of a header, through its cache. -/
def Chain.seedFor (P : Platform) (c : Chain) (h : BlockHeader) : Hash :=
  (acChainEpochSeed P c (acEpochOf h.slot)).1

section CountedVotes

variable {P : Platform} {cs : Consensus} {env : Env} {v : Vote} {i : Fin 8} {p p' : Pending}
  {g : CommitSigner}

/-! ### What was checked -/

/-- A signer that was appended is the one that was added. -/
lemma eq_of_addSigner_append {signers : List CommitSigner} {g' : CommitSigner}
    (h : addSigner signers g' = signers ++ [g]) : g = g' := by
  rw [addSigner] at h
  split_ifs at h with hlisted hroom
  · exact absurd h (by simp)
  · exact (List.cons.inj (List.append_cancel_left h)).1.symm
  · exact absurd h (by simp)

/-- An entry that behaves as before has no new signer. -/
lemma Pending.Settled.not_append {height : ℕ} (h : p.Settled height p') :
    p'.signers ≠ p.signers ++ [g] := by
  rw [h.signers_eq]
  simp

/-- **A counted vote** was decoded from the message and checked, and it is the new entry. -/
lemma handleVote_appends (hP : P.MallocBounded) (hp : cs.pending i = some p)
    (hhash : p.blockHash = acBlockHash P p.block.header) (hslot : p.slot = p.block.header.slot)
    (hp' : (handleVote P env cs v).1.pending i = some p') (happ : p'.signers = p.signers ++ [g]) :
    g = v.asSigner ∧
      VoteChecked P cs.chain (cs.chain.seedFor P p.block.header) p.block v := by
  -- without a change of the table there is no new signer
  have hsame : ∀ c, ({ cs with chain := c } : Consensus).pending i = some p' → False := by
    intro c hc
    obtain rfl : p = p' := Option.some.inj (hp.symm.trans hc)
    exact absurd happ (by simp)
  rw [handleVote] at hp'
  split_ifs at hp' with hsig
  · exact (hsame cs.chain hp').elim
  · cases hfind : pendingFind cs.pending v.blockHash with
    | none =>
      rw [hfind] at hp'
      exact (hsame cs.chain hp').elim
    | some r =>
      obtain ⟨j, q⟩ := r
      obtain ⟨hq, hfound⟩ := PendingTable.first_some hfind
      rw [hfind] at hp'
      dsimp only at hp'
      by_cases hstake : (acStateGet cs.chain.state v.signer).2.stake < acMinStakeUcrd
      · rw [if_pos hstake] at hp'
        exact (hsame _ hp').elim
      · rw [if_neg hstake] at hp'
        cases hvrf : acVrfVerify P v.vrfProof
            (committeeAlpha (acChainEpochSeed P cs.chain (acEpochOf q.slot)).1 q.slot) v.signer with
        | none =>
          rw [hvrf] at hp'
          exact (hsame _ hp').elim
        | some beta =>
          rw [hvrf] at hp'
          dsimp only at hp'
          split_ifs at hp' with hdraw hlisted
          · exact (hsame _ hp').elim
          · exact (hsame _ hp').elim
          · by_cases hij : i = j
            · subst hij
              obtain rfl : p = q := Option.some.inj (hp.symm.trans hq)
              obtain ⟨q', hq', hsettled⟩ := exists_later (tryCommit_table hP env (Consensus.put
                { cs with chain := (acChainEpochSeed P cs.chain (acEpochOf p.slot)).2 } i
                (p.addSigner v.asSigner)) i i) (Function.update_self _ _ _)
              obtain rfl : q' = p' := Option.some.inj (hq'.symm.trans hp')
              rw [hsettled.signers_eq] at happ
              have hsame : p.blockHash = v.blockHash := of_decide_eq_true hfound
              rw [hslot] at hvrf
              exact ⟨eq_of_addSigner_append happ, hsame.symm.trans hhash, by simpa using hsig,
                hstake, beta, hvrf, by simpa using hdraw⟩
            · obtain ⟨q', hq', hsettled⟩ := exists_earlier (tryCommit_table hP env _ j i) hp'
              have hold : cs.pending i = some q' :=
                (Function.update_of_ne hij _ _).symm.trans hq'
              obtain rfl : p = q' := Option.some.inj (hp.symm.trans hold)
              exact (hsettled.not_append happ).elim

/-- When signatures fit one height, the height of the vote is the one to look at. -/
lemma VoteChecked.usable_iff {c : Chain} {seed : Hash} {b : Block}
    (h : VoteChecked P c seed b v) (hbind : P.BindsHeights v.signer) :
    SignerWith P c seed b.header v.asSigner ↔ v.height = b.header.height := by
  rw [h.signerWith_iff]
  constructor
  · exact hbind v.sig v.blockHash v.height b.header.height h.signed
  · intro hheight
    rw [← hheight]
    exact h.signed

/-! ### Reachable nodes -/

/-- **Counted votes.**  On every node that can be reached, whatever it went through: when a
message adds an entry to the signers of a pending block, the message is a vote with this entry,
and `validate_commit` takes the entry on the current tip exactly when the vote carries the
height of the block. -/
theorem counted_vote_usable_iff (hP : P.MallocBounded) {gen : Genesis} {es : List NodeEvent}
    {c : Chain} (hc : NodeReachable P gen es c) {C : Node → NodeAction → Prop} {kp : Keypair}
    {validator : Bool} {slot : UInt64} {as : List NodeAction} {n : Node}
    (hrun : NodeRun P C (Node.initial c kp validator slot) as n) (env : Env) (buf : Bytes)
    (hp : n.cs.pending i = some p)
    (hp' : (acConsensusHandleVote P env n.cs buf).1.pending i = some p')
    (happ : p'.signers = p.signers ++ [g]) (hbind : P.BindsHeights g.signer) :
    ∃ v, voteDecode buf = some v ∧ g = v.asSigner ∧
      (SignerWith P n.cs.chain (n.cs.chain.seedFor P p.block.header) p.block.header g ↔
        v.height = p.block.header.height) := by
  rw [acConsensusHandleVote] at hp'
  cases hdec : voteDecode buf with
  | none =>
    rw [hdec] at hp'
    obtain rfl : p = p' := Option.some.inj (hp.symm.trans hp')
    exact absurd happ (by simp)
  | some v =>
    rw [hdec] at hp'
    have hfits := (hrun.nodeInv hP (NodeInv.initial hP hc kp validator slot)).table.fits i p hp
    obtain ⟨rfl, hchecked⟩ := handleVote_appends hP hp hfits.hash_eq
      ((hrun.slotsFit hP).entries i p hp) hp' happ
    exact ⟨v, rfl, rfl, hchecked.usable_iff hbind⟩

lemma labelled_bindsHeights (a : Addr) : labelled.BindsHeights a := by
  intro sig blockHash height height' h h'
  exact (labelSig_vote_inj ((of_decide_eq_true h).symm.trans (of_decide_eq_true h'))).1

/-- The vote of the leader is counted and usable. -/
theorem counted_vote_usable_iff_leader :
    ∃ p p' g, hearingNode.cs.pending 0 = some p ∧
      (acConsensusHandleVote labelled (Env.atMs 3150) hearingNode.cs leadersVote).1.pending 0 =
        some p' ∧ p'.signers = p.signers ++ [g] ∧
      SignerWith labelled hearingNode.cs.chain (hearingNode.cs.chain.seedFor labelled
        p.block.header)
        p.block.header g := by
  have hfacts : AllMeet labelled (Undisturbed labelled) (equalNode 2)
        [.receive (Env.atMs 2500) (proposalOf 1)] ∧
      (hearingNode.cs.pending 0).isSome ∧
      ((acConsensusHandleVote labelled (Env.atMs 3150) hearingNode.cs
        leadersVote).1.pending 0).isSome ∧
      (voteDecode leadersVote).isSome ∧
      ∀ p ∈ hearingNode.cs.pending 0,
      ∀ p' ∈ (acConsensusHandleVote labelled (Env.atMs 3150) hearingNode.cs
          leadersVote).1.pending 0,
      ∀ v ∈ voteDecode leadersVote,
        p'.signers = p.signers ++ [v.asSigner] ∧ v.height = p.block.header.height := by
    decide +kernel
  obtain ⟨hmeet, hsome, hsome', hvote, hadds⟩ := hfacts
  obtain ⟨p, hp⟩ := Option.isSome_iff_exists.mp hsome
  obtain ⟨p', hp'⟩ := Option.isSome_iff_exists.mp hsome'
  obtain ⟨v, hv⟩ := Option.isSome_iff_exists.mp hvote
  obtain ⟨happ, hheight⟩ := hadds p hp p' hp' v hv
  have hrun : NodeRun labelled (Undisturbed labelled) (equalNode 2)
      [.receive (Env.atMs 2500) (proposalOf 1)] hearingNode := nodeRun_execAll hmeet
  obtain ⟨v', hv', -, hiff⟩ := counted_vote_usable_iff labelled_mallocBounded
    reachable_equalGenesis.node hrun (Env.atMs 3150) leadersVote hp hp' happ
    (labelled_bindsHeights _)
  obtain rfl := Option.some.inj (hv.symm.trans hv')
  exact ⟨p, p', _, hp, hp', happ, hiff.mpr hheight⟩

/-! ### A vote for another height -/

/-- The three validators of equal weight, on a genesis with a time. -/
def datedGenesis : Genesis := { equalGenesis with timestampMs := 1 }

/-- The node of the validator number `k` on this genesis. -/
def datedNode (k : UInt8) : Node :=
  Node.initial (openedOn labelled datedGenesis) (referenceKey k) true 1

/-- The announcement of the block of the first validator. -/
def datedProposal : Msg :=
  ((datedNode 1).execAll labelled (leadSlot 2001)).sent.headD (.headersReq [])

/-- The second validator has received the block of the first one. -/
def datedHearing : Node :=
  (datedNode 2).execAll labelled [.receive (Env.atMs 2501) datedProposal]

/-- The vote of the first validator for its own block, with height 7. -/
def wrongHeightVote : Bytes :=
  match entryIdx.findSome? datedHearing.cs.pending with
  | some p => voteEncode {
      height := 7
      blockHash := p.blockHash
      signer := (referenceKey 1).pk
      sig := acSign labelled (acVoteMessage 7 p.blockHash) (referenceKey 1)
      vrfProof := (voteOf labelled datedHearing.cs.chain p.block.header (referenceKey 1)).vrfProof }
  | none => []

/-- **A counted vote that is of no use.**  The vote of a staked validator with another height is
added to the signers, and `validate_commit` rejects the entry. -/
theorem wrong_height_vote_counted :
    datedGenesis.Loadable ∧
    NodeRun labelled (Undisturbed labelled) (datedNode 2) [.receive (Env.atMs 2501) datedProposal]
      datedHearing ∧
    ∃ p p' g, datedHearing.cs.pending 0 = some p ∧
      (acConsensusHandleVote labelled (Env.atMs 3151) datedHearing.cs wrongHeightVote).1.pending 0 =
        some p' ∧ p'.signers = p.signers ++ [g] ∧
      ¬ SignerWith labelled datedHearing.cs.chain
        (datedHearing.cs.chain.seedFor labelled p.block.header) p.block.header g := by
  have hfacts : AllMeet labelled (Undisturbed labelled) (datedNode 2)
        [.receive (Env.atMs 2501) datedProposal] ∧
      (datedHearing.cs.pending 0).isSome ∧
      ((acConsensusHandleVote labelled (Env.atMs 3151) datedHearing.cs
        wrongHeightVote).1.pending 0).isSome ∧
      (voteDecode wrongHeightVote).isSome ∧
      ∀ p ∈ datedHearing.cs.pending 0,
      ∀ p' ∈ (acConsensusHandleVote labelled (Env.atMs 3151) datedHearing.cs
        wrongHeightVote).1.pending 0,
      ∀ v ∈ voteDecode wrongHeightVote, p'.signers = p.signers ++ [v.asSigner] ∧
        ¬ SignerWith labelled datedHearing.cs.chain
          (datedHearing.cs.chain.seedFor labelled p.block.header) p.block.header v.asSigner := by
    decide +kernel
  obtain ⟨hmeet, hsome, hsome', hvote, hadds⟩ := hfacts
  obtain ⟨p, hp⟩ := Option.isSome_iff_exists.mp hsome
  obtain ⟨p', hp'⟩ := Option.isSome_iff_exists.mp hsome'
  obtain ⟨v, hv⟩ := Option.isSome_iff_exists.mp hvote
  obtain ⟨happ, hbad⟩ := hadds p hp p' hp' v hv
  exact ⟨by decide, nodeRun_execAll hmeet, p, p', _, hp, hp', happ, hbad⟩

end CountedVotes

end AgentChain
