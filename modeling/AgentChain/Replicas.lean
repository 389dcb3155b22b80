import AgentChain.Liveness
import AgentChain.Reference

/-!
# Two nodes with the same blocks

Two nodes that accepted the same headers and transactions hold the same state, the same tip
and the same seeds, whatever certificates they stored.  The certificates still enter the
verdict on the next block, through the liveness map: a node that collected one more vote for
a block counts one more validator as live.
-/

namespace AgentChain

section Replicas

variable {P : Platform} {g : Genesis} {bs bs' : List Block} {c c' : Chain}

/-- The live weight of a reachable chain depends on its certificates only through the recent
signers. -/
lemma SameBlocks.liveSqrtStake_eq (hP : P.MallocBounded) (hsame : SameBlocks bs bs')
    (h : Reachable P g bs c) (h' : Reachable P g bs' c')
    (hsigned : ∀ a, SignedRecently bs a ↔ SignedRecently bs' a)
    (hrec : AllRecorded (genesisLive g) bs) (hrec' : AllRecorded (genesisLive g) bs')
    (s : AcState) :
    acChainLiveSqrtStake { c' with state := s } = acChainLiveSqrtStake { c with state := s } := by
  have hview := hsame.sameView (h.ledger hP) (h'.ledger hP)
  refine acChainLiveSqrtStake_congr (c := { c with state := s }) (d := { c' with state := s })
    rfl hview.height_eq ?_
  intro a
  have hlen := (h.ledger hP).height_eq
  have hiff : c.height.toNat - 16 < (lastSigned bs' a).toNat ↔
      c.height.toNat - 16 < (lastSigned bs a).toNat := by
    rw [hlen, ← exists_signed_drop_iff (h.ledger hP).consecutive a, hsame.length_eq,
      ← exists_signed_drop_iff (h'.ledger hP).consecutive a]
    have := hsigned a
    rw [SignedRecently, SignedRecently, hsame.length_eq] at this
    exact this.symm
  show (heightsOf c'.liveMap a).countP _ = (heightsOf c.liveMap a).countP _
  rw [h.heightsOf_liveMap hP hrec, h'.heightsOf_liveMap hP hrec', countP_entryHeights,
    countP_entryHeights]
  simp only [hiff]

/-! ### Two nodes with different certificates -/

/-- A validator of weight 30000, and an account that will bond for a weight of 20000. -/
def bondingGenesis : Genesis :=
  ⟨1, 0, [⟨(referenceKey 1).pk, 0, 900000000⟩, ⟨(referenceKey 2).pk, 1000000000, 0⟩]⟩

/-- The second account bonds. -/
def bondingTx : Tx :=
  signTx reference ⟨acTxVersion, 1, 0x02, (referenceKey 2).pk, 0, 1000, 0, 1000000,
    acBe64 400000000, [], ByteArr.fill 64 0, by decide, nil_memo_le⟩ (referenceKey 2)

/-- The first block holds the bond. -/
def bondingBlock : Block :=
  nextBlock (openedChain bondingGenesis) 1 (referenceKey 1) ⟨[bondingTx], by decide⟩
    [referenceKey 1]

/-- The chain behind the bond. -/
def bondedChain : Chain :=
  (acChainAcceptBlock reference 100000 .all (openedChain bondingGenesis) bondingBlock).2

/-- The second block, with the votes that a node has collected. -/
def bondedBlock (keys : List Keypair) : Block :=
  nextBlock bondedChain 2 (referenceKey 1) ⟨[], nil_candidates_le⟩ keys

/-- The chain of a node that sealed the second block with these votes. -/
def sealedChain (keys : List Keypair) : Chain :=
  (acChainAcceptBlock reference 100000 .all bondedChain (bondedBlock keys)).2

/-- The third block, certified by the first validator alone. -/
def thirdBlock : Block :=
  nextBlock (sealedChain [referenceKey 1]) 3 (referenceKey 1) ⟨[], nil_candidates_le⟩
    [referenceKey 1]

/-- The chain is reachable when the second block was accepted. -/
lemma reachable_sealedChain (keys : List Keypair)
    (h : (acChainAcceptBlock reference 100000 .all bondedChain (bondedBlock keys)).1 = .ok) :
    Reachable reference bondingGenesis [bondingBlock, bondedBlock keys] (sealedChain keys) := by
  have hfirst : (acChainAcceptBlock reference 100000 .all (openedChain bondingGenesis)
      bondingBlock).1 = .ok := by decide +kernel
  have hopen := reachable_openedChain (g := bondingGenesis) (by decide +kernel)
  exact (hopen.step (.accepted 100000 .all _ bondingBlock hfirst)).step
    (.accepted 100000 .all _ (bondedBlock keys) h)

/-! ### The verdict -/

/-- **Node-independent verdicts.**  Two nodes that accepted the same headers and transactions
agree on every further block as long as their certificates of the last sixteen blocks name
the same signers, taken together, and no signer was ever turned away from a full liveness
map. -/
theorem same_recent_signers_same_verdict (hP : P.MallocBounded) (hsame : SameBlocks bs bs')
    (h : Reachable P g bs c) (h' : Reachable P g bs' c')
    (hsigned : ∀ a, SignedRecently bs a ↔ SignedRecently bs' a)
    (hrec : AllRecorded (genesisLive g) bs) (hrec' : AllRecorded (genesisLive g) bs')
    (now : UInt64) (w : Writes) (b : Block) :
    (acChainAcceptBlock P now w c b).1 = .ok ↔ (acChainAcceptBlock P now w c' b).1 = .ok := by
  have hview := hsame.sameView (h.ledger hP) (h'.ledger hP)
  have hlive := hsame.liveSqrtStake_eq hP h h' hsigned hrec hrec' (postState P c.state b)
  rw [hview.acceptBlock_rc_eq (h.ledger hP).cacheValid (h'.ledger hP).cacheValid
    (by rw [hview.state_eq, hlive]) now w]

/-- The hypotheses are met by two nodes that list the votes for the second block in a
different order. -/
theorem same_recent_signers_same_verdict_reference :
    (acChainAcceptBlock reference 100000 .all (sealedChain [referenceKey 1, referenceKey 2])
      thirdBlock).1 = .ok ↔
    (acChainAcceptBlock reference 100000 .all (sealedChain [referenceKey 2, referenceKey 1])
      thirdBlock).1 = .ok := by
  have hfacts : ∀ keys ∈ [[referenceKey 1, referenceKey 2], [referenceKey 2, referenceKey 1]],
      (acChainAcceptBlock reference 100000 .all bondedChain (bondedBlock keys)).1 = .ok ∧
      (∀ a ∈ bondingBlock.signerAddrs,
        heightsOf (liveAfter (genesisLive bondingGenesis) [bondingBlock]) a ≠ []) ∧
      ∀ a ∈ (bondedBlock keys).signerAddrs, heightsOf
        (liveAfter (genesisLive bondingGenesis) [bondingBlock, bondedBlock keys]) a ≠ [] := by
    decide +kernel
  have haddrs : bondingBlock.signerAddrs = [(referenceKey 1).pk] := map_signer_nextBlock ..
  have haddrs12 : (bondedBlock [referenceKey 1, referenceKey 2]).signerAddrs =
      [(referenceKey 1).pk, (referenceKey 2).pk] := map_signer_nextBlock ..
  have haddrs21 : (bondedBlock [referenceKey 2, referenceKey 1]).signerAddrs =
      [(referenceKey 2).pk, (referenceKey 1).pk] := map_signer_nextBlock ..
  have hsame : SameBlocks [bondingBlock, bondedBlock [referenceKey 1, referenceKey 2]]
      [bondingBlock, bondedBlock [referenceKey 2, referenceKey 1]] := rfl
  have hrec : ∀ keys ∈ [[referenceKey 1, referenceKey 2], [referenceKey 2, referenceKey 1]],
      AllRecorded (genesisLive bondingGenesis) [bondingBlock, bondedBlock keys] := by
    intro keys hkeys
    obtain ⟨-, hfirst, hsecond⟩ := hfacts keys hkeys
    exact (@allRecorded_snoc _ [bondingBlock] _).mpr
      ⟨(@allRecorded_snoc _ [] _).mpr ⟨allRecorded_nil _, hfirst⟩, hsecond⟩
  refine same_recent_signers_same_verdict reference_mallocBounded hsame
    (reachable_sealedChain [referenceKey 1, referenceKey 2] (hfacts _ (by simp)).1)
    (reachable_sealedChain [referenceKey 2, referenceKey 1] (hfacts _ (by simp)).1)
    (fun a => ?_) (hrec _ (by simp)) (hrec _ (by simp)) 100000 .all thirdBlock
  simp [SignedRecently, haddrs, haddrs12, haddrs21, or_comm]

/-- **The verdict depends on the stored certificates.**  One node sealed the second block
with the vote of the first validator, the other one with both votes.  The first node accepts
the third block and the second node does not. -/
theorem verdict_depends_on_certificates : ∃ (g : Genesis) (bs bs' : List Block) (c c' : Chain)
    (b : Block), Reachable reference g bs c ∧ Reachable reference g bs' c' ∧ SameBlocks bs bs' ∧
      (acChainAcceptBlock reference 100000 .all c b).1 = .ok ∧
      (acChainAcceptBlock reference 100000 .all c' b).1 = .badCommit := by
  have hruns : (acChainAcceptBlock reference 100000 .all bondedChain
        (bondedBlock [referenceKey 1])).1 = .ok ∧
      (acChainAcceptBlock reference 100000 .all bondedChain
        (bondedBlock [referenceKey 1, referenceKey 2])).1 = .ok ∧
      (acChainAcceptBlock reference 100000 .all (sealedChain [referenceKey 1]) thirdBlock).1 = .ok ∧
      (acChainAcceptBlock reference 100000 .all (sealedChain [referenceKey 1, referenceKey 2])
        thirdBlock).1 = .badCommit := by
    decide +kernel
  obtain ⟨hfirst, hboth, haccepts, hrefuses⟩ := hruns
  exact ⟨bondingGenesis, _, _, _, _, thirdBlock, reachable_sealedChain [referenceKey 1] hfirst,
    reachable_sealedChain [referenceKey 1, referenceKey 2] hboth, rfl, haccepts, hrefuses⟩

end Replicas

end AgentChain
