import AgentChain.Restart

/-!
# Blocks that are turned away

`ac_chain_accept_block` applies the transactions of a block to the live state, and from there
on a rejection has to put the state back.  This file says that a rejected block leaves nothing
behind but perhaps a seed in the cache, that the cache is not noticed by any later call, and
that the last accepted block is known.
-/

namespace AgentChain

open Trace

section Rejected

variable {P : Platform} {g : Genesis} {es : List NodeEvent} {c d : Chain}

/-- The writes do not read the cache. -/
lemma persist_same (h : c.SameButCache d) (w : Writes) (b : Block) (blockHash : Hash) :
    (persist P w c b blockHash).2.SameButCache (persist P w d b blockHash).2 := by
  rw [h.eq_withCached, persist, persist]
  dsimp only
  cases acStateSerialize P c.state with
  | none =>
    dsimp only
    split_ifs
    · exact .withCached c _
    · exact .withCached { c with dir := c.dir.putBlock b } _
  | some buf =>
    dsimp only
    split_ifs
    · exact .withCached c _
    · exact .withCached { c with dir := c.dir.putBlock b } _
    · exact .withCached (Chain.advance
        { c with dir := { c.dir.putBlock b with stateBin := some buf } } b.header blockHash) _
    · exact .refl _

/-- **A valid cache is not noticed.**  Two chains that differ in their caches answer every
offer alike, and differ in their caches afterwards. -/
theorem acChainAcceptBlock_reseeded (hP : P.MallocBounded) (hc : c.CacheValid P)
    (hd : c.Reseeded P d) (now : UInt64) (w : Writes) (b : Block) :
    (acChainAcceptBlock P now w d b).1 = (acChainAcceptBlock P now w c b).1 ∧
      (acChainAcceptBlock P now w c b).2.SameButCache (acChainAcceptBlock P now w d b).2 := by
  have hrc : (acChainAcceptBlock P now w d b).1 = (acChainAcceptBlock P now w c b).1 := by
    refine hd.sameView.acceptBlock_rc_eq hc (hd.valid hc) ?_ now w
    rw [hd.same.eq_withCached]
    rfl
  refine ⟨hrc, ?_⟩
  have hstate := hd.same.state_eq
  obtain ⟨k, hk, hcase⟩ := acChainAcceptBlock_cases hP now w c b
  obtain ⟨l, hl, hcase'⟩ := acChainAcceptBlock_cases hP now w d b
  rcases hcase with ⟨hreach, e, he, heq⟩ | ⟨-, hne, hint, hres⟩
  · rcases hcase' with ⟨-, e', he', heq'⟩ | ⟨-, hne', hint', -⟩
    · rw [heq, heq']
      refine persist_same ?_ w b _
      have hpost : Chain.SameButCache { c with state := postState P c.state b }
          { d with state := postState P d.state b } := by
        rw [hd.same.eq_withCached]
        exact .withCached _ _
      exact (he.symm.trans hpost).trans he'
    · -- the second chain would have been refused its snapshot
      have hsnap := hreach.snapshot
      rw [heq] at hrc
      rcases persist_rc w e b (acBlockHash P b.header) with hok | hfail
      · exact absurd (hrc.trans hok) hne'
      · rw [← hstate, hint' (hrc.trans hfail)] at hsnap
        cases hsnap
  · rcases hcase' with ⟨hreach', e', -, heq'⟩ | ⟨-, -, -, hres'⟩
    · have hsnap := hreach'.snapshot
      rw [heq'] at hrc
      rcases persist_rc w e' b (acBlockHash P b.header) with hok | hfail
      · exact absurd (hrc.symm.trans hok) hne
      · rw [hstate, hint (hrc.symm.trans hfail)] at hsnap
        cases hsnap
    · exact (hres.same.symm.trans hd.same).trans hres'.same

/-- The accepted blocks have the version that `ac_chain_accept_block` asks for. -/
lemma NodeReachable.version (hP : P.MallocBounded) (h : NodeReachable P g es c) :
    ∀ b ∈ blocksOf es, b.header.version = acBlockVersion := by
  refine h.invariant (I := fun bs => ∀ b ∈ bs, b.header.version = acBlockVersion) hP (by simp) ?_
  intro bs c now b _ hpass hbs
  exact List.forall_mem_append.mpr
    ⟨hbs, List.forall_mem_singleton.mpr (checkLink_eq_none.mp hpass.link).1⟩

/-- The last accepted block is known, whatever certificate it comes with. -/
lemma NodeReachable.tip_dup (hP : P.MallocBounded) (h : NodeReachable P g es c) {bs : List Block}
    {b : Block} (hes : blocksOf es = bs ++ [b]) (now : UInt64) (w : Writes) :
    (acChainAcceptBlock P now w c b).1 = .dup := by
  have hl := (h.ledger hP).1
  have hversion := h.version hP b (by simp [hes])
  rw [hes] at hl
  have htip : c.tipHash = acBlockHash P b.header := by rw [hl.tipHash_eq, tipBlock_snoc]
  have hheight : b.header.height = c.height := by
    refine UInt64.toNat_inj.mp ?_
    rw [hl.consecutive bs.length b (by simp), hl.height_eq, List.length_append,
      List.length_singleton]
  have hlink : checkLink P c b.header = some .dup := by
    rw [checkLink, if_neg (not_not.mpr hversion), hheight]
    split_ifs with h0 hle
    · rfl
    · rw [acChainGetBlockHash, if_pos rfl, htip]
      exact if_pos rfl
    · exact absurd (UInt64.le_refl _) hle
    · exact absurd (UInt64.le_refl _) hle
    · exact absurd (UInt64.le_refl _) hle
  rw [acChainAcceptBlock, checkHeader, hlink]

/-- **Rejected blocks leave no trace.**  On every chain, also behind a failed write, a block that
is known or rejected leaves everything but the seed cache as it was.  When the cache was valid,
every later offer gets the same answer and leads to the same chain as without it.  On a chain that
a node has reached the cache is valid, and the last accepted block is known. -/
theorem rejected_leaves_no_trace (hP : P.MallocBounded) (c : Chain) :
    (∀ now w b, (acChainAcceptBlock P now w c b).1 ≠ .ok →
      (acChainAcceptBlock P now w c b).1 ≠ .internal →
      (∃ k, (acChainAcceptBlock P now w c b).2 = { c with cached := k }) ∧
      (c.CacheValid P → ∀ now' w' b',
        (acChainAcceptBlock P now' w' (acChainAcceptBlock P now w c b).2 b').1 =
          (acChainAcceptBlock P now' w' c b').1 ∧
        Chain.SameButCache (acChainAcceptBlock P now' w' c b').2
          (acChainAcceptBlock P now' w' (acChainAcceptBlock P now w c b).2 b').2)) ∧
    ∀ g es, NodeReachable P g es c → c.CacheValid P ∧
      ∀ bs b, blocksOf es = bs ++ [b] → ∀ now w, (acChainAcceptBlock P now w c b).1 = .dup := by
  refine ⟨fun now w b hne hint => ?_, fun g es h =>
    ⟨(h.ledger hP).1.cacheValid, fun bs b hes => h.tip_dup hP hes⟩⟩
  have hseed := acChainAcceptBlock_turnedAway hP hne fun hi => absurd hi hint
  exact ⟨⟨_, hseed.same.eq_withCached⟩, fun hc => acChainAcceptBlock_reseeded hP hc hseed⟩

end Rejected

/-- A block without enough votes is rejected behind its transactions and the reward, and the
first block is known afterwards. -/
theorem rejected_leaves_no_trace_trio :
    (acChainAcceptBlock reference 100000 .all (trioChain [referenceKey 1, referenceKey 2])
      trioNext).1 = .badCommit ∧
    (∃ k, (acChainAcceptBlock reference 100000 .all (trioChain [referenceKey 1, referenceKey 2])
      trioNext).2 = { trioChain [referenceKey 1, referenceKey 2] with cached := k }) ∧
    (acChainAcceptBlock reference 100000 .all (acChainAcceptBlock reference 100000 .all
      (trioChain [referenceKey 1, referenceKey 2]) trioNext).2
      (trioBlock [referenceKey 1, referenceKey 2])).1 = .dup := by
  have hok : (acChainAcceptBlock reference 100000 .all (openedChain trioGenesis)
      (trioBlock [referenceKey 1, referenceKey 2])).1 = .ok := by decide +kernel
  have hrc : (acChainAcceptBlock reference 100000 .all
      (trioChain [referenceKey 1, referenceKey 2]) trioNext).1 = .badCommit := by decide +kernel
  obtain ⟨hrejected, hreached⟩ := rejected_leaves_no_trace reference_mallocBounded
    (trioChain [referenceKey 1, referenceKey 2])
  obtain ⟨hvalid, hknown⟩ := hreached _ _ (reachable_trioChain hok).node
  obtain ⟨hsame, hlater⟩ := hrejected 100000 .all trioNext (by rw [hrc]; decide)
    (by rw [hrc]; decide)
  exact ⟨hrc, hsame, (hlater hvalid 100000 .all _).1.trans (hknown [] _ rfl 100000 .all)⟩

end AgentChain
