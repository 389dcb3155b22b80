import AgentChain.Network
import AgentChain.Certificate
import AgentChain.Verdict

/-!
# Do the nodes agree on the blocks that they commit?

Two certificates of one height share a signer, and whoever signs both has voted twice.  In a
network whose nodes keep their cast votes nobody does, so that all nodes commit the same
blocks.  With the moves of `vote_phase` the argument breaks: the last part of the file is a
run of three honest nodes that ends with two different blocks of height one.
-/

namespace AgentChain

open Trace Quorum

/-- A node has committed the block at the height. -/
def Net.Stored {ι : Type*} (net : Net ι) (height : UInt64) (b : Block) : Prop :=
  ∃ j, ¬ (net j).cs.chain.height < height ∧ blockRead (net j).cs.chain.dir height = some b

/-- No two of the committed blocks share their hash, as with an ideal hash function. -/
def Net.NoCollision (P : Platform) {ι : Type*} (net : Net ι) : Prop :=
  ∀ height b b', net.Stored height b → net.Stored height b' →
    acBlockHash P b.header = acBlockHash P b'.header → b.header = b'.header ∧ b.txs = b'.txs

section Agreement

variable {ι : Type*} {P : Platform} {g : Genesis} {kp : ι → Keypair} {net : Net ι}
  {bs bs' : List Block} {c c' : Chain}

/-- A network of nodes that have just started on the genesis. -/
lemma NetInv.initial (hP : P.MallocBounded) {chain : ι → Chain} (kp : ι → Keypair)
    (validator : ι → Bool) (slot : ι → UInt64) (hchain : ∀ j, Reachable P g [] (chain j)) :
    NetInv P g kp fun j => Node.initial (chain j) (kp j) (validator j) (slot j) := by
  refine ⟨fun _ => rfl, fun j => ?_, fun _ => ⟨nofun, nofun, nofun⟩, fun j => ?_⟩
  · exact Consensus.LockInv.initial hP (hchain j).node (kp j) (validator j)
  · exact
      { inv := NodeInv.initial hP (hchain j).node _ _ _
        table := fun _ _ hp => by cases hp
        sent := msgCerts_nil
        built := fun _ hb => by cases hb
        log := ⟨[], (hchain j).ledger hP, fun k b hb => by simp at hb, by simp⟩ }

/-- The vote behind an entry of an accepted certificate: cast by the node with that key, for
that block and height. -/
lemma NetInv.vote_of_signer (h : NetInv P g kp net) (hkp : ∀ j, (kp j).BindsVotes P)
    {cached : Option (UInt64 × Hash)} {b : Block} (hcommit : CommitOk P c cached b)
    (hcert : b.CertOk P net.Signed) {a : Addr} (ha : a ∈ b.signerAddrs) :
    ∃ j, (kp j).pk = a ∧ ∃ v ∈ votesOf (net j).sent, v.height = b.header.height ∧
      v.blockHash = acBlockHash P b.header := by
  obtain ⟨s, hs, rfl⟩ := List.mem_map.mp ha
  obtain ⟨j, v, hv, hhash, hsigner⟩ := hcert.signed s hs
  obtain ⟨proof, hcast⟩ := (h.log j).cast v hv
  obtain ⟨-, -, hok, -⟩ := validateCommit_iff.mp hcommit
  have hpk : s.signer = (kp j).pk := by
    rw [← hsigner, ← h.key j]
    exact congrArg Vote.signer hcast
  have hsig : s.sig = acSign P (acVoteMessage v.height v.blockHash) (kp j) := by
    rw [← hsigner, ← h.key j]
    exact congrArg Vote.sig hcast
  have hverify := signerOk_verify (hok s hs)
  rw [hpk, hsig] at hverify
  exact ⟨j, hpk.symm, v, hv, (hkp j _ _ _ _ hverify).1, hhash⟩

/-- Two nodes with the same blocks up to a height have the same hash there. -/
lemma NetInv.hash_eq (hP : P.MallocBounded) (h : NetInv P g kp net) (hkp : ∀ j, (kp j).BindsVotes P)
    (hinj : Function.Injective fun j => (kp j).pk) (hl : CommitLog P g net.Signed bs c)
    (hl' : CommitLog P g net.Signed bs' c') {k : ℕ} {b b' : Block} (hb : bs[k]? = some b)
    (hb' : bs'[k]? = some b') (hsame : SameBlocks (bs.take k) (bs'.take k)) :
    acBlockHash P b.header = acBlockHash P b'.header := by
  obtain ⟨c₁, cached, hledger, hcommit⟩ := hl.commits k b hb
  obtain ⟨c₁', cached', hledger', hcommit'⟩ := hl'.commits k b' hb'
  have hcert := hl.certs b (List.mem_of_getElem? hb)
  have hcert' := hl'.certs b' (List.mem_of_getElem? hb')
  -- both certificates are majorities of the same validators
  have hstate : c₁'.state = c₁.state := by
    rw [hledger.state_eq, hledger'.state_eq, hsame.replay_eq]
  obtain ⟨buf, hbuf, -⟩ := hledger.stateBin_eq
  have hcount := (countable_of_serialize hP hbuf).1
  have hmajority := hcommit.majority hcount hcert.nodup
  have hmajority' := hcommit'.majority (hstate ▸ hcount) hcert'.nodup
  rw [hstate] at hmajority'
  obtain ⟨a, ha⟩ := hmajority.inter_nonempty hmajority'
  rw [Finset.mem_inter, List.mem_toFinset, List.mem_toFinset] at ha
  obtain ⟨j, hj, v, hv, hheight, hhash⟩ := h.vote_of_signer hkp hcommit hcert ha.1
  obtain ⟨j', hj', v', hv', hheight', hhash'⟩ := h.vote_of_signer hkp hcommit' hcert' ha.2
  obtain rfl : j = j' := hinj (hj.trans hj'.symm)
  rw [← hhash, ← hhash']
  refine (h.log j).agree v hv v' hv' ?_
  rw [hheight, hheight']
  refine UInt64.toNat_inj.mp ?_
  rw [hl.ledger.consecutive k b hb, hl'.ledger.consecutive k b' hb']

/-- The blocks of a ledger are stored. -/
lemma CommitLog.stored_at {Q : Hash → CommitSigner → Prop} {j : ι}
    (hl : CommitLog P g Q bs (net j).cs.chain) {k : ℕ} {b : Block} (hb : bs[k]? = some b) :
    net.Stored (UInt64.ofNat (k + 1)) b := by
  have hk : k < bs.length := (List.getElem?_eq_some_iff.mp hb).1
  have hheight := hl.ledger.height_eq
  have hlt := (net j).cs.chain.height.toNat_lt
  refine ⟨j, ?_, ?_⟩
  · rw [UInt64.lt_iff_toNat_lt, UInt64.toNat_ofNat_of_lt' (show k + 1 < 2 ^ 64 by omega)]
    omega
  · rw [hl.ledger.stored (k + 1) hk, List.getElem?_cons_succ, hb]

/-- Two nodes have the same blocks as far as both go. -/
lemma NetInv.sameBlocks (hP : P.MallocBounded) (h : NetInv P g kp net)
    (hkp : ∀ j, (kp j).BindsVotes P)
    (hinj : Function.Injective fun j => (kp j).pk) (hhash : net.NoCollision P) {i j : ι}
    (hl : CommitLog P g net.Signed bs (net i).cs.chain)
    (hl' : CommitLog P g net.Signed bs' (net j).cs.chain) {k : ℕ} (hk : k ≤ bs.length)
    (hk' : k ≤ bs'.length) : SameBlocks (bs.take k) (bs'.take k) := by
  induction k with
  | zero => exact rfl
  | succ k ih =>
    have hsame := ih (by omega) (by omega)
    have hb : bs[k]? = some bs[k] := List.getElem?_eq_getElem hk
    have hb' : bs'[k]? = some bs'[k] := List.getElem?_eq_getElem hk'
    obtain ⟨hheader, htxs⟩ := hhash _ _ _ (hl.stored_at hb) (hl'.stored_at hb')
      (h.hash_eq hP hkp hinj hl hl' hb hb' hsame)
    rw [List.take_succ_eq_append_getElem hk, List.take_succ_eq_append_getElem hk', SameBlocks,
      List.map_append, List.map_append, List.map_singleton, List.map_singleton, hsame, hheader,
      htxs]

/-- **Agreement of careful nodes.**  Any number of nodes with keys of their own start on one
genesis and exchange their broadcasts in any way.  In every state that they reach without
moving a cast vote and without a failed write, the blocks which any two of them have committed
at one height are the same. -/
theorem careful_nodes_agree [DecidableEq ι] (hP : P.MallocBounded) {chain : ι → Chain}
    {kp : ι → Keypair} {validator : ι → Bool} {slot : ι → UInt64}
    (hchain : ∀ j, Reachable P g [] (chain j)) (hkp : ∀ j, (kp j).BindsVotes P)
    (hinj : Function.Injective fun j => (kp j).pk) {xs : List (NetAction ι)}
    (hrun : NetRun P (Careful P)
      (fun j => Node.initial (chain j) (kp j) (validator j) (slot j)) xs net)
    (hhash : net.NoCollision P) {height : UInt64} {b b' : Block} (hb : net.Stored height b)
    (hb' : net.Stored height b') : b.header = b'.header ∧ b.txs = b'.txs := by
  have hinv := (NetInv.initial hP kp validator slot hchain).run hP hrun
  refine hhash height b b' hb hb' ?_
  obtain ⟨i, hi, hbi⟩ := hb
  obtain ⟨j, hj, hbj⟩ := hb'
  obtain ⟨bs, hl⟩ := (hinv.certs i).log
  obtain ⟨bs', hl'⟩ := (hinv.certs j).log
  have hle : ∀ {l : ι} {bs : List Block}, CommitLog P g net.Signed bs (net l).cs.chain →
      ¬ (net l).cs.chain.height < height → height.toNat ≤ bs.length := by
    intro l bs hl hlt
    rw [← hl.ledger.height_eq]
    exact UInt64.le_iff_toNat_le.mp (UInt64.not_lt.mp hlt)
  have hread := hl.ledger.stored height.toNat (hle hl hi)
  have hread' := hl'.ledger.stored height.toNat (hle hl' hj)
  rw [UInt64.ofNat_toNat, hbi] at hread
  rw [UInt64.ofNat_toNat, hbj] at hread'
  cases hk : height.toNat with
  | zero =>
    rw [hk] at hread hread'
    rw [Option.some.inj hread, Option.some.inj hread']
  | succ k =>
    rw [hk, List.getElem?_cons_succ] at hread hread'
    have hkl : k ≤ bs.length := by have := hle hl hi; omega
    have hkl' : k ≤ bs'.length := by have := hle hl' hj; omega
    exact hinv.hash_eq hP hkp hinj hl hl' hread.symm hread'.symm
      (hinv.sameBlocks hP hkp hinj hhash hl hl' hkl hkl')

end Agreement

/-! ### Three validators -/

/-- The keys of three validators. -/
def trioKey (j : Fin 3) : Keypair := referenceKey (UInt8.ofNat (j.val + 1))

/-- Three validators of equal weight, at the start of the first slot. -/
def trioNet : Net (Fin 3) := fun j =>
  Node.initial (openedOn labelled equalGenesis) (trioKey j) true 1

/-- A validator that has proposed its block and voted in the first slot. -/
def voterNode (k : UInt8) : Node := (equalNode k).execAll labelled firstVote

/-- Message number `k` of a node. -/
def Node.message (n : Node) (k : ℕ) : Msg := n.sent.getD k (.headersReq [])

lemma Node.message_mem {n : Node} {k : ℕ} (h : k < n.sent.length) : n.message k ∈ n.sent := by
  rw [Node.message, List.getD_eq_getElem?_getD, List.getElem?_eq_getElem h, Option.getD_some]
  exact List.getElem_mem h

/-- The first validator receives the block and the vote of the second one, and seals. -/
def sealFirst : List NodeAction :=
  leadSlot 2000 ++ [.receive (Env.atMs 2500) ((voterNode 2).message 0),
    .own (.vote (Env.atMs 3100)), .receive (Env.atMs 3150) ((voterNode 2).message 1),
    .own (.seal fun _ => Env.atMs 3400)]

def sealedNode : Node := (equalNode 1).execAll labelled sealFirst

/-- The second validator receives the sealed block, and seals. -/
def sealSecond : List NodeAction :=
  [.receive (Env.atMs 3450) (sealedNode.message 2), .own (.seal fun _ => Env.atMs 3500)]

def followerNode : Node := (voterNode 2).execAll labelled sealSecond

/-- The network in which the first two validators have sealed the block of the second one. -/
def sealedNet : Net (Fin 3) :=
  Function.update (Function.update trioNet 1 (voterNode 2)) 0 sealedNode

def settledNet : Net (Fin 3) := Function.update sealedNet 1 followerNode

/-- What the first two validators do on the way there, and the blocks that are there: the
genesis, and one block at two of the nodes. -/
lemma settledNet_run :
    (AllMeet labelled (Careful labelled) (equalNode 2) firstVote ∧
      AllMeet labelled (Careful labelled) (equalNode 1) sealFirst ∧
      AllMeet labelled (Careful labelled) (voterNode 2) sealSecond ∧
      (voterNode 2).sent.length = 2 ∧ sealedNode.sent.length = 3) ∧
    (∀ j, (settledNet j).cs.chain.height = if j = 2 then 0 else 1) ∧
      (∀ j, (blockRead (settledNet j).cs.chain.dir 0).map (fun b => (b.header, b.txs)) =
        some (genesisHeader labelled equalGenesis, [])) ∧
      ∀ j, j ≠ 2 → (blockRead (settledNet j).cs.chain.dir 1).map (fun b => (b.header, b.txs)) =
        some ((builtBy 2).header, []) := by
  decide +kernel

/-- The first validator seals the block of the second one. -/
lemma run_sealedNet : ∃ xs, NetRun labelled (Careful labelled) trioNet xs sealedNet := by
  obtain ⟨⟨hvote, hseal, -, hlen, -⟩, -⟩ := settledNet_run
  obtain ⟨xs, hxs⟩ := netRun_stretch trioNet 1 hvote fun m hm => absurd hm List.not_mem_nil
  obtain ⟨ys, hys⟩ := netRun_stretch (Function.update trioNet 1 (voterNode 2)) 0 hseal (by
    intro m hm
    refine ⟨1, by decide, ?_⟩
    rw [Function.update_self]
    rcases List.mem_cons.mp hm with rfl | hm
    · exact Node.message_mem (by omega)
    · rw [List.mem_singleton.mp hm]
      exact Node.message_mem (by omega))
  exact ⟨xs ++ ys, hxs.trans hys⟩

/-- The second validator follows. -/
lemma run_settledNet : ∃ xs, NetRun labelled (Careful labelled) trioNet xs settledNet := by
  obtain ⟨⟨-, -, hseal, -, hlen⟩, -⟩ := settledNet_run
  obtain ⟨xs, hxs⟩ := run_sealedNet
  obtain ⟨ys, hys⟩ := netRun_stretch sealedNet 1 hseal (by
    intro m hm
    refine ⟨0, by decide, ?_⟩
    rw [List.mem_singleton.mp hm]
    exact Node.message_mem (n := sealedNode) (by omega))
  exact ⟨xs ++ ys, hxs.trans hys⟩

lemma settledNet_noCollision : settledNet.NoCollision labelled := by
  obtain ⟨-, hheight, hzero, hone⟩ := settledNet_run
  have hstored : ∀ height b, settledNet.Stored height b → (b.header, b.txs) =
      (if height = 0 then genesisHeader labelled equalGenesis else (builtBy 2).header, []) := by
    rintro height b ⟨j, hj, hb⟩
    by_cases h0 : height = 0
    · have hj0 := hzero j
      rw [← h0, hb, Option.map_some] at hj0
      rw [if_pos h0]
      exact Option.some.inj hj0
    · have hpos : height.toNat ≠ 0 := fun h => h0 (UInt64.toNat_inj.mp h)
      rw [hheight j, UInt64.lt_iff_toNat_lt] at hj
      split_ifs at hj with h2
      · exact absurd (Nat.pos_of_ne_zero hpos) hj
      · have h1 : height = 1 := UInt64.toNat_inj.mp (by
          have h1 : (1 : UInt64).toNat = 1 := rfl
          omega)
        have hj1 := hone j h2
        rw [← h1, hb, Option.map_some] at hj1
        rw [if_neg h0]
        exact Option.some.inj hj1
  intro height b b' hb hb' _
  exact Prod.mk.inj ((hstored height b hb).trans (hstored height b' hb').symm)

theorem careful_nodes_agree_trio :
    ∃ b b', blockRead (settledNet 0).cs.chain.dir 1 = some b ∧
      blockRead (settledNet 1).cs.chain.dir 1 = some b' ∧ b.header = b'.header ∧
      b.txs = b'.txs := by
  obtain ⟨xs, hxs⟩ := run_settledNet
  obtain ⟨-, hheight, -, hone⟩ := settledNet_run
  obtain ⟨b, hb, -⟩ := Option.map_eq_some_iff.mp (hone 0 (by decide))
  obtain ⟨b', hb', -⟩ := Option.map_eq_some_iff.mp (hone 1 (by decide))
  exact ⟨b, b', hb, hb', careful_nodes_agree labelled_mallocBounded
    (fun _ => reachable_equalGenesis) (fun j => labelled_bindsVotes (trioKey j))
    (by decide +kernel) hxs settledNet_noCollision ⟨0, by rw [hheight]; decide, hb⟩
    ⟨1, by rw [hheight]; decide, hb'⟩⟩

/-! ### A fork

The third validator votes for its own block.  That block has the lowest priority, and when the
second validator sees it in the next slot, it moves its vote there. -/

/-- The second validator receives the block of the third one, and votes in the second slot. -/
def moveVote : List NodeAction :=
  [.receive (Env.atMs 3200) ((voterNode 3).message 0), .own (.seal fun _ => Env.atMs 3400)] ++
    leadSlot 4000 ++ [.own (.vote (Env.atMs 5100))]

def moverNode : Node := (voterNode 2).execAll labelled moveVote

/-- The third validator receives this vote, and seals. -/
def sealLast : List NodeAction :=
  [.receive (Env.atMs 5200) (moverNode.message 3), .own (.seal fun _ => Env.atMs 5400)]

def forkedNode : Node := (voterNode 3).execAll labelled sealLast

/-- The network in which the first and the third validator have committed different blocks. -/
def forkedNet : Net (Fin 3) :=
  Function.update (Function.update (Function.update sealedNet 2 (voterNode 3)) 1 moverNode) 2
    forkedNode

/-- What the second and the third validator do on the way there, and what comes out of it. -/
lemma forkedNet_run :
    AllMeet labelled (Undisturbed labelled) (equalNode 3) firstVote ∧
      AllMeet labelled (Undisturbed labelled) (voterNode 2) moveVote ∧
      AllMeet labelled (Undisturbed labelled) (voterNode 3) sealLast ∧
      (voterNode 3).sent.length = 2 ∧ moverNode.sent.length = 4 ∧
      ¬ sealedNode.cs.chain.height < 1 ∧ ¬ forkedNode.cs.chain.height < 1 ∧
      ∃ b ∈ blockRead sealedNode.cs.chain.dir 1, ∃ b' ∈ blockRead forkedNode.cs.chain.dir 1,
        b.header.proposer = (trioKey 1).pk ∧ b'.header.proposer = (trioKey 2).pk ∧
          acBlockHash labelled b.header ≠ acBlockHash labelled b'.header := by
  decide +kernel

/-- The move of the vote is all that distinguishes this run from a careful one. -/
lemma run_forkedNet : ∃ xs, NetRun labelled (Undisturbed labelled) trioNet xs forkedNet := by
  obtain ⟨hvote, hmove, hseal, hlen, hlen', -⟩ := forkedNet_run
  obtain ⟨xs, hxs⟩ := run_sealedNet
  have hxs' : NetRun labelled (Undisturbed labelled) trioNet xs sealedNet := by
    refine hxs.mono ?_
    rintro net _ _ ⟨x, rfl, hx, rfl⟩
    exact ⟨x, rfl, fun j a hj => (hx j a hj).2, rfl⟩
  obtain ⟨ys, hys⟩ := netRun_stretch sealedNet 2 hvote fun m hm => absurd hm List.not_mem_nil
  obtain ⟨zs, hzs⟩ := netRun_stretch (Function.update sealedNet 2 (voterNode 3)) 1 hmove (by
    intro m hm
    refine ⟨2, by decide, ?_⟩
    rw [Function.update_self, List.mem_singleton.mp hm]
    exact Node.message_mem (by omega))
  obtain ⟨ws, hws⟩ := netRun_stretch
    (Function.update (Function.update sealedNet 2 (voterNode 3)) 1 moverNode) 2 hseal (by
      intro m hm
      refine ⟨1, by decide, ?_⟩
      rw [Function.update_self, List.mem_singleton.mp hm]
      exact Node.message_mem (by omega))
  exact ⟨_, ((hxs'.trans hys).trans hzs).trans hws⟩

/-- **Honest nodes fork.**  Nobody is disturbed, and two validators commit different blocks of
height one. -/
theorem honest_nodes_fork :
    (∃ xs, NetRun labelled (Undisturbed labelled) trioNet xs forkedNet) ∧
      ∃ b b', forkedNet.Stored 1 b ∧ forkedNet.Stored 1 b' ∧
        b.header.proposer = (trioKey 1).pk ∧ b'.header.proposer = (trioKey 2).pk ∧
        acBlockHash labelled b.header ≠ acBlockHash labelled b'.header := by
  obtain ⟨-, -, -, -, -, hheight, hheight', b, hb, b', hb', h⟩ := forkedNet_run
  have h0 : forkedNet 0 = sealedNode := rfl
  have h2 : forkedNet 2 = forkedNode := rfl
  rw [← h0] at hheight hb
  rw [← h2] at hheight' hb'
  exact ⟨run_forkedNet, b, b', ⟨0, hheight, Option.mem_def.mp hb⟩,
    ⟨2, hheight', Option.mem_def.mp hb'⟩, h⟩

end AgentChain
