import AgentChain.Build

/-!
# A platform to run the model on

The results of this development hold on every platform, under the assumptions they name.
This file has one platform that satisfies all of them and can be evaluated: hashes are
polynomial, a signature is the public key followed by the hash of the message.
-/

namespace AgentChain

/-- A polynomial hash. -/
def referenceHash (data : Bytes) : Hash :=
  ByteArr.ofBytes 32
    (beEncode 32 (data.foldl (fun acc b => (acc * 257 + b.toNat + 1) % 2 ^ 256) 7))

/-- A signature that everybody can make, and that names its key and its message. -/
def referenceSign (kp : Keypair) (msg : Bytes) : Sig :=
  ByteArr.ofBytes 64 (kp.pk.bytes ++ (referenceHash msg).bytes)

/-- The platform of the concrete runs. -/
def reference : Platform where
  genericHash := referenceHash
  signDetached := referenceSign
  verifyDetached sig msg pk := sig.bytes == pk.bytes ++ (referenceHash msg).bytes
  committeeDraw _ _ _ := true
  leaderDraw _ _ := true
  malloc n := decide (n < 2 ^ 38)

lemma reference_mallocBounded : reference.MallocBounded := fun _ hn =>
  decide_eq_false (not_lt.mpr hn)

/-- Every keypair is valid on it. -/
lemma reference_valid (kp : Keypair) : kp.Valid reference := by
  intro msg
  have hlen : (kp.pk.bytes ++ (referenceHash msg).bytes).length = 64 := by simp
  show ((ByteArr.ofBytes 64 (kp.pk.bytes ++ (referenceHash msg).bytes)).bytes ==
    kp.pk.bytes ++ (referenceHash msg).bytes) = true
  rw [ByteArr.bytes_ofBytes hlen]
  exact beq_self_eq_true _

/-! ### A platform with binding signatures -/

/-- A signature that carries the end of its message, and the start of its key. -/
def labelSig (pk : Addr) (msg : Bytes) : Sig :=
  ByteArr.ofBytes 64 (pk.bytes.take 24 ++ msg.drop (msg.length - 40))

/-- The reference platform with signatures that fit only one commit vote. -/
def labelled : Platform :=
  { reference with
    signDetached := fun kp msg => labelSig kp.pk msg
    verifyDetached := fun sig msg pk => decide (sig = labelSig pk msg) }

lemma labelled_mallocBounded : labelled.MallocBounded := reference_mallocBounded

lemma labelled_valid (kp : Keypair) : kp.Valid labelled := fun _ => decide_eq_true rfl

/-- The label of a vote is its height and its block. -/
lemma labelSig_vote_inj {pk : Addr} {height height' : UInt64} {blockHash blockHash' : Hash}
    (h : labelSig pk (acVoteMessage height blockHash) =
      labelSig pk (acVoteMessage height' blockHash')) :
    height = height' ∧ blockHash = blockHash' := by
  have hlabel : ∀ (v : UInt64) (x : Hash), (labelSig pk (acVoteMessage v x)).bytes =
      pk.bytes.take 24 ++ (acBe64 v ++ x.bytes) := by
    intro v x
    have hdomain : (ascii "AGCH:VOTE:v1").length = 12 := rfl
    have hlen : (acVoteMessage v x).length = 52 := by simp [acVoteMessage, length_acBe64, hdomain]
    have hdrop : (acVoteMessage v x).drop 12 = acBe64 v ++ x.bytes := by
      rw [acVoteMessage, List.append_assoc, ← hdomain, List.drop_left]
    rw [labelSig, hlen, show 52 - 40 = 12 from rfl, hdrop, ByteArr.bytes_ofBytes]
    simp [length_acBe64]
  have hbytes := congrArg ByteArr.bytes h
  rw [hlabel, hlabel] at hbytes
  obtain ⟨hheight, hblock⟩ := List.append_inj (List.append_cancel_left hbytes)
    (by rw [length_acBe64, length_acBe64])
  exact ⟨acBe64_inj hheight, ByteArr.ext hblock⟩

/-- The keypair number `n`. -/
def referenceKey (n : UInt8) : Keypair := ⟨ByteArr.fill 32 n, ByteArr.fill 64 n⟩

/-! ### Certificates -/

section Certify

variable (P : Platform)

/-- The entry of a certificate that a validator with the given key makes for a block on top
of a chain. -/
def voteOf (c : Chain) (h : BlockHeader) (kp : Keypair) : CommitSigner where
  signer := kp.pk
  sig := acSign P (acVoteMessage h.height (acBlockHash P h)) kp
  vrfProof := acVrfProve P (committeeAlpha (computeEpochSeed P c (acEpochOf h.slot)) h.slot) kp

/-- The certificate of the validators with the given keys. -/
def certificateOf (c : Chain) (h : BlockHeader) (keys : List Keypair) : List CommitSigner :=
  keys.map (voteOf P c h)

/-- The block with the certificate of the given keys; a longer list than fits is cut. -/
def Block.certify (b : Block) (c : Chain) (keys : List Keypair) : Block :=
  b.withSigners ((certificateOf P c b.header keys).take acCommitteeMax)
    ((List.length_take_le _ _).trans le_rfl)

end Certify

/-! ### Transactions and chains -/

/-- The transaction with the signature of a key. -/
def signTx (P : Platform) (tx : Tx) (kp : Keypair) : Tx :=
  match acTxSignableBytes acTxMaxBytes tx with
  | none => tx
  | some buf => { tx with sig := acSign P (acHash P buf).bytes kp }

/-- Two validators, the first with the larger stake. -/
def referenceGenesis : Genesis :=
  ⟨1, 0, [⟨(referenceKey 1).pk, 5000000, 300000000⟩, ⟨(referenceKey 2).pk, 7000000, 200000000⟩]⟩

/-- The chain that a genesis opens on an empty directory. -/
def openedChain (g : Genesis) : Chain :=
  (acChainOpen reference .all .empty (some g)).getD (Chain.fresh .empty 0)

lemma acChainOpen_openedChain {g : Genesis}
    (h : (acChainOpen reference .all .empty (some g)).isSome = true) :
    acChainOpen reference .all .empty (some g) = some (openedChain g) := by
  obtain ⟨c, hc⟩ := Option.isSome_iff_exists.mp h
  rw [openedChain, hc, Option.getD_some]

/-- The opened chain is reachable when its state fits into a buffer. -/
lemma reachable_openedChain {g : Genesis}
    (h : (acChainOpen reference .all .empty (some g)).isSome = true) :
    Reachable reference g [] (openedChain g) :=
  reachable_genesis (w := .all) (show DataDir.empty.metaBin = none from rfl)
    (acChainOpen_openedChain h)

/-- The chain that a genesis opens on an empty directory of any platform. -/
def openedOn (P : Platform) (g : Genesis) : Chain :=
  (acChainOpen P .all .empty (some g)).getD (Chain.fresh .empty 0)

lemma reachable_openedOn {P : Platform} {g : Genesis}
    (h : (acChainOpen P .all .empty (some g)).isSome = true) : Reachable P g [] (openedOn P g) := by
  obtain ⟨c, hc⟩ := Option.isSome_iff_exists.mp h
  refine reachable_genesis (w := .all) (show DataDir.empty.metaBin = none from rfl) ?_
  rw [openedOn, hc, Option.getD_some]

/-- The block that the key builds at a slot, certified by the given keys; the genesis block
when nothing is built. -/
def nextBlock (c : Chain) (slot : UInt64) (kp : Keypair) (cands : Candidates)
    (keys : List Keypair) : Block :=
  ((acChainBuildBlock reference c slot kp cands).1.getD
    (genesisBlock reference ⟨0, 0, []⟩)).certify reference c keys

/-- The signers of the block are the keys, as many as fit. -/
lemma map_signer_nextBlock (c : Chain) (slot : UInt64) (kp : Keypair) (cands : Candidates)
    (keys : List Keypair) : (nextBlock c slot kp cands keys).signers.map CommitSigner.signer =
      (keys.take acCommitteeMax).map Keypair.pk := by
  show ((certificateOf reference c _ keys).take acCommitteeMax).map CommitSigner.signer = _
  rw [certificateOf, ← List.map_take, List.map_map]
  rfl

/-- A block without transactions on top of the genesis. -/
def referenceBlock : Block :=
  nextBlock (openedChain referenceGenesis) 1 (referenceKey 1) ⟨[], nil_candidates_le⟩
    [referenceKey 1, referenceKey 2]

end AgentChain
