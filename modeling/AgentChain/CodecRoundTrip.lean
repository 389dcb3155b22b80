import AgentChain.Codec

/-!
# Decoding what was encoded

The encoders never fail on the values of the model: every transaction fits in its 2048
bytes and every block in the bound that `ac_block_encode` allocates.  Decoding an encoded
transaction or block, with arbitrary bytes behind the block, gives the value back.  This is
what makes a block file or a message carry the block it was written from.
-/

namespace AgentChain

/-! ### Transactions -/

/-- The encoding of a transaction. -/
def txBytes (tx : Tx) : Bytes := (txBodyChunks tx ++ [tx.sig.bytes]).flatten

lemma length_txBytes (tx : Tx) : (txBytes tx).length = 142 + tx.body.length + tx.memo.length := by
  simp [txBytes, txBodyChunks, acBe8, acBe32, acBe64]
  omega

lemma length_txBytes_le (tx : Tx) : (txBytes tx).length ≤ 1166 := by
  have hb : tx.body.length ≤ 512 := tx.body_le
  have hm : tx.memo.length ≤ 512 := tx.memo_le
  rw [length_txBytes]
  omega

lemma acTxEncode_eq {cap : ℕ} {tx : Tx} (h : (txBytes tx).length ≤ cap) :
    acTxEncode cap tx = some (txBytes tx) := by
  rw [acTxEncode, wputs_init]
  exact if_pos h

/-- The signable bytes of a transaction, which always fit. -/
lemma acTxSignableBytes_eq (tx : Tx) : acTxSignableBytes acTxMaxBytes tx =
    some (ascii "AGCH:TX:v1" :: txBodyChunks tx).flatten := by
  have hlen : (ascii "AGCH:TX:v1" :: txBodyChunks tx).flatten.length + 64 =
      10 + (txBytes tx).length := by
    have hdom : (ascii "AGCH:TX:v1").length = 10 := by decide
    simp only [txBytes, List.flatten_cons, List.length_append, List.flatten_append,
      List.flatten_nil, List.length_nil, hdom, ByteArr.length_bytes]
    omega
  have hle := length_txBytes_le tx
  rw [acTxSignableBytes, wputs_init, if_pos]
  rw [acTxMaxBytes]
  omega

/-- Verifying a transaction is verifying its signature over the hash of these bytes. -/
lemma acTxVerify_eq {P : Platform} (tx : Tx) : acTxVerify P tx = acVerify P tx.sig
    (acHash P (ascii "AGCH:TX:v1" :: txBodyChunks tx).flatten).bytes tx.sender := by
  have hdef : acTxVerify P tx = (acTxSignableBytes acTxMaxBytes tx).elim false
      fun buf => acVerify P tx.sig (acHash P buf).bytes tx.sender := by
    -- the equation of the definition would be checked by running the encoder
    delta acTxVerify
    generalize acTxSignableBytes acTxMaxBytes tx = o
    cases o with
    | none => rfl
    | some buf => rfl
  rw [hdef, acTxSignableBytes_eq, Option.elim_some]

lemma toNat_length_u32 {bs : Bytes} {k : ℕ} (h : bs.length ≤ k) (hk : k < 2 ^ 32) :
    (UInt32.ofNat bs.length).toNat = bs.length :=
  UInt32.toNat_ofNat_of_lt' (lt_of_le_of_lt h hk)

lemma txFields_txBytes (tx : Tx) (rest : Bytes) :
    txFields ⟨txBytes tx ++ rest, false⟩ = some (tx, ⟨rest, false⟩) := by
  have hb : (UInt32.ofNat tx.body.length).toNat = tx.body.length :=
    toNat_length_u32 tx.body_le (by decide)
  have hm : (UInt32.ofNat tx.memo.length).toNat = tx.memo.length :=
    toNat_length_u32 tx.memo_le (by decide)
  have hflat : txBytes tx ++ rest = acBe8 tx.version ++ (acBe64 tx.chainId ++
      (acBe8 tx.kind ++ (tx.sender.bytes ++ (acBe64 tx.nonce ++ (acBe32 tx.gasLimit ++
      (acBe64 tx.tip ++ (acBe64 tx.validUntil ++ (acBe32 (UInt32.ofNat tx.body.length) ++
      (tx.body ++ (acBe32 (UInt32.ofNat tx.memo.length) ++ (tx.memo ++
      (tx.sig.bytes ++ rest)))))))))))) := by
    simp [txBytes, txBodyChunks]
  simp only [hflat, txFields, acBe8, acBe32, acBe64, rgetU8_append, rgetU64_append,
    rgetArr_append, rgetU32_append, rget_append _ _ hb.symm, rget_append _ _ hm.symm]
  rw [dif_neg (by rw [hb]; exact not_lt.mpr tx.body_le),
    dif_neg (by rw [hm]; exact not_lt.mpr tx.memo_le)]

/-- Decoding the encoding of a transaction. -/
theorem acTxDecode_txBytes (tx : Tx) : acTxDecode (txBytes tx) = some tx := by
  have hlen := length_txBytes_le tx
  have hf := txFields_txBytes tx []
  rw [List.append_nil] at hf
  rw [acTxDecode, if_neg (by rw [acTxMaxBytes]; omega), hf]
  simp

/-- Transactions with the same signable bytes agree in every field but the signature. -/
lemma acTxSignableBytes_injective {tx tx' : Tx}
    (h : acTxSignableBytes acTxMaxBytes tx = acTxSignableBytes acTxMaxBytes tx') :
    { tx with sig := tx'.sig } = tx' := by
  rw [acTxSignableBytes_eq, acTxSignableBytes_eq, Option.some.injEq, List.flatten_cons,
    List.flatten_cons] at h
  have hbody : (txBodyChunks tx).flatten = (txBodyChunks tx').flatten := List.append_cancel_left h
  -- with one signature behind them, equal bodies decode to the same transaction
  have hbytes : txBytes { tx with sig := tx'.sig } = txBytes tx' := by
    rw [txBytes, txBytes, List.flatten_append, List.flatten_append, ← hbody]
    rfl
  have hdec := acTxDecode_txBytes { tx with sig := tx'.sig }
  rw [hbytes, acTxDecode_txBytes] at hdec
  exact (Option.some.inj hdec).symm

/-! ### Headers -/

/-- The encoding of a header. -/
def headerBytes (h : BlockHeader) : Bytes := (headerChunks h).flatten

@[simp] lemma length_headerBytes (h : BlockHeader) : (headerBytes h).length = 245 := by
  simp [headerBytes, headerChunks, acBe8, acBe32, acBe64]

lemma acBlockHeaderEncode_eq {cap : ℕ} (h : BlockHeader) (hc : 245 ≤ cap) :
    acBlockHeaderEncode cap h = some (headerBytes h) := by
  rw [acBlockHeaderEncode, wputs_init]
  exact if_pos ((length_headerBytes h).trans_le hc)

/-- Decoding a header in front of arbitrary bytes. -/
theorem acBlockHeaderDecode_headerBytes (h : BlockHeader) (rest : Bytes) :
    acBlockHeaderDecode (headerBytes h ++ rest) = some (h, rest) := by
  have hflat : headerBytes h ++ rest = acBe8 h.version ++ (acBe64 h.height ++
      (acBe64 h.slot ++ (h.parentHash.bytes ++ (acBe64 h.timestampMs ++ (h.proposer.bytes ++
      (h.proposerVrfProof.bytes ++ (h.stateRoot.bytes ++ (h.txRoot.bytes ++
      (acBe64 h.baseFee ++ (acBe64 h.gasUsed ++ (acBe64 h.gasLimit ++
      (acBe32 h.txCount ++ rest)))))))))))) := by
    simp [headerBytes, headerChunks]
  simp only [hflat, acBlockHeaderDecode, acBe8, acBe32, acBe64, rgetU8_append, rgetU64_append,
    rgetArr_append, rgetU32_append]
  rfl

/-! ### Blocks -/

/-- The encoding of a commit certificate. -/
def certBytes (signers : List CommitSigner) : Bytes :=
  acBe32 (UInt32.ofNat signers.length) ++ (signers.flatMap signerChunks).flatten

/-- The encoding of a block. -/
def blockBytes (b : Block) : Bytes :=
  headerBytes b.header ++ (b.txs.flatMap txBytes ++ certBytes b.signers)

lemma length_signers_flatten (signers : List CommitSigner) :
    (signers.flatMap signerChunks).flatten.length = signers.length * 160 := by
  induction signers with
  | nil => rfl
  | cons s signers ih =>
    rw [List.flatMap_cons, List.flatten_append, List.length_append, ih, List.length_cons]
    simp [signerChunks]
    omega

/-- A block takes the bytes of its header, its transactions and its certificate. -/
lemma length_blockBytes (b : Block) :
    (blockBytes b).length = 249 + (b.txs.flatMap txBytes).length + 160 * b.signers.length := by
  rw [blockBytes, certBytes, List.length_append, List.length_append, List.length_append,
    length_headerBytes, length_signers_flatten, acBe32, length_beEncode]
  omega

lemma length_txs_flatMap_le (txs : List Tx) :
    (txs.flatMap txBytes).length ≤ txs.length * 1166 := by
  induction txs with
  | nil => simp
  | cons tx txs ih =>
    have := length_txBytes_le tx
    rw [List.flatMap_cons, List.length_append, List.length_cons]
    omega

/-- The transaction loop of the encoder, with room for the transactions left. -/
lemma foldlM_txEncode (cap : ℕ) (txs : List Tx) (acc : Bytes)
    (h : acc.length + txs.length * acTxMaxBytes ≤ cap) :
    txs.foldlM (fun acc tx => do
      let enc ← acTxEncode (cap - acc.length) tx
      pure (acc ++ enc)) acc = some (acc ++ txs.flatMap txBytes) := by
  induction txs generalizing acc with
  | nil => simp
  | cons tx txs ih =>
    have hlen := length_txBytes_le tx
    rw [List.length_cons, acTxMaxBytes] at h
    have henc : acTxEncode (cap - acc.length) tx = some (txBytes tx) :=
      acTxEncode_eq (by omega)
    have hrec := ih (acc ++ txBytes tx) (by
      rw [List.length_append, acTxMaxBytes]
      omega)
    rw [List.foldlM_cons, henc, List.flatMap_cons, ← List.append_assoc, ← hrec]
    rfl

/-- Encoding a block never fails. -/
theorem acBlockEncode_eq (b : Block) : acBlockEncode b = some (blockBytes b) := by
  have hfold := foldlM_txEncode (blockUpper b) b.txs (headerBytes b.header) (by
    rw [length_headerBytes, blockUpper, headerBytesMax]
    omega)
  have htxs := length_txs_flatMap_le b.txs
  have hcert := length_signers_flatten b.signers
  have hupper : blockUpper b = 256 + b.txs.length * 2048 + 4 + b.signers.length * 160 := rfl
  have hbody : (headerBytes b.header ++ b.txs.flatMap txBytes).length =
      245 + (b.txs.flatMap txBytes).length := by
    rw [List.length_append, length_headerBytes]
  have hfin := finish_wputs
    (acBe32 (UInt32.ofNat b.signers.length) :: b.signers.flatMap signerChunks)
    (c := ⟨headerBytes b.header ++ b.txs.flatMap txBytes, blockUpper b, false⟩) rfl (by
      simp only
      omega)
  rw [acBlockEncode, acBlockHeaderEncode_eq _ (by omega)]
  simp only [Option.bind_eq_bind, Option.bind_some]
  rw [show (pure : Bytes → Option Bytes) = some from rfl] at hfold
  refine (congrArg (fun o => Option.bind o _) hfold).trans ?_
  rw [Option.bind_some, hfin, if_pos]
  · simp [blockBytes, certBytes]
  · simp only [List.flatten_cons, List.length_append, hcert, acBe32, length_beEncode,
      length_headerBytes]
    omega

lemma txWindow_txBytes (tx : Tx) (rest : Bytes) :
    txWindow (txBytes tx ++ rest) = some (txBytes tx).length := by
  have hb : tx.body.length ≤ 512 := tx.body_le
  have hm : tx.memo.length ≤ 512 := tx.memo_le
  have hbl : (UInt32.ofNat tx.body.length).toNat = tx.body.length :=
    toNat_length_u32 tx.body_le (by decide)
  have hml : (UInt32.ofNat tx.memo.length).toNat = tx.memo.length :=
    toNat_length_u32 tx.memo_le (by decide)
  -- the bytes in front of the two length fields
  set pre : Bytes := acBe8 tx.version ++ acBe64 tx.chainId ++ acBe8 tx.kind ++
    tx.sender.bytes ++ acBe64 tx.nonce ++ acBe32 tx.gasLimit ++ acBe64 tx.tip ++
    acBe64 tx.validUntil with hpre
  have hprelen : pre.length = 70 := by simp [hpre, acBe8, acBe32, acBe64]
  have hflat : txBytes tx ++ rest = pre ++ (acBe32 (UInt32.ofNat tx.body.length) ++
      (tx.body ++ (acBe32 (UInt32.ofNat tx.memo.length) ++ (tx.memo ++
        (tx.sig.bytes ++ rest))))) := by
    simp [txBytes, txBodyChunks, hpre]
  have hlen : (txBytes tx ++ rest).length =
      142 + tx.body.length + tx.memo.length + rest.length := by
    rw [List.length_append, length_txBytes]
  have hbody : beDecode (((txBytes tx ++ rest).drop 70).take 4) = tx.body.length := by
    rw [hflat, ← hprelen, List.drop_left, acBe32, List.take_left' (length_beEncode 4 _),
      beDecode_beEncode (UInt32.toNat_lt _), hbl]
  have hmemo : beDecode (((txBytes tx ++ rest).drop (70 + 4 + tx.body.length)).take 4) =
      tx.memo.length := by
    have hsplit : txBytes tx ++ rest = (pre ++ acBe32 (UInt32.ofNat tx.body.length) ++
        tx.body) ++ (acBe32 (UInt32.ofNat tx.memo.length) ++ (tx.memo ++
          (tx.sig.bytes ++ rest))) := by
      rw [hflat]
      simp only [List.append_assoc]
    have hlen2 : (pre ++ acBe32 (UInt32.ofNat tx.body.length) ++ tx.body).length =
        70 + 4 + tx.body.length := by
      simp only [List.length_append, hprelen, acBe32, length_beEncode]
    rw [hsplit, ← hlen2, List.drop_left, acBe32, List.take_left' (length_beEncode 4 _),
      beDecode_beEncode (UInt32.toNat_lt _), hml]
  rw [txWindow, if_neg (by omega)]
  simp only [hbody, hmemo, acTxBodyMax, acMemoMax]
  rw [if_neg (by omega), if_neg (by omega), if_neg (by omega), if_neg (by omega),
    length_txBytes]
  congr 1
  omega

lemma decodeTxs_flatMap (txs : List Tx) (rest : Bytes) :
    decodeTxs txs.length (txs.flatMap txBytes ++ rest) = some (txs, rest) := by
  induction txs with
  | nil => simp [decodeTxs]
  | cons tx txs ih =>
    rw [List.flatMap_cons, List.append_assoc, List.length_cons, decodeTxs, txWindow_txBytes]
    simp only [List.take_left', List.drop_left', acTxDecode_txBytes, ih, Option.map_some]

lemma decodeSigners_flatten (signers : List CommitSigner) (rest : Bytes) :
    decodeSigners signers.length ⟨(signers.flatMap signerChunks).flatten ++ rest, false⟩ =
      (signers, ⟨rest, false⟩) := by
  induction signers with
  | nil => simp [decodeSigners]
  | cons s signers ih =>
    have hflat : ((s :: signers).flatMap signerChunks).flatten ++ rest =
        s.signer.bytes ++ (s.sig.bytes ++ (s.vrfProof.bytes ++
          ((signers.flatMap signerChunks).flatten ++ rest))) := by
      simp [signerChunks]
    rw [hflat, List.length_cons, decodeSigners]
    simp only [rgetArr_append, ih]

/-- **Decoding the encoding of a block**, whatever bytes follow it. -/
theorem acBlockDecode_blockBytes (b : Block) (extra : Bytes) :
    acBlockDecode (blockBytes b ++ extra) = some (b, (blockBytes b).length) := by
  have hn : (UInt32.ofNat b.signers.length).toNat = b.signers.length :=
    UInt32.toNat_ofNat_of_lt' (lt_of_le_of_lt b.signers_le (by decide))
  have hlen : (blockBytes b ++ extra).length =
      245 + ((b.txs.flatMap txBytes).length + (certBytes b.signers).length) + extra.length := by
    rw [List.length_append, blockBytes, List.length_append, List.length_append,
      length_headerBytes]
  have hhdr : acBlockHeaderDecode (blockBytes b ++ extra) =
      some (b.header, b.txs.flatMap txBytes ++ (certBytes b.signers ++ extra)) := by
    rw [blockBytes, List.append_assoc, acBlockHeaderDecode_headerBytes, List.append_assoc]
  have htxs : decodeTxs b.header.txCount.toNat
      (b.txs.flatMap txBytes ++ (certBytes b.signers ++ extra)) =
        some (b.txs, certBytes b.signers ++ extra) := by
    rw [← b.txCount_eq]
    exact decodeTxs_flatMap b.txs _
  have hns : rgetU32 ⟨certBytes b.signers ++ extra, false⟩ =
      (UInt32.ofNat b.signers.length,
        ⟨(b.signers.flatMap signerChunks).flatten ++ extra, false⟩) := by
    rw [certBytes, List.append_assoc, acBe32, rgetU32_append]
  have hcertlen : 4 ≤ (certBytes b.signers ++ extra).length := by
    simp [certBytes, acBe32]
  have hc : ¬ acBlockMaxTxs < b.header.txCount.toNat := by
    rw [← b.txCount_eq]
    exact not_lt.mpr b.txs_le
  rw [acBlockDecode, if_neg (by rw [hlen, headerBytesMax]; omega), hhdr]
  simp only
  rw [dif_neg hc]
  split
  · rename_i h
    rw [htxs] at h
    exact absurd h (by simp)
  · rename_i txs rest h
    rw [htxs, Option.some.injEq, Prod.mk.injEq] at h
    obtain ⟨rfl, rfl⟩ := h
    rw [if_neg (by omega)]
    have hsig : decodeSigners (rgetU32 ⟨certBytes b.signers ++ extra, false⟩).1.toNat
        (rgetU32 ⟨certBytes b.signers ++ extra, false⟩).2 = (b.signers, ⟨extra, false⟩) := by
      rw [hns]
      simp only [hn]
      exact decodeSigners_flatten b.signers extra
    simp only [hsig, List.length_append, Nat.add_sub_cancel]
    rw [dif_neg (by rw [hns, hn]; exact not_lt.mpr b.signers_le)]
    simp

/-- An encoding with nothing behind it. -/
lemma acBlockDecode_encoded (b : Block) :
    acBlockDecode (blockBytes b) = some (b, (blockBytes b).length) := by
  have h := acBlockDecode_blockBytes b []
  rwa [List.append_nil] at h

end AgentChain
