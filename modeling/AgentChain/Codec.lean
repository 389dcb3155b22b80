import AgentChain.Crypto

/-!
# Wire formats

Transactions, blocks and their encodings, after `codec.c`.  Multi-byte integers are
big-endian and variable-length fields carry a 32-bit length.

The limits that the decoders enforce are fields of the types: a transaction has at most
512 bytes of body and memo, and a block holds as many transactions as its header says, at
most 4096, and at most 256 signers.
-/

namespace AgentChain

/-- `ac_be8` -/
def acBe8 (v : UInt8) : Bytes := beEncode 1 v.toNat

/-- `ac_be32` -/
def acBe32 (v : UInt32) : Bytes := beEncode 4 v.toNat

/-- `ac_be64` -/
def acBe64 (v : UInt64) : Bytes := beEncode 8 v.toNat

lemma length_acBe64 (v : UInt64) : (acBe64 v).length = 8 := length_beEncode 8 _

lemma acBe64_inj {v w : UInt64} (h : acBe64 v = acBe64 w) : v = w := by
  have hdec := congrArg beDecode h
  rw [acBe64, acBe64, beDecode_beEncode v.toNat_lt, beDecode_beEncode w.toNat_lt] at hdec
  exact UInt64.toNat_inj.mp hdec

/-! ### Transactions -/

/-- `ac_tx_kind_t` -/
inductive TxKind where
  | transfer
  | stakeBond
  | stakeUnbond
  | registerName
  | slashEvidence
deriving DecidableEq, Repr

/-- The kind with a given code, for the `switch` statements over `tx->kind`. -/
def TxKind.ofCode (k : UInt8) : Option TxKind :=
  if k = 0x01 then some .transfer
  else if k = 0x02 then some .stakeBond
  else if k = 0x03 then some .stakeUnbond
  else if k = 0x04 then some .registerName
  else if k = 0x05 then some .slashEvidence
  else none

/-- `ac_tx_t` -/
structure Tx where
  version : UInt8
  chainId : UInt64
  kind : UInt8
  sender : Addr
  nonce : UInt64
  gasLimit : UInt32
  /-- Tip in µCRD per gas. -/
  tip : UInt64
  /-- First slot at which the transaction is expired. -/
  validUntil : UInt64
  body : Bytes
  memo : Bytes
  sig : Sig
  body_le : body.length ≤ acTxBodyMax
  memo_le : memo.length ≤ acMemoMax
deriving DecidableEq

lemma nil_body_le : ([] : Bytes).length ≤ acTxBodyMax := Nat.zero_le _

lemma nil_memo_le : ([] : Bytes).length ≤ acMemoMax := Nat.zero_le _

/-- `ac_tx_intrinsic_gas`; `none` for an unknown kind. -/
def acTxIntrinsicGas (kind : UInt8) : Option UInt64 :=
  match TxKind.ofCode kind with
  | some .transfer => some 21
  | some .stakeBond => some 51
  | some .stakeUnbond => some 51
  | some .registerName => some 221
  | some .slashEvidence => some 521
  | none => none

/-- `ac_tx_total_gas`: intrinsic gas and one gas per memo byte, `UINT64_MAX` for an unknown
kind. -/
def acTxTotalGas (tx : Tx) : UInt64 :=
  match acTxIntrinsicGas tx.kind with
  | some g => g + UInt64.ofNat tx.memo.length
  | none => 18446744073709551615

/-- The fields of a transaction in wire order, without the signature. -/
def txBodyChunks (tx : Tx) : List Bytes :=
  [acBe8 tx.version, acBe64 tx.chainId, acBe8 tx.kind, tx.sender.bytes, acBe64 tx.nonce,
    acBe32 tx.gasLimit, acBe64 tx.tip, acBe64 tx.validUntil,
    acBe32 (UInt32.ofNat tx.body.length), tx.body,
    acBe32 (UInt32.ofNat tx.memo.length), tx.memo]

/-- `ac_tx_signable_bytes` -/
def acTxSignableBytes (cap : ℕ) (tx : Tx) : Option Bytes :=
  (wputs ⟨[], cap, false⟩ (ascii "AGCH:TX:v1" :: txBodyChunks tx)).finish

/-- `ac_tx_encode` -/
def acTxEncode (cap : ℕ) (tx : Tx) : Option Bytes :=
  (wputs ⟨[], cap, false⟩ (txBodyChunks tx ++ [tx.sig.bytes])).finish

/-- The reads of `ac_tx_decode`.  Each name holds the value read and the cursor after it. -/
def txFields (c : RCur) : Option (Tx × RCur) :=
  let version := rgetU8 c
  let chainId := rgetU64 version.2
  let kind := rgetU8 chainId.2
  let sender := rgetArr 32 kind.2
  let nonce := rgetU64 sender.2
  let gasLimit := rgetU32 nonce.2
  let tip := rgetU64 gasLimit.2
  let validUntil := rgetU64 tip.2
  let bodyLen := rgetU32 validUntil.2
  if hb : acTxBodyMax < bodyLen.1.toNat then none
  else
    let body := rget bodyLen.1.toNat bodyLen.2
    let memoLen := rgetU32 body.2
    if hm : acMemoMax < memoLen.1.toNat then none
    else
      let memo := rget memoLen.1.toNat memoLen.2
      let sig := rgetArr 64 memo.2
      some ({ version := version.1, chainId := chainId.1, kind := kind.1, sender := sender.1,
              nonce := nonce.1, gasLimit := gasLimit.1, tip := tip.1,
              validUntil := validUntil.1, body := body.1, memo := memo.1, sig := sig.1,
              body_le := by rw [length_rget]; exact not_lt.mp hb,
              memo_le := by rw [length_rget]; exact not_lt.mp hm }, sig.2)

/-- `ac_tx_decode` -/
def acTxDecode (buf : Bytes) : Option Tx :=
  if acTxMaxBytes < buf.length then none
  else
    match txFields ⟨buf, false⟩ with
    | none => none
    | some (tx, c) => if c.err ∨ c.rest ≠ [] then none else some tx

section Hashing

variable (P : Platform)

/-- `ac_tx_hash` -/
def acTxHash (tx : Tx) : Hash :=
  match acTxSignableBytes acTxMaxBytes tx with
  | none => ByteArr.fill 32 0
  | some buf => acHash P buf

/-- `ac_tx_verify` -/
def acTxVerify (tx : Tx) : Bool :=
  match acTxSignableBytes acTxMaxBytes tx with
  | none => false
  | some buf => acVerify P tx.sig (acHash P buf).bytes tx.sender

end Hashing

/-! ### Bodies -/

/-- `ac_body_transfer_t` -/
structure BodyTransfer where
  recipient : Addr
  amount : UInt64

/-- `ac_body_transfer_decode` -/
def acBodyTransferDecode (buf : Bytes) : Option BodyTransfer :=
  let recipient := rgetArr 32 ⟨buf, false⟩
  let amount := rgetU64 recipient.2
  if amount.2.err ∨ amount.2.rest ≠ [] then none else some ⟨recipient.1, amount.1⟩

/-- `ac_body_stake_decode` -/
def acBodyStakeDecode (buf : Bytes) : Option UInt64 :=
  if buf.length ≠ 8 then none else some (acRd64 buf)

/-- `ac_name_valid`: one to 32 characters from `a-z`, `0-9` and `-`. -/
def acNameValid (name : Bytes) : Bool :=
  decide (acNameMinLen ≤ name.length ∧ name.length ≤ acNameMaxLen) &&
    name.all fun c =>
      decide ((0x61 ≤ c ∧ c ≤ 0x7A) ∨ (0x30 ≤ c ∧ c ≤ 0x39) ∨ c = 0x2D)

/-- `ac_body_name_decode` -/
def acBodyNameDecode (buf : Bytes) : Option Bytes :=
  match buf with
  | [] => none
  | nl :: name =>
      if nl = 0 ∨ acNameMaxLen < nl.toNat then none
      else if nl.toNat ≠ name.length then none
      else if acNameValid name then some name else none

/-- `ac_body_slash_t` -/
structure BodySlash where
  validator : Addr
  height : UInt64
  blockHashA : Hash
  sigA : Sig
  blockHashB : Hash
  sigB : Sig

/-- `ac_body_slash_decode` -/
@[irreducible]
def acBodySlashDecode (buf : Bytes) : Option BodySlash :=
  let validator := rgetArr 32 ⟨buf, false⟩
  let height := rgetU64 validator.2
  let blockHashA := rgetArr 32 height.2
  let sigA := rgetArr 64 blockHashA.2
  let blockHashB := rgetArr 32 sigA.2
  let sigB := rgetArr 64 blockHashB.2
  if sigB.2.err ∨ sigB.2.rest ≠ [] then none
  else some ⟨validator.1, height.1, blockHashA.1, sigA.1, blockHashB.1, sigB.1⟩

/-! ### Blocks -/

/-- `ac_block_header_t` -/
structure BlockHeader where
  version : UInt8
  height : UInt64
  slot : UInt64
  parentHash : Hash
  timestampMs : UInt64
  proposer : Addr
  proposerVrfProof : VrfProof
  stateRoot : Hash
  txRoot : Hash
  baseFee : UInt64
  gasUsed : UInt64
  gasLimit : UInt64
  txCount : UInt32
deriving DecidableEq

/-- `ac_commit_signer_t` -/
structure CommitSigner where
  signer : Addr
  sig : Sig
  vrfProof : VrfProof
deriving DecidableEq

/-- `ac_block_t`: header, transactions and commit certificate. -/
structure Block where
  header : BlockHeader
  txs : List Tx
  signers : List CommitSigner
  txCount_eq : txs.length = header.txCount.toNat
  txs_le : txs.length ≤ acBlockMaxTxs
  signers_le : signers.length ≤ acCommitteeMax
deriving DecidableEq

lemma nil_txCount_eq : ([] : List Tx).length = (0 : UInt32).toNat := rfl

/-- The block with another commit certificate. -/
def Block.withSigners (b : Block) (signers : List CommitSigner)
    (h : signers.length ≤ acCommitteeMax) : Block :=
  { b with signers := signers, signers_le := h }

/-- The fields of a header in wire order. -/
def headerChunks (h : BlockHeader) : List Bytes :=
  [acBe8 h.version, acBe64 h.height, acBe64 h.slot, h.parentHash.bytes, acBe64 h.timestampMs,
    h.proposer.bytes, h.proposerVrfProof.bytes, h.stateRoot.bytes, h.txRoot.bytes,
    acBe64 h.baseFee, acBe64 h.gasUsed, acBe64 h.gasLimit, acBe32 h.txCount]

/-- `HEADER_BYTES_MAX` -/
def headerBytesMax : ℕ := 256

/-- `ac_block_header_encode` -/
def acBlockHeaderEncode (cap : ℕ) (h : BlockHeader) : Option Bytes :=
  (wputs ⟨[], cap, false⟩ (headerChunks h)).finish

/-- `ac_block_header_decode`: the header and the bytes behind it. -/
def acBlockHeaderDecode (buf : Bytes) : Option (BlockHeader × Bytes) :=
  let version := rgetU8 ⟨buf, false⟩
  let height := rgetU64 version.2
  let slot := rgetU64 height.2
  let parentHash := rgetArr 32 slot.2
  let timestampMs := rgetU64 parentHash.2
  let proposer := rgetArr 32 timestampMs.2
  let proposerVrfProof := rgetArr 64 proposer.2
  let stateRoot := rgetArr 32 proposerVrfProof.2
  let txRoot := rgetArr 32 stateRoot.2
  let baseFee := rgetU64 txRoot.2
  let gasUsed := rgetU64 baseFee.2
  let gasLimit := rgetU64 gasUsed.2
  let txCount := rgetU32 gasLimit.2
  if txCount.2.err then none
  else
    some ({ version := version.1, height := height.1, slot := slot.1,
            parentHash := parentHash.1, timestampMs := timestampMs.1,
            proposer := proposer.1, proposerVrfProof := proposerVrfProof.1,
            stateRoot := stateRoot.1, txRoot := txRoot.1, baseFee := baseFee.1,
            gasUsed := gasUsed.1, gasLimit := gasLimit.1, txCount := txCount.1 },
      txCount.2.rest)

/-- `ac_vote_message`: the bytes signed by a commit vote. -/
def acVoteMessage (height : UInt64) (blockHash : Hash) : Bytes :=
  ascii "AGCH:VOTE:v1" ++ acBe64 height ++ blockHash.bytes

section Hashing

variable (P : Platform)

/-- `ac_block_hash`; the commit certificate is not covered. -/
@[irreducible]
def acBlockHash (h : BlockHeader) : Hash :=
  match acBlockHeaderEncode headerBytesMax h with
  | none => ByteArr.fill 32 0
  | some buf => acHashMulti P [ascii "AGCH:BLOCK:v1", buf]

/-- `ac_block_tx_root` -/
def acBlockTxRoot (txs : List Tx) : Hash :=
  if txs = [] then ByteArr.fill 32 0
  else acHash P (txs.flatMap fun tx => (acTxHash P tx).bytes)

end Hashing

/-- The fields of one entry of a commit certificate in wire order. -/
def signerChunks (s : CommitSigner) : List Bytes := [s.signer.bytes, s.sig.bytes, s.vrfProof.bytes]

/-- The upper bound on the encoded size that `ac_block_encode` allocates. -/
def blockUpper (b : Block) : ℕ :=
  headerBytesMax + b.txs.length * acTxMaxBytes + 4 + b.signers.length * (32 + 64 + 64)

/-- `ac_block_encode` -/
def acBlockEncode (b : Block) : Option Bytes := do
  let hdr ← acBlockHeaderEncode (blockUpper b) b.header
  let body ← b.txs.foldlM (fun acc tx => do
    let enc ← acTxEncode (blockUpper b - acc.length) tx
    pure (acc ++ enc)) hdr
  (wputs ⟨body, blockUpper b, false⟩
    (acBe32 (UInt32.ofNat b.signers.length) :: b.signers.flatMap signerChunks)).finish

/-- The walk over the length fields of a transaction that finds the end of its window. -/
def txWindow (rest : Bytes) : Option ℕ :=
  if rest.length < 70 + 4 then none
  else
    let bodyLen := beDecode ((rest.drop 70).take 4)
    if acTxBodyMax < bodyLen then none
    else if rest.length < 70 + 4 + bodyLen + 4 then none
    else
      let memoLen := beDecode ((rest.drop (70 + 4 + bodyLen)).take 4)
      if acMemoMax < memoLen then none
      else if rest.length < 70 + 4 + bodyLen + (4 + memoLen + 64) then none
      else some (70 + 4 + bodyLen + (4 + memoLen + 64))

/-- The transaction loop of `ac_block_decode`: `n` transactions and the bytes behind
them. -/
def decodeTxs : ℕ → Bytes → Option (List Tx × Bytes)
  | 0, rest => some ([], rest)
  | n + 1, rest =>
      match txWindow rest with
      | none => none
      | some pos =>
          match acTxDecode (rest.take pos) with
          | none => none
          | some tx => (decodeTxs n (rest.drop pos)).map fun r => (tx :: r.1, r.2)

/-- The signer loop of `ac_block_decode`. -/
def decodeSigners : ℕ → RCur → List CommitSigner × RCur
  | 0, c => ([], c)
  | n + 1, c =>
      let signer := rgetArr 32 c
      let sig := rgetArr 64 signer.2
      let vrfProof := rgetArr 64 sig.2
      let rest := decodeSigners n vrfProof.2
      (⟨signer.1, sig.1, vrfProof.1⟩ :: rest.1, rest.2)

lemma length_decodeTxs {n : ℕ} {rest : Bytes} {r : List Tx × Bytes}
    (h : decodeTxs n rest = some r) : r.1.length = n := by
  induction n generalizing rest r with
  | zero =>
    rw [decodeTxs, Option.some.injEq] at h
    rw [← h, List.length_nil]
  | succ n ih =>
    rw [decodeTxs] at h
    cases hw : txWindow rest with
    | none => simp [hw] at h
    | some pos =>
      cases ht : acTxDecode (rest.take pos) with
      | none => simp [hw, ht] at h
      | some tx =>
        simp only [hw, ht, Option.map_eq_some_iff] at h
        obtain ⟨r', hr', rfl⟩ := h
        rw [List.length_cons, ih hr']

@[simp] lemma length_decodeSigners (n : ℕ) (c : RCur) : (decodeSigners n c).1.length = n := by
  induction n generalizing c with
  | zero => rfl
  | succ n ih => rw [decodeSigners, List.length_cons, ih]

/-- `ac_block_decode`: the block and the number of bytes consumed. -/
def acBlockDecode (buf : Bytes) : Option (Block × ℕ) :=
  if buf.length < headerBytesMax - 100 then none
  else
    match acBlockHeaderDecode buf with
    | none => none
    | some (header, rest) =>
        if hc : acBlockMaxTxs < header.txCount.toNat then none
        else
          match ht : decodeTxs header.txCount.toNat rest with
          | none => none
          | some (txs, rest) =>
              if rest.length < 4 then none
              else
                let nsigners := rgetU32 ⟨rest, false⟩
                if hn : acCommitteeMax < nsigners.1.toNat then none
                else
                  let signers := decodeSigners nsigners.1.toNat nsigners.2
                  if signers.2.err then none
                  else
                    some ({ header := header, txs := txs, signers := signers.1,
                            txCount_eq := length_decodeTxs ht,
                            txs_le := (length_decodeTxs ht).trans_le (not_lt.mp hc),
                            signers_le := by
                              rw [length_decodeSigners]
                              exact not_lt.mp hn },
                      buf.length - signers.2.rest.length)

end AgentChain
