import AgentChain.CodecCanonical
import AgentChain.Gossip
import AgentChain.Nonces
import AgentChain.VoteLock

/-!
# Blocks on the wire

A block is encoded within the bound that is allocated for it and decoded to itself, whatever
bytes follow.  In the other direction `ac_block_decode` accepts exactly the encodings followed
by arbitrary bytes: what it has consumed is the encoding of the block, and it returns the number
of bytes consumed, but it does not compare it with the length of its input, and neither does
`ac_consensus_handle_block`.

A payload announces its length itself: the header has a fixed size and counts the
transactions, each transaction has the lengths of its body and its memo, and the certificate
counts its signers (`announcedLength`).  A payload is canonical exactly when it is as long as it
announces.  With bytes behind the block, the same block has many payloads, each with a hash of
its own for the gossip filter.
-/

namespace AgentChain

/-! ### The length that a payload announces -/

/-- The length or count field at an offset. -/
def lengthField (buf : Bytes) (offset : ℕ) : ℕ := (acRd32 (buf.drop offset)).toNat

/-- The size of the transaction at the front: 70 bytes of fixed fields, the body and the memo
with their length fields, and the signature. -/
def txSpan (buf : Bytes) : ℕ :=
  let bodyLen := lengthField buf 70
  let memoLen := lengthField buf (74 + bodyLen)
  74 + bodyLen + (4 + memoLen + 64)

/-- The size of the given number of transactions at the front. -/
def txsSpan : ℕ → Bytes → ℕ
  | 0, _ => 0
  | n + 1, buf => txSpan buf + txsSpan n (buf.drop (txSpan buf))

/-- The length of a payload by its own fields: the header of 245 bytes, which ends with the
number of transactions, the transactions, the number of signers and 160 bytes for each. -/
def announcedLength (buf : Bytes) : ℕ :=
  let signersAt := 245 + txsSpan (lengthField buf 241) (buf.drop 245)
  signersAt + 4 + 160 * lengthField buf signersAt

/-! ### What the decoder has consumed -/

lemma acTxDecode_eq_some {buf : Bytes} {tx : Tx} (h : acTxDecode buf = some tx) :
    buf = txBytes tx := by
  rw [← acTxDecodePos_fst, Option.map_eq_some_iff] at h
  obtain ⟨⟨tx', n⟩, hdec, rfl⟩ := h
  exact (acTxDecodePos_eq_some.mp hdec).1

/-- A header and the bytes behind it. -/
lemma acBlockHeaderDecode_inv {buf rest : Bytes} {h : BlockHeader}
    (hdec : acBlockHeaderDecode buf = some (h, rest)) : buf = headerBytes h ++ rest := by
  rw [acBlockHeaderDecode] at hdec
  split_ifs at hdec with herr
  obtain ⟨rfl, rfl⟩ := Prod.mk.inj (Option.some.inj hdec)
  rw [Bool.not_eq_true] at herr
  -- the flag is never cleared, so every read before the last one has succeeded
  obtain ⟨e12, r12⟩ := rgetU32_inv herr
  obtain ⟨e11, r11⟩ := rgetU64_inv e12
  obtain ⟨e10, r10⟩ := rgetU64_inv e11
  obtain ⟨e9, r9⟩ := rgetU64_inv e10
  obtain ⟨e8, r8⟩ := rgetArr_inv e9
  obtain ⟨e7, r7⟩ := rgetArr_inv e8
  obtain ⟨e6, r6⟩ := rgetArr_inv e7
  obtain ⟨e5, r5⟩ := rgetArr_inv e6
  obtain ⟨e4, r4⟩ := rgetU64_inv e5
  obtain ⟨e3, r3⟩ := rgetArr_inv e4
  obtain ⟨e2, r2⟩ := rgetU64_inv e3
  obtain ⟨e1, r1⟩ := rgetU64_inv e2
  obtain ⟨-, r0⟩ := rgetU8_inv e1
  refine Eq.trans r0 ?_
  rw [r1, r2, r3, r4, r5, r6, r7, r8, r9, r10, r11, r12]
  simp only [headerBytes, headerChunks, acBe8, acBe32, acBe64, List.flatten_cons,
    List.flatten_nil, List.append_assoc, List.append_nil]

/-- The transaction loop consumes the encodings of its transactions: the window that the walk
over the length fields finds is the one that `ac_tx_decode` fills. -/
lemma decodeTxs_inv {n : ℕ} {buf rest : Bytes} {txs : List Tx}
    (h : decodeTxs n buf = some (txs, rest)) : buf = txs.flatMap txBytes ++ rest := by
  induction n generalizing buf txs with
  | zero =>
    rw [decodeTxs, Option.some.injEq, Prod.mk.injEq] at h
    obtain ⟨rfl, rfl⟩ := h
    rfl
  | succ n ih =>
    rw [decodeTxs] at h
    cases hw : txWindow buf with
    | none => simp [hw] at h
    | some pos =>
      cases ht : acTxDecode (buf.take pos) with
      | none => simp [hw, ht] at h
      | some tx =>
        simp only [hw, ht, Option.map_eq_some_iff] at h
        obtain ⟨⟨txs', rest'⟩, hrec, heq⟩ := h
        obtain ⟨rfl, rfl⟩ := Prod.mk.inj heq
        rw [List.flatMap_cons, List.append_assoc, ← ih hrec, ← acTxDecode_eq_some ht,
          List.take_append_drop]

/-- The signer loop consumes the entries of the certificate. -/
lemma decodeSigners_inv {n : ℕ} {c : RCur} (herr : (decodeSigners n c).2.err = false) :
    c.err = false ∧
      c.rest = ((decodeSigners n c).1.flatMap signerChunks).flatten ++
        (decodeSigners n c).2.rest := by
  induction n generalizing c with
  | zero => exact ⟨herr, rfl⟩
  | succ n ih =>
    rw [decodeSigners] at herr ⊢
    dsimp only at herr ⊢
    obtain ⟨e3, r3⟩ := ih herr
    obtain ⟨e2, r2⟩ := rgetArr_inv e3
    obtain ⟨e1, r1⟩ := rgetArr_inv e2
    obtain ⟨e0, r0⟩ := rgetArr_inv e1
    refine ⟨e0, ?_⟩
    rw [r0, r1, r2, r3]
    simp [signerChunks]

/-- **The decoder accepts a block and whatever follows it**, and nothing else. -/
theorem acBlockDecode_eq_some {buf : Bytes} {b : Block} {n : ℕ} :
    acBlockDecode buf = some (b, n) ↔
      n = (blockBytes b).length ∧ ∃ extra, buf = blockBytes b ++ extra := by
  constructor
  · intro h
    rw [acBlockDecode] at h
    split_ifs at h with hshort
    split at h
    · cases h
    rename_i header rest hheader
    split_ifs at h with hcount
    split at h
    · cases h
    rename_i txs rest' htxs
    dsimp only at h
    split_ifs at h with hcert hmany herr
    obtain ⟨hb, rfl⟩ := Prod.mk.inj (Option.some.inj h)
    rw [Bool.not_eq_true] at herr
    obtain ⟨ecount, hsigners⟩ := decodeSigners_inv herr
    obtain ⟨-, hcert⟩ := rgetU32_inv ecount
    have hbuf : buf = blockBytes b ++
        (decodeSigners (rgetU32 ⟨rest', false⟩).1.toNat (rgetU32 ⟨rest', false⟩).2).2.rest := by
      dsimp only at hcert
      rw [hsigners] at hcert
      rw [acBlockHeaderDecode_inv hheader, decodeTxs_inv htxs, ← hb, blockBytes, certBytes]
      dsimp only
      rw [length_decodeSigners, UInt32.ofNat_toNat, List.append_assoc, List.append_assoc,
        List.append_assoc, acBe32, ← hcert]
    refine ⟨?_, _, hbuf⟩
    have hlen := congrArg List.length hbuf
    rw [List.length_append] at hlen
    omega
  · rintro ⟨rfl, extra, rfl⟩
    exact acBlockDecode_blockBytes b extra

/-! ### The fields of a block -/

/-- A field behind other bytes. -/
lemma lengthField_append (front rest : Bytes) (v : UInt32) :
    lengthField (front ++ (acBe32 v ++ rest)) front.length = v.toNat := by
  rw [lengthField, List.drop_left, acRd32, acBe32, List.take_left' (length_beEncode 4 v.toNat),
    beDecode_beEncode (show v.toNat < 256 ^ 4 from v.toNat_lt), UInt32.ofNat_toNat]

lemma acRd32_toNat (bs : Bytes) : (acRd32 bs).toNat = beDecode (bs.take 4) := by
  have hlt := beDecode_lt (bs.take 4)
  have hlen : 256 ^ (bs.take 4).length ≤ 256 ^ 4 :=
    Nat.pow_le_pow_right (by decide) (List.length_take_le 4 bs)
  exact UInt32.toNat_ofNat_of_lt' (hlt.trans_le hlen)

/-- The walk of `ac_block_decode` over the length fields ends where these fields say. -/
lemma txSpan_of_window {buf : Bytes} {pos : ℕ} (h : txWindow buf = some pos) :
    txSpan buf = pos := by
  rw [txWindow] at h
  dsimp only at h
  split_ifs at h
  rw [txSpan, lengthField, lengthField, acRd32_toNat, acRd32_toNat]
  exact Option.some.inj h

lemma txsSpan_append (txs : List Tx) (rest : Bytes) :
    txsSpan txs.length (txs.flatMap txBytes ++ rest) = (txs.flatMap txBytes).length := by
  induction txs with
  | nil => rfl
  | cons tx txs ih =>
    rw [List.flatMap_cons, List.append_assoc, List.length_cons, txsSpan,
      txSpan_of_window (txWindow_txBytes tx _), List.drop_left, ih, List.length_append]

/-- The header ends with the number of transactions. -/
lemma headerBytes_count (h : BlockHeader) :
    ∃ front, headerBytes h = front ++ acBe32 h.txCount ∧ front.length = 241 := by
  refine ⟨(headerBytes h).take 241, ?_, by simp⟩
  have hlast : headerBytes h = ((headerChunks h).take 12).flatten ++ acBe32 h.txCount := by
    simp [headerBytes, headerChunks]
  have hlen : (((headerChunks h).take 12).flatten).length = 241 := by
    simp [headerChunks, acBe8, acBe64]
  rw [hlast, List.take_left' hlen]

/-- **The encoding of a block announces its own length**, whatever follows. -/
lemma announcedLength_blockBytes (b : Block) (extra : Bytes) :
    announcedLength (blockBytes b ++ extra) = (blockBytes b).length := by
  obtain ⟨front, hfront, hlen⟩ := headerBytes_count b.header
  have hcount : lengthField (blockBytes b ++ extra) 241 = b.txs.length := by
    rw [← hlen, blockBytes, hfront, List.append_assoc, List.append_assoc, lengthField_append,
      b.txCount_eq]
  have htxs : (blockBytes b ++ extra).drop 245 =
      b.txs.flatMap txBytes ++ (certBytes b.signers ++ extra) := by
    rw [blockBytes, List.append_assoc, List.append_assoc,
      List.drop_left' (length_headerBytes b.header)]
  have hsigners : lengthField (blockBytes b ++ extra)
      (245 + (b.txs.flatMap txBytes).length) = b.signers.length := by
    have hsplit : blockBytes b ++ extra = (headerBytes b.header ++ b.txs.flatMap txBytes) ++
        (acBe32 (UInt32.ofNat b.signers.length) ++
          ((b.signers.flatMap signerChunks).flatten ++ extra)) := by
      simp only [blockBytes, certBytes, List.append_assoc]
    have hat : 245 + (b.txs.flatMap txBytes).length =
        (headerBytes b.header ++ b.txs.flatMap txBytes).length := by
      rw [List.length_append, length_headerBytes]
    have hfew : b.signers.length < 2 ^ 32 := b.signers_le.trans_lt (by decide)
    rw [hsplit, hat, lengthField_append, UInt32.toNat_ofNat_of_lt' hfew]
  rw [announcedLength, hcount, htxs, txsSpan_append, hsigners, length_blockBytes]
  omega

/-! ### Round trip -/

/-- The encoding stays within the bound that is allocated for it. -/
lemma length_blockBytes_le (b : Block) : (blockBytes b).length ≤ blockUpper b := by
  have htxs := length_txs_flatMap_le b.txs
  have hupper : blockUpper b = 256 + b.txs.length * 2048 + 4 + b.signers.length * 160 := rfl
  rw [length_blockBytes]
  omega

/-- **Block round trip.**  Every block is encoded within its bound, and its encoding, with
arbitrary bytes behind it, is decoded to the block and to the length of the encoding. -/
theorem block_round_trip (b : Block) :
    ∃ buf, acBlockEncode b = some buf ∧ buf.length ≤ blockUpper b ∧
      ∀ extra, acBlockDecode (buf ++ extra) = some (b, buf.length) :=
  ⟨blockBytes b, acBlockEncode_eq b, length_blockBytes_le b, acBlockDecode_blockBytes b⟩

/-! ### Canonical payloads -/

/-- A gossip message that is repeated at once is dropped. -/
lemma dispatchMessage_repeat (P : Platform) (env env' : Env) (n : Inbox) (buf : Bytes) :
    dispatchMessage P env' (dispatchMessage P env n ⟨.blockAnn, buf⟩).1 ⟨.blockAnn, buf⟩ =
      ((dispatchMessage P env n ⟨.blockAnn, buf⟩).1, []) := by
  have hseen : (dispatchMessage P env n ⟨.blockAnn, buf⟩).1.dedup.has (acHash P buf) = true := by
    rw [dispatchMessage, gossip_fst]
    split_ifs with hhas
    · exact hhas
    · exact ((Ring.Latest.nil n.dedup).push (by decide) _).has (List.mem_singleton_self _)
  exact if_pos hseen

/-- **When parsing is canonical.**  For a byte string that `ac_block_decode` accepts, encoding the
block gives the whole string back exactly when the string is as long as its own fields say.  Two
strings with one block are equal exactly when the same bytes follow the announced length.  For
payloads with nothing behind it, a second announcement of the block is dropped by the gossip
filter. -/
theorem block_parse_canonical_iff {buf : Bytes} {b : Block} {k : ℕ}
    (h : acBlockDecode buf = some (b, k)) :
    (acBlockEncode b = some buf ↔ buf.length = announcedLength buf) ∧
    (∀ buf' k', acBlockDecode buf' = some (b, k') →
      (buf' = buf ↔ buf'.drop (announcedLength buf') = buf.drop (announcedLength buf))) ∧
    ∀ (P : Platform) (env env' : Env) (n : Inbox) (buf' : Bytes) (k' : ℕ),
      acBlockDecode buf' = some (b, k') → buf.length = announcedLength buf →
      buf'.length = announcedLength buf' →
      dispatchMessage P env' (dispatchMessage P env n ⟨.blockAnn, buf⟩).1 ⟨.blockAnn, buf'⟩ =
        ((dispatchMessage P env n ⟨.blockAnn, buf⟩).1, []) := by
  obtain ⟨-, extra, rfl⟩ := acBlockDecode_eq_some.mp h
  -- nothing follows a block that is as long as announced
  have hend : ∀ extra : Bytes, (blockBytes b ++ extra).length =
      announcedLength (blockBytes b ++ extra) ↔ extra = [] := by
    intro extra
    rw [announcedLength_blockBytes, List.length_append, ← List.length_eq_zero_iff]
    omega
  refine ⟨?_, ?_, ?_⟩
  · rw [hend, acBlockEncode_eq, Option.some.injEq]
    exact List.self_eq_append_right
  · intro buf' k' h'
    obtain ⟨-, extra', rfl⟩ := acBlockDecode_eq_some.mp h'
    rw [announcedLength_blockBytes, announcedLength_blockBytes, List.drop_left, List.drop_left,
      List.append_cancel_left_eq]
  · intro P env env' n buf' k' h' hlen hlen'
    obtain ⟨-, extra', rfl⟩ := acBlockDecode_eq_some.mp h'
    rw [(hend extra).mp hlen, (hend extra').mp hlen']
    exact dispatchMessage_repeat P env env' n _

/-- A payload that is the encoding of a block with a transaction, announced twice. -/
theorem block_parse_canonical_reference :
    (blockBytes payBlock).length = announcedLength (blockBytes payBlock) ∧
      acBlockEncode payBlock = some (blockBytes payBlock) ∧
      dispatchMessage labelled (Env.atMs 2)
          (dispatchMessage labelled (Env.atMs 1) (Inbox.initial (equalNode 1).cs)
            ⟨.blockAnn, blockBytes payBlock⟩).1
          ⟨.blockAnn, blockBytes payBlock⟩ =
        ((dispatchMessage labelled (Env.atMs 1) (Inbox.initial (equalNode 1).cs)
          ⟨.blockAnn, blockBytes payBlock⟩).1, []) := by
  have hlen : (blockBytes payBlock).length = announcedLength (blockBytes payBlock) := by
    decide +kernel
  have hdec := acBlockDecode_encoded payBlock
  obtain ⟨hencode, -, hrepeat⟩ := block_parse_canonical_iff hdec
  exact ⟨hlen, hencode.mpr hlen, hrepeat labelled _ _ _ _ _ hdec hlen hlen⟩

/-- **A byte behind the block bypasses the filter.**  The payload with a zero byte behind it
decodes to the same block but is not its encoding.  Announced right after the block itself, it
has another hash, is handled again and passed on to the other peers. -/
theorem padded_block_relayed :
    acBlockDecode (blockBytes referenceBlock ++ [0]) =
        some (referenceBlock, (blockBytes referenceBlock).length) ∧
      acBlockEncode referenceBlock ≠ some (blockBytes referenceBlock ++ [0]) ∧
      ∀ env cs, .relay ⟨.blockAnn, blockBytes referenceBlock ++ [0]⟩ ∈
        (dispatchMessage reference env
          (dispatchMessage reference env (Inbox.initial cs)
            ⟨.blockAnn, blockBytes referenceBlock⟩).1
          ⟨.blockAnn, blockBytes referenceBlock ++ [0]⟩).2 := by
  have hhash : acHash reference (blockBytes referenceBlock ++ [0]) ≠
      acHash reference (blockBytes referenceBlock) := by
    decide +kernel
  refine ⟨acBlockDecode_blockBytes referenceBlock [0], ?_, ?_⟩
  · rw [acBlockEncode_eq]
    simp
  · intro env cs
    have hnew : (dispatchMessage reference env (Inbox.initial cs)
        ⟨.blockAnn, blockBytes referenceBlock⟩).1.dedup.has
          (acHash reference (blockBytes referenceBlock ++ [0])) = false := by
      rw [Bool.eq_false_iff]
      intro hhas
      rw [dispatchMessage, gossip_fst,
          if_neg (by simp [Inbox.initial, Ring.empty, Ring.has])] at hhas
      rcases Ring.has_push hhas with heq | hold
      · exact hhash heq
      · simp [Inbox.initial, Ring.empty, Ring.has] at hold
    rw [dispatchMessage, gossip, if_neg (by rw [hnew]; simp)]
    simp

end AgentChain
