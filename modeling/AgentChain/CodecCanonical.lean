import AgentChain.CodecRoundTrip

/-!
# What is decoded has one encoding

The decoders accept nothing but encodings: a byte string that `ac_tx_decode` takes is the
encoding of the transaction it returns, byte for byte.  With the round trip in the other
direction, encoding and decoding are inverse to each other, so a transaction has one byte
string and a byte string at most one transaction.
-/

namespace AgentChain

/-- What the reads of a transaction have consumed is the encoding of the transaction. -/
lemma txFields_inv {c c' : RCur} {tx : Tx} (h : txFields c = some (tx, c'))
    (herr : c'.err = false) : c.rest = txBytes tx ++ c'.rest := by
  rw [txFields] at h
  dsimp only at h
  split_ifs at h with hb hm
  obtain ⟨rfl, rfl⟩ := Prod.mk.inj (Option.some.inj h)
  -- the flag is never cleared, so every read before the last one has succeeded
  obtain ⟨e12, r12⟩ := rgetArr_inv herr
  obtain ⟨e11, r11⟩ := rget_inv e12
  obtain ⟨e10, r10⟩ := rgetU32_inv e11
  obtain ⟨e9, r9⟩ := rget_inv e10
  obtain ⟨e8, r8⟩ := rgetU32_inv e9
  obtain ⟨e7, r7⟩ := rgetU64_inv e8
  obtain ⟨e6, r6⟩ := rgetU64_inv e7
  obtain ⟨e5, r5⟩ := rgetU32_inv e6
  obtain ⟨e4, r4⟩ := rgetU64_inv e5
  obtain ⟨e3, r3⟩ := rgetArr_inv e4
  obtain ⟨e2, r2⟩ := rgetU8_inv e3
  obtain ⟨e1, r1⟩ := rgetU64_inv e2
  obtain ⟨-, r0⟩ := rgetU8_inv e1
  rw [r0, r1, r2, r3, r4, r5, r6, r7, r8, r9, r10, r11, r12]
  simp only [txBytes, txBodyChunks, length_rget, UInt32.ofNat_toNat, acBe8, acBe32, acBe64,
    List.flatten_append, List.flatten_cons, List.flatten_nil, List.append_assoc, List.append_nil]

/-! ### Transactions -/

/-- `ac_tx_decode` with the position it returns. -/
def acTxDecodePos (buf : Bytes) : Option (Tx × ℕ) :=
  if acTxMaxBytes < buf.length then none
  else
    match txFields ⟨buf, false⟩ with
    | none => none
    | some (tx, c) =>
      if c.err ∨ c.rest ≠ [] then none else some (tx, buf.length - c.rest.length)

/-- Without the position it is the decoder that the other modules use. -/
lemma acTxDecodePos_fst (buf : Bytes) : (acTxDecodePos buf).map Prod.fst = acTxDecode buf := by
  rw [acTxDecodePos, acTxDecode]
  split_ifs with hlen
  · rfl
  · cases txFields ⟨buf, false⟩ with
    | none => rfl
    | some p =>
      dsimp only
      split_ifs <;> rfl

/-- The decoder accepts the encodings of transactions and nothing else. -/
theorem acTxDecodePos_eq_some {buf : Bytes} {tx : Tx} {n : ℕ} :
    acTxDecodePos buf = some (tx, n) ↔ buf = txBytes tx ∧ n = buf.length := by
  constructor
  · intro h
    rw [acTxDecodePos] at h
    split_ifs at h with hlen
    cases hf : txFields ⟨buf, false⟩ with
    | none => simp [hf] at h
    | some p =>
      obtain ⟨tx', c⟩ := p
      simp only [hf] at h
      split_ifs at h with hend
      simp only [not_or, Bool.not_eq_true, ne_eq, not_not] at hend
      obtain ⟨rfl, rfl⟩ := Prod.mk.inj (Option.some.inj h)
      have hbytes := txFields_inv hf hend.1
      rw [hend.2, List.append_nil] at hbytes
      exact ⟨hbytes, by simp [hend.2]⟩
  · rintro ⟨rfl, rfl⟩
    have hlen := length_txBytes_le tx
    have hf := txFields_txBytes tx []
    rw [List.append_nil] at hf
    rw [acTxDecodePos, if_neg (by rw [acTxMaxBytes]; omega), hf]
    simp

/-- **The transaction codec is a bijection.**  Every transaction is encoded and read back with
its length; a byte string that is accepted is the encoding of what it is decoded to, so no two
byte strings give one transaction; the signable bytes of a transaction always fit, and they
determine it up to its signature. -/
theorem tx_codec_bijection :
    (∀ tx : Tx, ∃ buf, acTxEncode acTxMaxBytes tx = some buf ∧
      acTxDecodePos buf = some (tx, buf.length)) ∧
    (∀ (buf : Bytes) (tx : Tx) (n : ℕ), acTxDecodePos buf = some (tx, n) →
      acTxEncode acTxMaxBytes tx = some buf) ∧
    (∀ (buf buf' : Bytes) (tx : Tx) (n n' : ℕ), acTxDecodePos buf = some (tx, n) →
      acTxDecodePos buf' = some (tx, n') → buf = buf') ∧
    (∀ tx : Tx, (acTxSignableBytes acTxMaxBytes tx).isSome) ∧
    ∀ tx tx' : Tx, acTxSignableBytes acTxMaxBytes tx = acTxSignableBytes acTxMaxBytes tx' →
      { tx with sig := tx'.sig } = tx' := by
  have hfits : ∀ tx : Tx, acTxEncode acTxMaxBytes tx = some (txBytes tx) := fun tx =>
    acTxEncode_eq ((length_txBytes_le tx).trans (by decide))
  refine ⟨?_, ?_, ?_, ?_, ?_⟩
  · intro tx
    exact ⟨txBytes tx, hfits tx, acTxDecodePos_eq_some.mpr ⟨rfl, rfl⟩⟩
  · intro buf tx n h
    rw [hfits, (acTxDecodePos_eq_some.mp h).1]
  · intro buf buf' tx n n' h h'
    rw [(acTxDecodePos_eq_some.mp h).1, (acTxDecodePos_eq_some.mp h').1]
  · intro tx
    rw [acTxSignableBytes_eq]
    rfl
  · intro tx tx' h
    exact acTxSignableBytes_injective h

/-- The transfer that the codec's own test encodes, with a zero key and signature. -/
def helloTx : Tx where
  version := 1
  chainId := 2025
  kind := 0x01
  sender := ByteArr.fill 32 0
  nonce := 7
  gasLimit := 200
  tip := 3
  validUntil := 99999
  body := (List.range 32).map (fun i => UInt8.ofNat (0xA0 + i)) ++ acBe64 12345
  memo := ascii "hello world"
  sig := ByteArr.fill 64 0
  body_le := by decide +kernel
  memo_le := by decide +kernel

/-- Its 193 bytes are read back, and they are the only ones that give it. -/
theorem tx_codec_bijection_hello :
    acTxDecodePos (txBytes helloTx) = some (helloTx, 193) ∧
    acTxEncode acTxMaxBytes helloTx = some (txBytes helloTx) := by
  have hdec : acTxDecodePos (txBytes helloTx) = some (helloTx, 193) := by decide +kernel
  exact ⟨hdec, tx_codec_bijection.2.1 _ _ _ hdec⟩

end AgentChain
