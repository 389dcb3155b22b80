import AgentChain.Common

/-!
# Hashing, signatures and the VRF

`crypto.c` wraps libsodium.  BLAKE2b, Ed25519 signing and Ed25519 verification stay
parameters of the model, together with the two comparisons that the engine makes in
`long double` and with the answers of `malloc` to the requests of `state.c`.  The VRF
is code of the engine: an Ed25519 signature under a domain tag, hashed to its output.
-/

namespace AgentChain

/-- An Ed25519 keypair. -/
structure Keypair where
  pk : Addr
  sk : ByteArr 64
deriving DecidableEq

/-- The code outside the repository that the engine calls. -/
structure Platform where
  /-- `crypto_generichash` with a 32-byte digest. -/
  genericHash : Bytes → Hash
  /-- `crypto_sign_detached` -/
  signDetached : Keypair → Bytes → Sig
  /-- `crypto_sign_verify_detached(..) == 0` -/
  verifyDetached : Sig → Bytes → Addr → Bool
  /-- The comparison of a committee draw with its `long double` threshold, by draw, square
  root of the stake and total. -/
  committeeDraw : UInt64 → UInt64 → UInt64 → Bool
  /-- The comparison of a leader draw with its `long double` threshold, by draw and number
  of active validators. -/
  leaderDraw : UInt64 → ℕ → Bool
  /-- Whether `malloc` grants a buffer of the given size. -/
  malloc : ℕ → Bool

variable (P : Platform)

/-- `ac_hash` -/
def acHash (data : Bytes) : Hash := P.genericHash data

/-- `ac_hash_multi`: the chunks are fed to the hash one after the other. -/
def acHashMulti (chunks : List Bytes) : Hash := P.genericHash chunks.flatten

/-- `ac_sign` -/
def acSign (msg : Bytes) (kp : Keypair) : Sig := P.signDetached kp msg

/-- `ac_verify` -/
def acVerify (sig : Sig) (msg : Bytes) (pk : Addr) : Bool := P.verifyDetached sig msg pk

/-- `vrf_compute_beta` -/
def vrfComputeBeta (proof : VrfProof) : VrfOut :=
  acHashMulti P [ascii "AGCH:VRF-OUT:v1", proof.bytes]

/-- `ac_vrf_prove`: the proof is a signature of the tagged input. -/
def acVrfProve (alpha : Bytes) (kp : Keypair) : VrfProof :=
  acSign P (ascii "AGCH:VRF:v1" ++ alpha) kp

/-- `ac_vrf_verify`: the output when the proof verifies. -/
def acVrfVerify (proof : VrfProof) (alpha : Bytes) (pk : Addr) : Option VrfOut :=
  if acVerify P proof (ascii "AGCH:VRF:v1" ++ alpha) pk then some (vrfComputeBeta P proof)
  else none

/-- `ac_rd64` on the first eight bytes of a digest. -/
def acRd64 (bs : Bytes) : UInt64 := UInt64.ofNat (beDecode (bs.take 8))

/-- The two halves of the keypair belong together: what it signs verifies. -/
def Keypair.Valid (kp : Keypair) : Prop := ∀ msg, acVerify P (acSign P msg kp) msg kp.pk = true

/-- A proof made with a valid keypair verifies. -/
lemma acVrfVerify_prove {P : Platform} {kp : Keypair} (h : kp.Valid P) (alpha : Bytes) :
    acVrfVerify P (acVrfProve P alpha kp) alpha kp.pk =
      some (vrfComputeBeta P (acVrfProve P alpha kp)) :=
  if_pos (h _)

/-- No single buffer of 256 GiB is granted. -/
def Platform.MallocBounded : Prop := ∀ n, 2 ^ 38 ≤ n → P.malloc n = false

end AgentChain
