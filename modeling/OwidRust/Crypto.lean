import OwidRust.Error
import OwidRust.Text

/-!
# Keys and signatures

`Crypto` of `src/crypto.rs`.  The curve arithmetic and the PEM reading are the `p256` crate's, so
they are a parameter `P256` of the model: what it answers is never looked into here.
-/

namespace OwidRust

/-- What the crate uses of `p256`. -/
structure P256 where
  SigningKey : Type
  VerifyingKey : Type
  Signature : Type
  /-- `SigningKey::verifying_key`. -/
  verifyingKey : SigningKey → VerifyingKey
  /-- `VerifyingKey::from_public_key_pem`, with the text of its error. -/
  fromPublicKeyPem : String → Except String VerifyingKey
  /-- `SigningKey::sign`. -/
  sign : SigningKey → List UInt8 → Signature
  /-- `Signature::to_bytes`. -/
  toBytes : Signature → List UInt8
  /-- `Signature::from_slice`. -/
  fromSlice : List UInt8 → Option Signature
  /-- `VerifyingKey::verify` answering `Ok`. -/
  verify : VerifyingKey → List UInt8 → Signature → Bool

/-- What the documentation of `p256` promises of signing: a signature has 64 bytes, is read back
from them and verifies under the verifying key of the key that made it. -/
structure P256.Sound (p : P256) : Prop where
  length_toBytes : ∀ s, (p.toBytes s).length = SIGNATURE_LENGTH
  fromSlice_toBytes : ∀ s, p.fromSlice (p.toBytes s) = some s
  verify_sign : ∀ k data, p.verify (p.verifyingKey k) data (p.sign k data) = true

/-- A published public key. -/
def samplePem : String :=
  "-----BEGIN PUBLIC KEY-----\n" ++
  "MFkwEwYHKoZIzj0CAQYIKoZIzj0DAQcDQgAE1S5u0ke8IvXO9tKBBjkNgUTLkMRR\n" ++
  "HcdbVUCYIDZbhOvvU2Sa7OTVfb/jDwcHwd/KVrl33uHBFHuH2E/UdBXBSw==\n" ++
  "-----END PUBLIC KEY-----\n"

/-- The public key published after it. -/
def nextPem : String :=
  "-----BEGIN PUBLIC KEY-----\n" ++
  "MFkwEwYHKoZIzj0CAQYIKoZIzj0DAQcDQgAEMaXEnA/hG6e9ZBIBxRnqaOspCS2f\n" ++
  "MDZ7MRaGMVo2CL0hcqdI4rP+KJll83xUxQq0nwwo11j/C2BwWfCbfcjFbw==\n" ++
  "-----END PUBLIC KEY-----\n"

/-- Two keys and their signatures, each of which names the key that made it. -/
def sampleP256 : P256 where
  SigningKey := Bool
  VerifyingKey := Bool
  Signature := Bool
  verifyingKey := id
  fromPublicKeyPem := fun pem =>
    if pem = samplePem then .ok false else if pem = nextPem then .ok true
    else .error "PEM error"
  sign := fun key _ => key
  toBytes := fun s => List.replicate SIGNATURE_LENGTH (if s then 1 else 2)
  fromSlice := fun bytes => bytes.head?.map (· == 1)
  verify := fun key _ s => key == s

theorem sampleP256_sound : sampleP256.Sound where
  length_toBytes := fun _ => List.length_replicate
  fromSlice_toBytes := fun s => by cases s <;> rfl
  verify_sign := fun key _ => by cases key <;> rfl

structure Crypto (p : P256) where
  signingKey : Option p.SigningKey
  verifyingKey : Option p.VerifyingKey

variable {p : P256}

/-- `Crypto::new_verify_only`. -/
def Crypto.newVerifyOnly (p : P256) (publicPem : String) : Except Error (Crypto p) :=
  if trimIsEmpty publicPem then .error (.key "public key PEM is empty")
  else
    match p.fromPublicKeyPem publicPem with
    | .error e => .error (.key e)
    | .ok verifyingKey => .ok ⟨none, some verifyingKey⟩

/-- `Crypto::sign_byte_array`. -/
def Crypto.signByteArray (c : Crypto p) (data : List UInt8) : Except Error (List UInt8) :=
  match c.signingKey with
  | none => .error (.keyMissing "generate a signature")
  | some signingKey =>
    let bytes := p.toBytes (p.sign signingKey data)
    if bytes.length ≠ SIGNATURE_LENGTH then .error (.invalidSignatureLength bytes.length)
    else .ok bytes

/-- `Crypto::verify_byte_array`. -/
def Crypto.verifyByteArray (c : Crypto p) (data signature : List UInt8) : Except Error Bool :=
  match c.verifyingKey with
  | none => .error (.keyMissing "verify a signature")
  | some verifyingKey =>
    if signature.length ≠ SIGNATURE_LENGTH then .error (.invalidSignatureLength signature.length)
    else
      match p.fromSlice signature with
      | some s => .ok (p.verify verifyingKey data s)
      | none => .ok false

/-- A public key the crate can read. -/
def Readable (p : P256) (publicPem : String) : Prop :=
  ∃ c, Crypto.newVerifyOnly p publicPem = .ok c

/-! Both keys published are read. -/

theorem newVerifyOnly_samplePem :
    Crypto.newVerifyOnly sampleP256 samplePem = .ok ⟨none, some false⟩ := by
  have htext : trimIsEmpty samplePem = false := by
    have hbegin : trimIsEmpty "-----BEGIN PUBLIC KEY-----\n" = false := by decide +kernel
    delta samplePem
    rw [trimIsEmpty_append, trimIsEmpty_append, trimIsEmpty_append, hbegin]
    rfl
  simp [Crypto.newVerifyOnly, htext, sampleP256]

theorem nextPem_ne_samplePem : nextPem ≠ samplePem := by decide +kernel

theorem newVerifyOnly_nextPem :
    Crypto.newVerifyOnly sampleP256 nextPem = .ok ⟨none, some true⟩ := by
  have htext : trimIsEmpty nextPem = false := by
    have hbegin : trimIsEmpty "-----BEGIN PUBLIC KEY-----\n" = false := by decide +kernel
    delta nextPem
    rw [trimIsEmpty_append, trimIsEmpty_append, trimIsEmpty_append, hbegin]
    rfl
  simp [Crypto.newVerifyOnly, htext, sampleP256, nextPem_ne_samplePem]

theorem readable_samplePem : Readable sampleP256 samplePem := ⟨_, newVerifyOnly_samplePem⟩

theorem readable_nextPem : Readable sampleP256 nextPem := ⟨_, newVerifyOnly_nextPem⟩

theorem Crypto.newVerifyOnly_eq_ok {publicPem : String} {c : Crypto p}
    (h : Crypto.newVerifyOnly p publicPem = .ok c) :
    ∃ k, p.fromPublicKeyPem publicPem = .ok k ∧ c = ⟨none, some k⟩ := by
  unfold Crypto.newVerifyOnly at h
  split at h
  · cases h
  · split at h
    · cases h
    · rename_i k hk
      cases h
      exact ⟨k, hk, rfl⟩

/-- **A signature verifies under the verifying key of the key that made it.** -/
theorem Crypto.verifyByteArray_sign (hp : p.Sound) (k : p.SigningKey) (data : List UInt8)
    (signingKey : Option p.SigningKey) :
    Crypto.verifyByteArray ⟨signingKey, some (p.verifyingKey k)⟩ data (p.toBytes (p.sign k data)) =
      .ok true := by
  unfold Crypto.verifyByteArray
  simp only [hp.length_toBytes, hp.fromSlice_toBytes, hp.verify_sign]
  rfl

/-- A check under a key that was read answers yes or no where the signature has its length. -/
theorem Crypto.verifyByteArray_isOk {k : p.VerifyingKey} {data signature : List UInt8}
    (h : signature.length = SIGNATURE_LENGTH) :
    ∃ b, Crypto.verifyByteArray (p := p) ⟨none, some k⟩ data signature = .ok b := by
  unfold Crypto.verifyByteArray
  simp only [h]
  split
  · rename_i hne; exact absurd rfl hne
  · split
    · exact ⟨_, rfl⟩
    · exact ⟨_, rfl⟩

end OwidRust
