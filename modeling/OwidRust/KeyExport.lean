import OwidRust.Creator
import OwidRust.WrittenAnswer

/-!
# Keys exported, and the answer of a creator with one key

`subject_public_key_info`, `public_key_pem` and `private_key_pem` of `src/crypto.rs`, and
`public_key_response` of `src/endpoints.rs`: what a creator that never rotates its key publishes.

* `Crypto.Built.verifyOnly_exported`, `Crypto.Built.signOnly_exported` — a key that was exported is
  imported as itself;
* `publicKeyResponse_eq_ok_iff` — what a creator with one key answers, and when;
* `publicKeyResponse_accepted` — every client reads the creator's own key in it.
-/

namespace OwidRust

variable {p : P256} {pems : PrivatePems p} {ch : Chrono}

/-- What the crate uses of `p256` to write keys, with the texts of the errors. -/
structure WrittenPems (p : P256) where
  /-- `to_public_key_pem` with `LineEnding::LF`. -/
  toPublicKeyPem : p.VerifyingKey → Except String String
  /-- `to_pkcs8_pem` with `LineEnding::LF`. -/
  toPkcs8Pem : p.SigningKey → Except String String

variable {written : WrittenPems p}

/-- What the documentation of `p256` promises of the two: a key written is read back, and its text is
not blank. -/
structure WrittenPems.Documented (written : WrittenPems p) (pems : PrivatePems p) : Prop where
  public_read : ∀ k pem, written.toPublicKeyPem k = .ok pem →
    p.fromPublicKeyPem pem = .ok k ∧ trimIsEmpty pem = false
  private_read : ∀ k pem, written.toPkcs8Pem k = .ok pem →
    pems.fromPkcs8Pem pem = .ok k ∧ trimIsEmpty pem = false

namespace Crypto

/-- `Crypto::subject_public_key_info`. -/
def subjectPublicKeyInfo (written : WrittenPems p) (c : Crypto p) : Except Error String :=
  match c.verifyingKey with
  | none => .error (.keyMissing "export a public key")
  | some verifyingKey =>
    match written.toPublicKeyPem verifyingKey with
    | .ok pem => .ok pem
    | .error e => .error (.key e)

/-- `Crypto::public_key_pem`. -/
def publicKeyPem (written : WrittenPems p) (c : Crypto p) : Except Error String :=
  c.subjectPublicKeyInfo written

/-- `Crypto::private_key_pem`. -/
def privateKeyPem (written : WrittenPems p) (c : Crypto p) : Except Error String :=
  match c.signingKey with
  | none => .error (.keyMissing "export a private key")
  | some signingKey =>
    match written.toPkcs8Pem signingKey with
    | .ok pem => .ok pem
    | .error e => .error (.key e)

theorem subjectPublicKeyInfo_eq_ok {c : Crypto p} {pem : String}
    (h : c.subjectPublicKeyInfo written = .ok pem) :
    ∃ k, c.verifyingKey = some k ∧ written.toPublicKeyPem k = .ok pem := by
  unfold subjectPublicKeyInfo at h
  split at h
  · cases h
  · rename_i k hk
    split at h
    · rename_i hwritten
      cases h
      exact ⟨k, hk, hwritten⟩
    · cases h

theorem privateKeyPem_eq_ok {c : Crypto p} {pem : String}
    (h : c.privateKeyPem written = .ok pem) :
    ∃ k, c.signingKey = some k ∧ written.toPkcs8Pem k = .ok pem := by
  unfold privateKeyPem at h
  split at h
  · cases h
  · rename_i k hk
    split at h
    · rename_i hwritten
      cases h
      exact ⟨k, hk, hwritten⟩
    · cases h

/-- **The public key exported is the one that verifies.** -/
theorem verifyOnly_exported (hw : written.Documented pems) {c : Crypto p} {pem : String}
    (h : c.subjectPublicKeyInfo written = .ok pem) :
    newVerifyOnly p pem = .ok ⟨none, c.verifyingKey⟩ := by
  obtain ⟨k, hk, hpem⟩ := subjectPublicKeyInfo_eq_ok h
  obtain ⟨hread, htext⟩ := hw.public_read k pem hpem
  simp [newVerifyOnly, htext, hread, hk]

/-- **The private key exported is the whole of a key the crate built.** -/
theorem Built.signOnly_exported (hw : written.Documented pems) {c : Crypto p} (hc : c.Built pems)
    {pem : String} (h : c.privateKeyPem written = .ok pem) : newSignOnly pems pem = .ok c := by
  obtain ⟨k, hk, hpem⟩ := privateKeyPem_eq_ok h
  obtain ⟨hread, htext⟩ := hw.private_read k pem hpem
  obtain ⟨verifyingKey, hverifying, hpaired⟩ := hc.paired
  rw [hpaired k hk] at hverifying
  have hc' : c = ⟨some k, some (p.verifyingKey k)⟩ := by
    rw [← hk, ← hverifying]
  simp [newSignOnly, htext, hread, hc']

end Crypto

/-! ## The end point of one key -/

/-- `public_key_response`. -/
def publicKeyResponse (written : WrittenPems p) (ch : Chrono) (c : Creator p)
    (format : Option String) : Except Error String :=
  if !servesFormat format then .error (.invalidKeyFormat (format.getD ""))
  else do
    let pem ← c.crypto.subjectPublicKeyInfo written
    publicKeyAnswer p ch pem none none none

/-- The answer that states a key and nothing of when it is in force. -/
def undatedAnswer (pem : String) : PublicKeyAnswer := .new pem none none

theorem validate_undatedAnswer {pem : String} (h : Readable p pem) (asked : Option Moment) :
    (undatedAnswer pem).validate p asked = .ok () := by
  rw [PublicKeyAnswer.validate_of_readable asked rfl h]
  cases asked <;> rfl

/-- **What a creator with one key answers**: its own key where it can be exported, to any request
for the one format there is. -/
theorem publicKeyResponse_eq_ok_iff (hw : written.Documented pems) {c : Creator p}
    {format : Option String} {body : String} :
    publicKeyResponse written ch c format = .ok body ↔
      servesFormat format = true ∧ ∃ pem, c.crypto.subjectPublicKeyInfo written = .ok pem ∧
        body = (undatedAnswer pem).toJson ch := by
  unfold publicKeyResponse
  cases servesFormat format with
  | false => simp
  | true =>
    simp only [Bool.not_true, Bool.false_eq_true, if_false, true_and]
    constructor
    · intro h
      obtain ⟨pem, hpem, hanswer⟩ := bind_eq_ok h
      exact ⟨pem, hpem, (publicKeyAnswer_eq_ok_iff.mp hanswer).2⟩
    · rintro ⟨pem, hpem, rfl⟩
      rw [hpem, ok_bind, publicKeyAnswer_eq_ok_iff]
      exact ⟨validate_undatedAnswer ⟨_, Crypto.verifyOnly_exported hw hpem⟩ none, rfl⟩

theorem parse_undatedAnswer (ch : Chrono) (pem : String) :
    PublicKeyAnswer.parse ch ((undatedAnswer pem).toJson ch) = .ok (undatedAnswer pem) :=
  PublicKeyAnswer.parse_toJson nofun nofun

/-- **Every client reads the creator's own key**, whenever it asks. -/
theorem publicKeyResponse_accepted (hw : written.Documented pems) {c : Creator p}
    {format : Option String} {body : String}
    (h : publicKeyResponse written ch c format = .ok body) (asked : Option Moment) :
    ∃ pem, PublicKeyAnswer.parse ch body = .ok (undatedAnswer pem) ∧
      (undatedAnswer pem).validate p asked = .ok () ∧
      Crypto.newVerifyOnly p pem = .ok ⟨none, c.crypto.verifyingKey⟩ := by
  obtain ⟨-, pem, hpem, rfl⟩ := (publicKeyResponse_eq_ok_iff hw).mp h
  have hread := Crypto.verifyOnly_exported hw hpem
  exact ⟨pem, parse_undatedAnswer ch pem, validate_undatedAnswer ⟨_, hread⟩ asked, hread⟩

/-! The two keys of the sample, written as they are published. -/

theorem trimIsEmpty_of_readable {pem : String} (h : Readable p pem) : trimIsEmpty pem = false := by
  obtain ⟨c, hc⟩ := h
  rw [← Bool.not_eq_true]
  intro htext
  rw [Crypto.newVerifyOnly, if_pos htext] at hc
  cases hc

/-- The published keys, and no private one. -/
def sampleWritten : WrittenPems sampleP256 where
  toPublicKeyPem := fun (k : Bool) =>
    match k with
    | true => .ok nextPem
    | false => .ok samplePem
  toPkcs8Pem := fun _ => .error "PEM error"

theorem sampleWritten_documented : sampleWritten.Documented samplePems where
  public_read := by
    intro (k : Bool) pem h
    cases k with
    | false =>
      have hpem : samplePem = pem := Except.ok.inj h
      rw [← hpem]
      exact ⟨by simp [sampleP256], trimIsEmpty_of_readable readable_samplePem⟩
    | true =>
      have hpem : nextPem = pem := Except.ok.inj h
      rw [← hpem]
      exact ⟨by simp [sampleP256, nextPem_ne_samplePem], trimIsEmpty_of_readable readable_nextPem⟩
  private_read := nofun

end OwidRust
