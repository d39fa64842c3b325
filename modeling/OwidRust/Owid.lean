import OwidRust.Crypto
import OwidRust.Io

/-!
# OWIDs and their serialized form

`Owid` of `src/owid.rs`: its fields, the two serialized forms, the size reserved for them and the
check of the signature.  `Machine` is the width of `usize` and what the allocator grants.

* `encodedLen_eq` — the length reserved is the length of the fields, where it fits a `usize`;
* `written_of_appends`, `written_eq_ok` — the reserving forms answer what the writer appends.
-/

namespace OwidRust

open Append ByteOrder

structure Owid where
  version : Version
  domain : String
  date : Moment
  payload : List UInt8
  signature : List UInt8
  deriving DecidableEq, Repr

/-- The machine the crate runs on: `usize::MAX`, and whether `try_reserve_exact` on an empty
vector obtains so many bytes. -/
structure Machine where
  usizeMax : Nat
  reserves : Nat → Bool

/-- `usize` has 16 bits, or 32 and more. -/
def Machine.Wide (m : Machine) : Prop := m.usizeMax = 65535 ∨ u32Max ≤ m.usizeMax

theorem Machine.Wide.usize_le {m : Machine} (hm : m.Wide) : 65535 ≤ m.usizeMax := by
  rcases hm with h16 | h32
  · exact h16.ge
  · exact le_trans (by decide) h32

/-- The cast of `u32::MAX` to `usize` leaves the bound on every length that fits both. -/
theorem Machine.Wide.le_cast {m : Machine} (hm : m.Wide) {n : Nat} (h : n ≤ u32Max)
    (h' : n ≤ m.usizeMax) : n ≤ u32Max % (m.usizeMax + 1) := by
  rcases hm with husize | husize
  · rw [husize] at h' ⊢
    exact h'
  · rw [Nat.mod_eq_of_lt (by omega)]
    exact h

/-- A vector of so many bytes can be had. -/
def Machine.Provides (m : Machine) (n : Nat) : Prop := n ≤ m.usizeMax ∧ m.reserves n = true

/-- A 64 bit machine with memory to spare. -/
def machine64 : Machine := ⟨18446744073709551615, fun _ => true⟩

theorem machine64_wide : machine64.Wide := .inr (by decide)

/-- The length is a `usize`.  A slice has `isize::MAX` bytes at most, so that what is shown of every
buffer held is shown of every slice. -/
def Machine.Holds (m : Machine) (buffer : List UInt8) : Prop := buffer.length ≤ m.usizeMax

instance (m : Machine) (buffer : List UInt8) : Decidable (m.Holds buffer) :=
  inferInstanceAs (Decidable (buffer.length ≤ m.usizeMax))

/-- A vector, and the slice of one, holds `isize::MAX` bytes at most. -/
def Machine.HoldsVec (m : Machine) (bytes : List UInt8) : Prop := bytes.length ≤ m.usizeMax / 2

theorem Machine.HoldsVec.holds {m : Machine} {bytes : List UInt8} (h : m.HoldsVec bytes) :
    m.Holds bytes := Nat.le_trans h (Nat.div_le_self ..)

/-- `checked_add` on `usize`. -/
def Machine.checkedAdd (m : Machine) (a b : Nat) : Option Nat :=
  if a + b ≤ m.usizeMax then some (a + b) else none

/-- The addition `encoded_len` folds with. -/
def Machine.addLength (m : Machine) (total length : Nat) : Except Error Nat :=
  match m.checkedAdd total length with
  | some sum => .ok sum
  | none => .error (.implementationCapacityExceeded m.usizeMax)

namespace Owid

def toBufferNoSignature (o : Owid) : Appender Error UInt8 :=
  andThen (writeByte o.version.asByte)
    (andThen (writeDomain o.domain) (andThen (writeDate o.date o.version) (writeByteArray o.payload)))

def toBuffer (o : Owid) : Appender Error UInt8 :=
  andThen o.toBufferNoSignature (writeSignature o.signature)

/-- `Owid::empty_to_buffer`. -/
def emptyToBuffer : Appender Error UInt8 := writeByte Version.empty.asByte

/-- The lengths `encoded_len` adds up. -/
def lengths (o : Owid) (dateLen : Nat) (includeSignature : Bool) : List Nat :=
  [1, (utf8 o.domain).length, 1, dateLen, 4, o.payload.length,
    if includeSignature then SIGNATURE_LENGTH else 0]

end Owid

/-- The reservation that writing the OWID makes succeeds. -/
def Machine.Reserves (m : Machine) (o : Owid) (includeSignature : Bool) : Prop :=
  m.reserves (o.lengths (dateLength o.version) includeSignature).sum = true

/-- The reservations that reading the OWID, signing it and writing it make succeed. -/
structure Machine.MemoryFor (m : Machine) (o : Owid) : Prop where
  payload : m.reserves o.payload.length = true
  signed : m.Reserves o false
  whole : m.Reserves o true

theorem machine64_memoryFor (o : Owid) : machine64.MemoryFor o := ⟨rfl, rfl, rfl⟩

namespace Owid

/-- `Owid::encoded_len`. The cast of `u32::MAX` to `usize` wraps where `usize` is narrower. -/
def encodedLen (m : Machine) (o : Owid) (includeSignature : Bool) : Except Error Nat :=
  if o.payload.length > u32Max % (m.usizeMax + 1) then .error (.payloadTooLarge o.payload.length)
  else if includeSignature ∧ o.signature.length ≠ SIGNATURE_LENGTH then
    .error (.invalidSignatureLength o.signature.length)
  else
    match o.version with
    | .empty => .error (.unsupportedVersion Version.empty.asByte)
    | version =>
      let dateLen := match version with
        | .version1 => 2
        | _ => 4
      (o.lengths dateLen includeSignature).foldlM m.addLength 0

theorem foldlM_addLength {m : Machine} :
    ∀ (lengths : List Nat) {total : Nat}, total ≤ m.usizeMax →
      lengths.foldlM m.addLength total =
        if total + lengths.sum ≤ m.usizeMax then .ok (total + lengths.sum)
        else .error (.implementationCapacityExceeded m.usizeMax)
  | [], total, h => by simp [h, pure, Except.pure]
  | length :: lengths, total, h => by
    rw [List.foldlM_cons, List.sum_cons, ← Nat.add_assoc, Machine.addLength, Machine.checkedAdd]
    by_cases hle : total + length ≤ m.usizeMax
    · rw [if_pos hle]
      exact foldlM_addLength lengths hle
    · rw [if_neg hle, if_neg (by omega)]
      rfl

/-- **The capacity computed is the number of bytes the fields take**, where it is computed. -/
theorem encodedLen_eq {m : Machine} {o : Owid} (b : Bool) (hv : o.version ≠ .empty)
    (hpayload : o.payload.length ≤ u32Max % (m.usizeMax + 1))
    (hs : b = true → o.signature.length = SIGNATURE_LENGTH) :
    o.encodedLen m b =
      if (o.lengths (dateLength o.version) b).sum ≤ m.usizeMax then
        .ok (o.lengths (dateLength o.version) b).sum
      else .error (.implementationCapacityExceeded m.usizeMax) := by
  unfold encodedLen
  rw [if_neg (not_lt.mpr hpayload), if_neg (fun h => h.2 (hs h.1))]
  cases hver : o.version with
  | empty => exact absurd hver hv
  | version1 | version2 | version3 =>
    simp only [foldlM_addLength _ (Nat.zero_le _), Nat.zero_add]
    rfl

theorem encodedLen_le {m : Machine} {o : Owid} {b : Bool} {n : Nat}
    (h : o.encodedLen m b = .ok n) :
    n ≤ m.usizeMax ∧ n = (o.lengths (dateLength o.version) b).sum := by
  unfold encodedLen at h
  split at h
  · cases h
  split at h
  · cases h
  cases hver : o.version <;> rw [hver] at h <;>
    simp only [reduceCtorEq, foldlM_addLength _ (Nat.zero_le _), Nat.zero_add] at h <;>
    split at h <;> cases h <;> exact ⟨‹_›, rfl⟩

/-- Reserves the capacity and writes on the empty vector, the shape `as_byte_array` and
`signed_bytes` share. -/
def written (m : Machine) (capacity : Except Error Nat) (w : Appender Error UInt8) :
    Except Error (List UInt8) :=
  match capacity with
  | .error e => .error e
  | .ok capacity =>
    if m.reserves capacity then
      match w [] with
      | (.ok _, buffer) => .ok buffer
      | (.error e, _) => .error e
    else .error (.implementationCapacityExceeded capacity)

theorem written_of_appends {m : Machine} {w : Appender Error UInt8} {n : Nat} {xs : List UInt8}
    (hr : m.reserves n = true) (hw : Appends w xs) : written m (.ok n) w = .ok xs := by
  simp only [written, hr, if_true, hw []]
  rfl

theorem written_eq_ok {m : Machine} {capacity : Except Error Nat} {w : Appender Error UInt8}
    {xs : List UInt8} (h : written m capacity w = .ok xs) :
    w [] = (.ok (), xs) ∧ ∃ n, capacity = .ok n := by
  unfold written at h
  split at h
  · cases h
  split at h
  · split at h
    · rename_i hw
      cases h
      exact ⟨hw, _, rfl⟩
    · cases h
  · cases h

def asByteArray (m : Machine) (o : Owid) : Except Error (List UInt8) :=
  written m (o.encodedLen m true) o.toBuffer

def signedBytes (m : Machine) (o : Owid) : Except Error (List UInt8) :=
  written m (o.encodedLen m false) o.toBufferNoSignature

theorem encodedLen_signature (m : Machine) (o : Owid) (signature : List UInt8) :
    Owid.encodedLen m { o with signature := signature } false = o.encodedLen m false := by
  simp [encodedLen, lengths]

/-- The signature is not among the bytes signed. -/
theorem signedBytes_signature (m : Machine) (o : Owid) (signature : List UInt8) :
    Owid.signedBytes m { o with signature := signature } = o.signedBytes m := by
  rw [signedBytes, encodedLen_signature]
  rfl

variable {p : P256}

def verifyWithCrypto (m : Machine) (o : Owid) (c : Crypto p) : Except Error Bool := do
  let data ← o.signedBytes m
  c.verifyByteArray data o.signature

def verifyWithPublicKey (p : P256) (m : Machine) (o : Owid) (publicPem : String) :
    Except Error Bool := do
  let c ← Crypto.newVerifyOnly p publicPem
  o.verifyWithCrypto m c

/-- A check that succeeds under one key comes to an end under every key that can be read. -/
theorem verifyWithPublicKey_isOk {m : Machine} {o : Owid} {pem pem' : String}
    (hpem : Readable p pem') (h : o.verifyWithPublicKey p m pem = .ok true) :
    ∃ b, o.verifyWithPublicKey p m pem' = .ok b := by
  obtain ⟨c, -, hverify⟩ := bind_eq_ok h
  obtain ⟨data, hdata, hcheck⟩ := bind_eq_ok hverify
  have hlength : o.signature.length = SIGNATURE_LENGTH := by
    unfold Crypto.verifyByteArray at hcheck
    split at hcheck
    · cases hcheck
    · split at hcheck
      · cases hcheck
      · rename_i hne
        exact not_not.mp hne
  obtain ⟨c', hc'⟩ := hpem
  obtain ⟨k, -, rfl⟩ := Crypto.newVerifyOnly_eq_ok hc'
  obtain ⟨b, hb⟩ : ∃ b, Crypto.verifyByteArray (⟨none, some k⟩ : Crypto p) data o.signature =
      .ok b := Crypto.verifyByteArray_isOk hlength
  refine ⟨b, ?_⟩
  rw [verifyWithPublicKey, hc', ok_bind, verifyWithCrypto, hdata, ok_bind, hb]

end Owid

end OwidRust
