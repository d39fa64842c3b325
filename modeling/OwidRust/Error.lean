import Mathlib.Data.Nat.Notation
import Mathlib.Data.Int.Notation

/-!
# Constants, statuses and errors

`ParseStatus`, `ParseDetail` and `ParseError` of `src/parse.rs` and `src/status.rs`, `Error` of
`src/error.rs` with the texts its `Display` writes, and `SignatureStatus::of`.  The text matters
to the model in one place: an error shared with the callers waiting on a fetch is rebuilt from it.
-/

namespace OwidRust

/-- `u32::MAX`. -/
def u32Max : Nat := 4294967295

/-- `SIGNATURE_LENGTH`. -/
def SIGNATURE_LENGTH : Nat := 64

/-- `MAXIMUM_DOMAIN_LENGTH`. -/
def MAXIMUM_DOMAIN_LENGTH : Nat := 253

/-- `u32::try_from` on a signed count. -/
def u32TryFrom (n : Int) : Option Nat := if 0 ≤ n ∧ n ≤ u32Max then some n.toNat else none

/-! ## Reading -/

inductive ParseStatus where
  | parsed
  | missingInput
  | invalidBase64
  | unsupportedVersion
  | absentNode
  | unexpectedEnd
  | invalidDomainEncoding
  | byteCountMismatch
  | implementationCapacityExceeded
  | malformedEnvelope
  deriving DecidableEq, Repr

/-- `ParseStatus::as_str`. -/
def ParseStatus.asStr : ParseStatus → String
  | .parsed => "Parsed"
  | .missingInput => "MissingInput"
  | .invalidBase64 => "InvalidBase64"
  | .unsupportedVersion => "UnsupportedVersion"
  | .absentNode => "AbsentNode"
  | .unexpectedEnd => "UnexpectedEnd"
  | .invalidDomainEncoding => "InvalidDomainEncoding"
  | .byteCountMismatch => "ByteCountMismatch"
  | .implementationCapacityExceeded => "ImplementationCapacityExceeded"
  | .malformedEnvelope => "MalformedEnvelope"

inductive ParseDetail where
  | field (name : String)
  | versionByte (v : UInt8)
  | byteCounts (declared : Nat) (present : Int)
  | capacity (required : Nat)
  | maximumDomainLength (maximum : Nat)
  deriving DecidableEq, Repr

def ParseDetail.display : ParseDetail → String
  | .field name => "stopped inside " ++ name
  | .versionByte v => "version '" ++ toString v ++ "'"
  | .byteCounts declared present =>
    "declared '" ++ toString declared ++ "' with '" ++ toString present ++ "' present"
  | .capacity required => "'" ++ toString required ++ "' bytes required"
  | .maximumDomainLength maximum =>
    "longer than the '" ++ toString maximum ++ "' character maximum, or not terminated"

structure ParseError where
  status : ParseStatus
  detail : Option ParseDetail
  deriving DecidableEq, Repr

def ParseError.display (e : ParseError) : String :=
  match e.detail with
  | none => e.status.asStr
  | some detail => e.status.asStr ++ ": " ++ detail.display

/-! ## The errors of the crate -/

inductive Error where
  | unsupportedVersion (v : UInt8)
  | invalidSignatureLength (l : Nat)
  | invalidDomain (d : String)
  | domainTooLong
  | dateOutOfRange
  | payloadTooLarge (l : Nat)
  | implementationCapacityExceeded (required : Nat)
  | key (message : String)
  | keyMissing (operation : String)
  | invalidKeyFormat (format : String)
  | http (message : String)
  | parse (e : ParseError)
  deriving DecidableEq, Repr

def Error.display : Error → String
  | .unsupportedVersion v => "OWID version '" ++ toString v ++ "' not supported"
  | .invalidSignatureLength l =>
    "signature length '" ++ toString l ++ "' not compatible with '" ++
      toString SIGNATURE_LENGTH ++ "' OWID signature length"
  | .invalidDomain d => "domain '" ++ d ++ "' is not valid"
  | .domainTooLong =>
    "domain field exceeds the '" ++ toString MAXIMUM_DOMAIN_LENGTH ++ "' character maximum"
  | .dateOutOfRange => "date can not be stored in the encoding for the OWID version"
  | .payloadTooLarge l =>
    "payload length '" ++ toString l ++ "' exceeds the unsigned 32 bit limit"
  | .implementationCapacityExceeded required =>
    "OWID requires '" ++ toString required ++ "' bytes beyond this implementation's capacity"
  | .key e => "key operation failed because " ++ e
  | .keyMissing o => "instance of Crypto cannot be used to " ++ o
  | .invalidKeyFormat v => "the only public key format defined is 'spki', received '" ++ v ++ "'"
  | .http e => "HTTP request failed because " ++ e
  | .parse e => "bytes are not an OWID because " ++ e.display

/-! ## What a verification answers -/

inductive SignatureStatus where
  | valid
  | invalid
  | invalidSignatureLength
  | keyUnavailable
  | invalidKey
  | implementationCapacityExceeded
  | verificationError
  deriving DecidableEq, Repr

/-- `SignatureStatus::of`. -/
def SignatureStatus.of : Except Error Bool → SignatureStatus
  | .ok true => .valid
  | .ok false => .invalid
  | .error (.invalidSignatureLength _) => .invalidSignatureLength
  | .error (.keyMissing _) => .keyUnavailable
  | .error (.http _) => .keyUnavailable
  | .error (.key _) => .invalidKey
  | .error (.invalidKeyFormat _) => .invalidKey
  | .error (.implementationCapacityExceeded _) => .implementationCapacityExceeded
  | .error _ => .verificationError

/-! ## Calls that could go wrong in ways no error names -/

/-- How a call ends without a value: it panics (an index out of bounds, an arithmetic overflow,
a failed assertion) or it fails with an error of its own. -/
inductive Stop (ε : Type) where
  | panic
  | fail (e : ε)
  deriving DecidableEq, Repr

/-- A call that answers, fails or panics. -/
abbrev Checked (ε α : Type) := Except (Stop ε) α

@[simp] theorem ok_bind {ε α β : Type} (a : α) (f : α → Except ε β) :
    (Except.ok a >>= f) = f a := rfl

@[simp] theorem error_bind {ε α β : Type} (e : ε) (f : α → Except ε β) :
    (Except.error e >>= f) = .error e := rfl

/-- A step that cannot fail leaves the errors of the one before it. -/
theorem bind_ok_eq_error {ε α β : Type} {x : Except ε α} {f : α → β} {e : ε} :
    (x >>= fun a => .ok (f a)) = .error e ↔ x = .error e := by
  cases x with
  | error e' => simp
  | ok a => exact iff_of_false (by simp) (by simp)

theorem bind_eq_error_iff {ε α β : Type} {x : Except ε α} {f : α → Except ε β} {e : ε} :
    x >>= f = .error e ↔ x = .error e ∨ ∃ a, x = .ok a ∧ f a = .error e := by
  cases x <;> simp

theorem bind_eq_ok {ε α β : Type} {x : Except ε α} {f : α → Except ε β} {b : β}
    (h : (x >>= f) = .ok b) : ∃ a, x = .ok a ∧ f a = .ok b := by
  cases x with
  | error e => cases h
  | ok a => exact ⟨a, rfl, h⟩

end OwidRust
