import OwidRust.Lib.Append
import OwidRust.Lib.ByteOrder
import OwidRust.Text
import OwidRust.Time

/-!
# Writing the fields of an OWID

`Version` of `src/version.rs` and the write helpers of `src/io.rs`.  Each writer either appends
the bytes of its field or refuses having appended nothing.

Each writer has one lemma saying when it appends and what (`appends_writeDomain`, `appends_writeDate`, ...)
and one saying that otherwise it refuses (`writeDomain_refuses`, ...).
-/

namespace OwidRust

open Append ByteOrder

/-- `Version`. -/
inductive Version where
  | empty
  | version1
  | version2
  | version3
  deriving DecidableEq, Repr

def Version.asByte : Version → UInt8
  | .empty => 0
  | .version1 => 1
  | .version2 => 2
  | .version3 => 3

/-- `Version::try_from`. -/
def Version.tryFrom (value : UInt8) : Except Error Version :=
  if value = 0 then .ok .empty
  else if value = 1 then .ok .version1
  else if value = 2 then .ok .version2
  else if value = 3 then .ok .version3
  else .error (.unsupportedVersion value)

theorem Version.tryFrom_eq_ok_iff {value : UInt8} {v : Version} :
    Version.tryFrom value = .ok v ↔ value = v.asByte := by
  unfold Version.tryFrom
  constructor
  · intro h
    repeat' split at h
    all_goals first | (cases h; assumption) | cases h
  · rintro rfl
    cases v <;> rfl

/-- What the first byte of an OWID can be. -/
inductive VersionByte : UInt8 → Prop where
  | marker : VersionByte Version.empty.asByte
  | version {v : Version} : v ≠ .empty → VersionByte v.asByte
  | unsupported {byte : UInt8} {e : Error} : Version.tryFrom byte = .error e → VersionByte byte

theorem versionByte (byte : UInt8) : VersionByte byte := by
  cases hv : Version.tryFrom byte with
  | error e => exact .unsupported hv
  | ok v =>
    rw [Version.tryFrom_eq_ok_iff] at hv
    subst hv
    by_cases hne : v = .empty
    · subst hne
      exact .marker
    · exact .version hne

theorem Version.asByte_injective {v w : Version} (h : v.asByte = w.asByte) : v = w := by
  have hread := Version.tryFrom_eq_ok_iff.mpr h
  rw [Version.tryFrom_eq_ok_iff.mpr rfl] at hread
  cases hread
  rfl

theorem Version.asByte_ne_empty {v : Version} (hne : v ≠ .empty) :
    v.asByte ≠ Version.empty.asByte := fun h => hne (Version.asByte_injective h)

/-- The bytes the date field takes, `date_length`. -/
def dateLength : Version → Nat
  | .version1 => 2
  | _ => 4

/-- `u16::try_from` on a signed count. -/
def u16TryFrom (n : Int) : Option Nat := if 0 ≤ n ∧ n ≤ 65535 then some n.toNat else none

/-! ## The writers -/

def writeByte (value : UInt8) : Appender Error UInt8 := push [value]

def writeDomain (value : String) : Appender Error UInt8 :=
  if (utf8 value).any (· == 0) then refuse (.invalidDomain value)
  else if (utf8 value).length > MAXIMUM_DOMAIN_LENGTH then refuse .domainTooLong
  else andThen (push (utf8 value)) (push [0])

def writeU32 (value : Nat) : Appender Error UInt8 := push (toLe 4 value)

def writeByteArray (value : List UInt8) : Appender Error UInt8 :=
  match u32TryFrom value.length with
  | none => refuse (.payloadTooLarge value.length)
  | some length => andThen (writeU32 length) (push value)

def writeSignature (value : List UInt8) : Appender Error UInt8 :=
  if value.length ≠ SIGNATURE_LENGTH then refuse (.invalidSignatureLength value.length)
  else push value

def writeDate (date : Moment) : Version → Appender Error UInt8
  | .version1 =>
    match u16TryFrom (numHours (date.since baseDate)) with
    | none => refuse .dateOutOfRange
    | some hours =>
      andThen (push [UInt8.ofNat (hours >>> 8)]) (push [UInt8.ofNat (hours &&& 0xFF)])
  | .version2 | .version3 =>
    match minutesSinceBase date with
    | none => refuse .dateOutOfRange
    | some minutes => writeU32 minutes
  | .empty => refuse (.unsupportedVersion Version.empty.asByte)

/-! ## What they write -/

/-- The domains that can be written: no zero byte and at most the longest domain there is. -/
def DomainOk (domain : String) : Prop :=
  (0 : UInt8) ∉ utf8 domain ∧ (utf8 domain).length ≤ MAXIMUM_DOMAIN_LENGTH

/-- The count a date is written as: hours for version 1, minutes for versions 2 and 3. -/
def dateCount (version : Version) (date : Moment) : Option Nat :=
  match version with
  | .version1 => u16TryFrom (numHours (date.since baseDate))
  | .version2 | .version3 => minutesSinceBase date
  | .empty => none

/-- The bytes a count is written as. -/
def dateBytes (version : Version) (count : Nat) : List UInt8 :=
  match version with
  | .version1 => toBe 2 count
  | _ => toLe 4 count

@[simp] theorem length_dateBytes (v : Version) (n : Nat) :
    (dateBytes v n).length = dateLength v := by
  cases v <;> simp [dateBytes, dateLength]

theorem dateCount_lt {v : Version} {d : Moment} {n : Nat} (h : dateCount v d = some n) :
    n < 256 ^ dateLength v := by
  cases v with
  | empty => cases h
  | version1 =>
    simp only [dateCount, u16TryFrom] at h
    split at h
    · cases h
      simp only [dateLength]
      omega
    · cases h
  | version2 | version3 =>
    have := minutesSinceBase_le h
    simp only [u32Max] at this
    simp only [dateLength]
    omega

theorem appends_writeDomain {domain : String} (h : DomainOk domain) :
    Appends (writeDomain domain) (utf8 domain ++ [0]) := by
  obtain ⟨h0, hle⟩ := h
  have hany : (utf8 domain).any (· == 0) = false := by
    rw [List.any_eq_false]
    intro b hb hb0
    rw [beq_iff_eq] at hb0
    exact h0 (hb0 ▸ hb)
  unfold writeDomain
  rw [if_neg (by simp [hany]), if_neg (by omega)]
  exact appends_andThen (appends_push _) (appends_push _)

theorem writeDomain_refuses {domain : String} (h : ¬ DomainOk domain) :
    ∃ e, Refuses (writeDomain domain) e [] := by
  unfold writeDomain
  split
  · exact ⟨_, refuses_refuse _⟩
  · rename_i hany
    split
    · exact ⟨_, refuses_refuse _⟩
    · rename_i hlen
      refine absurd ⟨fun h0 => hany ?_, by omega⟩ h
      exact List.any_eq_true.mpr ⟨0, h0, rfl⟩

theorem appends_writeByteArray {value : List UInt8} (h : value.length ≤ u32Max) :
    Appends (writeByteArray value) (toLe 4 value.length ++ value) := by
  have hlen : u32TryFrom value.length = some value.length :=
    u32TryFrom_eq_some_iff.mpr ⟨rfl, h⟩
  unfold writeByteArray
  rw [hlen]
  exact appends_andThen (appends_push _) (appends_push _)

theorem writeByteArray_refuses {value : List UInt8} (h : u32Max < value.length) :
    Refuses (writeByteArray value) (.payloadTooLarge value.length) [] := by
  have hlen : u32TryFrom value.length = none := u32TryFrom_eq_none_iff.mpr (.inr (by omega))
  unfold writeByteArray
  rw [hlen]
  exact refuses_refuse _

theorem appends_writeSignature {value : List UInt8} (h : value.length = SIGNATURE_LENGTH) :
    Appends (writeSignature value) value := by
  unfold writeSignature
  rw [if_neg (by omega)]
  exact appends_push _

theorem writeSignature_refuses {value : List UInt8} (h : value.length ≠ SIGNATURE_LENGTH) :
    Refuses (writeSignature value) (.invalidSignatureLength value.length) [] := by
  unfold writeSignature
  rw [if_pos h]
  exact refuses_refuse _

/-- The two pushes of version 1 are the count in two bytes, the high one first. -/
theorem hours_bytes (hours : Nat) :
    [UInt8.ofNat (hours >>> 8)] ++ [UInt8.ofNat (hours &&& 0xFF)] = toBe 2 hours := by
  have hlow : hours &&& 0xFF = hours % 256 := Nat.and_two_pow_sub_one_eq_mod hours 8
  have hmod : UInt8.ofNat (hours % 256) = UInt8.ofNat hours := by
    apply UInt8.toNat_inj.mp
    simp [UInt8.toNat_ofNat']
  simp only [hlow, hmod, Nat.shiftRight_eq_div_pow, toBe, toLe, List.reverse_cons,
    List.reverse_nil, List.nil_append, List.cons_append]

theorem appends_writeDate {date : Moment} {version : Version} {count : Nat}
    (h : dateCount version date = some count) :
    Appends (writeDate date version) (dateBytes version count) := by
  cases version with
  | empty => cases h
  | version1 =>
    simp only [dateCount] at h
    simp only [writeDate, h, dateBytes]
    rw [← hours_bytes]
    exact appends_andThen (appends_push _) (appends_push _)
  | version2 | version3 =>
    simp only [dateCount] at h
    simp only [writeDate, h, dateBytes]
    exact appends_push _

theorem writeDate_refuses {date : Moment} {version : Version} (h : dateCount version date = none) :
    ∃ e, Refuses (writeDate date version) e [] := by
  cases version <;> simp only [dateCount] at h <;> simp only [writeDate] <;> try rw [h]
  all_goals exact ⟨_, refuses_refuse _⟩

end OwidRust
