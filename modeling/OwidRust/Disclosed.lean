import OwidRust.Framed
import OwidRust.Lib.TwoRuns

/-!
# What a parse failure discloses

Two buffers that agree in length, in the version byte, in where the domain ends and whether it is a
text, and in the payload length fail alike, whatever else they hold.

* `agree_domainSuffix`, `agree_dateSuffix`, `agree_lengthSuffix`, `agree_bodySuffix` — what each
  field tells of its bytes when it stops;
* `failures_disclose` — so the two reads fail with one error on both.
-/

namespace OwidRust

open TwoRuns

variable {m : Machine}

/-- Where the first zero byte stands in the 254 bytes the search of the domain goes through. -/
def firstZero (bytes : List UInt8) : Option Nat :=
  (bytes.take (MAXIMUM_DOMAIN_LENGTH + 1)).findIdx? (· == 0)

/-- What a failure may tell of a buffer: its length, its first byte, where the first zero byte after
that one stands, whether the bytes before it are a text, and, where they are there, the four bytes of the
payload length that the version and the domain put behind the date. -/
structure Alike (b b' : List UInt8) : Prop where
  length : b.length = b'.length
  first : b.head? = b'.head?
  zero : firstZero b.tail = firstZero b'.tail
  text : ∀ t, firstZero b.tail = some t →
    ((fromUtf8 (b.tail.take t)).isSome ↔ (fromUtf8 (b'.tail.take t)).isSome)
  declared : ∀ (version : Version) (t : Nat), b.head? = some version.asByte →
    firstZero b.tail = some t → (fromUtf8 (b.tail.take t)).isSome →
    t + 1 + dateLength version + 4 ≤ b.tail.length →
      (b.tail.drop (t + 1 + dateLength version)).take 4 =
        (b'.tail.drop (t + 1 + dateLength version)).take 4

/-! ## Field by field -/

section Fields

variable {bytes bytes' : List UInt8}

theorem agree_domainSuffix (hlength : bytes.length = bytes'.length)
    (hzero : firstZero bytes = firstZero bytes')
    (htext : ∀ t, firstZero bytes = some t →
      ((fromUtf8 (bytes.take t)).isSome ↔ (fromUtf8 (bytes'.take t)).isSome)) :
    Agree (fun p p' => ∃ t, firstZero bytes = some t ∧ (fromUtf8 (bytes.take t)).isSome ∧
      p.2 = bytes.drop (t + 1) ∧ p'.2 = bytes'.drop (t + 1))
      (domainSuffix bytes) (domainSuffix bytes') := by
  have hbytes : (bytes.take (MAXIMUM_DOMAIN_LENGTH + 1)).findIdx? (· == 0) = firstZero bytes := rfl
  have hbytes' : (bytes'.take (MAXIMUM_DOMAIN_LENGTH + 1)).findIdx? (· == 0) = firstZero bytes :=
    hzero.symm
  unfold domainSuffix
  rw [hbytes, hbytes']
  cases hfirst : firstZero bytes with
  | none =>
    simp only [hlength]
    split
    · exact .error _
    · exact .error _
  | some t =>
    have hsome := htext t hfirst
    simp only
    cases hd : fromUtf8 (bytes.take t) with
    | none =>
      cases hd' : fromUtf8 (bytes'.take t) with
      | none => exact .error _
      | some domain' =>
        rw [hd, hd'] at hsome
        simp at hsome
    | some domain =>
      cases hd' : fromUtf8 (bytes'.take t) with
      | none =>
        rw [hd, hd'] at hsome
        simp at hsome
      | some domain' => exact .ok ⟨t, rfl, by rw [hd]; rfl, rfl, rfl⟩

theorem agree_dateSuffix (version : Version) (hlength : bytes.length = bytes'.length) :
    Agree (fun p p' => p.2 = bytes.drop (dateLength version) ∧
      p'.2 = bytes'.drop (dateLength version))
      (dateSuffix version bytes) (dateSuffix version bytes') :=
  Agree.ite (by rw [hlength]) (fun _ => .error _) fun _ => .ok ⟨rfl, rfl⟩

theorem agree_lengthSuffix (hlength : bytes.length = bytes'.length)
    (hdeclared : 4 ≤ bytes.length → bytes.take 4 = bytes'.take 4) :
    Agree (fun p p' => p.1 = p'.1 ∧ p.2.length = p'.2.length)
      (lengthSuffix bytes) (lengthSuffix bytes') := by
  refine Agree.ite (by rw [hlength]) (fun _ => .error _) fun hlong => .ok ⟨?_, ?_⟩
  · rw [hdeclared (Nat.le_of_not_lt hlong)]
  · rw [List.length_drop, List.length_drop, hlength]

theorem agree_bodySuffix (extent : Extent) (declared : Nat)
    (hlength : bytes.length = bytes'.length) :
    Agree (fun _ _ => True) (bodySuffix m extent declared bytes)
      (bodySuffix m extent declared bytes') := by
  simp only [bodySuffix, hlength]
  refine Agree.ite Iff.rfl (fun _ => .error _) fun _ => ?_
  refine Agree.ite Iff.rfl (fun _ => .error _) fun _ => ?_
  exact Agree.ite Iff.rfl (fun _ => .error _) fun _ => .ok trivial

theorem agree_fieldsSuffix (extent : Extent) (version : Version)
    (hlength : bytes.length = bytes'.length) (hzero : firstZero bytes = firstZero bytes')
    (htext : ∀ t, firstZero bytes = some t →
      ((fromUtf8 (bytes.take t)).isSome ↔ (fromUtf8 (bytes'.take t)).isSome))
    (hdeclared : ∀ t, firstZero bytes = some t → (fromUtf8 (bytes.take t)).isSome →
      t + 1 + dateLength version + 4 ≤ bytes.length →
      (bytes.drop (t + 1 + dateLength version)).take 4 =
        (bytes'.drop (t + 1 + dateLength version)).take 4) :
    Agree (fun _ _ => True) (fieldsSuffix m extent version bytes)
      (fieldsSuffix m extent version bytes') := by
  refine (agree_domainSuffix hlength hzero htext).bind ?_
  rintro ⟨domain, afterDomain⟩ ⟨domain', afterDomain'⟩ ⟨t, ht, hsome, rfl, rfl⟩
  refine (agree_dateSuffix version (by simp [hlength])).bind ?_
  rintro ⟨date, afterDate⟩ ⟨date', afterDate'⟩ ⟨rfl, rfl⟩
  refine (agree_lengthSuffix (by simp [hlength]) ?_).bind ?_
  · simp only [List.drop_drop, List.length_drop]
    exact fun hlong => hdeclared t ht hsome (by omega)
  rintro ⟨declared, body⟩ ⟨declared', body'⟩ ⟨rfl, hbody⟩
  refine (agree_bodySuffix extent declared hbody).bind ?_
  exact fun _ _ _ => .ok trivial

end Fields

/-! ## The two reads -/

/-- **Buffers that agree in what may be told of them fail alike.** -/
theorem agree_parseSuffix (extent : Extent) {b b' : List UInt8} (h : Alike b b') :
    Agree (fun _ _ => True) (parseSuffix m extent b) (parseSuffix m extent b') := by
  cases b with
  | nil =>
    have hnil : b' = [] := List.length_eq_zero_iff.mp h.length.symm
    rw [hnil]
    exact .error _
  | cons byte bytes =>
    cases b' with
    | nil => exact absurd h.length (by simp)
    | cons byte' bytes' =>
      have hbyte : byte = byte' := by simpa using h.first
      subst hbyte
      have hlength : bytes.length = bytes'.length := by simpa using h.length
      cases versionByte byte with
      | marker => exact .error _
      | unsupported hv =>
        rw [parseSuffix_unsupported hv, parseSuffix_unsupported hv]
        exact .error _
      | @version version hne =>
        rw [parseSuffix_version hne, parseSuffix_version hne]
        exact agree_fieldsSuffix extent version hlength h.zero h.text
          fun t => h.declared version t rfl

theorem agree_framedSuffix {b b' : List UInt8} (h : Alike b b') :
    Agree (fun _ _ => True) (framedSuffix m b) (framedSuffix m b') := by
  cases b with
  | nil =>
    have hnil : b' = [] := List.length_eq_zero_iff.mp h.length.symm
    rw [hnil]
    exact .error _
  | cons byte bytes =>
    cases b' with
    | nil => exact absurd h.length (by simp)
    | cons byte' bytes' =>
      have hbyte : byte = byte' := by simpa using h.first
      subst hbyte
      exact Agree.ite Iff.rfl (fun _ => .ok trivial)
        fun _ => (agree_parseSuffix .prefixOf h).bind fun _ _ _ => .ok trivial

/-- **A parse failure tells nothing of a buffer but its length, its version byte, where its domain
ends and whether it is a text, and its payload length.**  Two buffers that agree in these fail with
one error, or neither fails, under both reads. -/
theorem failures_disclose {b b' : List UInt8} (hb : m.Holds b) (h : Alike b b') :
    (∀ e, Owid.fromByteArray m b = .error e ↔ Owid.fromByteArray m b' = .error e) ∧
      ∀ e, Owid.readFromPrefix m b = .error e ↔ Owid.readFromPrefix m b' = .error e := by
  have hb' : m.Holds b' := by
    rw [Machine.Holds, ← h.length]
    exact hb
  rw [fromByteArray_eq hb, fromByteArray_eq hb', readFromPrefix_eq hb, readFromPrefix_eq hb']
  have hwhole : Agree (fun _ _ => True) (parseSuffix m .wholeBuffer b >>= fun p => .ok p.1)
      (parseSuffix m .wholeBuffer b' >>= fun p => .ok p.1) :=
    (agree_parseSuffix .wholeBuffer h).bind fun _ _ _ => .ok trivial
  exact ⟨(hwhole.mapError Stop.fail).eq_error_iff,
    ((agree_framedSuffix h).mapError Stop.fail).eq_error_iff⟩

/-- An OWID of the domain `ab` with a byte after it. -/
def disclosedBytes : List UInt8 :=
  [3, 97, 98, 0, 1, 0, 0, 0, 2, 0, 0, 0, 7, 8] ++ List.replicate 65 9

/-- One as long, of another domain, date, payload and signature. -/
def alikeBytes : List UInt8 :=
  [3, 99, 100, 0, 5, 6, 7, 8, 2, 0, 0, 0, 1, 2] ++ List.replicate 65 4

theorem alike_alikeBytes : Alike disclosedBytes alikeBytes := by
  have hzero : firstZero disclosedBytes.tail = some 2 := by decide
  refine ⟨by decide, by decide, by decide, ?_, ?_⟩
  · intro t ht
    rw [hzero, Option.some.injEq] at ht
    subst ht
    exact iff_of_true (by decide +kernel) (by decide +kernel)
  · intro version t hversion ht _ _
    rw [hzero, Option.some.injEq] at ht
    subst ht
    cases version with
    | version3 => decide
    | empty | version1 | version2 => exact absurd hversion (by decide)

theorem failures_disclose_sample : Owid.fromByteArray machine64 disclosedBytes =
    .error (.fail ⟨.byteCountMismatch, some (.byteCounts 2 3)⟩) := by
  have hother : Owid.fromByteArray machine64 alikeBytes =
      .error (.fail ⟨.byteCountMismatch, some (.byteCounts 2 3)⟩) := by decide +kernel
  exact ((failures_disclose (by decide) alike_alikeBytes).1 _).mpr hother

end OwidRust
