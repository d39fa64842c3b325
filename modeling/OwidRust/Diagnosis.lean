import OwidRust.Framed

/-!
# What is wrong with bytes that are no OWID

Every error of the reads of `src/parse.rs` against the bytes that call for it.

* `DomainFault`, `BodyFault`, `FieldsFault`, `Fault` — the bytes, and what is wrong with them, with no
  read in sight;
* `domainSuffix_eq_error_iff`, `bodySuffix_eq_error_iff`, `fieldsSuffix_eq_error_iff` — each field is
  refused exactly for its faults;
* `reads_fault_iff` — and so are the whole buffer read and the framed read.
-/

namespace OwidRust

open ByteOrder

variable {m : Machine} {extent : Extent} {version : Version} {bytes : List UInt8} {e : ParseError}

/-! ## The faults -/

/-- What is wrong with the bytes a domain begins. -/
inductive DomainFault : List UInt8 → ParseError → Prop
  /-- The bytes end inside the domain. -/
  | unended {bytes : List UInt8} : 0 ∉ bytes → bytes.length ≤ MAXIMUM_DOMAIN_LENGTH →
    DomainFault bytes ⟨.unexpectedEnd, some (.field "the creator domain")⟩
  /-- No domain is so long. -/
  | overlong {text rest : List UInt8} : 0 ∉ text → text.length = MAXIMUM_DOMAIN_LENGTH + 1 →
    DomainFault (text ++ rest)
      ⟨.invalidDomainEncoding, some (.maximumDomainLength MAXIMUM_DOMAIN_LENGTH)⟩
  | encoding {text rest : List UInt8} : 0 ∉ text → text.length ≤ MAXIMUM_DOMAIN_LENGTH →
    (∀ domain, utf8 domain ≠ text) →
    DomainFault (text ++ 0 :: rest)
      ⟨.invalidDomainEncoding, some (.field "the creator domain")⟩

/-- What is wrong with the bytes after a payload length. -/
inductive BodyFault (m : Machine) (declared : Nat) : Extent → List UInt8 → ParseError → Prop
  /-- All there is to read is there, and is not what was declared. -/
  | mismatch {bytes : List UInt8} : bytes.length ≠ declared + SIGNATURE_LENGTH →
    BodyFault m declared .wholeBuffer bytes
      ⟨.byteCountMismatch, some (.byteCounts declared (bytes.length - SIGNATURE_LENGTH))⟩
  /-- The rest of what was declared may still arrive. -/
  | short {bytes : List UInt8} : bytes.length < declared + SIGNATURE_LENGTH →
    BodyFault m declared .prefixOf bytes
      ⟨.unexpectedEnd, some (.byteCounts declared (bytes.length - SIGNATURE_LENGTH))⟩
  /-- What was declared is there, and cannot be held. -/
  | capacity {extent : Extent} {bytes : List UInt8} : declared + SIGNATURE_LENGTH ≤ bytes.length →
    (extent = .wholeBuffer → bytes.length = declared + SIGNATURE_LENGTH) →
    m.reserves declared = false →
    BodyFault m declared extent bytes ⟨.implementationCapacityExceeded, some (.capacity declared)⟩

/-- What is wrong with the bytes after a version. -/
inductive FieldsFault (m : Machine) (extent : Extent) (version : Version) :
    List UInt8 → ParseError → Prop
  | domain {bytes : List UInt8} {e : ParseError} : DomainFault bytes e →
    FieldsFault m extent version bytes e
  | date {domain : String} {part : List UInt8} : DomainOk domain →
    part.length < dateLength version →
    FieldsFault m extent version (utf8 domain ++ 0 :: part)
      ⟨.unexpectedEnd, some (.field "the date")⟩
  | length {domain : String} {count : Nat} {part : List UInt8} : DomainOk domain →
    count < 256 ^ dateLength version → part.length < 4 →
    FieldsFault m extent version (utf8 domain ++ 0 :: (dateBytes version count ++ part))
      ⟨.unexpectedEnd, some (.field "the payload length")⟩
  | body {domain : String} {count declared : Nat} {part : List UInt8} {e : ParseError} :
    DomainOk domain → count < 256 ^ dateLength version → declared ≤ u32Max →
    BodyFault m declared extent part e →
    FieldsFault m extent version
      (utf8 domain ++ 0 :: (dateBytes version count ++ (toLe 4 declared ++ part))) e

/-- What is wrong with the bytes an OWID should begin. -/
inductive Fault (m : Machine) (extent : Extent) : List UInt8 → ParseError → Prop
  | missing : Fault m extent [] ⟨.missingInput, none⟩
  | absent {rest : List UInt8} : Fault m extent (Version.empty.asByte :: rest) ⟨.absentNode, none⟩
  | version {byte : UInt8} {rest : List UInt8} : (∀ version : Version, byte ≠ version.asByte) →
    Fault m extent (byte :: rest) ⟨.unsupportedVersion, some (.versionByte byte)⟩
  | fields {version : Version} {rest : List UInt8} {e : ParseError} : version ≠ .empty →
    FieldsFault m extent version rest e → Fault m extent (version.asByte :: rest) e

/-! ## Each field -/

theorem findTerminator_eq_none_iff : bytes.findIdx? (· == 0) = none ↔ 0 ∉ bytes := by
  rw [List.findIdx?_eq_none_iff]
  constructor
  · intro h hzero
    exact absurd (h 0 hzero) (by decide)
  · intro h b hb
    exact beq_false_of_ne fun hzero => h (hzero ▸ hb)

/-- The first zero byte ends the text before it. -/
theorem findTerminator_of_text {text rest : List UInt8} (h0 : 0 ∉ text)
    (hlen : text.length ≤ MAXIMUM_DOMAIN_LENGTH) :
    ((text ++ 0 :: rest).take (MAXIMUM_DOMAIN_LENGTH + 1)).findIdx? (· == 0) =
      some text.length := by
  have htake : (text ++ 0 :: rest).take (MAXIMUM_DOMAIN_LENGTH + 1) =
      text ++ 0 :: rest.take (MAXIMUM_DOMAIN_LENGTH - text.length) := by
    rw [List.take_append, List.take_of_length_le (by omega),
      show MAXIMUM_DOMAIN_LENGTH + 1 - text.length = MAXIMUM_DOMAIN_LENGTH - text.length + 1 by omega,
      List.take_succ_cons]
  rw [htake, List.findIdx?_append, findTerminator_eq_none_iff.mpr h0]
  simp [List.findIdx?_cons]

theorem domainSuffix_of_fault (h : DomainFault bytes e) : domainSuffix bytes = .error e := by
  cases h with
  | unended h0 hlen =>
    unfold domainSuffix
    rw [List.take_of_length_le (by omega), findTerminator_eq_none_iff.mpr h0]
    simp only [if_neg (not_lt.mpr hlen)]
  | @overlong text rest h0 hlen =>
    have hlong : MAXIMUM_DOMAIN_LENGTH < (text ++ rest).length := by
      rw [List.length_append]
      omega
    unfold domainSuffix
    rw [List.take_left' hlen, findTerminator_eq_none_iff.mpr h0]
    simp only [if_pos hlong]
  | @encoding text rest h0 hlen hnot =>
    have hread : fromUtf8 text = none := by
      rw [Option.eq_none_iff_forall_ne_some]
      intro domain hdomain
      exact hnot domain (fromUtf8_eq_some_iff.mp hdomain)
    unfold domainSuffix
    rw [findTerminator_of_text h0 hlen]
    simp only [List.take_left, hread]

theorem domainFault_of_error (h : domainSuffix bytes = .error e) : DomainFault bytes e := by
  unfold domainSuffix at h
  split at h
  · rename_i hnone
    have h0 := findTerminator_eq_none_iff.mp hnone
    split at h
    · rename_i hlong
      cases h
      have hlen : (bytes.take (MAXIMUM_DOMAIN_LENGTH + 1)).length = MAXIMUM_DOMAIN_LENGTH + 1 := by
        rw [List.length_take]
        omega
      rw [← List.take_append_drop (MAXIMUM_DOMAIN_LENGTH + 1) bytes]
      exact .overlong h0 hlen
    · rename_i hshort
      cases h
      rw [List.take_of_length_le (by omega)] at h0
      exact .unended h0 (not_lt.mp hshort)
  · rename_i terminator hsome
    obtain ⟨hlt, hzero, hbefore⟩ := List.findIdx?_eq_some_iff_getElem.mp hsome
    rw [List.length_take] at hlt
    simp only [List.getElem_take, beq_iff_eq] at hzero hbefore
    split at h
    · cases h
    · rename_i hnot
      cases h
      have h0 : 0 ∉ bytes.take terminator := by
        rw [List.mem_iff_getElem]
        rintro ⟨i, hi, hi0⟩
        rw [List.length_take] at hi
        rw [List.getElem_take] at hi0
        exact hbefore i (by omega) hi0
      have hlen : (bytes.take terminator).length ≤ MAXIMUM_DOMAIN_LENGTH := by
        rw [List.length_take]
        omega
      have htext : ∀ domain, utf8 domain ≠ bytes.take terminator := by
        intro domain hdomain
        rw [fromUtf8_eq_some_iff.mpr hdomain] at hnot
        cases hnot
      have hsplit : bytes = bytes.take terminator ++ 0 :: bytes.drop (terminator + 1) := by
        rw [← hzero, ← List.drop_eq_getElem_cons, List.take_append_drop]
      rw [hsplit]
      exact .encoding h0 hlen htext

/-- **A domain is refused exactly for its faults.** -/
theorem domainSuffix_eq_error_iff : domainSuffix bytes = .error e ↔ DomainFault bytes e :=
  ⟨domainFault_of_error, domainSuffix_of_fault⟩

theorem dateSuffix_eq_error_iff : dateSuffix version bytes = .error e ↔
    bytes.length < dateLength version ∧ e = ⟨.unexpectedEnd, some (.field "the date")⟩ := by
  unfold dateSuffix
  split
  · rename_i h
    simp [h, eq_comm]
  · rename_i h
    simp [h]

theorem lengthSuffix_eq_error_iff : lengthSuffix bytes = .error e ↔
    bytes.length < 4 ∧ e = ⟨.unexpectedEnd, some (.field "the payload length")⟩ := by
  unfold lengthSuffix
  split
  · rename_i h
    simp [h, eq_comm]
  · rename_i h
    simp [h]

/-- **What follows the payload length is refused exactly for its faults**, where the bytes are ones a
slice can hold: the conversion of the declared length to `usize` does not fail. -/
theorem bodySuffix_eq_error_iff {declared : Nat} (hb : m.Holds bytes) :
    bodySuffix m extent declared bytes = .error e ↔ BodyFault m declared extent bytes e := by
  constructor
  · intro h
    simp only [bodySuffix] at h
    split at h
    · rename_i hmismatch
      obtain ⟨rfl, hne⟩ := hmismatch
      cases h
      exact .mismatch fun hlen => hne (by omega)
    rename_i hmatch
    split at h
    · rename_i hshort
      obtain ⟨rfl, hlt⟩ := hshort
      cases h
      exact .short (by omega)
    rename_i hlong
    have hfits := CountsAgree.fits ⟨hmatch, hlong⟩
    split at h
    · rename_i hcapacity
      cases h
      refine .capacity hfits ?_ ?_
      · rintro rfl
        by_contra hne
        exact hmatch ⟨rfl, by omega⟩
      · refine hcapacity.resolve_left (not_lt.mpr ?_)
        unfold Machine.Holds at hb
        omega
    · cases h
  · intro h
    cases h with
    | mismatch hne =>
      simp only [bodySuffix]
      rw [if_pos ⟨trivial, by omega⟩]
    | short hlt =>
      simp only [bodySuffix]
      rw [if_neg (by simp), if_pos ⟨trivial, by omega⟩]
    | capacity hfits hwhole hreserves =>
      simp only [bodySuffix]
      rw [if_neg, if_neg, if_pos (.inr hreserves)]
      · rintro ⟨-, hlt⟩
        omega
      · rintro ⟨rfl, hne⟩
        have := hwhole rfl
        omega

theorem holds_body {domain date length part : List UInt8}
    (hb : m.Holds (domain ++ 0 :: (date ++ (length ++ part)))) : m.Holds part := by
  simp only [Machine.Holds, List.length_append, List.length_cons] at hb ⊢
  omega

/-- **The fields are refused exactly for their faults**, the first field that has one. -/
theorem fieldsSuffix_eq_error_iff (hb : m.Holds bytes) :
    fieldsSuffix m extent version bytes = .error e ↔ FieldsFault m extent version bytes e := by
  constructor
  · intro h
    rw [fieldsSuffix, bind_eq_error_iff] at h
    obtain hdomain | ⟨⟨domain, afterDomain⟩, hdomain, h⟩ := h
    · exact .domain (domainSuffix_eq_error_iff.mp hdomain)
    obtain ⟨hok, rfl⟩ := Frame.domainSuffix_eq_ok hdomain
    simp only [bind_eq_error_iff] at h
    obtain hdate | ⟨⟨date, afterDate⟩, hdate, h⟩ := h
    · obtain ⟨hshort, rfl⟩ := dateSuffix_eq_error_iff.mp hdate
      exact .date hok hshort
    obtain ⟨count, hcount, -, rfl⟩ := Frame.dateSuffix_eq_ok hdate
    obtain hlength | ⟨⟨declared, afterLength⟩, hlength, h⟩ := h
    · obtain ⟨hshort, rfl⟩ := lengthSuffix_eq_error_iff.mp hlength
      exact .length hok hcount hshort
    obtain ⟨hdeclared, rfl⟩ := Frame.lengthSuffix_eq_ok hlength
    obtain hbody | ⟨_, -, h⟩ := h
    · exact .body hok hcount hdeclared ((bodySuffix_eq_error_iff (holds_body hb)).mp hbody)
    · cases h
  · intro h
    cases h with
    | domain hdomain =>
      rw [fieldsSuffix, domainSuffix_of_fault hdomain]
      rfl
    | date hok hshort =>
      simp only [fieldsSuffix, Frame.domainSuffix_append hok, ok_bind,
        dateSuffix_eq_error_iff.mpr ⟨hshort, rfl⟩]
      rfl
    | length hok hcount hshort =>
      simp only [fieldsSuffix, Frame.domainSuffix_append hok, ok_bind,
        Frame.dateSuffix_append _ hcount, lengthSuffix_eq_error_iff.mpr ⟨hshort, rfl⟩]
      rfl
    | body hok hcount hdeclared hfault =>
      have hpart := (bodySuffix_eq_error_iff (holds_body hb)).mpr hfault
      simp only [fieldsSuffix, Frame.domainSuffix_append hok, ok_bind,
        Frame.dateSuffix_append _ hcount, Frame.lengthSuffix_append hdeclared, hpart]
      rfl

/-! ## The reads -/

theorem fault_cons_iff {byte : UInt8} {rest : List UInt8} : Fault m extent (byte :: rest) e ↔
    (byte = Version.empty.asByte ∧ e = ⟨.absentNode, none⟩) ∨
      ((∀ version : Version, byte ≠ version.asByte) ∧
        e = ⟨.unsupportedVersion, some (.versionByte byte)⟩) ∨
      ∃ version, version ≠ .empty ∧ byte = version.asByte ∧
        FieldsFault m extent version rest e := by
  constructor
  · intro h
    cases h with
    | absent => exact .inl ⟨rfl, rfl⟩
    | version hne => exact .inr (.inl ⟨hne, rfl⟩)
    | fields hne h => exact .inr (.inr ⟨_, hne, rfl, h⟩)
  · rintro (⟨rfl, rfl⟩ | ⟨hne, rfl⟩ | ⟨version, hne, rfl, h⟩)
    · exact .absent
    · exact .version hne
    · exact .fields hne h

/-- An OWID is refused exactly for its faults. -/
theorem parseSuffix_eq_error_iff {b : List UInt8} (hb : m.Holds b) :
    parseSuffix m extent b = .error e ↔ Fault m extent b e := by
  cases b with
  | nil =>
    constructor
    · rintro ⟨⟩
      exact .missing
    · rintro ⟨⟩
      rfl
  | cons byte rest =>
    rw [fault_cons_iff]
    have hrest : m.Holds rest := Nat.le_of_succ_le hb
    cases versionByte byte with
    | marker =>
      constructor
      · rintro ⟨⟩
        exact .inl ⟨rfl, rfl⟩
      · rintro (⟨-, rfl⟩ | ⟨hne, -⟩ | ⟨version, hne, hbyte, -⟩)
        · rfl
        · exact absurd rfl (hne .empty)
        · exact absurd hbyte.symm (Version.asByte_ne_empty hne)
    | unsupported hv =>
      have hnone : ∀ version : Version, byte ≠ version.asByte := by
        intro version hbyte
        rw [Version.tryFrom_eq_ok_iff.mpr hbyte] at hv
        cases hv
      rw [parseSuffix_unsupported hv]
      constructor
      · rintro ⟨⟩
        exact .inr (.inl ⟨hnone, rfl⟩)
      · rintro (⟨hbyte, -⟩ | ⟨-, rfl⟩ | ⟨version, -, hbyte, -⟩)
        · exact absurd hbyte (hnone .empty)
        · rfl
        · exact absurd hbyte (hnone version)
    | @version version hne =>
      rw [parseSuffix_version hne, fieldsSuffix_eq_error_iff hrest]
      constructor
      · intro h
        exact .inr (.inr ⟨version, hne, rfl, h⟩)
      · rintro (⟨hbyte, -⟩ | ⟨hnone, -⟩ | ⟨version', -, hbyte, h⟩)
        · exact absurd hbyte (Version.asByte_ne_empty hne)
        · exact absurd rfl (hnone version)
        · rw [Version.asByte_injective hbyte]
          exact h

theorem FieldsFault.status_ne (h : FieldsFault m extent version bytes e) :
    e.status ≠ .absentNode := by
  cases h with
  | domain h => cases h <;> exact ParseStatus.noConfusion
  | date | length => exact ParseStatus.noConfusion
  | body _ _ _ h => cases h <;> exact ParseStatus.noConfusion

/-- The framed read is refused for every other fault. -/
theorem framedSuffix_eq_error_iff {b : List UInt8} (hb : m.Holds b) :
    framedSuffix m b = .error e ↔ Fault m .prefixOf b e ∧ e.status ≠ .absentNode := by
  cases b with
  | nil =>
    constructor
    · rintro ⟨⟩
      exact ⟨.missing, ParseStatus.noConfusion⟩
    · rintro ⟨⟨⟩, -⟩
      rfl
  | cons byte rest =>
    rw [framedSuffix]
    split
    · rename_i hempty
      simp only [reduceCtorEq, false_iff, not_and, not_not]
      intro h
      rcases fault_cons_iff.mp h with ⟨-, rfl⟩ | ⟨hnone, -⟩ | ⟨version, hne, hbyte, -⟩
      · rfl
      · exact absurd hempty (hnone .empty)
      · exact absurd (hbyte.symm.trans hempty) (Version.asByte_ne_empty hne)
    · rename_i hbyte
      have hstatus : Fault m .prefixOf (byte :: rest) e → e.status ≠ .absentNode := by
        intro h
        rcases fault_cons_iff.mp h with ⟨hempty, -⟩ | ⟨-, rfl⟩ | ⟨version, -, -, h⟩
        · exact absurd hempty hbyte
        · exact ParseStatus.noConfusion
        · exact h.status_ne
      rw [bind_eq_error_iff, parseSuffix_eq_error_iff hb]
      simp only [reduceCtorEq, and_false, exists_false, or_false]
      exact ⟨fun h => ⟨h, hstatus h⟩, And.left⟩

/-- **Every read fails exactly for the fault of its bytes**: what it answers, the field it names and
the counts it gives are those of the one thing that is wrong with them.  The framed read takes the
marker of an absent node, and has no fault for it. -/
theorem reads_fault_iff {b : List UInt8} (hb : m.Holds b) (e : ParseError) :
    (Owid.fromByteArray m b = .error (.fail e) ↔ Fault m .wholeBuffer b e) ∧
      (Owid.readFromPrefix m b = .error (.fail e) ↔
        Fault m .prefixOf b e ∧ e.status ≠ .absentNode) := by
  constructor
  · rw [fromByteArray_eq hb, Chunks.mapError_eq_error, ← parseSuffix_eq_error_iff hb]
    simp [bind_eq_error_iff]
  · rw [readFromPrefix_eq hb, Chunks.mapError_eq_error, ← framedSuffix_eq_error_iff hb]
    simp

/-- A domain that has not ended, which neither read takes. -/
theorem reads_fault_iff_sample :
    Owid.fromByteArray machine64 [3, 97, 98] =
        .error (.fail ⟨.unexpectedEnd, some (.field "the creator domain")⟩) ∧
      Owid.readFromPrefix machine64 [3, 97, 98] =
        .error (.fail ⟨.unexpectedEnd, some (.field "the creator domain")⟩) := by
  have hfields : ∀ extent, FieldsFault machine64 extent .version3 [97, 98]
      ⟨.unexpectedEnd, some (.field "the creator domain")⟩ := fun extent =>
    .domain (.unended (by decide) (by decide))
  have hfault : ∀ extent, Fault machine64 extent [3, 97, 98]
      ⟨.unexpectedEnd, some (.field "the creator domain")⟩ := fun extent =>
    .fields Version.noConfusion (hfields extent)
  obtain ⟨hwhole, hframed⟩ := reads_fault_iff (m := machine64) (b := [3, 97, 98]) (by decide)
    ⟨.unexpectedEnd, some (.field "the creator domain")⟩
  exact ⟨hwhole.mpr (hfault .wholeBuffer),
    hframed.mpr ⟨hfault .prefixOf, ParseStatus.noConfusion⟩⟩

end OwidRust
