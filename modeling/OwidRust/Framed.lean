import OwidRust.Frame
import OwidRust.Lib.Chunks

/-!
# The framed read

`read_from_prefix` beside `from_byte_array`: the one takes a frame off the front of a source that
may still be arriving, the other reads an OWID that is the whole buffer.

* `readFromPrefix_eq`, `fromByteArray_eq` — both without offsets;
* `framing_framedSuffix` — more bytes change neither a frame read nor a final error;
* `twoReads` — the six ways the two reads of one buffer go;
* `readFromPrefix_stable` — a source that arrives in chunks is read as the whole would be;
* `twoReads_differ` — what the two reads answer differently.
-/

namespace OwidRust

open Chunks

variable {m : Machine}

/-- One frame off the front of the bytes, with what follows it. -/
def framedSuffix (m : Machine) : Reader ParseError UInt8 (Option Owid)
  | [] => .error ⟨.missingInput, none⟩
  | byte :: rest =>
    if byte = Version.empty.asByte then .ok (none, rest)
    else parseSuffix m .prefixOf (byte :: rest) >>= fun p => .ok (some p.1, p.2)

theorem framedSuffix_version {version : Version} (hne : version ≠ .empty) (bytes : List UInt8) :
    framedSuffix m (version.asByte :: bytes) =
      fieldsSuffix m .prefixOf version bytes >>= fun p => .ok (some p.1, p.2) := by
  rw [framedSuffix, if_neg (Version.asByte_ne_empty hne), parseSuffix_version hne]

theorem framedSuffix_unsupported {byte : UInt8} {e : Error} (hv : Version.tryFrom byte = .error e)
    (bytes : List UInt8) :
    framedSuffix m (byte :: bytes) =
      .error ⟨.unsupportedVersion, some (.versionByte byte)⟩ := by
  have hne : byte ≠ Version.empty.asByte := by
    rintro rfl
    cases hv
  rw [framedSuffix, if_neg hne, parseSuffix_unsupported hv]
  rfl

theorem framedSuffix_eq_some {b rest : List UInt8} {o : Owid}
    (h : framedSuffix m b = .ok (some o, rest)) : ∃ f : Frame, b = f.bytes ++ rest ∧ o = f.owid := by
  cases b with
  | nil => cases h
  | cons byte bytes =>
    rw [framedSuffix] at h
    split at h
    · cases h
    · obtain ⟨⟨o', rest'⟩, hs, h⟩ := bind_eq_ok h
      cases h
      obtain ⟨f, hbytes, howid, -⟩ := Frame.parseSuffix_eq_ok hs
      exact ⟨f, hbytes, howid⟩

/-- The bytes of a frame are taken off the front as its OWID. -/
theorem framedSuffix_bytes (f : Frame) (hm : m.Provides f.payload.length) (rest : List UInt8) :
    framedSuffix m (f.bytes ++ rest) = .ok (some f.owid, rest) := by
  have hread : parseSuffix m .prefixOf (f.bytes ++ rest) = .ok (f.owid, rest) :=
    Frame.parseSuffix_bytes f hm (by simp)
  rw [f.bytes_append] at hread ⊢
  rw [framedSuffix, if_neg (Version.asByte_ne_empty f.version_ne), hread]
  rfl

theorem readFromPrefix_eq {b : List UInt8} (hb : m.Holds b) :
    Owid.readFromPrefix m b = (framedSuffix m b).mapError .fail := by
  cases b with
  | nil => rfl
  | cons byte rest =>
    have hbyte : (index (byte :: rest) 0 : Checked ParseError UInt8) = .ok byte := rfl
    unfold Owid.readFromPrefix parsePrefix framedSuffix
    simp only [List.isEmpty_cons, Bool.false_eq_true, if_false, hbyte, ok_bind]
    by_cases hempty : byte = Version.empty.asByte
    · rw [if_pos hempty, if_pos hempty]
      rfl
    rw [if_neg hempty, if_neg hempty]
    have hw := parseOne_eq .prefixOf hb
    cases hs : parseSuffix m .prefixOf (byte :: rest) with
    | error e =>
      rw [hs] at hw
      simp only [Walks] at hw
      rw [hw]
      rfl
    | ok p =>
      rw [hs] at hw
      obtain ⟨used, hbytes, hone⟩ := hw
      rw [hone, ok_bind, hbytes]
      simp only [sliceFrom_of_eq rfl rfl]
      rfl

/-- A frame is read off the front of anything that begins with it. -/
theorem Frame.readFromPrefix_bytes (f : Frame) (hr : m.reserves f.payload.length = true)
    {rest : List UInt8} (hm : m.Holds (f.bytes ++ rest)) :
    Owid.readFromPrefix m (f.bytes ++ rest) = .ok (some f.owid, rest) := by
  have hle : f.payload.length ≤ m.usizeMax := by
    rw [Machine.Holds, List.length_append] at hm
    have hpayload := f.length_payload_le.trans f.length_head_le
    omega
  rw [readFromPrefix_eq hm, framedSuffix_bytes f ⟨hle, hr⟩]
  rfl

theorem fromByteArray_eq {b : List UInt8} (hb : m.Holds b) :
    Owid.fromByteArray m b =
      (parseSuffix m .wholeBuffer b >>= fun p => .ok p.1).mapError .fail := by
  have hw := parseOne_eq .wholeBuffer hb
  unfold Owid.fromByteArray parseExact
  cases hs : parseSuffix m .wholeBuffer b with
  | error e =>
    rw [hs] at hw
    simp only [Walks] at hw
    rw [hw]
    rfl
  | ok p =>
    obtain ⟨o, rest⟩ := p
    rw [hs] at hw
    obtain ⟨used, hbytes, hone⟩ := hw
    obtain ⟨f, -, -, hrest⟩ := Frame.parseSuffix_eq_ok hs
    rw [hrest rfl, List.append_nil] at hbytes
    rw [hone, ok_bind, hbytes]
    simp only [if_true]
    rfl

/-! ## More bytes -/

/-- The errors that a caller reading a source still arriving waits on. -/
def ParseError.waits (e : ParseError) : Bool :=
  e.status == .missingInput || e.status == .unexpectedEnd

/-- The terminator found in the window is the one found with more bytes behind it. -/
theorem findTerminator_append {b : List UInt8} {terminator : Nat}
    (hf : (b.take (MAXIMUM_DOMAIN_LENGTH + 1)).findIdx? (· == 0) = some terminator)
    (x : List UInt8) :
    terminator < b.length ∧
      ((b ++ x).take (MAXIMUM_DOMAIN_LENGTH + 1)).findIdx? (· == 0) = some terminator := by
  obtain ⟨hlt, -⟩ := List.findIdx?_eq_some_iff_getElem.mp hf
  rw [List.length_take] at hlt
  refine ⟨by omega, ?_⟩
  rw [List.take_append, List.findIdx?_append, hf]
  rfl

theorem stable_domainSuffix {bound : Nat} : Stable domainSuffix ParseError.waits bound := by
  refine ⟨?_, ?_, ?_⟩
  · intro b a r _ h
    obtain ⟨-, rfl⟩ := Frame.domainSuffix_eq_ok h
    simp only [List.length_append, List.length_cons]
    omega
  · intro b a r x _ h
    unfold domainSuffix at h ⊢
    cases hf : (b.take (MAXIMUM_DOMAIN_LENGTH + 1)).findIdx? (· == 0) with
    | none =>
      rw [hf] at h
      simp only at h
      split at h <;> cases h
    | some terminator =>
      obtain ⟨hlt, hf'⟩ := findTerminator_append hf x
      simp only [hf, hf'] at h ⊢
      rw [List.take_append_of_le_length hlt.le, List.drop_append_of_le_length hlt]
      cases hd : fromUtf8 (b.take terminator) with
      | none => rw [hd] at h; cases h
      | some domain =>
        rw [hd] at h
        cases h
        rfl
  · intro b e x _ h hw
    unfold domainSuffix at h ⊢
    cases hf : (b.take (MAXIMUM_DOMAIN_LENGTH + 1)).findIdx? (· == 0) with
    | none =>
      rw [hf] at h
      simp only at h
      split at h
      · rename_i hlen
        cases h
        have htake : (b ++ x).take (MAXIMUM_DOMAIN_LENGTH + 1) =
            b.take (MAXIMUM_DOMAIN_LENGTH + 1) := List.take_append_of_le_length hlen
        rw [htake, hf]
        simp only
        rw [if_pos (by rw [List.length_append]; omega)]
      · cases h
        cases hw
    | some terminator =>
      obtain ⟨hlt, hf'⟩ := findTerminator_append hf x
      simp only [hf, hf'] at h ⊢
      rw [List.take_append_of_le_length hlt.le]
      cases hd : fromUtf8 (b.take terminator) with
      | none =>
        rw [hd] at h
        exact h
      | some domain => rw [hd] at h; cases h

theorem stable_bodySuffix (declared : Nat) {bound : Nat} :
    Stable (bodySuffix m .prefixOf declared) ParseError.waits bound := by
  refine ⟨?_, ?_, ?_⟩
  · intro b a r _ h
    obtain ⟨payload, signature⟩ := a
    obtain ⟨rfl, -⟩ := Frame.bodySuffix_eq_ok h
    simp only [List.length_append]
    omega
  · intro b a r x _ h
    simp only [bodySuffix, reduceCtorEq, false_and, if_false, true_and] at h ⊢
    split at h
    · cases h
    rename_i hpresent
    split at h
    · cases h
    rename_i hcap
    cases h
    have hfits : declared + SIGNATURE_LENGTH ≤ b.length := by omega
    rw [if_neg (by rw [List.length_append]; omega), if_neg hcap,
      List.take_append_of_le_length (by omega), List.drop_append_of_le_length (by omega),
      List.drop_append_of_le_length hfits, List.take_append_of_le_length]
    rw [List.length_drop]
    omega
  · intro b e x _ h hw
    simp only [bodySuffix, reduceCtorEq, false_and, if_false, true_and] at h ⊢
    split at h
    · cases h
      cases hw
    rename_i hpresent
    split at h
    · rename_i hcap
      cases h
      rw [if_neg (by rw [List.length_append]; omega), if_pos hcap]
    · cases h

theorem stable_dateSuffix (version : Version) {bound : Nat} :
    Stable (dateSuffix version) ParseError.waits bound := by
  unfold dateSuffix
  exact stable_fixed (dateLength version) rfl fun bytes => countDate version (countOf version bytes)

theorem stable_lengthSuffix {bound : Nat} : Stable lengthSuffix ParseError.waits bound := by
  unfold lengthSuffix
  exact stable_fixed 4 rfl ByteOrder.ofLe

theorem stable_fieldsSuffix (version : Version) {bound : Nat} :
    Stable (fieldsSuffix m .prefixOf version) ParseError.waits bound :=
  stable_domainSuffix.bind fun domain => (stable_dateSuffix version).bind fun date =>
    stable_lengthSuffix.bind fun declared => (stable_bodySuffix declared).bind fun body =>
      stable_pure (⟨version, domain, date, body.1, body.2⟩ : Owid)

/-! ## One buffer, two reads -/

/-- An error of the fields up to the declared length. -/
structure ParseError.BeforeBody (e : ParseError) : Prop where
  status : e.status = .unexpectedEnd ∨ e.status = .invalidDomainEncoding
  detail : ∀ declared present, e.detail ≠ some (.byteCounts declared present)

theorem ParseError.BeforeBody.status_ne {e : ParseError} (h : e.BeforeBody) {status : ParseStatus}
    (hend : status ≠ .unexpectedEnd) (hdomain : status ≠ .invalidDomainEncoding) :
    e.status ≠ status := by
  rcases h.status with heq | heq
  · rw [heq]
    exact hend.symm
  · rw [heq]
    exact hdomain.symm

theorem beforeBody_domainSuffix {bytes : List UInt8} {e : ParseError}
    (h : domainSuffix bytes = .error e) : e.BeforeBody := by
  unfold domainSuffix at h
  split at h
  · split at h
    · cases h
      exact ⟨.inr rfl, by simp⟩
    · cases h
      exact ⟨.inl rfl, by simp⟩
  · split at h
    · cases h
    · cases h
      exact ⟨.inr rfl, by simp⟩

theorem beforeBody_dateSuffix {version : Version} {bytes : List UInt8} {e : ParseError}
    (h : dateSuffix version bytes = .error e) : e.BeforeBody := by
  unfold dateSuffix at h
  split at h
  · cases h
    exact ⟨.inl rfl, by simp⟩
  · cases h

theorem beforeBody_lengthSuffix {bytes : List UInt8} {e : ParseError}
    (h : lengthSuffix bytes = .error e) : e.BeforeBody := by
  unfold lengthSuffix at h
  split at h
  · cases h
    exact ⟨.inl rfl, by simp⟩
  · cases h

/-- Up to the declared length the two reads are one: they fail alike, or compare the same count
with the same bytes. -/
theorem fieldsSuffix_cases (m : Machine) (version : Version) (bytes : List UInt8) :
    (∃ e : ParseError, e.BeforeBody ∧
      ∀ extent, fieldsSuffix m extent version bytes = .error e) ∨
    ∃ (build : List UInt8 → List UInt8 → Owid) (declared : Nat) (body : List UInt8),
      body.length ≤ bytes.length ∧ ∀ extent, fieldsSuffix m extent version bytes =
        bodySuffix m extent declared body >>= fun p => .ok (build p.1.1 p.1.2, p.2) := by
  cases hdomain : domainSuffix bytes with
  | error e =>
    refine .inl ⟨e, beforeBody_domainSuffix hdomain, ?_⟩
    intro extent
    rw [fieldsSuffix, hdomain]
    rfl
  | ok d =>
    cases hdate : dateSuffix version d.2 with
    | error e =>
      refine .inl ⟨e, beforeBody_dateSuffix hdate, ?_⟩
      intro extent
      simp only [fieldsSuffix, hdomain, ok_bind, hdate]
      rfl
    | ok t =>
      cases hlength : lengthSuffix t.2 with
      | error e =>
        refine .inl ⟨e, beforeBody_lengthSuffix hlength, ?_⟩
        intro extent
        simp only [fieldsSuffix, hdomain, ok_bind, hdate, hlength]
        rfl
      | ok l =>
        have hd := stable_domainSuffix.left le_rfl hdomain
        have ht := (stable_dateSuffix version).left le_rfl hdate
        have hl := stable_lengthSuffix.left le_rfl hlength
        refine .inr ⟨fun payload signature => ⟨version, d.1, t.1, payload, signature⟩, l.1, l.2,
          hl.trans (ht.trans hd), ?_⟩
        intro extent
        simp only [fieldsSuffix, hdomain, ok_bind, hdate, hlength]
        rfl

/-- An error both reads answer with. -/
structure ParseError.Common (e : ParseError) : Prop where
  status_absent : e.status ≠ .absentNode
  status_mismatch : e.status ≠ .byteCountMismatch
  detail : ∀ declared present, e.detail ≠ some (.byteCounts declared present)

/-- How the whole buffer read and the framed read of one buffer go. -/
inductive TwoReads (m : Machine) :
    List UInt8 → Except ParseError Owid → Except ParseError (Option Owid × List UInt8) → Prop
  | exact {b} (o : Owid) : TwoReads m b (.ok o) (.ok (some o, []))
  | marker (rest : List UInt8) :
    TwoReads m (Version.empty.asByte :: rest) (.error ⟨.absentNode, none⟩) (.ok (none, rest))
  | followed {b} (o : Owid) {rest : List UInt8} {declared : Nat} {present : Int} :
    rest ≠ [] → declared < present →
    TwoReads m b (.error ⟨.byteCountMismatch, some (.byteCounts declared present)⟩)
      (.ok (some o, rest))
  | short {b} {declared : Nat} {present : Int} :
    present < declared →
    TwoReads m b (.error ⟨.byteCountMismatch, some (.byteCounts declared present)⟩)
      (.error ⟨.unexpectedEnd, some (.byteCounts declared present)⟩)
  | unheld {b} {declared : Nat} {present : Int} :
    declared < present → present ≤ b.length → ¬ m.Provides declared →
    TwoReads m b (.error ⟨.byteCountMismatch, some (.byteCounts declared present)⟩)
      (.error ⟨.implementationCapacityExceeded, some (.capacity declared)⟩)
  | alike {b} {e : ParseError} : e.Common → TwoReads m b (.error e) (.error e)

theorem twoReads_body (m : Machine) {b body : List UInt8} (hb : body.length ≤ b.length)
    (build : List UInt8 → List UInt8 → Owid) (declared : Nat) :
    TwoReads m b
      (bodySuffix m .wholeBuffer declared body >>= fun p => .ok (build p.1.1 p.1.2))
      (bodySuffix m .prefixOf declared body >>= fun p => .ok (some (build p.1.1 p.1.2), p.2)) := by
  unfold bodySuffix
  simp only [reduceCtorEq, false_and, if_false, true_and]
  have hcap : (m.usizeMax < declared ∨ m.reserves declared = false) ↔ ¬ m.Provides declared := by
    rw [Machine.Provides, not_and_or, not_le, Bool.not_eq_true]
  rcases lt_trichotomy ((body.length : Int) - SIGNATURE_LENGTH) declared with hlt | heq | hgt
  · rw [if_pos (ne_of_lt hlt), if_pos hlt]
    exact .short hlt
  · rw [if_neg (not_not.mpr heq), if_neg (not_lt.mpr heq.ge)]
    by_cases hprovides : m.usizeMax < declared ∨ m.reserves declared = false
    · rw [if_pos hprovides]
      exact .alike ⟨by simp, by simp, by simp⟩
    · rw [if_neg hprovides]
      have hend : body.drop (declared + SIGNATURE_LENGTH) = [] :=
        List.drop_eq_nil_of_le (by omega)
      rw [hend]
      exact .exact _
  · rw [if_pos (ne_of_gt hgt), if_neg (not_lt.mpr hgt.le)]
    by_cases hprovides : m.usizeMax < declared ∨ m.reserves declared = false
    · rw [if_pos hprovides]
      exact .unheld hgt (by omega) (hcap.mp hprovides)
    · rw [if_neg hprovides]
      refine .followed _ ?_ hgt
      intro hend
      rw [List.drop_eq_nil_iff] at hend
      omega

/-- **The six ways the two reads of one buffer go.** -/
theorem twoReads (m : Machine) (b : List UInt8) :
    TwoReads m b (parseSuffix m .wholeBuffer b >>= fun p => .ok p.1) (framedSuffix m b) := by
  cases b with
  | nil => exact .alike ⟨by simp, by simp, by simp⟩
  | cons byte bytes =>
    cases versionByte byte with
    | marker => exact .marker bytes
    | unsupported hv =>
      rw [framedSuffix_unsupported hv, parseSuffix_unsupported hv]
      exact .alike ⟨by simp, by simp, by simp⟩
    | @version version hne =>
      rw [framedSuffix_version hne, parseSuffix_version hne]
      obtain ⟨e, hbefore, hfields⟩ | ⟨build, declared, body, hle, hfields⟩ :=
        fieldsSuffix_cases m version bytes
      · rw [hfields, hfields]
        exact .alike ⟨hbefore.status_ne (by decide) (by decide),
          hbefore.status_ne (by decide) (by decide), hbefore.detail⟩
      · rw [hfields, hfields]
        simp only [bind_assoc, ok_bind]
        exact twoReads_body m (Nat.le_succ_of_le hle) build declared

/-- **More bytes change neither a frame read nor an error that does not ask for more.** -/
theorem framing_framedSuffix {bound : Nat} : Framing (framedSuffix m) ParseError.waits bound := by
  refine framing_cons rfl rfl ?_
  intro byte
  cases versionByte byte with
  | marker => exact stable_pure none
  | unsupported hv =>
    simp only [framedSuffix_unsupported hv]
    exact stable_stop _
  | @version version hne =>
    simp only [framedSuffix_version hne]
    exact (stable_fieldsSuffix version).bind fun o => stable_pure (some o)

/-- `read_from_prefix` asks for more as the read without offsets does. -/
def waitsForMore : Stop ParseError → Bool
  | .panic => false
  | .fail e => e.waits

theorem framing_readFromPrefix : Framing (Owid.readFromPrefix m) waitsForMore m.usizeMax :=
  framing_framedSuffix.congr .fail (fun _ => rfl) fun _ hb => readFromPrefix_eq hb

/-- Only nothing at all is missing input. -/
theorem framedSuffix_ne_missingInput {byte : UInt8} {bytes : List UInt8} {e : ParseError}
    (h : framedSuffix m (byte :: bytes) = .error e) : e.status ≠ .missingInput := by
  cases versionByte byte with
  | marker => cases h
  | unsupported hv =>
    rw [framedSuffix_unsupported hv] at h
    cases h
    simp
  | @version version hne =>
    rw [framedSuffix_version hne] at h
    obtain ⟨e', hbefore, hfields⟩ | ⟨build, declared, body, -, hfields⟩ :=
      fieldsSuffix_cases m version bytes
    · rw [hfields] at h
      cases h
      exact hbefore.status_ne (by decide) (by decide)
    · rw [hfields] at h
      simp only [bodySuffix, reduceCtorEq, false_and, if_false, true_and] at h
      split at h
      · cases h
        simp
      split at h <;> cases h
      simp

theorem status_of_waits {b : List UInt8} {e : ParseError} (h : framedSuffix m b = .error e)
    (hw : e.waits = true) : e.status = if b.isEmpty then .missingInput else .unexpectedEnd := by
  cases b with
  | nil =>
    cases h
    rfl
  | cons byte bytes =>
    have hne := framedSuffix_ne_missingInput h
    simpa [ParseError.waits, hne] using hw

/-- **The framed read is stable under more bytes arriving.**  A frame read and a final error stay
what they were, a frame that takes bytes which had not arrived was waited for, and so a source that
arrives in chunks is read as the whole of it would be. -/
theorem readFromPrefix_stable (m : Machine) :
    (∀ b x f r, m.Holds (b ++ x) → Owid.readFromPrefix m b = .ok (f, r) →
      Owid.readFromPrefix m (b ++ x) = .ok (f, r ++ x)) ∧
    (∀ b x e, m.Holds (b ++ x) → Owid.readFromPrefix m b = .error (.fail e) →
      e.status ≠ .missingInput → e.status ≠ .unexpectedEnd →
      Owid.readFromPrefix m (b ++ x) = .error (.fail e)) ∧
    (∀ b x f r, m.Holds (b ++ x) → Owid.readFromPrefix m (b ++ x) = .ok (f, r) →
      b.length < (b ++ x).length - r.length →
      ∃ e, Owid.readFromPrefix m b = .error (.fail e) ∧
        e.status = if b.isEmpty then .missingInput else .unexpectedEnd) ∧
    ∀ chunks : List (List UInt8), m.Holds chunks.flatten →
      Agrees waitsForMore
        (chunks.foldl (arrive (Owid.readFromPrefix m) waitsForMore)
          (drain (Owid.readFromPrefix m) []))
        (drain (Owid.readFromPrefix m) chunks.flatten) := by
  refine ⟨?_, ?_, ?_, ?_⟩
  · intro b x f r hb hread
    exact framing_readFromPrefix.ok x hb hread
  · intro b x e hb hread hmissing hend
    refine framing_readFromPrefix.error x hb hread ?_
    simp [waitsForMore, ParseError.waits, hmissing, hend]
  · intro b x f r hb hread htaken
    have hr : r.length < x.length := by
      rw [List.length_append] at htaken
      omega
    obtain ⟨e, he, hw⟩ := framing_readFromPrefix.waits_of_append hb hread hr
    have hfits : m.Holds b := by
      simp only [Machine.Holds, List.length_append] at hb ⊢
      omega
    rw [readFromPrefix_eq hfits, mapError_eq_error] at he
    obtain ⟨e, he, rfl⟩ := he
    refine ⟨e, ?_, status_of_waits he hw⟩
    rw [readFromPrefix_eq hfits, he]
    rfl
  · intro chunks hb
    exact arrivals_agree framing_readFromPrefix chunks _ [] (.refl _) hb

/-- An OWID that arrives in two parts, cut inside its domain, with a marker after it. -/
theorem readFromPrefix_stable_sample :
    (∃ o, Owid.readFromPrefix machine64 (sampleBytes ++ [0]) = .ok (some o, [0])) ∧
    (∃ e, Owid.readFromPrefix machine64 (sampleBytes.take 3) = .error (.fail e) ∧
      e.status = .unexpectedEnd) ∧
    (([sampleBytes.take 3, sampleBytes.drop 3, [0]].foldl
      (arrive (Owid.readFromPrefix machine64) waitsForMore)
      (drain (Owid.readFromPrefix machine64) [])).items =
        (drain (Owid.readFromPrefix machine64) (sampleBytes ++ [0])).items) := by
  obtain ⟨hok, -, hwaited, hchunks⟩ := readFromPrefix_stable machine64
  obtain ⟨o, hread⟩ : ∃ o, Owid.readFromPrefix machine64 sampleBytes = .ok (some o, []) := by
    refine ⟨_, (by decide +kernel :
      Owid.readFromPrefix machine64 sampleBytes = .ok (some ⟨.version3, "ab", atMinute 1, [7, 8],
        List.replicate 64 9⟩, []))⟩
  refine ⟨⟨o, hok sampleBytes [0] (some o) [] (by decide) hread⟩, ?_, ?_⟩
  · exact hwaited (sampleBytes.take 3) (sampleBytes.drop 3) (some o) [] (by decide) hread (by decide)
  · exact (hchunks [sampleBytes.take 3, sampleBytes.drop 3, [0]] (by decide)).items

/-- **The two reads differ only where documented**, where as many bytes as the buffer has can be
reserved. -/
theorem twoReads_differ {b : List UInt8} (hr : ∀ n ≤ b.length, m.reserves n = true)
    (hb : m.Holds b) :
    (∀ o, Owid.fromByteArray m b = .ok o ↔ Owid.readFromPrefix m b = .ok (some o, [])) ∧
    ((∃ detail, Owid.fromByteArray m b = .error (.fail ⟨.absentNode, detail⟩)) ↔
      Owid.readFromPrefix m b = .ok (none, b.tail)) ∧
    ((∃ detail, Owid.fromByteArray m b = .error (.fail ⟨.byteCountMismatch, detail⟩)) ↔
      (∃ o rest, rest ≠ [] ∧ Owid.readFromPrefix m b = .ok (some o, rest)) ∨
      ∃ declared present, Owid.readFromPrefix m b =
        .error (.fail ⟨.unexpectedEnd, some (.byteCounts declared present)⟩)) ∧
    (∀ declared present, Owid.readFromPrefix m b =
        .error (.fail ⟨.unexpectedEnd, some (.byteCounts declared present)⟩) →
      present < declared ∧ Owid.fromByteArray m b =
        .error (.fail ⟨.byteCountMismatch, some (.byteCounts declared present)⟩)) ∧
    ((∀ o, Owid.fromByteArray m b ≠ .ok o) →
      (∀ detail, Owid.fromByteArray m b ≠ .error (.fail ⟨.absentNode, detail⟩)) →
      (∀ detail, Owid.fromByteArray m b ≠ .error (.fail ⟨.byteCountMismatch, detail⟩)) →
      ∃ e, Owid.fromByteArray m b = .error (.fail e) ∧
        Owid.readFromPrefix m b = .error (.fail e)) := by
  have h := twoReads m b
  rw [fromByteArray_eq hb, readFromPrefix_eq hb]
  generalize parseSuffix m .wholeBuffer b >>= (fun p => .ok p.1) = whole at h
  generalize framedSuffix m b = framed at h
  cases h with
  | exact o => simp [mapError_ok]
  | marker rest => simp [mapError_ok, mapError_error]
  | followed o hrest hlt => simp [mapError_ok, mapError_error, hrest]
  | short hlt => simp [mapError_error, hlt]
  | unheld hlt hle hprovides =>
    refine absurd ⟨?_, hr _ (by omega)⟩ hprovides
    have : b.length ≤ m.usizeMax := hb
    omega
  | @alike _ e h =>
    obtain ⟨status, detail⟩ := e
    obtain ⟨habsent, hmismatch, hdetail⟩ := h
    simp only at habsent hmismatch hdetail
    simp [mapError_error, habsent, hmismatch, hdetail]

/-- An OWID with a byte after it. -/
theorem twoReads_differ_sample : ∃ o rest, rest ≠ [] ∧
    Owid.readFromPrefix machine64 (sampleBytes ++ [0]) = .ok (some o, rest) := by
  have hmismatch : Owid.fromByteArray machine64 (sampleBytes ++ [0]) =
      .error (.fail ⟨.byteCountMismatch, some (.byteCounts 2 3)⟩) := by decide +kernel
  obtain ⟨-, -, hiff, hshort, -⟩ :=
    twoReads_differ (m := machine64) (b := sampleBytes ++ [0]) (fun _ _ => rfl) (by decide)
  rcases hiff.mp ⟨_, hmismatch⟩ with hsome | ⟨declared, present, hend⟩
  · exact hsome
  · obtain ⟨hlt, hsame⟩ := hshort declared present hend
    rw [hmismatch] at hsame
    cases hsame
    exact absurd hlt (by decide)

/-- A machine that has no memory left. -/
def exhausted : Machine := ⟨18446744073709551615, fun n => n == 0⟩

/-- Where the payload cannot be reserved the framed read says so, and the whole buffer read has
already refused the byte after the OWID. -/
theorem twoReads_exhausted :
    Owid.fromByteArray exhausted (sampleBytes ++ [0]) =
      .error (.fail ⟨.byteCountMismatch, some (.byteCounts 2 3)⟩) ∧
    Owid.readFromPrefix exhausted (sampleBytes ++ [0]) =
      .error (.fail ⟨.implementationCapacityExceeded, some (.capacity 2)⟩) ∧
    ¬ ((∃ detail, Owid.fromByteArray exhausted (sampleBytes ++ [0]) =
        .error (.fail ⟨.byteCountMismatch, detail⟩)) ↔
      (∃ o rest, rest ≠ [] ∧
        Owid.readFromPrefix exhausted (sampleBytes ++ [0]) = .ok (some o, rest)) ∨
      ∃ declared present, Owid.readFromPrefix exhausted (sampleBytes ++ [0]) =
        .error (.fail ⟨.unexpectedEnd, some (.byteCounts declared present)⟩)) := by
  have hwhole : Owid.fromByteArray exhausted (sampleBytes ++ [0]) =
      .error (.fail ⟨.byteCountMismatch, some (.byteCounts 2 3)⟩) := by decide +kernel
  have hframed : Owid.readFromPrefix exhausted (sampleBytes ++ [0]) =
      .error (.fail ⟨.implementationCapacityExceeded, some (.capacity 2)⟩) := by decide +kernel
  refine ⟨hwhole, hframed, ?_⟩
  intro hiff
  rcases hiff.mp ⟨_, hwhole⟩ with ⟨o, rest, -, hread⟩ | ⟨declared, present, hread⟩ <;>
    rw [hframed] at hread <;> cases hread

end OwidRust
