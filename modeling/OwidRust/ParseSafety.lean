import OwidRust.Framed

/-!
# The parser is safe on every buffer

What holds of `parse_one`, `parse_exact` and `parse_prefix` of `src/parse.rs` whatever the buffer
holds.

* `asked_parseOne` — the allocator is asked for no more than the bytes present after the payload
  length, and for the payload alone;
* `parseSafe` — no check of the walk fails, `MalformedEnvelope` is not answered, what is used is
  there, and a framed read takes something.
-/

namespace OwidRust

open ByteOrder

variable {m : Machine}

/-! ## The walk -/

theorem Walks.ne_panic {α : Type} {walk : Checked ParseError (α × Nat)} {bytes : List UInt8}
    {read : Except ParseError (α × List UInt8)} (h : Walks walk bytes read) :
    walk ≠ .error .panic := by
  cases read with
  | error e =>
    simp only [Walks] at h
    rw [h]
    simp
  | ok p =>
    obtain ⟨used, -, h⟩ := h
    rw [h]
    simp

/-! ## What is not answered -/

theorem status_bodySuffix {extent : Extent} {declared : Nat} {bytes : List UInt8} {e : ParseError}
    (h : bodySuffix m extent declared bytes = .error e) : e.status ≠ .malformedEnvelope := by
  simp only [bodySuffix] at h
  split at h
  · cases h
    simp
  split at h
  · cases h
    simp
  split at h
  · cases h
    simp
  · cases h

theorem status_parseSuffix {extent : Extent} {b : List UInt8} {e : ParseError}
    (h : parseSuffix m extent b = .error e) : e.status ≠ .malformedEnvelope := by
  have hfields : ∀ version bytes, fieldsSuffix m extent version bytes = .error e →
      e.status ≠ .malformedEnvelope := by
    intro version bytes h
    obtain ⟨e', hbefore, hstop⟩ | ⟨build, declared, body, -, hbody⟩ :=
      fieldsSuffix_cases m version bytes
    · rw [hstop] at h
      cases h
      exact hbefore.status_ne (by decide) (by decide)
    · rw [hbody, bind_ok_eq_error] at h
      exact status_bodySuffix h
  cases b with
  | nil =>
    cases h
    simp
  | cons byte bytes =>
    cases versionByte byte with
    | marker =>
      cases h
      simp
    | unsupported hv =>
      rw [parseSuffix_unsupported hv] at h
      cases h
      simp
    | version hne =>
      rw [parseSuffix_version hne] at h
      exact hfields _ _ h

/-! ## What is reserved -/

/-- The number of bytes after the payload length. -/
def presentAfterLength (version : Version) (bytes : List UInt8) : Nat :=
  bytes.length - (Frame.lengthOffset version bytes + 4)

theorem presentAfterLength_eq {version : Version} {domain : String} (h : DomainOk domain)
    (count declared : Nat) (body : List UInt8) :
    presentAfterLength version
      (utf8 domain ++ 0 :: (dateBytes version count ++ (toLe 4 declared ++ body))) = body.length := by
  rw [presentAfterLength, Frame.lengthOffset, Frame.takeWhile_domain h]
  simp only [List.length_append, List.length_cons, length_dateBytes, length_toLe]
  omega

theorem asked_readBody {used bytes : List UInt8} (extent : Extent)
    (build : List UInt8 → List UInt8 → Owid) (hm : (used ++ bytes).length ≤ m.usizeMax) :
    ((readBody m (used ++ bytes) extent used.length build).asked = [] ∧
      ∃ stop, (readBody m (used ++ bytes) extent used.length build).answer = .error stop) ∨
    ∃ declared body, (readBody m (used ++ bytes) extent used.length build).asked = [declared] ∧
      lengthSuffix bytes = .ok (declared, body) ∧ CountsAgree extent declared body := by
  rcases readBody_eq extent build hm with ⟨e, -, hbody⟩ | ⟨declared, length, body, hlength, -, hbody⟩
  · rw [hbody]
    exact .inl ⟨rfl, _, rfl⟩
  · rw [hbody]
    rcases asked_readDeclared extent declared build with hnone | ⟨hasked, hcounts⟩
    · exact .inl hnone
    · exact .inr ⟨declared, body, hasked, hlength, hcounts⟩

theorem asked_parseFields {byte : UInt8} {bytes : List UInt8} (extent : Extent) (version : Version)
    (hm : (byte :: bytes).length ≤ m.usizeMax) :
    ((parseFields m (byte :: bytes) extent version).asked = [] ∧
      ∃ stop, (parseFields m (byte :: bytes) extent version).answer = .error stop) ∨
    (parseFields m (byte :: bytes) extent version).asked =
        [ofLe (Frame.lengthBytes version bytes)] ∧
      ofLe (Frame.lengthBytes version bytes) + SIGNATURE_LENGTH ≤
        presentAfterLength version bytes := by
  rcases parseFields_eq extent version hm with ⟨e, -, hfields⟩ |
    ⟨domain, date, afterDomain, used, afterDate, hdomain, hdate, hbytes, hfields⟩
  · rw [hfields]
    exact .inl ⟨rfl, _, rfl⟩
  · rw [hfields]
    rcases asked_readBody extent _ (hbytes ▸ hm) with hnone | ⟨n, body, hasked, hlength, hcounts⟩
    · exact .inl hnone
    · -- what follows the payload length is what the declared count was compared with
      obtain ⟨hok, rfl⟩ := Frame.domainSuffix_eq_ok hdomain
      obtain ⟨count, -, -, rfl⟩ := Frame.dateSuffix_eq_ok hdate
      obtain ⟨hle, rfl⟩ := Frame.lengthSuffix_eq_ok hlength
      right
      rw [hasked, Frame.ofLe_lengthBytes hok count hle, presentAfterLength_eq hok]
      exact ⟨rfl, hcounts.fits⟩

/-- **The allocator is asked for the declared count or for nothing**, and for no more than the bytes
present after the payload length; where it is not asked nothing is read. -/
theorem asked_parseOne {b : List UInt8} (extent : Extent) (hb : m.Holds b) :
    ((parseOne m b extent).asked = [] ∧ ∃ stop, (parseOne m b extent).answer = .error stop) ∨
    ∃ version bytes, b = version.asByte :: bytes ∧
      (parseOne m b extent).asked = [ofLe (Frame.lengthBytes version bytes)] ∧
      ofLe (Frame.lengthBytes version bytes) + SIGNATURE_LENGTH ≤
        presentAfterLength version bytes := by
  cases b with
  | nil => exact .inl ⟨rfl, _, rfl⟩
  | cons byte bytes =>
    have hbyte : index (byte :: bytes) 0 = .ok byte := rfl
    unfold parseOne
    simp only [List.isEmpty_cons, Bool.false_eq_true, if_false, hbyte, Walk.ok_bind]
    cases hversion : Version.tryFrom byte with
    | error e => exact .inl ⟨rfl, _, rfl⟩
    | ok version =>
      have hfirst := Version.tryFrom_eq_ok_iff.mp hversion
      cases version with
      | empty => exact .inl ⟨rfl, _, rfl⟩
      | version1 | version2 | version3 =>
        rcases asked_parseFields extent _ hb with hnone | hasked
        · exact .inl hnone
        · exact .inr ⟨_, bytes, by rw [hfirst], hasked⟩

/-! ## Safety -/

/-- What holds of the parser on a buffer, whatever its bytes.  A check of the walk that failed (an
index, a slice, a sum or a difference of offsets, the assertion of the whole buffer read) would be a
panic.  Whatever is reserved is there to be read behind the payload length, with the signature after
it, and what is read had as many bytes reserved as its payload takes. -/
structure ParseSafe (m : Machine) (b : List UInt8) : Prop where
  parseOne_ne : ∀ extent, (parseOne m b extent).answer ≠ .error .panic
  readDomain_ne : readDomain m b ≠ .error .panic
  readDate_ne : ∀ version, readDate b version ≠ .error .panic
  parseExact_ne : parseExact m b ≠ .error .panic
  parsePrefix_ne : parsePrefix m b ≠ .error .panic
  notMalformed : ∀ extent e, (parseOne m b extent).answer = .error (.fail e) →
    e.status ≠ .malformedEnvelope
  used : ∀ extent owid used, (parseOne m b extent).answer = .ok (owid, used) →
    used ≤ b.length ∧ (extent = .wholeBuffer → used = b.length)
  takes : ∀ owid rest, parsePrefix m b = .ok (owid, rest) → rest.length < b.length
  reserved : ∀ extent, ∀ n ∈ (parseOne m b extent).asked, ∃ version bytes,
    b = version.asByte :: bytes ∧ n + SIGNATURE_LENGTH ≤ presentAfterLength version bytes
  granted : ∀ extent owid used, (parseOne m b extent).answer = .ok (owid, used) →
    (parseOne m b extent).asked = [owid.payload.length]
  payload : ∀ extent owid used version bytes, b = version.asByte :: bytes →
    (parseOne m b extent).answer = .ok (owid, used) →
    owid.payload.length + SIGNATURE_LENGTH ≤ presentAfterLength version bytes

theorem mapError_fail_ne_panic {α : Type} (x : Except ParseError α) :
    x.mapError Stop.fail ≠ .error .panic := by
  cases x with
  | error e =>
    rw [Chunks.mapError_error]
    simp
  | ok a => rw [Chunks.mapError_ok]; simp

/-- What the walk answers is a frame at the front of the buffer. -/
theorem parseOne_eq_ok {extent : Extent} {b : List UInt8} (hb : m.Holds b) {owid : Owid} {used : Nat}
    (h : (parseOne m b extent).answer = .ok (owid, used)) :
    ∃ (f : Frame) (rest : List UInt8), b = f.bytes ++ rest ∧ owid = f.owid ∧
      used = f.bytes.length ∧ (extent = .wholeBuffer → rest = []) := by
  have hw := parseOne_eq extent hb
  cases hs : parseSuffix m extent b with
  | error e =>
    rw [hs] at hw
    exact absurd (h.symm.trans hw) (by simp)
  | ok p =>
    obtain ⟨owid', rest⟩ := p
    rw [hs] at hw
    obtain ⟨taken, hbytes, hone⟩ := hw
    rw [h] at hone
    cases hone
    obtain ⟨f, hframe, rfl, hrest⟩ := Frame.parseSuffix_eq_ok hs
    have htaken : taken = f.bytes := List.append_cancel_right (hbytes.symm.trans hframe)
    exact ⟨f, rest, hframe, rfl, by rw [htaken], hrest⟩

/-- **The parser is safe on every buffer** that a slice can hold. -/
theorem parseSafe {b : List UInt8} (hb : m.Holds b) : ParseSafe m b where
  parseOne_ne := fun extent => (parseOne_eq extent hb).ne_panic
  readDomain_ne := (walks_readDomain hb).ne_panic
  readDate_ne := by
    intro version
    rw [readDate_eq]
    split <;> simp
  parseExact_ne := by
    have h := fromByteArray_eq hb
    rw [Owid.fromByteArray] at h
    rw [h]
    exact mapError_fail_ne_panic _
  parsePrefix_ne := by
    have h := readFromPrefix_eq hb
    rw [Owid.readFromPrefix] at h
    rw [h]
    exact mapError_fail_ne_panic _
  notMalformed := by
    intro extent e h
    have hw := parseOne_eq extent hb
    cases hs : parseSuffix m extent b with
    | error e' =>
      rw [hs] at hw
      have heq := h.symm.trans hw
      cases heq
      exact status_parseSuffix hs
    | ok p =>
      rw [hs] at hw
      obtain ⟨used, -, hone⟩ := hw
      rw [h] at hone
      cases hone
  used := by
    intro extent owid used h
    obtain ⟨f, rest, rfl, -, rfl, hrest⟩ := parseOne_eq_ok hb h
    refine ⟨by rw [List.length_append]; omega, fun hwhole => ?_⟩
    rw [hrest hwhole, List.append_nil]
  takes := fun _ _ h => framing_readFromPrefix.takes hb h
  reserved := by
    intro extent n hn
    rcases asked_parseOne extent hb with ⟨hnone, -⟩ | ⟨version, bytes, hbytes, hasked, hle⟩
    · rw [hnone] at hn
      cases hn
    · rw [hasked, List.mem_singleton] at hn
      exact ⟨version, bytes, hbytes, hn ▸ hle⟩
  granted := by
    intro extent owid used h
    rcases asked_parseOne extent hb with ⟨-, stop, hstop⟩ | ⟨version, bytes, hbytes, hasked, -⟩
    · rw [h] at hstop
      cases hstop
    · obtain ⟨f, rest, hframe, rfl, -, -⟩ := parseOne_eq_ok hb h
      rw [f.bytes_append, hbytes] at hframe
      obtain ⟨hbyte, rfl⟩ := List.cons.inj hframe
      rw [hasked, Version.asByte_injective hbyte, Frame.ofLe_lengthBytes f.domain_ok _ f.payload_le]
      rfl
  payload := by
    intro extent owid used version bytes hbytes h
    obtain ⟨f, rest, hframe, rfl, -, -⟩ := parseOne_eq_ok hb h
    rw [f.bytes_append, hbytes] at hframe
    obtain ⟨hbyte, rfl⟩ := List.cons.inj hframe
    rw [Version.asByte_injective hbyte]
    rw [presentAfterLength_eq f.domain_ok, Frame.owid]
    simp only [List.length_append, f.signature_length]
    omega

/-- An OWID read whole, with its two bytes of payload reserved, and the same one declaring 2 GiB
more, for which no more than those two would be. -/
theorem parseSafe_sample : ∃ owid,
    (parseOne machine64 sampleBytes .wholeBuffer).answer = .ok (owid, sampleBytes.length) ∧
    (parseOne machine64 sampleBytes .wholeBuffer).asked = [2] ∧
    owid.payload.length + SIGNATURE_LENGTH ≤ 66 ∧
    (∀ frame rest, parsePrefix machine64 sampleBytes = .ok (frame, rest) → rest.length < 78) ∧
    ∀ n ∈ (parseOne machine64 (sampleBytes.set 11 128) .prefixOf).asked, n ≤ 2 := by
  have hsafe : ParseSafe machine64 sampleBytes := parseSafe (by decide)
  have hlarge : ParseSafe machine64 (sampleBytes.set 11 128) := parseSafe (by decide)
  have hread : (parseOne machine64 sampleBytes .wholeBuffer).answer =
      .ok (⟨.version3, "ab", atMinute 1, [7, 8], List.replicate 64 9⟩, 78) := by decide +kernel
  have hbytes : sampleBytes = Version.version3.asByte :: sampleBytes.tail := rfl
  have hpresent : presentAfterLength .version3 sampleBytes.tail = 66 := by decide
  have hused := (hsafe.used _ _ _ hread).2 rfl
  have hpayload := hsafe.payload _ _ _ _ _ hbytes hread
  rw [hpresent] at hpayload
  refine ⟨_, hused ▸ hread, hsafe.granted _ _ _ hread, hpayload, hsafe.takes, ?_⟩
  intro n hn
  obtain ⟨version, bytes, hlargeBytes, hle⟩ := hlarge.reserved _ n hn
  obtain ⟨hbyte, rfl⟩ := List.cons.inj hlargeBytes
  rw [← Version.asByte_injective (v := .version3) hbyte] at hle
  have hlargePresent : presentAfterLength .version3 (sampleBytes.set 11 128).tail = 66 := by decide
  have hlargest : n + SIGNATURE_LENGTH ≤ 66 := hlargePresent ▸ hle
  simp only [SIGNATURE_LENGTH] at hlargest
  omega

end OwidRust
