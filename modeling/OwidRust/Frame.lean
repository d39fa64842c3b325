import OwidRust.ParseSuffix

/-!
# The wire format

A `Frame` is one serialized OWID with the bounds of the format as fields, so that a frame out of
bounds cannot be built.  Reading and writing are two sides of it:

* `parseSuffix_bytes` — the bytes of a frame are read back as its OWID, with what follows them left over;
* `parseSuffix_eq_ok` — nothing but the bytes of a frame is read;
* `appends_toBuffer`, `toBuffer_eq_ok` — an OWID is written where it has a frame, and as its bytes.

`read_write_inverse` puts them together: the whole buffer read and the writer are inverse
over the whole format.
-/

namespace OwidRust

open Append ByteOrder

/-! ## Dates and their counts -/

/-- The nanoseconds of the unit the version counts dates in. -/
def dateUnit : Version → Int
  | .version1 => 3600000000000
  | _ => minuteNanos

/-- The date floored to the unit of the version, for dates from the base date on. -/
def floorDate (version : Version) (date : Moment) : Moment :=
  ⟨baseDate.nanos + (date.nanos - baseDate.nanos) / dateUnit version * dateUnit version⟩

theorem u16TryFrom_eq_some_iff {n : Int} {k : Nat} :
    u16TryFrom n = some k ↔ n = k ∧ k ≤ 65535 := by
  unfold u16TryFrom
  split <;> rename_i h <;> simp only [Option.some.injEq, reduceCtorEq, false_iff] <;> omega

theorem dateCount_countDate {v : Version} {n : Nat} (hv : v ≠ .empty)
    (hn : n < 256 ^ dateLength v) : dateCount v (countDate v n) = some n := by
  cases v with
  | empty => exact absurd rfl hv
  | version1 =>
    simp only [dateLength] at hn
    have hsince : (countDate .version1 n).since baseDate = n * 3600000000000 := by
      simp only [countDate, Moment.since, Moment.addSeconds]
      omega
    rw [dateCount, u16TryFrom_eq_some_iff, hsince, numHours_of_nonneg (by omega)]
    omega
  | version2 | version3 =>
    simp only [dateLength] at hn
    exact minutesSinceBase_atMinute (show n ≤ u32Max by simp only [u32Max]; omega)

/-- **A date that is written is read back floored.** -/
theorem countDate_eq_floorDate {v : Version} {d : Moment} {n : Nat} (hd : baseDate ≤ d)
    (h : dateCount v d = some n) : countDate v n = floorDate v d := by
  have hd' : baseDate.nanos ≤ d.nanos := hd
  cases v with
  | empty => cases h
  | version1 =>
    rw [dateCount, u16TryFrom_eq_some_iff, numHours_of_nonneg (by simp only [Moment.since]; omega)]
      at h
    simp only [Moment.since] at h
    ext
    simp only [countDate, Moment.addSeconds, floorDate, dateUnit]
    omega
  | version2 | version3 =>
    have h' := (minutesSinceBase_eq_some_iff hd).mp h
    simp only [Moment.le_def, Moment.lt_def, atMinute_nanos, minuteNanos] at h'
    ext
    simp only [countDate, Moment.addSeconds, floorDate, dateUnit, minuteNanos]
    omega

theorem countOf_dateBytes {v : Version} {n : Nat} (hn : n < 256 ^ dateLength v) :
    countOf v (dateBytes v n) = n := by
  cases v <;> simp only [dateLength] at hn <;>
    simp only [countOf, dateBytes, ofBe_toBe hn, ofLe_toLe hn]

theorem dateBytes_countOf {v : Version} {bytes : List UInt8}
    (h : bytes.length = dateLength v) : dateBytes v (countOf v bytes) = bytes := by
  cases v <;> simp only [dateLength] at h <;> simp only [countOf, dateBytes, ← h, toBe_ofBe, toLe_ofLe]

theorem countOf_lt {v : Version} {bytes : List UInt8} (h : bytes.length = dateLength v) :
    countOf v bytes < 256 ^ dateLength v := by
  rw [← h]
  cases v <;> simp only [countOf] <;> first | exact ofBe_lt bytes | exact ofLe_lt bytes

/-! ## Frames -/

/-- One serialized OWID. -/
structure Frame where
  version : Version
  domain : String
  count : Nat
  payload : List UInt8
  signature : List UInt8
  version_ne : version ≠ .empty
  domain_ok : DomainOk domain
  count_lt : count < 256 ^ dateLength version
  payload_le : payload.length ≤ u32Max
  signature_length : signature.length = SIGNATURE_LENGTH

namespace Frame

/-- The bytes the signature covers. -/
def head (f : Frame) : List UInt8 :=
  [f.version.asByte] ++ ((utf8 f.domain ++ [0]) ++
    (dateBytes f.version f.count ++ (toLe 4 f.payload.length ++ f.payload)))

def bytes (f : Frame) : List UInt8 := f.head ++ f.signature

/-- The OWID a frame is read as. -/
def owid (f : Frame) : Owid :=
  ⟨f.version, f.domain, countDate f.version f.count, f.payload, f.signature⟩

theorem length_head (f : Frame) :
    f.head.length = (f.owid.lengths (dateLength f.version) false).sum := by
  simp only [head, Owid.lengths, owid, List.length_append, List.length_cons, List.length_nil,
    length_dateBytes, length_toLe, List.sum_cons, List.sum_nil, Bool.false_eq_true, if_false]
  omega

theorem length_bytes (f : Frame) :
    f.bytes.length = (f.owid.lengths (dateLength f.version) true).sum := by
  have := f.length_head
  simp only [bytes, Owid.lengths, List.length_append, f.signature_length, List.sum_cons,
    List.sum_nil, Bool.false_eq_true, if_false, if_true] at this ⊢
  omega

theorem length_payload_le (f : Frame) : f.payload.length ≤ f.head.length := by
  simp only [head, List.length_append]
  omega

theorem length_head_le (f : Frame) : f.head.length ≤ f.bytes.length := by
  rw [bytes, List.length_append]
  omega

theorem bytes_append (f : Frame) (rest : List UInt8) : f.bytes ++ rest =
    f.version.asByte :: (utf8 f.domain ++ 0 :: (dateBytes f.version f.count ++
      (toLe 4 f.payload.length ++ (f.payload ++ (f.signature ++ rest))))) := by
  simp [bytes, head]

/-- A frame takes little more than its payload. -/
theorem holds_bytes {m : Machine} (hm : 65535 ≤ m.usizeMax) (f : Frame)
    (h : m.HoldsVec f.payload) : m.Holds f.bytes := by
  have hdomain := f.domain_ok.2
  have hdate : dateLength f.version ≤ 4 := by cases f.version <;> simp [dateLength]
  rw [Machine.HoldsVec] at h
  rw [Machine.Holds, f.length_bytes]
  simp only [Owid.lengths, owid, if_true, List.sum_cons, List.sum_nil, SIGNATURE_LENGTH,
    MAXIMUM_DOMAIN_LENGTH] at hdomain ⊢
  omega

/-- The frame an OWID is written as, if it has one. -/
def Encodes (f : Frame) (o : Owid) : Prop :=
  f.version = o.version ∧ f.domain = o.domain ∧ dateCount o.version o.date = some f.count ∧
    f.payload = o.payload ∧ f.signature = o.signature

theorem encodes_owid (f : Frame) : f.Encodes f.owid :=
  ⟨rfl, rfl, dateCount_countDate f.version_ne f.count_lt, rfl, rfl⟩

theorem Encodes.version_ne {f : Frame} {o : Owid} (h : f.Encodes o) : o.version ≠ .empty :=
  h.1 ▸ f.version_ne

/-! ## Writing -/

theorem appends_head {f : Frame} {o : Owid} (h : f.Encodes o) :
    Appends o.toBufferNoSignature f.head := by
  obtain ⟨hv, hd, hc, hp, -⟩ := h
  have hdomain : DomainOk o.domain := hd ▸ f.domain_ok
  have hpayload : o.payload.length ≤ u32Max := hp ▸ f.payload_le
  rw [head, hv, hd, hp]
  exact appends_andThen (appends_push _) (appends_andThen (appends_writeDomain hdomain)
    (appends_andThen (appends_writeDate hc) (appends_writeByteArray hpayload)))

theorem appends_toBuffer {f : Frame} {o : Owid} (h : f.Encodes o) :
    Appends o.toBuffer f.bytes := by
  have hs : o.signature.length = SIGNATURE_LENGTH := h.2.2.2.2 ▸ f.signature_length
  rw [bytes, h.2.2.2.2]
  exact appends_andThen (appends_head h) (appends_writeSignature hs)

/-- What is written before the signature is the head of a frame. -/
theorem head_eq_ok {o : Owid} {buffer left : List UInt8}
    (h : o.toBufferNoSignature buffer = (.ok (), left))
    (signature_length : o.signature.length = SIGNATURE_LENGTH) :
    ∃ f : Frame, f.Encodes o ∧ left = buffer ++ f.head := by
  obtain ⟨_, -, hhead⟩ := andThen_eq_ok h
  obtain ⟨_, hdomain, hhead⟩ := andThen_eq_ok hhead
  obtain ⟨_, hdate, hpayload⟩ := andThen_eq_ok hhead
  have domain_ok : DomainOk o.domain := by
    by_contra hno
    obtain ⟨e, he⟩ := writeDomain_refuses hno
    exact he.ne_ok hdomain
  have payload_le : o.payload.length ≤ u32Max := by
    by_contra hno
    exact (writeByteArray_refuses (by omega)).ne_ok hpayload
  cases hc : dateCount o.version o.date with
  | none =>
    obtain ⟨e, he⟩ := writeDate_refuses hc
    exact absurd hdate he.ne_ok
  | some count =>
    have version_ne : o.version ≠ .empty := fun hv => by rw [hv] at hc; cases hc
    let f : Frame := ⟨o.version, o.domain, count, o.payload, o.signature, version_ne, domain_ok,
      dateCount_lt hc, payload_le, signature_length⟩
    have hf : f.Encodes o := ⟨rfl, rfl, hc, rfl, rfl⟩
    refine ⟨f, hf, ?_⟩
    have := (appends_head hf buffer).symm.trans h
    simpa using this.symm

/-- **An OWID that is written is written as the bytes of its frame.** -/
theorem toBuffer_eq_ok {o : Owid} {buffer left : List UInt8}
    (h : o.toBuffer buffer = (.ok (), left)) :
    ∃ f : Frame, f.Encodes o ∧ left = buffer ++ f.bytes := by
  obtain ⟨_, hhead, hsig⟩ := andThen_eq_ok h
  have signature_length : o.signature.length = SIGNATURE_LENGTH := by
    by_contra hno
    exact (writeSignature_refuses hno).ne_ok hsig
  obtain ⟨f, hf, -⟩ := head_eq_ok hhead signature_length
  refine ⟨f, hf, ?_⟩
  have := (appends_toBuffer hf buffer).symm.trans h
  simpa using this.symm

/-! ## Reading -/

theorem domainSuffix_append {domain : String} (h : DomainOk domain) (rest : List UInt8) :
    domainSuffix (utf8 domain ++ 0 :: rest) = .ok (domain, rest) := by
  obtain ⟨h0, hlen⟩ := h
  have htake : (utf8 domain ++ 0 :: rest).take (MAXIMUM_DOMAIN_LENGTH + 1) =
      utf8 domain ++ 0 :: rest.take (MAXIMUM_DOMAIN_LENGTH - (utf8 domain).length) := by
    rw [List.take_append, List.take_of_length_le (by omega),
      show MAXIMUM_DOMAIN_LENGTH + 1 - (utf8 domain).length =
        MAXIMUM_DOMAIN_LENGTH - (utf8 domain).length + 1 by omega, List.take_succ_cons]
  have hnone : (utf8 domain).findIdx? (· == 0) = none := by
    rw [List.findIdx?_eq_none_iff]
    intro b hb
    simpa using fun hb0 : b = 0 => h0 (hb0 ▸ hb)
  have hfind : ((utf8 domain ++ 0 :: rest).take (MAXIMUM_DOMAIN_LENGTH + 1)).findIdx? (· == 0) =
      some (utf8 domain).length := by
    rw [htake, List.findIdx?_append, hnone]
    simp [List.findIdx?_cons]
  unfold domainSuffix
  rw [hfind]
  simp only [List.take_left, fromUtf8_utf8]
  rw [← List.drop_drop, List.drop_left]
  rfl

theorem domainSuffix_eq_ok {bytes rest : List UInt8} {domain : String}
    (h : domainSuffix bytes = .ok (domain, rest)) :
    DomainOk domain ∧ bytes = utf8 domain ++ 0 :: rest := by
  unfold domainSuffix at h
  split at h
  · split at h <;> cases h
  · rename_i terminator hf
    obtain ⟨hlt, h0, hbefore⟩ := List.findIdx?_eq_some_iff_getElem.mp hf
    split at h
    · rename_i d hd
      cases h
      rw [fromUtf8_eq_some_iff] at hd
      rw [List.length_take] at hlt
      simp only [List.getElem_take, beq_iff_eq] at h0 hbefore
      refine ⟨⟨?_, ?_⟩, ?_⟩
      · rw [hd, List.mem_iff_getElem]
        rintro ⟨i, hi, hi0⟩
        rw [List.length_take] at hi
        rw [List.getElem_take] at hi0
        exact hbefore i (by omega) hi0
      · rw [hd, List.length_take]
        omega
      · rw [hd, ← h0, ← List.drop_eq_getElem_cons, List.take_append_drop]
    · cases h

theorem dateSuffix_append (v : Version) {n : Nat} (hn : n < 256 ^ dateLength v)
    (rest : List UInt8) :
    dateSuffix v (dateBytes v n ++ rest) = .ok (countDate v n, rest) := by
  have hlen := length_dateBytes v n
  unfold dateSuffix
  rw [if_neg (by rw [List.length_append]; omega), ← hlen, List.take_left, List.drop_left,
    countOf_dateBytes hn]

theorem dateSuffix_eq_ok {v : Version} {bytes rest : List UInt8} {d : Moment}
    (h : dateSuffix v bytes = .ok (d, rest)) :
    ∃ n, n < 256 ^ dateLength v ∧ d = countDate v n ∧ bytes = dateBytes v n ++ rest := by
  unfold dateSuffix at h
  split at h
  · cases h
  · cases h
    have hlen : (bytes.take (dateLength v)).length = dateLength v := by
      rw [List.length_take]
      omega
    exact ⟨_, countOf_lt hlen, rfl, by rw [dateBytes_countOf hlen, List.take_append_drop]⟩

theorem lengthSuffix_append {n : Nat} (hn : n ≤ u32Max) (rest : List UInt8) :
    lengthSuffix (toLe 4 n ++ rest) = .ok (n, rest) := by
  have hlen := length_toLe 4 n
  unfold lengthSuffix
  rw [if_neg (by rw [List.length_append]; omega)]
  rw [List.take_left' hlen, List.drop_left' hlen, ofLe_toLe (by simp only [u32Max] at hn; omega)]

theorem lengthSuffix_eq_ok {bytes rest : List UInt8} {n : Nat}
    (h : lengthSuffix bytes = .ok (n, rest)) : n ≤ u32Max ∧ bytes = toLe 4 n ++ rest := by
  unfold lengthSuffix at h
  split at h
  · cases h
  · cases h
    have hlen : (bytes.take 4).length = 4 := by
      rw [List.length_take]
      omega
    have hlt := ofLe_lt (bytes.take 4)
    have hback := toLe_ofLe (bytes.take 4)
    rw [hlen] at hlt hback
    exact ⟨by simp only [u32Max]; omega, by rw [hback, List.take_append_drop]⟩

theorem bodySuffix_append {m : Machine} {extent : Extent} {payload signature rest : List UInt8}
    (hm : m.Provides payload.length) (hs : signature.length = SIGNATURE_LENGTH)
    (hrest : extent = .wholeBuffer → rest = []) :
    bodySuffix m extent payload.length (payload ++ (signature ++ rest)) =
      .ok ((payload, signature), rest) := by
  have hcap : ¬ (m.usizeMax < payload.length ∨ m.reserves payload.length = false) := by
    rw [hm.2]
    simp only [Bool.true_eq_false, or_false]
    exact not_lt.mpr hm.1
  unfold bodySuffix
  rw [if_neg, if_neg, if_neg hcap, List.take_left, List.drop_left, ← List.append_assoc,
    List.drop_left' (by rw [List.length_append, hs]), List.take_left' hs]
  · simp only [List.length_append, hs]
    omega
  · rintro ⟨hext, hne⟩
    rw [hrest hext] at hne
    simp only [List.length_append, hs, List.length_nil] at hne
    omega

theorem bodySuffix_eq_ok {m : Machine} {extent : Extent} {declared : Nat}
    {bytes payload signature rest : List UInt8}
    (h : bodySuffix m extent declared bytes = .ok ((payload, signature), rest)) :
    bytes = payload ++ (signature ++ rest) ∧ payload.length = declared ∧
      signature.length = SIGNATURE_LENGTH ∧ (extent = .wholeBuffer → rest = []) := by
  simp only [bodySuffix] at h
  split at h
  · cases h
  rename_i hw
  split at h
  · cases h
  rename_i hp
  split at h
  · cases h
  have hc : CountsAgree extent declared bytes := ⟨hw, hp⟩
  obtain ⟨payload, signature, rest, rfl, rfl, hs⟩ := exists_body hc.fits
  cases h
  rw [List.take_left, List.drop_left, List.take_left' hs, ← List.append_assoc,
    List.drop_left' (by rw [List.length_append, hs])]
  refine ⟨List.append_assoc .., rfl, hs, ?_⟩
  rintro rfl
  have := hc.1
  simp only [true_and, ne_eq, not_not, List.length_append, hs] at this
  exact List.length_eq_zero_iff.mp (by omega)

/-- **The bytes of a frame are read as its OWID**, with what follows them left over. -/
theorem parseSuffix_bytes {m : Machine} (f : Frame) (hm : m.Provides f.payload.length)
    {extent : Extent} {rest : List UInt8} (hrest : extent = .wholeBuffer → rest = []) :
    parseSuffix m extent (f.bytes ++ rest) = .ok (f.owid, rest) := by
  rw [bytes_append, parseSuffix_version f.version_ne]
  unfold fieldsSuffix
  rw [domainSuffix_append f.domain_ok, ok_bind]
  simp only [dateSuffix_append f.version f.count_lt, lengthSuffix_append f.payload_le, ok_bind,
    bodySuffix_append hm f.signature_length hrest]
  rfl

/-- **Nothing but the bytes of a frame is read.** -/
theorem parseSuffix_eq_ok {m : Machine} {extent : Extent} {b rest : List UInt8} {o : Owid}
    (h : parseSuffix m extent b = .ok (o, rest)) :
    ∃ f : Frame, b = f.bytes ++ rest ∧ o = f.owid ∧ (extent = .wholeBuffer → rest = []) := by
  cases b with
  | nil => cases h
  | cons byte bytes =>
    cases versionByte byte with
    | marker => cases h
    | unsupported hv =>
      rw [parseSuffix_unsupported hv] at h
      cases h
    | @version version hne =>
      rw [parseSuffix_version hne] at h
      obtain ⟨⟨domain, afterDomain⟩, hd, hfields⟩ := bind_eq_ok h
      obtain ⟨⟨date, afterDate⟩, hdate, hfields⟩ := bind_eq_ok hfields
      obtain ⟨⟨declared, afterLength⟩, hlength, hfields⟩ := bind_eq_ok hfields
      obtain ⟨⟨⟨payload, signature⟩, left⟩, hbody, hfields⟩ := bind_eq_ok hfields
      cases hfields
      obtain ⟨hdomain, rfl⟩ := domainSuffix_eq_ok hd
      obtain ⟨count, hcount, rfl, rfl⟩ := dateSuffix_eq_ok hdate
      obtain ⟨hle, rfl⟩ := lengthSuffix_eq_ok hlength
      obtain ⟨rfl, rfl, hs, hrest⟩ := bodySuffix_eq_ok hbody
      refine ⟨⟨version, domain, count, payload, signature, hne, hdomain, hcount, hle, hs⟩, ?_, rfl,
        hrest⟩
      simp [bytes, head]

/-! ## Where the payload length stands -/

/-- The number of bytes before the payload length in those after the version: the domain, its
terminator and the date. -/
def lengthOffset (version : Version) (bytes : List UInt8) : Nat :=
  (bytes.takeWhile (· != 0)).length + 1 + dateLength version

theorem takeWhile_domain {domain : String} (h : DomainOk domain) (rest : List UInt8) :
    (utf8 domain ++ 0 :: rest).takeWhile (· != 0) = utf8 domain := by
  rw [List.takeWhile_append_of_pos]
  · simp
  · intro b hb
    simpa using fun hb0 : b = 0 => h.1 (hb0 ▸ hb)

theorem drop_lengthOffset {domain : String} (h : DomainOk domain) (version : Version)
    (rest : List UInt8) :
    (utf8 domain ++ 0 :: rest).drop (lengthOffset version (utf8 domain ++ 0 :: rest)) =
      rest.drop (dateLength version) := by
  rw [lengthOffset, takeWhile_domain h, Nat.add_assoc, ← List.drop_drop, List.drop_left,
    Nat.add_comm 1, List.drop_succ_cons]

/-- The bytes of the payload length that are there after the version, none where the domain has not
ended. -/
def lengthBytes (version : Version) (bytes : List UInt8) : List UInt8 :=
  (bytes.drop (lengthOffset version bytes)).take 4

theorem lengthBytes_domain {version : Version} {domain : String} (h : DomainOk domain)
    (rest : List UInt8) :
    lengthBytes version (utf8 domain ++ 0 :: rest) = (rest.drop (dateLength version)).take 4 := by
  rw [lengthBytes, drop_lengthOffset h]

/-- The count the payload length declares. -/
theorem ofLe_lengthBytes {version : Version} {domain : String} (h : DomainOk domain)
    (count : Nat) {declared : Nat} (hdeclared : declared ≤ u32Max) (body : List UInt8) :
    ofLe (lengthBytes version
      (utf8 domain ++ 0 :: (dateBytes version count ++ (toLe 4 declared ++ body)))) = declared := by
  rw [lengthBytes_domain h, List.drop_left' (length_dateBytes version count),
    List.take_left' (length_toLe 4 declared),
    ofLe_toLe (by simp only [u32Max] at hdeclared; omega)]

/-! ## The two public forms -/

theorem fromByteArray_bytes {m : Machine} (f : Frame) (hr : m.reserves f.payload.length = true)
    (hf : m.Holds f.bytes) :
    Owid.fromByteArray m f.bytes = .ok f.owid := by
  have hw := parseOne_eq .wholeBuffer hf
  have hs : parseSuffix m .wholeBuffer (f.bytes ++ []) = .ok (f.owid, []) :=
    parseSuffix_bytes f ⟨f.length_payload_le.trans (f.length_head_le.trans hf), hr⟩ (fun _ => rfl)
  rw [List.append_nil] at hs
  rw [hs] at hw
  obtain ⟨used, hused, hone⟩ := hw
  rw [List.append_nil] at hused
  rw [Owid.fromByteArray, parseExact, hone, ok_bind]
  simp only [hused, if_true]
  rfl

theorem fromByteArray_eq_ok {m : Machine} {b : List UInt8} {o : Owid} (hb : m.Holds b)
    (h : Owid.fromByteArray m b = .ok o) : ∃ f : Frame, b = f.bytes ∧ o = f.owid := by
  have hw := parseOne_eq .wholeBuffer hb
  obtain ⟨⟨owid, used⟩, hone, hexact⟩ := bind_eq_ok h
  have ho : owid = o := by
    simp only at hexact
    split at hexact
    · cases hexact; rfl
    · cases hexact
  cases hs : parseSuffix m .wholeBuffer b with
  | error e =>
    rw [hs] at hw
    exact absurd (hone.symm.trans hw) nofun
  | ok r =>
    obtain ⟨owid', rest⟩ := r
    rw [hs] at hw
    obtain ⟨_, -, hone'⟩ := hw
    rw [hone] at hone'
    cases hone'
    obtain ⟨f, rfl, rfl, hrest⟩ := parseSuffix_eq_ok hs
    exact ⟨f, by rw [hrest rfl, List.append_nil], ho.symm⟩

theorem Encodes.length_bytes {f : Frame} {o : Owid} (h : f.Encodes o) :
    f.bytes.length = (o.lengths (dateLength o.version) true).sum := by
  obtain ⟨hv, hd, -, hp, -⟩ := h
  rw [f.length_bytes]
  simp only [Owid.lengths, owid, hv, hd, hp]

theorem Encodes.length_head {f : Frame} {o : Owid} (h : f.Encodes o) :
    f.head.length = (o.lengths (dateLength o.version) false).sum := by
  obtain ⟨hv, hd, -, hp, -⟩ := h
  rw [f.length_head]
  simp only [Owid.lengths, owid, hv, hd, hp]

/-- The bound on the payload that `encoded_len` casts to `usize` holds of a frame. -/
theorem payload_le_cast {m : Machine} (hm : m.Wide) (f : Frame) (hf : m.Holds f.head) :
    f.payload.length ≤ u32Max % (m.usizeMax + 1) :=
  hm.le_cast f.payload_le (f.length_payload_le.trans hf)

/-- The capacity reserved for an OWID with a frame is the length of the frame. -/
theorem encodedLen_of_encodes {m : Machine} (hm : m.Wide) {f : Frame} {o : Owid}
    (h : f.Encodes o) (hf : m.Holds f.bytes) : o.encodedLen m true = .ok f.bytes.length := by
  have hcast := f.payload_le_cast hm (f.length_head_le.trans hf)
  have hlen := Owid.encodedLen_eq (o := o) true h.version_ne (h.2.2.2.1 ▸ hcast)
    (fun _ => h.2.2.2.2 ▸ f.signature_length)
  rwa [← h.length_bytes, if_pos (show f.bytes.length ≤ m.usizeMax from hf)] at hlen

theorem encodedLen_head_of_encodes {m : Machine} (hm : m.Wide) {f : Frame} {o : Owid}
    (h : f.Encodes o) (hf : m.Holds f.head) : o.encodedLen m false = .ok f.head.length := by
  have hlen := Owid.encodedLen_eq (o := o) false h.version_ne
    (h.2.2.2.1 ▸ f.payload_le_cast hm hf) nofun
  rwa [← h.length_head, if_pos (show f.head.length ≤ m.usizeMax from hf)] at hlen

theorem Encodes.reserves_whole {m : Machine} {f : Frame} {o : Owid} (h : f.Encodes o) :
    m.Reserves o true ↔ m.reserves f.bytes.length = true := by
  rw [Machine.Reserves, h.length_bytes]

theorem Encodes.reserves_signed {m : Machine} {f : Frame} {o : Owid} (h : f.Encodes o) :
    m.Reserves o false ↔ m.reserves f.head.length = true := by
  rw [Machine.Reserves, h.length_head]

/-- The OWIDs of one frame take the same reservations. -/
theorem Encodes.memoryFor {m : Machine} {f : Frame} {o a : Owid} (h : f.Encodes o)
    (ha : f.Encodes a) (hr : m.MemoryFor o) : m.MemoryFor a where
  payload := by
    rw [← ha.2.2.2.1, h.2.2.2.1]
    exact hr.payload
  signed := ha.reserves_signed.mpr (h.reserves_signed.mp hr.signed)
  whole := ha.reserves_whole.mpr (h.reserves_whole.mp hr.whole)

theorem asByteArray_of_encodes {m : Machine} (hm : m.Wide) {f : Frame} {o : Owid}
    (h : f.Encodes o) (hf : m.Holds f.bytes) (hr : m.Reserves o true) :
    o.asByteArray m = .ok f.bytes := by
  rw [Owid.asByteArray, encodedLen_of_encodes hm h hf]
  exact Owid.written_of_appends (h.reserves_whole.mp hr) (appends_toBuffer h)

theorem signedBytes_of_encodes {m : Machine} (hm : m.Wide) {f : Frame} {o : Owid}
    (h : f.Encodes o) (hf : m.Holds f.head) (hr : m.Reserves o false) :
    o.signedBytes m = .ok f.head := by
  rw [Owid.signedBytes, encodedLen_head_of_encodes hm h hf]
  exact Owid.written_of_appends (h.reserves_signed.mp hr) (appends_head h)

theorem asByteArray_eq_ok {m : Machine} {o : Owid} {b : List UInt8}
    (h : o.asByteArray m = .ok b) : ∃ f : Frame, f.Encodes o ∧ b = f.bytes ∧ m.Holds b := by
  obtain ⟨hw, n, hn⟩ := Owid.written_eq_ok h
  obtain ⟨f, hf, rfl⟩ := toBuffer_eq_ok hw
  rw [List.nil_append]
  obtain ⟨hle, hsum⟩ := Owid.encodedLen_le hn
  refine ⟨f, hf, rfl, ?_⟩
  rw [Machine.Holds, hf.length_bytes, ← hsum]
  exact hle

end Frame

/-- **The whole buffer read and the writer are inverse over the whole wire format.**  What is read
is written back byte for byte and its signed bytes are all but the signature; what is written is
read back with its date floored to the unit of the version.  A step is only lost to the one
reservation it makes. -/
theorem read_write_inverse {m : Machine} (hm : m.Wide) :
    (∀ b o, m.Holds b → Owid.fromByteArray m b = .ok o →
      (m.Reserves o true → o.asByteArray m = .ok b) ∧
      (m.Reserves o false → o.signedBytes m = .ok (b.take (b.length - SIGNATURE_LENGTH)))) ∧
    (∀ o b, baseDate ≤ o.date → Owid.asByteArray m o = .ok b →
      m.reserves o.payload.length = true →
      ∃ o', Owid.fromByteArray m b = .ok o' ∧ o'.version = o.version ∧ o'.domain = o.domain ∧
        o'.payload = o.payload ∧ o'.signature = o.signature ∧
        o'.date = floorDate o.version o.date) := by
  constructor
  · intro b o hb h
    obtain ⟨f, rfl, rfl⟩ := Frame.fromByteArray_eq_ok hb h
    have hhead : f.bytes.take (f.bytes.length - SIGNATURE_LENGTH) = f.head :=
      List.take_left' (by rw [Frame.bytes, List.length_append, f.signature_length]; omega)
    have hholds : m.Holds f.head := by
      simp only [Machine.Holds, Frame.bytes, List.length_append] at hb ⊢
      omega
    rw [hhead]
    exact ⟨Frame.asByteArray_of_encodes hm f.encodes_owid hb,
      Frame.signedBytes_of_encodes hm f.encodes_owid hholds⟩
  · intro o b hd h hr
    obtain ⟨f, ⟨hv, hdom, hc, hp, hs⟩, rfl, hf⟩ := Frame.asByteArray_eq_ok h
    refine ⟨f.owid, Frame.fromByteArray_bytes f (hp ▸ hr) hf, hv, hdom, hp, hs, ?_⟩
    rw [Frame.owid, hv]
    exact countDate_eq_floorDate hd hc

/-- A version 3 OWID of the domain `ab` dated 90 seconds after the base date. -/
def sampleOwid : Owid := ⟨.version3, "ab", baseDate.addSeconds 90, [7, 8], List.replicate 64 9⟩

def sampleBytes : List UInt8 :=
  [3, 97, 98, 0, 1, 0, 0, 0, 2, 0, 0, 0, 7, 8] ++ List.replicate 64 9

theorem read_write_inverse_sample :
    (∃ o, Owid.fromByteArray machine64 sampleBytes = .ok o ∧
      o.asByteArray machine64 = .ok sampleBytes ∧
      o.signedBytes machine64 = .ok (sampleBytes.take 14)) ∧
    ∃ o', Owid.fromByteArray machine64 sampleBytes = .ok o' ∧ o'.date = atMinute 1 := by
  have hwrite : sampleOwid.asByteArray machine64 = .ok sampleBytes := by decide +kernel
  obtain ⟨o', hread, -, -, -, -, hdate⟩ :=
    (read_write_inverse machine64_wide).2 sampleOwid sampleBytes (by decide) hwrite rfl
  obtain ⟨hsame, hsigned⟩ :=
    (read_write_inverse machine64_wide).1 sampleBytes o' (by decide) hread
  refine ⟨⟨o', hread, hsame rfl, hsigned rfl⟩, o', hread, ?_⟩
  rw [hdate]
  decide

end OwidRust
