import Mathlib.Data.List.TakeWhile
import OwidRust.Framed

/-!
# Waiting for the rest of a frame

Whether more bytes can help where `read_from_prefix` answers `UnexpectedEnd`.

* `stopsShort_of_fieldsSuffix` — where a read that asks for more has stopped;
* `exists_frame_of_stopsShort` — what has arrived begins a frame of any domain and payload length
  that what has arrived of the two can be gone on to;
* `waitingHelps_iff` — more bytes help exactly where a slice can hold such a frame and its payload
  can be reserved;
* `canGoOn_iff_of_reserves` — where memory is to spare only the domain decides.
-/

namespace OwidRust

open ByteOrder

variable {m : Machine} {version : Version} {bytes : List UInt8}

/-- What has arrived begins a frame that a slice can hold: it is gone on to some domain and to some
payload length, the payload can be reserved, and the frame takes `isize::MAX` bytes at most. -/
def CanGoOn (m : Machine) (b : List UInt8) : Prop :=
  ∃ version bytes, b = version.asByte :: bytes ∧ ∃ domain n, DomainOk domain ∧
    (∃ rest, bytes <+: utf8 domain ++ 0 :: rest) ∧ n ≤ u32Max ∧
    Frame.lengthBytes version bytes <+: toLe 4 n ∧ m.reserves n = true ∧
    1 + (utf8 domain).length + 1 + dateLength version + 4 + n + SIGNATURE_LENGTH ≤ m.usizeMax / 2

/-! ## Where a read has stopped -/

/-- The field the bytes after the version stop short in. -/
inductive StopsShort (version : Version) : List UInt8 → Prop where
  | domain {bytes : List UInt8} : 0 ∉ bytes → StopsShort version bytes
  | date {domain : String} {part : List UInt8} : DomainOk domain → part.length < dateLength version →
    StopsShort version (utf8 domain ++ 0 :: part)
  | length {domain : String} {count : Nat} {part : List UInt8} : DomainOk domain →
    count < 256 ^ dateLength version → part.length < 4 →
    StopsShort version (utf8 domain ++ 0 :: (dateBytes version count ++ part))
  | body {domain : String} {count declared : Nat} {part : List UInt8} : DomainOk domain →
    count < 256 ^ dateLength version → declared ≤ u32Max → part.length < declared + SIGNATURE_LENGTH →
    StopsShort version
      (utf8 domain ++ 0 :: (dateBytes version count ++ (toLe 4 declared ++ part)))

theorem stopsShort_of_fieldsSuffix {e : ParseError}
    (h : fieldsSuffix m .prefixOf version bytes = .error e) (he : e.status = .unexpectedEnd) :
    StopsShort version bytes := by
  unfold fieldsSuffix at h
  cases hdomain : domainSuffix bytes with
  | error e' =>
    rw [hdomain] at h
    cases h
    refine .domain fun hzero => ?_
    unfold domainSuffix at hdomain
    split at hdomain
    · rename_i hnone
      split at hdomain
      · cases hdomain
        cases he
      · rename_i hlen
        rw [List.take_of_length_le (by omega), List.findIdx?_eq_none_iff] at hnone
        exact absurd (hnone 0 hzero) (by decide)
    · split at hdomain
      · cases hdomain
      · cases hdomain
        cases he
  | ok d =>
    obtain ⟨domain, afterDomain⟩ := d
    obtain ⟨hok, rfl⟩ := Frame.domainSuffix_eq_ok hdomain
    rw [hdomain, ok_bind] at h
    cases hdate : dateSuffix version afterDomain with
    | error e' =>
      refine .date hok ?_
      unfold dateSuffix at hdate
      split at hdate
      · assumption
      · cases hdate
    | ok t =>
      obtain ⟨date, afterDate⟩ := t
      obtain ⟨count, hcount, -, rfl⟩ := Frame.dateSuffix_eq_ok hdate
      simp only [hdate, ok_bind] at h
      cases hlength : lengthSuffix afterDate with
      | error e' =>
        refine .length hok hcount ?_
        unfold lengthSuffix at hlength
        split at hlength
        · assumption
        · cases hlength
      | ok l =>
        obtain ⟨declared, body⟩ := l
        obtain ⟨hdeclared, rfl⟩ := Frame.lengthSuffix_eq_ok hlength
        refine .body hok hcount hdeclared ?_
        simp only [hlength, ok_bind, bodySuffix, reduceCtorEq, false_and, if_false, true_and] at h
        split at h
        · omega
        split at h
        · cases h
          cases he
        · cases h

/-! ## What can still be a frame -/

/-- Bytes that fall short of a length are filled up to it. -/
theorem exists_fill (part : List UInt8) {n : Nat} (h : part.length ≤ n) :
    ∃ full : List UInt8, full.length = n ∧ part <+: full := by
  refine ⟨part ++ List.replicate (n - part.length) 0, ?_, List.prefix_append ..⟩
  rw [List.length_append, List.length_replicate]
  omega

theorem prefix_append_cases {l a b : List UInt8} (h : l <+: a ++ b) :
    l <+: a ∨ ∃ t, l = a ++ t ∧ t <+: b := by
  rcases List.prefix_or_prefix_of_prefix h (List.prefix_append a b) with ha | ⟨t, rfl⟩
  · exact .inl ha
  · exact .inr ⟨t, rfl, (List.prefix_append_right_inj a).mp h⟩

/-- A domain that bytes have gone past is the one they are gone on to. -/
theorem domain_unique {domain domain' : String} {part rest : List UInt8} (h : DomainOk domain)
    (h' : DomainOk domain') (hbegins : utf8 domain' ++ 0 :: part <+: utf8 domain ++ 0 :: rest) :
    domain' = domain := by
  obtain ⟨more, hmore⟩ := hbegins
  have hread := Frame.domainSuffix_append h rest
  rw [← hmore, List.append_assoc, List.cons_append, Frame.domainSuffix_append h'] at hread
  cases hread
  rfl

/-- **Where a read stopped short, what has arrived begins a frame** of any domain and payload length
that what has arrived of the two is gone on to. -/
theorem exists_frame_of_stopsShort (hne : version ≠ .empty) (hstops : StopsShort version bytes)
    {domain : String} (hdomain : DomainOk domain) {rest : List UInt8}
    (hbegins : bytes <+: utf8 domain ++ 0 :: rest) {n : Nat} (hn : n ≤ u32Max)
    (hlength : Frame.lengthBytes version bytes <+: toLe 4 n) :
    ∃ f : Frame, f.version = version ∧ f.domain = domain ∧ f.payload.length = n ∧
      version.asByte :: bytes <+: f.bytes := by
  -- what has arrived after the domain, the date and the length is gone on with in turn
  have hbuild : ∀ count (full : List UInt8), count < 256 ^ dateLength version →
      full.length = n + SIGNATURE_LENGTH →
      bytes <+: utf8 domain ++ 0 :: (dateBytes version count ++ (toLe 4 n ++ full)) →
      ∃ f : Frame, f.version = version ∧ f.domain = domain ∧ f.payload.length = n ∧
        version.asByte :: bytes <+: f.bytes := by
    intro count full hcount hfull hprefix
    have htake : (full.take n).length = n := by
      rw [List.length_take]
      omega
    refine ⟨⟨version, domain, count, full.take n, full.drop n, hne, hdomain, hcount, ?_, ?_⟩, rfl,
      rfl, htake, ?_⟩
    · rw [htake]
      exact hn
    · rw [List.length_drop]
      omega
    · simp only [Frame.bytes, Frame.head, htake, List.cons_append, List.append_assoc,
        List.take_append_drop, List.cons_prefix_cons, true_and, List.nil_append]
      exact hprefix
  obtain ⟨body, hbody, -⟩ := exists_fill [] (Nat.zero_le (n + SIGNATURE_LENGTH))
  cases hstops with
  | domain h0 =>
    refine hbuild 0 body (Nat.pow_pos (by decide)) hbody ?_
    rcases prefix_append_cases hbegins with hprefix | ⟨t, rfl, ht⟩
    · exact hprefix.trans (List.prefix_append ..)
    · rcases List.prefix_cons_iff.mp ht with rfl | ⟨t', rfl, -⟩
      · simp
      · exact absurd (by simp) h0
  | @date domain' part hok hshort =>
    obtain rfl := domain_unique hdomain hok hbegins
    obtain ⟨date, hdate, hprefix⟩ := exists_fill part hshort.le
    refine hbuild _ body (countOf_lt hdate) hbody ?_
    rw [dateBytes_countOf hdate, List.prefix_append_right_inj, List.cons_prefix_cons]
    exact ⟨rfl, hprefix.trans (List.prefix_append ..)⟩
  | @length domain' count part hok hcount hshort =>
    obtain rfl := domain_unique hdomain hok hbegins
    refine hbuild count body hcount hbody ?_
    rw [Frame.lengthBytes_domain hok, List.drop_left' (length_dateBytes version count),
      List.take_of_length_le (by omega)] at hlength
    rw [List.prefix_append_right_inj, List.cons_prefix_cons, List.prefix_append_right_inj]
    exact ⟨rfl, hlength.trans (List.prefix_append ..)⟩
  | @body domain' count declared part hok hcount hdeclared hshort =>
    obtain rfl := domain_unique hdomain hok hbegins
    rw [Frame.lengthBytes_domain hok, List.drop_left' (length_dateBytes version count),
      List.take_left' (length_toLe 4 declared)] at hlength
    have hbytes : toLe 4 declared = toLe 4 n := hlength.eq_of_length (by simp)
    simp only [u32Max] at hn hdeclared
    have hsame : declared = n := by
      rw [← ofLe_toLe (w := 4) (n := declared) (by omega), hbytes, ofLe_toLe (by omega)]
    subst hsame
    obtain ⟨full, hfull, hprefix⟩ := exists_fill part hshort.le
    refine hbuild count full hcount hfull ?_
    rw [List.prefix_append_right_inj, List.cons_prefix_cons, List.prefix_append_right_inj,
      List.prefix_append_right_inj]
    exact ⟨rfl, hprefix⟩

/-! ## What a frame begins with -/

theorem take_drop_prefix {l a b c : List UInt8} (h : l <+: a ++ (b ++ c)) :
    (l.drop a.length).take b.length <+: b := by
  obtain ⟨x, hx⟩ := h
  have hdrop : l.drop a.length <+: b ++ c := by
    refine ⟨x.drop (a.length - l.length), ?_⟩
    rw [← List.drop_append, hx, List.drop_left]
  exact List.prefix_of_prefix_length_le ((List.take_prefix ..).trans hdrop)
    (List.prefix_append b c) (List.length_take_le ..)

/-- What has arrived of the payload length of a frame is gone on to it. -/
theorem lengthBytes_prefix {f : Frame} {rest : List UInt8}
    (h : bytes <+: utf8 f.domain ++ 0 :: (dateBytes f.version f.count ++
      (toLe 4 f.payload.length ++ rest))) :
    Frame.lengthBytes f.version bytes <+: toLe 4 f.payload.length := by
  have hbegun : bytes <+: utf8 f.domain →
      Frame.lengthBytes f.version bytes <+: toLe 4 f.payload.length := by
    intro hprefix
    have hzero : ∀ b ∈ bytes, (b != 0) = true := by
      intro b hb
      simpa using fun hb0 : b = 0 => f.domain_ok.1 (hb0 ▸ hprefix.mem hb)
    rw [Frame.lengthBytes, Frame.lengthOffset, List.takeWhile_eq_self_iff.mpr hzero,
      List.drop_eq_nil_of_le (by omega), List.take_nil]
    exact List.nil_prefix
  rcases prefix_append_cases h with hprefix | ⟨t, rfl, ht⟩
  · exact hbegun hprefix
  rcases List.prefix_cons_iff.mp ht with rfl | ⟨t', rfl, ht'⟩
  · exact hbegun (by simp)
  · have harrived := take_drop_prefix ht'
    rwa [length_dateBytes, length_toLe, ← Frame.lengthBytes_domain f.domain_ok] at harrived

theorem reserves_of_bodySuffix {extent : Extent} {declared : Nat}
    {payload signature rest : List UInt8}
    (h : bodySuffix m extent declared bytes = .ok ((payload, signature), rest)) :
    m.reserves payload.length = true := by
  obtain ⟨-, hlength, -⟩ := Frame.bodySuffix_eq_ok h
  simp only [bodySuffix] at h
  split at h
  · cases h
  split at h
  · cases h
  split at h
  · cases h
  rename_i hcap
  rw [hlength]
  by_contra hno
  exact hcap (.inr (Bool.eq_false_iff.mpr hno))

/-- What was read had its payload reserved. -/
theorem reserves_of_framedSuffix {b rest : List UInt8} {o : Owid}
    (h : framedSuffix m b = .ok (some o, rest)) : m.reserves o.payload.length = true := by
  obtain ⟨f, rfl, rfl⟩ := framedSuffix_eq_some h
  rw [f.bytes_append, framedSuffix_version f.version_ne] at h
  obtain ⟨p, hfields, -⟩ := bind_eq_ok h
  rw [fieldsSuffix, Frame.domainSuffix_append f.domain_ok, ok_bind] at hfields
  simp only [Frame.dateSuffix_append f.version f.count_lt, Frame.lengthSuffix_append f.payload_le,
    ok_bind] at hfields
  obtain ⟨⟨⟨payload, signature⟩, rest'⟩, hbody, -⟩ := bind_eq_ok hfields
  have hlength := (Frame.bodySuffix_eq_ok hbody).2.1
  have hr := reserves_of_bodySuffix hbody
  rw [hlength] at hr
  exact hr

/-- What a frame takes. -/
theorem length_bytes_fields (f : Frame) : f.bytes.length = 1 + (utf8 f.domain).length + 1 +
    dateLength f.version + 4 + f.payload.length + SIGNATURE_LENGTH := by
  rw [f.length_bytes]
  simp only [Owid.lengths, Frame.owid, List.sum_cons, List.sum_nil, if_true]
  omega

/-- **More bytes can help exactly where those that have arrived of the domain and of the payload
length can be gone on with**, to a frame that a slice can hold and whose payload can be reserved. -/
theorem waitingHelps_iff {b : List UInt8} (hb : m.Holds b) {e : ParseError}
    (h : Owid.readFromPrefix m b = .error (.fail e)) (he : e.status = .unexpectedEnd) :
    (∃ x, m.HoldsVec (b ++ x) ∧ ∃ o rest, Owid.readFromPrefix m (b ++ x) = .ok (some o, rest)) ↔
      CanGoOn m b := by
  rw [readFromPrefix_eq hb, Chunks.mapError_eq_error] at h
  obtain ⟨e', hstop, hfail⟩ := h
  cases hfail
  constructor
  · rintro ⟨x, hx, o, rest, hread⟩
    rw [readFromPrefix_eq hx.holds, Chunks.mapError_eq_ok] at hread
    obtain ⟨f, hbytes, rfl⟩ := framedSuffix_eq_some hread
    have hr := reserves_of_framedSuffix hread
    have hfits : f.bytes.length ≤ m.usizeMax / 2 := by
      rw [hbytes, Machine.HoldsVec, List.length_append] at hx
      exact (Nat.le_add_right _ _).trans hx
    cases b with
    | nil =>
      cases hstop
      cases he
    | cons byte bytes =>
      rw [f.bytes_append] at hbytes
      obtain ⟨rfl, htail⟩ := List.cons.inj hbytes
      exact ⟨f.version, bytes, rfl, f.domain, f.payload.length, f.domain_ok, ⟨_, x, htail⟩,
        f.payload_le, lengthBytes_prefix ⟨x, htail⟩, hr, length_bytes_fields f ▸ hfits⟩
  · rintro ⟨version, bytes, rfl, domain, n, hdomain, ⟨rest, hbegins⟩, hn, hlength, hr, hfits⟩
    have hne : version ≠ .empty := by
      rintro rfl
      cases hstop
    rw [framedSuffix_version hne, bind_ok_eq_error] at hstop
    obtain ⟨f, rfl, rfl, rfl, x, hx⟩ := exists_frame_of_stopsShort hne
      (stopsShort_of_fieldsSuffix hstop he) hdomain hbegins hn hlength
    have hvec : m.HoldsVec (f.bytes ++ []) := by
      rw [List.append_nil, Machine.HoldsVec, length_bytes_fields]
      exact hfits
    rw [List.append_nil] at hvec
    refine ⟨x, hx ▸ hvec, f.owid, [], ?_⟩
    rw [hx, ← f.bytes.append_nil]
    exact f.readFromPrefix_bytes hr (by rw [List.append_nil]; exact hvec.holds)

/-- Where every payload length can be reserved and a slice can hold every frame, only the domain
decides. -/
theorem canGoOn_iff_of_reserves (hr : ∀ n ≤ u32Max, m.reserves n = true)
    (hroom : MAXIMUM_DOMAIN_LENGTH + u32Max + 74 ≤ m.usizeMax / 2) {b : List UInt8} :
    CanGoOn m b ↔ ∃ (version : Version) (bytes : List UInt8), b = version.asByte :: bytes ∧
      ∃ domain, DomainOk domain ∧ ∃ rest, bytes <+: utf8 domain ++ 0 :: rest := by
  constructor
  · rintro ⟨version, bytes, hb, domain, -, hdomain, hbegins, -⟩
    exact ⟨version, bytes, hb, domain, hdomain, hbegins⟩
  · rintro ⟨version, bytes, hb, domain, hdomain, hbegins⟩
    obtain ⟨full, hfull, hprefix⟩ := exists_fill (Frame.lengthBytes version bytes) (n := 4)
      (List.length_take_le ..)
    have hlt := ofLe_lt full
    have hback := toLe_ofLe full
    rw [hfull] at hlt hback
    have hle : ofLe full ≤ u32Max := by
      simp only [u32Max]
      omega
    refine ⟨version, bytes, hb, domain, ofLe full, hdomain, hbegins, hle, ?_, hr _ hle, ?_⟩
    · rw [hback]
      exact hprefix
    · have hdate : dateLength version ≤ 4 := by cases version <;> decide
      have hbound := hdomain.2
      simp only [SIGNATURE_LENGTH]
      omega

/-- A 64 bit machine that reserves what a vector can hold. -/
def vecMachine : Machine := ⟨18446744073709551615, fun n => decide (n ≤ 9223372036854775807)⟩

/-- A frame cut inside its domain. -/
theorem waitingHelps_sample : ∃ x, vecMachine.HoldsVec (sampleBytes.take 3 ++ x) ∧
    ∃ o rest, Owid.readFromPrefix vecMachine (sampleBytes.take 3 ++ x) = .ok (some o, rest) := by
  have hread : Owid.readFromPrefix vecMachine (sampleBytes.take 3) =
      .error (.fail ⟨.unexpectedEnd, some (.field "the creator domain")⟩) := by decide +kernel
  exact (waitingHelps_iff (by decide) hread rfl).mpr
    ⟨.version3, [97, 98], rfl, "ab", 0, ⟨by decide, by decide⟩, ⟨[], by decide⟩, Nat.zero_le _,
      by decide, by decide, by decide⟩

/-- **A byte that begins no character is waited on like any other**, and nothing that follows it
makes an OWID. -/
theorem waiting_never_helps :
    Owid.readFromPrefix vecMachine [3, 0xFF] =
        .error (.fail ⟨.unexpectedEnd, some (.field "the creator domain")⟩) ∧
      ¬ ∃ x, vecMachine.HoldsVec ([3, 0xFF] ++ x) ∧
        ∃ o rest, Owid.readFromPrefix vecMachine ([3, 0xFF] ++ x) = .ok (some o, rest) := by
  refine ⟨by decide +kernel, ?_⟩
  rintro ⟨x, hx, o, rest, hread⟩
  rw [readFromPrefix_eq hx.holds, Chunks.mapError_eq_ok] at hread
  obtain ⟨f, hbytes, -⟩ := framedSuffix_eq_some hread
  rw [f.bytes_append] at hbytes
  obtain ⟨-, htail⟩ := List.cons.inj hbytes
  cases hdomain : utf8 f.domain with
  | nil =>
    rw [hdomain] at htail
    exact absurd (List.cons.inj htail).1 (by decide)
  | cons first domain =>
    rw [hdomain] at htail
    have hfirst := isUTF8FirstByte_of_utf8_eq_cons hdomain
    rw [← (List.cons.inj htail).1] at hfirst
    exact absurd hfirst (by decide)

end OwidRust
