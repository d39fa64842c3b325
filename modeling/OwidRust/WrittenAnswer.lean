import OwidRust.Endpoints

/-!
# Answers as they are written

A creator checks the moments it holds in memory, and a client those it reads: whole seconds, of
years with four digits.  The check after the writing is another one than the check before.

* `parse_toJson_whole` — an answer of whole seconds is read back as it was;
* `parse_written` — an answer is read back with the fractions of its moments dropped;
* `publicKeyAnswer_accepted_iff` — a client accepts what was written exactly where the moments have
  years of four digits and keep their order as whole seconds;
* `publicKeyResponseAt_states_iff` — the scheduled end point states the key in force and its span
  exactly where the ends of the span are whole seconds of such years.
-/

namespace OwidRust

open Periods

/-- The moment 0000-01-01T00:00:00Z. -/
def startOfYear0 : Moment := ⟨-62167219200 * 1000000000⟩

/-- The years from 0 to 9999. -/
def FourDigitYear (d : Moment) : Prop := startOfYear0 ≤ d ∧ d < endOfYear9999

instance (d : Moment) : Decidable (FourDigitYear d) :=
  inferInstanceAs (Decidable (startOfYear0 ≤ d ∧ d < endOfYear9999))

/-- What the documentation of `chrono` says of RFC 3339 at seconds precision: the writer drops the
fraction and puts a sign before a year that has not four digits, and the reader takes years of four
digits only. -/
structure Chrono.Documented (ch : Chrono) : Prop where
  drops : ∀ d, ch.toRfc3339 d = ch.toRfc3339 d.wholeSecond
  reads : ∀ d, FourDigitYear d → ch.parseFromRfc3339 (ch.toRfc3339 d) = some d.wholeSecond
  refuses : ∀ d, ¬ FourDigitYear d → ch.parseFromRfc3339 (ch.toRfc3339 d) = none

variable {p : P256} {ch : Chrono}

theorem Chrono.Documented.sound (hch : ch.Documented) : ch.Sound where
  parse_toRfc3339 seconds hlt := by
    have hyear : FourDigitYear ⟨seconds * 1000000000⟩ := by
      refine ⟨?_, hlt⟩
      rw [Moment.le_def]
      simp only [startOfYear0]
      omega
    have hwhole : Moment.wholeSecond ⟨seconds * 1000000000⟩ = ⟨seconds * 1000000000⟩ := by
      ext
      simp only [Moment.wholeSecond]
      omega
    rw [hch.reads _ hyear, hwhole]

/-! ## Whole seconds -/

/-- The reader of RFC 3339 reads back what the writer writes of whole seconds, in years of four
digits. -/
structure Chrono.ReadsBack (ch : Chrono) : Prop where
  parse_toRfc3339 : ∀ d, FourDigitYear d → d.wholeSecond = d →
    ch.parseFromRfc3339 (ch.toRfc3339 d) = some d

theorem Chrono.Documented.readsBack (hch : ch.Documented) : ch.ReadsBack where
  parse_toRfc3339 d hyear hwhole := by rw [hch.reads d hyear, hwhole]

/-- **An answer of whole seconds is read back from its JSON as it was**, whatever characters its
format and its key are made of. -/
theorem parse_toJson_whole (hch : ch.ReadsBack) {a : PublicKeyAnswer}
    (hfrom : ∀ d ∈ a.validFrom, FourDigitYear d ∧ d.wholeSecond = d)
    (hto : ∀ d ∈ a.validTo, FourDigitYear d ∧ d.wholeSecond = d) :
    PublicKeyAnswer.parse ch (a.toJson ch) = .ok a := by
  apply PublicKeyAnswer.parse_toJson
  · intro d hd
    obtain ⟨hyear, hwhole⟩ := hfrom d hd
    exact hch.parse_toRfc3339 d hyear hwhole
  · intro d hd
    obtain ⟨hyear, hwhole⟩ := hto d hd
    exact hch.parse_toRfc3339 d hyear hwhole

/-! ## Fractions dropped -/

/-- The moments of an answer are read back, and the span is still one. -/
def WrittenInOrder (validFrom validTo : Option Moment) : Prop :=
  (∀ d ∈ validFrom, FourDigitYear d) ∧ (∀ d ∈ validTo, FourDigitYear d) ∧
    ∀ start ∈ validFrom, ∀ stop ∈ validTo, start.wholeSecond < stop.wholeSecond

theorem moment_written (hch : ch.Documented) {d : Option Moment} (h : ∀ m ∈ d, FourDigitYear m)
    (name : String) :
    PublicKeyAnswer.moment ch (d.map ch.toRfc3339) name = .ok (d.map Moment.wholeSecond) := by
  cases d with
  | none => rfl
  | some m => simp only [Option.map_some, PublicKeyAnswer.moment, hch.reads m (h m rfl)]

theorem fourDigitYear_of_moment (hch : ch.Documented) {d read : Option Moment} {name : String}
    (h : PublicKeyAnswer.moment ch (d.map ch.toRfc3339) name = .ok read) :
    ∀ m ∈ d, FourDigitYear m := by
  rintro m rfl
  by_contra hyear
  simp only [Option.map_some, PublicKeyAnswer.moment, hch.refuses m hyear] at h
  cases h

/-- **An answer is read back without the fractions of its moments**, where their years have four
digits. -/
theorem parse_written (hch : ch.Documented) {a : PublicKeyAnswer}
    (hfrom : ∀ d ∈ a.validFrom, FourDigitYear d) (hto : ∀ d ∈ a.validTo, FourDigitYear d) :
    PublicKeyAnswer.parse ch (a.toJson ch) = .ok ⟨a.format, a.publicKey,
      a.validFrom.map Moment.wholeSecond, a.validTo.map Moment.wholeSecond⟩ := by
  rw [PublicKeyAnswer.parse_toJson_eq, moment_written hch hfrom, ok_bind, moment_written hch hto,
    ok_bind]

/-- Otherwise it is not read at all. -/
theorem years_of_parse (hch : ch.Documented) {a read : PublicKeyAnswer}
    (h : PublicKeyAnswer.parse ch (a.toJson ch) = .ok read) :
    (∀ d ∈ a.validFrom, FourDigitYear d) ∧ ∀ d ∈ a.validTo, FourDigitYear d := by
  rw [PublicKeyAnswer.parse_toJson_eq] at h
  obtain ⟨validFrom, hfrom, h⟩ := bind_eq_ok h
  obtain ⟨validTo, hto, -⟩ := bind_eq_ok h
  exact ⟨fourDigitYear_of_moment hch hfrom, fourDigitYear_of_moment hch hto⟩

theorem publicKeyAnswer_eq_ok_iff {publicKeyPem body : String}
    {validFrom validTo asked : Option Moment} :
    publicKeyAnswer p ch publicKeyPem validFrom validTo asked = .ok body ↔
      (PublicKeyAnswer.new publicKeyPem validFrom validTo).validate p asked = .ok () ∧
        body = (PublicKeyAnswer.new publicKeyPem validFrom validTo).toJson ch := by
  unfold publicKeyAnswer
  constructor
  · intro h
    obtain ⟨⟨⟩, hvalid, hbody⟩ := bind_eq_ok h
    exact ⟨hvalid, (Except.ok.inj hbody).symm⟩
  · rintro ⟨hvalid, rfl⟩
    simp only [hvalid, ok_bind]

/-- **A client accepts what a creator sends exactly where the moments are written in order.**  The
condition is on what the creator is asked to state; where its own check fails nothing is sent. -/
theorem publicKeyAnswer_accepted_iff (hch : ch.Documented) (publicKeyPem : String)
    (validFrom validTo asked : Option Moment) :
    (∀ body, publicKeyAnswer p ch publicKeyPem validFrom validTo asked = .ok body →
      ∃ answer, PublicKeyAnswer.parse ch body = .ok answer ∧ answer.validate p none = .ok ()) ↔
    ((PublicKeyAnswer.new publicKeyPem validFrom validTo).validate p asked = .ok () →
      WrittenInOrder validFrom validTo) := by
  constructor
  · intro h hvalid
    obtain ⟨answer, hparse, haccepted⟩ := h _ (publicKeyAnswer_eq_ok_iff.mpr ⟨hvalid, rfl⟩)
    obtain ⟨hfrom, hto⟩ := years_of_parse hch hparse
    rw [parse_written hch hfrom hto] at hparse
    cases hparse
    refine ⟨hfrom, hto, ?_⟩
    rintro start rfl stop rfl
    have hspan := (PublicKeyAnswer.validate_eq_ok_iff.mp haccepted).2.2.1
    obtain ⟨_, ⟨⟩, hlt⟩ := PublicKeyAnswer.checkSpan_eq_ok_iff.mp hspan _ rfl
    exact hlt
  · intro h body hbody
    obtain ⟨hvalid, rfl⟩ := publicKeyAnswer_eq_ok_iff.mp hbody
    obtain ⟨hfrom, hto, horder⟩ := h hvalid
    refine ⟨_, parse_written hch hfrom hto, ?_⟩
    obtain ⟨-, hreadable, hspan, -⟩ := PublicKeyAnswer.validate_eq_ok_iff.mp hvalid
    refine PublicKeyAnswer.validate_eq_ok_iff.mpr ⟨rfl, hreadable, ?_, rfl⟩
    rw [PublicKeyAnswer.checkSpan_eq_ok_iff] at hspan ⊢
    intro stop hstop
    obtain ⟨stop', hstop', rfl⟩ := Option.map_eq_some_iff.mp hstop
    obtain ⟨start, hstart, -⟩ := hspan stop' hstop'
    exact ⟨start.wholeSecond, Option.mem_map_of_mem _ hstart, horder start hstart stop' hstop'⟩

/-! ## Two moments of one second -/

/-- 2020-01-01T00:10:10Z. -/
def tenPastTen : Moment := ⟨1577837410 * 1000000000⟩

/-- 2020-01-01T00:10:40Z. -/
def tenPastForty : Moment := ⟨1577837440 * 1000000000⟩

/-- Two seconds in RFC 3339, and any other as its count of seconds from the year 0 on. -/
def secondsChrono : Chrono where
  parseFromRfc3339 := fun text =>
    if text.toList.all Char.isDigit then
      let d : Moment :=
        ⟨startOfYear0.nanos + (Nat.ofDigitChars 10 text.toList 0 : Int) * 1000000000⟩
      if d < endOfYear9999 then some d else none
    else if text = "2020-01-01T00:10:10Z" then some tenPastTen
    else if text = "2020-01-01T00:10:40Z" then some tenPastForty
    else none
  toRfc3339 := fun d =>
    if d.wholeSecond = tenPastTen then "2020-01-01T00:10:10Z"
    else if d.wholeSecond = tenPastForty then "2020-01-01T00:10:40Z"
    else if FourDigitYear d then
      Nat.repr ((d.nanos - startOfYear0.nanos) / 1000000000).toNat
    else "+10000-01-01T00:00:00Z"

theorem wholeSecond_wholeSecond (d : Moment) : d.wholeSecond.wholeSecond = d.wholeSecond := by
  ext
  simp only [Moment.wholeSecond]
  omega

theorem fourDigitYear_wholeSecond {d : Moment} : FourDigitYear d.wholeSecond ↔ FourDigitYear d := by
  simp only [FourDigitYear, Moment.le_def, Moment.lt_def, Moment.wholeSecond, startOfYear0,
    endOfYear9999]
  omega

/-- The second of a moment, counted from the year 0 on. -/
theorem wholeSecond_eq {d : Moment} (h : startOfYear0 ≤ d) :
    d.wholeSecond = ⟨startOfYear0.nanos +
      (((d.nanos - startOfYear0.nanos) / 1000000000).toNat : Int) * 1000000000⟩ := by
  rw [Moment.le_def] at h
  ext
  simp only [Moment.wholeSecond, startOfYear0] at h ⊢
  omega

theorem secondsChrono_documented : secondsChrono.Documented where
  drops d := by
    have hcount : FourDigitYear d →
        ((d.nanos - startOfYear0.nanos) / 1000000000).toNat =
          ((d.wholeSecond.nanos - startOfYear0.nanos) / 1000000000).toNat := by
      intro _
      simp only [Moment.wholeSecond, startOfYear0]
      omega
    simp only [secondsChrono, wholeSecond_wholeSecond, fourDigitYear_wholeSecond]
    by_cases hyear : FourDigitYear d
    · rw [hcount hyear]
    · simp only [hyear, if_false]
  reads d hyear := by
    simp only [secondsChrono]
    split
    · rename_i h
      rw [h]
      decide +kernel
    split
    · rename_i h
      rw [h]
      decide +kernel
    · have hdigits : ∀ n : Nat, (Nat.repr n).toList = Nat.toDigits 10 n := by
        intro n
        rw [Nat.repr_eq_ofList_toDigits, String.toList_ofList]
      have hall : ∀ n : Nat, (Nat.repr n).toList.all Char.isDigit = true := by
        intro n
        rw [hdigits, List.all_eq_true]
        intro c hc
        exact Nat.isDigit_of_mem_toDigits (by decide) (by decide) hc
      have hlt : d.wholeSecond < endOfYear9999 := (fourDigitYear_wholeSecond.mpr hyear).2
      rw [if_pos (hall _), hdigits, Nat.ofDigitChars_ten_toDigits,
        ← wholeSecond_eq hyear.1, if_pos hlt]
  refuses d hyear := by
    have hten : d.wholeSecond ≠ tenPastTen := by
      intro h
      exact hyear (fourDigitYear_wholeSecond.mp (h ▸ by decide))
    have hforty : d.wholeSecond ≠ tenPastForty := by
      intro h
      exact hyear (fourDigitYear_wholeSecond.mp (h ▸ by decide))
    simp only [secondsChrono, hten, hforty, hyear, if_false]
    decide +kernel

/-- A format with a quotation mark and a backslash, and a key with a line end, a control character
and one beyond ASCII. -/
def quotedAnswer : PublicKeyAnswer := ⟨"s\"p\\ki", "k\n\x01é", some tenPastTen, none⟩

theorem parse_toJson_whole_quoted :
    PublicKeyAnswer.parse secondsChrono (quotedAnswer.toJson secondsChrono) = .ok quotedAnswer := by
  apply parse_toJson_whole secondsChrono_documented.readsBack
  · rintro d ⟨⟩
    exact ⟨by decide, by decide⟩
  · rintro d ⟨⟩

/-- A key stated from a fifth of second 10 to seven tenths of second 40. -/
theorem publicKeyAnswer_accepted_seconds : ∃ body answer,
    publicKeyAnswer sampleP256 secondsChrono samplePem (some ⟨tenPastTen.nanos + 200000000⟩)
      (some ⟨tenPastForty.nanos + 700000000⟩) none = .ok body ∧
    PublicKeyAnswer.parse secondsChrono body = .ok answer ∧
    answer.validate sampleP256 none = .ok () := by
  have hchecked : (PublicKeyAnswer.new samplePem (some ⟨tenPastTen.nanos + 200000000⟩)
      (some ⟨tenPastForty.nanos + 700000000⟩)).validate sampleP256 none = .ok () :=
    PublicKeyAnswer.validate_eq_ok_iff.mpr ⟨rfl, readable_samplePem, by decide +kernel, rfl⟩
  have hbody : publicKeyAnswer sampleP256 secondsChrono samplePem
      (some ⟨tenPastTen.nanos + 200000000⟩) (some ⟨tenPastForty.nanos + 700000000⟩) none = .ok _ :=
    publicKeyAnswer_eq_ok_iff.mpr ⟨hchecked, rfl⟩
  obtain ⟨answer, hparse, hvalid⟩ := (publicKeyAnswer_accepted_iff secondsChrono_documented _ _ _
    none).mpr (fun _ => ⟨by rintro d ⟨⟩; decide, by rintro d ⟨⟩; decide,
      by rintro start ⟨⟩ stop ⟨⟩; decide⟩) _ hbody
  exact ⟨_, answer, hbody, hparse, hvalid⟩

/-- A key stated from a fifth to seven tenths of second 10 passes the creator's check, and as it is
read back it ends where it starts. -/
theorem publicKeyAnswer_refused_within_second : ∃ body answer,
    publicKeyAnswer sampleP256 secondsChrono samplePem (some ⟨tenPastTen.nanos + 200000000⟩)
      (some ⟨tenPastTen.nanos + 700000000⟩) none = .ok body ∧
    PublicKeyAnswer.parse secondsChrono body = .ok answer ∧
    answer.validate sampleP256 none =
      .error (.key "the public key answer states a key that ends before it starts") := by
  have hchecked : (PublicKeyAnswer.new samplePem (some ⟨tenPastTen.nanos + 200000000⟩)
      (some ⟨tenPastTen.nanos + 700000000⟩)).validate sampleP256 none = .ok () :=
    PublicKeyAnswer.validate_eq_ok_iff.mpr ⟨rfl, readable_samplePem, by decide +kernel, rfl⟩
  refine ⟨_, _, publicKeyAnswer_eq_ok_iff.mpr ⟨hchecked, rfl⟩,
    parse_written secondsChrono_documented ?_ ?_, ?_⟩
  · rintro d ⟨⟩
    decide
  · rintro d ⟨⟩
    decide
  · rw [PublicKeyAnswer.validate_of_readable]
    · decide +kernel
    · rfl
    · exact readable_samplePem

/-! ## What the scheduled end point states -/

/-- A moment that is read back as it was: a whole second of a year with four digits. -/
def WrittenWhole (d : Moment) : Prop := FourDigitYear d ∧ d.wholeSecond = d

/-- The request is answered as it should be: 400 exactly for a bad one, 404 exactly where no key had
started at the moment asked about, and otherwise a body that states, as it is read, the key in force
at it, from its start to the next. -/
def AnsweredRight (p : P256) (ch : Chrono) (keys : List DatedPublicKey)
    (format date : Option String) (now : Moment) : Prop :=
  ∃ status body, publicKeyResponseAt p ch (.new keys) format date now = .ok (status, body) ∧
    (status = 400 ↔ BadRequest format date) ∧
    (¬ BadRequest format date → ∃ asked, Asks date now asked ∧
      (status = 404 ↔ ∀ key ∈ keys, asked < key.startsAt) ∧
      (status ≠ 404 → status = 200 ∧ ∃ key, ∃ answer : PublicKeyAnswer,
        FirstInForce keys DatedPublicKey.startsAt asked key ∧
        PublicKeyAnswer.parse ch body = .ok answer ∧
        answer.format = SPKI_FORMAT ∧ answer.publicKey = key.publicKeyPem ∧
        answer.validFrom = some key.startsAt ∧
        (∀ stop, answer.validTo = some stop ↔
          IsLeast {d | (∃ other ∈ keys, other.startsAt = d) ∧ key.startsAt < d} stop) ∧
        (answer.validTo = none ↔ ∀ other ∈ keys, ¬ key.startsAt < other.startsAt) ∧
        key.startsAt ≤ asked ∧ ∀ stop ∈ answer.validTo, asked < stop))

/-- The key in force at the moment asked about starts at a moment that is read back, and so does the
one after it. -/
def SpanReadBack (keys : List DatedPublicKey) (format date : Option String) (now : Moment) : Prop :=
  ¬ BadRequest format date → ∀ asked key, Asks date now asked →
    FirstInForce keys DatedPublicKey.startsAt asked key →
    WrittenWhole key.startsAt ∧
      ∀ stop, IsLeast {d | (∃ other ∈ keys, other.startsAt = d) ∧ key.startsAt < d} stop →
        WrittenWhole stop

/-- What a reader makes of an answer that states a key of a schedule. -/
theorem written_of_parse (hch : ch.Documented) {s : PublicKeySchedule} {key : DatedPublicKey}
    {read : PublicKeyAnswer} (h : PublicKeyAnswer.parse ch ((s.answerFor key).toJson ch) = .ok read) :
    (FourDigitYear key.startsAt ∧ ∀ stop ∈ s.nextStartAfter key, FourDigitYear stop) ∧
      read.validFrom = some key.startsAt.wholeSecond ∧
      read.validTo = (s.nextStartAfter key).map Moment.wholeSecond := by
  obtain ⟨hfrom, hto⟩ := years_of_parse hch h
  rw [parse_written hch hfrom hto] at h
  cases h
  exact ⟨⟨hfrom _ rfl, hto⟩, rfl, rfl⟩

/-- **The scheduled end point states the key in force and its span exactly where the ends of the span
are whole seconds of years with four digits**, whatever keys that can be read were scheduled in
whatever order. -/
theorem publicKeyResponseAt_states_iff (hch : ch.Documented) {keys : List DatedPublicKey}
    (hreadable : ∀ key ∈ keys, Readable p key.publicKeyPem) (format date : Option String)
    (now : Moment) :
    AnsweredRight p ch keys format date now ↔ SpanReadBack keys format date now := by
  constructor
  · rintro ⟨status, body, hresponse, -, hgiven⟩ hgood asked key hasks hfirst
    obtain ⟨asked', hasks', hmissing, hfound⟩ := hgiven hgood
    have hasked := askedMoment_of_asks hasks
    obtain rfl : asked = asked' := Option.some.inj (hasked.symm.trans (askedMoment_of_asks hasks'))
    have hstatus : status ≠ 404 := fun h =>
      absurd hfirst.1.started (not_le.mpr (hmissing.mp h key hfirst.1.mem))
    obtain ⟨rfl, key', read, hfirst', hparse, -, -, hfrom, hto, -⟩ := hfound hstatus
    obtain rfl := hfirst.unique hfirst'
    -- the body is what was written of the span in memory
    have hchosen := PublicKeySchedule.keyInForce_new_eq_some_iff.mpr hfirst
    have hformat := ((not_badRequest_iff now).mp hgood).1
    rw [publicKeyResponseAt_of_chosen hformat hasked hchosen (hreadable key hfirst.1.mem)]
      at hresponse
    obtain ⟨-, rfl⟩ := Prod.mk.inj (Except.ok.inj hresponse)
    obtain ⟨⟨hyear, hyears⟩, hreadFrom, hreadTo⟩ := written_of_parse hch hparse
    refine ⟨⟨hyear, Option.some.inj (hreadFrom.symm.trans hfrom)⟩, ?_⟩
    intro stop hleast
    have hnext := ((PublicKeySchedule.new_stops key).1 stop).mpr hleast
    refine ⟨hyears stop hnext, Option.some.inj ?_⟩
    rw [← (hto stop).mpr hleast, hreadTo, hnext]
    rfl
  · intro hspan
    obtain ⟨status, body, hresponse, hbad, hgiven⟩ :=
      @publicKeyResponseAt_answers p ch keys hreadable format date now
    refine ⟨status, body, hresponse, hbad, fun hgood => ?_⟩
    obtain ⟨asked, hasks, hmissing, hfound⟩ := hgiven hgood
    refine ⟨asked, hasks, hmissing, fun hstatus => ?_⟩
    obtain ⟨hok, key, answer, hfirst, rfl, hformat, hpem, hfrom, hto, hlast, hrest⟩ := hfound hstatus
    obtain ⟨hstart, hstop⟩ := hspan hgood asked key hasks hfirst
    refine ⟨hok, key, answer, hfirst, ?_, hformat, hpem, hfrom, hto, hlast, hrest⟩
    apply parse_toJson_whole hch.readsBack
    · intro d hd
      obtain rfl := Option.some.inj (hfrom.symm.trans hd)
      exact hstart
    · intro d hd
      exact hstop d ((hto d).mp hd)

/-- Two keys of whole seconds, the later one first. -/
def wholeKeys : List DatedPublicKey := [⟨tenPastForty, nextPem⟩, ⟨tenPastTen, samplePem⟩]

/-- Asked about between their starts, the end point states the earlier one up to the later. -/
theorem publicKeyResponseAt_states_whole : ∃ body answer,
    publicKeyResponseAt sampleP256 secondsChrono (.new wholeKeys) none (some "")
      (tenPastTen.addSeconds 20) = .ok (200, body) ∧
    PublicKeyAnswer.parse secondsChrono body = .ok answer ∧ answer.publicKey = samplePem ∧
    answer.validFrom = some tenPastTen ∧ answer.validTo = some tenPastForty := by
  have hmem : ∀ key ∈ wholeKeys, key = ⟨tenPastForty, nextPem⟩ ∨ key = ⟨tenPastTen, samplePem⟩ := by
    intro key hkey
    simpa [wholeKeys] using hkey
  have hreadable : ∀ key ∈ wholeKeys, Readable sampleP256 key.publicKeyPem := by
    intro key hkey
    rcases hmem key hkey with rfl | rfl
    · exact readable_nextPem
    · exact readable_samplePem
  have hgood : ¬ BadRequest none (some "") :=
    (not_badRequest_iff (tenPastTen.addSeconds 20)).mpr ⟨rfl, _, askedMoment_empty _⟩
  have hwhole : ∀ key ∈ wholeKeys, WrittenWhole key.startsAt := by
    intro key hkey
    rcases hmem key hkey with rfl | rfl
    · exact ⟨by decide, by decide⟩
    · exact ⟨by decide, by decide⟩
  obtain ⟨status, body, hresponse, -, hgiven⟩ :=
    (publicKeyResponseAt_states_iff secondsChrono_documented hreadable none (some "")
      (tenPastTen.addSeconds 20)).mpr (by
        rintro - asked key - hfirst
        refine ⟨hwhole key hfirst.1.mem, ?_⟩
        rintro _ ⟨⟨⟨other, hother, rfl⟩, -⟩, -⟩
        exact hwhole other hother)
  obtain ⟨asked, hasks, hmissing, hfound⟩ := hgiven hgood
  obtain rfl : tenPastTen.addSeconds 20 = asked :=
    Option.some.inj ((askedMoment_empty _).symm.trans (askedMoment_of_asks hasks))
  have hstatus : status ≠ 404 := fun h =>
    absurd (hmissing.mp h ⟨tenPastTen, samplePem⟩ (by simp [wholeKeys])) (by decide)
  obtain ⟨rfl, key, answer, hfirst, hparse, -, hpem, hfrom, hto, -⟩ := hfound hstatus
  rcases hmem key hfirst.1.mem with rfl | rfl
  · exact absurd hfirst.1.started (by decide)
  · refine ⟨body, answer, hresponse, hparse, hpem, hfrom, (hto tenPastForty).mpr ⟨⟨?_, by decide⟩, ?_⟩⟩
    · exact ⟨⟨tenPastForty, nextPem⟩, by simp [wholeKeys], rfl⟩
    · rintro _ ⟨⟨other, hother, rfl⟩, hlater⟩
      rcases hmem other hother with rfl | rfl
      · exact le_refl _
      · exact absurd hlater (lt_irrefl _)

/-- Two keys that start at a fifth and at seven tenths of one second. -/
def splitKeys : List DatedPublicKey :=
  [⟨⟨tenPastTen.nanos + 200000000⟩, samplePem⟩, ⟨⟨tenPastTen.nanos + 700000000⟩, nextPem⟩]

/-- Asked about in the middle of the second, the end point answers with the earlier key, and what it
sends states that the key ends where it starts, which a client refuses. -/
theorem publicKeyResponseAt_within_second :
    (∃ body answer, publicKeyResponseAt sampleP256 secondsChrono (.new splitKeys) none none
        ⟨tenPastTen.nanos + 500000000⟩ = .ok (200, body) ∧
      PublicKeyAnswer.parse secondsChrono body = .ok answer ∧
      answer.validFrom = some tenPastTen ∧ answer.validTo = some tenPastTen ∧
      answer.validate sampleP256 none =
        .error (.key "the public key answer states a key that ends before it starts")) ∧
    ¬ AnsweredRight sampleP256 secondsChrono splitKeys none none
      ⟨tenPastTen.nanos + 500000000⟩ := by
  have hreadable : ∀ key ∈ splitKeys, Readable sampleP256 key.publicKeyPem := by
    intro key hkey
    rcases List.mem_pair.mp hkey with rfl | rfl
    · exact readable_samplePem
    · exact readable_nextPem
  have hfirst : FirstInForce splitKeys DatedPublicKey.startsAt
      ⟨tenPastTen.nanos + 500000000⟩ ⟨⟨tenPastTen.nanos + 200000000⟩, samplePem⟩ := by
    refine ⟨⟨by simp [splitKeys], by decide, ?_⟩, [], _, rfl, nofun⟩
    intro other hother hstarted
    rcases List.mem_pair.mp hother with rfl | rfl
    · exact le_refl _
    · exact absurd hstarted (by decide)
  have hnext : (PublicKeySchedule.new splitKeys).nextStartAfter
      ⟨⟨tenPastTen.nanos + 200000000⟩, samplePem⟩ = some ⟨tenPastTen.nanos + 700000000⟩ := by
    refine ((PublicKeySchedule.new_stops _).1 _).mpr ⟨⟨⟨⟨_, nextPem⟩, ?_, rfl⟩, by decide⟩, ?_⟩
    · exact List.mem_pair.mpr (.inr rfl)
    · rintro _ ⟨⟨other, hother, rfl⟩, hlater⟩
      rcases List.mem_pair.mp hother with rfl | rfl
      · exact absurd hlater (lt_irrefl _)
      · exact le_refl _
  have hresponse : publicKeyResponseAt sampleP256 secondsChrono (.new splitKeys) none none
      ⟨tenPastTen.nanos + 500000000⟩ = .ok (200, ((PublicKeySchedule.new splitKeys).answerFor
        ⟨⟨tenPastTen.nanos + 200000000⟩, samplePem⟩).toJson secondsChrono) :=
    publicKeyResponseAt_of_chosen rfl rfl
      (PublicKeySchedule.keyInForce_new_eq_some_iff.mpr hfirst) readable_samplePem
  have hparse : PublicKeyAnswer.parse secondsChrono
      (((PublicKeySchedule.new splitKeys).answerFor
        ⟨⟨tenPastTen.nanos + 200000000⟩, samplePem⟩).toJson secondsChrono) =
      .ok ⟨SPKI_FORMAT, samplePem, some tenPastTen, some tenPastTen⟩ := by
    rw [PublicKeySchedule.answerFor, hnext, parse_written secondsChrono_documented]
    · rfl
    · rintro d ⟨⟩
      decide
    · rintro d ⟨⟩
      decide
  refine ⟨⟨_, _, hresponse, hparse, rfl, rfl, ?_⟩, ?_⟩
  · rw [PublicKeyAnswer.validate_of_readable]
    · decide +kernel
    · rfl
    · exact readable_samplePem
  · rintro ⟨status, body, hanswered, hbad, hgiven⟩
    rw [hresponse, Except.ok.injEq, Prod.mk.injEq] at hanswered
    obtain ⟨rfl, rfl⟩ := hanswered
    obtain ⟨asked, -, -, hfound⟩ := hgiven (fun h => absurd (hbad.mpr h) (by decide))
    obtain ⟨-, key, answer, hkey, hread, -, -, hfrom, -⟩ := hfound (by decide)
    rw [hparse, Except.ok.injEq] at hread
    subst hread
    -- neither key starts where the answer says
    rcases List.mem_pair.mp hkey.1.mem with rfl | rfl <;> exact absurd hfrom (by decide)

end OwidRust
