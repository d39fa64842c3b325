import OwidRust.KeyAnswer
import OwidRust.Schedule

/-!
# The public key end point

`public_key_answer` and `public_key_response_at` of `src/endpoints.rs`, what a creator that rotates
its key answers.

* `publicKeyResponseAt_eq_ok` — what a 200 was made of;
* `publicKeyResponseAt_of_inForce` — a readable key in force is always answered with: the answer
  passes the check it is put through;
* `publicKeyResponseAt_answers` — every request is answered, with the status its date calls for and
  an answer that was made of the span it calls for;
* `publicKeyResponseAt_eq_error_iff` — where it fails, and of what.
-/

namespace OwidRust

open Periods

/-- `serves_format`. -/
def servesFormat (format : Option String) : Bool := format.all (· == SPKI_FORMAT)

/-- `public_key_answer`. -/
def publicKeyAnswer (p : P256) (ch : Chrono) (publicKeyPem : String)
    (validFrom validTo asked : Option Moment) : Except Error String := do
  let answer := PublicKeyAnswer.new publicKeyPem validFrom validTo
  answer.validate p asked
  .ok (answer.toJson ch)

/-- The moment a request asks about: its date or the moment of the request, whichever is earlier.
Nothing where the date is not a count of minutes. -/
def askedMoment (date : Option String) (now : Moment) : Option Moment :=
  match date.filter (! ·.isEmpty) with
  | none => some now
  | some date => (parseU32 date.toList).map fun minutes => min (atMinute minutes) now

/-- `public_key_response_at`. -/
def publicKeyResponseAt (p : P256) (ch : Chrono) (schedule : PublicKeySchedule)
    (format date : Option String) (now : Moment) : Except Error (Nat × String) :=
  if !servesFormat format then .ok (400, "")
  else
    match askedMoment date now with
    | none => .ok (400, "")
    | some asked =>
      match schedule.keyInForce asked with
      | none => .ok (404, "")
      | some key => do
        let body ← publicKeyAnswer p ch key.publicKeyPem (some key.startsAt)
          (schedule.nextStartAfter key) (some asked)
        .ok (200, body)

/-- The answer that states a key of a schedule in full. -/
def PublicKeySchedule.answerFor (s : PublicKeySchedule) (key : DatedPublicKey) :
    PublicKeyAnswer :=
  .new key.publicKeyPem (some key.startsAt) (s.nextStartAfter key)

variable {p : P256} {ch : Chrono} {s : PublicKeySchedule}

/-- A request dated at a `u32` minute asks about it, or about now where it is yet to come. -/
theorem askedMoment_decimal {minute : Nat} (h : minute ≤ u32Max) (now : Moment) :
    askedMoment (some (String.ofList (decimal minute))) now =
      some (min (atMinute minute) now) := by
  have hne : (String.ofList (decimal minute)).isEmpty = false := by
    rw [← Bool.not_eq_true, String.isEmpty_iff, String.ofList_eq_empty_iff]
    exact decimal_ne_nil minute
  unfold askedMoment
  simp only [Option.filter_some, hne, Bool.not_false, if_true, String.toList_ofList,
    parseU32_decimal h, Option.map_some]

/-- What a 200 of the end point was made of. -/
theorem publicKeyResponseAt_eq_ok {format date : Option String} {now : Moment} {body : String}
    (h : publicKeyResponseAt p ch s format date now = .ok (200, body)) :
    ∃ asked key, askedMoment date now = some asked ∧ s.InForceAt asked key ∧
      body = (s.answerFor key).toJson ch := by
  unfold publicKeyResponseAt at h
  split at h
  · exact absurd (Prod.mk.inj (Except.ok.inj h)).1 (by decide)
  cases hasked : askedMoment date now with
  | none =>
    rw [hasked] at h
    exact absurd (Prod.mk.inj (Except.ok.inj h)).1 (by decide)
  | some asked =>
    rw [hasked] at h
    simp only at h
    cases hkey : s.keyInForce asked with
    | none =>
      rw [hkey] at h
      exact absurd (Prod.mk.inj (Except.ok.inj h)).1 (by decide)
    | some key =>
      rw [hkey] at h
      obtain ⟨written, hanswer, hbody⟩ := bind_eq_ok h
      obtain ⟨⟨⟩, -, hjson⟩ := bind_eq_ok hanswer
      rw [Except.ok.injEq] at hjson
      rw [Except.ok.injEq, Prod.mk.injEq] at hbody
      exact ⟨asked, key, rfl, PublicKeySchedule.keyInForce_eq_some hkey,
        hbody.2.symm.trans hjson.symm⟩

/-- **The answer that states a readable key in force passes its check.** -/
theorem validate_answerFor {asked : Moment} {key : DatedPublicKey} (hkey : s.InForceAt asked key)
    (hreadable : Readable p key.publicKeyPem) : (s.answerFor key).validate p (some asked) = .ok () := by
  rw [PublicKeyAnswer.validate_eq_ok_iff, PublicKeyAnswer.checkSpan_eq_ok_iff,
    PublicKeyAnswer.checkAsked_eq_ok_iff]
  refine ⟨rfl, hreadable, ?_, ?_, ?_⟩
  · intro stop hstop
    obtain ⟨⟨other, -, hlater, rfl⟩, -⟩ := PublicKeySchedule.nextStartAfter_eq_some_iff.mp hstop
    exact ⟨key.startsAt, rfl, hlater⟩
  · rintro start ⟨⟩
    exact hkey.started
  · intro stop hstop
    exact hkey.lt_next hstop

/-- A client that does not say what it asked about accepts it too. -/
theorem validate_answerFor_none {asked : Moment} {key : DatedPublicKey}
    (hkey : s.InForceAt asked key) (hreadable : Readable p key.publicKeyPem) :
    (s.answerFor key).validate p none = .ok () := by
  have h := PublicKeyAnswer.validate_eq_ok_iff.mp (validate_answerFor hkey hreadable)
  exact PublicKeyAnswer.validate_eq_ok_iff.mpr ⟨h.1, h.2.1, h.2.2.1, rfl⟩

/-- A readable key that is chosen is answered with. -/
theorem publicKeyResponseAt_of_chosen {format date : Option String} {now asked : Moment}
    {key : DatedPublicKey} (hformat : servesFormat format = true)
    (hasked : askedMoment date now = some asked) (hkey : s.keyInForce asked = some key)
    (hreadable : Readable p key.publicKeyPem) :
    publicKeyResponseAt p ch s format date now = .ok (200, (s.answerFor key).toJson ch) := by
  have hvalid := validate_answerFor (PublicKeySchedule.keyInForce_eq_some hkey) hreadable
  have hanswer : publicKeyAnswer p ch key.publicKeyPem (some key.startsAt) (s.nextStartAfter key)
      (some asked) = .ok ((s.answerFor key).toJson ch) := by
    unfold publicKeyAnswer
    simp only [show PublicKeyAnswer.new key.publicKeyPem (some key.startsAt) (s.nextStartAfter key) =
      s.answerFor key from rfl, hvalid, ok_bind]
  unfold publicKeyResponseAt
  simp only [hformat, Bool.not_true, Bool.false_eq_true, if_false, hasked, hkey, hanswer, ok_bind]

/-- **A readable key in force is always answered with.** -/
theorem publicKeyResponseAt_of_inForce
    (hstarts : Set.InjOn DatedPublicKey.startsAt {key | key ∈ s.keys}) {format date : Option String}
    {now asked : Moment} {key : DatedPublicKey} (hformat : servesFormat format = true)
    (hasked : askedMoment date now = some asked) (hkey : s.InForceAt asked key)
    (hreadable : Readable p key.publicKeyPem) :
    publicKeyResponseAt p ch s format date now = .ok (200, (s.answerFor key).toJson ch) :=
  publicKeyResponseAt_of_chosen hformat hasked
    ((PublicKeySchedule.keyInForce_eq_some_iff hstarts).mpr hkey) hreadable

/-! ## Every request -/

/-- The moment a request asks about: now, where it has no date, and otherwise the minute its date
counts or now, whichever is earlier. -/
inductive Asks (date : Option String) (now : Moment) : Moment → Prop
  | now : date = none ∨ date = some "" → Asks date now now
  | minute {text : String} {minutes : Nat} : date = some text → text ≠ "" →
    parseU32 text.toList = some minutes → Asks date now (min now (atMinute minutes))

/-- The format is another one, or the date is not a count of minutes. -/
def BadRequest (format date : Option String) : Prop :=
  (∃ name ∈ format, name ≠ SPKI_FORMAT) ∨ ∃ text ∈ date, text ≠ "" ∧ parseU32 text.toList = none

theorem servesFormat_eq_false_iff {format : Option String} :
    servesFormat format = false ↔ ∃ name ∈ format, name ≠ SPKI_FORMAT := by
  cases format <;> simp [servesFormat]

theorem askedMoment_empty (now : Moment) : askedMoment (some "") now = some now := by
  have hempty : "".isEmpty = true := String.isEmpty_iff.mpr rfl
  unfold askedMoment
  simp only [Option.filter_some, hempty, Bool.not_true, Bool.false_eq_true, if_false]

theorem askedMoment_of_text {text : String} (hne : text ≠ "") (now : Moment) :
    askedMoment (some text) now =
      (parseU32 text.toList).map fun minutes => min (atMinute minutes) now := by
  have hempty : text.isEmpty = false := by
    rw [← Bool.not_eq_true, String.isEmpty_iff]
    exact hne
  unfold askedMoment
  simp only [Option.filter_some, hempty, Bool.not_false, if_true]

theorem askedMoment_eq_none_iff {date : Option String} {now : Moment} :
    askedMoment date now = none ↔ ∃ text ∈ date, text ≠ "" ∧ parseU32 text.toList = none := by
  cases date with
  | none => simp [askedMoment]
  | some text =>
    by_cases hne : text = ""
    · subst hne
      rw [askedMoment_empty]
      simp
    · rw [askedMoment_of_text hne]
      simp [hne]

theorem asks_of_askedMoment {date : Option String} {now asked : Moment}
    (h : askedMoment date now = some asked) : Asks date now asked := by
  cases date with
  | none =>
    cases h
    exact .now (.inl rfl)
  | some text =>
    by_cases hne : text = ""
    · subst hne
      cases h
      exact .now (.inr rfl)
    · rw [askedMoment_of_text hne] at h
      obtain ⟨minutes, hminutes, rfl⟩ := Option.map_eq_some_iff.mp h
      rw [min_comm]
      exact .minute rfl hne hminutes

/-- **No request fails**, whatever keys that can be read were scheduled in whatever order: 400 exactly
for another format or a date that is no count, 404 exactly where no key had started at the moment
asked about, and otherwise what was written of an answer that states the key in force at it, from
its start to the next.  What a client reads of it is another matter. -/
theorem publicKeyResponseAt_answers {keys : List DatedPublicKey}
    (hreadable : ∀ key ∈ keys, Readable p key.publicKeyPem) (format date : Option String)
    (now : Moment) :
    ∃ status body, publicKeyResponseAt p ch (.new keys) format date now = .ok (status, body) ∧
      (status = 400 ↔ BadRequest format date) ∧
      (¬ BadRequest format date → ∃ asked, Asks date now asked ∧
        (status = 404 ↔ ∀ key ∈ keys, asked < key.startsAt) ∧
        (status ≠ 404 → status = 200 ∧ ∃ key, ∃ answer : PublicKeyAnswer,
          FirstInForce keys DatedPublicKey.startsAt asked key ∧ body = answer.toJson ch ∧
          answer.format = SPKI_FORMAT ∧ answer.publicKey = key.publicKeyPem ∧
          answer.validFrom = some key.startsAt ∧
          (∀ stop, answer.validTo = some stop ↔
            IsLeast {d | (∃ other ∈ keys, other.startsAt = d) ∧ key.startsAt < d} stop) ∧
          (answer.validTo = none ↔ ∀ other ∈ keys, ¬ key.startsAt < other.startsAt) ∧
          key.startsAt ≤ asked ∧ ∀ stop ∈ answer.validTo, asked < stop)) := by
  cases hformat : servesFormat format with
  | false =>
    have hbad : BadRequest format date := .inl (servesFormat_eq_false_iff.mp hformat)
    refine ⟨400, "", ?_, iff_of_true rfl hbad, fun h => absurd hbad h⟩
    simp only [publicKeyResponseAt, hformat, Bool.not_false, if_true]
  | true =>
    have hserved : ¬ ∃ name ∈ format, name ≠ SPKI_FORMAT := by
      rw [← servesFormat_eq_false_iff, hformat]
      exact Bool.true_eq_false_eq_False
    cases hasked : askedMoment date now with
    | none =>
      have hbad : BadRequest format date := .inr (askedMoment_eq_none_iff.mp hasked)
      refine ⟨400, "", ?_, iff_of_true rfl hbad, fun h => absurd hbad h⟩
      simp only [publicKeyResponseAt, hformat, hasked, Bool.not_true, Bool.false_eq_true, if_false]
    | some asked =>
      have hcounted : ¬ ∃ text ∈ date, text ≠ "" ∧ parseU32 text.toList = none := by
        rw [← askedMoment_eq_none_iff, hasked]
        exact Option.some_ne_none asked
      have hgood : ¬ BadRequest format date := not_or.mpr ⟨hserved, hcounted⟩
      cases hkey : (PublicKeySchedule.new keys).keyInForce asked with
      | none =>
        have hnone := PublicKeySchedule.keyInForce_new_eq_none_iff.mp hkey
        refine ⟨404, "", ?_, iff_of_false (by decide) hgood, fun _ => ⟨asked,
          asks_of_askedMoment hasked, iff_of_true rfl hnone, fun h => absurd rfl h⟩⟩
        simp only [publicKeyResponseAt, hformat, hasked, hkey, Bool.not_true, Bool.false_eq_true,
          if_false]
      | some key =>
        have hfirst := PublicKeySchedule.keyInForce_new_eq_some_iff.mp hkey
        have hforce := PublicKeySchedule.keyInForce_eq_some hkey
        obtain ⟨hnext, hlast⟩ := (PublicKeySchedule.new_stops key)
        refine ⟨200, _, publicKeyResponseAt_of_chosen hformat hasked hkey
          (hreadable key hfirst.1.mem), iff_of_false (by decide) hgood, fun _ => ⟨asked,
          asks_of_askedMoment hasked, iff_of_false (by decide) ?_, fun _ => ⟨rfl, key, _, hfirst, rfl,
          rfl, rfl, rfl, hnext, hlast, hfirst.1.started, fun stop hstop => hforce.lt_next hstop⟩⟩⟩
        intro hnone
        exact absurd hfirst.1.started (not_le.mpr (hnone key hfirst.1.mem))

/-! ## Where it fails -/

/-- What the check says of a key that cannot be read. -/
def keyFault (pem : String) : Error :=
  if trimIsEmpty pem then .key "the public key answer holds no key"
  else .key "the public key answer holds a key that cannot be read"

theorem PublicKeyAnswer.validate_of_unreadable {a : PublicKeyAnswer} (asked : Option Moment)
    (hformat : a.format = SPKI_FORMAT) (h : ¬ Readable p a.publicKey) :
    a.validate p asked = .error (keyFault a.publicKey) := by
  unfold validate keyFault
  rw [if_neg (not_not.mpr hformat)]
  split
  · rfl
  · cases hread : Crypto.newVerifyOnly p a.publicKey with
    | ok c => exact absurd ⟨c, hread⟩ h
    | error e => rfl

/-- A key that is chosen and cannot be read is what is told of instead. -/
theorem publicKeyResponseAt_of_unreadable {format date : Option String} {now asked : Moment}
    {key : DatedPublicKey} (hformat : servesFormat format = true)
    (hasked : askedMoment date now = some asked) (hkey : s.keyInForce asked = some key)
    (h : ¬ Readable p key.publicKeyPem) :
    publicKeyResponseAt p ch s format date now = .error (keyFault key.publicKeyPem) := by
  have hfault : (PublicKeyAnswer.new key.publicKeyPem (some key.startsAt)
      (s.nextStartAfter key)).validate p (some asked) = .error (keyFault key.publicKeyPem) :=
    PublicKeyAnswer.validate_of_unreadable (some asked) rfl h
  unfold publicKeyResponseAt publicKeyAnswer
  simp only [hformat, Bool.not_true, Bool.false_eq_true, if_false, hasked, hkey, hfault]
  rfl

theorem askedMoment_of_asks {date : Option String} {now asked : Moment} (h : Asks date now asked) :
    askedMoment date now = some asked := by
  cases h with
  | now h =>
    rcases h with rfl | rfl
    · rfl
    · exact askedMoment_empty now
  | minute htext hne hminutes =>
    rw [htext, askedMoment_of_text hne, hminutes, Option.map_some, min_comm]

theorem not_badRequest_iff {format date : Option String} (now : Moment) :
    ¬ BadRequest format date ↔
      servesFormat format = true ∧ ∃ asked, askedMoment date now = some asked := by
  have hdate : (∃ text ∈ date, text ≠ "" ∧ parseU32 text.toList = none) ↔
      askedMoment date now = none := askedMoment_eq_none_iff.symm
  rw [BadRequest, ← servesFormat_eq_false_iff, hdate, not_or, Bool.not_eq_false, ← ne_eq,
    Option.ne_none_iff_exists']

theorem publicKeyResponseAt_of_bad {format date : Option String} {now : Moment}
    (h : BadRequest format date) : publicKeyResponseAt p ch s format date now = .ok (400, "") := by
  unfold publicKeyResponseAt
  cases hformat : servesFormat format with
  | false => simp only [Bool.not_false, if_true]
  | true =>
    cases hasked : askedMoment date now with
    | none => simp only [Bool.not_true, Bool.false_eq_true, if_false]
    | some asked => exact absurd h ((not_badRequest_iff now).mpr ⟨hformat, asked, hasked⟩)

/-- **The end point fails exactly where the key in force at the moment asked about cannot be read**,
whatever was scheduled in whatever order: no schedule makes it refuse the span it states, and no key
but the one asked for makes it fail. -/
theorem publicKeyResponseAt_eq_error_iff (keys : List DatedPublicKey) (format date : Option String)
    (now : Moment) (e : Error) :
    publicKeyResponseAt p ch (.new keys) format date now = .error e ↔
      ¬ BadRequest format date ∧ ∃ asked key, Asks date now asked ∧
        FirstInForce keys DatedPublicKey.startsAt asked key ∧ ¬ Readable p key.publicKeyPem ∧
        e = keyFault key.publicKeyPem := by
  constructor
  · intro h
    have hgood : ¬ BadRequest format date := by
      intro hbad
      rw [publicKeyResponseAt_of_bad hbad] at h
      cases h
    obtain ⟨hformat, asked, hasked⟩ := (not_badRequest_iff now).mp hgood
    refine ⟨hgood, asked, ?_⟩
    cases hkey : (PublicKeySchedule.new keys).keyInForce asked with
    | none =>
      unfold publicKeyResponseAt at h
      simp only [hformat, hasked, hkey, Bool.not_true, Bool.false_eq_true, if_false] at h
      cases h
    | some key =>
      by_cases hreadable : Readable p key.publicKeyPem
      · rw [publicKeyResponseAt_of_chosen hformat hasked hkey hreadable] at h
        cases h
      · rw [publicKeyResponseAt_of_unreadable hformat hasked hkey hreadable, Except.error.injEq] at h
        exact ⟨key, asks_of_askedMoment hasked, PublicKeySchedule.keyInForce_new_eq_some_iff.mp hkey,
          hreadable, h.symm⟩
  · rintro ⟨hgood, asked, key, hasks, hfirst, hunreadable, rfl⟩
    obtain ⟨hformat, -⟩ := (not_badRequest_iff now).mp hgood
    exact publicKeyResponseAt_of_unreadable hformat (askedMoment_of_asks hasks)
      (PublicKeySchedule.keyInForce_new_eq_some_iff.mpr hfirst) hunreadable

end OwidRust
