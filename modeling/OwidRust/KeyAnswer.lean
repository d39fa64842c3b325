import OwidRust.Crypto
import OwidRust.Json
import OwidRust.Time

/-!
# The answer of the public key end point

`PublicKeyAnswer` of `src/key_answer.rs`: its fields, the checks creator and client share, and its
JSON form.  Reading and writing a moment as RFC 3339 is the `chrono` crate's, so it is a parameter
`Chrono` of the model.

* `validate_eq_ok_iff` — what an answer that passes the checks satisfies;
* `parse_toJson` — an answer written is read back, where its moments are.
-/

namespace OwidRust

/-- What the crate uses of `chrono` for text. -/
structure Chrono where
  /-- `DateTime::parse_from_rfc3339`, as a moment in UTC. -/
  parseFromRfc3339 : String → Option Moment
  /-- `to_rfc3339_opts` with whole seconds. -/
  toRfc3339 : Moment → String

/-- The moment 10000-01-01T00:00:00Z, the first whose year has no four digits. -/
def endOfYear9999 : Moment := ⟨253402300800 * 1000000000⟩

/-- What the documentation of `chrono` promises: a moment of whole seconds from 1970 to the end of
the year 9999 is read back from its RFC 3339 text. -/
structure Chrono.Sound (ch : Chrono) : Prop where
  parse_toRfc3339 : ∀ seconds : Nat, (⟨seconds * 1000000000⟩ : Moment) < endOfYear9999 →
    ch.parseFromRfc3339 (ch.toRfc3339 ⟨seconds * 1000000000⟩) = some ⟨seconds * 1000000000⟩

/-- A few moments of the first hour of the minute count in RFC 3339, and any other moment as its
count of seconds. -/
def sampleChrono : Chrono where
  parseFromRfc3339 := fun text =>
    if text.toList.all Char.isDigit then
      some ⟨Nat.ofDigitChars 10 text.toList 0 * 1000000000⟩
    else if text = "2020-01-01T00:10:00Z" then some (atMinute 10)
    else if text = "2020-01-01T00:10:10Z" then some ((atMinute 10).addSeconds 10)
    else if text = "2020-01-01T00:10:40Z" then some ((atMinute 10).addSeconds 40)
    else if text = "2020-01-01T00:20:00Z" then some (atMinute 20)
    else none
  toRfc3339 := fun d =>
    if d = atMinute 10 then "2020-01-01T00:10:00Z"
    else if d = (atMinute 10).addSeconds 10 then "2020-01-01T00:10:10Z"
    else if d = (atMinute 10).addSeconds 40 then "2020-01-01T00:10:40Z"
    else if d = atMinute 20 then "2020-01-01T00:20:00Z"
    else Nat.repr (d.nanos / 1000000000).toNat

theorem sampleChrono_sound : sampleChrono.Sound := by
  refine ⟨fun seconds _ => ?_⟩
  simp only [sampleChrono]
  split
  · rename_i h
    rw [h]
    decide +kernel
  split
  · rename_i h
    rw [h]
    decide +kernel
  split
  · rename_i h
    rw [h]
    decide +kernel
  split
  · rename_i h
    rw [h]
    decide +kernel
  · have hseconds : (((seconds : Int) * 1000000000) / 1000000000).toNat = seconds := by omega
    have hdigits : (Nat.repr seconds).toList = Nat.toDigits 10 seconds := by
      rw [Nat.repr_eq_ofList_toDigits, String.toList_ofList]
    have hall : (Nat.repr seconds).toList.all Char.isDigit = true := by
      rw [hdigits, List.all_eq_true]
      intro c hc
      exact Nat.isDigit_of_mem_toDigits (by decide) (by decide) hc
    rw [hseconds, if_pos hall, hdigits, Nat.ofDigitChars_ten_toDigits]

structure PublicKeyAnswer where
  format : String
  publicKey : String
  validFrom : Option Moment
  validTo : Option Moment
  deriving DecidableEq, Repr

/-- `PublicKeyAnswer::SPKI_FORMAT`. -/
def SPKI_FORMAT : String := "spki"

namespace PublicKeyAnswer

def new (publicKey : String) (validFrom validTo : Option Moment) : PublicKeyAnswer :=
  ⟨SPKI_FORMAT, publicKey, validFrom, validTo⟩

/-! ## The checks -/

/-- The end of the span against its start. -/
def checkSpan (a : PublicKeyAnswer) : Except Error Unit :=
  match a.validTo with
  | none => .ok ()
  | some stop =>
    match a.validFrom with
    | none =>
      .error (.key "the public key answer states when the key ends but not when it started")
    | some start =>
      if stop ≤ start then
        .error (.key "the public key answer states a key that ends before it starts")
      else .ok ()

/-- The span against the moment asked about. -/
def checkAsked (a : PublicKeyAnswer) (asked : Option Moment) : Except Error Unit :=
  match asked with
  | none => .ok ()
  | some asked =>
    if a.validFrom.any (asked < ·) then
      .error (.key
        "the public key answer states a key that had not started at the moment asked about")
    else if a.validTo.any (· ≤ asked) then
      .error (.key "the public key answer states a key that had ended at the moment asked about")
    else .ok ()

def validate (p : P256) (a : PublicKeyAnswer) (asked : Option Moment) : Except Error Unit :=
  if a.format ≠ SPKI_FORMAT then
    .error (.key "the public key answer states a format this crate does not read")
  else if trimIsEmpty a.publicKey then .error (.key "the public key answer holds no key")
  else
    match Crypto.newVerifyOnly p a.publicKey with
    | .error _ => .error (.key "the public key answer holds a key that cannot be read")
    | .ok _ => do
      a.checkSpan
      a.checkAsked asked

theorem checkSpan_eq_ok_iff {a : PublicKeyAnswer} :
    a.checkSpan = .ok () ↔ ∀ stop ∈ a.validTo, ∃ start ∈ a.validFrom, start < stop := by
  unfold checkSpan
  cases a.validTo with
  | none => simp
  | some stop =>
    cases a.validFrom with
    | none => simp
    | some start =>
      simp only
      split
      · rename_i h
        simp [not_lt.mpr h]
      · rename_i h
        simp [not_le.mp h]

theorem checkAsked_eq_ok_iff {a : PublicKeyAnswer} {asked : Moment} :
    a.checkAsked (some asked) = .ok () ↔
      (∀ start ∈ a.validFrom, start ≤ asked) ∧ ∀ stop ∈ a.validTo, asked < stop := by
  have hstart : a.validFrom.any (asked < ·) = false ↔ ∀ start ∈ a.validFrom, start ≤ asked := by
    cases a.validFrom <;> simp
  have hstop : a.validTo.any (· ≤ asked) = false ↔ ∀ stop ∈ a.validTo, asked < stop := by
    cases a.validTo <;> simp
  unfold checkAsked
  simp only [← hstart, ← hstop]
  cases a.validFrom.any (asked < ·) <;> cases a.validTo.any (· ≤ asked) <;> simp

/-- Where the key is read the span is what is left to check. -/
theorem validate_of_readable {p : P256} {a : PublicKeyAnswer} (asked : Option Moment)
    (hformat : a.format = SPKI_FORMAT) (h : Readable p a.publicKey) :
    a.validate p asked = (a.checkSpan >>= fun _ => a.checkAsked asked) := by
  obtain ⟨c, hc⟩ := h
  have htext : trimIsEmpty a.publicKey = false := by
    by_contra htext
    rw [Crypto.newVerifyOnly, if_pos (by simpa using htext)] at hc
    cases hc
  unfold validate
  rw [if_neg (not_not.mpr hformat)]
  simp only [htext, hc]
  rfl

/-- **What an answer that passes the checks satisfies.** -/
theorem validate_eq_ok_iff {p : P256} {a : PublicKeyAnswer} {asked : Option Moment} :
    a.validate p asked = .ok () ↔
      a.format = SPKI_FORMAT ∧ Readable p a.publicKey ∧ a.checkSpan = .ok () ∧
        a.checkAsked asked = .ok () := by
  constructor
  · intro h
    unfold validate at h
    split at h
    · cases h
    rename_i hformat
    split at h
    · cases h
    split at h
    · cases h
    · rename_i c hc
      obtain ⟨⟨⟩, hspan, hasked⟩ := bind_eq_ok h
      exact ⟨not_not.mp hformat, ⟨c, hc⟩, hspan, hasked⟩
  · rintro ⟨hformat, hreadable, hspan, hasked⟩
    rw [validate_of_readable asked hformat hreadable, hspan, ok_bind, hasked]

/-! ## The JSON form -/

/-- `write_moment`. -/
def writeMoment (ch : Chrono) : Option Moment → List Char
  | none => "null".toList
  | some moment => writeString (ch.toRfc3339 moment).toList

def toJson (ch : Chrono) (a : PublicKeyAnswer) : String :=
  String.ofList ("\x7b\"format\":".toList ++ writeString a.format.toList ++
    ",\"publicKey\":".toList ++ writeString a.publicKey.toList ++
    ",\"validFrom\":".toList ++ writeMoment ch a.validFrom ++
    ",\"validTo\":".toList ++ writeMoment ch a.validTo ++ "\x7d".toList)

/-- `moment`. -/
def moment (ch : Chrono) (text : Option String) (field : String) :
    Except Error (Option Moment) :=
  match text with
  | none => .ok none
  | some text =>
    match ch.parseFromRfc3339 text with
    | some moment => .ok (some moment)
    | none => .error (.key ("the public key answer's " ++ field ++ " is not a moment in UTC"))

/-- The value of the first field of the name. -/
def field (fields : List (String × Option String)) (name : String) : Option String :=
  (fields.find? fun f => f.1 == name).bind Prod.snd

def parse (ch : Chrono) (json : String) : Except Error PublicKeyAnswer := do
  let fields ← readFlatObject json.toList
  let validFrom ← moment ch (field fields "validFrom") "validFrom"
  let validTo ← moment ch (field fields "validTo") "validTo"
  .ok ⟨(field fields "format").getD SPKI_FORMAT, (field fields "publicKey").getD "", validFrom,
    validTo⟩

theorem writeMoment_eq (ch : Chrono) (m : Option Moment) :
    writeMoment ch m = jsonValue (m.map fun moment => (ch.toRfc3339 moment).toList) := by
  cases m <;> rfl

/-- The four fields of an answer as JSON. -/
def jsonFields (ch : Chrono) (a : PublicKeyAnswer) : List (String × Option String) :=
  [("format", some a.format), ("publicKey", some a.publicKey),
    ("validFrom", a.validFrom.map ch.toRfc3339), ("validTo", a.validTo.map ch.toRfc3339)]

/-- The characters of an answer, field by field, after the brace that opens it. -/
def jsonBody (ch : Chrono) (a : PublicKeyAnswer) : List Char :=
  jsonField "format".toList (some a.format.toList) ++ ',' ::
    (jsonField "publicKey".toList (some a.publicKey.toList) ++ ',' ::
      (jsonField "validFrom".toList (a.validFrom.map fun d => (ch.toRfc3339 d).toList) ++ ',' ::
        (jsonField "validTo".toList (a.validTo.map fun d => (ch.toRfc3339 d).toList) ++ ['}'])))

theorem toJson_toList (ch : Chrono) (a : PublicKeyAnswer) :
    (a.toJson ch).toList = '{' :: a.jsonBody ch := by
  have hformat : "\x7b\"format\":".toList = '{' :: (writeString "format".toList ++ [':']) := by
    simp [writeString, writeChar]
  have hkey : ",\"publicKey\":".toList = ',' :: (writeString "publicKey".toList ++ [':']) := by
    simp [writeString, writeChar]
  have hfrom : ",\"validFrom\":".toList = ',' :: (writeString "validFrom".toList ++ [':']) := by
    simp [writeString, writeChar]
  have hto : ",\"validTo\":".toList = ',' :: (writeString "validTo".toList ++ [':']) := by
    simp [writeString, writeChar]
  have hbrace : "\x7d".toList = ['}'] := by simp
  unfold toJson jsonBody
  rw [String.toList_ofList, hformat, hkey, hfrom, hto, hbrace]
  simp only [writeMoment_eq, jsonField, jsonValue, List.append_assoc, List.cons_append, List.nil_append]

theorem readFields_jsonBody (ch : Chrono) (a : PublicKeyAnswer) :
    readFields ((a.jsonBody ch).length + 1) [] (a.jsonBody ch) = .ok (a.jsonFields ch, []) := by
  -- four turns of the loop are within the bound
  obtain ⟨fuel, hfuel⟩ : ∃ fuel, (a.jsonBody ch).length + 1 = fuel + 4 := by
    refine ⟨(a.jsonBody ch).length - 3, ?_⟩
    simp only [jsonBody, List.length_append, List.length_cons]
    omega
  rw [hfuel, jsonBody, readFields_comma, readFields_comma, readFields_comma, readFields_brace]
  simp only [jsonFields, Option.map_map, Option.map_some, Function.comp_def, String.ofList_toList,
    List.nil_append, List.cons_append]

theorem readFlatObject_toJson (ch : Chrono) (a : PublicKeyAnswer) :
    readFlatObject (a.toJson ch).toList = .ok (a.jsonFields ch) := by
  rw [toJson_toList]
  exact readFlatObject_of_readFields (readFields_jsonBody ch a)

/-- The text of an answer is read field by field, its moments from what they were written as. -/
theorem parse_toJson_eq (ch : Chrono) (a : PublicKeyAnswer) :
    parse ch (a.toJson ch) = (do
      let validFrom ← moment ch (a.validFrom.map ch.toRfc3339) "validFrom"
      let validTo ← moment ch (a.validTo.map ch.toRfc3339) "validTo"
      .ok ⟨a.format, a.publicKey, validFrom, validTo⟩) := by
  have hvalidFrom : field (a.jsonFields ch) "validFrom" = a.validFrom.map ch.toRfc3339 := by
    simp [field, jsonFields]
  have hvalidTo : field (a.jsonFields ch) "validTo" = a.validTo.map ch.toRfc3339 := by
    simp [field, jsonFields]
  have hformat : (field (a.jsonFields ch) "format").getD SPKI_FORMAT = a.format := by
    simp [field, jsonFields]
  have hkey : (field (a.jsonFields ch) "publicKey").getD "" = a.publicKey := by
    simp [field, jsonFields]
  rw [parse, readFlatObject_toJson, ok_bind, hvalidFrom, hvalidTo, hformat, hkey]

/-- **An answer written is read back**, where its moments are. -/
theorem parse_toJson {ch : Chrono} {a : PublicKeyAnswer}
    (hfrom : ∀ d ∈ a.validFrom, ch.parseFromRfc3339 (ch.toRfc3339 d) = some d)
    (hto : ∀ d ∈ a.validTo, ch.parseFromRfc3339 (ch.toRfc3339 d) = some d) :
    parse ch (a.toJson ch) = .ok a := by
  have hmoment : ∀ (m : Option Moment) (name : String),
      (∀ d ∈ m, ch.parseFromRfc3339 (ch.toRfc3339 d) = some d) →
        moment ch (m.map ch.toRfc3339) name = .ok m := by
    intro m name h
    cases m with
    | none => rfl
    | some d =>
      simp only [Option.map_some, moment]
      rw [h d rfl]
  rw [parse_toJson_eq, hmoment _ _ hfrom, ok_bind, hmoment _ _ hto, ok_bind]

end PublicKeyAnswer

end OwidRust
