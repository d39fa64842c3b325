import OwidRust.Text

/-!
# The flat JSON object

The reader and the writer of `src/key_answer.rs` for an object whose values are strings or `null`.
A position in the characters is the list of those from it on.

* `readChars_flatMap_writeChar` — what `write_string` writes is read back by `read_string`;
* `readString_length` — a string read leaves less to read;
* `readFields_fuel` — the reader of the fields never runs out of its bound, the number of
  characters.
-/

namespace OwidRust

/-! ## Reading -/

/-- `not_json`. -/
def notJson : Error :=
  .key "the public key answer is not the JSON object of four fields the specification requires"

def skipSpace (chars : List Char) : List Char := chars.dropWhile isWhitespace

/-- `char::from_u32`. -/
def charFromU32 (code : Nat) : Option Char :=
  if code.isValidChar then some (Char.ofNat code) else none

/-- The escapes of one character. -/
def unescape (escaped : Char) : Option Char :=
  match escaped with
  | '"' => some '"'
  | '\\' => some '\\'
  | '/' => some '/'
  | 'b' => some (Char.ofNat 8)
  | 'f' => some (Char.ofNat 12)
  | 'n' => some '\n'
  | 'r' => some '\r'
  | 't' => some '\t'
  | _ => none

/-- The loop of `read_string`, with the value read so far. -/
def readChars (value : List Char) : List Char → Except Error (List Char × List Char)
  | [] => .error notJson
  | c :: rest =>
    if c = '"' then .ok (value, rest)
    else if c ≠ '\\' then readChars (value ++ [c]) rest
    else
      match rest with
      | [] => .error notJson
      | escaped :: rest =>
        if escaped = 'u' then
          match rest with
          | a :: b :: c :: d :: rest =>
            match (fromStrRadix 16 [a, b, c, d]).bind charFromU32 with
            | some c => readChars (value ++ [c]) rest
            | none => .error notJson
          | _ => .error notJson
        else
          match unescape escaped with
          | some c => readChars (value ++ [c]) rest
          | none => .error notJson

def readString : List Char → Except Error (List Char × List Char)
  | '"' :: rest => readChars [] rest
  | _ => .error notJson

/-- A field's value: `null`, or a string. -/
def readValue : List Char → Except Error (Option (List Char) × List Char)
  | 'n' :: 'u' :: 'l' :: 'l' :: rest => .ok (none, rest)
  | chars => do
    let (value, rest) ← readString chars
    .ok (some value, rest)

/-- The fields read so far, and one more for each turn of the loop. -/
def readFields : Nat → List (String × Option String) → List Char →
    Except Error (List (String × Option String) × List Char)
  | 0, _, _ => .error notJson
  | fuel + 1, fields, chars => do
    let (name, chars) ← readString (skipSpace chars)
    match skipSpace chars with
    | ':' :: chars =>
      let (value, chars) ← readValue (skipSpace chars)
      let fields := fields ++ [(String.ofList name, value.map String.ofList)]
      match skipSpace chars with
      | '}' :: chars => .ok (fields, chars)
      | ',' :: chars => readFields fuel fields chars
      | _ => .error notJson
    | _ => .error notJson

/-- `read_flat_object`. -/
def readFlatObject (json : List Char) : Except Error (List (String × Option String)) :=
  match skipSpace json with
  | '{' :: chars =>
    match skipSpace chars with
    | '}' :: rest => if skipSpace rest = [] then .ok [] else .error notJson
    | chars => do
      let (fields, rest) ← readFields (chars.length + 1) [] chars
      if skipSpace rest = [] then .ok fields else .error notJson
  | _ => .error notJson

/-! ## Writing -/

/-- A hexadecimal digit in lower case. -/
def hexChar (digit : Nat) : Char :=
  if digit < 10 then Char.ofNat (48 + digit) else Char.ofNat (87 + digit)

def writeChar (c : Char) : List Char :=
  match c with
  | '"' => ['\\', '"']
  | '\\' => ['\\', '\\']
  | '\n' => ['\\', 'n']
  | '\r' => ['\\', 'r']
  | '\t' => ['\\', 't']
  | c =>
    if c.toNat < 0x20 then
      ['\\', 'u', '0', '0', hexChar (c.toNat / 16), hexChar (c.toNat % 16)]
    else [c]

def writeString (value : List Char) : List Char := '"' :: value.flatMap writeChar ++ ['"']

/-! ## A string written is read back -/

theorem fromStrRadix_hexChar : ∀ n < 0x20,
    (fromStrRadix 16 ['0', '0', hexChar (n / 16), hexChar (n % 16)]).bind charFromU32 =
      some (Char.ofNat n) := by decide

theorem readChars_quote (value rest : List Char) :
    readChars value ('"' :: rest) = .ok (value, rest) := by
  rw [readChars.eq_def]
  rfl

theorem readChars_plain {c : Char} (hquote : c ≠ '"') (hslash : c ≠ '\\')
    (value rest : List Char) : readChars value (c :: rest) = readChars (value ++ [c]) rest := by
  rw [readChars.eq_def]
  simp only [if_neg hquote, if_pos hslash]

theorem readChars_escape {escaped c : Char} (h : unescape escaped = some c)
    (value rest : List Char) :
    readChars value ('\\' :: escaped :: rest) = readChars (value ++ [c]) rest := by
  have hu : escaped ≠ 'u' := by
    rintro rfl
    cases h
  rw [readChars.eq_def]
  simp [hu, h]

theorem readChars_code {a b d e c : Char}
    (h : (fromStrRadix 16 [a, b, d, e]).bind charFromU32 = some c) (value rest : List Char) :
    readChars value ('\\' :: 'u' :: a :: b :: d :: e :: rest) = readChars (value ++ [c]) rest := by
  rw [readChars.eq_def]
  simp [h]

theorem readChars_writeChar (value rest : List Char) (c : Char) :
    readChars value (writeChar c ++ rest) = readChars (value ++ [c]) rest := by
  unfold writeChar
  split
  · exact readChars_escape rfl value rest
  · exact readChars_escape rfl value rest
  · exact readChars_escape rfl value rest
  · exact readChars_escape rfl value rest
  · exact readChars_escape rfl value rest
  · rename_i hquote hslash _ _ _
    split
    · rename_i hsmall
      have hcode := fromStrRadix_hexChar c.toNat hsmall
      rw [Char.ofNat_toNat] at hcode
      exact readChars_code hcode value rest
    · exact readChars_plain hquote hslash value rest

/-- **What `write_string` writes is read back.** -/
theorem readChars_flatMap_writeChar (cs value rest : List Char) :
    readChars value (cs.flatMap writeChar ++ '"' :: rest) = .ok (value ++ cs, rest) := by
  induction cs generalizing value with
  | nil => simp [readChars_quote]
  | cons c cs ih =>
    rw [List.flatMap_cons, List.append_assoc, readChars_writeChar, ih]
    simp

theorem readString_writeString (value rest : List Char) :
    readString (writeString value ++ rest) = .ok (value, rest) := by
  rw [writeString, List.append_assoc]
  exact readChars_flatMap_writeChar value [] rest

theorem skipSpace_writeString (value rest : List Char) :
    skipSpace (writeString value ++ rest) = writeString value ++ rest := rfl

/-- The text of a value: `null`, or a string. -/
def jsonValue : Option (List Char) → List Char
  | none => ['n', 'u', 'l', 'l']
  | some value => writeString value

theorem skipSpace_jsonValue (value : Option (List Char)) (rest : List Char) :
    skipSpace (jsonValue value ++ rest) = jsonValue value ++ rest := by
  cases value <;> rfl

theorem readValue_jsonValue (value : Option (List Char)) (rest : List Char) :
    readValue (jsonValue value ++ rest) = .ok (value, rest) := by
  cases value with
  | none => rfl
  | some value =>
    have hread := readString_writeString value rest
    unfold readValue
    split
    · rename_i heq
      cases heq
    · rw [jsonValue, hread]
      rfl

/-- The text of a field, before the comma or the brace. -/
def jsonField (name : List Char) (value : Option (List Char)) : List Char :=
  writeString name ++ ':' :: jsonValue value

theorem readFields_comma (fuel : Nat) (fields : List (String × Option String))
    (name : List Char) (value : Option (List Char)) (rest : List Char) :
    readFields (fuel + 1) fields (jsonField name value ++ ',' :: rest) =
      readFields fuel (fields ++ [(String.ofList name, value.map String.ofList)]) rest := by
  have hname : readString (skipSpace (jsonField name value ++ ',' :: rest)) =
      .ok (name, ':' :: (jsonValue value ++ ',' :: rest)) := by
    rw [jsonField, List.append_assoc, skipSpace_writeString, List.cons_append,
      readString_writeString]
  have hvalue : readValue (skipSpace (jsonValue value ++ ',' :: rest)) =
      .ok (value, ',' :: rest) := by
    rw [skipSpace_jsonValue, readValue_jsonValue]
  rw [readFields, hname, ok_bind]
  change (readValue (skipSpace (jsonValue value ++ ',' :: rest)) >>= _) = _
  rw [hvalue]
  rfl

theorem readFields_brace (fuel : Nat) (fields : List (String × Option String))
    (name : List Char) (value : Option (List Char)) (rest : List Char) :
    readFields (fuel + 1) fields (jsonField name value ++ '}' :: rest) =
      .ok (fields ++ [(String.ofList name, value.map String.ofList)], rest) := by
  have hname : readString (skipSpace (jsonField name value ++ '}' :: rest)) =
      .ok (name, ':' :: (jsonValue value ++ '}' :: rest)) := by
    rw [jsonField, List.append_assoc, skipSpace_writeString, List.cons_append,
      readString_writeString]
  have hvalue : readValue (skipSpace (jsonValue value ++ '}' :: rest)) =
      .ok (value, '}' :: rest) := by
    rw [skipSpace_jsonValue, readValue_jsonValue]
  rw [readFields, hname, ok_bind]
  change (readValue (skipSpace (jsonValue value ++ '}' :: rest)) >>= _) = _
  rw [hvalue]
  rfl

/-- An object whose first field is at hand is read as its fields. -/
theorem readFlatObject_of_readFields {tail : List Char} {fields : List (String × Option String)}
    (h : readFields (('"' :: tail).length + 1) [] ('"' :: tail) = .ok (fields, [])) :
    readFlatObject ('{' :: '"' :: tail) = .ok fields := by
  have hbrace : skipSpace ('{' :: '"' :: tail) = '{' :: '"' :: tail := rfl
  have hquote : skipSpace ('"' :: tail) = '"' :: tail := rfl
  unfold readFlatObject
  simp only [hbrace, hquote]
  split
  · rename_i heq
    cases heq
  · rw [h]
    rfl

/-! ## The bound on the fields -/

theorem readChars_length {value chars value' rest : List Char}
    (h : readChars value chars = .ok (value', rest)) : rest.length < chars.length := by
  fun_induction readChars value chars with
  | case1 => cases h
  | case2 => cases h; simp
  | case3 value c rest' _ _ ih =>
    have := ih h
    simp only [List.length_cons]
    omega
  | case4 => cases h
  | case5 value c _ _ a b e d rest' _ _ ih =>
    have := ih h
    simp only [List.length_cons]
    omega
  | case6 => cases h
  | case7 => cases h
  | case8 value c _ _ escaped rest' _ _ _ ih =>
    have := ih h
    simp only [List.length_cons]
    omega
  | case9 => cases h

theorem readString_length {chars value rest : List Char}
    (h : readString chars = .ok (value, rest)) : rest.length < chars.length := by
  unfold readString at h
  split at h
  · have := readChars_length h
    simp only [List.length_cons]
    omega
  · cases h

theorem skipSpace_length (chars : List Char) : (skipSpace chars).length ≤ chars.length :=
  (List.dropWhile_suffix _).length_le

theorem readValue_length {chars rest : List Char} {value : Option (List Char)}
    (h : readValue chars = .ok (value, rest)) : rest.length < chars.length := by
  unfold readValue at h
  split at h
  · cases h
    simp only [List.length_cons]
    omega
  · obtain ⟨⟨_, _⟩, hstring, hrest⟩ := bind_eq_ok h
    cases hrest
    exact readString_length hstring

/-- **A bound above the number of characters left is never run out of**: any other such bound reads
the same. -/
theorem readFields_fuel {fuel fuel' : Nat} {chars : List Char}
    {fields : List (String × Option String)} (h : chars.length < fuel)
    (h' : chars.length < fuel') :
    readFields fuel fields chars = readFields fuel' fields chars := by
  induction fuel generalizing fuel' chars fields with
  | zero => omega
  | succ fuel ih =>
    obtain ⟨fuel', rfl⟩ : ∃ n, fuel' = n + 1 := ⟨fuel' - 1, by omega⟩
    unfold readFields
    cases hname : readString (skipSpace chars) with
    | error e => rfl
    | ok r =>
      obtain ⟨name, afterName⟩ := r
      have hlt := readString_length hname
      have hspace := skipSpace_length chars
      simp only [ok_bind]
      split
      · rename_i afterColon hcolon
        have hcolonLength := skipSpace_length afterName
        rw [hcolon, List.length_cons] at hcolonLength
        cases hvalue : readValue (skipSpace afterColon) with
        | error e => rfl
        | ok r =>
          obtain ⟨value, afterValue⟩ := r
          have hvalueLength := readValue_length hvalue
          have hspaceColon := skipSpace_length afterColon
          simp only [ok_bind]
          split
          · rfl
          · rename_i afterComma hcomma
            have hcommaLength := skipSpace_length afterValue
            rw [hcomma, List.length_cons] at hcommaLength
            exact ih (by omega) (by omega)
          · rfl
      · rfl

end OwidRust
