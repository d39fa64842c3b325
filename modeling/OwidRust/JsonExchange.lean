import OwidRust.JsonLanguage
import OwidRust.KeyAnswer

/-!
# Answers among other readers and writers of JSON

`to_json` and `parse` of `src/key_answer.rs` against RFC 8259: who else may read what the crate
writes, and whose texts the crate reads.

* `toJson_rfc8259` — what is written is an object of RFC 8259, the only one of its text, and its
  members are the four fields;
* `parse_of_members` — an object of strings and nulls that states what an answer states is read as
  the answer, whatever the order of its members, its white space, its escapes and what else it
  states, as long as no two members have one name and no string has an escape that names a surrogate.
-/

namespace OwidRust

open FlatJson

/-! ## What is written -/

/-- The piece `write_string` writes for a character. -/
def writtenPiece (c : Char) : Piece :=
  match c with
  | '"' => .short '"'
  | '\\' => .short '\\'
  | '\n' => .short 'n'
  | '\r' => .short 'r'
  | '\t' => .short 't'
  | c =>
    if c.toNat < 0x20 then .code '0' '0' (hexChar (c.toNat / 16)) (hexChar (c.toNat % 16))
    else .plain c

theorem codeUnit_hexChar : ∀ n < 0x20,
    codeUnit '0' '0' (hexChar (n / 16)) (hexChar (n % 16)) = some n := by decide

theorem writtenPiece_text (c : Char) : (writtenPiece c).text = writeChar c := by
  unfold writtenPiece
  split
  · rfl
  · rfl
  · rfl
  · rfl
  · rfl
  · rename_i hquote hslash hline hreturn htab
    rw [writeChar]
    · split <;> rfl
    · exact hquote
    · exact hslash
    · exact hline
    · exact hreturn
    · exact htab

theorem writtenPiece_in (c : Char) : (writtenPiece c).In rfc8259 := by
  unfold writtenPiece
  split
  · exact ⟨'"', rfl⟩
  · exact ⟨'\\', rfl⟩
  · exact ⟨'\n', rfl⟩
  · exact ⟨'\r', rfl⟩
  · exact ⟨'\t', rfl⟩
  · rename_i hquote hslash _ _ _
    split
    · rename_i hsmall
      exact ⟨c.toNat, codeUnit_hexChar c.toNat hsmall⟩
    · rename_i hlarge
      exact ⟨hquote, hslash, Nat.le_of_not_lt hlarge⟩

/-- A character written is decoded as itself. -/
theorem decode_writtenPiece (c : Char) (rest : List Piece) :
    decode (writtenPiece c :: rest) = (decode rest).map (c :: ·) := by
  unfold writtenPiece
  split
  · rfl
  · rfl
  · rfl
  · rfl
  · rfl
  · split
    · rename_i hsmall
      have hnot : ¬ IsSurrogate c.toNat := by
        unfold IsSurrogate
        omega
      rw [decode, codeUnit_hexChar c.toNat hsmall, Option.bind_some, if_neg hnot, Char.ofNat_toNat]
    · rfl

theorem decode_written (cs : List Char) : decode (cs.map writtenPiece) = some cs := by
  induction cs with
  | nil => rfl
  | cons c cs ih => rw [List.map_cons, decode_writtenPiece, ih, Option.map_some]

theorem piecesText_written (cs : List Char) :
    piecesText (cs.map writtenPiece) = cs.flatMap writeChar := by
  rw [piecesText, List.flatMap_map]
  exact List.flatMap_congr fun c _ => writtenPiece_text c

/-- A member as it is written. -/
def writtenMember (name : String) (value : Option String) : Member :=
  ⟨[], name.toList.map writtenPiece, [], [], value.map fun v => v.toList.map writtenPiece, []⟩

theorem writtenMember_text (name : String) (value : Option String) :
    (writtenMember name value).text = jsonField name.toList (value.map String.toList) := by
  have hstring : ∀ s : String, stringText (s.toList.map writtenPiece) = writeString s.toList := by
    intro s
    rw [stringText, piecesText_written, writeString, List.cons_append]
  have hvalue : valueText (value.map fun v => v.toList.map writtenPiece) =
      jsonValue (value.map String.toList) := by
    cases value with
    | none => rfl
    | some v => exact hstring v
  simp only [Member.text, writtenMember, hstring, hvalue, jsonField, List.nil_append,
    List.append_nil]

theorem writtenMember_in (name : String) (value : Option String) :
    (writtenMember name value).In rfc8259 := by
  have hpieces : ∀ s : String, ∀ p ∈ s.toList.map writtenPiece, p.In rfc8259 := by
    intro s p hp
    obtain ⟨c, -, rfl⟩ := List.mem_map.mp hp
    exact writtenPiece_in c
  refine member_in_iff.mpr ⟨⟨nofun, nofun, nofun, nofun⟩, hpieces name, ?_⟩
  intro pieces hvalue
  obtain ⟨v, -, rfl⟩ := Option.map_eq_some_iff.mp hvalue
  exact hpieces v

theorem writtenMember_field (name : String) (value : Option String) :
    (writtenMember name value).field decode = some (name, value) := by
  cases value with
  | none =>
    simp only [Member.field, writtenMember, decode_written, Option.bind_some, Option.map_none,
      readValueBy, Option.map_some, String.ofList_toList]
  | some v =>
    simp only [Member.field, writtenMember, decode_written, Option.bind_some, Option.map_some,
      readValueBy, String.ofList_toList]

namespace PublicKeyAnswer

variable {ch : Chrono} {a : PublicKeyAnswer}

/-- The object `to_json` writes. -/
def writtenObject (ch : Chrono) (a : PublicKeyAnswer) : Object :=
  .members [] (writtenMember "format" (some a.format))
    [writtenMember "publicKey" (some a.publicKey),
      writtenMember "validFrom" (a.validFrom.map ch.toRfc3339),
      writtenMember "validTo" (a.validTo.map ch.toRfc3339)] []

theorem writtenObject_text : (a.writtenObject ch).text = (a.toJson ch).toList := by
  rw [toJson_toList]
  simp only [Object.text, writtenObject, othersText, List.flatMap_cons, List.flatMap_nil,
    writtenMember_text, jsonBody, Option.map_some, Option.map_map, Function.comp_def,
    List.nil_append, List.append_nil, List.append_assoc, List.cons_append]

theorem writtenObject_in : (a.writtenObject ch).In rfc8259 := by
  refine members_in_iff.mpr ⟨nofun, ?_, nofun⟩
  intro n hn
  simp only [List.mem_cons, List.not_mem_nil, or_false] at hn
  rcases hn with rfl | rfl | rfl | rfl <;> exact writtenMember_in _ _

theorem writtenObject_fields : (a.writtenObject ch).fields decode = some (a.jsonFields ch) := by
  simp only [Object.fields, Object.memberList, writtenObject, List.mapM_cons, List.mapM_nil,
    writtenMember_field]
  rfl

/-- **What is written is an object of RFC 8259**, the only one of its text, without white space, and
a reader that keeps to RFC 8259 finds the four fields in it, whatever characters they hold. -/
theorem toJson_rfc8259 (ch : Chrono) (a : PublicKeyAnswer) :
    ∃ o : Object, o.In rfc8259 ∧ o.text = (a.toJson ch).toList ∧ o.gaps = [] ∧
      o.fields decode = some (a.jsonFields ch) ∧
      ∀ o' : Object, o'.In rfc8259 → o'.text = (a.toJson ch).toList → o' = o := by
  refine ⟨a.writtenObject ch, writtenObject_in, writtenObject_text, rfl, writtenObject_fields, ?_⟩
  intro o' ho' htext
  exact text_injective looseJson_separates (rfc8259_below_looseJson.allows ho')
    (rfc8259_below_looseJson.allows writtenObject_in) (htext.trans writtenObject_text.symm)

/-! ## What is read -/

/-- Where names differ, the field of a name is what a member of the name states. -/
theorem field_eq_some_iff {name v : String} :
    ∀ {fields : List (String × Option String)}, (fields.map Prod.fst).Nodup →
      (field fields name = some v ↔ (name, some v) ∈ fields)
  | [], _ => by simp [field]
  | (name', value) :: fields, h => by
    rw [List.map_cons, List.nodup_cons] at h
    have hrest : field fields name = some v ↔ (name, some v) ∈ fields := field_eq_some_iff h.2
    by_cases hname : name' = name
    · subst hname
      have hnot : (name', some v) ∉ fields := fun hmem =>
        h.1 (List.mem_map.mpr ⟨_, hmem, rfl⟩)
      have hfield : field ((name', value) :: fields) name' = value := by simp [field]
      rw [hfield, List.mem_cons, or_iff_left hnot, Prod.mk.injEq, and_iff_right rfl, eq_comm]
    · have hfield : field ((name', value) :: fields) name = field fields name := by
        simp [field, hname]
      rw [hfield, hrest, List.mem_cons, or_iff_right]
      rintro ⟨⟩
      exact hname rfl

/-- The texts state the same of the names an answer has. -/
def StateAlike (fields fields' : List (String × Option String)) : Prop :=
  ∀ name ∈ ["format", "publicKey", "validFrom", "validTo"], ∀ v,
    (name, some v) ∈ fields ↔ (name, some v) ∈ fields'

/-- An object of RFC 8259 whose values are strings or `null`, whose members have names of their own
and whose strings, those of members the answer does not have included, have no escape that names a
surrogate, and what its members are.  `parse` refuses any other value, and such an escape also in
the pairs RFC 8259 writes for a character beyond the basic plane. -/
structure Members (o : Object) (fields : List (String × Option String)) : Prop where
  rfc8259 : o.In rfc8259
  whole : ∀ p ∈ o.pieces, ¬ p.Surrogate
  decoded : o.fields decode = some fields
  names : (fields.map Prod.fst).Nodup

theorem Members.read {o : Object} {fields : List (String × Option String)} (h : Members o fields) :
    readFlatObject o.text = .ok fields := by
  refine readFlatObject_eq_ok_iff.mpr ⟨o, rfc8259_below_looseJson.allows h.rfc8259, ?_, rfl⟩
  rw [← h.decoded]
  refine (fields_congr fun pieces hpieces => ?_).symm
  exact decode_eq_readPieces (fun p hp => h.rfc8259.piece p (hpieces p hp))
    fun p hp => h.whole p (hpieces p hp)

theorem members_written (ch : Chrono) (a : PublicKeyAnswer) :
    Members (a.writtenObject ch) (a.jsonFields ch) where
  rfc8259 := writtenObject_in
  whole := by
    apply (exists_fields_readPieces_iff (rfc8259_below_looseJson.allows writtenObject_in)).mp
    obtain ⟨o, ho, hfields, htext⟩ := readFlatObject_eq_ok_iff.mp (readFlatObject_toJson ch a)
    obtain rfl := text_injective looseJson_separates ho
      (rfc8259_below_looseJson.allows writtenObject_in) (htext.trans writtenObject_text.symm)
    exact ⟨_, hfields⟩
  decoded := writtenObject_fields
  names := by simp [jsonFields]

/-- **Texts that state the same are read as the same answer.** -/
theorem parse_congr {o o' : Object} {fields fields' : List (String × Option String)}
    (h : Members o fields) (h' : Members o' fields') (hsame : StateAlike fields fields') :
    parse ch (String.ofList o.text) = parse ch (String.ofList o'.text) := by
  have hfield : ∀ name ∈ ["format", "publicKey", "validFrom", "validTo"],
      field fields name = field fields' name := by
    intro name hname
    apply Option.ext
    intro v
    rw [field_eq_some_iff h.names, field_eq_some_iff h'.names]
    exact hsame name hname v
  rw [parse, parse, String.toList_ofList, String.toList_ofList, h.read, h'.read, ok_bind, ok_bind,
    hfield "format" (by simp), hfield "publicKey" (by simp), hfield "validFrom" (by simp),
    hfield "validTo" (by simp)]

/-- **An object of strings and nulls that states what an answer states is read as the answer**, where
its moments are written as `to_json` writes them and are read, no two of its members have one name
and none of its strings has an escape that names a surrogate: the order of its members, its white
space, its other escapes and the other strings and nulls it states do not matter. -/
theorem parse_of_members {o : Object} {fields : List (String × Option String)} (h : Members o fields)
    (hsame : StateAlike fields (a.jsonFields ch))
    (hfrom : ∀ d ∈ a.validFrom, ch.parseFromRfc3339 (ch.toRfc3339 d) = some d)
    (hto : ∀ d ∈ a.validTo, ch.parseFromRfc3339 (ch.toRfc3339 d) = some d) :
    parse ch (String.ofList o.text) = .ok a := by
  rw [parse_congr h (members_written ch a) hsame, writtenObject_text, String.ofList_toList]
  exact parse_toJson hfrom hto

/-- A key with white space around it, a member of another name, and then the format. -/
def sampleObject : Object :=
  .members [' '] { writtenMember "publicKey" (some "a") with
      beforeName := ['\n'], afterName := [' '], afterValue := ['\t'] }
    [{ writtenMember "note" none with value := some [.code '0' '0' '6' '1', .short '/'] },
      writtenMember "format" (some "spki")] []

theorem sampleObject_in : sampleObject.In rfc8259 := by
  have hkey := (member_in_iff.mp (writtenMember_in "publicKey" (some "a"))).2
  have hnote := (member_in_iff.mp (writtenMember_in "note" none)).2.1
  refine members_in_iff.mpr ⟨by simp [rfc8259], ?_, nofun⟩
  intro n hn
  simp only [List.mem_cons, List.not_mem_nil, or_false] at hn
  rcases hn with rfl | rfl | rfl
  · exact member_in_iff.mpr ⟨by simp [rfc8259, writtenMember], hkey⟩
  · refine member_in_iff.mpr ⟨by simp [writtenMember], hnote, ?_⟩
    rintro _ ⟨⟩ p hp
    simp only [List.mem_cons, List.not_mem_nil, or_false] at hp
    rcases hp with rfl | rfl
    · exact ⟨97, by decide⟩
    · exact ⟨'/', rfl⟩
  · exact writtenMember_in "format" (some "spki")

theorem parse_of_members_sample :
    parse sampleChrono (String.ofList sampleObject.text) = .ok ⟨"spki", "a", none, none⟩ := by
  have hmembers : Members sampleObject
      [("publicKey", some "a"), ("note", some "a/"), ("format", some "spki")] := by
    refine ⟨sampleObject_in, ?_, rfl, by simp⟩
    exact (exists_fields_readPieces_iff (rfc8259_below_looseJson.allows sampleObject_in)).mp
      ⟨[("publicKey", some "a"), ("note", some "a/"), ("format", some "spki")], rfl⟩
  exact parse_of_members hmembers (by simp [StateAlike, jsonFields]) nofun nofun

end PublicKeyAnswer

end OwidRust
