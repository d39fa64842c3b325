import Mathlib.Data.List.Basic

/-!
# Flat JSON objects as they are written

The concrete syntax of a JSON object whose values are strings or `null`: every character of the
text is in the tree, the white space too.  A `Dialect` says which characters may stand as white
space, which may stand for themselves in a string, and which four may follow `\u`; RFC 8259 is one.

* `text_injective` — a text has one tree, where white space is no character the tree puts between;
* `rfc8259`, `decode` — the dialect of RFC 8259, and the characters it gives a string, if any.
-/

namespace FlatJson

/-! ## Trees -/

/-- What a string is written as, piece by piece. -/
inductive Piece where
  /-- A character that stands for itself. -/
  | plain (c : Char)
  /-- An escape of one character. -/
  | short (escaped : Char)
  /-- `\u` and four characters. -/
  | code (a b c d : Char)
  deriving DecidableEq, Repr

def Piece.text : Piece → List Char
  | .plain c => [c]
  | .short escaped => ['\\', escaped]
  | .code a b c d => ['\\', 'u', a, b, c, d]

/-- The text of a string up to its closing quotation mark. -/
def piecesText (pieces : List Piece) : List Char := pieces.flatMap Piece.text

def stringText (pieces : List Piece) : List Char := '"' :: (piecesText pieces ++ ['"'])

/-- A value: `null`, or a string. -/
def valueText : Option (List Piece) → List Char
  | none => ['n', 'u', 'l', 'l']
  | some pieces => stringText pieces

/-- A member of an object, with the white space around its name and its value. -/
structure Member where
  beforeName : List Char
  name : List Piece
  afterName : List Char
  beforeValue : List Char
  value : Option (List Piece)
  afterValue : List Char
  deriving DecidableEq, Repr

namespace Member

def text (m : Member) : List Char :=
  m.beforeName ++ (stringText m.name ++ (m.afterName ++ ':' :: (m.beforeValue ++
    (valueText m.value ++ m.afterValue))))

/-- The white space of the member. -/
def gaps (m : Member) : List Char := m.beforeName ++ m.afterName ++ m.beforeValue ++ m.afterValue

/-- The pieces of its strings. -/
def pieces (m : Member) : List Piece := m.name ++ m.value.getD []

end Member

/-- The members after the first, each behind its comma. -/
def othersText (members : List Member) : List Char := members.flatMap fun m => ',' :: m.text

/-- An object, with the white space around it and, where it has no member, within it. -/
inductive Object where
  | empty (before inside after : List Char)
  | members (before : List Char) (first : Member) (others : List Member) (after : List Char)
  deriving DecidableEq, Repr

namespace Object

def text : Object → List Char
  | .empty before inside after => before ++ '{' :: (inside ++ '}' :: after)
  | .members before first others after =>
    before ++ '{' :: (first.text ++ (othersText others ++ '}' :: after))

def memberList : Object → List Member
  | .empty _ _ _ => []
  | .members _ first others _ => first :: others

def gaps : Object → List Char
  | .empty before inside after => before ++ inside ++ after
  | .members before first others after => before ++ (first :: others).flatMap Member.gaps ++ after

def pieces (o : Object) : List Piece := o.memberList.flatMap Member.pieces

end Object

/-! ## Dialects -/

structure Dialect where
  /-- White space. -/
  space : Char → Prop
  /-- What may stand for itself in a string, beside the quotation mark and the backslash. -/
  plain : Char → Prop
  /-- What may follow `\u`. -/
  code : Char → Char → Char → Char → Prop

/-- The escapes of one character and what they stand for. -/
def shortEscape (escaped : Char) : Option Char :=
  match escaped with
  | '"' => some '"'
  | '\\' => some '\\'
  | '/' => some '/'
  | 'b' => some (Char.ofNat 8)
  | 'f' => some (Char.ofNat 12)
  | 'n' => some '\n'
  | 'r' => some '\r'
  | 't' => some '\t'
  | _ => none

def Piece.In (D : Dialect) : Piece → Prop
  | .plain c => c ≠ '"' ∧ c ≠ '\\' ∧ D.plain c
  | .short escaped => ∃ c, shortEscape escaped = some c
  | .code a b c d => D.code a b c d

/-- White space and pieces the dialect allows. -/
structure Dialect.Allows (D : Dialect) (gaps : List Char) (pieces : List Piece) : Prop where
  space : ∀ c ∈ gaps, D.space c
  piece : ∀ p ∈ pieces, p.In D

def Member.In (D : Dialect) (m : Member) : Prop := D.Allows m.gaps m.pieces

def Object.In (D : Dialect) (o : Object) : Prop := D.Allows o.gaps o.pieces

/-- Everything the one dialect allows the other does. -/
structure Dialect.Below (D E : Dialect) : Prop where
  space : ∀ c, D.space c → E.space c
  plain : ∀ c, D.plain c → E.plain c
  code : ∀ a b c d, D.code a b c d → E.code a b c d

theorem Dialect.Below.piece {D E : Dialect} (h : D.Below E) {p : Piece} (hp : p.In D) : p.In E := by
  cases p with
  | plain c => exact ⟨hp.1, hp.2.1, h.plain c hp.2.2⟩
  | short escaped => exact hp
  | code a b c d => exact h.code a b c d hp

theorem Dialect.Below.allows {D E : Dialect} (h : D.Below E) {gaps : List Char}
    {pieces : List Piece} (ha : D.Allows gaps pieces) : E.Allows gaps pieces :=
  ⟨fun c hc => h.space c (ha.space c hc), fun p hp => h.piece (ha.piece p hp)⟩

/-- White space is no character that begins or ends a part of the tree. -/
def Dialect.Separates (D : Dialect) : Prop :=
  ∀ c ∈ ['"', '\x7b', '\x7d', ':', ',', 'n'], ¬ D.space c

/-! ### What a member and an object are made of -/

section Parts

variable {D : Dialect} {m : Member} {before inside after : List Char} {others : List Member}

theorem member_in_iff : m.In D ↔
    ((∀ c ∈ m.beforeName, D.space c) ∧ (∀ c ∈ m.afterName, D.space c) ∧
      (∀ c ∈ m.beforeValue, D.space c) ∧ ∀ c ∈ m.afterValue, D.space c) ∧
    (∀ p ∈ m.name, p.In D) ∧ ∀ pieces ∈ m.value, ∀ p ∈ pieces, p.In D := by
  constructor
  · rintro ⟨hspace, hpiece⟩
    simp only [Member.gaps, Member.pieces, List.mem_append] at hspace hpiece
    refine ⟨⟨fun c hc => hspace c (by simp [hc]), fun c hc => hspace c (by simp [hc]),
      fun c hc => hspace c (by simp [hc]), fun c hc => hspace c (by simp [hc])⟩,
      fun p hp => hpiece p (.inl hp), ?_⟩
    intro pieces hvalue p hp
    rw [Option.mem_def] at hvalue
    exact hpiece p (.inr (by rw [hvalue]; exact hp))
  · rintro ⟨⟨h1, h2, h3, h4⟩, hname, hvalue⟩
    refine ⟨?_, ?_⟩
    · intro c hc
      simp only [Member.gaps, List.mem_append] at hc
      rcases hc with ((hc | hc) | hc) | hc
      · exact h1 c hc
      · exact h2 c hc
      · exact h3 c hc
      · exact h4 c hc
    · intro p hp
      rcases List.mem_append.mp hp with hp | hp
      · exact hname p hp
      · cases hv : m.value with
        | none => rw [hv] at hp; cases hp
        | some pieces => rw [hv] at hp; exact hvalue pieces hv p hp

theorem empty_in_iff : (Object.empty before inside after).In D ↔
    (∀ c ∈ before, D.space c) ∧ (∀ c ∈ inside, D.space c) ∧ ∀ c ∈ after, D.space c := by
  constructor
  · rintro ⟨hspace, -⟩
    simp only [Object.gaps, List.mem_append] at hspace
    exact ⟨fun c hc => hspace c (by simp [hc]), fun c hc => hspace c (by simp [hc]),
      fun c hc => hspace c (by simp [hc])⟩
  · rintro ⟨h1, h2, h3⟩
    refine ⟨?_, by simp [Object.pieces, Object.memberList]⟩
    intro c hc
    simp only [Object.gaps, List.mem_append] at hc
    rcases hc with (hc | hc) | hc
    · exact h1 c hc
    · exact h2 c hc
    · exact h3 c hc

theorem members_in_iff : (Object.members before m others after).In D ↔
    (∀ c ∈ before, D.space c) ∧ (∀ n ∈ m :: others, n.In D) ∧ ∀ c ∈ after, D.space c := by
  constructor
  · rintro ⟨hspace, hpiece⟩
    simp only [Object.gaps, Object.pieces, Object.memberList, List.mem_append,
      List.mem_flatMap] at hspace hpiece
    refine ⟨fun c hc => hspace c (by simp [hc]), ?_, fun c hc => hspace c (by simp [hc])⟩
    intro n hn
    exact ⟨fun c hc => hspace c (.inl (.inr ⟨n, hn, hc⟩)), fun p hp => hpiece p ⟨n, hn, hp⟩⟩
  · rintro ⟨h1, h2, h3⟩
    refine ⟨?_, ?_⟩
    · intro c hc
      simp only [Object.gaps, List.mem_append, List.mem_flatMap] at hc
      rcases hc with (hc | ⟨n, hn, hc⟩) | hc
      · exact h1 c hc
      · exact (h2 n hn).space c hc
      · exact h3 c hc
    · intro p hp
      simp only [Object.pieces, Object.memberList, List.mem_flatMap] at hp
      obtain ⟨n, hn, hp⟩ := hp
      exact (h2 n hn).piece p hp

end Parts

/-! ## One text, one tree -/

section Unique

variable {D : Dialect}

/-- White space ends where it ends. -/
theorem gap_unique {gap gap' rest rest' : List Char} {c c' : Char} (hgap : ∀ c ∈ gap, D.space c)
    (hgap' : ∀ c ∈ gap', D.space c) (hc : ¬ D.space c) (hc' : ¬ D.space c')
    (h : gap ++ c :: rest = gap' ++ c' :: rest') : gap = gap' ∧ c = c' ∧ rest = rest' := by
  induction gap generalizing gap' with
  | nil =>
    cases gap' with
    | nil =>
      obtain ⟨rfl, rfl⟩ := List.cons.inj h
      exact ⟨rfl, rfl, rfl⟩
    | cons d gap' =>
      obtain ⟨rfl, -⟩ := List.cons.inj h
      exact absurd (hgap' c (by simp)) hc
  | cons d gap ih =>
    cases gap' with
    | nil =>
      obtain ⟨rfl, -⟩ := List.cons.inj h
      exact absurd (hgap d (by simp)) hc'
    | cons d' gap' =>
      obtain ⟨rfl, htail⟩ := List.cons.inj h
      obtain ⟨rfl, hrest⟩ := ih (fun e he => hgap e (List.mem_cons_of_mem d he))
        (fun e he => hgap' e (List.mem_cons_of_mem d he)) htail
      exact ⟨rfl, hrest⟩

theorem shortEscape_ne_u {escaped c : Char} (h : shortEscape escaped = some c) : escaped ≠ 'u' := by
  rintro rfl
  cases h

theorem piece_text_unique {p p' : Piece} {rest rest' : List Char} (hp : p.In D) (hp' : p'.In D)
    (h : p.text ++ rest = p'.text ++ rest') : p = p' ∧ rest = rest' := by
  cases p with
  | plain c =>
    cases p' with
    | plain c' =>
      obtain ⟨rfl, rfl⟩ := List.cons.inj h
      exact ⟨rfl, rfl⟩
    | short escaped' | code a' b' c' d' => exact absurd (List.cons.inj h).1 hp.2.1
  | short escaped =>
    obtain ⟨e, he⟩ := hp
    cases p' with
    | plain c' => exact absurd (List.cons.inj h).1.symm hp'.2.1
    | short escaped' =>
      simp only [Piece.text, List.cons_append, List.nil_append, List.cons.injEq, true_and] at h
      exact ⟨by rw [h.1], h.2⟩
    | code a' b' c' d' =>
      simp only [Piece.text, List.cons_append, List.nil_append, List.cons.injEq, true_and] at h
      exact absurd h.1 (shortEscape_ne_u he)
  | code a b c d =>
    cases p' with
    | plain c' => exact absurd (List.cons.inj h).1.symm hp'.2.1
    | short escaped' =>
      obtain ⟨e, he⟩ := hp'
      simp only [Piece.text, List.cons_append, List.nil_append, List.cons.injEq, true_and] at h
      exact absurd h.1.symm (shortEscape_ne_u he)
    | code a' b' c' d' =>
      simp only [Piece.text, List.cons_append, List.nil_append, List.cons.injEq, true_and] at h
      obtain ⟨rfl, rfl, rfl, rfl, rfl⟩ := h
      exact ⟨rfl, rfl⟩

/-- No piece begins with the quotation mark that ends a string. -/
theorem piece_text_ne_quote {p : Piece} (hp : p.In D) {rest rest' : List Char} :
    p.text ++ rest ≠ '"' :: rest' := by
  intro h
  cases p with
  | plain c => exact hp.1 (List.cons.inj h).1
  | short escaped | code a b c d => exact absurd (List.cons.inj h).1 (by decide)

theorem pieces_unique {pieces pieces' : List Piece} {rest rest' : List Char}
    (hp : ∀ p ∈ pieces, p.In D) (hp' : ∀ p ∈ pieces', p.In D)
    (h : piecesText pieces ++ '"' :: rest = piecesText pieces' ++ '"' :: rest') :
    pieces = pieces' ∧ rest = rest' := by
  induction pieces generalizing pieces' with
  | nil =>
    cases pieces' with
    | nil => exact ⟨rfl, (List.cons.inj h).2⟩
    | cons p' pieces' =>
      rw [piecesText, piecesText, List.flatMap_cons, List.append_assoc] at h
      exact absurd h.symm (piece_text_ne_quote (hp' p' (by simp)))
  | cons p pieces ih =>
    rw [piecesText, List.flatMap_cons, List.append_assoc] at h
    cases pieces' with
    | nil => exact absurd h (piece_text_ne_quote (hp p (by simp)))
    | cons p' pieces' =>
      rw [piecesText, List.flatMap_cons, List.append_assoc] at h
      obtain ⟨rfl, htail⟩ := piece_text_unique (hp p (by simp)) (hp' p' (by simp)) h
      obtain ⟨rfl, hrest⟩ := ih (fun q hq => hp q (List.mem_cons_of_mem p hq))
        (fun q hq => hp' q (List.mem_cons_of_mem p hq)) htail
      exact ⟨rfl, hrest⟩

theorem string_unique {pieces pieces' : List Piece} {rest rest' : List Char}
    (hp : ∀ p ∈ pieces, p.In D) (hp' : ∀ p ∈ pieces', p.In D)
    (h : stringText pieces ++ rest = stringText pieces' ++ rest') :
    pieces = pieces' ∧ rest = rest' := by
  simp only [stringText, List.cons_append, List.append_assoc, List.nil_append, List.cons.injEq,
    true_and] at h
  exact pieces_unique hp hp' h

theorem value_unique {value value' : Option (List Piece)} {rest rest' : List Char}
    (hp : ∀ pieces ∈ value, ∀ p ∈ pieces, p.In D) (hp' : ∀ pieces ∈ value', ∀ p ∈ pieces, p.In D)
    (h : valueText value ++ rest = valueText value' ++ rest') : value = value' ∧ rest = rest' := by
  cases value with
  | none =>
    cases value' with
    | none =>
      simp only [valueText, List.cons_append, List.nil_append, List.cons.injEq, true_and] at h
      exact ⟨rfl, h⟩
    | some pieces' => exact absurd (List.cons.inj h).1 (by decide)
  | some pieces =>
    cases value' with
    | none => exact absurd (List.cons.inj h).1 (by decide)
    | some pieces' =>
      obtain ⟨rfl, hrest⟩ := string_unique (hp _ rfl) (hp' _ rfl) h
      exact ⟨rfl, hrest⟩

theorem valueText_head (value : Option (List Piece)) (rest : List Char) :
    ∃ c tail, (c = 'n' ∨ c = '"') ∧ valueText value ++ rest = c :: tail := by
  cases value with
  | none => exact ⟨'n', _, .inl rfl, rfl⟩
  | some pieces => exact ⟨'"', _, .inr rfl, rfl⟩

theorem member_unique (hD : D.Separates) {m m' : Member} {rest rest' : List Char} {c c' : Char}
    (hm : m.In D) (hm' : m'.In D) (hc : c = ',' ∨ c = '}') (hc' : c' = ',' ∨ c' = '}')
    (h : m.text ++ c :: rest = m'.text ++ c' :: rest') : m = m' ∧ c = c' ∧ rest = rest' := by
  obtain ⟨⟨hbn, han, hbv, hav⟩, hname, hvalue⟩ := member_in_iff.mp hm
  obtain ⟨⟨hbn', han', hbv', hav'⟩, hname', hvalue'⟩ := member_in_iff.mp hm'
  have hend : ∀ c, c = ',' ∨ c = '}' → ¬ D.space c := by
    rintro c (rfl | rfl)
    · exact hD _ (by simp)
    · exact hD _ (by simp)
  have hstart : ∀ c, c = 'n' ∨ c = '"' → ¬ D.space c := by
    rintro c (rfl | rfl)
    · exact hD _ (by simp)
    · exact hD _ (by simp)
  simp only [Member.text, List.append_assoc, List.cons_append] at h
  -- the name, the colon, the value and what ends the member, one after another
  obtain ⟨hbefore, -, h⟩ := gap_unique hbn hbn' (hD '"' (by simp)) (hD '"' (by simp)) h
  obtain ⟨hnames, h⟩ := string_unique hname hname' (congrArg (List.cons '"') h)
  obtain ⟨hafter, -, h⟩ := gap_unique han han' (hD ':' (by simp)) (hD ':' (by simp)) h
  obtain ⟨v, tail, hv, htail⟩ := valueText_head m.value (m.afterValue ++ c :: rest)
  obtain ⟨v', tail', hv', htail'⟩ := valueText_head m'.value (m'.afterValue ++ c' :: rest')
  rw [htail, htail'] at h
  obtain ⟨hbeforeValue, hvv, htails⟩ := gap_unique hbv hbv' (hstart v hv) (hstart v' hv') h
  rw [hvv, htails, ← htail'] at htail
  obtain ⟨hvalues, h⟩ := value_unique hvalue hvalue' htail
  obtain ⟨hafterValue, hcc, hrest⟩ := gap_unique hav hav' (hend c hc) (hend c' hc') h
  refine ⟨?_, hcc, hrest⟩
  cases m
  cases m'
  simp only [Member.mk.injEq]
  exact ⟨hbefore, hnames, hafter, hbeforeValue, hvalues, hafterValue⟩

theorem others_unique (hD : D.Separates) {others others' : List Member} {rest rest' : List Char}
    {m m' : Member} (hm : m.In D) (hm' : m'.In D) (ho : ∀ n ∈ others, n.In D)
    (ho' : ∀ n ∈ others', n.In D)
    (h : m.text ++ (othersText others ++ '}' :: rest) =
      m'.text ++ (othersText others' ++ '}' :: rest')) :
    m = m' ∧ others = others' ∧ rest = rest' := by
  induction others generalizing m m' others' with
  | nil =>
    cases others' with
    | nil =>
      obtain ⟨hmm, -, hrest⟩ := member_unique hD hm hm' (.inr rfl) (.inr rfl) h
      exact ⟨hmm, rfl, hrest⟩
    | cons n' others' =>
      obtain ⟨-, hne, -⟩ := member_unique hD hm hm' (.inr rfl) (.inl rfl) h
      exact absurd hne (by decide)
  | cons n others ih =>
    cases others' with
    | nil =>
      obtain ⟨-, hne, -⟩ := member_unique hD hm hm' (.inl rfl) (.inr rfl) h
      exact absurd hne (by decide)
    | cons n' others' =>
      obtain ⟨hmm, -, hothers⟩ := member_unique hD hm hm' (.inl rfl) (.inl rfl) h
      change (n.text ++ othersText others) ++ '}' :: rest =
        (n'.text ++ othersText others') ++ '}' :: rest' at hothers
      rw [List.append_assoc, List.append_assoc] at hothers
      obtain ⟨rfl, rfl, hrest⟩ := ih (ho n (by simp)) (ho' n' (by simp))
        (fun k hk => ho k (List.mem_cons_of_mem n hk))
        (fun k hk => ho' k (List.mem_cons_of_mem n' hk)) hothers
      exact ⟨hmm, rfl, hrest⟩

/-- The first member begins with white space or a quotation mark. -/
theorem member_text_head (m : Member) (rest : List Char) :
    ∃ tail, m.text ++ rest = m.beforeName ++ '"' :: tail := by
  exact ⟨_, List.append_assoc m.beforeName _ rest⟩

/-- **A text has one tree.** -/
theorem text_injective (hD : D.Separates) {o o' : Object} (ho : o.In D) (ho' : o'.In D)
    (h : o.text = o'.text) : o = o' := by
  have hopen : ¬ D.space '{' := hD _ (by simp)
  have hclose : ¬ D.space '}' := hD _ (by simp)
  have hquote : ¬ D.space '"' := hD _ (by simp)
  cases o with
  | empty before inside after =>
    obtain ⟨hbefore, hinside, -⟩ := empty_in_iff.mp ho
    cases o' with
    | empty before' inside' after' =>
      obtain ⟨hbefore', hinside', -⟩ := empty_in_iff.mp ho'
      obtain ⟨rfl, -, h⟩ := gap_unique hbefore hbefore' hopen hopen h
      obtain ⟨rfl, -, rfl⟩ := gap_unique hinside hinside' hclose hclose h
      rfl
    | members before' first' others' after' =>
      obtain ⟨hbefore', hmembers', -⟩ := members_in_iff.mp ho'
      obtain ⟨-, -, h⟩ := gap_unique hbefore hbefore' hopen hopen h
      obtain ⟨tail, htail⟩ := member_text_head first' (othersText others' ++ '}' :: after')
      rw [htail] at h
      have hgap := (member_in_iff.mp (hmembers' first' (by simp))).1.1
      obtain ⟨-, hne, -⟩ := gap_unique hinside hgap hclose hquote h
      exact absurd hne (by decide)
  | members before first others after =>
    obtain ⟨hbefore, hmembers, -⟩ := members_in_iff.mp ho
    cases o' with
    | empty before' inside' after' =>
      obtain ⟨hbefore', hinside', -⟩ := empty_in_iff.mp ho'
      obtain ⟨-, -, h⟩ := gap_unique hbefore hbefore' hopen hopen h
      obtain ⟨tail, htail⟩ := member_text_head first (othersText others ++ '}' :: after)
      rw [htail] at h
      have hgap := (member_in_iff.mp (hmembers first (by simp))).1.1
      obtain ⟨-, hne, -⟩ := gap_unique hgap hinside' hquote hclose h
      exact absurd hne (by decide)
    | members before' first' others' after' =>
      obtain ⟨hbefore', hmembers', -⟩ := members_in_iff.mp ho'
      obtain ⟨rfl, -, h⟩ := gap_unique hbefore hbefore' hopen hopen h
      obtain ⟨rfl, rfl, rfl⟩ := others_unique hD (hmembers first (by simp))
        (hmembers' first' (by simp)) (fun n hn => hmembers n (List.mem_cons_of_mem first hn))
        (fun n hn => hmembers' n (List.mem_cons_of_mem first' hn)) h
      rfl

end Unique

/-! ## RFC 8259 -/

def hexDigit (c : Char) : Option Nat :=
  let n := c.toNat
  if 48 ≤ n ∧ n ≤ 57 then some (n - 48)
  else if 97 ≤ n ∧ n ≤ 102 then some (n - 87)
  else if 65 ≤ n ∧ n ≤ 70 then some (n - 55)
  else none

/-- The UTF-16 code unit of four hexadecimal digits. -/
def codeUnit (a b c d : Char) : Option Nat :=
  (hexDigit a).bind fun a => (hexDigit b).bind fun b => (hexDigit c).bind fun c =>
    (hexDigit d).map fun d => ((a * 16 + b) * 16 + c) * 16 + d

/-- The dialect of RFC 8259. -/
def rfc8259 : Dialect where
  space c := c = ' ' ∨ c = '\t' ∨ c = '\n' ∨ c = '\r'
  plain c := 0x20 ≤ c.toNat
  code a b c d := ∃ unit, codeUnit a b c d = some unit

def IsSurrogate (unit : Nat) : Prop := 0xD800 ≤ unit ∧ unit ≤ 0xDFFF

instance (unit : Nat) : Decidable (IsSurrogate unit) :=
  inferInstanceAs (Decidable (0xD800 ≤ unit ∧ unit ≤ 0xDFFF))

/-- The escape of a code unit that is half of a surrogate pair. -/
def Piece.Surrogate (p : Piece) : Prop :=
  ∃ a b c d unit, p = .code a b c d ∧ codeUnit a b c d = some unit ∧ IsSurrogate unit

/-- The character beyond the basic plane that two surrogates name. -/
def surrogatePair (high low : Nat) : Option Char :=
  if high ≤ 0xDBFF ∧ 0xDC00 ≤ low ∧ low ≤ 0xDFFF then
    some (Char.ofNat (0x10000 + (high - 0xD800) * 0x400 + (low - 0xDC00)))
  else none

/-- The characters of a string.  A surrogate that is not the first of a pair names none. -/
def decode : List Piece → Option (List Char)
  | [] => some []
  | .plain c :: rest => (decode rest).map (c :: ·)
  | .short escaped :: rest => (shortEscape escaped).bind fun c => (decode rest).map (c :: ·)
  | .code a b c d :: rest =>
    (codeUnit a b c d).bind fun unit =>
      if IsSurrogate unit then
        match rest with
        | .code a b c d :: rest =>
          (codeUnit a b c d).bind fun low =>
            (surrogatePair unit low).bind fun c => (decode rest).map (c :: ·)
        | _ => none
      else (decode rest).map (Char.ofNat unit :: ·)

/-- A value by the way its string is read. -/
def readValueBy (read : List Piece → Option (List Char)) :
    Option (List Piece) → Option (Option (List Char))
  | none => some none
  | some pieces => (read pieces).map some

/-- A member by the way its strings are read. -/
def Member.field (read : List Piece → Option (List Char)) (m : Member) :
    Option (String × Option String) :=
  (read m.name).bind fun name =>
    (readValueBy read m.value).map fun value => (String.ofList name, value.map String.ofList)

/-- The members in order. -/
def Object.fields (read : List Piece → Option (List Char)) (o : Object) :
    Option (List (String × Option String)) := o.memberList.mapM (Member.field read)

theorem mapM_congr {α β : Type} {f g : α → Option β} :
    ∀ {xs : List α}, (∀ x ∈ xs, f x = g x) → xs.mapM f = xs.mapM g
  | [], _ => rfl
  | x :: xs, h => by
    rw [List.mapM_cons, List.mapM_cons, h x (by simp),
      mapM_congr fun y hy => h y (List.mem_cons_of_mem x hy)]

/-- Two ways of reading that agree on the strings of an object read it alike. -/
theorem fields_congr {f g : List Piece → Option (List Char)} {o : Object}
    (h : ∀ pieces, (∀ p ∈ pieces, p ∈ o.pieces) → f pieces = g pieces) : o.fields f = o.fields g := by
  unfold Object.fields
  apply mapM_congr
  intro m hm
  have hpieces : ∀ p ∈ m.pieces, p ∈ o.pieces := fun p hp => List.mem_flatMap.mpr ⟨m, hm, hp⟩
  have hname : f m.name = g m.name :=
    h m.name fun p hp => hpieces p (List.mem_append_left _ hp)
  unfold Member.field
  rw [hname]
  cases hv : m.value with
  | none => rfl
  | some pieces =>
    have hvalue : f pieces = g pieces := h pieces fun p hp =>
      hpieces p (List.mem_append_right _ (by rw [hv]; exact hp))
    simp only [readValueBy, hvalue]

theorem exists_mapM_iff {α β : Type} {f : α → Option β} {xs : List α} :
    (∃ ys, xs.mapM f = some ys) ↔ ∀ x ∈ xs, ∃ y, f x = some y := by
  induction xs with
  | nil => exact iff_of_true ⟨[], rfl⟩ (by simp)
  | cons x xs ih =>
    rw [List.forall_mem_cons, ← ih, List.mapM_cons]
    cases f x with
    | none => simp
    | some y => cases xs.mapM f <;> simp

theorem exists_field_iff {read : List Piece → Option (List Char)} {m : Member} {P : Piece → Prop}
    (h : ∀ pieces, (∀ p ∈ pieces, p ∈ m.pieces) →
      ((∃ cs, read pieces = some cs) ↔ ∀ p ∈ pieces, P p)) :
    (∃ f, m.field read = some f) ↔ ∀ p ∈ m.pieces, P p := by
  have hname := h m.name fun p hp => List.mem_append_left _ hp
  have hvalue : (∃ v, readValueBy read m.value = some v) ↔ ∀ p ∈ m.value.getD [], P p := by
    cases hv : m.value with
    | none => exact iff_of_true ⟨none, rfl⟩ (by simp)
    | some pieces =>
      have := h pieces fun p hp => List.mem_append_right _ (by rw [hv]; exact hp)
      rw [Option.getD_some, ← this, readValueBy]
      cases read pieces <;> simp
  rw [Member.pieces, List.forall_mem_append, ← hname, ← hvalue, Member.field]
  cases read m.name with
  | none => simp
  | some name => cases readValueBy read m.value <;> simp

/-- An object is read where every string of it is. -/
theorem exists_fields_iff {read : List Piece → Option (List Char)} {o : Object} {P : Piece → Prop}
    (h : ∀ pieces, (∀ p ∈ pieces, p ∈ o.pieces) →
      ((∃ cs, read pieces = some cs) ↔ ∀ p ∈ pieces, P p)) :
    (∃ fields, o.fields read = some fields) ↔ ∀ p ∈ o.pieces, P p := by
  have hmember : ∀ m ∈ o.memberList, (∃ f, m.field read = some f) ↔ ∀ p ∈ m.pieces, P p := by
    intro m hm
    apply exists_field_iff
    intro pieces hpieces
    exact h pieces fun p hp => List.mem_flatMap.mpr ⟨m, hm, hpieces p hp⟩
  rw [Object.fields, exists_mapM_iff]
  constructor
  · intro hall p hp
    obtain ⟨m, hm, hp⟩ := List.mem_flatMap.mp hp
    exact (hmember m hm).mp (hall m hm) p hp
  · intro hall m hm
    exact (hmember m hm).mpr fun p hp => hall p (List.mem_flatMap.mpr ⟨m, hm, hp⟩)

end FlatJson
