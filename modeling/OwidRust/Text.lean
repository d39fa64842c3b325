import Mathlib.Data.Nat.Digits.Defs
import OwidRust.Error

/-!
# Text

The parts of Rust's `str` the crate uses: the UTF-8 bytes of a text, `str::from_utf8`,
`trim().is_empty()` with the white space Unicode defines, and the reading and writing of a `u32`.

* `fromUtf8_eq_some_iff` — bytes read as a text exactly where they are that text's bytes;
* `parseU32_decimal` — a `u32` is read back from its decimal text.
-/

namespace OwidRust

/-- `str::as_bytes`. -/
def utf8 (s : String) : List UInt8 := s.toByteArray.data.toList

/-- `str::from_utf8`. -/
def fromUtf8 (bytes : List UInt8) : Option String := String.fromUTF8? ⟨⟨bytes⟩⟩

theorem fromUtf8_eq_some_iff {bytes : List UInt8} {s : String} :
    fromUtf8 bytes = some s ↔ utf8 s = bytes := by
  unfold fromUtf8 String.fromUTF8? utf8
  split
  · rename_i h
    simp only [Option.some.injEq]
    constructor
    · rintro rfl; rfl
    · rintro rfl; rfl
  · rename_i h
    simp only [reduceCtorEq, false_iff]
    rintro rfl
    exact h s.isValidUTF8

theorem fromUtf8_utf8 (s : String) : fromUtf8 (utf8 s) = some s := fromUtf8_eq_some_iff.mpr rfl

/-- The first byte of a text is one a character begins with. -/
theorem isUTF8FirstByte_of_utf8_eq_cons {s : String} {b : UInt8} {rest : List UInt8}
    (h : utf8 s = b :: rest) : b.IsUTF8FirstByte := by
  have hsize : 0 < s.toByteArray.size := by
    have hlength := congrArg List.length h
    simp only [utf8, List.length_cons, Array.length_toList] at hlength
    change 0 < s.toByteArray.data.size
    omega
  have hfirst := s.isValidUTF8.isUTF8FirstByte_getElem_zero hsize
  have hb : s.toByteArray[0] = b := by
    have hget : (utf8 s)[0]? = some b := by rw [h]; rfl
    simp only [utf8, Array.getElem?_toList] at hget
    exact (Array.getElem?_eq_some_iff.mp hget).2
  rwa [hb] at hfirst

/-- `char::is_whitespace`, the Unicode property `White_Space`. -/
def isWhitespace (c : Char) : Bool :=
  let n := c.toNat
  (9 ≤ n && n ≤ 13) || n == 0x20 || n == 0x85 || n == 0xA0 || n == 0x1680 ||
    (0x2000 ≤ n && n ≤ 0x200A) || n == 0x2028 || n == 0x2029 || n == 0x202F || n == 0x205F ||
    n == 0x3000

/-- `trim().is_empty()`. -/
def trimIsEmpty (s : String) : Bool := s.toList.all isWhitespace

theorem trimIsEmpty_append (s t : String) :
    trimIsEmpty (s ++ t) = (trimIsEmpty s && trimIsEmpty t) := by
  simp only [trimIsEmpty, String.toList_append, List.all_append]

/-! ## Numbers -/

/-- `char::to_digit`, for a radix up to 16. -/
def toDigit (radix : Nat) (c : Char) : Option Nat :=
  let n := c.toNat
  let digit :=
    if 48 ≤ n ∧ n ≤ 57 then some (n - 48)
    else if 97 ≤ n ∧ n ≤ 102 then some (n - 87)
    else if 65 ≤ n ∧ n ≤ 70 then some (n - 55)
    else none
  digit.filter (· < radix)

/-- One digit more of a `u32`, where it is one and the number still fits. -/
def pushDigit (radix value : Nat) (c : Char) : Option Nat :=
  (toDigit radix c).bind fun digit =>
    if value * radix + digit ≤ u32Max then some (value * radix + digit) else none

/-- `u32::from_str_radix`. A plus sign may stand before the digits, of which there is one. -/
def fromStrRadix (radix : Nat) (chars : List Char) : Option Nat :=
  let digits := match chars with
    | '+' :: digits => digits
    | digits => digits
  if digits = [] then none else digits.foldlM (pushDigit radix) 0

/-- Without a sign every character is a digit. -/
theorem fromStrRadix_cons {radix : Nat} {c : Char} (h : c ≠ '+') (rest : List Char) :
    fromStrRadix radix (c :: rest) = (c :: rest).foldlM (pushDigit radix) 0 := by
  have hdigits : (match c :: rest with
      | '+' :: digits => digits
      | digits => digits) = c :: rest := by
    split
    · rename_i heq
      exact absurd (List.cons.inj heq).1 h
    · rfl
  unfold fromStrRadix
  simp only [hdigits, reduceCtorEq, if_false]

/-- `parse::<u32>`. -/
def parseU32 (chars : List Char) : Option Nat := fromStrRadix 10 chars

/-- The character of a decimal digit. -/
def decimalChar (digit : Nat) : Char := Char.ofNat (48 + digit)

/-- The decimal text of a number, as `format!` writes it. -/
def decimal (n : Nat) : List Char :=
  if n = 0 then ['0'] else ((Nat.digits 10 n).map decimalChar).reverse

theorem decimalChar_ne_plus : ∀ digit < 10, decimalChar digit ≠ '+' := by decide

theorem toDigit_decimalChar : ∀ digit < 10, toDigit 10 (decimalChar digit) = some digit := by
  decide

theorem foldlM_pushDigit {digits : List Nat} (hdigits : ∀ d ∈ digits, d < 10) (value : Nat)
    (hfits : value * 10 ^ digits.length + Nat.ofDigits 10 digits ≤ u32Max) :
    (digits.map decimalChar).reverse.foldlM (pushDigit 10) value =
      some (value * 10 ^ digits.length + Nat.ofDigits 10 digits) := by
  induction digits with
  | nil => simp
  | cons d digits ih =>
    have hd := hdigits d (by simp)
    have hlt : ∀ d ∈ digits, d < 10 := fun e he => hdigits e (by simp [he])
    simp only [List.length_cons, pow_succ, Nat.ofDigits_cons, ← Nat.mul_assoc] at hfits ⊢
    rw [List.map_cons, List.reverse_cons, List.foldlM_append,
      ih hlt (by omega)]
    simp only [Option.bind_eq_bind, Option.bind_some, List.foldlM_cons, List.foldlM_nil,
      Option.pure_def, Option.bind_fun_some, pushDigit, toDigit_decimalChar d hd]
    rw [if_pos (by omega)]
    congr 1
    omega

theorem decimal_ne_nil (n : Nat) : decimal n ≠ [] := by
  unfold decimal
  split
  · exact nofun
  · rename_i h
    simpa [Nat.digits_ne_nil_iff_ne_zero] using h

/-- The first character of a decimal text is a digit. -/
theorem decimal_head_ne_plus (n : Nat) (rest : List Char) : decimal n ≠ '+' :: rest := by
  intro h
  have hmem : '+' ∈ decimal n := by simp [h]
  unfold decimal at hmem
  split at hmem
  · exact absurd hmem (by decide)
  · simp only [List.mem_reverse, List.mem_map] at hmem
    obtain ⟨d, hd, hplus⟩ := hmem
    exact decimalChar_ne_plus d (Nat.digits_lt_base (by decide) hd) hplus

theorem parseU32_decimal {n : Nat} (h : n ≤ u32Max) : parseU32 (decimal n) = some n := by
  unfold parseU32 fromStrRadix
  have hdigits : (match decimal n with
      | '+' :: digits => digits
      | digits => digits) = decimal n := by
    split
    · rename_i heq
      exact absurd heq (decimal_head_ne_plus n _)
    · rfl
  simp only [hdigits, decimal_ne_nil, if_false]
  unfold decimal
  split
  · rename_i hzero
    subst hzero
    rfl
  · have hlt : ∀ d ∈ Nat.digits 10 n, d < 10 := fun d hd => Nat.digits_lt_base (by decide) hd
    have hfold := foldlM_pushDigit hlt 0 (by simpa [Nat.ofDigits_digits] using h)
    simpa [Nat.ofDigits_digits] using hfold

/-- A text with a character that is neither a digit nor a sign is no number. -/
theorem parseU32_eq_none {c : Char} (hdigit : toDigit 10 c = none) (hsign : c ≠ '+')
    {chars : List Char} (h : c ∈ chars) : parseU32 chars = none := by
  have hfold : ∀ (digits : List Char) (value : Nat), c ∈ digits →
      digits.foldlM (pushDigit 10) value = none := by
    intro digits
    induction digits with
    | nil =>
      intro value hmem
      cases hmem
    | cons d digits ih =>
      intro value hmem
      rw [List.foldlM_cons]
      rcases List.mem_cons.mp hmem with rfl | hrest
      · rw [pushDigit, hdigit]
        rfl
      · cases pushDigit 10 value d with
        | none => rfl
        | some next => exact ih next hrest
  have hdigits : c ∈ (match chars with
      | '+' :: digits => digits
      | digits => digits) := by
    split
    · exact (List.mem_cons.mp h).resolve_left hsign
    · exact h
  unfold parseU32 fromStrRadix
  simp only [List.ne_nil_of_mem hdigits, if_false]
  exact hfold _ 0 hdigits

end OwidRust
