import Mathlib.Data.Fin.Basic

/-!
# Base 64 that may lack padding

Bytes in groups of three as groups of four digits, over any alphabet of 64 characters and a pad, and
a reader that takes the padding whole, in part or not at all.

* `octets_eq_some_iff` — the digits that are read are those that are written;
* `decode_eq_some_iff` — a text is read as some bytes exactly where it is their digits and at most
  the padding that belongs to them.
-/

namespace Base64

/-- Sixty four digits and a character that is none of them. -/
structure Alphabet where
  digit : Fin 64 → Char
  value : Char → Option (Fin 64)
  pad : Char
  value_eq_some : ∀ c n, value c = some n ↔ digit n = c
  value_pad : value pad = none

/-! ## Six bits at a time -/

/-- The low six bits. -/
def sextet (n : Nat) : Fin 64 := Fin.ofNat 64 n

/-- The digits of bytes; the bits the last digit has too many are zero. -/
def sextets : List UInt8 → List (Fin 64)
  | a :: b :: c :: rest =>
    sextet (a.toNat / 4) :: sextet (a.toNat * 16 + b.toNat / 16) ::
      sextet (b.toNat * 4 + c.toNat / 64) :: sextet c.toNat :: sextets rest
  | [a, b] =>
    [sextet (a.toNat / 4), sextet (a.toNat * 16 + b.toNat / 16), sextet (b.toNat * 4)]
  | [a] => [sextet (a.toNat / 4), sextet (a.toNat * 16)]
  | [] => []

/-- The bytes of digits, where the bits left over are zero. -/
def octets : List (Fin 64) → Option (List UInt8)
  | s :: t :: u :: v :: rest =>
    (octets rest).map fun bytes =>
      UInt8.ofNat (s.val * 4 + t.val / 16) :: UInt8.ofNat (t.val * 16 + u.val / 4) ::
        UInt8.ofNat (u.val * 64 + v.val) :: bytes
  | [s, t, u] =>
    if u.val % 4 = 0 then
      some [UInt8.ofNat (s.val * 4 + t.val / 16), UInt8.ofNat (t.val * 16 + u.val / 4)]
    else none
  | [s, t] => if t.val % 16 = 0 then some [UInt8.ofNat (s.val * 4 + t.val / 16)] else none
  | [_] => none
  | [] => some []

@[simp]
theorem sextet_val (n : Nat) : (sextet n).val = n % 64 := rfl

theorem sextet_eq {n : Nat} {s : Fin 64} (h : n % 64 = s.val) : sextet n = s := Fin.ext h

theorem ofNat_eq {n : Nat} {b : UInt8} (h : n % 256 = b.toNat) : UInt8.ofNat n = b := by
  apply UInt8.toNat_inj.mp
  rw [UInt8.toNat_ofNat', h]

theorem octets_sextets : ∀ bytes : List UInt8, octets (sextets bytes) = some bytes
  | [] => rfl
  | [a] => by
    have ha := a.toNat_lt
    rw [sextets, octets, if_pos (by rw [sextet_val]; omega)]
    congr 2
    exact ofNat_eq (by simp only [sextet_val]; omega)
  | [a, b] => by
    have ha := a.toNat_lt
    have hb := b.toNat_lt
    rw [sextets, octets, if_pos (by rw [sextet_val]; omega)]
    congr 2
    · exact ofNat_eq (by simp only [sextet_val]; omega)
    · congr 1
      exact ofNat_eq (by simp only [sextet_val]; omega)
  | a :: b :: c :: rest => by
    have ha := a.toNat_lt
    have hb := b.toNat_lt
    have hc := c.toNat_lt
    rw [sextets, octets, octets_sextets rest, Option.map_some]
    congr 2
    · exact ofNat_eq (by simp only [sextet_val]; omega)
    · congr 1
      · exact ofNat_eq (by simp only [sextet_val]; omega)
      · congr 1
        exact ofNat_eq (by simp only [sextet_val]; omega)

theorem sextets_of_octets : ∀ {digits : List (Fin 64)} {bytes : List UInt8},
    octets digits = some bytes → digits = sextets bytes
  | [], _, h => by
    cases h
    rfl
  | [_], _, h => by cases h
  | [s, t], bytes, h => by
    have hs := s.isLt
    have ht := t.isLt
    rw [octets] at h
    split at h
    · rename_i hzero
      cases h
      rw [sextets, UInt8.toNat_ofNat']
      congr 1
      · exact (sextet_eq (by omega)).symm
      · congr 1
        exact (sextet_eq (by omega)).symm
    · cases h
  | [s, t, u], bytes, h => by
    have hs := s.isLt
    have ht := t.isLt
    have hu := u.isLt
    rw [octets] at h
    split at h
    · rename_i hzero
      cases h
      rw [sextets, UInt8.toNat_ofNat', UInt8.toNat_ofNat']
      congr 1
      · exact (sextet_eq (by omega)).symm
      · congr 1
        · exact (sextet_eq (by omega)).symm
        · congr 1
          exact (sextet_eq (by omega)).symm
    · cases h
  | s :: t :: u :: v :: rest, bytes, h => by
    have hs := s.isLt
    have ht := t.isLt
    have hu := u.isLt
    have hv := v.isLt
    rw [octets, Option.map_eq_some_iff] at h
    obtain ⟨tail, htail, rfl⟩ := h
    rw [sextets, UInt8.toNat_ofNat', UInt8.toNat_ofNat', UInt8.toNat_ofNat',
      ← sextets_of_octets htail]
    congr 1
    · exact (sextet_eq (by omega)).symm
    · congr 1
      · exact (sextet_eq (by omega)).symm
      · congr 1
        · exact (sextet_eq (by omega)).symm
        · congr 1
          exact (sextet_eq (by omega)).symm

/-- **The digits that are read are those that are written.** -/
theorem octets_eq_some_iff {digits : List (Fin 64)} {bytes : List UInt8} :
    octets digits = some bytes ↔ digits = sextets bytes := by
  constructor
  · exact sextets_of_octets
  · rintro rfl
    exact octets_sextets bytes

/-! ## Texts -/

variable (A : Alphabet)

/-- The characters of the digits alone. -/
def digits (bytes : List UInt8) : List Char := (sextets bytes).map A.digit

/-- How many pads complete the last group of four. -/
def pads (bytes : List UInt8) : Nat := (4 - (sextets bytes).length % 4) % 4

/-- The digits and all the padding. -/
def encode (bytes : List UInt8) : List Char :=
  digits A bytes ++ List.replicate (pads bytes) A.pad

/-- The value of every character, where each is a digit. -/
def values : List Char → Option (List (Fin 64))
  | [] => some []
  | c :: rest => do
    let n ← A.value c
    let tail ← values rest
    some (n :: tail)

/-- Reads digits and then pads, no more of them than complete the last group. -/
def decode (text : List Char) : Option (List UInt8) :=
  let body := text.takeWhile (fun c => c != A.pad)
  let padding := text.dropWhile (fun c => c != A.pad)
  if padding.all (fun c => c == A.pad) && padding.length ≤ (4 - body.length % 4) % 4 then
    (values A body).bind octets
  else none

variable {A}

theorem values_eq_some_iff : ∀ {text : List Char} {ns : List (Fin 64)},
    values A text = some ns ↔ text = ns.map A.digit
  | [], ns => by
    cases ns <;> simp [values]
  | c :: rest, ns => by
    simp only [values, Option.bind_eq_bind, Option.bind_eq_some_iff, Option.some.injEq,
      values_eq_some_iff, A.value_eq_some]
    constructor
    · rintro ⟨n, rfl, tail, rfl, rfl⟩
      rfl
    · cases ns with
      | nil => intro h; cases h
      | cons n tail =>
        intro h
        rw [List.map_cons, List.cons.injEq] at h
        exact ⟨n, h.1.symm, tail, h.2, rfl⟩

/-- No digit is the pad. -/
theorem ne_pad_of_mem_digits {bytes : List UInt8} {c : Char} (h : c ∈ digits A bytes) :
    c ≠ A.pad := by
  obtain ⟨n, -, rfl⟩ := List.mem_map.mp h
  intro hpad
  have hvalue := (A.value_eq_some _ n).mpr hpad
  rw [A.value_pad] at hvalue
  cases hvalue

/-- Pads cut off a text come out of its padding. -/
theorem eq_of_append_pads {text : List Char} {bytes : List UInt8} : ∀ {k n : Nat},
    text ++ List.replicate k A.pad = digits A bytes ++ List.replicate n A.pad →
      k ≤ n ∧ text = digits A bytes ++ List.replicate (n - k) A.pad
  | 0, n, h => by
    rw [List.replicate_zero, List.append_nil] at h
    exact ⟨Nat.zero_le n, h⟩
  | k + 1, 0, h => by
    rw [List.replicate_zero, List.append_nil, List.replicate_succ'] at h
    have hmem : A.pad ∈ digits A bytes := by simp [← h]
    exact absurd rfl (ne_pad_of_mem_digits hmem)
  | k + 1, n + 1, h => by
    rw [List.replicate_succ', List.replicate_succ', ← List.append_assoc, ← List.append_assoc]
      at h
    obtain ⟨hle, htext⟩ := eq_of_append_pads (List.append_cancel_right h)
    exact ⟨Nat.succ_le_succ hle, by rw [Nat.add_sub_add_right, htext]⟩

theorem takeWhile_digits (bytes : List UInt8) (k : Nat) :
    (digits A bytes ++ List.replicate k A.pad).takeWhile (fun c => c != A.pad) =
      digits A bytes := by
  rw [List.takeWhile_append_of_pos]
  · cases k <;> simp [List.replicate_succ]
  · intro c hc
    exact bne_iff_ne.mpr (ne_pad_of_mem_digits hc)

theorem dropWhile_digits (bytes : List UInt8) (k : Nat) :
    (digits A bytes ++ List.replicate k A.pad).dropWhile (fun c => c != A.pad) =
      List.replicate k A.pad := by
  rw [List.dropWhile_append_of_pos]
  · cases k <;> simp [List.replicate_succ]
  · intro c hc
    exact bne_iff_ne.mpr (ne_pad_of_mem_digits hc)

/-- **A text is read as some bytes exactly where it is their digits and at most their padding.** -/
theorem decode_eq_some_iff {text : List Char} {bytes : List UInt8} :
    decode A text = some bytes ↔
      ∃ k ≤ pads bytes, text = digits A bytes ++ List.replicate k A.pad := by
  constructor
  · intro h
    unfold decode at h
    simp only at h
    split at h
    · rename_i hpadding
      rw [Bool.and_eq_true, decide_eq_true_eq] at hpadding
      obtain ⟨ns, hns, hoctets⟩ := Option.bind_eq_some_iff.mp h
      obtain rfl := octets_eq_some_iff.mp hoctets
      have hbody := values_eq_some_iff.mp hns
      have hall := List.eq_replicate_iff.mpr
        ⟨rfl, fun c hc => beq_iff_eq.mp (List.all_eq_true.mp hpadding.1 c hc)⟩
      have hle := hpadding.2
      rw [hbody, List.length_map] at hle
      refine ⟨(text.dropWhile fun c => c != A.pad).length, hle, ?_⟩
      rw [digits, ← hbody, ← hall, List.takeWhile_append_dropWhile]
    · cases h
  · rintro ⟨k, hk, rfl⟩
    have hvalues : values A (digits A bytes) = some (sextets bytes) := values_eq_some_iff.mpr rfl
    have hlength : (digits A bytes).length = (sextets bytes).length := List.length_map _
    simp only [decode, takeWhile_digits, dropWhile_digits, hvalues, Option.bind_some,
      octets_sextets, List.length_replicate, hlength]
    rw [if_pos]
    rw [Bool.and_eq_true, decide_eq_true_eq]
    exact ⟨by simp, hk⟩

theorem length_le_sextets : ∀ bytes : List UInt8, bytes.length ≤ (sextets bytes).length
  | [] => le_rfl
  | [_] => by simp [sextets]
  | [_, _] => by simp [sextets]
  | _ :: _ :: _ :: rest => by
    have h := length_le_sextets rest
    simp only [sextets, List.length_cons]
    omega

/-- A text is no shorter than the bytes it is read as. -/
theorem length_le_of_decode {text : List Char} {bytes : List UInt8}
    (h : decode A text = some bytes) : bytes.length ≤ text.length := by
  obtain ⟨k, -, rfl⟩ := decode_eq_some_iff.mp h
  rw [List.length_append, digits, List.length_map]
  exact Nat.le_trans (length_le_sextets bytes) (Nat.le_add_right _ _)

/-! ## The standard alphabet -/

/-- `A` to `Z`, `a` to `z`, `0` to `9`, then `+` and `/`. -/
def standardDigit (n : Fin 64) : Char :=
  if n.val < 26 then Char.ofNat (65 + n.val)
  else if n.val < 52 then Char.ofNat (97 + (n.val - 26))
  else if n.val < 62 then Char.ofNat (48 + (n.val - 52))
  else if n.val = 62 then '+' else '/'

def standardValue (c : Char) : Option (Fin 64) :=
  if 65 ≤ c.toNat ∧ c.toNat ≤ 90 then some (sextet (c.toNat - 65))
  else if 97 ≤ c.toNat ∧ c.toNat ≤ 122 then some (sextet (c.toNat - 97 + 26))
  else if 48 ≤ c.toNat ∧ c.toNat ≤ 57 then some (sextet (c.toNat - 48 + 52))
  else if c = '+' then some 62
  else if c = '/' then some 63
  else none

theorem standardValue_digit : ∀ n : Fin 64, standardValue (standardDigit n) = some n := by decide

theorem ofNat_toNat_eq {c : Char} {n : Nat} (h : n = c.toNat) : Char.ofNat n = c := by
  rw [h, Char.ofNat_toNat]

theorem standardDigit_value {c : Char} {n : Fin 64} (h : standardValue c = some n) :
    standardDigit n = c := by
  unfold standardValue at h
  split at h
  · cases h
    rw [standardDigit, sextet_val, if_pos (by omega)]
    exact ofNat_toNat_eq (by omega)
  split at h
  · cases h
    rw [standardDigit, sextet_val, if_neg (by omega), if_pos (by omega)]
    exact ofNat_toNat_eq (by omega)
  split at h
  · cases h
    rw [standardDigit, sextet_val, if_neg (by omega), if_neg (by omega), if_pos (by omega)]
    exact ofNat_toNat_eq (by omega)
  split at h
  · rename_i hplus
    cases h
    rw [hplus]
    rfl
  split at h
  · rename_i hslash
    cases h
    rw [hslash]
    rfl
  · cases h

/-- The standard alphabet. -/
def standard : Alphabet where
  digit := standardDigit
  value := standardValue
  pad := '='
  value_eq_some := by
    intro c n
    constructor
    · exact standardDigit_value
    · rintro rfl
      exact standardValue_digit n
  value_pad := by decide

example : String.ofList (encode standard [102, 111, 111, 98]) = "Zm9vYg==" := by decide

example : decode standard "Zm9vYh==".toList = none := by decide

end Base64
