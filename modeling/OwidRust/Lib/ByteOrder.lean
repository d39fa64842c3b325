import Mathlib.Data.Nat.Bitwise
import Mathlib.Tactic.Ring

/-!
# Unsigned counts as bytes

`toLe w n` is the count `n` in `w` bytes, least significant byte first, and `ofLe` reads the
count back.  Principal results:

* `ofLe_toLe` — a count that fits the width is read back;
* `toLe_ofLe` — the bytes read are the bytes written;
* `ofLe_lt` — a count read from `w` bytes fits `w` bytes.

`toBe` and `ofBe` are the same with the most significant byte first.
-/

namespace ByteOrder

/-- `n` in `w` bytes, least significant first. -/
def toLe : Nat → Nat → List UInt8
  | 0, _ => []
  | w + 1, n => UInt8.ofNat n :: toLe w (n / 256)

/-- The count the bytes hold, least significant first. -/
def ofLe : List UInt8 → Nat
  | [] => 0
  | b :: bs => b.toNat + 256 * ofLe bs

/-- `n` in `w` bytes, most significant first. -/
def toBe (w n : Nat) : List UInt8 := (toLe w n).reverse

/-- The count the bytes hold, most significant first. -/
def ofBe (bs : List UInt8) : Nat := ofLe bs.reverse

@[simp] theorem length_toLe (w n : Nat) : (toLe w n).length = w := by
  induction w generalizing n with
  | zero => rfl
  | succ w ih => simp [toLe, ih]

@[simp] theorem length_toBe (w n : Nat) : (toBe w n).length = w := by simp [toBe]

theorem ofLe_lt (bs : List UInt8) : ofLe bs < 256 ^ bs.length := by
  induction bs with
  | nil => simp [ofLe]
  | cons b bs ih =>
    have hb : b.toNat < 256 := b.toNat_lt
    simp only [ofLe, List.length_cons, pow_succ]
    omega

theorem ofBe_lt (bs : List UInt8) : ofBe bs < 256 ^ bs.length := by
  simpa [ofBe] using ofLe_lt bs.reverse

theorem ofLe_toLe {w n : Nat} (h : n < 256 ^ w) : ofLe (toLe w n) = n := by
  induction w generalizing n with
  | zero => simp only [pow_zero] at h; simp only [toLe, ofLe]; omega
  | succ w ih =>
    have hdiv : n / 256 < 256 ^ w := by
      rw [Nat.div_lt_iff_lt_mul (by omega)]
      simpa [pow_succ] using h
    simp only [toLe, ofLe, ih hdiv, UInt8.toNat_ofNat']
    omega

theorem ofBe_toBe {w n : Nat} (h : n < 256 ^ w) : ofBe (toBe w n) = n := by
  simp [ofBe, toBe, ofLe_toLe h]

theorem toLe_ofLe (bs : List UInt8) : toLe bs.length (ofLe bs) = bs := by
  induction bs with
  | nil => rfl
  | cons b bs ih =>
    have hb : b.toNat < 256 := b.toNat_lt
    have hlow : UInt8.ofNat (b.toNat + 256 * ofLe bs) = b := by
      apply UInt8.toNat_inj.mp
      rw [UInt8.toNat_ofNat']
      omega
    have hhigh : (b.toNat + 256 * ofLe bs) / 256 = ofLe bs := by omega
    simp only [ofLe, List.length_cons, toLe, hlow, hhigh, ih]

theorem toBe_ofBe (bs : List UInt8) : toBe bs.length (ofBe bs) = bs := by
  have h := toLe_ofLe bs.reverse
  rw [List.length_reverse] at h
  rw [toBe, ofBe, h, List.reverse_reverse]

end ByteOrder
