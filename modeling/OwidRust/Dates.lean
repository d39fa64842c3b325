import Mathlib.Order.Bounds.Basic
import OwidRust.Frame

/-!
# What a date field holds

`write_date` of `src/io.rs` against the moments `read_date` can answer.  The signed duration from
the base date is divided towards zero, so a moment less than one unit before the base date has the
count of the base date.

* `isGreatest_floorDate` — the floored date is the last moment the field can hold that is not after
  the date;
* `writesExactly_iff` — a date is written where the field can hold it, and nowhere else, but for the
  moments within one unit before the base date.
-/

namespace OwidRust

open Append

variable {v : Version} {d : Moment} {n : Nat}

/-! ## The moments of a date field -/

/-- Some bytes are read as the moment. -/
def Representable (v : Version) (x : Moment) : Prop := ∃ bytes, readDate bytes v = .ok x

theorem readDate_dateBytes (hn : n < 256 ^ dateLength v) :
    readDate (dateBytes v n) v = .ok (countDate v n) := by
  have h := Frame.dateSuffix_append v hn []
  rw [List.append_nil] at h
  rw [readDate_eq, h]

theorem representable_iff {x : Moment} :
    Representable v x ↔ ∃ n < 256 ^ dateLength v, x = countDate v n := by
  constructor
  · rintro ⟨bytes, h⟩
    rw [readDate_eq] at h
    split at h
    · cases h
    · rename_i date rest hdate
      cases h
      obtain ⟨n, hn, rfl, -⟩ := Frame.dateSuffix_eq_ok hdate
      exact ⟨n, hn, rfl⟩
  · rintro ⟨n, hn, rfl⟩
    exact ⟨dateBytes v n, readDate_dateBytes hn⟩

theorem countDate_nanos (v : Version) (n : Nat) :
    (countDate v n).nanos = baseDate.nanos + n * dateUnit v := by
  cases v <;> simp only [countDate, Moment.addSeconds, dateUnit, minuteNanos] <;> omega

theorem dateUnit_pos (v : Version) : 0 < dateUnit v := by
  cases v <;> simp [dateUnit, minuteNanos]

/-- **The last moment the field can hold that is not after the date is the date floored**, where the
whole units of the date fit. -/
theorem isGreatest_floorDate (hd : baseDate ≤ d)
    (hfit : (d.nanos - baseDate.nanos) / dateUnit v < 256 ^ dateLength v) :
    IsGreatest {x | Representable v x ∧ x ≤ d} (floorDate v d) := by
  rw [Moment.le_def] at hd
  have hpos := dateUnit_pos v
  have hnonneg : 0 ≤ (d.nanos - baseDate.nanos) / dateUnit v :=
    Int.ediv_nonneg (by omega) hpos.le
  obtain ⟨n, hn⟩ := Int.eq_ofNat_of_zero_le hnonneg
  have hfloor : floorDate v d = countDate v n := by
    ext
    rw [countDate_nanos, floorDate, hn]
  rw [hn] at hfit
  refine ⟨⟨representable_iff.mpr ⟨n, by exact_mod_cast hfit, hfloor⟩, ?_⟩, ?_⟩
  · have := Int.ediv_mul_le (d.nanos - baseDate.nanos) hpos.ne'
    rw [Moment.le_def, floorDate]
    simp only
    omega
  · rintro x ⟨hx, hle⟩
    obtain ⟨k, -, rfl⟩ := representable_iff.mp hx
    rw [Moment.le_def, countDate_nanos] at hle
    have hk : (k : Int) ≤ (d.nanos - baseDate.nanos) / dateUnit v :=
      (Int.le_ediv_iff_mul_le hpos).mpr (by omega)
    rw [hfloor, Moment.le_def, countDate_nanos, countDate_nanos]
    rw [hn] at hk
    have := Int.mul_le_mul_of_nonneg_right hk hpos.le
    omega

/-! ## Counts -/

theorem numMinutes_neg (d : Int) : numMinutes (-d) = -numMinutes d := by
  simp only [numMinutes, numSeconds, Int.neg_tdiv]

theorem numHours_neg (d : Int) : numHours (-d) = -numHours d := by
  simp only [numHours, numSeconds, Int.neg_tdiv]

theorem dateCount_eq_some_iff_of_le (hv : v ≠ .empty) (hd : baseDate ≤ d) :
    dateCount v d = some n ↔
      (d.nanos - baseDate.nanos) / dateUnit v = n ∧ n < 256 ^ dateLength v := by
  have hsince : 0 ≤ d.since baseDate := by
    rw [Moment.le_def] at hd
    simp only [Moment.since]
    omega
  cases v with
  | empty => exact absurd rfl hv
  | version1 =>
    rw [dateCount, u16TryFrom_eq_some_iff, numHours_of_nonneg hsince]
    simp only [Moment.since, dateUnit, dateLength]
    omega
  | version2 | version3 =>
    rw [dateCount, minutesSinceBase, u32TryFrom_eq_some_iff, numMinutes_of_nonneg hsince]
    simp only [Moment.since, dateUnit, dateLength, u32Max]
    omega

/-- **A moment less than one unit before the base date has the count of the base date.** -/
theorem dateCount_eq_some_iff_of_lt (hv : v ≠ .empty) (hd : d < baseDate) :
    dateCount v d = some n ↔ n = 0 ∧ baseDate.nanos - dateUnit v < d.nanos := by
  rw [Moment.lt_def] at hd
  have hback : 0 ≤ baseDate.since d := by
    simp only [Moment.since]
    omega
  have hsince : d.since baseDate = -baseDate.since d := by
    simp only [Moment.since]
    omega
  cases v with
  | empty => exact absurd rfl hv
  | version1 =>
    rw [dateCount, u16TryFrom_eq_some_iff, hsince, numHours_neg, numHours_of_nonneg hback]
    simp only [Moment.since, dateUnit]
    omega
  | version2 | version3 =>
    rw [dateCount, minutesSinceBase, u32TryFrom_eq_some_iff, hsince, numMinutes_neg,
      numMinutes_of_nonneg hback]
    simp only [Moment.since, dateUnit, minuteNanos]
    omega

/-! ## Writing -/

/-- The field of the version has room for the whole units from the base date on. -/
def Fits (v : Version) (d : Moment) : Prop :=
  baseDate ≤ d ∧ (d.nanos - baseDate.nanos) / dateUnit v < 256 ^ dateLength v

/-- Within one unit before the base date. -/
def JustBefore (v : Version) (d : Moment) : Prop :=
  baseDate.nanos - dateUnit v < d.nanos ∧ d < baseDate

/-- A date is written where its field has room for it, as the last moment the field can hold that is
not after it, and is refused with nothing written everywhere else. -/
structure WritesExactly (v : Version) (d : Moment) : Prop where
  appends_iff : (∃ bytes, Appends (writeDate d v) bytes) ↔ Fits v d
  reads : ∀ bytes, Appends (writeDate d v) bytes →
    ∃ x, readDate bytes v = .ok x ∧ IsGreatest {x | Representable v x ∧ x ≤ d} x
  refuses : ¬ Fits v d → Refuses (writeDate d v) .dateOutOfRange []
  minutes : minutesSinceBase d = none ↔ d < baseDate ∨ atMinute (u32Max + 1) ≤ d

theorem appends_writeDate_iff {bytes : List UInt8} :
    Appends (writeDate d v) bytes ↔ ∃ n, dateCount v d = some n ∧ bytes = dateBytes v n := by
  constructor
  · intro h
    cases hc : dateCount v d with
    | none =>
      obtain ⟨e, he⟩ := writeDate_refuses hc
      exact absurd (h []) he.ne_ok
    | some n => exact ⟨n, rfl, h.unique (appends_writeDate hc)⟩
  · rintro ⟨n, hn, rfl⟩
    exact appends_writeDate hn

theorem refuses_writeDate (hv : v ≠ .empty) (hc : dateCount v d = none) :
    Refuses (writeDate d v) .dateOutOfRange [] := by
  cases v with
  | empty => exact absurd rfl hv
  | version1 | version2 | version3 =>
    simp only [dateCount] at hc
    simp only [writeDate, hc]
    exact refuses_refuse _

theorem dateCount_isSome_iff_of_le (hv : v ≠ .empty) (hd : baseDate ≤ d) :
    (∃ n, dateCount v d = some n) ↔ Fits v d := by
  have hnonneg : 0 ≤ (d.nanos - baseDate.nanos) / dateUnit v := by
    rw [Moment.le_def] at hd
    exact Int.ediv_nonneg (by omega) (dateUnit_pos v).le
  constructor
  · rintro ⟨n, hn⟩
    obtain ⟨hcount, hlt⟩ := (dateCount_eq_some_iff_of_le hv hd).mp hn
    exact ⟨hd, by rw [hcount]; exact_mod_cast hlt⟩
  · rintro ⟨-, hlt⟩
    obtain ⟨n, hn⟩ := Int.eq_ofNat_of_zero_le hnonneg
    rw [hn] at hlt
    exact ⟨n, (dateCount_eq_some_iff_of_le hv hd).mpr ⟨hn, by exact_mod_cast hlt⟩⟩

theorem dateCount_eq_none_of_lt (hv : v ≠ .empty) (hd : d < baseDate) (h : ¬ JustBefore v d) :
    dateCount v d = none := by
  cases hc : dateCount v d with
  | none => rfl
  | some n => exact absurd ⟨((dateCount_eq_some_iff_of_lt hv hd).mp hc).2, hd⟩ h

/-- **A date is written exactly where its field has room for it, but for a date within one unit
before the base date**, which is written as the base date. -/
theorem writesExactly_iff (hv : v ≠ .empty) (d : Moment) :
    WritesExactly v d ↔ ¬ JustBefore v d := by
  constructor
  · rintro h ⟨hlow, hd⟩
    have hc : dateCount v d = some 0 := (dateCount_eq_some_iff_of_lt hv hd).mpr ⟨rfl, hlow⟩
    exact (h.appends_iff.mp ⟨_, appends_writeDate hc⟩).1.not_gt hd
  · intro hnot
    rcases le_or_gt baseDate d with hd | hd
    · have hsome := dateCount_isSome_iff_of_le hv hd
      refine ⟨?_, ?_, ?_, ?_⟩
      · rw [← hsome]
        constructor
        · rintro ⟨bytes, h⟩
          obtain ⟨n, hn, -⟩ := appends_writeDate_iff.mp h
          exact ⟨n, hn⟩
        · rintro ⟨n, hn⟩
          exact ⟨_, appends_writeDate hn⟩
      · intro bytes h
        obtain ⟨n, hn, rfl⟩ := appends_writeDate_iff.mp h
        refine ⟨floorDate v d, ?_, isGreatest_floorDate hd (hsome.mp ⟨n, hn⟩).2⟩
        rw [readDate_dateBytes (dateCount_lt hn), countDate_eq_floorDate hd hn]
      · intro hfits
        refine refuses_writeDate hv ?_
        rw [← Option.not_isSome_iff_eq_none, Option.isSome_iff_exists, hsome]
        exact hfits
      · rw [minutesSinceBase_eq_none_iff hd, or_iff_right hd.not_gt]
    · have hc := dateCount_eq_none_of_lt hv hd hnot
      have hnone : ∀ bytes, ¬ Appends (writeDate d v) bytes := by
        intro bytes h
        obtain ⟨n, hn, -⟩ := appends_writeDate_iff.mp h
        rw [hc] at hn
        cases hn
      have hminute : ¬ JustBefore .version2 d := by
        rintro ⟨hlow, -⟩
        refine hnot ⟨lt_of_le_of_lt ?_ hlow, hd⟩
        cases v <;> simp only [dateUnit, minuteNanos] <;> omega
      refine ⟨⟨?_, ?_⟩, ?_, ?_, ?_⟩
      · rintro ⟨bytes, h⟩
        exact absurd h (hnone bytes)
      · rintro ⟨hle, -⟩
        exact absurd hd hle.not_gt
      · intro bytes h
        exact absurd h (hnone bytes)
      · intro _
        exact refuses_writeDate hv hc
      · exact iff_of_true (dateCount_eq_none_of_lt (v := .version2) (by decide) hd hminute)
          (.inl hd)

theorem writesExactly_ninety_seconds : WritesExactly .version3 (baseDate.addSeconds 90) :=
  (writesExactly_iff (by decide) _).mpr fun h => absurd h.2 (by decide)

/-- **One second before the base date is written as the base date**, in every version. -/
theorem not_writesExactly_second_before :
    ¬ WritesExactly .version1 (baseDate.addSeconds (-1)) ∧
      ¬ WritesExactly .version2 (baseDate.addSeconds (-1)) ∧
      ¬ WritesExactly .version3 (baseDate.addSeconds (-1)) := by
  have hnot : ∀ v, dateCount v (baseDate.addSeconds (-1)) = some 0 →
      ¬ WritesExactly v (baseDate.addSeconds (-1)) := by
    intro v hc h
    have hle := (h.appends_iff.mp ⟨_, appends_writeDate hc⟩).1
    exact absurd hle (by decide)
  exact ⟨hnot .version1 (by decide), hnot .version2 (by decide), hnot .version3 (by decide)⟩

end OwidRust
