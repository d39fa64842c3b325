import Mathlib.Order.Lattice
import Mathlib.Order.Basic
import Mathlib.Algebra.Order.Group.Int
import OwidRust.Error

/-!
# Moments and minute counts

`DateTime<Utc>` of the `chrono` crate as the count of nanoseconds since the Unix epoch, the signed
durations the crate takes between two of them, and `base_date` and `minutes_since_base` of
`src/io.rs`.  `num_seconds` and the counts derived from it round towards zero.

`minutesSinceBase_eq_some_iff` says which count a moment from the base date on has;
`atMinute_le_iff` and `atMinute_lt_iff` compare whole minutes through their counts.
-/

namespace OwidRust

/-- `DateTime<Utc>`, in nanoseconds since the Unix epoch.  The moments within a leap second that
`chrono` also has are left out: neither a clock nor a date read from an OWID is one, so that none
comes to be written. -/
@[ext] structure Moment where
  nanos : Int
  deriving DecidableEq, Repr

instance : LinearOrder Moment :=
  LinearOrder.lift' Moment.nanos fun _ _ h => Moment.ext h

namespace Moment

theorem le_def {a b : Moment} : a ≤ b ↔ a.nanos ≤ b.nanos := Iff.rfl

theorem lt_def {a b : Moment} : a < b ↔ a.nanos < b.nanos := by
  rw [lt_iff_not_ge, le_def, not_le]

/-- The moment so many seconds later. -/
def addSeconds (m : Moment) (seconds : Int) : Moment := ⟨m.nanos + seconds * 1000000000⟩

/-- The moment without its fraction of a second. -/
def wholeSecond (m : Moment) : Moment := ⟨m.nanos / 1000000000 * 1000000000⟩

/-- `signed_duration_since`, in nanoseconds. -/
def since (a b : Moment) : Int := a.nanos - b.nanos

end Moment

/-- `TimeDelta::num_seconds`. -/
def numSeconds (duration : Int) : Int := duration.tdiv 1000000000

/-- `TimeDelta::num_minutes`. -/
def numMinutes (duration : Int) : Int := (numSeconds duration).tdiv 60

/-- `TimeDelta::num_hours`. -/
def numHours (duration : Int) : Int := (numSeconds duration).tdiv 3600

/-- `base_date`, 2020-01-01T00:00:00Z. -/
def baseDate : Moment := ⟨1577836800 * 1000000000⟩

/-- `minutes_since_base`. -/
def minutesSinceBase (date : Moment) : Option Nat := u32TryFrom (numMinutes (date.since baseDate))

/-- The moment so many whole minutes after the base date. -/
def atMinute (minute : Nat) : Moment := baseDate.addSeconds (60 * minute)

/-- The nanoseconds of a minute. -/
def minuteNanos : Int := 60000000000

theorem atMinute_nanos (m : Nat) : (atMinute m).nanos = baseDate.nanos + m * minuteNanos := by
  simp only [atMinute, Moment.addSeconds, minuteNanos]
  omega

theorem atMinute_le_iff {m n : Nat} : atMinute m ≤ atMinute n ↔ m ≤ n := by
  simp only [Moment.le_def, atMinute_nanos, minuteNanos]
  omega

theorem atMinute_lt_iff {m n : Nat} : atMinute m < atMinute n ↔ m < n := by
  simp only [Moment.lt_def, atMinute_nanos, minuteNanos]
  omega

theorem baseDate_le_atMinute (m : Nat) : baseDate ≤ atMinute m := by
  simp only [Moment.le_def, atMinute_nanos, minuteNanos]
  omega

theorem u32TryFrom_eq_some_iff {n : Int} {m : Nat} :
    u32TryFrom n = some m ↔ n = m ∧ m ≤ u32Max := by
  unfold u32TryFrom
  split <;> rename_i h <;> simp only [Option.some.injEq, reduceCtorEq, false_iff] <;> omega

theorem u32TryFrom_eq_none_iff {n : Int} : u32TryFrom n = none ↔ n < 0 ∨ u32Max < n := by
  unfold u32TryFrom
  split <;> rename_i h <;> simp only [reduceCtorEq, false_iff, true_iff] <;> omega

/-- From the base date on the two truncating divisions are one floor division. -/
theorem numMinutes_of_nonneg {d : Int} (h : 0 ≤ d) : numMinutes d = d / minuteNanos := by
  have hs : 0 ≤ d / 1000000000 := by omega
  unfold numMinutes numSeconds
  rw [Int.tdiv_eq_ediv_of_nonneg h, Int.tdiv_eq_ediv_of_nonneg hs,
    Int.ediv_ediv_of_nonneg (by omega)]
  rfl

theorem numHours_of_nonneg {d : Int} (h : 0 ≤ d) : numHours d = d / 3600000000000 := by
  have hs : 0 ≤ d / 1000000000 := by omega
  unfold numHours numSeconds
  rw [Int.tdiv_eq_ediv_of_nonneg h, Int.tdiv_eq_ediv_of_nonneg hs,
    Int.ediv_ediv_of_nonneg (by omega)]
  rfl

theorem numMinutes_since {d : Moment} (h : baseDate ≤ d) :
    numMinutes (d.since baseDate) = (d.nanos - baseDate.nanos) / minuteNanos :=
  numMinutes_of_nonneg (by rw [Moment.le_def] at h; simp only [Moment.since]; omega)

theorem minutesSinceBase_le {d : Moment} {m : Nat} (h : minutesSinceBase d = some m) :
    m ≤ u32Max := (u32TryFrom_eq_some_iff.mp h).2

/-- **The count of a moment from the base date on is the whole minute it lies in.** -/
theorem minutesSinceBase_eq_some_iff {d : Moment} (h : baseDate ≤ d) {m : Nat} :
    minutesSinceBase d = some m ↔ atMinute m ≤ d ∧ d < atMinute (m + 1) ∧ m ≤ u32Max := by
  rw [minutesSinceBase, u32TryFrom_eq_some_iff, numMinutes_since h]
  simp only [Moment.le_def, Moment.lt_def, atMinute_nanos, minuteNanos]
  omega

/-- A moment from the base date on has no count exactly where it is too far ahead. -/
theorem minutesSinceBase_eq_none_iff {d : Moment} (h : baseDate ≤ d) :
    minutesSinceBase d = none ↔ atMinute (u32Max + 1) ≤ d := by
  rw [minutesSinceBase, u32TryFrom_eq_none_iff, numMinutes_since h]
  simp only [Moment.le_def, atMinute_nanos, minuteNanos] at h ⊢
  omega

theorem minutesSinceBase_atMinute {m : Nat} (h : m ≤ u32Max) :
    minutesSinceBase (atMinute m) = some m :=
  (minutesSinceBase_eq_some_iff (baseDate_le_atMinute m)).mpr
    ⟨le_refl _, atMinute_lt_iff.mpr (Nat.lt_succ_self m), h⟩

end OwidRust
