import Mathlib.Order.Interval.Set.OrdConnected
import Mathlib.Order.CompletePartialOrder
import Mathlib.Data.Set.Function
import Mathlib.Data.Set.Lattice

/-!
# Periods of a schedule

Entries that each start at a point of a linear order and are in force until the next one starts.

* `inForce_iff` — an entry is in force from its start up to the next start;
* `ordConnected_inForce` — the points an entry is in force at have no gap;
* `ordConnected_labelAt` — nor have the points of a label no two entries share;
* `InForce.of_grow` — entries added later than a point change nothing up to it;
* `FirstInForce.unique` — the first entry of a list in force at a point is one entry;
* `disjoint_period` — the periods of different starts have no point in common.
-/

namespace Periods

variable {ι α : Type*} [LinearOrder α] {S T : Set ι} {start : ι → α} {i j : ι} {x y : α}

/-- The entry is the latest that started at or before the point. -/
structure InForce (S : Set ι) (start : ι → α) (x : α) (i : ι) : Prop where
  mem : i ∈ S
  started : start i ≤ x
  latest : ∀ j ∈ S, start j ≤ x → start j ≤ start i

/-- **An entry is in force from its start up to the next start.** -/
theorem inForce_iff :
    InForce S start x i ↔ i ∈ S ∧ start i ≤ x ∧ ∀ j ∈ S, start i < start j → x < start j := by
  constructor
  · intro h
    refine ⟨h.mem, h.started, ?_⟩
    intro j hj hlater
    by_contra hle
    exact absurd (h.latest j hj (not_lt.mp hle)) (not_le.mpr hlater)
  · rintro ⟨hmem, hstart, hnext⟩
    refine ⟨hmem, hstart, ?_⟩
    intro j hj hle
    by_contra hlater
    exact absurd (hnext j hj (not_le.mp hlater)) (not_lt.mpr hle)

theorem InForce.unique (hinj : Set.InjOn start S) (hi : InForce S start x i)
    (hj : InForce S start x j) : i = j :=
  hinj hi.mem hj.mem
    (le_antisymm (hj.latest i hi.mem hi.started) (hi.latest j hj.mem hj.started))

/-- **The points an entry is in force at have no gap.** -/
theorem ordConnected_inForce (S : Set ι) (start : ι → α) (i : ι) :
    {x | InForce S start x i}.OrdConnected := by
  refine ⟨?_⟩
  rintro x hx z hz y ⟨hxy, hyz⟩
  exact ⟨hx.mem, hx.started.trans hxy, fun j hj hle => hz.latest j hj (hle.trans hyz)⟩

/-- An entry in force stays so up to the next start. -/
theorem InForce.later (h : InForce S start x i) (hxy : x ≤ y)
    (hnext : ∀ j ∈ S, start i < start j → y < start j) : InForce S start y i :=
  inForce_iff.mpr ⟨h.mem, h.started.trans hxy, hnext⟩

/-- An entry in force was so from its start on. -/
theorem InForce.earlier (h : InForce S start x i) (hstart : start i ≤ y) (hyx : y ≤ x) :
    InForce S start y i :=
  ⟨h.mem, hstart, fun j hj hle => h.latest j hj (hle.trans hyx)⟩

/-- **Entries that start later than a point change nothing at it.** -/
theorem InForce.of_grow (h : InForce S start x i) (hST : S ⊆ T)
    (hnew : ∀ j ∈ T, j ∉ S → x < start j) : InForce T start x i := by
  refine ⟨hST h.mem, h.started, ?_⟩
  intro j hj hle
  by_cases hS : j ∈ S
  · exact h.latest j hS hle
  · exact absurd (hnew j hj hS) (not_lt.mpr hle)

/-! ## Entries of a list -/

/-- Of the entries of a list in force at the point, the one that comes first. -/
def FirstInForce (entries : List ι) (start : ι → α) (x : α) (i : ι) : Prop :=
  InForce {j | j ∈ entries} start x i ∧
    ∃ earlier later, entries = earlier ++ i :: later ∧ ∀ j ∈ earlier, start j ≠ start i

variable {entries : List ι}

theorem firstInForce_iff : FirstInForce entries start x i ↔
    InForce {j | j ∈ entries} start x i ∧
      (entries.filter fun j => decide (start j = start i)).head? = some i := by
  refine and_congr_right fun _ => ?_
  constructor
  · rintro ⟨earlier, later, rfl, hearlier⟩
    have hnone : (earlier.filter fun j => decide (start j = start i)) = [] := by
      rw [List.filter_eq_nil_iff]
      intro j hj
      simpa using hearlier j hj
    rw [List.filter_append, hnone, List.nil_append, List.filter_cons_of_pos (by simp)]
    rfl
  · intro h
    obtain ⟨rest, hrest⟩ := List.head?_eq_some_iff.mp h
    obtain ⟨earlier, later, rfl, hearlier, -⟩ := List.filter_eq_cons_iff.mp hrest
    exact ⟨earlier, later, rfl, fun j hj => by simpa using hearlier j hj⟩

theorem FirstInForce.unique (hi : FirstInForce entries start x i)
    (hj : FirstInForce entries start x j) : i = j := by
  have hsame : start i = start j :=
    le_antisymm (hj.1.latest i hi.1.mem hi.1.started) (hi.1.latest j hj.1.mem hj.1.started)
  have hheadI := (firstInForce_iff.mp hi).2
  have hheadJ := (firstInForce_iff.mp hj).2
  rw [hsame, hheadJ, Option.some.injEq] at hheadI
  exact hheadI.symm

/-! ## Periods -/

/-- From the start of an entry up to the next start. -/
def period (S : Set ι) (start : ι → α) (i : ι) : Set α :=
  {x | start i ≤ x ∧ ∀ j ∈ S, start i < start j → x < start j}

theorem inForce_iff_mem_period (hi : i ∈ S) : InForce S start x i ↔ x ∈ period S start i := by
  rw [inForce_iff]
  exact and_iff_right hi

/-- **The periods of different starts have no point in common.** -/
theorem disjoint_period (hi : i ∈ S) (hj : j ∈ S) (hne : start i ≠ start j) :
    Disjoint (period S start i) (period S start j) := by
  rw [Set.disjoint_left]
  rintro x ⟨hix, hinext⟩ ⟨hjx, hjnext⟩
  rcases lt_or_gt_of_ne hne with hlt | hgt
  · exact absurd hjx (not_le.mpr (hinext j hj hlt))
  · exact absurd hix (not_le.mpr (hjnext i hi hgt))

/-! ## Labels -/

variable {β : Type*} {label : ι → β} {l : β}

/-- The label of the entry in force. -/
def LabelAt (S : Set ι) (start : ι → α) (label : ι → β) (x : α) (l : β) : Prop :=
  ∃ i, InForce S start x i ∧ label i = l

/-- **The points of a label have no gap** where no two entries share one. -/
theorem ordConnected_labelAt (hinj : Set.InjOn label S) (start : ι → α) (l : β) :
    {x | LabelAt S start label x l}.OrdConnected := by
  refine ⟨?_⟩
  rintro x ⟨i, hx, hi⟩ z ⟨j, hz, hj⟩ y hy
  have hij : i = j := hinj hx.mem hz.mem (hi.trans hj.symm)
  subst hij
  exact ⟨i, (ordConnected_inForce S start i).out hx hz hy, hi⟩

end Periods
