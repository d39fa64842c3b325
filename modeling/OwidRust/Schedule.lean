import Mathlib.Data.List.Sort
import OwidRust.Time
import OwidRust.Lib.StableSort

/-!
# The schedule of keys

`DatedPublicKey` and `PublicKeySchedule` of `src/schedule.rs`.

* `keyInForce_eq_some` — the key chosen is one in force at the moment;
* `keyInForce_eq_some_iff` — where starts differ it is the one in force;
* `nextStartAfter_eq_some_iff`, `nextStartAfter_eq_none_iff` — the moment a key stops;
* `new_selects` — for keys in any order, the first key supplied of the latest start is chosen, and
  the periods of the starts cover every moment from the earliest on.
-/

namespace OwidRust

open Periods

structure DatedPublicKey where
  startsAt : Moment
  publicKeyPem : String
  deriving DecidableEq, Repr

/-- The keys held, oldest start first. -/
structure PublicKeySchedule where
  keys : List DatedPublicKey
  sorted : keys.Pairwise fun a b => a.startsAt ≤ b.startsAt

/-- `rposition`. -/
def rposition {α : Type} (p : α → Bool) (xs : List α) : Option Nat :=
  (xs.reverse.findIdx? p).map fun i => xs.length - 1 - i

namespace PublicKeySchedule

/-- The order `sort_by_key` sorts in. -/
def startsBefore (a b : DatedPublicKey) : Bool := decide (a.startsAt ≤ b.startsAt)

/-- `PublicKeySchedule::new`.  Both sorts are stable. -/
def new (keys : List DatedPublicKey) : PublicKeySchedule where
  keys := keys.mergeSort startsBefore
  sorted := StableSort.pairwise_mergeSort DatedPublicKey.startsAt keys

/-- The loop of `key_in_force`: back to the first key of the same start. -/
def firstOfStart (keys : List DatedPublicKey) : Nat → Nat
  | 0 => 0
  | i + 1 =>
    if keys[i]?.map DatedPublicKey.startsAt = keys[i + 1]?.map DatedPublicKey.startsAt then
      firstOfStart keys i
    else i + 1

/-- `key_in_force`. -/
def keyInForce (s : PublicKeySchedule) (moment : Moment) : Option DatedPublicKey :=
  (rposition (fun key => decide (key.startsAt ≤ moment)) s.keys).bind fun index =>
    s.keys[firstOfStart s.keys index]?

/-- `next_start_after`. -/
def nextStartAfter (s : PublicKeySchedule) (key : DatedPublicKey) : Option Moment :=
  ((s.keys.filter fun other => decide (key.startsAt < other.startsAt)).map
    DatedPublicKey.startsAt).min?

/-- The key is the latest that had started. -/
abbrev InForceAt (s : PublicKeySchedule) (moment : Moment) (key : DatedPublicKey) : Prop :=
  InForce {key | key ∈ s.keys} DatedPublicKey.startsAt moment key

/-! ## The key in force -/

theorem rposition_eq_some {α : Type} {p : α → Bool} {xs : List α} {i : Nat}
    (h : rposition p xs = some i) :
    ∃ hi : i < xs.length, p xs[i] = true ∧
      ∀ j (hj : j < xs.length), i < j → p xs[j] = false := by
  obtain ⟨k, hk, rfl⟩ := Option.map_eq_some_iff.mp h
  obtain ⟨hlt, hp, hbefore⟩ := List.findIdx?_eq_some_iff_getElem.mp hk
  rw [List.length_reverse] at hlt
  refine ⟨by omega, ?_, ?_⟩
  · rwa [List.getElem_reverse] at hp
  · intro j hj hlater
    have hnot := hbefore (xs.length - 1 - j) (by omega)
    rw [List.getElem_reverse] at hnot
    have hback : xs.length - 1 - (xs.length - 1 - j) = j := by omega
    simp only [hback, Bool.not_eq_true] at hnot
    exact hnot

theorem rposition_eq_none {α : Type} {p : α → Bool} {xs : List α} (h : rposition p xs = none) :
    ∀ x ∈ xs, p x = false := by
  rw [rposition, Option.map_eq_none_iff, List.findIdx?_eq_none_iff] at h
  intro x hx
  exact h x (List.mem_reverse.mpr hx)

theorem firstOfStart_spec (keys : List DatedPublicKey) :
    ∀ i (hi : i < keys.length), ∃ h : firstOfStart keys i < keys.length,
      (keys[firstOfStart keys i]).startsAt = keys[i].startsAt
  | 0, hi => ⟨hi, rfl⟩
  | i + 1, hi => by
    unfold firstOfStart
    split
    · rename_i hsame
      obtain ⟨h, heq⟩ := firstOfStart_spec keys i (by omega)
      rw [List.getElem?_eq_getElem (by omega), List.getElem?_eq_getElem hi] at hsame
      exact ⟨h, heq.trans (Option.some.inj hsame)⟩
    · exact ⟨hi, rfl⟩

/-- The loop stops at the first key, or at one the key before which starts at another moment. -/
theorem firstOfStart_stops (keys : List DatedPublicKey) :
    ∀ i k, firstOfStart keys i = k + 1 →
      keys[k]?.map DatedPublicKey.startsAt ≠ keys[k + 1]?.map DatedPublicKey.startsAt
  | 0, k, h => by cases h
  | i + 1, k, h => by
    unfold firstOfStart at h
    split at h
    · exact firstOfStart_stops keys i k h
    · rename_i hne
      cases h
      exact hne

/-- **The key chosen is one in force at the moment.** -/
theorem keyInForce_eq_some {s : PublicKeySchedule} {moment : Moment} {key : DatedPublicKey}
    (h : s.keyInForce moment = some key) : s.InForceAt moment key := by
  obtain ⟨index, hindex, hget⟩ := Option.bind_eq_some_iff.mp h
  obtain ⟨hi, hp, hafter⟩ := rposition_eq_some hindex
  obtain ⟨hfirst, hstart⟩ := firstOfStart_spec s.keys index hi
  rw [List.getElem?_eq_getElem hfirst, Option.some.injEq] at hget
  rw [hget] at hstart
  refine ⟨hget ▸ List.getElem_mem hfirst, hstart ▸ of_decide_eq_true hp, ?_⟩
  intro other hother hle
  obtain ⟨j, hj, rfl⟩ := List.mem_iff_getElem.mp hother
  rw [hstart]
  rcases Nat.lt_trichotomy j index with hlt | rfl | hgt
  · exact List.pairwise_iff_getElem.mp s.sorted j index hj hi hlt
  · exact le_refl _
  · exact absurd hle (of_decide_eq_false (hafter j hj hgt))

/-- The key chosen is the first held of its start: the keys before it start earlier. -/
theorem keyInForce_first {s : PublicKeySchedule} {moment : Moment} {key : DatedPublicKey}
    (h : s.keyInForce moment = some key) :
    FirstInForce s.keys DatedPublicKey.startsAt moment key := by
  refine ⟨keyInForce_eq_some h, ?_⟩
  obtain ⟨index, hindex, hget⟩ := Option.bind_eq_some_iff.mp h
  obtain ⟨hi, -, -⟩ := rposition_eq_some hindex
  obtain ⟨hfirst, -⟩ := firstOfStart_spec s.keys index hi
  rw [List.getElem?_eq_getElem hfirst, Option.some.injEq] at hget
  refine ⟨s.keys.take (firstOfStart s.keys index), s.keys.drop (firstOfStart s.keys index + 1), ?_,
    ?_⟩
  · rw [← hget, ← List.drop_eq_getElem_cons hfirst, List.take_append_drop]
  · intro other hother
    obtain ⟨j, hj, rfl⟩ := List.mem_iff_getElem.mp hother
    rw [List.length_take] at hj
    rw [List.getElem_take]
    -- the key before the one chosen starts earlier, and no key before it any later
    obtain ⟨k, hstop⟩ : ∃ k, firstOfStart s.keys index = k + 1 :=
      ⟨firstOfStart s.keys index - 1, by omega⟩
    have hne := firstOfStart_stops s.keys index k hstop
    have hk : k + 1 < s.keys.length := hstop ▸ hfirst
    rw [List.getElem?_eq_getElem (by omega), List.getElem?_eq_getElem hk, Option.map_some,
      Option.map_some, ne_eq, Option.some.injEq] at hne
    have hstart : key.startsAt = (s.keys[k + 1]).startsAt := by
      simp only [← hget, hstop]
    have hbefore : (s.keys[k]).startsAt ≤ (s.keys[k + 1]).startsAt :=
      List.pairwise_iff_getElem.mp s.sorted k (k + 1) (by omega) hk (Nat.lt_succ_self k)
    have hle : (s.keys[j]).startsAt ≤ (s.keys[k]).startsAt := by
      rcases Nat.lt_or_eq_of_le (show j ≤ k by omega) with hlt | rfl
      · exact List.pairwise_iff_getElem.mp s.sorted j k (by omega) (by omega) hlt
      · exact le_refl _
    rw [hstart]
    exact (lt_of_le_of_lt hle (lt_of_le_of_ne hbefore hne)).ne

/-- No key is chosen only where none had started. -/
theorem keyInForce_eq_none {s : PublicKeySchedule} {moment : Moment}
    (h : s.keyInForce moment = none) : ∀ key ∈ s.keys, moment < key.startsAt := by
  intro key hkey
  rw [keyInForce, Option.bind_eq_none_iff] at h
  cases hindex : rposition (fun key => decide (key.startsAt ≤ moment)) s.keys with
  | none => exact not_le.mp (of_decide_eq_false (rposition_eq_none hindex key hkey))
  | some index =>
    obtain ⟨hi, -, -⟩ := rposition_eq_some hindex
    obtain ⟨hfirst, -⟩ := firstOfStart_spec s.keys index hi
    have hnone := h index hindex
    rw [List.getElem?_eq_getElem hfirst] at hnone
    cases hnone

/-- **Where starts differ the key chosen is the one in force.** -/
theorem keyInForce_eq_some_iff {s : PublicKeySchedule}
    (hstarts : Set.InjOn DatedPublicKey.startsAt {key | key ∈ s.keys}) {moment : Moment}
    {key : DatedPublicKey} : s.keyInForce moment = some key ↔ s.InForceAt moment key := by
  refine ⟨keyInForce_eq_some, ?_⟩
  intro h
  cases hchosen : s.keyInForce moment with
  | none => exact absurd h.started (not_le.mpr (keyInForce_eq_none hchosen key h.mem))
  | some other => rw [(keyInForce_eq_some hchosen).unique hstarts h]

/-! ## The moment a key stops -/

theorem nextStartAfter_eq_some_iff {s : PublicKeySchedule} {key : DatedPublicKey}
    {moment : Moment} :
    s.nextStartAfter key = some moment ↔
      (∃ other ∈ s.keys, key.startsAt < other.startsAt ∧ other.startsAt = moment) ∧
        ∀ other ∈ s.keys, key.startsAt < other.startsAt → moment ≤ other.startsAt := by
  rw [nextStartAfter, List.min?_eq_some_iff]
  simp only [List.mem_map, List.mem_filter, decide_eq_true_eq, and_assoc, forall_exists_index,
    and_imp]
  apply and_congr_right'
  constructor
  · intro h other hother hlater
    exact h _ other hother hlater rfl
  · rintro h _ other hother hlater rfl
    exact h other hother hlater

theorem nextStartAfter_eq_none_iff {s : PublicKeySchedule} {key : DatedPublicKey} :
    s.nextStartAfter key = none ↔ ∀ other ∈ s.keys, other.startsAt ≤ key.startsAt := by
  rw [nextStartAfter, List.min?_eq_none_iff, List.map_eq_nil_iff, List.filter_eq_nil_iff]
  simp only [decide_eq_true_eq, not_lt]

/-- A key in force stops at the next start, and not before. -/
theorem InForceAt.lt_next {s : PublicKeySchedule} {moment stop : Moment} {key : DatedPublicKey}
    (h : s.InForceAt moment key) (hstop : s.nextStartAfter key = some stop) : moment < stop := by
  obtain ⟨⟨other, hother, hlater, rfl⟩, -⟩ := nextStartAfter_eq_some_iff.mp hstop
  exact (inForce_iff.mp h).2.2 other hother hlater

/-! ## Keys in the order supplied -/

theorem mem_new {keys : List DatedPublicKey} {key : DatedPublicKey} :
    key ∈ (new keys).keys ↔ key ∈ keys := List.mem_mergeSort

theorem keyInForce_new_eq_none_iff {keys : List DatedPublicKey} {moment : Moment} :
    (new keys).keyInForce moment = none ↔ ∀ key ∈ keys, moment < key.startsAt := by
  constructor
  · intro h key hkey
    exact keyInForce_eq_none h key (mem_new.mpr hkey)
  · intro h
    by_contra hsome
    obtain ⟨key, hkey⟩ := Option.ne_none_iff_exists'.mp hsome
    have hforce := keyInForce_eq_some hkey
    exact absurd hforce.started (not_le.mpr (h key (mem_new.mp hforce.mem)))

/-- **The key chosen is the first supplied** of those that start latest. -/
theorem keyInForce_new_eq_some_iff {keys : List DatedPublicKey} {moment : Moment}
    {key : DatedPublicKey} : (new keys).keyInForce moment = some key ↔
      FirstInForce keys DatedPublicKey.startsAt moment key := by
  constructor
  · intro h
    exact StableSort.firstInForce_mergeSort.mp (keyInForce_first h)
  · intro h
    cases hchosen : (new keys).keyInForce moment with
    | none =>
      exact absurd h.1.started (not_le.mpr (keyInForce_new_eq_none_iff.mp hchosen key h.1.mem))
    | some other =>
      rw [(StableSort.firstInForce_mergeSort.mp (keyInForce_first hchosen)).unique h]

/-- The moments from the start of a key up to the next start there is. -/
theorem mem_period_iff {s : PublicKeySchedule} {key : DatedPublicKey} {moment : Moment} :
    moment ∈ period {key | key ∈ s.keys} DatedPublicKey.startsAt key ↔
      key.startsAt ≤ moment ∧ ∀ stop ∈ s.nextStartAfter key, moment < stop := by
  refine and_congr_right fun _ => ?_
  constructor
  · intro h stop hstop
    obtain ⟨⟨other, hother, hlater, rfl⟩, -⟩ := nextStartAfter_eq_some_iff.mp hstop
    exact h other hother hlater
  · intro h other hother hlater
    cases hstop : s.nextStartAfter key with
    | none => exact absurd hlater (not_lt.mpr (nextStartAfter_eq_none_iff.mp hstop other hother))
    | some stop =>
      obtain ⟨-, hleast⟩ := nextStartAfter_eq_some_iff.mp hstop
      exact (h stop hstop).trans_le (hleast other hother hlater)

theorem disjoint_upToNext {keys : List DatedPublicKey} {key other : DatedPublicKey}
    (hkey : key ∈ keys) (hother : other ∈ keys) (hne : key.startsAt ≠ other.startsAt) :
    Disjoint {x | key.startsAt ≤ x ∧ ∀ stop ∈ (new keys).nextStartAfter key, x < stop}
      {x | other.startsAt ≤ x ∧ ∀ stop ∈ (new keys).nextStartAfter other, x < stop} := by
  have h := disjoint_period (S := {key | key ∈ (new keys).keys}) (mem_new.mpr hkey)
    (mem_new.mpr hother) hne
  simpa only [← mem_period_iff, Set.ofPred_mem_eq] using h

/-- A moment is in some period exactly where some key had started. -/
theorem exists_upToNext_iff {keys : List DatedPublicKey} {moment : Moment} :
    (∃ key ∈ keys, key.startsAt ≤ moment ∧
      ∀ stop ∈ (new keys).nextStartAfter key, moment < stop) ↔
      ∃ key ∈ keys, key.startsAt ≤ moment := by
  constructor
  · rintro ⟨key, hkey, hstart, -⟩
    exact ⟨key, hkey, hstart⟩
  · rintro ⟨key, hkey, hstart⟩
    cases hchosen : (new keys).keyInForce moment with
    | none => exact absurd hstart (not_le.mpr (keyInForce_new_eq_none_iff.mp hchosen key hkey))
    | some other =>
      have hforce := keyInForce_eq_some hchosen
      have hperiod := (inForce_iff_mem_period hforce.mem).mp hforce
      exact ⟨other, mem_new.mp hforce.mem, mem_period_iff.mp hperiod⟩

/-- A key stops at the least start after its own. -/
theorem new_stops {keys : List DatedPublicKey} (key : DatedPublicKey) :
    (∀ stop, (new keys).nextStartAfter key = some stop ↔
      IsLeast {d | (∃ other ∈ keys, other.startsAt = d) ∧ key.startsAt < d} stop) ∧
    ((new keys).nextStartAfter key = none ↔ ∀ other ∈ keys, ¬ key.startsAt < other.startsAt) := by
  constructor
  · intro stop
    rw [nextStartAfter_eq_some_iff]
    simp only [mem_new]
    constructor
    · rintro ⟨⟨other, hother, hlater, rfl⟩, hleast⟩
      refine ⟨⟨⟨other, hother, rfl⟩, hlater⟩, ?_⟩
      rintro _ ⟨⟨next, hnext, rfl⟩, hnextLater⟩
      exact hleast next hnext hnextLater
    · rintro ⟨⟨⟨other, hother, rfl⟩, hlater⟩, hleast⟩
      refine ⟨⟨other, hother, hlater, rfl⟩, ?_⟩
      intro next hnext hnextLater
      exact hleast ⟨⟨next, hnext, rfl⟩, hnextLater⟩
  · rw [nextStartAfter_eq_none_iff]
    simp only [mem_new, not_lt]

/-- **A schedule selects by its rule whatever order its keys were supplied in**: nothing before
every start, and otherwise the first supplied of the keys of the greatest start that is not after
the moment.  That key stops at the least start after its own, and from each start to the next the
periods are disjoint and leave out no moment from the earliest start on. -/
theorem new_selects (keys : List DatedPublicKey) :
    (∀ moment, (new keys).keyInForce moment = none ↔ ∀ key ∈ keys, moment < key.startsAt) ∧
    (∀ moment key, (new keys).keyInForce moment = some key ↔
      IsGreatest {d | (∃ other ∈ keys, other.startsAt = d) ∧ d ≤ moment} key.startsAt ∧
        ∃ earlier later, keys = earlier ++ key :: later ∧
          ∀ other ∈ earlier, other.startsAt ≠ key.startsAt) ∧
    (∀ moment key, (new keys).keyInForce moment = some key →
      (∀ stop, (new keys).nextStartAfter key = some stop ↔
        IsLeast {d | (∃ other ∈ keys, other.startsAt = d) ∧ key.startsAt < d} stop) ∧
      ((new keys).nextStartAfter key = none ↔ ∀ other ∈ keys, ¬ key.startsAt < other.startsAt)) ∧
    (∀ key ∈ keys, ∀ other ∈ keys, key.startsAt ≠ other.startsAt →
      Disjoint {x | key.startsAt ≤ x ∧ ∀ stop ∈ (new keys).nextStartAfter key, x < stop}
        {x | other.startsAt ≤ x ∧ ∀ stop ∈ (new keys).nextStartAfter other, x < stop}) ∧
    ∀ moment, (∃ key ∈ keys, key.startsAt ≤ moment ∧
        ∀ stop ∈ (new keys).nextStartAfter key, moment < stop) ↔
      ∃ key ∈ keys, key.startsAt ≤ moment := by
  refine ⟨fun _ => keyInForce_new_eq_none_iff, ?_, ?_, ?_, fun _ => exists_upToNext_iff⟩
  · intro moment key
    rw [keyInForce_new_eq_some_iff, FirstInForce]
    apply and_congr_left
    rintro ⟨earlier, later, rfl, -⟩
    constructor
    · intro h
      refine ⟨⟨⟨key, h.mem, rfl⟩, h.started⟩, ?_⟩
      rintro _ ⟨⟨other, hother, rfl⟩, hle⟩
      exact h.latest other hother hle
    · rintro ⟨⟨-, hle⟩, hgreatest⟩
      exact ⟨by simp, hle, fun other hother hother' => hgreatest ⟨⟨other, hother, rfl⟩, hother'⟩⟩
  · intro moment key _
    exact new_stops key
  · intro key hkey other hother hne
    exact disjoint_upToNext hkey hother hne

end PublicKeySchedule

end OwidRust
