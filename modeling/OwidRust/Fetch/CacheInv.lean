import Mathlib.Data.List.Pairwise
import OwidRust.Fetch.Cache

/-!
# The representation invariant of the key cache

Creators' answers are not trusted, so the invariant holds whatever is recorded, in any order and
at any reading of the clock.

* `KeysWf` — the keys held for one end point: ordered spans, pairwise apart, no key both explicit
  and open ended;
* `WellFormed` — every end point's keys are, and `held` counts them all and is bounded;
* `mem_heldAt_take` — where a key held after a call comes from;
* `wellFormed_apply` — one call keeps it;
* `cache_wellFormed` — every run does.
-/

namespace OwidRust

open Buckets

/-! ## The calls that change the held keys -/

/-- The arguments of a `hold` call, with the reading of the clock it takes.  The minutes are
`u32`. -/
structure Recording where
  now : Moment
  endPoint : String
  minute : Option Nat
  recent : Bool
  pem : String
  start : Option Nat
  stop : Option Nat
  minute_le : ∀ m ∈ minute, m ≤ u32Max
  start_le : ∀ m ∈ start, m ≤ u32Max
  stop_le : ∀ m ∈ stop, m ≤ u32Max

inductive CacheCall where
  | hold (r : Recording)
  | clear

variable {φ : Type}

def Cache.apply (c : Cache φ) : CacheCall → Cache φ
  | .hold r => (c.hold r.now r.endPoint r.minute r.recent r.pem r.start r.stop).1
  | .clear => c.clear

/-- The cache after the calls, from the empty one. -/
def Cache.run (φ : Type) (calls : List CacheCall) : Cache φ := calls.foldl Cache.apply .empty

/-! ## The invariant of one end point -/

/-- Two keys of one end point: no shared minute and different PEMs. -/
def HeldKey.Apart (a b : HeldKey) : Prop := a.Clear b.first b.last ∧ a.pem ≠ b.pem

theorem HeldKey.Clear.symm {a b : HeldKey} (h : a.Clear b.first b.last) :
    b.Clear a.first a.last := by
  unfold HeldKey.Clear at h ⊢
  omega

theorem HeldKey.Apart.symm {a b : HeldKey} (h : a.Apart b) : b.Apart a :=
  ⟨h.1.symm, h.2.symm⟩

structure KeysWf (keys : List HeldKey) : Prop where
  ordered : ∀ k ∈ keys, k.first ≤ k.last
  apart : keys.Pairwise HeldKey.Apart
  flags : ∀ k ∈ keys, ¬ (k.explicit = true ∧ k.openEnded = true)

theorem keysWf_nil : KeysWf [] where
  ordered := by simp
  apart := List.Pairwise.nil
  flags := by simp

/-- The keys of an end point in any order, one of them first. -/
theorem keysWf_middle {before after : List HeldKey} {key : HeldKey} :
    KeysWf (before ++ key :: after) ↔
      KeysWf (before ++ after) ∧ key.first ≤ key.last ∧
        ¬ (key.explicit = true ∧ key.openEnded = true) ∧
        ∀ other ∈ before ++ after, key.Apart other := by
  constructor
  · rintro ⟨hordered, hapart, hflags⟩
    rw [List.pairwise_middle fun h => HeldKey.Apart.symm h, List.pairwise_cons] at hapart
    refine ⟨⟨?_, hapart.2, ?_⟩, hordered key (by simp), hflags key (by simp), hapart.1⟩
    · intro k hk
      apply hordered k
      rcases List.mem_append.mp hk with h | h <;> simp [h]
    · intro k hk
      apply hflags k
      rcases List.mem_append.mp hk with h | h <;> simp [h]
  · rintro ⟨⟨hordered, hapart, hflags⟩, hkey, hflag, hothers⟩
    have hmem : ∀ k ∈ before ++ key :: after, k = key ∨ k ∈ before ++ after := by
      intro k hk
      simp only [List.mem_append, List.mem_cons] at hk ⊢
      tauto
    refine ⟨?_, ?_, ?_⟩
    · intro k hk
      rcases hmem k hk with rfl | h
      · exact hkey
      · exact hordered k h
    · rw [List.pairwise_middle fun h => HeldKey.Apart.symm h]
      exact List.pairwise_cons.mpr ⟨hothers, hapart⟩
    · intro k hk
      rcases hmem k hk with rfl | h
      · exact hflag
      · exact hflags k h

/-- At most one key covers a minute. -/
theorem KeysWf.filter_covers_length {keys : List HeldKey} (h : KeysWf keys) (minute : Nat) :
    (keys.filter (·.covers minute)).length ≤ 1 := by
  have hpair := h.apart.filter (·.covers minute)
  cases hfilter : keys.filter (·.covers minute) with
  | nil => simp
  | cons a rest =>
    cases rest with
    | nil => simp
    | cons b rest =>
      exfalso
      rw [hfilter, List.pairwise_cons] at hpair
      have hcovers : ∀ k ∈ keys.filter (·.covers minute), k.first ≤ minute ∧ minute ≤ k.last := by
        intro k hk
        exact HeldKey.covers_iff.mp (List.mem_filter.mp hk).2
      have ha := hcovers a (by simp [hfilter])
      have hb := hcovers b (by simp [hfilter])
      have hclear := (hpair.1 b (by simp)).1
      unfold HeldKey.Clear at hclear
      omega

theorem heldSpan_wf {now : Moment} {minute start stop : Option Nat} {recent : Bool} {span : Span}
    (h : heldSpan now minute recent start stop = some span) :
    span.first ≤ span.last ∧ ¬ (span.explicit = true ∧ span.openEnded = true) := by
  unfold heldSpan at h
  split at h
  · split at h
    · cases h
      simp only [Bool.false_eq_true, and_false, not_false_eq_true, and_true]
      omega
    · cases h
      exact ⟨Nat.le_max_left _ _, by simp [startOnly]⟩
  · cases h
    exact ⟨Nat.le_max_left _ _, by simp [startOnly]⟩
  · split at h
    · cases h
    · cases h
      simp
  · cases h

theorem HeldKey.joined_flags (key : HeldKey) (span : Span) :
    ¬ ((key.joined span).explicit = true ∧ (key.joined span).openEnded = true) := by
  rintro ⟨hexplicit, hopen⟩
  simp only [joined] at hexplicit hopen
  rw [hexplicit] at hopen
  cases hopen

/-- A widened key keeps clear of what was clear of the widened span. -/
theorem HeldKey.apart_joined {key other : HeldKey} {span : Span}
    (hclear : other.Clear (min span.first key.first) (max span.last key.last))
    (hpem : key.pem ≠ other.pem) : (key.joined span).Apart other := by
  refine ⟨?_, hpem⟩
  unfold HeldKey.Clear at hclear ⊢
  simp only [joined]
  omega

/-! ## The invariant of the cache -/

namespace Cache

structure WellFormed (c : Cache φ) : Prop where
  keys : ∀ endPoint, KeysWf (c.heldAt endPoint)
  held_eq : c.held = total c.keys
  held_le : c.held ≤ MAXIMUM_CACHED_KEYS

theorem wellFormed_empty : (empty : Cache φ).WellFormed where
  keys := fun _ => keysWf_nil
  held_eq := rfl
  held_le := Nat.zero_le _

theorem wellFormed_clear (c : Cache φ) : c.clear.WellFormed where
  keys := fun _ => keysWf_nil
  held_eq := rfl
  held_le := Nat.zero_le _

/-- Emptied or not, the cache a key is added to has room for it. -/
theorem wellFormed_room {c : Cache φ} (h : c.WellFormed) :
    c.room.WellFormed ∧ c.room.held < MAXIMUM_CACHED_KEYS := by
  unfold room
  split
  · exact ⟨⟨fun _ => keysWf_nil, rfl, Nat.zero_le _⟩, Nat.zero_lt_succ _⟩
  · rename_i hroom
    exact ⟨h, Nat.lt_of_not_le hroom⟩

theorem heldAt_replaced (c : Cache φ) (endPoint endPoint' : String) (keys : List HeldKey) :
    (c.replaced endPoint keys).heldAt endPoint' =
      if endPoint' = endPoint then keys else c.heldAt endPoint' := by
  split
  · rename_i h
    subst h
    exact bucket_insert _ _ _
  · rename_i h
    exact bucket_insert_ne h

theorem heldAt_add (c : Cache φ) (endPoint endPoint' : String) (key : HeldKey) :
    (c.add endPoint key).heldAt endPoint' =
      if endPoint' = endPoint then c.room.heldAt endPoint ++ [key]
      else c.room.heldAt endPoint' := by
  rw [add_eq]
  exact heldAt_replaced c.room endPoint endPoint' _

theorem wellFormed_replaced {c : Cache φ} (h : c.WellFormed) {endPoint : String}
    {before after : List HeldKey} {key key' : HeldKey}
    (hsplit : c.heldAt endPoint = before ++ key :: after)
    (hkeys : KeysWf (before ++ key' :: after)) :
    (c.replaced endPoint (before ++ key' :: after)).WellFormed where
  keys := by
    intro endPoint'
    rw [heldAt_replaced]
    split
    · exact hkeys
    · exact h.keys endPoint'
  held_eq := by
    have htotal := total_insert c.keys endPoint (before ++ key' :: after)
    have hlen : (bucket c.keys endPoint).length = (before ++ key' :: after).length := by
      rw [← heldAt, hsplit]
      simp
    rw [hlen] at htotal
    have := h.held_eq
    simp only [replaced]
    omega
  held_le := h.held_le

theorem wellFormed_add {c : Cache φ} (h : c.WellFormed) {endPoint : String} {key : HeldKey}
    (hkeys : KeysWf (c.room.heldAt endPoint ++ [key])) : (c.add endPoint key).WellFormed := by
  obtain ⟨hroom, hlt⟩ := wellFormed_room h
  refine ⟨?_, ?_, hlt⟩
  · intro endPoint'
    rw [heldAt_add]
    split
    · exact hkeys
    · exact hroom.keys endPoint'
  · have htotal := total_insert c.room.keys endPoint (c.room.heldAt endPoint ++ [key])
    have hheld := hroom.held_eq
    simp only [List.length_append, List.length_singleton, heldAt] at htotal
    simp only [add_eq, heldAt]
    omega

/-- **Where a key held after a span was recorded comes from**: it was held before, it is the key of
the PEM widened, or it is the key of the span. -/
theorem mem_heldAt_take {c : Cache φ} {endPoint endPoint' pem : String} {span : Span}
    {k : HeldKey} (h : k ∈ (c.take endPoint pem span).heldAt endPoint') :
    k ∈ c.heldAt endPoint' ∨
      endPoint' = endPoint ∧
        ((∃ key ∈ c.heldAt endPoint, key.pem = pem ∧ k = key.joined span) ∨ k = span.key pem) := by
  rcases take_cases c endPoint pem span with heq | ⟨before, key, after, hsplit, hpem, -, heq⟩ |
    ⟨-, heq⟩
  · rw [heq] at h
    exact .inl h
  · rw [heq, heldAt_replaced] at h
    split at h
    · rename_i he
      subst he
      rw [hsplit]
      rcases List.mem_append.mp h with hb | ha
      · exact .inl (List.mem_append_left _ hb)
      rcases List.mem_cons.mp ha with rfl | ha
      · exact .inr ⟨rfl, .inl ⟨key, by simp, hpem, rfl⟩⟩
      · exact .inl (List.mem_append_right _ (List.mem_cons_of_mem _ ha))
    · exact .inl h
  · rw [heq, heldAt_add] at h
    split at h
    · rename_i he
      subst he
      rcases List.mem_append.mp h with hb | hk
      · exact .inl (mem_heldAt_room hb)
      · exact .inr ⟨rfl, .inr (List.mem_singleton.mp hk)⟩
    · exact .inl (mem_heldAt_room h)

/-- Where a key held after an answer was recorded comes from. -/
theorem mem_heldAt_hold {c : Cache φ} {now : Moment} {endPoint endPoint' pem : String}
    {minute start stop : Option Nat} {recent : Bool} {k : HeldKey}
    (h : k ∈ (c.hold now endPoint minute recent pem start stop).1.heldAt endPoint') :
    k ∈ c.heldAt endPoint' ∨
      ∃ span, heldSpan now minute recent start stop = some span ∧ endPoint' = endPoint ∧
        ((∃ key ∈ c.heldAt endPoint', key.pem = pem ∧ k = key.joined span) ∨
          k = span.key pem) := by
  unfold hold at h
  split at h
  · exact .inl h
  · rename_i span hspan
    rcases mem_heldAt_take h with h | ⟨rfl, hnew⟩
    · exact .inl h
    · exact .inr ⟨span, hspan, rfl, hnew⟩

/-- Recording an ordered span that is not both explicit and open ended keeps the invariant. -/
theorem wellFormed_take {c : Cache φ} (h : c.WellFormed) (endPoint pem : String) {span : Span}
    (hspan : span.first ≤ span.last ∧ ¬ (span.explicit = true ∧ span.openEnded = true)) :
    (c.take endPoint pem span).WellFormed := by
  rcases take_cases c endPoint pem span with heq | ⟨before, key, after, hsplit, -, hclear, heq⟩ |
    ⟨hnew, heq⟩
  · rw [heq]
    exact h
  · rw [heq]
    apply wellFormed_replaced h hsplit
    have hkeys := h.keys endPoint
    rw [hsplit, keysWf_middle] at hkeys
    obtain ⟨hothers, hordered, -, hapart⟩ := hkeys
    rw [keysWf_middle]
    refine ⟨hothers, ?_, HeldKey.joined_flags key span, ?_⟩
    · simp only [HeldKey.joined]
      omega
    · intro other hother
      exact HeldKey.apart_joined (hclear other hother) (hapart other hother).2
  · rw [heq]
    apply wellFormed_add h
    have hroom := (wellFormed_room h).1.keys endPoint
    rw [keysWf_middle, List.append_nil]
    refine ⟨hroom, hspan.1, hspan.2, ?_⟩
    intro other hother
    obtain ⟨hpem, hclear⟩ := hnew other (mem_heldAt_room hother)
    exact HeldKey.Apart.symm ⟨hclear, hpem⟩

theorem wellFormed_hold {c : Cache φ} (h : c.WellFormed) (r : Recording) :
    (c.hold r.now r.endPoint r.minute r.recent r.pem r.start r.stop).1.WellFormed := by
  unfold hold
  split
  · exact h
  · rename_i span hspan
    exact wellFormed_take h _ _ (heldSpan_wf hspan)

theorem wellFormed_apply {c : Cache φ} (h : c.WellFormed) (call : CacheCall) :
    (c.apply call).WellFormed := by
  cases call with
  | hold r => exact wellFormed_hold h r
  | clear => exact wellFormed_clear c

/-- **Every run keeps the invariant.** -/
theorem wellFormed_run (calls : List CacheCall) : (run φ calls).WellFormed :=
  List.foldlRecOn calls apply wellFormed_empty fun _ h call _ => wellFormed_apply h call

/-- **The representation invariant of the key cache**, after any sequence of calls whatever. -/
theorem cache_wellFormed (calls : List CacheCall) :
    (∀ endPoint, ∀ k ∈ (run φ calls).heldAt endPoint, k.first ≤ k.last) ∧
    (∀ endPoint, ((run φ calls).heldAt endPoint).Pairwise fun a b =>
      (a.last < b.first ∨ b.last < a.first) ∧ a.pem ≠ b.pem) ∧
    (∀ endPoint minute,
      (((run φ calls).heldAt endPoint).filter (·.covers minute)).length ≤ 1) ∧
    (∀ endPoint, ∀ k ∈ (run φ calls).heldAt endPoint,
      ¬ (k.explicit = true ∧ k.openEnded = true)) ∧
    (run φ calls).held = total (run φ calls).keys ∧
    (run φ calls).held ≤ MAXIMUM_CACHED_KEYS := by
  have h := wellFormed_run (φ := φ) calls
  refine ⟨?_, ?_, ?_, ?_, h.held_eq, h.held_le⟩
  · intro endPoint
    exact (h.keys endPoint).ordered
  · intro endPoint
    exact (h.keys endPoint).apart
  · intro endPoint minute
    exact (h.keys endPoint).filter_covers_length minute
  · intro endPoint
    exact (h.keys endPoint).flags

end Cache

end OwidRust
