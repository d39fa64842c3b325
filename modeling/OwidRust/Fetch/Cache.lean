import Mathlib.Data.List.Basic
import OwidRust.Time
import OwidRust.Lib.Buckets

/-!
# The key cache

`HeldKey`, `KeyAnswer`, `Cache` with `held_for`, `hold` and `widen`, and `recent` and `near_edge`
of `src/fetch.rs`.  A `u32` minute is a natural number; the reading of the local clock that `hold`
and `recent` take is an argument, `now`.

* `widen_eq_some` — when a span is widened, and to what;
* `take_cases` — all that recording a span can do to the cache: nothing, widen the key held for
  the PEM, or add a key; `take_widens` and `take_adds` say when it does the last two;
* `heldFor_eq_some` — the key a minute is served from.
-/

namespace OwidRust

open Buckets

/-- `MAXIMUM_CACHED_KEYS`. -/
def MAXIMUM_CACHED_KEYS : Nat := 1024

/-- `CLOCK_DRIFT_ALLOWANCE_MINUTES`. -/
def CLOCK_DRIFT_ALLOWANCE_MINUTES : Nat := 15

/-! ## Answers and held keys -/

/-- What the cache or a fetch answers with: the key, and the span the creator stated for it where
`known`. -/
structure KeyAnswer where
  pem : String
  first : Nat
  last : Nat
  known : Bool
  deriving DecidableEq, Repr

namespace KeyAnswer

/-- `KeyAnswer::known`. -/
def ofSpan (pem : String) (first last : Nat) : KeyAnswer := ⟨pem, first, last, true⟩

/-- `KeyAnswer::unknown`. -/
def unknown (pem : String) : KeyAnswer := ⟨pem, 0, 0, false⟩

/-- `KeyAnswer::stated`. -/
def stated (pem : String) (start stop : Option Nat) : KeyAnswer :=
  match start, stop with
  | none, _ => unknown pem
  | some start, some stop =>
    if start < stop then ofSpan pem start (stop - 1) else ofSpan pem start u32Max
  | some start, none => ofSpan pem start u32Max

def covers (a : KeyAnswer) (minute : Nat) : Bool :=
  a.known && decide (a.first ≤ minute) && decide (minute ≤ a.last)

theorem covers_iff {a : KeyAnswer} {minute : Nat} :
    a.covers minute = true ↔ a.known = true ∧ a.first ≤ minute ∧ minute ≤ a.last := by
  simp [covers, and_assoc]

@[simp] theorem stated_pem (pem : String) (start stop : Option Nat) :
    (stated pem start stop).pem = pem := by
  unfold stated
  split
  · rfl
  · split <;> rfl
  · rfl

theorem stated_first (pem : String) (start : Nat) (stop : Option Nat) :
    (stated pem (some start) stop).first = start := by
  cases stop with
  | none => rfl
  | some stop =>
    unfold stated
    simp only
    split <;> rfl

theorem stated_known (pem : String) (start : Nat) (stop : Option Nat) :
    (stated pem (some start) stop).known = true := by
  cases stop with
  | none => rfl
  | some stop =>
    unfold stated
    simp only
    split <;> rfl

end KeyAnswer

/-- One key a creator has answered with, and the span of minutes it is known to cover. -/
structure HeldKey where
  pem : String
  first : Nat
  last : Nat
  /-- The creator stated the whole span itself. -/
  explicit : Bool
  /-- The creator stated the start of the span and no end. -/
  openEnded : Bool
  deriving DecidableEq, Repr

namespace HeldKey

def covers (k : HeldKey) (minute : Nat) : Bool :=
  decide (k.first ≤ minute) && decide (minute ≤ k.last)

def stated (k : HeldKey) : KeyAnswer :=
  if k.explicit then .ofSpan k.pem k.first k.last
  else if k.openEnded then .ofSpan k.pem k.first u32Max
  else .unknown k.pem

theorem covers_iff {k : HeldKey} {minute : Nat} :
    k.covers minute = true ↔ k.first ≤ minute ∧ minute ≤ k.last := by
  simp [covers]

@[simp] theorem stated_pem (k : HeldKey) : k.stated.pem = k.pem := by
  unfold stated
  split
  · rfl
  · split <;> rfl

end HeldKey

/-- `near_edge`. -/
def nearEdge (minute edge : Nat) : Bool :=
  decide (max minute edge - min minute edge ≤ CLOCK_DRIFT_ALLOWANCE_MINUTES)

theorem nearEdge_iff {minute edge : Nat} : nearEdge minute edge = true ↔
    ((minute : Int) - edge).natAbs ≤ CLOCK_DRIFT_ALLOWANCE_MINUTES := by
  simp only [nearEdge, decide_eq_true_eq]
  omega

/-! ## The clock -/

/-- `minutes_since_base(&Utc::now()).unwrap_or(u32::MAX)`. -/
def nowMinute (now : Moment) : Nat := (minutesSinceBase now).getD u32Max

/-- `recent`. -/
def recent (now : Moment) (minute : Nat) : Bool :=
  decide (nowMinute now - CLOCK_DRIFT_ALLOWANCE_MINUTES < minute)

/-! ## The cache -/

/-- The keys already obtained and the fetches under way.  A fetch is shared by reference, so the
map holds the name `φ` of one. -/
structure Cache (φ : Type) where
  keys : BucketMap String HeldKey
  held : Nat
  inFlight : AList fun _ : String => φ

/-- What an answer is held for. -/
structure Span where
  first : Nat
  last : Nat
  explicit : Bool
  openEnded : Bool
  deriving DecidableEq, Repr

/-- The span of an answer with a start and no end that counts, up to the drift allowance behind
now. -/
def startOnly (now : Moment) (start : Nat) : Span :=
  ⟨start, max start (nowMinute now - CLOCK_DRIFT_ALLOWANCE_MINUTES), false, true⟩

/-- The match `hold` begins with. -/
def heldSpan (now : Moment) (minute : Option Nat) (recent : Bool) (start stop : Option Nat) :
    Option Span :=
  match start, stop, minute with
  | some start, some stop, _ =>
    if start < stop then some ⟨start, stop - 1, true, false⟩ else some (startOnly now start)
  | some start, none, _ => some (startOnly now start)
  | none, _, some minute => if recent then none else some ⟨minute, minute, false, false⟩
  | none, _, none => none

/-- A key's span meets the minutes from `first` to `last`. -/
def HeldKey.meets (k : HeldKey) (first last : Nat) : Bool :=
  decide (first ≤ k.last) && decide (k.first ≤ last)

/-- `widen`, answering the widened keys where it widens. -/
def widen (keys : List HeldKey) (index first last : Nat) : Option (List HeldKey) :=
  match keys[index]? with
  | none => none
  | some key =>
    let first := min first key.first
    let last := max last key.last
    let anotherBetween := keys.zipIdx.any fun p => p.2 != index && p.1.meets first last
    if anotherBetween then none else some (keys.set index { key with first := first, last := last })

/-- The flags of a key whose span was widened by an answer. -/
def HeldKey.flagged (k : HeldKey) (explicit openEnded : Bool) : HeldKey :=
  { k with
    explicit := k.explicit || explicit
    openEnded := !(k.explicit || explicit) && (k.openEnded || openEnded) }

/-- The key of the PEM for the span. -/
def Span.key (span : Span) (pem : String) : HeldKey :=
  ⟨pem, span.first, span.last, span.explicit, span.openEnded⟩

namespace Cache

variable {φ : Type}

/-- `Cache::default`. -/
def empty : Cache φ := ⟨∅, 0, ∅⟩

/-- The keys held for the end point. -/
def heldAt (c : Cache φ) (endPoint : String) : List HeldKey := bucket c.keys endPoint

/-- `Cache::held_for`. -/
def heldFor (c : Cache φ) (endPoint : String) (minute : Nat) (recent : Bool) : Option KeyAnswer :=
  (c.keys.lookup endPoint).bind fun keys =>
    (keys.find? fun key => key.covers minute && (key.explicit || !recent)).map HeldKey.stated

/-- Adds a key, emptying the held keys first where they are full. -/
def add (c : Cache φ) (endPoint : String) (key : HeldKey) : Cache φ :=
  let room := if MAXIMUM_CACHED_KEYS ≤ c.held then { c with keys := ∅, held := 0 } else c
  { room with
    keys := room.keys.insert endPoint ((room.keys.lookup endPoint).getD [] ++ [key])
    held := room.held + 1 }

/-- What `hold` does with the span it has. -/
def take (c : Cache φ) (endPoint pem : String) (span : Span) : Cache φ :=
  match c.keys.lookup endPoint with
  | some keys =>
    match keys.findIdx? fun key => key.pem == pem with
    | some index =>
      match widen keys index span.first span.last with
      | some widened =>
        { c with
          keys := c.keys.insert endPoint
            (widened.modify index fun key => key.flagged span.explicit span.openEnded) }
      | none => c
    | none =>
      if keys.any fun other => other.meets span.first span.last then c
      else c.add endPoint (span.key pem)
  | none => c.add endPoint (span.key pem)

/-- `Cache::hold`. -/
def hold (c : Cache φ) (now : Moment) (endPoint : String) (minute : Option Nat) (recent : Bool)
    (pem : String) (start stop : Option Nat) : Cache φ × KeyAnswer :=
  let stated := KeyAnswer.stated pem start stop
  match heldSpan now minute recent start stop with
  | none => (c, stated)
  | some span => (c.take endPoint pem span, stated)

/-- `clear_cache`. -/
def clear (_ : Cache φ) : Cache φ := ⟨∅, 0, ∅⟩

end Cache

/-! ## What widening does -/

/-- The spans share no minute. -/
def HeldKey.Clear (k : HeldKey) (first last : Nat) : Prop := k.last < first ∨ last < k.first

theorem HeldKey.meets_eq_false {k : HeldKey} {first last : Nat} :
    k.meets first last = false ↔ k.Clear first last := by
  simp only [meets, Clear, Bool.and_eq_false_iff, decide_eq_false_iff_not]
  omega

/-- A held key after its span was widened by an answer. -/
def HeldKey.joined (k : HeldKey) (span : Span) : HeldKey where
  pem := k.pem
  first := min span.first k.first
  last := max span.last k.last
  explicit := k.explicit || span.explicit
  openEnded := !(k.explicit || span.explicit) && (k.openEnded || span.openEnded)

theorem split_of_findIdx? {p : HeldKey → Bool} {keys : List HeldKey} {index : Nat}
    (h : keys.findIdx? p = some index) :
    ∃ before key after, keys = before ++ key :: after ∧ before.length = index ∧ p key = true := by
  obtain ⟨hlt, hp, -⟩ := List.findIdx?_eq_some_iff_getElem.mp h
  exact ⟨keys.take index, keys[index], keys.drop (index + 1), by simp,
    List.length_take_of_le (Nat.le_of_lt hlt), hp⟩

theorem modify_length_append (before after : List HeldKey) (key : HeldKey)
    (f : HeldKey → HeldKey) :
    (before ++ key :: after).modify before.length f = before ++ f key :: after := by
  induction before with
  | nil => rfl
  | cons other before ih => simp [ih]

theorem zipIdx_any_ne {keys before after : List HeldKey} {key : HeldKey} {first last : Nat}
    (hkeys : keys = before ++ key :: after) :
    (keys.zipIdx.any fun p => p.2 != before.length && p.1.meets first last) = false ↔
      ∀ other ∈ before ++ after, other.Clear first last := by
  subst hkeys
  simp only [List.any_eq_false, ← HeldKey.meets_eq_false]
  constructor
  · intro h other hother
    rcases List.mem_append.mp hother with hb | ha
    · obtain ⟨i, hi, rfl⟩ := List.mem_iff_getElem.mp hb
      have hmem : (before[i], i) ∈ (before ++ key :: after).zipIdx := by
        rw [List.mk_mem_zipIdx_iff_getElem?, List.getElem?_append_left hi]
        exact List.getElem?_eq_getElem hi
      have := h _ hmem
      simpa [Nat.ne_of_lt hi] using this
    · obtain ⟨i, hi, rfl⟩ := List.mem_iff_getElem.mp ha
      have hmem : (after[i], before.length + (i + 1)) ∈ (before ++ key :: after).zipIdx := by
        rw [List.mk_mem_zipIdx_iff_getElem?, List.getElem?_append_right (by omega)]
        simp [hi]
      have := h _ hmem
      simpa using this
  · rintro h ⟨other, i⟩ hmem
    rw [List.mk_mem_zipIdx_iff_getElem?] at hmem
    simp only [Bool.and_eq_true, bne_iff_ne, not_and, Bool.not_eq_true]
    intro hi
    apply h
    rcases Nat.lt_or_gt_of_ne hi with hlt | hgt
    · rw [List.getElem?_append_left hlt] at hmem
      exact List.mem_append_left _ (List.mem_of_getElem? hmem)
    · rw [List.getElem?_append_right (Nat.le_of_lt hgt)] at hmem
      obtain ⟨j, hj⟩ : ∃ j, i - before.length = j + 1 := ⟨i - before.length - 1, by omega⟩
      rw [hj, List.getElem?_cons_succ] at hmem
      exact List.mem_append_right _ (List.mem_of_getElem? hmem)

/-- **A span is widened where no other key is met on the way**, and then only it changes. -/
theorem widen_eq_some {keys before after keys' : List HeldKey} {key : HeldKey} {first last : Nat}
    (hkeys : keys = before ++ key :: after) :
    widen keys before.length first last = some keys' ↔
      (∀ other ∈ before ++ after, other.Clear (min first key.first) (max last key.last)) ∧
        keys' = before ++
          { key with first := min first key.first, last := max last key.last } :: after := by
  have hget : keys[before.length]? = some key := by simp [hkeys]
  have hset : ∀ k, keys.set before.length k = before ++ k :: after := by simp [hkeys]
  rw [widen, hget, ← zipIdx_any_ne hkeys]
  simp only [hset]
  split
  · rename_i hany
    rw [hany]
    simp
  · rename_i hany
    simp only [Bool.not_eq_true] at hany
    simp only [hany, true_and, Option.some.injEq]
    exact eq_comm

/-! ## What recording a span does -/

namespace Cache

variable {φ : Type}

theorem heldFor_eq (c : Cache φ) (endPoint : String) (minute : Nat) (recent : Bool) :
    c.heldFor endPoint minute recent =
      ((c.heldAt endPoint).find? fun key =>
        key.covers minute && (key.explicit || !recent)).map HeldKey.stated := by
  rw [heldFor, heldAt, bucket]
  cases c.keys.lookup endPoint <;> rfl

/-- The key a minute is served from is held, covers it and is explicit where it has to be. -/
theorem heldFor_eq_some {c : Cache φ} {endPoint : String} {minute : Nat} {recent : Bool}
    {answer : KeyAnswer} (h : c.heldFor endPoint minute recent = some answer) :
    ∃ key ∈ c.heldAt endPoint, key.first ≤ minute ∧ minute ≤ key.last ∧
      (recent = true → key.explicit = true) ∧ answer = key.stated := by
  rw [heldFor_eq, Option.map_eq_some_iff] at h
  obtain ⟨key, hfind, rfl⟩ := h
  have hp := List.find?_some hfind
  simp only [Bool.and_eq_true, HeldKey.covers_iff, Bool.or_eq_true, Bool.not_eq_eq_eq_not,
    Bool.not_true] at hp
  obtain ⟨⟨hfirst, hlast⟩, hexplicit⟩ := hp
  refine ⟨key, List.mem_of_find?_eq_some hfind, hfirst, hlast, ?_, rfl⟩
  intro hrecent
  rcases hexplicit with h | h
  · exact h
  · rw [hrecent] at h
    cases h

theorem hold_snd (c : Cache φ) (now : Moment) (endPoint : String) (minute : Option Nat)
    (recent : Bool) (pem : String) (start stop : Option Nat) :
    (c.hold now endPoint minute recent pem start stop).2 = KeyAnswer.stated pem start stop := by
  unfold hold
  split <;> rfl

@[simp] theorem heldAt_empty (endPoint : String) : (empty : Cache φ).heldAt endPoint = [] := rfl

@[simp] theorem heldAt_clear (c : Cache φ) (endPoint : String) :
    c.clear.heldAt endPoint = [] := rfl

/-- The cache a key is added to. -/
def room (c : Cache φ) : Cache φ :=
  if MAXIMUM_CACHED_KEYS ≤ c.held then { c with keys := ∅, held := 0 } else c

theorem add_eq (c : Cache φ) (endPoint : String) (key : HeldKey) :
    c.add endPoint key =
      { c.room with
        keys := c.room.keys.insert endPoint (c.room.heldAt endPoint ++ [key])
        held := c.room.held + 1 } := rfl

theorem mem_heldAt_room {c : Cache φ} {endPoint : String} {key : HeldKey}
    (h : key ∈ c.room.heldAt endPoint) : key ∈ c.heldAt endPoint := by
  unfold room at h
  split at h
  · cases h
  · exact h

/-- The cache after the key of one end point was replaced. -/
def replaced (c : Cache φ) (endPoint : String) (keys : List HeldKey) : Cache φ :=
  { c with keys := c.keys.insert endPoint keys }

/-- **All that recording a span can do**: nothing, widen the key held for the PEM where no other
key is on the way, or add a key where the PEM is new and no key is met. -/
theorem take_cases (c : Cache φ) (endPoint pem : String) (span : Span) :
    c.take endPoint pem span = c ∨
    (∃ before key after, c.heldAt endPoint = before ++ key :: after ∧ key.pem = pem ∧
      (∀ other ∈ before ++ after,
        other.Clear (min span.first key.first) (max span.last key.last)) ∧
      c.take endPoint pem span =
        c.replaced endPoint (before ++ key.joined span :: after)) ∨
    ((∀ other ∈ c.heldAt endPoint, other.pem ≠ pem ∧ other.Clear span.first span.last) ∧
      c.take endPoint pem span = c.add endPoint (span.key pem)) := by
  unfold take
  cases hlookup : c.keys.lookup endPoint with
  | none =>
    right; right
    refine ⟨?_, rfl⟩
    intro other hother
    simp [heldAt, bucket, hlookup] at hother
  | some keys =>
    have hheld : c.heldAt endPoint = keys := bucket_of_lookup hlookup
    simp only
    cases hindex : keys.findIdx? fun key => key.pem == pem with
    | some index =>
      obtain ⟨before, key, after, hsplit, rfl, hpem⟩ := split_of_findIdx? hindex
      simp only
      cases hwiden : widen keys before.length span.first span.last with
      | none => exact .inl rfl
      | some widened =>
        obtain ⟨hclear, rfl⟩ := (widen_eq_some hsplit).mp hwiden
        right; left
        refine ⟨before, key, after, hheld.trans hsplit, by simpa using hpem, hclear, ?_⟩
        rw [replaced]
        simp only [modify_length_append]
        rfl
    | none =>
      rw [List.findIdx?_eq_none_iff] at hindex
      simp only
      split
      · exact .inl rfl
      · rename_i hany
        right; right
        refine ⟨?_, rfl⟩
        intro other hother
        rw [hheld] at hother
        simp only [List.any_eq_true, not_exists, not_and, Bool.not_eq_true] at hany
        exact ⟨by simpa using hindex other hother,
          HeldKey.meets_eq_false.mp (hany other hother)⟩

theorem lookup_of_heldAt_ne_nil {c : Cache φ} {endPoint : String}
    (h : c.heldAt endPoint ≠ []) : c.keys.lookup endPoint = some (c.heldAt endPoint) := by
  unfold heldAt bucket at h ⊢
  cases hlookup : c.keys.lookup endPoint with
  | none =>
    rw [hlookup] at h
    exact absurd rfl h
  | some keys => rfl

/-- The first key of the PEM is widened where no other key is on the way. -/
theorem take_widens {c : Cache φ} {endPoint pem : String} {span : Span}
    {before after : List HeldKey} {key : HeldKey}
    (hsplit : c.heldAt endPoint = before ++ key :: after) (hpem : key.pem = pem)
    (hfirst : ∀ other ∈ before, other.pem ≠ pem)
    (hclear : ∀ other ∈ before ++ after,
      other.Clear (min span.first key.first) (max span.last key.last)) :
    c.take endPoint pem span = c.replaced endPoint (before ++ key.joined span :: after) := by
  have hlookup : c.keys.lookup endPoint = some (before ++ key :: after) := by
    rw [lookup_of_heldAt_ne_nil (by simp [hsplit]), hsplit]
  have hindex : (before ++ key :: after).findIdx? (fun key => key.pem == pem) =
      some before.length := by
    rw [List.findIdx?_append, List.findIdx?_eq_none_iff.mpr (by simpa using hfirst)]
    simp [List.findIdx?_cons, hpem]
  have hwiden : widen (before ++ key :: after) before.length span.first span.last = some
      (before ++ { key with first := min span.first key.first, last := max span.last key.last } ::
        after) := (widen_eq_some rfl).mpr ⟨hclear, rfl⟩
  unfold take
  simp only [hlookup, hindex, hwiden, modify_length_append]
  rfl

/-- A key is added where the PEM is new and no key is met. -/
theorem take_adds {c : Cache φ} {endPoint pem : String} {span : Span}
    (hnew : ∀ other ∈ c.heldAt endPoint, other.pem ≠ pem ∧ other.Clear span.first span.last) :
    c.take endPoint pem span = c.add endPoint (span.key pem) := by
  unfold take
  cases hlookup : c.keys.lookup endPoint with
  | none => rfl
  | some keys =>
    rw [show c.heldAt endPoint = keys from bucket_of_lookup hlookup] at hnew
    have hindex : keys.findIdx? (fun key => key.pem == pem) = none := by
      rw [List.findIdx?_eq_none_iff]
      intro other hother
      simpa using (hnew other hother).1
    have hany : (keys.any fun other => other.meets span.first span.last) = false := by
      rw [List.any_eq_false]
      intro other hother
      rw [Bool.not_eq_true]
      exact HeldKey.meets_eq_false.mpr (hnew other hother).2
    simp only [hindex, hany]
    rfl

end Cache

end OwidRust
