import OwidRust.Lib.Runs
import OwidRust.Fetch.CacheInv

/-!
# What a held key claims and what its creator stated

A run of the cache is kept beside a log: for each end point and PEM the `hold` calls made since the
key was added.  A held key with a stated span is *vouched* where a logged call stated each minute
of it.  The flags of `HeldKey` are per key while its span is widened by answers of every kind, so
a widening can put minutes under a flag that no answer stated.

* `vouched_joined_iff` — a widened key is vouched exactly where the widening is `Bridged`;
* `vouched_step_iff` — one call keeps every key vouched exactly where it `Meets` the condition;
* `heldStatements_iff` — a run claims nothing unstated exactly where each of its calls does.
-/

namespace OwidRust

open Buckets Runs

variable {φ : Type}

/-! ## Statements and the log -/

/-- The minutes a call states for its PEM: from the start up to the end, or without limit where
there is no end. -/
def Recording.States (r : Recording) (minute : Nat) : Prop :=
  match r.start, r.stop with
  | some start, some stop => start ≤ minute ∧ minute < stop
  | some start, none => start ≤ minute
  | none, _ => False

/-- The minutes of a two ended statement. -/
def Recording.StatesBoth (r : Recording) (minute : Nat) : Prop :=
  match r.start, r.stop with
  | some start, some stop => start ≤ minute ∧ minute < stop
  | _, _ => False

/-- The end stated is not after the start. -/
def Recording.Contradictory (r : Recording) : Prop :=
  match r.start, r.stop with
  | some start, some stop => stop ≤ start
  | _, _ => False

/-- The span the call holds its PEM for. -/
def Recording.span (r : Recording) : Option Span :=
  heldSpan r.now r.minute r.recent r.start r.stop

theorem Recording.states_of_statesBoth {r : Recording} {minute : Nat} (h : r.StatesBoth minute) :
    r.States minute := by
  unfold StatesBoth at h
  unfold States
  split at h
  · rename_i hstart hstop
    simpa only [hstart, hstop] using h
  · exact h.elim

def StatedIn (log : List Recording) (minute : Nat) : Prop := ∃ q ∈ log, q.States minute

def StatedBothIn (log : List Recording) (minute : Nat) : Prop := ∃ q ∈ log, q.StatesBoth minute

theorem StatedIn.append {log : List Recording} {r : Recording} {minute : Nat} :
    StatedIn (log ++ [r]) minute ↔ StatedIn log minute ∨ r.States minute := by
  simp only [StatedIn, List.mem_append, List.mem_singleton, or_and_right, exists_or,
    exists_eq_left]

theorem StatedBothIn.append {log : List Recording} {r : Recording} {minute : Nat} :
    StatedBothIn (log ++ [r]) minute ↔ StatedBothIn log minute ∨ r.StatesBoth minute := by
  simp only [StatedBothIn, List.mem_append, List.mem_singleton, or_and_right, exists_or,
    exists_eq_left]

/-- A cache and, for each end point and PEM, the calls since the key was added. -/
structure Logged (φ : Type) where
  cache : Cache φ
  log : String → String → List Recording

namespace Logged

def init (φ : Type) : Logged φ := ⟨.empty, fun _ _ => []⟩

/-- The log of a PEM goes on while its key is held and begins afresh where it is not. -/
def step (s : Logged φ) (call : CacheCall) : Logged φ where
  cache := s.cache.apply call
  log := match call with
    | .hold r => fun endPoint pem =>
      if endPoint = r.endPoint ∧ pem = r.pem then
        if (s.cache.heldAt endPoint).any (·.pem == pem) then s.log endPoint pem ++ [r] else [r]
      else s.log endPoint pem
    | .clear => s.log

/-- **The claim of a cache about its creators.**  Each minute of a stated span was stated since the
key was added, and a minute within the drift window of now is served only where a two ended span
that contains it was. -/
def HeldStatements (s : Logged φ) : Prop :=
  (∀ endPoint, ∀ k ∈ s.cache.heldAt endPoint, k.stated.known = true →
    ∀ minute, k.stated.first ≤ minute → minute ≤ k.stated.last →
      StatedIn (s.log endPoint k.pem) minute) ∧
  (∀ endPoint minute answer, s.cache.heldFor endPoint minute true = some answer →
    StatedBothIn (s.log endPoint answer.pem) minute)

end Logged

/-! ## Vouched keys -/

structure HeldKey.Vouched (k : HeldKey) (log : List Recording) : Prop where
  explicit : k.explicit = true → ∀ minute, k.first ≤ minute → minute ≤ k.last →
    StatedBothIn log minute
  openEnded : k.explicit = false → k.openEnded = true → ∀ minute, k.first ≤ minute →
    minute ≤ u32Max → StatedIn log minute

theorem HeldKey.Vouched.mono {k : HeldKey} {log log' : List Recording} (h : k.Vouched log)
    (hlog : ∀ q ∈ log, q ∈ log') : k.Vouched log' := by
  refine ⟨?_, ?_⟩
  · intro he minute hf hl
    obtain ⟨q, hq, hs⟩ := h.explicit he minute hf hl
    exact ⟨q, hlog q hq, hs⟩
  · intro he ho minute hf hl
    obtain ⟨q, hq, hs⟩ := h.openEnded he ho minute hf hl
    exact ⟨q, hlog q hq, hs⟩

/-- The minutes a widening would claim unstated, kind by kind, were stated earlier. -/
structure Bridged (log : List Recording) (key : HeldKey) (span : Span) (r : Recording) :
    Prop where
  /-- Two stated spans: the minutes between them. -/
  between : key.explicit = true → span.explicit = true → ∀ minute,
    (key.last < minute ∧ minute < span.first) ∨ (span.last < minute ∧ minute < key.first) →
      StatedBothIn log minute
  /-- An answer without an end at a stated span: the minutes it adds. -/
  beside : key.explicit = true → span.explicit = false → ∀ minute,
    (span.first ≤ minute ∧ minute < key.first) ∨ (key.last < minute ∧ minute ≤ span.last) →
      StatedBothIn log minute
  /-- A two ended answer at a span not stated in full: the minutes held that it leaves out. -/
  around : key.explicit = false → span.explicit = true → ∀ minute,
    (key.first ≤ minute ∧ minute < span.first) ∨ (span.last < minute ∧ minute ≤ key.last) →
      StatedBothIn log minute
  /-- An answer without an end at an open span: the minutes it adds before the start. -/
  earlier : key.explicit = false → span.explicit = false → key.openEnded = true → ∀ minute,
    span.first ≤ minute → minute < key.first → minute ≤ u32Max → ¬ r.States minute →
      StatedIn log minute
  /-- A start at a span merely confirmed: the minutes from its first on. -/
  opened : key.explicit = false → key.openEnded = false → span.openEnded = true → ∀ minute,
    min span.first key.first ≤ minute → minute ≤ u32Max → ¬ r.States minute →
      StatedIn log minute

/-- What the span held says of the statement it comes from. -/
theorem Recording.span_eq_some {r : Recording} {span : Span} (h : r.span = some span) :
    (span.explicit = true → ∀ minute,
      r.StatesBoth minute ↔ span.first ≤ minute ∧ minute ≤ span.last) ∧
    (span.explicit = false → ∀ minute, ¬ r.StatesBoth minute) ∧
    (span.explicit = false → span.openEnded = true → ¬ r.Contradictory →
      ∀ minute, r.States minute ↔ span.first ≤ minute) ∧
    (r.Contradictory → span.explicit = false ∧ span.openEnded = true ∧
      r.start = some span.first ∧ ∀ minute, ¬ r.States minute) := by
  unfold Recording.span heldSpan at h
  unfold StatesBoth States Contradictory
  split at h
  · rename_i start stop hstart hstop
    simp only [hstart, hstop]
    split at h
    · cases h
      refine ⟨fun _ minute => ?_, nofun, nofun, fun hc => absurd hc (by omega)⟩
      show start ≤ minute ∧ minute < stop ↔ start ≤ minute ∧ minute ≤ stop - 1
      omega
    · cases h
      refine ⟨nofun, fun _ minute => by omega, fun _ _ hc => absurd (by omega) hc, fun _ => ?_⟩
      exact ⟨rfl, rfl, rfl, fun minute => by omega⟩
  · rename_i start hstart hstop
    simp only [hstart, hstop]
    cases h
    exact ⟨nofun, fun _ _ => nofun, fun _ _ _ _ => Iff.rfl, nofun⟩
  · rename_i hstart _
    simp only [hstart]
    split at h
    · cases h
    · cases h
      exact ⟨nofun, fun _ _ => nofun, nofun, nofun⟩
  · cases h

/-- What a vouched widened key says of the minutes the call itself does not state. -/
theorem bridged_of_vouched {key : HeldKey} {span : Span} {r : Recording} {log : List Recording}
    (hspan : r.span = some span) (hkey : key.first ≤ key.last)
    (h : (key.joined span).Vouched (log ++ [r])) : Bridged log key span r := by
  obtain ⟨hboth, hnone, -, -⟩ := Recording.span_eq_some hspan
  have hordered := (heldSpan_wf hspan).1
  -- a minute of the widened span that the call itself does not state is in the log
  have hlogged : (key.joined span).explicit = true → ∀ minute,
      min span.first key.first ≤ minute → minute ≤ max span.last key.last →
      ¬ r.StatesBoth minute → StatedBothIn log minute := by
    intro he minute hf hl hr
    exact (StatedBothIn.append.mp (h.explicit he minute hf hl)).resolve_right hr
  have hopen : (key.joined span).explicit = false → (key.joined span).openEnded = true →
      ∀ minute, min span.first key.first ≤ minute → minute ≤ u32Max → ¬ r.States minute →
      StatedIn log minute := by
    intro he ho minute hf hl hr
    exact (StatedIn.append.mp (h.openEnded he ho minute hf hl)).resolve_right hr
  refine ⟨?_, ?_, ?_, ?_, ?_⟩
  · intro hk hs minute hm
    apply hlogged (by simp [HeldKey.joined, hk]) minute (by omega) (by omega)
    rw [hboth hs]
    omega
  · intro hk hs minute hm
    exact hlogged (by simp [HeldKey.joined, hk]) minute (by omega) (by omega) (hnone hs minute)
  · intro hk hs minute hm
    apply hlogged (by simp [HeldKey.joined, hs]) minute (by omega) (by omega)
    rw [hboth hs]
    omega
  · intro hk hs ho minute hf hl hmax hr
    exact hopen (by simp [HeldKey.joined, hk, hs]) (by simp [HeldKey.joined, hk, hs, ho]) minute
      (by omega) hmax hr
  · intro hk hplain ho minute hf hmax hr
    have hs : span.explicit = false := by
      have := (heldSpan_wf hspan).2
      simpa [ho] using this
    exact hopen (by simp [HeldKey.joined, hk, hs]) (by simp [HeldKey.joined, hk, hs, ho]) minute
      hf hmax hr

/-- The minutes of a widened key are the key's own, those the call states, and the bridged ones. -/
theorem vouched_of_bridged {key : HeldKey} {span : Span} {r : Recording} {log : List Recording}
    (hspan : r.span = some span) (hv : key.Vouched log) (hb : Bridged log key span r) :
    (key.joined span).Vouched (log ++ [r]) := by
  obtain ⟨hboth, -, -, -⟩ := Recording.span_eq_some hspan
  refine ⟨?_, ?_⟩
  · intro he minute hf hl
    simp only [HeldKey.joined] at hf hl
    rw [StatedBothIn.append]
    cases hk : key.explicit with
    | true =>
      by_cases hin : key.first ≤ minute ∧ minute ≤ key.last
      · exact .inl (hv.explicit hk minute hin.1 hin.2)
      cases hs : span.explicit with
      | true =>
        by_cases hstated : span.first ≤ minute ∧ minute ≤ span.last
        · exact .inr ((hboth hs minute).mpr hstated)
        · exact .inl (hb.between hk hs minute (by omega))
      | false => exact .inl (hb.beside hk hs minute (by omega))
    | false =>
      have hs : span.explicit = true := by simpa [HeldKey.joined, hk] using he
      by_cases hstated : span.first ≤ minute ∧ minute ≤ span.last
      · exact .inr ((hboth hs minute).mpr hstated)
      · exact .inl (hb.around hk hs minute (by omega))
  · intro he ho minute hf hmax
    simp only [HeldKey.joined, Bool.or_eq_false_iff] at he hf
    obtain ⟨hk, hs⟩ := he
    rw [StatedIn.append]
    by_cases hr : r.States minute
    · exact .inr hr
    left
    cases hopen : key.openEnded with
    | true =>
      by_cases hin : key.first ≤ minute
      · exact hv.openEnded hk hopen minute hin hmax
      · exact hb.earlier hk hs hopen minute (by omega) (by omega) hmax hr
    | false =>
      have hspanOpen : span.openEnded = true := by simpa [HeldKey.joined, hk, hs, hopen] using ho
      exact hb.opened hk hopen hspanOpen minute hf hmax hr

/-- **A widened key is vouched exactly where the widening is bridged**, the key having been. -/
theorem vouched_joined_iff {key : HeldKey} {span : Span} {r : Recording} {log : List Recording}
    (hspan : r.span = some span) (hkey : key.first ≤ key.last) (hv : key.Vouched log) :
    (key.joined span).Vouched (log ++ [r]) ↔ Bridged log key span r :=
  ⟨bridged_of_vouched hspan hkey, vouched_of_bridged hspan hv⟩

/-- A key is vouched as it is added exactly where its answer does not contradict itself. -/
theorem vouched_key_iff {r : Recording} {span : Span} (hspan : r.span = some span) :
    (span.key r.pem).Vouched [r] ↔ ¬ r.Contradictory := by
  obtain ⟨hboth, -, hopen, hcontra⟩ := Recording.span_eq_some hspan
  constructor
  · intro h hc
    obtain ⟨he, ho, hstart, hstates⟩ := hcontra hc
    obtain ⟨q, hq, hs⟩ := h.openEnded he ho span.first (le_refl _) (r.start_le _ hstart)
    rw [List.mem_singleton.mp hq] at hs
    exact hstates _ hs
  · intro hc
    refine ⟨?_, ?_⟩
    · intro he minute hf hl
      exact ⟨r, by simp, (hboth he minute).mpr ⟨hf, hl⟩⟩
    · intro he ho minute hf _
      exact ⟨r, by simp, (hopen he ho hc minute).mpr hf⟩

/-! ## Steps and runs -/

namespace Logged

def Vouched (s : Logged φ) : Prop :=
  ∀ endPoint, ∀ k ∈ s.cache.heldAt endPoint, k.Vouched (s.log endPoint k.pem)

/-- A call takes in nothing unstated: where it widens a key the widening is bridged, and an answer
that contradicts itself adds no key. -/
def Meets (s : Logged φ) : CacheCall → Prop
  | .hold r => ∀ span, r.span = some span →
    (∀ key ∈ s.cache.heldAt r.endPoint, key.pem = r.pem →
      (∀ other ∈ s.cache.heldAt r.endPoint, other.pem ≠ r.pem →
        other.Clear (min span.first key.first) (max span.last key.last)) →
      Bridged (s.log r.endPoint r.pem) key span r) ∧
    (r.Contradictory → ∃ other ∈ s.cache.heldAt r.endPoint,
      other.pem = r.pem ∨ ¬ other.Clear span.first span.last)
  | .clear => True

theorem log_hold_of_held {s : Logged φ} {r : Recording} {key : HeldKey}
    (hkey : key ∈ s.cache.heldAt r.endPoint) (hpem : key.pem = r.pem) :
    (s.step (.hold r)).log r.endPoint r.pem = s.log r.endPoint r.pem ++ [r] := by
  have hany : (s.cache.heldAt r.endPoint).any (·.pem == r.pem) = true :=
    List.any_eq_true.mpr ⟨key, hkey, by simpa using hpem⟩
  simp only [step, and_self, if_true, hany]

theorem log_hold_of_not_held {s : Logged φ} {r : Recording}
    (hnew : ∀ other ∈ s.cache.heldAt r.endPoint, other.pem ≠ r.pem) :
    (s.step (.hold r)).log r.endPoint r.pem = [r] := by
  have hany : (s.cache.heldAt r.endPoint).any (·.pem == r.pem) = false := by
    rw [List.any_eq_false]
    intro other hother
    simpa using hnew other hother
  simp only [step, and_self, if_true, hany]
  rfl

theorem mem_log_hold {s : Logged φ} {r : Recording} {endPoint : String} {key : HeldKey}
    (hkey : key ∈ s.cache.heldAt endPoint) {q : Recording} (hq : q ∈ s.log endPoint key.pem) :
    q ∈ (s.step (.hold r)).log endPoint key.pem := by
  by_cases hsame : endPoint = r.endPoint ∧ key.pem = r.pem
  · obtain ⟨rfl, hpem⟩ := hsame
    rw [hpem] at hq ⊢
    rw [log_hold_of_held hkey hpem]
    exact List.mem_append_left _ hq
  · simpa [step, hsame] using hq

/-- A key that was held before a call is vouched after it. -/
theorem vouched_of_held {s : Logged φ} (hv : s.Vouched) (r : Recording) {endPoint : String}
    {key : HeldKey} (hkey : key ∈ s.cache.heldAt endPoint) :
    key.Vouched ((s.step (.hold r)).log endPoint key.pem) :=
  (hv endPoint key hkey).mono fun _ hq => mem_log_hold hkey hq

theorem step_hold_cache (s : Logged φ) (r : Recording) :
    (s.step (.hold r)).cache =
      match r.span with
      | none => s.cache
      | some span => s.cache.take r.endPoint r.pem span := by
  simp only [step, Cache.apply, Cache.hold, Recording.span]
  cases heldSpan r.now r.minute r.recent r.start r.stop <;> rfl

/-- The other keys of an end point, once one is set aside, have other PEMs. -/
theorem pem_ne_of_wf {before after : List HeldKey} {key other : HeldKey}
    (hwf : KeysWf (before ++ key :: after)) (hother : other ∈ before ++ after) :
    other.pem ≠ key.pem :=
  ((keysWf_middle.mp hwf).2.2.2 other hother).2.symm

/-- A call that meets the condition keeps every key vouched. -/
theorem vouched_of_meets {s : Logged φ} (hwf : s.cache.WellFormed) (hv : s.Vouched)
    {r : Recording} (hm : s.Meets (.hold r)) : (s.step (.hold r)).Vouched := by
  have hcache := s.step_hold_cache r
  cases hspan : r.span with
  | none =>
    rw [hspan] at hcache
    intro endPoint k hk
    rw [hcache] at hk
    exact vouched_of_held hv r hk
  | some span =>
    rw [hspan] at hcache
    simp only at hcache
    obtain ⟨hwiden, hadd⟩ := hm span hspan
    intro endPoint k hk
    rw [hcache] at hk
    rcases s.cache.take_cases r.endPoint r.pem span with
      heq | ⟨before, key, after, hsplit, hpem, hclear, heq⟩ | ⟨hnew, heq⟩
    · rw [heq] at hk
      exact vouched_of_held hv r hk
    · rw [heq, Cache.heldAt_replaced] at hk
      have hkey : key ∈ s.cache.heldAt r.endPoint := by simp [hsplit]
      have hkeys := hwf.keys r.endPoint
      split at hk
      · rename_i hend
        subst hend
        by_cases hjoined : k = key.joined span
        · subst hjoined
          have hbridged := hwiden key hkey hpem (by
            intro other hother hne
            apply hclear
            rw [hsplit] at hother
            simp only [List.mem_append, List.mem_cons] at hother ⊢
            rcases hother with h | rfl | h
            · exact .inl h
            · exact absurd hpem hne
            · exact .inr h)
          rw [show (key.joined span).pem = r.pem from hpem, log_hold_of_held hkey hpem]
          refine (vouched_joined_iff hspan (hkeys.ordered key hkey) ?_).mpr hbridged
          rw [← hpem]
          exact hv r.endPoint key hkey
        · apply vouched_of_held hv r
          rw [hsplit]
          simp only [List.mem_append, List.mem_cons, hjoined, false_or] at hk ⊢
          tauto
      · exact vouched_of_held hv r hk
    · rw [heq, Cache.heldAt_add] at hk
      split at hk
      · rename_i hend
        subst hend
        rcases List.mem_append.mp hk with hk | hk
        · exact vouched_of_held hv r (Cache.mem_heldAt_room hk)
        · rw [List.mem_singleton.mp hk]
          rw [show (span.key r.pem).pem = r.pem from rfl,
            log_hold_of_not_held fun other hother => (hnew other hother).1]
          apply (vouched_key_iff hspan).mpr
          intro hc
          obtain ⟨other, hother, h | h⟩ := hadd hc
          · exact (hnew other hother).1 h
          · exact h (hnew other hother).2
      · exact vouched_of_held hv r (Cache.mem_heldAt_room hk)

/-- A call that leaves every key vouched met the condition. -/
theorem meets_of_vouched {s : Logged φ} (hwf : s.cache.WellFormed) (hv : s.Vouched)
    {r : Recording} (hnext : (s.step (.hold r)).Vouched) : s.Meets (.hold r) := by
  intro span hspan
  have hcache := s.step_hold_cache r
  rw [hspan] at hcache
  simp only at hcache
  refine ⟨?_, ?_⟩
  · intro key hkey hpem hclear
    obtain ⟨before, after, hsplit⟩ := List.append_of_mem hkey
    have hkeys := hwf.keys r.endPoint
    rw [hsplit] at hkeys
    have hothers : ∀ other ∈ before ++ after, other ∈ s.cache.heldAt r.endPoint := by
      intro other hother
      rw [hsplit]
      simp only [List.mem_append, List.mem_cons] at hother ⊢
      tauto
    have hne : ∀ other ∈ before ++ after, other.pem ≠ r.pem := by
      intro other hother
      rw [← hpem]
      exact pem_ne_of_wf hkeys hother
    have htake : s.cache.take r.endPoint r.pem span = _ := Cache.take_widens hsplit hpem
      (fun other hother => hne other (List.mem_append_left _ hother))
      (fun other hother => hclear other (hothers other hother) (hne other hother))
    have hvouched := hnext r.endPoint (key.joined span) (by
      rw [hcache, htake, Cache.heldAt_replaced]
      simp)
    rw [show (key.joined span).pem = r.pem from hpem, log_hold_of_held hkey hpem] at hvouched
    refine (vouched_joined_iff hspan ((hwf.keys r.endPoint).ordered key hkey) ?_).mp hvouched
    rw [← hpem]
    exact hv r.endPoint key hkey
  · intro hc
    by_contra hnone
    push Not at hnone
    have htake := Cache.take_adds hnone
    have hvouched := hnext r.endPoint (span.key r.pem) (by
      rw [hcache, htake, Cache.heldAt_add]
      simp)
    rw [show (span.key r.pem).pem = r.pem from rfl,
      log_hold_of_not_held fun other hother => (hnone other hother).1] at hvouched
    exact (vouched_key_iff hspan).mp hvouched hc

theorem vouched_step_iff {s : Logged φ} (hwf : s.cache.WellFormed) (hv : s.Vouched)
    (call : CacheCall) : (s.step call).Vouched ↔ s.Meets call := by
  cases call with
  | hold r => exact ⟨meets_of_vouched hwf hv, vouched_of_meets hwf hv⟩
  | clear => exact iff_of_true (fun endPoint k hk => by cases hk) trivial

/-- The minute an explicit key covers is served from it. -/
theorem heldFor_of_explicit {c : Cache φ} (hwf : c.WellFormed) {endPoint : String}
    {k : HeldKey} (hk : k ∈ c.heldAt endPoint) (he : k.explicit = true) {minute : Nat}
    (hf : k.first ≤ minute) (hl : minute ≤ k.last) :
    c.heldFor endPoint minute true = some k.stated := by
  rw [Cache.heldFor_eq]
  cases hfind : (c.heldAt endPoint).find? fun key =>
      key.covers minute && (key.explicit || !true) with
  | none =>
    have := List.find?_eq_none.mp hfind k hk
    simp [HeldKey.covers_iff, hf, hl, he] at this
  | some other =>
    have hother := List.mem_of_find?_eq_some hfind
    have hcovers := List.find?_some hfind
    simp only [Bool.not_true, Bool.or_false, Bool.and_eq_true, HeldKey.covers_iff] at hcovers
    obtain ⟨⟨hf', hl'⟩, -⟩ := hcovers
    have heq : other = k := by
      by_contra hne
      obtain ⟨before, after, hsplit⟩ := List.append_of_mem hk
      have hkeys := hwf.keys endPoint
      rw [hsplit] at hkeys hother
      have hmem : other ∈ before ++ after := by
        simp only [List.mem_append, List.mem_cons] at hother ⊢
        tauto
      have hclear := ((keysWf_middle.mp hkeys).2.2.2 other hmem).1
      unfold HeldKey.Clear at hclear
      omega
    rw [heq]
    rfl

theorem heldStatements_iff_vouched {s : Logged φ} (hwf : s.cache.WellFormed) :
    s.HeldStatements ↔ s.Vouched := by
  constructor
  · rintro ⟨hstated, hserved⟩ endPoint k hk
    refine ⟨?_, ?_⟩
    · intro he minute hf hl
      have := hserved endPoint minute k.stated (heldFor_of_explicit hwf hk he hf hl)
      rwa [HeldKey.stated_pem] at this
    · intro he ho minute hf hl
      have heq : k.stated = .ofSpan k.pem k.first u32Max := by simp [HeldKey.stated, he, ho]
      exact hstated endPoint k hk (by rw [heq]; rfl) minute (by rw [heq]; exact hf)
        (by rw [heq]; exact hl)
  · intro hv
    refine ⟨?_, ?_⟩
    · intro endPoint k hk hknown minute hf hl
      have hkv := hv endPoint k hk
      unfold HeldKey.stated at hknown hf hl
      split at hknown
      · rename_i he
        rw [if_pos he] at hf hl
        obtain ⟨q, hq, hs⟩ := hkv.explicit he minute hf hl
        exact ⟨q, hq, Recording.states_of_statesBoth hs⟩
      · rename_i he
        rw [if_neg he] at hf hl
        split at hknown
        · rename_i ho
          rw [if_pos ho] at hf hl
          exact hkv.openEnded (by simpa using he) ho minute hf hl
        · cases hknown
    · intro endPoint minute answer hserved
      obtain ⟨k, hk, hf, hl, he, rfl⟩ := Cache.heldFor_eq_some hserved
      rw [HeldKey.stated_pem]
      exact (hv endPoint k hk).explicit (he rfl) minute hf hl

theorem wellFormed_step {s : Logged φ} (h : s.cache.WellFormed) (call : CacheCall) :
    (s.step call).cache.WellFormed := Cache.wellFormed_apply h call

/-- **A run of the cache claims nothing its creators did not state exactly where every call of it
takes in nothing unstated.** -/
theorem heldStatements_iff (calls : List CacheCall) :
    AllStates step HeldStatements (init φ) calls ↔ AllSteps step Meets (init φ) calls := by
  refine allStates_iff_allSteps (Q := fun s => s.cache.WellFormed)
    (fun s call h => wellFormed_step h call) ?_ calls (init φ) Cache.wellFormed_empty ?_
  · intro s call hwf h
    rw [heldStatements_iff_vouched hwf] at h
    rw [heldStatements_iff_vouched (wellFormed_step hwf call)]
    exact vouched_step_iff hwf h call
  · exact (heldStatements_iff_vouched Cache.wellFormed_empty).mpr fun _ _ hk => by cases hk

/-! ## A gap filled in

The creator confirms a key at minute 10 and later states its span as 100 to 200. -/

def confirmedAtTen : Recording :=
  ⟨baseDate, "a", some 10, false, "P", none, none, by simp [u32Max], by simp, by simp⟩

def statedFromHundred : Recording :=
  ⟨baseDate, "a", some 150, false, "P", some 100, some 200, by simp [u32Max], by simp [u32Max],
    by simp [u32Max]⟩

/-- Minute 50, which nobody stated, is then held as the creator's own statement, and served even
within the drift window of now. -/
theorem heldStatements_gap :
    ¬ ([CacheCall.hold confirmedAtTen, .hold statedFromHundred].foldl step
      (init Unit)).HeldStatements := by
  intro h
  have hlog : ([CacheCall.hold confirmedAtTen, .hold statedFromHundred].foldl step
      (init Unit)).log "a" "P" = [confirmedAtTen, statedFromHundred] := rfl
  obtain ⟨q, hq, hs⟩ := h.1 "a" ⟨"P", 10, 199, true, false⟩ (by decide) rfl 50 (by decide)
    (by decide)
  rw [hlog] at hq
  simp only [List.mem_cons, List.not_mem_nil, or_false] at hq
  rcases hq with rfl | rfl
  · exact hs
  · exact absurd hs.1 (by decide)

end Logged

end OwidRust
