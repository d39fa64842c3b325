import Mathlib.Data.Finset.Card
import OwidRust.Fetch.Statements
import OwidRust.Fetch.Verify

/-!
# What the key cache goes on serving

A key recorded is never replaced: its span widens, it is only ever confirmed, and the keys held go
all at once.  Where the creators' answers agree with one another the cache is the set of what was
stated to it, and the order in which it was does not matter.

* `serves_apply_iff` — one call keeps a minute served from its PEM exactly where the number of keys
  held does not go down;
* `serves_throughout_iff` — a run of calls does exactly where it never does;
* `holds_take` — recording a statement of a timetable adds it to what is held, and nothing else;
* `heldFor_run` — a minute is served exactly where its period was recorded;
* `askAll_requests` — creators are asked once for each period.
-/

namespace OwidRust

open Buckets Runs

variable {φ : Type}

/-! ## Serving a minute -/

/-- The minute is served from the PEM. -/
def Cache.Serves (c : Cache φ) (endPoint : String) (minute : Nat) (recent : Bool) (pem : String) :
    Prop :=
  ∃ answer, c.heldFor endPoint minute recent = some answer ∧ answer.pem = pem

namespace Cache

variable {c : Cache φ} {endPoint pem : String} {minute : Nat} {recent : Bool}

/-- No two keys of an end point cover one minute. -/
theorem eq_of_covers (hwf : c.WellFormed) {k k' : HeldKey} (hk : k ∈ c.heldAt endPoint)
    (hk' : k' ∈ c.heldAt endPoint) (hfirst : k.first ≤ minute) (hlast : minute ≤ k.last)
    (hfirst' : k'.first ≤ minute) (hlast' : minute ≤ k'.last) : k' = k := by
  by_contra hne
  obtain ⟨before, after, hsplit⟩ := List.append_of_mem hk
  have hkeys := hwf.keys endPoint
  rw [hsplit] at hkeys hk'
  have hmem : k' ∈ before ++ after := by
    simp only [List.mem_append, List.mem_cons] at hk' ⊢
    tauto
  have hclear := ((keysWf_middle.mp hkeys).2.2.2 k' hmem).1
  unfold HeldKey.Clear at hclear
  omega

/-- The key that covers a minute is the one it is served from, where it may be. -/
theorem heldFor_of_covers (hwf : c.WellFormed) {k : HeldKey} (hk : k ∈ c.heldAt endPoint)
    (hfirst : k.first ≤ minute) (hlast : minute ≤ k.last)
    (hexplicit : recent = true → k.explicit = true) :
    c.heldFor endPoint minute recent = some k.stated := by
  rw [heldFor_eq]
  have hmay : (k.covers minute && (k.explicit || !recent)) = true := by
    rw [Bool.and_eq_true, HeldKey.covers_iff, Bool.or_eq_true]
    refine ⟨⟨hfirst, hlast⟩, ?_⟩
    cases recent with
    | false => exact .inr rfl
    | true => exact .inl (hexplicit rfl)
  cases hfind : (c.heldAt endPoint).find? fun key =>
      key.covers minute && (key.explicit || !recent) with
  | none => exact absurd hmay (List.find?_eq_none.mp hfind k hk)
  | some other =>
    have hcovers := List.find?_some hfind
    rw [Bool.and_eq_true, HeldKey.covers_iff] at hcovers
    rw [eq_of_covers hwf hk (List.mem_of_find?_eq_some hfind) hfirst hlast hcovers.1.1 hcovers.1.2]
    rfl

theorem serves_iff (hwf : c.WellFormed) :
    c.Serves endPoint minute recent pem ↔
      ∃ k ∈ c.heldAt endPoint, k.first ≤ minute ∧ minute ≤ k.last ∧
        (recent = true → k.explicit = true) ∧ k.pem = pem := by
  constructor
  · rintro ⟨answer, hserved, hpem⟩
    obtain ⟨k, hk, hfirst, hlast, hexplicit, rfl⟩ := heldFor_eq_some hserved
    exact ⟨k, hk, hfirst, hlast, hexplicit, by rw [← hpem, HeldKey.stated_pem]⟩
  · rintro ⟨k, hk, hfirst, hlast, hexplicit, rfl⟩
    exact ⟨_, heldFor_of_covers hwf hk hfirst hlast hexplicit, HeldKey.stated_pem k⟩

/-- An end point for which a key is held is counted. -/
theorem held_pos (hwf : c.WellFormed) {k : HeldKey} (hk : k ∈ c.heldAt endPoint) : 0 < c.held := by
  rw [hwf.held_eq]
  have htotal := total_insert c.keys endPoint []
  have hlength := List.length_pos_of_mem hk
  rw [heldAt] at hlength
  simp only [List.length_nil] at htotal
  omega

/-! ## What one call keeps -/

/-- Recording a span keeps a minute served exactly where it does not empty the cache. -/
theorem serves_take_iff (hwf : c.WellFormed) (h : c.Serves endPoint minute recent pem)
    (endPoint' pem' : String) {span : Span}
    (hspan : span.first ≤ span.last ∧ ¬ (span.explicit = true ∧ span.openEnded = true)) :
    (c.take endPoint' pem' span).Serves endPoint minute recent pem ↔
      c.held ≤ (c.take endPoint' pem' span).held := by
  have hwf' := wellFormed_take hwf endPoint' pem' hspan
  obtain ⟨k, hk, hfirst, hlast, hexplicit, hpem⟩ := (serves_iff hwf).mp h
  rw [serves_iff hwf']
  -- a key still held is enough
  have hkept : ∀ {c' : Cache φ} {k' : HeldKey}, k' ∈ c'.heldAt endPoint → k'.first ≤ k.first →
      k.last ≤ k'.last → (k.explicit = true → k'.explicit = true) → k'.pem = k.pem →
      ∃ k' ∈ c'.heldAt endPoint, k'.first ≤ minute ∧ minute ≤ k'.last ∧
        (recent = true → k'.explicit = true) ∧ k'.pem = pem := by
    intro c' k' hk' hfirst' hlast' hexplicit' hpem'
    exact ⟨k', hk', by omega, by omega, fun hrecent => hexplicit' (hexplicit hrecent),
      hpem'.trans hpem⟩
  rcases take_cases c endPoint' pem' span with heq | ⟨before, key, after, hsplit, -, -, heq⟩ |
    ⟨hnew, heq⟩
  · rw [heq]
    exact iff_of_true (hkept hk (Nat.le_refl _) (Nat.le_refl _) id rfl) (Nat.le_refl _)
  · rw [heq]
    refine iff_of_true ?_ (Nat.le_refl _)
    by_cases he : endPoint = endPoint'
    · subst he
      rw [hsplit] at hk
      have hmem : ∀ k', k' ∈ before ++ key.joined span :: after →
          k' ∈ (c.replaced endPoint (before ++ key.joined span :: after)).heldAt endPoint := by
        intro k' hk'
        rw [heldAt_replaced, if_pos rfl]
        exact hk'
      rcases List.mem_append.mp hk with hb | ha
      · exact hkept (hmem k (List.mem_append_left _ hb)) (Nat.le_refl _) (Nat.le_refl _) id rfl
      rcases List.mem_cons.mp ha with rfl | ha
      · refine hkept (hmem (k.joined span) (by simp)) (Nat.min_le_right _ _) (Nat.le_max_right _ _)
          ?_ rfl
        intro hk'
        simp only [HeldKey.joined, hk', Bool.true_or]
      · exact hkept (hmem k (List.mem_append_right _ (List.mem_cons_of_mem _ ha))) (Nat.le_refl _)
          (Nat.le_refl _) id rfl
    · have hstays : k ∈ (c.replaced endPoint' (before ++ key.joined span :: after)).heldAt
          endPoint := by
        rw [heldAt_replaced, if_neg he]
        exact hk
      exact hkept hstays (Nat.le_refl _) (Nat.le_refl _) id rfl
  · rw [heq]
    by_cases hroom : MAXIMUM_CACHED_KEYS ≤ c.held
    · -- the keys held go, and the new one covers no minute of theirs
      have hempty : c.room = { c with keys := ∅, held := 0 } := if_pos hroom
      refine iff_of_false ?_ ?_
      · rintro ⟨k', hk', hfirst', hlast', -, -⟩
        rw [heldAt_add, hempty] at hk'
        split at hk'
        · rename_i he
          subst he
          rw [List.mem_append, List.mem_singleton] at hk'
          rcases hk' with hold | rfl
          · cases hold
          · have hclear := (hnew k hk).2
            unfold HeldKey.Clear at hclear
            simp only [Span.key] at hfirst' hlast'
            omega
        · cases hk'
      · rw [add_eq, hempty]
        simp only [MAXIMUM_CACHED_KEYS] at hroom
        simp only
        omega
    · have hsame : c.room = c := if_neg hroom
      have hstays : k ∈ (c.add endPoint' (span.key pem')).heldAt endPoint := by
        rw [heldAt_add, hsame]
        split
        · rename_i he
          subst he
          exact List.mem_append_left _ hk
        · exact hk
      refine iff_of_true (hkept hstays (Nat.le_refl _) (Nat.le_refl _) id rfl) ?_
      rw [add_eq, hsame]
      exact Nat.le_succ _

/-- **One call keeps a minute served from its PEM exactly where the number of keys held does not go
down.** -/
theorem serves_apply_iff (hwf : c.WellFormed) (h : c.Serves endPoint minute recent pem)
    (call : CacheCall) :
    (c.apply call).Serves endPoint minute recent pem ↔ c.held ≤ (c.apply call).held := by
  cases call with
  | clear =>
    obtain ⟨k, hk, -⟩ := (serves_iff hwf).mp h
    refine iff_of_false ?_ (Nat.not_le_of_lt (held_pos hwf hk))
    rintro ⟨answer, hserved, -⟩
    rw [heldFor_eq] at hserved
    cases hserved
  | hold r =>
    simp only [apply, hold]
    split
    · exact iff_of_true h (Nat.le_refl _)
    · rename_i span hspan
      exact serves_take_iff hwf h r.endPoint r.pem (heldSpan_wf hspan)

/-- **A minute served goes on being served from its PEM** throughout a run of calls exactly where
the number of keys held never goes down. -/
theorem serves_throughout_iff (hwf : c.WellFormed) (h : c.Serves endPoint minute recent pem)
    (calls : List CacheCall) :
    AllStates apply (fun c => c.Serves endPoint minute recent pem) c calls ↔
      AllSteps apply (fun c call => c.held ≤ (c.apply call).held) c calls :=
  allStates_iff_allSteps (Q := WellFormed) (fun _ call hwf => wellFormed_apply hwf call)
    (fun _ call hwf h => serves_apply_iff hwf h call) calls c hwf h

/-- A minute confirmed for a key goes on being served while the span of the key is stated. -/
theorem serves_throughout_sample :
    AllStates apply (fun c => c.Serves "a" 10 false "P")
      ((empty : Cache Unit).apply (.hold Logged.confirmedAtTen)) [.hold Logged.statedFromHundred] := by
  have h : ((empty : Cache Unit).apply (.hold Logged.confirmedAtTen)).Serves "a" 10 false "P" :=
    ⟨_, rfl, rfl⟩
  exact (serves_throughout_iff (wellFormed_apply wellFormed_empty _) h _).mpr ⟨by decide, trivial⟩

end Cache

/-! ## Creators whose answers agree -/

/-- What a creator states of the key of a period: the key, the first minute it is in force and the
first it is not. -/
structure Period where
  pem : String
  start : Nat
  stop : Nat
  deriving DecidableEq

/-- What creators state, end point by end point and minute by minute: every minute of a period has
that period, and no two periods of an end point have one key. -/
structure Timetable where
  stated : String → Nat → Option Period
  covers : ∀ {endPoint minute q}, stated endPoint minute = some q →
    q.start ≤ minute ∧ minute < q.stop
  whole : ∀ {endPoint minute q}, stated endPoint minute = some q →
    ∀ minute', q.start ≤ minute' → minute' < q.stop → stated endPoint minute' = some q
  named : ∀ {endPoint minute minute' q q'}, stated endPoint minute = some q →
    stated endPoint minute' = some q' → q.pem = q'.pem → q = q'

/-- The span a period is held for. -/
def Period.span (q : Period) : Span := ⟨q.start, q.stop - 1, true, false⟩

/-- What a minute of the period is answered with. -/
def Period.answer (q : Period) : KeyAnswer := .ofSpan q.pem q.start (q.stop - 1)

theorem Period.stated_key (q : Period) : (q.span.key q.pem).stated = q.answer := rfl

namespace Timetable

variable {T : Timetable} {endPoint : String} {minute : Nat} {q q' : Period}

/-- The timetable has the period somewhere. -/
def Has (T : Timetable) (endPoint : String) (q : Period) : Prop :=
  ∃ minute, T.stated endPoint minute = some q

theorem Has.lt (h : T.Has endPoint q) : q.start < q.stop := by
  obtain ⟨minute, hminute⟩ := h
  have := T.covers hminute
  omega

/-- Two periods of one end point share no minute. -/
theorem Has.clear (h : T.Has endPoint q) (h' : T.Has endPoint q') (hne : q ≠ q') :
    (q'.span.key q'.pem).Clear q.span.first q.span.last := by
  have hlt := h.lt
  have hlt' := h'.lt
  obtain ⟨minute, hminute⟩ := h
  obtain ⟨minute', hminute'⟩ := h'
  by_contra hmeets
  simp only [HeldKey.Clear, Span.key, Period.span, not_or, not_lt] at hmeets
  -- the later of the two starts would be of both
  have hshared := T.whole hminute (max q.start q'.start) (Nat.le_max_left _ _) (by omega)
  rw [T.whole hminute' (max q.start q'.start) (Nat.le_max_right _ _) (by omega)] at hshared
  exact hne (Option.some.inj hshared).symm

end Timetable

/-! ## The cache as a set of statements -/

/-- The keys held are those of the statements, and are counted. -/
structure Cache.Holds (c : Cache φ) (S : Finset (String × Period)) : Prop where
  wf : c.WellFormed
  keys : ∀ endPoint k, k ∈ c.heldAt endPoint ↔ ∃ q, (endPoint, q) ∈ S ∧ k = q.span.key q.pem
  held : c.held = S.card

namespace Cache

variable {c : Cache φ} {T : Timetable} {S : Finset (String × Period)} {endPoint : String}
  {minute : Nat} {recent : Bool} {q : Period}

theorem holds_empty : (empty : Cache φ).Holds ∅ where
  wf := wellFormed_empty
  keys := by simp
  held := rfl

/-- A minute is served where its period was stated. -/
theorem Holds.heldFor (h : c.Holds S) (hS : ∀ endPoint q, (endPoint, q) ∈ S → T.Has endPoint q) :
    c.heldFor endPoint minute recent =
      (T.stated endPoint minute).bind fun q =>
        if (endPoint, q) ∈ S then some q.answer else none := by
  cases hheld : c.heldFor endPoint minute recent with
  | some answer =>
    obtain ⟨k, hk, hfirst, hlast, -, rfl⟩ := heldFor_eq_some hheld
    obtain ⟨q, hq, rfl⟩ := (h.keys endPoint k).mp hk
    have hlt := (hS endPoint q hq).lt
    obtain ⟨minute', hminute'⟩ := hS endPoint q hq
    have hstated := T.whole hminute' minute hfirst (by
      simp only [Span.key, Period.span] at hlast
      omega)
    rw [hstated, Option.bind_some, if_pos hq, Period.stated_key]
  | none =>
    cases hstated : T.stated endPoint minute with
    | none => rfl
    | some q =>
      rw [Option.bind_some]
      split
      · rename_i hq
        have hcovers := T.covers hstated
        have hserved : c.heldFor endPoint minute recent = some (Span.key _ _).stated :=
          heldFor_of_covers h.wf ((h.keys endPoint _).mpr ⟨q, hq, rfl⟩) hcovers.1
            (by simp only [Span.key, Period.span]; omega) fun _ => rfl
        rw [hheld] at hserved
        cases hserved
      · rfl

/-- **Recording a statement of a timetable adds it to what is held**, while there is room. -/
theorem holds_take (h : c.Holds S) (hS : ∀ endPoint q, (endPoint, q) ∈ S → T.Has endPoint q)
    (hq : T.Has endPoint q) (hcard : (insert (endPoint, q) S).card ≤ MAXIMUM_CACHED_KEYS) :
    (c.take endPoint q.pem q.span).Holds (insert (endPoint, q) S) := by
  have hwf : (c.take endPoint q.pem q.span).WellFormed := by
    refine wellFormed_take h.wf endPoint q.pem ⟨?_, by simp [Period.span]⟩
    have := hq.lt
    simp only [Period.span]
    omega
  by_cases hmem : (endPoint, q) ∈ S
  · -- stated before: the key is held for that very span
    rw [Finset.insert_eq_of_mem hmem]
    obtain ⟨before, after, hsplit⟩ :=
      List.append_of_mem ((h.keys endPoint _).mpr ⟨q, hmem, rfl⟩)
    have hkeys := h.wf.keys endPoint
    rw [hsplit, keysWf_middle] at hkeys
    have hapart := hkeys.2.2.2
    have hjoined : (q.span.key q.pem).joined q.span = q.span.key q.pem := by
      simp [HeldKey.joined, Span.key, Period.span]
    have htake : c.take endPoint q.pem q.span = c.replaced endPoint (c.heldAt endPoint) := by
      have hpem : (q.span.key q.pem).pem = q.pem := rfl
      rw [take_widens hsplit hpem, hjoined, ← hsplit]
      · intro other hother
        exact (hapart other (List.mem_append_left _ hother)).2.symm
      · intro other hother
        rw [show min q.span.first (q.span.key q.pem).first = q.span.first from Nat.min_self _,
          show max q.span.last (q.span.key q.pem).last = q.span.last from Nat.max_self _]
        exact (hapart other hother).symm.1
    refine ⟨hwf, ?_, ?_⟩
    · intro endPoint' k
      rw [htake, heldAt_replaced]
      split
      · rename_i he
        rw [he]
        exact h.keys endPoint k
      · exact h.keys endPoint' k
    · rw [htake]
      exact h.held
  · have hnew : ∀ other ∈ c.heldAt endPoint,
        other.pem ≠ q.pem ∧ other.Clear q.span.first q.span.last := by
      intro other hother
      obtain ⟨q', hq', rfl⟩ := (h.keys endPoint other).mp hother
      have hhas := hS endPoint q' hq'
      have hne : q ≠ q' := by
        rintro rfl
        exact hmem hq'
      refine ⟨?_, hq.clear hhas hne⟩
      intro hpem
      obtain ⟨minute, hminute⟩ := hq
      obtain ⟨minute', hminute'⟩ := hhas
      exact hne (T.named hminute hminute' hpem.symm)
    have hroom : c.room = c := by
      rw [Finset.card_insert_of_notMem hmem, ← h.held] at hcard
      exact if_neg (by omega)
    have htake := take_adds hnew
    refine ⟨hwf, ?_, ?_⟩
    · intro endPoint' k
      rw [htake, heldAt_add, hroom]
      simp only [Finset.mem_insert, Prod.mk.injEq]
      split
      · rename_i he
        subst he
        rw [List.mem_append, List.mem_singleton, h.keys]
        constructor
        · rintro (⟨q', hq', rfl⟩ | rfl)
          · exact ⟨q', .inr hq', rfl⟩
          · exact ⟨q, .inl ⟨rfl, rfl⟩, rfl⟩
        · rintro ⟨q', ⟨-, rfl⟩ | hq', rfl⟩
          · exact .inr rfl
          · exact .inl ⟨q', hq', rfl⟩
      · rename_i he
        rw [h.keys]
        simp only [he, false_and, false_or]
    · rw [htake, add_eq, hroom, Finset.card_insert_of_notMem hmem, h.held]

/-- What recording a statement does, whatever the clock reads and whichever minute was asked. -/
theorem hold_eq_take (c : Cache φ) (hlt : q.start < q.stop) (now : Moment) (endPoint : String)
    (minute : Option Nat) (recent : Bool) :
    c.hold now endPoint minute recent q.pem (some q.start) (some q.stop) =
      (c.take endPoint q.pem q.span, q.answer) := by
  simp only [hold, heldSpan, KeyAnswer.stated, if_pos hlt]
  rfl

end Cache

/-! ## Any number of statements in any order -/

/-- The statement a call records, for the end point it was made to. -/
def Recording.statement (r : Recording) : String × Period :=
  (r.endPoint, ⟨r.pem, r.start.getD 0, r.stop.getD 0⟩)

/-- The call records a statement of the timetable in full. -/
structure Timetable.Says (T : Timetable) (r : Recording) : Prop where
  has : T.Has r.endPoint r.statement.2
  start : r.start = some r.statement.2.start
  stop : r.stop = some r.statement.2.stop

/-- The statements recorded. -/
def statements (rs : List Recording) : Finset (String × Period) :=
  (rs.map Recording.statement).toFinset

theorem mem_statements {rs : List Recording} {s : String × Period} :
    s ∈ statements rs ↔ ∃ r ∈ rs, r.statement = s := by
  simp [statements]

theorem statements_concat (rs : List Recording) (r : Recording) :
    statements (rs ++ [r]) = insert r.statement (statements rs) := by
  rw [statements, List.map_append, List.toFinset_append, Finset.union_comm]
  rfl

namespace Cache

variable {T : Timetable} {rs rs' : List Recording}

/-- **After any statements in any order the cache is the set of them.** -/
theorem holds_run (hstates : ∀ r ∈ rs, T.Says r)
    (hcard : (statements rs).card ≤ MAXIMUM_CACHED_KEYS) :
    (run φ (rs.map .hold)).Holds (statements rs) := by
  induction rs using List.reverseRecOn with
  | nil => exact holds_empty
  | append_singleton rs r ih =>
    rw [statements_concat] at hcard ⊢
    have hr := hstates r (by simp)
    have hbefore := ih (fun r' hr' => hstates r' (List.mem_append_left _ hr'))
      ((Finset.card_le_card (Finset.subset_insert _ _)).trans hcard)
    have hstep : run φ ((rs ++ [r]).map .hold) =
        (run φ (rs.map .hold)).take r.endPoint r.statement.2.pem r.statement.2.span := by
      rw [run, List.map_append, List.foldl_append]
      show ((run φ (rs.map .hold)).hold r.now r.endPoint r.minute r.recent r.pem r.start r.stop).1 =
        _
      rw [hr.start, hr.stop, show r.pem = r.statement.2.pem from rfl, hold_eq_take _ hr.has.lt]
    rw [hstep]
    refine holds_take hbefore ?_ hr.has hcard
    rintro endPoint q hq
    obtain ⟨r', hr', hstatement⟩ := mem_statements.mp hq
    have hhas := (hstates r' (List.mem_append_left _ hr')).has
    rw [hstatement, show r'.endPoint = r'.statement.1 from rfl, hstatement] at hhas
    exact hhas

/-- **A minute is served exactly where its period was recorded**, whatever else was, in whatever
order, whichever minutes had been asked and whatever the clock read. -/
theorem heldFor_run (hstates : ∀ r ∈ rs, T.Says r)
    (hcard : (statements rs).card ≤ MAXIMUM_CACHED_KEYS) (endPoint : String) (minute : Nat)
    (recent : Bool) :
    (run φ (rs.map .hold)).heldFor endPoint minute recent =
      (T.stated endPoint minute).bind fun q =>
        if (endPoint, q) ∈ statements rs then some q.answer else none := by
  refine (holds_run hstates hcard).heldFor ?_
  intro endPoint q hq
  obtain ⟨r, hr, hstatement⟩ := mem_statements.mp hq
  have hhas := (hstates r hr).has
  rw [show r.endPoint = r.statement.1 from rfl, hstatement] at hhas
  exact hhas

end Cache

/-! ## What asking costs -/

/-- Keys asked for one after the other. -/
def askAll (p : P256) (ch : Chrono) (env : Surroundings) :
    List String → World φ → List (Except Error KeyAnswer) × World φ
  | [], w => ([], w)
  | url :: rest, w =>
    let asked := keyAtUrl p ch env url w
    let others := askAll p ch env rest asked.2
    (asked.1 :: others.1, others.2)

/-- Whenever the URL is requested, the period of its minute is what the request reads. -/
structure Timetable.Answers (T : Timetable) (p : P256) (ch : Chrono) (env : Surroundings)
    (url : String) (q : Period) : Prop where
  asks : ∃ minute, minuteOf url = some minute ∧ T.stated (endPointOf url) minute = some q
  reads : ∀ n, requestPublicKey p ch url (env.transport n url) =
    .ok (q.pem, some q.start, some q.stop)

section Cost

variable {p : P256} {ch : Chrono} {env : Surroundings} {T : Timetable} {w : World φ}
  {S : Finset (String × Period)} {url : String} {q : Period}

/-- What a caller leaves: the statements held, and one request made for each. -/
structure World.Paid (w : World φ) (S : Finset (String × Period)) : Prop where
  holds : w.cache.Holds S
  requests : w.requests = S.card

/-- **A key is requested where its period is not held yet**, and answered either way. -/
theorem keyAtUrl_paid (h : w.Paid S) (hS : ∀ endPoint q, (endPoint, q) ∈ S → T.Has endPoint q)
    (hanswers : T.Answers p ch env url q)
    (hcard : (insert (endPointOf url, q) S).card ≤ MAXIMUM_CACHED_KEYS) :
    (keyAtUrl p ch env url w).1 = .ok q.answer ∧
      (keyAtUrl p ch env url w).2.Paid (insert (endPointOf url, q) S) := by
  obtain ⟨minute, hminute, hstated⟩ := hanswers.asks
  have hhas : T.Has (endPointOf url) q := ⟨minute, hstated⟩
  have hheld : ∀ recent, w.cache.heldFor (endPointOf url) minute recent =
      if (endPointOf url, q) ∈ S then some q.answer else none := by
    intro recent
    rw [h.holds.heldFor hS, hstated, Option.bind_some]
  by_cases hmem : (endPointOf url, q) ∈ S
  · rw [keyAtUrl_of_held hminute ((hheld _).trans (if_pos hmem)), Finset.insert_eq_of_mem hmem]
    exact ⟨rfl, h.holds, h.requests⟩
  · have hnone : ∀ minute', minuteOf url = some minute' →
        w.cache.heldFor (endPointOf url) minute' (isRecent env w (minuteOf url)) = none := by
      intro minute' hminute'
      rw [hminute, Option.some.injEq] at hminute'
      rw [← hminute', hheld, if_neg hmem]
    rw [keyAtUrl_of_not_held hnone, fetchKey]
    simp only [hanswers.reads, Cache.hold_eq_take _ hhas.lt]
    refine ⟨trivial, Cache.holds_take h.holds hS hhas hcard, ?_⟩
    rw [Finset.card_insert_of_notMem hmem, ← h.requests]

/-- The periods asked about. -/
def periodsOf (q : String → Period) (asked : List String) : Finset (String × Period) :=
  (asked.map fun url => (endPointOf url, q url)).toFinset

theorem askAll_paid {q : String → Period} {asked : List String}
    (hanswers : ∀ url ∈ asked, T.Answers p ch env url (q url)) (h : w.Paid S)
    (hS : ∀ endPoint q, (endPoint, q) ∈ S → T.Has endPoint q)
    (hcard : (S ∪ periodsOf q asked).card ≤ MAXIMUM_CACHED_KEYS) :
    (askAll p ch env asked w).1 = asked.map (fun url => .ok (q url).answer) ∧
      (askAll p ch env asked w).2.Paid (S ∪ periodsOf q asked) := by
  induction asked generalizing w S with
  | nil => exact ⟨rfl, by rw [periodsOf, List.map_nil, List.toFinset_nil, Finset.union_empty]; exact h⟩
  | cons url rest ih =>
    have hsplit : S ∪ periodsOf q (url :: rest) =
        insert (endPointOf url, q url) S ∪ periodsOf q rest := by
      rw [periodsOf, List.map_cons, List.toFinset_cons, Finset.union_insert, Finset.insert_union]
      rfl
    rw [hsplit] at hcard ⊢
    have hurl := hanswers url List.mem_cons_self
    obtain ⟨hfirst, hpaid⟩ := keyAtUrl_paid h hS hurl
      ((Finset.card_le_card Finset.subset_union_left).trans hcard)
    obtain ⟨hrest, hend⟩ := ih (fun url' hurl' => hanswers url' (List.mem_cons_of_mem _ hurl'))
      hpaid (by
        intro endPoint q' hq'
        rcases Finset.mem_insert.mp hq' with heq | hq'
        · obtain ⟨minute, -, hstated⟩ := hurl.asks
          cases heq
          exact ⟨minute, hstated⟩
        · exact hS endPoint q' hq') hcard
    refine ⟨?_, hend⟩
    rw [List.map_cons, askAll]
    simp only [hfirst, hrest]

/-- **Creators are asked once for each period**, however many minutes of it are asked for and in
whatever order, and every minute is answered with its period. -/
theorem askAll_requests {q : String → Period} {asked : List String}
    (hanswers : ∀ url ∈ asked, T.Answers p ch env url (q url))
    (hcard : (periodsOf q asked).card ≤ MAXIMUM_CACHED_KEYS) :
    (askAll p ch env asked (World.fresh φ)).1 = asked.map (fun url => .ok (q url).answer) ∧
      (askAll p ch env asked (World.fresh φ)).2.requests = (periodsOf q asked).card := by
  have hfresh : (World.fresh φ).Paid ∅ := ⟨Cache.holds_empty, rfl⟩
  obtain ⟨hanswered, hpaid⟩ := askAll_paid hanswers hfresh (by simp)
    (by rw [Finset.empty_union]; exact hcard)
  rw [Finset.empty_union] at hpaid
  exact ⟨hanswered, hpaid.requests⟩

end Cost

/-! ## One key -/

/-- One period, at every end point. -/
def Timetable.single (q : Period) : Timetable where
  stated := fun _ minute => if q.start ≤ minute ∧ minute < q.stop then some q else none
  covers := by
    intro endPoint minute q' h
    split at h
    · cases h
      assumption
    · cases h
  whole := by
    intro endPoint minute q' h minute' hstart hstop
    split at h
    · cases h
      exact if_pos ⟨hstart, hstop⟩
    · cases h
  named := by
    intro endPoint minute minute' q' q'' h h' _
    split at h
    · cases h
      split at h'
      · cases h'
        rfl
      · cases h'
    · cases h

/-- A key, and the one that takes over from it at minute 200. -/
def rotatedAt (minute : Nat) : Option Period :=
  if 100 ≤ minute ∧ minute < 200 then some ⟨"P", 100, 200⟩
  else if 200 ≤ minute ∧ minute < 300 then some ⟨"Q", 200, 300⟩
  else none

theorem rotatedAt_cases {minute : Nat} {q : Period} (h : rotatedAt minute = some q) :
    q = ⟨"P", 100, 200⟩ ∧ 100 ≤ minute ∧ minute < 200 ∨
      q = ⟨"Q", 200, 300⟩ ∧ 200 ≤ minute ∧ minute < 300 := by
  unfold rotatedAt at h
  split at h
  · cases h
    exact .inl ⟨rfl, ‹_›⟩
  split at h
  · cases h
    exact .inr ⟨rfl, ‹_›⟩
  · cases h

/-- The two periods, at every end point. -/
def Timetable.rotated : Timetable where
  stated := fun _ => rotatedAt
  covers := by
    intro endPoint minute q h
    rcases rotatedAt_cases h with ⟨rfl, hminute⟩ | ⟨rfl, hminute⟩ <;> exact hminute
  whole := by
    intro endPoint minute q h minute' hstart hstop
    rcases rotatedAt_cases h with ⟨rfl, -⟩ | ⟨rfl, -⟩
    · exact if_pos ⟨hstart, hstop⟩
    · have hlater : ¬ (100 ≤ minute' ∧ minute' < 200) := fun h => absurd h.2 (not_lt.mpr hstart)
      rw [rotatedAt, if_neg hlater, if_pos ⟨hstart, hstop⟩]
  named := by
    intro endPoint minute minute' q q' h h' hpem
    rcases rotatedAt_cases h with ⟨rfl, -⟩ | ⟨rfl, -⟩ <;>
      rcases rotatedAt_cases h' with ⟨rfl, -⟩ | ⟨rfl, -⟩ <;>
        first | rfl | exact absurd hpem (by decide)

/-- The second key, recorded as the creator answers for minute 250. -/
def Logged.statedFromTwoHundred : Recording :=
  ⟨atMinute 250, "a", some 250, true, "Q", some 200, some 300, by decide, by decide, by decide⟩

theorem Timetable.rotated_says {rs : List Recording}
    (hrs : ∀ r ∈ rs, r = Logged.statedFromHundred ∨ r = Logged.statedFromTwoHundred) :
    ∀ r ∈ rs, rotated.Says r := by
  intro r hr
  rcases hrs r hr with rfl | rfl
  · exact ⟨⟨100, rfl⟩, rfl, rfl⟩
  · exact ⟨⟨200, rfl⟩, rfl, rfl⟩

/-- The later key is recorded first, and then the other way round: either order serves both keys. -/
theorem Cache.heldFor_run_sample :
    ((run Unit ([Logged.statedFromTwoHundred, Logged.statedFromHundred].map .hold)).heldFor "a" 120
          true = some (.ofSpan "P" 100 199) ∧
      (run Unit ([Logged.statedFromTwoHundred, Logged.statedFromHundred].map .hold)).heldFor "a" 250
          true = some (.ofSpan "Q" 200 299)) ∧
    (run Unit ([Logged.statedFromHundred, Logged.statedFromTwoHundred].map .hold)).heldFor "a" 120
        true = some (.ofSpan "P" 100 199) ∧
      (run Unit ([Logged.statedFromHundred, Logged.statedFromTwoHundred].map .hold)).heldFor "a" 250
        true = some (.ofSpan "Q" 200 299) := by
  have hlater : ∀ r ∈ [Logged.statedFromTwoHundred, Logged.statedFromHundred],
      Timetable.rotated.Says r := Timetable.rotated_says (by simp)
  have hearlier : ∀ r ∈ [Logged.statedFromHundred, Logged.statedFromTwoHundred],
      Timetable.rotated.Says r := Timetable.rotated_says (by simp)
  rw [heldFor_run hlater (by decide), heldFor_run hlater (by decide),
    heldFor_run hearlier (by decide), heldFor_run hearlier (by decide)]
  decide

/-- The period of the answer that states whole minutes. -/
def wholePeriod : Period := ⟨samplePem, 10, 20⟩

/-- Two minutes of one period, the second answered from the first request. -/
theorem askAll_requests_sample :
    (askAll sampleP256 sampleChrono (sameAnswer wholeAnswer)
      [keyUrlAt "a" 12, keyUrlAt "a" 17] (World.fresh Unit)).2.requests = 1 := by
  have hasked : ∀ url ∈ [keyUrlAt "a" 12, keyUrlAt "a" 17],
      (Timetable.single wholePeriod).Answers sampleP256 sampleChrono (sameAnswer wholeAnswer) url
        wholePeriod := by
    intro url hurl
    have hno : '?' ∉ "a".toList := by simp
    refine ⟨?_, ?_⟩
    · rcases List.mem_pair.mp hurl with rfl | rfl
      · exact ⟨12, minuteOf_keyUrlAt hno (by decide), rfl⟩
      · exact ⟨17, minuteOf_keyUrlAt hno (by decide), rfl⟩
    · intro n
      exact (requestPublicKey_of_parse parse_wholeAnswer validate_wholeAnswer).trans
        (by decide +kernel)
  have hno : '?' ∉ "a".toList := by simp
  have hone : periodsOf (fun _ => wholePeriod) [keyUrlAt "a" 12, keyUrlAt "a" 17] =
      {("a", wholePeriod)} := by
    rw [periodsOf, List.map_cons, List.map_cons, List.map_nil, endPointOf_keyUrlAt hno,
      endPointOf_keyUrlAt hno, List.toFinset_cons, List.toFinset_cons, List.toFinset_nil]
    simp
  have hcard : (periodsOf (fun _ => wholePeriod)
      [keyUrlAt "a" 12, keyUrlAt "a" 17]).card = 1 := by rw [hone, Finset.card_singleton]
  rw [(askAll_requests hasked (by rw [hcard]; decide)).2, hcard]

end OwidRust
