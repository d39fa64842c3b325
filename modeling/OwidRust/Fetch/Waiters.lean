import OwidRust.Fetch.SingleFlight

/-!
# The callers waiting on a fetch

`Finished::poll` and the waking `Leader::drop` ends with, beside everything else the callers do.
To the shared state is added what no transition reads: the waker each caller left at its latest
poll, and what the leader of each fetch came to.  The wakers a leader took are woken one by one,
with no lock held, so other events come in between.

* `WakersKept`, `wakersKept_of_step` — a waiter's waker is left with the fetch until the fetch has
  ended, and is then among those taken or woken;
* `entriesLive_of_moves` — the entry for a URL is that of a leader not yet dropped;
* `noneLost_of_reach` — no waiter is lost or misinformed.
-/

namespace OwidRust

open Runs

/-- What the leader of a fetch came to: an outcome, or it was dropped at its await. -/
inductive LeaderEnd where
  | outcome (o : Outcome)
  | dropped

/-- `Leader::outcome`, as the end of a fetch carries it. -/
def LeaderEnd.of : Option Outcome → LeaderEnd
  | some o => .outcome o
  | none => .dropped

/-- What `key_at_url` makes of the request it led. -/
def outcomeOf : Except Error (String × Option Nat × Option Nat) → Outcome
  | .ok (pem, start, stop) => .ok (KeyAnswer.stated pem start stop)
  | .error e => .error (FetchFailure.ofError e)

/-- Where a caller that waited on the fetch goes on: it returns the outcome of the leader, or goes
round again where the leader was dropped. -/
def LeaderEnd.goesOn (f : Nat) : LeaderEnd → Phase
  | .outcome o => .returned (.fetched f) (System.returns o)
  | .dropped => .looking

/-- The shared state with the record of who is to be woken. -/
structure Wakes where
  sys : System
  /-- The waker a caller left at its latest poll, where that was pending. -/
  latest : Nat → Option Nat
  /-- The wakers taken from a fetch at its end and not woken yet. -/
  taken : Nat → List Nat
  woken : Nat → List Nat
  /-- What the leader of a fetch came to. -/
  came : Nat → Option LeaderEnd

inductive WakeEvent where
  | event (e : Event)
  /-- `Leader::drop` wakes the next of the wakers it took. -/
  | wake (f : Nat)

namespace Wakes

def init : Wakes := ⟨.init, fun _ => none, fun _ => [], fun _ => [], fun _ => none⟩

/-- The point a caller is at. -/
def phaseOf (s : System) (c : Nat) : Option Phase := (s.callers c).map Caller.phase

/-- The waker of the latest poll, after an event. -/
def latestAfter (w : Wakes) (t : System) : Event → Nat → Option Nat
  | .poll c waker =>
    Function.update w.latest c (match phaseOf t c with
      | some (.waiting _) => some waker
      | _ => none)
  | .drop c => Function.update w.latest c none
  | _ => w.latest

/-- The wakers the end of a fetch takes. -/
def takenAfter (w : Wakes) : Event → Nat → List Nat
  | .finish c =>
    match phaseOf w.sys c with
    | some (.removed f _) => Function.update w.taken f (w.sys.flights f).wakers
    | _ => w.taken
  | _ => w.taken

/-- What a leader came to: the outcome of its request, or that it was dropped waiting for it. -/
def cameAfter (w : Wakes) : Event → Nat → Option LeaderEnd
  | .record c _ =>
    match phaseOf w.sys c with
    | some (.answered f result) => Function.update w.came f (some (.outcome (outcomeOf result)))
    | _ => w.came
  | .drop c =>
    match phaseOf w.sys c with
    | some (.requesting f) => Function.update w.came f (some .dropped)
    | _ => w.came
  | _ => w.came

def after (w : Wakes) (e : Event) (t : System) : Wakes :=
  ⟨t, w.latestAfter t e, w.takenAfter e, w.woken, w.cameAfter e⟩

def step (p : P256) (ch : Chrono) (w : Wakes) : WakeEvent → Option Wakes
  | .event e => (System.step p ch w.sys e).map (w.after e)
  | .wake f =>
    match w.taken f with
    | [] => none
    | waker :: rest =>
      some { w with
        taken := Function.update w.taken f rest
        woken := Function.update w.woken f (w.woken f ++ [waker]) }

/-! ## Who has still to end a fetch -/

/-- The fetch a caller has still to end. -/
def owning (s : System) (c : Nat) : Option Nat := (s.callers c).bind fun caller => caller.phase.owns

/-- The leader of the fetch is done with it: it returned, or was dropped. -/
def LeaderEnded (s : System) (f : Nat) : Prop := ∀ c, owning s c ≠ some f

variable {p : P256} {ch : Chrono} {s t : System} {e : Event} {w w' : Wakes}

theorem owning_of_caller {c : Nat} {caller : Caller} (hc : s.callers c = some caller) :
    owning s c = caller.phase.owns := by
  rw [owning, hc, Option.bind_some]

theorem owning_update {c : Nat} {caller : Caller} {q : Phase}
    (ht : t.callers = Function.update s.callers c (some { caller with phase := q })) :
    owning t = Function.update (owning s) c q.owns :=
  System.readOff_update (fun caller => caller.phase.owns) ht

/-- A caller that owns the fetch it owned before, or none. -/
theorem owning_same {c : Nat} {caller : Caller} {q : Phase} (hc : s.callers c = some caller)
    (ht : t.callers = Function.update s.callers c (some { caller with phase := q }))
    (howns : q.owns = caller.phase.owns) : owning t = owning s := by
  apply System.readOff_same _ ht
  rw [hc, Option.bind_some]
  exact howns

/-- A caller that asks for a key owns nothing yet. -/
theorem owning_call {c : Nat} (hnew : s.callers c = none) (url : String) (now : Moment) :
    owning (s.call c url now) = owning s := by
  apply System.readOff_same _ rfl
  rw [hnew]
  rfl

theorem lt_of_owning (hs : s.Wf) {c f : Nat} (h : owning s c = some f) : f < s.nextFlight := by
  obtain ⟨caller, hc, howns⟩ := Option.bind_eq_some_iff.mp h
  exact ((hs.caller c caller hc).flight f (System.flight_of_owns howns)).1

theorem owning_unique (hs : s.Wf) {c c' f : Nat} (h : owning s c = some f)
    (h' : owning s c' = some f) : c = c' := by
  obtain ⟨caller, hc, howns⟩ := Option.bind_eq_some_iff.mp h
  obtain ⟨caller', hc', howns'⟩ := Option.bind_eq_some_iff.mp h'
  exact hs.owner c c' caller caller' f hc hc' howns howns'

/-- A fetch put up is finished exactly where its leader is done with it. -/
def FinishedOnce (s : System) : Prop :=
  ∀ f < s.nextFlight, (s.flights f).finished = true ↔ LeaderEnded s f

theorem finishedOnce_of_moves (hs : s.Wf) (h : FinishedOnce s) (hm : System.Moves p ch s e t) :
    FinishedOnce t := by
  -- the fetches and who owns them stay as they are
  have hsame : ∀ {u : System}, u.nextFlight = s.nextFlight →
      (∀ f, (u.flights f).finished = (s.flights f).finished) → owning u = owning s →
      FinishedOnce u := by
    intro u hnext hfinished howning f hf
    rw [hfinished, LeaderEnded, howning]
    exact h f (hnext ▸ hf)
  cases hm with
  | @call c url now hnew => exact hsame rfl (fun _ => rfl) (owning_call hnew url now)
  | serve hc hp | join hc hp | respond hc hp | record hc hp | fail hc hp | release hc hp
  | wake hc hp | retry hc hp | leave hc hp | abandon hc hp =>
    refine hsame rfl (fun _ => rfl) (owning_same hc rfl ?_)
    rw [hp]
    rfl
  | send hc hp =>
    refine hsame rfl (System.finished_send _ _ _) (owning_same hc rfl ?_)
    rw [hp]
    rfl
  | park => exact hsame rfl (System.finished_park _ _) rfl
  | clear => exact hsame rfl (fun _ => rfl) rfl
  | @elect c caller hc hp =>
    have howning : owning (s.elect c caller) =
        Function.update (owning s) c (some s.nextFlight) := owning_update (q := .elected _) rfl
    have hnone : owning s c = none := by rw [owning_of_caller hc, hp]; rfl
    intro f hf
    rcases Nat.lt_or_eq_of_le (Nat.le_of_lt_succ hf) with hlt | rfl
    · rw [System.flights_elect hlt, h f hlt]
      refine forall_congr' fun c' => ?_
      rw [howning]
      by_cases hc' : c' = c
      · subst hc'
        rw [Function.update_self, hnone]
        simp [Nat.ne_of_gt hlt]
      · rw [Function.update_of_ne hc']
    · rw [System.flights_elect_new]
      refine iff_of_false Bool.false_ne_true ?_
      intro hended
      exact hended c (by rw [howning, Function.update_self])
  | @finish c caller f outcome hc hp =>
    have howning : owning (s.finish c caller f outcome) = Function.update (owning s) c none := by
      rw [owning_update rfl]
      cases outcome <;> rfl
    have hself : owning s c = some f := by rw [owning_of_caller hc, hp]; rfl
    intro g hg
    by_cases hgf : g = f
    · subst hgf
      rw [System.finished_finish]
      refine iff_of_true rfl ?_
      intro c'
      rw [howning]
      by_cases hc' : c' = c
      · subst hc'
        rw [Function.update_self]
        exact (Option.some_ne_none g).symm
      · rw [Function.update_of_ne hc']
        exact fun hother => hc' (owning_unique hs hother hself)
    · rw [System.flights_finish hgf, h g hg]
      refine forall_congr' fun c' => ?_
      rw [howning]
      by_cases hc' : c' = c
      · subst hc'
        rw [Function.update_self, hself]
        simp [Ne.symm hgf]
      · rw [Function.update_of_ne hc']

/-! ## The invariant -/

/-- A waker left with a fetch: among its wakers until it ends, and then taken or woken. -/
def Registered (w : Wakes) (f waker : Nat) : Prop :=
  ((w.sys.flights f).finished = false ∧ waker ∈ (w.sys.flights f).wakers) ∨
    (w.sys.flights f).finished = true ∧ (waker ∈ w.taken f ∨ waker ∈ w.woken f)

/-- The entry for a URL is that of a leader not dropped yet. -/
def EntriesLive (s : System) : Prop :=
  ∀ url f, s.cache.inFlight.lookup url = some f → ∃ c, s.leading c = some (url, f)

/-- The waker of a caller that waits is registered with the fetch it waits on. -/
def Waits (w : Wakes) (c waker : Nat) : Prop :=
  ∃ caller f, w.sys.callers c = some caller ∧ caller.phase = .waiting f ∧ w.Registered f waker

/-- Wakers stay registered, and what the leader of a fetch came to is what the fetch ended with. -/
structure WakersKept (w : Wakes) : Prop where
  registered : ∀ c waker, w.latest c = some waker → w.Waits c waker
  finished : FinishedOnce w.sys
  leaving : ∀ c caller f outcome, w.sys.callers c = some caller →
    caller.phase = .leaving f outcome ∨ caller.phase = .removed f outcome →
    w.came f = some (LeaderEnd.of outcome)
  came : ∀ f < w.sys.nextFlight, (w.sys.flights f).finished = true →
    w.came f = some (LeaderEnd.of (w.sys.flights f).outcome)
  entries : EntriesLive w.sys

/-! ## The entries -/

theorem entriesLive_of_moves (h : EntriesLive s) (hm : System.Moves p ch s e t) :
    EntriesLive t := by
  have hsame : ∀ {u : System}, u.cache.inFlight = s.cache.inFlight → u.leading = s.leading →
      EntriesLive u := by
    intro u hentry hleading url f hf
    rw [hentry] at hf
    rw [hleading]
    exact h url f hf
  cases hm with
  | @call c url now hnew => exact hsame rfl (System.leading_call hnew url now)
  | serve hc hp | join hc hp | send hc hp | respond hc hp | fail hc hp | wake hc hp | retry hc hp
  | leave hc hp | abandon hc hp =>
    refine hsame rfl (System.leading_same hc rfl ?_)
    rw [hp]
    rfl
  | record hc hp =>
    refine hsame (System.inFlight_hold _ _ _ _ _ _ _) (System.leading_same hc rfl ?_)
    rw [hp]
    rfl
  | @finish c caller f outcome hc hp =>
    refine hsame rfl (System.leading_same hc rfl ?_)
    rw [hp]
    cases outcome <;> rfl
  | park => exact hsame rfl rfl
  | clear => exact fun url f hf => by cases hf
  | @elect c caller hc hp hheld hentry =>
    have hleading : (s.elect c caller).leading =
        Function.update s.leading c (some (caller.url, s.nextFlight)) :=
      System.leading_update (q := .elected s.nextFlight) rfl
    have hnone : s.leading c = none := by rw [System.leading, hc, Option.bind_some, hp]; rfl
    intro url f hf
    simp only [System.elect] at hf
    by_cases hurl : url = caller.url
    · subst hurl
      rw [AList.lookup_insert] at hf
      cases hf
      exact ⟨c, by rw [hleading, Function.update_self]⟩
    · rw [AList.lookup_insert_ne hurl] at hf
      obtain ⟨c', hlead⟩ := h url f hf
      refine ⟨c', ?_⟩
      rw [hleading, Function.update_of_ne]
      · exact hlead
      · rintro rfl
        rw [hnone] at hlead
        cases hlead
  | @release c caller f outcome hc hp =>
    have hleading : (s.release c caller f outcome).leading = Function.update s.leading c none :=
      System.leading_update (q := .removed f outcome) rfl
    have hself : s.leading c = some (caller.url, f) :=
      System.leading_of_caller hc (by rw [hp]; rfl)
    intro url g hg
    simp only [System.release] at hg
    by_cases hurl : url = caller.url
    · rw [hurl, AList.lookup_erase] at hg
      cases hg
    · rw [AList.lookup_erase_ne hurl] at hg
      obtain ⟨c', hlead⟩ := h url g hg
      refine ⟨c', ?_⟩
      rw [hleading, Function.update_of_ne]
      · exact hlead
      · rintro rfl
        rw [hself] at hlead
        cases hlead
        exact hurl rfl

/-! ## What a step keeps -/

theorem Registered.congr {f waker : Nat} (h : w.Registered f waker)
    (hfinished : (w'.sys.flights f).finished = (w.sys.flights f).finished)
    (hwakers : (w'.sys.flights f).wakers = (w.sys.flights f).wakers)
    (htaken : w'.taken f = w.taken f) (hwoken : w'.woken f = w.woken f) :
    w'.Registered f waker := by
  unfold Registered
  rw [hfinished, hwakers, htaken, hwoken]
  exact h

/-- Nothing happened to a caller that waits, nor to its fetch. -/
theorem Waits.stay {c waker : Nat} (h : w.Waits c waker)
    (hcaller : ∀ caller f, w.sys.callers c = some caller → caller.phase = .waiting f →
      w'.sys.callers c = some caller ∧
        (w'.sys.flights f).finished = (w.sys.flights f).finished ∧
        (w'.sys.flights f).wakers = (w.sys.flights f).wakers ∧ w'.taken f = w.taken f)
    (hwoken : w'.woken = w.woken) : w'.Waits c waker := by
  obtain ⟨caller, f, hc, hp, hreg⟩ := h
  obtain ⟨hc', hfinished, hwakers, htaken⟩ := hcaller caller f hc hp
  exact ⟨caller, f, hc', hp, hreg.congr hfinished hwakers htaken (by rw [hwoken])⟩

/-- A caller that waits did not move where the one that moved was not waiting. -/
theorem caller_stays {c c' g : Nat} {caller before : Caller} {q : Phase}
    (hc : s.callers c = some caller) (hp : caller.phase ≠ .waiting g)
    (hc' : s.callers c' = some before) (hp' : before.phase = .waiting g)
    (ht : t.callers = Function.update s.callers c (some { caller with phase := q })) :
    t.callers c' = some before := by
  rw [ht, Function.update_of_ne]
  · exact hc'
  · rintro rfl
    rw [hc] at hc'
    cases hc'
    exact hp hp'

theorem poll_of_step {c waker : Nat} (h : System.step p ch s (.poll c waker) = some t) :
    ∃ caller f, s.callers c = some caller ∧ caller.phase = .waiting f ∧
      t = s.poll c caller f waker := by
  obtain ⟨caller, hc, hphase⟩ := Option.bind_eq_some_iff.mp h
  split at hphase
  · rename_i f hp
    exact ⟨caller, f, hc, hp, (Option.some.inj hphase).symm⟩
  · cases hphase

/-- A poll of a fetch that has not ended leaves the waker with it, beside those of the others. -/
theorem waits_of_park (h : ∀ c waker, w.latest c = some waker → w.Waits c waker) {c f waker : Nat}
    {caller : Caller} (hc : w.sys.callers c = some caller) (hp : caller.phase = .waiting f)
    (hfinished : (w.sys.flights f).finished = false) :
    ∀ c' waker', (w.after (.poll c waker) (w.sys.park f waker)).latest c' = some waker' →
      (w.after (.poll c waker) (w.sys.park f waker)).Waits c' waker' := by
  intro c' waker' hlatest
  have hparked : ((w.sys.park f waker).flights f) = { w.sys.flights f with
      wakers := (w.sys.flights f).wakers.filter (· != waker) ++ [waker] } :=
    Function.update_self _ _ _
  simp only [after, latestAfter] at hlatest
  by_cases hcc : c' = c
  · subst hcc
    have hphase : phaseOf (w.sys.park f waker) c' = some (.waiting f) := by
      rw [phaseOf, ← hp]
      exact congrArg (Option.map Caller.phase) hc
    rw [Function.update_self, hphase] at hlatest
    cases hlatest
    refine ⟨caller, f, hc, hp, .inl ?_⟩
    simp only [after, hparked]
    exact ⟨hfinished, by simp⟩
  · rw [Function.update_of_ne hcc] at hlatest
    obtain ⟨before, g, hc', hp', hreg⟩ := h c' waker' hlatest
    refine ⟨before, g, hc', hp', ?_⟩
    by_cases hgf : g = f
    · subst hgf
      rcases hreg with ⟨-, hmem⟩ | ⟨htrue, -⟩
      · refine .inl ?_
        simp only [after, hparked]
        refine ⟨hfinished, ?_⟩
        -- a waker the poll leaves out is the one it leaves
        by_cases hsame : waker' = waker
        · simp [hsame]
        · simp [hmem, hsame]
      · rw [hfinished] at htrue
        cases htrue
    · have hother : (w.sys.park f waker).flights g = w.sys.flights g :=
        Function.update_of_ne hgf _ _
      exact hreg.congr (by simp only [after, hother]) (by simp only [after, hother]) rfl rfl

/-- A poll of a fetch that has ended leaves no waker. -/
theorem waits_of_ready (h : ∀ c waker, w.latest c = some waker → w.Waits c waker) {c waker : Nat}
    {caller : Caller} {q : Phase} (hq : ∀ g, q ≠ .waiting g) :
    ∀ c' waker', (w.after (.poll c waker) (w.sys.setPhase c caller q)).latest c' = some waker' →
      (w.after (.poll c waker) (w.sys.setPhase c caller q)).Waits c' waker' := by
  intro c' waker' hlatest
  simp only [after, latestAfter] at hlatest
  by_cases hcc : c' = c
  · subst hcc
    have hphase : phaseOf (w.sys.setPhase c' caller q) c' = some q := by
      simp [phaseOf, System.setPhase]
    rw [Function.update_self, hphase] at hlatest
    split at hlatest
    · rename_i g hg
      exact absurd (Option.some.inj hg) (hq g)
    · cases hlatest
  · rw [Function.update_of_ne hcc] at hlatest
    refine (h c' waker' hlatest).stay ?_ rfl
    intro before g hc' hp'
    refine ⟨?_, rfl, rfl, rfl⟩
    simp only [after, System.setPhase, Function.update_of_ne hcc]
    exact hc'

/-- A caller dropped waits no longer, and its waker is nobody's latest. -/
theorem waits_of_drop (h : ∀ c waker, w.latest c = some waker → w.Waits c waker) {c : Nat}
    {caller : Caller} {q : Phase} :
    ∀ c' waker', (w.after (.drop c) (w.sys.setPhase c caller q)).latest c' = some waker' →
      (w.after (.drop c) (w.sys.setPhase c caller q)).Waits c' waker' := by
  intro c' waker' hlatest
  simp only [after, latestAfter] at hlatest
  by_cases hcc : c' = c
  · rw [hcc, Function.update_self] at hlatest
    cases hlatest
  · rw [Function.update_of_ne hcc] at hlatest
    refine (h c' waker' hlatest).stay ?_ rfl
    intro before g hc' hp'
    refine ⟨?_, rfl, rfl, rfl⟩
    simp only [after, System.setPhase, Function.update_of_ne hcc]
    exact hc'

/-- Every other event leaves the waiting callers and their wakers, but that a fetch may end. -/
theorem waits_of_moves (hs : w.sys.Wf) (h : WakersKept w) (hm : System.Moves p ch w.sys e t)
    (hne : ∀ c waker, e ≠ .poll c waker) :
    ∀ c waker, (w.after e t).latest c = some waker → (w.after e t).Waits c waker := by
  intro c' waker' hlatest
  cases hm with
  | wake | retry | park => exact absurd rfl (hne _ _)
  | clear => exact (h.registered c' waker' hlatest).stay (fun _ _ hc' _ => ⟨hc', rfl, rfl, rfl⟩) rfl
  | @call c url now hnew =>
    refine (h.registered c' waker' hlatest).stay ?_ rfl
    intro before g hc' _
    refine ⟨?_, rfl, rfl, rfl⟩
    simp only [after, System.call]
    rw [Function.update_of_ne]
    · exact hc'
    · rintro rfl
      rw [hnew] at hc'
      cases hc'
  | serve hc hp | join hc hp | respond hc hp | record hc hp | fail hc hp | release hc hp =>
    refine (h.registered c' waker' hlatest).stay ?_ rfl
    intro before g hc' hp'
    refine ⟨caller_stays hc ?_ hc' hp' rfl, rfl, rfl, rfl⟩
    rw [hp]
    exact Phase.noConfusion
  | @elect c caller hc hp =>
    refine (h.registered c' waker' hlatest).stay ?_ rfl
    intro before g hc' hp'
    have hlt : g < w.sys.nextFlight := ((hs.caller c' before hc').flight g (by rw [hp']; rfl)).1
    have hflight : (w.sys.elect c caller).flights g = w.sys.flights g := System.flights_elect hlt
    refine ⟨caller_stays (q := .elected _) hc ?_ hc' hp' rfl, by simp only [after, hflight],
      by simp only [after, hflight], rfl⟩
    rw [hp]
    exact Phase.noConfusion
  | @send c caller f hc hp =>
    refine (h.registered c' waker' hlatest).stay ?_ rfl
    intro before g hc' hp'
    refine ⟨caller_stays (q := .requesting f) hc ?_ hc' hp' rfl, ?_, ?_, rfl⟩
    · rw [hp]
      exact Phase.noConfusion
    · refine System.proj_update Flight.finished ?_ g
      rfl
    · refine System.proj_update Flight.wakers ?_ g
      rfl
  | @finish c caller f outcome hc hp =>
    obtain ⟨before, g, hc', hp', hreg⟩ := h.registered c' waker' hlatest
    have hstays := caller_stays (t := w.sys.finish c caller f outcome) hc
      (by rw [hp]; exact Phase.noConfusion) hc' hp' rfl
    refine ⟨before, g, hstays, hp', ?_⟩
    have htaken : (w.after (.finish c) (w.sys.finish c caller f outcome)).taken =
        Function.update w.taken f (w.sys.flights f).wakers := by
      simp only [after, takenAfter, phaseOf, hc, Option.map_some, hp]
    by_cases hgf : g = f
    · subst hgf
      rcases hreg with ⟨-, hmem⟩ | ⟨htrue, -⟩
      · refine .inr ⟨System.finished_finish c caller g outcome, .inl ?_⟩
        rw [htaken, Function.update_self]
        exact hmem
      · have hlt := lt_of_owning (c := c) (f := g) hs (by rw [owning_of_caller hc, hp]; rfl)
        exact absurd (by rw [owning_of_caller hc, hp]; rfl) ((h.finished g hlt).mp htrue c)
    · have hflight : (w.sys.finish c caller f outcome).flights g = w.sys.flights g :=
        System.flights_finish hgf
      refine hreg.congr (by simp only [after, hflight]) (by simp only [after, hflight]) ?_ rfl
      rw [htaken, Function.update_of_ne hgf]
  | leave | abandon => exact waits_of_drop h.registered c' waker' hlatest

/-! ## What a leader came to -/

theorem owns_of_leaving {phase : Phase} {f : Nat} {outcome : Option Outcome}
    (h : phase = .leaving f outcome ∨ phase = .removed f outcome) : phase.owns = some f := by
  rcases h with rfl | rfl <;> rfl

/-- What another leader came to is not touched. -/
theorem leaving_other (hs : w.sys.Wf) (h : WakersKept w) {c c' f g : Nat} {caller : Caller}
    {outcome : Option Outcome} {end' : Option LeaderEnd} (hself : owning w.sys c = some f)
    (hc' : w.sys.callers c' = some caller) (hne : c' ≠ c)
    (hp' : caller.phase = .leaving g outcome ∨ caller.phase = .removed g outcome) :
    Function.update w.came f end' g = some (LeaderEnd.of outcome) := by
  have hother : owning w.sys c' = some g := by
    rw [owning_of_caller hc']
    exact owns_of_leaving hp'
  rw [Function.update_of_ne]
  · exact h.leaving c' caller g outcome hc' hp'
  · rintro rfl
    exact hne (owning_unique hs hother hself)

theorem leaving_of_moves (hs : w.sys.Wf) (h : WakersKept w) (hm : System.Moves p ch w.sys e t) :
    ∀ c caller f outcome, t.callers c = some caller →
      caller.phase = .leaving f outcome ∨ caller.phase = .removed f outcome →
      (w.after e t).came f = some (LeaderEnd.of outcome) := by
  intro c' caller' g outcome' hc' hp'
  cases hm with
  | park | clear => exact h.leaving c' caller' g outcome' hc' hp'
  | call | serve | join | elect | send | respond | wake | retry =>
    rcases System.caller_cases hc' with ⟨rfl, rfl⟩ | ⟨-, hc'⟩
    · rcases hp' with hp' | hp' <;> cases hp'
    · exact h.leaving c' caller' g outcome' hc' hp'
  | @finish c caller f outcome hc hp =>
    rcases System.caller_cases hc' with ⟨rfl, rfl⟩ | ⟨-, hc'⟩
    · cases outcome <;> rcases hp' with hp' | hp' <;> cases hp'
    · exact h.leaving c' caller' g outcome' hc' hp'
  | @leave c caller f hc hp =>
    simp only [after, cameAfter, phaseOf, hc, Option.map_some, hp]
    rcases System.caller_cases hc' with ⟨rfl, rfl⟩ | ⟨-, hc'⟩
    · rcases hp' with hp' | hp' <;> cases hp'
    · exact h.leaving c' caller' g outcome' hc' hp'
  | @release c caller f outcome hc hp =>
    rcases System.caller_cases hc' with ⟨rfl, rfl⟩ | ⟨-, hc'⟩
    · rcases hp' with hp' | hp'
      · cases hp'
      · cases hp'
        exact h.leaving _ _ _ _ hc (.inl hp)
    · exact h.leaving c' caller' g outcome' hc' hp'
  | @record c caller f now pem start stop hc hp =>
    have hself : owning w.sys c = some f := by rw [owning_of_caller hc, hp]; rfl
    simp only [after, cameAfter, phaseOf, hc, Option.map_some, hp]
    rcases System.caller_cases hc' with ⟨rfl, rfl⟩ | ⟨hne, hc'⟩
    · rcases hp' with hp' | hp'
      · cases hp'
        rw [Function.update_self, Cache.hold_snd]
        rfl
      · cases hp'
    · exact leaving_other hs h hself hc' hne hp'
  | @fail c caller f now error hc hp =>
    have hself : owning w.sys c = some f := by rw [owning_of_caller hc, hp]; rfl
    simp only [after, cameAfter, phaseOf, hc, Option.map_some, hp]
    rcases System.caller_cases hc' with ⟨rfl, rfl⟩ | ⟨hne, hc'⟩
    · rcases hp' with hp' | hp'
      · cases hp'
        rw [Function.update_self]
        rfl
      · cases hp'
    · exact leaving_other hs h hself hc' hne hp'
  | @abandon c caller f hc hp =>
    have hself : owning w.sys c = some f := by rw [owning_of_caller hc, hp]; rfl
    simp only [after, cameAfter, phaseOf, hc, Option.map_some, hp]
    rcases System.caller_cases hc' with ⟨rfl, rfl⟩ | ⟨hne, hc'⟩
    · rcases hp' with hp' | hp'
      · cases hp'
        rw [Function.update_self]
        rfl
      · cases hp'
    · exact leaving_other hs h hself hc' hne hp'

theorem came_of_moves (h : WakersKept w) (hm : System.Moves p ch w.sys e t) :
    ∀ f < t.nextFlight, (t.flights f).finished = true →
      (w.after e t).came f = some (LeaderEnd.of (t.flights f).outcome) := by
  intro g hg hfinished
  -- the leader that came to something has not ended its fetch
  have hother : ∀ {c f : Nat} {end' : Option LeaderEnd}, owning w.sys c = some f →
      g < w.sys.nextFlight → (w.sys.flights g).finished = true →
      Function.update w.came f end' g = some (LeaderEnd.of (w.sys.flights g).outcome) := by
    intro c f end' hself hlt hended
    rw [Function.update_of_ne]
    · exact h.came g hlt hended
    · rintro rfl
      exact (h.finished g hlt).mp hended c hself
  cases hm with
  | call | serve | join | respond | release | wake | retry | clear => exact h.came g hg hfinished
  | @leave c caller f hc hp =>
    simp only [after, cameAfter, phaseOf, hc, Option.map_some, hp]
    exact h.came g hg hfinished
  | @elect c caller hc hp =>
    rcases Nat.lt_or_eq_of_le (Nat.le_of_lt_succ hg) with hlt | rfl
    · rw [System.flights_elect hlt] at hfinished ⊢
      exact h.came g hlt hfinished
    · rw [System.flights_elect_new] at hfinished
      cases hfinished
  | @send c caller f hc hp =>
    rw [System.finished_send] at hfinished
    rw [System.outcome_send]
    exact h.came g hg hfinished
  | @park c caller f waker hc hp =>
    rw [System.finished_park] at hfinished
    rw [System.outcome_park]
    exact h.came g hg hfinished
  | @finish c caller f outcome hc hp =>
    by_cases hgf : g = f
    · subst hgf
      simp only [System.finish, Function.update_self]
      exact h.leaving c caller g outcome hc (.inr hp)
    · rw [System.flights_finish hgf] at hfinished ⊢
      exact h.came g hg hfinished
  | @record c caller f now pem start stop hc hp | @fail c caller f now error hc hp
  | @abandon c caller f hc hp =>
    simp only [after, cameAfter, phaseOf, hc, Option.map_some, hp]
    exact hother (c := c) (by rw [owning_of_caller hc, hp]; rfl) hg hfinished

/-! ## Every run -/

theorem wakersKept_of_event (hs : w.sys.Wf) (h : WakersKept w)
    (hstep : System.step p ch w.sys e = some t) :
    WakersKept (w.after e t) := by
  have hm := System.moves_of_step hstep
  refine ⟨?_, finishedOnce_of_moves hs h.finished hm, leaving_of_moves hs h hm, came_of_moves h hm,
    entriesLive_of_moves h.entries hm⟩
  by_cases hpoll : ∃ c waker, e = .poll c waker
  · obtain ⟨c, waker, rfl⟩ := hpoll
    obtain ⟨caller, f, hc, hp, rfl⟩ := poll_of_step hstep
    unfold System.poll
    split
    · split
      · exact waits_of_ready h.registered fun _ => Phase.noConfusion
      · exact waits_of_ready h.registered fun _ => Phase.noConfusion
    · rename_i hunfinished
      exact waits_of_park h.registered hc hp (by simpa using hunfinished)
  · exact waits_of_moves hs h hm fun c waker he => hpoll ⟨c, waker, he⟩

/-- A waker woken was taken. -/
theorem wakersKept_of_wake (h : WakersKept w) {f waker : Nat} {rest : List Nat}
    (htaken : w.taken f = waker :: rest) :
    WakersKept { w with
      taken := Function.update w.taken f rest
      woken := Function.update w.woken f (w.woken f ++ [waker]) } := by
  refine ⟨?_, h.finished, h.leaving, h.came, h.entries⟩
  intro c other hlatest
  obtain ⟨caller, g, hc, hp, hreg⟩ := h.registered c other hlatest
  refine ⟨caller, g, hc, hp, ?_⟩
  by_cases hgf : g = f
  · subst hgf
    rcases hreg with hbefore | ⟨hfinished, hmem⟩
    · exact .inl hbefore
    · refine .inr ⟨hfinished, ?_⟩
      simp only [Function.update_self, List.mem_append, List.mem_singleton]
      rw [htaken, List.mem_cons] at hmem
      rcases hmem with (hhead | hrest) | hwoken
      · exact .inr (.inr hhead)
      · exact .inl hrest
      · exact .inr (.inl hwoken)
  · unfold Registered
    simp only [Function.update_of_ne hgf]
    exact hreg

theorem wakersKept_of_step {event : WakeEvent} (hs : w.sys.Wf) (h : WakersKept w)
    (hstep : step p ch w event = some w') : w'.sys.Wf ∧ WakersKept w' := by
  cases event with
  | event e =>
    obtain ⟨t, ht, rfl⟩ := Option.map_eq_some_iff.mp hstep
    exact ⟨System.wf_of_moves hs (System.moves_of_step ht), wakersKept_of_event hs h ht⟩
  | wake f =>
    simp only [step] at hstep
    split at hstep
    · cases hstep
    · rename_i waker rest htaken
      cases hstep
      exact ⟨hs, wakersKept_of_wake h htaken⟩

theorem wakersKept_init : WakersKept init where
  registered c waker h := by cases h
  finished f hf := absurd hf (Nat.not_lt_zero f)
  leaving c caller f outcome h := by
    simp [init, System.init] at h
  came f hf := absurd hf (Nat.not_lt_zero f)
  entries url f h := by
    simp [init, System.init, Cache.empty] at h

theorem wakersKept_of_reach {allow : Wakes → WakeEvent → Prop}
    (h : Reach (step p ch) allow init w) :
    w.sys.Wf ∧ WakersKept w :=
  h.invariant (P := fun w => w.sys.Wf ∧ WakersKept w) ⟨System.wf_init, wakersKept_init⟩
    fun _ _ _ hw _ hstep => wakersKept_of_step hw.1 hw.2 hstep

/-! ## No waiter is lost or misinformed -/

/-- No waiter is lost or misinformed. -/
structure NoneLost (p : P256) (ch : Chrono) (w : Wakes) : Prop where
  /-- While the leader is not done, the waker of a pending poll is left for its end to take. -/
  left : ∀ c f waker, phaseOf w.sys c = some (.waiting f) → w.latest c = some waker →
    ¬ LeaderEnded w.sys f → waker ∈ (w.sys.flights f).wakers
  /-- Once the leader is done and has woken whom it took, that waker was woken. -/
  woken : ∀ c f waker, phaseOf w.sys c = some (.waiting f) → w.latest c = some waker →
    LeaderEnded w.sys f → w.taken f = [] → waker ∈ w.woken f
  /-- Every poll after the leader is done is ready, with what the leader came to. -/
  ready : ∀ c f waker, phaseOf w.sys c = some (.waiting f) → LeaderEnded w.sys f →
    ∃ end' t, w.came f = some end' ∧ System.step p ch w.sys (.poll c waker) = some t ∧
      phaseOf t c = some (end'.goesOn f)
  /-- Whoever returned from a fetch, its leader too, returned what the leader came to. -/
  told : ∀ c f result, phaseOf w.sys c = some (.returned (.fetched f) result) →
    ∃ o, w.came f = some (.outcome o) ∧ result = System.returns o
  /-- A caller that goes round again finds a held key, a fetch whose leader is live, or none and
  leads one. -/
  again : ∀ c caller, w.sys.callers c = some caller → caller.phase = .looking →
    ∃ t, System.step p ch w.sys (.turn c) = some t ∧
      ((∃ answer, w.sys.heldFor caller = some answer ∧
          phaseOf t c = some (.returned (.held (w.sys.sources caller answer)) (.ok answer))) ∨
        (∃ f leader, phaseOf t c = some (.waiting f) ∧
          w.sys.leading leader = some (caller.url, f)) ∨
        phaseOf t c = some (.elected w.sys.nextFlight))

theorem phaseOf_eq_some {c : Nat} {phase : Phase} (h : phaseOf s c = some phase) :
    ∃ caller, s.callers c = some caller ∧ caller.phase = phase :=
  Option.map_eq_some_iff.mp h

theorem phaseOf_setPhase (c : Nat) (caller : Caller) (q : Phase) :
    phaseOf (s.setPhase c caller q) c = some q := by
  simp [phaseOf, System.setPhase]

theorem lt_of_waiting (hs : s.Wf) {c f : Nat} (h : phaseOf s c = some (.waiting f)) :
    f < s.nextFlight := by
  obtain ⟨caller, hc, hp⟩ := phaseOf_eq_some h
  exact ((hs.caller c caller hc).flight f (by rw [hp]; rfl)).1

/-- The waker of a waiter is registered with the very fetch it waits on. -/
theorem registered_of_waiting (h : WakersKept w) {c f waker : Nat}
    (hphase : phaseOf w.sys c = some (.waiting f)) (hlatest : w.latest c = some waker) :
    w.Registered f waker := by
  obtain ⟨caller, hc, hp⟩ := phaseOf_eq_some hphase
  obtain ⟨caller', g, hc', hp', hreg⟩ := h.registered c waker hlatest
  rw [hc] at hc'
  cases hc'
  rw [hp] at hp'
  cases hp'
  exact hreg

/-- A poll of a fetch whose leader is done answers what the leader came to. -/
theorem ready_of_wakersKept (hs : w.sys.Wf) (h : WakersKept w) {c f waker : Nat}
    (hphase : phaseOf w.sys c = some (.waiting f)) (hended : LeaderEnded w.sys f) :
    ∃ end' t, w.came f = some end' ∧ System.step p ch w.sys (.poll c waker) = some t ∧
      phaseOf t c = some (end'.goesOn f) := by
  have hlt := lt_of_waiting hs hphase
  have hfinished := (h.finished f hlt).mpr hended
  obtain ⟨caller, hc, hp⟩ := phaseOf_eq_some hphase
  refine ⟨_, w.sys.poll c caller f waker, h.came f hlt hfinished, ?_, ?_⟩
  · simp only [System.step, hc, Option.bind_some, hp]
  · unfold System.poll
    rw [if_pos hfinished]
    cases (w.sys.flights f).outcome with
    | some o => exact phaseOf_setPhase _ _ _
    | none => exact phaseOf_setPhase _ _ _

/-- What a fetch ended with is what its leader came to. -/
theorem outcome_of_wakersKept (hs : w.sys.Wf) (h : WakersKept w) {c f : Nat}
    {result : Except Error KeyAnswer}
    (hphase : phaseOf w.sys c = some (.returned (.fetched f) result)) :
    ∃ o, w.came f = some (.outcome o) ∧ result = System.returns o := by
  obtain ⟨caller, hc, hp⟩ := phaseOf_eq_some hphase
  obtain ⟨o, houtcome, hresult⟩ := hs.ended c caller f result hc hp
  have hlt := ((hs.caller c caller hc).flight f (by rw [hp]; rfl)).1
  have hended : LeaderEnded w.sys f := by
    intro c' howning
    obtain ⟨caller', hc', howns⟩ := Option.bind_eq_some_iff.mp howning
    rw [hs.pending c' caller' f hc' howns] at houtcome
    cases houtcome
  refine ⟨o, ?_, hresult⟩
  rw [h.came f hlt ((h.finished f hlt).mpr hended), houtcome]
  rfl

/-- **No waiter is lost or misinformed**, whatever the callers, the transport, the polls and
`clear_cache` do. -/
theorem noneLost_of_reach {allow : Wakes → WakeEvent → Prop}
    (h : Reach (step p ch) allow init w) : NoneLost p ch w := by
  obtain ⟨hs, hk⟩ := wakersKept_of_reach h
  refine ⟨?_, ?_, ?_, ?_, ?_⟩
  · intro c f waker hphase hlatest hleads
    rcases registered_of_waiting hk hphase hlatest with ⟨-, hmem⟩ | ⟨hfinished, -⟩
    · exact hmem
    · exact absurd ((hk.finished f (lt_of_waiting hs hphase)).mp hfinished) hleads
  · intro c f waker hphase hlatest hended hnone
    have hfinished := (hk.finished f (lt_of_waiting hs hphase)).mpr hended
    rcases registered_of_waiting hk hphase hlatest with ⟨hunfinished, -⟩ | ⟨-, htaken | hwoken⟩
    · rw [hfinished] at hunfinished
      cases hunfinished
    · rw [hnone] at htaken
      cases htaken
    · exact hwoken
  · intro c f waker hphase hended
    exact ready_of_wakersKept hs hk hphase hended
  · intro c f result hphase
    exact outcome_of_wakersKept hs hk hphase
  · intro c caller hc hp
    refine ⟨w.sys.turn c caller, by simp only [System.step, hc, Option.bind_some, hp], ?_⟩
    unfold System.turn
    cases hheld : w.sys.heldFor caller with
    | some answer => exact .inl ⟨answer, rfl, phaseOf_setPhase _ _ _⟩
    | none =>
      cases hentry : w.sys.cache.inFlight.lookup caller.url with
      | some f =>
        obtain ⟨leader, hleads⟩ := hk.entries caller.url f hentry
        exact .inr (.inl ⟨f, leader, phaseOf_setPhase _ _ _, hleads⟩)
      | none => exact .inr (.inr (phaseOf_setPhase _ _ _))

/-! ## A leader dropped -/

/-- Caller 2 polls twice, with another waker the second time, and the leader is dropped. -/
def leaderDropped : List WakeEvent :=
  [.event (.call 1 System.askedUrl baseDate), .event (.turn 1), .event (.send 1),
    .event (.call 2 System.askedUrl baseDate), .event (.turn 2), .event (.poll 2 7),
    .event (.poll 2 8), .event (.drop 1), .event (.release 1), .event (.finish 1), .wake 0, .wake 0]

theorem noneLost_of_reach_dropped :
    ∃ w, leaderDropped.foldlM (step sampleP256 sampleChrono) init = some w ∧
      NoneLost sampleP256 sampleChrono w ∧ w.latest 2 = some 8 ∧ w.woken 0 = [7, 8] ∧
      ∃ t, System.step sampleP256 sampleChrono w.sys (.poll 2 9) = some t ∧
        phaseOf t 2 = some .looking := by
  obtain ⟨w, hw⟩ : ∃ w, leaderDropped.foldlM (step sampleP256 sampleChrono) init = some w :=
    ⟨_, rfl⟩
  have hreach : Reach (step sampleP256 sampleChrono) (fun _ _ => True) init w :=
    reach_of_foldlM (fun _ _ => trivial) hw
  refine ⟨w, hw, noneLost_of_reach hreach, ?_⟩
  cases hw
  exact ⟨rfl, rfl, _, rfl, rfl⟩

end Wakes

end OwidRust
