import OwidRust.Fetch.CacheInv
import OwidRust.Fetch.System

/-!
# The well-formedness of the shared state

What holds in every state reached, whatever the callers, the transport and `clear_cache` do.

* `Keeps`, `keeps_of_moves` — fetches are never forgotten, nor what is recorded of them;
* `CallerWf`, `FlightWf` — what a caller at a point and a fetch satisfy;
* `Wf`, `wf_of_moves`, `wf_next` — the invariant of the whole state.
-/

namespace OwidRust

open Runs

namespace System

variable {p : P256} {ch : Chrono} {s t : System} {e : Event}

/-- Later states know every fetch of earlier ones as what it was. -/
structure Keeps (s t : System) : Prop where
  next : s.nextFlight ≤ t.nextFlight
  epoch : s.epoch ≤ t.epoch
  url : ∀ f < s.nextFlight, (t.flights f).url = (s.flights f).url
  born : ∀ f < s.nextFlight, (t.flights f).born = (s.flights f).born
  sent : ∀ f < s.nextFlight, ∀ n, (s.flights f).sent = some n → (t.flights f).sent = some n

structure CallerWf (s : System) (caller : Caller) : Prop where
  since_le : caller.since ≤ s.epoch
  flight : ∀ f, caller.phase.flight = some f →
    f < s.nextFlight ∧ (s.flights f).url = caller.url ∧ caller.since ≤ (s.flights f).born
  sent : ∀ f, caller.phase.sent = some f → ∃ n, (s.flights f).sent = some n

structure FlightWf (s : System) (f : Nat) : Prop where
  born_le : (s.flights f).born ≤ s.epoch
  sent_le : ∀ n, (s.flights f).sent = some n → (s.flights f).born ≤ n ∧ n ≤ s.epoch
  outcome : ∀ o, (s.flights f).outcome = some o → ∃ n, (s.flights f).sent = some n

structure Wf (s : System) : Prop where
  caller : ∀ c caller, s.callers c = some caller → CallerWf s caller
  unsent : ∀ c caller f, s.callers c = some caller → caller.phase = .elected f →
    (s.flights f).sent = none
  owner : ∀ c c' caller caller' f, s.callers c = some caller → s.callers c' = some caller' →
    caller.phase.owns = some f → caller'.phase.owns = some f → c = c'
  flight : ∀ f < s.nextFlight, FlightWf s f
  entry : ∀ url f, s.cache.inFlight.lookup url = some f →
    f < s.nextFlight ∧ (s.flights f).url = url ∧ (s.flights f).born = s.epoch
  pending : ∀ c caller f, s.callers c = some caller → caller.phase.owns = some f →
    (s.flights f).outcome = none
  /-- Whoever returned from a fetch returned what it ended with. -/
  ended : ∀ c caller f result, s.callers c = some caller →
    caller.phase = .returned (.fetched f) result →
    ∃ outcome, (s.flights f).outcome = some outcome ∧ result = returns outcome

/-! ## Phases -/

theorem flight_of_owns {phase : Phase} {f : Nat} (h : phase.owns = some f) :
    phase.flight = some f := by
  cases phase <;> first | exact h | cases h

theorem owns_of_leads {phase : Phase} {f : Nat} (h : phase.leads = some f) :
    phase.owns = some f := by
  cases phase <;> first | exact h | cases h

theorem flight_of_sent {phase : Phase} {f : Nat} (h : phase.sent = some f) :
    phase.flight = some f := by
  cases phase with
  | returned route _ =>
    cases route with
    | held => cases h
    | fetched => exact h
  | requesting | answered | leaving | removed => exact h
  | looking | waiting | elected | gone => cases h

/-! ## Callers -/

/-- A caller of the next state: the one that moved, or one of before. -/
theorem caller_cases {callers : Nat → Option Caller} {c c' : Nat} {moved caller : Caller}
    (h : Function.update callers c (some moved) c' = some caller) :
    (c' = c ∧ caller = moved) ∨ (c' ≠ c ∧ callers c' = some caller) := by
  by_cases hc : c' = c
  · subst hc
    rw [Function.update_self] at h
    exact .inl ⟨rfl, (Option.some.inj h).symm⟩
  · rw [Function.update_of_ne hc] at h
    exact .inr ⟨hc, h⟩

/-- What is read off each caller by itself changes for the one that moved. -/
theorem readOff_update {α : Type} (g : Caller → Option α) {callers callers' : Nat → Option Caller}
    {c : Nat} {moved : Caller} (h : callers' = Function.update callers c (some moved)) :
    (fun c' => (callers' c').bind g) =
      Function.update (fun c' => (callers c').bind g) c (g moved) := by
  funext c'
  by_cases hc : c' = c
  · subst hc
    simp only [h, Function.update_self, Option.bind_some]
  · simp only [h, Function.update_of_ne hc]

/-- A caller that moves on and shows the same, or a new one that shows nothing, changes nothing. -/
theorem readOff_same {α : Type} (g : Caller → Option α) {callers callers' : Nat → Option Caller}
    {c : Nat} {moved : Caller} (h : callers' = Function.update callers c (some moved))
    (hsame : g moved = (callers c).bind g) :
    (fun c' => (callers' c').bind g) = fun c' => (callers c').bind g := by
  rw [readOff_update g h, Function.update_eq_self_iff]
  exact hsame

theorem CallerWf.mono {caller : Caller} (h : CallerWf s caller) (hk : Keeps s t) :
    CallerWf t caller := by
  refine ⟨h.since_le.trans hk.epoch, ?_, ?_⟩
  · intro f hf
    obtain ⟨hlt, hurl, hborn⟩ := h.flight f hf
    exact ⟨lt_of_lt_of_le hlt hk.next, (hk.url f hlt).trans hurl, by rwa [hk.born f hlt]⟩
  · intro f hf
    obtain ⟨n, hn⟩ := h.sent f hf
    exact ⟨n, hk.sent f (h.flight f (flight_of_sent hf)).1 n hn⟩

/-- A caller that goes on with its own flight, or without one. -/
theorem CallerWf.setPhase {caller : Caller} {phase : Phase} (h : CallerWf s caller)
    (hflight : ∀ f, phase.flight = some f → caller.phase.flight = some f)
    (hsent : ∀ f, phase.sent = some f → caller.phase.sent = some f) :
    CallerWf s { caller with phase := phase } :=
  ⟨h.since_le, fun f hf => h.flight f (hflight f hf), fun f hf => h.sent f (hsent f hf)⟩

/-- A caller that has returned a held key had returned it before, or is served it now. -/
theorem held_of_moves (hm : Moves p ch s e t) {c : Nat} {caller : Caller} {sources : List Nat}
    {result : Except Error KeyAnswer} (h : t.callers c = some caller)
    (hphase : caller.phase = .returned (.held sources) result) :
    s.callers c = some caller ∨
      ∃ before answer, s.callers c = some before ∧ s.heldFor before = some answer ∧
        caller.url = before.url ∧ caller.since = before.since ∧
        sources = s.sources before answer ∧ result = .ok answer := by
  cases hm with
  | clear | park => exact .inl h
  | call hnew =>
    rcases caller_cases h with ⟨rfl, rfl⟩ | ⟨-, h⟩
    · cases hphase
    · exact .inl h
  | @serve c' before answer hc hp hheld =>
    rcases caller_cases h with ⟨rfl, rfl⟩ | ⟨-, h⟩
    · cases hphase
      exact .inr ⟨before, answer, hc, hheld, rfl, rfl, rfl, rfl⟩
    · exact .inl h
  | @finish c' before f outcome hc hp =>
    rcases caller_cases h with ⟨rfl, rfl⟩ | ⟨-, h⟩
    · cases outcome <;> cases hphase
    · exact .inl h
  | join hc hp | elect hc hp | send hc hp | respond hc hp | record hc hp | fail hc hp
  | release hc hp | wake hc hp | retry hc hp | leave hc hp | abandon hc hp =>
    rcases caller_cases h with ⟨rfl, rfl⟩ | ⟨-, h⟩
    · cases hphase
    · exact .inl h

/-- A caller asks what it asked when it was called. -/
theorem caller_of_moves (hm : Moves p ch s e t) {c : Nat} {caller : Caller}
    (h : t.callers c = some caller) :
    (∃ before, s.callers c = some before ∧ before.url = caller.url ∧
      before.recent = caller.recent) ∨
      ∃ url now, e = .call c url now ∧
        caller = ⟨url, (minuteOf url).any (OwidRust.recent now), s.epoch, .looking⟩ := by
  cases hm with
  | clear | park => exact .inl ⟨caller, h, rfl, rfl⟩
  | @call c' url now hnew =>
    rcases caller_cases h with ⟨rfl, rfl⟩ | ⟨-, h⟩
    · exact .inr ⟨url, now, rfl, rfl⟩
    · exact .inl ⟨caller, h, rfl, rfl⟩
  | serve hc | join hc | elect hc | send hc | respond hc | record hc | fail hc | release hc
  | finish hc | wake hc | retry hc | leave hc | abandon hc =>
    rcases caller_cases h with ⟨rfl, rfl⟩ | ⟨-, h⟩
    · exact .inl ⟨_, hc, rfl, rfl⟩
    · exact .inl ⟨caller, h, rfl, rfl⟩

/-! ## What an event keeps -/

theorem Keeps.refl (s : System) : Keeps s s :=
  ⟨le_refl _, le_refl _, fun _ _ => rfl, fun _ _ => rfl, fun _ _ _ h => h⟩

/-- What an update of one flight leaves of it, it leaves of every flight. -/
theorem proj_update {α : Type} (π : Flight → α) {flights : Nat → Flight} {f : Nat}
    {flight : Flight} (h : π flight = π (flights f)) (g : Nat) :
    π (Function.update flights f flight g) = π (flights g) := by
  by_cases hg : g = f
  · subst hg
    rw [Function.update_self, h]
  · rw [Function.update_of_ne hg]

/-- A fetch put up leaves those of before. -/
theorem flights_elect {c g : Nat} {caller : Caller} (h : g < s.nextFlight) :
    (s.elect c caller).flights g = s.flights g :=
  Function.update_of_ne (Nat.ne_of_lt h) _ _

theorem flights_elect_new (c : Nat) (caller : Caller) :
    (s.elect c caller).flights s.nextFlight = ⟨false, none, [], caller.url, s.epoch, none⟩ :=
  Function.update_self _ _ _

theorem flights_finish {c f g : Nat} {caller : Caller} {outcome : Option Outcome} (h : g ≠ f) :
    (s.finish c caller f outcome).flights g = s.flights g :=
  Function.update_of_ne h _ _

theorem finished_finish (c : Nat) (caller : Caller) (f : Nat) (outcome : Option Outcome) :
    ((s.finish c caller f outcome).flights f).finished = true := by
  simp only [finish, Function.update_self]

theorem finished_send (c : Nat) (caller : Caller) (f g : Nat) :
    ((s.send c caller f).flights g).finished = (s.flights g).finished := by
  refine proj_update Flight.finished ?_ g
  rfl

theorem finished_park (f waker g : Nat) :
    ((s.park f waker).flights g).finished = (s.flights g).finished := by
  refine proj_update Flight.finished ?_ g
  rfl

theorem sent_park (f waker g : Nat) : ((s.park f waker).flights g).sent = (s.flights g).sent := by
  refine proj_update Flight.sent ?_ g
  rfl

theorem born_park (f waker g : Nat) : ((s.park f waker).flights g).born = (s.flights g).born := by
  refine proj_update Flight.born ?_ g
  rfl

theorem outcome_park (f waker g : Nat) :
    ((s.park f waker).flights g).outcome = (s.flights g).outcome := by
  refine proj_update Flight.outcome ?_ g
  rfl

theorem outcome_send (c : Nat) (caller : Caller) (f g : Nat) :
    ((s.send c caller f).flights g).outcome = (s.flights g).outcome := by
  refine proj_update Flight.outcome ?_ g
  rfl

theorem sent_finish (c : Nat) (caller : Caller) (f : Nat) (outcome : Option Outcome) (g : Nat) :
    ((s.finish c caller f outcome).flights g).sent = (s.flights g).sent := by
  refine proj_update Flight.sent ?_ g
  rfl

theorem born_finish (c : Nat) (caller : Caller) (f : Nat) (outcome : Option Outcome) (g : Nat) :
    ((s.finish c caller f outcome).flights g).born = (s.flights g).born := by
  refine proj_update Flight.born ?_ g
  rfl

/-- An update of one flight that leaves its record. -/
theorem keeps_update {f : Nat} {flight : Flight} (hnext : t.nextFlight = s.nextFlight)
    (hepoch : t.epoch = s.epoch) (hflights : t.flights = Function.update s.flights f flight)
    (hurl : flight.url = (s.flights f).url) (hborn : flight.born = (s.flights f).born)
    (hsent : ∀ n, (s.flights f).sent = some n → flight.sent = some n) : Keeps s t := by
  refine ⟨hnext.ge, hepoch.ge, ?_, ?_, ?_⟩
  · intro g _
    rw [hflights]
    exact proj_update Flight.url hurl g
  · intro g _
    rw [hflights]
    exact proj_update Flight.born hborn g
  · intro g _ n hn
    rw [hflights]
    by_cases hg : g = f
    · subst hg
      rw [Function.update_self]
      exact hsent n hn
    · rwa [Function.update_of_ne hg]

/-- **Fetches are never forgotten, nor what is recorded of them.** -/
theorem keeps_of_moves (hs : s.Wf) (hm : Moves p ch s e t) : Keeps s t := by
  cases hm with
  | call | serve | join | respond | record | fail | release | wake | retry | leave | abandon =>
    exact ⟨le_refl _, le_refl _, fun _ _ => rfl, fun _ _ => rfl, fun _ _ _ h => h⟩
  | clear =>
    exact ⟨le_refl _, Nat.le_succ _, fun _ _ => rfl, fun _ _ => rfl, fun _ _ _ h => h⟩
  | @elect c caller =>
    have hold : ∀ f < s.nextFlight, (s.elect c caller).flights f = s.flights f :=
      fun f hf => flights_elect hf
    refine ⟨Nat.le_succ _, le_refl _, ?_, ?_, ?_⟩
    · intro f hf
      exact congrArg Flight.url (hold f hf)
    · intro f hf
      exact congrArg Flight.born (hold f hf)
    · intro f hf n hn
      exact (congrArg Flight.sent (hold f hf)).trans hn
  | send hc hp =>
    refine keeps_update rfl rfl rfl rfl rfl ?_
    intro n hn
    rw [hs.unsent _ _ _ hc hp] at hn
    cases hn
  | finish | park => exact keeps_update rfl rfl rfl rfl rfl fun _ h => h

/-! ## The invariant is kept -/

theorem callerWf_of_moves (hs : s.Wf) (hm : Moves p ch s e t) :
    ∀ c caller, t.callers c = some caller → CallerWf t caller := by
  have hk := keeps_of_moves hs hm
  intro c' caller' h
  cases hm with
  | call hnew =>
    rcases caller_cases h with ⟨rfl, rfl⟩ | ⟨-, h⟩
    · exact ⟨le_refl _, nofun, nofun⟩
    · exact (hs.caller _ _ h).mono hk
  | clear => exact (hs.caller _ _ h).mono hk
  | park => exact (hs.caller _ _ h).mono hk
  | join hc hp hheld hentry =>
    rcases caller_cases h with ⟨rfl, rfl⟩ | ⟨-, h⟩
    · have hcaller := hs.caller _ _ hc
      obtain ⟨hlt, hurl, hborn⟩ := hs.entry _ _ hentry
      refine ⟨hcaller.since_le, ?_, nofun⟩
      rintro f ⟨⟩
      exact ⟨hlt, hurl, hborn ▸ hcaller.since_le⟩
    · exact (hs.caller _ _ h).mono hk
  | elect hc hp hheld hentry =>
    rcases caller_cases h with ⟨rfl, rfl⟩ | ⟨-, h⟩
    · have hcaller := hs.caller _ _ hc
      refine ⟨hcaller.since_le, ?_, nofun⟩
      rintro f ⟨⟩
      simp only [elect, Function.update_self]
      exact ⟨Nat.lt_succ_self _, trivial, hcaller.since_le⟩
    · exact (hs.caller _ _ h).mono hk
  | send hc hp =>
    rcases caller_cases h with ⟨rfl, rfl⟩ | ⟨-, h⟩
    · have hcaller := (hs.caller _ _ hc).mono hk
      refine ⟨hcaller.since_le, ?_, ?_⟩
      · intro f hf
        exact hcaller.flight f (by rw [hp]; exact hf)
      · rintro f ⟨⟩
        exact ⟨s.epoch, by simp [send]⟩
    · exact (hs.caller _ _ h).mono hk
  | wake hc hp houtcome =>
    rcases caller_cases h with ⟨rfl, rfl⟩ | ⟨-, h⟩
    · have hcaller := hs.caller _ _ hc
      refine ⟨hcaller.since_le, ?_, ?_⟩
      · rintro f ⟨⟩
        exact hcaller.flight _ (by rw [hp]; rfl)
      · rintro f ⟨⟩
        obtain ⟨hlt, -, -⟩ := hcaller.flight _ (by rw [hp]; rfl)
        exact (hs.flight _ hlt).outcome _ houtcome
    · exact (hs.caller _ _ h).mono hk
  | @finish c caller f outcome hc hp =>
    rcases caller_cases h with ⟨rfl, rfl⟩ | ⟨-, h⟩
    · refine ((hs.caller _ _ hc).mono hk).setPhase ?_ ?_ <;> rw [hp] <;> intro g hg <;>
        cases outcome <;> first | exact hg | cases hg
    · exact (hs.caller _ _ h).mono hk
  | serve hc hp | respond hc hp | record hc hp | fail hc hp | release hc hp | retry hc hp
  | leave hc hp | abandon hc hp =>
    rcases caller_cases h with ⟨rfl, rfl⟩ | ⟨-, h⟩
    · refine ((hs.caller _ _ hc).mono hk).setPhase ?_ ?_ <;> rw [hp] <;> intro g hg <;>
        first | exact hg | cases hg
    · exact (hs.caller _ _ h).mono hk

theorem unsent_of_moves (hs : s.Wf) (hm : Moves p ch s e t) :
    ∀ c caller f, t.callers c = some caller → caller.phase = .elected f →
      (t.flights f).sent = none := by
  intro c' caller' g h hphase
  cases hm with
  | clear => exact hs.unsent _ _ _ h hphase
  | park =>
    rw [sent_park]
    exact hs.unsent _ _ _ h hphase
  | call hnew =>
    rcases caller_cases h with ⟨rfl, rfl⟩ | ⟨-, h⟩
    · cases hphase
    · exact hs.unsent _ _ _ h hphase
  | elect hc hp hheld hentry =>
    rcases caller_cases h with ⟨rfl, rfl⟩ | ⟨-, h⟩
    · cases hphase
      simp [elect]
    · have hlt := ((hs.caller _ _ h).flight g (by rw [hphase]; rfl)).1
      rw [flights_elect hlt]
      exact hs.unsent _ _ _ h hphase
  | @send c caller f hc hp =>
    rcases caller_cases h with ⟨rfl, rfl⟩ | ⟨hne, hother⟩
    · cases hphase
    · have hg : g ≠ f := by
        intro hgf
        subst hgf
        exact hne (hs.owner _ _ _ _ g hother hc (by rw [hphase]; rfl) (by rw [hp]; rfl))
      simp only [send, Function.update_of_ne hg]
      exact hs.unsent _ _ _ hother hphase
  | @finish c caller f outcome hc hp =>
    rcases caller_cases h with ⟨rfl, rfl⟩ | ⟨-, h⟩
    · cases outcome <;> cases hphase
    · rw [sent_finish]
      exact hs.unsent _ _ _ h hphase
  | serve hc hp | join hc hp | respond hc hp | record hc hp | fail hc hp | release hc hp
  | wake hc hp | retry hc hp | leave hc hp | abandon hc hp =>
    rcases caller_cases h with ⟨rfl, rfl⟩ | ⟨-, h⟩
    · cases hphase
    · exact hs.unsent _ _ _ h hphase

/-- A caller that owns a flight owned it before, but for the one that puts it up. -/
theorem owns_of_moves (hm : Moves p ch s e t) {c : Nat} {caller : Caller} {f : Nat}
    (h : t.callers c = some caller) (ho : caller.phase.owns = some f) :
    (∃ before, s.callers c = some before ∧ before.phase.owns = some f) ∨
      f = s.nextFlight ∧ e = .turn c ∧ t.nextFlight = s.nextFlight + 1 := by
  cases hm with
  | clear | park => exact .inl ⟨caller, h, ho⟩
  | call hnew =>
    rcases caller_cases h with ⟨rfl, rfl⟩ | ⟨-, h⟩
    · cases ho
    · exact .inl ⟨caller, h, ho⟩
  | elect hc hp hheld hentry =>
    rcases caller_cases h with ⟨rfl, rfl⟩ | ⟨-, h⟩
    · cases ho
      exact .inr ⟨rfl, rfl, rfl⟩
    · exact .inl ⟨caller, h, ho⟩
  | @finish c' before g outcome hc hp =>
    rcases caller_cases h with ⟨rfl, rfl⟩ | ⟨-, h⟩
    · cases outcome <;> cases ho
    · exact .inl ⟨caller, h, ho⟩
  | send hc hp | respond hc hp | record hc hp | fail hc hp | release hc hp | abandon hc hp =>
    rcases caller_cases h with ⟨rfl, rfl⟩ | ⟨-, h⟩
    · exact .inl ⟨_, hc, by rw [hp]; exact ho⟩
    · exact .inl ⟨caller, h, ho⟩
  | serve hc hp | join hc hp | wake hc hp | retry hc hp | leave hc hp =>
    rcases caller_cases h with ⟨rfl, rfl⟩ | ⟨-, h⟩
    · cases ho
    · exact .inl ⟨caller, h, ho⟩

theorem owner_of_moves (hs : s.Wf) (hm : Moves p ch s e t) :
    ∀ c c' caller caller' f, t.callers c = some caller → t.callers c' = some caller' →
      caller.phase.owns = some f → caller'.phase.owns = some f → c = c' := by
  intro c c' caller caller' f h h' ho ho'
  have hlt : ∀ {c caller}, s.callers c = some caller → caller.phase.owns = some f →
      f < s.nextFlight := fun hc ho => ((hs.caller _ _ hc).flight f (flight_of_owns ho)).1
  rcases owns_of_moves hm h ho with ⟨before, hb, hbo⟩ | ⟨hf, he, -⟩
  · rcases owns_of_moves hm h' ho' with ⟨before', hb', hbo'⟩ | ⟨hf', -, -⟩
    · exact hs.owner _ _ _ _ f hb hb' hbo hbo'
    · exact absurd hf' (Nat.ne_of_lt (hlt hb hbo))
  · rcases owns_of_moves hm h' ho' with ⟨before', hb', hbo'⟩ | ⟨-, he', -⟩
    · exact absurd hf (Nat.ne_of_lt (hlt hb' hbo'))
    · rw [he] at he'
      cases he'
      rfl

theorem pending_of_moves (hs : s.Wf) (hm : Moves p ch s e t) :
    ∀ c caller f, t.callers c = some caller → caller.phase.owns = some f →
      (t.flights f).outcome = none := by
  intro c' caller' g h ho
  have hlt : ∀ {c caller}, s.callers c = some caller → caller.phase.owns = some g →
      g < s.nextFlight := fun hc ho => ((hs.caller _ _ hc).flight g (flight_of_owns ho)).1
  cases hm with
  | clear => exact hs.pending _ _ _ h ho
  | park =>
    rw [outcome_park]
    exact hs.pending _ _ _ h ho
  | elect hc hp hheld hentry =>
    rcases caller_cases h with ⟨rfl, rfl⟩ | ⟨-, h⟩
    · cases ho
      simp [elect]
    · rw [flights_elect (hlt h ho)]
      exact hs.pending _ _ _ h ho
  | send hc hp =>
    rw [outcome_send]
    rcases caller_cases h with ⟨rfl, rfl⟩ | ⟨-, h⟩
    · exact hs.pending _ _ _ hc (by rw [hp]; exact ho)
    · exact hs.pending _ _ _ h ho
  | @finish c caller f outcome hc hp =>
    rcases caller_cases h with ⟨rfl, rfl⟩ | ⟨hne, hother⟩
    · cases outcome <;> cases ho
    · have hg : g ≠ f := by
        intro hgf
        subst hgf
        exact hne (hs.owner _ _ _ _ g hother hc ho (by rw [hp]; rfl))
      simp only [finish, Function.update_of_ne hg]
      exact hs.pending _ _ _ hother ho
  | respond hc hp | record hc hp | fail hc hp | release hc hp | abandon hc hp =>
    rcases caller_cases h with ⟨rfl, rfl⟩ | ⟨-, h⟩
    · exact hs.pending _ _ _ hc (by rw [hp]; exact ho)
    · exact hs.pending _ _ _ h ho
  | call | serve | join | wake | retry | leave =>
    rcases caller_cases h with ⟨rfl, rfl⟩ | ⟨-, h⟩
    · cases ho
    · exact hs.pending _ _ _ h ho

theorem ended_of_moves (hs : s.Wf) (hm : Moves p ch s e t) :
    ∀ c caller f result, t.callers c = some caller →
      caller.phase = .returned (.fetched f) result →
      ∃ outcome, (t.flights f).outcome = some outcome ∧ result = returns outcome := by
  intro c' caller' g result h hphase
  cases hm with
  | clear => exact hs.ended _ _ _ _ h hphase
  | park =>
    rw [outcome_park]
    exact hs.ended _ _ _ _ h hphase
  | elect hc hp hheld hentry =>
    rcases caller_cases h with ⟨rfl, rfl⟩ | ⟨-, h⟩
    · cases hphase
    · have hlt := ((hs.caller _ _ h).flight g (by rw [hphase]; rfl)).1
      rw [flights_elect hlt]
      exact hs.ended _ _ _ _ h hphase
  | send hc hp =>
    rw [outcome_send]
    rcases caller_cases h with ⟨rfl, rfl⟩ | ⟨-, h⟩
    · cases hphase
    · exact hs.ended _ _ _ _ h hphase
  | wake hc hp houtcome =>
    rcases caller_cases h with ⟨rfl, rfl⟩ | ⟨-, h⟩
    · cases hphase
      exact ⟨_, houtcome, rfl⟩
    · exact hs.ended _ _ _ _ h hphase
  | @finish c caller f outcome hc hp =>
    rcases caller_cases h with ⟨rfl, rfl⟩ | ⟨-, h⟩
    · cases outcome with
      | none => cases hphase
      | some outcome =>
        cases hphase
        exact ⟨outcome, by simp [finish], rfl⟩
    · have hbefore := hs.ended _ _ _ _ h hphase
      -- the fetch has not ended, so nobody returned from it
      have hg : g ≠ f := by
        intro hgf
        subst hgf
        obtain ⟨o, ho, -⟩ := hbefore
        rw [hs.pending _ _ _ hc (by rw [hp]; rfl)] at ho
        cases ho
      simp only [finish, Function.update_of_ne hg]
      exact hbefore
  | call | serve | join | respond | record | fail | release | retry | leave | abandon =>
    rcases caller_cases h with ⟨rfl, rfl⟩ | ⟨-, h⟩
    · cases hphase
    · exact hs.ended _ _ _ _ h hphase

theorem flightWf_of_moves (hs : s.Wf) (hm : Moves p ch s e t) :
    ∀ f < t.nextFlight, FlightWf t f := by
  intro g hg
  cases hm with
  | call | serve | join | respond | record | fail | release | wake | retry | leave | abandon =>
    exact ⟨(hs.flight g hg).born_le, (hs.flight g hg).sent_le, (hs.flight g hg).outcome⟩
  | clear =>
    obtain ⟨hborn, hsent, houtcome⟩ := hs.flight g hg
    refine ⟨hborn.trans (Nat.le_succ _), ?_, houtcome⟩
    intro n hn
    exact ⟨(hsent n hn).1, (hsent n hn).2.trans (Nat.le_succ _)⟩
  | @elect c caller hc hp hheld hentry =>
    rcases Nat.lt_or_eq_of_le (Nat.le_of_lt_succ hg) with hlt | rfl
    · obtain ⟨hborn, hsent, houtcome⟩ := hs.flight g hlt
      have hold : (s.elect c caller).flights g = s.flights g := flights_elect hlt
      exact ⟨by rw [hold]; exact hborn, by rw [hold]; exact hsent, by rw [hold]; exact houtcome⟩
    · have hnew := flights_elect_new (s := s) c caller
      refine ⟨?_, ?_, ?_⟩
      · rw [hnew]
        exact le_refl _
      · rw [hnew]
        nofun
      · rw [hnew]
        nofun
  | @send c caller f hc hp =>
    obtain ⟨hborn, hsent, houtcome⟩ := hs.flight g hg
    by_cases hgf : g = f
    · subst hgf
      have hnew : (s.send c caller g).flights g = { s.flights g with sent := some s.epoch } :=
        Function.update_self _ _ _
      refine ⟨by rw [hnew]; exact hborn, ?_, ?_⟩
      · rw [hnew]
        rintro n ⟨⟩
        exact ⟨hborn, le_refl _⟩
      · rw [hnew]
        exact fun _ _ => ⟨_, rfl⟩
    · have hold : (s.send c caller f).flights g = s.flights g := Function.update_of_ne hgf _ _
      exact ⟨by rw [hold]; exact hborn, by rw [hold]; exact hsent, by rw [hold]; exact houtcome⟩
  | @finish c caller f outcome hc hp =>
    obtain ⟨hborn, hsent, houtcome⟩ := hs.flight g hg
    refine ⟨by rw [born_finish]; exact hborn, by rw [sent_finish, born_finish]; exact hsent, ?_⟩
    rw [sent_finish]
    by_cases hgf : g = f
    · subst hgf
      intro _ _
      exact (hs.caller _ _ hc).sent g (by rw [hp]; rfl)
    · rw [flights_finish hgf]
      exact houtcome
  | @park c caller f waker hc hp =>
    obtain ⟨hborn, hsent, houtcome⟩ := hs.flight g hg
    refine ⟨by rw [born_park]; exact hborn, by rw [sent_park, born_park]; exact hsent, ?_⟩
    rw [outcome_park, sent_park]
    exact houtcome

/-- Recording an answer leaves the fetches under way. -/
theorem inFlight_take {φ : Type} (c : Cache φ) (endPoint pem : String) (span : Span) :
    (c.take endPoint pem span).inFlight = c.inFlight := by
  have hadd : ∀ key, (c.add endPoint key).inFlight = c.inFlight := by
    intro key
    rw [Cache.add_eq]
    unfold Cache.room
    split <;> rfl
  rcases c.take_cases endPoint pem span with h | ⟨_, _, _, _, _, _, h⟩ | ⟨_, h⟩
  · rw [h]
  · rw [h]
    rfl
  · rw [h, hadd]

theorem cache_hold (c : Nat) (caller : Caller) (f : Nat) (now : Moment) (pem : String)
    (start stop : Option Nat) :
    (s.hold c caller f now pem start stop).cache =
      (s.cache.hold now (endPointOf caller.url) (minuteOf caller.url) caller.recent pem start
        stop).1 := rfl

theorem inFlight_hold (c : Nat) (caller : Caller) (f : Nat) (now : Moment) (pem : String)
    (start stop : Option Nat) :
    (s.hold c caller f now pem start stop).cache.inFlight = s.cache.inFlight := by
  simp only [hold, Cache.hold]
  split
  · rfl
  · exact inFlight_take _ _ _ _

/-- A key held after an answer was recorded was held before, or is the answer's. -/
theorem mem_heldAt_hold {c : Nat} {caller : Caller} {f : Nat} {now : Moment} {pem : String}
    {start stop : Option Nat} {endPoint : String} {k : HeldKey}
    (h : k ∈ (s.hold c caller f now pem start stop).cache.heldAt endPoint) :
    k ∈ s.cache.heldAt endPoint ∨
      ∃ span, heldSpan now (minuteOf caller.url) caller.recent start stop = some span ∧
        endPoint = endPointOf caller.url ∧
        ((∃ key ∈ s.cache.heldAt endPoint, key.pem = pem ∧ k = key.joined span) ∨
          k = span.key pem) :=
  Cache.mem_heldAt_hold h

theorem entry_of_moves (hs : s.Wf) (hm : Moves p ch s e t) :
    ∀ url f, t.cache.inFlight.lookup url = some f →
      f < t.nextFlight ∧ (t.flights f).url = url ∧ (t.flights f).born = t.epoch := by
  have hk := keeps_of_moves hs hm
  intro url g h
  -- an entry of before, where the cache was not cleared
  have hold : s.cache.inFlight.lookup url = some g → t.epoch = s.epoch →
      g < t.nextFlight ∧ (t.flights g).url = url ∧ (t.flights g).born = t.epoch := by
    intro hentry hepoch
    obtain ⟨hlt, hurl, hborn⟩ := hs.entry url g hentry
    exact ⟨lt_of_lt_of_le hlt hk.next, (hk.url g hlt).trans hurl,
      (hk.born g hlt).trans (hborn.trans hepoch.symm)⟩
  cases hm with
  | call | serve | join | send | respond | fail | finish | wake | retry | park | leave
  | abandon => exact hold h rfl
  | record hc hp =>
    rw [inFlight_hold] at h
    exact hold h rfl
  | @release c caller f outcome hc hp =>
    simp only [release] at h
    by_cases hurl : url = caller.url
    · rw [hurl, AList.lookup_erase] at h
      cases h
    · rw [AList.lookup_erase_ne hurl] at h
      exact hold h rfl
  | @elect c caller hc hp hheld hentry =>
    simp only [elect] at h
    by_cases hurl : url = caller.url
    · subst hurl
      rw [AList.lookup_insert] at h
      cases h
      simp only [elect, Function.update_self]
      exact ⟨Nat.lt_succ_self _, trivial, rfl⟩
    · rw [AList.lookup_insert_ne hurl] at h
      exact hold h rfl
  | clear => cases h

theorem wf_of_moves (hs : s.Wf) (hm : Moves p ch s e t) : t.Wf where
  caller := callerWf_of_moves hs hm
  unsent := unsent_of_moves hs hm
  owner := owner_of_moves hs hm
  flight := flightWf_of_moves hs hm
  entry := entry_of_moves hs hm
  pending := pending_of_moves hs hm
  ended := ended_of_moves hs hm

theorem wf_init : init.Wf where
  caller c caller h := by
    simp [init] at h
  unsent c caller f h := by
    simp [init] at h
  owner c c' caller caller' f h := by
    simp [init] at h
  flight f hf := absurd hf (Nat.not_lt_zero f)
  entry url f h := by
    simp [init, Cache.empty] at h
  pending c caller f h := by
    simp [init] at h
  ended c caller f result h := by
    simp [init] at h

/-- One event, passed over where it cannot happen. -/
def next (p : P256) (ch : Chrono) (s : System) (e : Event) : System := (step p ch s e).getD s

theorem wf_next (hs : s.Wf) (e : Event) : (next p ch s e).Wf := by
  rw [next]
  cases hstep : step p ch s e with
  | none => exact hs
  | some t => exact wf_of_moves hs (moves_of_step hstep)

end System

end OwidRust
