import Mathlib.Logic.Function.Basic
import OwidRust.Lib.Runs
import OwidRust.Fetch.Request

/-!
# Callers, fetches and the shared cache

`key_at_url` of `src/fetch.rs` as it runs beside other callers: any number of callers, each at a
point of its own between two takings of a lock, the cache they share and the fetches under way.
An event is one stretch of code under a lock, an answer of the transport, the dropping of a caller
at a point where it waits, or a call of `clear_cache`.

The record of a fetch carries, beside what `InFlightState` holds, the URL it is for and how often
the cache had been cleared before it was put up and before its request was sent.  A caller carries
how often it had been cleared before it was called, and an answered one where its key came from.
No transition reads any of these.

* `Moves` — all that an event can do, case by case;
* `moves_of_step` — a step does one of these.
-/

namespace OwidRust

open Runs

/-- What a fetch ended with. -/
abbrev Outcome := Except FetchFailure KeyAnswer

/-- `InFlight`, with the record kept of it. -/
structure Flight where
  finished : Bool
  outcome : Option Outcome
  wakers : List Nat
  /-- The URL it is for. -/
  url : String
  /-- How often the cache had been cleared when it was put up. -/
  born : Nat
  /-- How often the cache had been cleared when its request was sent. -/
  sent : Option Nat

/-- Where an answer came from: a held key, with the fetches recorded for it, or a fetch. -/
inductive Route where
  | held (sources : List Nat)
  | fetched (flight : Nat)
  deriving DecidableEq

/-- The points of `key_at_url` a caller can be at. -/
inductive Phase where
  /-- At the head of the loop. -/
  | looking
  /-- `Turn::Wait`. -/
  | waiting (flight : Nat)
  /-- `Turn::Lead`, the request not sent. -/
  | elected (flight : Nat)
  | requesting (flight : Nat)
  /-- The request read. -/
  | answered (flight : Nat) (result : Except Error (String × Option Nat × Option Nat))
  /-- The `Leader` about to be dropped, with its outcome. -/
  | leaving (flight : Nat) (outcome : Option Outcome)
  /-- The entry removed, the fetch not ended. -/
  | removed (flight : Nat) (outcome : Option Outcome)
  | returned (route : Route) (result : Except Error KeyAnswer)
  /-- Dropped. -/
  | gone

structure Caller where
  url : String
  /-- `is_recent`. -/
  recent : Bool
  /-- How often the cache had been cleared when it was called. -/
  since : Nat
  phase : Phase

structure System where
  cache : Cache Nat
  flights : Nat → Flight
  nextFlight : Nat
  callers : Nat → Option Caller
  /-- How often the cache has been cleared. -/
  epoch : Nat
  /-- For each end point and PEM, the fetches recorded since the cache was cleared. -/
  ledger : String → String → List Nat

/-- What happens, to which caller, and what the clock reads where it is read. -/
inductive Event where
  | call (c : Nat) (url : String) (now : Moment)
  | turn (c : Nat)
  | send (c : Nat)
  | respond (c : Nat) (response : Except Error FetchResponse)
  | record (c : Nat) (now : Moment)
  | release (c : Nat)
  | finish (c : Nat)
  | poll (c : Nat) (waker : Nat)
  | drop (c : Nat)
  | clear

/-- The flight of a leader whose `Leader` has not been dropped. -/
def Phase.leads : Phase → Option Nat
  | .elected f | .requesting f | .answered f _ | .leaving f _ => some f
  | _ => none

/-- The flight a leader has not ended yet. -/
def Phase.owns : Phase → Option Nat
  | .elected f | .requesting f | .answered f _ | .leaving f _ | .removed f _ => some f
  | _ => none

/-- The flight a phase is about. -/
def Phase.flight : Phase → Option Nat
  | .waiting f | .elected f | .requesting f | .answered f _ | .leaving f _ | .removed f _
  | .returned (.fetched f) _ => some f
  | _ => none

/-- The flight whose request was sent when the phase was reached. -/
def Phase.sent : Phase → Option Nat
  | .requesting f | .answered f _ | .leaving f _ | .removed f _ | .returned (.fetched f) _ => some f
  | _ => none

namespace System

/-- A flight not yet put up. -/
def noFlight : Flight := ⟨false, none, [], "", 0, none⟩

def init : System := ⟨.empty, fun _ => noFlight, 0, fun _ => none, 0, fun _ _ => []⟩

/-- The caller at its next point. -/
def setPhase (s : System) (c : Nat) (caller : Caller) (phase : Phase) : System :=
  { s with callers := Function.update s.callers c (some { caller with phase := phase }) }

/-- A call of `key_at_url`, up to its loop. -/
def call (s : System) (c : Nat) (url : String) (now : Moment) : System :=
  let caller := ⟨url, (minuteOf url).any (OwidRust.recent now), s.epoch, .looking⟩
  { s with callers := Function.update s.callers c (some caller) }

/-- A caller puts up a fetch of its own. -/
def elect (s : System) (c : Nat) (caller : Caller) : System :=
  { s.setPhase c caller (.elected s.nextFlight) with
    cache := { s.cache with inFlight := s.cache.inFlight.insert caller.url s.nextFlight }
    flights := Function.update s.flights s.nextFlight ⟨false, none, [], caller.url, s.epoch, none⟩
    nextFlight := s.nextFlight + 1 }

/-- The key held for the minute a caller's URL names. -/
def heldFor (s : System) (caller : Caller) : Option KeyAnswer :=
  (minuteOf caller.url).bind fun minute =>
    s.cache.heldFor (endPointOf caller.url) minute caller.recent

/-- The fetches a held key was recorded from. -/
def sources (s : System) (caller : Caller) (answer : KeyAnswer) : List Nat :=
  s.ledger (endPointOf caller.url) answer.pem

/-- A caller takes its turn: a held key, a fetch under way to wait on, or a fetch of its own. -/
def turn (s : System) (c : Nat) (caller : Caller) : System :=
  match s.heldFor caller with
  | some answer =>
    s.setPhase c caller (.returned (.held (s.sources caller answer)) (.ok answer))
  | none =>
    match s.cache.inFlight.lookup caller.url with
    | some f => s.setPhase c caller (.waiting f)
    | none => s.elect c caller

def send (s : System) (c : Nat) (caller : Caller) (f : Nat) : System :=
  { s.setPhase c caller (.requesting f) with
    flights := Function.update s.flights f { s.flights f with sent := some s.epoch } }

/-- The answer of a request recorded with `hold`, at a reading of the clock. -/
def hold (s : System) (c : Nat) (caller : Caller) (f : Nat) (now : Moment) (pem : String)
    (start stop : Option Nat) : System :=
  let endPoint := endPointOf caller.url
  let held := s.cache.hold now endPoint (minuteOf caller.url) caller.recent pem start stop
  { s.setPhase c caller (.leaving f (some (.ok held.2))) with
    cache := held.1
    ledger := fun e q =>
      if e = endPoint ∧ q = pem ∧
          heldSpan now (minuteOf caller.url) caller.recent start stop ≠ none then
        s.ledger e q ++ [f]
      else s.ledger e q }

/-- `Leader::drop` removes the entry for the URL. -/
def release (s : System) (c : Nat) (caller : Caller) (f : Nat) (outcome : Option Outcome) :
    System :=
  { s.setPhase c caller (.removed f outcome) with
    cache := { s.cache with inFlight := s.cache.inFlight.erase caller.url } }

/-- What a caller returns for an outcome. -/
def returns : Outcome → Except Error KeyAnswer
  | .ok answer => .ok answer
  | .error failure => .error failure.intoError

/-- `Leader::drop` ends the fetch, and the leader returns where it was not dropped. -/
def finish (s : System) (c : Nat) (caller : Caller) (f : Nat) (outcome : Option Outcome) :
    System :=
  { s.setPhase c caller (match outcome with
      | some outcome => .returned (.fetched f) (returns outcome)
      | none => .gone) with
    flights := Function.update s.flights f
      { s.flights f with finished := true, outcome := outcome, wakers := [] } }

/-- A waiting caller leaves its waker, once. -/
def park (s : System) (f waker : Nat) : System :=
  { s with
    flights := Function.update s.flights f
      { s.flights f with wakers := (s.flights f).wakers.filter (· != waker) ++ [waker] } }

/-- `Finished::poll`, and the loop of the caller where it is ready. -/
def poll (s : System) (c : Nat) (caller : Caller) (f waker : Nat) : System :=
  if (s.flights f).finished then
    match (s.flights f).outcome with
    | some outcome => s.setPhase c caller (.returned (.fetched f) (returns outcome))
    | none => s.setPhase c caller .looking
  else s.park f waker

def clear (s : System) : System :=
  { s with
    cache := s.cache.clear
    epoch := s.epoch + 1
    ledger := fun _ _ => [] }

/-- One event, where it can happen. -/
def step (p : P256) (ch : Chrono) (s : System) : Event → Option System
  | .call c url now =>
    match s.callers c with
    | none => some (s.call c url now)
    | some _ => none
  | .turn c =>
    (s.callers c).bind fun caller =>
      match caller.phase with
      | .looking => some (s.turn c caller)
      | _ => none
  | .send c =>
    (s.callers c).bind fun caller =>
      match caller.phase with
      | .elected f => some (s.send c caller f)
      | _ => none
  | .respond c response =>
    (s.callers c).bind fun caller =>
      match caller.phase with
      | .requesting f =>
        some (s.setPhase c caller (.answered f (requestPublicKey p ch caller.url response)))
      | _ => none
  | .record c now =>
    (s.callers c).bind fun caller =>
      match caller.phase with
      | .answered f (.ok (pem, start, stop)) => some (s.hold c caller f now pem start stop)
      | .answered f (.error e) =>
        some (s.setPhase c caller (.leaving f (some (.error (FetchFailure.ofError e)))))
      | _ => none
  | .release c =>
    (s.callers c).bind fun caller =>
      match caller.phase with
      | .leaving f outcome => some (s.release c caller f outcome)
      | _ => none
  | .finish c =>
    (s.callers c).bind fun caller =>
      match caller.phase with
      | .removed f outcome => some (s.finish c caller f outcome)
      | _ => none
  | .poll c waker =>
    (s.callers c).bind fun caller =>
      match caller.phase with
      | .waiting f => some (s.poll c caller f waker)
      | _ => none
  | .drop c =>
    (s.callers c).bind fun caller =>
      match caller.phase with
      | .waiting _ => some (s.setPhase c caller .gone)
      | .requesting f => some (s.setPhase c caller (.leaving f none))
      | _ => none
  | .clear => some s.clear

/-! ## What an event can do -/

/-- All that an event can do. -/
inductive Moves (p : P256) (ch : Chrono) (s : System) : Event → System → Prop where
  | call {c url now} (hnew : s.callers c = none) : Moves p ch s (.call c url now) (s.call c url now)
  | serve {c caller answer} (hc : s.callers c = some caller) (hp : caller.phase = .looking)
    (hheld : s.heldFor caller = some answer) :
    Moves p ch s (.turn c)
      (s.setPhase c caller (.returned (.held (s.sources caller answer)) (.ok answer)))
  | join {c caller f} (hc : s.callers c = some caller) (hp : caller.phase = .looking)
    (hheld : s.heldFor caller = none) (hentry : s.cache.inFlight.lookup caller.url = some f) :
    Moves p ch s (.turn c) (s.setPhase c caller (.waiting f))
  | elect {c caller} (hc : s.callers c = some caller) (hp : caller.phase = .looking)
    (hheld : s.heldFor caller = none) (hentry : s.cache.inFlight.lookup caller.url = none) :
    Moves p ch s (.turn c) (s.elect c caller)
  | send {c caller f} (hc : s.callers c = some caller) (hp : caller.phase = .elected f) :
    Moves p ch s (.send c) (s.send c caller f)
  | respond {c caller f response} (hc : s.callers c = some caller)
    (hp : caller.phase = .requesting f) :
    Moves p ch s (.respond c response)
      (s.setPhase c caller (.answered f (requestPublicKey p ch caller.url response)))
  | record {c caller f now pem start stop} (hc : s.callers c = some caller)
    (hp : caller.phase = .answered f (.ok (pem, start, stop))) :
    Moves p ch s (.record c now) (s.hold c caller f now pem start stop)
  | fail {c caller f now e} (hc : s.callers c = some caller)
    (hp : caller.phase = .answered f (.error e)) :
    Moves p ch s (.record c now)
      (s.setPhase c caller (.leaving f (some (.error (FetchFailure.ofError e)))))
  | release {c caller f outcome} (hc : s.callers c = some caller)
    (hp : caller.phase = .leaving f outcome) :
    Moves p ch s (.release c) (s.release c caller f outcome)
  | finish {c caller f outcome} (hc : s.callers c = some caller)
    (hp : caller.phase = .removed f outcome) :
    Moves p ch s (.finish c) (s.finish c caller f outcome)
  | wake {c caller f waker outcome} (hc : s.callers c = some caller)
    (hp : caller.phase = .waiting f) (houtcome : (s.flights f).outcome = some outcome) :
    Moves p ch s (.poll c waker)
      (s.setPhase c caller (.returned (.fetched f) (returns outcome)))
  | retry {c caller f waker} (hc : s.callers c = some caller) (hp : caller.phase = .waiting f) :
    Moves p ch s (.poll c waker) (s.setPhase c caller .looking)
  | park {c caller f waker} (hc : s.callers c = some caller) (hp : caller.phase = .waiting f) :
    Moves p ch s (.poll c waker) (s.park f waker)
  | leave {c caller f} (hc : s.callers c = some caller) (hp : caller.phase = .waiting f) :
    Moves p ch s (.drop c) (s.setPhase c caller .gone)
  | abandon {c caller f} (hc : s.callers c = some caller) (hp : caller.phase = .requesting f) :
    Moves p ch s (.drop c) (s.setPhase c caller (.leaving f none))
  | clear : Moves p ch s .clear s.clear

variable {p : P256} {ch : Chrono} {s t : System} {e : Event}

theorem moves_turn {c : Nat} {caller : Caller} (hc : s.callers c = some caller)
    (hp : caller.phase = .looking) : Moves p ch s (.turn c) (s.turn c caller) := by
  unfold turn
  split
  · rename_i answer hheld
    exact .serve hc hp hheld
  · rename_i hheld
    split
    · rename_i f hentry
      exact .join hc hp hheld hentry
    · rename_i hentry
      exact .elect hc hp hheld hentry

theorem moves_poll {c waker f : Nat} {caller : Caller} (hc : s.callers c = some caller)
    (hp : caller.phase = .waiting f) : Moves p ch s (.poll c waker) (s.poll c caller f waker) := by
  unfold poll
  split
  · split
    · rename_i outcome houtcome
      exact .wake hc hp houtcome
    · exact .retry hc hp
  · exact .park hc hp

/-- **A step does one of these.** -/
theorem moves_of_step (h : step p ch s e = some t) : Moves p ch s e t := by
  cases e with
  | call c url now =>
    simp only [step] at h
    split at h
    · rename_i hnew
      cases h
      exact .call hnew
    · cases h
  | clear =>
    cases h
    exact .clear
  | turn c =>
    obtain ⟨caller, hc, hphase⟩ := Option.bind_eq_some_iff.mp h
    split at hphase
    · rename_i hp
      cases hphase
      exact moves_turn hc hp
    · cases hphase
  | send c =>
    obtain ⟨caller, hc, hphase⟩ := Option.bind_eq_some_iff.mp h
    split at hphase
    · rename_i hp
      cases hphase
      exact .send hc hp
    · cases hphase
  | respond c response =>
    obtain ⟨caller, hc, hphase⟩ := Option.bind_eq_some_iff.mp h
    split at hphase
    · rename_i hp
      cases hphase
      exact .respond hc hp
    · cases hphase
  | record c now =>
    obtain ⟨caller, hc, hphase⟩ := Option.bind_eq_some_iff.mp h
    split at hphase
    · rename_i hp
      cases hphase
      exact .record hc hp
    · rename_i hp
      cases hphase
      exact .fail hc hp
    · cases hphase
  | release c =>
    obtain ⟨caller, hc, hphase⟩ := Option.bind_eq_some_iff.mp h
    split at hphase
    · rename_i hp
      cases hphase
      exact .release hc hp
    · cases hphase
  | finish c =>
    obtain ⟨caller, hc, hphase⟩ := Option.bind_eq_some_iff.mp h
    split at hphase
    · rename_i hp
      cases hphase
      exact .finish hc hp
    · cases hphase
  | poll c waker =>
    obtain ⟨caller, hc, hphase⟩ := Option.bind_eq_some_iff.mp h
    split at hphase
    · rename_i hp
      cases hphase
      exact moves_poll hc hp
    · cases hphase
  | drop c =>
    obtain ⟨caller, hc, hphase⟩ := Option.bind_eq_some_iff.mp h
    split at hphase
    · rename_i hp
      cases hphase
      exact .leave hc hp
    · rename_i hp
      cases hphase
      exact .abandon hc hp
    · cases hphase

end System

end OwidRust
