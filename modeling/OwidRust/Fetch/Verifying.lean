import OwidRust.Fetch.SystemInv
import OwidRust.Fetch.Verify

/-!
# Verifications beside one another

`Owid::verify_at_url` of `src/fetch.rs` where any number of verifications run at a time, beside any
other callers of `key_at_url`: each waits for one caller of its own at a time, and goes on from what
that caller returned.  A verification dropped is one whose caller is dropped.

The state records beside this how many requests each caller has made and what the transport has
answered.  No transition reads either.

* `verifyAtUrl_eq` — with nobody beside, a verification does what `verifyAtUrl` says;
* `Moves`, `moves_of_step` — all that an event can do;
* `shared_of_moves` — to the callers and the cache that is one event of theirs, or nothing.
-/

namespace OwidRust

open Runs

/-! ## What a verification does next -/

/-- What a verification does when it has a key, or has failed to get one. -/
inductive Next where
  | returns (result : Except Error Bool)
  /-- Asks for the key of a minute just beyond an edge, with others to try after it. -/
  | asks (minute : Nat) (tried : KeyAnswer) (beyond : Nat) (rest : List Nat)

/-- What `verify_at_url` returns where no neighbour verifies. -/
def concludes (minute : Nat) (tried : KeyAnswer) : Except Error Bool :=
  if tried.known && !tried.covers minute then .error notInForce else .ok false

/-- The loop of `neighbour_verifies`, at its head. -/
def tryNext (minute : Nat) (tried : KeyAnswer) : List Nat → Next
  | [] => .returns (concludes minute tried)
  | beyond :: rest => .asks minute tried beyond rest

/-- The minutes `neighbour_verifies` tries. -/
def toTry (minute : Nat) (tried : KeyAnswer) : List Nat :=
  if tried.known then beyond minute tried else []

section Continue

variable (p : P256) (m : Machine) (o : Owid)

/-- `verify_at_url`, once it has the answer for its own URL. -/
def afterFirst : Except Error KeyAnswer → Next
  | .error e => .returns (.error e)
  | .ok tried =>
    match o.verifyWithPublicKey p m tried.pem with
    | .error e => .returns (.error e)
    | .ok true => .returns (.ok true)
    | .ok false =>
      match minutesSinceBase o.date with
      | none => .returns (.ok false)
      | some minute => tryNext minute tried (toTry minute tried)

/-- The loop of `neighbour_verifies`, once it has the answer for a neighbour. -/
def afterNeighbour (minute : Nat) (tried : KeyAnswer) (rest : List Nat) :
    Except Error KeyAnswer → Next
  | .error _ => tryNext minute tried rest
  | .ok neighbour =>
    if neighbour.pem = tried.pem then tryNext minute tried rest
    else
      match o.verifyWithPublicKey p m neighbour.pem with
      | .ok true => .returns (.ok true)
      | _ => tryNext minute tried rest

end Continue

/-! ## With nobody beside -/

section Alone

variable {φ : Type} (p : P256) (ch : Chrono) (env : Surroundings) (m : Machine) (o : Owid)

/-- The neighbours tried one after the other, each asked for by a caller working by itself. -/
def tryAlone (endPoint : String) (minute : Nat) (tried : KeyAnswer) :
    List Nat → World φ → Except Error Bool × World φ
  | [], w => (concludes minute tried, w)
  | beyond :: rest, w =>
    let asked := keyAtUrl p ch env (keyUrlAt endPoint beyond) w
    match afterNeighbour p m o minute tried rest asked.1 with
    | .returns result => (result, asked.2)
    | .asks _ _ _ _ => tryAlone endPoint minute tried rest asked.2

variable {p ch env m o}

theorem tryAlone_eq (endPoint : String) (minute : Nat) (tried : KeyAnswer) :
    ∀ (minutes : List Nat) (w : World φ),
      tryAlone p ch env m o endPoint minute tried minutes w =
        match tryNeighbours p ch env m o endPoint tried minutes w with
        | (true, w) => (.ok true, w)
        | (false, w) => (concludes minute tried, w)
  | [], w => rfl
  | beyond :: rest, w => by
    have hrest := tryAlone_eq endPoint minute tried rest
    -- whatever is left to try, or nothing
    have hnext : ∀ w : World φ, (match tryNext minute tried rest with
        | .returns result => (result, w)
        | .asks _ _ _ _ => tryAlone p ch env m o endPoint minute tried rest w) =
          tryAlone p ch env m o endPoint minute tried rest w := by
      intro w
      cases rest <;> rfl
    rw [tryAlone, tryNeighbours]
    cases hasked : keyAtUrl p ch env (keyUrlAt endPoint beyond) w with
    | mk answer next =>
      cases answer with
      | error e => exact (hnext next).trans (hrest next)
      | ok neighbour =>
        simp only [afterNeighbour]
        by_cases hsame : neighbour.pem = tried.pem
        · simp only [hsame, if_true]
          exact (hnext next).trans (hrest next)
        · simp only [hsame, if_false]
          cases o.verifyWithPublicKey p m neighbour.pem with
          | error e => exact (hnext next).trans (hrest next)
          | ok verdict =>
            cases verdict with
            | true => rfl
            | false => exact (hnext next).trans (hrest next)

/-- **With nobody beside, a verification does what `verifyAtUrl` says.** -/
theorem verifyAtUrl_eq (url : String) (w : World φ) :
    verifyAtUrl p ch env m o url w =
      let asked := keyAtUrl p ch env url w
      match afterFirst p m o asked.1 with
      | .returns result => (result, asked.2)
      | .asks minute tried beyond rest =>
        tryAlone p ch env m o (endPointOf url) minute tried (beyond :: rest) asked.2 := by
  rw [verifyAtUrl]
  cases hasked : keyAtUrl p ch env url w with
  | mk answer next =>
    cases answer with
    | error e => rfl
    | ok tried =>
      simp only [afterFirst]
      cases o.verifyWithPublicKey p m tried.pem with
      | error e => rfl
      | ok verdict =>
        cases verdict with
        | true => rfl
        | false =>
          cases minutesSinceBase o.date with
          | none => rfl
          | some minute =>
            have htried : neighbourVerifies p ch env m o url minute tried next =
                tryNeighbours p ch env m o (endPointOf url) tried (toTry minute tried) next := by
              unfold neighbourVerifies toTry
              cases tried.known <;> rfl
            have halone : tryAlone p ch env m o (endPointOf url) minute tried (toTry minute tried)
                next = match tryNeighbours p ch env m o (endPointOf url) tried
                  (toTry minute tried) next with
                | (true, w) => (.ok true, w)
                | (false, w) =>
                  if tried.known && !tried.covers minute then (.error notInForce, w)
                  else (.ok false, w) := by
              rw [tryAlone_eq]
              unfold concludes
              split
              · rfl
              · split <;> rfl
            simp only [htried]
            refine halone.symm.trans ?_
            cases toTry minute tried <;> rfl

end Alone

/-! ## Verifications and callers -/

/-- The points at which `verify_at_url` waits for a key, with the caller it waits for. -/
inductive Stage where
  | first (caller : Nat)
  | neighbour (minute : Nat) (tried : KeyAnswer) (caller : Nat) (rest : List Nat)
  | returned (result : Except Error Bool)

structure Verifier where
  owid : Owid
  url : String
  /-- The callers it made, the latest last. -/
  asked : List Nat
  stage : Stage

structure Verifying where
  sys : System
  verifiers : Nat → Option Verifier
  /-- How many requests a caller has made of the transport. -/
  requests : Nat → Nat
  /-- What the transport answered, and to a request for which URL. -/
  answers : List (String × Except Error FetchResponse)

inductive VerifyEvent where
  | event (e : Event)
  /-- `verify_at_url` is called, and calls `key_at_url`. -/
  | verify (v c : Nat) (owid : Owid) (url : String) (now : Moment)
  /-- A verification goes on from what its caller returned, with another caller where it asks for
  a neighbour. -/
  | resume (v c : Nat) (now : Moment)

/-- What a caller returned. -/
def System.returnedBy (s : System) (c : Nat) : Option (Except Error KeyAnswer) :=
  (s.callers c).bind fun caller =>
    match caller.phase with
    | .returned _ result => some result
    | _ => none

namespace Verifying

/-- Any state of the callers and the cache, with no verification under way. -/
def start (s : System) : Verifying := ⟨s, fun _ => none, fun _ => 0, []⟩

/-- The requests made, after an event. -/
def requestsAfter (s : Verifying) : Event → Nat → Nat
  | .send c => Function.update s.requests c (s.requests c + 1)
  | _ => s.requests

/-- What the transport answered, after an event. -/
def answersAfter (s : Verifying) : Event → List (String × Except Error FetchResponse)
  | .respond c response =>
    match s.sys.callers c with
    | some caller => s.answers ++ [(caller.url, response)]
    | none => s.answers
  | _ => s.answers

def after (s : Verifying) (e : Event) (t : System) : Verifying :=
  { s with sys := t, requests := s.requestsAfter e, answers := s.answersAfter e }

/-- The verification at its next point. -/
def setVerifier (s : Verifying) (v : Nat) (verifier : Verifier) : Verifying :=
  { s with verifiers := Function.update s.verifiers v (some verifier) }

/-- A verification asks for a key through a new caller. -/
def ask (s : Verifying) (v c : Nat) (verifier : Verifier) (url : String) (stage : Stage)
    (now : Moment) : Verifying :=
  { s.setVerifier v { verifier with asked := verifier.asked ++ [c], stage := stage } with
    sys := s.sys.call c url now }

/-- What a verification does next is done. -/
def goOn (s : Verifying) (v c : Nat) (verifier : Verifier) (now : Moment) :
    Next → Option Verifying
  | .returns result => some (s.setVerifier v { verifier with stage := .returned result })
  | .asks minute tried beyond rest =>
    match s.sys.callers c with
    | none =>
      some (s.ask v c verifier (keyUrlAt (endPointOf verifier.url) beyond)
        (.neighbour minute tried c rest) now)
    | some _ => none

def step (p : P256) (ch : Chrono) (m : Machine) (s : Verifying) : VerifyEvent → Option Verifying
  | .event e => (System.step p ch s.sys e).map (s.after e)
  | .verify v c owid url now =>
    match s.verifiers v, s.sys.callers c with
    | none, none => some (s.ask v c ⟨owid, url, [], .first c⟩ url (.first c) now)
    | _, _ => none
  | .resume v c now =>
    (s.verifiers v).bind fun verifier =>
      match verifier.stage with
      | .first caller =>
        (s.sys.returnedBy caller).bind fun result =>
          s.goOn v c verifier now (afterFirst p m verifier.owid result)
      | .neighbour minute tried caller rest =>
        (s.sys.returnedBy caller).bind fun result =>
          s.goOn v c verifier now (afterNeighbour p m verifier.owid minute tried rest result)
      | .returned _ => none

/-! ## What an event can do -/

/-- The verification has what its caller returned, and this is what it does next. -/
inductive Continues (p : P256) (m : Machine) (s : System) (verifier : Verifier) : Next → Prop
  | first {caller result} (hstage : verifier.stage = .first caller)
    (hresult : s.returnedBy caller = some result) :
    Continues p m s verifier (afterFirst p m verifier.owid result)
  | neighbour {minute tried caller rest result}
    (hstage : verifier.stage = .neighbour minute tried caller rest)
    (hresult : s.returnedBy caller = some result) :
    Continues p m s verifier (afterNeighbour p m verifier.owid minute tried rest result)

/-- All that an event can do. -/
inductive Moves (p : P256) (ch : Chrono) (m : Machine) (s : Verifying) : Verifying → Prop
  | shared {e t} (hm : System.Moves p ch s.sys e t) : Moves p ch m s (s.after e t)
  | verify {v c owid url now} (hv : s.verifiers v = none) (hc : s.sys.callers c = none) :
    Moves p ch m s (s.ask v c ⟨owid, url, [], .first c⟩ url (.first c) now)
  | returns {v verifier result} (hv : s.verifiers v = some verifier)
    (hnext : Continues p m s.sys verifier (.returns result)) :
    Moves p ch m s (s.setVerifier v { verifier with stage := .returned result })
  | asks {v c now verifier minute tried beyond rest} (hv : s.verifiers v = some verifier)
    (hc : s.sys.callers c = none)
    (hnext : Continues p m s.sys verifier (.asks minute tried beyond rest)) :
    Moves p ch m s (s.ask v c verifier (keyUrlAt (endPointOf verifier.url) beyond)
      (.neighbour minute tried c rest) now)

variable {p : P256} {ch : Chrono} {m : Machine} {s t : Verifying} {e : VerifyEvent}

theorem moves_of_goOn {v c : Nat} {now : Moment} {verifier : Verifier} {next : Next}
    (hv : s.verifiers v = some verifier) (hnext : Continues p m s.sys verifier next)
    (h : s.goOn v c verifier now next = some t) : Moves p ch m s t := by
  cases next with
  | returns result =>
    cases h
    exact .returns hv hnext
  | asks minute tried beyond rest =>
    simp only [goOn] at h
    split at h
    · rename_i hc
      cases h
      exact .asks hv hc hnext
    · cases h

/-- **A step does one of these.** -/
theorem moves_of_step (h : step p ch m s e = some t) : Moves p ch m s t := by
  cases e with
  | event e =>
    obtain ⟨u, hu, rfl⟩ := Option.map_eq_some_iff.mp h
    exact .shared (System.moves_of_step hu)
  | verify v c owid url now =>
    simp only [step] at h
    split at h
    · rename_i hv hc
      cases h
      exact .verify hv hc
    · cases h
  | resume v c now =>
    obtain ⟨verifier, hv, hstage⟩ := Option.bind_eq_some_iff.mp h
    split at hstage
    · rename_i caller hfirst
      obtain ⟨result, hresult, hgo⟩ := Option.bind_eq_some_iff.mp hstage
      exact moves_of_goOn hv (.first hfirst hresult) hgo
    · rename_i minute tried caller rest hneighbour
      obtain ⟨result, hresult, hgo⟩ := Option.bind_eq_some_iff.mp hstage
      exact moves_of_goOn hv (.neighbour hneighbour hresult) hgo
    · cases hstage

/-- What a step does to the callers, the cache and the records is one event of theirs, or
nothing. -/
theorem shared_of_moves (h : Moves p ch m s t) :
    (t.sys = s.sys ∧ t.requests = s.requests ∧ t.answers = s.answers) ∨
      ∃ e, System.Moves p ch s.sys e t.sys ∧ t.requests = s.requestsAfter e ∧
        t.answers = s.answersAfter e := by
  cases h with
  | @shared e u hm => exact .inr ⟨e, hm, rfl, rfl⟩
  | @verify v c owid url now hv hc => exact .inr ⟨.call c url now, .call hc, rfl, rfl⟩
  | @returns v verifier result hv hnext => exact .inl ⟨rfl, rfl, rfl⟩
  | @asks v c now verifier minute tried beyond rest hv hc hnext =>
    exact .inr ⟨.call c (keyUrlAt (endPointOf verifier.url) beyond) now, .call hc, rfl, rfl⟩

end Verifying

/-! ## Callers that have returned -/

namespace System

variable {p : P256} {ch : Chrono} {s t : System} {e : Event}

/-- A caller for whose minute a key is held is served it. -/
theorem step_served {c : Nat} {caller : Caller} {answer : KeyAnswer}
    (hc : s.callers c = some caller) (hp : caller.phase = .looking)
    (hheld : s.heldFor caller = some answer) :
    step p ch s (.turn c) =
      some (s.setPhase c caller (.returned (.held (s.sources caller answer)) (.ok answer))) := by
  simp only [step, hc, Option.bind_some, hp, turn, hheld]

/-- The URL a caller asks. -/
def urlOf (s : System) (c : Nat) : Option String := (s.callers c).map Caller.url

theorem returnedBy_eq_some {c : Nat} {result : Except Error KeyAnswer}
    (h : s.returnedBy c = some result) :
    ∃ caller route, s.callers c = some caller ∧ caller.phase = .returned route result := by
  obtain ⟨caller, hc, hphase⟩ := Option.bind_eq_some_iff.mp h
  split at hphase
  · rename_i route r hp
    cases hphase
    exact ⟨caller, route, hc, hp⟩
  · cases hphase

theorem returnedBy_of_phase {c : Nat} {caller : Caller} {route : Route}
    {result : Except Error KeyAnswer} (hc : s.callers c = some caller)
    (hp : caller.phase = .returned route result) : s.returnedBy c = some result := by
  rw [returnedBy, hc, Option.bind_some, hp]

/-- A caller that has returned stays as it is. -/
theorem callers_of_returned (hm : Moves p ch s e t) {c : Nat} {caller : Caller} {route : Route}
    {result : Except Error KeyAnswer} (hc : s.callers c = some caller)
    (hp : caller.phase = .returned route result) : t.callers c = some caller := by
  -- the caller that moved was at another point
  have hother : ∀ {c' : Nat} {moved : Caller} {q : Phase}, s.callers c' = some moved →
      (∀ route result, moved.phase ≠ .returned route result) →
      Function.update s.callers c' (some { moved with phase := q }) c = some caller := by
    intro c' moved q hmoved hphase
    rw [Function.update_of_ne]
    · exact hc
    · rintro rfl
      rw [hc] at hmoved
      cases hmoved
      exact hphase route result hp
  cases hm with
  | clear | park => exact hc
  | call hnew =>
    simp only [call]
    rw [Function.update_of_ne]
    · exact hc
    · rintro rfl
      rw [hc] at hnew
      cases hnew
  | serve hmoved hphase | join hmoved hphase | elect hmoved hphase | send hmoved hphase
  | respond hmoved hphase | record hmoved hphase | fail hmoved hphase | release hmoved hphase
  | finish hmoved hphase | wake hmoved hphase | retry hmoved hphase | leave hmoved hphase
  | abandon hmoved hphase =>
    refine hother hmoved ?_
    intro _ _
    rw [hphase]
    exact Phase.noConfusion

theorem returnedBy_of_moves (hm : Moves p ch s e t) {c : Nat} {result : Except Error KeyAnswer}
    (h : s.returnedBy c = some result) : t.returnedBy c = some result := by
  obtain ⟨caller, route, hc, hp⟩ := returnedBy_eq_some h
  exact returnedBy_of_phase (callers_of_returned hm hc hp) hp

/-- A caller asks what it asked before. -/
theorem urlOf_of_moves (hm : Moves p ch s e t) {c : Nat} {url : String}
    (h : s.urlOf c = some url) : t.urlOf c = some url := by
  obtain ⟨caller, hc, rfl⟩ := Option.map_eq_some_iff.mp h
  have hmoved : ∀ {c' : Nat} {moved : Caller} {q : Phase}, s.callers c' = some moved →
      (Function.update s.callers c' (some { moved with phase := q }) c).map Caller.url =
        some caller.url := by
    intro c' moved q hmoved
    by_cases hcc : c = c'
    · subst hcc
      rw [hc] at hmoved
      cases hmoved
      rw [Function.update_self]
      rfl
    · rw [Function.update_of_ne hcc, hc]
      rfl
  cases hm with
  | clear | park => exact h
  | call hnew =>
    simp only [urlOf, call]
    rw [Function.update_of_ne, hc]
    · rfl
    · rintro rfl
      rw [hc] at hnew
      cases hnew
  | serve hm' | join hm' | elect hm' | send hm' | respond hm' | record hm' | fail hm'
  | release hm' | finish hm' | wake hm' | retry hm' | leave hm' | abandon hm' => exact hmoved hm'

end System

end OwidRust
