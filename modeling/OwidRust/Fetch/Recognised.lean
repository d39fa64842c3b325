import OwidRust.Fetch.Drift
import OwidRust.Fetch.Genuine
import OwidRust.Fetch.Transparent
import OwidRust.Fetch.Waiters

/-!
# Identifiers of a rotating creator

Verifications beside a creator whose schedule stays and whose clock never goes back: answers are
under way while the clock goes on, callers join the fetches of others, keys are held from before,
callers are dropped and the cache is cleared.

* `timed_of_step` — what a verification does is one event of the callers, or nothing to them;
* `EndsAt`, `AnsweredByCreator` — what a fetch ends with is what the creator answered at a moment;
* `timedInv_of_reach` — so it is in every state reached;
* `obtained_of_returned` — what a caller obtains is the key in force at its minute, or when the
  fetch it waited for was answered;
* `recognised_of_reach` — an identifier the creator signed is found to be so, unless a request for
  its key failed or was answered before the signing;
* `recognised_of_reach_overtaken` — an answer before the signing does make it a forgery.
-/

namespace OwidRust

open Periods Runs

variable {p : P256} {ch : Chrono} {m : Machine} {s : PublicKeySchedule} {E : String}

/-! ## What the creator answered -/

/-- A fetch of the URL ends so as the creator answered it by this clock. -/
def EndsAt (p : P256) (ch : Chrono) (s : PublicKeySchedule)
    (answers : List (String × Except Error FetchResponse)) (url : String) (now : Moment)
    (outcome : Outcome) : Prop :=
  ∃ response, (url, response) ∈ answers ∧ StatesSpan p ch s url now response ∧
    outcome = outcomeOf (requestPublicKey p ch url response)

/-- Where some key had started, one is in force. -/
theorem PublicKeySchedule.exists_inForce {key : DatedPublicKey} (hkey : key ∈ s.keys)
    {moment : Moment} (hstarted : key.startsAt ≤ moment) :
    ∃ selected, s.InForceAt moment selected := by
  cases hchosen : s.keyInForce moment with
  | some selected => exact ⟨selected, PublicKeySchedule.keyInForce_eq_some hchosen⟩
  | none =>
    have hlater := PublicKeySchedule.keyInForce_eq_none hchosen key hkey
    exact absurd hlater (not_lt.mpr hstarted)

theorem Selected.mono {clock clock' moment : Moment} {answer : KeyAnswer} {key : DatedPublicKey}
    {first : Nat} {stop : Option Nat} (h : Selected s clock moment answer key first stop)
    (hle : clock ≤ clock') : Selected s clock' moment answer key first stop :=
  ⟨h.answer_eq, h.minutes, h.started.trans hle, h.inForce⟩

variable {answers more : List (String × Except Error FetchResponse)} {url : String} {now : Moment}
  {outcome : Outcome}

theorem EndsAt.mono (h : EndsAt p ch s answers url now outcome) (hmore : answers ⊆ more) :
    EndsAt p ch s more url now outcome := by
  obtain ⟨response, hmem, hstates, houtcome⟩ := h
  exact ⟨response, hmore hmem, hstates, houtcome⟩

/-- A key a fetch ends with is the one in force at the moment asked about. -/
theorem EndsAt.selected (hch : ch.Sound) (hs : s.Regular) {answer : KeyAnswer}
    (h : EndsAt p ch s answers url now (.ok answer)) :
    ∃ key first stop, Selected s now (askedAt url now) answer key first stop := by
  obtain ⟨response, -, hstates, houtcome⟩ := h
  cases hread : requestPublicKey p ch url response with
  | error e =>
    rw [hread] at houtcome
    cases houtcome
  | ok read =>
    obtain ⟨pem, start, stop⟩ := read
    rw [hread] at houtcome
    cases houtcome
    obtain ⟨key, first, hkey, rfl, rfl, hminutes⟩ :=
      (tells_of_statesSpan hch hs hstates hread).minutes hs
    exact ⟨key, first, stop, rfl, hminutes, hkey.started.trans (Timed.askedAt_le url now), hkey⟩

/-- Where some key had started by the minute and the clock, the creator has an answer, and only a
request that failed on the way is no key. -/
theorem EndsAt.failed (hch : ch.Sound) (hs : s.Steady p) (hE : '?' ∉ E.toList) {minute : Nat}
    (hminute : minute ≤ u32Max) {key : DatedPublicKey} (hkey : key ∈ s.keys)
    (hfrom : key.startsAt ≤ atMinute minute) (hstarted : key.startsAt ≤ now)
    {failure : FetchFailure}
    (h : EndsAt p ch s answers (keyUrlAt E minute) now (.error failure)) :
    ∃ e, (keyUrlAt E minute, .error e) ∈ answers := by
  obtain ⟨response, hmem, hstates, houtcome⟩ := h
  cases hstates with
  | @failed e => exact ⟨e, hmem⟩
  | @stated status body hresponse =>
    obtain ⟨hformat, hdate⟩ := queryValue_keyUrlAt hE minute
    have hasked : askedMoment (queryValue dateParameter (keyUrlAt E minute)) now =
        some (min (atMinute minute) now) := by
      rw [hdate, askedMoment_decimal hminute]
    have hserves : servesFormat (queryValue formatParameter (keyUrlAt E minute)) = true := by
      rw [hformat]
      decide
    obtain ⟨selected, hselected⟩ := s.exists_inForce hkey (le_min hfrom hstarted)
    have hreadable := hs.readable selected hselected.mem
    have hsame := hresponse.symm.trans (publicKeyResponseAt_of_inForce hs.regular.starts hserves
      hasked hselected hreadable)
    cases hsame
    rw [requestPublicKey_of_parse (hs.regular.parse_answerFor hch hselected.mem)
      (validate_answerFor_none hselected hreadable)] at houtcome
    cases houtcome

/-- What a leader will end its fetch with, from the answer on. -/
def Phase.ending : Phase → Option (Nat × Outcome)
  | .answered f result => some (f, outcomeOf result)
  | .leaving f (some outcome) | .removed f (some outcome) => some (f, outcome)
  | _ => none

theorem Phase.owns_of_ending {phase : Phase} {f : Nat} (h : phase.ending = some (f, outcome)) :
    phase.owns = some f := by
  unfold Phase.ending at h
  split at h
  · cases h
    rfl
  · cases h
    rfl
  · cases h
    rfl
  · cases h

/-! ## Verifications beside a creator -/

/-- The callers beside a creator and the verifications that made them. -/
structure TimedVerifying extends Timed where
  verifiers : Nat → Option Verifier
  requests : Nat → Nat
  answers : List (String × Except Error FetchResponse)

inductive TimedVerifyEvent where
  | tick (creator here : Moment)
  | verifies (e : VerifyEvent)

namespace TimedVerifying

def verifying (b : TimedVerifying) : Verifying := ⟨b.sys, b.verifiers, b.requests, b.answers⟩

/-- Nothing verified yet. -/
def start (s : PublicKeySchedule) (creator here : Moment) : TimedVerifying :=
  ⟨.start s creator here, fun _ => none, fun _ => 0, []⟩

/-- The state after an event of the verifications. -/
def after (b : TimedVerifying) (e : VerifyEvent) (t : Verifying) : TimedVerifying where
  toTimed :=
    match e with
    | .event e => b.toTimed.after e t.sys
    | _ => { b.toTimed with sys := t.sys }
  verifiers := t.verifiers
  requests := t.requests
  answers := t.answers

def step (p : P256) (ch : Chrono) (m : Machine) (b : TimedVerifying) :
    TimedVerifyEvent → Option TimedVerifying
  | .tick creator here => some { b with creator := creator, here := here }
  | .verifies e => (Verifying.step p ch m b.verifying e).map (b.after e)

/-- The events considered: a creator whose clock does not go back and who answers for the end point
as `public_key_response_at` does, and whatever else. -/
def Considers (p : P256) (ch : Chrono) (E : String) (b : TimedVerifying) : TimedVerifyEvent → Prop
  | .tick creator here => b.toTimed.Considers p ch E (.tick creator here)
  | .verifies (.event e) => b.toTimed.Considers p ch E (.sys e)
  | .verifies _ => True

variable {b : TimedVerifying} {t : Verifying} {e : VerifyEvent}

@[simp] theorem verifying_after (b : TimedVerifying) (e : VerifyEvent) (t : Verifying) :
    (b.after e t).verifying = t := by
  cases e <;> rfl

/-- **To the creator and the callers a verification is one event of theirs, or nothing.** -/
theorem timed_of_step (h : Verifying.step p ch m b.verifying e = some t)
    (hconsiders : b.Considers p ch E (.verifies e)) :
    ((b.after e t).toTimed = b.toTimed ∧ t.answers = b.answers) ∨
      ∃ event, System.step p ch b.sys event = some t.sys ∧
        (b.after e t).toTimed = b.toTimed.after event t.sys ∧
        t.answers = b.verifying.answersAfter event ∧
        b.toTimed.Considers p ch E (.sys event) := by
  have hcall : ∀ {c : Nat} (url : String) (now : Moment), b.sys.callers c = none →
      System.step p ch b.sys (.call c url now) = some (b.sys.call c url now) := by
    intro c url now hc
    simp only [System.step, hc]
  have hgoOn : ∀ {v c : Nat} {now : Moment} {verifier : Verifier} {next : Next},
      b.verifying.goOn v c verifier now next = some t →
      (t.sys = b.sys ∧ t.answers = b.answers) ∨
        ∃ url, b.sys.callers c = none ∧ t.sys = b.sys.call c url now ∧ t.answers = b.answers := by
    intro v c now verifier next hgo
    cases next with
    | returns result =>
      cases hgo
      exact .inl ⟨rfl, rfl⟩
    | asks minute tried beyond rest =>
      simp only [Verifying.goOn] at hgo
      split at hgo
      · rename_i hc
        cases hgo
        exact .inr ⟨_, hc, rfl, rfl⟩
      · cases hgo
  cases e with
  | event event =>
    obtain ⟨u, hu, rfl⟩ := Option.map_eq_some_iff.mp h
    exact .inr ⟨event, hu, rfl, rfl, hconsiders⟩
  | verify v c owid url now =>
    simp only [Verifying.step] at h
    split at h
    · rename_i hv hc
      cases h
      exact .inr ⟨.call c url now, hcall url now hc, rfl, rfl, trivial⟩
    · cases h
  | resume v c now =>
    have hgone : (t.sys = b.sys ∧ t.answers = b.answers) ∨
        ∃ url, b.sys.callers c = none ∧ t.sys = b.sys.call c url now ∧ t.answers = b.answers := by
      obtain ⟨verifier, -, hstage⟩ := Option.bind_eq_some_iff.mp h
      split at hstage
      · obtain ⟨result, -, hgo⟩ := Option.bind_eq_some_iff.mp hstage
        exact hgoOn hgo
      · obtain ⟨result, -, hgo⟩ := Option.bind_eq_some_iff.mp hstage
        exact hgoOn hgo
      · cases hstage
    rcases hgone with ⟨hsys, hanswers⟩ | ⟨url, hc, hsys, hanswers⟩
    · left
      simp only [after, hsys]
      exact ⟨trivial, hanswers⟩
    · refine .inr ⟨.call c url now, hsys ▸ hcall url now hc, ?_, hanswers, trivial⟩
      simp only [after, Timed.after, hsys]
      rfl

/-! ## What fetches end with -/

/-- What leaders carry, what fetches ended with and what callers were served are the creator's. -/
structure AnsweredByCreator (p : P256) (ch : Chrono) (s : PublicKeySchedule) (E : String)
    (answers : List (String × Except Error FetchResponse)) (t : Timed) : Prop where
  steadfast : Timed.Steadfast s E t
  carried : ∀ c caller f outcome, t.sys.callers c = some caller →
    caller.phase.ending = some (f, outcome) → endPointOf caller.url = E →
    EndsAt p ch s answers caller.url (t.answeredAt f) outcome
  ends : ∀ f outcome, f < t.sys.nextFlight → (t.sys.flights f).outcome = some outcome →
    endPointOf (t.sys.flights f).url = E →
    EndsAt p ch s answers (t.sys.flights f).url (t.answeredAt f) outcome
  served : ∀ c caller sources result minute, t.sys.callers c = some caller →
    caller.phase = .returned (.held sources) result → endPointOf caller.url = E →
    minuteOf caller.url = some minute → ∃ answer key first stop, result = .ok answer ∧
      Selected s t.creator (atMinute minute) answer key first stop

section Event

variable {t : Timed} {event : Event} {u : System}

theorem AnsweredByCreator.mono (h : AnsweredByCreator p ch s E answers t)
    (hmore : answers ⊆ more) : AnsweredByCreator p ch s E more t :=
  ⟨h.steadfast, fun c caller f outcome hc hending hE =>
      (h.carried c caller f outcome hc hending hE).mono hmore,
    fun f outcome hf hout hE => (h.ends f outcome hf hout hE).mono hmore, h.served⟩

/-- What a leader carries keeps the moment it was answered at. -/
theorem answeredAt_of_ending (hs : t.sys.Wf) (hm : System.Moves p ch t.sys event u) {c f : Nat}
    {caller : Caller} {outcome : Outcome} (hc : t.sys.callers c = some caller)
    (hending : caller.phase.ending = some (f, outcome)) :
    (t.after event u).answeredAt f = t.answeredAt f := by
  apply Timed.answeredAt_after
  intro hanswers
  cases hm with
  | @respond c' other g response hc' hp =>
    have howns : t.answers (.respond c' response) = some g := by
      rw [Timed.answers, hc', Option.bind_some, hp]
      rfl
    rw [howns] at hanswers
    cases hanswers
    cases hs.owner _ _ _ _ f hc hc' (Phase.owns_of_ending hending) (by rw [hp]; rfl)
    cases hc.symm.trans hc'
    rw [hp] at hending
    cases hending
  | _ => cases hanswers

theorem carried_after (h : AnsweredByCreator p ch s E answers t)
    (hm : System.Moves p ch t.sys event u)
    (hanswer : ∀ c caller response, event = .respond c response →
      t.sys.callers c = some caller → endPointOf caller.url = E →
      (caller.url, response) ∈ answers ∧ StatesSpan p ch s caller.url t.creator response) :
    ∀ c caller f outcome, u.callers c = some caller → caller.phase.ending = some (f, outcome) →
      endPointOf caller.url = E →
      EndsAt p ch s answers caller.url ((t.after event u).answeredAt f) outcome := by
  intro c' caller' g outcome' hc' hending hE
  -- a leader that carries what it carried before
  have hkept : ∀ {before : Caller}, t.sys.callers c' = some before → before.url = caller'.url →
      before.phase.ending = some (g, outcome') →
      EndsAt p ch s answers caller'.url ((t.after event u).answeredAt g) outcome' := by
    intro before hbefore hurl hsame
    rw [answeredAt_of_ending h.steadfast.wf hm hbefore hsame, ← hurl]
    exact h.carried c' before g outcome' hbefore hsame (hurl ▸ hE)
  cases hm with
  | clear | park => exact hkept hc' rfl hending
  | @respond c caller f response hc hp =>
    rcases System.caller_cases hc' with ⟨rfl, rfl⟩ | ⟨-, hc'⟩
    · cases hending
      obtain ⟨hmem, hstates⟩ := hanswer _ caller response rfl hc hE
      have hnow : (t.after (.respond c' response) (t.sys.setPhase c' caller (.answered g
          (requestPublicKey p ch caller.url response)))).answeredAt g = t.creator := by
        have hanswers : t.answers (.respond c' response) = some g := by
          rw [Timed.answers, hc, Option.bind_some, hp]
          rfl
        simp only [Timed.after, hanswers, Function.update_self]
      rw [hnow]
      exact ⟨response, hmem, hstates, rfl⟩
    · exact hkept hc' rfl hending
  | @record c caller f now pem start stop hc hp =>
    rcases System.caller_cases hc' with ⟨rfl, rfl⟩ | ⟨-, hc'⟩
    · refine hkept hc rfl ?_
      rw [hp]
      rw [Phase.ending, Cache.hold_snd] at hending
      exact hending
    · exact hkept hc' rfl hending
  | @fail c caller f now e hc hp =>
    rcases System.caller_cases hc' with ⟨rfl, rfl⟩ | ⟨-, hc'⟩
    · refine hkept hc rfl ?_
      rw [hp]
      exact hending
    · exact hkept hc' rfl hending
  | @release c caller f outcome hc hp =>
    rcases System.caller_cases hc' with ⟨rfl, rfl⟩ | ⟨-, hc'⟩
    · refine hkept hc rfl ?_
      rw [hp]
      cases outcome with
      | none => cases hending
      | some outcome => exact hending
    · exact hkept hc' rfl hending
  | @finish c caller f outcome hc hp =>
    rcases System.caller_cases hc' with ⟨rfl, rfl⟩ | ⟨-, hc'⟩
    · cases outcome <;> cases hending
    · exact hkept hc' rfl hending
  | call | serve | join | elect | send | wake | retry | leave | abandon =>
    rcases System.caller_cases hc' with ⟨rfl, rfl⟩ | ⟨-, hc'⟩
    · cases hending
    · exact hkept hc' rfl hending

theorem ends_after (h : AnsweredByCreator p ch s E answers t)
    (hm : System.Moves p ch t.sys event u) :
    ∀ f outcome, f < u.nextFlight → (u.flights f).outcome = some outcome →
      endPointOf (u.flights f).url = E →
      EndsAt p ch s answers (u.flights f).url ((t.after event u).answeredAt f) outcome := by
  intro g outcome' hlt hout hE
  have hwf := h.steadfast.wf
  have hk := System.keeps_of_moves hwf hm
  -- a fetch that ended before
  have hkept : g < t.sys.nextFlight → (t.sys.flights g).outcome = some outcome' →
      EndsAt p ch s answers (u.flights g).url ((t.after event u).answeredAt g) outcome' := by
    intro hg hbefore
    rw [Timed.answeredAt_of_ended hwf hm hbefore, hk.url g hg]
    exact h.ends g outcome' hg hbefore (hk.url g hg ▸ hE)
  cases hm with
  | call | serve | join | respond | record | fail | release | wake | retry | leave | abandon
  | clear => exact hkept hlt hout
  | send =>
    rw [System.outcome_send] at hout
    exact hkept hlt hout
  | park =>
    rw [System.outcome_park] at hout
    exact hkept hlt hout
  | @elect c caller hc hp =>
    rcases Nat.lt_or_eq_of_le (Nat.le_of_lt_succ hlt) with hg | rfl
    · rw [System.flights_elect hg] at hout
      exact hkept hg hout
    · rw [System.flights_elect_new] at hout
      cases hout
  | @finish c caller f outcome hc hp =>
    by_cases hg : g = f
    · subst hg
      simp only [System.finish, Function.update_self] at hout
      subst hout
      have hending : caller.phase.ending = some (g, outcome') := by
        rw [hp]
        rfl
      obtain ⟨-, hurl, -⟩ := (hwf.caller _ _ hc).flight g (by rw [hp]; rfl)
      rw [hk.url g hlt, hurl] at hE ⊢
      exact h.carried c caller g outcome' hc hending hE
    · rw [System.flights_finish hg] at hout
      exact hkept hlt hout

theorem served_after (h : AnsweredByCreator p ch s E answers t)
    (hm : System.Moves p ch t.sys event u) :
    ∀ c caller sources result minute, u.callers c = some caller →
      caller.phase = .returned (.held sources) result → endPointOf caller.url = E →
      minuteOf caller.url = some minute → ∃ answer key first stop, result = .ok answer ∧
        Selected s t.creator (atMinute minute) answer key first stop := by
  intro c caller sources result minute hc hphase hE hminute
  rcases System.held_of_moves hm hc hphase with hbefore |
    ⟨before, answer, -, hheld, hurl, -, -, rfl⟩
  · exact h.served c caller sources result minute hbefore hphase hE hminute
  · rw [hurl] at hE hminute
    obtain ⟨asked, hasked, hserved⟩ := Option.bind_eq_some_iff.mp hheld
    cases hasked.symm.trans hminute
    rw [hE] at hserved
    obtain ⟨key, first, stop, hselected⟩ := selected_of_held h.steadfast.cache.held hserved
    exact ⟨answer, key, first, stop, rfl, hselected⟩

end Event

/-- What holds in every state reached. -/
structure TimedInv (p : P256) (ch : Chrono) (m : Machine) (s : PublicKeySchedule) (E : String)
    (b : TimedVerifying) : Prop where
  traced : Verifying.Traced p ch m b.verifying
  answered : AnsweredByCreator p ch s E b.answers b.toTimed

theorem answeredByCreator_tick (hch : ch.Sound) (hs : s.Regular)
    (h : AnsweredByCreator p ch s E b.answers b.toTimed)
    {creator here : Moment} (hle : b.creator ≤ creator) :
    AnsweredByCreator p ch s E b.answers { b.toTimed with creator := creator, here := here } := by
  refine ⟨?_, h.carried, h.ends, ?_⟩
  · exact Timed.steadfast_next (p := p) (e := .tick creator here) hch hs h.steadfast hle
  · intro c caller sources result minute hc hphase hE hminute
    obtain ⟨answer, key, first, stop, hresult, hselected⟩ :=
      h.served c caller sources result minute hc hphase hE hminute
    exact ⟨answer, key, first, stop, hresult, hselected.mono hle⟩

theorem answeredByCreator_after (hch : ch.Sound) (hs : s.Regular)
    (h : AnsweredByCreator p ch s E b.answers b.toTimed)
    {event : Event} {u : System} (hstep : System.step p ch b.sys event = some u)
    (hconsiders : b.toTimed.Considers p ch E (.sys event)) :
    AnsweredByCreator p ch s E (b.verifying.answersAfter event) (b.toTimed.after event u) := by
  have hm := System.moves_of_step hstep
  have hmore := h.mono (b.verifying.answers_subset event)
  have hnext : b.toTimed.next p ch (.sys event) = b.toTimed.after event u := by
    simp only [Timed.next, hstep]
  have hserved := served_after hmore hm
  refine ⟨?_, carried_after hmore hm ?_, ends_after hmore hm, hserved⟩
  · rw [← hnext]
    exact Timed.steadfast_next hch hs h.steadfast hconsiders
  · rintro c caller response rfl hc hE
    refine ⟨?_, ?_⟩
    · have hcaller : b.verifying.sys.callers c = some caller := hc
      simp [Verifying.answersAfter, hcaller]
    · have hstates := hconsiders caller hc hE
      rwa [h.steadfast.schedule] at hstates

/-- **An event keeps what is answered the creator's.** -/
theorem timedInv_of_step (hch : ch.Sound) (hs : s.Regular) (h : TimedInv p ch m s E b)
    {e : TimedVerifyEvent} (hconsiders : b.Considers p ch E e) {next : TimedVerifying}
    (hstep : step p ch m b e = some next) :
    TimedInv p ch m s E next := by
  cases e with
  | tick creator here =>
    cases hstep
    exact ⟨h.traced, answeredByCreator_tick hch hs h.answered hconsiders⟩
  | verifies e =>
    obtain ⟨t, ht, rfl⟩ := Option.map_eq_some_iff.mp hstep
    refine ⟨?_, ?_⟩
    · rw [verifying_after]
      exact Verifying.traced_of_moves h.traced (Verifying.moves_of_step ht)
    · show AnsweredByCreator p ch s E t.answers (b.after e t).toTimed
      rcases timed_of_step ht hconsiders with ⟨htimed, hanswers⟩ |
        ⟨event, hevent, htimed, hanswers, hconsidered⟩
      · rw [htimed, hanswers]
        exact h.answered
      · rw [htimed, hanswers]
        exact answeredByCreator_after hch hs h.answered hevent hconsidered

theorem timedInv_of_reach (hch : ch.Sound) (hs : s.Regular) {creator here : Moment}
    (h : Reach (step p ch m) (Considers p ch E) (start s creator here) b) :
    TimedInv p ch m s E b := by
  refine h.invariant (P := TimedInv p ch m s E) ⟨Verifying.traced_init, ?_⟩
    fun b e next hb hconsiders hstep => timedInv_of_step hch hs hb hconsiders hstep
  refine ⟨⟨System.wf_init, rfl, Timed.cacheInv_start s creator here⟩, ?_,
    fun f outcome hf => absurd hf (Nat.not_lt_zero f), ?_⟩
  · intro c caller f outcome hc
    simp [start, Timed.start, System.init] at hc
  · intro c caller sources result minute hc
    simp [start, Timed.start, System.init] at hc

/-! ## What a caller obtains -/

/-- The fetches that answered these callers were answered from this moment on. -/
def AnsweredFrom (b : TimedVerifying) (asked : List Nat) (since : Moment) : Prop :=
  ∀ c ∈ asked, ∀ caller f result, b.sys.callers c = some caller →
    caller.phase = .returned (.fetched f) result → since ≤ b.answeredAt f

/-- A fetch that answered one of these callers had been answered before this moment. -/
def AnsweredBefore (b : TimedVerifying) (asked : List Nat) (moment : Moment) : Prop :=
  ∃ c ∈ asked, ∃ caller f result, b.sys.callers c = some caller ∧
    caller.phase = .returned (.fetched f) result ∧ b.answeredAt f < moment

theorem answeredBefore_of_not {asked : List Nat} {moment : Moment}
    (h : ¬ b.AnsweredFrom asked moment) : b.AnsweredBefore asked moment := by
  simp only [AnsweredFrom, not_forall, not_le] at h
  obtain ⟨c, hc, caller, f, result, hcaller, hphase, hbefore⟩ := h
  exact ⟨c, hc, caller, f, result, hcaller, hphase, hbefore⟩

/-- The key in force at the minute, or at the moment a fetch was answered that asked for it. -/
def ObtainedKey (s : PublicKeySchedule) (since : Moment) (minute : Nat)
    (result : Except Error KeyAnswer) : Prop :=
  ∃ answer clock moment key first stop, result = .ok answer ∧ since ≤ clock ∧
    (moment = atMinute minute ∨ moment = min (atMinute minute) clock) ∧
    Selected s clock moment answer key first stop

/-- **A caller obtains the key for a minute some key had started by, unless a request for it
failed.** -/
theorem obtained_of_returned (hch : ch.Sound) (hs : s.Steady p) (hE : '?' ∉ E.toList)
    (h : TimedInv p ch m s E b) {c minute : Nat} {result : Except Error KeyAnswer} {since : Moment}
    (hurl : b.sys.urlOf c = some (keyUrlAt E minute)) (hminute : minute ≤ u32Max)
    (hreturned : b.sys.returnedBy c = some result) (hsince : since ≤ b.creator)
    (hfrom : ∀ caller f result, b.sys.callers c = some caller →
      caller.phase = .returned (.fetched f) result → since ≤ b.answeredAt f)
    (hstarted : ∀ clock, since ≤ clock →
      ∃ key ∈ s.keys, key.startsAt ≤ atMinute minute ∧ key.startsAt ≤ clock) :
    ObtainedKey s since minute result ∨ ∃ e, (keyUrlAt E minute, .error e) ∈ b.answers := by
  obtain ⟨caller, route, hc, hp⟩ := System.returnedBy_eq_some hreturned
  rw [System.urlOf, hc, Option.map_some, Option.some.injEq] at hurl
  have hend : endPointOf caller.url = E := by rw [hurl, endPointOf_keyUrlAt hE]
  have hasks : minuteOf caller.url = some minute := by rw [hurl, minuteOf_keyUrlAt hE hminute]
  cases route with
  | held sources =>
    obtain ⟨answer, key, first, stop, rfl, hselected⟩ :=
      h.answered.served c caller sources result minute hc hp hend hasks
    exact .inl ⟨answer, b.creator, _, key, first, stop, rfl, hsince, .inl rfl, hselected⟩
  | fetched f =>
    obtain ⟨outcome, hout, rfl⟩ := h.traced.wf.ended c caller f result hc hp
    obtain ⟨hlt, hflight, -⟩ := (h.traced.wf.caller c caller hc).flight f (by rw [hp]; rfl)
    have hanswered := hfrom caller f _ hc hp
    have hends := h.answered.ends f outcome hlt hout (hflight ▸ hend)
    change EndsAt p ch s b.answers (b.verifying.sys.flights f).url _ _ at hends
    rw [hflight, hurl] at hends
    cases outcome with
    | ok answer =>
      obtain ⟨key, first, stop, hselected⟩ := hends.selected hch hs.regular
      refine .inl ⟨answer, b.answeredAt f, _, key, first, stop, rfl, hanswered, .inr ?_, hselected⟩
      rw [askedAt, minuteOf_keyUrlAt hE hminute]
    | error failure =>
      obtain ⟨key, hkey, hdate, hclock⟩ := hstarted _ hanswered
      exact .inr (hends.failed hch hs hE hminute hkey hdate hclock)

/-! ## Identifiers the creator signed -/

/-- A request one of these callers asked for failed on the way. -/
def FailedFor (b : TimedVerifying) (asked : List Nat) : Prop :=
  ∃ c ∈ asked, ∃ url e, b.sys.urlOf c = some url ∧ (url, .error e) ∈ b.answers

section Genuine

variable {o : Owid} {minute signedAt : Nat} {signer : DatedPublicKey} {asked : List Nat}

/-- The signer is the key obtained for a minute it is in force at, where it was signed with by the
moment it was obtained. -/
theorem pem_of_obtained (hs : s.Regular) {edge : Nat} {result : Except Error KeyAnswer}
    (hobtained : ObtainedKey s (atMinute signedAt) edge result)
    (hsigned : s.InForceAt (atMinute signedAt) signer)
    (hedge : s.InForceAt (atMinute edge) signer) :
    ∃ answer, result = .ok answer ∧ answer.pem = signer.publicKeyPem := by
  obtain ⟨answer, clock, moment, key, first, stop, rfl, hsince, hmoment, hselected⟩ := hobtained
  have hat : s.InForceAt moment signer := by
    rcases hmoment with rfl | rfl
    · exact hedge
    · -- the clock is past the signing
      exact hedge.earlier (le_min hedge.started (hsigned.started.trans hsince)) (min_le_left _ _)
  have hsame : key = signer := hselected.inForce.unique hs.starts hat
  refine ⟨answer, rfl, ?_⟩
  rw [hselected.answer_eq, KeyAnswer.stated_pem, hsame]

/-- **A search that tried every minute beyond the edges had a request fail.** -/
theorem failedFor_of_exhausted (hch : ch.Sound) (hs : s.Steady p) {url : String}
    (hE : '?' ∉ E.toList) (hurl : url = keyUrlAt E minute) (h : TimedInv p ch m s E b)
    (hnear : SignedNear p m s b.creator o minute signedAt signer)
    (hfrom : b.AnsweredFrom asked (atMinute signedAt)) {tried : KeyAnswer} {first : Nat}
    {others : List Nat}
    (hobtained : ObtainedKey s (atMinute signedAt) minute (.ok tried))
    (hsearched : Verifying.Searched p m b.sys o url asked minute tried first others [])
    (hfail : ∀ c ∈ others, Verifying.Fails p m b.sys o c) : b.FailedFor asked := by
  obtain ⟨answer, clock, moment, key, start, stop, hanswer, hsince, hmoment, hselected⟩ := hobtained
  cases hanswer
  have hpem : tried.pem = key.publicKeyPem := by
    rw [hselected.answer_eq, KeyAnswer.stated_pem]
  have hne : key ≠ signer := by
    rintro rfl
    have hverdict := hsearched.failed
    rw [hpem, hnear.verifies] at hverdict
    cases hverdict
  -- the signer is in force at one of the minutes beyond, and a caller asked for it
  obtain ⟨edge, hedge, hle, -, hinForce⟩ :=
    exists_edge hs hselected hmoment hnear.inForce hsince hnear.near hne
  obtain ⟨minutes, hasked, hsplit⟩ := hsearched.minutes
  have hknown : tried.known = true := by rw [hselected.answer_eq, KeyAnswer.stated_known]
  rw [List.append_nil, toTry, if_pos hknown] at hsplit
  rw [← hsplit] at hedge
  obtain ⟨i, hi, rfl⟩ := List.mem_iff_getElem.mp hedge
  have hi' : i < others.length := hasked.neighbours.length_eq ▸ hi
  have hmem : others[i] ∈ others := List.getElem_mem hi'
  have hcaller : b.sys.urlOf others[i] = some (keyUrlAt E minutes[i]) := by
    have hasks := hasked.neighbours.get hi' hi
    rwa [hurl, endPointOf_keyUrlAt hE] at hasks
  have hin : others[i] ∈ asked := by
    rw [hasked.callers]
    exact List.mem_cons_of_mem _ hmem
  obtain ⟨result, hreturned, hnot⟩ := hfail _ hmem
  have hstarted : ∀ clock, atMinute signedAt ≤ clock →
      ∃ key ∈ s.keys, key.startsAt ≤ atMinute minutes[i] ∧ key.startsAt ≤ clock :=
    fun clock hclock =>
      ⟨signer, hinForce.mem, hinForce.started, hnear.inForce.started.trans hclock⟩
  rcases obtained_of_returned hch hs hE h hcaller hle hreturned hnear.past
      (fun caller f result => hfrom _ hin caller f result) hstarted with hobtained | ⟨e, herror⟩
  · obtain ⟨answer, rfl, hsame⟩ := pem_of_obtained hs.regular hobtained hnear.inForce hinForce
    have hverifies := hnear.verifies
    rw [← hsame] at hverifies
    exact absurd hverifies (hnot answer rfl)
  · exact ⟨_, hin, _, e, hcaller, herror⟩

/-- What the creator signed is found to be so where no fetch it is answered by had been answered
before the signing. -/
theorem recognised_of_answeredFrom (hch : ch.Sound) (hs : s.Steady p) (hkept : TimedInv p ch m s E b)
    {v : Nat} {verifier : Verifier} (hv : b.verifiers v = some verifier) {scheme : String}
    (hE : keyEndPoint verifier.owid scheme = E) (hplain : '?' ∉ E.toList)
    (hurl : verifier.url = publicKeyUrl verifier.owid scheme)
    (hnear : SignedNear p m s b.creator verifier.owid minute signedAt signer)
    (hfrom : b.AnsweredFrom verifier.asked (atMinute signedAt)) {result : Except Error Bool}
    (hstage : verifier.stage = .returned result) :
    result = .ok true ∨ b.FailedFor verifier.asked := by
  have hminute := minutesSinceBase_le hnear.date
  have hat : verifier.url = keyUrlAt E minute := by
    rw [hurl, publicKeyUrl, hnear.date, hE]
  -- what the first caller obtained
  have hfirst : ∀ {first : Nat} {others minutes : List Nat} {answered : Except Error KeyAnswer},
      Verifying.Asked b.sys verifier.url verifier.asked first others minutes →
      b.sys.returnedBy first = some answered →
      ObtainedKey s (atMinute signedAt) minute answered ∨ b.FailedFor verifier.asked := by
    intro first others minutes answered hasked hreturned
    have hin : first ∈ verifier.asked := by
      rw [hasked.callers]
      exact List.mem_cons_self
    have hown := hasked.own
    rw [hat] at hown
    refine (obtained_of_returned hch hs hplain hkept hown hminute hreturned hnear.past
      (fun caller f result => hfrom _ hin caller f result) ?_).imp_right ?_
    · intro clock hclock
      exact SignedNear.exists_started { hnear with past := hclock }
    · rintro ⟨e, herror⟩
      exact ⟨first, hin, _, e, hown, herror⟩
  have hinv := hkept.traced.stages v verifier hv
  rw [hstage] at hinv
  cases hinv with
  | verified | found => exact .inl rfl
  | unobtained hasked hreturned =>
    rcases hfirst hasked hreturned with ⟨answer, _, _, _, _, _, hanswer, -⟩ | hfailed
    · cases hanswer
    · exact .inr hfailed
  | unread hasked hreturned hverdict =>
    rcases hfirst hasked hreturned with hobtained | hfailed
    · obtain ⟨answer, _, _, key, _, _, hanswer, -, -, hselected⟩ := hobtained
      cases hanswer
      have hreadable := hs.readable key hselected.minutes.mem
      obtain ⟨verdict, hok⟩ := Owid.verifyWithPublicKey_isOk hreadable hnear.verifies
      rw [hselected.answer_eq, KeyAnswer.stated_pem, hok] at hverdict
      cases hverdict
    · exact .inr hfailed
  | undated hasked hreturned hverdict hdate =>
    rw [hnear.date] at hdate
    cases hdate
  | @exhausted minute' tried first others hsearched hfail =>
    have hdate := hsearched.date
    rw [hnear.date] at hdate
    cases hdate
    obtain ⟨minutes, hasked, -⟩ := hsearched.minutes
    rcases hfirst hasked hsearched.answer with hobtained | hfailed
    · exact .inr (failedFor_of_exhausted hch hs hplain hat hkept hnear hfrom hobtained hsearched
        hfail)
    · exact .inr hfailed

/-- **What the creator signed is found to be so**, in every state of every run, by whichever key a
caller was served or waited for, the signer or the one before or after it: unless a request of the
verification failed on the way, or a fetch it joined had been answered before the signing.  The end
point has no question mark; the keys of the schedule can be read, have PEMs of their own, start at
different whole minutes and stay in force for the drift allowance; the identifier verifies under the
key it was signed with; and some key had started by its date. -/
theorem recognised_of_reach (hch : ch.Sound) (hs : s.Steady p) {creator here : Moment}
    (h : Reach (step p ch m) (Considers p ch E) (start s creator here) b) {v : Nat}
    {verifier : Verifier} (hv : b.verifiers v = some verifier) {scheme : String}
    (hE : keyEndPoint verifier.owid scheme = E) (hplain : '?' ∉ E.toList)
    (hurl : verifier.url = publicKeyUrl verifier.owid scheme)
    (hnear : SignedNear p m s b.creator verifier.owid minute signedAt signer)
    {result : Except Error Bool} (hstage : verifier.stage = .returned result) :
    result = .ok true ∨ b.FailedFor verifier.asked ∨
      b.AnsweredBefore verifier.asked (atMinute signedAt) := by
  by_cases hfrom : b.AnsweredFrom verifier.asked (atMinute signedAt)
  · rcases recognised_of_answeredFrom hch hs (timedInv_of_reach hch hs.regular h) hv hE hplain hurl
      hnear hfrom hstage with htrue | hfailed
    · exact .inl htrue
    · exact .inr (.inl hfailed)
  · exact .inr (.inr (answeredBefore_of_not hfrom))

end Genuine

/-! ## Runs that begin after the signing -/

/-- No fetch is answered before the run begins. -/
theorem answeredAt_of_reach {creator here : Moment}
    (h : Reach (step p ch m) (Considers p ch E) (start s creator here) b) :
    creator ≤ b.creator ∧ ∀ f, creator ≤ b.answeredAt f := by
  refine h.invariant
    (P := fun b : TimedVerifying => creator ≤ b.creator ∧ ∀ f, creator ≤ b.answeredAt f)
    ⟨le_refl _, fun f => le_refl _⟩ ?_
  rintro b e next ⟨hclock, hanswered⟩ hconsiders hstep
  cases e with
  | tick creator' here' =>
    cases hstep
    exact ⟨hclock.trans hconsiders, hanswered⟩
  | verifies e =>
    obtain ⟨t, ht, rfl⟩ := Option.map_eq_some_iff.mp hstep
    rcases timed_of_step ht hconsiders with ⟨htimed, -⟩ | ⟨event, -, htimed, -, -⟩
    · rw [htimed]
      exact ⟨hclock, hanswered⟩
    · rw [htimed]
      refine ⟨hclock, fun f => ?_⟩
      by_cases hnow : b.toTimed.answers event = some f
      · simp only [Timed.after, hnow, Function.update_self]
        exact hclock
      · rw [Timed.answeredAt_after hnow]
        exact hanswered f

/-- So no fetch was answered before a signing that came before. -/
theorem not_answeredBefore_of_reach {creator here : Moment}
    (h : Reach (step p ch m) (Considers p ch E) (start s creator here) b) {moment : Moment}
    (hmoment : moment ≤ creator) (asked : List Nat) : ¬ b.AnsweredBefore asked moment := by
  rintro ⟨c, -, caller, f, result, -, -, hbefore⟩
  exact absurd (hmoment.trans ((answeredAt_of_reach h).2 f)) (not_le.mpr hbefore)

/-- A run of the verifications is one beside a creator whose answers the transport delivers, at one
reading of its clock. -/
theorem reach_of_runsIn {env : Surroundings} {v w : Verifying} {events : List VerifyEvent}
    (hrun : Verifying.RunsIn p ch env m v events w) :
    ∀ b : TimedVerifying, b.verifying = v → (∀ n url, endPointOf url = E →
        StatesSpan p ch b.schedule url b.creator (env.transport n url)) →
      ∃ c, Reach (step p ch m) (Considers p ch E) b c ∧ c.verifying = w ∧
        c.creator = b.creator := by
  induction hrun with
  | nil => exact fun b hb _ => ⟨b, .start, hb, rfl⟩
  | @cons v t w event events hfrom hstep _ ih =>
    intro b hb hstates
    subst hb
    have hconsiders : b.Considers p ch E (.verifies event) := by
      cases event with
      | verify | resume => exact trivial
      | event e =>
        cases e with
        | respond c response =>
          obtain ⟨n, caller, hc, rfl⟩ := hfrom
          intro caller' hc' hE
          cases hc.symm.trans hc'
          exact hstates n caller.url hE
        | _ => exact trivial
    have hnext : step p ch m b (.verifies event) = some (b.after event t) := by
      rw [step, hstep, Option.map_some]
    have hsame : (b.after event t).schedule = b.schedule ∧
        (b.after event t).creator = b.creator := by
      cases event <;> exact ⟨rfl, rfl⟩
    obtain ⟨c, hreach, hw, hclock⟩ := ih (b.after event t) (verifying_after b event t)
      (by rw [hsame.1, hsame.2]; exact hstates)
    exact ⟨c, (Reach.next .start hconsiders hnext).trans hreach, hw, hclock.trans hsame.2⟩

/-- Nothing fails on the way. -/
theorem handsOn_ne_error (n : Nat) (url : String) (e : Error) :
    handsOn.transport n url ≠ .error e := by
  obtain ⟨status, body, hok⟩ := rotatedOnce_steady.publicKeyResponseAt_isOk sampleChrono
    (queryValue formatParameter url) (queryValue dateParameter url) (atMinute 200)
  simp only [handsOn, hok]
  intro h
  cases h

/-- An identifier signed at minute 100 and dated at minute 90, before its key starts: the key in
force at minute 90 is tried, and the signer beyond its edge. -/
theorem recognised_of_reach_sample : ∃ b : TimedVerifying,
    Reach (step sampleP256 sampleChrono machine64)
        (Considers sampleP256 sampleChrono (keyEndPoint (signedBy true "ab" 90) "https"))
        (start rotatedOnce (atMinute 200) (atMinute 200)) b ∧
      b.verifying.ReturnedBy 0 (signedBy true "ab" 90)
        (publicKeyUrl (signedBy true "ab" 90) "https") (.ok true) := by
  obtain ⟨events, w, k, hrun, ⟨verifier, hv, howid, hurl, hstage⟩, -, -⟩ :=
    Verifying.verifies_alone sampleP256 sampleChrono handsOn machine64
      (s := Verifying.start .init) (v := 0) (System.alone_init (φ := Unit)) rfl
      (signedBy true "ab" 90) (publicKeyUrl (signedBy true "ab" 90) "https")
  have hdelivers := delivers_handsOn (keyEndPoint (signedBy true "ab" 90) "https")
  obtain ⟨b, hreach, hb, hclock⟩ := reach_of_runsIn hrun
    (start rotatedOnce (atMinute 200) (atMinute 200)) rfl
    fun n url hE => hdelivers.statesSpan rotatedOnce_steady n hE
  subst hb
  have hnear : SignedNear sampleP256 machine64 rotatedOnce b.creator verifier.owid 90 100
      laterKey := by
    rw [howid, hclock]
    refine ⟨minutesSinceBase_atMinute (by decide), ?_, atMinute_le_iff.mpr (by decide), by decide,
      laterKey_minutes.inForce (by decide) (by simp),
      signedBy_verifies ⟨by decide, by decide⟩ (by decide) newVerifyOnly_nextPem⟩
    exact ⟨earlyKey, earlyKey_minutes.mem, atMinute_le_iff.mpr (by decide)⟩
  have hreached := Verifying.answering_of_runsIn
    (Q := fun _ response => ∀ e : Error, response ≠ .error e) handsOn_ne_error hrun
  have hasks : verifier.url = publicKeyUrl verifier.owid "https" := by rw [hurl, howid]
  rcases recognised_of_reach sampleChrono_sound rotatedOnce_steady hreach hv (by rw [howid])
      (by decide +kernel) hasks hnear hstage with htrue | ⟨c, -, url, e, -, hmem⟩ | hbefore
  · rw [htrue] at hstage
    exact ⟨b, hreach, verifier, hv, howid, hurl, hstage⟩
  · exact absurd rfl (Verifying.answering_of_reach hreached url _ hmem e)
  · exact absurd hbefore (not_answeredBefore_of_reach hreach (atMinute_le_iff.mpr (by decide)) _)

/-! ## A fetch answered before the signing

The creator is asked for minute 100 at minute 99, and answers with the key of minute 99.  The answer
is under way as the key of minute 100 starts and signs an identifier, whose verification joins that
fetch for the minute beyond the edge. -/

def lateSigned : Owid := signedBy true "ab" 99

def lateEndPoint : String := keyEndPoint lateSigned "https"

def earlyAnswer : Except Error FetchResponse :=
  .ok ⟨200, (rotatedOnce.answerFor earlyKey).toJson sampleChrono⟩

theorem earlyKey_inForce : rotatedOnce.InForceAt (atMinute 99) earlyKey :=
  earlyKey_minutes.inForce (by decide) (by decide)

theorem statesSpan_early {minute : Nat} (hminute : minute ≤ u32Max) {clock : Moment}
    (h : min (atMinute minute) clock = atMinute 99) :
    StatesSpan sampleP256 sampleChrono rotatedOnce (keyUrlAt lateEndPoint minute) clock
      earlyAnswer := by
  obtain ⟨hformat, hdate⟩ := queryValue_keyUrlAt (E := lateEndPoint) (by decide +kernel) minute
  refine .stated (publicKeyResponseAt_of_inForce rotatedOnce_regular.starts ?_ ?_
    earlyKey_inForce readable_samplePem)
  · rw [hformat]
    decide
  · rw [hdate, askedMoment_decimal hminute, h]

theorem requestPublicKey_early (url : String) :
    requestPublicKey sampleP256 sampleChrono url earlyAnswer =
      .ok (samplePem, some 0, some 100) := by
  have hnext : rotatedOnce.nextStartAfter earlyKey = some (atMinute 100) :=
    PublicKeySchedule.nextStartAfter_eq_some_iff.mpr
      ⟨⟨laterKey, laterKey_minutes.mem, earlyKey_lt_laterKey, rfl⟩, by
        intro other hother hlater
        rcases mem_rotatedOnce.mp hother with rfl | rfl
        · exact absurd hlater (lt_irrefl _)
        · exact le_refl _⟩
  rw [earlyAnswer, requestPublicKey_of_parse
    (rotatedOnce_regular.parse_answerFor sampleChrono_sound earlyKey_inForce.mem)
    (validate_answerFor_none earlyKey_inForce readable_samplePem)]
  simp only [PublicKeySchedule.answerFor, PublicKeyAnswer.new, hnext, statedMinute_some]
  rw [minutesSinceBase_atMinute (by decide), earlyKey, minutesSinceBase_atMinute (by decide)]

/-- The answer read by the leader it is given to, in a URL and at a clock where the creator gives
it. -/
def readsEarly (c minute : Nat) (clock : Moment) (b : TimedVerifying) : Option TimedVerifying :=
  if b.sys.urlOf c = some (keyUrlAt lateEndPoint minute) ∧ b.creator = clock then
    (b.sys.callers c).bind fun caller =>
      match caller.phase with
      | .requesting f => some (b.after (.event (.respond c earlyAnswer))
          (b.verifying.after (.respond c earlyAnswer) (b.sys.setPhase c caller
            (.answered f (.ok (samplePem, some 0, some 100))))))
      | _ => none
  else none

/-- Reached beside the creator of the two keys. -/
abbrev LateReach : TimedVerifying → TimedVerifying → Prop :=
  Reach (step sampleP256 sampleChrono machine64) (Considers sampleP256 sampleChrono lateEndPoint)

theorem reach_of_readsEarly {c minute : Nat} {clock : Moment} {next : TimedVerifying}
    (h : b.readsEarly c minute clock = some next) (hs : b.schedule = rotatedOnce)
    (hminute : minute ≤ u32Max) (hclock : min (atMinute minute) clock = atMinute 99) :
    LateReach b next ∧ next.creator = clock := by
  unfold readsEarly at h
  split at h
  · rename_i hasked
    obtain ⟨hurl, rfl⟩ := hasked
    obtain ⟨caller, hc, hphase⟩ := Option.bind_eq_some_iff.mp h
    rw [System.urlOf, hc, Option.map_some, Option.some.injEq] at hurl
    split at hphase
    · rename_i f hp
      cases hphase
      refine ⟨Reach.next (e := .verifies (.event (.respond c earlyAnswer))) .start ?_ ?_, rfl⟩
      · intro caller' hc' _
        cases hc.symm.trans hc'
        rw [hs, hurl]
        exact statesSpan_early hminute hclock
      · have hcaller : b.verifying.sys.callers c = some caller := hc
        simp only [step, Verifying.step, System.step, hcaller, Option.bind_some, hp,
          requestPublicKey_early, Option.map_some]
        rfl
    · cases hphase
  · cases h

/-- Events of callers and verifications that no answer is among. -/
theorem reach_of_quiet {events : List VerifyEvent}
    (hquiet : ∀ e ∈ events, ∀ b : TimedVerifying, b.Considers sampleP256 sampleChrono lateEndPoint
      (.verifies e)) :
    ∀ {b c : TimedVerifying},
      (events.map .verifies).foldlM (step sampleP256 sampleChrono machine64) b =
      some c → LateReach b c := by
  induction events with
  | nil =>
    rintro b c ⟨⟩
    exact .start
  | cons e events ih =>
    intro b c h
    rw [List.map_cons, List.foldlM_cons, Option.bind_eq_bind, Option.bind_eq_some_iff] at h
    obtain ⟨next, hnext, hrest⟩ := h
    have hlater := ih (fun e he => hquiet e (List.mem_cons_of_mem _ he)) hrest
    exact (Reach.next .start (hquiet e List.mem_cons_self b) hnext).trans hlater

def runAll (b : TimedVerifying) (events : List VerifyEvent) : Option TimedVerifying :=
  (events.map .verifies).foldlM (step sampleP256 sampleChrono machine64) b

/-- The fetch for minute 100 is answered at minute 99, and the verification begins at minute 100. -/
def joined : Option TimedVerifying := do
  let b ← (start rotatedOnce (atMinute 99) (atMinute 99)).runAll
    [.event (.call 10 (keyUrlAt lateEndPoint 100) (atMinute 99)), .event (.turn 10),
      .event (.send 10)]
  let b ← b.readsEarly 10 100 (atMinute 99)
  let b ← { b with creator := atMinute 100, here := atMinute 100 }.runAll
    [.verify 0 1 lateSigned (publicKeyUrl lateSigned "https") (atMinute 100), .event (.turn 1),
      .event (.send 1)]
  let b ← b.readsEarly 1 99 (atMinute 100)
  b.runAll [.event (.record 1 (atMinute 100)), .event (.release 1), .event (.finish 1),
    .resume 0 2 (atMinute 100), .event (.turn 2), .event (.record 10 (atMinute 100)),
    .event (.release 10), .event (.finish 10), .event (.poll 2 0), .resume 0 3 (atMinute 100)]

/-- The identifier was found to be no one's, and nothing failed. -/
def CalledForgery (b : TimedVerifying) : Bool :=
  match b.verifiers 0 with
  | none => false
  | some verifier =>
    match verifier.stage with
    | .returned (.ok false) => verifier.owid = lateSigned ∧
        verifier.url = publicKeyUrl lateSigned "https" ∧ b.creator = atMinute 100 ∧
        ∀ answer ∈ b.answers, answer.2.toBool = true
    | _ => false

theorem joined_calledForgery : ∃ b, joined = some b ∧ b.CalledForgery = true := by
  rw [← Option.any_eq_true]
  decide +kernel

theorem reach_of_joined (h : joined = some b) :
    LateReach (start rotatedOnce (atMinute 99) (atMinute 99)) b := by
  simp only [joined, Option.bind_eq_bind, Option.bind_eq_some_iff] at h
  obtain ⟨asked, hasked, early, hearly, begun, hbegun, read, hread, hended⟩ := h
  have hschedule : ∀ {b : TimedVerifying},
      LateReach (start rotatedOnce (atMinute 99) (atMinute 99)) b →
      b.schedule = rotatedOnce := fun hb =>
    (timedInv_of_reach sampleChrono_sound rotatedOnce_regular hb).answered.steadfast.schedule
  have hfirst : LateReach (start rotatedOnce (atMinute 99) (atMinute 99)) asked :=
    reach_of_quiet (by simp [Considers, Timed.Considers]) hasked
  obtain ⟨hanswered, hclock⟩ := reach_of_readsEarly hearly (hschedule hfirst) (by decide)
    (min_eq_right (atMinute_le_iff.mpr (by decide)))
  -- the clock goes on while the answer is under way
  have htick : LateReach early { early with creator := atMinute 100, here := atMinute 100 } := by
    refine Reach.next (e := .tick (atMinute 100) (atMinute 100)) .start ?_ rfl
    show early.creator ≤ atMinute 100
    rw [hclock]
    exact atMinute_le_iff.mpr (by decide)
  have hbegins := ((hfirst.trans hanswered).trans htick).trans
    (reach_of_quiet (by simp [Considers, Timed.Considers]) hbegun)
  obtain ⟨hreads, -⟩ := reach_of_readsEarly hread (hschedule hbegins) (by decide)
    (min_eq_left (atMinute_le_iff.mpr (by decide)))
  exact (hbegins.trans hreads).trans
    (reach_of_quiet (by simp [Considers, Timed.Considers]) hended)

/-- **A fetch answered before the signing can make it a forgery**: nothing failed on the way, and
the identifier is found not to be the creator's. -/
theorem recognised_of_reach_overtaken : ∃ (b : TimedVerifying) (verifier : Verifier),
    LateReach (start rotatedOnce (atMinute 99) (atMinute 99)) b ∧
      SignedNear sampleP256 machine64 rotatedOnce b.creator lateSigned 99 100 laterKey ∧
      b.verifiers 0 = some verifier ∧ verifier.owid = lateSigned ∧
      verifier.url = publicKeyUrl lateSigned "https" ∧ verifier.stage = .returned (.ok false) ∧
      ¬ b.FailedFor verifier.asked := by
  obtain ⟨b, hjoined, hforgery⟩ := joined_calledForgery
  unfold CalledForgery at hforgery
  split at hforgery
  · cases hforgery
  · rename_i verifier hv
    split at hforgery
    · rename_i hstage
      obtain ⟨howid, hurl, hclock, hanswers⟩ := of_decide_eq_true hforgery
      refine ⟨b, verifier, reach_of_joined hjoined, ?_, hv, howid, hurl, hstage, ?_⟩
      · rw [hclock]
        exact ⟨minutesSinceBase_atMinute (by decide), ⟨earlyKey, earlyKey_minutes.mem,
            atMinute_le_iff.mpr (by decide)⟩, atMinute_le_iff.mpr (by decide), by decide,
          laterKey_minutes.inForce (by decide) (by simp),
          signedBy_verifies ⟨by decide, by decide⟩ (by decide) newVerifyOnly_nextPem⟩
      · rintro ⟨c, -, url, e, -, hmem⟩
        exact absurd (hanswers _ hmem) Bool.false_ne_true
    · cases hforgery

end TimedVerifying

end OwidRust
