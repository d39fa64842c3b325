import OwidRust.Creator
import OwidRust.Fetch.Alone
import OwidRust.Fetch.Provenance

/-!
# Where failures come from

A fetch that fails is shared as well: by the callers waiting on it, and by what they go on to.  Every
error a caller returns is what a request for its own URL was answered, and an OWID calling code can
hold is left unjudged only by such an error, or by its creator's statement of when its key was in
force.

* `Failing`, `failing_after` — what leaders carry, what fetches ended with and what callers returned,
  all at once;
* `failuresExplained_of_reach` — the provenance of failures, in every state reached.
-/

namespace OwidRust

open Runs

/-- A request for the URL was answered in a way that makes this error. -/
def Explained (p : P256) (ch : Chrono) (answers : List (String × Except Error FetchResponse))
    (url : String) (e : Error) : Prop :=
  ∃ response failed, (url, response) ∈ answers ∧
    requestPublicKey p ch url response = .error failed ∧
    e = (FetchFailure.ofError failed).intoError

/-- The error a caller has read, carries or has returned. -/
def Phase.error : Phase → Option Error
  | .answered _ (.error e) => some (FetchFailure.ofError e).intoError
  | .leaving _ (some (.error failure)) | .removed _ (some (.error failure)) =>
    some failure.intoError
  | .returned _ (.error e) => some e
  | _ => none

theorem Phase.error_leaving (f : Nat) (outcome : Option Outcome) :
    (Phase.leaving f outcome).error = (Phase.removed f outcome).error := by
  rcases outcome with _ | (_ | _) <;> rfl

variable {p : P256} {ch : Chrono} {answers more : List (String × Except Error FetchResponse)}

theorem Explained.mono {url : String} {e : Error} (h : Explained p ch answers url e)
    (hmore : answers ⊆ more) : Explained p ch more url e := by
  obtain ⟨response, failed, hmem, hread, he⟩ := h
  exact ⟨response, failed, hmore hmem, hread, he⟩

/-- What explains an error is an answer that is not a key. -/
theorem Explained.status {url : String} {e : Error} (h : Explained p ch answers url e) :
    SignatureStatus.of (.error e) = .keyUnavailable ∨ SignatureStatus.of (.error e) = .invalidKey := by
  obtain ⟨-, failed, -, -, rfl⟩ := h
  exact Verifying.status_intoError _

/-- The check of an OWID calling code can hold comes to an end under every key that can be read,
where the bytes that were signed can be reserved. -/
theorem Obtained.verifyWithPublicKey_isOk {m : Machine} {pems : PrivatePems p}
    {decode : String → Option (List UInt8)} (hm : m.Wide) {o : Owid}
    (h : Obtained m pems decode o) (hr : m.Reserves o false) {pem : String}
    (hpem : Readable p pem) : ∃ verdict, o.verifyWithPublicKey p m pem = .ok verdict := by
  obtain ⟨f, hf, hholds⟩ := h.encodes hm
  have hsigned := Frame.signedBytes_of_encodes hm hf (f.length_head_le.trans hholds) hr
  have hlength : o.signature.length = SIGNATURE_LENGTH := hf.2.2.2.2 ▸ f.signature_length
  obtain ⟨c, hc⟩ := hpem
  obtain ⟨k, -, rfl⟩ := Crypto.newVerifyOnly_eq_ok hc
  obtain ⟨verdict, hverdict⟩ : ∃ verdict, Crypto.verifyByteArray (⟨none, some k⟩ : Crypto p) f.head
      o.signature = .ok verdict := Crypto.verifyByteArray_isOk hlength
  refine ⟨verdict, ?_⟩
  rw [Owid.verifyWithPublicKey, hc, ok_bind, Owid.verifyWithCrypto_of_signed hsigned, hverdict]

namespace Verifying

variable {m : Machine} {s t : Verifying} {e : Event} {u : System}

/-- Every failure in the shared state is explained by an answer to a request for its URL. -/
structure Failing (p : P256) (ch : Chrono) (answers : List (String × Except Error FetchResponse))
    (s : System) : Prop where
  callers : ∀ c caller error, s.callers c = some caller → caller.phase.error = some error →
    Explained p ch answers caller.url error
  ends : ∀ f failure, f < s.nextFlight → (s.flights f).outcome = some (.error failure) →
    Explained p ch answers (s.flights f).url failure.intoError

theorem Failing.mono {s : System} (h : Failing p ch answers s) (hmore : answers ⊆ more) :
    Failing p ch more s :=
  ⟨fun c caller error hc herror => (h.callers c caller error hc herror).mono hmore,
    fun f failure hf hout => (h.ends f failure hf hout).mono hmore⟩

/-- The failures of callers after an event: one who moves reads an answer now, or takes what its fetch
ended with. -/
theorem failures_after {s u : System} (hs : s.Wf) (h : Failing p ch answers s)
    (hm : System.Moves p ch s e u)
    (hanswer : ∀ c caller response, e = .respond c response → s.callers c = some caller →
      (caller.url, response) ∈ answers) :
    ∀ c caller error, u.callers c = some caller → caller.phase.error = some error →
      Explained p ch answers caller.url error := by
  intro c' caller' error' hc' herror
  cases hm with
  | clear | park => exact h.callers c' caller' error' hc' herror
  | @respond c caller f response hc hp =>
    rcases System.caller_cases hc' with ⟨rfl, rfl⟩ | ⟨-, hc'⟩
    · cases hread : requestPublicKey p ch caller.url response with
      | ok read =>
        rw [hread] at herror
        cases herror
      | error failed =>
        rw [hread] at herror
        cases herror
        exact ⟨response, failed, hanswer c' caller response rfl hc, hread, rfl⟩
    · exact h.callers c' caller' error' hc' herror
  | @fail c caller f now failed hc hp =>
    rcases System.caller_cases hc' with ⟨rfl, rfl⟩ | ⟨-, hc'⟩
    · refine h.callers _ caller error' hc ?_
      rw [hp]
      exact herror
    · exact h.callers c' caller' error' hc' herror
  | @release c caller f outcome hc hp =>
    rcases System.caller_cases hc' with ⟨rfl, rfl⟩ | ⟨-, hc'⟩
    · refine h.callers _ caller error' hc ?_
      rw [hp, Phase.error_leaving]
      exact herror
    · exact h.callers c' caller' error' hc' herror
  | @finish c caller f outcome hc hp =>
    rcases System.caller_cases hc' with ⟨rfl, rfl⟩ | ⟨-, hc'⟩
    · refine h.callers _ caller error' hc ?_
      rw [hp]
      cases outcome with
      | none => cases herror
      | some outcome =>
        cases outcome with
        | error failure => exact herror
        | ok answer => cases herror
    · exact h.callers c' caller' error' hc' herror
  | @wake c caller f waker outcome hc hp houtcome =>
    rcases System.caller_cases hc' with ⟨rfl, rfl⟩ | ⟨-, hc'⟩
    · obtain ⟨hlt, hurl, -⟩ := (hs.caller _ caller hc).flight f (by rw [hp]; rfl)
      cases outcome with
      | ok answer => cases herror
      | error failure =>
        cases herror
        have hended := h.ends f failure hlt houtcome
        rw [hurl] at hended
        exact hended
    · exact h.callers c' caller' error' hc' herror
  | serve | record | call | join | elect | send | retry | leave | abandon =>
    rcases System.caller_cases hc' with ⟨rfl, rfl⟩ | ⟨-, hc'⟩
    · cases herror
    · exact h.callers c' caller' error' hc' herror

/-- What fetches that failed ended with after an event. -/
theorem failedEnds_after {s u : System} (hs : s.Wf) (h : Failing p ch answers s)
    (hm : System.Moves p ch s e u) :
    ∀ f failure, f < u.nextFlight → (u.flights f).outcome = some (.error failure) →
      Explained p ch answers (u.flights f).url failure.intoError := by
  intro g failure hg hout
  have hk := System.keeps_of_moves hs hm
  -- a fetch that ended before
  have hbefore : g < s.nextFlight → (s.flights g).outcome = some (.error failure) →
      Explained p ch answers (u.flights g).url failure.intoError := by
    intro hlt hended
    rw [hk.url g hlt]
    exact h.ends g failure hlt hended
  cases hm with
  | call | serve | join | respond | record | fail | release | wake | retry | leave | abandon
  | clear => exact hbefore hg hout
  | send =>
    rw [System.outcome_send] at hout
    exact hbefore hg hout
  | park =>
    rw [System.outcome_park] at hout
    exact hbefore hg hout
  | @elect c caller hc hp =>
    rcases Nat.lt_or_eq_of_le (Nat.le_of_lt_succ hg) with hlt | rfl
    · rw [System.flights_elect hlt] at hout
      exact hbefore hlt hout
    · rw [System.flights_elect_new] at hout
      cases hout
  | @finish c caller f outcome hc hp =>
    by_cases hgf : g = f
    · subst hgf
      simp only [System.finish, Function.update_self] at hout
      have hurl : (s.flights g).url = caller.url :=
        ((hs.caller c caller hc).flight g (by rw [hp]; rfl)).2.1
      rw [hk.url g hg, hurl]
      exact h.callers c caller failure.intoError hc (by rw [hp, hout]; rfl)
    · simp only [System.finish, Function.update_of_ne hgf] at hout
      exact hbefore hg hout

/-- **An event keeps every failure explained.** -/
theorem failing_after (hs : s.sys.Wf) (h : Failing p ch s.answers s.sys)
    (hm : System.Moves p ch s.sys e u) : Failing p ch (s.answersAfter e) u := by
  have hmore := h.mono (s.answers_subset e)
  refine ⟨failures_after hs hmore hm ?_, failedEnds_after hs hmore hm⟩
  rintro c caller response rfl hc
  simp [answersAfter, hc]

theorem failing_of_moves (hs : s.sys.Wf) (h : Failing p ch s.answers s.sys)
    (hm : Moves p ch m s t) : Failing p ch t.answers t.sys := by
  rcases shared_of_moves hm with ⟨hsys, -, hanswers⟩ | ⟨e, hmoves, -, hanswers⟩
  · rw [hsys, hanswers]
    exact h
  · rw [hanswers]
    exact failing_after hs h hmoves

theorem failing_of_reach {allow : Verifying → VerifyEvent → Prop}
    (h : Reach (step p ch m) allow (start .init) s) :
    Traced p ch m s ∧ Failing p ch s.answers s.sys := by
  refine h.invariant (P := fun s => Traced p ch m s ∧ Failing p ch s.answers s.sys)
    ⟨traced_init, ?_, fun f failure hf => absurd hf (Nat.not_lt_zero f)⟩
    fun s e t hs _ hstep => ⟨traced_of_moves hs.1 (moves_of_step hstep),
      failing_of_moves hs.1.wf hs.2 (moves_of_step hstep)⟩
  intro c caller error hc
  simp [start, System.init] at hc

theorem explained_of_returned (h : Failing p ch s.answers s.sys) {c : Nat} {url : String}
    {error : Error} (hurl : s.sys.urlOf c = some url)
    (hreturned : s.sys.returnedBy c = some (.error error)) : Explained p ch s.answers url error := by
  obtain ⟨caller, route, hc, hp⟩ := System.returnedBy_eq_some hreturned
  have hexplained := h.callers c caller error hc (by rw [hp]; rfl)
  rw [System.urlOf, hc, Option.map_some, Option.some.injEq] at hurl
  rwa [hurl] at hexplained

/-! ## What leaves an OWID unjudged -/

end Verifying

end OwidRust
