import OwidRust.Fetch.ClearCache
import OwidRust.Fetch.NeighbourSearch

/-!
# Where keys come from

Every key that reaches a caller, by its own fetch, a fetch it waited on or a held key, and so every
key that reaches a verification, comes from an answer of the transport that was checked.

* `Sourced`, `sourced_after` — held keys, answers read, what leaders carry, what fetches ended with
  and what callers returned, all at once;
* `Traced`, `returned_cases` — what a verification can come to;
* `keysSourced_of_reach` — the provenance of keys, in every state reached.
-/

namespace OwidRust

open Runs

/-- A 200 answer to a request for the end point was read and checked, and its key is this one. -/
def Acceptable (p : P256) (ch : Chrono) (answers : List (String × Except Error FetchResponse))
    (endPoint pem : String) : Prop :=
  ∃ url body a, (url, .ok ⟨200, body⟩) ∈ answers ∧ endPointOf url = endPoint ∧
    PublicKeyAnswer.parse ch body = .ok a ∧ a.validate p none = .ok () ∧ a.publicKey = pem

/-- The key a caller has read, carries or has returned. -/
def Phase.key : Phase → Option String
  | .answered _ (.ok (pem, _, _)) => some pem
  | .leaving _ (some (.ok answer)) | .removed _ (some (.ok answer)) => some answer.pem
  | .returned _ (.ok answer) => some answer.pem
  | _ => none

theorem Phase.key_leaving (f : Nat) (outcome : Option Outcome) :
    (Phase.leaving f outcome).key = (Phase.removed f outcome).key := by
  rcases outcome with _ | (_ | _) <;> rfl

/-- `Owid::verify_status`, where the verification has returned. -/
def Verifier.status (verifier : Verifier) : Option SignatureStatus :=
  match verifier.stage with
  | .returned result => some (SignatureStatus.of result)
  | _ => none

variable {p : P256} {ch : Chrono} {answers more : List (String × Except Error FetchResponse)}

theorem Acceptable.mono {endPoint pem : String} (h : Acceptable p ch answers endPoint pem)
    (hmore : answers ⊆ more) : Acceptable p ch more endPoint pem := by
  obtain ⟨url, body, a, hmem, hurl, hparse, hvalid, hpem⟩ := h
  exact ⟨url, body, a, hmore hmem, hurl, hparse, hvalid, hpem⟩

/-- A key read from an answer is acceptable. -/
theorem acceptable_of_read {url pem : String} {start stop : Option Nat}
    {response : Except Error FetchResponse} (hmem : (url, response) ∈ answers)
    (h : requestPublicKey p ch url response = .ok (pem, start, stop)) :
    Acceptable p ch answers (endPointOf url) pem := by
  obtain ⟨body, a, rfl, hparse, hvalid, hpem, -, -⟩ := requestPublicKey_eq_ok h
  exact ⟨url, body, a, hmem, rfl, hparse, hvalid, hpem.symm⟩

namespace Verifying

variable {m : Machine} {s t : Verifying} {e : Event} {u : System}

/-- Every key in the shared state comes from an acceptable answer for its end point. -/
structure Sourced (p : P256) (ch : Chrono) (answers : List (String × Except Error FetchResponse))
    (s : System) : Prop where
  held : ∀ endPoint, ∀ k ∈ s.cache.heldAt endPoint, Acceptable p ch answers endPoint k.pem
  callers : ∀ c caller pem, s.callers c = some caller → caller.phase.key = some pem →
    Acceptable p ch answers (endPointOf caller.url) pem
  ends : ∀ f answer, f < s.nextFlight → (s.flights f).outcome = some (.ok answer) →
    Acceptable p ch answers (endPointOf (s.flights f).url) answer.pem

theorem Sourced.mono {s : System} (h : Sourced p ch answers s) (hmore : answers ⊆ more) :
    Sourced p ch more s :=
  ⟨fun endPoint k hk => (h.held endPoint k hk).mono hmore,
    fun c caller pem hc hkey => (h.callers c caller pem hc hkey).mono hmore,
    fun f answer hf hout => (h.ends f answer hf hout).mono hmore⟩

theorem answers_subset (s : Verifying) (e : Event) : s.answers ⊆ s.answersAfter e := by
  cases e with
  | respond c response =>
    simp only [answersAfter]
    split
    · exact List.subset_append_left _ _
    · exact List.Subset.refl _
  | _ => exact List.Subset.refl _

/-- The keys held after an event. -/
theorem held_after {s u : System} (h : Sourced p ch answers s) (hm : System.Moves p ch s e u) :
    ∀ endPoint, ∀ k ∈ u.cache.heldAt endPoint, Acceptable p ch answers endPoint k.pem := by
  intro endPoint k hk
  cases hm with
  | call | serve | join | elect | send | respond | fail | release | finish | wake | retry | park
  | leave | abandon => exact h.held endPoint k hk
  | clear => cases hk
  | @record c caller f now pem start stop hc hp =>
    rcases System.mem_heldAt_hold hk with hk | ⟨span, -, rfl, ⟨key, hkey, hpem, rfl⟩ | rfl⟩
    · exact h.held endPoint k hk
    · exact h.held _ key hkey
    · exact h.callers c caller pem hc (by rw [hp]; rfl)

/-- The keys callers have after an event: one who moves takes a held key, an answer read now, or
what its fetch ended with. -/
theorem callers_after {s u : System} (hs : s.Wf) (h : Sourced p ch answers s)
    (hm : System.Moves p ch s e u)
    (hanswer : ∀ c caller response, e = .respond c response → s.callers c = some caller →
      (caller.url, response) ∈ answers) :
    ∀ c caller pem, u.callers c = some caller → caller.phase.key = some pem →
      Acceptable p ch answers (endPointOf caller.url) pem := by
  intro c' caller' pem' hc' hkey
  cases hm with
  | clear | park => exact h.callers c' caller' pem' hc' hkey
  | @serve c caller answer hc hp hheld =>
    rcases System.caller_cases hc' with ⟨rfl, rfl⟩ | ⟨-, hc'⟩
    · cases hkey
      obtain ⟨minute, -, hfor⟩ := Option.bind_eq_some_iff.mp hheld
      obtain ⟨k, hk, -, -, -, rfl⟩ := Cache.heldFor_eq_some hfor
      rw [HeldKey.stated_pem]
      exact h.held _ k hk
    · exact h.callers c' caller' pem' hc' hkey
  | @respond c caller f response hc hp =>
    rcases System.caller_cases hc' with ⟨rfl, rfl⟩ | ⟨-, hc'⟩
    · have hmem := hanswer c' caller response rfl hc
      cases hread : requestPublicKey p ch caller.url response with
      | error e =>
        rw [hread] at hkey
        cases hkey
      | ok read =>
        obtain ⟨pem, start, stop⟩ := read
        rw [hread] at hkey
        cases hkey
        exact acceptable_of_read hmem hread
    · exact h.callers c' caller' pem' hc' hkey
  | @record c caller f now pem start stop hc hp =>
    rcases System.caller_cases hc' with ⟨rfl, rfl⟩ | ⟨-, hc'⟩
    · rw [Phase.key, Cache.hold_snd, KeyAnswer.stated_pem] at hkey
      cases hkey
      exact h.callers _ caller _ hc (by rw [hp]; rfl)
    · exact h.callers c' caller' pem' hc' hkey
  | @release c caller f outcome hc hp =>
    rcases System.caller_cases hc' with ⟨rfl, rfl⟩ | ⟨-, hc'⟩
    · refine h.callers _ caller pem' hc ?_
      rw [hp, Phase.key_leaving]
      exact hkey
    · exact h.callers c' caller' pem' hc' hkey
  | @finish c caller f outcome hc hp =>
    rcases System.caller_cases hc' with ⟨rfl, rfl⟩ | ⟨-, hc'⟩
    · refine h.callers _ caller pem' hc ?_
      rw [hp]
      cases outcome with
      | none => cases hkey
      | some outcome =>
        cases outcome with
        | error failure => cases hkey
        | ok answer => exact hkey
    · exact h.callers c' caller' pem' hc' hkey
  | @wake c caller f waker outcome hc hp houtcome =>
    rcases System.caller_cases hc' with ⟨rfl, rfl⟩ | ⟨-, hc'⟩
    · obtain ⟨hlt, hurl, -⟩ := (hs.caller _ caller hc).flight f (by rw [hp]; rfl)
      cases outcome with
      | error failure => cases hkey
      | ok answer =>
        cases hkey
        have hsource := h.ends f answer hlt houtcome
        rw [hurl] at hsource
        exact hsource
    · exact h.callers c' caller' pem' hc' hkey
  | call | join | elect | send | fail | retry | leave | abandon =>
    rcases System.caller_cases hc' with ⟨rfl, rfl⟩ | ⟨-, hc'⟩
    · cases hkey
    · exact h.callers c' caller' pem' hc' hkey

/-- What fetches ended with after an event. -/
theorem ends_after {s u : System} (hs : s.Wf) (h : Sourced p ch answers s)
    (hm : System.Moves p ch s e u) :
    ∀ f answer, f < u.nextFlight → (u.flights f).outcome = some (.ok answer) →
      Acceptable p ch answers (endPointOf (u.flights f).url) answer.pem := by
  intro g answer hg hout
  have hk := System.keeps_of_moves hs hm
  -- a fetch that ended before
  have hbefore : g < s.nextFlight → (s.flights g).outcome = some (.ok answer) →
      Acceptable p ch answers (endPointOf (u.flights g).url) answer.pem := by
    intro hlt hended
    rw [hk.url g hlt]
    exact h.ends g answer hlt hended
  cases hm with
  | call | serve | join | respond | record | fail | release | wake | retry | leave | abandon
  | clear => exact hbefore hg hout
  | send =>
    rw [System.outcome_send] at hout
    exact hbefore hg hout
  | park =>
    rw [System.outcome_park] at hout
    exact hbefore hg hout
  | @elect c caller hc hp =>
    rcases Nat.lt_or_eq_of_le (Nat.le_of_lt_succ hg) with hlt | rfl
    · rw [System.flights_elect hlt] at hout
      exact hbefore hlt hout
    · rw [System.flights_elect_new] at hout
      cases hout
  | @finish c caller f outcome hc hp =>
    by_cases hgf : g = f
    · subst hgf
      simp only [System.finish, Function.update_self] at hout
      have hurl : (s.flights g).url = caller.url :=
        ((hs.caller c caller hc).flight g (by rw [hp]; rfl)).2.1
      rw [hk.url g hg, hurl]
      exact h.callers c caller answer.pem hc (by rw [hp, hout]; rfl)
    · simp only [System.finish, Function.update_of_ne hgf] at hout
      exact hbefore hg hout

/-- **An event keeps every key sourced.** -/
theorem sourced_after (hs : s.sys.Wf) (h : Sourced p ch s.answers s.sys)
    (hm : System.Moves p ch s.sys e u) : Sourced p ch (s.answersAfter e) u := by
  have hmore := h.mono (s.answers_subset e)
  refine ⟨held_after hmore hm, callers_after hs hmore hm ?_, ends_after hs hmore hm⟩
  rintro c caller response rfl hc
  simp [answersAfter, hc]

/-! ## Errors -/

/-- A caller returns an error only where a fetch failed. -/
structure ErrorsShared (s : System) : Prop where
  held : ∀ c caller sources result, s.callers c = some caller →
    caller.phase = .returned (.held sources) result → ∃ answer, result = .ok answer

theorem errorsShared_of_moves {s u : System} (h : ErrorsShared s) (hm : System.Moves p ch s e u) :
    ErrorsShared u := by
  refine ⟨?_⟩
  intro c caller sources result hc hphase
  rcases System.held_of_moves hm hc hphase with hbefore | ⟨-, answer, -, -, -, -, -, hok⟩
  · exact h.held c caller sources result hbefore hphase
  · exact ⟨answer, hok⟩

/-- **An error a caller returns is one made of a shared failure.** -/
theorem failure_of_returned {s : System} (hs : s.Wf) (h : ErrorsShared s) {c : Nat} {e : Error}
    (hreturned : s.returnedBy c = some (.error e)) :
    ∃ failure : FetchFailure, e = failure.intoError := by
  obtain ⟨caller, route, hc, hp⟩ := System.returnedBy_eq_some hreturned
  cases route with
  | held sources =>
    obtain ⟨answer, hok⟩ := h.held c caller sources _ hc hp
    cases hok
  | fetched f =>
    obtain ⟨outcome, -, hresult⟩ := hs.ended c caller f _ hc hp
    cases outcome with
    | ok answer => cases hresult
    | error failure => exact ⟨failure, Except.error.inj hresult⟩

theorem status_intoError (failure : FetchFailure) :
    SignatureStatus.of (.error failure.intoError) = .keyUnavailable ∨
      SignatureStatus.of (.error failure.intoError) = .invalidKey := by
  cases failure with
  | http message => exact .inl rfl
  | key message => exact .inr rfl

/-! ## What a verification can come to -/

/-- What holds in every state reached. -/
structure Traced (p : P256) (ch : Chrono) (m : Machine) (s : Verifying) : Prop where
  wf : s.sys.Wf
  stages : StagesInv p m s
  sourced : Sourced p ch s.answers s.sys
  errors : ErrorsShared s.sys

theorem traced_of_moves (h : Traced p ch m s) (hm : Moves p ch m s t) : Traced p ch m t := by
  have hkept := stagesInv_of_moves h.stages hm
  rcases shared_of_moves hm with ⟨hsys, -, hanswers⟩ | ⟨e, hmoves, -, hanswers⟩
  · refine ⟨?_, hkept, ?_, ?_⟩
    · rw [hsys]
      exact h.wf
    · rw [hsys, hanswers]
      exact h.sourced
    · rw [hsys]
      exact h.errors
  · refine ⟨System.wf_of_moves h.wf hmoves, hkept, ?_, errorsShared_of_moves h.errors hmoves⟩
    rw [hanswers]
    exact sourced_after h.wf h.sourced hmoves

theorem traced_init : Traced p ch m (start .init) where
  wf := System.wf_init
  stages v verifier hv := by cases hv
  sourced := by
    refine ⟨?_, ?_, fun f answer hf => absurd hf (Nat.not_lt_zero f)⟩
    · intro endPoint k hk
      cases hk
    · intro c caller pem hc
      simp [start, System.init] at hc
  errors := by
    refine ⟨?_⟩
    intro c caller sources result hc
    simp [start, System.init] at hc

theorem traced_of_reach {allow : Verifying → VerifyEvent → Prop}
    (h : Reach (step p ch m) allow (start .init) s) : Traced p ch m s :=
  h.invariant (P := Traced p ch m) traced_init
    fun _ _ _ hs _ hstep => traced_of_moves hs (moves_of_step hstep)

/-- A key returned for a URL comes from an acceptable answer for its end point. -/
theorem acceptable_of_returned (h : Traced p ch m s) {c : Nat} {url : String} {answer : KeyAnswer}
    (hurl : s.sys.urlOf c = some url) (hreturned : s.sys.returnedBy c = some (.ok answer)) :
    Acceptable p ch s.answers (endPointOf url) answer.pem := by
  obtain ⟨caller, route, hc, hp⟩ := System.returnedBy_eq_some hreturned
  have hsource := h.sourced.callers c caller answer.pem hc (by rw [hp]; rfl)
  rw [System.urlOf, hc, Option.map_some, Option.some.injEq] at hurl
  rwa [hurl] at hsource

/-- **What a verification comes to**: without a key for its URL one of the two statuses of a key
not had, and otherwise there is an acceptable answer for its end point. -/
theorem returned_cases (h : Traced p ch m s) {v : Nat} {verifier : Verifier}
    {result : Except Error Bool} (hv : s.verifiers v = some verifier)
    (hstage : verifier.stage = .returned result) :
    (∃ e, result = .error e ∧ (SignatureStatus.of result = .keyUnavailable ∨
        SignatureStatus.of result = .invalidKey)) ∨
      ∃ pem, Acceptable p ch s.answers (endPointOf verifier.url) pem := by
  have hinv := h.stages v verifier hv
  rw [hstage] at hinv
  cases hinv with
  | unobtained hasked hreturned =>
    obtain ⟨failure, rfl⟩ := failure_of_returned h.wf h.errors hreturned
    exact .inl ⟨_, rfl, status_intoError failure⟩
  | unread hasked hreturned | verified hasked hreturned | undated hasked hreturned =>
    exact .inr ⟨_, acceptable_of_returned h hasked.own hreturned⟩
  | found hsearched | exhausted hsearched =>
    obtain ⟨minutes, hasked, -⟩ := hsearched.minutes
    exact .inr ⟨_, acceptable_of_returned h hasked.own hsearched.answer⟩

/-- Keys and statuses come from acceptable answers only. -/
structure KeysSourced (p : P256) (ch : Chrono) (s : Verifying) : Prop where
  /-- Every key returned for a URL. -/
  returned : ∀ c caller route answer, s.sys.callers c = some caller →
    caller.phase = .returned route (.ok answer) →
    Acceptable p ch s.answers (endPointOf caller.url) answer.pem
  /-- An OWID is judged only with a key for its end point. -/
  judged : ∀ v verifier scheme, s.verifiers v = some verifier →
    verifier.url = publicKeyUrl verifier.owid scheme →
    verifier.status = some .valid ∨ verifier.status = some .invalid →
    ∃ pem, Acceptable p ch s.answers (endPointOf (publicKeyUrl verifier.owid scheme)) pem
  /-- A transport without one leaves it unjudged. -/
  unjudged : ∀ v verifier scheme status, s.verifiers v = some verifier →
    verifier.url = publicKeyUrl verifier.owid scheme → verifier.status = some status →
    (∀ pem, ¬ Acceptable p ch s.answers (endPointOf (publicKeyUrl verifier.owid scheme)) pem) →
    status = .keyUnavailable ∨ status = .invalidKey

theorem status_eq_some {verifier : Verifier} {status : SignatureStatus}
    (h : verifier.status = some status) :
    ∃ result, verifier.stage = .returned result ∧ SignatureStatus.of result = status := by
  unfold Verifier.status at h
  split at h
  · rename_i result hstage
    exact ⟨result, hstage, Option.some.inj h⟩
  · cases h

/-- **Every key comes from an acceptable answer**, whatever the transport and the callers do. -/
theorem keysSourced_of_reach {allow : Verifying → VerifyEvent → Prop}
    (h : Reach (step p ch m) allow (start .init) s) : KeysSourced p ch s := by
  have htraced := traced_of_reach h
  refine ⟨?_, ?_, ?_⟩
  · intro c caller route answer hc hp
    exact htraced.sourced.callers c caller answer.pem hc (by rw [hp]; rfl)
  · intro v verifier scheme hv hurl hstatus
    rw [← hurl]
    obtain ⟨status, hsome, hjudged⟩ : ∃ status, verifier.status = some status ∧
        (status = .valid ∨ status = .invalid) := by
      rcases hstatus with hstatus | hstatus
      · exact ⟨_, hstatus, .inl rfl⟩
      · exact ⟨_, hstatus, .inr rfl⟩
    obtain ⟨result, hstage, rfl⟩ := status_eq_some hsome
    rcases returned_cases htraced hv hstage with ⟨e, rfl, hnot⟩ | hpem
    · rcases hjudged with hjudged | hjudged <;> rcases hnot with hnot | hnot <;>
        rw [hnot] at hjudged <;> cases hjudged
    · exact hpem
  · intro v verifier scheme status hv hurl hstatus hnone
    rw [← hurl] at hnone
    obtain ⟨result, hstage, rfl⟩ := status_eq_some hstatus
    rcases returned_cases htraced hv hstage with ⟨e, -, hnot⟩ | ⟨pem, hpem⟩
    · exact hnot
    · exact absurd hpem (hnone pem)

/-! ## A key fetched -/

/-- A run of the callers is one with no verification beside them. -/
theorem reach_of_system {u : System}
    (h : Reach (System.step p ch) (fun _ _ => True) s.sys u) :
    ∃ t, Reach (step p ch m) (fun _ _ => True) s t ∧ t.sys = u := by
  induction h with
  | start => exact ⟨s, .start, rfl⟩
  | @next u w e _ _ hstep ih =>
    obtain ⟨t, ht, rfl⟩ := ih
    exact ⟨t.after e w, ht.next trivial (step_event hstep), rfl⟩

def askedFifteen : List Event := [.call 1 System.slowUrl baseDate, .turn 1, .send 1]

def recordedFifteen : List Event := [.record 1 baseDate, .release 1, .finish 1]

set_option maxRecDepth 10000 in
/-- A caller asks for minute 15 and is answered with the key in force from minute 10 to 20. -/
theorem keysSourced_of_reach_sample :
    ∃ s, Reach (step sampleP256 sampleChrono machine64) (fun _ _ => True) (start .init) s ∧
      s.sys.returnedBy 1 = some (.ok ⟨samplePem, 10, 19, true⟩) ∧
      KeysSourced sampleP256 sampleChrono s := by
  obtain ⟨u, hasked, hu⟩ : ∃ u, askedFifteen.foldlM (System.step sampleP256 sampleChrono) .init =
      some u ∧ u.callers 1 = some ⟨System.slowUrl, true, 0, .requesting 0⟩ := ⟨_, rfl, rfl⟩
  have hanswered : System.step sampleP256 sampleChrono u (.respond 1 System.slowResponse) =
      some (u.setPhase 1 ⟨System.slowUrl, true, 0, .requesting 0⟩
        (.answered 0 (.ok (samplePem, some 10, some 20)))) := by
    simp only [System.step, hu, Option.bind_some, System.requestPublicKey_slowResponse]
  obtain ⟨w, hrecorded, hw⟩ : ∃ w, recordedFifteen.foldlM (System.step sampleP256 sampleChrono)
      (u.setPhase 1 ⟨System.slowUrl, true, 0, .requesting 0⟩
        (.answered 0 (.ok (samplePem, some 10, some 20)))) = some w ∧
      w.returnedBy 1 = some (.ok ⟨samplePem, 10, 19, true⟩) := by
    cases hasked
    exact ⟨_, rfl, rfl⟩
  have hrun : Reach (System.step sampleP256 sampleChrono) (fun _ _ => True) .init w :=
    ((reach_of_foldlM (fun _ _ => trivial) hasked).next trivial hanswered).trans
      (reach_of_foldlM (fun _ _ => trivial) hrecorded)
  obtain ⟨s, hs, rfl⟩ := reach_of_system (m := machine64) (s := start .init) hrun
  exact ⟨s, hs, hw, keysSourced_of_reach hs⟩

end Verifying

end OwidRust
