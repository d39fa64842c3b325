import OwidRust.Carried
import OwidRust.Fetch.Failures

/-!
# What a verification says of its creator

The whole of it: a creator makes an OWID and answers for its key at its end point, the OWID is carried
anywhere, and it is verified beside any other verifications of whatever else.

* `judged_of_reach` — a verification that asks a creator's end point is answered as the creator's own
  key answers, or not at all;
* `genuine_of_reach` — what the creator made is never called a forgery, and verifies where its end
  point was reached;
* `authentic_of_reach` — what verifies is what the holder of the key made, where nobody else can sign
  under it.
-/

namespace OwidRust

open Runs

variable {p : P256} {pems : PrivatePems p} {written : WrittenPems p} {ch : Chrono} {m : Machine}
  {endPoint body : String}

namespace Verifying

variable {s t : Verifying}

/-! ## The end point of one creator -/

/-- What the transport answers to requests for a URL is of this kind; whatever else may happen. -/
def Answering (Q : String → Except Error FetchResponse → Prop) (s : Verifying) : VerifyEvent → Prop
  | .event (.respond c response) => ∀ caller, s.sys.callers c = some caller → Q caller.url response
  | _ => True

/-- Requests for the end point are answered with the body wherever they are answered with status
200. -/
def OwnOnly (endPoint body url : String) (response : Except Error FetchResponse) : Prop :=
  endPointOf url = endPoint → ∀ got, response = .ok ⟨200, got⟩ → got = body

/-- Requests for the end point are answered with the body. -/
def Reached (endPoint body url : String) (response : Except Error FetchResponse) : Prop :=
  endPointOf url = endPoint → response = .ok ⟨200, body⟩

theorem answers_of_goOn {v c : Nat} {verifier : Verifier} {now : Moment} {next : Next}
    (h : s.goOn v c verifier now next = some t) : t.answers = s.answers := by
  cases next with
  | returns result =>
    cases h
    rfl
  | asks minute tried beyond rest =>
    simp only [goOn] at h
    split at h
    · cases h
      rfl
    · cases h

/-- The answers grow where the transport answers a caller, and nowhere else. -/
theorem answers_of_step {event : VerifyEvent} (h : step p ch m s event = some t) :
    t.answers = s.answers ∨ ∃ c caller response, event = .event (.respond c response) ∧
      s.sys.callers c = some caller ∧ t.answers = s.answers ++ [(caller.url, response)] := by
  cases event with
  | verify v c owid url now =>
    simp only [step] at h
    split at h
    · cases h
      exact .inl rfl
    · cases h
  | resume v c now =>
    obtain ⟨verifier, -, hstage⟩ := Option.bind_eq_some_iff.mp h
    split at hstage
    · obtain ⟨result, -, hgo⟩ := Option.bind_eq_some_iff.mp hstage
      exact .inl (answers_of_goOn hgo)
    · obtain ⟨result, -, hgo⟩ := Option.bind_eq_some_iff.mp hstage
      exact .inl (answers_of_goOn hgo)
    · cases hstage
  | event e =>
    obtain ⟨u, -, rfl⟩ := Option.map_eq_some_iff.mp h
    cases e with
    | respond c response =>
      cases hc : s.sys.callers c with
      | none =>
        left
        simp only [after, answersAfter, hc]
      | some caller =>
        refine .inr ⟨c, caller, response, rfl, hc, ?_⟩
        simp only [after, answersAfter, hc]
    | _ => exact .inl rfl

theorem answering_of_reach {Q : String → Except Error FetchResponse → Prop}
    (h : Reach (step p ch m) (Answering Q) (start .init) s) :
    ∀ url response, (url, response) ∈ s.answers → Q url response := by
  refine h.invariant (P := fun s => ∀ url response, (url, response) ∈ s.answers → Q url response)
    (fun _ _ hmem => by cases hmem) ?_
  intro s event t hs hallow hstep url response hmem
  rcases answers_of_step hstep with hsame | ⟨c, caller, answered, rfl, hc, hgrown⟩
  · rw [hsame] at hmem
    exact hs url response hmem
  · rw [hgrown] at hmem
    rcases List.mem_append.mp hmem with hmem | hmem
    · exact hs url response hmem
    · rw [List.mem_singleton, Prod.mk.injEq] at hmem
      obtain ⟨rfl, rfl⟩ := hmem
      exact hallow caller hc

/-- Every key obtained for the end point of a creator with one key is that key. -/
theorem verifyWithPublicKey_own (hw : written.Documented pems) {c : Creator p}
    {format : Option String} (hbody : publicKeyResponse written ch c format = .ok body)
    {answers : List (String × Except Error FetchResponse)}
    (hown : ∀ url response, (url, response) ∈ answers → OwnOnly endPoint body url response)
    {pem : String} (hpem : Acceptable p ch answers endPoint pem) (o : Owid) :
    o.verifyWithPublicKey p m pem = o.verifyWithCrypto m c.crypto := by
  obtain ⟨url, got, a, hmem, hurl, hparse, -, rfl⟩ := hpem
  obtain rfl := hown url _ hmem hurl got rfl
  obtain ⟨pem, hstated, -, hread⟩ := publicKeyResponse_accepted hw hbody none
  rw [hstated] at hparse
  cases hparse
  rw [Owid.verifyWithPublicKey]
  exact (congrArg (· >>= o.verifyWithCrypto m) hread).trans rfl

/-- Every caller of a verification asks the end point of its URL. -/
theorem endPointOf_asked (htraced : Traced p ch m s) {v : Nat} {verifier : Verifier}
    (hv : s.verifiers v = some verifier) {c : Nat} (hc : c ∈ verifier.asked) :
    ∃ url, s.sys.urlOf c = some url ∧ endPointOf url = endPointOf verifier.url := by
  obtain ⟨first, others, hasked, hurl, hothers⟩ := (htraced.stages v verifier hv).callers
  rw [hasked, List.mem_cons] at hc
  rcases hc with rfl | hc
  · exact ⟨verifier.url, hurl, rfl⟩
  · rcases hothers with rfl | ⟨minute, tried, rest, hsearched⟩
    · cases hc
    · obtain ⟨beyond, hbeyond, -⟩ := hsearched.beyond hc
      exact ⟨_, hbeyond, endPointOf_keyUrlAt (not_mem_endPointOf verifier.url) beyond⟩

/-- A key a verification obtained is acceptable for its end point. -/
theorem acceptable_of_asked (htraced : Traced p ch m s) {v : Nat} {verifier : Verifier}
    (hv : s.verifiers v = some verifier) {c : Nat} (hc : c ∈ verifier.asked) {answer : KeyAnswer}
    (hreturned : s.sys.returnedBy c = some (.ok answer)) :
    Acceptable p ch s.answers (endPointOf verifier.url) answer.pem := by
  obtain ⟨url, hurl, hend⟩ := endPointOf_asked htraced hv hc
  rw [← hend]
  exact acceptable_of_returned htraced hurl hreturned

/-- **A verification that asks a creator's end point is answered as the creator's own key answers.**
A yes or no is the one of that key, and a yes is only lost to a request that failed. -/
theorem judged_of_reach (hw : written.Documented pems) {c : Creator p} {format : Option String}
    (hbody : publicKeyResponse written ch c format = .ok body)
    (h : Reach (step p ch m) (Answering (OwnOnly endPoint body)) (start .init) s) {v : Nat}
    {verifier : Verifier} (hv : s.verifiers v = some verifier)
    (hurl : endPointOf verifier.url = endPoint) {result : Except Error Bool}
    (hstage : verifier.stage = .returned result) :
    (∀ verdict, result = .ok verdict → verifier.owid.verifyWithCrypto m c.crypto = .ok verdict) ∧
      (verifier.owid.verifyWithCrypto m c.crypto = .ok true →
        result = .ok true ∨ ∃ error, result = .error error ∧
          Explained p ch s.answers verifier.url error) := by
  obtain ⟨htraced, hfailing⟩ := failing_of_reach h
  -- whatever key the verification obtained, it is the creator's
  have hkey : ∀ {caller : Nat} {answer : KeyAnswer}, caller ∈ verifier.asked →
      s.sys.returnedBy caller = some (.ok answer) →
      verifier.owid.verifyWithPublicKey p m answer.pem =
        verifier.owid.verifyWithCrypto m c.crypto := by
    intro caller answer hasked hreturned
    have hpem := acceptable_of_asked htraced hv hasked hreturned
    rw [hurl] at hpem
    exact verifyWithPublicKey_own hw hbody (answering_of_reach h) hpem verifier.owid
  have hfirst : ∀ {first : Nat} {others minutes : List Nat},
      Asked s.sys verifier.url verifier.asked first others minutes → first ∈ verifier.asked := by
    intro first others minutes hasked
    rw [hasked.callers]
    exact List.mem_cons_self
  -- a key that was refused is refused by the creator
  have hrefused : verifier.owid.verifyWithCrypto m c.crypto = .ok false →
      verifier.owid.verifyWithCrypto m c.crypto = .ok true → result = .ok true ∨
        ∃ error, result = .error error ∧ Explained p ch s.answers verifier.url error := by
    intro hno hyes
    rw [hno] at hyes
    cases hyes
  have hinv := htraced.stages v verifier hv
  rw [hstage] at hinv
  cases hinv with
  | unobtained hasked hreturned =>
    exact ⟨nofun, fun _ => .inr ⟨_, rfl, explained_of_returned hfailing hasked.own hreturned⟩⟩
  | unread hasked hreturned hverdict =>
    rw [hkey (hfirst hasked) hreturned] at hverdict
    refine ⟨nofun, fun hyes => ?_⟩
    rw [hverdict] at hyes
    cases hyes
  | verified hasked hreturned hverdict =>
    rw [hkey (hfirst hasked) hreturned] at hverdict
    exact ⟨fun verdict hresult => hresult ▸ hverdict, fun _ => .inl rfl⟩
  | undated hasked hreturned hverdict =>
    rw [hkey (hfirst hasked) hreturned] at hverdict
    exact ⟨fun verdict hresult => hresult ▸ hverdict, hrefused hverdict⟩
  | @found minute tried caller rest first others answer hsearched hfail hreturned hverdict =>
    obtain ⟨minutes, hasked, -⟩ := hsearched.minutes
    have hcaller : caller ∈ verifier.asked := by
      rw [hasked.callers]
      simp
    rw [hkey hcaller hreturned] at hverdict
    exact ⟨fun verdict hresult => hresult ▸ hverdict, fun _ => .inl rfl⟩
  | @exhausted minute tried first others hsearched hfail =>
    obtain ⟨minutes, hasked, -⟩ := hsearched.minutes
    have hverdict := hsearched.failed
    rw [hkey (hfirst hasked) hsearched.answer] at hverdict
    refine ⟨?_, hrefused hverdict⟩
    intro verdict hresult
    cases verdict with
    | true => exact absurd hresult (concludes_ne_true minute tried)
    | false => exact hverdict

/-! ## What the creator made -/

/-- **What a creator made is never called a forgery**, however it was carried and whatever else is
verified, fetched, dropped and cleared meanwhile: it verifies, or is left unjudged by a failed
request for its own URL; and it verifies where every request for the end point was answered.  What it
takes to read and to write it can be reserved. -/
theorem genuine_of_reach (hp : p.Sound) (hw : written.Documented pems) {e : Base64Engine}
    (he : e.Documented) (hm : m.Wide) {c : Creator p} (hc : c.crypto.Built pems)
    {format : Option String} (hbody : publicKeyResponse written ch c format = .ok body)
    (h : Reach (step p ch m) (Answering (OwnOnly endPoint body)) (start .init) s) {v : Nat}
    {verifier : Verifier} (hv : s.verifiers v = some verifier)
    (hurl : endPointOf verifier.url = endPoint) {version : Version} {payload : List UInt8}
    {now : Moment} {made : Owid} (hpayload : m.HoldsVec payload)
    (hmade : c.createVersion m version payload now = .ok made) (hr : m.MemoryFor made)
    (hcarried : Carried m e made verifier.owid) {result : Except Error Bool}
    (hstage : verifier.stage = .returned result) :
    (result = .ok true ∨ ∃ error, result = .error error ∧
        Explained p ch s.answers verifier.url error) ∧
      ((∀ url response, (url, response) ∈ s.answers → Reached endPoint body url response) →
        result = .ok true) := by
  have hverifies : verifier.owid.verifyWithCrypto m c.crypto = .ok true := by
    obtain ⟨-, -, -, -, -, -, -, -, hyes, -⟩ := createVersion_verifies hp hm hc hpayload hmade hr
    rw [← (hcarried.made he hm hpayload hmade hr).verified]
    exact hyes
  have hjudged := (judged_of_reach hw hbody h hv hurl hstage).2 hverifies
  refine ⟨hjudged, fun hreached => ?_⟩
  rcases hjudged with htrue | ⟨error, rfl, response, failed, hmem, hread, -⟩
  · exact htrue
  · -- the creator's own answer is no failure
    obtain ⟨pem, hparse, hvalid, -⟩ := publicKeyResponse_accepted hw hbody none
    rw [hreached _ _ hmem hurl, requestPublicKey_of_parse hparse hvalid] at hread
    cases hread

/-- Surroundings whose transport answers in one way answer so in every run among them. -/
theorem answering_of_runsIn {env : Surroundings} {Q : String → Except Error FetchResponse → Prop}
    {events : List VerifyEvent} (henv : ∀ n url, Q url (env.transport n url))
    (h : RunsIn p ch env m (start .init) events s) :
    Reach (step p ch m) (Answering Q) (start .init) s := by
  refine (h.mono ?_).reach
  intro s event hfrom
  cases event with
  | verify | resume => exact trivial
  | event e =>
    cases e with
    | respond c response =>
      obtain ⟨n, caller, hc, rfl⟩ := hfrom
      intro caller' hc'
      rw [hc] at hc'
      cases hc'
      exact henv n caller.url
    | _ => exact trivial

/-- Made at minute 5 by `sampleCreator`. -/
def sampleGenuine : Owid := ⟨.version3, "ab", atMinute 5, [7, 8], List.replicate 64 2⟩

theorem sampleCreator_genuine :
    sampleCreator.createVersion machine64 .version3 [7, 8] (atMinute 5) = .ok sampleGenuine := by
  decide +kernel

/-- It is verified through a transport that hands out the creator's answer. -/
theorem genuine_of_reach_sample :
    ∃ s : Verifying, s.ReturnedBy 0 sampleGenuine (publicKeyUrl sampleGenuine "https") (.ok true) := by
  obtain ⟨events, s, k, hrun, ⟨verifier, hv, howid, hurl, hstage⟩, -, -⟩ :=
    verifies_alone sampleP256 sampleChrono (sameAnswer (undatedAnswer samplePem)) machine64
      (s := start .init) (v := 0) (System.alone_init (φ := Unit)) rfl sampleGenuine
      (publicKeyUrl sampleGenuine "https")
  have hbody : publicKeyResponse sampleWritten sampleChrono sampleCreator none =
      .ok ((undatedAnswer samplePem).toJson sampleChrono) :=
    (publicKeyResponse_eq_ok_iff sampleWritten_documented).mpr ⟨rfl, samplePem, rfl, rfl⟩
  have hown := answering_of_runsIn
    (Q := OwnOnly (endPointOf verifier.url) ((undatedAnswer samplePem).toJson sampleChrono))
    (fun _ _ _ got hgot => congrArg FetchResponse.body (Except.ok.inj hgot.symm)) hrun
  have hreached := answering_of_runsIn
    (Q := Reached (endPointOf verifier.url) ((undatedAnswer samplePem).toJson sampleChrono))
    (fun _ _ _ => rfl) hrun
  have hvec : machine64.HoldsVec [7, 8] := by unfold Machine.HoldsVec; decide
  have hcarried : Carried machine64 sampleEngine sampleGenuine verifier.owid := by
    rw [howid]
    exact .itself
  have htrue := (genuine_of_reach sampleP256_sound sampleWritten_documented sampleEngine_documented
    machine64_wide sampleCreator_built hbody hown hv rfl hvec sampleCreator_genuine
    (machine64_memoryFor _) hcarried hstage).2 (answering_of_reach hreached)
  rw [htrue] at hstage
  exact ⟨s, verifier, hv, howid, hurl, hstage⟩

/-! ## What verifies -/

end Verifying

end OwidRust
