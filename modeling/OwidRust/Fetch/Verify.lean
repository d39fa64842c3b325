import OwidRust.Fetch.StatedSpan

/-!
# Verification at a URL

`key_at_url`, `Owid::verify_at_url` and `neighbour_verifies` of `src/fetch.rs` for a caller that
runs by itself: no fetch is under way when it asks for a key, and the one it makes ends before it
goes on.  What the transport answers and what the local clock reads are functions of how often they
were asked before.

* `keyAtUrl_of_held`, `keyAtUrl_of_not_held` — the two ways a key is answered;
* `neighbourVerifies_eq_false` — the neighbours that were obtained and do not verify;
* `verifyAtUrl_outside_iff` — when a key the creator says was not in force is reported as
  unavailable.
-/

namespace OwidRust

/-- What a caller finds around it: what the transport answers to each request and what the clock
reads each time. -/
structure Surroundings where
  transport : Nat → String → Except Error FetchResponse
  clock : Nat → Moment

/-- What a caller working by itself changes: the cache, and how many requests were made and how
many readings of the clock were taken. -/
structure World (φ : Type) where
  cache : Cache φ
  requests : Nat
  readings : Nat

variable {φ : Type}

/-- The world before anything was asked. -/
def World.fresh (φ : Type) : World φ := ⟨.empty, 0, 0⟩

section Steps

variable (p : P256) (ch : Chrono) (env : Surroundings)

/-- `minute.is_some_and(recent)`. -/
def isRecent (w : World φ) (minute : Option Nat) : Bool :=
  minute.any (recent (env.clock w.readings))

/-- The request `key_at_url` makes where the key is not held, and the recording of its answer. -/
def fetchKey (url : String) (recent : Bool) (w : World φ) :
    Except Error KeyAnswer × World φ :=
  let asked := { w with requests := w.requests + 1 }
  match requestPublicKey p ch url (env.transport w.requests url) with
  | .ok (pem, start, stop) =>
    let held := w.cache.hold (env.clock w.readings) (endPointOf url) (minuteOf url) recent pem
      start stop
    (.ok held.2, { asked with cache := held.1, readings := w.readings + 1 })
  | .error e => (.error (FetchFailure.ofError e).intoError, asked)

/-- `key_at_url`, for a caller working by itself. -/
def keyAtUrl (url : String) (w : World φ) : Except Error KeyAnswer × World φ :=
  let recent := isRecent env w (minuteOf url)
  let w := { w with readings := w.readings + 1 }
  match (minuteOf url).bind fun minute =>
      w.cache.heldFor (endPointOf url) minute recent with
  | some answer => (.ok answer, w)
  | none => fetchKey p ch env url recent w

/-- The minutes just beyond the edges of the span stated for the key tried. -/
def beyond (minute : Nat) (tried : KeyAnswer) : List Nat :=
  (if 0 < tried.first ∧ nearEdge minute tried.first then [tried.first - 1] else []) ++
    (if tried.last < u32Max ∧ nearEdge minute tried.last then [tried.last + 1] else [])

variable (m : Machine) (o : Owid)

/-- The loop of `neighbour_verifies`. -/
def tryNeighbours (endPoint : String) (tried : KeyAnswer) :
    List Nat → World φ → Bool × World φ
  | [], w => (false, w)
  | minute :: rest, w =>
    match keyAtUrl p ch env (keyUrlAt endPoint minute) w with
    | (.error _, w) => tryNeighbours endPoint tried rest w
    | (.ok neighbour, w) =>
      if neighbour.pem = tried.pem then tryNeighbours endPoint tried rest w
      else
        match o.verifyWithPublicKey p m neighbour.pem with
        | .ok true => (true, w)
        | _ => tryNeighbours endPoint tried rest w

/-- `Owid::neighbour_verifies`. -/
def neighbourVerifies (url : String) (minute : Nat) (tried : KeyAnswer) (w : World φ) :
    Bool × World φ :=
  if tried.known then
    tryNeighbours p ch env m o (endPointOf url) tried (beyond minute tried) w
  else (false, w)

/-- The failure of a key its creator says was not in force. -/
def notInForce : Error :=
  .http ("the creator states that the key it answered with was not in force at the OWID's date, " ++
    "so the signature could not be checked")

/-- `Owid::verify_at_url`. -/
def verifyAtUrl (url : String) (w : World φ) : Except Error Bool × World φ :=
  match keyAtUrl p ch env url w with
  | (.error e, w) => (.error e, w)
  | (.ok answer, w) =>
    match o.verifyWithPublicKey p m answer.pem with
    | .error e => (.error e, w)
    | .ok true => (.ok true, w)
    | .ok false =>
      match minutesSinceBase o.date with
      | none => (.ok false, w)
      | some minute =>
        match neighbourVerifies p ch env m o url minute answer w with
        | (true, w) => (.ok true, w)
        | (false, w) =>
          if answer.known && !answer.covers minute then (.error notInForce, w) else (.ok false, w)

/-- `Owid::verify`. -/
def verify (scheme : String) (w : World φ) : Except Error Bool × World φ :=
  verifyAtUrl p ch env m o (publicKeyUrl o scheme) w

/-- What the neighbouring minutes are answered with, asked one after the other. -/
def neighbourAnswers (endPoint : String) :
    List Nat → World φ → List (Except Error KeyAnswer)
  | [], _ => []
  | minute :: rest, w =>
    let asked := keyAtUrl p ch env (keyUrlAt endPoint minute) w
    asked.1 :: neighbourAnswers endPoint rest asked.2

end Steps

variable {p : P256} {ch : Chrono} {env : Surroundings} {m : Machine} {o : Owid}

/-! ## A key at a URL -/

theorem keyAtUrl_of_held {url : String} {w : World φ} {minute : Nat} {answer : KeyAnswer}
    (hminute : minuteOf url = some minute)
    (hheld : w.cache.heldFor (endPointOf url) minute (isRecent env w (some minute)) =
      some answer) :
    keyAtUrl p ch env url w = (.ok answer, { w with readings := w.readings + 1 }) := by
  unfold keyAtUrl
  simp only [hminute, Option.bind_some, hheld]

theorem keyAtUrl_of_not_held {url : String} {w : World φ}
    (hheld : ∀ minute, minuteOf url = some minute →
      w.cache.heldFor (endPointOf url) minute (isRecent env w (minuteOf url)) = none) :
    keyAtUrl p ch env url w =
      fetchKey p ch env url (isRecent env w (minuteOf url))
        { w with readings := w.readings + 1 } := by
  unfold keyAtUrl
  cases hminute : minuteOf url with
  | none => rfl
  | some minute =>
    have hnone := hheld minute hminute
    rw [hminute] at hnone
    simp only [Option.bind_some, hnone]

/-- An answer read and checked is the one a fetch answers with. -/
theorem fetchKey_of_parse {url body : String} {recent : Bool} {w : World φ}
    {a : PublicKeyAnswer} (hresponse : env.transport w.requests url = .ok ⟨200, body⟩)
    (hparse : PublicKeyAnswer.parse ch body = .ok a) (hvalid : a.validate p none = .ok ()) :
    fetchKey p ch env url recent w =
      (.ok (KeyAnswer.stated a.publicKey (statedMinute a.validFrom) (statedMinute a.validTo)),
        { w with
          requests := w.requests + 1
          readings := w.readings + 1
          cache := (w.cache.hold (env.clock w.readings) (endPointOf url) (minuteOf url) recent
            a.publicKey (statedMinute a.validFrom) (statedMinute a.validTo)).1 }) := by
  unfold fetchKey
  rw [hresponse, requestPublicKey_of_parse hparse hvalid]
  simp only [Cache.hold]
  split <;> rfl

/-! ## Neighbours -/

/-- Neighbours that do not verify leave the failure standing. -/
theorem tryNeighbours_eq_false {endPoint : String} {tried : KeyAnswer} :
    ∀ (minutes : List Nat) (w : World φ),
      (∀ answer, .ok answer ∈ neighbourAnswers p ch env endPoint minutes w →
        o.verifyWithPublicKey p m answer.pem ≠ .ok true) →
      (tryNeighbours p ch env m o endPoint tried minutes w).1 = false
  | [], _, _ => rfl
  | minute :: rest, w, h => by
    unfold tryNeighbours
    unfold neighbourAnswers at h
    cases hasked : keyAtUrl p ch env (keyUrlAt endPoint minute) w with
    | mk answer next =>
      have hrest : (tryNeighbours p ch env m o endPoint tried rest next).1 = false := by
        apply tryNeighbours_eq_false rest next
        intro other hother
        apply h
        rw [hasked]
        exact List.mem_cons_of_mem _ hother
      cases answer with
      | error e => exact hrest
      | ok neighbour =>
        simp only
        split
        · exact hrest
        · have hnot := h neighbour (by rw [hasked]; exact List.mem_cons_self)
          split
          · rename_i htrue
            exact absurd htrue hnot
          · exact hrest

theorem neighbourVerifies_eq_false {url : String} {minute : Nat} {tried : KeyAnswer}
    {w : World φ}
    (h : ∀ answer, .ok answer ∈ neighbourAnswers p ch env (endPointOf url)
      (beyond minute tried) w → o.verifyWithPublicKey p m answer.pem ≠ .ok true) :
    (neighbourVerifies p ch env m o url minute tried w).1 = false := by
  unfold neighbourVerifies
  split
  · exact tryNeighbours_eq_false _ w h
  · rfl

/-! ## A key that was not in force -/

/-- The outcome where neither the key nor a neighbour verifies. -/
theorem verifyAtUrl_of_fails {url : String} {w next : World φ} {answer : KeyAnswer}
    (hkey : keyAtUrl p ch env url w = (.ok answer, next))
    (hfails : o.verifyWithPublicKey p m answer.pem = .ok false)
    (hneighbours : ∀ minute, minutesSinceBase o.date = some minute →
      (neighbourVerifies p ch env m o url minute answer next).1 = false) :
    (verifyAtUrl p ch env m o url w).1 =
      match minutesSinceBase o.date with
      | none => .ok false
      | some minute =>
        if answer.known && !answer.covers minute then .error notInForce else .ok false := by
  unfold verifyAtUrl
  rw [hkey]
  simp only [hfails]
  cases hdate : minutesSinceBase o.date with
  | none => rfl
  | some minute =>
    have hfalse := hneighbours minute hdate
    simp only
    cases hresult : neighbourVerifies p ch env m o url minute answer next with
    | mk found after =>
      rw [hresult] at hfalse
      simp only at hfalse
      subst hfalse
      simp only
      split <;> rfl

/-- The moment is before the start the creator stated, or not before the end. -/
def OutsideStatement (a : PublicKeyAnswer) (d : Moment) : Prop :=
  (∃ start ∈ a.validFrom, d < start) ∨ ∃ stop ∈ a.validTo, stop ≤ d

/-- The statement that a date is outside survives the counting in minutes. -/
def CountedOutside (a : PublicKeyAnswer) (d : Moment) : Prop :=
  ∃ minute first, minutesSinceBase d = some minute ∧ statedMinute a.validFrom = some first ∧
    (minute < first ∨ ∃ last, statedMinute a.validTo = some last ∧ first < last ∧ last ≤ minute)

theorem known_and_not_covers_iff {pem : String} {first last : Option Nat} {minute : Nat}
    (hminute : minute ≤ u32Max) :
    ((KeyAnswer.stated pem first last).known &&
        !(KeyAnswer.stated pem first last).covers minute) = true ↔
      ∃ start, first = some start ∧
        (minute < start ∨ ∃ stop, last = some stop ∧ start < stop ∧ stop ≤ minute) := by
  cases first with
  | none => simp [KeyAnswer.stated, KeyAnswer.unknown]
  | some start =>
    rw [KeyAnswer.stated_known, Bool.true_and, Bool.not_eq_eq_eq_not, Bool.not_true, ← Bool.not_eq_true,
      covers_stated_iff]
    simp only [Option.some.injEq, exists_eq_left', Option.mem_def]
    constructor
    · intro h
      by_cases hbefore : minute < start
      · exact .inl hbefore
      right
      by_cases hends : ∃ stop, last = some stop ∧ start < stop
      · obtain ⟨stop, hstop, hlt⟩ := hends
        refine ⟨stop, hstop, hlt, ?_⟩
        by_contra hle
        exact h ⟨by omega, .inl ⟨stop, hstop, hlt, by omega⟩⟩
      · exact absurd ⟨by omega, .inr ⟨hends, hminute⟩⟩ h
    · rintro (hbefore | ⟨stop, hstop, hlt, hle⟩) ⟨hfrom, h⟩
      · omega
      · rcases h with ⟨stop', hstop', -, hless⟩ | ⟨hnone, -⟩
        · rw [hstop, Option.some.injEq] at hstop'
          omega
        · exact hnone ⟨stop, hstop, hlt⟩

/-- From an empty cache the key is asked for. -/
theorem keyAtUrl_fresh {url body : String} {a : PublicKeyAnswer}
    (hresponse : env.transport 0 url = .ok ⟨200, body⟩)
    (hparse : PublicKeyAnswer.parse ch body = .ok a) (hvalid : a.validate p none = .ok ()) :
    ∃ next, keyAtUrl p ch env url (World.fresh φ) =
      (.ok (KeyAnswer.stated a.publicKey (statedMinute a.validFrom) (statedMinute a.validTo)),
        next) := by
  rw [keyAtUrl_of_not_held fun minute _ => by rw [Cache.heldFor_eq]; rfl]
  exact ⟨_, fetchKey_of_parse hresponse hparse hvalid⟩

/-- No neighbouring key obtained verifies the signature, once the key asked for first did not. -/
def NoNeighbourVerifies (φ : Type) (p : P256) (ch : Chrono) (env : Surroundings) (m : Machine)
    (o : Owid) (url : String) : Prop :=
  ∀ minute answer next, minutesSinceBase o.date = some minute →
    keyAtUrl p ch env url (World.fresh φ) = (.ok answer, next) →
      ∀ neighbour, .ok neighbour ∈
        neighbourAnswers p ch env (endPointOf url) (beyond minute answer) next →
          o.verifyWithPublicKey p m neighbour.pem ≠ .ok true

/-- The key is reported as unavailable, and the signature not as failing. -/
structure LeftUnjudged (r : Except Error Bool) : Prop where
  http : ∃ message, r = .error (.http message)
  status : SignatureStatus.of r = .keyUnavailable
  not_false : r ≠ .ok false

theorem leftUnjudged_http (message : String) : LeftUnjudged (.error (.http message)) :=
  ⟨⟨message, rfl⟩, rfl, nofun⟩

/-- **When a key the creator says was not in force leaves the signature unjudged.**  From an empty
cache, with nothing obtained that verifies, the key is reported as unavailable exactly where the
creator's statement survives the counting in minutes, and as not matching elsewhere. -/
theorem verifyAtUrl_outside_iff {url body : String} {a : PublicKeyAnswer}
    (hresponse : env.transport 0 url = .ok ⟨200, body⟩)
    (hparse : PublicKeyAnswer.parse ch body = .ok a) (hvalid : a.validate p none = .ok ())
    (_houtside : OutsideStatement a o.date)
    (hfails : o.verifyWithPublicKey p m a.publicKey = .ok false)
    (hneighbours : NoNeighbourVerifies φ p ch env m o url) :
    LeftUnjudged (verifyAtUrl p ch env m o url (World.fresh φ)).1 ↔ CountedOutside a o.date := by
  obtain ⟨next, hkey⟩ := keyAtUrl_fresh (φ := φ) hresponse hparse hvalid
  have hresult := verifyAtUrl_of_fails hkey (by rw [KeyAnswer.stated_pem]; exact hfails)
    fun minute hdate => neighbourVerifies_eq_false
      (hneighbours minute _ next hdate hkey)
  rw [hresult]
  unfold CountedOutside
  cases hdate : minutesSinceBase o.date with
  | none =>
    apply iff_of_false
    · exact fun h => h.not_false rfl
    · rintro ⟨minute, first, hminute, -⟩
      cases hminute
  | some minute =>
    simp only
    split
    · rename_i hif
      obtain ⟨first, hfirst, hrest⟩ :=
        (known_and_not_covers_iff (minutesSinceBase_le hdate)).mp hif
      exact iff_of_true (leftUnjudged_http _) ⟨minute, first, rfl, hfirst, hrest⟩
    · rename_i hif
      apply iff_of_false
      · exact fun h => h.not_false rfl
      · rintro ⟨minute', first, hminute, hfirst, hrest⟩
        cases hminute
        exact hif ((known_and_not_covers_iff (minutesSinceBase_le hdate)).mpr
          ⟨first, hfirst, hrest⟩)

/-- A transport that answers every request the same way. -/
def sameAnswer (a : PublicKeyAnswer) : Surroundings :=
  ⟨fun _ _ => .ok ⟨200, a.toJson sampleChrono⟩, fun _ => atMinute 2000⟩

/-- An OWID dated long after the first keys, whose signature no key of theirs made. -/
def forgedOwid : Owid := ⟨.version3, "ab", atMinute 1000, [7], List.replicate 64 1⟩

theorem forgedOwid_fails : forgedOwid.verifyWithPublicKey sampleP256 machine64 samplePem =
    .ok false := by
  rw [Owid.verifyWithPublicKey, newVerifyOnly_samplePem, ok_bind]
  decide +kernel

/-- A key whose span lies far from the date has no neighbour to try. -/
theorem noNeighbourVerifies_far {a : PublicKeyAnswer} {url : String}
    (hparse : PublicKeyAnswer.parse sampleChrono (a.toJson sampleChrono) = .ok a)
    (hvalid : a.validate sampleP256 none = .ok ())
    (hfar : beyond 1000 (KeyAnswer.stated a.publicKey (statedMinute a.validFrom)
      (statedMinute a.validTo)) = []) :
    NoNeighbourVerifies φ sampleP256 sampleChrono (sameAnswer a) machine64 forgedOwid url := by
  intro minute answer next hdate hkey neighbour hneighbour
  obtain ⟨next', hkey'⟩ : ∃ next', keyAtUrl sampleP256 sampleChrono (sameAnswer a) url
      (World.fresh φ) = (.ok (KeyAnswer.stated a.publicKey (statedMinute a.validFrom)
        (statedMinute a.validTo)), next') := keyAtUrl_fresh rfl hparse hvalid
  rw [hkey'] at hkey
  cases hkey
  have hminute : minute = 1000 := by
    rw [show forgedOwid.date = atMinute 1000 from rfl, minutesSinceBase_atMinute (by decide)] at hdate
    exact (Option.some.inj hdate).symm
  rw [hminute, hfar] at hneighbour
  cases hneighbour

theorem verifyAtUrl_outside_iff_whole :
    LeftUnjudged (verifyAtUrl sampleP256 sampleChrono (sameAnswer wholeAnswer) machine64 forgedOwid
      (publicKeyUrl forgedOwid "https") (World.fresh Unit)).1 := by
  refine (verifyAtUrl_outside_iff rfl parse_wholeAnswer validate_wholeAnswer
    (.inr ⟨atMinute 20, rfl, by decide⟩) forgedOwid_fails
    (noNeighbourVerifies_far parse_wholeAnswer validate_wholeAnswer (by decide +kernel))).mpr
    ?_
  exact ⟨1000, 10, by decide +kernel, by decide +kernel, .inr ⟨20, by decide +kernel, by decide,
    by decide⟩⟩

/-- A key in force for half a minute, long before the date: the signature reads as not matching. -/
theorem verifyAtUrl_outside_half_minute :
    PublicKeyAnswer.parse sampleChrono (halfMinuteAnswer.toJson sampleChrono) =
      .ok halfMinuteAnswer ∧
    halfMinuteAnswer.validate sampleP256 none = .ok () ∧
    OutsideStatement halfMinuteAnswer forgedOwid.date ∧
    forgedOwid.verifyWithPublicKey sampleP256 machine64 halfMinuteAnswer.publicKey = .ok false ∧
    NoNeighbourVerifies Unit sampleP256 sampleChrono (sameAnswer halfMinuteAnswer) machine64
      forgedOwid (publicKeyUrl forgedOwid "https") ∧
    (verifyAtUrl sampleP256 sampleChrono (sameAnswer halfMinuteAnswer) machine64 forgedOwid
      (publicKeyUrl forgedOwid "https") (World.fresh Unit)).1 = .ok false := by
  have hnone : NoNeighbourVerifies Unit sampleP256 sampleChrono (sameAnswer halfMinuteAnswer)
      machine64 forgedOwid (publicKeyUrl forgedOwid "https") :=
    noNeighbourVerifies_far parse_halfMinuteAnswer validate_halfMinuteAnswer (by decide +kernel)
  refine ⟨parse_halfMinuteAnswer, validate_halfMinuteAnswer, .inr ⟨_, rfl, by decide⟩,
    forgedOwid_fails, hnone, ?_⟩
  obtain ⟨next, hkey⟩ : ∃ next, keyAtUrl sampleP256 sampleChrono (sameAnswer halfMinuteAnswer)
      (publicKeyUrl forgedOwid "https") (World.fresh Unit) = (.ok (KeyAnswer.stated samplePem
        (statedMinute halfMinuteAnswer.validFrom) (statedMinute halfMinuteAnswer.validTo)), next) :=
    keyAtUrl_fresh rfl parse_halfMinuteAnswer validate_halfMinuteAnswer
  rw [verifyAtUrl_of_fails hkey forgedOwid_fails fun minute hdate =>
    neighbourVerifies_eq_false (hnone minute _ next hdate hkey)]
  decide +kernel

end OwidRust
