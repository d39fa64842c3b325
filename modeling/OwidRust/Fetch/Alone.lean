import OwidRust.Fetch.Verifying
import OwidRust.Lib.Progress

/-!
# One verification after another

The verifications of `src/fetch.rs` made one after the other, as `verifyAtUrl` has them, are runs of
the callers and verifications that interleave: each asks for its keys through callers of its own,
who find no fetch under way, lead one and end it before the verification goes on.

* `asks_alone` — what `keyAtUrl` says of one caller is a run of the callers;
* `verifies_alone` — what `verifyAtUrl` says of one verification is a run of the verifications;
* `verifies_in_turn` — and so are any number of them, one after the other.
-/

namespace OwidRust

open Runs

variable {φ ψ : Type} {p : P256} {ch : Chrono} {env : Surroundings} {m : Machine}

/-! ## The keys held -/

/-- The caches hold the same keys, whatever fetches are under way. -/
structure Cache.SameKeys (c : Cache φ) (c' : Cache ψ) : Prop where
  keys : c.keys = c'.keys
  held : c.held = c'.held

namespace Cache

variable {c : Cache φ} {c' : Cache ψ}

theorem SameKeys.heldFor (h : c.SameKeys c') (endPoint : String) (minute : Nat) (recent : Bool) :
    c.heldFor endPoint minute recent = c'.heldFor endPoint minute recent := by
  rw [Cache.heldFor, Cache.heldFor, h.keys]

theorem SameKeys.room (h : c.SameKeys c') : c.room.SameKeys c'.room := by
  unfold Cache.room
  rw [h.held]
  split
  · exact ⟨rfl, rfl⟩
  · exact h

theorem SameKeys.add (h : c.SameKeys c') (endPoint : String) (key : HeldKey) :
    (c.add endPoint key).SameKeys (c'.add endPoint key) := by
  rw [add_eq, add_eq, heldAt, heldAt]
  exact ⟨by rw [h.room.keys], by rw [h.room.held]⟩

theorem SameKeys.take (h : c.SameKeys c') (endPoint pem : String) (span : Span) :
    (c.take endPoint pem span).SameKeys (c'.take endPoint pem span) := by
  unfold Cache.take
  rw [h.keys]
  split
  · split
    · split
      · exact ⟨rfl, h.held⟩
      · exact h
    · split
      · exact h
      · exact h.add endPoint (span.key pem)
  · exact h.add endPoint (span.key pem)

theorem SameKeys.hold (h : c.SameKeys c') (now : Moment) (endPoint : String) (minute : Option Nat)
    (recent : Bool) (pem : String) (start stop : Option Nat) :
    (c.hold now endPoint minute recent pem start stop).1.SameKeys
      (c'.hold now endPoint minute recent pem start stop).1 := by
  unfold Cache.hold
  split
  · exact h
  · exact h.take endPoint pem _

end Cache

/-! ## A caller by itself -/

namespace System

/-- No fetch is under way, the keys held are those of the world, and the callers from `k` on have not
called yet. -/
structure Alone (s : System) (w : World φ) (k : Nat) : Prop where
  keys : s.cache.SameKeys w.cache
  quiet : ∀ url, s.cache.inFlight.lookup url = none
  fresh : ∀ c, k ≤ c → s.callers c = none

variable {s t : System} {w : World φ} {c f k : Nat} {caller : Caller}

/-- What a caller is answered and what it reads off the clock are what the surroundings have. -/
def FromSurroundings (env : Surroundings) (s : System) : Event → Prop
  | .call _ _ now | .record _ now => ∃ n, now = env.clock n
  | .respond c response => ∃ n caller, s.callers c = some caller ∧
      response = env.transport n caller.url
  | _ => True

/-- A run among the surroundings. -/
abbrev RunsIn (p : P256) (ch : Chrono) (env : Surroundings) : System → List Event → System → Prop :=
  Run (step p ch) (FromSurroundings env)

/-- What recording the answer of a request makes of the outcome and the cache. -/
def recorded (cache : Cache Nat) (url : String) (recent : Bool) (now : Moment) :
    Except Error (String × Option Nat × Option Nat) → Outcome × Cache Nat
  | .ok (pem, start, stop) =>
    let held := cache.hold now (endPointOf url) (minuteOf url) recent pem start stop
    (.ok held.2, held.1)
  | .error e => (.error (FetchFailure.ofError e), cache)

/-- A leader sends its request and is answered. -/
theorem answered_of_elected (p : P256) (ch : Chrono) (env : Surroundings)
    (hc : s.callers c = some caller) (hp : caller.phase = .elected f) (n : Nat) :
    ∃ t, RunsIn p ch env s [.send c, .respond c (env.transport n caller.url)] t ∧
      t.callers = Function.update s.callers c (some { caller with
        phase := .answered f (requestPublicKey p ch caller.url (env.transport n caller.url)) }) ∧
      t.cache = s.cache := by
  have hsend : step p ch s (.send c) = some (s.send c caller f) := by
    simp only [step, hc, Option.bind_some, hp]
  have hsent : (s.send c caller f).callers c = some { caller with phase := .requesting f } :=
    Function.update_self _ _ _
  refine ⟨(s.send c caller f).setPhase c { caller with phase := .requesting f }
      (.answered f (requestPublicKey p ch caller.url (env.transport n caller.url))),
    .cons trivial hsend (.cons ⟨n, _, hsent, rfl⟩ ?_ (.nil _)), ?_, rfl⟩
  · simp only [step, hsent, Option.bind_some]
  · simp only [setPhase, send, Function.update_idem]

/-- An answered leader records the answer. -/
theorem leaving_of_answered (p : P256) (ch : Chrono)
    {result : Except Error (String × Option Nat × Option Nat)}
    (hc : s.callers c = some caller) (hp : caller.phase = .answered f result) (now : Moment) :
    ∃ t, step p ch s (.record c now) = some t ∧
      t.callers = Function.update s.callers c (some { caller with
        phase := .leaving f (some (recorded s.cache caller.url caller.recent now result).1) }) ∧
      t.cache = (recorded s.cache caller.url caller.recent now result).2 := by
  cases result with
  | error e =>
    refine ⟨s.setPhase c caller (.leaving f (some (.error (FetchFailure.ofError e)))), ?_, rfl, rfl⟩
    simp only [step, hc, Option.bind_some, hp]
  | ok key =>
    refine ⟨s.hold c caller f now key.1 key.2.1 key.2.2, ?_, rfl, rfl⟩
    simp only [step, hc, Option.bind_some, hp]

/-- A leader with an outcome removes its entry, ends the fetch and returns. -/
theorem returns_of_leaving (p : P256) (ch : Chrono) (env : Surroundings) {outcome : Outcome}
    (hc : s.callers c = some caller) (hp : caller.phase = .leaving f (some outcome)) :
    ∃ t, RunsIn p ch env s [.release c, .finish c] t ∧ t.returnedBy c = some (returns outcome) ∧
      t.cache = { s.cache with inFlight := s.cache.inFlight.erase caller.url } ∧
      ∀ c' ≠ c, t.callers c' = s.callers c' := by
  have hrelease : step p ch s (.release c) = some (s.release c caller f (some outcome)) := by
    simp only [step, hc, Option.bind_some, hp]
  have hreleased : (s.release c caller f (some outcome)).callers c =
      some { caller with phase := .removed f (some outcome) } := Function.update_self _ _ _
  refine ⟨(s.release c caller f (some outcome)).finish c
    { caller with phase := .removed f (some outcome) } f (some outcome),
    .cons trivial hrelease (.cons trivial ?_ (.nil _)), ?_, rfl, ?_⟩
  · simp only [step, hreleased, Option.bind_some]
  · simp only [returnedBy, finish, setPhase, Function.update_self, Option.bind_some]
  · intro c' hne
    simp only [finish, release, setPhase, Function.update_of_ne hne]

/-- **A leader nobody drops makes its request, records the answer and returns it.** -/
theorem returns_of_elected (p : P256) (ch : Chrono) (env : Surroundings)
    (hc : s.callers c = some caller) (hp : caller.phase = .elected f) (n k : Nat) :
    ∃ events t, RunsIn p ch env s events t ∧
      t.returnedBy c = some (returns (recorded s.cache caller.url caller.recent (env.clock k)
        (requestPublicKey p ch caller.url (env.transport n caller.url))).1) ∧
      t.cache.SameKeys (recorded s.cache caller.url caller.recent (env.clock k)
        (requestPublicKey p ch caller.url (env.transport n caller.url))).2 ∧
      t.cache.inFlight = s.cache.inFlight.erase caller.url ∧
      ∀ c' ≠ c, t.callers c' = s.callers c' := by
  obtain ⟨asked, hasked, haskedCallers, haskedCache⟩ := answered_of_elected p ch env hc hp n
  have hanswered : asked.callers c = some { caller with
      phase := .answered f (requestPublicKey p ch caller.url (env.transport n caller.url)) } := by
    rw [haskedCallers, Function.update_self]
  obtain ⟨held, hrecord, hheldCallers, hheldCache⟩ :=
    leaving_of_answered p ch hanswered rfl (env.clock k)
  simp only [haskedCache] at hheldCallers hheldCache
  have hleaving : held.callers c = some { caller with phase := .leaving f (some
      (recorded s.cache caller.url caller.recent (env.clock k)
        (requestPublicKey p ch caller.url (env.transport n caller.url))).1) } := by
    rw [hheldCallers, Function.update_self]
  have hread : FromSurroundings env asked (.record c (env.clock k)) := ⟨k, rfl⟩
  obtain ⟨t, hfinish, hreturned, hcache, hothers⟩ :=
    returns_of_leaving p ch env hleaving rfl
  have hinFlight : held.cache.inFlight = s.cache.inFlight := by
    rw [hheldCache]
    cases requestPublicKey p ch caller.url (env.transport n caller.url) with
    | error e => rfl
    | ok key =>
      simp only [recorded, Cache.hold]
      split
      · rfl
      · exact inFlight_take _ _ _ _
  refine ⟨_, t, hasked.trans (.cons hread hrecord hfinish), hreturned, ?_, ?_, ?_⟩
  · rw [hcache, ← hheldCache]
    exact ⟨rfl, rfl⟩
  · rw [hcache, ← hinFlight]
  · intro c' hne
    rw [hothers c' hne, hheldCallers, Function.update_of_ne hne, haskedCallers,
      Function.update_of_ne hne]

/-- What a fetch answers and leaves held is what its answer was recorded as. -/
theorem recorded_fetchKey (p : P256) (ch : Chrono) (env : Surroundings) (url : String) (recent : Bool)
    {cache : Cache Nat} (h : cache.SameKeys w.cache) :
    returns (recorded cache url recent (env.clock w.readings)
        (requestPublicKey p ch url (env.transport w.requests url))).1 =
        (fetchKey p ch env url recent w).1 ∧
      (recorded cache url recent (env.clock w.readings)
        (requestPublicKey p ch url (env.transport w.requests url))).2.SameKeys
        (fetchKey p ch env url recent w).2.cache := by
  unfold fetchKey
  cases requestPublicKey p ch url (env.transport w.requests url) with
  | error e => exact ⟨rfl, h⟩
  | ok key =>
    simp only [recorded, Cache.hold_snd]
    exact ⟨rfl, h.hold _ _ _ _ _ _ _⟩

/-- **A caller by itself is answered as `keyAtUrl` says.** -/
theorem asks_alone (p : P256) (ch : Chrono) (env : Surroundings) (h : s.Alone w k) (url : String) :
    ∃ events t, RunsIn p ch env (s.call k url (env.clock w.readings)) events t ∧
      t.returnedBy k = some (keyAtUrl p ch env url w).1 ∧
      t.Alone (keyAtUrl p ch env url w).2 (k + 1) := by
  have hc : (s.call k url (env.clock w.readings)).callers k =
      some ⟨url, isRecent env w (minuteOf url), s.epoch, .looking⟩ := Function.update_self _ _ _
  have hfresh : ∀ {t : System},
      (∀ c ≠ k, t.callers c = (s.call k url (env.clock w.readings)).callers c) →
      ∀ c, k + 1 ≤ c → t.callers c = none := by
    intro t hothers c hle
    rw [hothers c (by omega)]
    simp only [call]
    rw [Function.update_of_ne (by omega)]
    exact h.fresh c (by omega)
  cases hanswer : (s.call k url (env.clock w.readings)).heldFor
      ⟨url, isRecent env w (minuteOf url), s.epoch, .looking⟩ with
  | some answer =>
    obtain ⟨minute, hminute, hheld⟩ := Option.bind_eq_some_iff.mp hanswer
    have hserved : w.cache.heldFor (endPointOf url) minute (isRecent env w (some minute)) =
        some answer := by
      rw [← h.keys.heldFor, ← hminute]
      exact hheld
    rw [keyAtUrl_of_held hminute hserved]
    refine ⟨[.turn k], _, .cons trivial (step_served hc rfl hanswer) (.nil _),
      returnedBy_of_phase (Function.update_self _ _ _) rfl, h.keys, h.quiet, hfresh ?_⟩
    intro c hne
    simp only [setPhase, Function.update_of_ne hne]
  | none =>
    have hnone : ∀ minute, minuteOf url = some minute →
        w.cache.heldFor (endPointOf url) minute (isRecent env w (minuteOf url)) = none := by
      intro minute hminute
      rw [← h.keys.heldFor]
      exact Option.bind_eq_none_iff.mp hanswer minute hminute
    rw [keyAtUrl_of_not_held hnone]
    have hentry : (s.call k url (env.clock w.readings)).cache.inFlight.lookup url = none :=
      h.quiet url
    have hturn : step p ch (s.call k url (env.clock w.readings)) (.turn k) =
        some ((s.call k url (env.clock w.readings)).elect k
          ⟨url, isRecent env w (minuteOf url), s.epoch, .looking⟩) := by
      simp only [step, hc, Option.bind_some, turn, hanswer, hentry]
    have hled : ((s.call k url (env.clock w.readings)).elect k
        ⟨url, isRecent env w (minuteOf url), s.epoch, .looking⟩).callers k =
          some ⟨url, isRecent env w (minuteOf url), s.epoch, .elected s.nextFlight⟩ :=
      Function.update_self _ _ _
    obtain ⟨events, t, hrun, hreturned, hkeys, hinFlight, hothers⟩ :=
      returns_of_elected p ch env hled rfl w.requests (w.readings + 1)
    have hsame : ((s.call k url (env.clock w.readings)).elect k
        ⟨url, isRecent env w (minuteOf url), s.epoch, .looking⟩).cache.SameKeys
          w.cache := ⟨h.keys.keys, h.keys.held⟩
    obtain ⟨hanswered, hleft⟩ := recorded_fetchKey p ch env url (isRecent env w (minuteOf url))
      (w := { w with readings := w.readings + 1 }) hsame
    refine ⟨.turn k :: events, t, .cons trivial hturn hrun, ?_, ?_, ?_, hfresh ?_⟩
    · rw [hreturned]
      exact congrArg some hanswered
    · exact ⟨hkeys.keys.trans hleft.keys, hkeys.held.trans hleft.held⟩
    · intro other
      rw [hinFlight]
      simp only [elect]
      by_cases hurl : other = url
      · rw [hurl, AList.lookup_erase]
      · rw [AList.lookup_erase_ne hurl, AList.lookup_insert_ne hurl]
        exact h.quiet other
    · intro c hne
      rw [hothers c hne]
      simp only [elect, setPhase, Function.update_of_ne hne]

theorem alone_init : init.Alone (World.fresh φ) 0 where
  keys := ⟨rfl, rfl⟩
  quiet := fun _ => rfl
  fresh := fun _ _ => rfl

end System

/-! ## A verification by itself -/

namespace Verifying

variable {s t : Verifying} {w : World φ} {v k : Nat} {o : Owid}

/-- What verifications and callers are answered and read is what the surroundings have. -/
def FromSurroundings (env : Surroundings) (s : Verifying) : VerifyEvent → Prop
  | .event e => s.sys.FromSurroundings env e
  | .verify _ _ _ _ now | .resume _ _ now => ∃ n, now = env.clock n

/-- A run among the surroundings. -/
abbrev RunsIn (p : P256) (ch : Chrono) (env : Surroundings) (m : Machine) :
    Verifying → List VerifyEvent → Verifying → Prop :=
  Run (step p ch m) (FromSurroundings env)

/-- What the callers do, they do beside the verifications. -/
theorem runsIn_of_system {x y : System} {events : List Event}
    (h : System.RunsIn p ch env x events y) :
    ∀ s : Verifying, s.sys = x →
      ∃ t, RunsIn p ch env m s (events.map .event) t ∧ t.sys = y ∧ t.verifiers = s.verifiers := by
  induction h with
  | nil => exact fun s hs => ⟨s, .nil s, hs, rfl⟩
  | @cons x y z e events hfrom hstep _ ih =>
    intro s hs
    have hnext : step p ch m s (.event e) = some (s.after e y) := by
      rw [step, hs, hstep, Option.map_some]
    obtain ⟨t, hrun, hsys, hverifiers⟩ := ih (s.after e y) rfl
    exact ⟨t, .cons (by rw [FromSurroundings, hs]; exact hfrom) hnext hrun, hsys, hverifiers⟩

/-- The verification has just asked the caller `k` for a key. -/
structure Asking (s : Verifying) (w : World φ) (env : Surroundings) (v k : Nat)
    (verifier : Verifier) (url : String) : Prop where
  verifier : s.verifiers v = some verifier
  asked : ∃ x : System, x.Alone w k ∧ s.sys = x.call k url (env.clock w.readings)

/-- The verification of the OWID with the key at the URL returned. -/
def ReturnedBy (s : Verifying) (v : Nat) (o : Owid) (url : String) (result : Except Error Bool) :
    Prop :=
  ∃ verifier, s.verifiers v = some verifier ∧ verifier.owid = o ∧ verifier.url = url ∧
    verifier.stage = .returned result

/-- The caller asked is answered. -/
theorem Asking.answered (p : P256) (ch : Chrono) (m : Machine) {verifier : Verifier}
    {url : String} (h : s.Asking w env v k verifier url) :
    ∃ events t, RunsIn p ch env m s events t ∧ t.verifiers = s.verifiers ∧
      t.sys.returnedBy k = some (keyAtUrl p ch env url w).1 ∧
      t.sys.Alone (keyAtUrl p ch env url w).2 (k + 1) := by
  obtain ⟨x, halone, hsys⟩ := h.asked
  obtain ⟨events, y, hrun, hreturned, hafter⟩ := System.asks_alone p ch env halone url
  obtain ⟨t, hfree, rfl, hverifiers⟩ := runsIn_of_system (m := m) hrun s hsys
  exact ⟨_, t, hfree, hverifiers, hreturned, hafter⟩

/-- A verification asks a caller nobody has asked before. -/
theorem asking_ask (env : Surroundings) (v : Nat) (halone : s.sys.Alone w k) (verifier : Verifier)
    (url : String) (stage : Stage) :
    (s.ask v k verifier url stage (env.clock w.readings)).Asking w env v k
      { verifier with asked := verifier.asked ++ [k], stage := stage } url :=
  ⟨Function.update_self _ _ _, s.sys, halone, rfl⟩

/-- What a verification that goes on comes to: it returns, or asks for another neighbour. -/
structure WentOn (s t : Verifying) (w : World φ) (env : Surroundings) (v k : Nat)
    (verifier : Verifier) (next : Next) : Prop where
  returns : ∀ result, next = .returns result →
    t.ReturnedBy v verifier.owid verifier.url result ∧ t.sys.Alone w k
  asks : ∀ minute tried beyond rest, next = .asks minute tried beyond rest →
    t.Asking w env v k { verifier with
      asked := verifier.asked ++ [k], stage := .neighbour minute tried k rest }
      (keyUrlAt (endPointOf verifier.url) beyond)
  others : ∀ v' ≠ v, t.verifiers v' = s.verifiers v'

theorem goOn_alone (env : Surroundings) (v : Nat) (verifier : Verifier) (halone : s.sys.Alone w k)
    (next : Next) :
    ∃ t, s.goOn v k verifier (env.clock w.readings) next = some t ∧
      s.WentOn t w env v k verifier next := by
  cases next with
  | returns result =>
    refine ⟨s.setVerifier v { verifier with stage := .returned result }, rfl, ?_, nofun, ?_⟩
    · rintro _ ⟨⟩
      exact ⟨⟨_, Function.update_self _ _ _, rfl, rfl, rfl⟩, halone⟩
    · intro v' hne
      exact Function.update_of_ne hne _ _
  | asks minute tried beyond rest =>
    refine ⟨s.ask v k verifier (keyUrlAt (endPointOf verifier.url) beyond)
      (.neighbour minute tried k rest) (env.clock w.readings), ?_, nofun, ?_, ?_⟩
    · simp only [goOn, halone.fresh k (Nat.le_refl k)]
    · rintro _ _ _ _ ⟨⟩
      exact asking_ask env v halone _ _ _
    · intro v' hne
      exact Function.update_of_ne hne _ _

/-- What a verification waiting for its caller does when it is resumed. -/
def Resumes (p : P256) (m : Machine) (verifier : Verifier) (k : Nat)
    (next : Except Error KeyAnswer → Next) : Prop :=
  verifier.stage = .first k ∧ next = afterFirst p m verifier.owid ∨
    ∃ minute tried rest, verifier.stage = .neighbour minute tried k rest ∧
      next = afterNeighbour p m verifier.owid minute tried rest

/-- **A verification waiting for a caller is answered and goes on.** -/
theorem resumes_alone (ch : Chrono) {verifier : Verifier} {url : String}
    {next : Except Error KeyAnswer → Next} (h : s.Asking w env v k verifier url)
    (hnext : Resumes p m verifier k next) :
    ∃ events t, RunsIn p ch env m s events t ∧
      s.WentOn t (keyAtUrl p ch env url w).2 env v (k + 1) verifier
        (next (keyAtUrl p ch env url w).1) := by
  obtain ⟨events, u, hrun, hverifiers, hreturned, halone⟩ := h.answered p ch m
  have hv : u.verifiers v = some verifier := by rw [hverifiers, h.verifier]
  obtain ⟨t, hgo, hon⟩ := goOn_alone env v verifier halone (next (keyAtUrl p ch env url w).1)
  have hread : FromSurroundings env u (.resume v (k + 1)
      (env.clock (keyAtUrl p ch env url w).2.readings)) := ⟨_, rfl⟩
  have hstep : step p ch m u (.resume v (k + 1)
      (env.clock (keyAtUrl p ch env url w).2.readings)) = some t := by
    rw [← hgo]
    rcases hnext with ⟨hstage, rfl⟩ | ⟨minute, tried, rest, hstage, rfl⟩
    all_goals simp only [step, hv, Option.bind_some, hstage, hreturned]
  refine ⟨_, t, hrun.trans (.cons hread hstep (.nil t)), hon.returns, hon.asks, ?_⟩
  intro v' hne
  rw [hon.others v' hne, hverifiers]

theorem afterNeighbour_eq_asks {minute minute' beyond : Nat} {tried tried' : KeyAnswer}
    {rest rest' : List Nat} {result : Except Error KeyAnswer}
    (h : afterNeighbour p m o minute tried rest result = .asks minute' tried' beyond rest') :
    minute' = minute ∧ tried' = tried ∧ rest = beyond :: rest' := by
  have hnext : ∀ {minutes : List Nat},
      tryNext minute tried minutes = .asks minute' tried' beyond rest' →
      minute' = minute ∧ tried' = tried ∧ minutes = beyond :: rest' := by
    intro minutes h
    cases minutes with
    | nil => cases h
    | cons other others =>
      cases h
      exact ⟨rfl, rfl, rfl⟩
  unfold afterNeighbour at h
  split at h
  · exact hnext h
  · split at h
    · exact hnext h
    · split at h
      · cases h
      · exact hnext h

/-- **The neighbours are tried one after the other.** -/
theorem tries_alone (p : P256) (ch : Chrono) (m : Machine) (o : Owid) (url : String) {minute : Nat}
    {tried : KeyAnswer} :
    ∀ (rest : List Nat) (beyond : Nat) {s : Verifying} {w : World φ} {k : Nat}
      {verifier : Verifier}, s.Asking w env v k verifier (keyUrlAt (endPointOf url) beyond) →
      verifier.stage = .neighbour minute tried k rest → verifier.owid = o → verifier.url = url →
      ∃ events t k', RunsIn p ch env m s events t ∧
        t.ReturnedBy v o url
          (tryAlone p ch env m o (endPointOf url) minute tried (beyond :: rest) w).1 ∧
        t.sys.Alone (tryAlone p ch env m o (endPointOf url) minute tried (beyond :: rest) w).2 k' ∧
        ∀ v' ≠ v, t.verifiers v' = s.verifiers v' := by
  intro rest
  induction rest with
  | nil =>
    intro beyond s w k verifier h hstage howid hurl
    obtain ⟨events, t, hrun, hon⟩ := resumes_alone ch h
      (.inr ⟨minute, tried, [], hstage, rfl⟩)
    rw [howid] at hon
    refine ⟨events, t, k + 1, hrun, ?_⟩
    rw [tryAlone]
    cases hnext : afterNeighbour p m o minute tried []
        (keyAtUrl p ch env (keyUrlAt (endPointOf url) beyond) w).1 with
    | returns result =>
      obtain ⟨hreturned, halone⟩ := hon.returns result hnext
      rw [howid, hurl] at hreturned
      exact ⟨hreturned, halone, hon.others⟩
    | asks minute' tried' beyond' rest' =>
      obtain ⟨-, -, hrest⟩ := afterNeighbour_eq_asks hnext
      cases hrest
  | cons other rest ih =>
    intro beyond s w k verifier h hstage howid hurl
    obtain ⟨events, t, hrun, hon⟩ := resumes_alone ch h
      (.inr ⟨minute, tried, other :: rest, hstage, rfl⟩)
    rw [howid] at hon
    rw [tryAlone]
    cases hnext : afterNeighbour p m o minute tried (other :: rest)
        (keyAtUrl p ch env (keyUrlAt (endPointOf url) beyond) w).1 with
    | returns result =>
      obtain ⟨hreturned, halone⟩ := hon.returns result hnext
      rw [howid, hurl] at hreturned
      exact ⟨events, t, k + 1, hrun, hreturned, halone, hon.others⟩
    | asks minute' tried' beyond' rest' =>
      obtain ⟨rfl, rfl, hrest⟩ := afterNeighbour_eq_asks hnext
      cases hrest
      have hasking := hon.asks _ _ _ _ hnext
      rw [hurl] at hasking
      obtain ⟨events', u, k', hrun', hreturned, halone, hothers⟩ :=
        ih other hasking rfl howid rfl
      refine ⟨events ++ events', u, k', hrun.trans hrun', hreturned, halone, ?_⟩
      intro v' hne
      rw [hothers v' hne, hon.others v' hne]

/-- **A verification by itself comes to what `verifyAtUrl` says.** -/
theorem verifies_alone (p : P256) (ch : Chrono) (env : Surroundings) (m : Machine)
    (halone : s.sys.Alone w k) (hv : s.verifiers v = none) (o : Owid) (url : String) :
    ∃ events t k', RunsIn p ch env m s events t ∧
      t.ReturnedBy v o url (verifyAtUrl p ch env m o url w).1 ∧
      t.sys.Alone (verifyAtUrl p ch env m o url w).2 k' ∧
      ∀ v' ≠ v, t.verifiers v' = s.verifiers v' := by
  have hstep : step p ch m s (.verify v k o url (env.clock w.readings)) =
      some (s.ask v k ⟨o, url, [], .first k⟩ url (.first k) (env.clock w.readings)) := by
    simp only [step, hv, halone.fresh k (Nat.le_refl k)]
  have hfirst : ∀ v' ≠ v, (s.ask v k ⟨o, url, [], .first k⟩ url (.first k)
      (env.clock w.readings)).verifiers v' = s.verifiers v' :=
    fun v' hne => Function.update_of_ne hne _ _
  obtain ⟨events, t, hrun, hon⟩ := resumes_alone (p := p) (m := m) ch
    (asking_ask env v halone ⟨o, url, [], .first k⟩ url (.first k))
    (.inl ⟨rfl, rfl⟩)
  have hread : FromSurroundings env s (.verify v k o url (env.clock w.readings)) := ⟨_, rfl⟩
  have hall := Run.cons hread hstep hrun
  rw [verifyAtUrl_eq]
  simp only
  cases hnext : afterFirst p m o (keyAtUrl p ch env url w).1 with
  | returns result =>
    obtain ⟨hreturned, hafter⟩ := hon.returns result hnext
    refine ⟨_, t, k + 1, hall, hreturned, hafter, ?_⟩
    intro v' hne
    rw [hon.others v' hne, hfirst v' hne]
  | asks minute tried beyond rest =>
    obtain ⟨events', u, k', hrun', hreturned, hafter, hothers⟩ :=
      tries_alone p ch m o url rest beyond (hon.asks _ _ _ _ hnext) rfl rfl rfl
    refine ⟨_, u, k', hall.trans hrun', hreturned, hafter, ?_⟩
    intro v' hne
    rw [hothers v' hne, hon.others v' hne, hfirst v' hne]

end Verifying

/-! ## One after the other -/

/-- Verifications made one after the other. -/
def verifyInTurn (p : P256) (ch : Chrono) (env : Surroundings) (m : Machine) :
    List (Owid × String) → World φ → List (Except Error Bool) × World φ
  | [], w => ([], w)
  | (o, url) :: rest, w =>
    let first := verifyAtUrl p ch env m o url w
    let others := verifyInTurn p ch env m rest first.2
    (first.1 :: others.1, others.2)

namespace Verifying

variable {s : Verifying} {w : World φ} {v k : Nat}

/-- **Verifications made one after the other are a run of those that interleave**, and each comes to
what it comes to by itself. -/
theorem verifies_in_turn (env : Surroundings) (asked : List (Owid × String))
    (halone : s.sys.Alone w k) (hv : ∀ v', v ≤ v' → s.verifiers v' = none) :
    ∃ events t k', RunsIn p ch env m s events t ∧
      (∀ i o url result, asked[i]? = some (o, url) →
        (verifyInTurn p ch env m asked w).1[i]? = some result → t.ReturnedBy (v + i) o url result) ∧
      t.sys.Alone (verifyInTurn p ch env m asked w).2 k' ∧
      ∀ v' < v, t.verifiers v' = s.verifiers v' := by
  induction asked generalizing s w v k with
  | nil => exact ⟨[], s, k, .nil s, by simp [verifyInTurn], halone, fun _ _ => rfl⟩
  | cons first rest ih =>
    obtain ⟨events, t, k', hrun, hreturned, hafter, hothers⟩ :=
      verifies_alone p ch env m halone (hv v (Nat.le_refl v)) first.1 first.2
    obtain ⟨events', u, k'', hrun', hrest, hend, hbefore⟩ :=
      ih hafter (v := v + 1) fun v' hle => by rw [hothers v' (by omega), hv v' (by omega)]
    refine ⟨events ++ events', u, k'', hrun.trans hrun', ?_, hend, ?_⟩
    · rintro (_ | i) o url result hasked hresult
      · obtain ⟨verifier, hverifier, hstage⟩ := hreturned
        cases hasked
        cases hresult
        exact ⟨verifier, (hbefore v (Nat.lt_succ_self v)).trans hverifier, hstage⟩
      · rw [show v + (i + 1) = v + 1 + i by omega]
        exact hrest i o url result hasked hresult
    · intro v' hlt
      rw [hbefore v' (by omega), hothers v' (by omega)]

/-- A forged OWID verified twice. -/
theorem verifies_in_turn_sample :
    ∃ events t k', RunsIn sampleP256 sampleChrono (sameAnswer wholeAnswer) machine64 (start .init)
        events t ∧
      (∀ i o url result, [(forgedOwid, publicKeyUrl forgedOwid "https"),
          (forgedOwid, publicKeyUrl forgedOwid "https")][i]? = some (o, url) →
        (verifyInTurn sampleP256 sampleChrono (sameAnswer wholeAnswer) machine64
          [(forgedOwid, publicKeyUrl forgedOwid "https"),
            (forgedOwid, publicKeyUrl forgedOwid "https")] (World.fresh Unit)).1[i]? = some result →
        t.ReturnedBy (0 + i) o url result) ∧
      t.sys.Alone (verifyInTurn sampleP256 sampleChrono (sameAnswer wholeAnswer) machine64
          [(forgedOwid, publicKeyUrl forgedOwid "https"),
            (forgedOwid, publicKeyUrl forgedOwid "https")] (World.fresh Unit)).2 k' ∧
      ∀ v' < 0, t.verifiers v' = (start .init).verifiers v' :=
  verifies_in_turn (sameAnswer wholeAnswer) _ System.alone_init fun _ _ => rfl

end Verifying

end OwidRust
