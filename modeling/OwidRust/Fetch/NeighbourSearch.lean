import OwidRust.Fetch.Verifying

/-!
# The neighbour search

What one verification asks for and returns, whatever the transport answers, whatever the other
callers do, and from whatever cache it starts.

* `Counted`, `counted_of_moves` — a caller makes one request at most;
* `StageInv`, `stagesInv_of_moves` — what a verification has asked for, and learnt, at each point;
* `beyondU32_eq`, `statedU32_eq`, `heldSpanU32_eq` — the minutes computed on the way do not wrap;
* `boundedSearch_of_reach` — the search is bounded and sound.
-/

namespace OwidRust

open Runs

/-! ## Arithmetic on minutes -/

/-- `a - b` on `u32`, where it does not wrap. -/
def subU32 (a b : Nat) : Option Nat := if b ≤ a then some (a - b) else none

/-- `a + b` on `u32`, where it does not wrap. -/
def addU32 (a b : Nat) : Option Nat := if a + b ≤ u32Max then some (a + b) else none

theorem subU32_of_le {a b : Nat} (h : b ≤ a) : subU32 a b = some (a - b) := if_pos h

theorem addU32_of_le {a b : Nat} (h : a + b ≤ u32Max) : addU32 a b = some (a + b) := if_pos h

/-- `near_edge`, answering where `abs_diff` does not wrap. -/
def nearEdgeU32 (minute edge : Nat) : Option Bool :=
  (if minute < edge then subU32 edge minute else subU32 minute edge).map fun gap =>
    decide (gap ≤ CLOCK_DRIFT_ALLOWANCE_MINUTES)

/-- The minutes beyond the edges, where no subtraction and no addition wraps. -/
def beyondU32 (minute : Nat) (tried : KeyAnswer) : Option (List Nat) := do
  let nearFirst ← nearEdgeU32 minute tried.first
  let before ← (if 0 < tried.first ∧ nearFirst then (subU32 tried.first 1).map fun at' => [at']
    else some [])
  let nearLast ← nearEdgeU32 minute tried.last
  let after ← (if tried.last < u32Max ∧ nearLast then (addU32 tried.last 1).map fun at' => [at']
    else some [])
  return before ++ after

/-- `KeyAnswer::stated`, where the subtraction does not wrap. -/
def statedU32 (pem : String) (start stop : Option Nat) : Option KeyAnswer :=
  match start, stop with
  | none, _ => some (.unknown pem)
  | some start, some stop =>
    if start < stop then (subU32 stop 1).map (.ofSpan pem start) else some (.ofSpan pem start u32Max)
  | some start, none => some (.ofSpan pem start u32Max)

/-- The span `hold` holds a key for, where the subtraction does not wrap. -/
def heldSpanU32 (now : Moment) (minute : Option Nat) (recent : Bool) (start stop : Option Nat) :
    Option (Option Span) :=
  match start, stop, minute with
  | some start, some stop, _ =>
    if start < stop then (subU32 stop 1).map fun last => some ⟨start, last, true, false⟩
    else some (some (startOnly now start))
  | some start, none, _ => some (some (startOnly now start))
  | none, _, some minute => some (if recent then none else some ⟨minute, minute, false, false⟩)
  | none, _, none => some none

theorem nearEdgeU32_eq (minute edge : Nat) : nearEdgeU32 minute edge = some (nearEdge minute edge) := by
  unfold nearEdgeU32 nearEdge
  split
  · rename_i hlt
    rw [subU32_of_le (Nat.le_of_lt hlt), max_eq_right (Nat.le_of_lt hlt),
      min_eq_left (Nat.le_of_lt hlt)]
    rfl
  · rename_i hle
    rw [subU32_of_le (not_lt.mp hle), max_eq_left (not_lt.mp hle), min_eq_right (not_lt.mp hle)]
    rfl

theorem beyondU32_eq (minute : Nat) (tried : KeyAnswer) :
    beyondU32 minute tried = some (beyond minute tried) := by
  unfold beyondU32 beyond
  rw [nearEdgeU32_eq, nearEdgeU32_eq]
  have hbefore : (if 0 < tried.first ∧ nearEdge minute tried.first = true then
        (subU32 tried.first 1).map fun at' => [at'] else some []) =
      some (if 0 < tried.first ∧ nearEdge minute tried.first = true then [tried.first - 1]
        else []) := by
    split
    · rename_i h
      rw [subU32_of_le h.1]
      rfl
    · rfl
  have hafter : (if tried.last < u32Max ∧ nearEdge minute tried.last = true then
        (addU32 tried.last 1).map fun at' => [at'] else some []) =
      some (if tried.last < u32Max ∧ nearEdge minute tried.last = true then [tried.last + 1]
        else []) := by
    split
    · rename_i h
      rw [addU32_of_le h.1]
      rfl
    · rfl
  simp only [Option.bind_eq_bind, Option.bind_some, hbefore, hafter]
  rfl

theorem subU32_end {start stop : Nat} (h : start < stop) : subU32 stop 1 = some (stop - 1) :=
  subU32_of_le (Nat.zero_lt_of_lt h)

theorem statedU32_eq (pem : String) (start stop : Option Nat) :
    statedU32 pem start stop = some (KeyAnswer.stated pem start stop) := by
  cases start with
  | none => rfl
  | some start =>
    cases stop with
    | none => rfl
    | some stop =>
      simp only [statedU32, KeyAnswer.stated]
      split
      · rename_i hlt
        rw [subU32_end hlt]
        rfl
      · rfl

theorem heldSpanU32_eq (now : Moment) (minute : Option Nat) (recent : Bool)
    (start stop : Option Nat) :
    heldSpanU32 now minute recent start stop = some (heldSpan now minute recent start stop) := by
  cases start with
  | none => cases minute <;> rfl
  | some start =>
    cases stop with
    | none => rfl
    | some stop =>
      simp only [heldSpanU32, heldSpan]
      split
      · rename_i hlt
        rw [subU32_end hlt]
        rfl
      · rfl

/-- No arithmetic on minutes wraps on the way, for any span and any clock. -/
structure NoWrap : Prop where
  edges : ∀ minute tried, beyondU32 minute tried = some (beyond minute tried)
  stated : ∀ pem start stop, statedU32 pem start stop = some (KeyAnswer.stated pem start stop)
  held : ∀ now minute recent start stop,
    heldSpanU32 now minute recent start stop = some (heldSpan now minute recent start stop)

theorem noWrap : NoWrap := ⟨beyondU32_eq, statedU32_eq, heldSpanU32_eq⟩

/-! ## One request for a caller -/

/-- The points at which a caller has made no request. -/
def Phase.unsent : Phase → Bool
  | .looking | .waiting _ | .elected _ => true
  | _ => false

namespace Verifying

/-- A caller has made one request at most, and none before its turn to. -/
def Counted (s : Verifying) : Prop :=
  ∀ c, s.requests c = 0 ∨
    (s.requests c = 1 ∧ ∃ caller, s.sys.callers c = some caller ∧ caller.phase.unsent = false)

variable {p : P256} {ch : Chrono} {m : Machine} {s t : Verifying}

/-- A caller that has made its request never makes another. -/
theorem sent_of_moves {s t : System} {e : Event} (hm : System.Moves p ch s e t) {c : Nat}
    {caller : Caller} (hc : s.callers c = some caller) (hsent : caller.phase.unsent = false) :
    ∃ after, t.callers c = some after ∧ after.phase.unsent = false := by
  -- another caller moved, or this one to a point past its request
  have hmoved : ∀ {c' : Nat} {moved : Caller} {q : Phase}, s.callers c' = some moved →
      (moved.phase.unsent = false → q.unsent = false) →
      ∃ after, Function.update s.callers c' (some { moved with phase := q }) c = some after ∧
        after.phase.unsent = false := by
    intro c' moved q hmoved hq
    by_cases hcc : c = c'
    · subst hcc
      rw [hc] at hmoved
      cases hmoved
      exact ⟨_, Function.update_self _ _ _, hq hsent⟩
    · exact ⟨caller, by rw [Function.update_of_ne hcc, hc], hsent⟩
  cases hm with
  | clear | park => exact ⟨caller, hc, hsent⟩
  | call hnew =>
    refine ⟨caller, ?_, hsent⟩
    simp only [System.call]
    rw [Function.update_of_ne]
    · exact hc
    · rintro rfl
      rw [hc] at hnew
      cases hnew
  | serve hc' hp | join hc' hp | elect hc' hp | send hc' hp | wake hc' hp | retry hc' hp
  | leave hc' hp =>
    refine hmoved hc' ?_
    rw [hp]
    exact fun h => Bool.noConfusion h
  | respond hc' hp | record hc' hp | fail hc' hp | release hc' hp | abandon hc' hp =>
    exact hmoved hc' fun _ => rfl
  | @finish c' moved f outcome hc' hp =>
    refine hmoved hc' fun _ => ?_
    cases outcome <;> rfl

theorem counted_of_moves (h : Counted s) (hm : Moves p ch m s t) : Counted t := by
  rcases shared_of_moves hm with ⟨hsys, hrequests, -⟩ | ⟨e, hmoves, hrequests, -⟩
  · intro c
    rw [hrequests, hsys]
    exact h c
  intro c
  rw [hrequests]
  have hkept : s.requests c = 0 ∨ (s.requests c = 1 ∧
      ∃ caller, t.sys.callers c = some caller ∧ caller.phase.unsent = false) := by
    refine (h c).imp_right ?_
    rintro ⟨hone, caller, hc, hsent⟩
    exact ⟨hone, sent_of_moves hmoves hc hsent⟩
  cases e with
  | send c' =>
    by_cases hcc : c = c'
    · subst hcc
      generalize ht : t.sys = u at hmoves
      cases hmoves with
      | @send _ caller f hc hp =>
        rcases h c with hzero | ⟨-, caller', hc', hsent⟩
        · refine .inr ⟨?_, { caller with phase := .requesting f }, ?_, rfl⟩
          · simp only [requestsAfter, Function.update_self, hzero]
          · exact Function.update_self _ _ _
        · rw [hc] at hc'
          cases hc'
          rw [hp] at hsent
          cases hsent
    · simp only [requestsAfter, Function.update_of_ne hcc]
      exact hkept
  | _ => exact hkept

/-! ## What a verification has learnt -/

/-- The callers a verification made, the first for its URL and the others for the minutes. -/
structure Asked (s : System) (url : String) (asked : List Nat) (first : Nat)
    (others minutes : List Nat) : Prop where
  callers : asked = first :: others
  own : s.urlOf first = some url
  neighbours : List.Forall₂ (fun c minute => s.urlOf c = some (keyUrlAt (endPointOf url) minute))
    others minutes

/-- A caller has returned no key the signature verifies under. -/
def Fails (p : P256) (m : Machine) (s : System) (o : Owid) (c : Nat) : Prop :=
  ∃ result, s.returnedBy c = some result ∧
    ∀ answer, result = .ok answer → o.verifyWithPublicKey p m answer.pem ≠ .ok true

/-- The search, once the signature has failed under the key tried: the minutes asked for and those
still to ask for are the ones `neighbour_verifies` tries. -/
structure Searched (p : P256) (m : Machine) (s : System) (o : Owid) (url : String)
    (asked : List Nat) (minute : Nat) (tried : KeyAnswer) (first : Nat)
    (others rest : List Nat) : Prop where
  date : minutesSinceBase o.date = some minute
  answer : s.returnedBy first = some (.ok tried)
  failed : o.verifyWithPublicKey p m tried.pem = .ok false
  minutes : ∃ minutes, Asked s url asked first others minutes ∧
    minutes ++ rest = toTry minute tried

/-- What holds of a verification at each point. -/
inductive StageInv (p : P256) (m : Machine) (s : System) (o : Owid) (url : String)
    (asked : List Nat) : Stage → Prop
  | first {c} (h : Asked s url asked c [] []) : StageInv p m s o url asked (.first c)
  | neighbour {minute tried c rest first others}
    (h : Searched p m s o url asked minute tried first (others ++ [c]) rest)
    (hfail : ∀ c ∈ others, Fails p m s o c) :
    StageInv p m s o url asked (.neighbour minute tried c rest)
  | unobtained {c e} (h : Asked s url asked c [] [])
    (hresult : s.returnedBy c = some (.error e)) :
    StageInv p m s o url asked (.returned (.error e))
  | unread {c tried e} (h : Asked s url asked c [] [])
    (hresult : s.returnedBy c = some (.ok tried))
    (hverdict : o.verifyWithPublicKey p m tried.pem = .error e) :
    StageInv p m s o url asked (.returned (.error e))
  | verified {c tried} (h : Asked s url asked c [] [])
    (hresult : s.returnedBy c = some (.ok tried))
    (hverdict : o.verifyWithPublicKey p m tried.pem = .ok true) :
    StageInv p m s o url asked (.returned (.ok true))
  | undated {c tried} (h : Asked s url asked c [] [])
    (hresult : s.returnedBy c = some (.ok tried))
    (hverdict : o.verifyWithPublicKey p m tried.pem = .ok false)
    (hdate : minutesSinceBase o.date = none) : StageInv p m s o url asked (.returned (.ok false))
  | found {minute tried c rest first others answer}
    (h : Searched p m s o url asked minute tried first (others ++ [c]) rest)
    (hfail : ∀ c ∈ others, Fails p m s o c) (hresult : s.returnedBy c = some (.ok answer))
    (hverdict : o.verifyWithPublicKey p m answer.pem = .ok true) :
    StageInv p m s o url asked (.returned (.ok true))
  | exhausted {minute tried first others}
    (h : Searched p m s o url asked minute tried first others [])
    (hfail : ∀ c ∈ others, Fails p m s o c) :
    StageInv p m s o url asked (.returned (concludes minute tried))

/-- What is known of callers stays so. -/
structure Remembers (s t : System) : Prop where
  url : ∀ c url, s.urlOf c = some url → t.urlOf c = some url
  returned : ∀ c result, s.returnedBy c = some result → t.returnedBy c = some result

theorem remembers_of_moves {s t : System} {e : Event} (hm : System.Moves p ch s e t) :
    Remembers s t :=
  ⟨fun _ _ h => System.urlOf_of_moves hm h, fun _ _ h => System.returnedBy_of_moves hm h⟩

/-- A caller that starts changes nothing known of the others. -/
theorem remembers_of_call {s : System} {c : Nat} (hnew : s.callers c = none) (url : String)
    (now : Moment) : Remembers s (s.call c url now) :=
  remembers_of_moves (@System.Moves.call sampleP256 sampleChrono s c url now hnew)

section Remember

variable {s t : System} {o : Owid} {url : String} {asked : List Nat}

theorem Asked.remember {first : Nat} {others minutes : List Nat}
    (h : Asked s url asked first others minutes) (hr : Remembers s t) :
    Asked t url asked first others minutes :=
  ⟨h.callers, hr.url _ _ h.own, h.neighbours.imp fun _ _ hurl => hr.url _ _ hurl⟩

theorem Searched.remember {minute first : Nat} {tried : KeyAnswer} {others rest : List Nat}
    (h : Searched p m s o url asked minute tried first others rest) (hr : Remembers s t) :
    Searched p m t o url asked minute tried first others rest := by
  obtain ⟨minutes, hasked, hsplit⟩ := h.minutes
  exact ⟨h.date, hr.returned _ _ h.answer, h.failed, minutes, hasked.remember hr, hsplit⟩

theorem Fails.remember {c : Nat} (h : Fails p m s o c) (hr : Remembers s t) :
    Fails p m t o c := by
  obtain ⟨result, hresult, hfails⟩ := h
  exact ⟨result, hr.returned _ _ hresult, hfails⟩

theorem StageInv.remember {stage : Stage} (h : StageInv p m s o url asked stage)
    (hr : Remembers s t) : StageInv p m t o url asked stage := by
  cases h with
  | first h => exact .first (h.remember hr)
  | neighbour h hfail => exact .neighbour (h.remember hr) fun c hc => (hfail c hc).remember hr
  | unobtained h hresult => exact .unobtained (h.remember hr) (hr.returned _ _ hresult)
  | unread h hresult hverdict =>
    exact .unread (h.remember hr) (hr.returned _ _ hresult) hverdict
  | verified h hresult hverdict =>
    exact .verified (h.remember hr) (hr.returned _ _ hresult) hverdict
  | undated h hresult hverdict hdate =>
    exact .undated (h.remember hr) (hr.returned _ _ hresult) hverdict hdate
  | found h hfail hresult hverdict =>
    exact .found (h.remember hr) (fun c hc => (hfail c hc).remember hr)
      (hr.returned _ _ hresult) hverdict
  | exhausted h hfail => exact .exhausted (h.remember hr) fun c hc => (hfail c hc).remember hr

/-! ## What a step keeps of it -/

/-- What holds of a verification that is about to return, or to ask for a neighbour. -/
def NextInv (p : P256) (m : Machine) (s : System) (o : Owid) (url : String) (asked : List Nat) :
    Next → Prop
  | .returns result => StageInv p m s o url asked (.returned result)
  | .asks minute tried beyond rest => ∃ first others,
    Searched p m s o url asked minute tried first others (beyond :: rest) ∧
      ∀ c ∈ others, Fails p m s o c

theorem nextInv_tryNext {minute first : Nat} {tried : KeyAnswer} {others rest : List Nat}
    (h : Searched p m s o url asked minute tried first others rest)
    (hfail : ∀ c ∈ others, Fails p m s o c) :
    NextInv p m s o url asked (tryNext minute tried rest) := by
  cases rest with
  | nil => exact .exhausted h hfail
  | cons beyond rest => exact ⟨first, others, h, hfail⟩

theorem nextInv_afterFirst {c : Nat} {result : Except Error KeyAnswer}
    (h : Asked s url asked c [] []) (hresult : s.returnedBy c = some result) :
    NextInv p m s o url asked (afterFirst p m o result) := by
  cases result with
  | error e => exact .unobtained h hresult
  | ok tried =>
    simp only [afterFirst]
    cases hverdict : o.verifyWithPublicKey p m tried.pem with
    | error e => exact .unread h hresult hverdict
    | ok verdict =>
      cases verdict with
      | true => exact .verified h hresult hverdict
      | false =>
        cases hdate : minutesSinceBase o.date with
        | none => exact .undated h hresult hverdict hdate
        | some minute =>
          have hsearched : Searched p m s o url asked minute tried c [] (toTry minute tried) :=
            ⟨hdate, hresult, hverdict, [], h, rfl⟩
          exact nextInv_tryNext hsearched fun _ hc => by cases hc

theorem nextInv_afterNeighbour {minute c first : Nat} {tried : KeyAnswer}
    {others rest : List Nat} {result : Except Error KeyAnswer}
    (h : Searched p m s o url asked minute tried first (others ++ [c]) rest)
    (hfail : ∀ c ∈ others, Fails p m s o c) (hresult : s.returnedBy c = some result) :
    NextInv p m s o url asked (afterNeighbour p m o minute tried rest result) := by
  -- the neighbour does not verify, and the next one is tried
  have hnext : (∀ answer, result = .ok answer → o.verifyWithPublicKey p m answer.pem ≠ .ok true) →
      NextInv p m s o url asked (tryNext minute tried rest) := by
    intro hnot
    refine nextInv_tryNext h ?_
    intro c' hc'
    rcases List.mem_append.mp hc' with hbefore | hlast
    · exact hfail c' hbefore
    · rw [List.mem_singleton.mp hlast]
      exact ⟨result, hresult, hnot⟩
  cases result with
  | error e => exact hnext fun answer hanswer => by cases hanswer
  | ok neighbour =>
    simp only [afterNeighbour]
    by_cases hsame : neighbour.pem = tried.pem
    · rw [if_pos hsame]
      refine hnext ?_
      rintro answer ⟨⟩
      rw [hsame, h.failed]
      simp
    · rw [if_neg hsame]
      cases hverdict : o.verifyWithPublicKey p m neighbour.pem with
      | error e =>
        refine hnext ?_
        rintro answer ⟨⟩
        rw [hverdict]
        simp
      | ok verdict =>
        cases verdict with
        | true => exact .found h hfail hresult hverdict
        | false =>
          refine hnext ?_
          rintro answer ⟨⟩
          rw [hverdict]
          simp

theorem nextInv_of_continues {verifier : Verifier} {next : Next}
    (h : StageInv p m s verifier.owid verifier.url verifier.asked verifier.stage)
    (hnext : Continues p m s verifier next) :
    NextInv p m s verifier.owid verifier.url verifier.asked next := by
  cases hnext with
  | first hstage hresult =>
    rw [hstage] at h
    cases h with
    | first hasked => exact nextInv_afterFirst hasked hresult
  | neighbour hstage hresult =>
    rw [hstage] at h
    cases h with
    | neighbour hsearched hfail => exact nextInv_afterNeighbour hsearched hfail hresult

/-- A neighbour asked for is one still to try. -/
theorem stageInv_asks {minute beyond c : Nat} {tried : KeyAnswer} {rest : List Nat} {now : Moment}
    (hnew : s.callers c = none)
    (h : NextInv p m s o url asked (.asks minute tried beyond rest)) :
    StageInv p m (s.call c (keyUrlAt (endPointOf url) beyond) now) o url (asked ++ [c])
      (.neighbour minute tried c rest) := by
  obtain ⟨first, others, hsearched, hfail⟩ := h
  have hr := remembers_of_call hnew (keyUrlAt (endPointOf url) beyond) now
  have hurl : (s.call c (keyUrlAt (endPointOf url) beyond) now).urlOf c =
      some (keyUrlAt (endPointOf url) beyond) := by
    simp [System.urlOf, System.call]
  have hafter := hsearched.remember hr
  obtain ⟨minutes, hasked, hsplit⟩ := hafter.minutes
  have hsearched : Searched p m (s.call c (keyUrlAt (endPointOf url) beyond) now) o url
      (asked ++ [c]) minute tried first (others ++ [c]) rest := by
    refine ⟨hafter.date, hafter.answer, hafter.failed, minutes ++ [beyond],
      ⟨?_, hasked.own, ?_⟩, ?_⟩
    · rw [hasked.callers, List.cons_append]
    · exact List.rel_append hasked.neighbours (.cons hurl .nil)
    · rw [List.append_assoc, List.singleton_append]
      exact hsplit
  exact .neighbour hsearched fun c hc => (hfail c hc).remember hr

end Remember

/-- What holds of every verification. -/
def StagesInv (p : P256) (m : Machine) (s : Verifying) : Prop :=
  ∀ v verifier, s.verifiers v = some verifier →
    StageInv p m s.sys verifier.owid verifier.url verifier.asked verifier.stage

theorem stagesInv_of_moves (h : StagesInv p m s) (hm : Moves p ch m s t) : StagesInv p m t := by
  intro v verifier hv
  cases hm with
  | shared hm => exact (h v verifier hv).remember (remembers_of_moves hm)
  | @verify v' c owid url now hv' hc =>
    have hr := remembers_of_call hc url now
    by_cases hvv : v = v'
    · subst hvv
      simp only [ask, setVerifier, Function.update_self] at hv
      cases hv
      refine .first ⟨rfl, ?_, .nil⟩
      simp [ask, System.urlOf, System.call]
    · simp only [ask, setVerifier, Function.update_of_ne hvv] at hv
      exact (h v verifier hv).remember hr
  | @returns v' before result hv' hnext =>
    by_cases hvv : v = v'
    · subst hvv
      simp only [setVerifier, Function.update_self] at hv
      cases hv
      exact nextInv_of_continues (h v before hv') hnext
    · simp only [setVerifier, Function.update_of_ne hvv] at hv
      exact h v verifier hv
  | @asks v' c now before minute tried beyond rest hv' hc hnext =>
    have hr := remembers_of_call hc (keyUrlAt (endPointOf before.url) beyond) now
    by_cases hvv : v = v'
    · subst hvv
      simp only [ask, setVerifier, Function.update_self] at hv
      cases hv
      exact stageInv_asks hc (nextInv_of_continues (h v before hv') hnext)
    · simp only [ask, setVerifier, Function.update_of_ne hvv] at hv
      exact (h v verifier hv).remember hr

/-! ## Bounds -/

/-- The minute beyond an edge of the span stated for the key tried, where the date is within the
drift allowance of that edge. -/
def BeyondEdge (minute : Nat) (tried : KeyAnswer) (beyond : Nat) : Prop :=
  tried.known = true ∧
    ((0 < tried.first ∧ ((minute : Int) - tried.first).natAbs ≤ CLOCK_DRIFT_ALLOWANCE_MINUTES ∧
        beyond = tried.first - 1) ∨
      (tried.last < u32Max ∧
        ((minute : Int) - tried.last).natAbs ≤ CLOCK_DRIFT_ALLOWANCE_MINUTES ∧
        beyond = tried.last + 1))

theorem beyondEdge_of_toTry {minute at' : Nat} {tried : KeyAnswer} (h : at' ∈ toTry minute tried) :
    BeyondEdge minute tried at' := by
  unfold toTry at h
  split at h
  · rename_i hknown
    refine ⟨hknown, ?_⟩
    rcases List.mem_append.mp h with h | h
    · split at h
      · rename_i hfirst
        exact .inl ⟨hfirst.1, nearEdge_iff.mp hfirst.2, List.mem_singleton.mp h⟩
      · cases h
    · split at h
      · rename_i hlast
        exact .inr ⟨hlast.1, nearEdge_iff.mp hlast.2, List.mem_singleton.mp h⟩
      · cases h
  · cases h

theorem length_toTry_le (minute : Nat) (tried : KeyAnswer) : (toTry minute tried).length ≤ 2 := by
  unfold toTry
  split
  · unfold beyond
    rw [List.length_append]
    have hone : ∀ (c : Prop) [Decidable c] (n : Nat), (if c then [n] else []).length ≤ 1 := by
      intro c _ n
      split <;> simp
    have hbefore := hone (0 < tried.first ∧ nearEdge minute tried.first = true) (tried.first - 1)
    have hafter := hone (tried.last < u32Max ∧ nearEdge minute tried.last = true) (tried.last + 1)
    omega
  · simp

/-- The requests made by some callers together. -/
def requestsOf (requests : Nat → Nat) : List Nat → Nat
  | [] => 0
  | c :: cs => requests c + requestsOf requests cs

theorem requestsOf_le (h : Counted s) : ∀ cs : List Nat, requestsOf s.requests cs ≤ cs.length
  | [] => le_refl _
  | c :: cs => by
    have hrest := requestsOf_le h cs
    have hone : s.requests c ≤ 1 := by
      rcases h c with hzero | ⟨hone, -⟩ <;> omega
    rw [requestsOf, List.length_cons]
    omega

section Bounds

variable {s : System} {o : Owid} {url : String} {asked : List Nat}

/-- At every point the first caller asks for the URL, and there are others only once the signature
has failed under its key. -/
theorem StageInv.callers {stage : Stage} (h : StageInv p m s o url asked stage) :
    ∃ first others, asked = first :: others ∧ s.urlOf first = some url ∧
      (others = [] ∨ ∃ minute tried rest, Searched p m s o url asked minute tried first others rest) := by
  have hsearched : ∀ {minute first tried others rest},
      Searched p m s o url asked minute tried first others rest →
      ∃ first others, asked = first :: others ∧ s.urlOf first = some url ∧
        (others = [] ∨ ∃ minute tried rest,
          Searched p m s o url asked minute tried first others rest) := by
    intro minute first tried others rest h
    obtain ⟨minutes, hasked, -⟩ := h.minutes
    exact ⟨first, others, hasked.callers, hasked.own, .inr ⟨minute, tried, rest, h⟩⟩
  cases h with
  | first h => exact ⟨_, [], h.callers, h.own, .inl rfl⟩
  | unobtained h | unread h | verified h | undated h => exact ⟨_, [], h.callers, h.own, .inl rfl⟩
  | neighbour h | found h | exhausted h => exact hsearched h

theorem Searched.length_le {minute first : Nat} {tried : KeyAnswer} {others rest : List Nat}
    (h : Searched p m s o url asked minute tried first others rest) : asked.length ≤ 3 := by
  obtain ⟨minutes, hasked, hsplit⟩ := h.minutes
  have hlength := congrArg List.length hsplit
  rw [List.length_append] at hlength
  have htwo := length_toTry_le minute tried
  have hothers := hasked.neighbours.length_eq
  rw [hasked.callers, List.length_cons]
  omega

/-- Every other caller asks for a minute beyond an edge. -/
theorem Searched.beyond {minute first : Nat} {tried : KeyAnswer} {others rest : List Nat}
    (h : Searched p m s o url asked minute tried first others rest) {c : Nat} (hc : c ∈ others) :
    ∃ at', s.urlOf c = some (keyUrlAt (endPointOf url) at') ∧ BeyondEdge minute tried at' := by
  obtain ⟨minutes, hasked, hsplit⟩ := h.minutes
  obtain ⟨i, hi, rfl⟩ := List.mem_iff_getElem.mp hc
  have hi' : i < minutes.length := hasked.neighbours.length_eq ▸ hi
  refine ⟨minutes[i], hasked.neighbours.get hi hi', beyondEdge_of_toTry ?_⟩
  rw [← hsplit]
  exact List.mem_append_left _ (List.getElem_mem hi')

theorem concludes_eq_error {minute : Nat} {tried : KeyAnswer} {e : Error}
    (h : concludes minute tried = .error e) :
    e = notInForce ∧ tried.known = true ∧ tried.covers minute = false := by
  unfold concludes at h
  split at h
  · rename_i hif
    cases h
    simpa using hif
  · cases h

theorem concludes_ne_true (minute : Nat) (tried : KeyAnswer) : concludes minute tried ≠ .ok true := by
  unfold concludes
  split <;> simp

end Bounds

/-! ## The search is bounded and sound -/

/-- The key tried, and the signature under it. -/
structure TriedFirst (p : P256) (m : Machine) (s : System) (verifier : Verifier)
    (tried : KeyAnswer) (verdict : Except Error Bool) : Prop where
  answer : ∃ first others, verifier.asked = first :: others ∧
    s.returnedBy first = some (.ok tried)
  verdict : verifier.owid.verifyWithPublicKey p m tried.pem = verdict

structure BoundedSearch (p : P256) (m : Machine) (s : Verifying) (verifier : Verifier) : Prop where
  requests : requestsOf s.requests verifier.asked ≤ 3
  /-- After the key for its URL it asks for minutes beyond the edges of the key tried, once the
  signature has failed under that. -/
  asks : ∃ first others, verifier.asked = first :: others ∧ s.sys.urlOf first = some verifier.url ∧
    ∀ c ∈ others, ∃ minute tried at', minutesSinceBase verifier.owid.date = some minute ∧
      TriedFirst p m s.sys verifier tried (.ok false) ∧
      s.sys.urlOf c = some (keyUrlAt (endPointOf verifier.url) at') ∧ BeyondEdge minute tried at'
  /-- It answers true exactly where the signature verifies under a key it obtained. -/
  verdict : ∀ result, verifier.stage = .returned result →
    (result = .ok true ↔ ∃ c ∈ verifier.asked, ∃ answer, s.sys.returnedBy c = some (.ok answer) ∧
      verifier.owid.verifyWithPublicKey p m answer.pem = .ok true)
  /-- An error is that of the key for its URL, or of what its creator states of it. -/
  errors : ∀ e, verifier.stage = .returned (.error e) →
    (∃ first others, verifier.asked = first :: others ∧
      s.sys.returnedBy first = some (.error e)) ∨
    (∃ tried, TriedFirst p m s.sys verifier tried (.error e)) ∨
    ∃ minute tried, minutesSinceBase verifier.owid.date = some minute ∧
      TriedFirst p m s.sys verifier tried (.ok false) ∧ e = notInForce ∧ tried.known = true ∧
      tried.covers minute = false

section Search

variable {s : System} {verifier : Verifier}

theorem Searched.triedFirst {minute first : Nat} {tried : KeyAnswer} {others rest : List Nat}
    (h : Searched p m s verifier.owid verifier.url verifier.asked minute tried first others rest) :
    TriedFirst p m s verifier tried (.ok false) := by
  obtain ⟨minutes, hasked, -⟩ := h.minutes
  exact ⟨⟨first, others, hasked.callers, h.answer⟩, h.failed⟩

/-- None of the callers returned a key the signature verifies under. -/
theorem Searched.no_key {minute first : Nat} {tried : KeyAnswer} {others rest : List Nat}
    (h : Searched p m s verifier.owid verifier.url verifier.asked minute tried first others rest)
    (hfail : ∀ c ∈ others, Fails p m s verifier.owid c) :
    ¬ ∃ c ∈ verifier.asked, ∃ answer, s.returnedBy c = some (.ok answer) ∧
      verifier.owid.verifyWithPublicKey p m answer.pem = .ok true := by
  rintro ⟨c, hc, answer, hanswer, hverifies⟩
  obtain ⟨minutes, hasked, -⟩ := h.minutes
  rw [hasked.callers, List.mem_cons] at hc
  rcases hc with rfl | hc
  · rw [h.answer] at hanswer
    cases hanswer
    rw [h.failed] at hverifies
    cases hverifies
  · obtain ⟨result, hresult, hnot⟩ := hfail c hc
    rw [hresult] at hanswer
    exact hnot answer (Option.some.inj hanswer) hverifies

/-- What one caller returned decides where it is the only one. -/
theorem verdict_of_one {c : Nat} {result : Except Error KeyAnswer}
    (h : Asked s verifier.url verifier.asked c [] []) (hresult : s.returnedBy c = some result) :
    (∃ c ∈ verifier.asked, ∃ answer, s.returnedBy c = some (.ok answer) ∧
        verifier.owid.verifyWithPublicKey p m answer.pem = .ok true) ↔
      ∃ answer, result = .ok answer ∧
        verifier.owid.verifyWithPublicKey p m answer.pem = .ok true := by
  rw [h.callers]
  constructor
  · rintro ⟨c', hc', answer, hanswer, hverifies⟩
    rw [List.mem_singleton.mp hc', hresult] at hanswer
    exact ⟨answer, Option.some.inj hanswer, hverifies⟩
  · rintro ⟨answer, rfl, hverifies⟩
    exact ⟨c, List.mem_singleton.mpr rfl, answer, hresult, hverifies⟩

theorem verdict_of_stageInv {result : Except Error Bool}
    (h : StageInv p m s verifier.owid verifier.url verifier.asked (.returned result)) :
    result = .ok true ↔ ∃ c ∈ verifier.asked, ∃ answer, s.returnedBy c = some (.ok answer) ∧
      verifier.owid.verifyWithPublicKey p m answer.pem = .ok true := by
  cases h with
  | unobtained hasked hresult =>
    rw [verdict_of_one hasked hresult]
    simp
  | unread hasked hresult hverdict =>
    rw [verdict_of_one hasked hresult]
    simp [hverdict]
  | verified hasked hresult hverdict =>
    rw [verdict_of_one hasked hresult]
    simp [hverdict]
  | undated hasked hresult hverdict hdate =>
    rw [verdict_of_one hasked hresult]
    simp [hverdict]
  | @found minute tried c rest first others answer hsearched hfail hresult hverdict =>
    obtain ⟨minutes, hasked, -⟩ := hsearched.minutes
    refine iff_of_true rfl ⟨c, ?_, answer, hresult, hverdict⟩
    rw [hasked.callers]
    simp
  | exhausted hsearched hfail =>
    exact iff_of_false (concludes_ne_true _ _) (hsearched.no_key hfail)

theorem errors_of_stageInv {e : Error}
    (h : StageInv p m s verifier.owid verifier.url verifier.asked (.returned (.error e))) :
    (∃ first others, verifier.asked = first :: others ∧
      s.returnedBy first = some (.error e)) ∨
    (∃ tried, TriedFirst p m s verifier tried (.error e)) ∨
    ∃ minute tried, minutesSinceBase verifier.owid.date = some minute ∧
      TriedFirst p m s verifier tried (.ok false) ∧ e = notInForce ∧ tried.known = true ∧
      tried.covers minute = false := by
  generalize hresult : Except.error e = result at h
  cases h with
  | unobtained hasked hanswer =>
    cases hresult
    exact .inl ⟨_, [], hasked.callers, hanswer⟩
  | unread hasked hanswer hverdict =>
    cases hresult
    exact .inr (.inl ⟨_, ⟨_, [], hasked.callers, hanswer⟩, hverdict⟩)
  | verified | undated | found => cases hresult
  | exhausted hsearched hfail =>
    obtain ⟨he, hknown, hcovers⟩ := concludes_eq_error hresult.symm
    exact .inr (.inr ⟨_, _, hsearched.date, hsearched.triedFirst, he, hknown, hcovers⟩)

end Search

theorem boundedSearch_of_stagesInv (hcounted : Counted s) {verifier : Verifier}
    (h : StageInv p m s.sys verifier.owid verifier.url verifier.asked verifier.stage) :
    BoundedSearch p m s verifier := by
  obtain ⟨first, others, hasked, hurl, hothers⟩ := h.callers
  refine ⟨?_, ⟨first, others, hasked, hurl, ?_⟩, ?_, ?_⟩
  · refine (requestsOf_le hcounted _).trans ?_
    rcases hothers with rfl | ⟨minute, tried, rest, hsearched⟩
    · rw [hasked]
      simp
    · exact hsearched.length_le
  · intro c hc
    rcases hothers with rfl | ⟨minute, tried, rest, hsearched⟩
    · cases hc
    · obtain ⟨at', hat, hedge⟩ := hsearched.beyond hc
      exact ⟨minute, tried, at', hsearched.date, hsearched.triedFirst, hat, hedge⟩
  · intro result hstage
    rw [hstage] at h
    exact verdict_of_stageInv h
  · intro e hstage
    rw [hstage] at h
    exact errors_of_stageInv h

theorem stagesInv_of_reach {s₀ : System} {allow : Verifying → VerifyEvent → Prop}
    (h : Reach (step p ch m) allow (start s₀) s) : Counted s ∧ StagesInv p m s :=
  h.invariant (P := fun s => Counted s ∧ StagesInv p m s)
    ⟨fun _ => .inl rfl, fun _ _ hv => by cases hv⟩
    fun _ _ _ hs _ hstep =>
      ⟨counted_of_moves hs.1 (moves_of_step hstep), stagesInv_of_moves hs.2 (moves_of_step hstep)⟩

/-- **The neighbour search is bounded and sound**, from any cache, whatever the transport and the
other callers do, and no minute computed on the way wraps. -/
theorem boundedSearch_of_reach {s₀ : System} {allow : Verifying → VerifyEvent → Prop}
    (h : Reach (step p ch m) allow (start s₀) s) :
    (∀ v verifier, s.verifiers v = some verifier → BoundedSearch p m s verifier) ∧ NoWrap := by
  obtain ⟨hcounted, hkept⟩ := stagesInv_of_reach h
  exact ⟨fun v verifier hv => boundedSearch_of_stagesInv hcounted (hkept v verifier hv), noWrap⟩

/-! A forged signature under a key held for the minutes from 990 to 1005: both its neighbours lie
near the date, and the one before it is asked for first. -/

theorem step_event {e : Event} {u : System} (h : System.step p ch s.sys e = some u) :
    step p ch m s (.event e) = some (s.after e u) := by
  rw [step, h, Option.map_some]

theorem step_firstAsks {v c minute at' : Nat} {verifier : Verifier} {tried : KeyAnswer}
    {rest : List Nat} {result : Except Error KeyAnswer} (c' : Nat) (now : Moment)
    (hv : s.verifiers v = some verifier) (hstage : verifier.stage = .first c)
    (hresult : s.sys.returnedBy c = some result)
    (hnext : afterFirst p m verifier.owid result = .asks minute tried at' rest)
    (hnew : s.sys.callers c' = none) :
    step p ch m s (.resume v c' now) =
      some (s.ask v c' verifier (keyUrlAt (endPointOf verifier.url) at')
        (.neighbour minute tried c' rest) now) := by
  simp only [step, hv, Option.bind_some, hstage, hresult, hnext, goOn, hnew]

def heldNear : System :=
  { System.init with cache := Cache.empty.add "https://ab" ⟨samplePem, 990, 1005, true, false⟩ }

def forgedUrl : String := "https://ab?date=1000"

def firstCaller : Caller := ⟨forgedUrl, false, 0, .looking⟩

def nearAnswer : KeyAnswer := .ofSpan samplePem 990 1005

theorem heldFor_heldNear : heldNear.heldFor firstCaller = some nearAnswer := by decide +kernel

/-- A key that does not verify is followed by the minutes to try. -/
theorem afterFirst_of_fails {o : Owid} {tried : KeyAnswer} {minute : Nat}
    (hfails : o.verifyWithPublicKey p m tried.pem = .ok false)
    (hdate : minutesSinceBase o.date = some minute) :
    afterFirst p m o (.ok tried) = tryNext minute tried (toTry minute tried) := by
  simp only [afterFirst, hfails, hdate]

theorem afterFirst_forged : afterFirst sampleP256 machine64 forgedOwid (.ok nearAnswer) =
    .asks 1000 nearAnswer 989 [1006] := by
  have hdate : minutesSinceBase forgedOwid.date = some 1000 := by decide +kernel
  have htry : toTry 1000 nearAnswer = [989, 1006] := by decide +kernel
  have hfails : forgedOwid.verifyWithPublicKey sampleP256 machine64 nearAnswer.pem = .ok false :=
    forgedOwid_fails
  rw [afterFirst_of_fails hfails hdate, htry]
  rfl

theorem boundedSearch_of_reach_sample :
    ∃ s, Reach (step sampleP256 sampleChrono machine64) (fun _ _ => True) (start heldNear) s ∧
      ∃ verifier, s.verifiers 1 = some verifier ∧ verifier.asked = [1, 2] ∧
        s.sys.urlOf 2 = some (keyUrlAt (endPointOf forgedUrl) 989) ∧
        BoundedSearch sampleP256 machine64 s verifier := by
  have hcaller : (heldNear.call 1 forgedUrl (atMinute 2000)).callers 1 = some firstCaller := by
    have hrecent : (minuteOf forgedUrl).any (recent (atMinute 2000)) = false := by decide +kernel
    simp only [System.call, Function.update_self, hrecent]
    rfl
  have hserved : System.step sampleP256 sampleChrono (heldNear.call 1 forgedUrl (atMinute 2000))
      (.turn 1) = some _ := System.step_served hcaller rfl heldFor_heldNear
  have hcalled : Reach (step sampleP256 sampleChrono machine64) (fun _ _ => True) (start heldNear)
      ((start heldNear).ask 1 1 ⟨forgedOwid, forgedUrl, [], .first 1⟩ forgedUrl (.first 1)
        (atMinute 2000)) :=
    Reach.start.next (e := .verify 1 1 forgedOwid forgedUrl (atMinute 2000)) trivial rfl
  have hanswered := hcalled.next trivial (step_event hserved)
  have hasked := hanswered.next trivial
    (step_firstAsks 2 (atMinute 2000) (v := 1) (c := 1) rfl rfl rfl afterFirst_forged rfl)
  exact ⟨_, hasked, _, rfl, rfl, rfl, (boundedSearch_of_reach hasked).1 1 _ rfl⟩

end Verifying

end OwidRust
