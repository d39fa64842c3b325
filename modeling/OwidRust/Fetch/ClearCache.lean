import OwidRust.Fetch.StatedSpan
import OwidRust.Fetch.SystemInv

/-!
# Callers after a `clear_cache`

Whether a caller that starts after a `clear_cache` is answered only from requests sent after it.
The ledger of the state names, for each end point and PEM, every fetch recorded since the cache was
cleared, so for a held key every fetch its span comes from.

* `LedgerFresh` — every held key has a fetch recorded for it, and all those were sent since;
* `allStates_answeredSince` — a run that records no answer of an older request keeps the promise;
* `answeredSince_slow_fetch` — a fetch under way at the `clear_cache` is recorded all the same, and
  a caller that starts later is served its key.
-/

namespace OwidRust

open Runs

namespace System

variable {p : P256} {ch : Chrono} {s t : System} {e : Event}

/-- The fetches an answer rests on. -/
def Route.flights : Route → List Nat
  | .held sources => sources
  | .fetched f => [f]

/-- Every caller answered was answered from requests sent after each `clear_cache` that came before
it. -/
def AnsweredSince (s : System) : Prop :=
  ∀ c caller route result, s.callers c = some caller → caller.phase = .returned route result →
    Route.flights route ≠ [] ∧
      ∀ f ∈ Route.flights route,
        f < s.nextFlight ∧ ∃ n, (s.flights f).sent = some n ∧ caller.since ≤ n

/-- An answer with a span to hold is recorded only where its request was sent since the cache was
cleared. -/
def RecordsFresh (s : System) : Event → Prop
  | .record c now => ∀ caller f pem start stop, s.callers c = some caller →
    caller.phase = .answered f (.ok (pem, start, stop)) →
    heldSpan now (minuteOf caller.url) caller.recent start stop ≠ none →
    (s.flights f).sent = some s.epoch
  | _ => True

structure LedgerFresh (s : System) : Prop where
  sent : ∀ endPoint pem f, f ∈ s.ledger endPoint pem →
    f < s.nextFlight ∧ (s.flights f).sent = some s.epoch
  known : ∀ endPoint, ∀ k ∈ s.cache.heldAt endPoint, s.ledger endPoint k.pem ≠ []

/-! ## What recording an answer adds -/

theorem ledger_hold (c : Nat) (caller : Caller) (f : Nat) (now : Moment) (pem : String)
    (start stop : Option Nat) (endPoint q : String) :
    (s.hold c caller f now pem start stop).ledger endPoint q =
      if endPoint = endPointOf caller.url ∧ q = pem ∧
          heldSpan now (minuteOf caller.url) caller.recent start stop ≠ none then
        s.ledger endPoint q ++ [f]
      else s.ledger endPoint q := rfl

theorem mem_ledger_hold {c : Nat} {caller : Caller} {f g : Nat} {now : Moment} {pem : String}
    {start stop : Option Nat} {endPoint q : String}
    (h : g ∈ (s.hold c caller f now pem start stop).ledger endPoint q) :
    g ∈ s.ledger endPoint q ∨
      g = f ∧ heldSpan now (minuteOf caller.url) caller.recent start stop ≠ none := by
  rw [ledger_hold] at h
  split at h
  · rename_i hspan
    rcases List.mem_append.mp h with h | h
    · exact .inl h
    · exact .inr ⟨List.mem_singleton.mp h, hspan.2.2⟩
  · exact .inl h

theorem ledgerFresh_hold (hs : s.Wf) (hl : s.LedgerFresh) {c f : Nat} {caller : Caller}
    {now : Moment} {pem : String} {start stop : Option Nat} (hc : s.callers c = some caller)
    (hp : caller.phase = .answered f (.ok (pem, start, stop)))
    (hfresh : heldSpan now (minuteOf caller.url) caller.recent start stop ≠ none →
      (s.flights f).sent = some s.epoch) :
    (s.hold c caller f now pem start stop).LedgerFresh := by
  refine ⟨?_, ?_⟩
  · intro endPoint q g hg
    rcases mem_ledger_hold hg with hg | ⟨rfl, hspan⟩
    · exact hl.sent endPoint q g hg
    · exact ⟨((hs.caller _ _ hc).flight g (by rw [hp]; rfl)).1, hfresh hspan⟩
  · intro endPoint k hk
    rw [ledger_hold]
    rcases mem_heldAt_hold hk with hk | ⟨span, hspan, rfl, hk⟩
    · have hbefore := hl.known endPoint k hk
      split
      · exact List.append_ne_nil_of_left_ne_nil hbefore _
      · exact hbefore
    · have hpem : k.pem = pem := by
        rcases hk with ⟨key, -, hpem, rfl⟩ | rfl
        · exact hpem
        · rfl
      rw [if_pos ⟨rfl, hpem, by rw [hspan]; nofun⟩]
      exact List.append_ne_nil_of_right_ne_nil _ nofun

/-- **The ledger is kept fresh.** -/
theorem ledgerFresh_of_moves (hs : s.Wf) (hl : s.LedgerFresh) (he : s.RecordsFresh e)
    (hm : Moves p ch s e t) : t.LedgerFresh := by
  have hk := keeps_of_moves hs hm
  -- fetches recorded stay as they are where the cache and the ledger do
  have hsame : t.ledger = s.ledger → t.cache.keys = s.cache.keys → t.epoch = s.epoch →
      t.LedgerFresh := by
    intro hledger hkeys hepoch
    refine ⟨?_, ?_⟩
    · intro endPoint pem f hf
      rw [hledger] at hf
      obtain ⟨hlt, hsent⟩ := hl.sent endPoint pem f hf
      rw [hepoch]
      exact ⟨lt_of_lt_of_le hlt hk.next, hk.sent f hlt _ hsent⟩
    · intro endPoint k hheld
      rw [hledger]
      rw [Cache.heldAt, hkeys] at hheld
      exact hl.known endPoint k hheld
  cases hm with
  | call | serve | join | elect | send | respond | fail | release | finish | wake | retry | park
  | leave | abandon => exact hsame rfl rfl rfl
  | record hc hp => exact ledgerFresh_hold hs hl hc hp (he _ _ _ _ _ hc hp)
  | clear =>
    refine ⟨?_, ?_⟩
    · intro endPoint pem f hf
      cases hf
    · intro endPoint k hheld
      cases hheld

/-! ## Callers answered -/

/-- A caller served a held key is served what was recorded since it started. -/
theorem sources_fresh (hs : s.Wf) (hl : s.LedgerFresh) {c : Nat} {caller : Caller}
    {answer : KeyAnswer} (hc : s.callers c = some caller) (hheld : s.heldFor caller = some answer) :
    s.sources caller answer ≠ [] ∧
      ∀ f ∈ s.sources caller answer,
        f < s.nextFlight ∧ ∃ n, (s.flights f).sent = some n ∧ caller.since ≤ n := by
  obtain ⟨minute, -, hserved⟩ := Option.bind_eq_some_iff.mp hheld
  obtain ⟨k, hk, -, -, -, rfl⟩ := Cache.heldFor_eq_some hserved
  rw [sources, HeldKey.stated_pem]
  refine ⟨hl.known _ k hk, ?_⟩
  intro f hf
  obtain ⟨hlt, hsent⟩ := hl.sent _ _ f hf
  exact ⟨hlt, s.epoch, hsent, (hs.caller _ _ hc).since_le⟩

/-- **An answer given is one from requests sent since, and stays one.** -/
theorem answeredSince_of_moves (hs : s.Wf) (hl : s.LedgerFresh) (ha : s.AnsweredSince)
    (hm : Moves p ch s e t) : t.AnsweredSince := by
  have hk := keeps_of_moves hs hm
  have hwf := wf_of_moves hs hm
  intro c caller route result h hphase
  cases route with
  | fetched f =>
    -- the fetch was put up after the caller started, and its request sent after that
    have hw := hwf.caller _ _ h
    obtain ⟨n, hn⟩ := hw.sent f (by rw [hphase]; rfl)
    obtain ⟨hlt, -, hborn⟩ := hw.flight f (by rw [hphase]; rfl)
    refine ⟨nofun, ?_⟩
    intro g hg
    rw [List.mem_singleton.mp hg]
    exact ⟨hlt, n, hn, hborn.trans ((hwf.flight f hlt).sent_le n hn).1⟩
  | held sources =>
    have hbefore : sources ≠ [] ∧ ∀ f ∈ sources,
        f < s.nextFlight ∧ ∃ n, (s.flights f).sent = some n ∧ caller.since ≤ n := by
      rcases held_of_moves hm h hphase with hc | ⟨before, answer, hc, hheld, -, hsince, rfl, -⟩
      · exact ha c caller _ result hc hphase
      · rw [hsince]
        exact sources_fresh hs hl hc hheld
    refine ⟨hbefore.1, ?_⟩
    intro f hf
    obtain ⟨hlt, n, hn, hle⟩ := hbefore.2 f hf
    exact ⟨lt_of_lt_of_le hlt hk.next, n, hk.sent f hlt n hn, hle⟩

/-! ## Runs -/

theorem ledgerFresh_init : init.LedgerFresh := ⟨nofun, nofun⟩

theorem answeredSince_init : init.AnsweredSince := by
  intro c caller route result h
  simp [init] at h

/-- **A run that records no answer of a request sent before a `clear_cache` answers every caller
from requests sent after each `clear_cache` that came before it.** -/
theorem allStates_answeredSince (p : P256) (ch : Chrono) (events : List Event)
    (h : AllSteps (next p ch) RecordsFresh init events) :
    AllStates (next p ch) AnsweredSince init events := by
  have hrun : AllStates (next p ch) (fun s => s.Wf ∧ s.LedgerFresh ∧ s.AnsweredSince) init
      events := by
    refine allStates_of_allSteps ?_ events init
      ⟨wf_init, ledgerFresh_init, answeredSince_init⟩ h
    rintro s e ⟨hs, hl, ha⟩ he
    refine ⟨wf_next hs e, ?_⟩
    rw [next]
    cases hstep : step p ch s e with
    | none => exact ⟨hl, ha⟩
    | some t =>
      have hm := moves_of_step hstep
      exact ⟨ledgerFresh_of_moves hs hl he hm, answeredSince_of_moves hs hl ha hm⟩
  exact hrun.imp fun s hs => hs.2.2

/-! ## Answers before and after a `clear_cache`

Two callers ask for the same key, the second after the cache was cleared. -/

def slowUrl : String := "https://a/owid/api/v3/public-key?date=15&format=spki"

/-- The answer to the request of caller 1. -/
def slowResponse : Except Error FetchResponse := .ok ⟨200, wholeAnswer.toJson sampleChrono⟩

/-- The request of caller 1 is answered with a key in force from minute 10 to minute 20. -/
theorem requestPublicKey_slowResponse :
    requestPublicKey sampleP256 sampleChrono slowUrl slowResponse =
      .ok (samplePem, some 10, some 20) := by
  rw [slowResponse, requestPublicKey_of_parse parse_wholeAnswer validate_wholeAnswer]
  decide +kernel

/-- It is read wherever a caller that asked for the URL is answered with it. -/
theorem next_respond_slow {s : System} {c f since : Nat}
    (hc : s.callers c = some ⟨slowUrl, true, since, .requesting f⟩) :
    next sampleP256 sampleChrono s (.respond c slowResponse) =
      s.setPhase c ⟨slowUrl, true, since, .requesting f⟩
        (.answered f (.ok (samplePem, some 10, some 20))) := by
  rw [next, step, hc, Option.bind_some]
  simp only [requestPublicKey_slowResponse, Option.getD_some]

def askEarly : List Event := [.call 1 slowUrl baseDate, .turn 1, .send 1]

/-- The answer to caller 1 is recorded, the cache is cleared, and caller 2 asks. -/
def askLate : List Event :=
  [.record 1 baseDate, .release 1, .finish 1, .clear, .call 2 slowUrl baseDate, .turn 2, .send 2]

def returnLate : List Event := [.record 2 baseDate, .release 2, .finish 2]

def clearedBetween : List Event :=
  askEarly ++ .respond 1 slowResponse :: (askLate ++ .respond 2 slowResponse :: returnLate)

def sentEarly : System := askEarly.foldl (next sampleP256 sampleChrono) init

def answeredEarly : System :=
  sentEarly.setPhase 1 ⟨slowUrl, true, 0, .requesting 0⟩
    (.answered 0 (.ok (samplePem, some 10, some 20)))

def sentLate : System := askLate.foldl (next sampleP256 sampleChrono) answeredEarly

def answeredLate : System :=
  sentLate.setPhase 2 ⟨slowUrl, true, 1, .requesting 1⟩
    (.answered 1 (.ok (samplePem, some 10, some 20)))

theorem next_sentEarly :
    next sampleP256 sampleChrono sentEarly (.respond 1 slowResponse) = answeredEarly :=
  next_respond_slow rfl

theorem next_sentLate :
    next sampleP256 sampleChrono sentLate (.respond 2 slowResponse) = answeredLate :=
  next_respond_slow rfl

theorem foldl_clearedBetween : clearedBetween.foldl (next sampleP256 sampleChrono) init =
    returnLate.foldl (next sampleP256 sampleChrono) answeredLate := by
  rw [clearedBetween, List.foldl_append, ← sentEarly, List.foldl_cons, next_sentEarly,
    List.foldl_append, ← sentLate, List.foldl_cons, next_sentLate]

theorem allSteps_clearedBetween :
    AllSteps (next sampleP256 sampleChrono) RecordsFresh init clearedBetween := by
  have hrecord : ∀ {s : System} {c f : Nat} {now : Moment} {outcome},
      s.callers c = some ⟨slowUrl, true, s.epoch, .answered f outcome⟩ →
      (s.flights f).sent = some s.epoch → s.RecordsFresh (.record c now) := by
    intro s c f now outcome hc hsent caller g pem start stop hcaller hphase _
    rw [hc, Option.some.injEq] at hcaller
    subst hcaller
    cases hphase
    exact hsent
  rw [clearedBetween, allSteps_append]
  refine ⟨⟨trivial, trivial, trivial, trivial⟩, trivial, ?_⟩
  rw [← sentEarly, next_sentEarly, allSteps_append]
  refine ⟨⟨hrecord rfl rfl, trivial, trivial, trivial, trivial, trivial, trivial, trivial⟩,
    trivial, ?_⟩
  rw [← sentLate, next_sentLate]
  exact ⟨hrecord rfl rfl, trivial, trivial, trivial⟩

/-- The key of caller 1 is held and then dropped, and caller 2 is answered by its own request. -/
theorem allStates_answeredSince_in_time :
    AllStates (next sampleP256 sampleChrono) AnsweredSince init clearedBetween ∧
      ((next sampleP256 sampleChrono answeredEarly (.record 1 baseDate)).cache.heldAt
        (endPointOf slowUrl)).map HeldKey.pem = [samplePem] ∧
      (clearedBetween.foldl (next sampleP256 sampleChrono) init).callers 2 =
        some ⟨slowUrl, true, 1, .returned (.fetched 1) (.ok ⟨samplePem, 10, 19, true⟩)⟩ := by
  refine ⟨allStates_answeredSince _ _ _ allSteps_clearedBetween, rfl, ?_⟩
  rw [foldl_clearedBetween]
  rfl

/-! ## A fetch under way at a `clear_cache`

The request of caller 1 is sent before the cache is cleared and answered after.  Caller 2 asks for
the same key later still. -/

def sentThenCleared : System :=
  [Event.call 1 slowUrl baseDate, .turn 1, .send 1, .clear].foldl
    (next sampleP256 sampleChrono) init

def afterSlowFetch : System :=
  [Event.respond 1 slowResponse, .record 1 baseDate, .release 1, .finish 1,
    .call 2 slowUrl baseDate, .turn 2].foldl (next sampleP256 sampleChrono) sentThenCleared

set_option maxRecDepth 10000 in
/-- Caller 2 starts after one `clear_cache` and is served the key of a request sent before it. -/
theorem answeredSince_slow_fetch :
    (∃ caller answer, afterSlowFetch.callers 2 = some caller ∧ caller.since = 1 ∧
      caller.phase = .returned (.held [0]) (.ok answer) ∧
      (afterSlowFetch.flights 0).sent = some 0) ∧
    ¬ afterSlowFetch.AnsweredSince := by
  have hanswered : next sampleP256 sampleChrono sentThenCleared (.respond 1 slowResponse) =
      sentThenCleared.setPhase 1 ⟨slowUrl, true, 0, .requesting 0⟩
        (.answered 0 (.ok (samplePem, some 10, some 20))) := next_respond_slow rfl
  have hserved : afterSlowFetch.callers 2 = some ⟨slowUrl, true, 1,
      .returned (.held [0]) (.ok ⟨samplePem, 10, 19, true⟩)⟩ := by
    rw [afterSlowFetch, List.foldl_cons, hanswered]
    rfl
  have hsent : (afterSlowFetch.flights 0).sent = some 0 := by
    rw [afterSlowFetch, List.foldl_cons, hanswered]
    rfl
  refine ⟨⟨_, _, hserved, rfl, rfl, hsent⟩, ?_⟩
  intro h
  obtain ⟨-, n, hn, hle⟩ := (h 2 _ _ _ hserved rfl).2 0 (List.mem_singleton.mpr rfl)
  rw [hsent] at hn
  cases hn
  exact absurd hle (by decide)

end System

end OwidRust
