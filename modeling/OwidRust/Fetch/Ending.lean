import OwidRust.Fetch.NeighbourSearch
import OwidRust.Fetch.Settling

/-!
# Every verification comes to an end

`Owid::verify_at_url` of `src/fetch.rs` with the callers it waits for and the executor that polls
them.  In the crate verifications alone ask for keys, each through one caller at a time, so what keeps
the callers from an end would keep the verifications from one.

* `Moves`, `moves_of_step` — all that an event the executor lets happen can do;
* `pays_of_step` — a step is one of the callers, who pay for it, or ends a verification;
* `work_of_unended` — somebody can go on while anybody has not come to an end;
* `ends` — a run is bounded, one that can go no further has ended every verification, and every run
  can be brought there; what is returned there is what a bounded search returns.
-/

namespace OwidRust

open Runs

/-- The caller a verification waits for. -/
def Stage.waitsFor : Stage → Option Nat
  | .first c | .neighbour _ _ c _ => some c
  | .returned _ => none

/-- The caller was dropped, whatever it has still to release. -/
def Phase.dropped : Phase → Bool
  | .leaving _ none | .removed _ none | .gone => true
  | _ => false

/-- Verifications and the callers they wait for, with the record of who is to be woken. -/
structure Executing where
  wakes : Wakes
  verifiers : Nat → Option Verifier
  requests : Nat → Nat
  answers : List (String × Except Error FetchResponse)

inductive ExecuteEvent where
  | verifies (e : VerifyEvent)
  /-- `Leader::drop` wakes the next of the wakers it took. -/
  | wake (f : Nat)

namespace ExecuteEvent

/-- The event is no call of `clear_cache`. -/
def counts : ExecuteEvent → Bool
  | .verifies (.event e) => (WakeEvent.event e).counts
  | _ => true

/-- The event goes on with what was begun: nothing is asked to be verified, nobody is dropped, nothing
is cleared. -/
def works : ExecuteEvent → Bool
  | .verifies (.event e) => (WakeEvent.event e).works
  | .verifies (.verify _ _ _ _ _) => false
  | _ => true

/-- The event drops a verification. -/
def drops : ExecuteEvent → Bool
  | .verifies (.event (.drop _)) => true
  | _ => false

theorem drops_of_works {e : ExecuteEvent} (h : e.works = true) : e.drops = false := by
  rcases e with (⟨_ | _ | _ | _ | _ | _ | _ | _ | _ | _⟩ | _ | _) | _ <;> first | rfl | cases h

theorem counts_of_works {e : ExecuteEvent} (h : e.works = true) : e.counts = true := by
  rcases e with (⟨_ | _ | _ | _ | _ | _ | _ | _ | _ | _⟩ | _ | _) | _ <;> first | rfl | cases h

end ExecuteEvent

/-- Waking a waker changes nothing the callers share. -/
theorem Wakes.sys_of_wake {p : P256} {ch : Chrono} {w w' : Wakes} {f : Nat}
    (h : step p ch w (.wake f) = some w') : w'.sys = w.sys := by
  simp only [step] at h
  split at h
  · cases h
  · rw [← Option.some.inj h]

namespace Verifying

variable {p : P256} {ch : Chrono} {m : Machine} {s : System} {o : Owid} {url : String}
  {asked : List Nat}

/-- A verification asks for three keys at most. -/
theorem StageInv.length_le {stage : Stage} (h : StageInv p m s o url asked stage) :
    asked.length ≤ 3 := by
  obtain ⟨first, others, rfl, -, rfl | ⟨minute, tried, rest, hsearched⟩⟩ := h.callers
  · simp
  · exact hsearched.length_le

/-- One that is to ask for another has asked for two at most. -/
theorem length_le_of_asks {minute beyond : Nat} {tried : KeyAnswer} {rest : List Nat}
    (h : NextInv p m s o url asked (.asks minute tried beyond rest)) : asked.length ≤ 2 := by
  obtain ⟨first, others, hsearched, -⟩ := h
  obtain ⟨minutes, hasked, hsplit⟩ := hsearched.minutes
  have hlength := congrArg List.length hsplit
  rw [List.length_append, List.length_cons] at hlength
  have htry := length_toTry_le minute tried
  have hothers := hasked.neighbours.length_eq
  rw [hasked.callers, List.length_cons]
  omega

/-- What a verification waits for is a caller. -/
theorem StageInv.urlOf_waitsFor {stage : Stage} (h : StageInv p m s o url asked stage) {c : Nat}
    (hc : stage.waitsFor = some c) : ∃ url', s.urlOf c = some url' := by
  cases h with
  | first hasked =>
    cases hc
    exact ⟨url, hasked.own⟩
  | neighbour hsearched =>
    cases hc
    obtain ⟨at', hurl, -⟩ := hsearched.beyond (List.mem_append_right _ List.mem_cons_self)
    exact ⟨_, hurl⟩
  | unobtained | unread | verified | undated | found | exhausted => cases hc

/-- A verification whose caller has returned goes on. -/
theorem continues_of_returned {verifier : Verifier} {c : Nat} {result : Except Error KeyAnswer}
    (hc : verifier.stage.waitsFor = some c) (hresult : s.returnedBy c = some result) :
    ∃ next, Continues p m s verifier next := by
  cases hstage : verifier.stage with
  | first caller =>
    rw [hstage] at hc
    cases hc
    exact ⟨_, .first hstage hresult⟩
  | neighbour minute tried caller rest =>
    rw [hstage] at hc
    cases hc
    exact ⟨_, .neighbour hstage hresult⟩
  | returned =>
    rw [hstage] at hc
    cases hc

theorem step_resume {s : Verifying} {v : Nat} {verifier : Verifier} {next : Next}
    (hv : s.verifiers v = some verifier) (hnext : Continues p m s.sys verifier next) (c : Nat)
    (now : Moment) : step p ch m s (.resume v c now) = s.goOn v c verifier now next := by
  cases hnext with
  | first hstage hresult | neighbour hstage hresult =>
    simp only [step, hv, Option.bind_some, hstage, hresult]

end Verifying

namespace Executing

def init : Executing := ⟨.init, fun _ => none, fun _ => 0, []⟩

/-- The verifications, without the record. -/
def verifying (x : Executing) : Verifying := ⟨x.wakes.sys, x.verifiers, x.requests, x.answers⟩

/-- The record after an event: a caller that starts has left no waker. -/
def wakesAfter (x : Executing) (t : System) : VerifyEvent → Wakes
  | .event e => x.wakes.after e t
  | _ => { x.wakes with sys := t }

def after (x : Executing) (e : VerifyEvent) (s : Verifying) : Executing :=
  ⟨x.wakesAfter s.sys e, s.verifiers, s.requests, s.answers⟩

def step (p : P256) (ch : Chrono) (m : Machine) (x : Executing) : ExecuteEvent → Option Executing
  | .verifies e => (Verifying.step p ch m x.verifying e).map (x.after e)
  | .wake f => (Wakes.step p ch x.wakes (.wake f)).map fun w => { x with wakes := w }

/-- What an executor of the verifications of `V`, whose callers are of `I`, lets happen. -/
def Drives (I V : Finset Nat) (x : Executing) : ExecuteEvent → Prop
  | .verifies (.event (.call _ _ _)) => False
  | .verifies (.event (.poll c _)) => x.wakes.Prompted c
  | .verifies (.verify v c _ _ _) => v ∈ V ∧ c ∈ I
  | .verifies (.resume _ c _) => c ∈ I
  | _ => True

/-- Every verification has returned or was dropped, and nothing is left under way. -/
structure Ended (x : Executing) : Prop where
  verifiers : ∀ v verifier, x.verifiers v = some verifier → ∀ c, verifier.stage.waitsFor = some c →
    Wakes.phaseOf x.wakes.sys c = some .gone
  settled : x.wakes.Settled

variable {p : P256} {ch : Chrono} {m : Machine} {I V : Finset Nat} {x y : Executing}
  {e : ExecuteEvent}

/-! ## What an event can do -/

@[simp] theorem verifying_after (e : VerifyEvent) (s : Verifying) : (x.after e s).verifying = s := by
  cases e <;> rfl

@[simp] theorem verifying_sys : x.verifying.sys = x.wakes.sys := rfl

@[simp] theorem verifying_verifiers : x.verifying.verifiers = x.verifiers := rfl

/-- **Without the record a step is one of the verifications**, or changes nothing. -/
theorem verifying_of_step (h : step p ch m x e = some y) :
    y.verifying = x.verifying ∨ ∃ e', Verifying.step p ch m x.verifying e' = some y.verifying := by
  cases e with
  | verifies e =>
    obtain ⟨s, hs, rfl⟩ := Option.map_eq_some_iff.mp h
    exact .inr ⟨e, by rw [verifying_after, hs]⟩
  | wake f =>
    obtain ⟨w, hw, rfl⟩ := Option.map_eq_some_iff.mp h
    left
    simp only [verifying, Wakes.sys_of_wake hw]

/-- A verification, new or waiting before, has asked for a key through a new caller. -/
structure Asks (x y : Executing) (v c : Nat) (verifier : Verifier) : Prop where
  new : x.wakes.sys.callers c = none
  called : ∃ url now, y.wakes = { x.wakes with sys := x.wakes.sys.call c url now }
  verifiers : y.verifiers = Function.update x.verifiers v (some verifier)
  waits : verifier.stage.waitsFor = some c
  asked : c ∈ verifier.asked
  before : ∀ earlier, x.verifiers v = some earlier →
    earlier.stage.waitsFor.isSome = true ∧ earlier.asked ⊆ verifier.asked

/-- All that an event the executor lets happen can do. -/
inductive Moves (p : P256) (ch : Chrono) (I V : Finset Nat) (x : Executing) (e : ExecuteEvent)
    (y : Executing) : Prop
  | shared {event : WakeEvent} (hcounts : event.counts = e.counts)
    (hdrops : ∀ c, event = .event (.drop c) → e.drops = true)
    (hallow : Wakes.Drives I x.wakes event)
    (hstep : Wakes.step p ch x.wakes event = some y.wakes)
    (hcallers : ∀ c, x.wakes.sys.callers c = none → y.wakes.sys.callers c = none)
    (hverifiers : y.verifiers = x.verifiers)
  | asks {v c : Nat} {verifier : Verifier} (hc : c ∈ I)
    (hv : v ∈ V ∨ (x.verifiers v).isSome = true) (h : Asks x y v c verifier)
  | returns {v : Nat} {verifier : Verifier} {result : Except Error Bool}
    (hv : x.verifiers v = some verifier) (hwaits : verifier.stage.waitsFor.isSome = true)
    (hwakes : y.wakes = x.wakes)
    (hverifiers : y.verifiers =
      Function.update x.verifiers v (some { verifier with stage := .returned result }))

/-- An event that is no call makes no caller. -/
theorem callers_of_moves {s t : System} {e : Event} (hm : System.Moves p ch s e t)
    (hcall : ∀ c url now, e ≠ .call c url now) {c : Nat} (hc : s.callers c = none) :
    t.callers c = none := by
  have hmoved : ∀ {c' : Nat} {moved : Caller} {q : Phase}, s.callers c' = some moved →
      Function.update s.callers c' (some { moved with phase := q }) c = none := by
    intro c' moved q hmoved
    rw [Function.update_of_ne]
    · exact hc
    · rintro rfl
      rw [hc] at hmoved
      cases hmoved
  cases hm with
  | call => exact absurd rfl (hcall _ _ _)
  | clear | park => exact hc
  | serve hm' | join hm' | elect hm' | send hm' | respond hm' | record hm' | fail hm'
  | release hm' | finish hm' | wake hm' | retry hm' | leave hm' | abandon hm' => exact hmoved hm'

/-- To the callers a verification that asks is a call. -/
theorem Asks.step {v c : Nat} {verifier : Verifier} (h : Asks x y v c verifier) (hc : c ∈ I)
    (p : P256) (ch : Chrono) : ∃ event : WakeEvent, event.counts = true ∧
      Wakes.Drives I x.wakes event ∧ Wakes.step p ch x.wakes event = some y.wakes := by
  obtain ⟨url, now, hwakes⟩ := h.called
  refine ⟨.event (.call c url now), rfl, hc, ?_⟩
  simp only [Wakes.step, System.step, h.new, Option.map_some, hwakes]
  rfl

theorem waitsFor_of_continues {s : System} {verifier : Verifier} {next : Next}
    (h : Verifying.Continues p m s verifier next) : verifier.stage.waitsFor.isSome = true := by
  cases h with
  | first hstage | neighbour hstage =>
    rw [hstage]
    rfl

/-- A verification that goes on asks for another key, or returns. -/
theorem moves_of_goOn {v c : Nat} {now : Moment} {verifier : Verifier} {next : Next}
    {s : Verifying} (hv : x.verifiers v = some verifier) (hc : c ∈ I)
    (hnext : Verifying.Continues p m x.wakes.sys verifier next)
    (h : x.verifying.goOn v c verifier now next = some s) :
    Moves p ch I V x (.verifies (.resume v c now)) (x.after (.resume v c now) s) := by
  have hwaits := waitsFor_of_continues hnext
  cases next with
  | returns result =>
    cases h
    exact .returns hv hwaits rfl rfl
  | asks minute tried beyond rest =>
    simp only [Verifying.goOn] at h
    split at h
    · rename_i hnew
      cases h
      refine .asks (v := v) hc (.inr (by rw [hv]; rfl))
        ⟨hnew, ⟨_, now, rfl⟩, rfl, rfl, List.mem_append_right _ List.mem_cons_self, ?_⟩
      intro earlier hearlier
      rw [hv] at hearlier
      cases hearlier
      exact ⟨hwaits, List.subset_append_left _ _⟩
    · cases h

/-- **A step does one of these.** -/
theorem moves_of_step (hallow : Drives I V x e) (h : step p ch m x e = some y) :
    Moves p ch I V x e y := by
  cases e with
  | wake f =>
    obtain ⟨w, hw, rfl⟩ := Option.map_eq_some_iff.mp h
    refine @Moves.shared p ch I V x _ _ (.wake f) rfl nofun trivial hw ?_ rfl
    intro c hc
    rw [Wakes.sys_of_wake hw]
    exact hc
  | verifies e =>
    obtain ⟨s, hs, rfl⟩ := Option.map_eq_some_iff.mp h
    cases e with
    | event e =>
      obtain ⟨t, ht, rfl⟩ := Option.map_eq_some_iff.mp hs
      have hcall : ∀ c url now, e ≠ .call c url now := by
        rintro c url now rfl
        exact hallow
      refine @Moves.shared p ch I V x _ _ (.event e) rfl ?_ ?_ ?_
        (fun c hc => callers_of_moves (System.moves_of_step ht) hcall hc) rfl
      · rintro c ⟨⟩
        rfl
      · cases e <;> first | exact hallow.elim | exact hallow
      · rw [verifying_sys] at ht
        rw [Wakes.step, ht]
        rfl
    | verify v c owid url now =>
      simp only [Verifying.step] at hs
      split at hs
      · rename_i hv hnew
        cases hs
        refine .asks (v := v) hallow.2 (.inl hallow.1)
          ⟨hnew, ⟨url, now, rfl⟩, rfl, rfl, List.mem_cons_self, ?_⟩
        intro earlier hearlier
        rw [verifying_verifiers, hearlier] at hv
        cases hv
      · cases hs
    | resume v c now =>
      obtain ⟨verifier, hv, hstage⟩ := Option.bind_eq_some_iff.mp hs
      split at hstage
      · rename_i caller hfirst
        obtain ⟨result, hresult, hgo⟩ := Option.bind_eq_some_iff.mp hstage
        exact moves_of_goOn hv hallow (.first hfirst hresult) hgo
      · rename_i minute tried caller rest hneighbour
        obtain ⟨result, hresult, hgo⟩ := Option.bind_eq_some_iff.mp hstage
        exact moves_of_goOn hv hallow (.neighbour hneighbour hresult) hgo
      · cases hstage

/-! ## What is kept -/

/-- What every state the executor reaches satisfies. -/
structure EndingInv (p : P256) (m : Machine) (I V : Finset Nat) (x : Executing) : Prop where
  wakes : x.wakes.SettlingInv I
  stages : Verifying.StagesInv p m x.verifying
  within : ∀ v, (x.verifiers v).isSome = true → v ∈ V
  /-- Every caller is one a verification made. -/
  owned : ∀ c, x.wakes.sys.callers c ≠ none →
    ∃ v verifier, x.verifiers v = some verifier ∧ c ∈ verifier.asked

theorem endingInv_init : EndingInv p m I V init where
  wakes := Wakes.settlingInv_init
  stages _ _ h := by cases h
  within _ h := by cases h
  owned _ h := absurd rfl h

theorem stagesInv_of_step (h : Verifying.StagesInv p m x.verifying)
    (hstep : step p ch m x e = some y) :
    Verifying.StagesInv p m y.verifying := by
  rcases verifying_of_step hstep with hsame | ⟨e', he'⟩
  · rw [hsame]
    exact h
  · exact Verifying.stagesInv_of_moves h (Verifying.moves_of_step he')

/-- Who made a caller is known of the one that asks, and of the others stays so. -/
theorem owned_of_asks (h : ∀ c, x.wakes.sys.callers c ≠ none →
      ∃ v verifier, x.verifiers v = some verifier ∧ c ∈ verifier.asked)
    {v c : Nat} {verifier : Verifier} (hasks : Asks x y v c verifier) (c' : Nat)
    (hc' : y.wakes.sys.callers c' ≠ none) :
    ∃ v verifier, y.verifiers v = some verifier ∧ c' ∈ verifier.asked := by
  obtain ⟨-, ⟨url, now, hwakes⟩, hverifiers, -, hasked, hbefore⟩ := hasks
  have hself : y.verifiers v = some verifier := by rw [hverifiers, Function.update_self]
  by_cases hcc : c' = c
  · subst hcc
    exact ⟨v, verifier, hself, hasked⟩
  · rw [hwakes] at hc'
    simp only [System.call, Function.update_of_ne hcc] at hc'
    obtain ⟨v', earlier, hearlier, hmem⟩ := h c' hc'
    by_cases hvv : v' = v
    · subst hvv
      exact ⟨v', verifier, hself, (hbefore earlier hearlier).2 hmem⟩
    · exact ⟨v', earlier, by rw [hverifiers, Function.update_of_ne hvv, hearlier], hmem⟩

theorem endingInv_of_step (h : EndingInv p m I V x) (hallow : Drives I V x e)
    (hstep : step p ch m x e = some y) : EndingInv p m I V y := by
  have hkept := stagesInv_of_step h.stages hstep
  -- one verification at a time changes, and one that was there stays
  have hwithin : ∀ {v verifier}, v ∈ V ∨ (x.verifiers v).isSome = true →
      y.verifiers = Function.update x.verifiers v (some verifier) →
      ∀ v', (y.verifiers v').isSome = true → v' ∈ V := by
    intro v verifier hv hverifiers v' hv'
    rw [hverifiers] at hv'
    by_cases hvv : v' = v
    · subst hvv
      exact hv.elim id (h.within v')
    · rw [Function.update_of_ne hvv] at hv'
      exact h.within v' hv'
  cases moves_of_step hallow hstep with
  | shared hcounts hdrops hdrives hwakes hcallers hverifiers =>
    refine ⟨Wakes.settlingInv_of_step h.wakes hdrives hwakes, hkept, ?_, ?_⟩
    · rw [hverifiers]
      exact h.within
    · intro c hc
      rw [hverifiers]
      exact h.owned c fun hnone => hc (hcallers c hnone)
  | asks hmem hv hasks =>
    obtain ⟨event, -, hdrives, hwakes⟩ := hasks.step hmem p ch
    exact ⟨Wakes.settlingInv_of_step h.wakes hdrives hwakes, hkept, hwithin hv hasks.verifiers,
      owned_of_asks h.owned hasks⟩
  | @returns v verifier result hv hwaits hwakes hverifiers =>
    refine ⟨hwakes ▸ h.wakes, hkept, hwithin (.inr (by rw [hv]; rfl)) hverifiers, ?_⟩
    intro c hc
    rw [hwakes] at hc
    obtain ⟨v', earlier, hearlier, hmem⟩ := h.owned c hc
    by_cases hvv : v' = v
    · subst hvv
      rw [hv] at hearlier
      cases hearlier
      exact ⟨v', { verifier with stage := .returned result },
        by rw [hverifiers, Function.update_self], hmem⟩
    · exact ⟨v', earlier, by rw [hverifiers, Function.update_of_ne hvv, hearlier], hmem⟩

/-! ## What a run may cost -/

/-- What a verification may still cost beside its callers: it returns once. -/
def left (x : Executing) (v : Nat) : Nat :=
  if (x.verifiers v).any fun verifier => verifier.stage.waitsFor.isNone then 0 else 1

theorem left_le (v : Nat) : x.left v ≤ 1 := by
  unfold left
  split <;> omega

theorem left_of_waits {v : Nat} (h : ∀ verifier, x.verifiers v = some verifier →
    verifier.stage.waitsFor.isSome = true) : x.left v = 1 := by
  unfold left
  cases hv : x.verifiers v with
  | none => rfl
  | some verifier =>
    rw [Option.any_some, Option.isNone_eq_false_iff.mpr (h verifier hv)]
    rfl

theorem left_of_returned {v : Nat} {verifier : Verifier} {result : Except Error Bool}
    (hv : x.verifiers v = some verifier) (hstage : verifier.stage = .returned result) :
    x.left v = 0 := by
  rw [left, hv, Option.any_some, hstage]
  rfl

theorem left_of_same {v : Nat} (h : y.verifiers v = x.verifiers v) : y.left v = x.left v := by
  rw [left, left, h]

/-- What a run may still cost. -/
def cost (I V : Finset Nat) (x : Executing) : Nat := x.wakes.cost I + ∑ v ∈ V, x.left v

theorem cost_init : cost I V init = I.card * (4 * I.card + 7) + V.card := by
  have hleft : ∀ v ∈ V, init.left v = 1 := fun _ _ => rfl
  rw [cost, Finset.sum_const_nat hleft, Nat.mul_one]
  exact congrArg (· + V.card) Wakes.cost_init

/-- **Every step is paid for.** -/
theorem pays_of_step : Pays (step p ch m) (Drives I V) (EndingInv p m I V) ExecuteEvent.counts
    (cost I V) where
  keeps x e y h hallow hstep := endingInv_of_step h hallow hstep
  pays x e y h hallow hstep := by
    cases moves_of_step hallow hstep with
    | shared hcounts hdrops hdrives hwakes hcallers hverifiers =>
      have hpaid := Wakes.pays_of_step.pays _ _ _ h.wakes hdrives hwakes
      have hleft : y.left = x.left := funext fun v => left_of_same (by rw [hverifiers])
      rw [cost, cost, hleft, ← hcounts]
      omega
    | @asks v c verifier hmem hv hasks =>
      obtain ⟨event, hcounts, hdrives, hwakes⟩ := hasks.step hmem p ch
      have hpaid := Wakes.pays_of_step.pays _ _ _ h.wakes hdrives hwakes
      have hleft : ∀ v', y.left v' ≤ x.left v' := by
        intro v'
        by_cases hvv : v' = v
        · subst hvv
          rw [left_of_waits (x := x) fun earlier hearlier => (hasks.before earlier hearlier).1]
          exact left_le v'
        · exact (left_of_same (by rw [hasks.verifiers, Function.update_of_ne hvv])).le
      have hsum : ∑ v ∈ V, y.left v ≤ ∑ v ∈ V, x.left v := Finset.sum_le_sum fun v' _ => hleft v'
      rw [if_pos hcounts] at hpaid
      rw [cost, cost]
      split <;> omega
    | @returns v verifier result hv hwaits hwakes hverifiers =>
      have hsum : ∑ v ∈ V, y.left v + 1 ≤ ∑ v ∈ V, x.left v + 0 := by
        refine sum_add_le 0 (h.within v (by rw [hv]; rfl)) ?_ ?_
        · intro v' _ hvv
          exact (left_of_same (by rw [hverifiers, Function.update_of_ne hvv])).le
        · have hself : y.verifiers v = some { verifier with stage := .returned result } := by
            rw [hverifiers, Function.update_self]
          have hbefore : x.left v = 1 := left_of_waits fun earlier hearlier => by
            rw [hv] at hearlier
            cases hearlier
            exact hwaits
          have hafter : y.left v = 0 := left_of_returned hself rfl
          omega
      rw [cost, cost, hwakes]
      split <;> omega

/-! ## Somebody can go on -/

/-- What the callers can go on with, the verifications that wait for them can. -/
theorem work_of_wakes {event : WakeEvent} {w : Wakes} (hworks : event.works = true)
    (hallow : Wakes.Drives I x.wakes event) (hstep : Wakes.step p ch x.wakes event = some w) :
    ∃ e y, e.works = true ∧ Drives I V x e ∧ step p ch m x e = some y := by
  cases event with
  | wake f => exact ⟨.wake f, _, rfl, trivial, by rw [step, hstep, Option.map_some]⟩
  | event e =>
    obtain ⟨t, ht, -⟩ := Option.map_eq_some_iff.mp hstep
    refine ⟨.verifies (.event e), _, hworks, ?_, by
      rw [step, Verifying.step, verifying_sys, ht, Option.map_some, Option.map_some]⟩
    cases e with
    | call => cases hworks
    | _ => exact hallow

/-- Where the verifications have room for three callers each, one that asks finds a new one. -/
theorem exists_new (hd : EndingInv p m I V x) (hroom : 3 * V.card ≤ I.card) {v : Nat}
    {verifier : Verifier} (hv : x.verifiers v = some verifier) (hasked : verifier.asked.length ≤ 2) :
    ∃ c ∈ I, x.wakes.sys.callers c = none := by
  -- the callers there are, by the verification that made them
  let asked : Nat → List Nat := fun v => (x.verifiers v).elim [] Verifier.asked
  have hthree : ∀ v' ∈ V, (asked v').toFinset.card ≤ 3 := by
    intro v' _
    cases hv' : x.verifiers v' with
    | none => simp [asked, hv']
    | some verifier' =>
      simp only [asked, hv', Option.elim_some]
      exact (List.toFinset_card_le _).trans (hd.stages v' verifier' hv').length_le
  have htwo : (asked v).toFinset.card < 3 := by
    simp only [asked, hv, Option.elim_some]
    exact Nat.lt_succ_of_le ((List.toFinset_card_le _).trans hasked)
  have hcard : (V.biUnion fun v' => (asked v').toFinset).card < I.card := by
    calc (V.biUnion fun v' => (asked v').toFinset).card
        ≤ ∑ v' ∈ V, (asked v').toFinset.card := Finset.card_biUnion_le
      _ < ∑ _v' ∈ V, 3 :=
        Finset.sum_lt_sum hthree ⟨v, hd.within v (by rw [hv]; rfl), htwo⟩
      _ = 3 * V.card := by rw [Finset.sum_const_nat fun _ _ => rfl, Nat.mul_comm]
      _ ≤ I.card := hroom
  obtain ⟨c, hc, hnot⟩ := Finset.exists_mem_notMem_of_card_lt_card hcard
  refine ⟨c, hc, ?_⟩
  by_contra hne
  obtain ⟨v', verifier', hv', hmem⟩ := hd.owned c hne
  refine hnot (Finset.mem_biUnion.mpr ⟨v', hd.within v' (by rw [hv']; rfl), ?_⟩)
  simp only [asked, hv', Option.elim_some, List.mem_toFinset]
  exact hmem

/-- A verification whose caller has returned can go on. -/
theorem work_of_returned (hd : EndingInv p m I V x) (hroom : 3 * V.card ≤ I.card) {v c : Nat}
    {verifier : Verifier} {result : Except Error KeyAnswer} (hv : x.verifiers v = some verifier)
    (hmem : c ∈ I) (hc : verifier.stage.waitsFor = some c)
    (hresult : x.wakes.sys.returnedBy c = some result) :
    ∃ e y, e.works = true ∧ Drives I V x e ∧ step p ch m x e = some y := by
  obtain ⟨next, hnext⟩ : ∃ next, Verifying.Continues p m x.wakes.sys verifier next :=
    Verifying.continues_of_returned hc hresult
  have hinv := Verifying.nextInv_of_continues (hd.stages v verifier hv) hnext
  have hgo : ∀ {c' : Nat} {s : Verifying}, c' ∈ I →
      x.verifying.goOn v c' verifier baseDate next = some s →
      ∃ e y, e.works = true ∧ Drives I V x e ∧ step p ch m x e = some y := by
    intro c' s hmem' hs
    refine ⟨.verifies (.resume v c' baseDate), x.after (.resume v c' baseDate) s, rfl, hmem', ?_⟩
    rw [step, Verifying.step_resume (s := x.verifying) hv hnext, hs, Option.map_some]
  cases next with
  | returns => exact hgo hmem rfl
  | asks minute tried beyond rest =>
    obtain ⟨c', hmem', hnew⟩ := exists_new hd hroom hv (Verifying.length_le_of_asks hinv)
    refine hgo (s := x.verifying.ask v c' verifier (keyUrlAt (endPointOf verifier.url) beyond)
      (.neighbour minute tried c' rest) baseDate) hmem' ?_
    simp only [Verifying.goOn, verifying_sys, hnew]

/-- **Somebody can go on** until every verification has come to an end. -/
theorem work_of_unended (p : P256) (ch : Chrono) (m : Machine) (hd : EndingInv p m I V x)
    (hroom : 3 * V.card ≤ I.card) (h : ¬ Ended x) :
    ∃ e y, e.works = true ∧ Drives I V x e ∧ step p ch m x e = some y := by
  by_cases hsettled : x.wakes.Settled
  · by_contra hstuck
    refine h ⟨?_, hsettled⟩
    intro v verifier hv c hc
    obtain ⟨url, hurl⟩ := (hd.stages v verifier hv).urlOf_waitsFor hc
    obtain ⟨caller, hcaller, -⟩ := Option.map_eq_some_iff.mp hurl
    rw [verifying_sys] at hcaller
    have hphase : Wakes.phaseOf x.wakes.sys c = some caller.phase := by
      rw [Wakes.phaseOf, hcaller, Option.map_some]
    rcases hsettled.callers c caller.phase hphase with hgone | ⟨route, result, hreturned⟩
    · rw [hphase, hgone]
    · exact absurd (work_of_returned hd hroom hv (hd.wakes.within c caller hcaller) hc
        (System.returnedBy_of_phase hcaller hreturned)) hstuck
  · obtain ⟨event, w, hworks, hallow, hstep⟩ := Wakes.work_of_unsettled p ch hd.wakes hsettled
    exact work_of_wakes hworks hallow hstep

/-! ## Where nobody is dropped -/

theorem undropped_of_moves {s t : System} {e : Event}
    (h : ∀ c caller, s.callers c = some caller → caller.phase.dropped = false)
    (hm : System.Moves p ch s e t) (hdrop : ∀ c, e ≠ .drop c) :
    ∀ c caller, t.callers c = some caller → caller.phase.dropped = false := by
  intro c caller hc
  cases hm with
  | clear | park => exact h c caller hc
  | leave | abandon => exact absurd rfl (hdrop _)
  | call =>
    rcases System.caller_cases hc with ⟨rfl, rfl⟩ | ⟨-, hc⟩
    · rfl
    · exact h c caller hc
  | serve hc' | join hc' | elect hc' | send hc' | respond hc' | record hc' | fail hc' | wake hc'
  | retry hc' =>
    rcases System.caller_cases hc with ⟨rfl, rfl⟩ | ⟨-, hc⟩
    · rfl
    · exact h c caller hc
  | @release c' moved f outcome hc' hp | @finish c' moved f outcome hc' hp =>
    -- a leader that was not dropped carries an outcome
    have hcarried := h c' moved hc'
    rw [hp] at hcarried
    cases outcome with
    | none => cases hcarried
    | some outcome =>
      rcases System.caller_cases hc with ⟨rfl, rfl⟩ | ⟨-, hc⟩
      · rfl
      · exact h c caller hc

theorem undropped_of_step
    (h : ∀ c caller, x.wakes.sys.callers c = some caller → caller.phase.dropped = false)
    (hallow : Drives I V x e) (hdrop : e.drops = false) (hstep : step p ch m x e = some y) :
    ∀ c caller, y.wakes.sys.callers c = some caller → caller.phase.dropped = false := by
  cases moves_of_step hallow hstep with
  | @shared event hcounts hdrops hdrives hwakes hcallers hverifiers =>
    cases event with
    | event e' =>
      obtain ⟨t, ht, hy⟩ := Option.map_eq_some_iff.mp hwakes
      rw [← hy]
      refine undropped_of_moves h (System.moves_of_step ht) ?_
      rintro c rfl
      rw [hdrops c rfl] at hdrop
      cases hdrop
    | wake f =>
      rw [Wakes.sys_of_wake hwakes]
      exact h
  | asks hmem hv hasks =>
    obtain ⟨url, now, hwakes⟩ := hasks.called
    rw [hwakes]
    exact undropped_of_moves (p := p) h (@System.Moves.call p ch _ _ url now hasks.new) nofun
  | returns hv hwaits hwakes hverifiers =>
    rw [hwakes]
    exact h

/-! ## Every run -/

/-- What is to be said of a run of the verifications of `V` and the state it ends in. -/
structure Ends (p : P256) (ch : Chrono) (m : Machine) (I V : Finset Nat)
    (events : List ExecuteEvent) (x : Executing) : Prop where
  /-- The verifications do not keep one another busy. -/
  bounded : events.countP ExecuteEvent.counts ≤ I.card * (4 * I.card + 7) + V.card
  /-- No verification is left waiting where nothing can go on. -/
  stuck : (∀ e, e.works = true → Drives I V x e → step p ch m x e = none) → Ended x
  /-- Going on with what was begun brings every verification to an end, and none but to its return
  where none was dropped. -/
  completes : ∃ more y, (∀ e ∈ more, e.works = true) ∧
    Run (step p ch m) (Drives I V) x more y ∧ Ended y ∧
    ((∀ e ∈ events, e.drops = false) → ∀ v verifier, y.verifiers v = some verifier →
      ∃ result, verifier.stage = .returned result)
  /-- What was returned is what the search for a neighbour may return. -/
  sound : ∀ v verifier, x.verifiers v = some verifier →
    Verifying.BoundedSearch p m x.verifying verifier

/-- A run of the executor is one of verifications beside one another. -/
theorem reach_verifying {events : List ExecuteEvent}
    (h : Run (step p ch m) (Drives I V) init events x) :
    Reach (Verifying.step p ch m) (fun _ _ => True) (Verifying.start .init) x.verifying := by
  refine h.reach.map verifying rfl ?_
  intro x e y _ _ hstep
  rcases verifying_of_step hstep with hsame | ⟨e', he'⟩
  · rw [hsame]
    exact .start
  · exact .next .start trivial he'

theorem undropped_of_run {events : List ExecuteEvent}
    (h : Run (step p ch m) (Drives I V) x events y) (hdrops : ∀ e ∈ events, e.drops = false)
    (hx : ∀ c caller, x.wakes.sys.callers c = some caller → caller.phase.dropped = false) :
    ∀ c caller, y.wakes.sys.callers c = some caller → caller.phase.dropped = false := by
  induction h with
  | nil => exact hx
  | cons hallow hstep _ ih =>
    exact ih (fun e he => hdrops e (List.mem_cons_of_mem _ he))
      (undropped_of_step hx hallow (hdrops _ List.mem_cons_self) hstep)

/-- At an end every verification has returned, unless one was dropped. -/
theorem returned_of_ended {events : List ExecuteEvent}
    (h : Run (step p ch m) (Drives I V) init events x) (hend : Ended x)
    (hdrops : ∀ e ∈ events, e.drops = false) {v : Nat} {verifier : Verifier}
    (hv : x.verifiers v = some verifier) : ∃ result, verifier.stage = .returned result := by
  cases hstage : verifier.stage with
  | returned result => exact ⟨result, rfl⟩
  | first c | neighbour _ _ c _ =>
    have hgone := hend.verifiers v verifier hv c (by rw [hstage]; rfl)
    obtain ⟨caller, hc, hphase⟩ := Wakes.phaseOf_eq_some hgone
    have hundropped := undropped_of_run h hdrops (fun _ _ hnone => by cases hnone) c caller hc
    rw [hphase] at hundropped
    cases hundropped

/-- **Every verification comes to an end**, under an executor that polls a waiting caller only when it
first waits and when its waker was woken, whatever the transport answers and whenever the cache is
cleared. -/
theorem ends {events : List ExecuteEvent} (hroom : 3 * V.card ≤ I.card)
    (h : Run (step p ch m) (Drives I V) init events x) : Ends p ch m I V events x := by
  have hd : EndingInv p m I V x :=
    h.invariant (fun _ _ _ hd hallow hstep => endingInv_of_step hd hallow hstep) endingInv_init
  refine ⟨?_, ?_, ?_, ?_⟩
  · have hcount := pays_of_step.count_le h endingInv_init
    rw [cost_init] at hcount
    omega
  · intro hstuck
    by_contra hnot
    obtain ⟨e, y, hworks, hallow, hstep⟩ := work_of_unended p ch m hd hroom hnot
    rw [hstuck e hworks hallow] at hstep
    cases hstep
  · obtain ⟨more, y, hmore, hrun, -, hend⟩ :=
      pays_of_step.completes (fun _ => ExecuteEvent.counts_of_works)
        (fun _ hd hnot => work_of_unended p ch m hd hroom hnot) hd
    refine ⟨more, y, hmore, hrun, hend, ?_⟩
    intro hdrops v verifier hv
    refine returned_of_ended (h.trans hrun) hend ?_ hv
    intro e he
    rcases List.mem_append.mp he with he | he
    · exact hdrops e he
    · exact ExecuteEvent.drops_of_works (hmore e he)
  · intro v verifier hv
    obtain ⟨hcounted, hkept⟩ := Verifying.stagesInv_of_reach (reach_verifying h)
    exact Verifying.boundedSearch_of_stagesInv hcounted (hkept v verifier hv)

/-- A verification dropped at its request while another waits for the same key, which is woken and asks
again. -/
def droppedBeside : List ExecuteEvent :=
  [.verifies (.verify 1 1 forgedOwid System.askedUrl baseDate), .verifies (.event (.turn 1)),
    .verifies (.event (.send 1)), .verifies (.verify 2 2 forgedOwid System.askedUrl baseDate),
    .verifies (.event (.turn 2)), .verifies (.event (.poll 2 7)), .verifies (.event (.drop 1)),
    .verifies (.event (.release 1)), .verifies (.event (.finish 1)), .wake 0,
    .verifies (.event (.poll 2 8))]

theorem ends_dropped : ∃ x, Ends sampleP256 sampleChrono machine64 (Finset.range 6) {1, 2}
    droppedBeside x ∧ ¬ Ended x := by
  have hrun : ∃ x, Run (step sampleP256 sampleChrono machine64) (Drives (Finset.range 6) {1, 2})
      init droppedBeside x ∧ Wakes.phaseOf x.wakes.sys 2 = some .looking :=
    ⟨_, .cons ⟨by decide, by decide⟩ rfl (.cons trivial rfl (.cons trivial rfl
      (.cons ⟨by decide, by decide⟩ rfl (.cons trivial rfl (.cons (.inl rfl) rfl
      (.cons trivial rfl (.cons trivial rfl (.cons trivial rfl (.cons trivial rfl
      (.cons (.inr ⟨0, 7, rfl, rfl, List.mem_cons_self⟩) rfl (.nil _))))))))))), rfl⟩
  obtain ⟨x, hx, hlooking⟩ := hrun
  refine ⟨x, ends (by decide) hx, ?_⟩
  intro hended
  rcases hended.settled.callers 2 _ hlooking with hgone | ⟨route, result, hreturned⟩
  · cases hgone
  · cases hreturned

end Executing

end OwidRust
