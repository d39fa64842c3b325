import Mathlib.Data.Option.Basic

/-!
# Reachable states of a step function

A system is a step function that answers `none` where an event cannot happen.  `Reach step allow
init s` says that `s` is reached from `init` by steps that `allow` admits, in whatever order they
come.

* `Reach.invariant` — what holds at the start and is kept by every admitted step always holds;
* `Reach.mono`, `Reach.map` — fewer admitted steps reach fewer states, and a simulation carries
  what is reached over;
* `reach_of_foldlM` — the state at the end of a list of events is reached;
* `allStates_of_allSteps` — what is kept by the steps that meet a condition holds throughout a run
  of them;
* `allStates_iff_allSteps` — where one step keeps a property exactly if it meets a condition, a run
  keeps it throughout exactly if all its steps do.
-/

namespace Runs

variable {σ τ ε : Type*}

/-- The states reached from `init` by admitted steps. -/
inductive Reach (step : σ → ε → Option σ) (allow : σ → ε → Prop) (init : σ) : σ → Prop
  | start : Reach step allow init init
  | next {s t : σ} {e : ε} :
    Reach step allow init s → allow s e → step s e = some t → Reach step allow init t

variable {step : σ → ε → Option σ} {allow allow' : σ → ε → Prop} {init s t : σ}

/-- **The invariant rule.** -/
theorem Reach.invariant {P : σ → Prop} (hinit : P init)
    (hstep : ∀ s e t, P s → allow s e → step s e = some t → P t) (h : Reach step allow init s) :
    P s := by
  induction h with
  | start => exact hinit
  | next _ hallow hnext ih => exact hstep _ _ _ ih hallow hnext

theorem Reach.mono (hallow : ∀ s e, allow s e → allow' s e) (h : Reach step allow init s) :
    Reach step allow' init s := by
  induction h with
  | start => exact .start
  | next _ ha hnext ih => exact .next ih (hallow _ _ ha) hnext

theorem Reach.trans (hs : Reach step allow init s) (ht : Reach step allow s t) :
    Reach step allow init t := by
  induction ht with
  | start => exact hs
  | next _ ha hnext ih => exact .next ih ha hnext

/-- A map of the states under which every admitted step is a run of a second system carries what
is reached over. -/
theorem Reach.map {ε' : Type*} {step' : τ → ε' → Option τ} {allow' : τ → ε' → Prop} {init' : τ}
    (f : σ → τ) (hinit : f init = init')
    (hstep : ∀ s e t, Reach step allow init s → allow s e → step s e = some t →
      Reach step' allow' (f s) (f t))
    (h : Reach step allow init s) : Reach step' allow' init' (f s) := by
  induction h with
  | start =>
    rw [hinit]
    exact .start
  | next hs ha hnext ih => exact ih.trans (hstep _ _ _ hs ha hnext)

theorem reach_of_foldlM {events : List ε} (hallow : ∀ s e, allow s e)
    (h : events.foldlM step s = some t) : Reach step allow s t := by
  induction events generalizing s with
  | nil =>
    cases h
    exact .start
  | cons e events ih =>
    rw [List.foldlM_cons, Option.bind_eq_bind, Option.bind_eq_some_iff] at h
    obtain ⟨u, hu, hrest⟩ := h
    exact (Reach.next .start (hallow s e) hu).trans (ih hrest)

/-! ## Runs of a total step function -/

/-- The property holds in every state of the run. -/
def AllStates (f : σ → ε → σ) (P : σ → Prop) : σ → List ε → Prop
  | s, [] => P s
  | s, e :: es => P s ∧ AllStates f P (f s e) es

/-- Every step of the run meets the condition, in the state before it. -/
def AllSteps (f : σ → ε → σ) (G : σ → ε → Prop) : σ → List ε → Prop
  | _, [] => True
  | s, e :: es => G s e ∧ AllSteps f G (f s e) es

theorem AllStates.imp {f : σ → ε → σ} {P Q : σ → Prop} (hPQ : ∀ s, P s → Q s) :
    ∀ {es : List ε} {s : σ}, AllStates f P s es → AllStates f Q s es
  | [], _, h => hPQ _ h
  | _ :: _, _, ⟨h, hrest⟩ => ⟨hPQ _ h, AllStates.imp hPQ hrest⟩

/-- What holds throughout a run holds at its end. -/
theorem AllStates.last {f : σ → ε → σ} {P : σ → Prop} {es : List ε} {s : σ}
    (h : AllStates f P s es) : P (es.foldl f s) := by
  induction es generalizing s with
  | nil => exact h
  | cons e es ih => exact ih h.2

theorem allSteps_append {f : σ → ε → σ} {G : σ → ε → Prop} :
    ∀ {es es' : List ε} {s : σ},
      AllSteps f G s (es ++ es') ↔ AllSteps f G s es ∧ AllSteps f G (es.foldl f s) es'
  | [], _, _ => (iff_of_eq (true_and _)).symm
  | e :: es, es', s => by
    rw [List.cons_append, AllSteps, AllSteps, allSteps_append, and_assoc, List.foldl_cons]

/-- What is kept by the steps that meet a condition holds throughout a run of such steps. -/
theorem allStates_of_allSteps {f : σ → ε → σ} {P : σ → Prop} {G : σ → ε → Prop}
    (hstep : ∀ s e, P s → G s e → P (f s e)) :
    ∀ (es : List ε) (s : σ), P s → AllSteps f G s es → AllStates f P s es
  | [], _, hP, _ => hP
  | e :: es, s, hP, ⟨hG, hrest⟩ =>
    ⟨hP, allStates_of_allSteps hstep es (f s e) (hstep s e hP hG) hrest⟩

/-- **Exact conditions pass from steps to runs.**  `Q` is kept whatever happens. -/
theorem allStates_iff_allSteps {f : σ → ε → σ} {P Q : σ → Prop} {G : σ → ε → Prop}
    (hQ : ∀ s e, Q s → Q (f s e)) (hstep : ∀ s e, Q s → P s → (P (f s e) ↔ G s e)) :
    ∀ (es : List ε) (s : σ), Q s → P s → (AllStates f P s es ↔ AllSteps f G s es)
  | [], _, _, hP => iff_of_true hP trivial
  | e :: es, s, hq, hP => by
    have hnext := hstep s e hq hP
    constructor
    · rintro ⟨-, hrest⟩
      have hP' : P (f s e) := by
        cases es with
        | nil => exact hrest
        | cons _ _ => exact hrest.1
      exact ⟨hnext.mp hP', (allStates_iff_allSteps hQ hstep es _ (hQ s e hq) hP').mp hrest⟩
    · rintro ⟨hG, hrest⟩
      have hP' := hnext.mpr hG
      exact ⟨hP, (allStates_iff_allSteps hQ hstep es _ (hQ s e hq) hP').mpr hrest⟩

end Runs
