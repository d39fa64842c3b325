import Mathlib.Algebra.BigOperators.Group.Finset.Basic
import Mathlib.Algebra.Order.BigOperators.Group.Finset
import OwidRust.Lib.Runs

/-!
# Runs that come to an end

A step function whose work is paid for by a measure: every admitted step that counts lowers the
measure, and no admitted step raises it.

* `Pays.count_le` — the steps of a run that count are no more than the measure at its start;
* `Pays.completes` — where some counting step can be taken in every state that is not done, every
  state can be brought to one that is, by counting steps alone;
* `sum_add_le` — a sum over a finite set goes down where one term pays for what the others gain.
-/

namespace Runs

variable {σ ε : Type*}

/-- A run of admitted steps, with the events it took. -/
inductive Run (step : σ → ε → Option σ) (allow : σ → ε → Prop) : σ → List ε → σ → Prop
  | nil (s : σ) : Run step allow s [] s
  | cons {s t u : σ} {e : ε} {events : List ε} : allow s e → step s e = some t →
    Run step allow t events u → Run step allow s (e :: events) u

variable {step : σ → ε → Option σ} {allow allow' : σ → ε → Prop} {s t u : σ}
  {events events' : List ε}

theorem Run.trans (h : Run step allow s events t) (h' : Run step allow t events' u) :
    Run step allow s (events ++ events') u := by
  induction h with
  | nil => exact h'
  | cons hallow hstep _ ih => exact .cons hallow hstep (ih h')

theorem Run.mono (hallow : ∀ s e, allow s e → allow' s e) (h : Run step allow s events t) :
    Run step allow' s events t := by
  induction h with
  | nil => exact .nil _
  | cons ha hstep _ ih => exact .cons (hallow _ _ ha) hstep ih

theorem Run.reach (h : Run step allow s events t) : Reach step allow s t := by
  induction h with
  | nil => exact .start
  | cons hallow hstep _ ih => exact (Reach.next .start hallow hstep).trans ih

/-- The invariant rule along a run. -/
theorem Run.invariant {P : σ → Prop} (hstep : ∀ s e t, P s → allow s e → step s e = some t → P t)
    (h : Run step allow s events t) (hs : P s) : P t :=
  h.reach.invariant hs hstep

/-- **Every admitted step that counts is paid for** by the measure, and what `inv` says is kept. -/
structure Pays (step : σ → ε → Option σ) (allow : σ → ε → Prop) (inv : σ → Prop)
    (counts : ε → Bool) (measure : σ → Nat) : Prop where
  keeps : ∀ s e t, inv s → allow s e → step s e = some t → inv t
  pays : ∀ s e t, inv s → allow s e → step s e = some t →
    measure t + (if counts e then 1 else 0) ≤ measure s

section Pays

variable {inv : σ → Prop} {counts : ε → Bool} {measure : σ → Nat}

/-- **A run counts no more steps than its measure has to pay.** -/
theorem Pays.count_le (hp : Pays step allow inv counts measure) (h : Run step allow s events t)
    (hs : inv s) : events.countP counts + measure t ≤ measure s := by
  induction h with
  | nil => simp
  | cons hallow hstep _ ih =>
    have hrest := ih (hp.keeps _ _ _ hs hallow hstep)
    have hpaid := hp.pays _ _ _ hs hallow hstep
    rw [List.countP_cons]
    omega

/-- **Every state can be brought to its end**, where one that is not done can be worked on. -/
theorem Pays.completes (hp : Pays step allow inv counts measure) {works : ε → Bool} {done : σ → Prop}
    (hworks : ∀ e, works e = true → counts e = true)
    (hprogress : ∀ s, inv s → ¬ done s → ∃ e t, works e = true ∧ allow s e ∧ step s e = some t)
    (hs : inv s) :
    ∃ events t, (∀ e ∈ events, works e = true) ∧ Run step allow s events t ∧ inv t ∧ done t := by
  induction hn : measure s using Nat.strong_induction_on generalizing s with
  | _ n ih =>
    by_cases hdone : done s
    · exact ⟨[], s, by simp, .nil s, hs, hdone⟩
    · obtain ⟨e, t, he, hallow, hstep⟩ := hprogress s hs hdone
      have hpaid := hp.pays s e t hs hallow hstep
      rw [if_pos (hworks e he)] at hpaid
      obtain ⟨events, u, hevents, hrun, hu, hend⟩ :=
        ih (measure t) (by omega) (hp.keeps s e t hs hallow hstep) rfl
      refine ⟨e :: events, u, ?_, .cons hallow hstep hrun, hu, hend⟩
      rintro e' (_ | ⟨_, he'⟩)
      · exact he
      · exact hevents e' he'

end Pays

/-- One term of a sum pays for what every other gains, and for `k` beside, with `l` to help. -/
theorem sum_add_le {ι : Type*} [DecidableEq ι] {I : Finset ι} {f g : ι → Nat} {i : ι} (gain : Nat)
    {k l : Nat} (hi : i ∈ I) (hothers : ∀ j ∈ I, j ≠ i → g j ≤ f j + gain)
    (hself : g i + gain * I.card + k ≤ f i + l) : ∑ j ∈ I, g j + k ≤ ∑ j ∈ I, f j + l := by
  rw [← Finset.add_sum_erase I g hi, ← Finset.add_sum_erase I f hi]
  have hrest : ∑ j ∈ I.erase i, g j ≤ ∑ j ∈ I.erase i, f j + gain * I.card := by
    calc ∑ j ∈ I.erase i, g j
        ≤ ∑ j ∈ I.erase i, (f j + gain) :=
          Finset.sum_le_sum fun j hj => hothers j (Finset.mem_of_mem_erase hj)
            (Finset.ne_of_mem_erase hj)
      _ = ∑ j ∈ I.erase i, f j + (I.erase i).card * gain := by
          rw [Finset.sum_add_distrib, Finset.sum_const_nat fun _ _ => rfl]
      _ ≤ ∑ j ∈ I.erase i, f j + gain * I.card := by
          rw [Nat.mul_comm]
          exact Nat.add_le_add_left (Nat.mul_le_mul_left _ Finset.card_erase_le) _
  omega

end Runs
