import OwidRust.Fetch.Waiters
import OwidRust.Lib.Progress

/-!
# Every caller comes to an end

`key_at_url` of `src/fetch.rs` under an executor that polls a waiting caller when it first waits and
afterwards only when the waker it left was woken.  However calls, answers, dropped callers and
`clear_cache` are interleaved, the callers cannot keep one another busy for ever, nor wait on one
another with nobody left to work.

* `Phase.load`, `pays_of_step` — what a caller may still cost: one that leads pays for the waiters
  its end sends round again;
* `work_of_unsettled` — somebody can go on while anybody has not come to an end;
* `settles` — a run is bounded by the number of callers, one that can go no further has answered
  every caller and left nothing under way, and every run can be brought there.
-/

namespace OwidRust

open Runs

/-- What a caller may still cost at a point, beside `n - 1` others: `polled` where it left a waker,
`ended` the fetches that have ended.  A leader pays 4 for each waiter it sends on. -/
def Phase.load (n : Nat) (polled : Bool) (ended : Nat → Bool) : Phase → Nat
  | .looking => 4 * n + 6
  | .waiting f => if ended f then 4 * n + 7 else if polled then 4 * n + 3 else 4 * n + 5
  | .elected _ => 4 * n + 5
  | .requesting _ => 4 * n + 4
  | .answered _ _ => 4 * n + 3
  | .leaving _ _ => 4 * n + 2
  | .removed _ _ => 4 * n + 1
  | .returned _ _ | .gone => 0

/-- The event is no call of `clear_cache`. -/
def WakeEvent.counts : WakeEvent → Bool
  | .event .clear => false
  | _ => true

/-- The event goes on with what was begun: nobody calls, nobody is dropped, nothing is cleared. -/
def WakeEvent.works : WakeEvent → Bool
  | .event (.call _ _ _) | .event (.drop _) | .event .clear => false
  | _ => true

namespace Wakes

/-- The caller has left no waker at its await yet, or the one it left was woken. -/
def Prompted (w : Wakes) (c : Nat) : Prop :=
  w.latest c = none ∨
    ∃ f waker, phaseOf w.sys c = some (.waiting f) ∧ w.latest c = some waker ∧ waker ∈ w.woken f

/-- What an executor of the callers of `I` lets happen. -/
def Drives (I : Finset Nat) (w : Wakes) : WakeEvent → Prop
  | .event (.call c _ _) => c ∈ I
  | .event (.poll c _) => w.Prompted c
  | _ => True

/-- Every caller has returned or was dropped, and nothing is left under way. -/
structure Settled (w : Wakes) : Prop where
  callers : ∀ c phase, phaseOf w.sys c = some phase →
    phase = .gone ∨ ∃ route result, phase = .returned route result
  entries : ∀ url, w.sys.cache.inFlight.lookup url = none
  wakers : ∀ f, (w.sys.flights f).wakers = [] ∧ w.taken f = []

variable {p : P256} {ch : Chrono} {I : Finset Nat} {n : Nat} {w w' : Wakes} {t : System}
  {e : Event}

/-! ## What is kept -/

/-- Wakers are taken from fetches that have ended, and none is left with one. -/
structure WokenEnded (w : Wakes) : Prop where
  ended : ∀ f, w.taken f ≠ [] ∨ w.woken f ≠ [] →
    f < w.sys.nextFlight ∧ (w.sys.flights f).finished = true
  left : ∀ f, (w.sys.flights f).finished = true ∨ w.sys.nextFlight ≤ f →
    (w.sys.flights f).wakers = []

/-- What every state the executor reaches satisfies. -/
structure SettlingInv (I : Finset Nat) (w : Wakes) : Prop where
  wf : w.sys.Wf
  wakers : WakersKept w
  woken : WokenEnded w
  within : ∀ c caller, w.sys.callers c = some caller → c ∈ I

theorem wokenEnded_of_moves (hs : w.sys.Wf) (h : WokenEnded w) (hm : System.Moves p ch w.sys e t)
    (hpark : ∀ c f waker, e = .poll c waker → phaseOf w.sys c = some (.waiting f) →
      t = w.sys.park f waker → (w.sys.flights f).finished = false) :
    WokenEnded (w.after e t) := by
  -- neither the wakers nor the ends of the fetches change
  have hsame : ∀ {u : System}, u.nextFlight = w.sys.nextFlight →
      (∀ f, (u.flights f).finished = (w.sys.flights f).finished) →
      (∀ f, (u.flights f).wakers = (w.sys.flights f).wakers) →
      w.takenAfter e = w.taken → WokenEnded (w.after e u) := by
    intro u hnext hfinished hwakers htaken
    refine ⟨?_, ?_⟩
    · intro f hf
      simp only [after, htaken] at hf
      simp only [after, hnext, hfinished]
      exact h.ended f hf
    · intro f hf
      simp only [after, hnext, hfinished] at hf
      simp only [after, hwakers]
      exact h.left f hf
  cases hm with
  | call | serve | join | respond | record | fail | release | wake | retry | leave | abandon
  | clear => exact hsame rfl (fun _ => rfl) (fun _ => rfl) rfl
  | send hc hp =>
    refine hsame rfl (System.finished_send _ _ _) ?_ rfl
    intro f
    refine System.proj_update Flight.wakers ?_ f
    rfl
  | @elect c caller hc hp =>
    refine ⟨?_, ?_⟩
    · intro f hf
      obtain ⟨hlt, hfinished⟩ := h.ended f hf
      refine ⟨Nat.lt_succ_of_lt hlt, ?_⟩
      simp only [after, System.flights_elect hlt]
      exact hfinished
    · intro f hf
      simp only [after] at hf ⊢
      rcases Nat.lt_trichotomy f w.sys.nextFlight with hlt | rfl | hgt
      · rw [System.flights_elect hlt] at hf ⊢
        rcases hf with hf | hf
        · exact h.left f (.inl hf)
        · exact absurd (Nat.le_of_succ_le hf) (Nat.not_le_of_lt hlt)
      · rw [System.flights_elect_new]
      · have hother : (w.sys.elect c caller).flights f = w.sys.flights f :=
          Function.update_of_ne (Nat.ne_of_gt hgt) _ _
        rw [hother]
        exact h.left f (.inr (Nat.le_of_lt hgt))
  | @finish c caller f outcome hc hp =>
    have hlt : f < w.sys.nextFlight :=
      lt_of_owning (c := c) hs (by rw [owning_of_caller hc, hp]; rfl)
    have htaken : (w.after (.finish c) (w.sys.finish c caller f outcome)).taken =
        Function.update w.taken f (w.sys.flights f).wakers := by
      simp only [after, takenAfter, phaseOf, hc, Option.map_some, hp]
    refine ⟨?_, ?_⟩
    · intro g hg
      by_cases hgf : g = f
      · subst hgf
        exact ⟨hlt, System.finished_finish c caller g outcome⟩
      · rw [htaken, Function.update_of_ne hgf] at hg
        simp only [after, System.flights_finish hgf]
        exact h.ended g hg
    · intro g hg
      by_cases hgf : g = f
      · subst hgf
        simp only [after, System.finish, Function.update_self]
      · simp only [after, System.flights_finish hgf] at hg ⊢
        exact h.left g hg
  | @park c caller f waker hc hp =>
    have hphase : phaseOf w.sys c = some (.waiting f) := by rw [phaseOf, hc, Option.map_some, hp]
    have hunfinished := hpark c f waker rfl hphase rfl
    have hlt := lt_of_waiting hs hphase
    refine ⟨?_, ?_⟩
    · intro g hg
      simp only [after, System.finished_park]
      exact h.ended g hg
    · intro g hg
      simp only [after, System.finished_park] at hg
      have hgf : g ≠ f := by
        rintro rfl
        rcases hg with hg | hg
        · rw [hunfinished] at hg
          cases hg
        · exact absurd hlt (Nat.not_lt_of_le hg)
      have hother : (w.sys.park f waker).flights g = w.sys.flights g :=
        Function.update_of_ne hgf _ _
      simp only [after, hother]
      exact h.left g hg

theorem wokenEnded_of_step (hs : w.sys.Wf) (h : WokenEnded w) {event : WakeEvent}
    (hstep : step p ch w event = some w') : WokenEnded w' := by
  cases event with
  | event e =>
    obtain ⟨t, ht, rfl⟩ := Option.map_eq_some_iff.mp hstep
    refine wokenEnded_of_moves hs h (System.moves_of_step ht) ?_
    rintro c f waker rfl hphase rfl
    obtain ⟨caller, g, hc, hp, hpoll⟩ := poll_of_step ht
    rw [phaseOf, hc, Option.map_some, hp] at hphase
    cases hphase
    unfold System.poll at hpoll
    split at hpoll
    · -- the caller of a fetch that has ended does not wait any longer
      have hmoved : phaseOf (w.sys.park f waker) c = some (.waiting f) := by
        rw [← hp]
        exact congrArg (Option.map Caller.phase) hc
      rw [hpoll] at hmoved
      split at hmoved
      · rw [phaseOf_setPhase] at hmoved
        cases hmoved
      · rw [phaseOf_setPhase] at hmoved
        cases hmoved
    · rename_i hunfinished
      exact Bool.eq_false_iff.mpr hunfinished
  | wake f =>
    simp only [step] at hstep
    split at hstep
    · cases hstep
    · rename_i waker rest htaken
      cases hstep
      refine ⟨?_, h.left⟩
      intro g hg
      refine h.ended g ?_
      by_cases hgf : g = f
      · subst hgf
        rw [htaken]
        exact .inl (List.cons_ne_nil _ _)
      · simp only [Function.update_of_ne hgf] at hg
        exact hg

theorem within_of_moves (h : ∀ c caller, w.sys.callers c = some caller → c ∈ I)
    (hm : System.Moves p ch w.sys e t) (hallow : Drives I w (.event e)) :
    ∀ c caller, t.callers c = some caller → c ∈ I := by
  intro c caller hc
  cases hm with
  | clear | park => exact h c caller hc
  | call =>
    rcases System.caller_cases hc with ⟨rfl, -⟩ | ⟨-, hc⟩
    · exact hallow
    · exact h c caller hc
  | serve hc' | join hc' | elect hc' | send hc' | respond hc' | record hc' | fail hc'
  | release hc' | finish hc' | wake hc' | retry hc' | leave hc' | abandon hc' =>
    rcases System.caller_cases hc with ⟨rfl, -⟩ | ⟨-, hc⟩
    · exact h _ _ hc'
    · exact h c caller hc

theorem settlingInv_of_step (h : SettlingInv I w) {event : WakeEvent} (hallow : Drives I w event)
    (hstep : step p ch w event = some w') : SettlingInv I w' := by
  obtain ⟨hwf, hkept⟩ := wakersKept_of_step h.wf h.wakers hstep
  refine ⟨hwf, hkept, wokenEnded_of_step h.wf h.woken hstep, ?_⟩
  cases event with
  | event e =>
    obtain ⟨t, ht, rfl⟩ := Option.map_eq_some_iff.mp hstep
    exact within_of_moves h.within (System.moves_of_step ht) hallow
  | wake f =>
    simp only [step] at hstep
    split at hstep
    · cases hstep
    · cases hstep
      exact h.within

theorem settlingInv_init : SettlingInv I init where
  wf := System.wf_init
  wakers := wakersKept_init
  woken := ⟨by simp [init], fun _ _ => rfl⟩
  within c caller h := by simp [init, System.init] at h

/-! ## What a run may cost -/

/-- What a caller may still cost. -/
def load (n : Nat) (w : Wakes) (c : Nat) : Nat :=
  match phaseOf w.sys c with
  | none => 4 * n + 7
  | some phase => phase.load n (w.latest c).isSome fun f => (w.sys.flights f).finished

/-- The wakers a fetch holds or has had taken, and not woken yet. -/
def unwoken (w : Wakes) (f : Nat) : Nat := (w.sys.flights f).wakers.length + (w.taken f).length

/-- What a run of the callers of `I` may still cost. -/
def cost (I : Finset Nat) (w : Wakes) : Nat :=
  ∑ c ∈ I, load I.card w c + ∑ f ∈ Finset.range w.sys.nextFlight, unwoken w f

theorem load_of_phase {c : Nat} {phase : Phase} (h : phaseOf w.sys c = some phase) :
    load n w c = phase.load n (w.latest c).isSome fun f => (w.sys.flights f).finished := by
  rw [load, h]

/-- A caller that was not touched costs what it did, but for the end of the fetch it waits on. -/
theorem load_le_of_same {c gain : Nat} (hphase : phaseOf w'.sys c = phaseOf w.sys c)
    (hlatest : w'.latest c = w.latest c)
    (hended : ∀ f, phaseOf w.sys c = some (.waiting f) →
      (w'.sys.flights f).finished = (w.sys.flights f).finished ∨ 4 ≤ gain) :
    load n w' c ≤ load n w c + gain := by
  unfold load
  rw [hphase, hlatest]
  cases hc : phaseOf w.sys c with
  | none => exact Nat.le_add_right _ _
  | some phase =>
    cases phase with
    | waiting f =>
      simp only [Phase.load]
      rcases hended f hc with hsame | hgain
      · simp only [hsame]
        exact Nat.le_add_right _ _
      · (repeat' split) <;> omega
    | looking | elected | requesting | answered | leaving | removed | returned | gone =>
      exact Nat.le_add_right _ _

/-- The others are where they were. -/
theorem phaseOf_other {c c' : Nat} {moved : Option Caller} (hne : c' ≠ c)
    (ht : t.callers = Function.update w.sys.callers c moved) :
    phaseOf t c' = phaseOf w.sys c' := by
  rw [phaseOf, phaseOf, ht, Function.update_of_ne hne]

/-- **Who moves pays**, for itself and for the waiters it sends on. -/
theorem loads_add_le (w w' : Wakes) (gain k : Nat) {c : Nat} (hmem : c ∈ I)
    (hphase : ∀ c' ≠ c, phaseOf w'.sys c' = phaseOf w.sys c')
    (hlatest : ∀ c' ≠ c, w'.latest c' = w.latest c')
    (hended : ∀ c' f, phaseOf w.sys c' = some (.waiting f) →
      (w'.sys.flights f).finished = (w.sys.flights f).finished ∨ 4 ≤ gain)
    (hself : load I.card w' c + gain * I.card + k ≤ load I.card w c) :
    ∑ c' ∈ I, load I.card w' c' + k ≤ ∑ c' ∈ I, load I.card w c' :=
  sum_add_le gain (l := 0) hmem (fun c' _ hne =>
    load_le_of_same (hphase c' hne) (hlatest c' hne) fun f hf => hended c' f hf) hself

/-- A fetch whose entry stands has not ended. -/
theorem unfinished_of_entry (hd : SettlingInv I w) {url : String} {f : Nat}
    (h : w.sys.cache.inFlight.lookup url = some f) : (w.sys.flights f).finished = false := by
  obtain ⟨c, hlead⟩ := hd.wakers.entries url f h
  obtain ⟨caller, hc, -, hleads⟩ := System.leading_eq_some hlead
  have howning : owning w.sys c = some f := by
    rw [owning_of_caller hc]
    exact System.owns_of_leads hleads
  rw [Bool.eq_false_iff]
  intro hfinished
  exact (hd.wakers.finished f (lt_of_owning hd.wf howning)).mp hfinished c howning

/-- A move of one caller that ends no fetch and touches no waker. -/
theorem pays_of_move (hd : SettlingInv I w) {c : Nat} {caller : Caller} {q : Phase}
    (hc : w.sys.callers c = some caller)
    (ht : t.callers = Function.update w.sys.callers c (some { caller with phase := q }))
    (hnext : t.nextFlight = w.sys.nextFlight)
    (hfinished : ∀ f, (t.flights f).finished = (w.sys.flights f).finished)
    (hwakers : ∀ f, (t.flights f).wakers = (w.sys.flights f).wakers)
    (htaken : w.takenAfter e = w.taken) (hlatest : ∀ c' ≠ c, w.latestAfter t e c' = w.latest c')
    (hpays : q.load I.card (w.latestAfter t e c).isSome (fun f => (w.sys.flights f).finished) + 1 ≤
      caller.phase.load I.card (w.latest c).isSome fun f => (w.sys.flights f).finished) :
    cost I (w.after e t) + 1 ≤ cost I w := by
  have hself : phaseOf t c = some q := by
    rw [phaseOf, ht, Function.update_self]
    rfl
  have hphase : phaseOf w.sys c = some caller.phase := by rw [phaseOf, hc, Option.map_some]
  have hloads : ∑ c' ∈ I, load I.card (w.after e t) c' + 1 ≤ ∑ c' ∈ I, load I.card w c' := by
    refine loads_add_le w (w.after e t) 0 1 (hd.within c caller hc)
      (fun c' hne => phaseOf_other hne ht) hlatest (fun c' f _ => .inl (hfinished f)) ?_
    rw [load_of_phase (w := w.after e t) hself, load_of_phase hphase, Nat.zero_mul, Nat.add_zero]
    simp only [after, hfinished]
    exact hpays
  have hunwoken : ∀ f, unwoken (w.after e t) f = unwoken w f := by
    intro f
    simp only [unwoken, after, hwakers, htaken]
  have hrange : (w.after e t).sys.nextFlight = w.sys.nextFlight := hnext
  simp only [cost, hrange, hunwoken]
  omega

/-- Every event but a poll is paid for. -/
theorem pays_of_moves (hd : SettlingInv I w) (hm : System.Moves p ch w.sys e t)
    (hne : ∀ c waker, e ≠ .poll c waker) (hallow : Drives I w (.event e)) :
    cost I (w.after e t) + (if (WakeEvent.event e).counts then 1 else 0) ≤ cost I w := by
  cases hm with
  | wake | retry | park => exact absurd rfl (hne _ _)
  | clear => exact le_refl (cost I w)
  | @call c url now hnew =>
    have hphase : phaseOf w.sys c = none := by rw [phaseOf, hnew, Option.map_none]
    have hself : phaseOf (w.sys.call c url now) c = some .looking := by
      simp [phaseOf, System.call]
    have hloads := loads_add_le w (w.after (.call c url now) (w.sys.call c url now)) 0 1 hallow
      (fun c' hne' => phaseOf_other hne' rfl) (fun _ _ => rfl)
      (fun _ _ _ => .inl rfl) (by
        rw [load_of_phase hself, load, hphase]
        simp only [Phase.load]
        omega)
    simp only [cost]
    exact Nat.add_right_comm _ _ _ ▸ Nat.add_le_add_right hloads _
  | serve hc hp | respond hc hp | record hc hp | fail hc hp | release hc hp =>
    refine pays_of_move hd hc rfl rfl (fun _ => rfl) (fun _ => rfl) rfl (fun _ _ => rfl) ?_
    rw [hp]
    simp only [Phase.load]
    omega
  | @join c caller f hc hp hheld hentry =>
    refine pays_of_move hd hc rfl rfl (fun _ => rfl) (fun _ => rfl) rfl (fun _ _ => rfl) ?_
    rw [hp]
    simp only [Phase.load, unfinished_of_entry hd hentry, Bool.false_eq_true, if_false]
    split <;> omega
  | @leave c caller f hc hp =>
    refine pays_of_move hd hc rfl rfl (fun _ => rfl) (fun _ => rfl) rfl
      (fun c' hne' => Function.update_of_ne hne' _ _) ?_
    rw [hp]
    simp only [Phase.load]
    (repeat' split) <;> omega
  | @abandon c caller f hc hp =>
    refine pays_of_move hd hc rfl rfl (fun _ => rfl) (fun _ => rfl) rfl
      (fun c' hne' => Function.update_of_ne hne' _ _) ?_
    rw [hp]
    simp only [Phase.load]
    omega
  | @send c caller f hc hp =>
    refine pays_of_move (q := .requesting f) hd hc rfl rfl (System.finished_send _ _ _) ?_ rfl
      (fun _ _ => rfl) ?_
    · intro g
      refine System.proj_update Flight.wakers ?_ g
      rfl
    · rw [hp]
      simp only [Phase.load]
      omega
  | @elect c caller hc hp =>
    have hphase : phaseOf w.sys c = some .looking := by rw [phaseOf, hc, Option.map_some, hp]
    have hself : phaseOf (w.sys.elect c caller) c = some (.elected w.sys.nextFlight) := by
      simp [phaseOf, System.elect, System.setPhase]
    have hloads := loads_add_le w (w.after (.turn c) (w.sys.elect c caller)) 0 1
      (hd.within c caller hc) (fun c' hne' => phaseOf_other hne' rfl)
      (fun _ _ => rfl)
      (fun c' f hf => .inl (by
        simp only [after, System.flights_elect (lt_of_waiting hd.wf hf)]))
      (by
        rw [load_of_phase hself, load_of_phase hphase]
        simp only [Phase.load]
        omega)
    have hnew : unwoken (w.after (.turn c) (w.sys.elect c caller)) w.sys.nextFlight = 0 := by
      have htaken : w.taken w.sys.nextFlight = [] := by
        by_contra hne'
        exact absurd (hd.woken.ended _ (.inl hne')).1 (Nat.lt_irrefl _)
      simp only [unwoken, after, System.flights_elect_new, takenAfter, htaken, List.length_nil]
    have hold : ∑ f ∈ Finset.range w.sys.nextFlight,
        unwoken (w.after (.turn c) (w.sys.elect c caller)) f =
          ∑ f ∈ Finset.range w.sys.nextFlight, unwoken w f := by
      refine Finset.sum_congr rfl fun f hf => ?_
      simp only [unwoken, after, System.flights_elect (Finset.mem_range.mp hf), takenAfter]
    have hrange : (w.after (.turn c) (w.sys.elect c caller)).sys.nextFlight =
        w.sys.nextFlight + 1 := rfl
    simp only [cost, hrange, Finset.sum_range_succ, hnew, hold, WakeEvent.counts, if_true]
    omega
  | @finish c caller f outcome hc hp =>
    have hphase : phaseOf w.sys c = some (.removed f outcome) := by
      rw [phaseOf, hc, Option.map_some, hp]
    have hlt : f < w.sys.nextFlight :=
      lt_of_owning (c := c) hd.wf (by rw [owning_of_caller hc, hp]; rfl)
    have hload : load I.card (w.after (.finish c) (w.sys.finish c caller f outcome)) c = 0 := by
      cases outcome with
      | none => simp [load, phaseOf, after, System.finish, System.setPhase, Phase.load]
      | some outcome => simp [load, phaseOf, after, System.finish, System.setPhase, Phase.load]
    have hloads := loads_add_le w (w.after (.finish c) (w.sys.finish c caller f outcome)) 4 1
      (hd.within c caller hc) (fun c' hne' => phaseOf_other hne' rfl) (fun _ _ => rfl)
      (fun _ _ _ => .inr (le_refl 4)) (by
        rw [hload, load_of_phase hphase]
        simp only [Phase.load]
        omega)
    have hunwoken : ∑ g ∈ Finset.range w.sys.nextFlight,
        unwoken (w.after (.finish c) (w.sys.finish c caller f outcome)) g + 0 ≤
          ∑ g ∈ Finset.range w.sys.nextFlight, unwoken w g + 0 := by
      have htaken : (w.after (.finish c) (w.sys.finish c caller f outcome)).taken =
          Function.update w.taken f (w.sys.flights f).wakers := by
        simp only [after, takenAfter, phaseOf, hc, Option.map_some, hp]
      refine sum_add_le 0 (Finset.mem_range.mpr hlt) ?_ ?_
      · intro g _ hgf
        simp only [unwoken, htaken, Function.update_of_ne hgf]
        simp only [after, System.flights_finish hgf]
        omega
      · simp only [unwoken, htaken, Function.update_self]
        simp only [after, System.finish, Function.update_self, List.length_nil]
        omega
    have hrange : (w.after (.finish c) (w.sys.finish c caller f outcome)).sys.nextFlight =
        w.sys.nextFlight := rfl
    simp only [cost, hrange, WakeEvent.counts, if_true]
    omega

/-- **A poll is paid for**: the first one leaves a waker, and a later one finds the fetch ended. -/
theorem pays_of_poll (hd : SettlingInv I w) {c waker : Nat} (hprompted : w.Prompted c)
    (hstep : System.step p ch w.sys (.poll c waker) = some t) :
    cost I (w.after (.poll c waker) t) + 1 ≤ cost I w := by
  obtain ⟨caller, f, hc, hp, rfl⟩ := poll_of_step hstep
  have hphase : phaseOf w.sys c = some (.waiting f) := by rw [phaseOf, hc, Option.map_some, hp]
  have hother : ∀ c' ≠ c, w.latestAfter (w.sys.poll c caller f waker) (.poll c waker) c' =
      w.latest c' := fun c' hne => Function.update_of_ne hne _ _
  unfold System.poll at hother ⊢
  split
  · rename_i hfinished
    rw [if_pos hfinished] at hother
    split
    · rename_i outcome houtcome
      rw [houtcome] at hother
      refine pays_of_move hd hc rfl rfl (fun _ => rfl) (fun _ => rfl) rfl hother ?_
      rw [hp]
      simp only [Phase.load, hfinished, if_true]
      omega
    · rename_i houtcome
      rw [houtcome] at hother
      refine pays_of_move hd hc rfl rfl (fun _ => rfl) (fun _ => rfl) rfl hother ?_
      rw [hp]
      simp only [Phase.load, hfinished, if_true]
      omega
  · rename_i hunfinished
    rw [if_neg hunfinished] at hother
    rw [Bool.not_eq_true] at hunfinished
    -- a waker that was woken is one of a fetch that has ended
    have hlatest : w.latest c = none := by
      rcases hprompted with hnone | ⟨g, waker', hphase', hlatest, hmem⟩
      · exact hnone
      · rw [hphase] at hphase'
        cases hphase'
        rw [(hd.woken.ended f (.inr (List.ne_nil_of_mem hmem))).2] at hunfinished
        cases hunfinished
    have hlt := lt_of_waiting hd.wf hphase
    have hparked : phaseOf (w.after (.poll c waker) (w.sys.park f waker)).sys c =
        some (.waiting f) := hphase
    have hnew : (w.after (.poll c waker) (w.sys.park f waker)).latest c = some waker := by
      simp only [after] at hparked
      simp only [after, latestAfter, hparked, Function.update_self]
    have hloads := loads_add_le w (w.after (.poll c waker) (w.sys.park f waker)) 0 2
      (hd.within c caller hc) (fun _ _ => rfl) hother
      (fun c' g _ => .inl (by simp only [after, System.finished_park]))
      (by
        rw [load_of_phase hparked, load_of_phase hphase, hnew, hlatest]
        simp only [Phase.load, after, System.finished_park, hunfinished, Option.isSome_some,
          Option.isSome_none, Bool.false_eq_true, if_false, if_true]
        omega)
    have hunwoken : ∑ g ∈ Finset.range w.sys.nextFlight,
        unwoken (w.after (.poll c waker) (w.sys.park f waker)) g + 0 ≤
          ∑ g ∈ Finset.range w.sys.nextFlight, unwoken w g + 1 := by
      refine sum_add_le 0 (Finset.mem_range.mpr hlt) ?_ ?_
      · intro g _ hgf
        have hflight : (w.sys.park f waker).flights g = w.sys.flights g :=
          Function.update_of_ne hgf _ _
        simp only [unwoken, after, hflight, takenAfter]
        omega
      · have hflight : ((w.sys.park f waker).flights f).wakers =
            (w.sys.flights f).wakers.filter (· != waker) ++ [waker] := by
          simp only [System.park, Function.update_self]
        have hfilter := List.length_filter_le (· != waker) (w.sys.flights f).wakers
        simp only [unwoken, after, hflight, takenAfter, List.length_append, List.length_singleton]
        omega
    have hrange : (w.after (.poll c waker) (w.sys.park f waker)).sys.nextFlight =
        w.sys.nextFlight := rfl
    simp only [cost, hrange]
    omega

/-- Waking a waker is paid for. -/
theorem pays_of_wake (hd : SettlingInv I w) {f waker : Nat} {rest : List Nat}
    (htaken : w.taken f = waker :: rest) :
    cost I { w with
      taken := Function.update w.taken f rest
      woken := Function.update w.woken f (w.woken f ++ [waker]) } + 1 ≤ cost I w := by
  have hlt : f < w.sys.nextFlight :=
    (hd.woken.ended f (.inl (by rw [htaken]; exact List.cons_ne_nil _ _))).1
  have hunwoken : ∑ g ∈ Finset.range w.sys.nextFlight,
      ((w.sys.flights g).wakers.length + (Function.update w.taken f rest g).length) + 1 ≤
        ∑ g ∈ Finset.range w.sys.nextFlight, unwoken w g + 0 := by
    refine sum_add_le 0 (Finset.mem_range.mpr hlt) ?_ ?_
    · intro g _ hgf
      rw [Function.update_of_ne hgf]
      exact Nat.le_refl _
    · rw [Function.update_self, unwoken, htaken, List.length_cons]
      omega
  have hloads : ∀ c, load I.card { w with
      taken := Function.update w.taken f rest
      woken := Function.update w.woken f (w.woken f ++ [waker]) } c = load I.card w c := fun _ => rfl
  simp only [cost, hloads]
  simp only [unwoken] at hunwoken ⊢
  omega

/-- **Every step is paid for.** -/
theorem pays_of_step : Pays (step p ch) (Drives I) (SettlingInv I) WakeEvent.counts (cost I) where
  keeps w event w' hd hallow hstep := settlingInv_of_step hd hallow hstep
  pays w event w' hd hallow hstep := by
    cases event with
    | event e =>
      obtain ⟨t, ht, rfl⟩ := Option.map_eq_some_iff.mp hstep
      by_cases hpoll : ∃ c waker, e = .poll c waker
      · obtain ⟨c, waker, rfl⟩ := hpoll
        exact pays_of_poll hd hallow ht
      · exact pays_of_moves hd (System.moves_of_step ht)
          (fun c waker he => hpoll ⟨c, waker, he⟩) hallow
    | wake f =>
      simp only [step] at hstep
      split at hstep
      · cases hstep
      · rename_i waker rest htaken
        cases hstep
        exact pays_of_wake hd htaken

theorem cost_init : cost I init = I.card * (4 * I.card + 7) := by
  have hload : ∀ c ∈ I, load I.card init c = 4 * I.card + 7 := fun _ _ => rfl
  rw [cost, Finset.sum_const_nat hload]
  rfl

/-! ## Somebody can go on -/

/-- A caller that looks for a key, or has still to end a fetch, can go on. -/
theorem work_of_running {c : Nat} {caller : Caller} (hc : w.sys.callers c = some caller)
    (hrunning : caller.phase = .looking ∨ ∃ f, caller.phase.owns = some f) :
    ∃ event w', event.works = true ∧ Drives I w event ∧ step p ch w event = some w' := by
  have hgo : ∀ e, (WakeEvent.event e).works = true → Drives I w (.event e) →
      (∃ t, System.step p ch w.sys e = some t) →
      ∃ event w', event.works = true ∧ Drives I w event ∧ step p ch w event = some w' := by
    rintro e hworks hallow ⟨t, ht⟩
    exact ⟨.event e, w.after e t, hworks, hallow, by rw [step, ht, Option.map_some]⟩
  rcases hrunning with hp | ⟨f, howns⟩
  · refine hgo (.turn c) rfl trivial ⟨w.sys.turn c caller, ?_⟩
    simp only [System.step, hc, Option.bind_some, hp]
  · cases hp : caller.phase with
    | looking | waiting | returned | gone => rw [hp] at howns; cases howns
    | elected g =>
      refine hgo (.send c) rfl trivial ⟨w.sys.send c caller g, ?_⟩
      simp only [System.step, hc, Option.bind_some, hp]
    | requesting g =>
      -- whatever the transport answers
      refine hgo (.respond c (.error (.http ""))) rfl trivial
        ⟨w.sys.setPhase c caller (.answered g (requestPublicKey p ch caller.url
          (.error (.http "")))), ?_⟩
      simp only [System.step, hc, Option.bind_some, hp]
    | answered g result =>
      cases result with
      | error e =>
        refine hgo (.record c baseDate) rfl trivial
          ⟨w.sys.setPhase c caller (.leaving g (some (.error (FetchFailure.ofError e)))), ?_⟩
        simp only [System.step, hc, Option.bind_some, hp]
      | ok key =>
        refine hgo (.record c baseDate) rfl trivial
          ⟨w.sys.hold c caller g baseDate key.1 key.2.1 key.2.2, ?_⟩
        simp only [System.step, hc, Option.bind_some, hp]
    | leaving g outcome =>
      refine hgo (.release c) rfl trivial ⟨w.sys.release c caller g outcome, ?_⟩
      simp only [System.step, hc, Option.bind_some, hp]
    | removed g outcome =>
      refine hgo (.finish c) rfl trivial ⟨w.sys.finish c caller g outcome, ?_⟩
      simp only [System.step, hc, Option.bind_some, hp]

/-- A caller that waits can be polled, or the leader it waits on can go on, or a waker is still to
be woken. -/
theorem work_of_waiting (hd : SettlingInv I w) {c f : Nat} (hphase : phaseOf w.sys c = some (.waiting f))
    (htaken : w.taken f = []) :
    ∃ event w', event.works = true ∧ Drives I w event ∧ step p ch w event = some w' := by
  by_cases hended : LeaderEnded w.sys f
  · have hprompted : w.Prompted c := by
      cases hlatest : w.latest c with
      | none => exact .inl hlatest
      | some waker =>
        refine .inr ⟨f, waker, hphase, hlatest, ?_⟩
        have hfinished := (hd.wakers.finished f (lt_of_waiting hd.wf hphase)).mpr hended
        rcases registered_of_waiting hd.wakers hphase hlatest with ⟨hnot, -⟩ | ⟨-, hmem | hmem⟩
        · rw [hfinished] at hnot
          cases hnot
        · rw [htaken] at hmem
          cases hmem
        · exact hmem
    obtain ⟨t, ht⟩ : ∃ t, System.step p ch w.sys (.poll c 0) = some t := by
      obtain ⟨-, t, -, ht, -⟩ := ready_of_wakersKept hd.wf hd.wakers hphase hended
      exact ⟨t, ht⟩
    exact ⟨.event (.poll c 0), w.after (.poll c 0) t, rfl, hprompted,
      by rw [step, ht, Option.map_some]⟩
  · simp only [LeaderEnded, ne_eq, not_forall, not_not] at hended
    obtain ⟨leader, howning⟩ := hended
    obtain ⟨caller, hc, howns⟩ := Option.bind_eq_some_iff.mp howning
    exact work_of_running hc (.inr ⟨f, howns⟩)

/-- Where no caller has anything left to do, nothing is left under way. -/
theorem settled_of_callers (hd : SettlingInv I w) (htaken : ∀ f, w.taken f = [])
    (hcallers : ∀ c phase, phaseOf w.sys c = some phase →
      phase = .gone ∨ ∃ route result, phase = .returned route result) : Settled w := by
  have hnobody : ∀ c, owning w.sys c = none := by
    intro c
    cases hc : w.sys.callers c with
    | none => rw [owning, hc, Option.bind_none]
    | some caller =>
      rw [owning_of_caller hc]
      rcases hcallers c caller.phase (by rw [phaseOf, hc, Option.map_some]) with
        hp | ⟨route, result, hp⟩
      · rw [hp]
        rfl
      · rw [hp]
        rfl
  refine ⟨hcallers, ?_, ?_⟩
  · intro url
    rw [Option.eq_none_iff_forall_not_mem]
    intro f hf
    obtain ⟨c, hlead⟩ := hd.wakers.entries url f hf
    obtain ⟨caller, hc, -, hleads⟩ := System.leading_eq_some hlead
    have howns := hnobody c
    rw [owning_of_caller hc, System.owns_of_leads hleads] at howns
    cases howns
  · intro f
    refine ⟨?_, htaken f⟩
    refine hd.woken.left f ?_
    rcases Nat.lt_or_ge f w.sys.nextFlight with hlt | hge
    · refine .inl ((hd.wakers.finished f hlt).mpr fun c howning => ?_)
      rw [hnobody] at howning
      cases howning
    · exact .inr hge

/-- **Somebody can go on** until every caller has come to an end. -/
theorem work_of_unsettled (p : P256) (ch : Chrono) (hd : SettlingInv I w) (h : ¬ Settled w) :
    ∃ event w', event.works = true ∧ Drives I w event ∧ step p ch w event = some w' := by
  by_cases htaken : ∃ f, w.taken f ≠ []
  · obtain ⟨f, hf⟩ := htaken
    obtain ⟨waker, rest, hcons⟩ := List.exists_cons_of_ne_nil hf
    exact ⟨.wake f, _, rfl, trivial, by simp only [step, hcons]; rfl⟩
  · simp only [ne_eq, not_exists, not_not] at htaken
    by_contra hstuck
    refine h (settled_of_callers hd htaken ?_)
    intro c phase hphase
    obtain ⟨caller, hc, rfl⟩ := phaseOf_eq_some hphase
    have hrunning : ¬ (caller.phase = .looking ∨ ∃ f, caller.phase.owns = some f) :=
      fun hrunning => hstuck (work_of_running hc hrunning)
    cases hp : caller.phase with
    | waiting f =>
      rw [hp] at hphase
      exact absurd (work_of_waiting hd hphase (htaken f)) hstuck
    | returned route result => exact .inr ⟨route, result, rfl⟩
    | gone => exact .inl rfl
    | looking => exact absurd (.inl hp) hrunning
    | elected | requesting | answered | leaving | removed =>
      rw [hp] at hrunning
      exact absurd (.inr ⟨_, rfl⟩) hrunning

/-! ## Every run -/

/-- What is to be said of a run of the callers of `I` and the state it ends in. -/
structure Settles (p : P256) (ch : Chrono) (I : Finset Nat) (events : List WakeEvent) (w : Wakes) :
    Prop where
  /-- The callers do not keep one another busy. -/
  bounded : events.countP WakeEvent.counts ≤ I.card * (4 * I.card + 7)
  /-- Nobody is left waiting where nothing can go on. -/
  stuck : (∀ event, event.works = true → Drives I w event → step p ch w event = none) → Settled w
  /-- Going on with what was begun brings everybody to an end. -/
  completes : ∃ more w', (∀ event ∈ more, event.works = true) ∧
    Run (step p ch) (Drives I) w more w' ∧ Settled w'

/-- **Every caller comes to an end**, under an executor that polls a waiting caller only when it
first waits and when its waker was woken. -/
theorem settles {events : List WakeEvent} (h : Run (step p ch) (Drives I) init events w) :
    Settles p ch I events w := by
  have hd : SettlingInv I w := h.invariant (fun _ _ _ hd => settlingInv_of_step hd) settlingInv_init
  refine ⟨?_, ?_, ?_⟩
  · have hcount := pays_of_step.count_le h settlingInv_init
    rw [cost_init] at hcount
    omega
  · intro hstuck
    by_contra hnot
    obtain ⟨event, w', hworks, hallow, hstep⟩ := work_of_unsettled p ch hd hnot
    rw [hstuck event hworks hallow] at hstep
    cases hstep
  · have hworks : ∀ event : WakeEvent, event.works = true → event.counts = true := by
      intro event h
      cases event with
      | wake f => rfl
      | event e => cases e <;> first | rfl | cases h
    obtain ⟨more, w', hmore, hrun, -, hend⟩ := pays_of_step.completes hworks
      (fun _ hd hnot => work_of_unsettled p ch hd hnot) hd
    exact ⟨more, w', hmore, hrun, hend⟩

/-- A leader dropped while another caller waits on it, which is woken and asks again. -/
def droppedAndWoken : List WakeEvent :=
  [.event (.call 1 System.askedUrl baseDate), .event (.turn 1), .event (.send 1),
    .event (.call 2 System.askedUrl baseDate), .event (.turn 2), .event (.poll 2 7),
    .event (.drop 1), .event (.release 1), .event (.finish 1), .wake 0, .event (.poll 2 8)]

theorem settles_dropped :
    ∃ w, Settles sampleP256 sampleChrono {1, 2} droppedAndWoken w ∧ ¬ Settled w := by
  have hrun : ∃ w, Run (step sampleP256 sampleChrono) (Drives {1, 2}) init droppedAndWoken w ∧
      phaseOf w.sys 2 = some .looking :=
    ⟨_, .cons (Finset.mem_insert_self 1 {2}) rfl (.cons trivial rfl (.cons trivial rfl
      (.cons (Finset.mem_insert_of_mem (Finset.mem_singleton_self 2)) rfl (.cons trivial rfl
      (.cons (.inl rfl) rfl (.cons trivial rfl (.cons trivial rfl (.cons trivial rfl
      (.cons trivial rfl (.cons (.inr ⟨0, 7, rfl, rfl, List.mem_cons_self⟩) rfl
      (.nil _))))))))))), rfl⟩
  obtain ⟨w, hw, hlooking⟩ := hrun
  refine ⟨w, settles hw, ?_⟩
  intro hsettled
  rcases hsettled.callers 2 _ hlooking with hgone | ⟨route, result, hreturned⟩
  · cases hgone
  · cases hreturned

end Wakes

end OwidRust
