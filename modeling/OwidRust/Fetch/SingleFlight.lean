import OwidRust.Fetch.SystemInv

/-!
# One fetch for a URL

Whether callers that ask for one URL share one fetch, in every state reached.

* `EntriesLed` — the entry for a URL is that of the live leader put up since the cache was cleared;
* `entriesLed_iff_of_moves` — what one event does to it: only a leader that ends while another's
  entry stands for its URL breaks it;
* `singleFlight_iff` — a run keeps single flight throughout exactly where no leader ends so;
* `singleFlight_old_leader` — a leader of before a `clear_cache` does, and two requests for one URL
  are then under way.
-/

namespace OwidRust

open Runs

namespace System

variable {p : P256} {ch : Chrono} {s t : System} {e : Event}

/-! ## Leaders -/

/-- The URL a caller leads a fetch for, and the fetch. -/
def leading (s : System) (c : Nat) : Option (String × Nat) :=
  (s.callers c).bind fun caller => caller.phase.leads.map fun f => (caller.url, f)

/-- The caller is the live leader of a fetch for the URL, put up since the cache was cleared. -/
def LeadsNow (s : System) (url : String) (c f : Nat) : Prop :=
  s.leading c = some (url, f) ∧ (s.flights f).born = s.epoch

theorem leading_eq_some {c f : Nat} {url : String} (h : s.leading c = some (url, f)) :
    ∃ caller, s.callers c = some caller ∧ caller.url = url ∧ caller.phase.leads = some f := by
  obtain ⟨caller, hc, hleads⟩ := Option.bind_eq_some_iff.mp h
  obtain ⟨g, hg, heq⟩ := Option.map_eq_some_iff.mp hleads
  cases heq
  exact ⟨caller, hc, rfl, hg⟩

theorem leading_of_caller {c f : Nat} {caller : Caller} (hc : s.callers c = some caller)
    (hleads : caller.phase.leads = some f) : s.leading c = some (caller.url, f) := by
  rw [leading, hc, Option.bind_some, hleads, Option.map_some]

theorem leading_update {c : Nat} {caller : Caller} {q : Phase}
    (ht : t.callers = Function.update s.callers c (some { caller with phase := q })) :
    t.leading = Function.update s.leading c (q.leads.map fun f => (caller.url, f)) :=
  readOff_update (fun caller => caller.phase.leads.map fun f => (caller.url, f)) ht

/-- A caller that stays a leader of its fetch, or none. -/
theorem leading_same {c : Nat} {caller : Caller} {phase : Phase} (hc : s.callers c = some caller)
    (ht : t.callers = Function.update s.callers c (some { caller with phase := phase }))
    (hleads : phase.leads = caller.phase.leads) : t.leading = s.leading := by
  apply readOff_same _ ht
  rw [hc, Option.bind_some, hleads]

/-- A caller that asks for a key leads nothing yet. -/
theorem leading_call {c : Nat} (hnew : s.callers c = none) (url : String) (now : Moment) :
    (s.call c url now).leading = s.leading := by
  apply readOff_same _ rfl
  rw [hnew]
  rfl

/-- The live leader of a fetch is one caller. -/
theorem leading_unique (hs : s.Wf) {c c' f : Nat} {url url' : String}
    (h : s.leading c = some (url, f)) (h' : s.leading c' = some (url', f)) : c = c' := by
  obtain ⟨caller, hc, -, hleads⟩ := leading_eq_some h
  obtain ⟨caller', hc', -, hleads'⟩ := leading_eq_some h'
  exact hs.owner c c' caller caller' f hc hc' (owns_of_leads hleads) (owns_of_leads hleads')

theorem lt_of_leading (hs : s.Wf) {c f : Nat} {url : String} (h : s.leading c = some (url, f)) :
    f < s.nextFlight := by
  obtain ⟨caller, hc, -, hleads⟩ := leading_eq_some h
  exact ((hs.caller _ _ hc).flight f (flight_of_owns (owns_of_leads hleads))).1

/-! ## The entries -/

/-- The entry for a URL is present exactly while such a leader is live, and is its own. -/
def EntriesLed (s : System) : Prop :=
  ∀ url f, s.cache.inFlight.lookup url = some f ↔ ∃ c, s.LeadsNow url c f

/-- A leader about to be dropped finds no entry for its URL but its own. -/
def EndsOwn (s : System) : Event → Prop
  | .release c => ∀ caller f outcome, s.callers c = some caller →
    caller.phase = .leaving f outcome →
    ∀ g, s.cache.inFlight.lookup caller.url = some g → g = f
  | _ => True

/-- Where entries, leaders and their fetches stay, so does what the entries say. -/
theorem entriesLed_congr (hentry : t.cache.inFlight = s.cache.inFlight)
    (hleading : t.leading = s.leading) (hborn : ∀ f, (t.flights f).born = (s.flights f).born)
    (hepoch : t.epoch = s.epoch) : t.EntriesLed ↔ s.EntriesLed := by
  simp only [EntriesLed, LeadsNow, hentry, hleading, hborn, hepoch]

theorem entriesLed_clear (hs : s.Wf) : s.clear.EntriesLed := by
  intro url f
  refine iff_of_false nofun ?_
  rintro ⟨c, hlead, hborn⟩
  have hle := (hs.flight f (lt_of_leading hs hlead)).born_le
  have : (s.flights f).born = s.epoch + 1 := hborn
  omega

/-- A fetch put up where no entry stands. -/
theorem entriesLed_elect (hs : s.Wf) (hled : s.EntriesLed) {c : Nat} {caller : Caller}
    (hc : s.callers c = some caller) (hp : caller.phase = .looking)
    (hentry : s.cache.inFlight.lookup caller.url = none) : (s.elect c caller).EntriesLed := by
  have hleading : (s.elect c caller).leading =
      Function.update s.leading c (some (caller.url, s.nextFlight)) :=
    leading_update (q := .elected s.nextFlight) rfl
  have hnone : s.leading c = none := by rw [leading, hc, Option.bind_some, hp]; rfl
  -- a leader of before is one after, of another URL
  have hold : ∀ {url c' f}, s.LeadsNow url c' f →
      url ≠ caller.url ∧ (s.elect c caller).LeadsNow url c' f := by
    rintro url c' f ⟨hlead, hborn⟩
    have hne : c' ≠ c := by
      rintro rfl
      rw [hnone] at hlead
      cases hlead
    have hlt := lt_of_leading hs hlead
    refine ⟨?_, ?_, ?_⟩
    · rintro rfl
      rw [(hled _ f).mpr ⟨c', hlead, hborn⟩] at hentry
      cases hentry
    · rw [hleading, Function.update_of_ne hne]
      exact hlead
    · rw [flights_elect hlt]
      exact hborn
  have hnew : (s.elect c caller).LeadsNow caller.url c s.nextFlight := by
    refine ⟨?_, ?_⟩
    · rw [hleading, Function.update_self]
    · rw [flights_elect_new]
      rfl
  intro url f
  constructor
  · intro h
    simp only [elect] at h
    by_cases hurl : url = caller.url
    · subst hurl
      rw [AList.lookup_insert] at h
      cases h
      exact ⟨c, hnew⟩
    · rw [AList.lookup_insert_ne hurl] at h
      obtain ⟨c', hlead⟩ := (hled url f).mp h
      exact ⟨c', (hold hlead).2⟩
  · rintro ⟨c', hlead, hborn⟩
    simp only [elect]
    rw [hleading] at hlead
    by_cases hc' : c' = c
    · subst hc'
      rw [Function.update_self] at hlead
      cases hlead
      exact AList.lookup_insert _
    · rw [Function.update_of_ne hc'] at hlead
      have hlt := lt_of_leading hs hlead
      rw [flights_elect hlt] at hborn
      have hbefore : s.LeadsNow url c' f := ⟨hlead, hborn⟩
      rw [AList.lookup_insert_ne (hold hbefore).1]
      exact (hled url f).mpr ⟨c', hbefore⟩

/-- **A leader that ends keeps what the entries say exactly where it takes away its own entry, or
none.** -/
theorem entriesLed_release_iff (hs : s.Wf) (hled : s.EntriesLed) {c f : Nat} {caller : Caller}
    {outcome : Option Outcome} (hc : s.callers c = some caller)
    (hp : caller.phase = .leaving f outcome) :
    (s.release c caller f outcome).EntriesLed ↔
      ∀ g, s.cache.inFlight.lookup caller.url = some g → g = f := by
  have hleading : (s.release c caller f outcome).leading = Function.update s.leading c none :=
    leading_update (q := .removed f outcome) rfl
  have hself : s.leading c = some (caller.url, f) := leading_of_caller hc (by rw [hp]; rfl)
  -- another leader of before is one after
  have hkeeps : ∀ {url c' g}, c' ≠ c →
      (s.LeadsNow url c' g ↔ (s.release c caller f outcome).LeadsNow url c' g) := by
    intro url c' g hne
    rw [LeadsNow, LeadsNow, hleading, Function.update_of_ne hne]
    rfl
  have hgone : ∀ {url g}, ¬ (s.release c caller f outcome).LeadsNow url c g := by
    rintro url g ⟨hlead, -⟩
    rw [hleading, Function.update_self] at hlead
    cases hlead
  constructor
  · intro hafter g hg
    by_contra hne
    obtain ⟨c', hlead⟩ := (hled _ g).mp hg
    have hother : c' ≠ c := by
      rintro rfl
      have heq := hlead.1.symm.trans hself
      cases heq
      exact hne rfl
    have hentry := (hafter _ g).mpr ⟨c', (hkeeps hother).mp hlead⟩
    simp only [release, AList.lookup_erase] at hentry
    cases hentry
  · intro hown url g
    simp only [release]
    constructor
    · intro h
      by_cases hurl : url = caller.url
      · rw [hurl, AList.lookup_erase] at h
        cases h
      · rw [AList.lookup_erase_ne hurl] at h
        obtain ⟨c', hlead⟩ := (hled url g).mp h
        refine ⟨c', (hkeeps ?_).mp hlead⟩
        rintro rfl
        have heq := hlead.1.symm.trans hself
        cases heq
        exact hurl rfl
    · rintro ⟨c', hlead⟩
      have hother : c' ≠ c := by
        rintro rfl
        exact hgone hlead
      have hbefore := (hkeeps hother).mpr hlead
      have hentry := (hled url g).mpr ⟨c', hbefore⟩
      have hurl : url ≠ caller.url := by
        rintro rfl
        have hgf := hown g hentry
        subst hgf
        exact hother (leading_unique hs hbefore.1 hself)
      rw [AList.lookup_erase_ne hurl]
      exact hentry

/-- **What one event does to the entries.** -/
theorem entriesLed_iff_of_moves (hs : s.Wf) (hled : s.EntriesLed) (hm : Moves p ch s e t) :
    t.EntriesLed ↔ s.EndsOwn e := by
  have hsame : ∀ {u : System}, u.cache.inFlight = s.cache.inFlight → u.leading = s.leading →
      (∀ f, (u.flights f).born = (s.flights f).born) → u.epoch = s.epoch → u.EntriesLed :=
    fun hentry hleading hborn hepoch =>
      (entriesLed_congr hentry hleading hborn hepoch).mpr hled
  cases hm with
  | @call c url now hnew =>
    exact iff_of_true (hsame rfl (leading_call hnew url now) (fun _ => rfl) rfl) trivial
  | serve hc hp | join hc hp | respond hc hp | fail hc hp | wake hc hp | retry hc hp | leave hc hp
  | abandon hc hp =>
    refine iff_of_true (hsame rfl (leading_same hc rfl ?_) (fun _ => rfl) rfl) trivial
    rw [hp]
    rfl
  | elect hc hp hheld hentry => exact iff_of_true (entriesLed_elect hs hled hc hp hentry) trivial
  | @send c caller f hc hp =>
    refine iff_of_true (hsame rfl (leading_same hc rfl ?_) ?_ rfl) trivial
    · rw [hp]
      rfl
    · intro g
      refine proj_update Flight.born ?_ g
      rfl
  | record hc hp =>
    refine iff_of_true (hsame (inFlight_hold _ _ _ _ _ _ _)
      (leading_same hc rfl ?_) (fun _ => rfl) rfl) trivial
    rw [hp]
    rfl
  | @release c caller f outcome hc hp =>
    rw [entriesLed_release_iff hs hled hc hp]
    constructor
    · intro hown caller' f' outcome' hc' hp' g hg
      cases hc.symm.trans hc'
      cases hp.symm.trans hp'
      exact hown g hg
    · intro hown
      exact hown caller f outcome hc hp
  | @finish c caller f outcome hc hp =>
    refine iff_of_true (hsame rfl (leading_same hc rfl ?_) (born_finish _ _ _ _) rfl) trivial
    rw [hp]
    cases outcome <;> rfl
  | park =>
    exact iff_of_true (hsame rfl rfl (born_park _ _) rfl) trivial
  | clear => exact iff_of_true (entriesLed_clear hs) trivial

/-! ## Single flight -/

structure SingleFlight (s : System) : Prop where
  /-- At most one live leader for a URL since the cache was cleared. -/
  one : ∀ url c c' f f', s.LeadsNow url c f → s.LeadsNow url c' f' → c = c'
  entry : s.EntriesLed
  /-- A caller that asks while one is live starts no fetch, and waits on that one unless a held key
  serves it. -/
  waits : ∀ c caller c' f, s.callers c = some caller → caller.phase = .looking →
    s.LeadsNow caller.url c' f →
    (s.turn c caller).nextFlight = s.nextFlight ∧
      (s.heldFor caller = none → s.turn c caller = s.setPhase c caller (.waiting f))

theorem singleFlight_iff_entriesLed (hs : s.Wf) : s.SingleFlight ↔ s.EntriesLed := by
  refine ⟨SingleFlight.entry, fun hled => ⟨?_, hled, ?_⟩⟩
  · intro url c c' f f' h h'
    have hf : f = f' :=
      Option.some.inj (((hled url f).mpr ⟨c, h⟩).symm.trans ((hled url f').mpr ⟨c', h'⟩))
    subst hf
    exact leading_unique hs h.1 h'.1
  · intro c caller c' f hc hp hlead
    have hentry := (hled _ f).mpr ⟨c', hlead⟩
    unfold turn
    cases hheld : s.heldFor caller with
    | some answer => exact ⟨rfl, nofun⟩
    | none =>
      simp only [hentry]
      exact ⟨rfl, fun _ => trivial⟩

theorem endsOwn_of_step_none (h : step p ch s e = none) : s.EndsOwn e := by
  cases e with
  | release c =>
    intro caller f outcome hc hp
    simp only [step, hc, Option.bind_some, hp] at h
    cases h
  | _ => trivial

theorem singleFlight_next_iff (hs : s.Wf) (h : s.SingleFlight) (e : Event) :
    (next p ch s e).SingleFlight ↔ s.EndsOwn e := by
  have hled := (singleFlight_iff_entriesLed hs).mp h
  rw [singleFlight_iff_entriesLed (wf_next hs e), next]
  cases hstep : step p ch s e with
  | none => exact iff_of_true hled (endsOwn_of_step_none hstep)
  | some t => exact entriesLed_iff_of_moves hs hled (moves_of_step hstep)

theorem singleFlight_init : init.SingleFlight := by
  rw [singleFlight_iff_entriesLed wf_init]
  intro url f
  refine iff_of_false (by simp [init, Cache.empty]) ?_
  rintro ⟨c, hlead, -⟩
  cases hlead

/-- **A run keeps single flight in every state exactly where every leader that ends finds no entry
for its URL but its own.** -/
theorem singleFlight_iff (p : P256) (ch : Chrono) (events : List Event) :
    AllStates (next p ch) SingleFlight init events ↔ AllSteps (next p ch) EndsOwn init events :=
  allStates_iff_allSteps (Q := Wf) (fun _ e hs => wf_next hs e)
    (fun _ e hs h => singleFlight_next_iff hs h e) events init wf_init singleFlight_init

/-! ## A leader of before a `clear_cache`

Caller 1 leads a fetch when the cache is cleared, caller 2 puts up another for the same URL, and
caller 1 is dropped: the entry it removes is caller 2's. -/

def askedUrl : String := "https://a/owid/api/v3/public-key?date=5&format=spki"

def oldLeaderEnds : List Event :=
  [.call 1 askedUrl baseDate, .turn 1, .send 1, .clear, .call 2 askedUrl baseDate, .turn 2,
    .send 2, .drop 1, .release 1, .finish 1, .call 3 askedUrl baseDate, .turn 3, .send 3]

def afterOldLeader : System := oldLeaderEnds.foldl (next sampleP256 sampleChrono) init

/-- Caller 3 then makes a second request beside caller 2's. -/
theorem singleFlight_old_leader :
    (afterOldLeader.callers 2).map Caller.phase = some (.requesting 1) ∧
      (afterOldLeader.callers 3).map Caller.phase = some (.requesting 2) ∧
      ¬ afterOldLeader.SingleFlight := by
  refine ⟨rfl, rfl, ?_⟩
  intro h
  have hsecond : afterOldLeader.LeadsNow askedUrl 2 1 := ⟨rfl, rfl⟩
  have hthird : afterOldLeader.LeadsNow askedUrl 3 2 := ⟨rfl, rfl⟩
  exact absurd (h.one askedUrl 2 3 1 2 hsecond hthird) (by decide)

end System

end OwidRust
