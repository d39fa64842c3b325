import OwidRust.Fetch.StatedSpan
import OwidRust.Fetch.Transparent

/-!
# Keys held past a rotation

Callers beside a creator whose schedule grows.  An answer with a start and no end is held up to the
drift allowance behind the local clock *as it is recorded*, while the key it names was the
schedule's last *as it was given*; a key added in between may already have started.

* `Stated` — what is known of an answer not yet recorded, whatever is added;
* `RecordedInTime`, `AddedLater` — the two conditions on events;
* `allStates_serves` — a run whose events meet them serves no key for a minute another is in force
  at;
* `serves_delayed` — an answer recorded after a key was added and had started is held past its
  start.
-/

namespace OwidRust

open Periods Runs

variable {p : P256} {ch : Chrono} {s : PublicKeySchedule}

namespace Timed

variable {E : String} {t : Timed} {e : Event} {u : System}

/-- The events considered: clocks within the drift allowance of each other, keys that start later
than every key before them and than the creator's clock, readings of the local clock as it stands,
and answers that state their spans from the schedule as it is. -/
def Considered (p : P256) (ch : Chrono) (E : String) (t : Timed) : TimedEvent → Prop
  | .tick creator here => WithinDrift creator here
  | .publish key => (∃ m, key.startsAt = atMinute m) ∧ key.startsAt < endOfYear9999 ∧
    t.creator < key.startsAt ∧ ∀ other ∈ t.schedule.keys,
      other.startsAt < key.startsAt ∧ other.publicKeyPem ≠ key.publicKeyPem
  | .sys (.call _ _ now) => now = t.here
  | .sys (.record _ now) => now = t.here
  | .sys (.respond c response) => ∀ caller, t.sys.callers c = some caller →
    endPointOf caller.url = E → StatesSpan p ch t.schedule caller.url t.creator response
  | .sys _ => True

/-- An answer without an end is recorded only while no key that starts after its own has started by
the minute it is held up to. -/
def RecordedInTime (E : String) (t : Timed) : TimedEvent → Prop
  | .sys (.record c now) => ∀ caller r first, t.sys.callers c = some caller →
    caller.reading = some r → endPointOf r.url = E → r.start = some first → r.stop = none →
    ∀ key ∈ t.schedule.keys, atMinute first < key.startsAt →
      atMinute (startOnly now first).last < key.startsAt
  | _ => True

/-- A key is added only where it starts later than every minute held. -/
def AddedLater (E : String) (t : Timed) : TimedEvent → Prop
  | .publish key => ∀ k ∈ t.sys.cache.heldAt E, atMinute k.last < key.startsAt
  | _ => True

/-- An answer not yet recorded names a key of the schedule by its start, and an end it states is the
start of another key and has no start before it. -/
def Stated (t : Timed) (r : Reading) : Prop :=
  ∃ key first, key ∈ t.schedule.keys ∧ r.pem = key.publicKeyPem ∧ r.start = some first ∧
    key.startsAt = atMinute first ∧
    ∀ n ∈ r.stop, first < n ∧ (∃ other ∈ t.schedule.keys, other.startsAt = atMinute n) ∧
      ∀ other ∈ t.schedule.keys, key.startsAt < other.startsAt → atMinute n ≤ other.startsAt

/-! ## Recordings -/

/-- **An answer recorded in time is held for minutes its key is in force at.** -/
theorem spanInForce_of_stated {now : Moment} {r : Reading} {span : Span} (h : Stated t r)
    (hintime : ∀ first, r.start = some first → r.stop = none → ∀ key ∈ t.schedule.keys,
      atMinute first < key.startsAt → atMinute (startOnly now first).last < key.startsAt)
    (hspan : heldSpan now (minuteOf r.url) r.recent r.start r.stop = some span) :
    SpanInForce t.schedule (span.key r.pem) := by
  refine ⟨(heldSpan_wf hspan).1, ?_⟩
  intro minute hfrom hto
  change span.first ≤ minute at hfrom
  change minute ≤ span.last at hto
  obtain ⟨key, first, hkey, hpem, hstart, hstarts, hends⟩ := h
  -- the key is in force at a minute where every later start is later than the minute
  have hin : first ≤ minute →
      (∀ other ∈ t.schedule.keys, atMinute first < other.startsAt →
        atMinute minute < other.startsAt) → t.schedule.PemAt (atMinute minute) r.pem := by
    intro hle hlater
    refine ⟨key, inForce_iff.mpr ?_, hpem.symm⟩
    rw [hstarts]
    exact ⟨hkey, atMinute_le_iff.mpr hle, hlater⟩
  cases hstop : r.stop with
  | none =>
    rw [hstart, hstop] at hspan
    cases hspan
    apply hin hfrom
    intro other hother hlater
    exact lt_of_le_of_lt (atMinute_le_iff.mpr hto)
      (hintime first hstart hstop other hother hlater)
  | some n =>
    obtain ⟨hlt, -, hleast⟩ := hends n hstop
    rw [hstart, hstop, heldSpan] at hspan
    simp only [hlt, if_true] at hspan
    cases hspan
    apply hin hfrom
    intro other hother hlater
    refine lt_of_lt_of_le (atMinute_lt_iff.mpr ?_) (hleast other hother (hstarts ▸ hlater))
    change minute ≤ n - 1 at hto
    omega

theorem stated_of_tells (hs : t.schedule.Regular) {asked : Moment} {r : Reading}
    (h : TellsKeyInForce t.schedule asked r.pem r.start r.stop) : Stated t r := by
  obtain ⟨key, first, -, hpem, hstart, hminutes⟩ := h.minutes hs
  refine ⟨key, first, hminutes.mem, hpem, hstart, hminutes.start, ?_⟩
  intro n hn
  obtain ⟨hlt, -, hother, hleast⟩ := hminutes.next n hn
  exact ⟨hlt, hother, hleast⟩

/-! ## Keys added -/

theorem mem_publish {key other : DatedPublicKey} :
    other ∈ (t.next p ch (.publish key)).schedule.keys ↔
      other ∈ t.schedule.keys ∨ other = key := by
  simp only [next, PublicKeySchedule.new, List.mem_mergeSort, List.mem_append, List.mem_singleton]

theorem regular_publish (hs : t.schedule.Regular) {key : DatedPublicKey}
    (h : Considered p ch E t (.publish key)) :
    (t.next p ch (.publish key)).schedule.Regular := by
  obtain ⟨hminute, hbefore, -, hothers⟩ := h
  refine ⟨?_, ?_, ?_, ?_⟩
  · intro other hother
    rcases mem_publish.mp hother with hother | rfl
    · exact hs.minute other hother
    · exact hminute
  · intro other hother
    rcases mem_publish.mp hother with hother | rfl
    · exact hs.before other hother
    · exact hbefore
  · intro a ha b hb hab
    rcases mem_publish.mp ha with ha' | rfl <;> rcases mem_publish.mp hb with hb' | rfl
    · exact hs.starts ha' hb' hab
    · exact absurd hab (ne_of_lt (hothers a ha').1)
    · exact absurd hab.symm (ne_of_lt (hothers b hb').1)
    · rfl
  · intro a ha b hb hab
    rcases mem_publish.mp ha with ha' | rfl <;> rcases mem_publish.mp hb with hb' | rfl
    · exact hs.pems ha' hb' hab
    · exact absurd hab (hothers a ha').2
    · exact absurd hab.symm (hothers b hb').2
    · rfl

/-- What an answer states survives a key added later than all. -/
theorem stated_publish {key : DatedPublicKey} (h : Considered p ch E t (.publish key))
    {r : Reading} (hr : Stated t r) : Stated (t.next p ch (.publish key)) r := by
  obtain ⟨-, -, -, hothers⟩ := h
  obtain ⟨own, first, hown, hpem, hstart, hstarts, hends⟩ := hr
  refine ⟨own, first, mem_publish.mpr (.inl hown), hpem, hstart, hstarts, ?_⟩
  intro n hn
  obtain ⟨hlt, ⟨next, hnext, hat⟩, hleast⟩ := hends n hn
  refine ⟨hlt, ⟨next, mem_publish.mpr (.inl hnext), hat⟩, ?_⟩
  intro other hother hlater
  rcases mem_publish.mp hother with hother | rfl
  · exact hleast other hother hlater
  · exact hat ▸ (hothers next hnext).1.le

/-- A held key stays in force where a key starts later than it is held. -/
theorem spanInForce_publish {key : DatedPublicKey} {k : HeldKey} (hk : SpanInForce t.schedule k)
    (hlater : atMinute k.last < key.startsAt) :
    SpanInForce (t.next p ch (.publish key)).schedule k := by
  refine ⟨hk.ordered, ?_⟩
  intro minute hfrom hto
  obtain ⟨own, hown, hpem⟩ := hk.inForce minute hfrom hto
  refine ⟨own, hown.of_grow (fun other hother => mem_publish.mpr (.inl hother)) ?_, hpem⟩
  intro other hother hnew
  rcases mem_publish.mp hother with hold | rfl
  · exact absurd hold hnew
  · exact lt_of_le_of_lt (atMinute_le_iff.mpr hto) hlater

/-! ## Runs -/

structure Rotating (E : String) (t : Timed) : Prop where
  wf : t.sys.Wf
  regular : t.schedule.Regular
  cache : CacheInv E Stated (fun t k => SpanInForce t.schedule k) t

theorem rotating_next (hch : ch.Sound) (h : Rotating E t) {e : TimedEvent}
    (hconsidered : Considered p ch E t e) (hrecord : RecordedInTime E t e)
    (hadd : AddedLater E t e) : Rotating E (t.next p ch e) := by
  cases e with
  | tick => exact ⟨h.wf, h.regular, ⟨h.cache.answered, h.cache.held⟩⟩
  | publish key =>
    refine ⟨h.wf, regular_publish h.regular hconsidered, ⟨?_, ?_⟩⟩
    · intro c caller r hc hr hE
      exact stated_publish hconsidered (h.cache.answered c caller r hc hr hE)
    · intro k hk
      exact spanInForce_publish (h.cache.held k hk) (hadd k hk)
  | sys e =>
    rw [next]
    cases hstep : System.step p ch t.sys e with
    | none => exact h
    | some u =>
      have hm := System.moves_of_step hstep
      have hwf := System.wf_of_moves h.wf hm
      have hsus : Sustains E Stated (fun t k => SpanInForce t.schedule k) p ch t e u := by
        refine ⟨fun _ _ hr => hr, fun _ hk => hk, ?_, ?_⟩
        · intro c caller response r he hc hphase hurl hrecent hE hread hnow
          subst he
          have hstates := hconsidered caller hc (hurl ▸ hE)
          rw [← hurl] at hstates
          exact stated_of_tells h.regular (tells_of_statesSpan hch h.regular hstates hread)
        · intro c now caller r span he hc hr hE hstated hspan
          subst he
          have hnew := spanInForce_of_stated hstated
            (fun first hstart hstop => hrecord caller r first hc hr hE hstart hstop) hspan
          refine ⟨hnew, ?_⟩
          intro key hkey hheld hpem
          exact spanInForce_joined h.regular hheld (hpem ▸ hnew)
      have hcache := cacheInv_after h.wf h.cache hm hsus
      exact ⟨hwf, h.regular, hcache⟩

theorem rotating_start (hs : s.Regular) (creator here : Moment) :
    Rotating E (start s creator here) :=
  ⟨System.wf_init, hs, cacheInv_start s creator here⟩

/-- Whatever the cache serves for a minute of the end point is the key in force at it, in the
schedule as it is. -/
def Serves (E : String) (t : Timed) : Prop :=
  ∀ minute recent answer, t.sys.cache.heldFor E minute recent = some answer →
    (t.schedule.keyInForce (atMinute minute)).map DatedPublicKey.publicKeyPem = some answer.pem

theorem serves_of_rotating (h : Rotating E t) : Serves E t := by
  intro minute recent answer hserved
  obtain ⟨k, hk, hfrom, hto, -, rfl⟩ := Cache.heldFor_eq_some hserved
  rw [HeldKey.stated_pem]
  exact h.regular.keyInForce_pem ((h.cache.held k hk).inForce minute hfrom hto)

/-- **No key is held past a rotation** in a run that records its answers in time and adds its keys
later than the minutes held. -/
theorem allStates_serves (hch : ch.Sound) (hs : s.Regular) (creator here : Moment) (E : String)
    (events : List TimedEvent)
    (h : AllSteps (next p ch)
      (fun t e => Considered p ch E t e ∧ RecordedInTime E t e ∧ AddedLater E t e)
      (start s creator here) events) :
    AllStates (next p ch) (Serves E) (start s creator here) events := by
  have hrun : AllStates (next p ch) (Rotating E) (start s creator here) events := by
    refine allStates_of_allSteps ?_ events _ (rotating_start hs creator here) h
    rintro t e ht ⟨hconsidered, hrecord, hadd⟩
    exact rotating_next hch ht hconsidered hrecord hadd
  exact hrun.imp fun _ ht => serves_of_rotating ht

/-! ## A key held past a rotation

A creator of one key answers at minute 100, states no end, and publishes a second key for minute
101.  The answer is recorded at minute 200. -/

def askFifty : String := "https://a/owid/api/v3/public-key?date=50&format=spki"

def fiftyEndPoint : String := "https://a/owid/api/v3/public-key"

def oneKey : PublicKeySchedule := ⟨[firstKey], by simp⟩

def lateKey : DatedPublicKey := ⟨atMinute 101, nextPem⟩

theorem oneKey_regular : oneKey.Regular where
  minute key hkey := by
    cases List.mem_singleton.mp hkey
    exact ⟨10, rfl⟩
  before key hkey := by
    cases List.mem_singleton.mp hkey
    decide +kernel
  starts := by
    intro a ha b hb _
    rw [List.mem_singleton.mp ha, List.mem_singleton.mp hb]
  pems := by
    intro a ha b hb _
    rw [List.mem_singleton.mp ha, List.mem_singleton.mp hb]

theorem oneKey_inForce {moment : Moment} (h : atMinute 10 ≤ moment) :
    oneKey.InForceAt moment firstKey := by
  rw [PublicKeySchedule.InForceAt, inForce_iff]
  refine ⟨List.mem_singleton.mpr rfl, h, ?_⟩
  intro other hother hlater
  cases List.mem_singleton.mp hother
  exact absurd hlater (lt_irrefl _)

def fiftyAnswer : Except Error FetchResponse :=
  .ok ⟨200, (oneKey.answerFor firstKey).toJson sampleChrono⟩

theorem statesSpan_fifty :
    StatesSpan sampleP256 sampleChrono oneKey askFifty (atMinute 100) fiftyAnswer := by
  have hasked : askedMoment (queryValue dateParameter askFifty) (atMinute 100) =
      some (atMinute 50) := by decide +kernel
  exact .stated (publicKeyResponseAt_of_inForce oneKey_regular.starts (by decide +kernel) hasked
    (oneKey_inForce (atMinute_le_iff.mpr (by decide))) readable_samplePem)

theorem requestPublicKey_fifty : requestPublicKey sampleP256 sampleChrono askFifty fiftyAnswer =
    .ok (samplePem, some 10, none) := by
  have hkey := oneKey_inForce (le_refl (atMinute 10))
  rw [fiftyAnswer, requestPublicKey_of_parse
    (oneKey_regular.parse_answerFor sampleChrono_sound hkey.mem)
    (validate_answerFor_none hkey readable_samplePem)]
  have hstart : statedMinute (oneKey.answerFor firstKey).validFrom = some 10 := by
    rw [show (oneKey.answerFor firstKey).validFrom = some (atMinute 10) from rfl,
      statedMinute_some, minutesSinceBase_atMinute (by decide)]
  have hstop : (oneKey.answerFor firstKey).validTo = none := by
    show oneKey.nextStartAfter firstKey = none
    rw [PublicKeySchedule.nextStartAfter_eq_none_iff]
    intro other hother
    rw [List.mem_singleton.mp hother]
  rw [hstart, hstop]
  rfl

def askedFifty : List TimedEvent :=
  [.sys (.call 1 askFifty (atMinute 100)), .sys (.turn 1), .sys (.send 1),
    .sys (.respond 1 fiftyAnswer)]

def startFifty : Timed := start oneKey (atMinute 100) (atMinute 100)

def answeredFifty : Timed := askedFifty.foldl (next sampleP256 sampleChrono) startFifty

theorem answeredFifty_caller : ∃ recent, answeredFifty.sys.callers 1 =
    some ⟨askFifty, recent, 0, .answered 0 (.ok (samplePem, some 10, none))⟩ := by
  rw [← requestPublicKey_fifty]
  exact ⟨_, rfl⟩

theorem allSteps_askedFifty {G : Timed → TimedEvent → Prop}
    (hcall : ∀ t : Timed, t.here = atMinute 100 → G t (.sys (.call 1 askFifty (atMinute 100))))
    (hturn : ∀ t, G t (.sys (.turn 1))) (hsend : ∀ t, G t (.sys (.send 1)))
    (hrespond : ∀ t : Timed, t.schedule = oneKey → t.creator = atMinute 100 →
      (∃ recent, t.sys.callers 1 = some ⟨askFifty, recent, 0, .requesting 0⟩) →
      G t (.sys (.respond 1 fiftyAnswer))) :
    AllSteps (next sampleP256 sampleChrono) G startFifty askedFifty := by
  refine ⟨hcall _ rfl, hturn _, hsend _, hrespond _ ?_ ?_ ⟨_, rfl⟩, trivial⟩
  · simp only [next_sys_schedule]
    rfl
  · simp only [next_sys_creator]
    rfl

theorem considered_askedFifty : AllSteps (next sampleP256 sampleChrono)
    (Considered sampleP256 sampleChrono fiftyEndPoint) startFifty askedFifty := by
  apply allSteps_askedFifty
  · intro t ht
    exact ht.symm
  · intro t
    trivial
  · intro t
    trivial
  · rintro t hschedule hcreator ⟨recent, hcaller⟩ caller hc _
    cases hcaller.symm.trans hc
    rw [hschedule, hcreator]
    exact statesSpan_fifty

/-- Recorded at a minute, the answer is held up to the drift allowance behind it. -/
theorem heldAt_recordFifty (recent : Bool) (minute : Nat) (hminute : minute ≤ u32Max)
    (hcaller : t.sys.callers 1 =
      some ⟨askFifty, recent, 0, .answered 0 (.ok (samplePem, some 10, none))⟩)
    (hnothing : t.sys.cache.heldAt (endPointOf askFifty) = []) :
    (t.next sampleP256 sampleChrono (.sys (.record 1 (atMinute minute)))).sys.cache.heldAt
        (endPointOf askFifty) =
      [⟨samplePem, 10, max 10 (minute - CLOCK_DRIFT_ALLOWANCE_MINUTES), false, true⟩] := by
  rw [next_record hcaller rfl, System.cache_hold, heldAt_hold_fresh hnothing, heldSpan, startOnly,
    nowMinute_atMinute hminute]
  rfl

/-- The second key may be added as soon as the first has been answered with. -/
theorem considered_lateKey : Considered sampleP256 sampleChrono fiftyEndPoint answeredFifty
    (.publish lateKey) := by
  refine ⟨⟨101, rfl⟩, by decide +kernel, atMinute_lt_iff.mpr (by decide), ?_⟩
  intro other hother
  cases List.mem_singleton.mp hother
  exact ⟨atMinute_lt_iff.mpr (by decide), by decide +kernel⟩

/-- The second key has been added. -/
def addedFifty : Timed := answeredFifty.next sampleP256 sampleChrono (.publish lateKey)

/-- The answer that states the first key without an end has been recorded at once. -/
def recordedFifty : Timed :=
  addedFifty.next sampleP256 sampleChrono (.sys (.record 1 (atMinute 100)))

theorem recordedFifty_heldAt : recordedFifty.sys.cache.heldAt (endPointOf askFifty) =
    [⟨samplePem, 10, 85, false, true⟩] := by
  obtain ⟨recent, hcaller⟩ := answeredFifty_caller
  rw [recordedFifty, heldAt_recordFifty (t := addedFifty) recent 100 (by decide) hcaller rfl]
  rfl

theorem mem_addedFifty {key : DatedPublicKey} :
    key ∈ addedFifty.schedule.keys ↔ key = firstKey ∨ key = lateKey := by
  rw [addedFifty, mem_publish]
  exact or_congr_left List.mem_singleton

def latestKey : DatedPublicKey := ⟨atMinute 151, "latest"⟩

theorem considered_latestKey : Considered sampleP256 sampleChrono fiftyEndPoint recordedFifty
    (.publish latestKey) := by
  have hcreator : recordedFifty.creator = atMinute 100 := by
    rw [recordedFifty, next_sys_creator]
    rfl
  have hschedule : recordedFifty.schedule = addedFifty.schedule := by
    rw [recordedFifty, next_sys_schedule]
  refine ⟨⟨151, rfl⟩, by decide +kernel, hcreator ▸ atMinute_lt_iff.mpr (by decide), ?_⟩
  intro other hother
  rcases mem_addedFifty.mp (hschedule ▸ hother) with rfl | rfl
  · exact ⟨atMinute_lt_iff.mpr (by decide), by decide +kernel⟩
  · exact ⟨atMinute_lt_iff.mpr (by decide), by decide +kernel⟩

/-- Recorded at once, the answer is held up to minute 85.  The second key starts later, and so does
the third, which is added while the first is held. -/
theorem allStates_serves_at_once :
    AllStates (next sampleP256 sampleChrono) (Serves fiftyEndPoint) startFifty
      (askedFifty ++ [.publish lateKey, .sys (.record 1 (atMinute 100)), .publish latestKey]) ∧
    recordedFifty.sys.cache.heldFor fiftyEndPoint 50 false =
      some (.ofSpan samplePem 10 u32Max) := by
  have hendPoint : endPointOf askFifty = fiftyEndPoint := by decide +kernel
  refine ⟨?_, ?_⟩
  · apply allStates_serves sampleChrono_sound oneKey_regular
    rw [allSteps_append]
    refine ⟨?_, ⟨considered_lateKey, trivial, ?_⟩, ⟨rfl, ?_, trivial⟩, ⟨?_, trivial, ?_⟩, trivial⟩
    · apply allSteps_askedFifty
      · intro t ht
        exact ⟨ht.symm, trivial, trivial⟩
      · intro t
        exact ⟨trivial, trivial, trivial⟩
      · intro t
        exact ⟨trivial, trivial, trivial⟩
      · rintro t hschedule hcreator ⟨recent, hcaller⟩
        refine ⟨?_, trivial, trivial⟩
        intro caller hc _
        cases hcaller.symm.trans hc
        rw [hschedule, hcreator]
        exact statesSpan_fifty
    · intro k hk
      cases hk
    · -- the answer is held up to minute 85 while the second key starts at minute 101
      obtain ⟨recent, hcaller⟩ := answeredFifty_caller
      intro caller r first hc hr _ hstart _ key hkey hlater
      cases hcaller.symm.trans hc
      cases hr
      cases hstart
      rcases mem_addedFifty.mp hkey with rfl | rfl
      · exact absurd hlater (lt_irrefl _)
      · rw [startOnly, nowMinute_atMinute (by decide)]
        exact atMinute_lt_iff.mpr (by decide)
    · exact considered_latestKey
    · intro k hk
      have hrecorded : recordedFifty = next sampleP256 sampleChrono
          (next sampleP256 sampleChrono (askedFifty.foldl (next sampleP256 sampleChrono)
            (start oneKey (atMinute 100) (atMinute 100))) (.publish lateKey))
          (.sys (.record 1 (atMinute 100))) := rfl
      rw [← hrecorded, ← hendPoint, recordedFifty_heldAt, List.mem_singleton] at hk
      rw [hk]
      exact atMinute_lt_iff.mpr (by decide)
  · rw [Cache.heldFor_eq, ← hendPoint, recordedFifty_heldAt]
    decide +kernel

def lateEvents : List TimedEvent :=
  [.publish lateKey, .tick (atMinute 200) (atMinute 200), .sys (.record 1 (atMinute 200))]

def delayedRun : Timed :=
  lateEvents.foldl (next sampleP256 sampleChrono) answeredFifty

theorem delayedRun_schedule : delayedRun.schedule = addedFifty.schedule := by
  rw [delayedRun, lateEvents, List.foldl_cons, List.foldl_cons, List.foldl_cons, List.foldl_nil,
    next_sys_schedule]
  rfl

/-- The key is held up to the drift allowance behind minute 200. -/
theorem delayedRun_heldAt : delayedRun.sys.cache.heldAt (endPointOf askFifty) =
    [⟨samplePem, 10, 185, false, true⟩] := by
  obtain ⟨recent, hcaller⟩ := answeredFifty_caller
  rw [delayedRun, lateEvents, List.foldl_cons, List.foldl_cons, List.foldl_cons, List.foldl_nil]
  refine (heldAt_recordFifty recent 200 (by decide) ?_ rfl).trans rfl
  exact hcaller

/-- The first key is held up to minute 185, although the second is in force from minute 101 on. -/
theorem serves_delayed :
    AllSteps (next sampleP256 sampleChrono) (Considered sampleP256 sampleChrono fiftyEndPoint)
      startFifty (askedFifty ++ lateEvents) ∧
    delayedRun.sys.cache.heldFor fiftyEndPoint 150 false =
      some (.ofSpan samplePem 10 u32Max) ∧
    (delayedRun.schedule.keyInForce (atMinute 150)).map DatedPublicKey.publicKeyPem =
      some nextPem ∧
    ¬ Serves fiftyEndPoint delayedRun := by
  have hheld : delayedRun.sys.cache.heldFor fiftyEndPoint 150 false =
      some (.ofSpan samplePem 10 u32Max) := by
    have hendPoint : endPointOf askFifty = fiftyEndPoint := by decide +kernel
    rw [Cache.heldFor_eq, ← hendPoint, delayedRun_heldAt]
    decide +kernel
  have hregular : delayedRun.schedule.Regular := by
    rw [delayedRun_schedule]
    exact regular_publish oneKey_regular considered_lateKey
  have hinForce : delayedRun.schedule.InForceAt (atMinute 150) lateKey := by
    rw [delayedRun_schedule]
    refine inForce_iff.mpr ⟨mem_addedFifty.mpr (.inr rfl), atMinute_le_iff.mpr (by decide), ?_⟩
    intro other hother hlater
    rcases mem_addedFifty.mp hother with rfl | rfl
    · exact absurd hlater (not_lt.mpr (atMinute_le_iff.mpr (by decide)))
    · exact absurd hlater (lt_irrefl _)
  have hkey : (delayedRun.schedule.keyInForce (atMinute 150)).map DatedPublicKey.publicKeyPem =
      some nextPem := hregular.keyInForce_pem ⟨lateKey, hinForce, rfl⟩
  refine ⟨?_, hheld, hkey, ?_⟩
  · rw [allSteps_append]
    exact ⟨considered_askedFifty, considered_lateKey, ⟨by decide +kernel, by decide +kernel⟩, rfl,
      trivial⟩
  · intro h
    have hserved := h 150 false _ hheld
    rw [hkey] at hserved
    exact absurd (Option.some.inj hserved) (by decide +kernel)

/-! ## Clocks that go forward

Where the creator's clock never goes back and the local clock is not before the base date, every key
is added later than the minutes held, whatever the delays. -/

/-- The creator's clock never goes back, and the local clock is not before the base date. -/
def Forward (t : Timed) : TimedEvent → Prop
  | .tick creator here => t.creator ≤ creator ∧ baseDate ≤ here
  | _ => True

/-- A minute that every key added from now on starts later than. -/
def Settled (t : Timed) (minute : Nat) : Prop :=
  atMinute minute ≤ t.creator ∨ ∃ key ∈ t.schedule.keys, atMinute minute ≤ key.startsAt

theorem settled_max {a b : Nat} (ha : Settled t a) (hb : Settled t b) : Settled t (max a b) := by
  rcases le_total a b with h | h
  · rw [max_eq_right h]
    exact hb
  · rw [max_eq_left h]
    exact ha

/-- The last minute an answer is held for is settled as it is recorded. -/
theorem settled_of_stated (hdrift : WithinDrift t.creator t.here) (hbase : baseDate ≤ t.here)
    {r : Reading} {span : Span} (h : Stated t r)
    (hspan : heldSpan t.here (minuteOf r.url) r.recent r.start r.stop = some span) :
    Settled t span.last := by
  obtain ⟨key, first, hkey, -, hstart, hstarts, hends⟩ := h
  have hfirst : Settled t first := .inr ⟨key, hkey, hstarts.ge⟩
  cases hstop : r.stop with
  | none =>
    rw [hstart, hstop] at hspan
    cases hspan
    refine settled_max hfirst ?_
    by_cases hallowance : CLOCK_DRIFT_ALLOWANCE_MINUTES ≤ nowMinute t.here
    · exact .inl (atMinute_le_creator hdrift hbase (by omega))
    · have hzero : nowMinute t.here - CLOCK_DRIFT_ALLOWANCE_MINUTES = 0 := by omega
      rw [hzero]
      refine .inr ⟨key, hkey, ?_⟩
      rw [hstarts]
      exact atMinute_le_iff.mpr (Nat.zero_le _)
  | some n =>
    obtain ⟨hlt, ⟨next, hnext, hat⟩, -⟩ := hends n hstop
    rw [hstart, hstop, heldSpan] at hspan
    simp only [hlt, if_true] at hspan
    cases hspan
    refine .inr ⟨next, hnext, ?_⟩
    rw [hat]
    exact atMinute_le_iff.mpr (Nat.sub_le n 1)

structure GoingForward (E : String) (t : Timed) : Prop where
  rotating : Rotating E t
  drift : WithinDrift t.creator t.here
  base : baseDate ≤ t.here
  settled : CacheInv E Stated (fun t k => Settled t k.last) t

/-- A key considered starts later than every minute settled. -/
theorem addedLater_of_settled (h : GoingForward E t) {e : TimedEvent}
    (hconsidered : Considered p ch E t e) : AddedLater E t e := by
  cases e with
  | publish key =>
    obtain ⟨-, -, hclock, hothers⟩ := hconsidered
    intro k hk
    rcases h.settled.held k hk with hpast | ⟨other, hother, hle⟩
    · exact lt_of_le_of_lt hpast hclock
    · exact lt_of_le_of_lt hle (hothers other hother).1
  | _ => trivial

theorem goingForward_next (hch : ch.Sound) (h : GoingForward E t) {e : TimedEvent}
    (hconsidered : Considered p ch E t e) (hrecord : RecordedInTime E t e)
    (hforward : Forward t e) : GoingForward E (t.next p ch e) := by
  have hrotating := rotating_next hch h.rotating hconsidered hrecord
    (addedLater_of_settled h hconsidered)
  cases e with
  | tick creator here =>
    refine ⟨hrotating, hconsidered, hforward.2, ⟨h.settled.answered, ?_⟩⟩
    intro k hk
    exact (h.settled.held k hk).imp_left fun hpast => hpast.trans hforward.1
  | publish key =>
    refine ⟨hrotating, h.drift, h.base, ⟨hrotating.cache.answered, ?_⟩⟩
    intro k hk
    apply (h.settled.held k hk).imp_right
    rintro ⟨other, hother, hle⟩
    exact ⟨other, mem_publish.mpr (.inl hother), hle⟩
  | sys e =>
    rw [next] at hrotating ⊢
    cases hstep : System.step p ch t.sys e with
    | none => exact h
    | some u =>
      rw [hstep] at hrotating
      have hm := System.moves_of_step hstep
      have hsus : Sustains E Stated (fun t k => Settled t k.last) p ch t e u := by
        refine ⟨fun _ _ hr => hr, fun _ hk => hk, ?_, ?_⟩
        · intro c caller response r he hc hphase hurl hrecent hE hread hnow
          subst he
          have hstates := hconsidered caller hc (hurl ▸ hE)
          rw [← hurl] at hstates
          exact stated_of_tells h.rotating.regular
            (tells_of_statesSpan hch h.rotating.regular hstates hread)
        · intro c now caller r span he hc hr hE hstated hspan
          subst he
          have hnow : now = t.here := hconsidered
          subst hnow
          have hnew := settled_of_stated h.drift h.base hstated hspan
          exact ⟨hnew, fun key _ hheld _ => settled_max hnew hheld⟩
      have hsettled := cacheInv_after h.rotating.wf h.settled hm hsus
      exact ⟨hrotating, h.drift, h.base, hsettled⟩

/-- **With clocks that go forward only a late recording holds a key past a rotation.** -/
theorem allStates_serves_forward (hch : ch.Sound) (hs : s.Regular) {creator here : Moment}
    (hdrift : WithinDrift creator here) (hbase : baseDate ≤ here) (E : String)
    (events : List TimedEvent)
    (h : AllSteps (next p ch)
      (fun t e => Considered p ch E t e ∧ RecordedInTime E t e ∧ Forward t e)
      (start s creator here) events) :
    AllStates (next p ch) (Serves E) (start s creator here) events := by
  have hrun : AllStates (next p ch) (GoingForward E) (start s creator here) events := by
    refine allStates_of_allSteps ?_ events _
      ⟨rotating_start hs creator here, hdrift, hbase, cacheInv_start s creator here⟩ h
    rintro t e ht ⟨hconsidered, hrecord, hforward⟩
    exact goingForward_next hch ht hconsidered hrecord hforward
  exact hrun.imp fun _ ht => serves_of_rotating ht.rotating

end Timed

end OwidRust
