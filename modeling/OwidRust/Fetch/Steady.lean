import OwidRust.Fetch.Creator
import OwidRust.Fetch.Verify

/-!
# A creator with a steady schedule

A creator of readable keys, each but the last in force for the drift allowance at least, who answers
every request by a clock that never goes back.  The local clock reads what it likes.

* `OnSchedule` — a held key is a key of the schedule, held up to its last minute where it has one;
* `onSchedule_key`, `onSchedule_joined` — the creator's answers are held so, and widening keeps it;
* `onSchedule_of_reached` — so is every key of a cache reached by any callers of the end point;
* `keyAtUrl_selected` — a key obtained for a URL is the one in force at its minute or when it was
  asked for;
* `keyAtUrl_isOk` — a key is obtained for every minute some key had started by.
-/

namespace OwidRust

open Periods Runs

variable {p : P256} {ch : Chrono} {s : PublicKeySchedule} {E : String}

/-! ## Schedules -/

/-- Readable keys, each but the last in force for at least the drift allowance. -/
structure PublicKeySchedule.Steady (p : P256) (s : PublicKeySchedule) : Prop where
  regular : s.Regular
  spaced : ∀ key ∈ s.keys, ∀ stop ∈ s.nextStartAfter key,
    CLOCK_DRIFT_ALLOWANCE_MINUTES * minuteNanos ≤ stop.since key.startsAt
  readable : ∀ key ∈ s.keys, Readable p key.publicKeyPem

/-- Two starts are the drift allowance apart. -/
theorem PublicKeySchedule.Steady.start_le (hs : s.Steady p) {key other : DatedPublicKey}
    (hkey : key ∈ s.keys) (hother : other ∈ s.keys) {first start : Nat}
    (hfirst : key.startsAt = atMinute first) (hstart : other.startsAt = atMinute start)
    (h : first < start) : first + CLOCK_DRIFT_ALLOWANCE_MINUTES ≤ start := by
  have hlater : key.startsAt < other.startsAt := by
    rw [hfirst, hstart]
    exact atMinute_lt_iff.mpr h
  cases hnext : s.nextStartAfter key with
  | none =>
    have hnone := PublicKeySchedule.nextStartAfter_eq_none_iff.mp hnext other hother
    exact absurd hlater (not_lt.mpr hnone)
  | some stop =>
    have hgap := hs.spaced key hkey stop hnext
    have hle := (PublicKeySchedule.nextStartAfter_eq_some_iff.mp hnext).2 other hother hlater
    rw [hstart] at hle
    rw [hfirst] at hgap
    simp only [Moment.le_def, Moment.since, atMinute_nanos, minuteNanos,
      CLOCK_DRIFT_ALLOWANCE_MINUTES] at hle hgap ⊢
    omega

/-- A key has one statement in minutes. -/
theorem MinutesInForce.unique {key : DatedPublicKey} {first first' : Nat} {stop stop' : Option Nat}
    (h : MinutesInForce s key first stop) (h' : MinutesInForce s key first' stop') :
    first = first' ∧ stop = stop' := by
  have hle : ∀ {first first' : Nat} {stop stop' : Option Nat}, MinutesInForce s key first stop →
      MinutesInForce s key first' stop' → ∀ n ∈ stop, ∃ n' ∈ stop', n' ≤ n := by
    intro first first' stop stop' h h' n hn
    obtain ⟨hlt, -, ⟨other, hother, hat⟩, -⟩ := h.next n hn
    have hlater : key.startsAt < other.startsAt := by
      rw [h.start, hat]
      exact atMinute_lt_iff.mpr hlt
    cases hstop : stop' with
    | none => exact absurd (h'.last hstop other hother) (not_le.mpr hlater)
    | some n' =>
      obtain ⟨-, -, -, hleast⟩ := h'.next n' hstop
      refine ⟨n', rfl, ?_⟩
      rw [← atMinute_le_iff, ← hat]
      exact hleast other hother hlater
  have hfirst : atMinute first = atMinute first' := h.start.symm.trans h'.start
  refine ⟨le_antisymm (atMinute_le_iff.mp hfirst.le) (atMinute_le_iff.mp hfirst.ge), ?_⟩
  cases hstop : stop with
  | none =>
    cases hstop' : stop' with
    | none => rfl
    | some n' =>
      obtain ⟨n, hn, -⟩ := hle h' h n' hstop'
      rw [hstop] at hn
      cases hn
  | some n =>
    obtain ⟨n', hn', hge⟩ := hle h h' n hstop
    obtain ⟨n'', hn'', hle'⟩ := hle h' h n' hn'
    rw [hstop] at hn''
    cases hn''
    rw [Option.mem_def.mp hn', le_antisymm hge hle']

/-! ## Held keys -/

/-- The held key is a key of the schedule that had started by the clock, held up to the minute
before the next start where there is one. -/
structure HeldAs (s : PublicKeySchedule) (clock : Moment) (k : HeldKey) (key : DatedPublicKey)
    (stop : Option Nat) : Prop where
  pem : k.pem = key.publicKeyPem
  started : key.startsAt ≤ clock
  minutes : MinutesInForce s key k.first stop
  ordered : k.first ≤ k.last
  ends : ∀ n ∈ stop, k.explicit = true ∧ k.last + 1 = n
  openEnded : stop = none → k.explicit = false ∧ k.openEnded = true

def OnSchedule (s : PublicKeySchedule) (clock : Moment) (k : HeldKey) : Prop :=
  ∃ key stop, HeldAs s clock k key stop

theorem OnSchedule.mono {clock clock' : Moment} {k : HeldKey} (h : OnSchedule s clock k)
    (hle : clock ≤ clock') : OnSchedule s clock' k := by
  obtain ⟨key, stop, hk⟩ := h
  exact ⟨key, stop, hk.pem, hk.started.trans hle, hk.minutes, hk.ordered, hk.ends, hk.openEnded⟩

/-- The key is answered with as the creator stated it. -/
theorem HeldAs.stated_eq {clock : Moment} {k : HeldKey} {key : DatedPublicKey} {stop : Option Nat}
    (h : HeldAs s clock k key stop) :
    k.stated = KeyAnswer.stated key.publicKeyPem (some k.first) stop := by
  rw [← h.pem]
  cases hstop : stop with
  | none =>
    obtain ⟨hexplicit, hopen⟩ := h.openEnded hstop
    simp only [HeldKey.stated, hexplicit, hopen, KeyAnswer.stated]
    rfl
  | some n =>
    obtain ⟨hexplicit, hlast⟩ := h.ends n hstop
    have hlt : k.first < n := (h.minutes.next n hstop).1
    have hend : n - 1 = k.last := by omega
    simp only [HeldKey.stated, hexplicit, KeyAnswer.stated, hlt, if_true, hend]

/-- The key is in force at every minute it is held for. -/
theorem HeldAs.inForce {clock : Moment} {k : HeldKey} {key : DatedPublicKey} {stop : Option Nat}
    (h : HeldAs s clock k key stop) {minute : Nat} (hfrom : k.first ≤ minute)
    (hto : minute ≤ k.last) : s.InForceAt (atMinute minute) key := by
  apply h.minutes.inForce hfrom
  intro n hn
  have := (h.ends n hn).2
  omega

/-- **An answer of the creator is held on the schedule.** -/
theorem onSchedule_key (hs : s.Regular) {clock asked now : Moment} {pem : String}
    {minute start stop : Option Nat} {recent : Bool} {span : Span}
    (htells : TellsKeyInForce s asked pem start stop)
    (hasked : asked ≤ clock) (hspan : heldSpan now minute recent start stop = some span) :
    OnSchedule s clock (span.key pem) := by
  have hordered := (heldSpan_wf hspan).1
  obtain ⟨key, first, hkey, rfl, rfl, hminutes⟩ := htells.minutes hs
  cases hstop : stop with
  | none =>
    rw [hstop] at hspan hminutes
    cases hspan
    exact ⟨key, none, rfl, hkey.started.trans hasked, hminutes, hordered, by simp, fun _ => ⟨rfl, rfl⟩⟩
  | some n =>
    rw [hstop] at hspan hminutes
    have hlt := (hminutes.next n rfl).1
    rw [heldSpan] at hspan
    simp only [hlt, if_true] at hspan
    cases hspan
    refine ⟨key, some n, rfl, hkey.started.trans hasked, hminutes, hordered, ?_, by simp⟩
    rintro _ ⟨⟩
    refine ⟨rfl, ?_⟩
    show n - 1 + 1 = n
    omega

/-- **A key widened by an answer stays on the schedule.** -/
theorem onSchedule_joined (hs : s.Regular) {clock : Moment} {k : HeldKey} {span : Span}
    (hk : OnSchedule s clock k) (hspan : OnSchedule s clock (span.key k.pem)) :
    OnSchedule s clock (k.joined span) := by
  obtain ⟨key, stop, hk⟩ := hk
  obtain ⟨key', stop', hspan⟩ := hspan
  -- one PEM is one key, stated once
  have hsame : key = key' := hs.pems hk.minutes.mem hspan.minutes.mem (hk.pem.symm.trans hspan.pem)
  subst hsame
  obtain ⟨hfirst, hstop⟩ := hk.minutes.unique hspan.minutes
  subst hstop
  change k.first = span.first at hfirst
  have hordered := hk.ordered
  have hspanOrdered : span.first ≤ span.last := hspan.ordered
  have hjoined : (k.joined span).first = k.first := by
    simp only [HeldKey.joined]
    omega
  refine ⟨key, stop, hk.pem, hk.started, ?_, ?_, ?_, ?_⟩
  · rw [hjoined]
    exact hk.minutes
  · simp only [HeldKey.joined]
    omega
  · intro n hn
    obtain ⟨hexplicit, hlast⟩ := hk.ends n hn
    have hspanLast : span.last + 1 = n := (hspan.ends n hn).2
    simp only [HeldKey.joined, hexplicit, Bool.true_or, true_and]
    omega
  · intro hnone
    obtain ⟨hexplicit, hopen⟩ := hk.openEnded hnone
    have hspanExplicit : span.explicit = false := (hspan.openEnded hnone).1
    simp only [HeldKey.joined, hexplicit, hspanExplicit, hopen, Bool.or_self, Bool.not_false,
      Bool.true_or, Bool.and_self, and_self]

/-! ## Earlier verifications -/

namespace Timed

/-- The events considered: a creator whose schedule stays, whose clock does not go back and who
answers for the end point as `public_key_response_at` does, and whatever else. -/
def Considers (p : P256) (ch : Chrono) (E : String) (t : Timed) : TimedEvent → Prop
  | .tick creator _ => t.creator ≤ creator
  | .publish _ => False
  | .sys (.respond c response) => ∀ caller, t.sys.callers c = some caller →
    endPointOf caller.url = E → StatesSpan p ch t.schedule caller.url t.creator response
  | .sys _ => True

/-- An answer not yet recorded states a key in force by the creator's clock. -/
def TellsByClock (s : PublicKeySchedule) (t : Timed) (r : Reading) : Prop :=
  ∃ asked ≤ t.creator, TellsKeyInForce s asked r.pem r.start r.stop

structure Steadfast (s : PublicKeySchedule) (E : String) (t : Timed) : Prop where
  wf : t.sys.Wf
  schedule : t.schedule = s
  cache : CacheInv E (TellsByClock s) (fun t k => OnSchedule s t.creator k) t

theorem askedAt_le (url : String) (now : Moment) : askedAt url now ≤ now := by
  unfold askedAt
  split
  · exact min_le_right _ _
  · exact le_refl now

/-- **An event considered keeps what is held on the schedule.** -/
theorem steadfast_next (hch : ch.Sound) (hs : s.Regular) {t : Timed} (h : Steadfast s E t)
    {e : TimedEvent} (hconsiders : Considers p ch E t e) : Steadfast s E (t.next p ch e) := by
  refine ⟨wf_next h.wf e, ?_, ?_⟩
  · cases e with
    | tick => exact h.schedule
    | publish => exact absurd hconsiders id
    | sys e => rw [next_sys_schedule, h.schedule]
  · cases e with
    | tick creator here =>
      refine ⟨?_, ?_⟩
      · intro c caller r hc hr hE
        obtain ⟨asked, hasked, htells⟩ := h.cache.answered c caller r hc hr hE
        exact ⟨asked, le_trans hasked hconsiders, htells⟩
      · intro k hk
        exact (h.cache.held k hk).mono hconsiders
    | publish => exact absurd hconsiders id
    | sys e =>
      rw [next]
      cases hstep : System.step p ch t.sys e with
      | none => exact h.cache
      | some u =>
        refine cacheInv_after h.wf h.cache (System.moves_of_step hstep) ?_
        refine ⟨fun _ _ hr => hr, fun _ hk => hk, ?_, ?_⟩
        · intro c caller response r he hc _ hurl _ hE hread _
          subst he
          have hstates := hconsiders caller hc (hurl ▸ hE)
          rw [h.schedule, ← hurl] at hstates
          exact ⟨_, askedAt_le r.url t.creator, tells_of_statesSpan hch hs hstates hread⟩
        · rintro c now caller r span - hc hr hE ⟨asked, hasked, htells⟩ hspan
          have hnew : OnSchedule s t.creator (span.key r.pem) :=
            onSchedule_key hs htells hasked hspan
          refine ⟨hnew, ?_⟩
          intro key _ hheld hpem
          exact onSchedule_joined hs hheld (hpem ▸ hnew)

/-- What the callers can reach beside the creator, each of them at any point of its work. -/
def ReachedBeside (p : P256) (ch : Chrono) (s : PublicKeySchedule) (E : String) (t : Timed) :
    Prop :=
  ∃ creator here events, AllSteps (next p ch) (Considers p ch E) (start s creator here) events ∧
    t = events.foldl (next p ch) (start s creator here)

/-- **Whatever the callers did, what is held is on the schedule.** -/
theorem onSchedule_of_reached (hch : ch.Sound) (hs : s.Regular) {t : Timed}
    (h : ReachedBeside p ch s E t) : ∀ k ∈ t.sys.cache.heldAt E, OnSchedule s t.creator k := by
  obtain ⟨creator, here, events, hsteps, rfl⟩ := h
  have hstart : Steadfast s E (start s creator here) :=
    ⟨System.wf_init, rfl, cacheInv_start s creator here⟩
  have hrun : AllStates (next p ch) (Steadfast s E) (start s creator here) events :=
    allStates_of_allSteps (fun _ _ ht hconsiders => steadfast_next hch hs ht hconsiders) events _
      hstart hsteps
  exact hrun.last.cache.held

end Timed

/-! ## A key obtained -/

/-- What the end point answers a transport delivers, by a clock that never goes back. -/
structure Delivers (p : P256) (ch : Chrono) (s : PublicKeySchedule) (E : String)
    (creatorAt : Nat → Moment) (env : Surroundings) : Prop where
  forward : Monotone creatorAt
  delivered : ∀ n url status body, endPointOf url = E →
    publicKeyResponseAt p ch s (queryValue formatParameter url) (queryValue dateParameter url)
      (creatorAt n) = .ok (status, body) → env.transport n url = .ok ⟨status, body⟩

/-- A creator of readable keys answers every request. -/
theorem PublicKeySchedule.Steady.publicKeyResponseAt_isOk (hs : s.Steady p) (ch : Chrono)
    (format date : Option String) (now : Moment) :
    ∃ status body, publicKeyResponseAt p ch s format date now = .ok (status, body) := by
  cases hformat : servesFormat format with
  | false => exact ⟨400, "", by rw [publicKeyResponseAt, hformat]; rfl⟩
  | true =>
    cases hasked : askedMoment date now with
    | none => exact ⟨400, "", by rw [publicKeyResponseAt, hformat, hasked]; rfl⟩
    | some asked =>
      cases hkey : s.keyInForce asked with
      | none =>
        refine ⟨404, "", ?_⟩
        unfold publicKeyResponseAt
        simp only [hformat, Bool.not_true, Bool.false_eq_true, if_false, hasked, hkey]
      | some key =>
        have hinForce := PublicKeySchedule.keyInForce_eq_some hkey
        exact ⟨200, _, publicKeyResponseAt_of_inForce hs.regular.starts hformat hasked hinForce
          (hs.readable key hinForce.mem)⟩

variable {creatorAt : Nat → Moment} {env : Surroundings} {φ : Type}

theorem Delivers.statesSpan (hs : s.Steady p) (h : Delivers p ch s E creatorAt env) (n : Nat)
    {url : String} (hE : endPointOf url = E) :
    StatesSpan p ch s url (creatorAt n) (env.transport n url) := by
  obtain ⟨status, body, hresponse⟩ := hs.publicKeyResponseAt_isOk ch
    (queryValue formatParameter url) (queryValue dateParameter url) (creatorAt n)
  rw [h.delivered n url status body hE hresponse]
  exact .stated hresponse

/-- Every key held is on the schedule, by the creator's clock at the next request. -/
def HeldOnSchedule (s : PublicKeySchedule) (E : String) (creatorAt : Nat → Moment)
    (w : World φ) : Prop :=
  ∀ k ∈ w.cache.heldAt E, OnSchedule s (creatorAt w.requests) k

/-- The answer is the key in force at the moment, which had started by the clock, in full. -/
structure Selected (s : PublicKeySchedule) (clock moment : Moment) (answer : KeyAnswer)
    (key : DatedPublicKey) (first : Nat) (stop : Option Nat) : Prop where
  answer_eq : answer = KeyAnswer.stated key.publicKeyPem (some first) stop
  minutes : MinutesInForce s key first stop
  started : key.startsAt ≤ clock
  inForce : s.InForceAt moment key

/-- Recording an answer of the creator keeps what is held on the schedule. -/
theorem onSchedule_hold (hs : s.Regular) {c : Cache φ} {clock asked now : Moment} {pem : String}
    {minute start stop : Option Nat} {recent : Bool}
    (h : ∀ k ∈ c.heldAt E, OnSchedule s clock k) (htells : TellsKeyInForce s asked pem start stop)
    (hasked : asked ≤ clock) :
    ∀ k ∈ (c.hold now E minute recent pem start stop).1.heldAt E, OnSchedule s clock k := by
  intro k hk
  rcases Cache.mem_heldAt_hold hk with hk | ⟨span, hspan, -, hnew⟩
  · exact h k hk
  · have hkey : OnSchedule s clock (span.key pem) := onSchedule_key hs htells hasked hspan
    rcases hnew with ⟨key, hheld, hpem, rfl⟩ | rfl
    · exact onSchedule_joined hs (h key hheld) (hpem ▸ hkey)
    · exact hkey

/-- A key held on the schedule for a minute is the one in force at it. -/
theorem selected_of_held {c : Cache φ} {clock : Moment} (h : ∀ k ∈ c.heldAt E, OnSchedule s clock k)
    {minute : Nat} {recent : Bool} {answer : KeyAnswer}
    (hheld : c.heldFor E minute recent = some answer) :
    ∃ key first stop, Selected s clock (atMinute minute) answer key first stop := by
  obtain ⟨k, hk, hfrom, hto, -, rfl⟩ := Cache.heldFor_eq_some hheld
  obtain ⟨key, stop, hkey⟩ := h k hk
  exact ⟨key, k.first, stop, hkey.stated_eq, hkey.minutes, hkey.started, hkey.inForce hfrom hto⟩

/-- What a caller working by itself leaves: keys on the schedule, and no request taken back. -/
structure Leaves (s : PublicKeySchedule) (E : String) (creatorAt : Nat → Moment)
    (w next : World φ) : Prop where
  held : HeldOnSchedule s E creatorAt next
  requests : w.requests ≤ next.requests

section Obtained

variable {url : String} {w : World φ}

/-- A fetch obtains the key in force at the moment asked about. -/
theorem fetchKey_selected (hch : ch.Sound) (hs : s.Steady p) (hd : Delivers p ch s E creatorAt env)
    (hE : endPointOf url = E) (recent : Bool) (hw : HeldOnSchedule s E creatorAt w) :
    Leaves s E creatorAt w (fetchKey p ch env url recent w).2 ∧
      ∀ answer, (fetchKey p ch env url recent w).1 = .ok answer → ∃ key first stop,
        Selected s (creatorAt w.requests) (askedAt url (creatorAt w.requests)) answer key first
          stop := by
  have hclock : creatorAt w.requests ≤ creatorAt (w.requests + 1) := hd.forward (Nat.le_succ _)
  unfold fetchKey
  cases hread : requestPublicKey p ch url (env.transport w.requests url) with
  | error e =>
    refine ⟨⟨fun k hk => (hw k hk).mono hclock, Nat.le_succ _⟩, ?_⟩
    intro answer h
    cases h
  | ok read =>
    obtain ⟨pem, start, stop⟩ := read
    have htells := tells_of_statesSpan hch hs.regular (hd.statesSpan hs w.requests hE) hread
    have hasked := Timed.askedAt_le url (creatorAt w.requests)
    refine ⟨⟨?_, Nat.le_succ _⟩, ?_⟩
    · intro k hk
      subst hE
      exact (onSchedule_hold hs.regular hw htells hasked k hk).mono hclock
    · intro answer h
      obtain ⟨key, first, hkey, rfl, rfl, hminutes⟩ := htells.minutes hs.regular
      refine ⟨key, first, stop, ?_, hminutes, hkey.started.trans hasked, hkey⟩
      rw [← Except.ok.inj h, Cache.hold_snd]

/-- **A key obtained for a URL is the one in force at its minute, or at the moment it was asked
for.** -/
theorem keyAtUrl_selected (hch : ch.Sound) (hs : s.Steady p) (hd : Delivers p ch s E creatorAt env)
    (hE : endPointOf url = E) (hw : HeldOnSchedule s E creatorAt w) :
    Leaves s E creatorAt w (keyAtUrl p ch env url w).2 ∧
      ∀ answer, (keyAtUrl p ch env url w).1 = .ok answer → ∃ moment key first stop,
        ((∃ minute, minuteOf url = some minute ∧ moment = atMinute minute) ∨
          moment = askedAt url (creatorAt w.requests)) ∧
        Selected s (creatorAt w.requests) moment answer key first stop := by
  by_cases hheld : ∃ minute answer, minuteOf url = some minute ∧
      w.cache.heldFor (endPointOf url) minute (isRecent env w (some minute)) = some answer
  · obtain ⟨minute, found, hminute, hheld⟩ := hheld
    rw [keyAtUrl_of_held hminute hheld]
    refine ⟨⟨hw, le_refl _⟩, ?_⟩
    rintro answer ⟨⟩
    rw [hE] at hheld
    obtain ⟨key, first, stop, hselected⟩ := selected_of_held hw hheld
    exact ⟨_, key, first, stop, .inl ⟨minute, hminute, rfl⟩, hselected⟩
  · push Not at hheld
    have hnone : ∀ minute, minuteOf url = some minute →
        w.cache.heldFor (endPointOf url) minute (isRecent env w (minuteOf url)) = none := by
      intro minute hminute
      rw [hminute, Option.eq_none_iff_forall_ne_some]
      exact fun answer => hheld minute answer hminute
    rw [keyAtUrl_of_not_held hnone]
    obtain ⟨hleaves, hanswer⟩ := fetchKey_selected hch hs hd hE (isRecent env w (minuteOf url))
      (w := { w with readings := w.readings + 1 }) hw
    refine ⟨⟨hleaves.held, hleaves.requests⟩, ?_⟩
    intro answer h
    obtain ⟨key, first, stop, hselected⟩ := hanswer answer h
    exact ⟨_, key, first, stop, .inr rfl, hselected⟩

/-- The parameters of a URL built for a minute, as a creator's server reads them. -/
theorem queryValue_keyUrlAt (hE : '?' ∉ E.toList) (minute : Nat) :
    queryValue formatParameter (keyUrlAt E minute) = some SPKI_FORMAT ∧
      queryValue dateParameter (keyUrlAt E minute) = some (String.ofList (decimal minute)) := by
  obtain ⟨query, hsplit, hparameters⟩ :=
    Option.map_eq_some_iff.mp (queryParameters_keyUrlAt hE minute)
  unfold queryValue
  rw [hsplit, Option.bind_some, Option.bind_some, hparameters]
  refine ⟨?_, ?_⟩
  · have hdate : stripStart formatParameter (dateParameter ++ decimal minute) = none := rfl
    have hformat : stripStart formatParameter FORMAT_QUERY.toList = some SPKI_FORMAT.toList := by
      decide +kernel
    rw [List.findSome?_cons, hdate, List.findSome?_cons, hformat]
    simp
  · rw [List.findSome?_cons, stripStart_append]
    rfl

/-- **A key is obtained for every minute some key had started by.** -/
theorem keyAtUrl_isOk (hch : ch.Sound) (hs : s.Steady p) (hd : Delivers p ch s E creatorAt env)
    (hE : '?' ∉ E.toList) {minute : Nat} (hminute : minute ≤ u32Max)
    {key : DatedPublicKey} (hkey : key ∈ s.keys) (hfrom : key.startsAt ≤ atMinute minute)
    (hstarted : key.startsAt ≤ creatorAt w.requests) :
    ∃ answer, (keyAtUrl p ch env (keyUrlAt E minute) w).1 = .ok answer := by
  have hasks := minuteOf_keyUrlAt hE hminute
  cases hheld : w.cache.heldFor (endPointOf (keyUrlAt E minute)) minute
      (isRecent env w (some minute)) with
  | some answer => exact ⟨answer, by rw [keyAtUrl_of_held hasks hheld]⟩
  | none =>
    have hnone : ∀ n, minuteOf (keyUrlAt E minute) = some n →
        w.cache.heldFor (endPointOf (keyUrlAt E minute)) n
          (isRecent env w (minuteOf (keyUrlAt E minute))) = none := by
      intro n hn
      rw [hasks] at hn ⊢
      cases hn
      exact hheld
    obtain ⟨hformat, hdate⟩ := queryValue_keyUrlAt hE minute
    have hasked : askedMoment (queryValue dateParameter (keyUrlAt E minute))
        (creatorAt w.requests) = some (min (atMinute minute) (creatorAt w.requests)) := by
      rw [hdate, askedMoment_decimal hminute]
    obtain ⟨selected, hselected⟩ : ∃ selected,
        s.InForceAt (min (atMinute minute) (creatorAt w.requests)) selected := by
      cases hchosen : s.keyInForce (min (atMinute minute) (creatorAt w.requests)) with
      | some selected => exact ⟨selected, PublicKeySchedule.keyInForce_eq_some hchosen⟩
      | none =>
        have hlater := PublicKeySchedule.keyInForce_eq_none hchosen key hkey
        exact absurd hlater (not_lt.mpr (le_min hfrom hstarted))
    have hreadable := hs.readable selected hselected.mem
    have hserves : servesFormat (queryValue formatParameter (keyUrlAt E minute)) = true := by
      rw [hformat]
      decide
    have hdelivered := hd.delivered w.requests _ _ _ (endPointOf_keyUrlAt hE minute)
      (publicKeyResponseAt_of_inForce hs.regular.starts hserves hasked hselected hreadable)
    rw [keyAtUrl_of_not_held hnone, fetchKey_of_parse (w := { w with readings := w.readings + 1 })
      hdelivered (hs.regular.parse_answerFor hch hselected.mem)
      (validate_answerFor_none hselected hreadable)]
    exact ⟨_, rfl⟩

end Obtained

end OwidRust
