import OwidRust.Fetch.Creator

/-!
# The cache of a rotating creator's keys

Callers beside a creator with a fixed schedule, whose clock never goes back and stays within the
drift allowance of the local clock.  Calls for other end points, their answers, dropped callers and
`clear_cache` come as they like, and so do evictions.

* `SpanInForce` — every minute a key is held for is one it is in force at;
* `spanInForce_key`, `spanInForce_joined` — an honest answer is held so, and widening keeps it;
* `atMinute_le_creator`, `atMinute_le_of_not_recent` — a minute not recent is past for the creator;
* `allStates_transparent` — a caller served a held key, or answered by a fetch the creator answered
  from that minute on, has the key in force at the minute it asked for.
-/

namespace OwidRust

open Periods Runs

variable {p : P256} {ch : Chrono} {s : PublicKeySchedule}

/-- The PEM of the key in force. -/
abbrev PublicKeySchedule.PemAt (s : PublicKeySchedule) (moment : Moment) (pem : String) : Prop :=
  LabelAt {key | key ∈ s.keys} DatedPublicKey.startsAt DatedPublicKey.publicKeyPem moment pem

/-- The code's own choice of the key in force. -/
theorem PublicKeySchedule.Regular.keyInForce_pem (hs : s.Regular) {moment : Moment} {pem : String}
    (h : s.PemAt moment pem) : (s.keyInForce moment).map DatedPublicKey.publicKeyPem = some pem := by
  obtain ⟨key, hkey, rfl⟩ := h
  rw [(PublicKeySchedule.keyInForce_eq_some_iff hs.starts).mpr hkey]
  rfl

/-! ## Held spans -/

/-- Every minute the key is held for is one it is in force at. -/
structure SpanInForce (s : PublicKeySchedule) (k : HeldKey) : Prop where
  ordered : k.first ≤ k.last
  inForce : ∀ minute, k.first ≤ minute → minute ≤ k.last → s.PemAt (atMinute minute) k.pem

/-- **A span whose ends a key is in force at is one it is in force throughout.** -/
theorem spanInForce_joined (hs : s.Regular) {key : HeldKey} {span : Span}
    (hkey : SpanInForce s key) (hspan : SpanInForce s (span.key key.pem)) :
    SpanInForce s (key.joined span) := by
  have hspanOrdered : span.first ≤ span.last := hspan.ordered
  have hkeyOrdered := hkey.ordered
  have hfirst : s.PemAt (atMinute (min span.first key.first)) key.pem := by
    rcases le_total span.first key.first with hle | hle
    · rw [min_eq_left hle]
      exact hspan.inForce _ (le_refl _) hspanOrdered
    · rw [min_eq_right hle]
      exact hkey.inForce _ (le_refl _) hkeyOrdered
  have hlast : s.PemAt (atMinute (max span.last key.last)) key.pem := by
    rcases le_total span.last key.last with hle | hle
    · rw [max_eq_right hle]
      exact hkey.inForce _ hkeyOrdered (le_refl _)
    · rw [max_eq_left hle]
      exact hspan.inForce _ hspanOrdered (le_refl _)
  refine ⟨?_, ?_⟩
  · simp only [HeldKey.joined]
    omega
  · intro minute hfrom hto
    exact (ordConnected_labelAt hs.pems _ key.pem).out hfirst hlast
      ⟨atMinute_le_iff.mpr hfrom, atMinute_le_iff.mpr hto⟩

/-- What is known of an answer: what it states is the schedule's, and an answer that states nothing
is the key in force at the moment asked about. -/
structure Genuine (s : PublicKeySchedule) (asked : Moment) (r : Reading) : Prop where
  tells : TellsKeyInForce s asked r.pem r.start r.stop ∨ r.start = none ∧ r.stop = none
  inForce : s.PemAt asked r.pem

theorem genuine_of_honest (hch : ch.Sound) (hs : s.Regular) {now : Moment}
    {response : Except Error FetchResponse} {r : Reading} (h : Honest p ch s r.url now response)
    (hread : requestPublicKey p ch r.url response = .ok (r.pem, r.start, r.stop)) :
    Genuine s (askedAt r.url now) r := by
  rcases tells_of_honest hch hs h hread with htells | ⟨⟨key, hkey, hpem⟩, hnone⟩
  · have ⟨key, hkey, hpem, _⟩ := htells
    exact ⟨.inl htells, key, hkey, hpem.symm⟩
  · exact ⟨.inr hnone, key, hkey, hpem.symm⟩

/-- **A genuine answer is held for minutes its key is in force at**, where a minute held on its own
was past when it was answered. -/
theorem spanInForce_key (hs : s.Regular) {answeredAt now : Moment} {r : Reading} {span : Span}
    (h : Genuine s (askedAt r.url answeredAt) r)
    (hpast : r.recent = false → ∀ minute, minuteOf r.url = some minute →
      atMinute minute ≤ answeredAt)
    (hspan : heldSpan now (minuteOf r.url) r.recent r.start r.stop = some span) :
    SpanInForce s (span.key r.pem) := by
  refine ⟨(heldSpan_wf hspan).1, ?_⟩
  intro minute hfrom hto
  change span.first ≤ minute at hfrom
  change minute ≤ span.last at hto
  rcases h.tells with htells | ⟨hstart, hstop⟩
  · obtain ⟨key, first, -, hpem, hstart, hminutes⟩ := htells.minutes hs
    have hin : first ≤ minute → (∀ n ∈ r.stop, minute < n) →
        s.PemAt (atMinute minute) (span.key r.pem).pem :=
      fun h₁ h₂ => ⟨key, hminutes.inForce h₁ h₂, hpem.symm⟩
    rw [hstart] at hspan
    cases hstop : r.stop with
    | none =>
      rw [hstop] at hspan
      cases hspan
      exact hin hfrom (by rw [hstop]; nofun)
    | some n =>
      obtain ⟨hlt, -⟩ := hminutes.next n hstop
      rw [hstop, heldSpan] at hspan
      simp only [hlt, if_true] at hspan
      cases hspan
      refine hin hfrom ?_
      rw [hstop]
      rintro _ ⟨⟩
      change minute ≤ n - 1 at hto
      omega
  · rw [hstart, hstop] at hspan
    cases hasked : minuteOf r.url with
    | none =>
      rw [hasked] at hspan
      cases hspan
    | some asked =>
      rw [hasked, heldSpan] at hspan
      split at hspan
      · cases hspan
      · rename_i hrecent
        cases hspan
        have hminute : minute = asked := le_antisymm hto hfrom
        have hmoment : askedAt r.url answeredAt = atMinute minute := by
          rw [askedAt, hasked, hminute]
          exact min_eq_left (hpast (by simpa using hrecent) asked hasked)
        exact hmoment ▸ h.inForce

/-! ## The clocks -/

/-- The clocks differ by no more than the drift allowance. -/
def WithinDrift (a b : Moment) : Prop :=
  a.since b ≤ CLOCK_DRIFT_ALLOWANCE_MINUTES * minuteNanos ∧
    b.since a ≤ CLOCK_DRIFT_ALLOWANCE_MINUTES * minuteNanos

/-- **A minute the allowance behind the local clock is past for the creator.** -/
theorem atMinute_le_creator {creator here : Moment} {minute : Nat}
    (hdrift : WithinDrift creator here) (hbase : baseDate ≤ here)
    (h : minute + CLOCK_DRIFT_ALLOWANCE_MINUTES ≤ nowMinute here) : atMinute minute ≤ creator := by
  -- the local clock is the allowance past the minute
  have hlocal : atMinute (minute + CLOCK_DRIFT_ALLOWANCE_MINUTES) ≤ here := by
    unfold nowMinute at h
    cases hcount : minutesSinceBase here with
    | none =>
      rw [hcount, Option.getD_none] at h
      refine le_trans (atMinute_le_iff.mpr ?_) ((minutesSinceBase_eq_none_iff hbase).mp hcount)
      omega
    | some n =>
      rw [hcount, Option.getD_some] at h
      exact (atMinute_le_iff.mpr h).trans ((minutesSinceBase_eq_some_iff hbase).mp hcount).1
  have hgap := hdrift.2
  simp only [Moment.le_def, atMinute_nanos, Moment.since, minuteNanos,
    CLOCK_DRIFT_ALLOWANCE_MINUTES] at hlocal hgap ⊢
  push_cast at hlocal hgap
  omega

/-- **A minute not recent is past for the creator.** -/
theorem atMinute_le_of_not_recent {creator here : Moment} {minute : Nat}
    (hdrift : WithinDrift creator here) (hhere : atMinute CLOCK_DRIFT_ALLOWANCE_MINUTES ≤ here)
    (h : recent here minute = false) : atMinute minute ≤ creator := by
  have hbase : baseDate ≤ here := (baseDate_le_atMinute _).trans hhere
  have hbefore : minute ≤ nowMinute here - CLOCK_DRIFT_ALLOWANCE_MINUTES := by
    simpa [recent] using h
  have hallowance : CLOCK_DRIFT_ALLOWANCE_MINUTES ≤ nowMinute here := by
    unfold nowMinute
    cases hcount : minutesSinceBase here with
    | none =>
      simp only [Option.getD_none, CLOCK_DRIFT_ALLOWANCE_MINUTES, u32Max]
      omega
    | some n =>
      have hlt := ((minutesSinceBase_eq_some_iff hbase).mp hcount).2.1
      have := atMinute_lt_iff.mp (hhere.trans_lt hlt)
      rw [Option.getD_some]
      omega
  exact atMinute_le_creator hdrift hbase (by omega)

/-! ## What may happen -/

/-- What a caller is about to return where it made a fetch itself. -/
def Phase.outcome : Phase → Option Outcome
  | .leaving _ outcome | .removed _ outcome => outcome
  | _ => none

namespace Timed

/-- The events considered: clocks that keep to the drift allowance, a schedule that stays, readings
of the local clock as it stands, and honest answers for the end point. -/
def Allowed (p : P256) (ch : Chrono) (E : String) (t : Timed) : TimedEvent → Prop
  | .tick creator here => t.creator ≤ creator ∧ WithinDrift creator here ∧
    atMinute CLOCK_DRIFT_ALLOWANCE_MINUTES ≤ here
  | .publish _ => False
  | .sys (.call _ _ now) => now = t.here
  | .sys (.record _ now) => now = t.here
  | .sys (.respond c response) => ∀ caller, t.sys.callers c = some caller →
    endPointOf caller.url = E → Honest p ch t.schedule caller.url t.creator response
  | .sys _ => True

/-- An answer not yet recorded is genuine, and was past when it was given if its caller holds it so. -/
def AnswerGenuine (s : PublicKeySchedule) (t : Timed) (r : Reading) : Prop :=
  Genuine s (askedAt r.url (t.answeredAt r.flight)) r ∧
    (r.recent = false → ∀ minute, minuteOf r.url = some minute →
      atMinute minute ≤ t.answeredAt r.flight)

structure Faithful (s : PublicKeySchedule) (E : String) (t : Timed) : Prop where
  wf : t.sys.Wf
  schedule : t.schedule = s
  drift : WithinDrift t.creator t.here
  here : atMinute CLOCK_DRIFT_ALLOWANCE_MINUTES ≤ t.here
  past : ∀ c caller minute, t.sys.callers c = some caller → caller.recent = false →
    minuteOf caller.url = some minute → atMinute minute ≤ t.creator
  cache : CacheInv E (AnswerGenuine s) (fun _ k => SpanInForce s k) t
  carried : ∀ c caller f answer, t.sys.callers c = some caller → caller.phase.owns = some f →
    caller.phase.outcome = some (.ok answer) → endPointOf caller.url = E →
    s.PemAt (askedAt caller.url (t.answeredAt f)) answer.pem
  ends : ∀ f answer, f < t.sys.nextFlight → (t.sys.flights f).outcome = some (.ok answer) →
    endPointOf (t.sys.flights f).url = E →
    s.PemAt (askedAt (t.sys.flights f).url (t.answeredAt f)) answer.pem
  served : ∀ c caller sources answer minute, t.sys.callers c = some caller →
    caller.phase = .returned (.held sources) (.ok answer) → endPointOf caller.url = E →
    minuteOf caller.url = some minute → s.PemAt (atMinute minute) answer.pem

variable {E : String} {t : Timed} {e : Event} {u : System}

/-- The fetch answered by an event is one whose request is under way. -/
theorem answers_of_moves (hm : System.Moves p ch t.sys e u) {f : Nat}
    (h : t.answers e = some f) :
    ∃ c caller, t.sys.callers c = some caller ∧ caller.phase.owns = some f ∧
      caller.phase.outcome = none := by
  cases hm with
  | @respond c caller g response hc hp =>
    rw [answers, hc, Option.bind_some, hp] at h
    cases h
    exact ⟨c, caller, hc, by rw [hp]; rfl, by rw [hp]; rfl⟩
  | _ => cases h

/-- What a leader is about to return keeps the moment it was answered at. -/
theorem answeredAt_of_carried (hs : t.sys.Wf) (hm : System.Moves p ch t.sys e u) {c f : Nat}
    {caller : Caller} {outcome : Outcome} (hc : t.sys.callers c = some caller)
    (ho : caller.phase.owns = some f) (hcarry : caller.phase.outcome = some outcome) :
    (t.after e u).answeredAt f = t.answeredAt f := by
  apply answeredAt_after
  intro hanswers
  obtain ⟨c', other, hc', hother, hnone⟩ := answers_of_moves hm hanswers
  cases hs.owner _ _ _ _ f hc hc' ho hother
  cases hc.symm.trans hc'
  rw [hcarry] at hnone
  cases hnone

/-- So does what a fetch ended with. -/
theorem answeredAt_of_ended (hs : t.sys.Wf) (hm : System.Moves p ch t.sys e u) {f : Nat}
    {outcome : Outcome} (h : (t.sys.flights f).outcome = some outcome) :
    (t.after e u).answeredAt f = t.answeredAt f := by
  apply answeredAt_after
  intro hanswers
  obtain ⟨c, caller, hc, ho, -⟩ := answers_of_moves hm hanswers
  rw [hs.pending c caller f hc ho] at h
  cases h

theorem past_after (h : Faithful s E t) (hallow : Allowed p ch E t (.sys e))
    (hm : System.Moves p ch t.sys e u) : ∀ c caller minute, u.callers c = some caller →
      caller.recent = false → minuteOf caller.url = some minute → atMinute minute ≤ t.creator := by
  intro c caller minute hc hrecent hminute
  rcases System.caller_of_moves hm hc with ⟨before, hbefore, hurl, hsame⟩ | ⟨url, now, rfl, rfl⟩
  · exact h.past c before minute hbefore (hsame.trans hrecent) (hurl ▸ hminute)
  · have hnow : now = t.here := hallow
    subst hnow
    change minuteOf url = some minute at hminute
    rw [hminute] at hrecent
    exact atMinute_le_of_not_recent h.drift h.here hrecent

/-- **An event sustains what is known of answers and held keys.** -/
theorem sustains (hch : ch.Sound) (hs : s.Regular) (h : Faithful s E t)
    (hallow : Allowed p ch E t (.sys e)) :
    Sustains E (AnswerGenuine s) (fun _ k => SpanInForce s k) p ch t e u where
  keepsAnswer r hsame hr := by
    unfold AnswerGenuine at hr ⊢
    rwa [hsame]
  keepsKey _ hk := hk
  answer c caller response r he hc hphase hurl hrecent hE hread hnow := by
    subst he
    have hhonest := hallow caller hc (hurl ▸ hE)
    rw [h.schedule, ← hurl] at hhonest
    unfold AnswerGenuine
    rw [hnow]
    refine ⟨genuine_of_honest hch hs hhonest hread, ?_⟩
    intro hpast minute hminute
    exact h.past c caller minute hc (hrecent ▸ hpast) (hurl ▸ hminute)
  record c now caller r span he hc hr hE hgenuine hspan := by
    have hnew := spanInForce_key hs hgenuine.1 hgenuine.2 hspan
    refine ⟨hnew, ?_⟩
    intro key hkey hheld hpem
    exact spanInForce_joined hs hheld (hpem ▸ hnew)

theorem carried_after (h : Faithful s E t) (hm : System.Moves p ch t.sys e u) :
    ∀ c caller f answer, u.callers c = some caller → caller.phase.owns = some f →
      caller.phase.outcome = some (.ok answer) → endPointOf caller.url = E →
      s.PemAt (askedAt caller.url ((t.after e u).answeredAt f)) answer.pem := by
  intro c' caller' g answer hc' ho hcarry hE
  have hkept : t.sys.callers c' = some caller' →
      s.PemAt (askedAt caller'.url ((t.after e u).answeredAt g)) answer.pem := by
    intro hc
    rw [answeredAt_of_carried h.wf hm hc ho hcarry]
    exact h.carried c' caller' g answer hc ho hcarry hE
  cases hm with
  | clear | park => exact hkept hc'
  | @record c caller f now pem start stop hc hp =>
    rcases System.caller_cases hc' with ⟨rfl, rfl⟩ | ⟨-, hc'⟩
    · -- the key recorded is the one answered with
      have hr : caller.reading = some ⟨caller.url, caller.recent, f, pem, start, stop⟩ := by
        rw [Caller.reading, hp]
      have hgenuine := (h.cache.answered _ caller _ hc hr hE).1.inForce
      rw [Phase.outcome, Cache.hold_snd] at hcarry
      cases hcarry
      cases ho
      rw [KeyAnswer.stated_pem]
      exact hgenuine
    · exact hkept hc'
  | @release c caller f outcome hc hp =>
    rcases System.caller_cases hc' with ⟨rfl, rfl⟩ | ⟨-, hc'⟩
    · exact h.carried _ caller g answer hc (by rw [hp]; exact ho) (by rw [hp]; exact hcarry) hE
    · exact hkept hc'
  | @finish c caller f outcome hc hp =>
    rcases System.caller_cases hc' with ⟨rfl, rfl⟩ | ⟨-, hc'⟩
    · cases outcome <;> cases ho
    · exact hkept hc'
  | call | serve | join | elect | send | respond | fail | wake | retry | leave | abandon =>
    rcases System.caller_cases hc' with ⟨rfl, rfl⟩ | ⟨-, hc'⟩
    · cases hcarry
    · exact hkept hc'

theorem ends_after (h : Faithful s E t) (hm : System.Moves p ch t.sys e u) :
    ∀ f answer, f < u.nextFlight → (u.flights f).outcome = some (.ok answer) →
      endPointOf (u.flights f).url = E →
      s.PemAt (askedAt (u.flights f).url ((t.after e u).answeredAt f)) answer.pem := by
  intro g answer hlt hout hE
  have hk := System.keeps_of_moves h.wf hm
  have hkept : g < t.sys.nextFlight → (t.sys.flights g).outcome = some (.ok answer) →
      s.PemAt (askedAt (u.flights g).url ((t.after e u).answeredAt g)) answer.pem := by
    intro hg hbefore
    rw [answeredAt_of_ended h.wf hm hbefore, hk.url g hg]
    exact h.ends g answer hg hbefore (hk.url g hg ▸ hE)
  cases hm with
  | call | serve | join | respond | record | fail | release | wake | retry | leave | abandon
  | clear => exact hkept hlt hout
  | @elect c caller hc hp hheld hentry =>
    rcases Nat.lt_or_eq_of_le (Nat.le_of_lt_succ hlt) with hg | rfl
    · rw [System.flights_elect hg] at hout
      exact hkept hg hout
    · rw [System.flights_elect_new] at hout
      cases hout
  | send =>
    rw [System.outcome_send] at hout
    exact hkept hlt hout
  | park =>
    rw [System.outcome_park] at hout
    exact hkept hlt hout
  | @finish c caller f outcome hc hp =>
    by_cases hg : g = f
    · subst hg
      simp only [System.finish, Function.update_self] at hout
      obtain ⟨-, hurl, -⟩ := (h.wf.caller _ _ hc).flight g (by rw [hp]; rfl)
      rw [hk.url g hlt, hurl] at hE ⊢
      exact h.carried c caller g answer hc (by rw [hp]; rfl) (by rw [hp]; exact hout) hE
    · simp only [System.finish, Function.update_of_ne hg] at hout
      exact hkept hlt hout

theorem served_after (h : Faithful s E t) (hm : System.Moves p ch t.sys e u) :
    ∀ c caller sources answer minute, u.callers c = some caller →
      caller.phase = .returned (.held sources) (.ok answer) → endPointOf caller.url = E →
      minuteOf caller.url = some minute → s.PemAt (atMinute minute) answer.pem := by
  intro c caller sources answer minute hc hphase hE hminute
  rcases System.held_of_moves hm hc hphase with hbefore |
    ⟨before, held, -, hheld, hurl, -, -, hresult⟩
  · exact h.served c caller sources answer minute hbefore hphase hE hminute
  · cases hresult
    rw [hurl] at hE hminute
    obtain ⟨asked, hasked, hserved⟩ := Option.bind_eq_some_iff.mp hheld
    cases hasked.symm.trans hminute
    rw [hE] at hserved
    obtain ⟨k, hk, hfrom, hto, -, rfl⟩ := Cache.heldFor_eq_some hserved
    rw [HeldKey.stated_pem]
    exact (h.cache.held k hk).inForce minute hfrom hto

/-- **Faithfulness is kept.** -/
theorem faithful_next (hch : ch.Sound) (hs : s.Regular) (h : Faithful s E t) {e : TimedEvent}
    (hallow : Allowed p ch E t e) : Faithful s E (t.next p ch e) := by
  cases e with
  | publish key => exact hallow.elim
  | tick creator here =>
    obtain ⟨hle, hdrift, hhere⟩ := hallow
    refine ⟨h.wf, h.schedule, hdrift, hhere, ?_, ⟨h.cache.answered, h.cache.held⟩, h.carried,
      h.ends, h.served⟩
    intro c caller minute hc hrecent hminute
    exact (h.past c caller minute hc hrecent hminute).trans hle
  | sys e =>
    rw [next]
    cases hstep : System.step p ch t.sys e with
    | none => exact h
    | some u =>
      have hm := System.moves_of_step hstep
      have hwf := System.wf_of_moves h.wf hm
      have hpast := past_after h hallow hm
      have hcache := cacheInv_after h.wf h.cache hm (sustains hch hs h hallow)
      have hcarried := carried_after h hm
      have hends := ends_after h hm
      have hserved := served_after h hm
      exact ⟨hwf, h.schedule, h.drift, h.here, hpast, hcache, hcarried, hends, hserved⟩

theorem faithful_start {creator here : Moment} (hdrift : WithinDrift creator here)
    (hhere : atMinute CLOCK_DRIFT_ALLOWANCE_MINUTES ≤ here) :
    Faithful s E (start s creator here) where
  wf := System.wf_init
  schedule := rfl
  drift := hdrift
  here := hhere
  past c caller minute h := by
    simp [start, System.init] at h
  cache := cacheInv_start s creator here
  carried c caller f answer h := by
    simp [start, System.init] at h
  ends f answer h := absurd h (Nat.not_lt_zero f)
  served c caller sources answer minute h := by
    simp [start, System.init] at h

/-! ## Transparency -/

/-- A caller that asked the end point for a minute has the key in force at it where it was served a
held key, and where it was answered by a fetch the creator answered from that minute on. -/
def Transparent (E : String) (t : Timed) : Prop :=
  ∀ c caller minute answer, t.sys.callers c = some caller → endPointOf caller.url = E →
    minuteOf caller.url = some minute →
    (∀ sources, caller.phase = .returned (.held sources) (.ok answer) →
      (t.schedule.keyInForce (atMinute minute)).map DatedPublicKey.publicKeyPem =
        some answer.pem) ∧
    ∀ f, caller.phase = .returned (.fetched f) (.ok answer) →
      atMinute minute ≤ t.answeredAt f →
      (t.schedule.keyInForce (atMinute minute)).map DatedPublicKey.publicKeyPem = some answer.pem

theorem transparent_of_faithful (hs : s.Regular) (h : Faithful s E t) : Transparent E t := by
  intro c caller minute answer hc hE hminute
  rw [h.schedule]
  refine ⟨?_, ?_⟩
  · intro sources hphase
    exact hs.keyInForce_pem (h.served c caller sources answer minute hc hphase hE hminute)
  · intro f hphase hreached
    obtain ⟨outcome, hout, hresult⟩ := h.wf.ended c caller f _ hc hphase
    obtain ⟨hlt, hurl, -⟩ := (h.wf.caller _ _ hc).flight f (by rw [hphase]; rfl)
    have hok : outcome = .ok answer := by
      cases outcome with
      | error failure => cases hresult
      | ok other => exact congrArg Except.ok (Except.ok.inj hresult).symm
    have hpem := h.ends f answer hlt (hok ▸ hout) (hurl ▸ hE)
    have hasked : askedAt (t.sys.flights f).url (t.answeredAt f) = atMinute minute := by
      rw [askedAt, hurl, hminute]
      exact min_eq_left hreached
    exact hs.keyInForce_pem (hasked ▸ hpem)

/-- **The key cache is transparent for an honest rotating creator**, in every state of every run. -/
theorem allStates_transparent (hch : ch.Sound) (hs : s.Regular) {creator here : Moment}
    (hdrift : WithinDrift creator here) (hhere : atMinute CLOCK_DRIFT_ALLOWANCE_MINUTES ≤ here)
    (E : String) (events : List TimedEvent)
    (h : AllSteps (next p ch) (Allowed p ch E) (start s creator here) events) :
    AllStates (next p ch) (Transparent E) (start s creator here) events := by
  have hrun : AllStates (next p ch) (Faithful s E) (start s creator here) events :=
    allStates_of_allSteps (fun _ _ ht hallow => faithful_next hch hs ht hallow) events _
      (faithful_start hdrift hhere) h
  exact hrun.imp fun _ ht => transparent_of_faithful hs ht

/-! A creator of two keys answers for minute 15, and a second caller is served the key held. -/

def askFifteen : String := "https://a/owid/api/v3/public-key?date=15&format=spki"

theorem honest_fifteen : Honest sampleP256 sampleChrono sampleSchedule askFifteen (atMinute 100)
    (.ok ⟨200, (sampleSchedule.answerFor firstKey).toJson sampleChrono⟩) := by
  have hasked : askedMoment (queryValue dateParameter askFifteen) (atMinute 100) =
      some (atMinute 15) := by decide +kernel
  exact .states (.stated (publicKeyResponseAt_of_inForce sampleSchedule_regular.starts
    (by decide +kernel) hasked (firstKey_inForce (atMinute_le_iff.mpr (by decide))
      (atMinute_lt_iff.mpr (by decide))) readable_samplePem))

theorem allStates_transparent_sample :
    AllStates (next sampleP256 sampleChrono) (Transparent "https://a/owid/api/v3/public-key")
      (start sampleSchedule (atMinute 100) (atMinute 100))
      [.sys (.call 1 askFifteen (atMinute 100)), .sys (.turn 1), .sys (.send 1),
        .sys (.respond 1 (.ok ⟨200, (sampleSchedule.answerFor firstKey).toJson sampleChrono⟩)),
        .sys (.record 1 (atMinute 100)), .sys (.release 1), .sys (.finish 1),
        .sys (.call 2 askFifteen (atMinute 100)), .sys (.turn 2)] := by
  apply allStates_transparent sampleChrono_sound sampleSchedule_regular
    ⟨by decide +kernel, by decide +kernel⟩ (atMinute_le_iff.mpr (by decide))
  refine ⟨rfl, trivial, trivial, ?_, ?_, trivial, trivial, ?_, trivial, trivial⟩
  · intro caller hc _
    obtain ⟨recent, hcaller⟩ : ∃ recent, (((((start sampleSchedule (atMinute 100)
        (atMinute 100)).next sampleP256 sampleChrono (.sys (.call 1 askFifteen
          (atMinute 100)))).next sampleP256 sampleChrono (.sys (.turn 1))).next sampleP256
            sampleChrono (.sys (.send 1))).sys.callers 1) =
              some ⟨askFifteen, recent, 0, .requesting 0⟩ := ⟨_, rfl⟩
    cases hcaller.symm.trans hc
    simp only [next_sys_schedule, next_sys_creator]
    exact honest_fifteen
  · simp only [Allowed, next_sys_here]
    rfl
  · simp only [Allowed, next_sys_here]
    rfl

end Timed

end OwidRust
