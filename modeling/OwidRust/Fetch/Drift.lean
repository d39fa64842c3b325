import OwidRust.Fetch.KeyUrl
import OwidRust.Fetch.Steady

/-!
# Genuine identifiers and clock drift

An identifier is dated by the machine that signed it, which may not agree with the creator's
schedule to the minute.  It is signed with the key in force at a minute past for the creator, and
dated within the drift allowance of it.

* `exists_edge` — where the key tried is not the signer, the signer is in force just beyond an edge
  of the span stated for it, near the date;
* `tryNeighbours_eq_true` — so the loop over the neighbouring minutes finds it;
* `verifyAtUrl_of_signedNear` — the identifier verifies, whatever is held on the schedule;
* `minuteOf_keyUrlAt_of_mem` — a question mark in the end point hides the minute asked about;
* `driftTolerant_iff` — genuine identifiers of a domain verify exactly where neither the domain nor
  the scheme has a question mark.
-/

namespace OwidRust

open Periods Runs

variable {p : P256} {ch : Chrono} {s : PublicKeySchedule} {E : String} {m : Machine} {o : Owid}
  {creatorAt : Nat → Moment} {env : Surroundings} {φ : Type} {w : World φ}

/-! ## The signer beyond an edge -/

section Edges

variable {signer key : DatedPublicKey} {minute signedAt first : Nat} {stop : Option Nat}

/-- Where the key tried started after the signing, the signer is in force until it starts. -/
theorem inForce_before (hs : s.Steady p) (hsigner : s.InForceAt (atMinute signedAt) signer)
    (hkey : MinutesInForce s key first stop) (hlater : signer.startsAt < key.startsAt)
    (hnear : first ≤ signedAt + CLOCK_DRIFT_ALLOWANCE_MINUTES) :
    signedAt < first ∧ s.InForceAt (atMinute (first - 1)) signer := by
  have hnext := (inForce_iff.mp hsigner).2.2
  have hafter : signedAt < first := by
    rw [← atMinute_lt_iff, ← hkey.start]
    exact hnext key hkey.mem hlater
  refine ⟨hafter, hsigner.later (atMinute_le_iff.mpr (by omega)) ?_⟩
  intro other hother hstarts
  obtain ⟨start, hstart⟩ := hs.regular.minute other hother
  have hbeyond : signedAt < start := by
    rw [← atMinute_lt_iff, ← hstart]
    exact hnext other hother hstarts
  rw [hstart, atMinute_lt_iff]
  -- a start in between would be too close to the start of the key tried
  by_contra hle
  have := hs.start_le hother hkey.mem hstart hkey.start (by omega)
  omega

/-- Where the key tried started before the signer, the signer is the next key. -/
theorem stop_of_earlier (hs : s.Steady p) {start : Nat} (hsigner : signer ∈ s.keys)
    (hstart : signer.startsAt = atMinute start) (hkey : MinutesInForce s key first stop)
    (hinForce : s.InForceAt (atMinute minute) key) (hearlier : key.startsAt < signer.startsAt)
    (hnear : start ≤ minute + CLOCK_DRIFT_ALLOWANCE_MINUTES) :
    minute < start ∧ stop = some start := by
  have hnext := (inForce_iff.mp hinForce).2.2
  have hbefore : minute < start := by
    rw [← atMinute_lt_iff, ← hstart]
    exact hnext signer hsigner hearlier
  refine ⟨hbefore, ?_⟩
  cases hstop : stop with
  | none => exact absurd hearlier (not_lt.mpr (hkey.last hstop signer hsigner))
  | some n =>
    obtain ⟨hlt, -, ⟨other, hother, hat⟩, hleast⟩ := hkey.next n hstop
    have hle : n ≤ start := by
      rw [← atMinute_le_iff, ← hstart]
      exact hleast signer hsigner hearlier
    have hbeyond : minute < n := by
      rw [← atMinute_lt_iff, ← hat]
      apply hnext other hother
      rw [hkey.start, hat]
      exact atMinute_lt_iff.mpr hlt
    -- the next start and the signer's would be too close
    have hge : start ≤ n := by
      by_contra hless
      have := hs.start_le hother hsigner hat hstart (by omega)
      omega
    rw [le_antisymm hle hge]

/-- The first minute after the span is tried where the last is near the date. -/
theorem mem_beyond_last {answer : KeyAnswer} {start : Nat} (hpos : 0 < start)
    (hmax : start ≤ u32Max) (hlast : answer.last = start - 1)
    (hnear : nearEdge minute answer.last = true) : start ∈ beyond minute answer := by
  have hedge : answer.last < u32Max ∧ nearEdge minute answer.last = true := ⟨by omega, hnear⟩
  unfold beyond
  rw [if_pos hedge, hlast, Nat.sub_add_cancel hpos]
  exact List.mem_append_right _ (List.mem_singleton.mpr rfl)

/-- The last minute before the span is tried where the first is near the date. -/
theorem mem_beyond_first {answer : KeyAnswer} (hfirst : answer.first = first) (hpos : 0 < first)
    (hnear : nearEdge minute answer.first = true) : first - 1 ∈ beyond minute answer := by
  have hedge : 0 < answer.first ∧ nearEdge minute answer.first = true := ⟨by omega, hnear⟩
  unfold beyond
  rw [if_pos hedge, hfirst]
  exact List.mem_append_left _ (List.mem_singleton.mpr rfl)

variable {clock moment : Moment} {answer : KeyAnswer}

/-- A key tried that started before the signer, which had started by the clock, was selected by
the date. -/
theorem moment_of_earlier (hanswer : Selected s clock moment answer key first stop)
    (hmoment : moment = atMinute minute ∨ moment = min (atMinute minute) clock)
    (hsigner : signer ∈ s.keys) (hstarted : signer.startsAt ≤ clock)
    (hearlier : key.startsAt < signer.startsAt) : moment = atMinute minute := by
  rcases hmoment with h | h
  · exact h
  · rcases min_choice (atMinute minute) clock with hmin | hmin
    · rw [h, hmin]
    · have hlatest := hanswer.inForce.latest signer hsigner (hstarted.trans (h.trans hmin).ge)
      exact absurd hearlier (not_lt.mpr hlatest)

/-- A signer later than the key tried starts just after the last minute stated for the key. -/
theorem exists_edge_of_earlier (hs : s.Steady p)
    (hanswer : Selected s clock moment answer key first stop)
    (hmoment : moment = atMinute minute ∨ moment = min (atMinute minute) clock)
    (hsigner : s.InForceAt (atMinute signedAt) signer) (hpast : atMinute signedAt ≤ clock)
    (hnear : ((minute : Int) - signedAt).natAbs ≤ CLOCK_DRIFT_ALLOWANCE_MINUTES)
    (hearlier : key.startsAt < signer.startsAt) :
    ∃ edge ∈ beyond minute answer, edge ≤ u32Max ∧ atMinute edge ≤ clock ∧
      s.InForceAt (atMinute edge) signer := by
  obtain ⟨start, hstart⟩ := hs.regular.minute signer hsigner.mem
  have hstarted : start ≤ signedAt := by
    rw [← atMinute_le_iff, ← hstart]
    exact hsigner.started
  have hclock : signer.startsAt ≤ clock := hsigner.started.trans hpast
  have hdate := moment_of_earlier hanswer hmoment hsigner.mem hclock hearlier
  obtain ⟨hbefore, hstop⟩ := stop_of_earlier hs hsigner.mem hstart hanswer.minutes
    (hdate ▸ hanswer.inForce) hearlier (by omega)
  obtain ⟨hlt, hmax, -, -⟩ := hanswer.minutes.next start hstop
  have hlast : answer.last = start - 1 := by
    rw [hanswer.answer_eq, hstop, KeyAnswer.stated]
    simp only [hlt, if_true]
    rfl
  refine ⟨start, ?_, hmax, ?_, ?_⟩
  · apply mem_beyond_last (by omega) hmax hlast
    rw [hlast, nearEdge_iff]
    omega
  · exact hstart ▸ hclock
  · exact hsigner.earlier (le_of_eq hstart) (atMinute_le_iff.mpr hstarted)

/-- A signer earlier than the key tried is in force at the last minute before the first stated for
the key, which had started by the date and by the clock. -/
theorem exists_edge_of_later (hs : s.Steady p)
    (hanswer : Selected s clock moment answer key first stop)
    (hmoment : moment = atMinute minute ∨ moment = min (atMinute minute) clock)
    (hsigner : s.InForceAt (atMinute signedAt) signer)
    (hnear : ((minute : Int) - signedAt).natAbs ≤ CLOCK_DRIFT_ALLOWANCE_MINUTES)
    (hlater : signer.startsAt < key.startsAt) :
    ∃ edge ∈ beyond minute answer, edge ≤ u32Max ∧ atMinute edge ≤ clock ∧
      s.InForceAt (atMinute edge) signer := by
  have hfirst : answer.first = first := by rw [hanswer.answer_eq, KeyAnswer.stated_first]
  have hmin : moment ≤ atMinute minute := by
    rcases hmoment with h | h
    · exact h.le
    · exact h.le.trans (min_le_left _ _)
  have hbefore : first ≤ minute := by
    rw [← atMinute_le_iff, ← hanswer.minutes.start]
    exact hanswer.inForce.started.trans hmin
  obtain ⟨hafter, hinForce⟩ := inForce_before hs hsigner hanswer.minutes hlater (by omega)
  have hle : first - 1 ≤ first := Nat.sub_le first 1
  refine ⟨first - 1, ?_, hle.trans hanswer.minutes.first_le, ?_, hinForce⟩
  · apply mem_beyond_first hfirst (by omega)
    rw [hfirst, nearEdge_iff]
    omega
  · refine (atMinute_le_iff.mpr hle).trans ?_
    rw [← hanswer.minutes.start]
    exact hanswer.started

/-- **Where the key tried is not the signer, the signer is in force just beyond an edge** of the
span stated for it, near the date. -/
theorem exists_edge (hs : s.Steady p) (hanswer : Selected s clock moment answer key first stop)
    (hmoment : moment = atMinute minute ∨ moment = min (atMinute minute) clock)
    (hsigner : s.InForceAt (atMinute signedAt) signer) (hpast : atMinute signedAt ≤ clock)
    (hnear : ((minute : Int) - signedAt).natAbs ≤ CLOCK_DRIFT_ALLOWANCE_MINUTES)
    (hne : key ≠ signer) :
    ∃ edge ∈ beyond minute answer, edge ≤ u32Max ∧ atMinute edge ≤ clock ∧
      s.InForceAt (atMinute edge) signer := by
  rcases lt_trichotomy key.startsAt signer.startsAt with hearlier | hsame | hlater
  · exact exists_edge_of_earlier hs hanswer hmoment hsigner hpast hnear hearlier
  · exact absurd (hs.regular.starts hanswer.minutes.mem hsigner.mem hsame) hne
  · exact exists_edge_of_later hs hanswer hmoment hsigner hnear hlater

end Edges

/-! ## The signer found -/

/-- A minute past for the creator is answered with the key in force at it. -/
theorem keyAtUrl_past (hch : ch.Sound) (hs : s.Steady p) (hd : Delivers p ch s E creatorAt env)
    (hE : '?' ∉ E.toList) (hw : HeldOnSchedule s E creatorAt w) {edge : Nat} (hedge : edge ≤ u32Max)
    (hpast : atMinute edge ≤ creatorAt w.requests) {signer : DatedPublicKey}
    (hsigner : s.InForceAt (atMinute edge) signer) :
    ∃ answer, (keyAtUrl p ch env (keyUrlAt E edge) w).1 = .ok answer ∧
      answer.pem = signer.publicKeyPem := by
  obtain ⟨answer, hanswer⟩ := keyAtUrl_isOk hch hs hd hE hedge hsigner.mem hsigner.started
    (hsigner.started.trans hpast)
  obtain ⟨moment, key, first, stop, hmoment, hselected⟩ :=
    (keyAtUrl_selected hch hs hd (endPointOf_keyUrlAt hE edge) hw).2 answer hanswer
  have hasks := minuteOf_keyUrlAt hE hedge
  have hat : moment = atMinute edge := by
    rcases hmoment with ⟨minute, hminute, hat⟩ | hat
    · rw [hasks] at hminute
      cases hminute
      exact hat
    · rw [hat, askedAt, hasks]
      exact min_eq_left hpast
  subst hat
  have hsame : key = signer := hselected.inForce.unique hs.regular.starts hsigner
  refine ⟨answer, hanswer, ?_⟩
  rw [hselected.answer_eq, KeyAnswer.stated_pem, hsame]

/-- **The loop over the neighbouring minutes finds a signer in force at one of them.** -/
theorem tryNeighbours_eq_true (hch : ch.Sound) (hs : s.Steady p)
    (hd : Delivers p ch s E creatorAt env) (hE : '?' ∉ E.toList) {tried : KeyAnswer}
    {signer : DatedPublicKey} (hpem : signer.publicKeyPem ≠ tried.pem)
    (hverifies : o.verifyWithPublicKey p m signer.publicKeyPem = .ok true) {edge : Nat}
    (hedge : edge ≤ u32Max) (hsigner : s.InForceAt (atMinute edge) signer) :
    ∀ (minutes : List Nat) (w : World φ), edge ∈ minutes → HeldOnSchedule s E creatorAt w →
      atMinute edge ≤ creatorAt w.requests →
      (tryNeighbours p ch env m o E tried minutes w).1 = true
  | [], _, hmem, _, _ => by cases hmem
  | minute :: rest, w, hmem, hw, hpast => by
    have hleaves := (keyAtUrl_selected hch hs hd (endPointOf_keyUrlAt hE minute) hw).1
    unfold tryNeighbours
    rcases List.mem_cons.mp hmem with rfl | hrest
    · obtain ⟨answer, hanswer, hsame⟩ := keyAtUrl_past hch hs hd hE hw hedge hpast hsigner
      cases hasked : keyAtUrl p ch env (keyUrlAt E edge) w with
      | mk result next =>
        rw [hasked] at hanswer
        cases hanswer
        simp only
        rw [if_neg (hsame ▸ hpem), hsame, hverifies]
    · cases hasked : keyAtUrl p ch env (keyUrlAt E minute) w with
      | mk result next =>
        rw [hasked] at hleaves
        have htail : (tryNeighbours p ch env m o E tried rest next).1 = true :=
          tryNeighbours_eq_true hch hs hd hE hpem hverifies hedge hsigner rest next hrest
            hleaves.held (hpast.trans (hd.forward hleaves.requests))
        cases result with
        | error e => exact htail
        | ok neighbour =>
          simp only
          split
          · exact htail
          · split
            · rfl
            · exact htail

/-! ## Genuine identifiers -/

/-- A genuine identifier: it verifies under the key in force at a minute past for the creator, and is
dated within the drift allowance of it, at a minute some key had started by. -/
structure SignedNear (p : P256) (m : Machine) (s : PublicKeySchedule) (clock : Moment) (o : Owid)
    (minute signedAt : Nat) (signer : DatedPublicKey) : Prop where
  date : minutesSinceBase o.date = some minute
  started : ∃ key ∈ s.keys, key.startsAt ≤ atMinute minute
  past : atMinute signedAt ≤ clock
  near : ((minute : Int) - signedAt).natAbs ≤ CLOCK_DRIFT_ALLOWANCE_MINUTES
  inForce : s.InForceAt (atMinute signedAt) signer
  verifies : o.verifyWithPublicKey p m signer.publicKeyPem = .ok true

/-- Some key had started by the date and by the clock. -/
theorem SignedNear.exists_started {clock : Moment} {minute signedAt : Nat} {signer : DatedPublicKey}
    (h : SignedNear p m s clock o minute signedAt signer) :
    ∃ key ∈ s.keys, key.startsAt ≤ atMinute minute ∧ key.startsAt ≤ clock := by
  obtain ⟨key, hkey, hle⟩ := h.started
  have hsigner : signer.startsAt ≤ clock := h.inForce.started.trans h.past
  rcases le_total key.startsAt clock with hclock | hclock
  · exact ⟨key, hkey, hle, hclock⟩
  · exact ⟨signer, h.inForce.mem, hsigner.trans (hclock.trans hle), hsigner⟩

/-- **A genuine identifier verifies**, whatever is held on the schedule. -/
theorem verifyAtUrl_of_signedNear (hch : ch.Sound) (hs : s.Steady p) {scheme : String}
    (hE : '?' ∉ (keyEndPoint o scheme).toList)
    (hd : Delivers p ch s (keyEndPoint o scheme) creatorAt env)
    (hw : HeldOnSchedule s (keyEndPoint o scheme) creatorAt w) {minute signedAt : Nat}
    {signer : DatedPublicKey}
    (h : SignedNear p m s (creatorAt w.requests) o minute signedAt signer) :
    (verifyAtUrl p ch env m o (publicKeyUrl o scheme) w).1 = .ok true := by
  have hminute := minutesSinceBase_le h.date
  have hurl : publicKeyUrl o scheme = keyUrlAt (keyEndPoint o scheme) minute := by
    rw [publicKeyUrl, h.date]
  have hendPoint := endPointOf_keyUrlAt hE minute
  obtain ⟨started, hmem, hdate, hclock⟩ := h.exists_started
  obtain ⟨answer, hanswer⟩ := keyAtUrl_isOk hch hs hd hE hminute hmem hdate hclock
  obtain ⟨hleaves, hobtained⟩ := keyAtUrl_selected hch hs hd hendPoint hw
  obtain ⟨moment, key, first, stop, hmoment, hselected⟩ := hobtained answer hanswer
  have hat : moment = atMinute minute ∨
      moment = min (atMinute minute) (creatorAt w.requests) := by
    rw [askedAt, minuteOf_keyUrlAt hE hminute] at hmoment
    rcases hmoment with ⟨n, hn, hat⟩ | hat
    · cases hn
      exact .inl hat
    · exact .inr hat
  have hpem : answer.pem = key.publicKeyPem := by
    rw [hselected.answer_eq, KeyAnswer.stated_pem]
  unfold verifyAtUrl
  rw [hurl]
  cases hasked : keyAtUrl p ch env (keyUrlAt (keyEndPoint o scheme) minute) w with
  | mk result next =>
    rw [hasked] at hanswer hleaves
    cases hanswer
    simp only [hpem]
    by_cases hsame : key = signer
    · rw [hsame, h.verifies]
    obtain ⟨b, hb⟩ := Owid.verifyWithPublicKey_isOk (hs.readable key hselected.minutes.mem) h.verifies
    rw [hb]
    cases b with
    | true => rfl
    | false =>
      -- the signer is in force at one of the minutes beyond
      obtain ⟨edge, hedge, hle, hpast, hinForce⟩ :=
        exists_edge hs hselected hat h.inForce h.past h.near hsame
      have hne : signer.publicKeyPem ≠ answer.pem := by
        rw [hpem]
        intro hpems
        exact hsame (hs.regular.pems h.inForce.mem hselected.minutes.mem hpems).symm
      have hfound := tryNeighbours_eq_true hch hs hd hE hne h.verifies hle hinForce
        (beyond minute answer) next hedge hleaves.held
        (hpast.trans (hd.forward hleaves.requests))
      have hknown : answer.known = true := by
        rw [hselected.answer_eq, KeyAnswer.stated_known]
      simp only [h.date, neighbourVerifies, hknown, if_true, hendPoint]
      cases htried : tryNeighbours p ch env m o (keyEndPoint o scheme) answer
          (beyond minute answer) next with
      | mk found after =>
        rw [htried] at hfound
        cases hfound
        rfl

/-- **A genuine identifier of the domain verifies** at its own URL, whatever the callers did
before. -/
def DriftTolerant (scheme domain : String) : Prop :=
  ∀ (p : P256) (ch : Chrono) (m : Machine) (s : PublicKeySchedule) (t : Timed)
    (creatorAt : Nat → Moment) (env : Surroundings) (o : Owid) (minute signedAt : Nat)
    (signer : DatedPublicKey), ch.Sound → s.Steady p → o.domain = domain →
    Timed.ReachedBeside p ch s (endPointOf (publicKeyUrl o scheme)) t → t.creator ≤ creatorAt 0 →
    Delivers p ch s (endPointOf (publicKeyUrl o scheme)) creatorAt env →
    SignedNear p m s (creatorAt 0) o minute signedAt signer →
    (verifyAtUrl p ch env m o (publicKeyUrl o scheme) ⟨t.sys.cache, 0, 0⟩).1 = .ok true

theorem driftTolerant_of_plain {scheme domain : String} (hscheme : '?' ∉ scheme.toList)
    (hdomain : '?' ∉ domain.toList) : DriftTolerant scheme domain := by
  intro p ch m s t creatorAt env o minute signedAt signer hch hs ho ht hclock hd h
  subst ho
  have hE : '?' ∉ (keyEndPoint o scheme).toList := mt (mem_keyEndPoint_iff hscheme).mp hdomain
  have hendPoint : endPointOf (publicKeyUrl o scheme) = keyEndPoint o scheme := by
    rw [publicKeyUrl, h.date, endPointOf_keyUrlAt hE]
  rw [hendPoint] at ht hd
  have hheld := Timed.onSchedule_of_reached hch hs.regular ht
  exact verifyAtUrl_of_signedNear hch hs hE hd (fun k hk => (hheld k hk).mono hclock) h

/-! ## A question mark

Two identifiers of one domain, signed with the two keys of a schedule far from the rotation.  The
same minute is read out of both URLs, and one of them is checked against the key of the other. -/

def earlyKey : DatedPublicKey := ⟨atMinute 0, samplePem⟩

def laterKey : DatedPublicKey := ⟨atMinute 100, nextPem⟩

def rotatedOnce : PublicKeySchedule where
  keys := [earlyKey, laterKey]
  sorted := by
    simp only [List.pairwise_cons, List.mem_singleton, forall_eq, List.not_mem_nil,
      IsEmpty.forall_iff, implies_true, List.Pairwise.nil, and_true]
    exact atMinute_le_iff.mpr (by decide)

theorem mem_rotatedOnce {key : DatedPublicKey} :
    key ∈ rotatedOnce.keys ↔ key = earlyKey ∨ key = laterKey := by
  simp [rotatedOnce]

theorem earlyKey_lt_laterKey : earlyKey.startsAt < laterKey.startsAt :=
  atMinute_lt_iff.mpr (by decide)

theorem rotatedOnce_regular : rotatedOnce.Regular :=
  PublicKeySchedule.regular_of_two (fun _ => mem_rotatedOnce) rfl rfl (by decide)
    (by decide +kernel) nextPem_ne_samplePem.symm

theorem rotatedOnce_steady : rotatedOnce.Steady sampleP256 where
  regular := rotatedOnce_regular
  spaced key hkey stop hstop := by
    obtain ⟨⟨other, hother, hlater, rfl⟩, -⟩ := PublicKeySchedule.nextStartAfter_eq_some_iff.mp hstop
    rcases mem_rotatedOnce.mp hkey with rfl | rfl <;>
      rcases mem_rotatedOnce.mp hother with rfl | rfl
    · exact absurd hlater (lt_irrefl _)
    · decide +kernel
    · exact absurd hlater earlyKey_lt_laterKey.not_gt
    · exact absurd hlater (lt_irrefl _)
  readable key hkey := by
    rcases mem_rotatedOnce.mp hkey with rfl | rfl
    · exact readable_samplePem
    · exact readable_nextPem

theorem earlyKey_minutes : MinutesInForce rotatedOnce earlyKey 0 (some 100) :=
  (minutesInForce_of_two (fun _ => mem_rotatedOnce) rfl rfl (by decide) (by decide)).1

theorem laterKey_minutes : MinutesInForce rotatedOnce laterKey 100 none :=
  (minutesInForce_of_two (fun _ => mem_rotatedOnce) rfl rfl (by decide) (by decide)).2

/-- An identifier signed with the one key of `sampleP256` or with the other. -/
def signedBy (signer : Bool) (domain : String) (minute : Nat) : Owid :=
  ⟨.version3, domain, atMinute minute, [], sampleP256.toBytes signer⟩

/-- Its signature verifies under that key only. -/
theorem signedBy_verifies {signer : Bool} {domain : String} (hdomain : DomainOk domain)
    {minute : Nat} (hminute : minute ≤ u32Max) {pem : String} {key : Bool}
    (hpem : Crypto.newVerifyOnly sampleP256 pem = .ok ⟨none, some key⟩) :
    (signedBy signer domain minute).verifyWithPublicKey sampleP256 machine64 pem =
      .ok (key == signer) := by
  have hlength := sampleP256_sound.length_toBytes signer
  let f : Frame := ⟨.version3, domain, minute, [], sampleP256.toBytes signer, by simp, hdomain,
    by simp only [dateLength, u32Max] at hminute ⊢; omega, Nat.zero_le _, hlength⟩
  have hencodes : f.Encodes (signedBy signer domain minute) :=
    ⟨rfl, rfl, minutesSinceBase_atMinute hminute, rfl, rfl⟩
  have hholds : machine64.Holds f.head := by
    have hbound := hdomain.2
    simp only [MAXIMUM_DOMAIN_LENGTH] at hbound
    simp only [Machine.Holds, Frame.length_head, Owid.lengths, Frame.owid, f, dateLength,
      List.sum_cons, List.sum_nil, List.length_nil, machine64, Bool.false_eq_true, if_false]
    omega
  have hsigned := Frame.signedBytes_of_encodes machine64_wide hencodes hholds rfl
  rw [Owid.verifyWithPublicKey, hpem, ok_bind, Owid.verifyWithCrypto, hsigned, ok_bind]
  unfold Crypto.verifyByteArray
  cases signer <;> cases key <;> rfl

theorem signedNear_early {domain : String} (hdomain : DomainOk domain) :
    SignedNear sampleP256 machine64 rotatedOnce (atMinute 200) (signedBy false domain 50) 50 50
      earlyKey where
  date := minutesSinceBase_atMinute (by decide)
  started := ⟨earlyKey, earlyKey_minutes.mem, atMinute_le_iff.mpr (by decide)⟩
  past := atMinute_le_iff.mpr (by decide)
  near := by decide
  inForce := earlyKey_minutes.inForce (Nat.zero_le _) (by simp)
  verifies := signedBy_verifies hdomain (by decide) newVerifyOnly_samplePem

theorem signedNear_later {domain : String} (hdomain : DomainOk domain) :
    SignedNear sampleP256 machine64 rotatedOnce (atMinute 200) (signedBy true domain 150) 150 150
      laterKey where
  date := minutesSinceBase_atMinute (by decide)
  started := ⟨laterKey, laterKey_minutes.mem, atMinute_le_iff.mpr (by decide)⟩
  past := atMinute_le_iff.mpr (by decide)
  near := by decide
  inForce := laterKey_minutes.inForce (by decide) (by simp)
  verifies := signedBy_verifies hdomain (by decide) newVerifyOnly_nextPem

/-- A transport that hands on what the creator answers at minute 200. -/
def handsOn : Surroundings where
  transport _ url :=
    (publicKeyResponseAt sampleP256 sampleChrono rotatedOnce (queryValue formatParameter url)
      (queryValue dateParameter url) (atMinute 200)).map fun answer => ⟨answer.1, answer.2⟩
  clock _ := atMinute 200

theorem delivers_handsOn (E : String) :
    Delivers sampleP256 sampleChrono rotatedOnce E (fun _ => atMinute 200) handsOn where
  forward := monotone_const
  delivered n url status body _ h := by
    simp only [handsOn, h]
    rfl

/-- A key that does not verify, stated for a span far from the date, is the end of it. -/
theorem verifyAtUrl_of_far {url : String} {next : World φ} {answer : KeyAnswer} {minute : Nat}
    (hkey : keyAtUrl p ch env url w = (.ok answer, next))
    (hfails : o.verifyWithPublicKey p m answer.pem = .ok false)
    (hdate : minutesSinceBase o.date = some minute) (hfar : beyond minute answer = []) :
    (verifyAtUrl p ch env m o url w).1 =
      if answer.known && !answer.covers minute then .error notInForce else .ok false := by
  have hneighbours : ∀ n, minutesSinceBase o.date = some n →
      (neighbourVerifies p ch env m o url n answer next).1 = false := by
    intro n hn
    rw [hdate] at hn
    cases hn
    unfold neighbourVerifies
    rw [hfar]
    split <;> rfl
  rw [verifyAtUrl_of_fails hkey hfails hneighbours, hdate]

theorem verifyAtUrl_ne_of_far {url : String} {next : World φ} {answer : KeyAnswer} {minute : Nat}
    (hkey : keyAtUrl p ch env url w = (.ok answer, next))
    (hfails : o.verifyWithPublicKey p m answer.pem = .ok false)
    (hdate : minutesSinceBase o.date = some minute) (hfar : beyond minute answer = []) :
    (verifyAtUrl p ch env m o url w).1 ≠ .ok true := by
  rw [verifyAtUrl_of_far hkey hfails hdate hfar]
  split
  · intro h
    cases h
  · intro h
    cases h

/-- Where nothing is held, an identifier that verifies is checked against the key in force at the
moment asked about. -/
theorem selected_of_verifies (hch : ch.Sound) (hs : s.Steady p) {url : String}
    (hd : Delivers p ch s (endPointOf url) creatorAt env)
    (h : (verifyAtUrl p ch env m o url (World.fresh φ)).1 = .ok true) :
    ∃ answer next key first stop, keyAtUrl p ch env url (World.fresh φ) = (.ok answer, next) ∧
      Selected s (creatorAt 0) (askedAt url (creatorAt 0)) answer key first stop := by
  have hfetch : keyAtUrl p ch env url (World.fresh φ) =
      fetchKey p ch env url (isRecent env (World.fresh φ) (minuteOf url)) ⟨.empty, 0, 1⟩ :=
    keyAtUrl_of_not_held fun minute _ => by rw [Cache.heldFor_eq]; rfl
  unfold verifyAtUrl at h
  cases hkey : keyAtUrl p ch env url (World.fresh φ) with
  | mk result next =>
    rw [hkey] at h
    cases result with
    | error e => cases h
    | ok answer =>
      obtain ⟨-, hselected⟩ := fetchKey_selected (w := ⟨.empty, 0, 1⟩) (φ := φ) hch hs hd rfl
        (isRecent env (World.fresh φ) (minuteOf url)) (fun k hk => by cases hk)
      obtain ⟨key, first, stop, hselected⟩ := hselected answer (by rw [← hfetch, hkey])
      exact ⟨answer, next, key, first, stop, rfl, hselected⟩

section Question

variable {url domain : String} {next : World φ} {answer : KeyAnswer} {clock moment : Moment}
  {first : Nat} {stop : Option Nat}

/-- Far from the rotation neither identifier is found to be signed with the other key. -/
theorem later_fails (hdomain : DomainOk domain)
    (hkey : keyAtUrl sampleP256 ch env url w = (.ok answer, next))
    (h : Selected rotatedOnce clock moment answer earlyKey first stop) :
    (verifyAtUrl sampleP256 ch env machine64 (signedBy true domain 150) url w).1 ≠ .ok true := by
  obtain ⟨rfl, rfl⟩ := h.minutes.unique earlyKey_minutes
  refine verifyAtUrl_ne_of_far hkey ?_ (signedNear_later hdomain).date ?_
  · rw [h.answer_eq, KeyAnswer.stated_pem]
    exact signedBy_verifies hdomain (by decide) newVerifyOnly_samplePem
  · rw [h.answer_eq]
    decide +kernel

theorem early_fails (hdomain : DomainOk domain)
    (hkey : keyAtUrl sampleP256 ch env url w = (.ok answer, next))
    (h : Selected rotatedOnce clock moment answer laterKey first stop) :
    (verifyAtUrl sampleP256 ch env machine64 (signedBy false domain 50) url w).1 ≠ .ok true := by
  obtain ⟨rfl, rfl⟩ := h.minutes.unique laterKey_minutes
  refine verifyAtUrl_ne_of_far hkey ?_ (signedNear_early hdomain).date ?_
  · rw [h.answer_eq, KeyAnswer.stated_pem]
    exact signedBy_verifies hdomain (by decide) newVerifyOnly_nextPem
  · rw [h.answer_eq]
    decide +kernel

end Question

/-- **A domain with a question mark is not tolerated**: the two identifiers ask the same. -/
theorem not_driftTolerant_of_question {scheme domain : String} (hdomain : DomainOk domain)
    (hquestion : '?' ∈ scheme.toList ∨ '?' ∈ domain.toList) : ¬ DriftTolerant scheme domain := by
  intro htolerant
  have hverifies : ∀ {signer : Bool} {minute : Nat} {key : DatedPublicKey},
      SignedNear sampleP256 machine64 rotatedOnce (atMinute 200) (signedBy signer domain minute)
        minute minute key →
      (verifyAtUrl sampleP256 sampleChrono handsOn machine64 (signedBy signer domain minute)
        (publicKeyUrl (signedBy signer domain minute) scheme) (World.fresh Nat)).1 = .ok true := by
    intro signer minute key h
    exact htolerant sampleP256 sampleChrono machine64 rotatedOnce
      (.start rotatedOnce (atMinute 200) (atMinute 200)) (fun _ => atMinute 200) handsOn _ minute
      minute key sampleChrono_sound rotatedOnce_steady rfl
      ⟨atMinute 200, atMinute 200, [], trivial, rfl⟩ (le_refl _) (delivers_handsOn _) h
  -- the end point has a question mark, so the same minute is read out of both URLs
  have hmem : '?' ∈ (keyEndPoint (signedBy false domain 50) scheme).toList := by
    obtain ⟨mark, path, name, -, -, -, hparts⟩ := keyEndPoint_parts
    rw [hparts]
    rcases hquestion with h | h
    · exact List.mem_append_left _ h
    · exact List.mem_append_right _ (List.mem_append_right _ (List.mem_append_left _ h))
  obtain ⟨asked, hasked⟩ := minuteOf_keyUrlAt_of_mem hmem
  have hearly : publicKeyUrl (signedBy false domain 50) scheme =
      keyUrlAt (keyEndPoint (signedBy false domain 50) scheme) 50 := by
    rw [publicKeyUrl, (signedNear_early hdomain).date]
  have hlater : publicKeyUrl (signedBy true domain 150) scheme =
      keyUrlAt (keyEndPoint (signedBy false domain 50) scheme) 150 := by
    rw [publicKeyUrl, (signedNear_later hdomain).date]
    simp only [keyEndPoint, signedBy]
  have hsame : askedAt (publicKeyUrl (signedBy false domain 50) scheme) (atMinute 200) =
      askedAt (publicKeyUrl (signedBy true domain 150) scheme) (atMinute 200) := by
    rw [askedAt, askedAt, hearly, hlater, hasked, hasked]
  have hfirst := hverifies (signedNear_early hdomain)
  have hsecond := hverifies (signedNear_later hdomain)
  obtain ⟨answer, next, key, first, stop, hkey, hselected⟩ := selected_of_verifies
    sampleChrono_sound rotatedOnce_steady (delivers_handsOn _) hfirst
  obtain ⟨answer', next', key', first', stop', hkey', hselected'⟩ := selected_of_verifies
    sampleChrono_sound rotatedOnce_steady (delivers_handsOn _) hsecond
  rw [← hsame] at hselected'
  have hone : key = key' := hselected.inForce.unique rotatedOnce_regular.starts hselected'.inForce
  subst hone
  rcases mem_rotatedOnce.mp hselected.minutes.mem with rfl | rfl
  · exact later_fails hdomain hkey' hselected' hsecond
  · exact early_fails hdomain hkey hselected hfirst

/-- **Genuine identifiers of a domain verify exactly where neither it nor the scheme has a question
mark.** -/
theorem driftTolerant_iff {scheme domain : String} (hdomain : DomainOk domain) :
    DriftTolerant scheme domain ↔ '?' ∉ scheme.toList ∧ '?' ∉ domain.toList := by
  constructor
  · intro h
    refine ⟨?_, ?_⟩
    · intro hquestion
      exact not_driftTolerant_of_question hdomain (.inl hquestion) h
    · intro hquestion
      exact not_driftTolerant_of_question hdomain (.inr hquestion) h
  · rintro ⟨hscheme, hplain⟩
    exact driftTolerant_of_plain hscheme hplain

/-- An identifier signed at minute 100 and dated at minute 90, before its key starts. -/
theorem driftTolerant_iff_sample :
    (verifyAtUrl sampleP256 sampleChrono handsOn machine64 (signedBy true "ab" 90)
      (publicKeyUrl (signedBy true "ab" 90) "https") (World.fresh Nat)).1 = .ok true := by
  have hdomain : DomainOk "ab" := ⟨by decide, by decide⟩
  have htolerant : DriftTolerant "https" "ab" :=
    (driftTolerant_iff hdomain).mpr ⟨by decide, by decide⟩
  have hnear : SignedNear sampleP256 machine64 rotatedOnce (atMinute 200) (signedBy true "ab" 90) 90
      100 laterKey := by
    refine ⟨minutesSinceBase_atMinute (by decide), ?_, atMinute_le_iff.mpr (by decide), by decide,
      laterKey_minutes.inForce (by decide) (by simp),
      signedBy_verifies hdomain (by decide) newVerifyOnly_nextPem⟩
    exact ⟨earlyKey, earlyKey_minutes.mem, atMinute_le_iff.mpr (by decide)⟩
  exact htolerant sampleP256 sampleChrono machine64 rotatedOnce
    (.start rotatedOnce (atMinute 200) (atMinute 200)) (fun _ => atMinute 200) handsOn _ 90 100
    laterKey sampleChrono_sound rotatedOnce_steady rfl
    ⟨atMinute 200, atMinute 200, [], trivial, rfl⟩ (le_refl _) (delivers_handsOn _) hnear

/-! An identifier of minute 150 whose domain asks about minute 10. -/

def askingDomain : String := "a?date=10&b"

def askingTen : Owid := signedBy true askingDomain 150

def askingTenBytes : List UInt8 :=
  [3, 97, 63, 100, 97, 116, 101, 61, 49, 48, 38, 98, 0, 150, 0, 0, 0, 0, 0, 0, 0] ++
    List.replicate 64 1

theorem keyAtUrl_askingTen : ∃ next, keyAtUrl sampleP256 sampleChrono handsOn
    (publicKeyUrl askingTen "https") (World.fresh Nat) =
      (.ok (KeyAnswer.stated samplePem (some 0) (some 100)), next) := by
  have hdate : queryValue dateParameter (publicKeyUrl askingTen "https") = some "10" := by
    decide +kernel
  have hformat : servesFormat (queryValue formatParameter (publicKeyUrl askingTen "https")) =
      true := by decide +kernel
  have hasked : askedMoment (some "10") (atMinute 200) = some (atMinute 10) := by decide +kernel
  have hinForce : rotatedOnce.InForceAt (atMinute 10) earlyKey :=
    earlyKey_minutes.inForce (Nat.zero_le _) (by simp)
  have hdelivered := (delivers_handsOn _).delivered 0 _ _ _ rfl
    (publicKeyResponseAt_of_inForce rotatedOnce_regular.starts hformat (hdate ▸ hasked) hinForce
      readable_samplePem)
  have hnext : rotatedOnce.nextStartAfter earlyKey = some (atMinute 100) :=
    PublicKeySchedule.nextStartAfter_eq_some_iff.mpr
      ⟨⟨laterKey, laterKey_minutes.mem, earlyKey_lt_laterKey, rfl⟩, by
        intro other hother hlater
        rcases mem_rotatedOnce.mp hother with rfl | rfl
        · exact absurd hlater (lt_irrefl _)
        · exact le_refl _⟩
  obtain ⟨next, hkey⟩ := keyAtUrl_fresh (φ := Nat) hdelivered
    (rotatedOnce_regular.parse_answerFor sampleChrono_sound hinForce.mem)
    (validate_answerFor_none hinForce readable_samplePem)
  refine ⟨next, hkey.trans ?_⟩
  simp only [PublicKeySchedule.answerFor, PublicKeyAnswer.new, hnext, statedMinute_some]
  rw [minutesSinceBase_atMinute (by decide), earlyKey, minutesSinceBase_atMinute (by decide)]

/-- It is checked against the key of minute 10, and its own key is said to be unavailable. -/
theorem driftTolerant_question :
    Owid.fromByteArray machine64 askingTenBytes = .ok askingTen ∧
    SignedNear sampleP256 machine64 rotatedOnce (atMinute 200) askingTen 150 150 laterKey ∧
    minuteOf (publicKeyUrl askingTen "https") = some 10 ∧
    (verifyAtUrl sampleP256 sampleChrono handsOn machine64 askingTen
      (publicKeyUrl askingTen "https") (World.fresh Nat)).1 = .error notInForce ∧
    ¬ DriftTolerant "https" askingDomain := by
  have hdomain : DomainOk askingDomain := ⟨by decide, by decide⟩
  refine ⟨by decide +kernel, signedNear_later hdomain, by decide +kernel, ?_,
    not_driftTolerant_of_question hdomain (.inr (by decide))⟩
  obtain ⟨next, hkey⟩ := keyAtUrl_askingTen
  have hfails : askingTen.verifyWithPublicKey sampleP256 machine64
      (KeyAnswer.stated samplePem (some 0) (some 100)).pem = .ok false :=
    signedBy_verifies hdomain (by decide) newVerifyOnly_samplePem
  rw [verifyAtUrl_of_far hkey hfails (signedNear_later hdomain).date (by decide +kernel)]
  rfl

end OwidRust
