import OwidRust.Endpoints
import OwidRust.Fetch.SystemInv

/-!
# Callers, a creator and two clocks

The shared state of `Fetch/System` beside the creator of one end point: the schedule it answers
from, its clock, and the clock the callers read.  A creator answers a request when the response is
made, and the caller records it any number of events later, so the time between the two events is
the delay of the transport.

* `tells_of_statesSpan`, `tells_of_honest` — what the client reads of an honest answer;
* `TellsKeyInForce.minutes`, `MinutesInForce.inForce` — the minutes it says the key is in force for;
* `CacheInv`, `cacheInv_after` — an invariant of the held keys of one end point and of the answers
  not yet recorded, from what it takes of an answer and of a recording.
-/

namespace OwidRust

open Periods

/-! ## Honest answers -/

/-- The characters of `format=`. -/
def formatParameter : List Char := ['f', 'o', 'r', 'm', 'a', 't', '=']

/-- The value of a query parameter, as a creator's server reads it. -/
def queryValue (parameter : List Char) (url : String) : Option String :=
  (splitOnce '?' url.toList).bind fun p =>
    ((p.2.splitOn '&').findSome? (stripStart parameter)).map String.ofList

/-- The moment a request for the URL asks about when the creator's clock reads `now`. -/
def askedAt (url : String) (now : Moment) : Moment :=
  match minuteOf url with
  | some minute => min (atMinute minute) now
  | none => now

theorem minuteOf_eq (url : String) :
    minuteOf url = (queryValue dateParameter url).bind fun date => parseU32 date.toList := by
  unfold minuteOf queryValue
  cases splitOnce '?' url.toList with
  | none => rfl
  | some p =>
    simp only [Option.bind_eq_bind, Option.bind_some]
    cases (p.2.splitOn '&').findSome? (stripStart dateParameter) <;> simp

theorem askedMoment_queryValue {url : String} {now asked : Moment}
    (h : askedMoment (queryValue dateParameter url) now = some asked) :
    asked = askedAt url now := by
  unfold askedMoment at h
  unfold askedAt
  rw [minuteOf_eq]
  cases hdate : queryValue dateParameter url with
  | none =>
    rw [hdate] at h
    exact (Option.some.inj h).symm
  | some date =>
    rw [hdate] at h
    simp only [Option.filter_some, Bool.not_eq_eq_eq_not, Bool.not_true] at h
    rw [Option.bind_some]
    cases hempty : date.isEmpty with
    | true =>
      rw [String.isEmpty_iff] at hempty
      subst hempty
      exact (Option.some.inj h).symm
    | false =>
      simp only [hempty, if_true] at h
      obtain ⟨minute, hparse, rfl⟩ := Option.map_eq_some_iff.mp h
      rw [hparse]

/-- What a creator that states its spans answers: the end point's own answer, where there is one,
and nothing at all where the request fails on the way. -/
inductive StatesSpan (p : P256) (ch : Chrono) (schedule : PublicKeySchedule) (url : String)
    (now : Moment) : Except Error FetchResponse → Prop
  | stated {status body} (h : publicKeyResponseAt p ch schedule (queryValue formatParameter url)
      (queryValue dateParameter url) now = .ok (status, body)) :
    StatesSpan p ch schedule url now (.ok ⟨status, body⟩)
  | failed {e} : StatesSpan p ch schedule url now (.error e)

/-- What a creator that states its spans or not, as it chooses, answers. -/
inductive Honest (p : P256) (ch : Chrono) (schedule : PublicKeySchedule) (url : String)
    (now : Moment) : Except Error FetchResponse → Prop
  | states {response} (h : StatesSpan p ch schedule url now response) :
    Honest p ch schedule url now response
  | bare {key} (h : schedule.InForceAt (askedAt url now) key) :
    Honest p ch schedule url now
      (.ok ⟨200, (PublicKeyAnswer.new key.publicKeyPem none none).toJson ch⟩)

/-- Keys of distinct PEMs with distinct whole minute starts, from the base date to the end of the
year 9999. -/
structure PublicKeySchedule.Regular (s : PublicKeySchedule) : Prop where
  minute : ∀ key ∈ s.keys, ∃ m, key.startsAt = atMinute m
  before : ∀ key ∈ s.keys, key.startsAt < endOfYear9999
  starts : Set.InjOn DatedPublicKey.startsAt {key | key ∈ s.keys}
  pems : Set.InjOn DatedPublicKey.publicKeyPem {key | key ∈ s.keys}

/-- What the client has read states a key of the schedule in full. -/
def TellsKeyInForce (s : PublicKeySchedule) (asked : Moment) (pem : String)
    (start stop : Option Nat) : Prop :=
  ∃ key, s.InForceAt asked key ∧ pem = key.publicKeyPem ∧
    start = statedMinute (some key.startsAt) ∧ stop = statedMinute (s.nextStartAfter key)

variable {p : P256} {ch : Chrono} {s : PublicKeySchedule}

theorem PublicKeySchedule.Regular.read (hs : s.Regular) (hch : ch.Sound) {key : DatedPublicKey}
    (hkey : key ∈ s.keys) : ch.parseFromRfc3339 (ch.toRfc3339 key.startsAt) = some key.startsAt := by
  obtain ⟨m, hm⟩ := hs.minute key hkey
  have hseconds : key.startsAt = ⟨((1577836800 + 60 * m : Nat) : Int) * 1000000000⟩ := by
    rw [hm]
    apply Moment.ext
    simp only [atMinute, baseDate, Moment.addSeconds]
    push_cast
    omega
  rw [hseconds]
  exact hch.parse_toRfc3339 _ (hseconds ▸ hs.before key hkey)

theorem PublicKeySchedule.Regular.parse_answerFor (hs : s.Regular) (hch : ch.Sound)
    {key : DatedPublicKey} (hkey : key ∈ s.keys) :
    PublicKeyAnswer.parse ch ((s.answerFor key).toJson ch) = .ok (s.answerFor key) := by
  apply PublicKeyAnswer.parse_toJson
  · rintro d ⟨⟩
    exact hs.read hch hkey
  · intro d hd
    obtain ⟨⟨other, hother, -, rfl⟩, -⟩ := PublicKeySchedule.nextStartAfter_eq_some_iff.mp hd
    exact hs.read hch hother

/-- **What the client reads of an answer that states its span.** -/
theorem tells_of_statesSpan (hch : ch.Sound) (hs : s.Regular) {url : String} {now : Moment}
    {response : Except Error FetchResponse} (h : StatesSpan p ch s url now response) {pem : String}
    {start stop : Option Nat}
    (hread : requestPublicKey p ch url response = .ok (pem, start, stop)) :
    TellsKeyInForce s (askedAt url now) pem start stop := by
  obtain ⟨body, a, hresponse, hparse, -, rfl, rfl, rfl⟩ := requestPublicKey_eq_ok hread
  cases h with
  | failed => cases hresponse
  | stated h =>
    rw [Except.ok.injEq, FetchResponse.mk.injEq] at hresponse
    obtain ⟨rfl, rfl⟩ := hresponse
    obtain ⟨asked, key, hasked, hkey, rfl⟩ := publicKeyResponseAt_eq_ok h
    rw [hs.parse_answerFor hch hkey.mem, Except.ok.injEq] at hparse
    subst hparse
    rw [askedMoment_queryValue hasked] at hkey
    exact ⟨key, hkey, rfl, rfl, rfl⟩

/-- **What the client reads of an honest answer.** -/
theorem tells_of_honest (hch : ch.Sound) (hs : s.Regular) {url : String} {now : Moment}
    {response : Except Error FetchResponse} (h : Honest p ch s url now response) {pem : String}
    {start stop : Option Nat}
    (hread : requestPublicKey p ch url response = .ok (pem, start, stop)) :
    TellsKeyInForce s (askedAt url now) pem start stop ∨
      (∃ key, s.InForceAt (askedAt url now) key ∧ pem = key.publicKeyPem) ∧
        start = none ∧ stop = none := by
  cases h with
  | states h => exact .inl (tells_of_statesSpan hch hs h hread)
  | @bare key h =>
    obtain ⟨body, a, hresponse, hparse, -, rfl, rfl, rfl⟩ := requestPublicKey_eq_ok hread
    rw [Except.ok.injEq, FetchResponse.mk.injEq] at hresponse
    obtain ⟨-, rfl⟩ := hresponse
    rw [PublicKeyAnswer.parse_toJson (fun _ h => by cases h) (fun _ h => by cases h), Except.ok.injEq] at hparse
    subst hparse
    exact .inr ⟨⟨key, h, rfl⟩, rfl, rfl⟩

theorem le_u32Max_of_lt_end {m : Nat} (h : atMinute m < endOfYear9999) : m ≤ u32Max := by
  simp only [Moment.lt_def, atMinute_nanos, endOfYear9999, baseDate, minuteNanos] at h
  simp only [u32Max]
  omega

/-- A key stated in full, in minutes. -/
structure MinutesInForce (s : PublicKeySchedule) (key : DatedPublicKey) (first : Nat)
    (stop : Option Nat) : Prop where
  mem : key ∈ s.keys
  start : key.startsAt = atMinute first
  first_le : first ≤ u32Max
  last : stop = none → ∀ other ∈ s.keys, other.startsAt ≤ key.startsAt
  next : ∀ n ∈ stop, first < n ∧ n ≤ u32Max ∧ (∃ other ∈ s.keys, other.startsAt = atMinute n) ∧
    ∀ other ∈ s.keys, key.startsAt < other.startsAt → atMinute n ≤ other.startsAt

/-- The minutes stated are those of the schedule. -/
theorem TellsKeyInForce.minutes (hs : s.Regular) {asked : Moment} {pem : String}
    {start stop : Option Nat} (h : TellsKeyInForce s asked pem start stop) :
    ∃ key first, s.InForceAt asked key ∧ pem = key.publicKeyPem ∧ start = some first ∧
      MinutesInForce s key first stop := by
  obtain ⟨key, hkey, rfl, rfl, rfl⟩ := h
  have hcount : ∀ other ∈ s.keys, ∃ m ≤ u32Max, other.startsAt = atMinute m ∧
      statedMinute (some other.startsAt) = some m := by
    intro other hother
    obtain ⟨m, hm⟩ := hs.minute other hother
    have hle := le_u32Max_of_lt_end (hm ▸ hs.before other hother)
    exact ⟨m, hle, hm, by rw [statedMinute_some, hm, minutesSinceBase_atMinute hle]⟩
  obtain ⟨first, hfirst, hstart, hstated⟩ := hcount key hkey.mem
  refine ⟨key, first, hkey, rfl, hstated, hkey.mem, hstart, hfirst, ?_, ?_⟩
  · intro hnone
    cases hnext : s.nextStartAfter key with
    | none => exact PublicKeySchedule.nextStartAfter_eq_none_iff.mp hnext
    | some stop =>
      obtain ⟨⟨other, hother, -, rfl⟩, -⟩ := PublicKeySchedule.nextStartAfter_eq_some_iff.mp hnext
      obtain ⟨m, -, -, hm⟩ := hcount other hother
      rw [hnext, hm] at hnone
      cases hnone
  · intro n hn
    cases hnext : s.nextStartAfter key with
    | none =>
      rw [hnext] at hn
      cases hn
    | some stop =>
      obtain ⟨⟨other, hother, hlater, rfl⟩, hleast⟩ :=
        PublicKeySchedule.nextStartAfter_eq_some_iff.mp hnext
      obtain ⟨m, hle, hm, hcounted⟩ := hcount other hother
      rw [hnext, hcounted] at hn
      cases hn
      rw [hstart, hm, atMinute_lt_iff] at hlater
      exact ⟨hlater, hle, ⟨other, hother, hm⟩, hm ▸ hleast⟩

/-- The key stated is in force at every minute from its start that is before its end. -/
theorem MinutesInForce.inForce {key : DatedPublicKey} {first : Nat} {stop : Option Nat}
    (h : MinutesInForce s key first stop) {minute : Nat} (hfrom : first ≤ minute)
    (hto : ∀ n ∈ stop, minute < n) : s.InForceAt (atMinute minute) key := by
  rw [PublicKeySchedule.InForceAt, inForce_iff, h.start]
  refine ⟨h.mem, atMinute_le_iff.mpr hfrom, ?_⟩
  intro other hother hlater
  cases hstop : stop with
  | none => exact absurd (h.last hstop other hother) (not_le.mpr (h.start ▸ hlater))
  | some n =>
    obtain ⟨-, -, -, hleast⟩ := h.next n hstop
    exact lt_of_lt_of_le (atMinute_lt_iff.mpr (hto n hstop)) (hleast other hother (h.start ▸ hlater))

/-! ## A schedule of two keys -/

section TwoKeys

variable {a b : DatedPublicKey} {first second : Nat}

theorem PublicKeySchedule.regular_of_two (hkeys : ∀ key, key ∈ s.keys ↔ key = a ∨ key = b)
    (ha : a.startsAt = atMinute first) (hb : b.startsAt = atMinute second) (hlt : first < second)
    (hend : b.startsAt < endOfYear9999) (hpems : a.publicKeyPem ≠ b.publicKeyPem) : s.Regular := by
  have hstarts : a.startsAt < b.startsAt := by
    rw [ha, hb]
    exact atMinute_lt_iff.mpr hlt
  refine ⟨?_, ?_, ?_, ?_⟩
  · intro key hkey
    rcases (hkeys key).mp hkey with rfl | rfl
    · exact ⟨first, ha⟩
    · exact ⟨second, hb⟩
  · intro key hkey
    rcases (hkeys key).mp hkey with rfl | rfl
    · exact hstarts.trans hend
    · exact hend
  · intro x hx y hy h
    rcases (hkeys x).mp hx with rfl | rfl <;> rcases (hkeys y).mp hy with rfl | rfl
    · rfl
    · exact absurd h hstarts.ne
    · exact absurd h hstarts.ne'
    · rfl
  · intro x hx y hy h
    rcases (hkeys x).mp hx with rfl | rfl <;> rcases (hkeys y).mp hy with rfl | rfl
    · rfl
    · exact absurd h hpems
    · exact absurd h hpems.symm
    · rfl

/-- The first key is in force up to the start of the second, which is the last. -/
theorem minutesInForce_of_two (hkeys : ∀ key, key ∈ s.keys ↔ key = a ∨ key = b)
    (ha : a.startsAt = atMinute first) (hb : b.startsAt = atMinute second) (hlt : first < second)
    (hmax : second ≤ u32Max) :
    MinutesInForce s a first (some second) ∧ MinutesInForce s b second none := by
  have hstarts : a.startsAt < b.startsAt := by
    rw [ha, hb]
    exact atMinute_lt_iff.mpr hlt
  refine ⟨⟨(hkeys a).mpr (.inl rfl), ha, by omega, by simp, ?_⟩,
    ⟨(hkeys b).mpr (.inr rfl), hb, hmax, ?_, by simp⟩⟩
  · rintro _ ⟨⟩
    refine ⟨hlt, hmax, ⟨b, (hkeys b).mpr (.inr rfl), hb⟩, ?_⟩
    intro other hother hlater
    rcases (hkeys other).mp hother with rfl | rfl
    · exact absurd hlater (lt_irrefl _)
    · exact le_of_eq hb.symm
  · intro _ other hother
    rcases (hkeys other).mp hother with rfl | rfl
    · exact hstarts.le
    · exact le_refl _

end TwoKeys

def firstKey : DatedPublicKey := ⟨atMinute 10, samplePem⟩

def secondKey : DatedPublicKey := ⟨atMinute 20, nextPem⟩

def sampleSchedule : PublicKeySchedule where
  keys := [firstKey, secondKey]
  sorted := by
    simp only [List.pairwise_cons, List.mem_singleton, forall_eq, List.not_mem_nil,
      IsEmpty.forall_iff, implies_true, List.Pairwise.nil, and_true]
    exact atMinute_le_iff.mpr (by decide)

theorem mem_sampleSchedule {key : DatedPublicKey} :
    key ∈ sampleSchedule.keys ↔ key = firstKey ∨ key = secondKey := by
  simp [sampleSchedule]

theorem sampleSchedule_regular : sampleSchedule.Regular :=
  PublicKeySchedule.regular_of_two (fun _ => mem_sampleSchedule) rfl rfl (by decide)
    (by decide +kernel) nextPem_ne_samplePem.symm

/-- The first key is in force from minute 10 to minute 19, the second from minute 20 on. -/
theorem firstKey_inForce {moment : Moment} (hfrom : atMinute 10 ≤ moment)
    (hto : moment < atMinute 20) : sampleSchedule.InForceAt moment firstKey := by
  rw [PublicKeySchedule.InForceAt, inForce_iff]
  refine ⟨mem_sampleSchedule.mpr (.inl rfl), hfrom, ?_⟩
  intro other hother hlater
  rcases mem_sampleSchedule.mp hother with rfl | rfl
  · exact absurd hlater (lt_irrefl _)
  · exact hto

/-! ## Callers beside a creator -/

structure Timed where
  sys : System
  schedule : PublicKeySchedule
  /-- What the creator's clock reads. -/
  creator : Moment
  /-- What the local clock reads. -/
  here : Moment
  /-- What the creator's clock read when it answered the request of a fetch. -/
  answeredAt : Nat → Moment

inductive TimedEvent where
  | tick (creator here : Moment)
  | publish (key : DatedPublicKey)
  | sys (e : Event)

/-- An answer read and not recorded, with what its caller asked. -/
structure Reading where
  url : String
  recent : Bool
  flight : Nat
  pem : String
  start : Option Nat
  stop : Option Nat

/-- The answer a caller has read and not recorded. -/
def Caller.reading (caller : Caller) : Option Reading :=
  match caller.phase with
  | .answered f (.ok (pem, start, stop)) => some ⟨caller.url, caller.recent, f, pem, start, stop⟩
  | _ => none

namespace Timed

/-- Nothing asked for yet. -/
def start (schedule : PublicKeySchedule) (creator here : Moment) : Timed :=
  ⟨.init, schedule, creator, here, fun _ => creator⟩

/-- The fetch whose request an event answers. -/
def answers (t : Timed) : Event → Option Nat
  | .respond c _ => (t.sys.callers c).bind fun caller => caller.phase.owns
  | _ => none

/-- The state after an event of the callers. -/
def after (t : Timed) (e : Event) (sys : System) : Timed :=
  { t with
    sys := sys
    answeredAt :=
      match t.answers e with
      | some f => Function.update t.answeredAt f t.creator
      | none => t.answeredAt }

/-- One event, passed over where it cannot happen. -/
def next (p : P256) (ch : Chrono) (t : Timed) : TimedEvent → Timed
  | .tick creator here => { t with creator := creator, here := here }
  | .publish key => { t with schedule := .new (t.schedule.keys ++ [key]) }
  | .sys e =>
    match System.step p ch t.sys e with
    | none => t
    | some sys => t.after e sys

variable {t : Timed} {e : Event} {u : System}

@[simp] theorem next_sys_schedule (e : Event) : (t.next p ch (.sys e)).schedule = t.schedule := by
  rw [next]
  split <;> rfl

@[simp] theorem next_sys_creator (e : Event) : (t.next p ch (.sys e)).creator = t.creator := by
  rw [next]
  split <;> rfl

@[simp] theorem next_sys_here (e : Event) : (t.next p ch (.sys e)).here = t.here := by
  rw [next]
  split <;> rfl

/-- An answer recorded. -/
theorem next_record {c f : Nat} {now : Moment} {caller : Caller} {pem : String}
    {start stop : Option Nat} (hc : t.sys.callers c = some caller)
    (hp : caller.phase = .answered f (.ok (pem, start, stop))) :
    (t.next p ch (.sys (.record c now))).sys = t.sys.hold c caller f now pem start stop := by
  simp only [next, System.step, hc, Option.bind_some, hp]
  rfl

theorem wf_next (hs : t.sys.Wf) (e : TimedEvent) : (t.next p ch e).sys.Wf := by
  cases e with
  | tick | publish => exact hs
  | sys e =>
    rw [next]
    cases hstep : System.step p ch t.sys e with
    | none => exact hs
    | some u => exact System.wf_of_moves hs (System.moves_of_step hstep)

/-- The moment a fetch was answered at stays, but where its request is answered now. -/
theorem answeredAt_after {f : Nat} (h : t.answers e ≠ some f) :
    (t.after e u).answeredAt f = t.answeredAt f := by
  unfold after
  cases hanswers : t.answers e with
  | none => rfl
  | some g =>
    have hne : f ≠ g := by
      rintro rfl
      exact h hanswers
    exact Function.update_of_ne hne _ _

/-- A caller with an answer not recorded had it before, or is answered now. -/
theorem reading_of_moves (hs : t.sys.Wf) (hm : System.Moves p ch t.sys e u) {c : Nat}
    {caller : Caller} {r : Reading} (h : u.callers c = some caller)
    (hr : caller.reading = some r) :
    (t.sys.callers c = some caller ∧ t.answers e ≠ some r.flight) ∨
      ∃ before response, e = .respond c response ∧ t.sys.callers c = some before ∧
        before.phase = .requesting r.flight ∧ r.url = before.url ∧ r.recent = before.recent ∧
        requestPublicKey p ch before.url response = .ok (r.pem, r.start, r.stop) ∧
        t.answers e = some r.flight := by
  have howns : caller.phase.owns = some r.flight := by
    unfold Caller.reading at hr
    split at hr
    · rename_i hphase
      cases hr
      rw [hphase]
      rfl
    · cases hr
  cases hm with
  | clear | park => exact .inl ⟨h, nofun⟩
  | call hnew =>
    rcases System.caller_cases h with ⟨rfl, rfl⟩ | ⟨-, h⟩
    · cases hr
    · exact .inl ⟨h, nofun⟩
  | @respond c' before f response hc hp =>
    have hanswers : t.answers (.respond c' response) = some f := by
      rw [answers, hc, Option.bind_some, hp]
      rfl
    rcases System.caller_cases h with ⟨rfl, rfl⟩ | ⟨hne, hother⟩
    · right
      unfold Caller.reading at hr
      split at hr
      · rename_i hphase
        rw [Phase.answered.injEq] at hphase
        obtain ⟨rfl, hresult⟩ := hphase
        cases hr
        exact ⟨before, response, rfl, hc, hp, rfl, rfl, hresult, hanswers⟩
      · cases hr
    · refine .inl ⟨hother, ?_⟩
      rw [hanswers]
      rintro ⟨⟩
      exact hne (hs.owner _ _ _ _ _ hother hc howns (by rw [hp]; rfl))
  | @finish c' before f outcome hc hp =>
    rcases System.caller_cases h with ⟨rfl, rfl⟩ | ⟨-, h⟩
    · cases outcome <;> cases hr
    · exact .inl ⟨h, nofun⟩
  | serve hc hp | join hc hp | elect hc hp | send hc hp | record hc hp | fail hc hp
  | release hc hp | wake hc hp | retry hc hp | leave hc hp | abandon hc hp =>
    rcases System.caller_cases h with ⟨rfl, rfl⟩ | ⟨-, h⟩
    · cases hr
    · exact .inl ⟨h, nofun⟩

/-! ## An invariant of the held keys of an end point -/

/-- What is known of the answers not yet recorded for an end point, and of its held keys. -/
structure CacheInv (E : String) (A : Timed → Reading → Prop) (K : Timed → HeldKey → Prop)
    (t : Timed) : Prop where
  answered : ∀ c caller r, t.sys.callers c = some caller → caller.reading = some r →
    endPointOf r.url = E → A t r
  held : ∀ k ∈ t.sys.cache.heldAt E, K t k

variable {E : String} {A : Timed → Reading → Prop} {K : Timed → HeldKey → Prop}

/-- What an event of the callers asks of the invariant: that it stays what it was where the fetch
is not answered now, that an answer made now satisfies it, and that an answer that does is recorded
as held keys that do. -/
structure Sustains (E : String) (A : Timed → Reading → Prop) (K : Timed → HeldKey → Prop)
    (p : P256) (ch : Chrono) (t : Timed) (e : Event) (u : System) : Prop where
  keepsAnswer : ∀ r, (t.after e u).answeredAt r.flight = t.answeredAt r.flight → A t r →
    A (t.after e u) r
  keepsKey : ∀ k, K t k → K (t.after e u) k
  answer : ∀ c caller response r, e = .respond c response → t.sys.callers c = some caller →
    caller.phase = .requesting r.flight → r.url = caller.url → r.recent = caller.recent →
    endPointOf r.url = E →
    requestPublicKey p ch r.url response = .ok (r.pem, r.start, r.stop) →
    (t.after e u).answeredAt r.flight = t.creator → A (t.after e u) r
  record : ∀ c now caller r span, e = .record c now → t.sys.callers c = some caller →
    caller.reading = some r → endPointOf r.url = E → A t r →
    heldSpan now (minuteOf r.url) r.recent r.start r.stop = some span →
    K (t.after e u) (span.key r.pem) ∧
      ∀ key ∈ t.sys.cache.heldAt E, K t key → key.pem = r.pem → K (t.after e u) (key.joined span)

/-- **The invariant is kept by an event that sustains it.** -/
theorem cacheInv_after (hs : t.sys.Wf) (h : CacheInv E A K t)
    (hm : System.Moves p ch t.sys e u) (hsus : Sustains E A K p ch t e u) :
    CacheInv E A K (t.after e u) := by
  have hkept : u.cache.keys = t.sys.cache.keys → ∀ k ∈ u.cache.heldAt E, K (t.after e u) k := by
    intro hkeys k hk
    rw [Cache.heldAt, hkeys] at hk
    exact hsus.keepsKey k (h.held k hk)
  refine ⟨?_, ?_⟩
  · intro c caller r hc hr hE
    rcases reading_of_moves hs hm hc hr with ⟨hbefore, hanswers⟩ |
      ⟨before, response, he, hbefore, hphase, hurl, hrecent, hresult, hanswers⟩
    · exact hsus.keepsAnswer r (answeredAt_after hanswers) (h.answered c caller r hbefore hr hE)
    · refine hsus.answer c before response r he hbefore hphase hurl hrecent hE
        (hurl ▸ hresult) ?_
      simp only [after, hanswers, Function.update_self]
  · show ∀ k ∈ u.cache.heldAt E, K (t.after e u) k
    cases hm with
    | call | serve | join | elect | send | respond | fail | release | finish | wake | retry | park
    | leave | abandon => exact hkept rfl
    | clear => exact fun k hk => by cases hk
    | @record c caller f now pem start stop hc hp =>
      intro k hk
      have hr : caller.reading = some ⟨caller.url, caller.recent, f, pem, start, stop⟩ := by
        rw [Caller.reading, hp]
      rcases System.mem_heldAt_hold hk with hk | ⟨span, hspan, hE, hk⟩
      · exact hsus.keepsKey k (h.held k hk)
      · obtain ⟨hnew, hjoined⟩ := hsus.record c now caller _ span rfl hc hr hE.symm
          (h.answered c caller _ hc hr hE.symm) hspan
        rcases hk with ⟨key, hkey, hpem, rfl⟩ | rfl
        · exact hjoined key hkey (h.held key hkey) hpem
        · exact hnew

theorem cacheInv_start (schedule : PublicKeySchedule) (creator here : Moment) :
    CacheInv E A K (start schedule creator here) := by
  refine ⟨?_, fun k hk => by cases hk⟩
  intro c caller r h
  simp [start, System.init] at h

end Timed

end OwidRust
