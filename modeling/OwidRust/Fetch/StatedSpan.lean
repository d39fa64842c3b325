import OwidRust.Fetch.CacheInv
import OwidRust.Fetch.Request

/-!
# The span a creator states and the minutes a client reads of it

A creator selects its key on full moments: the key is in force from its start until the next one.
The client counts the two moments in whole minutes, each rounded down by itself.

* `covers_stated_iff`, `heldAt_hold_fresh` — what is covered and held for two counts;
* `reads_span_iff` — the client reads the span exactly where its moments are whole minutes, up to
  the last minute there is.
-/

namespace OwidRust

/-- The creator's rule: the moment of the minute is from the start on and before the end. -/
def InSpan (start : Moment) (stop : Option Moment) (minute : Nat) : Prop :=
  start ≤ atMinute minute ∧ ∀ d ∈ stop, atMinute minute < d

/-- A whole minute that a `u32` counts. -/
def WholeMinute (d : Moment) : Prop := ∃ minute ≤ u32Max, d = atMinute minute

/-- The minutes covered are those of the span, and none beyond them is held from nothing. -/
structure ReadsSpan (φ : Type) (start : Moment) (stop : Option Moment) (pem : String)
    (first last : Option Nat) : Prop where
  covers : ∀ minute ≤ u32Max,
    (KeyAnswer.stated pem first last).covers minute = true ↔ InSpan start stop minute
  holds : ∀ (c : Cache φ) now endPoint asked recent, c.heldAt endPoint = [] →
    (∀ m ∈ asked, m ≤ u32Max) →
    ∀ k ∈ (c.hold now endPoint asked recent pem first last).1.heldAt endPoint,
      ∀ minute, k.first ≤ minute → minute ≤ k.last → InSpan start stop minute

theorem covers_stated_iff (pem : String) (first : Nat) (last : Option Nat) (minute : Nat) :
    (KeyAnswer.stated pem (some first) last).covers minute = true ↔
      first ≤ minute ∧ ((∃ stop ∈ last, first < stop ∧ minute < stop) ∨
        (¬ ∃ stop ∈ last, first < stop) ∧ minute ≤ u32Max) := by
  cases last with
  | none => simp [KeyAnswer.stated, KeyAnswer.ofSpan, KeyAnswer.covers_iff]
  | some stop =>
    simp only [KeyAnswer.stated, Option.mem_def, Option.some.injEq, exists_eq_left']
    split
    · rename_i h
      simp only [KeyAnswer.covers_iff, KeyAnswer.ofSpan, true_and, h, not_true_eq_false, false_and,
        or_false]
      omega
    · rename_i h
      simp only [KeyAnswer.covers_iff, KeyAnswer.ofSpan, true_and, h, not_false_eq_true, false_and,
        false_or]

/-- What is held for an end point that held nothing. -/
theorem heldAt_hold_fresh {φ : Type} {c : Cache φ} {endPoint : String}
    (h : c.heldAt endPoint = []) (now : Moment) (minute : Option Nat) (recent : Bool)
    (pem : String) (start stop : Option Nat) :
    (c.hold now endPoint minute recent pem start stop).1.heldAt endPoint =
      ((heldSpan now minute recent start stop).map (·.key pem)).toList := by
  have hroom : c.room.heldAt endPoint = [] := by
    apply List.eq_nil_iff_forall_not_mem.mpr
    intro key hkey
    have := Cache.mem_heldAt_room hkey
    rw [h] at this
    cases this
  unfold Cache.hold
  cases heldSpan now minute recent start stop with
  | none => exact h
  | some span =>
    have hadds : c.take endPoint pem span = c.add endPoint (span.key pem) := by
      apply Cache.take_adds
      intro other hother
      rw [h] at hother
      cases hother
    simp only [hadds, Cache.heldAt_add, if_true, hroom]
    rfl

theorem nowMinute_le (now : Moment) : nowMinute now ≤ u32Max := by
  unfold nowMinute
  cases h : minutesSinceBase now with
  | none => exact le_refl _
  | some minute => exact minutesSinceBase_le h

theorem nowMinute_atMinute {minute : Nat} (h : minute ≤ u32Max) :
    nowMinute (atMinute minute) = minute := by
  rw [nowMinute, minutesSinceBase_atMinute h, Option.getD_some]

/-- The count of a moment from the base date on, against its whole minutes. -/
theorem count_spec {d : Moment} (hbase : baseDate ≤ d) {n : Nat}
    (h : minutesSinceBase d = some n) :
    atMinute n ≤ d ∧ d < atMinute (n + 1) ∧ n ≤ u32Max :=
  (minutesSinceBase_eq_some_iff hbase).mp h

theorem wholeMinute_iff {d : Moment} (hbase : baseDate ≤ d) {n : Nat}
    (h : minutesSinceBase d = some n) : WholeMinute d ↔ d = atMinute n := by
  constructor
  · rintro ⟨m, hm, rfl⟩
    rw [minutesSinceBase_atMinute hm] at h
    cases h
    rfl
  · rintro rfl
    exact ⟨n, minutesSinceBase_le h, rfl⟩

/-- A minute there is a count for is covered from the start on and before the end that counts. -/
theorem covers_stated_iff_forall (pem : String) (first : Nat) (last : Option Nat) {minute : Nat}
    (hminute : minute ≤ u32Max) :
    (KeyAnswer.stated pem (some first) last).covers minute = true ↔
      first ≤ minute ∧ ∀ stop ∈ last, first < stop → minute < stop := by
  rw [covers_stated_iff]
  apply and_congr_right
  intro _
  constructor
  · rintro (⟨stop, hstop, hlt, hm⟩ | ⟨hnone, -⟩) stop' hstop' hlt'
    · rw [Option.mem_def] at hstop hstop'
      rw [hstop, Option.some.injEq] at hstop'
      exact hstop' ▸ hm
    · exact absurd ⟨stop', hstop', hlt'⟩ hnone
  · intro h
    by_cases hex : ∃ stop ∈ last, first < stop
    · obtain ⟨stop, hstop, hlt⟩ := hex
      exact .inl ⟨stop, hstop, hlt, h stop hstop hlt⟩
    · exact .inr ⟨hex, hminute⟩

/-- The span held for a start is the one stated, cut off behind now where no end counts. -/
theorem heldSpan_of_start {now : Moment} {asked : Option Nat} {recent : Bool} {first : Nat}
    (hfirst : first ≤ u32Max) {last : Option Nat} (hlast : ∀ stop ∈ last, stop ≤ u32Max)
    {span : Span} (h : heldSpan now asked recent (some first) last = some span) :
    span.first = first ∧ span.last ≤ u32Max ∧
      ∀ stop ∈ last, first < stop → span.last = stop - 1 := by
  have hnow := nowMinute_le now
  cases hstop : last with
  | none =>
    rw [hstop, heldSpan] at h
    cases h
    refine ⟨rfl, ?_, by simp⟩
    simp only [startOnly]
    omega
  | some stop =>
    have hle : stop ≤ u32Max := hlast stop hstop
    rw [hstop, heldSpan] at h
    split at h
    · cases h
      refine ⟨rfl, by simp only; omega, ?_⟩
      rintro _ ⟨⟩ _
      rfl
    · rename_i hnot
      cases h
      refine ⟨rfl, by simp only [startOnly]; omega, ?_⟩
      rintro _ ⟨⟩ hlt
      exact absurd hlt hnot

/-- Where both moments are whole minutes the creator's rule is the one on the counts. -/
theorem inSpan_iff_of_whole {first : Nat} {stop : Option Moment}
    (hstop : ∀ d ∈ stop, atMinute first < d ∧ ∃ n, minutesSinceBase d = some n)
    (hwhole : (∀ d ∈ stop, WholeMinute d) ∨ first = u32Max) {minute : Nat}
    (hminute : minute ≤ u32Max) :
    InSpan (atMinute first) stop minute ↔
      first ≤ minute ∧ ∀ last ∈ statedMinute stop, first < last → minute < last := by
  unfold InSpan
  rw [atMinute_le_iff]
  apply and_congr_right
  intro hle
  by_cases hall : ∀ d ∈ stop, WholeMinute d
  · -- an end that is a whole minute is counted as that minute, later than the start
    have hend : ∀ d ∈ stop, ∃ last, first < last ∧ d = atMinute last ∧
        statedMinute stop = some last := by
      rintro d hd
      obtain ⟨last, hlast, rfl⟩ := hall d hd
      refine ⟨last, atMinute_lt_iff.mp (hstop _ hd).1, rfl, ?_⟩
      rw [Option.mem_def.mp hd, statedMinute_some, minutesSinceBase_atMinute hlast]
    constructor
    · intro h last hlast _
      obtain ⟨d, hd, -⟩ := Option.bind_eq_some_iff.mp (Option.mem_def.mp hlast)
      obtain ⟨last', -, rfl, hlast'⟩ := hend d hd
      rw [Option.mem_def, hlast', Option.some.injEq] at hlast
      exact hlast ▸ atMinute_lt_iff.mp (h _ hd)
    · intro h d hd
      obtain ⟨last, hlt, rfl, hlast⟩ := hend d hd
      exact atMinute_lt_iff.mpr (h last hlast hlt)
  · -- the start is the last minute there is, and the end counts for none after it
    have hmax := hwhole.resolve_left hall
    constructor
    · intro _ last hlast hlt
      obtain ⟨d, -, hd⟩ := Option.bind_eq_some_iff.mp (Option.mem_def.mp hlast)
      have := minutesSinceBase_le hd
      omega
    · intro _ d hd
      have hlast : minute = first := by omega
      exact hlast ▸ (hstop d hd).1

/-- Where both moments are whole minutes the span is read as it is meant. -/
theorem readsSpan_of_whole {φ : Type} {first : Nat} (hfirst : first ≤ u32Max)
    {stop : Option Moment} (hstop : ∀ d ∈ stop, atMinute first < d ∧ ∃ n, minutesSinceBase d = some n)
    (hwhole : (∀ d ∈ stop, WholeMinute d) ∨ first = u32Max) (pem : String) :
    ReadsSpan φ (atMinute first) stop pem (some first) (statedMinute stop) := by
  have hcounted : ∀ last ∈ statedMinute stop, last ≤ u32Max := by
    intro last hlast
    obtain ⟨d, -, hd⟩ := Option.bind_eq_some_iff.mp (Option.mem_def.mp hlast)
    exact minutesSinceBase_le hd
  refine ⟨?_, ?_⟩
  · intro minute hminute
    rw [covers_stated_iff_forall pem first _ hminute, inSpan_iff_of_whole hstop hwhole hminute]
  · intro c now endPoint asked recent hempty _ k hk minute hf hl
    rw [heldAt_hold_fresh hempty, Option.mem_toList, Option.map_eq_some_iff] at hk
    obtain ⟨span, hheld, rfl⟩ := hk
    simp only [Span.key] at hf hl
    obtain ⟨hspanFirst, hmax, hlast⟩ := heldSpan_of_start hfirst hcounted hheld
    rw [inSpan_iff_of_whole hstop hwhole (by omega)]
    refine ⟨by omega, ?_⟩
    intro last hmem hlt
    have := hlast last hmem hlt
    omega

/-- A span read as it is meant starts at a moment there is a count for: of a later start the minute
asked about is held on its own, long before it. -/
theorem ReadsSpan.exists_count {φ : Type} {start : Moment} {stop : Option Moment} {pem : String}
    {last : Option Nat} (h : ReadsSpan φ start stop pem (minutesSinceBase start) last)
    (hbase : baseDate ≤ start) : ∃ n, minutesSinceBase start = some n := by
  rw [← Option.ne_none_iff_exists']
  intro hcount
  rw [hcount] at h
  have hheld := heldAt_hold_fresh (Cache.heldAt_empty (φ := φ) "") baseDate (some 0) false
    pem none last
  have hspan := h.holds .empty baseDate "" (some 0) false (Cache.heldAt_empty "") (by simp)
    ⟨pem, 0, 0, false, false⟩ (by rw [hheld]; simp [heldSpan, Span.key]) 0 (le_refl _)
    (le_refl _)
  have hfar := (minutesSinceBase_eq_none_iff hbase).mp hcount
  exact absurd (atMinute_le_iff.mp (le_trans hfar hspan.1)) (Nat.not_succ_le_zero u32Max)

/-- A span read as it is meant starts at a whole minute, as the minute the start lies in is
covered. -/
theorem ReadsSpan.start_eq {φ : Type} {start : Moment} {stop : Option Moment} {pem : String}
    {n : Nat} {last : Option Nat} (h : ReadsSpan φ start stop pem (some n) last)
    (hbase : baseDate ≤ start) (hcount : minutesSinceBase start = some n) :
    start = atMinute n := by
  obtain ⟨hle, -, hmax⟩ := count_spec hbase hcount
  have hcovered : (KeyAnswer.stated pem (some n) last).covers n = true :=
    (covers_stated_iff_forall pem n last hmax).mpr ⟨le_refl _, fun _ _ hlt => hlt⟩
  exact le_antisymm ((h.covers n hmax).mp hcovered).1 hle

/-- A span read as it is meant ends at a whole minute, unless it starts with the last minute there
is: otherwise the minute the end lies in is left out, or every later one is covered. -/
theorem ReadsSpan.stop_whole {φ : Type} {n k : Nat} {stop : Moment} {pem : String}
    (h : ReadsSpan φ (atMinute n) (some stop) pem (some n) (some k)) (hn : n < u32Max)
    (horder : atMinute n < stop) (hcount : minutesSinceBase stop = some k) :
    WholeMinute stop := by
  have hbase : baseDate ≤ stop := (baseDate_le_atMinute n).trans horder.le
  obtain ⟨hle, hlt, hmax⟩ := count_spec hbase hcount
  rw [wholeMinute_iff hbase hcount]
  by_contra hne
  have hnk : n ≤ k := Nat.lt_succ_iff.mp (atMinute_lt_iff.mp (horder.trans hlt))
  rcases Nat.lt_or_eq_of_le hnk with hafter | rfl
  · -- the end lies inside minute `k`, which is left out
    have hin : InSpan (atMinute n) (some stop) k := by
      refine ⟨atMinute_le_iff.mpr hnk, ?_⟩
      rintro _ ⟨⟩
      exact lt_of_le_of_ne hle (Ne.symm hne)
    have hcovered := (h.covers k hmax).mpr hin
    rw [covers_stated_iff_forall pem n _ hmax] at hcovered
    exact absurd (hcovered.2 k rfl hafter) (lt_irrefl k)
  · -- start and end lie in one minute, and every later one is covered
    have hcovers : (KeyAnswer.stated pem (some n) (some n)).covers (n + 1) = true := by
      rw [covers_stated_iff_forall pem n _ hn]
      refine ⟨Nat.le_succ n, ?_⟩
      rintro _ ⟨⟩ hlt
      exact absurd hlt (lt_irrefl n)
    have hbefore := ((h.covers (n + 1) hn).mp hcovers).2 stop rfl
    exact absurd (hbefore.trans hlt) (lt_irrefl _)

/-- **The client reads a stated span as the creator's own rule means it exactly where** its start
is a whole minute there is a count for, and its end is one too, if there is one, unless the start
is the last minute there is. -/
theorem reads_span_iff {φ : Type} {p : P256} {ch : Chrono} {url body : String}
    {a : PublicKeyAnswer} {start : Moment} {pem : String} {first last : Option Nat}
    (hparse : PublicKeyAnswer.parse ch body = .ok a) (hvalid : a.validate p none = .ok ())
    (hstart : a.validFrom = some start) (hbase : baseDate ≤ start)
    (hrange : ∀ stop ∈ a.validTo, ∃ n, minutesSinceBase stop = some n)
    (hrequest : requestPublicKey p ch url (.ok ⟨200, body⟩) = .ok (pem, first, last)) :
    ReadsSpan φ start a.validTo pem first last ↔
      WholeMinute start ∧
        ((∀ stop ∈ a.validTo, WholeMinute stop) ∨ minutesSinceBase start = some u32Max) := by
  rw [requestPublicKey_of_parse hparse hvalid] at hrequest
  simp only [Except.ok.injEq, Prod.mk.injEq] at hrequest
  obtain ⟨rfl, rfl, rfl⟩ := hrequest
  have horder : ∀ stop ∈ a.validTo, start < stop := by
    obtain ⟨-, -, hspan, -⟩ := PublicKeyAnswer.validate_eq_ok_iff.mp hvalid
    intro stop hstop
    obtain ⟨start', hstart', hlt⟩ := PublicKeyAnswer.checkSpan_eq_ok_iff.mp hspan stop hstop
    rw [Option.mem_def, hstart, Option.some.injEq] at hstart'
    exact hstart' ▸ hlt
  rw [hstart, statedMinute_some]
  constructor
  · intro h
    obtain ⟨n, hcount⟩ := h.exists_count hbase
    rw [hcount] at h
    have hmax := minutesSinceBase_le hcount
    obtain rfl := h.start_eq hbase hcount
    refine ⟨⟨n, hmax, rfl⟩, ?_⟩
    rcases Nat.lt_or_eq_of_le hmax with hlt | hlast
    · left
      intro stop hstop
      obtain ⟨k, hk⟩ := hrange stop hstop
      have hordered := horder stop hstop
      rw [Option.mem_def.mp hstop, statedMinute_some, hk] at h
      exact h.stop_whole hlt hordered hk
    · right
      rw [hcount, hlast]
  · rintro ⟨⟨n, hn, rfl⟩, hwhole⟩
    rw [minutesSinceBase_atMinute hn] at hwhole ⊢
    apply readsSpan_of_whole hn
    · intro d hd
      exact ⟨horder d hd, hrange d hd⟩
    · exact hwhole.imp_right fun h => Option.some.inj h

/-- A key in force from minute 10 to minute 20. -/
def wholeAnswer : PublicKeyAnswer := .new samplePem (some (atMinute 10)) (some (atMinute 20))

theorem parse_wholeAnswer : PublicKeyAnswer.parse sampleChrono (wholeAnswer.toJson sampleChrono) =
    .ok wholeAnswer :=
  PublicKeyAnswer.parse_toJson (fun d hd => by cases hd; decide +kernel)
    (fun d hd => by cases hd; decide +kernel)

theorem validate_wholeAnswer : wholeAnswer.validate sampleP256 none = .ok () :=
  PublicKeyAnswer.validate_eq_ok_iff.mpr ⟨rfl, readable_samplePem, by decide +kernel, rfl⟩

/-- The whole minutes are read as they are meant. -/
theorem reads_span_iff_whole :
    ReadsSpan Unit (atMinute 10) (some (atMinute 20)) samplePem (some 10) (some 20) := by
  have hrequest : requestPublicKey sampleP256 sampleChrono ""
      (.ok ⟨200, wholeAnswer.toJson sampleChrono⟩) = .ok (samplePem, some 10, some 20) := by
    rw [requestPublicKey_of_parse parse_wholeAnswer validate_wholeAnswer]
    decide +kernel
  refine (reads_span_iff parse_wholeAnswer validate_wholeAnswer rfl (baseDate_le_atMinute 10) ?_
    hrequest).mpr ⟨?_, .inl ?_⟩
  · intro stop hstop
    cases hstop
    exact ⟨20, by decide +kernel⟩
  · exact ⟨10, by decide, rfl⟩
  · intro stop hstop
    cases hstop
    exact ⟨20, by decide, rfl⟩

/-- A key in force for half of minute 10. -/
def halfMinuteAnswer : PublicKeyAnswer :=
  .new samplePem (some ((atMinute 10).addSeconds 10)) (some ((atMinute 10).addSeconds 40))

theorem parse_halfMinuteAnswer :
    PublicKeyAnswer.parse sampleChrono (halfMinuteAnswer.toJson sampleChrono) =
      .ok halfMinuteAnswer :=
  PublicKeyAnswer.parse_toJson (fun d hd => by cases hd; decide +kernel)
    (fun d hd => by cases hd; decide +kernel)

theorem validate_halfMinuteAnswer : halfMinuteAnswer.validate sampleP256 none = .ok () :=
  PublicKeyAnswer.validate_eq_ok_iff.mpr ⟨rfl, readable_samplePem, by decide +kernel, rfl⟩

/-- The half minute is read as every minute from 10 on. -/
theorem reads_span_half_minute :
    requestPublicKey sampleP256 sampleChrono ""
      (.ok ⟨200, halfMinuteAnswer.toJson sampleChrono⟩) = .ok (samplePem, some 10, some 10) ∧
    (∀ minute, 10 ≤ minute → minute ≤ u32Max →
      (KeyAnswer.stated samplePem (some 10) (some 10)).covers minute = true) ∧
    ¬ ReadsSpan Unit ((atMinute 10).addSeconds 10) (some ((atMinute 10).addSeconds 40)) samplePem
      (some 10) (some 10) := by
  refine ⟨?_, ?_, ?_⟩
  · rw [requestPublicKey_of_parse parse_halfMinuteAnswer validate_halfMinuteAnswer]
    decide +kernel
  · intro minute hfrom hto
    simp [covers_stated_iff, hfrom, hto]
  · intro h
    have hin := (h.covers 10 (by decide)).mp (by decide)
    exact absurd hin.1 (by decide)

end OwidRust
