import OwidRust.Fetch.Request
import OwidRust.Frame

/-!
# The key URL and its two readers

`public_key_url` writes the domain of an OWID into a URL as it is; `end_point_of` and `minute_of`
read the end point and the minute back.

* `keyEndPoint_injective` — an end point names its domain and its version;
* `keyUrlAgrees_iff` — the readers read back what was written exactly where the domain has no
  question mark, and then no two domains or versions share an end point.
-/

namespace OwidRust

/-- Both readers read back what the URL of an OWID was written from. -/
def KeyUrlAgrees (o : Owid) (scheme : String) : Prop :=
  endPointOf (publicKeyUrl o scheme) = keyEndPoint o scheme ∧
    ∃ minute, minutesSinceBase o.date = some minute ∧
      minuteOf (publicKeyUrl o scheme) = some minute

/-- An end point is its scheme, its domain and its version between fixed texts. -/
theorem keyEndPoint_parts : ∃ mark path name : List Char,
    '?' ∉ mark ∧ '?' ∉ path ∧ '?' ∉ name ∧
    ∀ (o : Owid) (scheme : String), (keyEndPoint o scheme).toList = scheme.toList ++
      (mark ++ (o.domain.toList ++ (path ++ (decimal o.version.asByte.toNat ++ name)))) := by
  refine ⟨"://".toList, "/owid/api/v".toList, "/public-key".toList, by simp, by simp, by simp, ?_⟩
  intro o scheme
  simp only [keyEndPoint, String.toList_append, String.toList_ofList, List.append_assoc]

/-- The version is written as one digit, a different one for each. -/
theorem decimal_version (v : Version) :
    decimal v.asByte.toNat = [decimalChar v.asByte.toNat] := by
  cases v <;> simp [Version.asByte, decimal, decimalChar]

theorem decimal_version_inj {v w : Version}
    (h : decimal v.asByte.toNat = decimal w.asByte.toNat) : v = w := by
  rw [decimal_version, decimal_version] at h
  cases v <;> cases w <;> first | rfl | exact absurd h (by decide)

theorem mem_keyEndPoint_iff {o : Owid} {scheme : String} (hscheme : '?' ∉ scheme.toList) :
    '?' ∈ (keyEndPoint o scheme).toList ↔ '?' ∈ o.domain.toList := by
  obtain ⟨mark, path, name, hmark, hpath, hname, hparts⟩ := keyEndPoint_parts
  have hdecimal := not_mem_decimal (c := '?') (by decide) o.version.asByte.toNat
  rw [hparts]
  simp only [List.mem_append, hscheme, hmark, hpath, hdecimal, hname, false_or, or_false]

/-- **An end point names its domain and its version.** -/
theorem keyEndPoint_injective {o o' : Owid} {scheme : String}
    (h : keyEndPoint o scheme = keyEndPoint o' scheme) :
    o.domain = o'.domain ∧ o.version = o'.version := by
  obtain ⟨mark, path, name, -, -, -, hparts⟩ := keyEndPoint_parts
  have hlist := congrArg String.toList h
  rw [hparts, hparts, List.append_cancel_left_eq, List.append_cancel_left_eq] at hlist
  have hlength : (path ++ (decimal o.version.asByte.toNat ++ name)).length =
      (path ++ (decimal o'.version.asByte.toNat ++ name)).length := by
    simp only [decimal_version, List.length_append, List.length_singleton]
  obtain ⟨hdomain, htail⟩ := List.append_inj' hlist hlength
  rw [List.append_cancel_left_eq, List.append_cancel_right_eq] at htail
  exact ⟨String.toList_inj.mp hdomain, decimal_version_inj htail⟩

/-- The date of a frame is a whole minute of the count. -/
theorem Frame.exists_minute (f : Frame) : ∃ minute ≤ u32Max, f.owid.date = atMinute minute := by
  have hlt := f.count_lt
  rw [owid]
  cases hver : f.version with
  | version1 =>
    rw [hver] at hlt
    simp only [dateLength] at hlt
    refine ⟨60 * f.count, by simp only [u32Max]; omega, ?_⟩
    ext
    simp only [countDate, atMinute, Moment.addSeconds]
    omega
  | empty | version2 | version3 =>
    rw [hver] at hlt
    simp only [dateLength] at hlt
    exact ⟨f.count, by simp only [u32Max]; omega, rfl⟩

variable {m : Machine} {b b' : List UInt8} {o o' : Owid} {scheme : String}

/-- **The readers read back what was written exactly where the domain has no question mark.** -/
theorem keyUrlAgrees_iff (hscheme : '?' ∉ scheme.toList) {minute : Nat} (hminute : minute ≤ u32Max)
    (hdate : minutesSinceBase o.date = some minute) :
    KeyUrlAgrees o scheme ↔ '?' ∉ o.domain.toList := by
  have hurl : publicKeyUrl o scheme = keyUrlAt (keyEndPoint o scheme) minute := by
    rw [publicKeyUrl, hdate]
  constructor
  · rintro ⟨hendPoint, -⟩
    rw [← mem_keyEndPoint_iff hscheme, ← hendPoint]
    exact not_mem_endPointOf _
  · intro hdomain
    have hno : '?' ∉ (keyEndPoint o scheme).toList := mt (mem_keyEndPoint_iff hscheme).mp hdomain
    refine ⟨?_, minute, hdate, ?_⟩
    · rw [hurl, endPointOf_keyUrlAt hno]
    · rw [hurl, minuteOf_keyUrlAt hno hminute]

/-- **The key URL and its two readers agree exactly where neither domain has a question mark**, and
then OWIDs of different domains or versions do not share an end point. -/
theorem keyUrl_readers_iff (hscheme : '?' ∉ scheme.toList)
    (hb : m.Holds b) (h : Owid.fromByteArray m b = .ok o)
    (hb' : m.Holds b') (h' : Owid.fromByteArray m b' = .ok o') :
    (KeyUrlAgrees o scheme ∧ KeyUrlAgrees o' scheme ∧
      (endPointOf (publicKeyUrl o scheme) = endPointOf (publicKeyUrl o' scheme) →
        o.domain = o'.domain ∧ o.version = o'.version)) ↔
    '?' ∉ o.domain.toList ∧ '?' ∉ o'.domain.toList := by
  have hagrees : ∀ {b : List UInt8} {o : Owid}, m.Holds b → Owid.fromByteArray m b = .ok o →
      (KeyUrlAgrees o scheme ↔ '?' ∉ o.domain.toList) := by
    intro b o hb h
    obtain ⟨f, -, rfl⟩ := Frame.fromByteArray_eq_ok hb h
    obtain ⟨minute, hle, hdate⟩ := f.exists_minute
    exact keyUrlAgrees_iff hscheme hle (by rw [hdate, minutesSinceBase_atMinute hle])
  rw [← hagrees hb h, ← hagrees hb' h']
  constructor
  · rintro ⟨ho, ho', -⟩
    exact ⟨ho, ho'⟩
  · rintro ⟨ho, ho'⟩
    refine ⟨ho, ho', ?_⟩
    intro hshared
    rw [ho.1, ho'.1] at hshared
    exact keyEndPoint_injective hshared

/-- An OWID of the domain `ab`. -/
theorem keyUrl_readers_sample : ∃ o, Owid.fromByteArray machine64 sampleBytes = .ok o ∧
    KeyUrlAgrees o "https" := by
  have hread : Owid.fromByteArray machine64 sampleBytes =
      .ok ⟨.version3, "ab", atMinute 1, [7, 8], List.replicate 64 9⟩ := by decide +kernel
  have hdomain : '?' ∉ "ab".toList := by decide
  have hscheme : '?' ∉ "https".toList := by decide
  exact ⟨_, hread, ((keyUrl_readers_iff hscheme (by decide) hread (by decide) hread).mpr
    ⟨hdomain, hdomain⟩).1⟩

/-! ## A domain with a question mark -/

/-- What is added to a text without the separator is added to its last part. -/
theorem splitOn_append (c : Char) (xs : List Char) :
    ∃ parts last, ∀ ys, c ∉ ys → (xs ++ ys).splitOn c = parts ++ [last ++ ys] := by
  induction xs with
  | nil =>
    refine ⟨[], [], ?_⟩
    intro ys hys
    rw [List.nil_append, List.splitOn_eq_splitOnP]
    apply List.splitOnP_eq_singleton
    intro x hx
    rw [beq_eq_false_iff_ne]
    rintro rfl
    exact hys hx
  | cons x xs ih =>
    obtain ⟨parts, last, hparts⟩ := ih
    by_cases hx : x = c
    · refine ⟨[] :: parts, last, ?_⟩
      intro ys hys
      rw [List.cons_append, List.splitOn_cons_eq_if_modifyHead, if_pos (beq_iff_eq.mpr hx),
        hparts ys hys, List.cons_append]
    · have hne : (x == c) = false := beq_eq_false_iff_ne.mpr hx
      cases parts with
      | nil =>
        refine ⟨[], x :: last, ?_⟩
        intro ys hys
        rw [List.cons_append, List.splitOn_cons_eq_if_modifyHead, hne, hparts ys hys]
        rfl
      | cons part parts =>
        refine ⟨(x :: part) :: parts, last, ?_⟩
        intro ys hys
        rw [List.cons_append, List.splitOn_cons_eq_if_modifyHead, hne, hparts ys hys]
        rfl

/-- **A question mark in the end point hides the minute asked about.** -/
theorem minuteOf_keyUrlAt_of_mem {endPoint : String} (h : '?' ∈ endPoint.toList) :
    ∃ asked, ∀ minute, minuteOf (keyUrlAt endPoint minute) = asked := by
  obtain ⟨domain, query, hsplit, hdomain⟩ := List.eq_append_cons_of_mem h
  obtain ⟨parts, last, hparts⟩ := splitOn_append '&' query
  -- the minute stands in the last part but one, behind a second question mark
  have hparameters : ∀ minute, (splitOnce '?' (keyUrlAt endPoint minute).toList).map
      (·.2.splitOn '&') =
        some (parts ++ [last ++ '?' :: (dateParameter ++ decimal minute), FORMAT_QUERY.toList]) := by
    intro minute
    have hand : '&' ∉ '?' :: (dateParameter ++ decimal minute) := by
      have hdecimal := not_mem_decimal (c := '&') (by decide) minute
      simp [dateParameter, hdecimal]
    rw [keyUrlAt_toList, hsplit, List.append_assoc, List.cons_append, splitOnce_append hdomain,
      Option.map_some]
    rw [show query ++ '?' :: (dateParameter ++ decimal minute ++ '&' :: FORMAT_QUERY.toList) =
      (query ++ '?' :: (dateParameter ++ decimal minute)) ++ '&' :: FORMAT_QUERY.toList by simp]
    have hfirst := hparts _ hand
    rw [List.splitOn_eq_splitOnP] at hfirst ⊢
    rw [List.splitOnP_append_cons _ _ (by rfl), hfirst, List.splitOnP_eq_singleton formatQuery_ne_and,
      List.append_assoc, List.singleton_append]
  have hhidden : ∀ minute date, stripStart dateParameter
      (last ++ '?' :: (dateParameter ++ decimal minute)) = some date → parseU32 date = none := by
    intro minute date hdate
    have hmem : '?' ∈ dateParameter ++ date := by
      rw [← stripStart_eq_some hdate]
      simp
    have hquestion : '?' ∈ date := (List.mem_append.mp hmem).resolve_left (by decide)
    exact parseU32_eq_none (by decide) (by decide) hquestion
  refine ⟨(parts.findSome? (stripStart dateParameter)).bind parseU32, ?_⟩
  intro minute
  obtain ⟨p, hp, hquery⟩ := Option.map_eq_some_iff.mp (hparameters minute)
  have hstop : stripStart dateParameter FORMAT_QUERY.toList = none := by decide +kernel
  unfold minuteOf
  rw [hp]
  simp only [Option.bind_eq_bind, Option.bind_some]
  rw [hquery, List.findSome?_append]
  cases hearlier : parts.findSome? (stripStart dateParameter) with
  | some date => rfl
  | none =>
    rw [Option.none_or, List.findSome?_cons]
    cases hdate : stripStart dateParameter
        (last ++ '?' :: (dateParameter ++ decimal minute)) with
    | some date => exact hhidden minute date hdate
    | none =>
      rw [List.findSome?_cons, hstop]
      rfl

/-- An OWID of minute 100 whose domain asks about minute 10. -/
def askingOwid : Owid := ⟨.version3, "a?date=10&b", atMinute 100, [7], List.replicate 64 1⟩

def askingBytes : List UInt8 :=
  [3, 97, 63, 100, 97, 116, 101, 61, 49, 48, 38, 98, 0, 100, 0, 0, 0, 1, 0, 0, 0, 7] ++
    List.replicate 64 1

/-- An OWID of another domain and version. -/
def otherOwid : Owid := ⟨.version2, "a?c", atMinute 100, [7], List.replicate 64 1⟩

def otherBytes : List UInt8 :=
  [2, 97, 63, 99, 0, 100, 0, 0, 0, 1, 0, 0, 0, 7] ++ List.replicate 64 1

/-- The minute is read out of the domain, and the two end points are one. -/
theorem keyUrl_readers_question :
    Owid.fromByteArray machine64 askingBytes = .ok askingOwid ∧
    Owid.fromByteArray machine64 otherBytes = .ok otherOwid ∧
    endPointOf (publicKeyUrl askingOwid "https") = "https://a" ∧
    minuteOf (publicKeyUrl askingOwid "https") = some 10 ∧
    minutesSinceBase askingOwid.date = some 100 ∧
    endPointOf (publicKeyUrl otherOwid "https") = "https://a" ∧
    ¬ KeyUrlAgrees askingOwid "https" := by
  have hendPoint : endPointOf (publicKeyUrl askingOwid "https") = "https://a" := by decide +kernel
  refine ⟨by decide +kernel, by decide +kernel, hendPoint, by decide +kernel, by decide +kernel,
    by decide +kernel, ?_⟩
  rintro ⟨hagrees, -⟩
  rw [hendPoint] at hagrees
  exact absurd hagrees (by decide +kernel)

end OwidRust
