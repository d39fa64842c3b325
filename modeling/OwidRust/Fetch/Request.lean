import OwidRust.Fetch.Cache
import OwidRust.KeyAnswer
import OwidRust.Owid

/-!
# The public key request

The URLs of `src/fetch.rs` and what they ask, `request_public_key` on the answer of the transport,
and the failures shared with the callers waiting on a fetch.

* `endPointOf_keyUrlAt`, `minuteOf_keyUrlAt` — what a URL built for a minute asks;
* `requestPublicKey_of_parse` — the key and the minutes taken from a 200 that is read and checked.
-/

namespace OwidRust

/-- What a transport hands back. -/
structure FetchResponse where
  status : Nat
  body : String
  deriving DecidableEq, Repr

/-! ## URLs -/

/-- `split_once`, on the characters. -/
def splitOnce (c : Char) : List Char → Option (List Char × List Char)
  | [] => none
  | d :: rest =>
    if d = c then some ([], rest) else (splitOnce c rest).map fun p => (d :: p.1, p.2)

/-- `strip_prefix`, on the characters. -/
def stripStart : List Char → List Char → Option (List Char)
  | [], text => some text
  | c :: start, d :: text => if c = d then stripStart start text else none
  | _ :: _, [] => none

/-- `end_point_of`. -/
def endPointOf (url : String) : String :=
  match splitOnce '?' url.toList with
  | some (endPoint, _) => String.ofList endPoint
  | none => url

/-- The characters of `date=`. -/
def dateParameter : List Char := ['d', 'a', 't', 'e', '=']

/-- `minute_of`. -/
def minuteOf (url : String) : Option Nat := do
  let (_, query) ← splitOnce '?' url.toList
  let date ← (query.splitOn '&').findSome? (stripStart dateParameter)
  parseU32 date

/-- `FORMAT_QUERY`. -/
def FORMAT_QUERY : String := "format=spki"

/-- `key_url_at`. -/
def keyUrlAt (endPoint : String) (minute : Nat) : String :=
  endPoint ++ "?date=" ++ String.ofList (decimal minute) ++ "&" ++ FORMAT_QUERY

/-- The key end point `public_key_url` names. -/
def keyEndPoint (o : Owid) (scheme : String) : String :=
  scheme ++ "://" ++ o.domain ++ "/owid/api/v" ++
    String.ofList (decimal o.version.asByte.toNat) ++ "/public-key"

/-- `public_key_url`. -/
def publicKeyUrl (o : Owid) (scheme : String) : String :=
  match minutesSinceBase o.date with
  | some minute => keyUrlAt (keyEndPoint o scheme) minute
  | none => keyEndPoint o scheme ++ "?" ++ FORMAT_QUERY

theorem splitOnce_append {c : Char} {xs : List Char} (h : c ∉ xs) (ys : List Char) :
    splitOnce c (xs ++ c :: ys) = some (xs, ys) := by
  induction xs with
  | nil => simp [splitOnce]
  | cons x xs ih =>
    rw [List.mem_cons, not_or] at h
    rw [List.cons_append, splitOnce, if_neg (Ne.symm h.1), ih h.2]
    rfl

theorem splitOnce_eq_some {c : Char} :
    ∀ {xs pre post : List Char}, splitOnce c xs = some (pre, post) → c ∉ pre
  | [], _, _, h => by cases h
  | x :: xs, pre, post, h => by
    rw [splitOnce] at h
    split at h
    · cases h
      exact List.not_mem_nil
    · rename_i hne
      obtain ⟨⟨pre', post'⟩, hrest, hpre⟩ := Option.map_eq_some_iff.mp h
      cases hpre
      rw [List.mem_cons, not_or]
      exact ⟨Ne.symm hne, splitOnce_eq_some hrest⟩

theorem splitOnce_eq_none {c : Char} : ∀ {xs : List Char}, splitOnce c xs = none → c ∉ xs
  | [], _ => List.not_mem_nil
  | x :: xs, h => by
    rw [splitOnce] at h
    split at h
    · cases h
    · rename_i hne
      rw [List.mem_cons, not_or]
      exact ⟨Ne.symm hne, splitOnce_eq_none (Option.map_eq_none_iff.mp h)⟩

/-- The end point of a URL has no question mark. -/
theorem not_mem_endPointOf (url : String) : '?' ∉ (endPointOf url).toList := by
  unfold endPointOf
  split
  · rename_i hsplit
    rw [String.toList_ofList]
    exact splitOnce_eq_some hsplit
  · rename_i hsplit
    exact splitOnce_eq_none hsplit

theorem keyUrlAt_toList (endPoint : String) (minute : Nat) :
    (keyUrlAt endPoint minute).toList =
      endPoint.toList ++ '?' :: (dateParameter ++ decimal minute ++ '&' :: FORMAT_QUERY.toList) := by
  have hdate : "?date=".toList = '?' :: dateParameter := by simp [dateParameter]
  have hand : "&".toList = ['&'] := by simp
  simp only [keyUrlAt, String.toList_append, String.toList_ofList, hdate, hand]
  simp only [List.append_assoc, List.cons_append, List.nil_append]

/-- **A URL built on an end point without a question mark asks that end point.** -/
theorem endPointOf_keyUrlAt {endPoint : String} (h : '?' ∉ endPoint.toList) (minute : Nat) :
    endPointOf (keyUrlAt endPoint minute) = endPoint := by
  unfold endPointOf
  rw [keyUrlAt_toList, splitOnce_append h]
  exact String.ofList_toList

theorem not_mem_decimal {c : Char} (hc : ∀ digit < 10, decimalChar digit ≠ c) (n : Nat) :
    c ∉ decimal n := by
  intro hmem
  unfold decimal at hmem
  split at hmem
  · rw [List.mem_singleton] at hmem
    exact hc 0 (by decide) hmem.symm
  · simp only [List.mem_reverse, List.mem_map] at hmem
    obtain ⟨d, hd, hchar⟩ := hmem
    exact hc d (Nat.digits_lt_base (by decide) hd) hchar

theorem stripStart_append (start text : List Char) :
    stripStart start (start ++ text) = some text := by
  induction start with
  | nil => cases text <;> rfl
  | cons c start ih => simpa [stripStart] using ih

theorem stripStart_eq_some :
    ∀ {start text rest : List Char}, stripStart start text = some rest → text = start ++ rest
  | [], text, rest, h => by
    cases text <;> cases h <;> rfl
  | c :: start, [], rest, h => by cases h
  | c :: start, d :: text, rest, h => by
    rw [stripStart] at h
    split at h
    · rename_i hsame
      rw [hsame, stripStart_eq_some h, List.cons_append]
    · cases h

theorem formatQuery_ne_and : ∀ c ∈ FORMAT_QUERY.toList, (c == '&') = false := by
  simp [FORMAT_QUERY]

/-- The query parameters of a URL built for a minute. -/
theorem queryParameters_keyUrlAt {endPoint : String} (h : '?' ∉ endPoint.toList) (minute : Nat) :
    (splitOnce '?' (keyUrlAt endPoint minute).toList).map (·.2.splitOn '&') =
      some [dateParameter ++ decimal minute, FORMAT_QUERY.toList] := by
  have hno : ∀ c ∈ dateParameter ++ decimal minute, (c == '&') = false := by
    intro c hc
    rw [beq_eq_false_iff_ne]
    rintro rfl
    rcases List.mem_append.mp hc with hc | hc
    · exact absurd hc (by decide)
    · exact not_mem_decimal (by decide) minute hc
  rw [keyUrlAt_toList, splitOnce_append h, Option.map_some, List.splitOn_eq_splitOnP,
    List.splitOnP_append_cons _ _ (by rfl), List.splitOnP_eq_singleton hno,
    List.splitOnP_eq_singleton formatQuery_ne_and, List.singleton_append]

/-- **A URL built for a `u32` minute asks about that minute.** -/
theorem minuteOf_keyUrlAt {endPoint : String} (h : '?' ∉ endPoint.toList) {minute : Nat}
    (hminute : minute ≤ u32Max) : minuteOf (keyUrlAt endPoint minute) = some minute := by
  obtain ⟨p, hsplit, hquery⟩ := Option.map_eq_some_iff.mp (queryParameters_keyUrlAt h minute)
  unfold minuteOf
  rw [hsplit]
  simp only [Option.bind_eq_bind, Option.bind_some]
  rw [hquery, List.findSome?_cons, stripStart_append]
  exact parseU32_decimal hminute

/-! ## The request -/

/-- The minutes a moment stated in an answer is kept as. -/
def statedMinute (moment : Option Moment) : Option Nat := moment.bind minutesSinceBase

@[simp] theorem statedMinute_none : statedMinute none = none := rfl

@[simp] theorem statedMinute_some (d : Moment) :
    statedMinute (some d) = minutesSinceBase d := by
  rw [statedMinute, Option.bind_some]

/-- `request_public_key`, on what the transport answered. -/
def requestPublicKey (p : P256) (ch : Chrono) (url : String)
    (response : Except Error FetchResponse) : Except Error (String × Option Nat × Option Nat) := do
  let response ← response
  if 300 ≤ response.status ∧ response.status < 400 then
    .error (.http ("the public key end point answered a redirect (" ++ toString response.status ++
      ") for " ++ url ++ ", which is never followed"))
  else if response.status ≠ 200 then
    .error (.http ("the public key end point answered " ++ toString response.status ++ " for " ++
      url))
  else do
    let answer ← PublicKeyAnswer.parse ch response.body
    answer.validate p none
    .ok (answer.publicKey, statedMinute answer.validFrom, statedMinute answer.validTo)

theorem requestPublicKey_of_parse {p : P256} {ch : Chrono} {url body : String}
    {a : PublicKeyAnswer} (hparse : PublicKeyAnswer.parse ch body = .ok a)
    (hvalid : a.validate p none = .ok ()) :
    requestPublicKey p ch url (.ok ⟨200, body⟩) =
      .ok (a.publicKey, statedMinute a.validFrom, statedMinute a.validTo) := by
  unfold requestPublicKey
  rw [ok_bind]
  rw [if_neg (by simp), if_neg (by simp)]
  simp only [hparse, ok_bind, hvalid]

/-- A request answers with a key only where a 200 was read and checked. -/
theorem requestPublicKey_eq_ok {p : P256} {ch : Chrono} {url : String}
    {response : Except Error FetchResponse} {pem : String} {start stop : Option Nat}
    (h : requestPublicKey p ch url response = .ok (pem, start, stop)) :
    ∃ body a, response = .ok ⟨200, body⟩ ∧ PublicKeyAnswer.parse ch body = .ok a ∧
      a.validate p none = .ok () ∧ pem = a.publicKey ∧ start = statedMinute a.validFrom ∧
      stop = statedMinute a.validTo := by
  unfold requestPublicKey at h
  obtain ⟨⟨status, body⟩, rfl, hread⟩ := bind_eq_ok h
  split at hread
  · cases hread
  split at hread
  · cases hread
  rename_i hstatus
  simp only [ne_eq, not_not] at hstatus
  subst hstatus
  obtain ⟨a, hparse, hchecked⟩ := bind_eq_ok hread
  obtain ⟨⟨⟩, hvalid, hanswer⟩ := bind_eq_ok hchecked
  cases hanswer
  exact ⟨body, a, rfl, hparse, hvalid, rfl, rfl, rfl⟩

/-! ## Shared failures -/

inductive FetchFailure where
  | http (message : String)
  | key (message : String)
  deriving DecidableEq, Repr

/-- `FetchFailure::into_error`. -/
def FetchFailure.intoError : FetchFailure → Error
  | .http message => .http message
  | .key message => .key message

/-- The failure `key_at_url` makes of an error. -/
def FetchFailure.ofError : Error → FetchFailure
  | .http message => .http message
  | other => .key other.display

end OwidRust
