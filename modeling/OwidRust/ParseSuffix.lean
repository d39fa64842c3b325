import OwidRust.Parse

/-!
# Reading without offsets

`parseSuffix` reads an OWID off the front of what is left and hands back what it did not consume.
It takes the decisions of `parse_one` in the same order, but has no offset that could be out of
bounds and no sum that could overflow.

* `asked_readDeclared` — the allocator is asked for the declared count, once the counts agree;
* `parseOne_eq` — on every buffer the machine can hold, the walk by offset answers as `parseSuffix`
  does, never panics and stops exactly where the suffix begins.
-/

namespace OwidRust

open ByteOrder

/-- The domain, up to and including its terminator. -/
def domainSuffix (bytes : List UInt8) : Except ParseError (String × List UInt8) :=
  match (bytes.take (MAXIMUM_DOMAIN_LENGTH + 1)).findIdx? (· == 0) with
  | none =>
    if MAXIMUM_DOMAIN_LENGTH < bytes.length then
      .error ⟨.invalidDomainEncoding, some (.maximumDomainLength MAXIMUM_DOMAIN_LENGTH)⟩
    else .error ⟨.unexpectedEnd, some (.field "the creator domain")⟩
  | some terminator =>
    match fromUtf8 (bytes.take terminator) with
    | some domain => .ok (domain, bytes.drop (terminator + 1))
    | none => .error ⟨.invalidDomainEncoding, some (.field "the creator domain")⟩

/-- The moment a count in the encoding of the version names. -/
def countDate (version : Version) (count : Nat) : Moment :=
  match version with
  | .version1 => baseDate.addSeconds (3600 * count)
  | _ => baseDate.addSeconds (60 * count)

/-- The count the bytes of a date field hold. -/
def countOf (version : Version) (bytes : List UInt8) : Nat :=
  match version with
  | .version1 => ofBe bytes
  | _ => ofLe bytes

/-- The date, in the width the version gives it. -/
def dateSuffix (version : Version) (bytes : List UInt8) :
    Except ParseError (Moment × List UInt8) :=
  if bytes.length < dateLength version then
    .error ⟨.unexpectedEnd, some (.field "the date")⟩
  else
    .ok (countDate version (countOf version (bytes.take (dateLength version))),
      bytes.drop (dateLength version))

/-- The declared payload length. -/
def lengthSuffix (bytes : List UInt8) : Except ParseError (Nat × List UInt8) :=
  if bytes.length < 4 then .error ⟨.unexpectedEnd, some (.field "the payload length")⟩
  else .ok (ofLe (bytes.take 4), bytes.drop 4)

/-- The payload and the signature, where what is left holds what was declared. -/
def bodySuffix (m : Machine) (extent : Extent) (declared : Nat) (bytes : List UInt8) :
    Except ParseError ((List UInt8 × List UInt8) × List UInt8) :=
  let present : Int := bytes.length - SIGNATURE_LENGTH
  let counts := ParseDetail.byteCounts declared present
  if extent = .wholeBuffer ∧ present ≠ declared then .error ⟨.byteCountMismatch, some counts⟩
  else if extent = .prefixOf ∧ present < declared then .error ⟨.unexpectedEnd, some counts⟩
  else if m.usizeMax < declared ∨ m.reserves declared = false then
    .error ⟨.implementationCapacityExceeded, some (.capacity declared)⟩
  else
    .ok ((bytes.take declared, (bytes.drop declared).take SIGNATURE_LENGTH),
      bytes.drop (declared + SIGNATURE_LENGTH))

/-- The fields after the version. -/
def fieldsSuffix (m : Machine) (extent : Extent) (version : Version) (bytes : List UInt8) :
    Except ParseError (Owid × List UInt8) := do
  let (domain, afterDomain) ← domainSuffix bytes
  let (date, afterDate) ← dateSuffix version afterDomain
  let (declared, afterLength) ← lengthSuffix afterDate
  let ((payload, signature), rest) ← bodySuffix m extent declared afterLength
  return (⟨version, domain, date, payload, signature⟩, rest)

/-- One OWID off the front of the bytes, with what follows it. -/
def parseSuffix (m : Machine) (extent : Extent) :
    List UInt8 → Except ParseError (Owid × List UInt8)
  | [] => .error ⟨.missingInput, none⟩
  | byte :: afterVersion =>
    match Version.tryFrom byte with
    | .ok .empty => .error ⟨.absentNode, none⟩
    | .error _ => .error ⟨.unsupportedVersion, some (.versionByte byte)⟩
    | .ok version => fieldsSuffix m extent version afterVersion

theorem parseSuffix_version {version : Version} (hne : version ≠ .empty) (m : Machine)
    (extent : Extent) (bytes : List UInt8) :
    parseSuffix m extent (version.asByte :: bytes) = fieldsSuffix m extent version bytes := by
  cases version with
  | empty => exact absurd rfl hne
  | version1 | version2 | version3 => rfl

theorem parseSuffix_unsupported {byte : UInt8} {e : Error} (hv : Version.tryFrom byte = .error e)
    (m : Machine) (extent : Extent) (bytes : List UInt8) :
    parseSuffix m extent (byte :: bytes) =
      .error ⟨.unsupportedVersion, some (.versionByte byte)⟩ := by
  rw [parseSuffix, hv]

/-! ## The walk of each field -/

/-- The bytes a read consumed: the answer of the walk is their number. -/
def Walks {α : Type} (walk : Checked ParseError (α × Nat)) (bytes : List UInt8)
    (read : Except ParseError (α × List UInt8)) : Prop :=
  match read with
  | .error e => walk = .error (.fail e)
  | .ok (a, rest) => ∃ used, bytes = used ++ rest ∧ walk = .ok (a, used.length)

theorem slice_zero (bytes : List UInt8) {n : Nat} (h : n ≤ bytes.length) :
    (slice bytes 0 n : Checked ParseError (List UInt8)) = .ok (bytes.take n) := by
  simp [slice, h]

theorem walks_readDomain {m : Machine} {bytes : List UInt8} (hm : bytes.length ≤ m.usizeMax) :
    Walks (readDomain m bytes) bytes (domainSuffix bytes) := by
  have htake : bytes.take (min bytes.length (MAXIMUM_DOMAIN_LENGTH + 1)) =
      bytes.take (MAXIMUM_DOMAIN_LENGTH + 1) := by
    rw [List.take_eq_take_iff]
    omega
  unfold readDomain domainSuffix
  simp only [slice_zero bytes (Nat.min_le_left _ _), htake, ok_bind]
  cases hf : (bytes.take (MAXIMUM_DOMAIN_LENGTH + 1)).findIdx? (· == 0) with
  | none =>
    by_cases hlen : MAXIMUM_DOMAIN_LENGTH < bytes.length
    · simp only [hlen, if_true]
      rw [if_pos (by omega)]
      rfl
    · simp only [hlen, if_false]
      rw [if_neg (by omega)]
      rfl
  | some terminator =>
    have hlt : terminator < bytes.length := by
      obtain ⟨h, -⟩ := List.findIdx?_eq_some_iff_getElem.mp hf
      rw [List.length_take] at h
      omega
    simp only [slice_zero bytes hlt.le, ok_bind]
    cases fromUtf8 (bytes.take terminator) with
    | none => rfl
    | some domain =>
      simp only [addUsize_of_le (show terminator + 1 ≤ m.usizeMax by omega)]
      refine ⟨bytes.take (terminator + 1), (List.take_append_drop _ _).symm, ?_⟩
      rw [List.length_take, Nat.min_eq_left hlt]
      rfl

theorem exists_two {bytes : List UInt8} (h : ¬ bytes.length < 2) :
    ∃ a b rest, bytes = a :: b :: rest := by
  match bytes, h with
  | a :: b :: rest, _ => exact ⟨a, b, rest, rfl⟩
  | [_], h | [], h => simp at h

theorem exists_four {bytes : List UInt8} (h : ¬ bytes.length < 4) :
    ∃ a b c d rest, bytes = a :: b :: c :: d :: rest := by
  obtain ⟨a, b, rest, rfl⟩ := exists_two (show ¬ bytes.length < 2 by omega)
  have hrest : ¬ rest.length < 2 := by
    simp only [List.length_cons] at h
    omega
  obtain ⟨c, d, rest, rfl⟩ := exists_two hrest
  exact ⟨a, b, c, d, rest, rfl⟩

theorem ofBe_two (a b : UInt8) : a.toNat <<< 8 ||| b.toNat = ofBe [a, b] := by
  have hb : b.toNat < 2 ^ 8 := b.toNat_lt
  rw [← Nat.shiftLeft_add_eq_or_of_lt hb, Nat.shiftLeft_eq]
  simp only [ofBe, List.reverse_cons, List.reverse_nil, List.nil_append, List.cons_append, ofLe]
  omega

theorem readDate_eq (bytes : List UInt8) (version : Version) :
    readDate bytes version =
      match dateSuffix version bytes with
      | .error e => .error (.fail e)
      | .ok (date, _) => .ok date := by
  unfold readDate dateSuffix
  by_cases hlen : bytes.length < dateLength version
  · simp only [hlen, if_true]
    rfl
  · simp only [hlen, if_false]
    cases version with
    | version1 =>
      obtain ⟨a, b, rest, rfl⟩ := exists_two hlen
      simp only [ofBe_two]
      rfl
    | empty | version2 | version3 =>
      obtain ⟨a, b, c, d, rest, rfl⟩ := exists_four hlen
      rfl

theorem exists_body {bytes : List UInt8} {declared : Nat}
    (h : declared + SIGNATURE_LENGTH ≤ bytes.length) :
    ∃ payload signature rest, bytes = payload ++ (signature ++ rest) ∧
      payload.length = declared ∧ signature.length = SIGNATURE_LENGTH := by
  refine ⟨bytes.take declared, (bytes.drop declared).take SIGNATURE_LENGTH,
    (bytes.drop declared).drop SIGNATURE_LENGTH, ?_, ?_, ?_⟩
  · rw [List.take_append_drop, List.take_append_drop]
  · rw [List.length_take]; omega
  · rw [List.length_take, List.length_drop]; omega

/-- What the comparison of the counts has to let through for `bodySuffix` to answer. -/
def CountsAgree (extent : Extent) (declared : Nat) (bytes : List UInt8) : Prop :=
  ¬ (extent = .wholeBuffer ∧ (bytes.length : Int) - SIGNATURE_LENGTH ≠ declared) ∧
    ¬ (extent = .prefixOf ∧ (bytes.length : Int) - SIGNATURE_LENGTH < declared)

theorem CountsAgree.fits {extent : Extent} {declared : Nat} {bytes : List UInt8}
    (h : CountsAgree extent declared bytes) : declared + SIGNATURE_LENGTH ≤ bytes.length := by
  obtain ⟨hw, hp⟩ := h
  cases extent <;> simp only [true_and, reduceCtorEq, false_and, not_false_eq_true] at hw hp <;>
    omega

theorem takeBody_eq {m : Machine} {used payload signature rest : List UInt8} {extent : Extent}
    (build : List UInt8 → List UInt8 → Owid)
    (hm : (used ++ (payload ++ (signature ++ rest))).length ≤ m.usizeMax)
    (hs : signature.length = SIGNATURE_LENGTH)
    (hc : CountsAgree extent payload.length (payload ++ (signature ++ rest))) :
    takeBody m (used ++ (payload ++ (signature ++ rest))) extent used.length payload.length build =
      .ok (build payload signature, (used ++ (payload ++ signature)).length) := by
  have hpayload : (slice (used ++ (payload ++ (signature ++ rest))) used.length
      (used.length + payload.length) : Checked ParseError (List UInt8)) = .ok payload :=
    slice_of_eq rfl rfl rfl
  have hsignature : (slice (used ++ (payload ++ (signature ++ rest)))
      (used.length + payload.length) (used.length + payload.length + SIGNATURE_LENGTH) :
      Checked ParseError (List UInt8)) = .ok signature :=
    slice_of_eq (List.append_assoc used payload (signature ++ rest)).symm
      (List.length_append).symm (by rw [List.length_append, hs])
  have hend : ¬ (extent = .wholeBuffer ∧ used.length + payload.length + SIGNATURE_LENGTH ≠
      (used ++ (payload ++ (signature ++ rest))).length) := by
    rintro ⟨rfl, hne⟩
    have := hc.1
    simp only [List.length_append, true_and, ne_eq, not_not, hs] at this hne
    omega
  simp only [List.length_append, hs] at hm
  unfold takeBody
  rw [addUsize_of_le (by omega), ok_bind, hpayload, ok_bind, addUsize_of_le (by omega), ok_bind,
    hsignature, ok_bind, if_neg hend]
  simp only [List.length_append, hs, Nat.add_assoc]
  rfl

theorem walks_readDeclared {m : Machine} {used body : List UInt8} (extent : Extent)
    (declared : Nat) (build : List UInt8 → List UInt8 → Owid)
    (hm : (used ++ body).length ≤ m.usizeMax) :
    Walks (readDeclared m (used ++ body) extent used.length declared build).answer (used ++ body)
      (do
        let ((payload, signature), rest) ← bodySuffix m extent declared body
        return (build payload signature, rest)) := by
  unfold readDeclared bodySuffix
  rw [subUsize_of_eq List.length_append, Walk.ok_bind]
  by_cases hw : extent = .wholeBuffer ∧ (body.length : Int) - SIGNATURE_LENGTH ≠ declared
  · rw [if_pos hw, if_pos hw]
    rfl
  rw [if_neg hw, if_neg hw]
  by_cases hp : extent = .prefixOf ∧ (body.length : Int) - SIGNATURE_LENGTH < declared
  · rw [if_pos hp, if_pos hp]
    rfl
  rw [if_neg hp, if_neg hp]
  by_cases hsize : m.usizeMax < declared
  · rw [if_pos hsize, if_pos (.inl hsize)]
    rfl
  rw [if_neg hsize]
  by_cases hr : m.reserves declared = true
  · have hc : CountsAgree extent declared body := ⟨hw, hp⟩
    rw [if_neg (not_or.mpr ⟨hsize, by simp [hr]⟩), ok_bind]
    have hreserved : tryReserveExact m declared = ⟨.ok (), [declared]⟩ := by
      rw [tryReserveExact, if_pos hr]
    rw [hreserved]
    obtain ⟨payload, signature, rest, rfl, rfl, hs⟩ := exists_body hc.fits
    refine ⟨used ++ (payload ++ signature), ?_, ?_⟩
    · rw [← hs, ← List.length_append]
      simp
    · have htake := takeBody_eq build hm hs hc
      rw [← hs, List.take_left, List.drop_left, List.take_left]
      exact htake
  · have hrefused : tryReserveExact m declared =
        ⟨failWith .implementationCapacityExceeded (.capacity declared), [declared]⟩ := by
      rw [tryReserveExact, if_neg hr]
    rw [if_pos (.inr (Bool.eq_false_iff.mpr hr)), hrefused]
    rfl

/-- **The allocator is asked for the declared count alone**, and only after the comparison of the
counts has let it through. -/
theorem asked_readDeclared {m : Machine} {used body : List UInt8} (extent : Extent)
    (declared : Nat) (build : List UInt8 → List UInt8 → Owid) :
    ((readDeclared m (used ++ body) extent used.length declared build).asked = [] ∧
      ∃ stop, (readDeclared m (used ++ body) extent used.length declared build).answer =
        .error stop) ∨
    (readDeclared m (used ++ body) extent used.length declared build).asked = [declared] ∧
      CountsAgree extent declared body := by
  unfold readDeclared
  rw [subUsize_of_eq List.length_append, Walk.ok_bind]
  by_cases hw : extent = .wholeBuffer ∧ (body.length : Int) - SIGNATURE_LENGTH ≠ declared
  · rw [if_pos hw]
    exact .inl ⟨rfl, _, rfl⟩
  rw [if_neg hw]
  by_cases hp : extent = .prefixOf ∧ (body.length : Int) - SIGNATURE_LENGTH < declared
  · rw [if_pos hp]
    exact .inl ⟨rfl, _, rfl⟩
  rw [if_neg hp]
  by_cases hsize : m.usizeMax < declared
  · rw [if_pos hsize]
    exact .inl ⟨rfl, _, rfl⟩
  rw [if_neg hsize]
  refine .inr ⟨?_, hw, hp⟩
  unfold tryReserveExact
  by_cases hr : m.reserves declared = true
  · rw [if_pos hr]
    rfl
  · rw [if_neg hr]
    rfl

/-- The payload length, and the rest of the walk from it on. -/
theorem readBody_eq {m : Machine} {used bytes : List UInt8} (extent : Extent)
    (build : List UInt8 → List UInt8 → Owid) (hm : (used ++ bytes).length ≤ m.usizeMax) :
    (∃ e, lengthSuffix bytes = .error e ∧
      readBody m (used ++ bytes) extent used.length build = ⟨.error (.fail e), []⟩) ∨
    ∃ declared length body, lengthSuffix bytes = .ok (declared, body) ∧ bytes = length ++ body ∧
      readBody m (used ++ bytes) extent used.length build =
        readDeclared m ((used ++ length) ++ body) extent (used ++ length).length declared
          build := by
  unfold readBody lengthSuffix
  rw [subUsize_of_eq List.length_append, Walk.ok_bind]
  by_cases hlen : bytes.length < 4
  · left
    simp only [hlen, if_true]
    exact ⟨_, rfl, rfl⟩
  · right
    simp only [hlen, if_false]
    obtain ⟨a, b, c, d, body, rfl⟩ := exists_four hlen
    simp only [List.length_append, List.length_cons] at hm
    have h0 : index (used ++ a :: b :: c :: d :: body) used.length = .ok a := index_of_eq rfl rfl
    have h1 : index (used ++ a :: b :: c :: d :: body) (used.length + 1) = .ok b :=
      index_of_eq (List.append_cons used a _) (by simp)
    have h2 : index (used ++ a :: b :: c :: d :: body) (used.length + 2) = .ok c :=
      index_of_eq (List.append_assoc used [a, b] _).symm (by simp)
    have h3 : index (used ++ a :: b :: c :: d :: body) (used.length + 3) = .ok d :=
      index_of_eq (List.append_assoc used [a, b, c] _).symm (by simp)
    refine ⟨_, [a, b, c, d], body, rfl, rfl, ?_⟩
    simp only [addUsize_of_le (show used.length + 1 ≤ m.usizeMax by omega),
      addUsize_of_le (show used.length + 2 ≤ m.usizeMax by omega),
      addUsize_of_le (show used.length + 3 ≤ m.usizeMax by omega),
      addUsize_of_le (show used.length + 4 ≤ m.usizeMax by omega), h0, h1, h2, h3, Walk.ok_bind]
    simp

theorem walks_readBody {m : Machine} {used bytes : List UInt8} (extent : Extent)
    (build : List UInt8 → List UInt8 → Owid) (hm : (used ++ bytes).length ≤ m.usizeMax) :
    Walks (readBody m (used ++ bytes) extent used.length build).answer (used ++ bytes) (do
      let (declared, afterLength) ← lengthSuffix bytes
      let ((payload, signature), rest) ← bodySuffix m extent declared afterLength
      return (build payload signature, rest)) := by
  rcases readBody_eq extent build hm with ⟨e, hlength, hbody⟩ |
    ⟨declared, length, body, hlength, rfl, hbody⟩
  · rw [hbody, hlength]
    rfl
  · rw [hbody, hlength, ok_bind, ← List.append_assoc]
    exact walks_readDeclared extent declared build (by rwa [List.append_assoc])

/-- The domain and the date, and the rest of the walk from them on. -/
theorem parseFields_eq {m : Machine} {byte : UInt8} {bytes : List UInt8} (extent : Extent)
    (version : Version) (hm : (byte :: bytes).length ≤ m.usizeMax) :
    (∃ e, fieldsSuffix m extent version bytes = .error e ∧
      parseFields m (byte :: bytes) extent version = ⟨.error (.fail e), []⟩) ∨
    ∃ domain date afterDomain used afterDate, domainSuffix bytes = .ok (domain, afterDomain) ∧
      dateSuffix version afterDomain = .ok (date, afterDate) ∧ byte :: bytes = used ++ afterDate ∧
      parseFields m (byte :: bytes) extent version =
        readBody m (used ++ afterDate) extent used.length fun payload signature =>
          ⟨version, domain, date, payload, signature⟩ := by
  have hfrom : sliceFrom (byte :: bytes) 1 = .ok bytes := rfl
  rw [List.length_cons] at hm
  unfold parseFields fieldsSuffix
  rw [hfrom, Walk.ok_bind]
  have hdomain := walks_readDomain (m := m) (show bytes.length ≤ m.usizeMax by omega)
  cases hd : domainSuffix bytes with
  | error e =>
    rw [hd] at hdomain
    simp only [Walks] at hdomain
    rw [hdomain]
    exact .inl ⟨e, rfl, rfl⟩
  | ok d =>
    obtain ⟨domain, afterDomain⟩ := d
    rw [hd] at hdomain
    obtain ⟨used, rfl, hread⟩ := hdomain
    rw [List.length_append] at hm
    have hafter : sliceFrom (byte :: (used ++ afterDomain)) (1 + used.length) = .ok afterDomain :=
      sliceFrom_of_eq (List.cons_append ..).symm (by rw [List.length_cons, Nat.add_comm])
    simp only [hread, Walk.ok_bind, ok_bind,
      addUsize_of_le (show 1 + used.length ≤ m.usizeMax by omega), hafter, readDate_eq]
    cases ht : dateSuffix version afterDomain with
    | error e => exact .inl ⟨e, rfl, rfl⟩
    | ok t =>
      obtain ⟨date, afterDate⟩ := t
      right
      have hdrop := ht
      unfold dateSuffix at hdrop
      split at hdrop
      · cases hdrop
      rename_i hlen
      cases hdrop
      have htaken : (afterDomain.take (dateLength version)).length = dateLength version := by
        rw [List.length_take]
        omega
      refine ⟨domain, _, afterDomain, byte :: used ++ afterDomain.take (dateLength version), _, rfl,
        ht, ?_, ?_⟩
      · rw [List.append_assoc, List.take_append_drop]
        rfl
      have hlength : 1 + used.length + dateLength version =
          (byte :: used ++ afterDomain.take (dateLength version)).length := by
        rw [List.length_append, htaken, List.length_cons]
        omega
      simp only [Walk.ok_bind,
        addUsize_of_le (show 1 + used.length + dateLength version ≤ m.usizeMax by omega)]
      rw [hlength, List.append_assoc, List.take_append_drop]
      rfl

theorem walks_parseFields {m : Machine} {byte : UInt8} {bytes : List UInt8} (extent : Extent)
    (version : Version) (hm : (byte :: bytes).length ≤ m.usizeMax) :
    Walks (parseFields m (byte :: bytes) extent version).answer (byte :: bytes)
      (fieldsSuffix m extent version bytes) := by
  rcases parseFields_eq extent version hm with ⟨e, hfields, hwalk⟩ |
    ⟨domain, date, afterDomain, used, afterDate, hdomain, hdate, hbytes, hwalk⟩
  · rw [hwalk, hfields]
    rfl
  · rw [hwalk, fieldsSuffix, hdomain, ok_bind, hbytes]
    simp only [hdate, ok_bind]
    exact walks_readBody extent _ (hbytes ▸ hm)

/-- **The walk by offset is the read without offsets**: on a buffer the machine can hold it never
panics, and the offset it stops at is the number of bytes consumed. -/
theorem parseOne_eq {m : Machine} {buffer : List UInt8} (extent : Extent)
    (hm : buffer.length ≤ m.usizeMax) :
    Walks (parseOne m buffer extent).answer buffer (parseSuffix m extent buffer) := by
  cases buffer with
  | nil => rfl
  | cons byte afterVersion =>
    have hbyte : index (byte :: afterVersion) 0 = .ok byte := rfl
    unfold parseOne parseSuffix
    simp only [List.isEmpty_cons, Bool.false_eq_true, if_false, hbyte, Walk.ok_bind]
    cases Version.tryFrom byte with
    | error e => rfl
    | ok version =>
      cases version with
      | empty => rfl
      | version1 | version2 | version3 => exact walks_parseFields extent _ hm

end OwidRust
