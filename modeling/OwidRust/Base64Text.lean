import OwidRust.Lib.Base64
import OwidRust.Covered
import OwidRust.Creator

/-!
# OWIDs as texts

`as_base64`, `from_base64`, `Display` and `payload_as_base64` of `src/owid.rs`.  The `base64` engine
is a parameter of which the documented behaviour is a hypothesis.

* `Owid.fromBase64_eq_ok_iff` — a text is read as an OWID exactly where it is the OWID's own text
  less some of the padding.
-/

namespace OwidRust

variable {m : Machine}

/-! ## The texts -/

/-- The engine `BASE64` of `src/owid.rs`. -/
structure Base64Engine where
  encode : List UInt8 → String
  decode : String → Option (List UInt8)

/-- The standard alphabet, padding written, and read where it is there
(`DecodePaddingMode::Indifferent`). -/
structure Base64Engine.Documented (e : Base64Engine) : Prop where
  encode : ∀ bytes, e.encode bytes = String.ofList (Base64.encode Base64.standard bytes)
  decode : ∀ value, e.decode value = Base64.decode Base64.standard value.toList

/-- An engine that does what is documented. -/
def sampleEngine : Base64Engine :=
  ⟨fun bytes => String.ofList (Base64.encode Base64.standard bytes),
    fun value => Base64.decode Base64.standard value.toList⟩

theorem sampleEngine_documented : sampleEngine.Documented := ⟨fun _ => rfl, fun _ => rfl⟩

namespace Owid

/-- `Owid::as_base64`. -/
def asBase64 (m : Machine) (e : Base64Engine) (o : Owid) : Except Error String := do
  let bytes ← o.asByteArray m
  .ok (e.encode bytes)

/-- `Owid::payload_as_base64`. -/
def payloadAsBase64 (e : Base64Engine) (o : Owid) : String := e.encode o.payload

/-- `Display` of `Owid`. -/
def display (m : Machine) (e : Base64Engine) (o : Owid) : String :=
  match o.asBase64 m e with
  | .ok value => value
  | .error error => error.display

end Owid

/-- So many pads. -/
def padding (k : Nat) : String := String.ofList (List.replicate k '=')

theorem length_toList_le_utf8 (s : String) : s.toList.length ≤ (utf8 s).length := by
  have hchars : ∀ cs : List Char, cs.length ≤ cs.utf8Encode.size := by
    intro cs
    induction cs with
    | nil => exact Nat.zero_le _
    | cons c cs ih =>
      have hc : 0 < [c].utf8Encode.size := by
        simp [List.utf8Encode_singleton, String.length_utf8EncodeChar, Char.utf8Size_pos]
      rw [List.utf8Encode_cons, ByteArray.size_append, List.length_cons]
      omega
  have h := hchars s.toList
  rw [← String.toByteArray_ofList, String.ofList_toList] at h
  exact h

variable {e : Base64Engine} {o a : Owid}

theorem asBase64_eq_ok (he : e.Documented) {text : String} (h : o.asBase64 m e = .ok text) :
    ∃ f : Frame, f.Encodes o ∧ m.Holds f.bytes ∧ o.asByteArray m = .ok f.bytes ∧
      text.toList = Base64.encode Base64.standard f.bytes := by
  obtain ⟨bytes, hbytes, h⟩ := bind_eq_ok h
  obtain ⟨f, hf, rfl, hholds⟩ := Frame.asByteArray_eq_ok hbytes
  cases h
  exact ⟨f, hf, hholds, hbytes, by rw [he.encode, String.toList_ofList]⟩

theorem asBase64_of_encodes (he : e.Documented) (hm : m.Wide) {f : Frame} (hf : f.Encodes o)
    (hholds : m.Holds f.bytes) (hr : m.Reserves o true) :
    o.asBase64 m e = .ok (String.ofList (Base64.encode Base64.standard f.bytes)) := by
  rw [Owid.asBase64, Frame.asByteArray_of_encodes hm hf hholds hr, ok_bind, he.encode]

/-- An OWID has one frame. -/
theorem Frame.Encodes.unique {f g : Frame} (hf : f.Encodes o) (hg : g.Encodes o) : f = g := by
  obtain ⟨hv, hd, hc, hp, hs⟩ := hf
  obtain ⟨hv', hd', hc', hp', hs'⟩ := hg
  have hcount : f.count = g.count := Option.some.inj (hc.symm.trans hc')
  cases f
  cases g
  simp only at hv hd hcount hp hs hv' hd' hp' hs'
  subst hv hd hcount hp hs hv' hd' hp' hs'
  rfl

theorem fromBase64_eq_ok (he : e.Documented) {value : String} (hvalue : m.Holds (utf8 value))
    (h : Owid.fromBase64 m e.decode value = .ok o) :
    ∃ f : Frame, o = f.owid ∧ m.Holds f.bytes ∧ ∃ k ≤ Base64.pads f.bytes,
      value.toList = Base64.digits Base64.standard f.bytes ++ List.replicate k '=' := by
  unfold Owid.fromBase64 at h
  split at h
  · cases h
  · split at h
    · cases h
    · rename_i buffer hdecode
      rw [he.decode] at hdecode
      have hholds : m.Holds buffer :=
        ((Base64.length_le_of_decode hdecode).trans (length_toList_le_utf8 value)).trans hvalue
      obtain ⟨f, rfl, rfl⟩ := Frame.fromByteArray_eq_ok hholds h
      exact ⟨f, rfl, hholds, Base64.decode_eq_some_iff.mp hdecode⟩

theorem fromBase64_digits (he : e.Documented) {f : Frame}
    (hr : m.reserves f.payload.length = true) (hholds : m.Holds f.bytes) {value : String} {k : Nat}
    (hk : k ≤ Base64.pads f.bytes)
    (hvalue : value.toList = Base64.digits Base64.standard f.bytes ++ List.replicate k '=') :
    Owid.fromBase64 m e.decode value = .ok f.owid := by
  have hdecode : e.decode value = some f.bytes := by
    rw [he.decode]
    exact Base64.decode_eq_some_iff.mpr ⟨k, hk, hvalue⟩
  have hne : value.isEmpty = false := by
    have hlength := Base64.length_le_of_decode ((he.decode value).symm.trans hdecode)
    have hbytes : 0 < f.bytes.length := by
      simp [Frame.bytes, Frame.head]
    rw [Bool.eq_false_iff]
    intro hempty
    rw [String.isEmpty_iff] at hempty
    rw [hempty] at hlength
    simp only [String.toList_empty, List.length_nil] at hlength
    omega
  unfold Owid.fromBase64
  simp only [hne, Bool.false_eq_true, if_false, hdecode]
  exact Frame.fromByteArray_bytes f hr hholds

/-- An OWID's own text, with whatever padding is left of it, is read as its frame is. -/
theorem fromBase64_of_asBase64 (he : e.Documented) {f : Frame} (hf : f.Encodes o)
    (hr : m.reserves o.payload.length = true) {value : String} {k : Nat}
    (h : o.asBase64 m e = .ok (value ++ padding k)) :
    Owid.fromBase64 m e.decode value = .ok f.owid := by
  obtain ⟨g, hg, hholds, -, hchars⟩ := asBase64_eq_ok he h
  obtain rfl := hf.unique hg
  rw [String.toList_append, padding, String.toList_ofList, Base64.encode] at hchars
  -- the pads that are missing are among those at the end, for no digit is one
  obtain ⟨-, hcut⟩ := Base64.eq_of_append_pads (A := Base64.standard) hchars
  exact fromBase64_digits he (hf.2.2.2.1 ▸ hr) hholds (Nat.sub_le _ _) hcut

/-- **A text is read as an OWID exactly where it is the OWID's own text less some of the padding**:
two texts of one OWID differ in padding alone, and no other text is read as it.  The OWID is one that
has a frame, its date in whole units of its version and its fields within the format's bounds, and
its payload and its bytes can be reserved. -/
theorem Owid.fromBase64_eq_ok_iff (he : e.Documented) (hm : m.Wide)
    (hpayload : m.reserves o.payload.length = true) (hwhole : m.Reserves o true) {value : String}
    (hvalue : m.Holds (utf8 value)) :
    Owid.fromBase64 m e.decode value = .ok o ↔
      (∃ f : Frame, f.owid = o) ∧ ∃ k, o.asBase64 m e = .ok (value ++ padding k) := by
  constructor
  · intro h
    obtain ⟨f, rfl, hholds, j, hj, htext⟩ := fromBase64_eq_ok he hvalue h
    refine ⟨⟨f, rfl⟩, Base64.pads f.bytes - j, ?_⟩
    rw [asBase64_of_encodes he hm f.encodes_owid hholds hwhole, Except.ok.injEq]
    apply String.toList_inj.mp
    rw [String.toList_ofList, Base64.encode, String.toList_append, padding, String.toList_ofList,
      htext, List.append_assoc, List.replicate_append_replicate, Nat.add_sub_cancel' hj]
    rfl
  · rintro ⟨⟨f, rfl⟩, k, htext⟩
    exact fromBase64_of_asBase64 he f.encodes_owid hpayload htext

/-- A text that lost the two pads at its end. -/
def sampleText : String :=
  "A2FiAAEAAAADAAAABwgFCQkJCQkJCQkJCQkJCQkJCQkJCQkJCQkJ" ++
    "CQkJCQkJCQkJCQkJCQkJCQkJCQkJCQkJCQkJCQkJCQkJCQkJCQkJCQ"

theorem fromBase64_eq_ok_iff_sample :
    Owid.fromBase64 machine64 sampleEngine.decode sampleText =
      .ok ⟨.version3, "ab", atMinute 1, [7, 8, 5], List.replicate 64 9⟩ := by
  let f : Frame := ⟨.version3, "ab", 1, [7, 8, 5], List.replicate 64 9, by decide, ⟨by decide, by decide⟩,
    by decide, by decide, rfl⟩
  have hheld : machine64.Holds (utf8 sampleText) := by decide +kernel
  have hwritten : Owid.asBase64 machine64 sampleEngine
      ⟨.version3, "ab", atMinute 1, [7, 8, 5], List.replicate 64 9⟩ =
        .ok (sampleText ++ padding 2) := by decide +kernel
  exact (Owid.fromBase64_eq_ok_iff sampleEngine_documented machine64_wide rfl rfl hheld).mpr
    ⟨⟨f, rfl⟩, 2, hwritten⟩

end OwidRust
