import OwidRust.Frame

/-!
# What a signature covers

The bytes a creator signs are the version, the domain up to its zero byte, the date, the length of
the payload and the payload.  They say of themselves where they end, so that no OWID's are a part of
another's and a signature over them is one over those fields and no others.

* `Frame.head_append_unique` — a byte string begins with the signed bytes of one set of fields at
  most;
* `Owid.signedBytes_prefix_iff` — the signed bytes of one OWID begin those of another exactly where
  the two say the same.
-/

namespace OwidRust

/-- Two OWIDs of one version, domain and payload whose dates are written alike. -/
structure Owid.SaysSame (o o' : Owid) : Prop where
  version : o.version = o'.version
  domain : o.domain = o'.domain
  date : dateCount o.version o.date = dateCount o'.version o'.date
  payload : o.payload = o'.payload

namespace Frame

variable {f g : Frame}

/-- The frame of the same fields with another signature. -/
def signed (f : Frame) (signature : List UInt8) (h : signature.length = SIGNATURE_LENGTH) : Frame :=
  { f with signature := signature, signature_length := h }

/-- **Bytes begin with the signed bytes of one set of fields at most**: behind any 64 bytes they are
read as an OWID, and a read has one answer. -/
theorem head_append_unique {xs ys : List UInt8} (h : f.head ++ xs = g.head ++ ys) :
    f.version = g.version ∧ f.domain = g.domain ∧ f.count = g.count ∧ f.payload = g.payload ∧
      xs = ys := by
  let tail : List UInt8 := List.replicate SIGNATURE_LENGTH 0
  let m : Machine := ⟨max f.payload.length g.payload.length, fun _ => true⟩
  have hlength : ∀ zs : List UInt8, ((zs ++ tail).take SIGNATURE_LENGTH).length =
      SIGNATURE_LENGTH := by
    intro zs
    simp [tail]
  have hread : ∀ (k : Frame) (zs : List UInt8), m.Provides k.payload.length →
      parseSuffix m .prefixOf (k.head ++ (zs ++ tail)) =
        .ok ((k.signed _ (hlength zs)).owid, (zs ++ tail).drop SIGNATURE_LENGTH) := by
    intro k zs hk
    have hbytes : parseSuffix m .prefixOf
        ((k.signed _ (hlength zs)).bytes ++ (zs ++ tail).drop SIGNATURE_LENGTH) =
          .ok ((k.signed _ (hlength zs)).owid, (zs ++ tail).drop SIGNATURE_LENGTH) :=
      parseSuffix_bytes (k.signed _ (hlength zs)) hk (fun hwhole => nomatch hwhole)
    rw [bytes, List.append_assoc] at hbytes
    simp only [signed, List.take_append_drop] at hbytes
    exact hbytes
  have hf := hread f xs ⟨Nat.le_max_left _ _, rfl⟩
  have hg := hread g ys ⟨Nat.le_max_right _ _, rfl⟩
  rw [← List.append_assoc, h, List.append_assoc, hg, Except.ok.injEq, Prod.mk.injEq] at hf
  obtain ⟨howid, -⟩ := hf
  simp only [owid, signed, Owid.mk.injEq] at howid
  obtain ⟨hversion, hdomain, hdate, hpayload, -⟩ := howid
  have hcount : f.count = g.count := by
    have hcounted := dateCount_countDate f.version_ne f.count_lt
    rw [← hdate, ← hversion, dateCount_countDate g.version_ne g.count_lt] at hcounted
    exact (Option.some.inj hcounted).symm
  have hhead : f.head = g.head := by
    simp only [head, ← hversion, ← hdomain, hcount, ← hpayload]
  rw [hhead] at h
  exact ⟨hversion.symm, hdomain.symm, hcount, hpayload.symm, List.append_cancel_left h⟩

end Frame

namespace Owid

variable {m m' : Machine} {o o' : Owid} {data data' : List UInt8}

/-- The signed bytes of an OWID are the head of a frame of its fields. -/
theorem signedBytes_eq_head (h : o.signedBytes m = .ok data) :
    ∃ f : Frame, f.version = o.version ∧ f.domain = o.domain ∧
      dateCount o.version o.date = some f.count ∧ f.payload = o.payload ∧ data = f.head := by
  obtain ⟨hw, -⟩ := written_eq_ok h
  obtain ⟨f, ⟨hversion, hdomain, hcount, hpayload, -⟩, hdata⟩ := Frame.head_eq_ok
    (o := { o with signature := List.replicate SIGNATURE_LENGTH 0 }) hw List.length_replicate
  exact ⟨f, hversion, hdomain, hcount, hpayload, hdata⟩

/-- **The signed bytes of one OWID begin those of another exactly where the two say the same**, and
are then all of them. -/
theorem signedBytes_prefix_iff (h : o.signedBytes m = .ok data)
    (h' : o'.signedBytes m' = .ok data') :
    (data <+: data' ↔ o.SaysSame o') ∧ (o.SaysSame o' → data = data') := by
  obtain ⟨f, hversion, hdomain, hcount, hpayload, rfl⟩ := signedBytes_eq_head h
  obtain ⟨g, hversion', hdomain', hcount', hpayload', rfl⟩ := signedBytes_eq_head h'
  have hsame : o.SaysSame o' → f.head = g.head := by
    intro hfields
    have hcounts : f.count = g.count := by
      have hdate := hfields.date
      rw [hcount, hcount'] at hdate
      exact Option.some.inj hdate
    simp only [Frame.head, hcounts, hversion, hversion', hfields.version, hdomain, hdomain',
      hfields.domain, hpayload, hpayload', hfields.payload]
  refine ⟨⟨?_, fun hfields => hsame hfields ▸ List.prefix_rfl⟩, hsame⟩
  rintro ⟨xs, hxs⟩
  have hbegins : f.head ++ xs = g.head ++ [] := by rw [hxs, List.append_nil]
  obtain ⟨hv, hd, hc, hp, -⟩ := Frame.head_append_unique hbegins
  refine ⟨?_, ?_, ?_, ?_⟩
  · rw [← hversion, ← hversion', hv]
  · rw [← hdomain, ← hdomain', hd]
  · rw [hcount, hcount', hc]
  · rw [← hpayload, ← hpayload', hp]

/-- An OWID dated later in the same minute says the same, and so has the same signed bytes. -/
theorem signedBytes_prefix_iff_sample :
    sampleOwid.SaysSame { sampleOwid with date := baseDate.addSeconds 119 } := by
  have h : sampleOwid.signedBytes machine64 =
      .ok [3, 97, 98, 0, 1, 0, 0, 0, 2, 0, 0, 0, 7, 8] := by decide +kernel
  have h' : Owid.signedBytes machine64 { sampleOwid with date := baseDate.addSeconds 119 } =
      .ok [3, 97, 98, 0, 1, 0, 0, 0, 2, 0, 0, 0, 7, 8] := by decide +kernel
  exact (signedBytes_prefix_iff h h').1.mp List.prefix_rfl

end Owid

end OwidRust
