import OwidRust.Frame

/-!
# The size computed before writing

`encoded_len` of `src/owid.rs` beside the writers: for every OWID, whatever its fields, the size
computed is the size written, and the forms that reserve it first answer what the writers append.

* `appended_toBuffer`, `appended_toBufferNoSignature` — what a writer appended, and its size;
* `encodedLen_exact` — both forms, with and without the signature.
-/

namespace OwidRust

variable {m : Machine} {o : Owid} {buffer left : List UInt8}

/-- **What `to_buffer` appends has the size computed**, and is what `as_byte_array` answers. -/
theorem appended_toBuffer (hm : m.Wide)
    (htotal : (o.lengths (dateLength o.version) true).sum ≤ m.usizeMax)
    (h : o.toBuffer buffer = (.ok (), left)) :
    ∃ xs, left = buffer ++ xs ∧ o.encodedLen m true = .ok xs.length ∧
      (m.Reserves o true → o.asByteArray m = .ok xs) := by
  obtain ⟨f, hf, rfl⟩ := Frame.toBuffer_eq_ok h
  have hholds : m.Holds f.bytes := by
    rw [Machine.Holds, hf.length_bytes]
    exact htotal
  exact ⟨f.bytes, rfl, Frame.encodedLen_of_encodes hm hf hholds,
    Frame.asByteArray_of_encodes hm hf hholds⟩

/-- **What `to_buffer_no_signature` appends has the size computed**, and is what `signed_bytes`
answers. -/
theorem appended_toBufferNoSignature (hm : m.Wide)
    (htotal : (o.lengths (dateLength o.version) false).sum ≤ m.usizeMax)
    (h : o.toBufferNoSignature buffer = (.ok (), left)) :
    ∃ xs, left = buffer ++ xs ∧ o.encodedLen m false = .ok xs.length ∧
      (m.Reserves o false → o.signedBytes m = .ok xs) := by
  -- the signature is neither written nor counted, so one of the right length may stand for it
  let signature : List UInt8 := List.replicate SIGNATURE_LENGTH 0
  obtain ⟨f, hf, rfl⟩ := Frame.head_eq_ok (o := { o with signature := signature }) h
    List.length_replicate
  have hholds : m.Holds f.head := by
    rw [Machine.Holds, hf.length_head]
    exact htotal
  have hlen := Frame.encodedLen_head_of_encodes hm hf hholds
  rw [Owid.encodedLen_signature] at hlen
  have hsigned : m.Reserves o false → o.signedBytes m = .ok f.head := by
    intro hr
    rw [← Owid.signedBytes_signature m o signature]
    exact Frame.signedBytes_of_encodes hm hf hholds hr
  exact ⟨f.head, rfl, hlen, hsigned⟩

/-- **The size computed before writing is the size written**, with the signature and without, and the
reserving forms, where what they reserve can be had, answer exactly what the writers leave in an
empty buffer. -/
theorem encodedLen_exact (hm : m.Wide) (o : Owid) :
    ((o.lengths (dateLength o.version) true).sum ≤ m.usizeMax →
      (∀ buffer left, o.toBuffer buffer = (.ok (), left) →
        ∃ xs, left = buffer ++ xs ∧ o.encodedLen m true = .ok xs.length) ∧
      (m.Reserves o true → ∀ b, o.asByteArray m = .ok b ↔ o.toBuffer [] = (.ok (), b))) ∧
    ((o.lengths (dateLength o.version) false).sum ≤ m.usizeMax →
      (∀ buffer left, o.toBufferNoSignature buffer = (.ok (), left) →
        ∃ xs, left = buffer ++ xs ∧ o.encodedLen m false = .ok xs.length) ∧
      (m.Reserves o false →
        ∀ s, o.signedBytes m = .ok s ↔ o.toBufferNoSignature [] = (.ok (), s))) := by
  constructor
  · intro htotal
    refine ⟨?_, fun hr b => ⟨fun h => (Owid.written_eq_ok h).1, ?_⟩⟩
    · intro buffer left h
      obtain ⟨xs, hleft, hlen, -⟩ := appended_toBuffer hm htotal h
      exact ⟨xs, hleft, hlen⟩
    · intro h
      obtain ⟨xs, rfl, -, hwritten⟩ := appended_toBuffer hm htotal h
      exact hwritten hr
  · intro htotal
    refine ⟨?_, fun hr s => ⟨fun h => (Owid.written_eq_ok h).1, ?_⟩⟩
    · intro buffer left h
      obtain ⟨xs, hleft, hlen, -⟩ := appended_toBufferNoSignature hm htotal h
      exact ⟨xs, hleft, hlen⟩
    · intro h
      obtain ⟨xs, rfl, -, hsigned⟩ := appended_toBufferNoSignature hm htotal h
      exact hsigned hr

theorem encodedLen_exact_sample : sampleOwid.asByteArray machine64 = .ok sampleBytes ∧
    ∃ xs, (0 :: sampleBytes) = [0] ++ xs ∧ sampleOwid.encodedLen machine64 true = .ok xs.length := by
  obtain ⟨hsize, hform⟩ := (encodedLen_exact machine64_wide sampleOwid).1 (by decide)
  exact ⟨(hform rfl sampleBytes).mpr (by decide +kernel),
    hsize [0] (0 :: sampleBytes) (by decide +kernel)⟩

end OwidRust
