import OwidRust.Framed

/-!
# Runs of frames

OWIDs and absent nodes written one after another with `to_buffer` and `empty_to_buffer`, and read
back with `read_from_prefix` on what the read before it left.  A frame has no length of its own:
its end is where its domain, its date and its declared length put it.

* `readFromPrefix_frameBytes` — one frame is read back off the front of anything that begins
  with it;
* `reads_writeRun` — so a run is, each read taking the bytes its frame was written as.
-/

namespace OwidRust

open Append Chunks

/-- Writes a frame: an OWID, or the marker of a node that is not there. -/
def writeFrame : Option Owid → Appender Error UInt8
  | none => Owid.emptyToBuffer
  | some o => o.toBuffer

/-- Writes the frames in order. -/
def writeRun : List (Option Owid) → Appender Error UInt8
  | [] => push []
  | f :: frames => andThen (writeFrame f) (writeRun frames)

/-- The OWID with its date floored to the unit of its version. -/
def Owid.floored (o : Owid) : Owid := { o with date := floorDate o.version o.date }

/-- What a frame is written as. -/
def frameBytes (f : Option Owid) : List UInt8 := (writeFrame f []).2

variable {m : Machine}

theorem frameBytes_some {o : Owid} (h : (o.toBuffer []).1 = .ok ()) :
    ∃ f : Frame, f.Encodes o ∧ frameBytes (some o) = f.bytes :=
  Frame.toBuffer_eq_ok (Prod.ext h rfl)

theorem appends_writeFrame {f : Option Owid} (h : (writeFrame f []).1 = .ok ()) :
    Appends (writeFrame f) (frameBytes f) := by
  cases f with
  | none => exact appends_push _
  | some o =>
    obtain ⟨frame, hencodes, hbytes⟩ := frameBytes_some h
    rw [hbytes]
    exact Frame.appends_toBuffer hencodes

theorem appends_writeRun : ∀ {frames : List (Option Owid)},
    (∀ f ∈ frames, (writeFrame f []).1 = .ok ()) →
      Appends (writeRun frames) (frames.flatMap frameBytes)
  | [], _ => appends_push []
  | f :: _, h => appends_andThen (appends_writeFrame (h f (List.mem_cons_self ..)))
      (appends_writeRun fun f' hf' => h f' (List.mem_cons_of_mem f hf'))

/-- **A frame is read back off the front of anything that begins with it.** -/
theorem readFromPrefix_frameBytes {f : Option Owid} (hdate : ∀ o ∈ f, baseDate ≤ o.date)
    (hwrite : (writeFrame f []).1 = .ok ()) (hr : ∀ o ∈ f, m.reserves o.payload.length = true)
    {rest : List UInt8} (hm : m.Holds (frameBytes f ++ rest)) :
    Owid.readFromPrefix m (frameBytes f ++ rest) = .ok (f.map Owid.floored, rest) := by
  cases f with
  | none =>
    rw [readFromPrefix_eq hm]
    rfl
  | some o =>
    obtain ⟨frame, hencodes, hbytes⟩ := frameBytes_some hwrite
    obtain ⟨hversion, hdomain, hcount, hpayload, hsignature⟩ := hencodes
    have howid : frame.owid = o.floored := by
      rw [Frame.owid, Owid.floored, hversion, hdomain, hpayload, hsignature,
        countDate_eq_floorDate (hdate o rfl) hcount]
    rw [hbytes] at hm ⊢
    rw [frame.readFromPrefix_bytes (hpayload ▸ hr o rfl) hm, howid]
    rfl

/-- **Reading a run of frames recovers exactly the run written**, each read taking the bytes its
frame was written as and the bytes after the run left over, where the payloads can be reserved. -/
theorem reads_writeRun {frames : List (Option Owid)} {t : List UInt8}
    (hdate : ∀ o, some o ∈ frames → baseDate ≤ o.date)
    (hwrite : ∀ o, some o ∈ frames → (o.toBuffer []).1 = .ok ())
    (hr : ∀ o, some o ∈ frames → m.reserves o.payload.length = true)
    (hm : m.Holds ((writeRun frames []).2 ++ t)) :
    (writeRun frames []).1 = .ok () ∧
    reads (Owid.readFromPrefix m) frames.length ((writeRun frames []).2 ++ t) =
      .ok (frames.map fun f => (f.map Owid.floored, frameBytes f), t) := by
  have hwritten : ∀ f ∈ frames, (writeFrame f []).1 = .ok () := by
    intro f hf
    cases f with
    | none => rfl
    | some o => exact hwrite o hf
  have hrun : writeRun frames [] = (.ok (), frames.flatMap frameBytes) :=
    appends_writeRun hwritten []
  rw [hrun] at hm ⊢
  refine ⟨rfl, reads_encoded t frames hm ?_⟩
  intro f hf rest hfits
  exact readFromPrefix_frameBytes (fun o ho => hdate o (ho ▸ hf)) (hwritten f hf)
    (fun o ho => hr o (ho ▸ hf)) hfits

/-- A run of an absent node, a version 3 OWID and a version 1 OWID, with a byte after it. -/
def sampleRun : List (Option Owid) :=
  [none, some sampleOwid, some ⟨.version1, "", baseDate.addSeconds 7201, [], List.replicate 64 5⟩]

theorem reads_writeRun_sample : (writeRun sampleRun []).1 = .ok () ∧
    reads (Owid.readFromPrefix machine64) sampleRun.length ((writeRun sampleRun []).2 ++ [3]) =
      .ok (sampleRun.map fun f => (f.map Owid.floored, frameBytes f), [3]) := by
  refine reads_writeRun ?_ ?_ (fun _ _ => rfl) (by decide +kernel)
  · intro o ho
    simp only [sampleRun, List.mem_cons, Option.some.injEq, List.not_mem_nil, or_false,
      reduceCtorEq, false_or] at ho
    rcases ho with rfl | rfl <;> decide
  · intro o ho
    simp only [sampleRun, List.mem_cons, Option.some.injEq, List.not_mem_nil, or_false,
      reduceCtorEq, false_or] at ho
    rcases ho with rfl | rfl <;> decide +kernel

/-- Where the payload cannot be reserved the frame is written and not read back. -/
theorem reads_writeRun_exhausted :
    baseDate ≤ sampleOwid.date ∧ (sampleOwid.toBuffer []).1 = .ok () ∧
    reads (Owid.readFromPrefix exhausted) 1 ((writeRun [some sampleOwid] []).2 ++ []) =
      .error (.fail ⟨.implementationCapacityExceeded, some (.capacity 2)⟩) :=
  ⟨by decide, by decide +kernel, by decide +kernel⟩

end OwidRust
