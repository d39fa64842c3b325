import Mathlib.Logic.Basic

/-!
# Reading from a source that arrives in chunks

A reader takes one item off the front of a list and hands back what is left, or stops with an
error; some of its errors only ask for more.  A reader is `Stable` where more of the list changes
neither an item it has read nor an error that does not ask for more.

* `Stable.bind` — reading one thing and then another is stable where both are;
* `Stable.waits_of_append` — a read that needed what came later had asked for more;
* `reads_encoded` — items written one after another are read back one after another;
* `arrivals_agree` — however the list is cut into chunks, a session reads the items, and stops
  for the reason, that one walk over the whole list does.

Everything is said of lists up to a bound, for readers that can only hold so much.
-/

namespace Chunks

variable {α β γ ε : Type}

/-- Reads off the front: an item with what is left, or why there is none. -/
abbrev Reader (ε α β : Type) := List α → Except ε (β × List α)

variable {read : Reader ε α β} {waits : ε → Bool} {bound : Nat}

/-! ## Readers that more of the list does not change -/

structure Stable (read : Reader ε α β) (waits : ε → Bool) (bound : Nat) : Prop where
  left : ∀ {b a r}, b.length ≤ bound → read b = .ok (a, r) → r.length ≤ b.length
  ok : ∀ {b a r} (x : List α), (b ++ x).length ≤ bound → read b = .ok (a, r) →
    read (b ++ x) = .ok (a, r ++ x)
  error : ∀ {b e} (x : List α), (b ++ x).length ≤ bound → read b = .error e → waits e = false →
    read (b ++ x) = .error e

theorem Stable.bind {next : β → Reader ε α γ} (h : Stable read waits bound)
    (hnext : ∀ a, Stable (next a) waits bound) :
    Stable (fun b => read b >>= fun p => next p.1 p.2) waits bound where
  left := by
    intro b c r hb hread
    cases hv : read b with
    | error e => rw [hv] at hread; cases hread
    | ok p =>
      obtain ⟨a, mid⟩ := p
      rw [hv] at hread
      have hmid := h.left hb hv
      exact Nat.le_trans ((hnext a).left (Nat.le_trans hmid hb) hread) hmid
  ok := by
    intro b c r x hb hread
    cases hv : read b with
    | error e => rw [hv] at hread; cases hread
    | ok p =>
      obtain ⟨a, mid⟩ := p
      rw [hv] at hread
      have hmid := h.left (by rw [List.length_append] at hb; omega) hv
      have hfits : (mid ++ x).length ≤ bound := by
        rw [List.length_append] at hb ⊢
        omega
      simp only [h.ok x hb hv]
      exact (hnext a).ok x hfits hread
  error := by
    intro b e x hb hread he
    cases hv : read b with
    | error e' =>
      rw [hv] at hread
      cases hread
      simp only [h.error x hb hv he]
      rfl
    | ok p =>
      obtain ⟨a, mid⟩ := p
      rw [hv] at hread
      have hmid := h.left (by rw [List.length_append] at hb; omega) hv
      have hfits : (mid ++ x).length ≤ bound := by
        rw [List.length_append] at hb ⊢
        omega
      simp only [h.ok x hb hv]
      exact (hnext a).error x hfits hread he

/-- The reader that reads nothing. -/
theorem stable_pure (a : β) : Stable (fun b => (.ok (a, b) : Except ε (β × List α))) waits bound where
  left := by
    intro b a' r _ h
    cases h
    exact Nat.le_refl _
  ok := by
    intro b a' r x _ h
    cases h
    rfl
  error := by
    intro b e x _ h
    cases h

/-- The reader that stops on anything. -/
theorem stable_stop (e : ε) : Stable (fun _ => (.error e : Except ε (β × List α))) waits bound where
  left := by
    intro b a r _ h
    cases h
  ok := by
    intro b a r x _ h
    cases h
  error := by
    intro b e' x _ h _
    exact h

/-- A field of fixed width, where too little of the list asks for more. -/
theorem stable_fixed (n : Nat) {e : ε} (he : waits e = true) (f : List α → β) :
    Stable (fun b => if b.length < n then .error e else .ok (f (b.take n), b.drop n))
      waits bound where
  left := by
    intro b a r _ h
    split at h <;> cases h
    rw [List.length_drop]
    omega
  ok := by
    intro b a r x _ h
    split at h <;> cases h
    rename_i hn
    rw [if_neg (by rw [List.length_append]; omega), List.take_append_of_le_length (by omega),
      List.drop_append_of_le_length (by omega)]
  error := by
    intro b e' x _ h hw
    split at h <;> cases h
    rw [he] at hw
    cases hw

theorem mapError_ok {ε' : Type} (f : ε → ε') (b : β) :
    (Except.ok b : Except ε β).mapError f = .ok b := rfl

theorem mapError_error {ε' : Type} (f : ε → ε') (e : ε) :
    (Except.error e : Except ε β).mapError f = .error (f e) := rfl

theorem mapError_eq_ok {ε' : Type} {f : ε → ε'} {x : Except ε β} {b : β} :
    x.mapError f = .ok b ↔ x = .ok b := by
  cases x with
  | ok b' => rw [mapError_ok, Except.ok.injEq, Except.ok.injEq]
  | error e => simp [mapError_error]

theorem mapError_eq_error {ε' : Type} {f : ε → ε'} {x : Except ε β} {e : ε'} :
    x.mapError f = .error e ↔ ∃ e', x = .error e' ∧ f e' = e := by
  cases x with
  | ok b => simp [mapError_ok]
  | error e' => simp [mapError_error]

/-- Errors under another name, and another reader that answers the same up to the bound. -/
theorem Stable.congr {ε' : Type} {read' : Reader ε' α β} {waits' : ε' → Bool} (f : ε → ε')
    (h : Stable read waits bound) (hwaits : ∀ e, waits' (f e) = waits e)
    (heq : ∀ b, b.length ≤ bound → read' b = (read b).mapError f) :
    Stable read' waits' bound where
  left := by
    intro b a r hb hread
    rw [heq b hb, mapError_eq_ok] at hread
    exact h.left hb hread
  ok := by
    intro b a r x hb hread
    rw [heq b (by rw [List.length_append] at hb; omega), mapError_eq_ok] at hread
    rw [heq _ hb, mapError_eq_ok]
    exact h.ok x hb hread
  error := by
    intro b e x hb hread he
    rw [heq b (by rw [List.length_append] at hb; omega), mapError_eq_error] at hread
    obtain ⟨e', hv, rfl⟩ := hread
    rw [heq _ hb, mapError_eq_error]
    exact ⟨e', h.error x hb hv (hwaits e' ▸ he), rfl⟩

/-- **A read that needed what came later had asked for more.** -/
theorem Stable.waits_of_append (h : Stable read waits bound) {b x r : List α} {a : β}
    (hb : (b ++ x).length ≤ bound) (hread : read (b ++ x) = .ok (a, r))
    (hr : r.length < x.length) : ∃ e, read b = .error e ∧ waits e = true := by
  cases hv : read b with
  | ok p =>
    obtain ⟨a', r'⟩ := p
    have hsame := h.ok x hb hv
    rw [hread] at hsame
    cases hsame
    rw [List.length_append] at hr
    omega
  | error e =>
    cases hw : waits e with
    | true => exact ⟨e, rfl, hw⟩
    | false =>
      have hsame := h.error x hb hv hw
      rw [hread] at hsame
      cases hsame

/-- A stable reader that takes something for each item it reads. -/
structure Framing (read : Reader ε α β) (waits : ε → Bool) (bound : Nat) : Prop
    extends Stable read waits bound where
  takes : ∀ {b a r}, b.length ≤ bound → read b = .ok (a, r) → r.length < b.length

theorem Framing.congr {ε' : Type} {read' : Reader ε' α β} {waits' : ε' → Bool} (f : ε → ε')
    (h : Framing read waits bound) (hwaits : ∀ e, waits' (f e) = waits e)
    (heq : ∀ b, b.length ≤ bound → read' b = (read b).mapError f) :
    Framing read' waits' bound := by
  refine ⟨h.toStable.congr f hwaits heq, ?_⟩
  intro b a r hb hread
  rw [heq b hb, mapError_eq_ok] at hread
  exact h.takes hb hread

/-- A reader that asks for more of nothing and is stable after the first element. -/
theorem framing_cons {e : ε} (hnil : read [] = .error e) (he : waits e = true)
    (h : ∀ a, Stable (fun b => read (a :: b)) waits bound) : Framing read waits bound := by
  have hrest : ∀ {a : α} {b : List α}, (a :: b).length ≤ bound → b.length ≤ bound := by
    intro a b hb
    rw [List.length_cons] at hb
    omega
  have htakes : ∀ {b c r}, b.length ≤ bound → read b = .ok (c, r) → r.length < b.length := by
    intro b c r hb hread
    cases b with
    | nil => rw [hnil] at hread; cases hread
    | cons a b => exact Nat.lt_succ_of_le ((h a).left (hrest hb) hread)
  refine ⟨⟨fun hb hread => Nat.le_of_lt (htakes hb hread), ?_, ?_⟩, htakes⟩
  · intro b c r x hb hread
    cases b with
    | nil => rw [hnil] at hread; cases hread
    | cons a b => exact (h a).ok x (hrest hb) hread
  · intro b e' x hb hread hw
    cases b with
    | nil =>
      rw [hnil] at hread
      cases hread
      rw [he] at hw
      cases hw
    | cons a b => exact (h a).error x (hrest hb) hread hw

/-! ## So many reads -/

/-- So many reads, each with the part of the list it took. -/
def reads (read : Reader ε α β) : Nat → List α → Except ε (List (β × List α) × List α)
  | 0, b => .ok ([], b)
  | n + 1, b => do
    let (a, r) ← read b
    let (items, left) ← reads read n r
    return ((a, b.take (b.length - r.length)) :: items, left)

/-- **What is written one item after another is read back one item after another**, where each
item is read back off the front of anything that begins with it. -/
theorem reads_encoded {encode : γ → List α} {decode : γ → β} (rest : List α) :
    ∀ items : List γ, (items.flatMap encode ++ rest).length ≤ bound →
      (∀ c ∈ items, ∀ r, (encode c ++ r).length ≤ bound → read (encode c ++ r) = .ok (decode c, r)) →
      reads read items.length (items.flatMap encode ++ rest) =
        .ok (items.map fun c => (decode c, encode c), rest)
  | [], _, _ => rfl
  | c :: items, hb, hitem => by
    rw [List.flatMap_cons, List.append_assoc] at hb ⊢
    have hrest : (items.flatMap encode ++ rest).length ≤ bound := by
      rw [List.length_append] at hb
      omega
    have hread := hitem c (List.mem_cons_self ..) _ hb
    have ih := reads_encoded rest items hrest fun c' hc' => hitem c' (List.mem_cons_of_mem c hc')
    have htaken : (encode c ++ (items.flatMap encode ++ rest)).take
        ((encode c ++ (items.flatMap encode ++ rest)).length -
          (items.flatMap encode ++ rest).length) = encode c := by
      rw [List.length_append, Nat.add_sub_cancel]
      exact List.take_left
    rw [List.length_cons, reads, hread]
    show (reads read items.length (items.flatMap encode ++ rest) >>= _) = _
    rw [ih, htaken]
    rfl

/-! ## Reading to the end -/

/-- The items read, what is left and why reading stopped. -/
structure Session (ε α β : Type) where
  items : List β
  left : List α
  stop : Option ε
  deriving DecidableEq, Repr

/-- Reads at most so many items, with no reason to stop where there were that many. -/
def drainFor (read : Reader ε α β) : Nat → List α → Session ε α β
  | 0, b => ⟨[], b, none⟩
  | n + 1, b =>
    match read b with
    | .error e => ⟨[], b, some e⟩
    | .ok (a, r) =>
      let rest := drainFor read n r
      ⟨a :: rest.items, rest.left, rest.stop⟩

/-- Reads until the reader stops.  A reader that takes something for each item reads fewer items
than the list is long. -/
def drain (read : Reader ε α β) (b : List α) : Session ε α β := drainFor read (b.length + 1) b

/-- A chunk arrives: reading goes on where the session had stopped for want of more. -/
def arrive (read : Reader ε α β) (waits : ε → Bool) (s : Session ε α β) (chunk : List α) :
    Session ε α β :=
  if s.stop.any waits then
    let rest := drain read (s.left ++ chunk)
    ⟨s.items ++ rest.items, rest.left, rest.stop⟩
  else s

theorem drainFor_eq (h : Framing read waits bound) :
    ∀ {n b}, b.length ≤ bound → b.length < n → drainFor read n b = drain read b := by
  have hmore : ∀ n {b}, b.length ≤ bound → b.length < n →
      drainFor read (n + 1) b = drainFor read n b := by
    intro n
    induction n with
    | zero => intro b _ hn; omega
    | succ n ih =>
      intro b hb hn
      rw [drainFor, drainFor]
      cases hv : read b with
      | error e => rfl
      | ok p =>
        have hlt := h.takes hb hv
        simp only [ih (b := p.2) (by omega) (by omega)]
  intro n b hb hn
  obtain ⟨k, rfl⟩ : ∃ k, n = b.length + 1 + k := ⟨n - (b.length + 1), by omega⟩
  induction k with
  | zero => rfl
  | succ k ih => rw [← Nat.add_assoc, hmore _ hb (by omega), ih (by omega)]

theorem drain_error {b : List α} {e : ε} (hv : read b = .error e) :
    drain read b = ⟨[], b, some e⟩ := by
  rw [drain, drainFor, hv]

theorem drain_ok (h : Framing read waits bound) {b r : List α} {a : β} (hb : b.length ≤ bound)
    (hv : read b = .ok (a, r)) :
    drain read b = ⟨a :: (drain read r).items, (drain read r).left, (drain read r).stop⟩ := by
  have hlt := h.takes hb hv
  rw [drain, drainFor, hv]
  simp only [drainFor_eq h (show r.length ≤ bound by omega) hlt]

/-! ## Sessions -/

/-- The two have read the same and stop for the same reason; what they have left is the same where
they ask for more. -/
structure Agrees (waits : ε → Bool) (s t : Session ε α β) : Prop where
  items : s.items = t.items
  stop : s.stop = t.stop
  left : s.stop.any waits = true → s.left = t.left

theorem Agrees.refl (s : Session ε α β) : Agrees waits s s := ⟨rfl, rfl, fun _ => rfl⟩

theorem Agrees.trans {s t u : Session ε α β} (h : Agrees waits s t) (h' : Agrees waits t u) :
    Agrees waits s u :=
  ⟨h.items.trans h'.items, h.stop.trans h'.stop,
    fun hw => (h.left hw).trans (h'.left (h.stop ▸ hw))⟩

theorem Agrees.arrive {s t : Session ε α β} (h : Agrees waits s t) (chunk : List α) :
    Agrees waits (arrive read waits s chunk) (arrive read waits t chunk) := by
  unfold Chunks.arrive
  rw [← h.stop]
  cases hw : s.stop.any waits with
  | false => exact h
  | true =>
    rw [h.items, h.left hw]
    exact .refl _

/-- **Reading on from where reading stopped is reading the whole.** -/
theorem arrive_drain (h : Framing read waits bound) (x : List α) :
    ∀ {b : List α}, (b ++ x).length ≤ bound →
      Agrees waits (arrive read waits (drain read b) x) (drain read (b ++ x)) := by
  intro b
  induction hn : b.length using Nat.strongRecOn generalizing b with
  | ind n ih =>
    intro hb
    have hlength := hb
    rw [List.length_append] at hlength
    cases hv : read b with
    | error e =>
      cases hw : waits e with
      | false =>
        rw [drain_error hv, drain_error (h.error x hb hv hw)]
        exact ⟨by simp [arrive, hw], by simp [arrive, hw], by simp [arrive, hw]⟩
      | true =>
        rw [drain_error hv]
        exact ⟨by simp [arrive, hw], by simp [arrive, hw], by simp [arrive, hw]⟩
    | ok p =>
      obtain ⟨a, r⟩ := p
      have hlt := h.takes (by omega) hv
      have hr : (r ++ x).length ≤ bound := by
        rw [List.length_append]
        omega
      have hrest := ih r.length (hn ▸ hlt) rfl hr
      rw [drain_ok h (by omega) hv, drain_ok h hb (h.ok x hb hv)]
      -- the item is read first either way, and the rest is the session of what it left
      have hcons : arrive read waits
          ⟨a :: (drain read r).items, (drain read r).left, (drain read r).stop⟩ x =
          ⟨a :: (arrive read waits (drain read r) x).items, (arrive read waits (drain read r) x).left,
            (arrive read waits (drain read r) x).stop⟩ := by
        unfold arrive
        cases (drain read r).stop.any waits <;> rfl
      rw [hcons]
      exact ⟨congrArg (a :: ·) hrest.items, hrest.stop, hrest.left⟩

/-- **However the list is cut into chunks**, a session reads the items and stops for the reason
that one walk over the whole list does. -/
theorem arrivals_agree (h : Framing read waits bound) :
    ∀ (chunks : List (List α)) (s : Session ε α β) (b : List α), Agrees waits s (drain read b) →
      (b ++ chunks.flatten).length ≤ bound →
      Agrees waits (chunks.foldl (arrive read waits) s) (drain read (b ++ chunks.flatten))
  | [], s, b, hs, _ => by
    rw [List.flatten_nil, List.append_nil]
    exact hs
  | chunk :: chunks, s, b, hs, hb => by
    rw [List.flatten_cons, ← List.append_assoc] at hb ⊢
    have hfits : (b ++ chunk).length ≤ bound := by
      rw [List.length_append] at hb
      omega
    exact arrivals_agree h chunks _ _ ((hs.arrive chunk).trans (arrive_drain h chunk hfits)) hb

end Chunks
