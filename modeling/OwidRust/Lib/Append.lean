import Mathlib.Logic.Basic

/-!
# Append-only writers that may refuse

A writer works on a growing list and either goes on or stops with an error; what it had already
appended when it stopped stays in the list.  `Appends w xs` says that `w` goes on and has appended
`xs`, whatever the list held, and `Refuses w e xs` that it stops with `e` having appended `xs`.
`appends_andThen` composes writers that go on, and `andThen_eq_ok` takes apart one that did.
-/

namespace Append

variable {ε α : Type}

/-- A writer answers on a list, and leaves the list it has written. -/
abbrev Appender (ε α : Type) := List α → Except ε Unit × List α

/-- Appends the elements. -/
def push (xs : List α) : Appender ε α := fun buffer => (.ok (), buffer ++ xs)

/-- Stops with the error, having appended nothing. -/
def refuse (e : ε) : Appender ε α := fun buffer => (.error e, buffer)

/-- The second writer, on what the first left, where the first went on. -/
def andThen (v w : Appender ε α) : Appender ε α := fun buffer =>
  match v buffer with
  | (.ok _, left) => w left
  | (.error e, left) => (.error e, left)

def Appends (w : Appender ε α) (xs : List α) : Prop := ∀ buffer, w buffer = (.ok (), buffer ++ xs)

def Refuses (w : Appender ε α) (e : ε) (xs : List α) : Prop :=
  ∀ buffer, w buffer = (.error e, buffer ++ xs)

theorem appends_push (xs : List α) : Appends (push xs : Appender ε α) xs := fun _ => rfl

theorem refuses_refuse (e : ε) : Refuses (refuse e : Appender ε α) e [] := fun buffer => by
  simp [refuse]

theorem appends_andThen {v w : Appender ε α} {xs ys : List α} (hv : Appends v xs)
    (hw : Appends w ys) : Appends (andThen v w) (xs ++ ys) := by
  intro buffer
  simp only [andThen, hv buffer, hw (buffer ++ xs), List.append_assoc]

theorem andThen_eq_ok {v w : Appender ε α} {buffer left : List α}
    (h : andThen v w buffer = (.ok (), left)) :
    ∃ mid, v buffer = (.ok (), mid) ∧ w mid = (.ok (), left) := by
  unfold andThen at h
  split at h
  · rename_i mid hv
    exact ⟨mid, hv, h⟩
  · cases h

theorem Refuses.ne_ok {w : Appender ε α} {e : ε} {xs : List α} (hw : Refuses w e xs)
    {buffer left : List α} : w buffer ≠ (.ok (), left) := by
  rw [hw buffer]
  exact nofun

theorem Appends.unique {w : Appender ε α} {xs ys : List α} (hx : Appends w xs)
    (hy : Appends w ys) : xs = ys := by
  have h := (hx []).symm.trans (hy [])
  simpa using h

end Append
