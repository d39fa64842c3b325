import Mathlib.Data.List.AList

/-!
# Finite maps of lists, and how many elements they hold

A bucket map keeps a list under each key; a key without an entry has the empty list.
`total_insert` says how the number of elements over all keys changes when one list is replaced.
-/

namespace Buckets

variable {κ α : Type*}

/-- A list under each of finitely many keys. -/
abbrev BucketMap (κ α : Type*) := AList fun _ : κ => List α

/-- How many elements the map holds over every key. -/
def total (b : BucketMap κ α) : Nat := (b.entries.flatMap Sigma.snd).length

@[simp] theorem total_empty : total (∅ : BucketMap κ α) = 0 := rfl

variable [DecidableEq κ]

/-- The list under the key. -/
def bucket (b : BucketMap κ α) (k : κ) : List α := (b.lookup k).getD []

@[simp] theorem bucket_empty (k : κ) : bucket (∅ : BucketMap κ α) k = [] := rfl

theorem bucket_of_lookup {b : BucketMap κ α} {k : κ} {xs : List α} (h : b.lookup k = some xs) :
    bucket b k = xs := by
  rw [bucket, h]
  rfl

@[simp] theorem bucket_insert (b : BucketMap κ α) (k : κ) (xs : List α) :
    bucket (b.insert k xs) k = xs := by
  rw [bucket, AList.lookup_insert]
  rfl

theorem bucket_insert_ne {b : BucketMap κ α} {k k' : κ} {xs : List α} (h : k' ≠ k) :
    bucket (b.insert k xs) k' = bucket b k' := by
  rw [bucket, AList.lookup_insert_ne h]
  rfl

/-- Leaving one entry out takes as many elements off as its list has. -/
theorem length_kerase (k : κ) (l : List (Sigma fun _ : κ => List α)) :
    ((l.kerase k).flatMap Sigma.snd).length + ((l.dlookup k).getD []).length =
      (l.flatMap Sigma.snd).length := by
  induction l with
  | nil => rfl
  | cons entry l ih =>
    obtain ⟨k', xs⟩ := entry
    by_cases hk : k = k'
    · subst hk
      simp [List.kerase_cons_eq, List.dlookup_cons_eq, Nat.add_comm]
    · rw [List.kerase_cons_ne (by exact hk), List.dlookup_cons_ne _ _ (by exact hk)]
      simp only [List.flatMap_cons, List.length_append]
      omega

/-- **Replacing one list changes the total by the difference of the two lengths.** -/
theorem total_insert (b : BucketMap κ α) (k : κ) (xs : List α) :
    total (b.insert k xs) + (bucket b k).length = total b + xs.length := by
  have h := length_kerase k b.entries
  simp only [total, bucket, AList.lookup, AList.entries_insert,
    List.flatMap_cons, List.length_append] at h ⊢
  omega

end Buckets
