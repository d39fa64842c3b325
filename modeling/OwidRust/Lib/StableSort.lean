import Mathlib.Data.List.Sort
import OwidRust.Lib.Periods

/-!
# Stable sorting by start

A list of entries sorted by where they start, entries of one start staying in the order they had.

* `filter_mergeSort` — the entries of one start are the same list before and after;
* `firstInForce_mergeSort` — so the first of the entries in force is the same one.
-/

namespace StableSort

open Periods

variable {ι α : Type*} [LinearOrder α] {start : ι → α} {entries : List ι} {i : ι} {x : α}

/-- The order the entries are sorted in. -/
def startsBefore (start : ι → α) (i j : ι) : Bool := decide (start i ≤ start j)

theorem startsBefore_trans (start : ι → α) (i j k : ι) (hij : startsBefore start i j = true)
    (hjk : startsBefore start j k = true) : startsBefore start i k = true := by
  simp only [startsBefore, decide_eq_true_eq] at hij hjk ⊢
  exact hij.trans hjk

theorem startsBefore_total (start : ι → α) (i j : ι) :
    (startsBefore start i j || startsBefore start j i) = true := by
  simp only [startsBefore, Bool.or_eq_true, decide_eq_true_eq]
  exact le_total _ _

/-- A sorted list is in the order of the starts. -/
theorem pairwise_mergeSort (start : ι → α) (entries : List ι) :
    (entries.mergeSort (startsBefore start)).Pairwise fun i j => start i ≤ start j := by
  have h := List.pairwise_mergeSort (startsBefore_trans start) (startsBefore_total start) entries
  exact h.imp fun hij => of_decide_eq_true hij

/-- **The entries of one start keep their order.** -/
theorem filter_mergeSort (start : ι → α) (entries : List ι) (x : α) :
    (entries.mergeSort (startsBefore start)).filter (fun i => decide (start i = x)) =
      entries.filter fun i => decide (start i = x) := by
  have hsorted : (entries.filter fun i => decide (start i = x)).Pairwise
      fun i j => startsBefore start i j = true := by
    apply List.pairwise_of_forall_mem_list
    intro i hi j hj
    rw [List.mem_filter, decide_eq_true_eq] at hi hj
    simp only [startsBefore, hi.2, hj.2, le_refl, decide_true]
  have hsub := List.sublist_mergeSort (startsBefore_trans start) (startsBefore_total start) hsorted
    List.filter_sublist
  have hfilter := hsub.filter fun i => decide (start i = x)
  simp only [List.filter_filter, Bool.and_self] at hfilter
  have hlength := ((List.mergeSort_perm entries (startsBefore start)).filter
    fun i => decide (start i = x)).length_eq
  exact (hfilter.eq_of_length hlength.symm).symm

/-- **The first of the entries in force is the one there was.** -/
theorem firstInForce_mergeSort :
    FirstInForce (entries.mergeSort (startsBefore start)) start x i ↔
      FirstInForce entries start x i := by
  rw [firstInForce_iff, firstInForce_iff, filter_mergeSort]
  simp only [List.mem_mergeSort]

end StableSort
