import Mathlib

/-!
# Tables

A table is Mathlib's association list with one entry for a key. What is added here is the
operation that keeps the entries with a property, and how the size moves.
-/

namespace Table

variable {κ α : Type} [DecidableEq κ] (p : κ → α → Bool) (t : AList fun _ : κ => α)

/-- The entries with a property. -/
def retain : AList fun _ : κ => α where
  entries := t.entries.filter fun e => p e.1 e.2
  nodupKeys := t.nodupKeys.sublist List.filter_sublist

/-- The number of entries. -/
def size : ℕ := t.entries.length

theorem lookup_retain (k : κ) : (retain p t).lookup k = (t.lookup k).filter (p k) := by
  refine Option.ext fun a => ?_
  rw [Option.filter_eq_some_iff]
  exact (AList.mem_lookup_iff.trans List.mem_filter).trans
    (and_congr_left' AList.mem_lookup_iff.symm)

/-- An entry after an insertion is the new one or one that was there. -/
theorem lookup_insert_eq_some {t : AList fun _ : κ => α} {k k' : κ} {a a' : α} :
    (t.insert k a).lookup k' = some a' ↔ k' = k ∧ a' = a ∨ k' ≠ k ∧ t.lookup k' = some a' := by
  by_cases h : k' = k
  · subst h
    simp [eq_comm]
  · simp [h]

end Table
