import Mathlib

/-!
# Linked lists in memory

A singly linked list is read off a function that gives the link of each node: from a head, the
links lead through the nodes of a list and end at `0`, which is no node. Taking a node out
redirects the link that leads to it, which is the head or the link of the node before.
-/

/-- The links lead from a head through the nodes of a list. -/
def Linked (next : ℕ → ℕ) : ℕ → List ℕ → Prop
  | head, [] => head = 0
  | head, x :: xs => head = x ∧ x ≠ 0 ∧ Linked next (next x) xs

namespace Linked

open List

variable {next next' : ℕ → ℕ} {head x p : ℕ} {l xs ys : List ℕ}

section Linked

variable (h : Linked next head l)
include h

theorem eq_zero_iff : head = 0 ↔ l = [] := by
  cases l with
  | nil => exact ⟨fun _ => rfl, fun _ => h⟩
  | cons y l => exact ⟨fun hz => absurd (h.1.symm.trans hz) h.2.1, fun hl => by cases hl⟩

theorem ne_zero (hx : x ∈ l) : x ≠ 0 := by
  induction l generalizing head with
  | nil => cases hx
  | cons y l ih =>
    rcases mem_cons.mp hx with rfl | hx
    · exact h.2.1
    · exact ih h.2.2 hx

/-- The head is the first node. -/
theorem head_mem (hne : head ≠ 0) : ∃ xs, l = head :: xs := by
  cases l with
  | nil => exact absurd h hne
  | cons y l => exact ⟨l, by rw [h.1]⟩

/-- The nodes determine the head. -/
theorem head_eq {head' : ℕ} (h' : Linked next' head' l) : head' = head := by
  cases l with
  | nil => exact h'.trans h.symm
  | cons y l => exact h'.1.trans h.1.symm

/-- Only the links of the nodes matter. -/
theorem congr (hn : ∀ y ∈ l, next' y = next y) : Linked next' head l := by
  induction l generalizing head with
  | nil => exact h
  | cons y l ih =>
    refine ⟨h.1, h.2.1, ?_⟩
    rw [hn y mem_cons_self]
    exact ih h.2.2 fun z hz => hn z (mem_cons_of_mem _ hz)

/-- A new first node. -/
theorem cons (hx : x ≠ 0) (hnx : next x = head) : Linked next x (x :: l) := ⟨rfl, hx, hnx ▸ h⟩

end Linked

/-- A node inside is reached through the one before it; redirecting that link takes it out. -/
theorem unlink (h : Linked next head (xs ++ p :: x :: ys)) (hp : next' p = next x)
    (hn : ∀ y ∈ xs ++ ys, next' y = next y) : Linked next' head (xs ++ p :: ys) := by
  induction xs generalizing head with
  | nil =>
    obtain ⟨hhd, hne, -, -, hre⟩ := h
    refine ⟨hhd, hne, ?_⟩
    rw [hp]
    exact hre.congr hn
  | cons y xs ih =>
    refine ⟨h.1, h.2.1, ?_⟩
    rw [hn y mem_cons_self]
    exact ih h.2.2 fun z hz => hn z (mem_cons_of_mem _ hz)

end Linked
