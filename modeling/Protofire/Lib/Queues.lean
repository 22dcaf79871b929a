import Mathlib

/-!
# Taking entries out of a queue

A queue that is kept in an array gives up the entries that match a condition in one pass
(`swapTake`): where an entry matches, the last one takes its place and is looked at next. What is
taken and what is kept are the two parts of the queue, each in some order.
-/

namespace Queues

open List

variable {α : Type*}

/-- The last entry in front. -/
def lastFirst : List α → List α
  | [] => []
  | a :: l => (a :: l).getLast (by simp) :: (a :: l).dropLast

theorem lastFirst_perm : ∀ l : List α, (lastFirst l).Perm l
  | [] => .refl _
  | a :: l => by
    have h := dropLast_append_getLast (cons_ne_nil a l)
    calc lastFirst (a :: l)
      _ = [(a :: l).getLast (by simp)] ++ (a :: l).dropLast := rfl
      _ |>.Perm ((a :: l).dropLast ++ [(a :: l).getLast (by simp)]) := perm_append_comm
      _ = a :: l := h

@[simp] theorem length_lastFirst (l : List α) : (lastFirst l).length = l.length :=
  (lastFirst_perm l).length_eq

/-- The pass over a queue of at most the given length. -/
def swapTakeUpTo (p : α → Bool) : ℕ → List α → List α × List α
  | n + 1, a :: l =>
    if p a then
      (a :: (swapTakeUpTo p n (lastFirst l)).1, (swapTakeUpTo p n (lastFirst l)).2)
    else ((swapTakeUpTo p n l).1, a :: (swapTakeUpTo p n l).2)
  | _, _ => ([], [])

/-- Take the entries that match, moving the last entry into the place of each: what is taken, and
what is kept. -/
def swapTake (p : α → Bool) (l : List α) : List α × List α := swapTakeUpTo p l.length l

variable (p : α → Bool)

theorem swapTakeUpTo_perm : ∀ {n : ℕ} {l : List α}, l.length ≤ n →
    (swapTakeUpTo p n l).1.Perm (l.filter p) ∧ (swapTakeUpTo p n l).2.Perm (l.filter fun a => !p a)
  | n, [], _ => by cases n <;> exact ⟨.refl _, .refl _⟩
  | n + 1, a :: l, h => by
    have hl : l.length ≤ n := Nat.le_of_succ_le_succ h
    rw [swapTakeUpTo]
    by_cases ha : p a
    · have ih := swapTakeUpTo_perm (n := n) (l := lastFirst l) (by rwa [length_lastFirst])
      rw [if_pos ha, filter_cons_of_pos ha, filter_cons_of_neg (by simp [ha])]
      exact ⟨(ih.1.trans ((lastFirst_perm l).filter p)).cons a,
        ih.2.trans ((lastFirst_perm l).filter _)⟩
    · have ih := swapTakeUpTo_perm hl
      rw [if_neg ha, filter_cons_of_neg ha, filter_cons_of_pos (by simpa using ha)]
      exact ⟨ih.1, ih.2.cons a⟩

/-- **The entries that match are taken, and the others are kept.** -/
theorem swapTake_perm (l : List α) :
    (swapTake p l).1.Perm (l.filter p) ∧ (swapTake p l).2.Perm (l.filter fun a => !p a) :=
  swapTakeUpTo_perm p (Nat.le_refl _)

theorem mem_swapTake_taken {l : List α} {a : α} : a ∈ (swapTake p l).1 ↔ a ∈ l ∧ p a = true := by
  rw [(swapTake_perm p l).1.mem_iff, mem_filter]

theorem mem_swapTake_kept {l : List α} {a : α} : a ∈ (swapTake p l).2 ↔ a ∈ l ∧ p a = false := by
  rw [(swapTake_perm p l).2.mem_iff, mem_filter, Bool.not_eq_true']

end Queues
