import Mathlib

/-!
# Queues in a circular buffer

A queue in a buffer of fixed length: its elements lie one behind the other from a start on, and
go on at the front of the buffer where its end is reached. The buffer's other places hold
anything. `Ring.Holds` is the relation between the buffer, the start and the queue; taking the
first element moves the start on, and adding an element writes one place.
-/

namespace Ring

open List

variable {α : Type} {buf queue : List α} {start : ℕ} {a : α}

/-- **The buffer holds the queue** from a start on. -/
def Holds (buf : List α) (start : ℕ) (queue : List α) : Prop :=
  queue.length ≤ buf.length ∧ ∀ i < queue.length, buf[(start + i) % buf.length]? = queue[i]?

/-- A queue at the front of its buffer. -/
theorem holds_append (queue rest : List α) : Holds (queue ++ rest) 0 queue := by
  refine ⟨by simp, fun i hi => ?_⟩
  have hlt : i < (queue ++ rest).length := by
    rw [length_append]
    omega
  rw [Nat.zero_add, Nat.mod_eq_of_lt hlt, getElem?_append_left hi]

/-- The first element is at the start. -/
theorem Holds.head (h : Holds buf start (a :: queue)) : buf[start % buf.length]? = some a := by
  simpa using h.2 0 (by simp)

/-- **Taking the first element** moves the start on by one place. -/
theorem Holds.tail (h : Holds buf start (a :: queue)) :
    Holds buf ((start + 1) % buf.length) queue := by
  obtain ⟨hle, hget⟩ := h
  rw [length_cons] at hle hget
  refine ⟨by omega, fun i hi => ?_⟩
  have hnx := hget (i + 1) (by omega)
  rw [getElem?_cons_succ] at hnx
  rw [← hnx, Nat.mod_add_mod]
  congr 2
  omega

/-- **Adding an element** writes the place behind the last one. -/
theorem Holds.push (h : Holds buf start queue) (hrm : queue.length < buf.length) (a : α) :
    Holds (buf.set ((start + queue.length) % buf.length) a) start (queue ++ [a]) := by
  obtain ⟨-, hget⟩ := h
  refine ⟨by simpa using Nat.succ_le_of_lt hrm, fun i hi => ?_⟩
  rw [length_append, length_singleton] at hi
  rw [length_set]
  have hpos : 0 < buf.length := by omega
  by_cases hla : i = queue.length
  · subst hla
    rw [getElem?_set_self (Nat.mod_lt _ hpos), getElem?_append_right (Nat.le_refl _)]
    simp
  have hne : (start + queue.length) % buf.length ≠ (start + i) % buf.length := by
    intro heq
    -- both places are within one round of the buffer, so they are the same
    have hsub : (queue.length - i) % buf.length = 0 := by
      have := Nat.sub_mod_eq_zero_of_mod_eq heq
      rwa [Nat.add_sub_add_left] at this
    rw [Nat.mod_eq_of_lt (by omega)] at hsub
    omega
  rw [getElem?_set_ne hne, hget i (by omega), getElem?_append_left (by omega)]

end Ring
