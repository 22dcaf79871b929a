import Mathlib

/-!
# Copies from what was written

The decoders of the Lempel–Ziv family grow their output by copies of what they have already
written: a *distance* back and a *length*, element by element, so that a copy may run into what
it has itself produced. `copyBack` is that copy, into a buffer with a bounded room. It undoes a
match: if the elements from a place on equal those a distance before them, the copy extends a
list's beginning to a longer beginning.
-/

namespace Lz

open List

variable {α : Type} [Inhabited α] {distance room room' left pos : ℕ} {out input : List α}

/-- Append copies of the elements a distance back, one at a time, while there is room. -/
def copyBack (distance room : ℕ) : ℕ → List α → List α
  | 0, out => out
  | left + 1, out =>
    if out.length < room then
      copyBack distance room left (out ++ [out.getD (out.length - distance) default])
    else out

theorem isPrefix_copyBack : out <+: copyBack distance room left out := by
  induction left generalizing out with
  | zero => exact prefix_rfl
  | succ n ih =>
    rw [copyBack]
    split
    · exact (prefix_append _ _).trans ih
    · exact prefix_rfl

theorem length_copyBack_le (h : out.length ≤ room) :
    (copyBack distance room left out).length ≤ room := by
  induction left generalizing out with
  | zero => exact h
  | succ n ih =>
    rw [copyBack]
    split
    · exact ih (by simp only [length_append, length_singleton]; omega)
    · exact h

theorem copyBack_full (h : room ≤ out.length) : copyBack distance room left out = out := by
  cases left with
  | zero => rfl
  | succ n => rw [copyBack, if_neg (by omega)]

/-- A smaller room cuts the copy. -/
theorem copyBack_take_room (hrm : room ≤ room') (h : out.length ≤ room) :
    copyBack distance room left out = (copyBack distance room' left out).take room := by
  induction left generalizing out with
  | zero => exact (take_of_length_le h).symm
  | succ n ih =>
    by_cases hlt : out.length < room
    · rw [copyBack, if_pos hlt, copyBack, if_pos (by omega)]
      exact ih (by simp only [length_append, length_singleton]; omega)
    rw [copyBack_full (by omega)]
    obtain ⟨rest, hre⟩ : out <+: copyBack distance room' (n + 1) out := isPrefix_copyBack
    rw [← hre, take_left' (by omega)]

/-- **A match is undone by its copy.** -/
theorem copyBack_take (hpos : 0 < distance) (hle : distance ≤ pos)
    (hend : pos + left ≤ input.length) (hrm : pos + left ≤ room)
    (hmat : ∀ k < left, input[pos - distance + k]? = input[pos + k]?) :
    copyBack distance room left (input.take pos) = input.take (pos + left) := by
  induction left generalizing pos with
  | zero => rfl
  | succ n ih =>
    have hlen : (input.take pos).length = pos := length_take_of_le (by omega)
    -- the element appended is the one the match compared with
    have hnx : (input.take pos).getD (pos - distance) default = input[pos] := by
      have h₀ := hmat 0 (by omega)
      rw [Nat.add_zero, Nat.add_zero] at h₀
      rw [getD_eq_getElem?_getD, getElem?_take_of_lt (by omega), h₀,
        getElem?_eq_getElem (by omega), Option.getD_some]
    rw [copyBack, hlen, if_pos (by omega), hnx, ← take_succ_eq_append_getElem]
    have := @ih (pos + 1) (by omega) (by omega) (by omega) fun k hk => by
      have hk' := hmat (k + 1) (by omega)
      rw [show pos + 1 - distance + k = pos - distance + (k + 1) by omega,
        show pos + 1 + k = pos + (k + 1) by omega]
      exact hk'
    rw [this, show pos + 1 + n = pos + (n + 1) by omega]

end Lz
