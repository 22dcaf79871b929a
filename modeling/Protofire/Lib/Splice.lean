import Mathlib

/-!
# Slices of buffers and writes into them

A buffer is a list, a read of a range is a *slice* of it, and a copy into a range is a *splice*.
Both are taken apart by positions: two buffers of one length are equal if they agree at every
place, and a place of a splice is one of the data or one of the buffer.
-/

namespace Splice

open List

variable {α : Type} {l data : List α} {off n i : ℕ}

/-- The elements of a range. -/
def slice (l : List α) (off n : ℕ) : List α := (l.drop off).take n

/-- Data in place of the elements of a range. -/
def splice (l : List α) (off : ℕ) (data : List α) : List α :=
  l.take off ++ data ++ l.drop (off + data.length)

theorem getElem?_slice : (slice l off n)[i]? = if i < n then l[off + i]? else none := by
  rw [slice, getElem?_take, getElem?_drop]

theorem length_slice (h : off + n ≤ l.length) : (slice l off n).length = n := by
  rw [slice, length_take, length_drop]
  omega

@[simp] theorem slice_zero (l : List α) (off : ℕ) : slice l off 0 = [] := take_zero

theorem length_splice (h : off + data.length ≤ l.length) :
    (splice l off data).length = l.length := by
  simp only [splice, length_append, length_take, length_drop]
  omega

theorem getElem?_splice (h : off + data.length ≤ l.length) : (splice l off data)[i]? =
    if off ≤ i ∧ i < off + data.length then data[i - off]? else l[i]? := by
  have htake : (l.take off).length = off := length_take_of_le (by omega)
  rw [splice, append_assoc]
  by_cases hlt : i < off
  · rw [getElem?_append_left (by omega), getElem?_take_of_lt hlt, if_neg (by omega)]
  rw [getElem?_append_right (by omega), htake]
  by_cases hmid : i - off < data.length
  · rw [getElem?_append_left hmid, if_pos (by omega)]
  rw [getElem?_append_right (by omega), getElem?_drop, if_neg (by omega)]
  congr 1
  omega

/-- A buffer up to the end of what is spliced in. -/
theorem take_splice {more : List α} (h : off + (data ++ more).length ≤ l.length) :
    (splice l off (data ++ more)).take (off + data.length) = l.take off ++ data := by
  have hlen : (l.take off ++ data).length = off + data.length := by
    rw [length_append] at h ⊢
    rw [length_take_of_le (by omega)]
  rw [splice, ← append_assoc, append_assoc, take_left' hlen]

@[simp] theorem splice_nil (l : List α) (off : ℕ) : splice l off [] = l := by
  rw [splice, append_nil, length_nil, Nat.add_zero, take_append_drop]

/-- Two splices side by side are one. -/
theorem splice_splice_append {data' : List α} (h : off + data.length + data'.length ≤ l.length) :
    splice (splice l off data) (off + data.length) data' = splice l off (data ++ data') := by
  have hfirst : (splice l off data).length = l.length := length_splice (by omega)
  refine ext_getElem? fun k => ?_
  rw [getElem?_splice (by omega), getElem?_splice (by omega), getElem?_splice (by
    rw [length_append]; omega), getElem?_append, length_append]
  split_ifs <;> first | rfl | omega | (congr 1; omega)

/-- A slice of two parts. -/
theorem slice_append (l : List α) (off n m : ℕ) :
    slice l off (n + m) = slice l off n ++ slice l (off + n) m := by
  rw [slice, take_add, drop_drop]
  rfl

theorem slice_self (l : List α) : slice l 0 l.length = l := by
  rw [slice, drop_zero, take_length]

end Splice
