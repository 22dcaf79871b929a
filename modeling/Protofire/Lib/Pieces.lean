import Protofire.Lib.Splice

/-!
# Pieces laid over a buffer

A piece is data with the place where it belongs. It is *laid over* a buffer at its place, and
what reaches beyond the end of the buffer is cut off. Pieces that do not overlap may be laid in
any order: the buffer agrees with each of them.
-/

namespace Pieces

open Splice List

variable {α : Type} {buf data : List α} {off : ℕ}

section

variable (buf : List α) (off : ℕ) (data : List α)

/-- A buffer with data at a place, as much of it as the buffer has room for. -/
def lay : List α :=
  if off < buf.length then splice buf off (data.take (buf.length - off)) else buf

/-- The buffer has the data at a place, as far as it reaches. -/
def Agrees : Prop :=
  ∀ i < data.length, off + i < buf.length → buf[off + i]? = data[i]?

/-- Two pieces have no place in common. -/
def Apart (p q : ℕ × List α) : Prop :=
  p.1 + p.2.length ≤ q.1 ∨ q.1 + q.2.length ≤ p.1 ∨ p.2 = [] ∨ q.2 = []

theorem getElem?_lay (i : ℕ) : (lay buf off data)[i]? =
    if off ≤ i ∧ i < off + data.length ∧ i < buf.length then data[i - off]? else buf[i]? := by
  rw [lay]
  split
  · have htake : (data.take (buf.length - off)).length = min (buf.length - off) data.length :=
      length_take
    rw [getElem?_splice (by omega)]
    by_cases hin : off ≤ i ∧ i < off + data.length ∧ i < buf.length
    · rw [if_pos (by omega), if_pos hin, getElem?_take_of_lt (by omega)]
    · rw [if_neg (by omega), if_neg hin]
  · rw [if_neg (by omega)]

@[simp] theorem length_lay : (lay buf off data).length = buf.length := by
  rw [lay]
  split
  · refine length_splice ?_
    rw [length_take]
    omega
  · rfl

theorem agrees_lay : Agrees (lay buf off data) off data := by
  intro i hi hlt
  rw [length_lay] at hlt
  rw [getElem?_lay, if_pos (by omega), Nat.add_sub_cancel_left]

end

/-- **Another piece beside it** leaves a piece as it is. -/
theorem Agrees.lay {off' : ℕ} {data' : List α} (h : Agrees buf off data)
    (hap : Apart (off, data) (off', data')) : Agrees (Pieces.lay buf off' data') off data := by
  intro i hi hlt
  rw [length_lay] at hlt
  have hout : ¬(off' ≤ off + i ∧ off + i < off' + data'.length ∧ off + i < buf.length) := by
    rcases hap with h | h | h | h
    · simp only at h
      omega
    · simp only at h
      omega
    · simp only at h
      rw [h] at hi
      exact absurd hi (Nat.not_lt_zero _)
    · simp only at h
      rw [h, length_nil]
      omega
  rw [getElem?_lay, if_neg hout, h i hi hlt]

/-- Pieces laid one after the other. -/
def layAll (buf : List α) (pieces : List (ℕ × List α)) : List α :=
  pieces.foldl (fun buf p => Pieces.lay buf p.1 p.2) buf

@[simp] theorem length_layAll (buf : List α) (pieces : List (ℕ × List α)) :
    (layAll buf pieces).length = buf.length := by
  induction pieces generalizing buf with
  | nil => rfl
  | cons p pieces ih => exact (ih _).trans (length_lay buf p.1 p.2)

theorem Agrees.layAll {pieces : List (ℕ × List α)} (h : Agrees buf off data)
    (hap : ∀ p ∈ pieces, Apart (off, data) p) : Agrees (Pieces.layAll buf pieces) off data := by
  induction pieces generalizing buf with
  | nil => exact h
  | cons p pieces ih =>
    rw [forall_mem_cons] at hap
    exact ih (h.lay hap.1) hap.2

/-- **Pieces that do not overlap are all there** after they were laid. -/
theorem agrees_layAll {pieces : List (ℕ × List α)} (buf : List α)
    (hap : pieces.Pairwise Apart) : ∀ p ∈ pieces, Agrees (layAll buf pieces) p.1 p.2 := by
  induction pieces generalizing buf with
  | nil => exact fun p hp => absurd hp not_mem_nil
  | cons q pieces ih =>
    rw [pairwise_cons] at hap
    intro p hp
    rcases mem_cons.mp hp with rfl | hp
    · exact (agrees_lay buf p.1 p.2).layAll hap.1
    · exact ih _ hap.2 p hp

end Pieces
