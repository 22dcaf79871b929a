import Protofire.Tlsf.Model

/-!
# The classes of sizes

A size of at least `minFreeBlock` bytes is written as `q * 2 ^ k` and a rest, with `q` from
`32` to `63`: the power gives the first-level class and `q - 32` the second-level one. The
lists are numbered in the order of their classes, the class after the class of a size is the
next number, and a search that starts from a size ends in a list with that number or a larger
one.
-/

namespace Protofire.Tlsf.Heap

open Bitmap

/-- The number of the list a size belongs to. -/
def classIndex (size : ℕ) : ℕ := listIndex (mapping size).1 (mapping size).2

/-- The number of the list a search for a size starts from. -/
def searchIndex (minSize : ℕ) : ℕ :=
  let (fl, sl) := if minSize < 1 <<< flMin then (flMin, 0) else mapping minSize
  listIndex (min (max fl flMin) flMax) sl

/-- The number of lists. -/
def listCount : ℕ := flCount * slCount

variable {size : ℕ}

section MinFreeBlock

variable (h : minFreeBlock ≤ size)
include h

theorem two_pow_log2 : 5 ≤ size.log2 ∧
    2 ^ size.log2 = 32 * 2 ^ (size.log2 - 5) ∧ 32 * 2 ^ (size.log2 - 5) ≤ size ∧
    size < 64 * 2 ^ (size.log2 - 5) := by
  have hne : size ≠ 0 := by
    rintro rfl
    exact absurd h (by decide)
  have hfive : 5 ≤ size.log2 := (Nat.le_log2 hne).mpr h
  have hpow : 2 ^ size.log2 = 32 * 2 ^ (size.log2 - 5) := by
    rw [show 32 = 2 ^ 5 from rfl, ← Nat.pow_add]
    congr 1
    omega
  have hle := Nat.log2_self_le hne
  have hlt := Nat.lt_log2_self (n := size)
  exact ⟨hfive, hpow, by omega, by omega⟩

/-- The six highest bits. -/
theorem div_two_pow_log2 : 32 ≤ size / 2 ^ (size.log2 - 5) ∧ size / 2 ^ (size.log2 - 5) < 64 := by
  obtain ⟨-, -, hle, hlt⟩ := two_pow_log2 h
  have hpos := Nat.two_pow_pos (size.log2 - 5)
  exact ⟨(Nat.le_div_iff_mul_le hpos).mpr hle, (Nat.div_lt_iff_lt_mul hpos).mpr hlt⟩

/-- The five bits below the highest one are a remainder. -/
theorem mapping_eq : mapping size = (size.log2, size / 2 ^ (size.log2 - 5) - 32) := by
  obtain ⟨hq, hq'⟩ := div_two_pow_log2 h
  have hbi : ∀ q < 64, 32 ≤ q → (q ^^^ 32) &&& 31 = q - 32 := by decide
  simp only [mapping, Nat.shiftRight_eq_div_pow, Prod.mk.injEq, true_and]
  exact hbi _ hq' hq

theorem mapping_snd_lt : (mapping size).2 < slCount := by
  have hq := (div_two_pow_log2 h).2
  rw [mapping_eq h]
  simp only [slCount]
  omega

theorem mapping_fst_le (hmax : size ≤ kernelHeapSize) :
    flMin ≤ (mapping size).1 ∧ (mapping size).1 ≤ flMax := by
  obtain ⟨hfive, -⟩ := two_pow_log2 h
  have hlog : size.log2 < 27 := by
    have hne : size ≠ 0 := by
      rintro rfl
      exact absurd h (by decide)
    have hheap : kernelHeapSize < 2 ^ 27 := by decide
    exact (Nat.log2_lt hne).mpr (Nat.lt_of_le_of_lt hmax hheap)
  rw [mapping_eq h]
  simp only [flMin, flMax]
  omega

end MinFreeBlock

theorem minFreeBlock_le_mul {k q : ℕ} (hq : 32 ≤ q) : minFreeBlock ≤ q * 2 ^ k :=
  Nat.le_trans hq (Nat.le_mul_of_pos_right q (Nat.two_pow_pos k))

/-- A size is the least of its class by its quotient. -/
theorem mapping_mul {k q : ℕ} (hq : 32 ≤ q) (hq' : q < 64) :
    mapping (q * 2 ^ k) = (k + 5, q - 32) := by
  have hpos := Nat.two_pow_pos k
  have hlog : (q * 2 ^ k).log2 = k + 5 := by
    have hne : q * 2 ^ k ≠ 0 := by
      have := Nat.mul_pos (show 0 < q by omega) hpos
      omega
    refine (Nat.log2_eq_iff hne).mpr ⟨?_, ?_⟩
    · rw [Nat.pow_add, Nat.mul_comm]
      exact Nat.mul_le_mul_right _ hq
    · rw [Nat.pow_succ, Nat.pow_add, Nat.mul_assoc, Nat.mul_comm (2 ^ k)]
      exact Nat.mul_lt_mul_of_pos_right hq' hpos
  rw [mapping_eq (minFreeBlock_le_mul hq), hlog, show k + 5 - 5 = k from rfl,
    Nat.mul_div_cancel _ hpos]

theorem searchIndex_of_le (h : minFreeBlock ≤ size) :
    searchIndex size = listIndex (min (max (mapping size).1 flMin) flMax) (mapping size).2 := by
  have hnot : ¬size < 1 <<< flMin := Nat.not_lt.mpr h
  simp only [searchIndex, if_neg hnot]

theorem searchIndex_lt (minSize : ℕ) : searchIndex minSize < listCount := by
  by_cases h : minSize < minFreeBlock
  · have hpos : minSize < 1 <<< flMin := h
    simp only [searchIndex, if_pos hpos]
    decide
  have hsl := mapping_snd_lt (Nat.not_lt.mp h)
  rw [searchIndex_of_le (Nat.not_lt.mp h)]
  simp only [listIndex, listCount, flCount, slCount] at *
  omega

/-- **The class after the class of a size is the next one.** -/
theorem searchIndex_nextClassMin (h : minFreeBlock ≤ size) (hmax : size ≤ kernelHeapSize) :
    searchIndex (nextClassMin size) = classIndex size + 1 := by
  obtain ⟨hmin, hfl⟩ := mapping_fst_le h hmax
  obtain ⟨hfive, hpow, hle, hlt⟩ := two_pow_log2 h
  rw [mapping_eq h] at hmin hfl
  simp only [flMax] at hmin hfl
  have hmap := mapping_eq h
  obtain ⟨hq, hq'⟩ := div_two_pow_log2 h
  have hdiv := Nat.div_mul_le_self size (2 ^ (size.log2 - 5))
  obtain ⟨k, hk⟩ : ∃ k, size.log2 = k + 5 := ⟨size.log2 - 5, by omega⟩
  simp only [hk, Nat.add_sub_cancel] at hmap hpow hq hq' hdiv
  generalize size / 2 ^ k = q at hmap hq hq' hdiv
  by_cases hla : q - 32 + 1 < slCount
  · have hnx : nextClassMin size = (q + 1) * 2 ^ k := by
      simp only [nextClassMin, hmap, if_pos hla, Nat.shiftLeft_eq, slIndexLog2,
        Nat.add_sub_cancel, hpow]
      rw [Nat.one_mul, Nat.one_mul, ← Nat.add_mul]
      congr 1
      omega
    simp only [slCount] at hla
    rw [hnx, searchIndex_of_le (minFreeBlock_le_mul (by omega)),
      mapping_mul (by omega) (by omega), classIndex, hmap]
    simp only [listIndex, flMax, slCount]
    omega
  simp only [slCount] at hla
  obtain rfl : q = 63 := by omega
  have hk' : k < 21 := by
    -- the heap is smaller than the last class
    by_contra hcon
    have hbig : 2 ^ 21 ≤ 2 ^ k := Nat.pow_le_pow_right (by decide) (by omega)
    simp only [kernelHeapSize] at hmax
    omega
  have hnx : nextClassMin size = 32 * 2 ^ (k + 1) := by
    simp only [nextClassMin, hmap]
    rw [if_neg (by decide), Nat.shiftLeft_eq, Nat.pow_succ, hpow]
    omega
  rw [hnx, searchIndex_of_le (minFreeBlock_le_mul (by omega)),
    mapping_mul (by omega) (by omega), classIndex, hmap]
  simp only [listIndex, flMin, flMax, slCount]
  omega

/-- **A size in a class after the one a search starts from is large enough.** -/
theorem le_of_searchIndex_lt {minSize : ℕ} (h : minFreeBlock ≤ size) (hmax : size ≤ kernelHeapSize)
    (hlt : searchIndex minSize < classIndex size) : minSize ≤ size := by
  by_contra hcon
  have hmin : minFreeBlock ≤ minSize := by omega
  obtain ⟨hfive, hpow, hle, -⟩ := two_pow_log2 h
  obtain ⟨-, hfl⟩ := mapping_fst_le h hmax
  have hsl := mapping_snd_lt h
  have hlog : size.log2 ≤ minSize.log2 := by
    exact (Nat.le_log2 (by omega)).mpr (by omega)
  rw [mapping_eq h] at hfl hsl
  rw [searchIndex_of_le hmin, classIndex, mapping_eq h, mapping_eq hmin] at hlt
  rcases Nat.lt_or_ge size.log2 minSize.log2 with hless | hge
  · -- the largest size is alone in the last first-level class
    have hla : size.log2 = 26 → size / 2 ^ (size.log2 - 5) - 32 = 0 := by
      intro hlog
      simp only [kernelHeapSize] at hmax
      rw [hlog] at hpow hle ⊢
      omega
    simp only [listIndex, flMin, flMax, slCount] at *
    omega
  · have hdiv := Nat.div_le_div_right (c := 2 ^ (size.log2 - 5)) (Nat.le_of_not_le hcon)
    rw [Nat.le_antisymm hge hlog] at hlt
    simp only [listIndex, slCount] at *
    omega

end Protofire.Tlsf.Heap
