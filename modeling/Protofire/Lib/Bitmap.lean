import Mathlib

/-!
# Bitmaps

A machine word as a set of small numbers: the bit of a number is set or cleared by a mask, the
numbers from a bound on are kept by another mask, and the smallest number of the set is the
count of the word's trailing zeros. A larger set is a list of bytes, and the bit of a number is
found in one of them.
-/

namespace Bitmap

open List Option

variable {w : ℕ} (x : BitVec w)

/-- The position of the lowest bit that is set, or the width. -/
def trailingZeros : ℕ := ((range w).find? x.getLsbD).getD w

variable {s i : ℕ}

theorem getLsbD_one_shiftLeft (hs : s < w) : ((1#w) <<< s).getLsbD i = decide (i = s) := by
  by_cases h : i = s
  · subst h
    simp
    omega
  simp only [h]
  by_cases hlt : i < s
  · simp [hlt]
  have : ¬i - s = 0 := by omega
  simp [this]

/-- Setting the bit of a number adds it. -/
theorem getLsbD_or_one_shiftLeft (i : ℕ) (hs : s < w) :
    (x ||| 1#w <<< s).getLsbD i = (x.getLsbD i || decide (i = s)) := by
  rw [BitVec.getLsbD_or, getLsbD_one_shiftLeft hs]

/-- Clearing the bit of a number removes it. -/
theorem getLsbD_and_not_one_shiftLeft (i : ℕ) (hs : s < w) :
    (x &&& ~~~(1#w <<< s)).getLsbD i = (x.getLsbD i && !decide (i = s)) := by
  rw [BitVec.getLsbD_and, BitVec.getLsbD_not, getLsbD_one_shiftLeft hs]
  by_cases hi : i < w
  · simp [hi]
  · simp [BitVec.getLsbD_of_ge x i (by omega)]

/-- The mask of the numbers below a bound. -/
theorem getLsbD_one_shiftLeft_sub_one (hs : s < w) :
    (1#w <<< s - 1).getLsbD i = decide (i < s) := by
  have hpow : 2 ^ s < 2 ^ w := Nat.pow_lt_pow_right (by decide) hs
  have hpos : 0 < 2 ^ s := Nat.two_pow_pos s
  have hone : 1 < 2 ^ w := by omega
  have hshf : (1#w <<< s).toNat = 2 ^ s := by
    rw [BitVec.toNat_shiftLeft, BitVec.toNat_ofNat, Nat.mod_eq_of_lt hone, Nat.shiftLeft_eq,
      Nat.one_mul, Nat.mod_eq_of_lt hpow]
  have hnat : (1#w <<< s - 1).toNat = 2 ^ s - 1 := by
    rw [BitVec.toNat_sub_of_le, hshf]
    · simp only [BitVec.ofNat_eq_ofNat, BitVec.toNat_ofNat, Nat.mod_eq_of_lt hone]
    rw [BitVec.le_def]
    simp only [BitVec.ofNat_eq_ofNat, BitVec.toNat_ofNat, Nat.mod_eq_of_lt hone]
    omega
  rw [← BitVec.testBit_toNat, hnat, Nat.testBit_two_pow_sub_one]

theorem getLsbD_and_not_below (i : ℕ) (hs : s < w) :
    (x &&& ~~~(1#w <<< s - 1)).getLsbD i = (x.getLsbD i && decide (s ≤ i)) := by
  rw [BitVec.getLsbD_and, BitVec.getLsbD_not, getLsbD_one_shiftLeft_sub_one hs]
  by_cases hi : i < w
  · by_cases h : i < s <;> simp [hi, h]
    omega
  · simp [BitVec.getLsbD_of_ge x i (by omega)]

/-- A word other than zero has a bit. -/
theorem ne_zero_iff : x ≠ 0 ↔ ∃ i < w, x.getLsbD i = true := by
  constructor
  · intro hne
    by_contra hcon
    refine hne (BitVec.eq_of_getLsbD_eq fun i hi => ?_)
    have : ¬x.getLsbD i = true := fun h => hcon ⟨i, hi, h⟩
    simpa using this
  · rintro ⟨i, -, h⟩ rfl
    simp at h

/-- The mask of a number tells whether it is in the set. -/
theorem and_one_shiftLeft_ne_zero (hs : s < w) : x &&& 1#w <<< s ≠ 0 ↔ x.getLsbD s = true := by
  have hand : ∀ j, (x &&& 1#w <<< s).getLsbD j = (x.getLsbD j && decide (j = s)) := fun j => by
    rw [BitVec.getLsbD_and, getLsbD_one_shiftLeft hs]
  refine (ne_zero_iff _).trans ⟨?_, ?_⟩
  · rintro ⟨j, -, hj⟩
    rw [hand, Bool.and_eq_true, decide_eq_true_eq] at hj
    exact hj.2 ▸ hj.1
  · intro hbit
    exact ⟨s, hs, by simp [hand, hbit]⟩

/-- The count of trailing zeros is a number of the set. -/
theorem getLsbD_trailingZeros {x : BitVec w} (h : x ≠ 0) :
    trailingZeros x < w ∧ x.getLsbD (trailingZeros x) = true := by
  obtain ⟨i, hi, hbit⟩ := (ne_zero_iff x).mp h
  obtain ⟨j, hj⟩ : ∃ j, (List.range w).find? x.getLsbD = some j :=
    isSome_iff_exists.mp (find?_isSome.mpr ⟨i, mem_range.mpr hi, hbit⟩)
  have hmem := mem_range.mp (mem_of_find?_eq_some hj)
  have hset := find?_some hj
  simp only [trailingZeros, hj]
  exact ⟨hmem, hset⟩

/-! ### A bitmap in bytes -/

/-- Whether a bit of a byte is set. -/
def byteBit (byte : UInt8) (i : ℕ) : Bool := (byte.toBitVec &&& 1#8 <<< i) != 0#8

section

variable (value : Bool) (byte : UInt8)

/-- A byte with a bit set or cleared. -/
def withByteBit (i : ℕ) : UInt8 :=
  if value then ⟨byte.toBitVec ||| 1#8 <<< i⟩ else ⟨byte.toBitVec &&& ~~~(1#8 <<< i)⟩

theorem byteBit_eq_getLsbD (hi : i < 8) : byteBit byte i = byte.toBitVec.getLsbD i := by
  rw [byteBit, Bool.eq_iff_iff, bne_iff_ne]
  exact and_one_shiftLeft_ne_zero _ hi

theorem byteBit_withByteBit {j : ℕ} (hi : i < 8) (hj : j < 8) :
    byteBit (withByteBit value byte i) j = if j = i then value else byteBit byte j := by
  rw [byteBit_eq_getLsbD _ hj, byteBit_eq_getLsbD _ hj, withByteBit]
  cases value with
  | true =>
    rw [if_pos rfl, getLsbD_or_one_shiftLeft _ _ hi]
    by_cases h : j = i <;> simp [h]
  | false =>
    rw [if_neg Bool.false_ne_true, getLsbD_and_not_one_shiftLeft _ _ hi]
    by_cases h : j = i <;> simp [h]

variable (bytes : List UInt8)

/-- The bit of a number, if the bytes reach it. -/
def bit (i : ℕ) : Option Bool := bytes[i / 8]?.map (byteBit · (i % 8))

/-- The bytes with the bit of a number set or cleared. -/
def withBit (i : ℕ) : List UInt8 :=
  bytes.modify (i / 8) (withByteBit value · (i % 8))

/-- The bytes with the bits of a range set or cleared. -/
def withBits (first count : ℕ) : List UInt8 :=
  (range' first count).foldl (withBit value) bytes

end

/-- The bits one by one. -/
def bits (bytes : List UInt8) : List Bool :=
  (range (8 * bytes.length)).map fun i => (bit bytes i).getD false

section Bytes

variable {bytes : List UInt8} {value : Bool} {first count i : ℕ}

@[simp] theorem length_withBit : (withBit value bytes i).length = bytes.length :=
  length_modify ..

@[simp] theorem length_withBits : (withBits value bytes first count).length = bytes.length := by
  rw [withBits]
  induction List.range' first count generalizing bytes with
  | nil => rfl
  | cons j l ih => rw [foldl_cons, ih, length_withBit]

theorem bit_withBit {j : ℕ} : bit (withBit value bytes i) j =
    if j = i then (bit bytes j).map fun _ => value else bit bytes j := by
  rw [bit, withBit, List.getElem?_modify, bit]
  rcases bytes[j / 8]? with _ | byte
  · simp
  simp only [Option.map_eq_map, Option.map_some]
  by_cases hdiv : i / 8 = j / 8
  · have hmod : j % 8 = i % 8 ↔ j = i := by omega
    rw [if_pos hdiv, byteBit_withByteBit value byte (by omega) (by omega), if_congr hmod rfl rfl]
    split <;> rfl
  · rw [if_neg hdiv, if_neg (by rintro rfl; exact hdiv rfl)]

/-- **Setting a range sets its bits**, and no others. -/
theorem bit_withBits {j : ℕ} : bit (withBits value bytes first count) j =
    if first ≤ j ∧ j < first + count then (bit bytes j).map fun _ => value else bit bytes j := by
  induction count generalizing bytes first with
  | zero =>
    rw [if_neg (by omega)]
    rfl
  | succ n ih =>
    have hst : withBits value bytes first (n + 1) =
        withBits value (withBit value bytes first) (first + 1) n := by
      rw [withBits, range'_succ, foldl_cons, withBits]
    rw [hst, ih, bit_withBit]
    by_cases heq : j = first
    · subst heq
      rw [if_neg (by omega), if_pos rfl, if_pos (by omega)]
    rw [if_neg heq]
    refine if_congr ?_ rfl rfl
    omega

theorem bit_eq_none : bit bytes i = none ↔ 8 * bytes.length ≤ i := by
  rw [bit, map_eq_none_iff, getElem?_eq_none_iff]
  omega

theorem getElem?_bits : (bits bytes)[i]? = bit bytes i := by
  rw [bits, getElem?_map]
  by_cases hi : i < 8 * bytes.length
  · rw [getElem?_range hi, map_some]
    rcases hbit : bit bytes i with _ | b
    · exact absurd (bit_eq_none.mp hbit) (by omega)
    · rfl
  · rw [getElem?_eq_none (by simpa using hi), bit_eq_none.mpr (by omega), map_none]

end Bytes

end Bitmap
