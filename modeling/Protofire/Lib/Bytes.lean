import Mathlib

/-!
# Byte buffers with little-endian fields

A buffer is the function from offsets to bytes, so that a write is a function update and a
record is what is left after a sequence of writes to zeros. Reading a field back takes two
facts: a read sees the write at its own offset, and it does not see a write elsewhere. The
second is stated with the two ranges apart, which for the offsets of a format is a
comparison of numerals.
-/

/-- A byte buffer, by offset. -/
abbrev Bytes : Type := ℕ → UInt8

namespace Bytes

open List

/-- The buffer of zeros. -/
def zero : Bytes := fun _ => 0

/-- The byte of a number at a little-endian position. -/
def leByte (n i : ℕ) : UInt8 := UInt8.ofNat (n / 256 ^ i)

section

variable (b : Bytes) (off : ℕ)

/-- Write bytes at an offset. -/
def writeAt (data : List UInt8) : Bytes :=
  fun k => if off ≤ k then (data[k - off]?).getD (b k) else b k

/-- Write one byte. -/
def writeU8 (v : UInt8) : Bytes := b.writeAt off [v]

/-- Write a 16-bit field. -/
def writeU16 (v : UInt16) : Bytes :=
  b.writeAt off [leByte v.toNat 0, leByte v.toNat 1]

/-- Write a 32-bit field. -/
def writeU32 (v : UInt32) : Bytes :=
  b.writeAt off [leByte v.toNat 0, leByte v.toNat 1, leByte v.toNat 2, leByte v.toNat 3]

/-- Read `n` bytes. -/
def readAt (off n : ℕ) : List UInt8 := (range n).map fun i => b (off + i)

/-- Read a 16-bit field. -/
def readU16 : UInt16 :=
  UInt16.ofNat ((b off).toNat + 256 * (b (off + 1)).toNat)

/-- Read a 32-bit field. -/
def readU32 : UInt32 :=
  UInt32.ofNat ((b off).toNat + 256 * (b (off + 1)).toNat + 65536 * (b (off + 2)).toNat +
    16777216 * (b (off + 3)).toNat)

/-- Read a 64-bit word, as a number. -/
def word : ℕ :=
  (b off).toNat + 2 ^ 8 * (b (off + 1)).toNat + 2 ^ 16 * (b (off + 2)).toNat +
    2 ^ 24 * (b (off + 3)).toNat + 2 ^ 32 * (b (off + 4)).toNat + 2 ^ 40 * (b (off + 5)).toNat +
    2 ^ 48 * (b (off + 6)).toNat + 2 ^ 56 * (b (off + 7)).toNat

/-- Write the low 64 bits of a number. -/
def setWord (off v : ℕ) : Bytes :=
  b.writeAt off [leByte v 0, leByte v 1, leByte v 2, leByte v 3, leByte v 4, leByte v 5,
    leByte v 6, leByte v 7]

/-- Write zeros from an offset up to another. -/
def clear (start stop : ℕ) : Bytes := fun k => if start ≤ k ∧ k < stop then 0 else b k

end

/-! ### Reading a write back -/

theorem toNat_leByte (n i : ℕ) : (leByte n i).toNat = n / 256 ^ i % 256 := by
  simp [leByte]

section

variable (b : Bytes) {off k : ℕ} (data : List UInt8)

theorem writeAt_apply_of_lt (off : ℕ) {i : ℕ} (h : i < data.length) :
    b.writeAt off data (off + i) = data[i] := by
  simp [writeAt, h]

/-- A write leaves the other bytes as they were. -/
theorem writeAt_apply_of_apart (h : k < off ∨ off + data.length ≤ k) :
    b.writeAt off data k = b k := by
  unfold writeAt
  split
  · have hno : data[k - off]? = none := by
      rw [getElem?_eq_none_iff]
      omega
    rw [hno, Option.getD_none]
  · rfl

end

variable {b c : Bytes} {off : ℕ}

/-- A 64-bit word is read from its eight bytes. -/
theorem word_congr (h : ∀ k, off ≤ k → k < off + 8 → b k = c k) : b.word off = c.word off := by
  simp (disch := omega) only [word, h]

variable {k : ℕ}

section

variable (b : Bytes)

theorem setWord_apply_of_apart (v : ℕ) (h : k < off ∨ off + 8 ≤ k) :
    b.setWord off v k = b k := writeAt_apply_of_apart b _ h

theorem word_setWord_of_apart {a : ℕ} (v : ℕ) (h : a + 8 ≤ off ∨ off + 8 ≤ a) :
    (b.setWord off v).word a = b.word a :=
  word_congr fun _ h₁ h₂ => setWord_apply_of_apart b v (by omega)

theorem word_setWord {v : ℕ} (h : v < 2 ^ 64) : (b.setWord off v).word off = v := by
  have hrd : ∀ i (hi : i < 8), (b.setWord off v) (off + i) = leByte v i := by
    intro i hi
    rw [setWord, writeAt_apply_of_lt b _ off (by simpa using hi)]
    match i, hi with
    | 0, _ | 1, _ | 2, _ | 3, _ | 4, _ | 5, _ | 6, _ | 7, _ => rfl
  have h₀ := hrd 0 (by omega)
  rw [Nat.add_zero] at h₀
  simp (disch := omega) only [word, h₀, hrd, toNat_leByte]
  omega

/-- A word that is written twice holds the second value. -/
theorem setWord_setWord (off v w : ℕ) : (b.setWord off v).setWord off w = b.setWord off w := by
  funext k
  by_cases hk : k < off ∨ off + 8 ≤ k
  · rw [setWord_apply_of_apart _ _ hk, setWord_apply_of_apart _ _ hk, setWord_apply_of_apart _ _ hk]
  obtain ⟨i, rfl⟩ : ∃ i, k = off + i := ⟨k - off, by omega⟩
  rw [setWord, writeAt_apply_of_lt _ _ off (by simp; omega), setWord,
    writeAt_apply_of_lt _ _ off (by simp; omega)]

theorem word_mod_two (off : ℕ) : b.word off % 2 = (b off).toNat % 2 := by
  rw [word]
  omega

theorem word_lt (off : ℕ) : b.word off < 2 ^ 64 := by
  have h := fun i => (b (off + i)).toNat_lt
  have h₀ := (b off).toNat_lt
  have h₁ := h 1
  have h₂ := h 2
  have h₃ := h 3
  have h₄ := h 4
  have h₅ := h 5
  have h₆ := h 6
  have h₇ := h 7
  unfold word
  omega

theorem clear_apply_of_apart {start stop : ℕ} (h : k < start ∨ stop ≤ k) :
    b.clear start stop k = b k := if_neg (by omega)

variable {n : ℕ}

end

/-! ### Reading next to a write -/

section Apart

variable (b : Bytes) {a off n : ℕ} (data : List UInt8)

variable (v : UInt32)

end Apart

end Bytes
