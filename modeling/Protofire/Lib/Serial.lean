import Mathlib

/-!
# Serial numbers

A long stream is numbered with short numbers: its places count on from a base and wrap around.
Two places that are less than the whole space apart have different numbers, and the difference of
the numbers is the distance of the places – counted upwards from the second to the first. A
comparison of numbers is a comparison of places as long as the places are near each other, which
is a fact about places and not about numbers; so the statements below are about places.

The bytes of a stream between two places are lists (`Stream'.take` of a `Stream'.drop`), with the
two rules by which such lists are put together and cut.
-/

namespace Serial

open List

/-- The number of a place. -/
def number (base : UInt32) (k : ℕ) : UInt32 := base + UInt32.ofNat k

/-- How far a number is after another, upwards and around. -/
def dist (a b : UInt32) : ℕ := (a - b).toNat

section Places

variable {base : UInt32} {j k : ℕ}

@[simp] theorem number_zero : number base 0 = base := by simp [number]

theorem number_add (base : UInt32) (k n : ℕ) :
    number base (k + n) = number base k + UInt32.ofNat n := by
  rw [number, number, UInt32.ofNat_add, UInt32.add_assoc]

theorem toNat_number : (number base k).toNat = (base.toNat + k) % 2 ^ 32 := by
  simp [number]

theorem dist_number : dist (number base j) (number base k) =
    (2 ^ 32 - (base.toNat + k) % 2 ^ 32 + (base.toNat + j) % 2 ^ 32) % 2 ^ 32 := by
  rw [dist, UInt32.toNat_sub, toNat_number, toNat_number]

/-- **The distance of the numbers is the distance of the places.** -/
theorem dist_of_le (hle : k ≤ j) (hlt : j < k + 2 ^ 32) :
    dist (number base j) (number base k) = j - k := by
  rw [dist_number]
  omega

/-- Counted from a later place, a place is almost the whole space away. -/
theorem dist_of_lt (hlt : j < k) (hle : k ≤ j + 2 ^ 32) :
    dist (number base j) (number base k) = (2 ^ 32 - (k - j)) % 2 ^ 32 := by
  rw [dist_number]
  omega

/-- Near places have different numbers. -/
theorem number_inj (h : number base j = number base k) (hj : j < k + 2 ^ 32)
    (hk : k < j + 2 ^ 32) : j = k := by
  have hnat := congrArg UInt32.toNat h
  rw [toNat_number, toNat_number] at hnat
  omega

/-- Every number is the number of a place after a given one. -/
theorem eq_number_add_dist (x base : UInt32) (k : ℕ) :
    x = number base (k + dist x (number base k)) := by
  rw [number_add, dist, UInt32.ofNat_toNat, UInt32.add_comm, UInt32.sub_add_cancel]

end Places

/-! ### Pieces of a stream -/

section Pieces

variable {α : Type}

theorem take_add (s : Stream' α) (m n : ℕ) : s.take (m + n) = s.take m ++ (s.drop m).take n := by
  induction n with
  | zero => simp
  | succ n ih =>
    rw [← Nat.add_assoc, Stream'.take_succ', ih, Stream'.take_succ', append_assoc, Stream'.get_drop]

theorem drop_take (s : Stream' α) (m n : ℕ) : (s.take n).drop m = (s.drop m).take (n - m) := by
  rcases Nat.le_total m n with hle | hle
  · obtain ⟨k, rfl⟩ := Nat.exists_eq_add_of_le hle
    rw [take_add, drop_append_of_le_length (by rw [Stream'.length_take]),
      drop_of_length_le (by rw [Stream'.length_take]), nil_append, Nat.add_sub_cancel_left]
  · rw [drop_of_length_le (by rwa [Stream'.length_take]), Nat.sub_eq_zero_of_le hle,
      Stream'.take_zero]

end Pieces

end Serial
