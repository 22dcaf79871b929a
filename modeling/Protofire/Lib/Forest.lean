import Mathlib

/-!
# Forests given by a link relation

`Link x y` says that `y` hangs under `x`. Where every element hangs under at most one other
and the root under none, an element that the root reaches is on no cycle, and conversely,
in a finite set whose elements all hang somewhere, an element on no cycle is reached.
-/

namespace Forest

open Relation TransGen

variable {α : Type*} {Link : α → α → Prop} {root : α}

/-- A cycle goes on through the element its elements hang under. -/
theorem cycle_of_link (huq : ∀ x x' y, Link x y → Link x' y → x = x') {x y : α}
    (h : Link x y) (hy : TransGen Link y y) : TransGen Link x x := by
  obtain ⟨z, hyz, hzy⟩ := tail'_iff.mp hy
  obtain rfl := huq z x y hzy h
  exact head' h hyz

/-- What the root reaches is on no cycle. -/
theorem not_cycle_of_reachable (huq : ∀ x x' y, Link x y → Link x' y → x = x')
    (hroot : ∀ x, ¬Link x root) {y : α} (h : ReflTransGen Link root y) : ¬TransGen Link y y := by
  intro hy
  -- walk back along the path: the cycle would contain the root
  have hcyc : TransGen Link root root := by
    induction h with
    | refl => exact hy
    | tail _ hst ih => exact ih (cycle_of_link huq hst hy)
  obtain ⟨z, -, hz⟩ := tail'_iff.mp hcyc
  exact hroot z hz

/-- **In a finite set without cycles, in which every element but the root hangs under
another, the root reaches every element.** -/
theorem reachable_of_not_cycle {S : Set α} (hS : S.Finite) (hacy : ∀ x ∈ S, ¬TransGen Link x x)
    (hpar : ∀ y ∈ S, y ≠ root → ∃ x ∈ S, Link x y) {y : α} (hy : y ∈ S) :
    ReflTransGen Link root y := by
  have : Finite S := hS
  let under : S → S → Prop := fun x y => TransGen Link x.1 y.1
  have : IsTrans S under := ⟨fun _ _ _ h h' => h.trans h'⟩
  have : Std.Irrefl under := ⟨fun x => hacy x.1 x.2⟩
  have hwf : WellFounded under := Finite.wellFounded_of_trans_of_irrefl under
  have hall : ∀ y : S, ReflTransGen Link root y.1 := by
    intro y
    induction y using hwf.induction with
    | _ y ih =>
      by_cases hyr : y.1 = root
      · rw [hyr]
      obtain ⟨x, hx, hlk⟩ := hpar y.1 y.2 hyr
      exact (ih ⟨x, hx⟩ (single hlk)).tail hlk
  exact hall ⟨y, hy⟩

end Forest
