import Protofire.Lib.SortedMap

/-!
# Maps of extents

An allocator that hands out contiguous runs keeps a map from the first number of each free
run to its length. The operations edit that map: a run is *released*, and merges with the
runs it touches; a run is *taken* from the front of an entry, which is found by its exact
key.

A map is read as the set of numbers it covers (`Covers`), and it is *separate* when its
entries are nonempty and do not overlap. Taking is described by what it does to that set, and
needs a key that is there.
-/

/-- Runs of natural numbers, by their first number and their length. -/
abbrev Extents : Type := SortedMap ℕ

namespace Extents

open SortedMap

variable (m : Extents)

/-! ### The operations -/

section

variable (start count : ℕ)

/-- Take a run from the front of the entry with that key. A key that is not there, and an
entry that is too short, are passed over. -/
def take : Extents :=
  match m.get? start with
  | none => m
  | some free =>
    if free = count then m.erase start
    else if count < free then (m.erase start).insert (start + count) (free - count)
    else m

/-- The entry that ends where a run starts. -/
def touchingBelow (start : ℕ) : Option (ℕ × ℕ) :=
  (m.lastBelow start).filter fun e => e.1 + e.2 = start

/-- The entry that starts where a run ends, if it is the first from the run's start on. -/
def touchingAbove (start stop : ℕ) : Option (ℕ × ℕ) :=
  (m.firstFrom start).filter fun e => e.1 = stop

/-- Add a run, merged with an entry that starts where it ends. -/
def releaseAbove : Extents :=
  match m.touchingAbove start (start + count) with
  | none => m.insert start count
  | some e => (m.erase e.1).insert start (count + e.2)

/-- Add a run, merged with the entries it touches. -/
def release : Extents :=
  match m.touchingBelow start with
  | none => releaseAbove m start count
  | some e => releaseAbove (m.erase e.1) e.1 (count + e.2)

end

variable (required limit : ℕ)

/-- One round of the rebuilding of a map from the runs in use: the gap before a run is
free. -/
def addGap (acc : ℕ × Extents) (used : ℕ × ℕ) : ℕ × Extents :=
  (max acc.1 used.2, if acc.1 < used.1 then acc.2.insert acc.1 (used.1 - acc.1) else acc.2)

/-- The free runs of `[start, stop)` beside runs in use that are given by their ends, in the
order of their starts. -/
def gaps (start stop : ℕ) (used : List (ℕ × ℕ)) : Extents :=
  let acc := used.foldl addGap (start, empty)
  if acc.1 < stop then acc.2.insert acc.1 (stop - acc.1) else acc.2

/-! ### Reading a map -/

/-- A number is in one of the runs. -/
def Covers (b : ℕ) : Prop := ∃ e ∈ m, e.1 ≤ b ∧ b < e.1 + e.2

/-- The runs are nonempty and do not overlap. -/
structure Separate : Prop where
  pos : ∀ e ∈ m, 0 < e.2
  apart : ∀ e ∈ m, ∀ f ∈ m, e.1 < f.1 → e.1 + e.2 ≤ f.1

variable {m} {start count free b : ℕ} {e : ℕ × ℕ}

theorem separate_empty : Separate empty :=
  ⟨fun _ h => absurd h not_mem_empty, fun _ h => absurd h not_mem_empty⟩

@[simp] theorem not_covers_empty : ¬Covers empty b := fun ⟨_, h, _⟩ => not_mem_empty h

section Separate

variable (h : Separate m)
include h

/-- Two runs that share a number are one run. -/
theorem Separate.eq_of_covers {f : ℕ × ℕ} (he : e ∈ m) (hf : f ∈ m)
    (heb : e.1 ≤ b ∧ b < e.1 + e.2) (hfb : f.1 ≤ b ∧ b < f.1 + f.2) : e = f := by
  rcases Nat.lt_trichotomy e.1 f.1 with hlt | heq | hlt
  · have := h.apart e he f hf hlt
    omega
  · obtain ⟨k, c⟩ := e
    obtain ⟨l, d⟩ := f
    obtain rfl : k = l := heq
    rw [SortedMap.eq_of_mem he hf]
  · have := h.apart f hf e he hlt
    omega

/-! ### Erasing and inserting -/

theorem Separate.erase (k : ℕ) : Separate (m.erase k) :=
  ⟨fun e he => h.pos e ((m.mem_erase).mp he).1, fun e he f hf =>
    h.apart e ((m.mem_erase).mp he).1 f ((m.mem_erase).mp hf).1⟩

/-- Erasing an entry uncovers its run. -/
theorem covers_erase (he : e ∈ m) :
    Covers (m.erase e.1) b ↔ Covers m b ∧ ¬(e.1 ≤ b ∧ b < e.1 + e.2) := by
  constructor
  · rintro ⟨f, hf, hfb⟩
    obtain ⟨hf, hne⟩ := (m.mem_erase).mp hf
    exact ⟨⟨f, hf, hfb⟩, fun heb => hne (congrArg Prod.fst (h.eq_of_covers hf he hfb heb))⟩
  rintro ⟨⟨f, hf, hfb⟩, hne⟩
  refine ⟨f, (m.mem_erase).mpr ⟨hf, fun heq => hne ?_⟩, hfb⟩
  obtain ⟨k, c⟩ := f
  obtain ⟨l, d⟩ := e
  obtain rfl : k = l := heq
  rw [← SortedMap.eq_of_mem hf he]
  exact hfb

section Insert

variable (hcnt : 0 < count) (hfr : ∀ b, start ≤ b → b < start + count → ¬Covers m b)
include hcnt hfr

theorem not_mem_key (he : e ∈ m) : e.1 ≠ start := by
  rintro rfl
  exact hfr e.1 (le_refl _) (by omega) ⟨e, he, le_refl _, by have := h.pos e he; omega⟩

/-- A new run beside the others. -/
theorem Separate.insert : Separate (m.insert start count) := by
  have hside : ∀ e ∈ m, e.1 + e.2 ≤ start ∨ start + count ≤ e.1 := by
    intro e he
    by_contra hcon
    have hpos := h.pos e he
    exact hfr (max e.1 start) (by omega) (by omega) ⟨e, he, by omega, by omega⟩
  constructor
  · intro e he
    rcases (m.mem_insert).mp he with rfl | ⟨he, -⟩
    · exact hcnt
    · exact h.pos e he
  intro e he f hf hlt
  rcases (m.mem_insert).mp he with rfl | ⟨he, -⟩ <;> rcases (m.mem_insert).mp hf with rfl | ⟨hf, -⟩
  · exact absurd hlt (Nat.lt_irrefl _)
  · rcases hside f hf with h' | h'
    · omega
    · exact h'
  · rcases hside e he with h' | h'
    · exact h'
    · omega
  · exact h.apart e he f hf hlt

theorem covers_insert :
    Covers (m.insert start count) b ↔ Covers m b ∨ start ≤ b ∧ b < start + count := by
  constructor
  · rintro ⟨e, he, heb⟩
    rcases (m.mem_insert).mp he with rfl | ⟨he, -⟩
    · exact Or.inr heb
    · exact Or.inl ⟨e, he, heb⟩
  · rintro (⟨e, he, heb⟩ | hb)
    · exact ⟨e, (m.mem_insert).mpr (Or.inr ⟨he, not_mem_key h hcnt hfr he⟩), heb⟩
    · exact ⟨(start, count), (m.mem_insert).mpr (Or.inl rfl), hb⟩

end Insert

/-! ### Taking -/

/-- **Taking from the front of an entry uncovers what was taken.** -/
theorem take_spec (hkey : (start, free) ∈ m) (hle : count ≤ free)
    (hcnt : 0 < count) : Separate (take m start count) ∧
      ∀ b, Covers (take m start count) b ↔ Covers m b ∧ ¬(start ≤ b ∧ b < start + count) := by
  have hera := fun b => covers_erase (b := b) h hkey
  rw [take, (m.get?_eq_some).mpr hkey]
  simp only
  split
  · rename_i heq
    subst heq
    exact ⟨h.erase start, hera⟩
  rw [if_pos (by omega)]
  have hfr : ∀ b, start + count ≤ b → b < start + count + (free - count) →
      ¬Covers (m.erase start) b := fun b h₁ h₂ hc => ((hera b).mp hc).2 ⟨by omega, by omega⟩
  refine ⟨(h.erase start).insert (by omega) hfr, fun b => ?_⟩
  rw [covers_insert (h.erase start) (by omega) hfr, hera b]
  constructor
  · rintro (⟨hb, hout⟩ | hb)
    · exact ⟨hb, fun hin => hout ⟨hin.1, by omega⟩⟩
    · exact ⟨⟨_, hkey, by omega, by omega⟩, by omega⟩
  rintro ⟨hb, hout⟩
  by_cases hin : start ≤ b ∧ b < start + free
  · exact Or.inr (by omega)
  · exact Or.inl ⟨hb, hin⟩

end Separate

end Extents
