import Mathlib

/-!
# Ordered maps with natural keys

A finite map whose entries are kept in the order of their keys, with the operations an
ordered map has beyond a lookup: the last entry below a key and the first entry from a key
on. The order is a field of the structure, so a lookup, a neighbour and the membership of an
entry say the same thing about every value of the type.
-/

/-- A finite map from natural numbers, ordered by its keys. -/
structure SortedMap (α : Type) where
  /-- The entries, in the order of their keys. -/
  entries : List (ℕ × α)
  sorted : entries.Pairwise fun a b => a.1 < b.1

namespace SortedMap

open List

variable {α : Type} (m : SortedMap α) {k l : ℕ} {v w : α}

instance [DecidableEq α] : DecidableEq (SortedMap α) := fun m n =>
  decidable_of_iff (m.entries = n.entries) ⟨fun h => by cases m; cases n; cases h; rfl,
    fun h => h ▸ rfl⟩

instance : Membership (ℕ × α) (SortedMap α) := ⟨fun m e => e ∈ m.entries⟩

variable {e : ℕ × α}

theorem mem_def : e ∈ m ↔ e ∈ m.entries := Iff.rfl

/-- The map without entries. -/
def empty : SortedMap α := ⟨[], Pairwise.nil⟩

section

variable (k : ℕ)

/-- The value of a key. -/
def get? : Option α := (m.entries.find? fun e => e.1 == k).map Prod.snd

/-- The map without the entry of a key. -/
def erase : SortedMap α := ⟨m.entries.filter (·.1 ≠ k), m.sorted.filter _⟩

/-- The map with an entry for a key, over the one it may have. -/
def insert (v : α) : SortedMap α where
  entries := m.entries.filter (·.1 < k) ++ (k, v) :: m.entries.filter (k < ·.1)
  sorted := by
    refine pairwise_append.mpr ⟨m.sorted.filter _, pairwise_cons.mpr ⟨fun e he => ?_,
      m.sorted.filter _⟩, fun e he f hf => ?_⟩
    · simpa using (mem_filter.mp he).2
    have hek : e.1 < k := by simpa using (mem_filter.mp he).2
    rcases mem_cons.mp hf with rfl | hf
    · exact hek
    have hkf : k < f.1 := by simpa using (mem_filter.mp hf).2
    exact hek.trans hkf

/-- The last entry with a key below `k`. -/
def lastBelow : Option (ℕ × α) := (m.entries.filter (·.1 < k)).getLast?

/-- The entry with the largest key. -/
def last : Option (ℕ × α) := m.entries.getLast?

/-- The number of entries. -/
def size : ℕ := m.entries.length

/-- The first entry with a key from `k` on. -/
def firstFrom : Option (ℕ × α) := m.entries.find? (k ≤ ·.1)

end

/-! ### What the operations hold -/

@[simp] theorem not_mem_empty : e ∉ (empty : SortedMap α) := not_mem_nil

/-- A key has one entry. -/
theorem eq_of_mem {m : SortedMap α} (hv : (k, v) ∈ m) (hw : (k, w) ∈ m) : v = w := by
  have hnd : (m.entries.map Prod.fst).Nodup := by
    refine pairwise_map.mpr (m.sorted.imp fun h => ?_)
    omega
  exact congrArg Prod.snd (inj_on_of_nodup_map hnd hv hw rfl)

theorem get?_eq_some : m.get? k = some v ↔ (k, v) ∈ m := by
  simp only [get?, Option.map_eq_some_iff, Prod.exists, exists_eq_right]
  constructor
  · rintro ⟨k', h⟩
    have hk : k' = k := by simpa using find?_some h
    exact hk ▸ mem_of_find?_eq_some h
  intro h
  obtain ⟨⟨k', v'⟩, he⟩ : ∃ e, m.entries.find? (fun e => e.1 == k) = some e :=
    Option.isSome_iff_exists.mp (find?_isSome.mpr ⟨_, h, by simp⟩)
  obtain rfl : k' = k := by simpa using find?_some he
  exact ⟨k', by rw [he, eq_of_mem (mem_of_find?_eq_some he) h]⟩

@[simp] theorem mem_erase : e ∈ m.erase k ↔ e ∈ m ∧ e.1 ≠ k := by
  simp [mem_def, erase]

@[simp] theorem mem_insert : e ∈ m.insert k v ↔ e = (k, v) ∨ e ∈ m ∧ e.1 ≠ k := by
  simp only [mem_def, insert, mem_append, mem_cons, mem_filter, decide_eq_true_eq]
  constructor
  · rintro (⟨h, hlt⟩ | rfl | ⟨h, hlt⟩)
    · exact Or.inr ⟨h, by omega⟩
    · exact Or.inl rfl
    · exact Or.inr ⟨h, by omega⟩
  rintro (rfl | ⟨h, hne⟩)
  · exact Or.inr (Or.inl rfl)
  rcases Nat.lt_or_gt_of_ne hne with hlt | hlt
  · exact Or.inl ⟨h, hlt⟩
  · exact Or.inr (Or.inr ⟨h, hlt⟩)

theorem lastBelow_mem (h : m.lastBelow k = some e) : e ∈ m ∧ e.1 < k := by
  have := mem_filter.mp (mem_of_getLast? h)
  exact ⟨this.1, by simpa using this.2⟩

/-- The last entry below a key is above every other one below it. -/
theorem le_lastBelow {f : ℕ × α} (h : m.lastBelow k = some e) (hf : f ∈ m) (hlt : f.1 < k) :
    f.1 ≤ e.1 := by
  obtain ⟨l, hl⟩ := getLast?_eq_some_iff.mp h
  have hmem : f ∈ l ++ [e] := hl ▸ mem_filter.mpr ⟨hf, by simpa using hlt⟩
  rcases mem_append.mp hmem with hfl | hfe
  · have hsor : (l ++ [e]).Pairwise fun a b => a.1 < b.1 := hl ▸ m.sorted.filter _
    exact ((pairwise_append.mp hsor).2.2 f hfl e (mem_singleton.mpr rfl)).le
  · rw [mem_singleton.mp hfe]

theorem not_lt_of_lastBelow {f : ℕ × α} (h : m.lastBelow k = none) (hf : f ∈ m) : ¬f.1 < k := by
  have hnil := getLast?_eq_none_iff.mp h
  intro hlt
  have hmem : f ∈ m.entries.filter (·.1 < k) := mem_filter.mpr ⟨hf, by simpa using hlt⟩
  rw [hnil] at hmem
  cases hmem

theorem last_mem (h : m.last = some e) : e ∈ m := mem_of_getLast? h

theorem not_mem_of_size (h : m.size = 0) : e ∉ m := by
  rw [mem_def, length_eq_zero_iff.mp h]
  exact not_mem_nil

theorem firstFrom_mem (h : m.firstFrom k = some e) : e ∈ m ∧ k ≤ e.1 :=
  ⟨mem_of_find?_eq_some h, by simpa using find?_some h⟩

end SortedMap
