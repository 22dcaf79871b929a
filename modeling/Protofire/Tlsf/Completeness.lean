import Protofire.Tlsf.Safety

/-!
# What the search finds

A block is rejected when the alignment of the request leaves too little of it. The search then goes
on after the class of that block, so the classes of the rejected blocks increase, and a block
after the class of the request is never rejected, since the size that is reckoned for a request is
enough wherever the block starts. A search without a result leaves the heap as it was.
-/

namespace Protofire.Tlsf.Heap

open List

variable {ok : Heap → Live → Prop} {h : Heap} {live : List Live} {bs : List Block}
  {lists : ℕ → List ℕ} {layout : Layout}

/-- The sizes of the blocks a search rejects, in their order: the rounds are those of `search`. -/
def rejected : ℕ → Heap → Layout → ℕ → List ℕ
  | 0, _, _, _ => []
  | rounds + 1, h, layout, minBlockSize =>
    let candidate := h.findSuitableBlock minBlockSize
    if candidate = 0 then []
    else
      let h := h.removeFreeBlock candidate
      let blockEnd := saturatingAdd candidate (h.blockSize candidate)
      match placeIn candidate layout with
      | none => []
      | some (_, _, allocEnd) =>
        if blockEnd < allocEnd then
          let h := h.insertFreeBlock candidate
          h.blockSize candidate ::
            rejected rounds h layout (nextClassMin (h.blockSize candidate))
        else []

/-- **The classes of the rejected blocks increase**, from the class the search starts in. -/
theorem rejected_increasing (hl : Loose h bs bs lists) (rounds minSize : ℕ) :
    (∀ size ∈ rejected rounds h layout minSize, searchIndex minSize ≤ classIndex size) ∧
      ((rejected rounds h layout minSize).map classIndex).Pairwise (· < ·) := by
  induction rounds generalizing h minSize with
  | zero => exact ⟨fun _ hmem => absurd hmem not_mem_nil, List.Pairwise.nil⟩
  | succ n ih =>
    have hnil : (∀ size ∈ [], searchIndex minSize ≤ classIndex size) ∧
        ([].map classIndex).Pairwise (· < ·) :=
      ⟨fun _ hmem => absurd hmem not_mem_nil, List.Pairwise.nil⟩
    rw [rejected]
    simp only
    rcases hl.candidate minSize with ⟨hzero, -⟩ | ⟨xs, c, ys, rfl, -, hfd, hcls, hend, hbk⟩
    · rwa [if_pos hzero]
    have hc : c ∈ xs ++ c :: ys := by simp
    obtain ⟨hmin, hmax, hne, -⟩ := hl.bounded.block hl.tiles hc
    rw [hfd, if_neg hne, hend, hbk.loose.blockSize hc]
    cases placeIn c.start layout with
    | none => exact hnil
    | some place =>
      obtain ⟨payload, header, stop⟩ := place
      simp only
      by_cases hti : c.stop < stop
      · rw [if_pos hti, map_cons, pairwise_cons]
        obtain ⟨hle, hpr⟩ := ih hbk.loose (nextClassMin c.size)
        rw [searchIndex_nextClassMin hmin hmax] at hle
        refine ⟨fun size hmem => ?_, fun i hi => ?_, hpr⟩
        · rcases mem_cons.mp hmem with rfl | hmem
          · exact hcls
          have := hle size hmem
          omega
        · obtain ⟨size, hmem, rfl⟩ := mem_map.mp hi
          exact hle size hmem
      · rwa [if_neg hti]

/-- A search that has ended does not depend on the bound. -/
theorem search_of_le {r : ℕ × Heap} {rounds rounds' minSize : ℕ} (hle : rounds ≤ rounds')
    (h₁ : search rounds h layout minSize = some r) : search rounds' h layout minSize = some r := by
  induction rounds generalizing h minSize rounds' with
  | zero => cases h₁
  | succ n ih =>
    obtain ⟨m, rfl⟩ : ∃ m, rounds' = m + 1 := ⟨rounds' - 1, by omega⟩
    rw [search] at h₁ ⊢
    split
    · rwa [if_pos ‹_›] at h₁
    rw [if_neg ‹_›] at h₁
    cases hplace : placeIn (h.findSuitableBlock minSize) layout with
    | none => rwa [hplace] at h₁
    | some place =>
      simp only [hplace] at h₁ ⊢
      split
      · rw [if_pos ‹_›] at h₁
        exact ih (by omega) h₁
      · rwa [if_neg ‹_›] at h₁

/-- **The search of a request, from the blocks and the lists of a heap.** -/
structure Searched (h : Heap) (layout : Layout) (bs : List Block) (lists : ℕ → List ℕ) (ptr : ℕ)
    (h' : Heap) : Prop where
  before : Loose h bs bs lists
  returns : h.allocateLocked layout = some (ptr, h')
  /-- The bound on the rounds is not what ends the search. -/
  ends : ∀ rounds, searchBound ≤ rounds →
    search rounds h layout layout.minBlockSize = some (ptr, h')
  /-- No class has two rejected blocks. -/
  rejects : ∀ rounds,
    ((rejected rounds h layout layout.minBlockSize).map classIndex).Pairwise (· < ·)
  complete : h.stop + kernelHeapSize ≤ wordBound →
    (∃ b ∈ bs, b.used = false ∧ searchIndex layout.minBlockSize < classIndex b.size) → ptr ≠ 0
  unchanged : ptr = 0 → Unchanged h bs lists h'

/-- **In every state of every run, the search of a request ends** after it has rejected one block
of a class at most; it finds a block whenever a free one is in a class after that of the request;
and when it finds none, the blocks, the lists in their order, the bitmaps and the count of free
bytes are those of before. The linker scripts place the kernel, with its heap, in the low part of
the address space: only a heap whose end is less than its own length from the end of the address
space could have the sum of an address and a request overflow first. -/
theorem search_complete (hr : Reachable ok h live) (halign : ∃ k, layout.align = 2 ^ k) :
    ∃ bs lists ptr h', Searched h layout bs lists ptr h' := by
  obtain ⟨bs, owners, hgd, -⟩ := hr.exists_sound
  obtain ⟨lists, hl⟩ := hgd.loose
  obtain ⟨ptr, h', heq, hres⟩ := search_spec halign searchBound layout.minBlockSize (by
    simp only [listCount, searchBound]
    omega) hl hgd.available
  refine ⟨bs, lists, ptr, h', hl, heq, fun rounds hle => search_of_le hle heq,
    fun rounds => (rejected_increasing hl rounds _).2, ?_, fun hptr => ?_⟩
  · rintro hlow ⟨b, hb, hfr, hlt⟩ hptr
    rcases hres with ⟨-, -, hno⟩ | ⟨hpos, -⟩
    · exact absurd (hno hlow b hb hfr hlt) (by omega)
    · omega
  · rcases hres with ⟨-, hun, -⟩ | ⟨hpos, -⟩
    · exact hun
    · omega

/-- A second request, after a first one. -/
theorem search_complete_oneRequest :
    ∃ bs lists ptr h', Searched oneRequest ⟨4096, 4096⟩ bs lists ptr h' := by
  have hr : Reachable anyFree oneRequest [⟨32, ⟨8, 8⟩⟩] := reachable_oneRequest
  exact search_complete hr ⟨12, rfl⟩

end Protofire.Tlsf.Heap
