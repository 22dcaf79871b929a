import Protofire.Tlsf.Allocate

/-!
# Coalescing

A block that becomes free is merged with the free block before it, else with the free block
behind it (`Coalesced`). It is not merged with both: the block behind still has the tag of the
unmerged block when it is asked whether it follows the merged one, so after a merge with the
block before, the block behind is left alone. All cases are one change of the memory, the
header of the merged block and the tag of the block after it.
-/

namespace Protofire.Tlsf

open List

/-- How a free block is merged with the blocks beside it: the blocks before, the block and the
blocks behind, and the same after the merge. -/
inductive Coalesced : List Block → Block → List Block → List Block → Block → List Block → Prop
  /-- The block before is free; the block behind is not looked at. -/
  | prev {xs ys : List Block} {c d : Block} (hd : d.used = false) :
      Coalesced (xs ++ [d]) c ys xs ⟨d.start, c.size + d.size, false⟩ ys
  /-- The block before is not free and the block behind is. -/
  | next {xs ys : List Block} {c n : Block} (hxs : ∀ d ∈ xs.getLast?, d.used = true)
      (hn : n.used = false) : Coalesced xs c (n :: ys) xs ⟨c.start, c.size + n.size, false⟩ ys
  /-- Neither is free. -/
  | alone {xs ys : List Block} {c : Block} (hxs : ∀ d ∈ xs.getLast?, d.used = true)
      (hys : ∀ n ∈ ys.head?, n.used = true) : Coalesced xs c ys xs c ys

namespace Heap

variable {h : Heap} {xs ys ms : List Block} {b c d : Block} {lists : ℕ → List ℕ} {start stop : ℕ}

/-- What is known after coalescing. -/
structure Merged (h : Heap) (bs : List Block) (h' : Heap) (xs : List Block) (e : Block)
    (ys : List Block) : Prop where
  detached : ∃ lists, Detached h' xs e ys lists
  same : SameSpan h h'
  quiet : Quiet bs h.mem h'.mem

/-! ### One block for several -/

/-- The writes that make one free block of the memory from one address to another. -/
def mergeInto (h : Heap) (start size : ℕ) : Heap :=
  ((h.blockSetSize start size).blockClearUsed start).blockSetPrevPhysOfNext start start

theorem mergeInto_eq (h : Heap) (start : ℕ) {size : ℕ} (hdvd : heapBlockAlignment ∣ size)
    (hlt : size + 1 < wordBound) : h.mergeInto start size = if start + size < h.stop
      then (h.setWord start size).setWord (start + size + 8) start else h.setWord start size := by
  have hsz : (h.setWord start size).blockSize start = size :=
    blockSize_of_word (word_setWord_self _ _ (by omega)) hdvd
  rw [mergeInto, markFree hdvd hlt, blockSetPrevPhysOfNext, hsz]
  rfl

theorem mergeInto_apart (h : Heap) {start size k : ℕ} (hdvd : heapBlockAlignment ∣ size)
    (hlt : size + 1 < wordBound) (hk : k < start ∨ start + 8 ≤ k)
    (hk' : k < start + size + 8 ∨ start + size + 16 ≤ k ∨ ¬start + size < h.stop) :
    (h.mergeInto start size).mem k = h.mem k := by
  rw [mergeInto_eq h start hdvd hlt]
  split
  · rw [setWord_apart _ _ (by omega), setWord_apart _ _ (by omega)]
  · rw [setWord_apart _ _ (by omega)]

/-- **Free blocks that are on no list become one.** -/
theorem Loose.merge (hl : Loose h (xs ++ ms ++ ys) (xs ++ ys) lists) (hxs : Tiles h.start xs start)
    (hms : Tiles start ms stop) (hne : ms ≠ []) (hfr : ∀ b ∈ ms, b.used = false)
    (hys : Tiles stop ys h.stop) :
    Merged h (xs ++ ms ++ ys) (h.mergeInto start (stop - start)) xs ⟨start, stop - start, false⟩
      ys := by
  obtain ⟨m, ms, rfl⟩ := List.exists_cons_of_ne_nil hne
  obtain ⟨rfl, hmin, hdvd, hre⟩ := hms
  have hmst := hre.le
  have hsp := hys.le
  have hstart := hxs.le
  have hlt := hl.bounded.stop_lt
  have hpos := hl.bounded.pos
  have hbig : m.start + 32 ≤ stop := by
    simp only [Block.stop, minFreeBlock] at *
    omega
  have haln := hxs.dvd_stop hl.bounded.aligned
  have hstopdvd : heapBlockAlignment ∣ stop := hre.dvd_stop (Nat.dvd_add haln hdvd)
  have hsz : heapBlockAlignment ∣ stop - m.start := Nat.dvd_sub hstopdvd haln
  have hend : m.start + (stop - m.start) = stop := by omega
  have heq := mergeInto_eq h m.start hsz (by omega)
  rw [hend] at heq
  have hkp : ∀ k, k < m.start ∨ m.start + 8 ≤ k → k < stop + 8 ∨ stop + 16 ≤ k ∨ ¬stop < h.stop →
      (h.mergeInto m.start (stop - m.start)).mem k = h.mem k := fun k h₁ h₂ =>
    mergeInto_apart h hsz (by omega) h₁ (by omega)
  have hse : (h.mergeInto m.start (stop - m.start)).mem.word m.start = stop - m.start := by
    rw [heq]
    split
    · rw [word_setWord_apart _ _ (by omega)]
      exact word_setWord_self _ _ (by omega)
    · exact word_setWord_self _ _ (by omega)
  have hnx : stop < h.stop →
      (h.mergeInto m.start (stop - m.start)).mem.word (stop + 8) = m.start := by
    intro hlt'
    rw [heq, if_pos hlt']
    exact word_setWord_self _ _ (by omega)
  have hsm : SameSpan h (h.mergeInto m.start (stop - m.start)) := by
    rw [heq]
    split
    · exact (sameSpan_setWord ..).trans (sameSpan_setWord ..)
    · exact sameSpan_setWord ..
  have htag := hl.tagged
  rw [tagged_append, tagged_append] at htag
  obtain ⟨⟨htxs, -, hmtag, -⟩, htys⟩ := htag
  have hqt : Quiet (xs ++ m :: ms ++ ys) h.mem (h.mergeInto m.start (stop - m.start)).mem := by
    intro u hu hus k h₁ h₂
    simp only [List.mem_append] at hu
    rcases hu with (hu | hu) | hu
    · have : u.stop ≤ m.start := (hxs.mem hu).2.1
      exact hkp k (by omega) (by omega)
    · rw [hfr u hu] at hus
      cases hus
    · have := (hys.mem hu).1
      exact hkp k (by omega) (by omega)
  refine ⟨⟨lists, hsm.bounded hl.bounded, ?_, ?_, ?_, hl.onLists, rfl⟩, hsm, hqt⟩
  · rw [hsm.start, hsm.stop, tiles_append_cons]
    refine ⟨hxs, by simp only [minFreeBlock]; omega, hsz, ?_⟩
    simp only [Block.stop, hend]
    exact hys
  · rw [tagged_append]
    refine ⟨htxs.before hxs fun k hk => hkp k (by omega) (by omega), hse, ?_,
      htys.after hys (fun k h₁ h₂ => hkp k (by omega) h₂) hnx⟩
    rw [← hmtag]
    simp only
    exact Bytes.word_congr fun k _ _ => hkp k (by omega) (by omega)
  -- the links of the blocks on the lists are elsewhere
  have hfar : ∀ i, ∀ y ∈ lists i, y + 32 ≤ m.start ∨ stop ≤ y := by
    intro i y hy
    obtain ⟨b, hb, -, rfl, -⟩ := (hl.onLists.mem_iff i y).mp hy
    rcases List.mem_append.mp hb with hb | hb
    · obtain ⟨-, hbst, hbmin, -⟩ := hxs.mem hb
      omega
    · exact Or.inr (hys.mem hb).1
  rw [heq]
  split
  · refine (hl.listed.setWord _ fun i y hy => ?_).setWord _ fun i y hy => ?_
    all_goals
      have := hfar i y hy
      omega
  · refine hl.listed.setWord _ fun i y hy => ?_
    have := hfar i y hy
    omega

/-! ### The cases -/

theorem lastStart_append_singleton (prev : ℕ) (xs : List Block) (d : Block) :
    lastStart prev (xs ++ [d]) = d.start := by
  simp [lastStart]

/-- The block before is merged with exactly if it is free. -/
theorem coalescePrev_nil (hd : Detached h [] c ys lists) (size : ℕ) :
    h.coalescePrev c.start size = (h, c.start, size) := by
  obtain ⟨hstart, -⟩ := hd.tiles
  rw [coalescePrev, if_neg (by omega)]

theorem coalescePrev_append (hl : Detached h (xs ++ [d]) c ys lists) (size : ℕ) :
    h.coalescePrev c.start size = if d.used then (h, c.start, size)
      else (h.removeFreeBlock d.start, d.start, size + d.size) := by
  have hmem : d ∈ xs ++ [d] ++ c :: ys := by simp
  obtain ⟨hsz, hus⟩ := blockSize_of_mem hl.tagged hl.tiles hmem
  have hpv : h.blockPrevPhys c.start = d.start := by
    have := (tagged_append.mp hl.tagged).2.2.1
    rw [lastStart_append_singleton] at this
    exact this
  obtain ⟨htiles, -⟩ := tiles_append_cons.mp hl.tiles
  obtain ⟨-, hmin, -, hsp⟩ := tiles_append_cons.mp htiles
  have hdc : d.start + d.size = c.start := hsp
  have hstart := (hl.tiles.mem hmem).1
  have haln := Nat.mod_eq_zero_of_dvd (hl.tiles.dvd_start hl.bounded.aligned hmem)
  simp only [minFreeBlock] at hmin
  simp only [coalescePrev, hpv, hsz, hus]
  cases d.used with
  | true => simp
  | false =>
    simp only [Bool.false_eq_true, if_false]
    rw [if_pos ⟨by omega, hstart, by omega, hdc, trivial, haln, hmin⟩]

/-- **The block behind is left alone after a merge with the block before**: its tag names the
unmerged block. -/
theorem coalesceNext_of_ne {bs : List Block} (htiles : Tiles h.start (bs ++ c :: ys) h.stop)
    (htagged : Tagged h.mem 0 (bs ++ c :: ys)) {size : ℕ} (hend : start + size = c.stop)
    (hne : start ≠ c.start) : h.coalesceNext start size = (h, size) := by
  have hno : c.stop < h.stop → h.validateCoalesceNeighbour c.stop start h.stop = none := by
    intro hlt
    obtain ⟨-, -, -, hys⟩ := tiles_append_cons.mp htiles
    obtain ⟨-, -, -, htys⟩ := tagged_append.mp htagged
    cases ys with
    | nil => exact absurd hys (by simp only [Tiles]; omega)
    | cons n ys =>
      have hpv : h.blockPrevPhys c.stop ≠ start := by
        rw [← hys.1, blockPrevPhys, htys.2.1]
        exact hne.symm
      simp only [validateCoalesceNeighbour]
      split
      · rfl
      split
      · rfl
      split <;> rfl
  rw [coalesceNext, hend]
  split
  · rename_i hcond
    rw [hno hcond.1]
  · rfl

theorem coalesceNext_nil (hd : Detached h xs c [] lists) :
    h.coalesceNext c.start c.size = (h, c.size) := by
  obtain ⟨-, -, -, hys⟩ := tiles_append_cons.mp hd.tiles
  have hend : c.start + c.size = h.stop := hys
  rw [coalesceNext, if_neg (by omega)]

/-- The block behind an unmerged block is merged with exactly if it is free. -/
theorem coalesceNext_cons {n : Block} (hd : Detached h xs c (n :: ys) lists) :
    h.coalesceNext c.start c.size = if n.used then (h, c.size)
      else (h.removeFreeBlock n.start, c.size + n.size) := by
  have hmem : n ∈ xs ++ c :: n :: ys := by simp
  obtain ⟨hsz, hus⟩ := blockSize_of_mem hd.tagged hd.tiles hmem
  obtain ⟨-, hsp, hmin, -⟩ := hd.tiles.mem hmem
  obtain ⟨-, -, -, hys⟩ := tiles_append_cons.mp hd.tiles
  obtain ⟨-, -, -, htys⟩ := tagged_append.mp hd.tagged
  have hend : c.start + c.size = n.start := hys.1.symm
  have hpv : h.blockPrevPhys n.start = c.start := htys.2.1
  have haln := Nat.mod_eq_zero_of_dvd (hd.tiles.dvd_start hd.bounded.aligned hmem)
  have hval : h.validateCoalesceNeighbour n.start c.start h.stop = some n.size := by
    simp only [validateCoalesceNeighbour, hsz, hpv]
    rw [if_neg (by simpa using haln), if_neg (by simp only [minFreeBlock]; omega),
      if_neg (by omega), if_neg (by simp)]
  rw [coalesceNext, hend, hus]
  cases n.used with
  | true => simp
  | false =>
    rw [if_pos ⟨by omega, rfl⟩, hval]
    rfl

theorem coalesce_eq {size size' : ℕ} {h₁ h₂ : Heap} (hsz : h.blockSize b.start = b.size)
    (hpv : h.coalescePrev b.start b.size = (h₁, start, size))
    (hnx : h₁.coalesceNext start size = (h₂, size')) :
    h.coalesce b.start = (h₂.mergeInto start size', start) := by
  simp only [coalesce, hsz, hpv, hnx, mergeInto]

section Coalescing

variable (hd : Detached h xs c ys lists)

include hd

theorem Detached.loose : Loose h (xs ++ c :: ys) (xs ++ ys) lists :=
  ⟨hd.bounded, hd.tiles, hd.tagged, hd.listed, hd.onLists, fun _ hb => mem_append_cons hb⟩

/-- The header is written again if nothing is merged. -/
theorem merged_alone : Merged h (xs ++ c :: ys) (h.mergeInto c.start c.size) xs c ys := by
  obtain ⟨hxs, hmin, hdvd, hys⟩ := tiles_append_cons.mp hd.tiles
  have hl := hd.loose
  rw [append_cons] at hl
  have hm := hl.merge hxs (show Tiles c.start [c] c.stop from ⟨rfl, hmin, hdvd, rfl⟩) (by simp)
    (by simpa using hd.free) hys
  have hsz : c.stop - c.start = c.size := by simp [Block.stop]
  have hc : (⟨c.start, c.size, false⟩) = c := by rw [← hd.free]
  rwa [hsz, hc, ← append_cons] at hm

/-- A block that is not merged with the block before is merged with the block behind it, if that
is free. -/
theorem coalesce_behind (hpv : h.coalescePrev c.start c.size = (h, c.start, c.size))
    (hxs : ∀ d ∈ xs.getLast?, d.used = true) : ∃ xs' e ys',
    Coalesced xs c ys xs' e ys' ∧ (h.coalesce c.start).2 = e.start ∧
      Merged h (xs ++ c :: ys) (h.coalesce c.start).1 xs' e ys' ∧ e.start = c.start := by
  have hc : c ∈ xs ++ c :: ys := by simp
  obtain ⟨hsz, -⟩ := blockSize_of_mem hd.tagged hd.tiles hc
  cases ys with
  | nil =>
    rw [coalesce_eq hsz hpv (coalesceNext_nil hd)]
    exact ⟨xs, c, [], .alone hxs (by simp), rfl, merged_alone hd, rfl⟩
  | cons n ys =>
    have hnx := coalesceNext_cons hd
    cases hus : n.used with
    | true =>
      rw [hus] at hnx
      rw [coalesce_eq hsz hpv hnx]
      exact ⟨xs, c, n :: ys, .alone hxs (by simpa using hus), rfl, merged_alone hd, rfl⟩
    | false =>
      simp only [hus, Bool.false_eq_true] at hnx
      rw [coalesce_eq hsz hpv hnx]
      obtain ⟨hxs', hmin, hdvd, hstart, hnmin, hndvd, hys⟩ := tiles_append_cons.mp hd.tiles
      have htiles := hd.tiles
      rw [append_cons] at htiles
      obtain ⟨hl, hwi⟩ := hd.loose.removeFreeBlock (fun b hb => htiles.start_ne (by
        simp only [mem_append] at hb ⊢
        tauto)) hus
      have hsm := sameSpan_removeFreeBlock h n.start
      have hspl : xs ++ c :: n :: ys = xs ++ [c, n] ++ ys := by simp
      rw [hspl] at hl ⊢
      have hm := hl.merge (hsm.start ▸ hxs')
        (show Tiles c.start [c, n] n.stop from ⟨rfl, hmin, hdvd, hstart, hnmin, hndvd, rfl⟩)
        (by simp) (by simp [hd.free, hus]) (hsm.stop ▸ hys)
      have hsum : n.stop - c.start = c.size + n.size := by
        simp only [Block.stop] at *
        omega
      rw [hsum] at hm
      exact ⟨xs, _, ys, .next hxs hus, rfl, ⟨hm.detached, hsm.trans hm.same,
        ((hwi.mono (hspl ▸ hd.loose.sub)).quiet (hspl ▸ hd.tiles)).trans hm.quiet⟩, rfl⟩

/-- **A free block on no list is merged with a free block beside it.** What it held stays in the
memory if it is merged with the block before. -/
theorem coalesce_spec : ∃ xs' e ys',
    Coalesced xs c ys xs' e ys' ∧ (h.coalesce c.start).2 = e.start ∧
      Merged h (xs ++ c :: ys) (h.coalesce c.start).1 xs' e ys' ∧
      (e.start = c.start ∨ e.start + 32 ≤ c.start ∧
        ∀ k, c.start ≤ k → k < c.stop → (h.coalesce c.start).1.mem k = h.mem k) := by
  rcases List.eq_nil_or_concat xs with rfl | ⟨xs, d, rfl⟩
  · obtain ⟨xs', e, ys', hco, hres, hm, he⟩ :=
      coalesce_behind hd (coalescePrev_nil hd c.size) (by simp)
    exact ⟨xs', e, ys', hco, hres, hm, Or.inl he⟩
  rw [List.concat_eq_append] at *
  have hpv := coalescePrev_append hd c.size
  cases hus : d.used with
  | true =>
    rw [hus] at hpv
    obtain ⟨xs', e, ys', hco, hres, hm, he⟩ := coalesce_behind hd hpv (by simpa using hus)
    exact ⟨xs', e, ys', hco, hres, hm, Or.inl he⟩
  | false =>
    simp only [hus, Bool.false_eq_true] at hpv
    have hc : c ∈ xs ++ [d] ++ c :: ys := by simp
    obtain ⟨hsz, -⟩ := blockSize_of_mem hd.tagged hd.tiles hc
    obtain ⟨htiles, hmin, hdvd, hys⟩ := tiles_append_cons.mp hd.tiles
    obtain ⟨hxs, hdmin, hddvd, hdst⟩ := tiles_append_cons.mp htiles
    have hdc : d.stop = c.start := hdst
    have hl := hd.loose
    rw [← List.append_cons xs d ys] at hl
    have hne : ∀ b ∈ xs ++ ys, b.start ≠ d.start := fun b hb => by
      have htiles' := hd.tiles
      rw [← List.append_cons] at htiles'
      refine htiles'.start_ne ?_
      simp only [List.mem_append] at hb ⊢
      tauto
    obtain ⟨hl', hwi⟩ := hl.removeFreeBlock hne hus
    have hsm := sameSpan_removeFreeBlock h d.start
    have hsum : c.stop - d.start = c.size + d.size := by
      simp only [Block.stop] at *
      omega
    have hend : d.start + (c.size + d.size) = c.stop := by
      simp only [Block.stop] at *
      omega
    have hnec : d.start ≠ c.start := by
      simp only [Block.stop, minFreeBlock] at *
      omega
    rw [coalesce_eq hsz hpv (coalesceNext_of_ne hl'.tiles hl'.tagged hend hnec)]
    have hspl : xs ++ [d] ++ c :: ys = xs ++ [d, c] ++ ys := by simp
    rw [hspl] at hl' ⊢
    have hm := hl'.merge (hsm.start ▸ hxs)
      (show Tiles d.start [d, c] c.stop from ⟨rfl, hdmin, hddvd, hdc.symm, hmin, hdvd, rfl⟩)
      (by simp) (by simp [hd.free, hus]) (hsm.stop ▸ hys)
    rw [hsum] at hm
    refine ⟨xs, _, ys, .prev hus, rfl, ⟨hm.detached, hsm.trans hm.same,
      ((hwi.mono (hspl ▸ hl.sub)).quiet (hspl ▸ hd.tiles)).trans hm.quiet⟩,
      Or.inr ⟨?_, fun k h₁ h₂ => ?_⟩⟩
    · simp only [Block.stop, minFreeBlock] at hdc hdmin ⊢
      omega
    -- no block on a list reaches into the one that is given back
    have hkp : (h.removeFreeBlock d.start).mem k = h.mem k := by
      by_contra hne
      obtain ⟨b, hb, -, hle, hlt⟩ := hwi k hne
      have := hd.tiles.side (show b ∈ xs ++ [d] ++ ys by simpa using hb)
      omega
    have hbd := hd.bounded.stop_lt
    have hpos := hd.bounded.pos
    have hstart := hxs.le
    have hsp := (hd.tiles.mem hc).2.1
    simp only [Block.stop, minFreeBlock] at hdc hdmin h₂
    rw [mergeInto_apart _ (Nat.dvd_add hdvd hddvd) (by omega) (by omega) (by omega), hkp]

end Coalescing

end Heap

end Protofire.Tlsf
