import Protofire.Tlsf.Allocate

/-!
# The search for a block

A call of the allocator in a good heap returns: each round of the search either ends it or puts
the block it looked at back and goes on in a higher class. What it returns is the null pointer,
with the blocks as they were, or the payload of a request that was cut out of a free block.
-/

namespace Protofire.Tlsf.Heap

open Function List

variable {h h' : Heap} {bs xs ys : List Block} {c : Block} {lists : ℕ → List ℕ}
  {header stop : ℕ} {layout : Layout}

theorem used_of_mem_frontPart {b : Block} (hb : b ∈ frontPart c header) : b.used = false := by
  unfold frontPart at hb
  split at hb
  · rw [mem_singleton.mp hb]
  · cases hb

theorem used_of_mem_backPart {b : Block} (hb : b ∈ backPart c stop) : b.used = false := by
  unfold backPart at hb
  split at hb
  · rw [mem_singleton.mp hb]
  · cases hb

/-- A request cut out of a free block leaves the used blocks alone. -/
theorem Carved.quiet (hc : Carved h xs c ys header stop h')
    (htiles : Tiles h.start (xs ++ c :: ys) h.stop) (hfr : c.used = false) :
    Quiet (xs ++ c :: ys) h.mem h'.mem := by
  intro u hu hus k h₁ h₂
  rcases htiles.apart hu (by simp : c ∈ xs ++ c :: ys) with rfl | hside | hside
  · rw [hfr] at hus
    cases hus
  · exact hc.outside k (by omega) (by simp only [Block.stop] at *; omega)
  · exact hc.outside k (by omega) (by omega)

/-- What a call that returns a pointer has done. -/
structure Allocated (h : Heap) (bs : List Block) (layout : Layout) (ptr : ℕ) (h' : Heap)
    (bs' : List Block) (u : Block) : Prop where
  good : Good h' bs'
  quiet : Quiet bs h.mem h'.mem
  /-- The used blocks are those there were and the block of the request. -/
  used_iff : ∀ b, b.used = true → (b ∈ bs' ↔ b = u ∨ b ∈ bs)
  fresh : u ∉ bs
  owns : Owns h'.mem u ptr layout
  /-- The block is cut out of a free one. -/
  shape : ∃ xs c ys header stop, bs = xs ++ c :: ys ∧ c.used = false ∧
    bs' = xs ++ cut c header stop ++ ys

/-- One round of the search that ends it: the block is cut around the request. -/
theorem allocated_of_carve (hgd : Good h (xs ++ c :: ys)) (hfr : c.used = false)
    (hal : ∃ k, layout.align = 2 ^ k) {payload : ℕ}
    (hplace : placeIn c.start layout = some (payload, header, stop)) (hle : stop ≤ c.stop) :
    Allocated h (xs ++ c :: ys) layout payload
      ((h.removeFreeBlock c.start).carve c.start header stop c.stop)
      (xs ++ cut c header stop ++ ys) (usedPart c header stop) := by
  obtain ⟨lists, hd, hwi⟩ := hgd.detach hfr
  have hp := hd.placed
  obtain ⟨hpay, hdvd, hstart, haln, hrm, hstopdvd, hsz⟩ :=
    placeIn_eq_some hal hp.pos hplace
  have hf : Fits c header stop := ⟨hstart, haln, hrm, hstopdvd, hle⟩
  have hc := carve_spec hd hf
  have hsm := sameSpan_removeFreeBlock h c.start
  have hustop := usedPart_stop hp hf
  obtain ⟨hple, hple', -⟩ := hp.partStop_le hf
  have hust : (usedPart c header stop).start = partStart c header := rfl
  refine ⟨hc.good hd hf (hsm.available.trans hgd.available),
    (hwi.quiet hgd.tiles).trans (hc.quiet hd.tiles hfr), ?_, ?_,
    ⟨rfl, hdvd, ?_, ?_, ?_⟩, xs, c, ys, header, stop, rfl, hfr, rfl⟩
  · intro b hus
    have hfront : b ∉ frontPart c header := fun hmem => by
      rw [used_of_mem_frontPart hmem] at hus
      cases hus
    have hbk : b ∉ backPart c stop := fun hmem => by
      rw [used_of_mem_backPart hmem] at hus
      cases hus
    have hne : b ≠ c := fun heq => by
      rw [heq, hfr] at hus
      cases hus
    simp only [cut, mem_append, mem_cons]
    tauto
  · intro hmem
    obtain ⟨hpa₁, hpa₂, -⟩ := partStart_cases hp hf
    rcases hgd.tiles.apart hmem (by simp : c ∈ xs ++ c :: ys) with heq | hside | hside
    · have := congrArg Block.used heq
      rw [hfr] at this
      cases this
    all_goals omega
  · rw [hust]
    by_cases hfront : minFreeBlock ≤ header - c.start
    · exact Or.inl (by rw [partStart, if_pos hfront, hpay])
    rw [partStart, if_neg hfront]
    obtain ⟨j, hj⟩ := hp.aligned
    simp only [heapBlockAlignment, minFreeBlock] at *
    by_cases heq : header = c.start + 16
    · exact Or.inr ⟨by omega, heq ▸ hc.forward heq⟩
    · exact Or.inl (by omega)
  · omega
  · rw [hustop]
    exact hc.canary

/-! ### The block a round looks at -/

/-- What a search without a result leaves behind: the blocks, the lists in their order, the bitmaps
and the count are those there were, and the used blocks have their bytes. -/
structure Unchanged (h : Heap) (bs : List Block) (lists : ℕ → List ℕ) (h' : Heap) : Prop where
  loose : Loose h' bs bs lists
  quiet : Quiet bs h.mem h'.mem
  span : SameSpan h h'
  freeLists : h'.freeLists = h.freeLists
  slBitmaps : h'.slBitmaps = h.slBitmaps
  flBitmap : h'.flBitmap = h.flBitmap

theorem Loose.unchanged (hl : Loose h bs bs lists) : Unchanged h bs lists h :=
  ⟨hl, fun _ _ _ _ _ _ => rfl, ⟨rfl, rfl, rfl⟩, rfl, rfl, rfl⟩

theorem Unchanged.trans {h'' : Heap} (u : Unchanged h bs lists h')
    (u' : Unchanged h' bs lists h'') : Unchanged h bs lists h'' :=
  ⟨u'.loose, u.quiet.trans u'.quiet, u.span.trans u'.span, u'.freeLists.trans u.freeLists,
    u'.slBitmaps.trans u.slBitmaps, u'.flBitmap.trans u.flBitmap⟩

/-- **The head of a list is put back where it was.** -/
theorem Loose.putBack (hl : Loose h (xs ++ c :: ys) (xs ++ c :: ys) lists) (hfr : c.used = false)
    {rest : List ℕ} (hhd : lists (classIndex c.size) = c.start :: rest) :
    (h.removeFreeBlock c.start).blockSize c.start = c.size ∧
    Unchanged h (xs ++ c :: ys) lists ((h.removeFreeBlock c.start).insertFreeBlock c.start) := by
  have hc : c ∈ xs ++ c :: ys := by simp
  obtain ⟨hmin, hmax, -⟩ := hl.bounded.block hl.tiles hc
  obtain ⟨hoff, hwi⟩ := hl.removeFreeBlock (fun _ => hl.tiles.start_ne) hfr
  have hd : Detached (h.removeFreeBlock c.start) xs c ys _ :=
    ⟨hoff.bounded, hoff.tiles, hoff.tagged, hoff.listed, hoff.onLists, hfr⟩
  obtain ⟨hon, hwi'⟩ := hd.attach
  have hlists : update (update lists (classIndex c.size)
      ((lists (classIndex c.size)).erase c.start)) (classIndex c.size) (c.start ::
      update lists (classIndex c.size) ((lists (classIndex c.size)).erase c.start)
        (classIndex c.size)) = lists := by
    rw [update_self, update_idem, hhd, erase_cons_head, ← hhd, update_eq_self]
  rw [hlists] at hon
  refine ⟨hoff.blockSize hc, hon, (hwi.trans hwi').quiet hl.tiles,
    (sameSpan_removeFreeBlock h c.start).trans (sameSpan_insertFreeBlock _ c.start),
    funext fun i => (hl.listed.linked i).head_eq (hon.listed.linked i),
    hl.listed.slBitmaps_eq hon.listed fun _ => Iff.rfl, ?_⟩
  obtain ⟨hfl, hfl'⟩ := mapping_fst_le hmin hmax
  have hbit : (mapping c.size).1 - flMin < flCount := by
    simp only [flCount, flMin] at *
    omega
  have hbit' : (mapping c.size).1 - flMin < 32 := Nat.lt_trans hbit (by decide)
  refine BitVec.eq_of_getLsbD_eq fun f _ => ?_
  by_cases hf : f = (mapping c.size).1 - flMin
  · rw [hf, Bool.eq_iff_iff, hon.listed.flBit _ hbit, hl.listed.flBit _ hbit]
  rw [insertFreeBlock_eq (hoff.blockSize hc) hmin]
  simp only [Bitmap.getLsbD_or_one_shiftLeft _ _ hbit', hf, decide_false, Bool.or_false]
  exact getLsbD_flBitmap_removeFreeBlock (hl.blockSize hc) hmin hbit' hf

theorem classIndex_lt {size : ℕ} (hmin : minFreeBlock ≤ size) (hmax : size ≤ kernelHeapSize) :
    classIndex size < listCount := by
  have hfl := mapping_fst_le hmin hmax
  have hsl := mapping_snd_lt hmin
  simp only [classIndex, listIndex, listCount, flCount, slCount] at *
  omega

/-- **The block a round looks at** is a free one from the class of the search on, and it goes back
to where it was; there is none only if no free block is in these classes. -/
theorem Loose.candidate (hl : Loose h bs bs lists) (minSize : ℕ) :
    (h.findSuitableBlock minSize = 0 ∧
      ∀ b ∈ bs, b.used = false → classIndex b.size < searchIndex minSize) ∨
    ∃ xs c ys, bs = xs ++ c :: ys ∧ c.used = false ∧ h.findSuitableBlock minSize = c.start ∧
      searchIndex minSize ≤ classIndex c.size ∧
      saturatingAdd c.start ((h.removeFreeBlock c.start).blockSize c.start) = c.stop ∧
      Unchanged h bs lists ((h.removeFreeBlock c.start).insertFreeBlock c.start) := by
  rcases hl.listed.findSuitableBlock minSize with ⟨hzero, hemp⟩ | ⟨i, hi, -, hne, hfd⟩
  · refine Or.inl ⟨hzero, fun b hb hfr => ?_⟩
    by_contra hcon
    obtain ⟨hmin, hmax, -⟩ := hl.bounded.block hl.tiles hb
    have hmem := (hl.onLists.mem_iff _ _).mpr ⟨b, hb, hfr, rfl, rfl⟩
    rw [hemp _ (Nat.not_lt.mp hcon) (classIndex_lt hmin hmax)] at hmem
    cases hmem
  obtain ⟨rest, hhd⟩ := hl.listed.head_cons hne
  obtain ⟨c, hc, hfr, hstart, rfl⟩ := (hl.onLists.mem_iff i _).mp (hl.listed.head_mem hne)
  obtain ⟨xs, ys, rfl⟩ := List.append_of_mem hc
  rw [← hstart] at hhd hfd
  obtain ⟨hsz, hbk⟩ := hl.putBack hfr hhd
  refine Or.inr ⟨xs, c, ys, rfl, hfr, hfd, hi, ?_, hbk⟩
  have hsp := (hl.tiles.mem hc).2.1
  have hlt := hl.bounded.stop_lt
  simp only [saturatingAdd, Block.stop] at *
  omega

/-- **The search ends**, with a request cut out of a free block or with the heap as it was. In a
heap away from the end of the address space it ends without a block only if no free block it has
before it is in a class after the class of the request. -/
theorem search_spec (hal : ∃ k, layout.align = 2 ^ k) (rounds minSize : ℕ)
    (hrn : listCount < rounds + searchIndex minSize) (hl : Loose h bs bs lists)
    (havail : h.available = freeBytes bs) :
    ∃ ptr h', search rounds h layout minSize = some (ptr, h') ∧
      (ptr = 0 ∧ Unchanged h bs lists h' ∧ (h.stop + kernelHeapSize ≤ wordBound →
          ∀ b ∈ bs, b.used = false → searchIndex layout.minBlockSize < classIndex b.size →
            classIndex b.size < searchIndex minSize) ∨
        0 < ptr ∧ ∃ bs' u, Allocated h bs layout ptr h' bs' u) := by
  induction rounds generalizing h minSize with
  | zero =>
    have := searchIndex_lt minSize
    omega
  | succ n ih =>
    rw [search]
    simp only
    rcases hl.candidate minSize with ⟨hzero, hno⟩ |
      ⟨xs, c, ys, rfl, hfr, hfd, hcls, hend, hbk⟩
    · rw [if_pos hzero]
      exact ⟨0, h, rfl, Or.inl ⟨rfl, hl.unchanged, fun _ b hb hus _ => hno b hb hus⟩⟩
    have hc : c ∈ xs ++ c :: ys := by simp
    obtain ⟨hmin, hmax, hne, -⟩ := hl.bounded.block hl.tiles hc
    have hgd := hl.good havail
    rw [hfd, if_neg hne, hend]
    -- a free block in a class after that of the request bounds what the request needs
    have hrm : h.stop + kernelHeapSize ≤ wordBound → ∀ b ∈ xs ++ c :: ys,
        searchIndex layout.minBlockSize < classIndex b.size → ∃ payload header stop,
          placeIn c.start layout = some (payload, header, stop) ∧
          stop ≤ c.start + layout.minBlockSize := by
      intro hlow b hb hlt
      obtain ⟨hbmin, hbmax, -⟩ := hl.bounded.block hl.tiles hb
      have hle := le_of_searchIndex_lt hbmin hbmax hlt
      have hsp := (hl.tiles.mem hc).2.1
      simp only [minFreeBlock] at hmin
      exact exists_placeIn hal (Nat.pos_of_ne_zero hne)
        (hl.tiles.dvd_start hl.bounded.aligned hc) (by omega)
    cases hplace : placeIn c.start layout with
    | none =>
      refine ⟨0, _, rfl, Or.inl ⟨rfl, hbk, fun hlow b hb _ hlt => ?_⟩⟩
      obtain ⟨_, _, _, hso, -⟩ := hrm hlow b hb hlt
      rw [hplace] at hso
      cases hso
    | some place =>
      obtain ⟨payload, header, stop⟩ := place
      simp only
      by_cases hti : c.stop < stop
      · rw [if_pos hti, hbk.loose.blockSize hc]
        -- the class of the next search is the one after the class of the block
        have hnx := searchIndex_nextClassMin hmin hmax
        obtain ⟨ptr, h', heq, hres⟩ := ih (nextClassMin c.size) (by omega) hbk.loose
          (hbk.span.available.trans havail)
        refine ⟨ptr, h', heq, ?_⟩
        rcases hres with ⟨hptr, hun, hcm⟩ | ⟨hptr, bs', u, hall⟩
        · refine Or.inl ⟨hptr, hbk.trans hun, fun hlow b hb hus hlt => ?_⟩
          have hlt' := hcm (hbk.span.stop ▸ hlow) b hb hus hlt
          -- the block was too tight, so it is in the class of the request at most
          obtain ⟨_, _, _, hso, hle⟩ := hrm hlow b hb hlt
          rw [hplace, Option.some.injEq, Prod.mk.injEq, Prod.mk.injEq] at hso
          have hgt : searchIndex layout.minBlockSize < classIndex c.size := by omega
          have hft := le_of_searchIndex_lt hmin hmax hgt
          simp only [Block.stop] at hti
          omega
        · exact Or.inr ⟨hptr, bs', u, { hall with quiet := hbk.quiet.trans hall.quiet }⟩
      · rw [if_neg hti]
        have hall := allocated_of_carve hgd hfr hal hplace (Nat.not_lt.mp hti)
        obtain ⟨hpay, -⟩ := placeIn_eq_some hal (Nat.pos_of_ne_zero hne) hplace
        exact ⟨payload, _, rfl, Or.inr ⟨by omega, _, _, hall⟩⟩

/-- **A call of the allocator returns**, with a request cut out of a free block or with the
blocks as they were. -/
theorem allocateLocked_spec (hal : ∃ k, layout.align = 2 ^ k) (hgd : Good h bs) :
    ∃ ptr h', h.allocateLocked layout = some (ptr, h') ∧
      (ptr = 0 ∧ Good h' bs ∧ Quiet bs h.mem h'.mem ∨
        0 < ptr ∧ ∃ bs' u, Allocated h bs layout ptr h' bs' u) := by
  obtain ⟨lists, hl⟩ := hgd.loose
  obtain ⟨ptr, h', heq, hres⟩ := search_spec hal searchBound layout.minBlockSize (by
    simp only [listCount, searchBound]
    omega) hl hgd.available
  refine ⟨ptr, h', heq, hres.imp_left ?_⟩
  rintro ⟨hptr, hun, -⟩
  exact ⟨hptr, hun.loose.good (hun.span.available.trans hgd.available), hun.quiet⟩

end Protofire.Tlsf.Heap
