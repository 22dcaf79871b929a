import Protofire.Tlsf.Coalesce

/-!
# Deallocating

The block of a pointer is the one before it, or the one the forwarding word before it names.
A pointer that was handed out, with its block's canary and forwarding word as they were written,
is taken back: the block becomes free, is merged with a free block beside it and goes on the
list of its class.
-/

namespace Protofire.Tlsf

open Bool Bytes List

section Coalesced

variable {xs ys xs' ys' : List Block} {c e : Block}

/-- Coalescing keeps the free bytes, and the merged block is free. -/
theorem Coalesced.freeBytes_eq (h : Coalesced xs c ys xs' e ys') (hc : c.used = false) :
    freeBytes (xs' ++ e :: ys') = freeBytes (xs ++ c :: ys) ∧ e.used = false := by
  cases h with
  | prev hd =>
    simp only [freeBytes_append, freeBytes_cons, freeBytes_nil, hd, hc, false_eq_true, if_false]
    exact ⟨by omega, trivial⟩
  | next _ hn =>
    simp only [freeBytes_append, freeBytes_cons, hn, hc, false_eq_true, if_false]
    exact ⟨by omega, trivial⟩
  | alone => exact ⟨rfl, hc⟩

/-- Coalescing keeps the used blocks. -/
theorem Coalesced.mem_iff (h : Coalesced xs c ys xs' e ys') (hc : c.used = false) {b : Block}
    (hb : b.used = true) : b ∈ xs' ++ e :: ys' ↔ b ∈ xs ++ ys := by
  have hne : ∀ d : Block, d.used = false → b ≠ d := by
    rintro d hd rfl
    rw [hd] at hb
    cases hb
  have he := hne e (h.freeBytes_eq hc).2
  cases h with
  | prev hd | next _ hn | alone =>
    simp only [mem_append, mem_cons]
    tauto

end Coalesced

theorem Tiles.freeBytes_le {start stop : ℕ} {bs : List Block} (h : Tiles start bs stop) :
    start + freeBytes bs ≤ stop := by
  induction bs generalizing start with
  | nil => simpa using Nat.le_of_eq h
  | cons b bs ih =>
    obtain ⟨rfl, -, -, hre⟩ := h
    have := ih hre
    rw [freeBytes_cons]
    simp only [Block.stop] at this
    split <;> omega

namespace Heap

variable {h : Heap} {xs ys : List Block} {c u : Block} {ptr : ℕ} {layout : Layout}

/-- **The block of a pointer is found.** -/
theorem headerOf_eq (hgd : Good h (xs ++ u :: ys)) (ho : Owns h.mem u ptr layout) :
    h.headerOf ptr (ptr - 16) = u.start := by
  have hu : u ∈ xs ++ u :: ys := by simp
  have hraw := hgd.tagged.raw_eq hu
  obtain ⟨hstart, hsp, hmin, hdvd⟩ := hgd.tiles.mem hu
  obtain ⟨hsz, hus⟩ := blockSize_of_raw hraw hdvd
  have haln := hgd.tiles.dvd_start hgd.bounded.aligned hu
  have hrm := ho.room
  simp only [Block.stop] at hrm
  rcases ho.place with hptr | ⟨hptr, hfwd⟩
  · -- the first word of the block is odd
    have hnom : ptr - 16 = u.start := by omega
    have hodd : h.mem.word u.start % heapBlockAlignment ≠ 0 := by
      rw [hraw, Block.raw, ho.used]
      simp only [heapBlockAlignment, toNat_true] at *
      omega
    rw [hnom, headerOf]
    rw [if_pos (by omega), if_neg fun hcon => hodd hcon.2.2.1]
  · have hnom : ptr - 16 = u.start + 16 := by omega
    rw [hnom, headerOf]
    simp only [hfwd, hus, ho.used]
    rw [if_pos (by omega), if_pos, if_pos]
    · exact ⟨trivial, by simp only [headerSize]; omega, by omega, by omega, by omega⟩
    · exact ⟨hstart, by omega, Nat.mod_eq_zero_of_dvd haln, rfl⟩

/-- The heap with the block of a pointer marked free and counted. -/
theorem detached_of_clear (hgd : Good h (xs ++ u :: ys)) (hus : u.used = true) (avail : ℕ) :
    ∃ lists, Detached (({ h with available := avail } : Heap).blockClearUsed u.start) xs
      ⟨u.start, u.size, false⟩ ys lists := by
  obtain ⟨lists, hli, hon⟩ := hgd.listed
  have hu : u ∈ xs ++ u :: ys := by simp
  obtain ⟨hstart, hsp, hmin, hdvd⟩ := hgd.tiles.mem hu
  obtain ⟨hsz, -⟩ := blockSize_of_raw (hgd.tagged.raw_eq hu) hdvd
  have hlt := hgd.bounded.stop_lt
  have heq : ({ h with available := avail }).blockClearUsed u.start =
      ({ h with available := avail }).setWord u.start u.size := by
    have hsz' : ({ h with available := avail }).blockSize u.start = u.size := hsz
    rw [blockClearUsed, hsz']
  obtain ⟨htxs, -, -, htys⟩ := tiles_append_cons.mp hgd.tiles
  obtain ⟨htagxs, hraw, htag, htagys⟩ := tagged_append.mp hgd.tagged
  rw [heq]
  have hkp : ∀ k, k < u.start ∨ u.start + 8 ≤ k →
      (({ h with available := avail }).setWord u.start u.size).mem k = h.mem k :=
    fun k hk => setWord_apart _ _ hk
  have hon' : OnLists (xs ++ ys) lists := hon.congr fun b hb => by
    have hne : b ≠ u := fun heq => by
      rw [heq, hus] at hb
      cases hb
    simp only [mem_append, mem_cons]
    tauto
  refine ⟨lists, ⟨hgd.bounded.pos, hgd.bounded.aligned, hgd.bounded.stop_eq, hlt⟩,
    tiles_append_cons.mpr ⟨htxs, by simpa [minFreeBlock] using hmin, hdvd, htys⟩, ?_, ?_, hon', rfl⟩
  · rw [tagged_append]
    refine ⟨htagxs.before htxs fun k hk => hkp k (by omega), ?_, ?_, ?_⟩
    · exact word_setWord_self _ _ (by omega)
    · rw [← htag]
      simp only
      exact word_congr fun k _ _ => hkp k (by omega)
    · refine htagys.congr fun b hb => ?_
      have := (htys.mem hb).1
      simp only [Block.stop] at this
      exact ⟨word_congr fun k _ _ => hkp k (by omega), word_congr fun k _ _ => hkp k (by omega)⟩
  · have hli' : Listed { h with available := avail } lists :=
      hli.congr rfl rfl rfl fun _ _ _ => rfl
    refine hli'.setWord _ fun i y hy => ?_
    obtain ⟨b, hb, -, rfl, -⟩ := (hon'.mem_iff i y).mp hy
    have := hgd.tiles.away hb
    simp only [Block.stop] at this
    omega

/-- The word before a pointer has no flag once the block of the pointer is marked free: it is the
header or the forwarding word. -/
theorem unused_of_clear (hgd : Good h (xs ++ u :: ys)) (ho : Owns h.mem u ptr layout)
    (avail : ℕ) :
    (({ h with available := avail } : Heap).blockClearUsed u.start).blockIsUsed (ptr - 16) =
      false := by
  rcases ho.place with hptr | ⟨hptr, hfwd⟩
  · obtain ⟨lists, hd⟩ := detached_of_clear hgd ho.used avail
    rw [show ptr - 16 = u.start by omega]
    exact (blockSize_of_mem hd.tagged hd.tiles (mem_append_right _ mem_cons_self)).2
  have haln := hgd.tiles.dvd_start hgd.bounded.aligned (mem_append_right _ mem_cons_self)
  rw [show ptr - 16 = u.start + 16 by omega, blockIsUsed, blockRawSize, blockClearUsed,
    word_setWord_apart _ _ (by omega)]
  simp only [heapBlockAlignment] at haln
  simp only [bne_eq_false_iff_eq]
  omega

/-- The header and the link of a block that goes on its list have no flag, and no word behind them
gets one. -/
theorem Detached.unused {lists : ℕ → List ℕ} (hd : Detached h xs c ys lists) {a : ℕ}
    (ha : a = c.start ∨ a = c.start + 16 ∨ c.start + 32 ≤ a ∧ h.blockIsUsed a = false) :
    (h.insertFreeBlock c.start).blockIsUsed a = false := by
  have hc : c ∈ xs ++ c :: ys := by simp
  obtain ⟨hmin, -⟩ := hd.bounded.block hd.tiles hc
  obtain ⟨hsz, -⟩ := blockSize_of_mem hd.tagged hd.tiles hc
  obtain ⟨hl, -⟩ := hd.attach
  rcases ha with rfl | rfl | ⟨ha, hfr⟩
  · exact (blockSize_of_mem hl.tagged hl.tiles hc).2.trans hd.free
  · have hlk := hl.listed.linked (classIndex c.size)
    rw [Function.update_self] at hlk
    have heven : (h.insertFreeBlock c.start).blockNextFree c.start % 2 = 0 := by
      by_cases hz : (h.insertFreeBlock c.start).blockNextFree c.start = 0
      · rw [hz]
      obtain ⟨rest, hre⟩ := hlk.2.2.head_mem hz
      obtain ⟨b, hb, -, hstart, -⟩ := (hd.onLists.mem_iff _ _).mp (hre ▸ mem_cons_self)
      have := hd.tiles.dvd_start hd.bounded.aligned (mem_append_cons hb)
      simp only [heapBlockAlignment] at this
      omega
    simpa [blockIsUsed, blockRawSize, blockNextFree, freeNextOffset, headerSize] using heven
  · simp only [blockIsUsed, blockRawSize, word_mod_two] at hfr ⊢
    rw [insertFreeBlock_eq hsz hmin]
    simp only [clear]
    split
    · rfl
    · rw [setWord_apply_of_apart _ _ (by omega), hfr]

/-- **A pointer that was handed out is taken back**, and the other used blocks do not change. The
word before the pointer has no flag then. -/
theorem deallocateLocked_spec (hgd : Good h (xs ++ u :: ys)) (ho : Owns h.mem u ptr layout) :
    ∃ h' xs' e ys', h.deallocateLocked ptr = .ok (true, h') ∧
      Coalesced xs ⟨u.start, u.size, false⟩ ys xs' e ys' ∧ Good h' (xs' ++ e :: ys') ∧
      Quiet (xs ++ ys) h.mem h'.mem ∧ h'.blockIsUsed (ptr - 16) = false := by
  have hu : u ∈ xs ++ u :: ys := by simp
  obtain ⟨hstart, hsp, hmin, hdvd⟩ := hgd.tiles.mem hu
  obtain ⟨hsz, hus⟩ := blockSize_of_raw (hgd.tagged.raw_eq hu) hdvd
  rw [ho.used] at hus
  have hhdr := headerOf_eq hgd ho
  have hrm := ho.room
  have hptr : u.start + 16 ≤ ptr := by
    rcases ho.place with h | ⟨h, -⟩ <;> omega
  have hnom : checkedSub ptr headerSize = some (ptr - 16) :=
    checkedSub_eq_some.mpr ⟨by simp only [headerSize]; omega, rfl⟩
  have hcan : h.canaryCheck u.start = .ok () := by
    have hwd : h.mem.word (u.start + u.size - canarySize) = canaryValue := ho.canary
    simp only [canaryCheck, hsz, hwd]
    rw [if_neg (by simp only [canarySize]; omega), if_neg (by simp)]
  obtain ⟨lists, hd⟩ := detached_of_clear hgd ho.used (saturatingAdd h.available u.size)
  generalize hh₂ :
    ({ h with available := saturatingAdd h.available u.size }).blockClearUsed u.start = h₂ at hd
  have hclear : h₂.blockIsUsed (ptr - 16) = false := hh₂ ▸ unused_of_clear hgd ho _
  obtain ⟨xs', e, ys', hco, hres, hm, hstay⟩ := coalesce_spec hd
  have heq : h.deallocateLocked ptr =
      .ok (true, (h₂.coalesce u.start).1.insertFreeBlock e.start) := by
    simp only [deallocateLocked, hnom, hhdr, hsz, hus, hcan]
    rw [if_neg (by omega), if_neg (by omega), if_neg (by simp only [headerSize]; omega),
      if_neg (by simp), hh₂, hres]
  obtain ⟨lists', hd'⟩ := hm.detached
  obtain ⟨hfr, heus⟩ := hco.freeBytes_eq rfl
  -- the count is the sum over the blocks, and that is within the span
  have havail : (h₂.coalesce u.start).1.available = freeBytes (xs' ++ e :: ys') := by
    have hle := hd.tiles.freeBytes_le
    have hlt := hgd.bounded.stop_lt
    have hsn : h₂.start = h.start ∧ h₂.stop = h.stop ∧
        h₂.available = saturatingAdd h.available u.size := by
      rw [← hh₂]
      exact ⟨rfl, rfl, rfl⟩
    rw [hm.same.available, hsn.2.2, hfr, hgd.available]
    simp only [saturatingAdd, freeBytes_append, freeBytes_cons, ho.used, false_eq_true,
      if_false, if_true] at hle ⊢
    omega
  obtain ⟨hon, hwi⟩ := hd'.attach
  refine ⟨_, xs', e, ys', heq, hco,
    hon.good ((sameSpan_insertFreeBlock _ e.start).available.trans havail), ?_, hd'.unused ?_⟩
  rotate_left
  · simp only [Block.stop] at hrm hstay
    rcases hstay with he | ⟨hle, hkp⟩
    · rcases ho.place with rfl | ⟨rfl, -⟩
      · exact Or.inl (by omega)
      · exact Or.inr (Or.inl (by omega))
    · refine Or.inr (Or.inr ⟨by omega, ?_⟩)
      rw [← hclear, blockIsUsed, blockIsUsed, blockRawSize, blockRawSize,
        Bytes.word_congr fun k h₁ h₂ => hkp k (by omega) (by omega)]
  intro v hv hvus k hk hk'
  have hclear : h₂.mem k = h.mem k := by
    rw [← hh₂]
    refine setWord_apart _ _ ?_
    have := hgd.tiles.side hv
    omega
  rw [hwi.quiet hd'.tiles v ((hco.mem_iff rfl hvus).mpr hv) hvus k hk hk',
    hm.quiet v (mem_append_cons hv) hvus k hk hk', hclear]

end Heap

end Protofire.Tlsf
