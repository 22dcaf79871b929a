import Protofire.Lib.Linked
import Protofire.Tlsf.Classes

/-!
# The free lists

The links of the free lists are words of the free blocks. `Listed` reads them off the memory as
one list of addresses for each class, and says that the bitmaps tell which of them have a block.
A block is put at the head of the list of its class and taken out of it wherever it is; both
change the memory only where free blocks have their links and the bytes behind them, and the
search returns the head of a list from the class of the request on.
-/

namespace Protofire.Tlsf.Heap

open Bitmap Bytes Function List

/-- The free lists, one for each class, with the bitmaps that tell which have a block. -/
structure Listed (h : Heap) (lists : ℕ → List ℕ) : Prop where
  linked : ∀ i, Linked h.blockNextFree (h.freeLists i) (lists i)
  word : ∀ i, ∀ x ∈ lists i, x < wordBound
  slBit : ∀ f s, s < slCount →
    ((h.slBitmaps f).getLsbD s = true ↔ lists (f * slCount + s) ≠ [])
  flBit : ∀ f, f < flCount →
    (h.flBitmap.getLsbD f = true ↔ ∃ s < slCount, lists (f * slCount + s) ≠ [])

variable {h : Heap} {lists : ℕ → List ℕ} {x size : ℕ}

theorem classIndex_eq (size : ℕ) :
    classIndex size = ((mapping size).1 - flMin) * slCount + (mapping size).2 := rfl

variable {f s f' s' : ℕ}

/-- Two numbers of lists are equal if both levels are. -/
theorem index_inj (hs : s < slCount) (hs' : s' < slCount) :
    f * slCount + s = f' * slCount + s' ↔ f = f' ∧ s = s' := by
  simp only [slCount] at *
  omega

/-- The lists after one of them has changed, by the two levels of their numbers. -/
theorem update_index {α : Type} (g : ℕ → α) (l : α) (hs : s < slCount) (hs' : s' < slCount) :
    update g (f * slCount + s) l (f' * slCount + s') =
      if f' = f ∧ s' = s then l else g (f' * slCount + s') := by
  simp only [update_apply, index_inj hs' hs]

variable {h' : Heap}

theorem blockSize_congr (hw : h'.mem.word x = h.mem.word x) : h'.blockSize x = h.blockSize x := by
  rw [blockSize, blockSize, blockRawSize, blockRawSize, hw]

/-- The lists do not depend on words that are no links. -/
theorem Listed.congr (hl : Listed h lists) (hlists : h'.freeLists = h.freeLists)
    (hsl : h'.slBitmaps = h.slBitmaps) (hfl : h'.flBitmap = h.flBitmap)
    (hnx : ∀ i, ∀ y ∈ lists i, h'.blockNextFree y = h.blockNextFree y) : Listed h' lists where
  linked i := by
    rw [hlists]
    exact (hl.linked i).congr (hnx i)
  word := hl.word
  slBit := by
    rw [hsl]
    exact hl.slBit
  flBit := by
    rw [hfl]
    exact hl.flBit

variable {lists' : ℕ → List ℕ}

/-- The second-level bitmaps tell which lists have a block and nothing else. -/
theorem Listed.slBitmaps_eq (hl : Listed h lists) (hl' : Listed h' lists')
    (hso : ∀ i, lists' i ≠ [] ↔ lists i ≠ []) : h'.slBitmaps = h.slBitmaps := by
  funext f
  refine BitVec.eq_of_getLsbD_eq fun s hs => ?_
  rw [Bool.eq_iff_iff, hl.slBit f s hs, hl'.slBit f s hs, hso]

variable {a : ℕ}

theorem Listed.setWord (hl : Listed h lists) (v : ℕ)
    (hap : ∀ i, ∀ y ∈ lists i, y + 24 ≤ a ∨ a + 8 ≤ y + 16) : Listed (h.setWord a v) lists :=
  hl.congr rfl rfl rfl fun i y hy => word_setWord_of_apart _ _ (by
    have := hap i y hy
    simp only [freeNextOffset, headerSize]
    omega)

/-! ### Putting a block on a list -/

section

variable (hsz : h.blockSize x = size)
include hsz

/-- What `insertFreeBlock` does to a block of a known size. -/
theorem insertFreeBlock_eq (hmin : minFreeBlock ≤ size) : h.insertFreeBlock x = { h with
      mem := (h.mem.setWord (x + 16) (h.freeLists (classIndex size))).clear (x + 24)
        (min (x + freshZeroBytes) (x + size))
      freeLists := update h.freeLists (classIndex size) x
      flBitmap := h.flBitmap ||| 1#32 <<< ((mapping size).1 - flMin)
      slBitmaps := update h.slBitmaps ((mapping size).1 - flMin)
        (h.slBitmaps ((mapping size).1 - flMin) ||| 1#32 <<< (mapping size).2) } := by
  have hwd : (h.blockSetNextFree x (h.freeLists (classIndex size))).mem.word x =
      h.mem.word x := by
    simp only [blockSetNextFree, freeNextOffset, headerSize]
    exact word_setWord_of_apart _ _ (by omega)
  have hsz' := (blockSize_congr hwd).trans hsz
  have hnot : ¬h.blockSize x < minFreeBlock := by omega
  unfold insertFreeBlock
  rw [if_neg hnot]
  simp only [hsz, zeroFreshHeaderRegion]
  simp only [classIndex] at hsz'
  simp only [hsz']
  rfl

/-- A block on a list has changed behind its header only. -/
theorem insertFreeBlock_mem_apart (hmin : minFreeBlock ≤ size)
    {k : ℕ} (hk : k < x + 16 ∨ x + size ≤ k) : (h.insertFreeBlock x).mem k = h.mem k := by
  rw [insertFreeBlock_eq hsz hmin]
  simp only [minFreeBlock] at hmin
  simp only
  rw [clear_apply_of_apart _ (by omega), setWord_apply_of_apart _ _ (by omega)]

theorem insertFreeBlock_word_apart (hmin : minFreeBlock ≤ size)
    (ha : a + 8 ≤ x + 16 ∨ x + size ≤ a) : (h.insertFreeBlock x).mem.word a = h.mem.word a :=
  word_congr fun _ _ _ => insertFreeBlock_mem_apart hsz hmin (by omega)

/-- **A block is put on the list of its class.** -/
theorem Listed.insertFreeBlock (hl : Listed h lists)
    (hmin : minFreeBlock ≤ size) (hmax : size ≤ kernelHeapSize) (hx : x ≠ 0) (hwd : x < wordBound)
    (hap : ∀ i, ∀ y ∈ lists i, y + 24 ≤ x + 16 ∨ x + size ≤ y + 16) : Listed (h.insertFreeBlock x)
      (update lists (classIndex size) (x :: lists (classIndex size))) := by
  have hsl := mapping_snd_lt hmin
  have hfl := mapping_fst_le hmin hmax
  have hnx : ∀ i, ∀ y ∈ lists i, (h.insertFreeBlock x).blockNextFree y = h.blockNextFree y := by
    intro i y hy
    refine insertFreeBlock_word_apart hsz hmin ?_
    have := hap i y hy
    simp only [freeNextOffset, headerSize]
    omega
  have hhd : h.freeLists (classIndex size) < wordBound := by
    by_cases hz : h.freeLists (classIndex size) = 0
    · rw [hz]
      decide
    · obtain ⟨xs, hxs⟩ := (hl.linked (classIndex size)).head_mem hz
      exact hl.word (classIndex size) _ (hxs ▸ mem_cons_self)
  have hse : (h.insertFreeBlock x).blockNextFree x = h.freeLists (classIndex size) := by
    rw [insertFreeBlock_eq hsz hmin]
    simp only [blockNextFree, freeNextOffset, headerSize]
    rw [word_congr fun k _ _ => clear_apply_of_apart _ (by omega), word_setWord _ hhd]
  have hlists : (h.insertFreeBlock x).freeLists =
      update h.freeLists (classIndex size) x := by rw [insertFreeBlock_eq hsz hmin]
  constructor
  · intro i
    rw [hlists]
    by_cases hi : i = classIndex size
    · subst hi
      rw [update_self, update_self]
      exact ((hl.linked _).congr (hnx _)).cons hx hse
    · rw [update_of_ne hi, update_of_ne hi]
      exact (hl.linked i).congr (hnx i)
  · intro i y hy
    by_cases hi : i = classIndex size
    · subst hi
      rw [update_self] at hy
      rcases mem_cons.mp hy with rfl | hy
      · exact hwd
      · exact hl.word _ y hy
    · rw [update_of_ne hi] at hy
      exact hl.word i y hy
  · intro f s hs
    rw [insertFreeBlock_eq hsz hmin, classIndex_eq, update_index _ _ hsl hs]
    by_cases hf : f = (mapping size).1 - flMin
    · subst hf
      simp only [update_self, getLsbD_or_one_shiftLeft _ _ (show _ < 32 from hsl)]
      by_cases hs' : s = (mapping size).2
      · simp [hs']
      · simpa [hs'] using hl.slBit _ s hs
    · simpa [hf] using hl.slBit f s hs
  · intro f hf
    have hfl' : (mapping size).1 - flMin < 32 := by
      simp only [flMax] at *
      omega
    rw [insertFreeBlock_eq hsz hmin, classIndex_eq]
    simp only [getLsbD_or_one_shiftLeft _ _ hfl', Bool.or_eq_true, decide_eq_true_eq]
    constructor
    · rintro (hbit | rfl)
      · obtain ⟨s, hs, hne⟩ := (hl.flBit f hf).mp hbit
        refine ⟨s, hs, ?_⟩
        rw [update_index _ _ hsl hs]
        split
        · simp
        · exact hne
      · refine ⟨_, hsl, ?_⟩
        simp
    · rintro ⟨s, hs, hne⟩
      by_cases hf' : f = (mapping size).1 - flMin
      · exact Or.inr hf'
      rw [update_index _ _ hsl hs, if_neg fun hcon => hf' hcon.1] at hne
      exact Or.inl ((hl.flBit f hf).mpr ⟨s, hs, hne⟩)

end

/-! ### Taking a block off a list -/

/-- The walk ends at the block, with the node before it at hand. -/
theorem unlink_eq (idx : ℕ) {xs ys : List ℕ} (rounds prev current : ℕ)
    (hlk : Linked h.blockNextFree current (xs ++ x :: ys)) (hx : x ∉ xs)
    (hrn : xs.length < rounds) : unlink rounds h idx x prev current = if xs.getLastD prev = 0 then
        { h with freeLists := update h.freeLists idx (h.blockNextFree x) }
      else h.blockSetNextFree (xs.getLastD prev) (h.blockNextFree x) := by
  induction xs generalizing rounds prev current with
  | nil =>
    obtain ⟨n, rfl⟩ : ∃ n, rounds = n + 1 := ⟨rounds - 1, by omega⟩
    obtain ⟨rfl, hne, -⟩ := hlk
    rw [unlink, if_neg hne, if_pos rfl]
    rfl
  | cons y xs ih =>
    obtain ⟨n, rfl⟩ : ∃ n, rounds = n + 1 := ⟨rounds - 1, by omega⟩
    obtain ⟨rfl, hne, hre⟩ := hlk
    have hyx : current ≠ x := fun heq => hx (heq ▸ mem_cons_self)
    rw [unlink, if_neg hne, if_neg hyx, getLastD_cons]
    exact ih n current _ hre (fun hmem => hx (mem_cons_of_mem _ hmem)) (by
      simpa using hrn)

/-- A block is on one list, once, and blocks are far enough apart for their links. -/
structure Spread (lists : ℕ → List ℕ) : Prop where
  nodup : ∀ i, (lists i).Nodup
  unique : ∀ i j, ∀ y ∈ lists i, y ∈ lists j → i = j
  apart : ∀ i j, ∀ y ∈ lists i, ∀ z ∈ lists j, y ≠ z → y + 24 ≤ z + 16 ∨ z + 24 ≤ y + 16

/-- The lists, with one block taken out of the memory but with the bits not yet cleared. -/
theorem unlink_spec (hl : Listed h lists) (hspr : Spread lists) {i : ℕ}
    (hx : x ∈ lists i) {rounds : ℕ} (hrn : (lists i).length ≤ rounds) :
    (∀ j, Linked (unlink rounds h i x 0 (h.freeLists i)).blockNextFree
        ((unlink rounds h i x 0 (h.freeLists i)).freeLists j)
        (update lists i ((lists i).erase x) j)) ∧
      (unlink rounds h i x 0 (h.freeLists i)).slBitmaps = h.slBitmaps ∧
      (unlink rounds h i x 0 (h.freeLists i)).flBitmap = h.flBitmap ∧
      ∀ k, (unlink rounds h i x 0 (h.freeLists i)).mem k ≠ h.mem k →
        ∃ y ∈ lists i, y ≠ x ∧ y + 16 ≤ k ∧ k < y + 24 := by
  obtain ⟨xs, ys, hspl, hxs⟩ : ∃ xs ys, lists i = xs ++ x :: ys ∧ x ∉ xs := by
    obtain ⟨xs, ys, hspl⟩ := append_of_mem hx
    refine ⟨xs, ys, hspl, fun hmem => ?_⟩
    have hnd := hspr.nodup i
    rw [hspl] at hnd
    exact (nodup_append.mp hnd).2.2 x hmem x mem_cons_self rfl
  have hera : (lists i).erase x = xs ++ ys := by
    rw [hspl, erase_append_right _ hxs, erase_cons_head]
  have hlk := hl.linked i
  rw [hspl] at hlk
  have hlen : xs.length < rounds := by
    rw [hspl, length_append, length_cons] at hrn
    omega
  rw [unlink_eq i rounds 0 _ hlk hxs hlen, hera]
  rcases eq_nil_or_concat xs with rfl | ⟨zs, p, rfl⟩
  · -- the block is the head of the list
    simp only [getLastD_nil, if_true] at hlk ⊢
    refine ⟨fun j => ?_, trivial, trivial, fun k hk => absurd rfl hk⟩
    by_cases hj : j = i
    · subst hj
      rw [update_self, update_self]
      exact hlk.2.2
    · rw [update_of_ne hj, update_of_ne hj]
      exact hl.linked j
  rw [concat_eq_append] at *
  have hpmem : p ∈ lists i := by simp [hspl]
  have hpne : p ≠ x := fun heq => hxs (heq ▸ by simp)
  have hp0 : p ≠ 0 := (hl.linked i).ne_zero hpmem
  have hla : (zs ++ [p]).getLastD 0 = p := by simp
  rw [hla, if_neg hp0]
  have hwd : h.blockNextFree x < wordBound := word_lt _ _
  have hse : (h.blockSetNextFree p (h.blockNextFree x)).blockNextFree p =
      h.blockNextFree x := word_setWord _ hwd
  have hoth : ∀ j, ∀ y ∈ lists j, y ≠ p →
      (h.blockSetNextFree p (h.blockNextFree x)).blockNextFree y = h.blockNextFree y := by
    intro j y hy hne
    refine word_setWord_of_apart _ _ ?_
    have := hspr.apart j i y hy p hpmem hne
    omega
  refine ⟨fun j => ?_, rfl, rfl, fun k hk => ⟨p, hpmem, hpne, ?_⟩⟩
  · by_cases hj : j = i
    · subst hj
      rw [update_self]
      have hnd := hspr.nodup j
      rw [hspl] at hnd
      have hnotp : p ∉ zs ++ ys := by
        have hpm : (zs ++ [p] ++ x :: ys).Perm (p :: (zs ++ x :: ys)) := by
          rw [append_assoc]
          exact perm_middle
        have := (nodup_cons.mp (hpm.nodup_iff.mp hnd)).1
        exact fun hmem => this (by grind)
      rw [append_assoc] at hlk ⊢
      exact hlk.unlink hse fun y hy => hoth j y (by
        grind) fun heq => hnotp (heq ▸ hy)
    · rw [update_of_ne hj]
      exact (hl.linked j).congr fun y hy => hoth j y hy fun heq =>
        hj (hspr.unique j i y hy (heq ▸ hpmem))
  · by_contra hcon
    exact hk (setWord_apply_of_apart _ _ (by
      simp only [freeNextOffset, headerSize]
      omega))

/-- The bits of a class after its list has changed. -/
theorem clearBits_spec {fl sl : ℕ} (hsl : sl < slCount) (hfl : flMin ≤ fl ∧ fl ≤ flMax)
    (hlinked : ∀ j, Linked h'.blockNextFree (h'.freeLists j) (lists' j))
    (hwd : ∀ i, ∀ y ∈ lists' i, y < wordBound) (hl : Listed h lists)
    (hslb : h'.slBitmaps = h.slBitmaps) (hflb : h'.flBitmap = h.flBitmap)
    (hsm : ∀ j, j ≠ listIndex fl sl → lists' j = lists j) (hhad : lists (listIndex fl sl) ≠ []) :
    Listed (h'.clearBits fl sl) lists' := by
  have hbit : ∀ f s, s < slCount → ¬(f = fl - flMin ∧ s = sl) →
      lists' (f * slCount + s) = lists (f * slCount + s) := fun f s hs hne =>
    hsm _ fun heq => hne ((index_inj hs hsl).mp heq)
  unfold clearBits
  by_cases hemp : h'.freeLists (listIndex fl sl) = 0
  · rw [if_pos hemp]
    have hnil : lists' ((fl - flMin) * slCount + sl) = [] := ((hlinked _).eq_zero_iff).mp hemp
    have hsl' : sl < 32 := hsl
    have hfl' : fl - flMin < 32 := by
      simp only [flMax] at *
      omega
    -- the second level: the bit of the class is cleared, the others are as they were
    have hnew : ∀ s, s < slCount →
        ((h'.slBitmaps (fl - flMin) &&& ~~~(1#32 <<< sl)).getLsbD s = true ↔
          lists' ((fl - flMin) * slCount + s) ≠ []) := by
      intro s hs
      rw [getLsbD_and_not_one_shiftLeft _ _ hsl', hslb]
      by_cases hss : s = sl
      · simp [hss, hnil]
      rw [hbit _ s hs fun hcon => hss hcon.2]
      simpa [hss] using hl.slBit (fl - flMin) s hs
    have hzero : h'.slBitmaps (fl - flMin) &&& ~~~(1#32 <<< sl) = 0 ↔
        ¬∃ s < slCount, lists' ((fl - flMin) * slCount + s) ≠ [] := by
      rw [← not_iff_not, not_not, ← ne_eq, ne_zero_iff]
      exact exists_congr fun s => and_congr_right fun hs => hnew s hs
    refine ⟨hlinked, hwd, fun f s hs => ?_, fun f hf => ?_⟩
    · by_cases hff : f = fl - flMin
      · subst hff
        simp only [Function.update_self]
        exact hnew s hs
      · simp only [Function.update_of_ne hff, hslb]
        rw [hbit f s hs fun hcon => hff hcon.1]
        exact hl.slBit f s hs
    by_cases hff : f = fl - flMin
    · subst hff
      by_cases hz : h'.slBitmaps (fl - flMin) &&& ~~~(1#32 <<< sl) = 0
      · simp only [if_pos hz, getLsbD_and_not_one_shiftLeft _ _ hfl', decide_true, Bool.not_true,
          Bool.and_false, Bool.false_eq_true, false_iff]
        exact hzero.mp hz
      simp only [if_neg hz, hflb]
      refine iff_of_true ((hl.flBit _ hf).mpr ⟨sl, hsl, hhad⟩) ?_
      by_contra hcon
      exact hz (hzero.mpr hcon)
    have hold : (if h'.slBitmaps (fl - flMin) &&& ~~~(1#32 <<< sl) = 0
        then h'.flBitmap &&& ~~~(1#32 <<< (fl - flMin)) else h'.flBitmap).getLsbD f =
        h.flBitmap.getLsbD f := by
      rw [hflb]
      split
      · simp [getLsbD_and_not_one_shiftLeft _ _ hfl', hff]
      · rfl
    simp only [hold]
    rw [hl.flBit f hf]
    exact exists_congr fun s => and_congr_right fun hs => by
      rw [hbit f s hs fun hcon => hff hcon.1]
  · rw [if_neg hemp]
    have hnot : lists' (listIndex fl sl) ≠ [] := fun hnil =>
      hemp (((hlinked _).eq_zero_iff).mpr hnil)
    have hiff : ∀ f s, s < slCount →
        (lists' (f * slCount + s) ≠ [] ↔ lists (f * slCount + s) ≠ []) := by
      intro f s hs
      by_cases hfs : f = fl - flMin ∧ s = sl
      · obtain ⟨rfl, rfl⟩ := hfs
        exact ⟨fun _ => hhad, fun _ => hnot⟩
      · rw [hbit f s hs hfs]
    refine ⟨hlinked, hwd, fun f s hs => ?_, fun f hf => ?_⟩
    · rw [hslb, hl.slBit f s hs, hiff f s hs]
    rw [hflb, hl.flBit f hf]
    exact exists_congr fun s => and_congr_right fun hs => (hiff f s hs).symm

theorem clearBits_mem (h : Heap) (fl sl : ℕ) : (h.clearBits fl sl).mem = h.mem := by
  unfold clearBits
  split <;> rfl

theorem unlink_flBitmap (h : Heap) (rounds idx prev current : ℕ) :
    (unlink rounds h idx x prev current).flBitmap = h.flBitmap := by
  induction rounds generalizing prev current with
  | zero => rfl
  | succ n ih =>
    rw [unlink]
    split
    · rfl
    split
    · split <;> rfl
    · exact ih current _

/-- Taking a block off its list changes one first-level bit at most. -/
theorem getLsbD_flBitmap_removeFreeBlock (hsz : h.blockSize x = size) (hmin : minFreeBlock ≤ size)
    (hfl : (mapping size).1 - flMin < 32) (hf : f ≠ (mapping size).1 - flMin) :
    (h.removeFreeBlock x).flBitmap.getLsbD f = h.flBitmap.getLsbD f := by
  have hnot : ¬h.blockSize x < minFreeBlock := by omega
  unfold Heap.removeFreeBlock
  rw [if_neg hnot, hsz]
  simp only [clearBits]
  split
  · simp only [unlink_flBitmap]
    split
    · simp [getLsbD_and_not_one_shiftLeft _ _ hfl, hf]
    · rfl
  · rw [unlink_flBitmap]

section Searching

variable (hl : Listed h lists)

include hl

/-- **A block is taken off its list.** The memory changes in the link of another block of the
list at most. -/
theorem Listed.removeFreeBlock (hspr : Spread lists)
    (hsz : h.blockSize x = size) (hmin : minFreeBlock ≤ size) (hmax : size ≤ kernelHeapSize)
    (hx : x ∈ lists (classIndex size)) (hbd : (lists (classIndex size)).length ≤ h.listBound) :
    Listed (h.removeFreeBlock x)
      (update lists (classIndex size) ((lists (classIndex size)).erase x)) ∧
    ∀ k, (h.removeFreeBlock x).mem k ≠ h.mem k →
      ∃ y ∈ lists (classIndex size), y ≠ x ∧ y + 16 ≤ k ∧ k < y + 24 := by
  have hnot : ¬h.blockSize x < minFreeBlock := by omega
  obtain ⟨hlinked, hslb, hflb, hmem⟩ := unlink_spec hl hspr hx hbd
  have heq : h.removeFreeBlock x = (unlink h.listBound h (classIndex size) x 0
      (h.freeLists (classIndex size))).clearBits (mapping size).1 (mapping size).2 := by
    unfold Heap.removeFreeBlock
    rw [if_neg hnot, hsz]
    rfl
  rw [heq, clearBits_mem]
  refine ⟨clearBits_spec (mapping_snd_lt hmin) (mapping_fst_le hmin hmax) hlinked ?_ hl hslb hflb
    (fun j hj => update_of_ne hj _ _) (ne_nil_of_mem hx), hmem⟩
  intro i y hy
  by_cases hi : i = classIndex size
  · subst hi
    rw [update_self] at hy
    exact hl.word _ y (mem_of_mem_erase hy)
  · rw [update_of_ne hi] at hy
    exact hl.word i y hy

/-! ### The search -/

variable {i : ℕ}

theorem Listed.head_cons (hne : lists i ≠ []) : ∃ xs, lists i = h.freeLists i :: xs :=
  (hl.linked i).head_mem fun hz => hne ((hl.linked i).eq_zero_iff.mp hz)

theorem Listed.head_mem (hne : lists i ≠ []) : h.freeLists i ∈ lists i := by
  obtain ⟨xs, hxs⟩ := hl.head_cons hne
  rw [hxs]
  exact mem_cons_self

theorem Listed.findFrom {startFl sl : ℕ}
    (hfl : flMin ≤ startFl ∧ startFl ≤ flMax) (hsl : sl < slCount) : (h.findFrom startFl sl = 0 ∧
      ∀ i, listIndex startFl sl ≤ i → i < listCount → lists i = []) ∨
    ∃ i, listIndex startFl sl ≤ i ∧ i < listCount ∧ lists i ≠ [] ∧
      h.findFrom startFl sl = h.freeLists i := by
  have hsl' : sl < 32 := hsl
  simp only [Heap.findFrom]
  split
  · -- a second-level class of the same first-level one
    rename_i hmask
    obtain ⟨hlt, hbit⟩ := getLsbD_trailingZeros hmask
    rw [getLsbD_and_not_below _ _ hsl', Bool.and_eq_true, decide_eq_true_eq] at hbit
    refine Or.inr ⟨_, Nat.add_le_add_left hbit.2 _, ?_, (hl.slBit _ _ hlt).mp hbit.1, rfl⟩
    simp only [listCount, flCount, slCount] at *
    omega
  rename_i hrow
  have hidx : startFl - flMin + 1 < 32 := by
    simp only [flMax] at *
    omega
  have hflBit : ∀ f, (h.flBitmap &&& (1#32 <<< flCount - 1) &&&
      ~~~(1#32 <<< (startFl - flMin + 1) - 1)).getLsbD f = true ↔
      (h.flBitmap.getLsbD f = true ∧ f < flCount) ∧ startFl - flMin + 1 ≤ f := by
    intro f
    rw [getLsbD_and_not_below _ _ hidx, BitVec.getLsbD_and,
      getLsbD_one_shiftLeft_sub_one (show flCount < 32 by decide), Bool.and_eq_true,
      Bool.and_eq_true, decide_eq_true_eq, decide_eq_true_eq]
  split
  swap
  · -- no class above has a block either
    rename_i hmask
    refine Or.inl ⟨rfl, fun i hle hlt => ?_⟩
    obtain ⟨f, s, hs, rfl⟩ : ∃ f s, s < slCount ∧ i = f * slCount + s :=
      ⟨i / slCount, i % slCount, Nat.mod_lt _ (by decide), (Nat.div_add_mod' i slCount).symm⟩
    by_contra hne
    by_cases hf : f = startFl - flMin
    · refine hrow ((ne_zero_iff _).mpr ⟨s, hs, ?_⟩)
      rw [getLsbD_and_not_below _ _ hsl', Bool.and_eq_true, decide_eq_true_eq, ← hf]
      refine ⟨(hl.slBit f s hs).mpr hne, ?_⟩
      rw [listIndex, ← hf] at hle
      omega
    have hbd : f < flCount ∧ startFl - flMin + 1 ≤ f := by
      simp only [listIndex, listCount, slCount] at *
      omega
    have hbit := (hl.flBit f hbd.1).mpr ⟨s, hs, hne⟩
    have hfl32 : f < 32 := Nat.lt_trans hbd.1 (by decide)
    exact hmask ((ne_zero_iff _).mpr ⟨f, hfl32, (hflBit f).mpr ⟨⟨hbit, hbd.1⟩, hbd.2⟩⟩)
  -- a first-level class above
  rename_i hmask
  obtain ⟨-, hbit⟩ := getLsbD_trailingZeros hmask
  generalize trailingZeros (h.flBitmap &&& (1#32 <<< flCount - 1) &&&
    ~~~(1#32 <<< (startFl - flMin + 1) - 1)) = bit at hbit ⊢
  obtain ⟨⟨hset, hlt⟩, hle⟩ := (hflBit bit).mp hbit
  obtain ⟨s, hs, hso⟩ := (hl.flBit bit hlt).mp hset
  have hslm : h.slBitmaps bit ≠ 0 := (ne_zero_iff _).mpr ⟨s, hs, (hl.slBit bit s hs).mpr hso⟩
  rw [if_pos hslm]
  obtain ⟨hlt', hslBit⟩ := getLsbD_trailingZeros hslm
  refine Or.inr ⟨_, ?_, ?_, (hl.slBit _ _ hlt').mp hslBit, rfl⟩
  · simp only [listIndex, slCount] at *
    omega
  · simp only [listCount, slCount] at *
    omega

/-- **The search finds the head of a list** from the class of the request on; it finds nothing
only if all these lists are empty. -/
theorem Listed.findSuitableBlock (minSize : ℕ) : (h.findSuitableBlock minSize = 0 ∧
      ∀ i, searchIndex minSize ≤ i → i < listCount → lists i = []) ∨
    ∃ i, searchIndex minSize ≤ i ∧ i < listCount ∧ lists i ≠ [] ∧
      h.findSuitableBlock minSize = h.freeLists i := by
  by_cases hsml : minSize < 1 <<< flMin
  · simp only [Heap.findSuitableBlock, searchIndex, if_pos hsml]
    exact hl.findFrom (by decide) (by decide)
  simp only [Heap.findSuitableBlock, searchIndex, if_neg hsml]
  refine hl.findFrom ⟨?_, Nat.min_le_right ..⟩ (mapping_snd_lt (Nat.not_lt.mp hsml))
  simp only [flMin, flMax]
  omega

end Searching

end Protofire.Tlsf.Heap
