import Protofire.Tlsf.Blocks

/-!
# Allocating

A request is cut out of a free block: what lies before it becomes a free block of its own or
padding, what lies behind it becomes a free block or is handed out with it (`cut`). The cuts
write only between the ends of the free block and to the tag of the block after it, so the
headers and the links elsewhere stay as they were, and the blocks of the heap after the cut are
those before it with the free block replaced by its parts.

The search for the free block goes up the classes: a block that is too tight for the alignment
is put back and the next search starts one class higher, so it ends.
-/

namespace Protofire.Tlsf

open Bytes List

/-! ### The parts of a block -/

section Cut

variable (c : Block) (header stop : ℕ)

/-- The free block before a request. -/
def frontPart : List Block :=
  if minFreeBlock ≤ header - c.start then [⟨c.start, header - c.start, false⟩] else []

/-- Where the block of a request starts: at its header, or at the start of the free block if the
bytes between them are too few for a block. -/
def partStart : ℕ := if minFreeBlock ≤ header - c.start then header else c.start

/-- Where the block of a request ends. -/
def partStop : ℕ := if minFreeBlock ≤ c.stop - stop then stop else c.stop

/-- The block of a request. -/
def usedPart : Block :=
  ⟨partStart c header, partStop c stop - partStart c header, true⟩

/-- The free block behind a request. -/
def backPart : List Block :=
  if minFreeBlock ≤ c.stop - stop then [⟨stop, c.stop - stop, false⟩] else []

/-- The parts of a free block that a request is cut out of. -/
def cut : List Block := frontPart c header ++ usedPart c header stop :: backPart c stop

end Cut

/-- Where a request lies in a free block. -/
structure Fits (c : Block) (header stop : ℕ) : Prop where
  start_le : c.start ≤ header
  aligned : heapBlockAlignment ∣ header
  room : header + minFreeBlock ≤ stop
  stop_aligned : heapBlockAlignment ∣ stop
  stop_le : stop ≤ c.stop

namespace Heap

variable {h : Heap} {x size : ℕ}

/-- The flag is the lowest bit of a size. -/
theorem or_flag (hsz : heapBlockAlignment ∣ size) {flag : ℕ} (hfg : flag < 2) :
    size ||| flag = size + flag := by
  obtain ⟨k, rfl⟩ := hsz
  have hpow : heapBlockAlignment * k = 2 ^ 1 * (8 * k) := by
    simp only [heapBlockAlignment]
    omega
  rw [hpow]
  exact (Nat.two_pow_add_eq_or_of_lt hfg _).symm

theorem setWord_setWord (h : Heap) (a v w : ℕ) : (h.setWord a v).setWord a w = h.setWord a w := by
  simp only [Heap.setWord, Bytes.setWord_setWord]

/-- The header of a free block. -/
theorem markFree (hsz : heapBlockAlignment ∣ size) (hlt : size + 1 < wordBound) :
    (h.blockSetSize x size).blockClearUsed x = h.setWord x size := by
  have hfg : h.blockRawSize x % 2 < 2 := Nat.mod_lt _ (by decide)
  have hraw : (h.blockSetSize x size).blockRawSize x = size + h.blockRawSize x % 2 := by
    rw [blockSetSize, or_flag hsz hfg]
    exact word_setWord _ (by simp only [wordBound] at hlt; omega)
  have hclear : (h.blockSetSize x size).blockSize x = size := by
    simp only [heapBlockAlignment] at *
    rw [blockSize]
    omega
  rw [blockClearUsed, hclear, blockSetSize, setWord_setWord]

/-- The header of a used block. -/
theorem markUsed (hsz : heapBlockAlignment ∣ size) (hlt : size + 1 < wordBound) :
    (h.blockSetSize x size).blockSetUsed x = h.setWord x (size + 1) := by
  have hfg : h.blockRawSize x % 2 < 2 := Nat.mod_lt _ (by decide)
  have hraw : (h.blockSetSize x size).blockRawSize x = size ||| h.blockRawSize x % 2 := by
    refine word_setWord _ ?_
    rw [or_flag hsz hfg]
    simp only [wordBound] at hlt
    omega
  have hor : (size ||| h.blockRawSize x % 2) ||| 1 = size + 1 := by
    rw [Nat.or_assoc, ← or_flag hsz (by decide)]
    have : h.blockRawSize x % 2 = 0 ∨ h.blockRawSize x % 2 = 1 := by omega
    rcases this with h0 | h0 <;> rw [h0] <;> rfl
  rw [blockSetUsed, hraw, hor, blockSetSize, setWord_setWord]

variable {v : ℕ}

/-- The words of the memory after a write. -/
theorem word_setWord_self (h : Heap) (a : ℕ) (hv : v < wordBound) :
    (h.setWord a v).mem.word a = v := word_setWord _ hv

variable {a : ℕ}

theorem word_setWord_apart (h : Heap) {a' : ℕ} (v : ℕ) (ha : a' + 8 ≤ a ∨ a + 8 ≤ a') :
    (h.setWord a v).mem.word a' = h.mem.word a' := word_setWord_of_apart _ _ ha

theorem setWord_apart (h : Heap) {k : ℕ} (v : ℕ) (hk : k < a ∨ a + 8 ≤ k) :
    (h.setWord a v).mem k = h.mem k := setWord_apply_of_apart _ _ hk

theorem blockSize_of_word {n : ℕ} (hw : h.mem.word x = n) (hn : heapBlockAlignment ∣ n) :
    h.blockSize x = n := by
  simp only [heapBlockAlignment] at *
  rw [blockSize, blockRawSize]
  omega

theorem blockSize_of_word_succ {n : ℕ} (hw : h.mem.word x = n + 1) (hn : heapBlockAlignment ∣ n) :
    h.blockSize x = n := by
  simp only [heapBlockAlignment] at *
  rw [blockSize, blockRawSize]
  omega

/-! ### Cutting the front -/

variable {xs ys : List Block} {c : Block} {lists : ℕ → List ℕ} {header stop : ℕ}

/-- Where the free block lies. -/
structure Placed (h : Heap) (c : Block) : Prop where
  pos : 0 < c.start
  start_le : h.start ≤ c.start
  stop_le : c.stop ≤ h.stop
  stop_lt : c.stop < wordBound
  aligned : heapBlockAlignment ∣ c.start
  stop_aligned : heapBlockAlignment ∣ c.stop
  size_le : c.size ≤ kernelHeapSize

theorem Bounded.placed {bs : List Block} (hb : Bounded h) (htiles : Tiles h.start bs h.stop)
    (hc : c ∈ bs) : Placed h c := by
  obtain ⟨hstart, hsp, -, hdvd⟩ := htiles.mem hc
  have h₁ := hb.pos
  have haln := htiles.dvd_start hb.aligned hc
  exact ⟨by omega, hstart, hsp, Nat.lt_of_le_of_lt hsp hb.stop_lt, haln,
    Nat.dvd_add haln hdvd, (hb.block htiles hc).2.1⟩

theorem Detached.placed (hd : Detached h xs c ys lists) : Placed h c :=
  hd.bounded.placed hd.tiles (by simp)

/-- The blocks on the lists are away from the one that is on none. -/
theorem Detached.far (hd : Detached h xs c ys lists) (i : ℕ) {y : ℕ} (hy : y ∈ lists i) :
    y + 32 ≤ c.start ∨ c.stop ≤ y := by
  obtain ⟨b, hb, -, rfl, -⟩ := (hd.onLists.mem_iff i y).mp hy
  exact hd.tiles.away hb

/-- What is known after the front of a block has been cut. -/
structure FrontCut (h : Heap) (xs : List Block) (c : Block) (ys : List Block) (header stop : ℕ)
    (h' : Heap) : Prop where
  same : SameSpan h h'
  keep : ∀ k, k < c.start ∨ c.start + 8 ≤ k ∧ k < c.start + 16 ∨ header + 8 ≤ k →
    h'.mem k = h.mem k
  used : h'.mem.word (partStart c header) = (usedPart c header stop).raw
  front : minFreeBlock ≤ header - c.start → h'.mem.word c.start = header - c.start
  forward : header = c.start + 16 → h'.mem.word header = c.start
  listed : ∃ lists, Listed h' lists ∧ OnLists (xs ++ frontPart c header ++ ys) lists

/-- The front is cut for the block of the request. -/
def CarvesFront (h : Heap) (xs : List Block) (c : Block) (ys : List Block) (header stop : ℕ) :
    Prop :=
  (h.carveFront c.start header (partStop c stop)).2 =
    (partStart c header, partStop c stop - partStart c header) ∧
  FrontCut h xs c ys header stop (h.carveFront c.start header (partStop c stop)).1

/-- The end of the block of a request. -/
theorem Placed.partStop_le (hp : Placed h c) (hf : Fits c header stop) : stop ≤ partStop c stop ∧
    partStop c stop ≤ c.stop ∧ heapBlockAlignment ∣ partStop c stop := by
  unfold partStop
  split
  · exact ⟨Nat.le_refl _, hf.stop_le, hf.stop_aligned⟩
  · exact ⟨hf.stop_le, Nat.le_refl _, hp.stop_aligned⟩

/-- Where the request and its block lie. -/
theorem Placed.bounds (hp : Placed h c) (hf : Fits c header stop) : 0 < c.start ∧
    c.start ≤ header ∧ header + 32 ≤ stop ∧ stop ≤ c.stop ∧ c.stop < wordBound :=
  ⟨hp.pos, hf.start_le, hf.room, hf.stop_le, hp.stop_lt⟩

section Carving

variable (hd : Detached h xs c ys lists)

include hd

section

variable (hf : Fits c header stop)
include hf

/-- What lies before the request is a free block. -/
theorem carveFront_of_le
    (hfront : minFreeBlock ≤ header - c.start) : CarvesFront h xs c ys header stop := by
  have hp := hd.placed
  obtain ⟨hle, hle', hdvd⟩ := hp.partStop_le hf
  obtain ⟨hpos, hstart, hrm, -, hlt⟩ := hp.bounds hf
  have hsz := hp.size_le
  have hdvf : heapBlockAlignment ∣ header - c.start := Nat.dvd_sub hf.aligned hp.aligned
  have hdvu : heapBlockAlignment ∣ partStop c stop - header := Nat.dvd_sub hdvd hf.aligned
  have hpa : partStart c header = header := if_pos hfront
  have heq : h.carveFront c.start header (partStop c stop) =
      (((h.setWord c.start (header - c.start)).insertFreeBlock c.start).setWord header
        (partStop c stop - header + 1), header, partStop c stop - header) := by
    simp only [carveFront, if_pos hfront]
    rw [markFree hdvf (by omega), markUsed hdvu (by omega)]
  rw [CarvesFront, heq, hpa]
  refine ⟨rfl, ?_⟩
  have hwd : (h.setWord c.start (header - c.start)).mem.word c.start = header - c.start :=
    word_setWord_self _ _ (by omega)
  have hblk := blockSize_of_word hwd hdvf
  refine ⟨?_, fun k hk => ?_, ?_, fun _ => ?_, fun heq => ?_, ?_⟩
  · exact (sameSpan_setWord ..).trans ((sameSpan_insertFreeBlock ..).trans (sameSpan_setWord ..))
  · simp only [minFreeBlock] at hfront
    rw [setWord_apart _ _ (by omega), insertFreeBlock_mem_apart hblk hfront (by omega),
      setWord_apart _ _ (by omega)]
  · simp only [usedPart, hpa, Block.raw]
    exact word_setWord_self _ _ (by omega)
  · simp only [minFreeBlock] at hfront
    rw [word_setWord_apart _ _ (by omega), insertFreeBlock_word_apart hblk hfront (by omega), hwd]
  · simp only [minFreeBlock] at hfront
    omega
  simp only [frontPart, if_pos hfront]
  have hli := (hd.listed.setWord (header - c.start) fun i y hy => by
      have := hd.far i hy
      omega).insertFreeBlock hblk hfront (by simp only [Block.stop] at *; omega)
    (by omega) (by omega) fun i y hy => by
      have := hd.far i hy
      omega
  -- the new free block goes on its list, away from the header of the request
  refine ⟨_, hli.setWord _ fun i y hy => ?_, ?_⟩
  · by_cases hi : i = classIndex (header - c.start)
    · subst hi
      rw [Function.update_self] at hy
      rcases mem_cons.mp hy with rfl | hy
      · simp only [minFreeBlock] at hfront
        omega
      · have := hd.far _ hy
        omega
    · rw [Function.update_of_ne hi] at hy
      have := hd.far i hy
      omega
  · rw [append_assoc]
    exact hd.onLists.insert (fun _ => hd.tiles.start_ne) rfl

/-- What lies before the request is padding of it, or there is nothing. -/
theorem carveFront_of_lt
    (hfront : ¬minFreeBlock ≤ header - c.start) : CarvesFront h xs c ys header stop := by
  have hp := hd.placed
  obtain ⟨hle, hle', hdvd⟩ := hp.partStop_le hf
  obtain ⟨hpos, hstart, hrm, -, hlt⟩ := hp.bounds hf
  have hpa : partStart c header = c.start := if_neg hfront
  have hdvu : heapBlockAlignment ∣ partStop c stop - c.start := Nat.dvd_sub hdvd hp.aligned
  have hcas : header = c.start ∨ header = c.start + 16 := by
    obtain ⟨i, hi⟩ := hf.aligned
    simp only [heapBlockAlignment, minFreeBlock] at *
    omega
  have heq : h.carveFront c.start header (partStop c stop) =
      (if header = c.start then h.setWord c.start (partStop c stop - c.start + 1)
        else (h.setWord c.start (partStop c stop - c.start + 1)).setWord header c.start,
        c.start, partStop c stop - c.start) := by
    rcases hcas with rfl | hpad
    · simp only [carveFront, Nat.sub_self, Nat.lt_irrefl, if_false, if_true]
      rw [if_neg (by decide), markUsed hdvu (by omega)]
    have hpade : 0 < header - c.start := by omega
    have hne : header ≠ c.start := by omega
    simp only [carveFront, if_neg hfront, if_pos hpade, if_neg hne]
    rw [markUsed hdvu (by omega)]
  have hli : ∀ a, c.start ≤ a → a < c.stop → ∀ i, ∀ y ∈ lists i,
      y + 24 ≤ a ∨ a + 8 ≤ y + 16 := by
    intro a h₁ h₂ i y hy
    have := hd.far i hy
    omega
  rw [CarvesFront, heq, hpa]
  refine ⟨rfl, ?_⟩
  have hraw : (usedPart c header stop).raw = partStop c stop - c.start + 1 := by
    simp only [usedPart, hpa, Block.raw, Bool.toNat_true]
  rcases hcas with rfl | hpad
  · simp only
    refine ⟨sameSpan_setWord .., fun k hk => setWord_apart _ _ (by omega), ?_,
      fun hcon => absurd hcon hfront, fun hcon => by omega, lists, ?_, ?_⟩
    · rw [hpa, hraw]
      exact word_setWord_self _ _ (by omega)
    · exact hd.listed.setWord _ (hli _ (by omega) (by omega))
    · rw [frontPart, if_neg hfront, append_nil]
      exact hd.onLists
  have hne : header ≠ c.start := by omega
  simp only [if_neg hne]
  refine ⟨(sameSpan_setWord ..).trans (sameSpan_setWord ..), fun k hk => ?_, ?_,
    fun hcon => absurd hcon hfront, fun _ => word_setWord_self _ _ (by omega), lists, ?_, ?_⟩
  · rw [setWord_apart _ _ (by omega), setWord_apart _ _ (by omega)]
  · rw [hpa, hraw, word_setWord_apart _ _ (by omega)]
    exact word_setWord_self _ _ (by omega)
  · exact (hd.listed.setWord _ (hli _ (by omega) (by omega))).setWord _
      (hli _ (by omega) (by omega))
  · rw [frontPart, if_neg hfront, append_nil]
    exact hd.onLists

theorem carveFront_spec : CarvesFront h xs c ys header stop := by
  by_cases hfront : minFreeBlock ≤ header - c.start
  · exact carveFront_of_le hd hf hfront
  · exact carveFront_of_lt hd hf hfront

/-! ### Cutting the back -/

/-- The blocks around a request are away from it. -/
theorem Detached.around {b : Block}
    (hb : b ∈ xs ++ frontPart c header ++ ys) : b.start + 32 ≤ header ∨ c.stop ≤ b.start := by
  have hstart := hf.start_le
  have hoth : b ∈ xs ++ ys → b.start + 32 ≤ header ∨ c.stop ≤ b.start := fun hmem =>
    (hd.tiles.away hmem).imp_left (Nat.le_trans · hstart)
  simp only [mem_append, frontPart] at hb
  rcases hb with (hb | hb) | hb
  · exact hoth (mem_append_left _ hb)
  · split at hb
    · obtain rfl := mem_singleton.mp hb
      simp only [minFreeBlock] at *
      omega
    · cases hb
  · exact hoth (mem_append_right _ hb)

end

end Carving

/-- What is known after the back of a block has been cut. -/
structure BackCut (h : Heap) (xs : List Block) (c : Block) (ys : List Block)
    (header stop start : ℕ) (h' : Heap) : Prop where
  same : SameSpan h h'
  keep : ∀ k, k < stop ∨ c.stop ≤ k → h'.mem k = h.mem k
  back : minFreeBlock ≤ c.stop - stop →
    h'.mem.word stop = c.stop - stop ∧ h'.mem.word (stop + 8) = start
  listed : ∃ lists, Listed h' lists ∧
    OnLists (xs ++ frontPart c header ++ (backPart c stop ++ ys)) lists

variable {start : ℕ}

theorem carveBack_spec {h₀ : Heap} (hd : Detached h₀ xs c ys lists) (hf : Fits c header stop)
    (hstart : start < wordBound)
    (hli : ∃ lists, Listed h lists ∧ OnLists (xs ++ frontPart c header ++ ys) lists) :
    BackCut h xs c ys header stop start (h.carveBack start stop c.stop) := by
  have hp := hd.placed
  obtain ⟨hpos, hstar, hrm, hle, hlt⟩ := hp.bounds hf
  have hsz := hp.size_le
  obtain ⟨lists', hl, hon⟩ := hli
  have hfar : ∀ i, ∀ y ∈ lists' i, y + 32 ≤ header ∨ c.stop ≤ y := by
    intro i y hy
    obtain ⟨b, hb, -, rfl, -⟩ := (hon.mem_iff i y).mp hy
    exact hd.around hf hb
  by_cases hbk : minFreeBlock ≤ c.stop - stop
  swap
  · simp only [carveBack, if_neg hbk]
    refine ⟨⟨rfl, rfl, rfl⟩, fun _ _ => rfl, fun hcon => absurd hcon hbk, lists', hl, ?_⟩
    rw [backPart, if_neg hbk]
    exact hon
  have hdvd : heapBlockAlignment ∣ c.stop - stop := Nat.dvd_sub hp.stop_aligned hf.stop_aligned
  simp only [carveBack, if_pos hbk, blockSetPrevPhys]
  rw [markFree hdvd (by omega)]
  have hwd : ((h.setWord stop (c.stop - stop)).setWord (stop + 8) start).mem.word stop =
      c.stop - stop := by
    rw [word_setWord_apart _ _ (by omega)]
    exact word_setWord_self _ _ (by omega)
  have hblk := blockSize_of_word hwd hdvd
  have hins := ((hl.setWord (c.stop - stop) fun i y hy => by
      have := hfar i y hy
      omega).setWord start fun i y hy => by
      have := hfar i y hy
      omega).insertFreeBlock hblk hbk (by simp only [Block.stop] at *; omega) (by omega)
    (by omega) fun i y hy => by
      have := hfar i y hy
      omega
  refine ⟨?_, fun k hk => ?_, fun _ => ⟨?_, ?_⟩, _, hins, ?_⟩
  · exact (sameSpan_setWord ..).trans ((sameSpan_setWord ..).trans (sameSpan_insertFreeBlock ..))
  · simp only [minFreeBlock] at hbk
    rw [insertFreeBlock_mem_apart hblk hbk (by omega), setWord_apart _ _ (by omega),
      setWord_apart _ _ (by omega)]
  · rw [insertFreeBlock_word_apart hblk hbk (by omega), hwd]
  · rw [insertFreeBlock_word_apart hblk hbk (by omega)]
    exact word_setWord_self _ _ hstart
  · rw [backPart, if_pos hbk]
    refine hon.insert (fun b hb => ?_) rfl
    have := hd.around hf hb
    simp only [minFreeBlock] at *
    omega

/-! ### The tags around the cuts -/

/-- The last part of a block. -/
def lastPart (c : Block) (stop start : ℕ) : ℕ :=
  if minFreeBlock ≤ c.stop - stop then stop else start

/-- What is known after the tags have been written. -/
structure TagCut (h : Heap) (c : Block) (header stop start : ℕ) (h' : Heap) : Prop where
  same : SameSpan h h'
  lists : h'.freeLists = h.freeLists ∧ h'.slBitmaps = h.slBitmaps ∧ h'.flBitmap = h.flBitmap
  keep : ∀ k, (k < header + 8 ∨ header + 16 ≤ k ∨ ¬minFreeBlock ≤ header - c.start) →
    (k < c.stop + 8 ∨ c.stop + 16 ≤ k ∨ ¬c.stop < h.stop) → h'.mem k = h.mem k
  front : minFreeBlock ≤ header - c.start → h'.mem.word (header + 8) = c.start
  next : c.stop < h.stop → h'.mem.word (c.stop + 8) = lastPart c stop start

theorem fixPrevPhys_spec (hp : Placed h c) (hf : Fits c header stop) (hstart : start < wordBound)
    (hbk : minFreeBlock ≤ c.stop - stop → h.mem.word stop = c.stop - stop) :
    TagCut h c header stop start (h.fixPrevPhys c.start header start stop c.stop) := by
  obtain ⟨-, hstar, hrm, hle, hlt⟩ := hp.bounds hf
  have hla : lastPart c stop start < wordBound := by
    unfold lastPart
    split <;> omega
  -- the tag of the request, and then the tag of the block after the free block
  have heq : h.fixPrevPhys c.start header start stop c.stop =
      (fun g : Heap =>
        if c.stop < h.stop then g.setWord (c.stop + 8) (lastPart c stop start) else g)
        (if minFreeBlock ≤ header - c.start then h.setWord (header + 8) c.start else h) := by
    have hsp : ∀ g : Heap, g.stop = h.stop → (minFreeBlock ≤ c.stop - stop →
        g.blockSize stop = c.stop - stop) →
        (if minFreeBlock ≤ c.stop - stop then g.blockSetPrevPhysOfNext stop stop
          else if c.stop < g.stop then g.blockSetPrevPhys c.stop start else g) =
        if c.stop < h.stop then g.setWord (c.stop + 8) (lastPart c stop start) else g := by
      intro g hg hsz
      by_cases hb : minFreeBlock ≤ c.stop - stop
      · have hend : stop + g.blockSize stop = c.stop := by
          omega
        simp only [if_pos hb, lastPart, blockSetPrevPhysOfNext, hend, hg, blockSetPrevPhys]
      · simp only [if_neg hb, lastPart, hg, blockSetPrevPhys]
    have hdvd : heapBlockAlignment ∣ c.stop - stop := Nat.dvd_sub hp.stop_aligned hf.stop_aligned
    simp only [fixPrevPhys]
    by_cases hfront : minFreeBlock ≤ header - c.start
    · simp only [if_pos hfront, blockSetPrevPhys]
      refine hsp _ rfl fun hb => blockSize_of_word ?_ hdvd
      rw [word_setWord_apart _ _ (by omega)]
      exact hbk hb
    · simp only [if_neg hfront]
      exact hsp _ rfl fun hb => blockSize_of_word (hbk hb) hdvd
  rw [heq]
  by_cases hfront : minFreeBlock ≤ header - c.start <;> by_cases hnx : c.stop < h.stop <;>
    simp only [if_pos, hfront, hnx]
  · refine ⟨(sameSpan_setWord ..).trans (sameSpan_setWord ..), ⟨rfl, rfl, rfl⟩, fun k h₁ h₂ => ?_,
      fun _ => ?_, fun _ => word_setWord_self _ _ hla⟩
    · rw [setWord_apart _ _ (by omega), setWord_apart _ _ (by omega)]
    rw [word_setWord_apart _ _ (by omega)]
    exact word_setWord_self _ _ (by omega)
  · exact ⟨sameSpan_setWord .., ⟨rfl, rfl, rfl⟩, fun k h₁ h₂ => setWord_apart _ _ (by omega),
      fun _ => word_setWord_self _ _ (by omega), fun hcon => absurd hcon hnx⟩
  · exact ⟨sameSpan_setWord .., ⟨rfl, rfl, rfl⟩, fun k h₁ h₂ => setWord_apart _ _ (by omega),
      fun hcon => absurd hcon hfront, fun _ => word_setWord_self _ _ hla⟩
  · exact ⟨⟨rfl, rfl, rfl⟩, ⟨rfl, rfl, rfl⟩, fun _ _ _ => rfl, fun hcon => absurd hcon hfront,
      fun hcon => absurd hcon hnx⟩

/-! ### The whole cut -/

/-- What is known after a request has been cut out of a free block. -/
structure Carved (h : Heap) (xs : List Block) (c : Block) (ys : List Block) (header stop : ℕ)
    (h' : Heap) : Prop where
  start_eq : h'.start = h.start
  stop_eq : h'.stop = h.stop
  available : h'.available = h.available - (usedPart c header stop).size
  outside : ∀ k, k < c.start ∨ c.stop ≤ k →
    (k < c.stop + 8 ∨ c.stop + 16 ≤ k ∨ ¬c.stop < h.stop) → h'.mem k = h.mem k
  tag : h'.mem.word (c.start + 8) = h.mem.word (c.start + 8)
  used : h'.mem.word (partStart c header) = (usedPart c header stop).raw
  usedTag : minFreeBlock ≤ header - c.start → h'.mem.word (header + 8) = c.start
  front : minFreeBlock ≤ header - c.start → h'.mem.word c.start = header - c.start
  forward : header = c.start + 16 → h'.mem.word header = c.start
  back : minFreeBlock ≤ c.stop - stop →
    h'.mem.word stop = c.stop - stop ∧ h'.mem.word (stop + 8) = partStart c header
  next : c.stop < h.stop → h'.mem.word (c.stop + 8) = lastPart c stop (partStart c header)
  canary : h'.mem.word (partStop c stop - 8) = canaryValue
  listed : ∃ lists, Listed h' lists ∧
    OnLists (xs ++ frontPart c header ++ (backPart c stop ++ ys)) lists

theorem partStart_cases (hp : Placed h c) (hf : Fits c header stop) :
    c.start ≤ partStart c header ∧ partStart c header ≤ header ∧
      heapBlockAlignment ∣ partStart c header := by
  unfold partStart
  split
  · exact ⟨hf.start_le, Nat.le_refl _, hf.aligned⟩
  · exact ⟨Nat.le_refl _, hf.start_le, hp.aligned⟩

theorem carve_spec (hd : Detached h xs c ys lists) (hf : Fits c header stop) :
    Carved h xs c ys header stop (h.carve c.start header stop c.stop) := by
  have hp := hd.placed
  obtain ⟨hle, hle', hdvd⟩ := hp.partStop_le hf
  obtain ⟨hpos, hstar, hrm, -, hlt⟩ := hp.bounds hf
  obtain ⟨hpa₁, hpa₂, hpa₃⟩ := partStart_cases hp hf
  obtain ⟨hres, hfront⟩ := carveFront_spec hd hf
  generalize hg₁ : h.carveFront c.start header (partStop c stop) = r₁ at hres hfront
  obtain ⟨h₁, s, n⟩ := r₁
  obtain ⟨rfl, rfl⟩ : s = partStart c header ∧ n = partStop c stop - partStart c header := by
    simpa using hres
  simp only at hfront
  have hsml : partStart c header < wordBound := by omega
  have hbk := carveBack_spec hd hf hsml hfront.listed
  generalize hg₂ : h₁.carveBack (partStart c header) stop c.stop = h₂ at hbk
  have hp₂ : Placed h₂ c := by
    obtain ⟨h₁, h₂, h₃, h₄, h₅, h₆, h₇⟩ := hp
    exact ⟨h₁, by rw [hbk.same.start, hfront.same.start]; exact h₂,
      by rw [hbk.same.stop, hfront.same.stop]; exact h₃, h₄, h₅, h₆, h₇⟩
  have htag := fixPrevPhys_spec hp₂ hf hsml fun hb => (hbk.back hb).1
  generalize hg₃ : h₂.fixPrevPhys c.start header (partStart c header) stop c.stop = h₃ at htag
  have hcar : h.carve c.start header stop c.stop =
      { h₃.canaryWrite (partStart c header) with
        available := h₃.available - (partStop c stop - partStart c header) } := by
    have hend : (if minFreeBlock ≤ c.stop - stop then stop else c.stop) = partStop c stop := rfl
    simp only [carve, hend, hg₁, hg₂, hg₃]
    rfl
  -- words before the end of the request go back to the front, the others to the back
  have hwd₂ : ∀ a, a + 8 ≤ stop ∨ c.stop ≤ a → h₂.mem.word a = h₁.mem.word a := fun a ha =>
    word_congr fun k _ _ => hbk.keep k (by omega)
  have hwd₃ : ∀ a, a + 8 ≤ header + 8 ∨ header + 16 ≤ a ∧ a + 8 ≤ c.stop + 8 →
      h₃.mem.word a = h₂.mem.word a := fun a ha =>
    word_congr fun k _ _ => htag.keep k (by omega) (by omega)
  have hus : h₃.mem.word (partStart c header) = (usedPart c header stop).raw := by
    rw [hwd₃ _ (by omega), hwd₂ _ (by omega), hfront.used]
  have hsz : h₃.blockSize (partStart c header) = partStop c stop - partStart c header :=
    blockSize_of_word_succ hus (Nat.dvd_sub hdvd hpa₃)
  have hcan : (h.carve c.start header stop c.stop).mem =
      h₃.mem.setWord (partStop c stop - 8) canaryValue := by
    rw [hcar, canaryWrite, hsz]
    have : partStart c header + (partStop c stop - partStart c header) - canarySize =
        partStop c stop - 8 := by
      simp only [canarySize]
      omega
    rw [this]
    rfl
  have hwd₄ : ∀ a, a + 8 ≤ partStop c stop - 8 ∨ partStop c stop ≤ a →
      (h.carve c.start header stop c.stop).mem.word a = h₃.mem.word a := by
    intro a ha
    rw [hcan]
    exact word_setWord_of_apart _ _ (by omega)
  have hsn := hfront.same.trans (hbk.same.trans htag.same)
  have hsp₂ : h₂.stop = h.stop := hbk.same.stop.trans hfront.same.stop
  have hpas : minFreeBlock ≤ c.stop - stop → partStop c stop = stop := fun hb => if_pos hb
  refine ⟨?_, ?_, ?_, fun k hk hk' => ?_, ?_, ?_, fun hb => ?_, fun hb => ?_, fun heq => ?_,
    fun hb => ?_, fun hn => ?_, ?_, ?_⟩
  · rw [hcar]
    exact hsn.start
  · rw [hcar]
    exact hsn.stop
  · rw [hcar, ← hsn.available]
    rfl
  · rw [hcan, setWord_apply_of_apart _ _ (by omega),
      htag.keep k (by omega) (by rw [hsp₂]; exact hk'), hbk.keep k (by omega),
      hfront.keep k (by omega)]
  · rw [hwd₄ _ (by omega)]
    refine word_congr fun k hk hk' => ?_
    rw [htag.keep k (by simp only [minFreeBlock]; omega) (by omega), hbk.keep k (by omega),
      hfront.keep k (by omega)]
  · rw [hwd₄ _ (by omega), hus]
  · rw [hwd₄ _ (by omega), htag.front hb]
  · rw [hwd₄ _ (by omega), hwd₃ _ (by omega), hwd₂ _ (by omega), hfront.front hb]
  · rw [hwd₄ _ (by omega), hwd₃ _ (by omega), hwd₂ _ (by omega), hfront.forward heq]
  · have hps := hpas hb
    have hb' := hb
    simp only [minFreeBlock] at hb'
    rw [hwd₄ _ (by omega), hwd₃ _ (by omega), hwd₄ _ (by omega), hwd₃ _ (by omega)]
    exact hbk.back hb
  · rw [hwd₄ _ (by omega)]
    exact htag.next (hsp₂ ▸ hn)
  · rw [hcan]
    exact word_setWord _ (by decide)
  · obtain ⟨lists', hl, hon⟩ := hbk.listed
    have hlk : ∀ i, ∀ y ∈ lists' i, y + 32 ≤ header ∨ c.stop ≤ y ∨
        y = stop ∧ y + 32 ≤ c.stop ∧ partStop c stop = stop := by
      intro i y hy
      obtain ⟨b, hb, -, rfl, -⟩ := (hon.mem_iff i y).mp hy
      by_cases hmem : b ∈ xs ++ frontPart c header ++ ys
      · exact (hd.around hf hmem).imp_right Or.inl
      have hbm : b ∈ backPart c stop := by
        simp only [mem_append] at hb hmem
        tauto
      unfold backPart at hbm
      split at hbm
      · rename_i hbk'
        obtain rfl := mem_singleton.mp hbm
        have hps := hpas hbk'
        simp only [minFreeBlock] at hbk'
        exact Or.inr (Or.inr ⟨rfl, by simp only; omega, hps⟩)
      · cases hbm
    have hl₃ : Listed h₃ lists' := hl.congr htag.lists.1 htag.lists.2.1 htag.lists.2.2
      fun i y hy => by
        have := hlk i y hy
        refine word_congr fun k hk hk' => htag.keep k ?_ ?_
        all_goals
          simp only [freeNextOffset, headerSize] at *
          omega
    refine ⟨lists', ?_, hon⟩
    rw [hcar]
    refine (hl₃.congr rfl rfl rfl fun i y hy => ?_)
    have := hlk i y hy
    have hmem : (h₃.canaryWrite (partStart c header)).mem =
        h₃.mem.setWord (partStop c stop - 8) canaryValue := by
      rw [← hcan, hcar]
    simp only [blockNextFree, hmem, freeNextOffset, headerSize]
    exact word_setWord_of_apart _ _ (by omega)

/-! ### The heap after the cut -/

/-- The block of a request ends where its parts do. -/
theorem usedPart_stop (hp : Placed h c) (hf : Fits c header stop) :
    (usedPart c header stop).stop = partStop c stop := by
  obtain ⟨hle, -⟩ := hp.partStop_le hf
  obtain ⟨-, hpa, -⟩ := partStart_cases hp hf
  have hrm : header + 32 ≤ stop := hf.room
  simp only [usedPart, Block.stop]
  omega

/-- The parts of a block tile it. -/
theorem tiles_cut (hp : Placed h c) (hf : Fits c header stop) :
    Tiles c.start (cut c header stop) c.stop := by
  obtain ⟨hle, hle', hdvd⟩ := hp.partStop_le hf
  obtain ⟨hpa₁, hpa₂, hpa₃⟩ := partStart_cases hp hf
  have hrm : header + 32 ≤ stop := hf.room
  have hsp := usedPart_stop hp hf
  rw [cut, tiles_append_cons, hsp]
  refine ⟨?_, ?_, Nat.dvd_sub hdvd hpa₃, ?_⟩
  · simp only [frontPart, usedPart, partStart]
    split
    · rename_i hfront
      refine ⟨rfl, hfront, Nat.dvd_sub hf.aligned hp.aligned, ?_⟩
      simp only [Tiles, Block.stop]
      omega
    · rfl
  · simp only [usedPart, minFreeBlock]
    omega
  · simp only [backPart, partStop]
    split
    · rename_i hbk
      refine ⟨rfl, hbk, Nat.dvd_sub hp.stop_aligned hf.stop_aligned, ?_⟩
      simp only [Tiles, Block.stop] at *
      omega
    · rfl

/-- The bytes of a block are those of the request and those that stay free. -/
theorem freeBytes_cut (hp : Placed h c) (hf : Fits c header stop) :
    freeBytes (cut c header stop) + (usedPart c header stop).size = c.size := by
  obtain ⟨-, hstart, hrm, hsp, -⟩ := hp.bounds hf
  have hsp' : c.stop = c.start + c.size := rfl
  by_cases hfront : minFreeBlock ≤ header - c.start <;>
    by_cases hbk : minFreeBlock ≤ c.stop - stop <;>
    simp only [cut, freeBytes_append, freeBytes_cons, freeBytes_nil, usedPart, frontPart, backPart,
      partStart, partStop, if_pos, if_neg, hfront, hbk, not_false_eq_true, Bool.false_eq_true]
  all_goals omega

theorem lastStart_cut (prev : ℕ) (c : Block) (header stop : ℕ) :
    lastStart prev (cut c header stop) = lastPart c stop (partStart c header) := by
  simp only [cut, lastStart, foldl_append, backPart, lastPart]
  split <;> rfl

theorem Carved.tagged_cut {h' : Heap} (hc : Carved h xs c ys header stop h') :
    Tagged h'.mem (h.mem.word (c.start + 8)) (cut c header stop) := by
  rw [cut, tagged_append]
  have hbk : Tagged h'.mem (partStart c header) (backPart c stop) := by
    unfold backPart
    split
    · rename_i hbk
      obtain ⟨h₁, h₂⟩ := hc.back hbk
      exact ⟨h₁, h₂, trivial⟩
    · trivial
  by_cases hfront : minFreeBlock ≤ header - c.start
  · have hpa : partStart c header = header := if_pos hfront
    simp only [frontPart, if_pos hfront]
    refine ⟨⟨hc.front hfront, hc.tag, trivial⟩, hc.used, ?_, hbk⟩
    simp only [usedPart, hpa]
    exact hc.usedTag hfront
  · have hpa : partStart c header = c.start := if_neg hfront
    simp only [frontPart, if_neg hfront]
    refine ⟨trivial, hc.used, ?_, hbk⟩
    simp only [usedPart, hpa]
    exact hc.tag

/-- **A request leaves the heap good.** -/
theorem Carved.good {h' : Heap} (hc : Carved h xs c ys header stop h')
    (hd : Detached h xs c ys lists) (hf : Fits c header stop)
    (havail : h.available = freeBytes (xs ++ c :: ys)) :
    Good h' (xs ++ cut c header stop ++ ys) := by
  have hp := hd.placed
  obtain ⟨htxs, hmin, -, htys⟩ := tiles_append_cons.mp hd.tiles
  obtain ⟨hxs, hraw, htag, hys⟩ := tagged_append.mp hd.tagged
  have hboun : Bounded h' := by
    obtain ⟨h₁, h₂, h₃, h₄⟩ := hd.bounded
    exact ⟨hc.start_eq ▸ h₁, hc.start_eq ▸ h₂, by rw [hc.start_eq, hc.stop_eq, h₃], hc.stop_eq ▸ h₄⟩
  refine ⟨hboun, ?_, ?_, ?_, ?_⟩
  · rw [hc.start_eq, hc.stop_eq, append_assoc, tiles_append]
    exact ⟨c.start, htxs, tiles_append.mpr ⟨c.stop, tiles_cut hp hf, htys⟩⟩
  · rw [append_assoc, tagged_append, tagged_append, ← htag, lastStart_cut]
    exact ⟨hxs.before htxs fun k hk => hc.outside k (by omega) (by simp only [Block.stop]; omega),
      hc.tagged_cut, hys.after htys (fun k h₁ h₂ => hc.outside k (by omega) h₂) hc.next⟩
  · obtain ⟨lists', hl, hon⟩ := hc.listed
    refine ⟨lists', hl, hon.congr fun b hus => ?_⟩
    have hne : b ≠ usedPart c header stop := by
      rintro rfl
      cases hus
    simp only [cut, mem_append, mem_cons]
    tauto
  · have hcut := freeBytes_cut hp hf
    rw [hc.available, havail]
    simp only [freeBytes_append, freeBytes_cons, hd.free, Bool.false_eq_true, if_false]
    omega

/-! ### Placing a request -/

theorem checkedAdd_eq_some {b : ℕ} : checkedAdd a b = some v ↔ a + b < wordBound ∧ a + b = v := by
  unfold checkedAdd
  split
  · simp_all
  simp only [reduceCtorEq, false_iff]
  omega

theorem checkedSub_eq_some {b : ℕ} : checkedSub a b = some v ↔ b ≤ a ∧ a - b = v := by
  unfold checkedSub
  split
  · simp_all
  simp only [reduceCtorEq, false_iff]
  omega

theorem alignUp_eq_some {value align : ℕ} (hal : 0 < align) (h : alignUp value align = some v) :
    value ≤ v ∧ align ∣ v ∧ v < wordBound := by
  obtain ⟨sum, hsum, rfl⟩ := Option.map_eq_some_iff.mp h
  obtain ⟨hlt, rfl⟩ := checkedAdd_eq_some.mp hsum
  have hmod := Nat.mod_lt (value + (align - 1)) hal
  exact ⟨by omega, Nat.dvd_sub_mod _, by omega⟩

variable {layout : Layout}

theorem requestedAlign_dvd (hal : ∃ k, layout.align = 2 ^ k) :
    0 < layout.requestedAlign ∧ heapBlockAlignment ∣ layout.requestedAlign ∧
      layout.align ∣ layout.requestedAlign := by
  obtain ⟨k, hk⟩ := hal
  have hpow : heapBlockAlignment = 2 ^ 4 := rfl
  rw [Layout.requestedAlign, hk, hpow]
  rcases Nat.le_total k 4 with hle | hle
  · rw [Nat.max_eq_right (Nat.pow_le_pow_right (by decide) hle)]
    exact ⟨by decide, Nat.dvd_refl _, Nat.pow_dvd_pow 2 hle⟩
  · rw [Nat.max_eq_left (Nat.pow_le_pow_right (by decide) hle)]
    exact ⟨Nat.two_pow_pos k, Nat.pow_dvd_pow 2 hle, Nat.dvd_refl _⟩

/-- A sum with the reserved size would overflow, had that been cut off. -/
theorem reservedSize_of_lt (ha : 0 < a) (h : a + layout.reservedSize < wordBound) :
    layout.reservedSize = max layout.size 1 + 8 := by
  simp only [Layout.reservedSize, saturatingAdd, canarySize] at h ⊢
  omega

/-- **Where a request is placed it has its alignment and its room.** -/
theorem placeIn_eq_some (hal : ∃ k, layout.align = 2 ^ k) (hstart : 0 < start)
    {payload header stop : ℕ} (h : placeIn start layout = some (payload, header, stop)) :
    payload = header + 16 ∧ layout.align ∣ payload ∧ start ≤ header ∧
      heapBlockAlignment ∣ header ∧ header + minFreeBlock ≤ stop ∧ heapBlockAlignment ∣ stop ∧
      payload + layout.size + 8 ≤ stop := by
  obtain ⟨hpos, hdvd₁, hdvd₂⟩ := requestedAlign_dvd hal
  simp only [placeIn, Option.bind_eq_bind, Option.bind_eq_some_iff, Option.pure_def,
    Option.some.injEq, Prod.mk.injEq] at h
  obtain ⟨p, hp, q, hq, r, ⟨r', hr', hr⟩, e, he, rfl, rfl, rfl⟩ := h
  obtain ⟨hp₁, hp₂, -⟩ := alignUp_eq_some hpos hp
  obtain ⟨he₁, he₂, -⟩ := alignUp_eq_some (by decide) he
  obtain ⟨-, rfl⟩ := checkedSub_eq_some.mp hq
  obtain ⟨-, rfl⟩ := checkedAdd_eq_some.mp hr'
  obtain ⟨hlt, rfl⟩ := checkedAdd_eq_some.mp hr
  have hpdvd := Nat.dvd_trans hdvd₁ hp₂
  have hhdr : headerSize = 16 := rfl
  have hrese := reservedSize_of_lt (by omega) hlt
  have hdvh : heapBlockAlignment ∣ p - headerSize := Nat.dvd_sub hpdvd (Nat.dvd_refl _)
  refine ⟨by omega, Nat.dvd_trans hdvd₂ hp₂, by omega, hdvh, ?_, he₂, by omega⟩
  simp only [heapBlockAlignment, minFreeBlock] at *
  omega

theorem exists_alignUp (value : ℕ) {align : ℕ} (hal : 0 < align)
    (h : value + (align - 1) < wordBound) : ∃ v, alignUp value align = some v ∧
      value ≤ v ∧ v ≤ value + (align - 1) ∧ align ∣ v := by
  have heq : alignUp value align =
      some (value + (align - 1) - (value + (align - 1)) % align) := by
    rw [alignUp, checkedAdd_eq_some.mpr ⟨h, rfl⟩, Option.map_some]
  obtain ⟨hle, hdvd, -⟩ := alignUp_eq_some hal heq
  exact ⟨_, heq, hle, Nat.sub_le .., hdvd⟩

/-- **A request fits at every aligned address with the room that is reckoned for it.** -/
theorem exists_placeIn (hal : ∃ k, layout.align = 2 ^ k) (hstart : 0 < start)
    (haln : heapBlockAlignment ∣ start) (hlt : start + layout.minBlockSize < wordBound) :
    ∃ payload header stop, placeIn start layout = some (payload, header, stop) ∧
      stop ≤ start + layout.minBlockSize := by
  obtain ⟨hpos, hdvd, -⟩ := requestedAlign_dvd hal
  -- the sum does not saturate, and it ends in the rounding of the end
  obtain ⟨e, he, hsum, hrnd⟩ : ∃ e < 16,
      layout.minBlockSize = layout.requestedAlign + layout.reservedSize + e ∧
      (layout.reservedSize + e) % 16 = 0 := by
    simp only [Layout.minBlockSize, saturatingAdd, headerSize, heapBlockAlignment, wordBound] at *
    exact ⟨(16 - layout.reservedSize % 16) % 16, by omega, by omega, by omega⟩
  obtain ⟨i, hi⟩ := haln
  obtain ⟨a, ha⟩ := hdvd
  have hwd : wordBound = 16 * 2 ^ 60 := by decide
  simp only [heapBlockAlignment] at hi ha
  obtain ⟨p, hp, hple, hpge, hpdvd⟩ :=
    exists_alignUp (start + headerSize) hpos (by simp only [headerSize]; omega)
  obtain ⟨j, hj⟩ := Nat.dvd_trans ⟨a, ha⟩ hpdvd
  simp only [headerSize] at hple hpge
  obtain ⟨stop, hsp, hsle, hsge, k, hk⟩ :=
    exists_alignUp (p + layout.reservedSize) (show 0 < heapBlockAlignment by decide) (by
      simp only [heapBlockAlignment]
      omega)
  simp only [heapBlockAlignment] at hsge hk
  have hhdr : checkedSub p headerSize = some (p - 16) :=
    checkedSub_eq_some.mpr ⟨by simp only [headerSize]; omega, rfl⟩
  have hbk : checkedAdd (p - 16) headerSize = some p :=
    checkedAdd_eq_some.mpr (by simp only [headerSize]; omega)
  have hend : checkedAdd p layout.reservedSize = some (p + layout.reservedSize) :=
    checkedAdd_eq_some.mpr ⟨by omega, rfl⟩
  refine ⟨p, p - 16, stop, ?_, by omega⟩
  simp only [placeIn, hp, hhdr, hbk, hend, hsp, Option.bind_eq_bind, Option.bind_some,
    Option.pure_def]

end Heap

end Protofire.Tlsf
