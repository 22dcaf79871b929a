import Protofire.Tlsf.Lists

/-!
# The blocks of the heap

The blocks are read off the memory as a list: they tile the span of the heap (`Tiles`), each has
its size and flag in its first word and the start of the block before it in its second
(`Tagged`), and the free ones are those on the free lists, each on the list of its class
(`OnLists`). The three are about different things, the shape, the headers and the links, and an
operation that writes to one part of the memory leaves the others alone; `Good` puts them
together with the count of the free bytes.
-/

namespace Protofire.Tlsf

open Function Heap List Bytes

/-- A block, as its header describes it. -/
structure Block where
  start : ℕ
  size : ℕ
  used : Bool
deriving DecidableEq

namespace Block

/-- The end of a block. -/
def stop (b : Block) : ℕ := b.start + b.size

/-- The first word of a block: the size, with the used flag in the lowest bit. -/
def raw (b : Block) : ℕ := b.size + b.used.toNat

end Block

/-- Blocks, from one address up to another, with sizes a block may have. -/
def Tiles : ℕ → List Block → ℕ → Prop
  | start, [], stop => start = stop
  | start, b :: bs, stop =>
    b.start = start ∧ minFreeBlock ≤ b.size ∧ heapBlockAlignment ∣ b.size ∧ Tiles b.stop bs stop

/-- The start of the last block, or what comes before. -/
def lastStart (prev : ℕ) (bs : List Block) : ℕ := bs.foldl (fun _ b => b.start) prev

/-- The headers of blocks, where the first comes after a given one. -/
def Tagged (m : Bytes) : ℕ → List Block → Prop
  | _, [] => True
  | prev, b :: bs => m.word b.start = b.raw ∧ m.word (b.start + 8) = prev ∧ Tagged m b.start bs

/-- The free blocks are on the lists, each on the list of its class and once. -/
structure OnLists (bs : List Block) (lists : ℕ → List ℕ) : Prop where
  nodup : ∀ i, (lists i).Nodup
  mem_iff : ∀ i x, x ∈ lists i ↔
    ∃ b ∈ bs, b.used = false ∧ b.start = x ∧ classIndex b.size = i

/-- The bytes of the free blocks. -/
def freeBytes (bs : List Block) : ℕ := (bs.map fun b => if b.used then 0 else b.size).sum

theorem freeBytes_append (xs ys : List Block) :
    freeBytes (xs ++ ys) = freeBytes xs + freeBytes ys := by
  simp only [freeBytes, map_append, sum_append]

theorem freeBytes_cons (b : Block) (bs : List Block) :
    freeBytes (b :: bs) = (if b.used then 0 else b.size) + freeBytes bs := by
  simp only [freeBytes, map_cons, sum_cons]

@[simp] theorem freeBytes_nil : freeBytes [] = 0 := rfl

/-! ### Tilings -/

section Tiles

variable {start stop mid : ℕ} {bs xs ys : List Block} {b c : Block}

theorem mem_append_cons (h : b ∈ xs ++ ys) : b ∈ xs ++ c :: ys := by
  simp only [mem_append] at h ⊢
  tauto

theorem tiles_append :
    Tiles start (xs ++ ys) stop ↔ ∃ mid, Tiles start xs mid ∧ Tiles mid ys stop := by
  induction xs generalizing start with
  | nil =>
    constructor
    · exact fun h => ⟨start, rfl, h⟩
    rintro ⟨mid, rfl, h⟩
    exact h
  | cons b xs ih =>
    simp only [cons_append, Tiles, ih]
    constructor
    · rintro ⟨h₁, h₂, h₃, mid, h₄, h₅⟩
      exact ⟨mid, ⟨h₁, h₂, h₃, h₄⟩, h₅⟩
    · rintro ⟨mid, ⟨h₁, h₂, h₃, h₄⟩, h₅⟩
      exact ⟨h₁, h₂, h₃, mid, h₄, h₅⟩

/-- A block in the middle splits a tiling in two. -/
theorem tiles_append_cons : Tiles start (xs ++ b :: ys) stop ↔
    Tiles start xs b.start ∧ minFreeBlock ≤ b.size ∧ heapBlockAlignment ∣ b.size ∧
      Tiles b.stop ys stop := by
  rw [tiles_append]
  constructor
  · rintro ⟨mid, h₁, rfl, h₂⟩
    exact ⟨h₁, h₂⟩
  · rintro ⟨h₁, h₂⟩
    exact ⟨b.start, h₁, rfl, h₂⟩

namespace Tiles

section Tiling

variable (h : Tiles start bs stop)
include h

theorem le : start ≤ stop := by
  induction bs generalizing start with
  | nil => exact Nat.le_of_eq h
  | cons b bs ih =>
    obtain ⟨rfl, -, -, hre⟩ := h
    have := ih hre
    simp only [Block.stop] at this
    omega

/-- A block of a tiling lies in its span. -/
theorem mem (hb : b ∈ bs) :
    start ≤ b.start ∧ b.start + b.size ≤ stop ∧ 32 ≤ b.size ∧ heapBlockAlignment ∣ b.size := by
  obtain ⟨xs, ys, rfl⟩ := append_of_mem hb
  obtain ⟨hxs, hmin, hdvd, hys⟩ := tiles_append_cons.mp h
  exact ⟨hxs.le, hys.le, hmin, hdvd⟩

theorem dvd_stop (hstart : heapBlockAlignment ∣ start) : heapBlockAlignment ∣ stop := by
  induction bs generalizing start with
  | nil => exact h ▸ hstart
  | cons b bs ih =>
    obtain ⟨rfl, -, hdvd, hre⟩ := h
    exact ih hre (Nat.dvd_add hstart hdvd)

theorem dvd_start (hstart : heapBlockAlignment ∣ start) (hb : b ∈ bs) :
    heapBlockAlignment ∣ b.start := by
  obtain ⟨xs, ys, rfl⟩ := append_of_mem hb
  exact (tiles_append_cons.mp h).1.dvd_stop hstart

/-- Two blocks of a tiling are one, or one ends before the other starts. -/
theorem apart (hb : b ∈ bs) (hc : c ∈ bs) : b = c ∨ b.stop ≤ c.start ∨ c.stop ≤ b.start := by
  obtain ⟨xs, ys, rfl⟩ := append_of_mem hb
  obtain ⟨hxs, -, -, hys⟩ := tiles_append_cons.mp h
  rcases mem_append.mp hc with hc | hc
  · exact Or.inr (Or.inr (hxs.mem hc).2.1)
  rcases mem_cons.mp hc with rfl | hc
  · exact Or.inl rfl
  · exact Or.inr (Or.inl (hys.mem hc).1)

end Tiling

section AtBlock

variable (h : Tiles start (xs ++ c :: ys) stop)
include h

/-- The other blocks lie on one side of a block or on the other. -/
theorem side (hb : b ∈ xs ++ ys) : b.stop ≤ c.start ∨ c.stop ≤ b.start := by
  obtain ⟨hxs, -, -, hys⟩ := tiles_append_cons.mp h
  rcases mem_append.mp hb with hb | hb
  · exact Or.inl (hxs.mem hb).2.1
  · exact Or.inr (hys.mem hb).1

theorem away (hb : b ∈ xs ++ ys) : b.start + 32 ≤ c.start ∨ c.stop ≤ b.start := by
  have hmin : 32 ≤ b.size := (h.mem (mem_append_cons hb)).2.2.1
  exact (h.side hb).imp_left (Nat.le_trans (Nat.add_le_add_left hmin _))

theorem start_ne (hb : b ∈ xs ++ ys) : b.start ≠ c.start := by
  have hmin : 32 ≤ c.size := (h.mem (by simp)).2.2.1
  have := h.away hb
  simp only [Block.stop] at this
  omega

end AtBlock

theorem eq_of_start (h : Tiles start bs stop) (hb : b ∈ bs) (hc : c ∈ bs)
    (heq : b.start = c.start) : b = c := by
  have hb' := (h.mem hb).2.2.1
  have hc' := (h.mem hc).2.2.1
  rcases h.apart hb hc with h | h | h
  · exact h
  all_goals
    simp only [Block.stop] at h
    omega

theorem length_mul_le (h : Tiles start bs stop) : start + bs.length * minFreeBlock ≤ stop := by
  induction bs generalizing start with
  | nil => simpa using Nat.le_of_eq h
  | cons b bs ih =>
    obtain ⟨rfl, hmin, -, hre⟩ := h
    have := ih hre
    simp only [Block.stop, length_cons, Nat.add_mul] at this ⊢
    omega

end Tiles

end Tiles

/-! ### Headers -/

section Tagged

variable {m m' : Bytes} {prev : ℕ} {bs xs ys : List Block} {b : Block}

@[simp] theorem lastStart_nil (prev : ℕ) : lastStart prev [] = prev := rfl

@[simp] theorem lastStart_cons (prev : ℕ) (b : Block) (bs : List Block) :
    lastStart prev (b :: bs) = lastStart b.start bs := rfl

theorem tagged_append :
    Tagged m prev (xs ++ ys) ↔ Tagged m prev xs ∧ Tagged m (lastStart prev xs) ys := by
  induction xs generalizing prev with
  | nil => exact ⟨fun h => ⟨trivial, h⟩, fun h => h.2⟩
  | cons b xs ih => simp only [cons_append, Tagged, ih, lastStart_cons, and_assoc]

namespace Tagged

section Headers

variable (h : Tagged m prev bs)
include h

/-- The headers are words of their own. -/
theorem congr (hwd : ∀ b ∈ bs, m'.word b.start = m.word b.start ∧
    m'.word (b.start + 8) = m.word (b.start + 8)) : Tagged m' prev bs := by
  induction bs generalizing prev with
  | nil => trivial
  | cons b bs ih =>
    obtain ⟨h₁, h₂, h₃⟩ := h
    obtain ⟨hw₁, hw₂⟩ := hwd b mem_cons_self
    exact ⟨hw₁.trans h₁, hw₂.trans h₂, ih h₃ fun c hc => hwd c (mem_cons_of_mem _ hc)⟩

/-- What comes before the first block may change, if its second word does. -/
theorem retag {prev' : ℕ} (hfirst : ∀ b ∈ bs.head?, m'.word (b.start + 8) = prev')
    (hraw : ∀ b ∈ bs, m'.word b.start = m.word b.start)
    (htl : ∀ b ∈ bs.tail, m'.word (b.start + 8) = m.word (b.start + 8)) : Tagged m' prev' bs := by
  cases bs with
  | nil => trivial
  | cons b bs =>
    obtain ⟨h₁, -, h₃⟩ := h
    exact ⟨(hraw b mem_cons_self).trans h₁, hfirst b rfl,
      h₃.congr fun c hc => ⟨hraw c (mem_cons_of_mem _ hc), htl c hc⟩⟩

/-- The blocks before an address keep their headers if the memory before it is kept. -/
theorem before {start stop : ℕ} (htiles : Tiles start bs stop)
    (hkp : ∀ k < stop, m' k = m k) : Tagged m' prev bs := by
  refine h.congr fun b hb => ?_
  obtain ⟨-, hsp, hmin, -⟩ := htiles.mem hb
  exact ⟨word_congr fun k _ _ => hkp k (by omega), word_congr fun k _ _ => hkp k (by omega)⟩

/-- The blocks from an address on keep their headers if the memory from there on is kept, up to
the tag of the first of them. -/
theorem after {start stop prev' : ℕ} (htiles : Tiles start bs stop)
    (hkp : ∀ k, start ≤ k → k < start + 8 ∨ start + 16 ≤ k ∨ ¬start < stop → m' k = m k)
    (hfirst : start < stop → m'.word (start + 8) = prev') : Tagged m' prev' bs := by
  cases bs with
  | nil => trivial
  | cons b bs =>
    obtain ⟨rfl, hmin, -, hre⟩ := htiles
    have hle := hre.le
    simp only [Block.stop, minFreeBlock] at hle hmin
    have hfar : ∀ c ∈ bs, b.start + 32 ≤ c.start := by
      intro c hc
      have := (hre.mem hc).1
      simp only [Block.stop] at this
      omega
    refine h.retag (fun c hc => ?_) (fun c hc => ?_) fun c hc => ?_
    · cases hc
      exact hfirst (by omega)
    · rcases mem_cons.mp hc with rfl | hc
      · exact word_congr fun k _ _ => hkp k (by omega) (by omega)
      have := hfar c hc
      exact word_congr fun k _ _ => hkp k (by omega) (by omega)
    · have := hfar c hc
      exact word_congr fun k _ _ => hkp k (by omega) (by omega)

theorem raw_eq (hb : b ∈ bs) : m.word b.start = b.raw := by
  obtain ⟨xs, ys, rfl⟩ := append_of_mem hb
  exact (tagged_append.mp h).2.1

end Headers

end Tagged

end Tagged

/-! ### Free blocks -/

section OnLists

variable {bs xs ys : List Block} {lists : ℕ → List ℕ} {b : Block} {start stop : ℕ}

theorem OnLists.congr (h : OnLists bs lists) {bs' : List Block}
    (hmem : ∀ b, b.used = false → (b ∈ bs' ↔ b ∈ bs)) : OnLists bs' lists where
  nodup := h.nodup
  mem_iff i x := by
    rw [h.mem_iff]
    constructor
    · rintro ⟨b, hb, hus, hre⟩
      exact ⟨b, (hmem b hus).mpr hb, hus, hre⟩
    · rintro ⟨b, hb, hus, hre⟩
      exact ⟨b, (hmem b hus).mp hb, hus, hre⟩

/-- The lists of blocks of a tiling are spread. -/
theorem OnLists.spread {fs : List Block} (h : OnLists fs lists) (hsub : fs ⊆ bs)
    (htiles : Tiles start bs stop) : Spread lists where
  nodup := h.nodup
  unique i j y hi hj := by
    obtain ⟨b, hb, -, rfl, rfl⟩ := (h.mem_iff i y).mp hi
    obtain ⟨c, hc, -, heq, rfl⟩ := (h.mem_iff j b.start).mp hj
    rw [htiles.eq_of_start (hsub hb) (hsub hc) heq.symm]
  apart i j y hi z hj hne := by
    obtain ⟨b, hb, -, rfl, -⟩ := (h.mem_iff i y).mp hi
    obtain ⟨c, hc, -, rfl, -⟩ := (h.mem_iff j z).mp hj
    have hb' := (htiles.mem (hsub hb)).2.2.1
    have hc' := (htiles.mem (hsub hc)).2.2.1
    rcases htiles.apart (hsub hb) (hsub hc) with rfl | hlt | hlt
    · exact absurd rfl hne
    all_goals
      simp only [Block.stop] at hlt
      omega

/-- A free block that comes off its list. -/
theorem OnLists.erase (h : OnLists (xs ++ b :: ys) lists)
    (hne : ∀ c ∈ xs ++ ys, c.start ≠ b.start) :
    OnLists (xs ++ ys) (update lists (classIndex b.size) ((lists
      (classIndex b.size)).erase b.start)) := by
  have hmem : ∀ i x, x ∈ lists i ∧ x ≠ b.start ↔
      ∃ c ∈ xs ++ ys, c.used = false ∧ c.start = x ∧ classIndex c.size = i := by
    intro i x
    rw [h.mem_iff]
    constructor
    · rintro ⟨⟨c, hc, hre⟩, hx⟩
      refine ⟨c, ?_, hre⟩
      have hcb : c ≠ b := fun heq => hx (heq ▸ hre.2.1.symm)
      simp only [mem_append, mem_cons] at hc ⊢
      tauto
    · rintro ⟨c, hc, hre⟩
      exact ⟨⟨c, mem_append_cons hc, hre⟩, hre.2.1 ▸ hne c hc⟩
  constructor
  · intro i
    by_cases hi : i = classIndex b.size
    · subst hi
      rw [update_self]
      exact (h.nodup _).erase _
    · rw [update_of_ne hi]
      exact h.nodup i
  intro i x
  rw [← hmem i x]
  by_cases hi : i = classIndex b.size
  · subst hi
    rw [update_self, (h.nodup _).mem_erase_iff, and_comm]
  rw [update_of_ne hi]
  refine ⟨fun hx => ⟨hx, fun heq => hi ?_⟩, fun hx => hx.1⟩
  obtain ⟨c, hc, -, hstart, rfl⟩ := (h.mem_iff i x).mp hx
  have hcb : c ∉ xs ++ ys := fun hmem => hne c hmem (hstart.trans heq)
  obtain rfl : c = b := by
    simp only [mem_append, mem_cons] at hc hcb
    tauto
  rfl

/-- A free block that goes on the list of its class. -/
theorem OnLists.insert (h : OnLists (xs ++ ys) lists)
    (hfresh : ∀ c ∈ xs ++ ys, c.start ≠ b.start) (hus : b.used = false) :
    OnLists (xs ++ b :: ys) (update lists (classIndex b.size)
      (b.start :: lists (classIndex b.size))) := by
  have hout : ∀ i, b.start ∉ lists i := by
    intro i hmem
    obtain ⟨c, hc, -, heq, -⟩ := (h.mem_iff i b.start).mp hmem
    exact hfresh c hc heq
  have hiff : ∀ i x, (∃ c ∈ xs ++ b :: ys, c.used = false ∧ c.start = x ∧
      classIndex c.size = i) ↔ x ∈ lists i ∨ b.start = x ∧ classIndex b.size = i := by
    intro i x
    rw [h.mem_iff]
    constructor
    · rintro ⟨c, hc, hcu, hre⟩
      simp only [mem_append, mem_cons] at hc
      rcases hc with hc | rfl | hc
      · exact Or.inl ⟨c, mem_append_left _ hc, hcu, hre⟩
      · exact Or.inr hre
      · exact Or.inl ⟨c, mem_append_right _ hc, hcu, hre⟩
    · rintro (⟨c, hc, hre⟩ | hre)
      · refine ⟨c, ?_, hre⟩
        simp only [mem_append] at hc ⊢
        tauto
      · exact ⟨b, by simp, hus, hre⟩
  constructor
  · intro i
    by_cases hi : i = classIndex b.size
    · subst hi
      rw [update_self]
      exact nodup_cons.mpr ⟨hout _, h.nodup _⟩
    · rw [update_of_ne hi]
      exact h.nodup i
  intro i x
  rw [hiff]
  by_cases hi : i = classIndex b.size
  · subst hi
    rw [update_self, mem_cons, or_comm]
    exact or_congr_right ⟨fun heq => ⟨heq.symm, rfl⟩, fun heq => heq.1.symm⟩
  · rw [update_of_ne hi]
    exact ⟨Or.inl, fun hx => hx.resolve_right fun heq => hi heq.2.symm⟩

/-- A list is no longer than the heap has blocks. -/
theorem OnLists.length_le {fs : List Block} (h : OnLists fs lists) (hsub : fs ⊆ bs)
    (htiles : Tiles start bs stop) (i : ℕ) :
    (lists i).length ≤ (stop - start) / minFreeBlock + 1 := by
  have hsub' : lists i ⊆ bs.map Block.start := by
    intro x hx
    obtain ⟨b, hb, -, rfl, -⟩ := (h.mem_iff i x).mp hx
    exact mem_map_of_mem (hsub hb)
  have hle := (subperm_of_subset (h.nodup i) hsub').length_le
  rw [length_map] at hle
  have hbks := htiles.length_mul_le
  have hdiv : bs.length ≤ (stop - start) / minFreeBlock :=
    (Nat.le_div_iff_mul_le (by decide)).mpr (by omega)
  omega

end OnLists

/-! ### The block of a request -/

/-- A block holds a request at a pointer: the payload lies behind the header, and behind a
forwarding word if there is padding, and before the canary. -/
structure Owns (m : Bytes) (u : Block) (ptr : ℕ) (layout : Layout) : Prop where
  used : u.used = true
  aligned : layout.align ∣ ptr
  place : ptr = u.start + 16 ∨ ptr = u.start + 32 ∧ m.word (u.start + 16) = u.start
  room : ptr + layout.size + 8 ≤ u.stop
  canary : m.word (u.stop - 8) = canaryValue

/-- What is in the block behind the header matters, and of the payload nothing does. -/
theorem Owns.congr {m m' : Bytes} {u : Block} {ptr : ℕ} {layout : Layout} (ho : Owns m u ptr layout)
    (hkp : ∀ k, u.start + 16 ≤ k → k < u.stop → ¬(ptr ≤ k ∧ k < ptr + layout.size) →
      m' k = m k) : Owns m' u ptr layout := by
  have hrm := ho.room
  have hptr : u.start + 16 ≤ ptr := by
    rcases ho.place with h | ⟨h, -⟩ <;> omega
  refine ⟨ho.used, ho.aligned, ho.place.imp_right ?_, hrm, ?_⟩
  · rintro ⟨h₁, h₂⟩
    refine ⟨h₁, Eq.trans ?_ h₂⟩
    exact word_congr fun k _ _ => hkp k (by omega) (by omega) (by omega)
  · rw [← ho.canary]
    exact word_congr fun k _ _ => hkp k (by omega) (by omega) (by omega)

/-! ### The heap -/

namespace Heap

variable {h : Heap} {bs : List Block} {b : Block}

/-- The span of the heap is aligned, away from the null address and below the largest one. -/
structure Bounded (h : Heap) : Prop where
  pos : 0 < h.start
  aligned : heapBlockAlignment ∣ h.start
  stop_eq : h.stop = h.start + kernelHeapSize
  stop_lt : h.stop < wordBound

/-- **The invariant of the heap**, with the blocks it is made of. -/
structure Good (h : Heap) (bs : List Block) : Prop where
  bounded : Bounded h
  tiles : Tiles h.start bs h.stop
  tagged : Tagged h.mem 0 bs
  listed : ∃ lists, Listed h lists ∧ OnLists bs lists
  available : h.available = freeBytes bs

/-- The size and the flag in a header are those of the block. -/
theorem blockSize_of_raw (hraw : h.mem.word b.start = b.raw) (hsz : heapBlockAlignment ∣ b.size) :
    h.blockSize b.start = b.size ∧ h.blockIsUsed b.start = b.used := by
  obtain ⟨k, hk⟩ := hsz
  simp only [heapBlockAlignment] at hk
  rw [blockSize, blockIsUsed, blockRawSize, hraw, Block.raw]
  cases b.used with
  | false =>
    simp only [Bool.toNat_false]
    simp only [bne_eq_false_iff_eq]
    omega
  | true =>
    simp only [Bool.toNat_true]
    simp only [bne_iff_ne]
    omega

theorem blockSize_of_mem {tag at' stop : ℕ} (htagged : Tagged h.mem tag bs)
    (htiles : Tiles at' bs stop) (hb : b ∈ bs) :
    h.blockSize b.start = b.size ∧ h.blockIsUsed b.start = b.used :=
  blockSize_of_raw (htagged.raw_eq hb) (htiles.mem hb).2.2.2

/-- The walk passes every block and lands on the end of the heap. -/
theorem checkWalk_eq_ok {prev : Option ℕ} {tag at' : ℕ} (hpv : ∀ p ∈ prev, p = tag)
    (haln : heapBlockAlignment ∣ at') (htiles : Tiles at' bs h.stop)
    (htagged : Tagged h.mem tag bs) {rounds : ℕ} (hrn : bs.length < rounds) :
    checkWalk rounds h prev at' = .ok () := by
  induction bs generalizing prev tag at' rounds with
  | nil =>
    obtain ⟨n, rfl⟩ : ∃ n, rounds = n + 1 := ⟨rounds - 1, by omega⟩
    obtain rfl : at' = h.stop := htiles
    simp [checkWalk]
  | cons b bs ih =>
    obtain ⟨n, rfl⟩ : ∃ n, rounds = n + 1 := ⟨rounds - 1, by omega⟩
    obtain ⟨rfl, hmin, hdvd, hre⟩ := htiles
    obtain ⟨hraw, htag, htags⟩ := htagged
    obtain ⟨hsz, -⟩ := blockSize_of_raw hraw hdvd
    have hle := hre.le
    have hlt : b.start < h.stop := by
      simp only [Block.stop, minFreeBlock] at hle hmin
      omega
    have hcheck : h.checkBlock prev b.start = .ok b.stop := by
      simp only [checkBlock, hsz]
      rw [if_neg (by simpa using Nat.mod_eq_zero_of_dvd haln), if_neg (by omega),
        if_neg (by simpa using Nat.mod_eq_zero_of_dvd hdvd),
        if_neg (by simp only [Block.stop] at hle; omega), if_neg, if_neg]
      · rfl
      · cases prev with
        | none => simp
        | some p => simp [blockPrevPhys, htag, hpv p rfl]
      rintro ⟨hlt', hne⟩
      cases bs with
      | nil =>
        simp only [Tiles, Block.stop] at hre
        omega
      | cons c bs =>
        obtain ⟨hc, -⟩ := hre
        exact hne (by rw [show b.start + b.size = c.start from hc.symm]
                      exact htags.2.1)
    rw [checkWalk, if_pos hlt, hcheck]
    exact ih (fun p hp => (Option.some.inj hp).symm) (Nat.dvd_add haln hdvd) hre htags (by
      simpa using hrn)

/-- **The walk over a good heap finds no defect.** -/
theorem Good.checkInvariants (hgd : Good h bs) : h.checkInvariants = .ok () := by
  have hpos := hgd.bounded.pos
  have hsp := hgd.bounded.stop_eq
  have hsz : 0 < kernelHeapSize := by decide
  rw [Heap.checkInvariants, if_neg (by omega)]
  refine checkWalk_eq_ok (fun _ hp => by cases hp) hgd.bounded.aligned hgd.tiles hgd.tagged ?_
  have hbks := hgd.tiles.length_mul_le
  have hdiv : bs.length ≤ (h.stop - h.start) / minFreeBlock :=
    (Nat.le_div_iff_mul_le (by decide)).mpr (by omega)
  rw [listBound]
  omega

/-! ### Changes behind the headers of free blocks -/

/-- The memory has changed behind the headers of free blocks only. -/
def Within (bs : List Block) (m m' : Bytes) : Prop :=
  ∀ k, m' k ≠ m k → ∃ b ∈ bs, b.used = false ∧ b.start + 16 ≤ k ∧ k < b.stop

section Within

variable {m m' m'' : Bytes} {start stop prev : ℕ} {xs ys : List Block} {c : Block}

theorem Within.trans (h : Within bs m m') (h' : Within bs m' m'') : Within bs m m'' := by
  intro k hk
  by_cases hk' : m' k = m k
  · exact h' k fun heq => hk (heq.trans hk')
  · exact h k hk'

theorem Within.mono {cs : List Block} (h : Within bs m m') (hsub : bs ⊆ cs) : Within cs m m' :=
  fun k hk => (h k hk).imp fun _ hb => ⟨hsub hb.1, hb.2⟩

/-- A byte that is in no free block behind its header is as it was. -/
theorem Within.eq_of_mem (h : Within bs m m') (htiles : Tiles start bs stop) (hb : b ∈ bs) {k : ℕ}
    (hk : b.start ≤ k) (hk' : k < b.stop) (hkp : b.used = true ∨ k < b.start + 16) :
    m' k = m k := by
  by_contra hne
  obtain ⟨c, hc, hus, hle, hlt⟩ := h k hne
  rcases htiles.apart hb hc with rfl | hbc | hbc
  · rcases hkp with hkp | hkp
    · rw [hus] at hkp
      cases hkp
    · omega
  all_goals omega

/-- The headers are kept. -/
theorem Within.tagged (h : Within bs m m') (htiles : Tiles start bs stop)
    (htagged : Tagged m prev bs) : Tagged m' prev bs := by
  refine htagged.congr fun b hb => ?_
  have hmin := (htiles.mem hb).2.2.1
  have hkp : ∀ k, b.start ≤ k → k < b.start + 16 → m' k = m k := fun k h₁ h₂ =>
    h.eq_of_mem htiles hb h₁ (by simp only [Block.stop]; omega) (Or.inr h₂)
  exact ⟨word_congr fun k h₁ h₂ => hkp k h₁ (by omega),
    word_congr fun k h₁ h₂ => hkp k (by omega) (by omega)⟩

end Within

/-- The used blocks have not changed behind their headers. -/
def Quiet (bs : List Block) (m m' : Bytes) : Prop :=
  ∀ u ∈ bs, u.used = true → ∀ k, u.start + 16 ≤ k → k < u.stop → m' k = m k

theorem Quiet.trans {m m' m'' : Bytes} (h : Quiet bs m m') (h' : Quiet bs m' m'') :
    Quiet bs m m'' := fun u hu hus k h₁ h₂ =>
  (h' u hu hus k h₁ h₂).trans (h u hu hus k h₁ h₂)

theorem Within.quiet {m m' : Bytes} {start stop : ℕ} (h : Within bs m m')
    (htiles : Tiles start bs stop) : Quiet bs m m' := fun _ hu hus _ h₁ h₂ =>
  h.eq_of_mem htiles hu (by omega) h₂ (Or.inl hus)

/-! ### Blocks on no list -/

/-- A block of the heap is one a list can hold. -/
theorem Bounded.block (hb : Bounded h) (htiles : Tiles h.start bs h.stop) (hmem : b ∈ bs) :
    minFreeBlock ≤ b.size ∧ b.size ≤ kernelHeapSize ∧ b.start ≠ 0 ∧ b.start < wordBound := by
  obtain ⟨hstart, hsp, hmin, -⟩ := htiles.mem hmem
  have h₁ := hb.pos
  have h₂ := hb.stop_eq
  have h₃ := hb.stop_lt
  exact ⟨hmin, by omega, by omega, by omega⟩

/-- The span and the count of the free bytes are the same. -/
structure SameSpan (h h' : Heap) : Prop where
  start : h'.start = h.start
  stop : h'.stop = h.stop
  available : h'.available = h.available

theorem SameSpan.trans {h' h'' : Heap} (s : SameSpan h h') (s' : SameSpan h' h'') :
    SameSpan h h'' :=
  ⟨s'.start.trans s.start, s'.stop.trans s.stop, s'.available.trans s.available⟩

theorem SameSpan.bounded {h' : Heap} (s : SameSpan h h') (hb : Bounded h) : Bounded h' := by
  obtain ⟨h₁, h₂, h₃, h₄⟩ := hb
  exact ⟨s.start ▸ h₁, s.start ▸ h₂, by rw [s.start, s.stop, h₃], s.stop ▸ h₄⟩

section

variable (h : Heap)

theorem sameSpan_setWord (a v : ℕ) : SameSpan h (h.setWord a v) := ⟨rfl, rfl, rfl⟩

theorem sameSpan_insertFreeBlock (x : ℕ) : SameSpan h (h.insertFreeBlock x) := by
  unfold insertFreeBlock
  simp only
  split <;> exact ⟨rfl, rfl, rfl⟩

theorem sameSpan_unlink (rounds idx x prev current : ℕ) :
    SameSpan h (unlink rounds h idx x prev current) := by
  induction rounds generalizing prev current with
  | zero => exact ⟨rfl, rfl, rfl⟩
  | succ n ih =>
    rw [unlink]
    split
    · exact ⟨rfl, rfl, rfl⟩
    split
    · split <;> exact ⟨rfl, rfl, rfl⟩
    · exact ih _ _

theorem sameSpan_clearBits (fl sl : ℕ) : SameSpan h (h.clearBits fl sl) := by
  unfold clearBits
  split <;> exact ⟨rfl, rfl, rfl⟩

theorem sameSpan_removeFreeBlock (x : ℕ) : SameSpan h (h.removeFreeBlock x) := by
  unfold removeFreeBlock
  simp only
  split
  · exact ⟨rfl, rfl, rfl⟩
  · exact (sameSpan_unlink ..).trans (sameSpan_clearBits ..)

end

/-- The heap with free blocks that may be on no list: those of the first list of blocks that are
not in the second. -/
structure Loose (h : Heap) (bs fs : List Block) (lists : ℕ → List ℕ) : Prop where
  bounded : Bounded h
  tiles : Tiles h.start bs h.stop
  tagged : Tagged h.mem 0 bs
  listed : Listed h lists
  onLists : OnLists fs lists
  sub : fs ⊆ bs

variable {xs ys fs : List Block} {c : Block} {lists : ℕ → List ℕ}

theorem Loose.blockSize (hl : Loose h bs fs lists) (hb : b ∈ bs) : h.blockSize b.start = b.size :=
  (blockSize_of_mem hl.tagged hl.tiles hb).1

theorem Loose.good (hl : Loose h bs bs lists) (havail : h.available = freeBytes bs) : Good h bs :=
  ⟨hl.bounded, hl.tiles, hl.tagged, ⟨lists, hl.listed, hl.onLists⟩, havail⟩

theorem Good.loose (hgd : Good h bs) : ∃ lists, Loose h bs bs lists := by
  obtain ⟨lists, hli, hon⟩ := hgd.listed
  exact ⟨lists, hgd.bounded, hgd.tiles, hgd.tagged, hli, hon, fun _ h => h⟩

/-- **A free block comes off its list.** -/
theorem Loose.removeFreeBlock (hl : Loose h bs (xs ++ c :: ys) lists)
    (hne : ∀ b ∈ xs ++ ys, b.start ≠ c.start) (hfr : c.used = false) :
    Loose (h.removeFreeBlock c.start) bs (xs ++ ys) (update lists (classIndex c.size)
      ((lists (classIndex c.size)).erase c.start)) ∧
    Within (xs ++ c :: ys) h.mem (h.removeFreeBlock c.start).mem := by
  have hc : c ∈ xs ++ c :: ys := by simp
  obtain ⟨hmin, hmax, -⟩ := hl.bounded.block hl.tiles (hl.sub hc)
  have hsz := hl.blockSize (hl.sub hc)
  have hmem : c.start ∈ lists (classIndex c.size) :=
    (hl.onLists.mem_iff _ _).mpr ⟨c, hc, hfr, rfl, rfl⟩
  obtain ⟨hli, hchan⟩ := hl.listed.removeFreeBlock (hl.onLists.spread hl.sub hl.tiles) hsz
    hmin hmax hmem (hl.onLists.length_le hl.sub hl.tiles _)
  have hwi : Within (xs ++ c :: ys) h.mem (h.removeFreeBlock c.start).mem := by
    intro k hk
    obtain ⟨y, hy, -, hle, hlt⟩ := hchan k hk
    obtain ⟨b, hb, hus, rfl, -⟩ := (hl.onLists.mem_iff _ _).mp hy
    have hbmin := (hl.tiles.mem (hl.sub hb)).2.2.1
    exact ⟨b, hb, hus, hle, by simp only [Block.stop]; omega⟩
  have hsm := sameSpan_removeFreeBlock h c.start
  refine ⟨⟨hsm.bounded hl.bounded, ?_, (hwi.mono hl.sub).tagged hl.tiles hl.tagged, hli,
    hl.onLists.erase hne, fun b hb => hl.sub (mem_append_cons hb)⟩, hwi⟩
  rw [hsm.start, hsm.stop]
  exact hl.tiles

/-- The heap with one free block that is on no list. -/
structure Detached (h : Heap) (xs : List Block) (c : Block) (ys : List Block)
    (lists : ℕ → List ℕ) : Prop where
  bounded : Bounded h
  tiles : Tiles h.start (xs ++ c :: ys) h.stop
  tagged : Tagged h.mem 0 (xs ++ c :: ys)
  listed : Listed h lists
  onLists : OnLists (xs ++ ys) lists
  free : c.used = false

theorem Good.detach (hgd : Good h (xs ++ c :: ys)) (hfr : c.used = false) :
    ∃ lists, Detached (h.removeFreeBlock c.start) xs c ys lists ∧
      Within (xs ++ c :: ys) h.mem (h.removeFreeBlock c.start).mem := by
  obtain ⟨lists, hloo⟩ := hgd.loose
  obtain ⟨hl, hwi⟩ := hloo.removeFreeBlock (fun _ => hgd.tiles.start_ne) hfr
  exact ⟨_, ⟨hl.bounded, hl.tiles, hl.tagged, hl.listed, hl.onLists, hfr⟩, hwi⟩

/-- **A free block goes back on its list.** -/
theorem Detached.attach (hd : Detached h xs c ys lists) :
    Loose (h.insertFreeBlock c.start) (xs ++ c :: ys) (xs ++ c :: ys)
      (update lists (classIndex c.size) (c.start :: lists (classIndex c.size))) ∧
    Within (xs ++ c :: ys) h.mem (h.insertFreeBlock c.start).mem := by
  have hc : c ∈ xs ++ c :: ys := by simp
  obtain ⟨hmin, hmax, hne, hwd⟩ := hd.bounded.block hd.tiles hc
  obtain ⟨hsz, -⟩ := blockSize_of_mem hd.tagged hd.tiles hc
  have hsm := sameSpan_insertFreeBlock h c.start
  have hwi : Within (xs ++ c :: ys) h.mem (h.insertFreeBlock c.start).mem := by
    intro k hk
    refine ⟨c, hc, hd.free, ?_⟩
    by_contra hcon
    exact hk (insertFreeBlock_mem_apart hsz hmin (by simp only [Block.stop] at hcon; omega))
  have hap : ∀ i, ∀ y ∈ lists i, y + 24 ≤ c.start + 16 ∨ c.start + c.size ≤ y + 16 := by
    intro i y hy
    obtain ⟨b, hb, -, rfl, -⟩ := (hd.onLists.mem_iff i y).mp hy
    have := hd.tiles.away hb
    simp only [Block.stop] at this
    omega
  refine ⟨⟨hsm.bounded hd.bounded, ?_, hwi.tagged hd.tiles hd.tagged,
    hd.listed.insertFreeBlock hsz hmin hmax hne hwd hap,
    hd.onLists.insert (fun _ => hd.tiles.start_ne) hd.free, fun _ h => h⟩, hwi⟩
  rw [hsm.start, hsm.stop]
  exact hd.tiles

end Heap

end Protofire.Tlsf
