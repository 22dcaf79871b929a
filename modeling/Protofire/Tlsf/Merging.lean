import Protofire.Tlsf.Safety

/-!
# Full coalescing

A heap is compact if no two blocks side by side are both free. A request keeps that, as the parts
it leaves free lie beside the block it takes. A pointer that is given back keeps it only if the
blocks beside its own are not both free: with both, the block before is merged and the block
behind is left as a second free block. So runs without such a pointer stay compact, and when they
hold nothing the heap is one free block again and serves what a fresh one serves.
-/

namespace Protofire.Tlsf

open List

/-- No two blocks side by side are both free. -/
def Compact (bs : List Block) : Prop := bs.IsChain fun b c => b.used = true ∨ c.used = true

section Compact

variable {xs ys xs' ys' : List Block} {c e : Block} {header stop : ℕ}

theorem compact_singleton (b : Block) : Compact [b] := isChain_singleton b

theorem compact_cons : Compact (c :: ys) ↔
    (∀ b ∈ ys.head?, c.used = true ∨ b.used = true) ∧ Compact ys :=
  isChain_cons

/-- A block among others: the blocks before, the blocks behind, and the two neighbours. -/
theorem compact_middle : Compact (xs ++ c :: ys) ↔ Compact xs ∧ Compact ys ∧
    (∀ b ∈ xs.getLast?, b.used = true ∨ c.used = true) ∧
    ∀ b ∈ ys.head?, c.used = true ∨ b.used = true := by
  rw [Compact, isChain_append, ← Compact, ← Compact, compact_cons]
  simp only [head?_cons, Option.mem_some_iff, forall_eq']
  tauto

/-- A request leaves the heap compact. -/
theorem Compact.cut (hm : Compact (xs ++ c :: ys)) (hfr : c.used = false) :
    Compact (xs ++ cut c header stop ++ ys) := by
  obtain ⟨hxs, hys, hle, hrgt⟩ := compact_middle.mp hm
  simp only [hfr, Bool.false_eq_true, or_false, false_or] at hle hrgt
  have hfront : Compact (xs ++ frontPart c header) := by
    rw [frontPart]
    split
    · exact compact_middle.mpr ⟨hxs, isChain_nil, fun b hb => Or.inl (hle b hb), by simp⟩
    · simpa using hxs
  have hbk : Compact (backPart c stop ++ ys) := by
    rw [backPart]
    split
    · exact compact_cons.mpr ⟨fun b hb => Or.inr (hrgt b hb), hys⟩
    · exact hys
  have hspl : xs ++ Tlsf.cut c header stop ++ ys =
      (xs ++ frontPart c header) ++ usedPart c header stop :: (backPart c stop ++ ys) := by
    simp [Tlsf.cut]
  rw [hspl, compact_middle]
  exact ⟨hfront, hbk, fun _ _ => Or.inr rfl, fun _ _ => Or.inl rfl⟩

/-- A block that is given back and has no free block on one of its sides leaves the heap
compact. -/
theorem Compact.coalesced {u : Block} (hm : Compact (xs ++ u :: ys))
    (hco : Coalesced xs c ys xs' e ys')
    (hside : (∀ b ∈ xs.getLast?, b.used = true) ∨ ∀ b ∈ ys.head?, b.used = true) :
    Compact (xs' ++ e :: ys') := by
  obtain ⟨hxs, hys, -, -⟩ := compact_middle.mp hm
  cases hco with
  | @prev xs _ _ d hd =>
    -- the block before is free, so the block behind is not
    have hrgt := hside.resolve_left fun hcon => by simp [hd] at hcon
    obtain ⟨hxs', -, hle, -⟩ := compact_middle.mp hxs
    simp only [hd, Bool.false_eq_true, or_false] at hle
    exact compact_middle.mpr ⟨hxs', hys, fun b hb => Or.inl (hle b hb),
      fun b hb => Or.inr (hrgt b hb)⟩
  | next hle hn =>
    obtain ⟨hrgt, hys'⟩ := compact_cons.mp hys
    simp only [hn, Bool.false_eq_true, false_or] at hrgt
    exact compact_middle.mpr ⟨hxs, hys', fun b hb => Or.inl (hle b hb),
      fun b hb => Or.inr (hrgt b hb)⟩
  | alone hle hrgt =>
    exact compact_middle.mpr ⟨hxs, hys, fun b hb => Or.inl (hle b hb),
      fun b hb => Or.inr (hrgt b hb)⟩

end Compact

namespace Heap

variable {h h' : Heap} {live : List Live} {xs ys bs : List Block} {u c : Block} {a : Live}
  {ptr : ℕ} {layout : Layout}

/-- The blocks beside the block of a pointer are not both free. -/
def oneSided (h : Heap) (a : Live) : Prop :=
  let block := h.headerOf a.ptr (a.ptr - headerSize)
  let next := block + h.blockSize block
  ¬((h.start < block ∧ h.blockIsUsed (h.blockPrevPhys block) = false) ∧
    next < h.stop ∧ h.blockIsUsed next = false)

instance (h : Heap) (a : Live) : Decidable (oneSided h a) :=
  inferInstanceAs (Decidable (¬_))

/-- What the headers say about the blocks beside a block. -/
theorem Good.beside (hgd : Good h (xs ++ u :: ys)) (ho : Owns h.mem u a.ptr a.layout)
    (hside : oneSided h a) :
    (∀ b ∈ xs.getLast?, b.used = true) ∨ ∀ b ∈ ys.head?, b.used = true := by
  have hu : u ∈ xs ++ u :: ys := by simp
  obtain ⟨hsz, -⟩ := blockSize_of_mem hgd.tagged hgd.tiles hu
  have hhdr : h.headerOf a.ptr (a.ptr - headerSize) = u.start := headerOf_eq hgd ho
  simp only [oneSided, hhdr, hsz] at hside
  rcases not_and_or.mp hside with hpv | hnx
  · refine Or.inl fun d hd => ?_
    obtain ⟨xs, rfl⟩ := getLast?_eq_some_iff.mp hd
    have hmem : d ∈ xs ++ [d] ++ u :: ys := by simp
    obtain ⟨hstart, hsp, hmin, hdvd⟩ := hgd.tiles.mem hmem
    obtain ⟨-, hus⟩ := blockSize_of_raw (hgd.tagged.raw_eq hmem) hdvd
    have htag := (tagged_append.mp hgd.tagged).2.2.1
    rw [lastStart_append_singleton] at htag
    have hlt : d.stop = u.start :=
      (tiles_append_cons.mp (tiles_append_cons.mp hgd.tiles).1).2.2.2
    simp only [Block.stop] at hlt
    rw [blockPrevPhys, htag, hus] at hpv
    cases hval : d.used with
    | true => rfl
    | false => exact absurd ⟨by omega, hval⟩ hpv
  · refine Or.inr fun n hn => ?_
    obtain ⟨ys, rfl⟩ := head?_eq_some_iff.mp hn
    have hmem : n ∈ xs ++ u :: n :: ys := by simp
    obtain ⟨hstart, hsp, hmin, hdvd⟩ := hgd.tiles.mem hmem
    obtain ⟨-, hus⟩ := blockSize_of_raw (hgd.tagged.raw_eq hmem) hdvd
    have hlt : n.start = u.start + u.size := (tiles_append_cons.mp hgd.tiles).2.2.2.1
    rw [← hlt, hus] at hnx
    cases hval : n.used with
    | true => rfl
    | false => exact absurd ⟨by omega, hval⟩ hnx

/-! ### One free block -/

/-- Two heaps that are the same free block serve a request at the same place. -/
theorem search_congr {lists lists' : ℕ → List ℕ} (hl : Loose h [c] [c] lists)
    (hl' : Loose h' [c] [c] lists') (hfr : c.used = false) (rounds minSize : ℕ) :
    (search rounds h' layout minSize).map Prod.fst =
      (search rounds h layout minSize).map Prod.fst := by
  induction rounds generalizing h h' minSize with
  | zero => rfl
  | succ n ih =>
    have hc : c ∈ [c] := mem_cons_self
    have hne := (hl.bounded.block hl.tiles hc).2.2.1
    rw [search, search]
    simp only
    -- both find the block, or neither does: it depends on its class
    rcases hl.candidate minSize with ⟨hzero, hno⟩ | ⟨xs, b, ys, hb, -, hfd, hcls, hend, hbk⟩
    · rcases hl'.candidate minSize with ⟨hzero', -⟩ | ⟨xs, b, ys, hb, -, -, hcls, -⟩
      · rw [if_pos hzero, if_pos hzero']
        rfl
      obtain rfl : b = c := mem_singleton.mp (hb ▸ mem_append_cons_self)
      have := hno b hc hfr
      omega
    obtain rfl : b = c := mem_singleton.mp (hb ▸ mem_append_cons_self)
    rcases hl'.candidate minSize with ⟨-, hno⟩ | ⟨xs, b', ys, hb, -, hfd', -, hend', hbk'⟩
    · have := hno b hc hfr
      omega
    obtain rfl : b' = b := mem_singleton.mp (hb ▸ mem_append_cons_self)
    rw [hfd, hfd', if_neg hne, if_neg hne, hend, hend', hbk.loose.blockSize hc,
      hbk'.loose.blockSize hc]
    cases placeIn b'.start layout with
    | none => rfl
    | some place =>
      obtain ⟨payload, header, stop⟩ := place
      by_cases hti : b'.stop < stop
      · simp only [if_pos hti]
        exact ih hbk.loose hbk'.loose _
      · simp only [if_neg hti, Option.map_some]

/-- A compact heap with no used block is one block. -/
theorem Good.eq_singleton (hgd : Good h bs) (hm : Compact bs) (hno : ∀ b ∈ bs, b.used = false) :
    bs = [⟨h.start, kernelHeapSize, false⟩] := by
  have htiles := hgd.tiles
  have hsp := hgd.bounded.stop_eq
  match bs, htiles, hm, hno with
  | [], htiles, _, _ =>
    have : 0 < kernelHeapSize := by decide
    simp only [Tiles] at htiles
    omega
  | [b], htiles, _, hno =>
    obtain ⟨hstart, -, -, hend⟩ := htiles
    have hus := hno b (by simp)
    simp only [Tiles, Block.stop] at hend
    cases b with
    | mk start size used =>
      simp only at hstart hend hus
      subst hstart hus
      rw [show size = kernelHeapSize by omega]
  | b :: c :: bs, _, hm, hno =>
    have := (compact_cons.mp hm).1 c rfl
    rw [hno b (by simp), hno c (by simp)] at this
    simp at this

/-- **Runs without a pointer between two free blocks stay compact**: no two blocks side by side are
both free, and when nothing is held, the heap is the one free block it was at the start and
serves every request as then. -/
theorem compact_of_oneSided (hr : Reachable oneSided h live) : (∃ bs, Good h bs ∧ Compact bs) ∧
    (live = [] → Good h [⟨h.start, kernelHeapSize, false⟩] ∧
      ∀ (mem : Bytes) (layout : Layout), (h.allocateLocked layout).map Prod.fst =
        (((new mem).initializeHeap h.start).allocateLocked layout).map Prod.fst) := by
  obtain ⟨bs, owners, ⟨hgd, hmap, hhe⟩, hm⟩ := hr.sound compact_singleton
    (fun _ _ _ _ _ hfr hm => hm.cut hfr)
    fun _ _ _ _ _ _ _ _ hgd ho hok hco hm => hm.coalesced hco (hgd.beside ho hok)
  refine ⟨⟨bs, hgd, hm⟩, fun hlv => ?_⟩
  have hown : owners = [] := map_eq_nil_iff.mp (hmap.trans hlv)
  have hno : ∀ b ∈ bs, b.used = false := by
    intro b hb
    cases hus : b.used with
    | false => rfl
    | true =>
      obtain ⟨p, hp, -⟩ := hhe.all b hb hus
      rw [hown] at hp
      cases hp
  obtain rfl := hgd.eq_singleton hm hno
  have hfresh := hgd.bounded
  refine ⟨hgd, fun mem layout => ?_⟩
  obtain ⟨_, hl⟩ := hgd.loose
  obtain ⟨_, hl'⟩ := (good_initializeHeap mem hfresh.pos hfresh.aligned
    (hfresh.stop_eq ▸ hfresh.stop_lt)).loose
  exact search_congr hl' hl rfl searchBound layout.minBlockSize

/-- A request, given back. -/
theorem compact_of_oneSided_run : oneSided oneRequest ⟨32, ⟨8, 8⟩⟩ ∧
    ((oneRequest.afterDeallocate 32).allocateLocked ⟨67108840, 8⟩).map Prod.fst =
      (((new Bytes.zero).initializeHeap 16).allocateLocked ⟨67108840, 8⟩).map Prod.fst := by
  have hok : oneSided oneRequest ⟨32, ⟨8, 8⟩⟩ := by decide +kernel
  have hr : Reachable oneSided oneRequest ([] ++ ⟨32, ⟨8, 8⟩⟩ :: []) := reachable_oneRequest
  exact ⟨hok, ((compact_of_oneSided (hr.afterDeallocate hok)).2 rfl).2 Bytes.zero ⟨67108840, 8⟩⟩

/-- **A pointer between two free blocks is merged on one side only.** Two requests are given back
in order, so nothing is held; the heap is two free blocks side by side, and a request a fresh heap
serves fails. -/
theorem reachable_not_compact : ∃ h : Heap, Reachable anyFree h [] ∧ h.start = 16 ∧
    h.blockSize 16 = 64 ∧ h.blockIsUsed 16 = false ∧ 16 + 64 < h.stop ∧
    h.blockIsUsed (16 + 64) = false ∧
    (((new Bytes.zero).initializeHeap 16).allocateLocked ⟨67108840, 8⟩).map Prod.fst = some 32 ∧
    (h.allocateLocked ⟨67108840, 8⟩).map Prod.fst = some 0 := by
  have hone : Reachable anyFree oneRequest [⟨32, ⟨8, 8⟩⟩] := reachable_oneRequest
  have htwo : Reachable anyFree (oneRequest.afterAllocate ⟨8, 8⟩)
      ([⟨64, ⟨8, 8⟩⟩] ++ ⟨32, ⟨8, 8⟩⟩ :: []) :=
    hone.afterAllocate ⟨3, rfl⟩ (by decide +kernel) (by decide)
  have hfirst : Reachable anyFree ((oneRequest.afterAllocate ⟨8, 8⟩).afterDeallocate 32)
      ([] ++ ⟨64, ⟨8, 8⟩⟩ :: []) := htwo.afterDeallocate trivial
  exact ⟨_, hfirst.afterDeallocate trivial, by decide +kernel, by decide +kernel,
    by decide +kernel, by decide +kernel, by decide +kernel, by decide +kernel, by decide +kernel⟩

end Heap

end Protofire.Tlsf
