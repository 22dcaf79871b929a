import Protofire.Tlsf.Deallocate
import Protofire.Tlsf.Search

/-!
# The heap in use

The allocator and its callers, as one system: a caller asks for memory, gives back a pointer it
holds, or writes to its own payload. What every state of such a run keeps is that the heap is
good and that its used blocks are those of the live allocations, one each, with the canary and
the forwarding word where they were written. From that follow the invariant of the heap and the
safety of the callers: payloads are where they should be, apart from each other and from the
allocator's own words, and no call for one pointer changes a byte of another.
-/

namespace Protofire.Tlsf.Heap

open Heap List Bytes

/-- An allocation that was handed out and not given back. -/
structure Live where
  ptr : ℕ
  layout : Layout
deriving DecidableEq

/-- What runs of the allocator and its callers reach. The condition is on the heap before a
pointer is given back. -/
inductive Reachable (ok : Heap → Live → Prop) : Heap → List Live → Prop
  | init (mem : Bytes) {start : ℕ} (hpos : 0 < start) (haligned : heapBlockAlignment ∣ start)
      (hlt : start + kernelHeapSize < wordBound) :
      Reachable ok ((new mem).initializeHeap start) []
  | allocate {h : Heap} {live : List Live} (hr : Reachable ok h live) (layout : Layout)
      (halign : ∃ k, layout.align = 2 ^ k) {ptr : ℕ} {h' : Heap}
      (heq : h.allocateLocked layout = some (ptr, h')) (hne : ptr ≠ 0) :
      Reachable ok h' (⟨ptr, layout⟩ :: live)
  | exhausted {h : Heap} {live : List Live} (hr : Reachable ok h live) (layout : Layout)
      (halign : ∃ k, layout.align = 2 ^ k) {h' : Heap}
      (heq : h.allocateLocked layout = some (0, h')) : Reachable ok h' live
  | deallocate {h : Heap} {xs ys : List Live} {a : Live} (hr : Reachable ok h (xs ++ a :: ys))
      (hok : ok h a) {freed : Bool} {h' : Heap} (heq : h.deallocateLocked a.ptr = .ok (freed, h')) :
      Reachable ok h' (xs ++ ys)
  | write {h : Heap} {live : List Live} (hr : Reachable ok h live) {a : Live} (ha : a ∈ live)
      {mem : Bytes} (hkeep : ∀ k, ¬(a.ptr ≤ k ∧ k < a.ptr + a.layout.size) → mem k = h.mem k) :
      Reachable ok { h with mem := mem } live

/-- The used blocks of a heap are those of the live allocations, one each. -/
structure Held (m : Bytes) (bs : List Block) (owners : List (Live × Block)) : Prop where
  mem : ∀ p ∈ owners, p.2 ∈ bs
  owns : ∀ p ∈ owners, Owns m p.2 p.1.ptr p.1.layout
  nodup : (owners.map Prod.snd).Nodup
  all : ∀ u ∈ bs, u.used = true → ∃ p ∈ owners, p.2 = u

/-- **The invariant of runs.** -/
def Sound (h : Heap) (live : List Live) (bs : List Block) (owners : List (Live × Block)) : Prop :=
  Good h bs ∧ owners.map Prod.fst = live ∧ Held h.mem bs owners

variable {ok : Heap → Live → Prop} {h h' : Heap} {live xs ys : List Live} {bs bs' : List Block}
  {owners : List (Live × Block)} {layout : Layout} {ptr : ℕ} {u : Block} {a : Live}

/-! ### The heap at the start -/

variable {start : ℕ}

/-- **The heap at the start is good**, with one free block. -/
theorem good_initializeHeap (mem : Bytes) (hpos : 0 < start) (haln : heapBlockAlignment ∣ start)
    (hlt : start + kernelHeapSize < wordBound) :
    Good ((new mem).initializeHeap start) [⟨start, kernelHeapSize, false⟩] := by
  have hsz : heapBlockAlignment ∣ kernelHeapSize := by decide
  have hbd : kernelHeapSize + 1 < wordBound := by decide
  have hmin : minFreeBlock ≤ kernelHeapSize := by decide
  simp only [initializeHeap, markFree hsz hbd, blockSetPrevPhys]
  generalize hg : setWord _ (start + 8) 0 = g
  have hd : Detached g [] ⟨start, kernelHeapSize, false⟩ [] fun _ => [] := by
    subst hg
    refine ⟨⟨hpos, haln, rfl, hlt⟩, ⟨rfl, hmin, hsz, rfl⟩, ⟨?_, ?_, trivial⟩,
      ⟨fun _ => rfl, fun _ _ hx => by simp at hx, fun f s _ => ?_, fun f _ => ?_⟩,
      ⟨fun _ => nodup_nil, fun _ _ => by simp⟩, rfl⟩
    · rw [word_setWord_apart _ _ (by simp), word_setWord_self _ _ (by decide)]
      rfl
    · exact word_setWord_self _ _ (by decide)
    · simp [setWord, new]
    · simp [setWord, new]
  refine hd.attach.1.good ((sameSpan_insertFreeBlock g start).available.trans ?_)
  subst hg
  rfl

/-! ### The steps -/

variable {mem : Bytes} {p : Live × Block}

theorem Held.quiet (hhe : Held h.mem bs owners) (hqt : Quiet bs h.mem mem) (hp : p ∈ owners) :
    Owns mem p.2 p.1.ptr p.1.layout := by
  have ho := hhe.owns p hp
  exact ho.congr fun k h₁ h₂ _ => hqt p.2 (hhe.mem p hp) ho.used k h₁ h₂

/-- A request adds an owner. -/
theorem Held.allocate (hhe : Held h.mem bs owners) (hall : Allocated h bs layout ptr h' bs' u) :
    Held h'.mem bs' ((⟨ptr, layout⟩, u) :: owners) where
  mem := by
    rintro p hp
    rcases mem_cons.mp hp with rfl | hp
    · exact (hall.used_iff u hall.owns.used).mpr (Or.inl rfl)
    · exact (hall.used_iff _ (hhe.owns p hp).used).mpr (Or.inr (hhe.mem p hp))
  owns := by
    rintro p hp
    rcases mem_cons.mp hp with rfl | hp
    · exact hall.owns
    · exact hhe.quiet hall.quiet hp
  nodup := by
    rw [map_cons, nodup_cons]
    refine ⟨fun hmem => hall.fresh ?_, hhe.nodup⟩
    obtain ⟨p, hp, rfl⟩ := mem_map.mp hmem
    exact hhe.mem p hp
  all := by
    intro b hb hus
    rcases (hall.used_iff b hus).mp hb with rfl | hb
    · exact ⟨_, mem_cons_self, rfl⟩
    obtain ⟨p, hp, rfl⟩ := hhe.all b hb hus
    exact ⟨p, mem_cons_of_mem _ hp, rfl⟩

/-- The blocks of two owners are two. -/
theorem Held.eq_of_block (hhe : Held h.mem bs owners) {q : Live × Block} (hp : p ∈ owners)
    (hq : q ∈ owners) (heq : p.2 = q.2) : p = q :=
  inj_on_of_nodup_map hhe.nodup hp hq heq

/-- A pointer that is given back takes an owner away. -/
theorem Held.deallocate {os ps : List (Live × Block)} {cs ds cs' ds' : List Block} {e : Block}
    {stop : ℕ} (htiles : Tiles start (cs ++ u :: ds) stop)
    (hhe : Held h.mem (cs ++ u :: ds) (os ++ (a, u) :: ps))
    (hco : Coalesced cs ⟨u.start, u.size, false⟩ ds cs' e ds')
    (hqt : Quiet (cs ++ ds) h.mem mem) : Held mem (cs' ++ e :: ds') (os ++ ps) := by
  have hnd := hhe.nodup
  rw [map_append, map_cons, nodup_middle, ← map_append, nodup_cons] at hnd
  obtain ⟨hout, hre⟩ := hnd
  have hold : ∀ p ∈ os ++ ps, p ∈ os ++ (a, u) :: ps := by
    intro p hp
    simp only [mem_append] at hp ⊢
    tauto
  have hmem : ∀ p ∈ os ++ ps, p.2 ∈ cs ++ ds := by
    intro p hp
    have hne : p.2 ≠ u := fun heq => hout (mem_map.mpr ⟨p, hp, heq⟩)
    have := hhe.mem p (hold p hp)
    simp only [mem_append, mem_cons] at this ⊢
    tauto
  refine ⟨fun p hp => ?_, fun p hp => ?_, hre, fun b hb hus => ?_⟩
  · exact (hco.mem_iff rfl (hhe.owns p (hold p hp)).used).mpr (hmem p hp)
  · have ho := hhe.owns p (hold p hp)
    exact ho.congr fun k h₁ h₂ _ => hqt p.2 (hmem p hp) ho.used k h₁ h₂
  have hb' := (hco.mem_iff rfl hus).mp hb
  obtain ⟨p, hp, rfl⟩ := hhe.all b (mem_append_cons hb') hus
  refine ⟨p, ?_, rfl⟩
  have hne : p ≠ (a, u) := fun heq => htiles.start_ne hb' (by rw [heq])
  simp only [mem_append, mem_cons] at hp ⊢
  tauto

/-- A caller writes to its payload. -/
theorem Good.write (hgd : Good h bs) (hu : u ∈ bs) (ho : Owns h.mem u ptr layout)
    (hkp : ∀ k, ¬(ptr ≤ k ∧ k < ptr + layout.size) → mem k = h.mem k) :
    Good { h with mem := mem } bs := by
  obtain ⟨lists, hli, hon⟩ := hgd.listed
  have hrm := ho.room
  have hptr : u.start + 16 ≤ ptr := by
    rcases ho.place with h | ⟨h, -⟩ <;> omega
  -- the first words of a block are not in a payload, and a free block has no payload
  have hwd : ∀ b ∈ bs, ∀ a, b.start ≤ a → a + 8 ≤ b.start + 16 ∨
      b.used = false ∧ a + 8 ≤ b.stop → mem.word a = h.mem.word a := by
    intro b hb a hle hlt
    refine Bytes.word_congr fun k h₁ h₂ => hkp k ?_
    simp only [Block.stop] at *
    rcases hgd.tiles.apart hb hu with rfl | hcs | hcs
    · rcases hlt with hlt | ⟨hfr, -⟩
      · omega
      rw [ho.used] at hfr
      cases hfr
    all_goals
      simp only [Block.stop] at hcs
      omega
  refine ⟨⟨hgd.bounded.pos, hgd.bounded.aligned, hgd.bounded.stop_eq, hgd.bounded.stop_lt⟩,
    hgd.tiles, hgd.tagged.congr fun b hb => ⟨hwd b hb _ (by omega) (by omega),
      hwd b hb _ (by omega) (by omega)⟩, ⟨lists, hli.congr rfl rfl rfl fun i y hy => ?_, hon⟩,
    hgd.available⟩
  obtain ⟨b, hb, hfr, rfl, -⟩ := (hon.mem_iff i y).mp hy
  have hmin := (hgd.tiles.mem hb).2.2.1
  refine hwd b hb _ (by omega) (Or.inr ⟨hfr, ?_⟩)
  simp only [Block.stop, freeNextOffset, headerSize] at *
  omega

theorem Held.write (hhe : Held h.mem bs owners) {stop : ℕ} (htiles : Tiles start bs stop)
    (hp : p ∈ owners)
    (hkp : ∀ k, ¬(p.1.ptr ≤ k ∧ k < p.1.ptr + p.1.layout.size) → mem k = h.mem k) :
    Held mem bs owners := by
  refine ⟨hhe.mem, fun q hq => ?_, hhe.nodup, hhe.all⟩
  have ho := hhe.owns p hp
  have hrm := ho.room
  have hptr : p.2.start + 16 ≤ p.1.ptr := by
    rcases ho.place with h | ⟨h, -⟩ <;> omega
  refine (hhe.owns q hq).congr fun k h₁ h₂ hout => hkp k ?_
  rcases htiles.apart (hhe.mem p hp) (hhe.mem q hq) with heq | hcs | hcs
  · rw [hhe.eq_of_block hp hq heq]
    exact hout
  all_goals omega

/-! ### Runs -/

/-- **What every run keeps.** A property of the blocks that holds of one block, survives the cuts
of a request and the merges of a pointer that is given back holds in every state, with the heap
sound. -/
theorem Reachable.sound {P : List Block → Prop} (hone : ∀ b, P [b])
    (hcut : ∀ xs c ys header stop, c.used = false → P (xs ++ c :: ys) →
      P (xs ++ cut c header stop ++ ys))
    (hmrg : ∀ h a xs u ys xs' e ys', Good h (xs ++ u :: ys) → Owns h.mem u a.ptr a.layout →
      ok h a → Coalesced xs ⟨u.start, u.size, false⟩ ys xs' e ys' → P (xs ++ u :: ys) →
      P (xs' ++ e :: ys'))
    (hr : Reachable ok h live) : ∃ bs owners, Sound h live bs owners ∧ P bs := by
  induction hr with
  | init mem hpos haln hlt =>
    refine ⟨_, [], ⟨good_initializeHeap mem hpos haln hlt, rfl, ?_⟩, hone _⟩
    refine ⟨by simp, by simp, by simp, fun u hu hus => ?_⟩
    rw [mem_singleton.mp hu] at hus
    cases hus
  | allocate _ layout hal heq hne ih =>
    obtain ⟨bs, owners, ⟨hgd, hmap, hhe⟩, hP⟩ := ih
    obtain ⟨ptr, h', heq', hcs⟩ := allocateLocked_spec hal hgd
    cases heq'.symm.trans heq
    obtain ⟨-, bs', u, hall⟩ := hcs.resolve_left fun hcon => hne hcon.1
    refine ⟨bs', _, ⟨hall.good, ?_, hhe.allocate hall⟩, ?_⟩
    · rw [map_cons, hmap]
    obtain ⟨xs, c, ys, header, stop, rfl, hfr, rfl⟩ := hall.shape
    exact hcut xs c ys header stop hfr hP
  | exhausted _ layout hal heq ih =>
    obtain ⟨bs, owners, ⟨hgd, hmap, hhe⟩, hP⟩ := ih
    obtain ⟨ptr, h', heq', hcs⟩ := allocateLocked_spec hal hgd
    cases heq'.symm.trans heq
    obtain ⟨-, hgd', hqt⟩ := hcs.resolve_right fun hcon => by omega
    exact ⟨bs, owners, ⟨hgd', hmap, hhe.mem, fun p hp => hhe.quiet hqt hp, hhe.nodup,
      hhe.all⟩, hP⟩
  | @deallocate h xs ys a _ hok freed h' heq ih =>
    obtain ⟨bs, owners, ⟨hgd, hmap, hhe⟩, hP⟩ := ih
    obtain ⟨os, rest, rfl, rfl, hre⟩ := map_eq_append_iff.mp hmap
    obtain ⟨⟨b, u⟩, ps, rfl, rfl, rfl⟩ := map_eq_cons_iff.mp hre
    have hmem : (b, u) ∈ os ++ (b, u) :: ps := by simp
    have ho := hhe.owns _ hmem
    obtain ⟨cs, ds, rfl⟩ := append_of_mem (hhe.mem _ hmem)
    obtain ⟨h'', cs', e, ds', heq', hco, hgd', hqt, -⟩ := deallocateLocked_spec hgd ho
    cases heq'.symm.trans heq
    exact ⟨_, os ++ ps, ⟨hgd', map_append .., hhe.deallocate hgd.tiles hco hqt⟩,
      hmrg _ _ _ _ _ _ _ _ hgd ho hok hco hP⟩
  | write _ ha hkp ih =>
    obtain ⟨bs, owners, ⟨hgd, hmap, hhe⟩, hP⟩ := ih
    rw [← hmap] at ha
    obtain ⟨p, hp, rfl⟩ := mem_map.mp ha
    exact ⟨bs, owners, ⟨hgd.write (hhe.mem p hp) (hhe.owns p hp) hkp, hmap,
      hhe.write hgd.tiles hp hkp⟩, hP⟩

theorem Reachable.exists_sound (hr : Reachable ok h live) :
    ∃ bs owners, Sound h live bs owners := by
  obtain ⟨bs, owners, hs, -⟩ := hr.sound (P := fun _ => True) (fun _ => trivial)
    (fun _ _ _ _ _ _ _ => trivial) fun _ _ _ _ _ _ _ _ _ _ _ _ _ => trivial
  exact ⟨bs, owners, hs⟩

/-- A pointer that is held is taken back, and the other owners' blocks do not change. -/
theorem Sound.deallocate (hs : Sound h live bs owners) (ha : a ∈ live) :
    ∃ h', h.deallocateLocked a.ptr = .ok (true, h') ∧ ∀ p ∈ owners, p.1.ptr ≠ a.ptr →
      ∀ k, p.2.start + headerSize ≤ k → k < p.2.stop → h'.mem k = h.mem k := by
  obtain ⟨hgd, rfl, hhe⟩ := hs
  obtain ⟨q, hq, rfl⟩ := mem_map.mp ha
  obtain ⟨cs, ds, rfl⟩ := append_of_mem (hhe.mem q hq)
  obtain ⟨h', -, -, -, heq, -, -, hqt, -⟩ := deallocateLocked_spec hgd (hhe.owns q hq)
  refine ⟨h', heq, fun p hp hne k h₁ h₂ => ?_⟩
  have hblk : p.2 ≠ q.2 := fun heq => hne (by rw [hhe.eq_of_block hp hq heq])
  have hmem := hhe.mem p hp
  refine hqt p.2 ?_ (hhe.owns p hp).used k h₁ h₂
  simp only [mem_append, mem_cons] at hmem ⊢
  tauto

/-! ### Runs step by step -/

/-- The heap after a request. -/
def afterAllocate (h : Heap) (layout : Layout) : Heap := ((h.allocateLocked layout).getD (0, h)).2

/-- The heap after a pointer is given back. -/
def afterDeallocate (h : Heap) (ptr : ℕ) : Heap :=
  match h.deallocateLocked ptr with
  | .ok (_, h') => h'
  | .error _ => h

theorem Reachable.afterAllocate (hr : Reachable ok h live) (hal : ∃ k, layout.align = 2 ^ k)
    (hptr : (h.allocateLocked layout).map Prod.fst = some ptr) (hne : ptr ≠ 0) :
    Reachable ok (h.afterAllocate layout) (⟨ptr, layout⟩ :: live) := by
  obtain ⟨⟨p, h'⟩, heq, rfl⟩ := Option.map_eq_some_iff.mp hptr
  have haft : h.afterAllocate layout = h' := by rw [afterAllocate, heq, Option.getD_some]
  rw [haft]
  exact hr.allocate layout hal heq hne

theorem Reachable.afterDeallocate (hr : Reachable ok h (xs ++ a :: ys)) (hok : ok h a) :
    Reachable ok (h.afterDeallocate a.ptr) (xs ++ ys) := by
  obtain ⟨bs, owners, hs⟩ := hr.exists_sound
  obtain ⟨h', heq, -⟩ := hs.deallocate (show a ∈ xs ++ a :: ys by simp)
  have haft : h.afterDeallocate a.ptr = h' := by rw [Heap.afterDeallocate, heq]
  rw [haft]
  exact hr.deallocate hok heq

/-- The heap after a request of eight bytes, from a start in zeros. -/
def oneRequest : Heap := ((new Bytes.zero).initializeHeap 16).afterAllocate ⟨8, 8⟩

theorem reachable_oneRequest : Reachable ok oneRequest [⟨32, ⟨8, 8⟩⟩] := by
  have hr : Reachable ok ((new zero).initializeHeap 16) [] :=
    .init zero (by decide) (by decide) (by decide)
  exact hr.afterAllocate ⟨3, rfl⟩ (by decide +kernel) (by decide)

/-! ### The invariant and the safety of callers -/

/-- Any pointer that is held may be given back. -/
def anyFree (_ : Heap) (_ : Live) : Prop := True

/-- Three requests, the second of which is given back. -/
def oneFreed : Heap :=
  ((oneRequest.afterAllocate ⟨64, 8⟩).afterAllocate ⟨8, 8⟩).afterDeallocate 64

theorem reachable_oneFreed : Reachable anyFree oneFreed [⟨160, ⟨8, 8⟩⟩, ⟨32, ⟨8, 8⟩⟩] := by
  have htwo : Reachable anyFree (oneRequest.afterAllocate ⟨64, 8⟩)
      [⟨64, ⟨64, 8⟩⟩, ⟨32, ⟨8, 8⟩⟩] :=
    reachable_oneRequest.afterAllocate ⟨3, rfl⟩ (by decide +kernel) (by decide)
  have hthree : Reachable anyFree ((oneRequest.afterAllocate ⟨64, 8⟩).afterAllocate ⟨8, 8⟩)
      ([⟨160, ⟨8, 8⟩⟩] ++ ⟨64, ⟨64, 8⟩⟩ :: [⟨32, ⟨8, 8⟩⟩]) :=
    htwo.afterAllocate ⟨3, rfl⟩ (by decide +kernel) (by decide)
  exact hthree.afterDeallocate trivial

/-- **The invariant of the heap.** In every state of every run, the blocks tile the heap, their
headers name their sizes and their predecessors, and the walk finds nothing wrong; the free ones
are those on the lists, once and by class, the bitmaps tell which lists have a block, and the free
bytes are counted. Every request returns, and every pointer that is held is taken back. -/
theorem heap_invariant (hr : Reachable anyFree h live) : h.checkInvariants = .ok () ∧
    (∃ bs lists, Tiles h.start bs h.stop ∧ Tagged h.mem 0 bs ∧
      (∀ b ∈ bs, heapBlockAlignment ∣ b.start ∧ h.blockSize b.start = b.size ∧
        h.blockIsUsed b.start = b.used) ∧
      Listed h lists ∧ OnLists bs lists ∧ h.available = freeBytes bs) ∧
    (∀ layout : Layout, (∃ k, layout.align = 2 ^ k) → ∃ r, h.allocateLocked layout = some r) ∧
    ∀ a ∈ live, ∃ h', h.deallocateLocked a.ptr = .ok (true, h') := by
  obtain ⟨bs, owners, hs⟩ := hr.exists_sound
  have hgd := hs.1
  refine ⟨hgd.checkInvariants, ?_, fun layout hal => ?_, fun a ha => ?_⟩
  · obtain ⟨lists, hli, hon⟩ := hgd.listed
    refine ⟨bs, lists, hgd.tiles, hgd.tagged, fun b hb => ?_, hli, hon, hgd.available⟩
    exact ⟨hgd.tiles.dvd_start hgd.bounded.aligned hb,
      blockSize_of_mem hgd.tagged hgd.tiles hb⟩
  · obtain ⟨ptr, h', heq, -⟩ := allocateLocked_spec hal hgd
    exact ⟨_, heq⟩
  · obtain ⟨h', heq, -⟩ := hs.deallocate ha
    exact ⟨h', heq⟩

theorem heap_invariant_run : oneFreed.checkInvariants = .ok () ∧
    ∀ ptr ∈ [160, 32], ∃ h', oneFreed.deallocateLocked ptr = .ok (true, h') := by
  obtain ⟨hwalk, -, -, hback⟩ := heap_invariant reachable_oneFreed
  refine ⟨hwalk, ?_⟩
  simpa using hback

/-- The payloads of two owners are apart, and a payload is apart from the words of the allocator
in any block. -/
theorem Sound.apart (hs : Sound h live bs owners) (hp : p ∈ owners) :
    (∀ q ∈ owners, p ≠ q → p.1.ptr + p.1.layout.size ≤ q.1.ptr ∨
      q.1.ptr + q.1.layout.size ≤ p.1.ptr) ∧
    (∀ b ∈ bs, p.1.ptr + p.1.layout.size ≤ b.start ∨ b.start + headerSize ≤ p.1.ptr) ∧
    ∀ b ∈ bs, b.used = false → p.1.ptr + p.1.layout.size ≤ b.start + freeNextOffset ∨
      b.start + freeNextOffset + 8 ≤ p.1.ptr := by
  obtain ⟨hgd, -, hhe⟩ := hs
  have hin : ∀ q ∈ owners, q.2.start + 16 ≤ q.1.ptr ∧ q.1.ptr + q.1.layout.size + 8 ≤ q.2.stop := by
    intro q hq
    have ho := hhe.owns q hq
    refine ⟨?_, ho.room⟩
    rcases ho.place with h | ⟨h, -⟩ <;> omega
  have hpin := hin p hp
  refine ⟨fun q hq hne => ?_, fun b hb => ?_, fun b hb hfr => ?_⟩
  · have hqin := hin q hq
    rcases hgd.tiles.apart (hhe.mem p hp) (hhe.mem q hq) with heq | hcs | hcs
    · exact absurd (hhe.eq_of_block hp hq heq) hne
    all_goals omega
  · simp only [headerSize, Block.stop] at *
    rcases hgd.tiles.apart (hhe.mem p hp) hb with rfl | hcs | hcs
    · exact Or.inr hpin.1
    all_goals
      simp only [Block.stop] at hcs
      omega
  · have hmin := (hgd.tiles.mem hb).2.2.1
    simp only [freeNextOffset, headerSize, Block.stop] at *
    rcases hgd.tiles.apart (hhe.mem p hp) hb with rfl | hcs | hcs
    · rw [(hhe.owns p hp).used] at hfr
      cases hfr
    all_goals
      simp only [Block.stop] at hcs
      omega

/-- **The callers are safe.** In every state of every run, a payload is aligned as it was asked
for, lies in its block between the header and the canary, and is apart from the other payloads,
from every header and from every link. No request and no pointer of another caller that is given
back changes a byte of its block behind the header, payload and canary; and a pointer that is
held is taken back without a defect. -/
theorem caller_safety (hr : Reachable anyFree h live) :
    ∃ (bs : List Block) (owners : List (Live × Block)), Good h bs ∧ owners.map Prod.fst = live ∧
      (∀ p ∈ owners, p.2 ∈ bs ∧ p.2.used = true ∧ p.1.layout.align ∣ p.1.ptr ∧
        p.2.start + headerSize ≤ p.1.ptr ∧ p.1.ptr + p.1.layout.size ≤ p.2.stop - canarySize ∧
        h.mem.word (p.2.stop - canarySize) = canaryValue) ∧
      (owners.Pairwise fun p q => p.1.ptr ≠ q.1.ptr ∧ (p.1.ptr + p.1.layout.size ≤ q.1.ptr ∨
        q.1.ptr + q.1.layout.size ≤ p.1.ptr)) ∧ (∀ p ∈ owners, ∀ b ∈ bs,
        (p.1.ptr + p.1.layout.size ≤ b.start ∨ b.start + headerSize ≤ p.1.ptr) ∧
        (b.used = false → p.1.ptr + p.1.layout.size ≤ b.start + freeNextOffset ∨
          b.start + freeNextOffset + 8 ≤ p.1.ptr)) ∧
      (∀ layout : Layout, (∃ k, layout.align = 2 ^ k) → ∃ ptr h',
        h.allocateLocked layout = some (ptr, h') ∧ ∀ p ∈ owners, ∀ k,
          p.2.start + headerSize ≤ k → k < p.2.stop → h'.mem k = h.mem k) ∧
      ∀ a ∈ live, ∃ h', h.deallocateLocked a.ptr = .ok (true, h') ∧
        ∀ p ∈ owners, p.1.ptr ≠ a.ptr → ∀ k, p.2.start + headerSize ≤ k → k < p.2.stop →
          h'.mem k = h.mem k := by
  obtain ⟨bs, owners, hs⟩ := hr.exists_sound
  obtain ⟨hgd, hmap, hhe⟩ := hs
  have hplace : ∀ p ∈ owners, p.2.start + headerSize ≤ p.1.ptr ∧
      p.1.ptr + p.1.layout.size ≤ p.2.stop - canarySize ∧ p.1.ptr < p.2.stop := by
    intro p hp
    have ho := hhe.owns p hp
    have hrm := ho.room
    simp only [headerSize, canarySize]
    rcases ho.place with h | ⟨h, -⟩ <;> omega
  refine ⟨bs, owners, hgd, hmap, fun p hp => ?_, ?_, fun p hp b hb => ?_,
    fun layout hal => ?_, fun a ha => Sound.deallocate ⟨hgd, hmap, hhe⟩ ha⟩
  · have ho := hhe.owns p hp
    exact ⟨hhe.mem p hp, ho.used, ho.aligned, (hplace p hp).1, (hplace p hp).2.1, ho.canary⟩
  · have hprs := pairwise_map.mp hhe.nodup
    refine hprs.imp_of_mem fun {p q} hp hq hne => ⟨fun heq => ?_, ?_⟩
    · have h₁ := hplace p hp
      have h₂ := hplace q hq
      rcases hgd.tiles.apart (hhe.mem p hp) (hhe.mem q hq) with hb | hcs | hcs
      · exact hne hb
      all_goals omega
    · exact (Sound.apart ⟨hgd, hmap, hhe⟩ hp).1 q hq fun heq => hne (by rw [heq])
  · obtain ⟨-, h₁, h₂⟩ := Sound.apart ⟨hgd, hmap, hhe⟩ hp
    exact ⟨h₁ b hb, h₂ b hb⟩
  · obtain ⟨ptr, h', heq, hcs⟩ := allocateLocked_spec hal hgd
    have hqt : Quiet bs h.mem h'.mem := by
      rcases hcs with ⟨-, -, hqt⟩ | ⟨-, bs', u, hall⟩
      · exact hqt
      · exact hall.quiet
    exact ⟨ptr, h', heq, fun p hp => hqt p.2 (hhe.mem p hp) (hhe.owns p hp).used⟩

/-- The two callers that are left keep what they have when one of them gives its pointer back. -/
theorem caller_safety_run : ∃ owners : List (Live × Block),
    owners.map Prod.fst = [⟨160, ⟨8, 8⟩⟩, ⟨32, ⟨8, 8⟩⟩] ∧
      ∃ h', oneFreed.deallocateLocked 32 = .ok (true, h') ∧
        ∀ p ∈ owners, p.1.ptr ≠ 32 → ∀ k, p.2.start + headerSize ≤ k → k < p.2.stop →
          h'.mem k = oneFreed.mem k := by
  obtain ⟨_, owners, -, howners, -, -, -, -, hfree⟩ := caller_safety reachable_oneFreed
  obtain ⟨h', heq, hkeeps⟩ := hfree ⟨32, ⟨8, 8⟩⟩ (mem_of_getElem? (i := 1) rfl)
  exact ⟨owners, howners, h', heq, hkeeps⟩

/-! ### A pointer that is given back twice -/

/-- The size in the word before a pointer is the address of the word before that, which looks like
the header of a used block around the pointer. -/
def Misread (h : Heap) (ptr : ℕ) : Prop :=
  let below := ptr - headerSize - heapBlockAlignment
  h.mem.word (ptr - headerSize) = below ∧ h.start ≤ below ∧ h.blockIsUsed below = true ∧
    headerSize ≤ h.blockSize below ∧ ptr < below + h.blockSize below ∧
    below + h.blockSize below ≤ h.stop

/-- A pointer to a word without a flag is refused, unless its size is taken for a forwarding
word. -/
theorem deallocateLocked_inert_iff (haln : heapBlockAlignment ∣ ptr) (hle : 32 ≤ ptr)
    (hfr : h.blockIsUsed (ptr - 16) = false) :
    h.deallocateLocked ptr = .ok (false, h) ↔ ¬Misread h ptr := by
  have hnom : checkedSub ptr headerSize = some (ptr - 16) :=
    checkedSub_eq_some.mpr ⟨by simp only [headerSize]; omega, rfl⟩
  simp only [heapBlockAlignment] at haln
  have hbel : ptr - 16 - 16 = ptr - 32 := by omega
  by_cases hm : Misread h ptr
  · refine iff_of_false (fun hcon => ?_) (not_not.mpr hm)
    simp only [Misread, headerSize, heapBlockAlignment, hbel] at hm
    obtain ⟨hwd, hstart, hus, hsz, hlt, hsp⟩ := hm
    have hhdr : h.headerOf ptr (ptr - 16) = ptr - 32 := by
      simp only [headerOf, hwd, heapBlockAlignment]
      rw [if_pos (by omega), if_pos (by omega), if_pos ⟨hus, hsz, by omega, hlt, hsp⟩]
    simp only [deallocateLocked, hnom, hhdr, hus] at hcon
    rw [if_neg (by omega), if_neg (by omega), if_neg (by simp only [headerSize]; omega),
      if_neg (by simp)] at hcon
    split at hcon
    · cases hcon
    · simp at hcon
  · have hhdr : h.headerOf ptr (ptr - 16) = ptr - 16 := by
      simp only [headerOf]
      split_ifs with hin hfwd hcon
      · simp only [heapBlockAlignment] at hfwd
        have hwd : h.mem.word (ptr - 16) = ptr - 32 := by omega
        rw [hwd] at hcon hfwd
        refine absurd ?_ hm
        exact ⟨hwd, hfwd.1, hcon.1, hcon.2.1, hcon.2.2.2.1, hcon.2.2.2.2⟩
      all_goals rfl
    refine iff_of_true ?_ hm
    simp only [deallocateLocked, hnom, hhdr, hfr]
    split_ifs <;> rfl

/-- **A pointer that is given back twice is refused the second time** and changes nothing, in every
run and however its block was merged, unless the size of its block is taken for a forwarding
word. -/
theorem double_free_inert_iff (hr : Reachable anyFree h live) (ha : a ∈ live) :
    ∃ h', h.deallocateLocked a.ptr = .ok (true, h') ∧
      (h'.deallocateLocked a.ptr = .ok (false, h') ↔ ¬Misread h' a.ptr) := by
  obtain ⟨bs, owners, hgd, rfl, hhe⟩ := hr.exists_sound
  obtain ⟨p, hp, rfl⟩ := mem_map.mp ha
  have ho := hhe.owns p hp
  have hstart := (hgd.tiles.mem (hhe.mem p hp)).1
  have haln := hgd.tiles.dvd_start hgd.bounded.aligned (hhe.mem p hp)
  have hpos := hgd.bounded.pos
  obtain ⟨cs, ds, rfl⟩ := append_of_mem (hhe.mem p hp)
  obtain ⟨h', -, -, -, heq, -, -, -, hfr⟩ := deallocateLocked_spec hgd ho
  simp only [heapBlockAlignment] at haln
  refine ⟨h', heq, deallocateLocked_inert_iff ?_ ?_ hfr⟩
  · simp only [heapBlockAlignment]
    rcases ho.place with h | ⟨h, -⟩ <;> omega
  · rcases ho.place with h | ⟨h, -⟩ <;> omega

theorem double_free_inert_iff_run : ∃ h', oneFreed.deallocateLocked 160 = .ok (true, h') ∧
    (h'.deallocateLocked 160 = .ok (false, h') ↔ ¬Misread h' 160) :=
  double_free_inert_iff reachable_oneFreed mem_cons_self

/-- Three requests on a heap from 4 MiB on, the second for a block whose size is the address before
its header, and a word the first caller writes to its payload. -/
def threeRequests : Heap :=
  let h := ((((new Bytes.zero).initializeHeap 4194304).afterAllocate ⟨8, 8⟩).afterAllocate
    ⟨4194296, 8⟩).afterAllocate ⟨8, 8⟩
  { h with mem := h.mem.setWord 4194320 4194369 }

/-- **A double free is taken for the free of a block that is not there.** -/
theorem double_free_accepted : Reachable anyFree threeRequests
      [⟨8388672, ⟨8, 8⟩⟩, ⟨4194352, ⟨4194296, 8⟩⟩, ⟨4194320, ⟨8, 8⟩⟩] ∧
    (threeRequests.deallocateLocked 4194352).map Prod.fst = .ok true ∧
    ((threeRequests.afterDeallocate 4194352).deallocateLocked 4194352).map Prod.fst = .ok true := by
  have hno : Reachable anyFree ((new zero).initializeHeap 4194304) [] :=
    .init zero (by decide) (by decide) (by decide)
  have hone : Reachable anyFree _ [⟨4194320, ⟨8, 8⟩⟩] :=
    hno.afterAllocate ⟨3, rfl⟩ (by decide +kernel) (by decide)
  have htwo : Reachable anyFree _ [⟨4194352, ⟨4194296, 8⟩⟩, ⟨4194320, ⟨8, 8⟩⟩] :=
    hone.afterAllocate ⟨3, rfl⟩ (by decide +kernel) (by decide)
  have hthr : Reachable anyFree _
      [⟨8388672, ⟨8, 8⟩⟩, ⟨4194352, ⟨4194296, 8⟩⟩, ⟨4194320, ⟨8, 8⟩⟩] :=
    htwo.afterAllocate ⟨3, rfl⟩ (by decide +kernel) (by decide)
  exact ⟨hthr.write (mem_of_getElem? (i := 2) rfl) fun k hk =>
    setWord_apply_of_apart _ _ (by simp only at hk; omega), by decide +kernel,
    by decide +kernel⟩

end Protofire.Tlsf.Heap
