import Protofire.Lib.Extents

/-!
# The physical frame allocator

The allocator hands out runs of whole frames of the physical pool. Below a high-water mark
(`nextFrame`) a frame is either handed out or in one of the free ranges, which are kept in a
map from the first frame of a range to its length; above the mark every frame is free. A run
is taken from the first range that is long enough, else from the mark, and a run that is given
back is merged with the ranges it touches, after which a range that ends at the mark lowers it.

What the allocator is for is said in terms of the addresses it returns: the *owned* addresses
are those of the frames that were handed out and not given back since. The invariant `Good`
ties them to the two halves of the state, and every call that is made in a good state keeps it,
provided that a run given back starts no free range inside. The source looks for an overlap
in the range before the run and in the ranges from its end on, and so misses the ranges that
start inside it.
-/

namespace Protofire.Memory

open Extents

/-- Bytes in a frame. -/
@[irreducible]
def frameSize : ℕ := 4096

/-- `usize::checked_add`. -/
def checkedAdd (a b : ℕ) : Option ℕ := if a + b < 2 ^ 64 then some (a + b) else none

/-- `usize::checked_mul`. -/
def checkedMul (a b : ℕ) : Option ℕ := if a * b < 2 ^ 64 then some (a * b) else none

theorem checkedAdd_eq_some {a b c : ℕ} : checkedAdd a b = some c ↔ a + b < 2 ^ 64 ∧ a + b = c := by
  unfold checkedAdd
  split <;> simp_all

theorem checkedAdd_of_lt {a b : ℕ} (h : a + b < 2 ^ 64) : checkedAdd a b = some (a + b) :=
  if_pos h

theorem checkedMul_of_lt {a b : ℕ} (h : a * b < 2 ^ 64) : checkedMul a b = some (a * b) :=
  if_pos h

/-- The span the frames are taken from, as two addresses. -/
structure Pool where
  base : ℕ
  stop : ℕ
  base_le : base ≤ stop
  stop_lt : stop < 2 ^ 64

/-- The state of an allocator. -/
structure FrameAllocator where
  base : ℕ
  totalFrames : ℕ
  /-- The high-water mark: what lies below it is handed out or in a free range. -/
  nextFrame : ℕ
  /-- The free ranges below the mark, by their first frame. -/
  freeRanges : Extents
deriving DecidableEq

namespace FrameAllocator

/-- An allocator over the front of the pool. -/
def init (pool : Pool) (totalSize : ℕ) : FrameAllocator where
  base := pool.base
  totalFrames := min totalSize (pool.stop - pool.base) / frameSize
  nextFrame := 0
  freeRanges := SortedMap.empty

/-- An allocator over the frames `[startFrame, endFrame)` of the pool. -/
def setNodeRange (pool : Pool) (startFrame endFrame : ℕ) : FrameAllocator where
  base := pool.base + startFrame * frameSize
  totalFrames := endFrame - startFrame
  nextFrame := 0
  freeRanges := SortedMap.empty

/-! ### The calls -/

variable (a : FrameAllocator)

/-- `frame_address`: none once the address passes the word. -/
def frameAddress (frameStart : ℕ) : Option ℕ :=
  (checkedMul frameStart frameSize).bind (checkedAdd a.base)

/-- The zeroing of a run that is handed out. Only its failure is of interest here, the bytes
are not part of the model. -/
def zeroFrameRange (frameStart count : ℕ) : Option Unit :=
  (a.frameAddress frameStart).bind fun _ => (checkedMul count frameSize).map fun _ => ()

/-- First fit over the free ranges, in the order of their addresses. -/
def allocateFromFreeRanges (ranges : Extents) (count : ℕ) : Option (ℕ × Extents) :=
  match ranges.entries.find? (count ≤ ·.2) with
  | none => none
  | some (start, rangeCount) =>
    some (start, if count < rangeCount
      then (ranges.erase start).insert (start + count) (rangeCount - count)
      else ranges.erase start)

/-- The address of a run, or nothing when the address or the size of it overflows. -/
def handOut (frameStart count : ℕ) : Option ℕ :=
  (a.frameAddress frameStart).bind fun address =>
    (a.zeroFrameRange frameStart count).map fun _ => address

/-- `allocate`: from the free ranges first, then from the frames above the mark. -/
def allocate (count : ℕ) : Option ℕ × FrameAllocator :=
  if a.base = 0 ∨ count = 0 then (none, a)
  else match allocateFromFreeRanges a.freeRanges count with
    | some (frameStart, ranges) =>
      (a.handOut frameStart count, { a with freeRanges := ranges })
    | none =>
      match checkedAdd a.nextFrame count with
      | none => (none, a)
      | some endFrame =>
        if a.totalFrames < endFrame then (none, a)
        else match a.frameAddress a.nextFrame with
          | none => (none, a)
          | some _ => (a.handOut a.nextFrame count, { a with nextFrame := endFrame })

/-- The merging of a run with the ranges that follow it, one a round, and its insertion. The
flag is the function's result. A round takes an entry out of the map, so its size bounds them. -/
def mergeFollowing : ℕ → Extents → ℕ → ℕ → Bool × Extents
  | 0, ranges, newStart, newCount => (true, ranges.insert newStart newCount)
  | rounds + 1, ranges, newStart, newCount =>
    match ranges.firstFrom (newStart + newCount) with
    | none => (true, ranges.insert newStart newCount)
    | some (nextStart, nextCount) =>
      if newStart + newCount < nextStart then (true, ranges.insert newStart newCount)
      else if nextStart < newStart + newCount then (false, ranges)
      else mergeFollowing rounds (ranges.erase nextStart) newStart (newCount + nextCount)

/-- Insert a run that is given back, merged with the ranges it touches; `false` reports an
overlap. -/
def insertFreeRange (ranges : Extents) (startFrame count : ℕ) : Bool × Extents :=
  if count = 0 then (false, ranges)
  else match ranges.lastBelow startFrame with
    | none => mergeFollowing ranges.size ranges startFrame count
    | some (prevStart, prevCount) =>
      if startFrame < prevStart + prevCount then (false, ranges)
      else if startFrame = prevStart + prevCount then
        mergeFollowing ranges.size (ranges.erase prevStart) prevStart (count + prevCount)
      else mergeFollowing ranges.size ranges startFrame count

/-- Lower the mark below the ranges that end at it. -/
def rewindTail : ℕ → ℕ → Extents → ℕ × Extents
  | 0, nextFrame, ranges => (nextFrame, ranges)
  | rounds + 1, nextFrame, ranges =>
    match ranges.last with
    | none => (nextFrame, ranges)
    | some (start, count) =>
      if start + count = nextFrame then rewindTail rounds start (ranges.erase start)
      else (nextFrame, ranges)

/-- `rewind_tail_high_water_mark`. -/
def rewindTailHighWaterMark : FrameAllocator :=
  let r := rewindTail a.freeRanges.size a.nextFrame a.freeRanges
  { a with nextFrame := r.1, freeRanges := r.2 }

/-- `deallocate`: the run joins the free ranges, unless it overlaps one of them. -/
def deallocate (ptr count : ℕ) : Bool × FrameAllocator :=
  if a.base = 0 ∨ ptr = 0 ∨ count = 0 then (false, a)
  else if ptr < a.base then (false, a)
  else if (ptr - a.base) % frameSize ≠ 0 then (false, a)
  else match checkedAdd ((ptr - a.base) / frameSize) count with
    | none => (false, a)
    | some endFrame =>
      if a.totalFrames < endFrame ∨ a.nextFrame < endFrame then (false, a)
      else match insertFreeRange a.freeRanges ((ptr - a.base) / frameSize) count with
        | (false, ranges) => (false, { a with freeRanges := ranges })
        | (true, ranges) => (true, { a with freeRanges := ranges }.rewindTailHighWaterMark)

/-! ### What the map operations do to the free frames -/

variable {ranges : Extents} {start count : ℕ}

/-- No free range starts inside a run. -/
def NoStartIn (ranges : Extents) (start count : ℕ) : Prop :=
  ∀ e ∈ ranges, ¬(start ≤ e.1 ∧ e.1 < start + count)

/-- No frame of a run is free. -/
def Unfree (ranges : Extents) (start count : ℕ) : Prop :=
  ∀ f, start ≤ f → f < start + count → ¬Covers ranges f

/-- The ranges end where the frames they cover do. -/
theorem stop_le_of_covers (h : Separate ranges) {stop : ℕ} (hlt : ∀ f, Covers ranges f → f < stop)
    {e : ℕ × ℕ} (he : e ∈ ranges) : e.1 + e.2 ≤ stop := by
  have hpos := h.pos e he
  have := hlt (e.1 + e.2 - 1) ⟨e, he, by omega, by omega⟩
  omega

/-- First fit takes a run of free frames, and frees nothing. -/
theorem allocateFromFreeRanges_spec (h : Separate ranges) (hcnt : 0 < count) {after : Extents}
    (heq : allocateFromFreeRanges ranges count = some (start, after)) :
    (∃ free, (start, free) ∈ ranges ∧ count ≤ free) ∧ Separate after ∧
      ∀ f, Covers after f ↔ Covers ranges f ∧ ¬(start ≤ f ∧ f < start + count) := by
  unfold allocateFromFreeRanges at heq
  cases hfd : ranges.entries.find? (count ≤ ·.2) with
  | none => simp [hfd] at heq
  | some e =>
    obtain ⟨k, free⟩ := e
    have hmem : (k, free) ∈ ranges := List.mem_of_find?_eq_some hfd
    have hle : count ≤ free := by simpa using List.find?_some hfd
    simp only [hfd, Option.some.injEq, Prod.mk.injEq] at heq
    obtain ⟨rfl, rfl⟩ := heq
    have htake : (if count < free then (ranges.erase k).insert (k + count) (free - count)
        else ranges.erase k) = take ranges k count := by
      rw [take, (ranges.get?_eq_some).mpr hmem]
      by_cases hlt : count < free
      · simp [hlt, hlt.ne']
      · simp [(by omega : free = count)]
    rw [htake]
    exact ⟨⟨free, hmem, hle⟩, take_spec h hmem hle hcnt⟩

variable (rounds : ℕ)

theorem mergeFollowing_spec (h : Separate ranges) (hcnt : 0 < count)
    (hfr : Unfree ranges start count) : (mergeFollowing rounds ranges start count).1 = true ∧
      Separate (mergeFollowing rounds ranges start count).2 ∧
      ∀ f, Covers (mergeFollowing rounds ranges start count).2 f ↔
        Covers ranges f ∨ start ≤ f ∧ f < start + count := by
  induction rounds generalizing ranges count with
  | zero => exact ⟨rfl, h.insert hcnt hfr, fun f => covers_insert h hcnt hfr⟩
  | succ n ih =>
    rw [mergeFollowing]
    cases hnx : ranges.firstFrom (start + count) with
    | none => exact ⟨rfl, h.insert hcnt hfr, fun f => covers_insert h hcnt hfr⟩
    | some e =>
      obtain ⟨hmem, hle⟩ := ranges.firstFrom_mem hnx
      by_cases hgap : start + count < e.1
      · simp only [if_pos hgap]
        exact ⟨trivial, h.insert hcnt hfr, fun f => covers_insert h hcnt hfr⟩
      simp only [if_neg hgap, if_neg (not_lt.mpr hle)]
      have hera := fun f => covers_erase (b := f) h hmem
      have hfr' : Unfree (ranges.erase e.1) start (count + e.2) := by
        intro f h₁ h₂ hc
        obtain ⟨hc, hout⟩ := (hera f).mp hc
        exact hfr f h₁ (by omega) hc
      obtain ⟨htrue, hsep, hcov⟩ := ih (h.erase e.1) (by omega) hfr'
      refine ⟨htrue, hsep, fun f => ?_⟩
      rw [hcov f, hera f]
      constructor
      · rintro (⟨hf, -⟩ | hf)
        · exact Or.inl hf
        by_cases hin : f < start + count
        · exact Or.inr ⟨hf.1, hin⟩
        · exact Or.inl ⟨e, hmem, by omega, by omega⟩
      · rintro (hf | hf)
        · by_cases hin : e.1 ≤ f ∧ f < e.1 + e.2
          · exact Or.inr (by omega)
          · exact Or.inl ⟨hf, hin⟩
        · exact Or.inr (by omega)

/-- A run that no range starts in overlaps the ranges only through the one before it. -/
theorem unfree_of_lastBelow (h : Separate ranges) (hno : NoStartIn ranges start count)
    (hla : ∀ e, ranges.lastBelow start = some e → e.1 + e.2 ≤ start) :
    Unfree ranges start count := by
  rintro f h₁ h₂ ⟨e, he, heb⟩
  have hlt : e.1 < start := by
    have := hno e he
    omega
  cases hpv : ranges.lastBelow start with
  | none => exact ranges.not_lt_of_lastBelow hpv he hlt
  | some p =>
    have hp := hla p hpv
    have hmem := (ranges.lastBelow_mem hpv)
    rcases Nat.lt_or_eq_of_le (ranges.le_lastBelow hpv he hlt) with hep | hep
    · have := h.apart e he p hmem.1 hep
      omega
    obtain ⟨k, c⟩ := e
    obtain ⟨l, d⟩ := p
    obtain rfl : k = l := hep
    rw [SortedMap.eq_of_mem he hmem.1] at heb
    omega

/-- The overlap the source reports from a following range cannot happen: the range is looked
for from the end of the run on. -/
theorem mergeFollowing_fst (ranges : Extents) (start count : ℕ) :
    (mergeFollowing rounds ranges start count).1 = true := by
  induction rounds generalizing ranges count with
  | zero => rfl
  | succ n ih =>
    rw [mergeFollowing]
    cases hnx : ranges.firstFrom (start + count) with
    | none => rfl
    | some e =>
      have hle := (ranges.firstFrom_mem hnx).2
      by_cases hgap : start + count < e.1
      · simp only [if_pos hgap]
      simp only [if_neg hgap, if_neg (not_lt.mpr hle)]
      exact ih _ _

/-- **A rejected run changes nothing**, whatever the map holds. -/
theorem insertFreeRange_false (heq : (insertFreeRange ranges start count).1 = false) :
    (insertFreeRange ranges start count).2 = ranges := by
  unfold insertFreeRange at heq ⊢
  split
  · rfl
  rename_i hcnt
  rw [if_neg hcnt] at heq
  cases hpv : ranges.lastBelow start with
  | none => simp [hpv, mergeFollowing_fst] at heq
  | some p =>
    simp only [hpv] at heq ⊢
    split
    · rfl
    rename_i hlt
    simp only [if_neg hlt] at heq
    split at heq <;> simp [mergeFollowing_fst] at heq

/-- **An accepted run that no range starts in was not free**, and its frames are what the map
gains. -/
theorem insertFreeRange_true (h : Separate ranges) (hno : NoStartIn ranges start count)
    (heq : (insertFreeRange ranges start count).1 = true) :
    Unfree ranges start count ∧ Separate (insertFreeRange ranges start count).2 ∧
      ∀ f, Covers (insertFreeRange ranges start count).2 f ↔
        Covers ranges f ∨ start ≤ f ∧ f < start + count := by
  unfold insertFreeRange at heq ⊢
  by_cases hcnt : count = 0
  · simp [hcnt] at heq
  simp only [if_neg hcnt] at heq ⊢
  have hpos : 0 < count := Nat.pos_of_ne_zero hcnt
  cases hpv : ranges.lastBelow start with
  | none =>
    have hfr := unfree_of_lastBelow h hno (by simp [hpv])
    exact ⟨hfr, (mergeFollowing_spec _ h hpos hfr).2⟩
  | some p =>
    simp only [hpv] at heq ⊢
    by_cases hlt : start < p.1 + p.2
    · simp [hlt] at heq
    have hfr : Unfree ranges start count := by
      refine unfree_of_lastBelow h hno fun e he => ?_
      obtain rfl : p = e := Option.some.inj (hpv.symm.trans he)
      omega
    simp only [if_neg hlt]
    by_cases htouch : start = p.1 + p.2
    swap
    · simp only [if_neg htouch]
      exact ⟨hfr, (mergeFollowing_spec _ h hpos hfr).2⟩
    simp only [if_pos htouch]
    obtain ⟨hmem, -⟩ := ranges.lastBelow_mem hpv
    have hera := fun f => covers_erase (b := f) h hmem
    have hfr' : Unfree (ranges.erase p.1) p.1 (count + p.2) := by
      intro f h₁ h₂ hc
      obtain ⟨hc, hout⟩ := (hera f).mp hc
      exact hfr f (by omega) (by omega) hc
    obtain ⟨-, hsep, hcov⟩ := mergeFollowing_spec ranges.size (h.erase p.1) (by omega) hfr'
    refine ⟨hfr, hsep, fun f => ?_⟩
    rw [hcov f, hera f]
    constructor
    · rintro (⟨hf, -⟩ | hf)
      · exact Or.inl hf
      by_cases hin : f < start
      · exact Or.inl ⟨p, hmem, by omega, by omega⟩
      · exact Or.inr (by omega)
    · rintro (hf | hf)
      · by_cases hin : p.1 ≤ f ∧ f < p.1 + p.2
        · exact Or.inr (by omega)
        · exact Or.inl ⟨hf, hin⟩
      · exact Or.inr (by omega)

/-- Lowering the mark changes no frame: what was below it and not free still is. -/
theorem rewindTail_spec {nextFrame : ℕ} (h : Separate ranges)
    (hbel : ∀ f, Covers ranges f → f < nextFrame) :
    Separate (rewindTail rounds nextFrame ranges).2 ∧
      (∀ f, Covers (rewindTail rounds nextFrame ranges).2 f →
        f < (rewindTail rounds nextFrame ranges).1) ∧
      (rewindTail rounds nextFrame ranges).1 ≤ nextFrame ∧
      ∀ f, (f < (rewindTail rounds nextFrame ranges).1 ∧
        ¬Covers (rewindTail rounds nextFrame ranges).2 f) ↔ f < nextFrame ∧ ¬Covers ranges f := by
  induction rounds generalizing nextFrame ranges with
  | zero => exact ⟨h, hbel, le_refl _, fun f => Iff.rfl⟩
  | succ n ih =>
    rw [rewindTail]
    cases hla : ranges.last with
    | none => exact ⟨h, hbel, le_refl _, fun f => Iff.rfl⟩
    | some e =>
      simp only
      by_cases htl : e.1 + e.2 = nextFrame
      swap
      · rw [if_neg htl]
        exact ⟨h, hbel, le_refl _, fun f => Iff.rfl⟩
      rw [if_pos htl]
      have hmem := ranges.last_mem hla
      have hbel' : ∀ f, Covers (ranges.erase e.1) f → f < e.1 := by
        intro f hf
        obtain ⟨hf, hout⟩ := (covers_erase h hmem).mp hf
        have := hbel f hf
        omega
      obtain ⟨hsep, hb, hle, hiff⟩ := ih (h.erase e.1) hbel'
      refine ⟨hsep, hb, by omega, fun f => (hiff f).trans ?_⟩
      rw [covers_erase h hmem]
      constructor
      · rintro ⟨hlt, hnot⟩
        exact ⟨by omega, fun hc => hnot ⟨hc, by omega⟩⟩
      rintro ⟨hlt, hnot⟩
      have hout : ¬(e.1 ≤ f ∧ f < e.1 + e.2) := fun hin => hnot ⟨e, hmem, hin⟩
      exact ⟨by omega, fun hc => hnot hc.1⟩

/-! ### Ownership -/

/-- The addresses of the frames of a run. -/
def frames (ptr count : ℕ) : Set ℕ := {address | ∃ i < count, address = ptr + i * frameSize}

theorem mem_frames {base start count f : ℕ} :
    base + f * frameSize ∈ frames (base + start * frameSize) count ↔
      start ≤ f ∧ f < start + count := by
  simp only [frames, Set.mem_ofPred_eq, frameSize]
  constructor
  · omega
  rintro ⟨hle, hlt⟩
  exact ⟨f - start, by omega, by omega⟩

variable (base : ℕ)

/-- The addresses of the frames with a property. -/
def addresses (P : ℕ → Prop) : Set ℕ :=
  {address | ∃ f, P f ∧ address = base + f * frameSize}

theorem mem_addresses {base f : ℕ} {P : ℕ → Prop} :
    base + f * frameSize ∈ addresses base P ↔ P f := by
  simp only [addresses, frameSize]
  constructor
  · rintro ⟨g, hg, heq⟩
    obtain rfl : f = g := by omega
    exact hg
  · exact fun hf => ⟨f, hf, rfl⟩

theorem frames_eq (base start count : ℕ) : frames (base + start * frameSize) count =
      addresses base fun f => start ≤ f ∧ f < start + count := by
  ext address
  constructor
  · rintro ⟨i, hi, rfl⟩
    exact ⟨start + i, by omega, by simp only [frameSize]; omega⟩
  · rintro ⟨f, hf, rfl⟩
    exact mem_frames.mpr hf

theorem addresses_congr {base : ℕ} {P Q : ℕ → Prop} (h : ∀ f, P f ↔ Q f) :
    addresses base P = addresses base Q :=
  congrArg (addresses base) (funext fun f => propext (h f))

variable (P Q : ℕ → Prop)

theorem addresses_union :
    addresses base P ∪ addresses base Q = addresses base fun f => P f ∨ Q f := by
  ext address
  constructor
  · rintro (⟨f, hf, rfl⟩ | ⟨f, hf, rfl⟩)
    · exact ⟨f, Or.inl hf, rfl⟩
    · exact ⟨f, Or.inr hf, rfl⟩
  · rintro ⟨f, hf | hf, rfl⟩
    · exact Or.inl ⟨f, hf, rfl⟩
    · exact Or.inr ⟨f, hf, rfl⟩

theorem addresses_diff :
    addresses base P \ addresses base Q = addresses base fun f => P f ∧ ¬Q f := by
  ext address
  constructor
  · rintro ⟨⟨f, hf, rfl⟩, hnot⟩
    exact ⟨f, ⟨hf, fun hq => hnot ⟨f, hq, rfl⟩⟩, rfl⟩
  · rintro ⟨f, ⟨hf, hq⟩, rfl⟩
    exact ⟨⟨f, hf, rfl⟩, fun hmem => hq (mem_addresses.mp hmem)⟩

/-- A call of the allocator's interface. -/
inductive Call
  | allocate (count : ℕ)
  | deallocate (ptr count : ℕ)

/-- An allocator with the addresses that were handed out and not given back since. -/
structure Ledger where
  allocator : FrameAllocator
  owned : Set ℕ

/-- A call, with what its result says about the ownership: a run that is returned is owned, a
run that is accepted back is not. -/
def Ledger.call (l : Ledger) : Call → Ledger
  | .allocate count =>
    ⟨(l.allocator.allocate count).2, match (l.allocator.allocate count).1 with
      | some ptr => l.owned ∪ frames ptr count
      | none => l.owned⟩
  | .deallocate ptr count =>
    ⟨(l.allocator.deallocate ptr count).2, match (l.allocator.deallocate ptr count).1 with
      | true => l.owned \ frames ptr count
      | false => l.owned⟩

/-- An allocator as it is configured, before its first call: over the front of the pool, or
over a part of it. -/
inductive Configured : FrameAllocator → Prop
  | init (pool : Pool) (totalSize : ℕ) : Configured (init pool totalSize)
  | node (pool : Pool) (startFrame endFrame : ℕ)
      (hle : startFrame ≤ endFrame) (h : endFrame * frameSize ≤ pool.stop - pool.base) :
      Configured (setNodeRange pool startFrame endFrame)

/-- No free range starts at a frame that a call gives back. -/
def Clear : Call → Prop
  | .allocate _ => True
  | .deallocate ptr count => ∀ e ∈ a.freeRanges, a.base + e.1 * frameSize ∉ frames ptr count

/-- What a sequence of calls reaches from a configured allocator, where each call meets a
condition on the state before it. -/
inductive Reachable (ok : FrameAllocator → Call → Prop) : Ledger → Prop
  | start {a : FrameAllocator} (h : Configured a) : Reachable ok ⟨a, ∅⟩
  | call {l : Ledger} (h : Reachable ok l) (c : Call) (hc : ok l.allocator c) :
      Reachable ok (l.call c)

/-- A frame is below the mark and not free. -/
def Live (f : ℕ) : Prop := f < a.nextFrame ∧ ¬Covers a.freeRanges f

/-- The invariant of the ledger: the free ranges are apart and below the mark, the frames have
addresses, and the owned addresses are those of the frames below the mark that are not free. -/
structure Good (l : Ledger) : Prop where
  separate : Separate l.allocator.freeRanges
  below : ∀ f, Covers l.allocator.freeRanges f → f < l.allocator.nextFrame
  next_le : l.allocator.nextFrame ≤ l.allocator.totalFrames
  placed : l.allocator.base + l.allocator.totalFrames * frameSize < 2 ^ 64
  owned : l.owned = addresses l.allocator.base l.allocator.Live

theorem good_start {a : FrameAllocator} (h : Configured a) : Good ⟨a, ∅⟩ := by
  cases h with
  | init pool totalSize =>
    have hle := pool.base_le
    have hlt := pool.stop_lt
    have hdiv := Nat.div_mul_le_self (min totalSize (pool.stop - pool.base)) frameSize
    exact ⟨separate_empty, fun _ h => absurd h not_covers_empty, Nat.zero_le _,
      by simp only [init]; omega, by simp [addresses, Live, init]⟩
  | node pool startFrame endFrame hrng h =>
    have hle := pool.base_le
    have hlt := pool.stop_lt
    refine ⟨separate_empty, fun _ h => absurd h not_covers_empty, Nat.zero_le _, ?_,
      by simp [addresses, Live, setNodeRange]⟩
    simp only [setNodeRange, frameSize] at h ⊢
    omega

/-! ### What one call does -/

variable {l : Ledger} {ptr : ℕ}

/-- A run below the end of the pool has an address and a size. -/
theorem Good.handOut (h : Good l) (hle : start + count ≤ l.allocator.totalFrames) :
    l.allocator.handOut start count = some (l.allocator.base + start * frameSize) := by
  have hplaced := h.placed
  simp only [frameSize] at hplaced
  obtain ⟨hoff, hbytes, hsum⟩ : start * frameSize < 2 ^ 64 ∧ count * frameSize < 2 ^ 64 ∧
      l.allocator.base + start * frameSize < 2 ^ 64 := by
    simp only [frameSize]
    omega
  simp only [FrameAllocator.handOut, zeroFrameRange, frameAddress, checkedMul_of_lt hoff,
    checkedMul_of_lt hbytes, checkedAdd_of_lt hsum, Option.bind_some, Option.map_some]

/-- What `allocate` can do in a good state. -/
theorem Good.allocate_cases (h : Good l) (count : ℕ) :
    l.allocator.allocate count = (none, l.allocator) ∨ 0 < count ∧ ∃ start,
      (l.allocator.allocate count).1 = some (l.allocator.base + start * frameSize) ∧
      ((∃ after, allocateFromFreeRanges l.allocator.freeRanges count = some (start, after) ∧
          (l.allocator.allocate count).2 = { l.allocator with freeRanges := after }) ∨
        start = l.allocator.nextFrame ∧ start + count ≤ l.allocator.totalFrames ∧
          (l.allocator.allocate count).2 = { l.allocator with nextFrame := start + count }) := by
  unfold FrameAllocator.allocate
  by_cases hzero : l.allocator.base = 0 ∨ count = 0
  · exact Or.inl (by rw [if_pos hzero])
  have hcnt : 0 < count := by omega
  rw [if_neg hzero]
  cases hfrom : allocateFromFreeRanges l.allocator.freeRanges count with
  | some r =>
    obtain ⟨start, after⟩ := r
    obtain ⟨⟨free, hmem, hle⟩, -⟩ := allocateFromFreeRanges_spec h.separate hcnt hfrom
    have hbel := stop_le_of_covers h.separate h.below hmem
    have hnx := h.next_le
    refine Or.inr ⟨hcnt, start, ?_, Or.inl ⟨after, rfl, rfl⟩⟩
    exact h.handOut (by omega)
  | none =>
    cases hadd : checkedAdd l.allocator.nextFrame count with
    | none => exact Or.inl rfl
    | some endFrame =>
      obtain ⟨-, rfl⟩ := checkedAdd_eq_some.mp hadd
      simp only
      by_cases hfu : l.allocator.totalFrames < l.allocator.nextFrame + count
      · exact Or.inl (by rw [if_pos hfu])
      have hout := h.handOut (not_lt.mp hfu)
      rw [if_neg hfu]
      cases haddr : l.allocator.frameAddress l.allocator.nextFrame with
      | none => simp [FrameAllocator.handOut, haddr] at hout
      | some address => exact Or.inr ⟨hcnt, _, hout, Or.inr ⟨rfl, not_lt.mp hfu, rfl⟩⟩

/-- What `deallocate` can do: it rejects and changes nothing, or the run is one of whole frames
below the mark and goes into the free ranges. -/
theorem deallocate_cases (ptr count : ℕ) :
    a.deallocate ptr count = (false, a) ∨ ∃ start, ptr = a.base + start * frameSize ∧
      0 < count ∧ start + count ≤ a.nextFrame ∧
      (insertFreeRange a.freeRanges start count).1 = true ∧ a.deallocate ptr count = (true, { a with
        freeRanges := (insertFreeRange a.freeRanges start count).2 }.rewindTailHighWaterMark) := by
  unfold deallocate
  by_cases hzero : a.base = 0 ∨ ptr = 0 ∨ count = 0
  · exact Or.inl (by rw [if_pos hzero])
  by_cases hlow : ptr < a.base
  · exact Or.inl (by rw [if_neg hzero, if_pos hlow])
  by_cases hwhole : (ptr - a.base) % frameSize ≠ 0
  · exact Or.inl (by rw [if_neg hzero, if_neg hlow, if_pos hwhole])
  rw [if_neg hzero, if_neg hlow, if_neg hwhole]
  have hptr : ptr = a.base + (ptr - a.base) / frameSize * frameSize := by
    have := Nat.div_add_mod (ptr - a.base) frameSize
    rw [Nat.mul_comm] at this
    omega
  generalize (ptr - a.base) / frameSize = start at hptr ⊢
  cases hadd : checkedAdd start count with
  | none => exact Or.inl rfl
  | some endFrame =>
    obtain ⟨-, rfl⟩ := checkedAdd_eq_some.mp hadd
    simp only
    by_cases hend : a.totalFrames < start + count ∨ a.nextFrame < start + count
    · exact Or.inl (by rw [if_pos hend])
    rw [if_neg hend]
    cases hins : insertFreeRange a.freeRanges start count with
    | mk flag ranges =>
      cases flag with
      | true => exact Or.inr ⟨start, hptr, by omega, by omega, by rw [hins], by rw [hins]⟩
      | false =>
        have hsm := insertFreeRange_false (show (insertFreeRange a.freeRanges start count).1 =
          false by rw [hins])
        rw [hins] at hsm
        simp only at hsm
        exact Or.inl (by simp only [hsm])

/-- **A call that gives back a clear run keeps the ledger good.** -/
theorem Good.call (h : Good l) {c : Call} (hc : Clear l.allocator c) : Good (l.call c) := by
  cases c with
  | allocate count =>
    rcases h.allocate_cases count with heq | ⟨hcnt, start, hso, hre⟩
    · simpa only [Ledger.call, heq] using h
    rcases hre with ⟨after, hfrom, hst⟩ | ⟨rfl, hle, hst⟩
    · obtain ⟨⟨free, hmem, hfit⟩, hsep, hcov⟩ :=
        allocateFromFreeRanges_spec h.separate hcnt hfrom
      have hbel := stop_le_of_covers h.separate h.below hmem
      simp only [Ledger.call, hso, hst]
      refine ⟨hsep, fun f hf => h.below f ((hcov f).mp hf).1, h.next_le, h.placed, ?_⟩
      rw [h.owned, frames_eq, addresses_union]
      refine addresses_congr fun f => ?_
      simp only [Live, hcov f]
      by_cases hin : start ≤ f ∧ f < start + count
      · omega
      · simp only [hin, or_false, not_false_eq_true, and_true]
    simp only [Ledger.call, hso, hst]
    refine ⟨h.separate, fun f hf => (h.below f hf).trans_le (Nat.le_add_right ..), hle,
      h.placed, ?_⟩
    rw [h.owned, frames_eq, addresses_union]
    refine addresses_congr fun f => ?_
    have hbel := h.below f
    simp only [Live]
    constructor
    · rintro (hf | hf)
      · exact ⟨by omega, hf.2⟩
      · exact ⟨hf.2, fun hc => by have := hbel hc; omega⟩
    rintro ⟨hlt, hf⟩
    by_cases hin : f < l.allocator.nextFrame
    · exact Or.inl ⟨hin, hf⟩
    · exact Or.inr ⟨by omega, hlt⟩
  | deallocate ptr count =>
    rcases deallocate_cases l.allocator ptr count with heq | ⟨start, rfl, hcnt, hle, htrue, heq⟩
    · simpa only [Ledger.call, heq] using h
    have hno : NoStartIn l.allocator.freeRanges start count := fun e he hin =>
      hc e he (mem_frames.mpr hin)
    obtain ⟨hunf, hsep, hcov⟩ := insertFreeRange_true h.separate hno htrue
    have hbel : ∀ f, Covers (insertFreeRange l.allocator.freeRanges start count).2 f →
        f < l.allocator.nextFrame := by
      intro f hf
      rcases (hcov f).mp hf with hf | hf
      · exact h.below f hf
      · omega
    obtain ⟨hsep', hbel', hle', hlv⟩ := rewindTail_spec
      (insertFreeRange l.allocator.freeRanges start count).2.size hsep hbel
    simp only [Ledger.call, heq]
    refine ⟨hsep', hbel', hle'.trans h.next_le, h.placed, ?_⟩
    rw [h.owned, frames_eq, addresses_diff]
    refine addresses_congr fun f => Iff.trans ?_ (hlv f).symm
    rw [hcov f, not_or, Live, and_assoc]

theorem Reachable.mono {ok ok' : FrameAllocator → Call → Prop} (hok : ∀ a c, ok a c → ok' a c)
    (h : Reachable ok l) : Reachable ok' l := by
  induction h with
  | start h => exact .start h
  | call _ c hc ih => exact .call ih c (hok _ _ hc)

theorem Reachable.good (h : Reachable Clear l) : Good l := by
  induction h with
  | start h => exact good_start h
  | call _ c hc ih => exact ih.call hc

/-! ### The ownership of the frames -/

/-- A run that is handed out has no owned frame in it. -/
theorem Good.disjoint_allocate (h : Good l)
    (hso : (l.allocator.allocate count).1 = some ptr) : Disjoint l.owned (frames ptr count) := by
  rcases h.allocate_cases count with heq | ⟨hcnt, start, hptr, hre⟩
  · rw [heq] at hso
    cases hso
  obtain rfl : l.allocator.base + start * frameSize = ptr := Option.some.inj (hptr.symm.trans hso)
  have hout : ∀ f, start ≤ f → f < start + count → ¬l.allocator.Live f := by
    rintro f h₁ h₂ ⟨hlt, hnot⟩
    rcases hre with ⟨after, hfrom, -⟩ | ⟨rfl, -, -⟩
    · obtain ⟨⟨free, hmem, hfit⟩, -⟩ := allocateFromFreeRanges_spec h.separate hcnt hfrom
      exact hnot ⟨(start, free), hmem, h₁, by omega⟩
    · omega
  rw [h.owned, frames_eq, Set.disjoint_left]
  rintro _ ⟨f, hlv, rfl⟩ hmem
  obtain ⟨h₁, h₂⟩ := mem_addresses.mp hmem
  exact hout f h₁ h₂ hlv

/-- A run that is accepted back is owned throughout exactly if it is clear. -/
theorem Good.subset_iff_clear (h : Good l) (htrue : (l.allocator.deallocate ptr count).1 = true) :
    frames ptr count ⊆ l.owned ↔ Clear l.allocator (.deallocate ptr count) := by
  rcases deallocate_cases l.allocator ptr count with heq | ⟨start, rfl, -, hle, hins, -⟩
  · rw [heq] at htrue
    cases htrue
  rw [h.owned]
  constructor
  · intro hsub e he hmem
    have hpos := h.separate.pos e he
    exact (mem_addresses.mp (hsub hmem)).2 ⟨e, he, le_refl _, by omega⟩
  intro hclear
  have hno : NoStartIn l.allocator.freeRanges start count := fun e he hin =>
    hclear e he (mem_frames.mpr hin)
  obtain ⟨hunf, -⟩ := insertFreeRange_true h.separate hno hins
  rw [frames_eq]
  rintro _ ⟨f, hf, rfl⟩
  exact mem_addresses.mpr ⟨by omega, hunf f hf.1 hf.2⟩

/-- **A frame has one owner.** After any calls that give back clear runs, a run that is handed
out has no owned frame in it; a run that is accepted back is owned throughout, exactly if no
free range starts in it; and a clear run with a frame that is not owned is rejected, as is
every other run that is not accepted, with the allocator left as it was. -/
theorem ownership (h : Reachable Clear l) :
    (∀ count ptr, (l.allocator.allocate count).1 = some ptr → Disjoint l.owned (frames ptr count)) ∧
    (∀ ptr count, (l.allocator.deallocate ptr count).1 = true →
      (frames ptr count ⊆ l.owned ↔ Clear l.allocator (.deallocate ptr count))) ∧
    (∀ ptr count, Clear l.allocator (.deallocate ptr count) → ¬frames ptr count ⊆ l.owned →
      l.allocator.deallocate ptr count = (false, l.allocator)) ∧
    ∀ ptr count, (l.allocator.deallocate ptr count).1 = false →
      l.allocator.deallocate ptr count = (false, l.allocator) := by
  refine ⟨fun count ptr => h.good.disjoint_allocate, fun ptr count => h.good.subset_iff_clear,
    fun ptr count hclear hnot => ?_, fun ptr count hfls => ?_⟩
  · rcases deallocate_cases l.allocator ptr count with heq | ⟨start, -, -, -, -, heq⟩
    · exact heq
    · exact absurd ((h.good.subset_iff_clear (by rw [heq])).mpr hclear) hnot
  rcases deallocate_cases l.allocator ptr count with heq | ⟨start, -, -, -, -, heq⟩
  · exact heq
  rw [heq] at hfls
  cases hfls

/-- A pool of sixteen frames. -/
def smallPool : Pool := ⟨0x100000, 0x110000, by decide, by decide⟩

/-- The small pool after four frames were handed out and the second of them was given back. -/
def holed : Ledger :=
  ((((Ledger.mk (init smallPool 0x10000) ∅).call (.allocate 1)).call (.allocate 1)).call
    (.allocate 1)).call (.allocate 1) |>.call (.deallocate 0x101000 1)

theorem reachable_holed : Reachable Clear holed := by
  refine .call (.call (.call (.call (.call (.start (.init _ _)) _ ?_) _ ?_) _ ?_) _ ?_) _ ?_
  any_goals exact trivial
  intro e he
  exact absurd he ((SortedMap.not_mem_of_size _ (by decide +kernel)))

theorem ownership_holed : (holed.allocator.allocate 1).1 = some 0x101000 ∧
    Disjoint holed.owned (frames 0x101000 1) :=
  have hsome : (holed.allocator.allocate 1).1 = some 0x101000 := by decide +kernel
  ⟨hsome, (ownership reachable_holed).1 1 0x101000 hsome⟩

/-- **A frame can have two owners.** In the small pool the run of the first three frames is
accepted back although the second of them is free, and that frame is then handed out twice. -/
theorem exists_two_owners :
    (Reachable (fun _ _ => True) holed ∧ (holed.allocator.deallocate 0x100000 3).1 = true ∧
      ¬frames 0x100000 3 ⊆ holed.owned) ∧
    ∃ l, Reachable (fun _ _ => True) l ∧ (l.allocator.allocate 1).1 = some 0x101000 ∧
      ¬Disjoint l.owned (frames 0x101000 1) := by
  have hrch : Reachable (fun _ _ => True) holed := reachable_holed.mono fun _ _ _ => trivial
  have hbase : holed.allocator.base = 0x100000 := by decide +kernel
  have hfr : (1, 1) ∈ holed.allocator.freeRanges.entries := by decide +kernel
  have hadr : 0x101000 = 0x100000 + 1 * frameSize := by decide +kernel
  refine ⟨⟨hrch, by decide +kernel, fun hsub => ?_⟩,
    (holed.call (.deallocate 0x100000 3)).call (.allocate 3),
    .call (.call hrch _ trivial) _ trivial, by decide +kernel, ?_⟩
  · -- the second frame is in the free range that starts at it
    have hmem := hsub ⟨1, by decide, rfl⟩
    rw [reachable_holed.good.owned, hbase] at hmem
    exact (mem_addresses.mp hmem).2 ⟨(1, 1), hfr, by decide, by decide⟩
  have hso : ((holed.call (.deallocate 0x100000 3)).allocator.allocate 3).1 =
      some 0x100000 := by decide +kernel
  rw [Set.not_disjoint_iff]
  refine ⟨0x101000, ?_, ⟨0, by decide, by omega⟩⟩
  simp only [Ledger.call] at hso ⊢
  rw [hso]
  exact Or.inr ⟨1, by decide, hadr⟩

end FrameAllocator

end Protofire.Memory
