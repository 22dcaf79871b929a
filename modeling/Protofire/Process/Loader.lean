import Protofire.Kernel.Block

/-!
# The plan of a program's image

`plan_user_image_load` (`user/program/loader/plan.rs`) lays out the segments of an ELF file below
the stacks, and `has_consistent_runtime_layout` (`loader/mod.rs`) checks a plan before a thread
starts in it. The planner compares the bytes of neighbours, and only if their permissions differ;
the check compares pages.
-/

namespace Protofire.Loader

open List

/-- `USER_PAGE_SIZE`. -/
abbrev pageSize : ℕ := 4096

/-- `USER_IMAGE_STACK_GAP`. -/
abbrev imageStackGap : ℕ := 65536

/-- `checked_add` of 64-bit numbers. -/
def checkedAdd (a b : ℕ) : Option ℕ := if a + b < 2 ^ 64 then some (a + b) else none

def alignDown (value : ℕ) : ℕ := value - value % pageSize

/-- `align_up`: none past the word. -/
def alignUp (value : ℕ) : Option ℕ := (checkedAdd value (pageSize - 1)).map alignDown

/-- Two half-open ranges meet. -/
def rangesOverlap (leftStart leftEnd rightStart rightEnd : ℕ) : Bool :=
  leftStart < rightEnd && rightStart < leftEnd

/-- Every page is readable. -/
structure PagePermissions where
  (write execute : Bool)
deriving DecidableEq

/-- A segment as `load_segments` returns it, which has checked its sizes and its alignment. The mask
of an alignment is then a remainder. -/
structure ElfLoadSegment where
  (virtualAddress fileOffset fileSize memorySize alignment : ℕ)
  (readable writable executable : Bool)
  fileSize_le : fileSize ≤ memorySize
  alignment_pow : alignment = 0 ∨ alignment.isPowerOfTwo

namespace ElfLoadSegment

variable (e : ElfLoadSegment)

/-- The address of the first page that a segment of the file reaches into. -/
def firstPage : ℕ := alignDown e.virtualAddress

/-- The address after the last page that a segment of the file reaches into. -/
def pagesEnd : ℕ := alignDown (e.virtualAddress + e.memorySize + (pageSize - 1))

/-- No page belongs to both of two segments of the file. -/
def SharesNoPage (e' : ElfLoadSegment) : Prop :=
  e.pagesEnd ≤ e'.firstPage ∨ e'.pagesEnd ≤ e.firstPage

end ElfLoadSegment

open ElfLoadSegment

/-- The bytes of a load segment, its pages and what of it is zeroed. -/
structure UserImageSegmentPlan where
  (virtualStart virtualEnd pageStart pageEnd zeroStart zeroEnd : ℕ)
  permissions : PagePermissions
deriving DecidableEq

/-- The bounds of the user stack, or of the exception stack. -/
structure Stack where
  (guardStart guardEnd bottom top : ℕ)
deriving DecidableEq

/-- The image, the two stacks and the segments. -/
structure UserImageLoadPlan where
  (imageStart imageEnd : ℕ)
  (stack exceptionStack : Stack)
  segments : List UserImageSegmentPlan
deriving DecidableEq

/-- What fails here is `InvalidArgument`. -/
def planUserImageSegment (s : ElfLoadSegment) : Option UserImageSegmentPlan := do
  let virtualEnd ← checkedAdd s.virtualAddress s.memorySize
  let zeroStart ← checkedAdd s.virtualAddress s.fileSize
  let pageEnd ← alignUp virtualEnd
  let pageStart := alignDown s.virtualAddress
  if s.memorySize = 0 ∨
      s.alignment ≠ 0 ∧ s.virtualAddress % s.alignment ≠ s.fileOffset % s.alignment ∨
      pageStart < pageSize ∨ pageEnd ≤ pageStart ∨
      !s.readable ∧ !s.writable ∧ !s.executable then none
  else some ⟨s.virtualAddress, virtualEnd, pageStart, pageEnd, zeroStart, virtualEnd,
    s.writable, s.executable⟩

/-- A segment that is writable and executable is refused too. -/
def planChecked (s : ElfLoadSegment) : Option UserImageSegmentPlan :=
  (planUserImageSegment s).filter fun p => !(p.permissions.write && p.permissions.execute)

/-- The comparison of neighbours. -/
def collides (a b : UserImageSegmentPlan) : Bool :=
  rangesOverlap a.virtualStart a.virtualEnd b.virtualStart b.virtualEnd &&
    a.permissions ≠ b.permissions

/-- A stack of a size below an address, with a guard page under it. -/
def Stack.below (top size : ℕ) : Stack := ⟨top - size - pageSize, top - size, top - size, top⟩

def userStack : Stack := .below 0x7FFFFFFFF000 0x40000

def userExceptionStack : Stack := .below userStack.guardStart 0x10000

/-- The plan of segments in the order of their pages. -/
def layOut (first : UserImageSegmentPlan) (rest : List UserImageSegmentPlan) :
    UserImageLoadPlan where
  imageStart := first.pageStart
  -- the segment that starts last, which need not be the one that ends last
  imageEnd := (rest.getLastD first).pageEnd
  stack := userStack
  exceptionStack := userExceptionStack
  segments := first :: rest

/-- `plan_user_image_load`: refuses segments that collide, an entry point outside the code and an
image that reaches the stacks. -/
def planUserImageLoad (entryPoint : ℕ) (segments : List ElfLoadSegment) :
    Except Error (Option UserImageLoadPlan) :=
  if segments.any fun s => (planChecked s).isNone then .error .invalidArgument
  else match (segments.filterMap planChecked).insertionSort (·.pageStart ≤ ·.pageStart) with
    | [] => .ok none
    | first :: rest =>
      let plan := layOut first rest
      if (zip (first :: rest) rest).any fun (a, b) => collides a b then .error .alreadyExists
      else if !plan.segments.any fun s => s.virtualStart ≤ entryPoint &&
          entryPoint < s.virtualEnd && s.permissions.execute then .error .invalidArgument
      else if 2 ^ 64 ≤ plan.imageEnd + imageStackGap ∨
          plan.exceptionStack.guardStart < plan.imageEnd + imageStackGap then .error .outOfMemory
      else .ok (some plan)

/-- The range meets the stack or its guard. -/
def Stack.overlaps (t : Stack) (start stop : ℕ) : Bool :=
  rangesOverlap start stop t.guardStart t.guardEnd || rangesOverlap start stop t.bottom t.top

def Stack.consistent (t : Stack) : Bool :=
  t.guardStart < t.guardEnd && t.guardEnd = t.bottom && t.bottom < t.top &&
    [t.guardStart, t.guardEnd, t.bottom, t.top].all (· % pageSize = 0)

namespace UserImageLoadPlan

variable (p : UserImageLoadPlan)

/-- What is checked of one segment. -/
def segmentConsistent (s : UserImageSegmentPlan) : Bool :=
  s.virtualStart < s.virtualEnd && s.pageStart < s.pageEnd && s.virtualStart ≤ s.zeroStart &&
    s.zeroStart ≤ s.zeroEnd && s.zeroEnd = s.virtualEnd && s.pageStart ≤ s.virtualStart &&
    s.virtualEnd ≤ s.pageEnd && p.imageStart ≤ s.pageStart && s.pageEnd ≤ p.imageEnd &&
    s.pageStart % pageSize = 0 && s.pageEnd % pageSize = 0 &&
    !p.stack.overlaps s.pageStart s.pageEnd && !p.exceptionStack.overlaps s.pageStart s.pageEnd

/-- The loop over the segments, with the end of the one before. -/
def segmentsConsistent : Option ℕ → List UserImageSegmentPlan → Bool
  | _, [] => true
  | previous, s :: rest => p.segmentConsistent s && previous.all (· ≤ s.pageStart) &&
      segmentsConsistent (some s.pageEnd) rest

/-- `has_consistent_runtime_layout`: the check of a finished plan. -/
def hasConsistentRuntimeLayout : Bool :=
  p.imageStart < p.imageEnd && p.imageEnd ≤ p.exceptionStack.guardStart &&
    p.exceptionStack.consistent && p.exceptionStack.top = p.stack.guardStart &&
    p.stack.consistent && p.imageStart % pageSize = 0 && p.imageEnd % pageSize = 0 &&
    p.segmentsConsistent none p.segments

variable {p} {entryPoint : ℕ} {segments : List ElfLoadSegment} {first s : UserImageSegmentPlan}
  {rest : List UserImageSegmentPlan}

/-- What a planned segment satisfies. -/
structure Sound (s : UserImageSegmentPlan) : Prop where
  bytes : s.virtualStart < s.virtualEnd ∧ s.virtualStart ≤ s.zeroStart ∧
    s.zeroStart ≤ s.zeroEnd ∧ s.zeroEnd = s.virtualEnd
  pages : s.pageStart < s.pageEnd ∧ s.pageStart ≤ s.virtualStart ∧ s.virtualEnd ≤ s.pageEnd
  aligned : s.pageStart % pageSize = 0 ∧ s.pageEnd % pageSize = 0

/-- A segment is planned on the pages it reaches into. -/
theorem sound_of_planChecked {e : ElfLoadSegment} (h : planChecked e = some s) :
    Sound s ∧ s.pageStart = e.firstPage ∧ s.pageEnd = e.pagesEnd := by
  have h := (Option.filter_eq_some_iff.mp h).1
  have hfile := e.fileSize_le
  simp only [planUserImageSegment, Option.bind_eq_bind, checkedAdd, alignUp,
    Option.bind_eq_some_iff, Option.map_eq_some_iff] at h
  obtain ⟨virtualEnd, hv, zeroStart, hz, pageEnd, ⟨x, hx, hp⟩, h⟩ := h
  split_ifs at hv hz hx h
  -- no sum has overflowed, so the bounds are the sums themselves
  cases hv
  cases hz
  cases hx
  cases hp
  cases h
  refine ⟨?_, rfl, rfl⟩
  simp only [alignDown, pageSize] at *
  constructor <;> dsimp only [pageSize] <;> omega

/-- Each segment ends before the next one starts, in pages. -/
def Apart (segments : List UserImageSegmentPlan) : Prop :=
  segments.IsChain fun a b => a.pageEnd ≤ b.pageStart

theorem segmentsConsistent_iff {previous : Option ℕ} : p.segmentsConsistent previous rest ↔
    (∀ s ∈ rest, p.segmentConsistent s) ∧ Apart rest ∧
      ∀ s ∈ rest.head?, ∀ e ∈ previous, e ≤ s.pageStart := by
  induction rest generalizing previous with
  | nil => simp [segmentsConsistent, Apart]
  | cons s rest ih =>
    rw [segmentsConsistent, Bool.and_eq_true, Bool.and_eq_true, ih]
    simp only [Apart, isChain_cons, forall_mem_cons, Option.all_eq_true, head?_cons,
      Option.mem_some_iff, forall_eq', decide_eq_true_eq]
    tauto

/-- Segments apart stand in the order of the list. -/
theorem Apart.within (h : Apart (first :: rest)) (hs : ∀ s ∈ first :: rest, Sound s) :
    ∀ s ∈ first :: rest, first.pageStart ≤ s.pageStart ∧
      s.pageEnd ≤ (rest.getLastD first).pageEnd := by
  induction rest generalizing first with
  | nil => simp
  | cons next rest ih =>
    obtain ⟨hle, hrest⟩ := isChain_cons_cons.mp h
    obtain ⟨hfirst, hs⟩ := forall_mem_cons.mp hs
    -- the first segment ends before the next one starts, which ends within the image
    have hnext := ih hrest hs
    have hend := (hnext next mem_cons_self).2
    have hpg := hfirst.pages
    have hpg' := (hs next mem_cons_self).pages
    rw [getLastD_cons]
    refine forall_mem_cons.mpr ⟨by omega, fun s hmem => ?_⟩
    have := hnext s hmem
    omega

/-- In the order of their pages, segments are apart exactly if no two of them meet. -/
theorem apart_iff_pairwise (hs : ∀ s ∈ rest, Sound s)
    (hsort : rest.Pairwise (·.pageStart ≤ ·.pageStart)) :
    Apart rest ↔ rest.Pairwise fun a b => a.pageEnd ≤ b.pageStart ∨ b.pageEnd ≤ a.pageStart := by
  constructor
  · intro hap
    induction rest with
    | nil => exact .nil
    | cons first rest ih =>
      obtain ⟨hhead, htail⟩ := isChain_cons.mp hap
      obtain ⟨-, hs⟩ := forall_mem_cons.mp hs
      refine pairwise_cons.mpr ⟨fun s hmem => Or.inl ?_, ih hs (pairwise_cons.mp hsort).2 htail⟩
      cases rest with
      | nil => cases hmem
      | cons next rest =>
        exact (hhead next rfl).trans (Apart.within htail hs s hmem).1
  · intro hpw
    refine (hsort.and hpw).imp_of_mem (fun {a b} _ hb hab => ?_) |>.isChain
    -- of two segments that do not meet, the one that starts first ends first
    have := (hs b hb).pages
    omega

/-- What the planner has seen to. The segments of the plan are those of the file, in the order of
their pages, so they are apart exactly if no two of the file share a page. -/
theorem of_planUserImageLoad (h : planUserImageLoad entryPoint segments = .ok (some p)) :
    ∃ first rest, p = layOut first rest ∧ (∀ s ∈ first :: rest, Sound s) ∧
      p.imageEnd + imageStackGap ≤ p.exceptionStack.guardStart ∧
      (Apart (first :: rest) ↔ segments.Pairwise SharesNoPage) := by
  simp only [planUserImageLoad] at h
  split_ifs at h with hnone
  split at h
  · cases h
  next first rest hsort =>
    split_ifs at h with hcol hentry hgap
    cases h
    have hsound : ∀ s ∈ first :: rest, Sound s := by
      intro s hmem
      rw [← hsort, mem_insertionSort, mem_filterMap] at hmem
      obtain ⟨_, -, hplan⟩ := hmem
      exact (sound_of_planChecked hplan).1
    refine ⟨first, rest, rfl, hsound, by omega, ?_⟩
    have hperm := perm_insertionSort (fun a b : UserImageSegmentPlan => a.pageStart ≤ b.pageStart)
      (segments.filterMap planChecked)
    have hord := pairwise_insertionSort
      (fun a b : UserImageSegmentPlan => a.pageStart ≤ b.pageStart)
      (segments.filterMap planChecked)
    rw [hsort] at hperm hord
    rw [apart_iff_pairwise hsound hord, hperm.pairwise_iff fun h => h.symm, pairwise_filterMap]
    refine Pairwise.iff_of_mem fun {a b} ha hb => ?_
    -- every segment of the file was planned
    have hplan : ∀ e ∈ segments, ∃ s, planChecked e = some s := by
      simpa [Option.isNone_iff_eq_none, Option.ne_none_iff_exists'] using hnone
    obtain ⟨sa, hsa⟩ := hplan a ha
    obtain ⟨sb, hsb⟩ := hplan b hb
    simp [SharesNoPage, hsa, hsb, (sound_of_planChecked hsa).2, (sound_of_planChecked hsb).2]

theorem overlaps_eq_false {t : Stack} {start stop : ℕ} (h : stop ≤ t.guardStart)
    (ht : t.guardStart ≤ t.bottom) : t.overlaps start stop = false := by
  simp only [Stack.overlaps, rangesOverlap, Bool.or_eq_false_iff, Bool.and_eq_false_imp,
    decide_eq_true_eq, decide_eq_false_iff_not]
  omega

theorem segmentConsistent_of (h : Sound s) (hst : first.pageStart ≤ s.pageStart)
    (hend : s.pageEnd ≤ (layOut first rest).imageEnd)
    (hgap : (layOut first rest).imageEnd + imageStackGap ≤ userExceptionStack.guardStart) :
    (layOut first rest).segmentConsistent s := by
  obtain ⟨hbytes, hpg, haln⟩ := h
  have hexc := hend.trans (Nat.le_of_add_right_le hgap)
  have hstk : s.pageEnd ≤ userStack.guardStart := hexc.trans (by decide)
  simp only [segmentConsistent, Bool.and_eq_true, Bool.not_eq_true', decide_eq_true_eq]
  exact ⟨⟨⟨⟨⟨⟨by omega, hst⟩, hend⟩, haln.1⟩, haln.2⟩,
    overlaps_eq_false hstk (Nat.sub_le _ _)⟩, overlaps_eq_false hexc (Nat.sub_le _ _)⟩

/-- **An accepted plan is one the kernel can run exactly if no two segments of the file share a
page**: it then passes the check, and every segment lies inside the image and clear of the
stacks. -/
theorem hasConsistentRuntimeLayout_iff (h : planUserImageLoad entryPoint segments = .ok (some p)) :
    (p.hasConsistentRuntimeLayout ↔ segments.Pairwise SharesNoPage) ∧
      (segments.Pairwise SharesNoPage → ∀ s ∈ p.segments, p.imageStart ≤ s.pageStart ∧
        s.pageEnd ≤ p.imageEnd ∧ s.pageEnd + imageStackGap ≤ p.exceptionStack.guardStart) := by
  obtain ⟨first, rest, rfl, hs, hgap, happ⟩ := of_planUserImageLoad h
  rw [← happ]
  have hin (hap : Apart (first :: rest)) := hap.within hs
  refine ⟨⟨fun hlay => ?_, fun hap => ?_⟩, fun hap s hmem => ?_⟩
  · simp only [hasConsistentRuntimeLayout, Bool.and_eq_true] at hlay
    exact (segmentsConsistent_iff.mp hlay.2).2.1
  · have hfirst := hs first mem_cons_self
    have hlst := hs (rest.getLastD first) getLastD_mem_cons
    have hend := (hin hap first mem_cons_self).2
    have hsegs : (layOut first rest).segmentsConsistent none (first :: rest) :=
      segmentsConsistent_iff.mpr ⟨fun s hmem => segmentConsistent_of (hs s hmem)
        (hin hap s hmem).1 (hin hap s hmem).2 hgap, hap, by simp⟩
    have hcons : userExceptionStack.consistent ∧ userStack.consistent := by decide
    simp only [hasConsistentRuntimeLayout, Bool.and_eq_true, decide_eq_true_eq]
    have himg := Nat.lt_of_lt_of_le hfirst.pages.1 hend
    exact ⟨⟨⟨⟨⟨⟨⟨himg, Nat.le_of_add_right_le hgap⟩, hcons.1⟩, rfl⟩, hcons.2⟩, hfirst.aligned.1⟩,
      hlst.aligned.2⟩, hsegs⟩
  · have := hin hap s hmem
    exact ⟨this.1, this.2, Nat.le_trans (Nat.add_le_add_right this.2 _) hgap⟩

/-- A segment of code. -/
def code (virtualAddress memorySize : ℕ) : ElfLoadSegment :=
  ⟨virtualAddress, 0, 0, memorySize, 0, true, false, true, memorySize.zero_le, .inl rfl⟩

/-- A segment of data. -/
def data (virtualAddress memorySize : ℕ) : ElfLoadSegment :=
  ⟨virtualAddress, 0, 0, memorySize, 0, true, true, false, memorySize.zero_le, .inl rfl⟩

/-- Two pages of code and, in the file before them, data from the page after them on. -/
theorem hasConsistentRuntimeLayout_iff_code :
    (layOut ⟨4096, 12000, 4096, 12288, 4096, 12000, false, true⟩
      [⟨12300, 20000, 12288, 20480, 12300, 20000, true, false⟩]).hasConsistentRuntimeLayout := by
  have hplan : planUserImageLoad 4096 [data 12300 7700, code 4096 7904] =
      .ok (some (layOut ⟨4096, 12000, 4096, 12288, 4096, 12000, false, true⟩
        [⟨12300, 20000, 12288, 20480, 12300, 20000, true, false⟩])) := by
    decide +kernel
  refine (hasConsistentRuntimeLayout_iff hplan).1.mpr ?_
  simp [SharesNoPage, firstPage, pagesEnd, alignDown, pageSize, data, code]

/-- **A segment inside another is planned**: the outer one reaches over the stacks. -/
theorem nested_inconsistent : ∃ plan,
    planUserImageLoad 4096 [code 4096 0x7FFFFFFFE000, code 8192 4096] = .ok (some plan) ∧
      plan.hasConsistentRuntimeLayout = false ∧ plan.imageEnd = 12288 ∧
      ∃ s ∈ plan.segments, plan.imageEnd < s.pageEnd ∧ plan.stack.overlaps s.pageStart s.pageEnd :=
  ⟨layOut ⟨4096, 0x7FFFFFFFF000, 4096, 0x7FFFFFFFF000, 4096, 0x7FFFFFFFF000, false, true⟩
    [⟨8192, 12288, 8192, 12288, 8192, 12288, false, true⟩], by decide +kernel⟩

end Protofire.Loader.UserImageLoadPlan
