import Protofire.Kernel.Block

/-!
# The software page table

One list of mappings for all address spaces (`memory/paging.rs`). A mapping is seen by its owner,
and by everybody if it is the kernel's: a range is refused if its owner sees a page of it, and what
is removed of a range is what the owner sees. The table is compared with a map from addresses for
each owner. The kernel does not see the pages of a process and may map over them, so the process's
own entry is the one that is found.
-/

namespace Protofire.Memory

open List

def pageSize : ℕ := 4096

/-- `align_down` to the page. -/
def alignDown (value : ℕ) : ℕ := value - value % pageSize

/-- The address of a root table, `0` for the kernel. -/
abbrev AddressSpaceId : Type := ℕ

@[grind]
def AddressSpaceId.matches (own wanted : AddressSpaceId) : Bool := wanted == own || own == 0

/-- What a mapping is for. -/
inductive MappingKind where
  | kernelHeap | kernelStack | anonymous | identity | deviceMemory | demandPaged | cow | shared
  | locked
deriving DecidableEq

/-- A mapping that is not empty, and whose `range_end` does not overflow. -/
structure Mapping where
  virtualAddress : ℕ
  physicalAddress : ℕ
  length : ℕ
  permissions : UInt8
  kind : MappingKind
  owner : AddressSpaceId
  pos : 0 < length
  fits : virtualAddress + length < 2 ^ 64

/-- A range as `normalize_virtual_range` returns it. -/
structure PageRange where
  start : ℕ
  length : ℕ
  pos : 0 < length
  fits : start + length < 2 ^ 64

/-- What an address is translated to. -/
abbrev Entry : Type := ℕ × UInt8 × MappingKind

/-- All overflows are the same error. -/
def normalizeVirtualRange (virtualAddress length : ℕ) : Except Error PageRange :=
  let start := alignDown virtualAddress
  let span := virtualAddress % pageSize + length + (pageSize - 1)
  if h : length ≠ 0 ∧ span < 2 ^ 64 ∧ start + alignDown span < 2 ^ 64 then
    .ok ⟨start, alignDown span, by simp only [span, alignDown, pageSize]; omega, h.2.2⟩
  else .error .invalidArgument

/-- `normalize_mapping`: both addresses have one offset in their pages. -/
def normalizeMapping (virtualAddress physicalAddress length : ℕ) : Except Error (PageRange × ℕ) :=
  if virtualAddress % pageSize ≠ physicalAddress % pageSize then .error .invalidArgument
  else do
    let range ← normalizeVirtualRange virtualAddress length
    if alignDown physicalAddress + range.length < 2 ^ 64 then
      .ok (range, alignDown physicalAddress)
    else .error .invalidArgument

/-- The address lies in the range. -/
abbrev PageRange.Has (range : PageRange) (address : ℕ) : Prop :=
  range.start ≤ address ∧ address < range.start + range.length

namespace Mapping

variable (m : Mapping)

/-- The mapping and the range meet. -/
@[grind]
def overlaps (range : PageRange) : Bool :=
  m.virtualAddress < range.start + range.length ∧ range.start < m.virtualAddress + m.length

/-- The address lies in the mapping. -/
@[grind]
def covers (address : ℕ) : Bool :=
  m.virtualAddress ≤ address ∧ address < m.virtualAddress + m.length

/-- The entry behind an address of the mapping. -/
def translate (address : ℕ) : Entry :=
  (m.physicalAddress + (address - m.virtualAddress), m.permissions, m.kind)

variable (owner : AddressSpaceId)

/-- The owner sees the mapping, and the range meets it. -/
@[grind]
def hits (range : PageRange) : Bool :=
  m.owner.matches owner && m.overlaps range

/-- What `unmap_owned` keeps of a mapping. -/
def without (range : PageRange) : List Mapping :=
  let stop := range.start + range.length
  let mappingEnd := m.virtualAddress + m.length
  if !m.hits owner range then [m]
  else
    (if h : m.virtualAddress < range.start then
      [{ m with
        length := range.start - m.virtualAddress
        pos := by omega
        fits := by have := range.fits; omega }]
    else []) ++
    if h : stop < mappingEnd then
      [{ m with
        virtualAddress := stop
        physicalAddress := m.physicalAddress + (stop - m.virtualAddress)
        length := mappingEnd - stop
        pos := by omega
        fits := by have := m.fits; omega }]
    else []

end Mapping

/-- The software table: its mappings, and whether paging was initialized. -/
structure PageTable where
  mappings : List Mapping
  initialized : Bool

/-- A call, and whether there is memory for the list it makes. -/
inductive Call where
  | map (reserved : Bool) (owner : AddressSpaceId)
      (virtualAddress physicalAddress length : ℕ) (permissions : UInt8) (kind : MappingKind)
  | unmap (reserved : Bool) (owner : AddressSpaceId) (virtualAddress length : ℕ)

namespace PageTable

variable (t : PageTable)

/-- `map_to_owned`: refused where the owner sees a mapping that meets the range. -/
def mapToOwned (reserved : Bool) (owner : AddressSpaceId)
    (virtualAddress physicalAddress length : ℕ) (permissions : UInt8) (kind : MappingKind) :
    Except Error Unit × PageTable :=
  if !t.initialized then (.error .invalidArgument, t)
  else match normalizeMapping virtualAddress physicalAddress length with
    | .error e => (.error e, t)
    | .ok (range, physical) =>
      if t.mappings.any (·.hits owner range) then (.error .alreadyExists, t)
      else if !reserved then (.error .outOfMemory, t)
      else (.ok (), { t with mappings := t.mappings ++
        [⟨range.start, physical, range.length, permissions, kind, owner, range.pos, range.fits⟩] })

/-- `unmap_owned`: the range is cut out of every mapping it hits. -/
def unmapOwned (reserved : Bool) (owner : AddressSpaceId)
    (virtualAddress length : ℕ) : Except Error Unit × PageTable :=
  if !t.initialized then (.error .invalidArgument, t)
  else match normalizeVirtualRange virtualAddress length with
    | .error e => (.error e, t)
    | .ok range =>
      if !reserved then (.error .outOfMemory, t)
      else if !t.mappings.any (·.hits owner range) then (.error .notFound, t)
      else (.ok (), { t with mappings := t.mappings.flatMap (·.without owner range) })

/-- `lookup_mapping_owned`: the owner's own mapping before the kernel's. -/
def lookupMappingOwned (owner : AddressSpaceId) (address : ℕ) : Option Entry :=
  let own := t.mappings.find? fun m => m.owner = owner ∧ m.covers address
  let chosen := own.or (t.mappings.find? fun m => m.owner = 0 ∧ m.covers address)
  chosen.map (·.translate address)

def step (t : PageTable) : Call → Except Error Unit × PageTable
  | .map reserved owner va pa length permissions kind =>
    t.mapToOwned reserved owner va pa length permissions kind
  | .unmap reserved owner va length => t.unmapOwned reserved owner va length

end PageTable

/-! ### A map for each owner -/

/-- What each owner has at each address. -/
abbrev Space : Type := AddressSpaceId → ℕ → Option Entry

namespace Space

/-- An owner's own entries are found first. -/
def lookup (s : Space) (owner : AddressSpaceId) (address : ℕ) : Option Entry :=
  (s owner address).or (s 0 address)

/-- Some address of the range is mapped for the owner. -/
def Sees (s : Space) (owner : AddressSpaceId) (range : PageRange) : Prop :=
  ∃ a, range.Has a ∧ s.lookup owner a ≠ none

open Classical in
/-- A range in which its owner sees nothing is added to the owner's entries. One in which it sees
something is taken from them, and from those of the kernel. -/
noncomputable def step (initialized : Bool) (s : Space) (c : Call) : Except Error Unit × Space :=
  if !initialized then (.error .invalidArgument, s)
  else match c with
    | .map reserved owner va pa length permissions kind =>
      match normalizeMapping va pa length with
      | .error e => (.error e, s)
      | .ok (range, physical) =>
        if s.Sees owner range then (.error .alreadyExists, s)
        else if !reserved then (.error .outOfMemory, s)
        else (.ok (), fun o a => if o = owner ∧ range.Has a then
          some (physical + (a - range.start), permissions, kind) else s o a)
    | .unmap reserved owner va length =>
      match normalizeVirtualRange va length with
      | .error e => (.error e, s)
      | .ok range =>
        if !reserved then (.error .outOfMemory, s)
        else if ¬s.Sees owner range then (.error .notFound, s)
        else (.ok (), fun o a => if (o = owner ∨ o = 0) ∧ range.Has a then none else s o a)

noncomputable def run (initialized : Bool) (s : Space) (calls : List Call) : Space :=
  calls.foldl (fun s c => (s.step initialized c).2) s

end Space

def Mapping.entry (m : Mapping) (owner : AddressSpaceId) (address : ℕ) : Option Entry :=
  if m.owner = owner ∧ m.covers address then some (m.translate address) else none

/-- The entries the mappings of each owner give. -/
def PageTable.space (t : PageTable) : Space := fun o a => t.mappings.findSome? (·.entry o a)

/-- Two mappings of one owner do not meet. -/
def Mapping.Apart (m m' : Mapping) : Prop :=
  m.owner = m'.owner → m.virtualAddress + m.length ≤ m'.virtualAddress ∨
    m'.virtualAddress + m'.length ≤ m.virtualAddress

namespace PageTable

variable {t : PageTable} {owner o : AddressSpaceId} {range : PageRange} {a : ℕ} {m : Mapping}

theorem lookup_space : t.space.lookup owner a = t.lookupMappingOwned owner a := by
  have h : ∀ o, t.space o a =
      (t.mappings.find? fun m => m.owner = o ∧ m.covers a).map (·.translate a) := by
    intro o
    rw [space]
    induction t.mappings with
    | nil => rfl
    | cons m ms ih =>
      rw [findSome?_cons, Mapping.entry]
      by_cases hm : m.owner = o ∧ m.covers a = true
      · simp [hm]
      · simp [hm, ih]
  rw [Space.lookup, h, h, lookupMappingOwned, Option.map_or]

theorem space_eq_none : t.space o a = none ↔ ∀ m ∈ t.mappings, ¬(m.owner = o ∧ m.covers a) := by
  simp [space, Mapping.entry]

theorem sees_space : t.space.Sees owner range ↔ t.mappings.any (·.hits owner range) = true := by
  simp only [Space.Sees, Space.lookup, ne_eq, Option.or_eq_none_iff, space_eq_none, ← forall_and,
    not_forall, any_eq_true]
  constructor
  · rintro ⟨a, ha, m, hm, hcvs⟩
    exact ⟨m, hm, by grind⟩
  rintro ⟨m, hm, hhit⟩
  have hpos := m.pos
  have hpos' := range.pos
  exact ⟨max range.start m.virtualAddress, by grind, m, hm, by grind⟩

theorem findSome?_without : (m.without owner range).findSome? (·.entry o a) =
    if (o = owner ∨ o = 0) ∧ range.Has a then none else m.entry o a := by
  by_cases hhit : m.hits owner range = true
  · simp only [Mapping.without, hhit, Bool.not_true, Bool.false_eq_true, if_false,
      List.findSome?_append]
    split_ifs <;> simp [Mapping.entry, Mapping.translate] <;> grind
  · simp only [Mapping.without]
    grind [Mapping.entry]

theorem findSome?_flatMap_without (ms : List Mapping) :
    (ms.flatMap (·.without owner range)).findSome? (·.entry o a) =
      if (o = owner ∨ o = 0) ∧ range.Has a then none else ms.findSome? (·.entry o a) := by
  induction ms with
  | nil => simp
  | cons m ms ih =>
    rw [flatMap_cons, findSome?_append, findSome?_without]
    grind

theorem apart_without (h : t.mappings.Pairwise Mapping.Apart) :
    (t.mappings.flatMap (·.without owner range)).Pairwise Mapping.Apart := by
  have hwi : ∀ m : Mapping, ∀ x ∈ m.without owner range, x.owner = m.owner ∧
      m.virtualAddress ≤ x.virtualAddress ∧
      x.virtualAddress + x.length ≤ m.virtualAddress + m.length := by
    grind [Mapping.without]
  refine pairwise_flatMap.mpr ⟨fun m _ => ?_, h.imp fun hap x hx y hy => ?_⟩
  · simp only [Mapping.without]
    split_ifs <;> simp [Mapping.Apart]
    omega
  · grind [Mapping.Apart]

/-- A call fails and changes nothing, or it does with the mappings what it does with the entries
they give. -/
theorem step_cases (t : PageTable) (c : Call) :
    (∃ e, t.step c = (.error e, t) ∧ t.space.step t.initialized c = (.error e, t.space)) ∨
      ∃ ms, t.step c = (.ok (), { t with mappings := ms }) ∧
        t.space.step t.initialized c = (.ok (), space ⟨ms, t.initialized⟩) ∧
        (t.mappings.Pairwise Mapping.Apart → ms.Pairwise Mapping.Apart) := by
  cases hinit : t.initialized with
  | false => cases c <;> exact Or.inl ⟨_, by simp [step, mapToOwned, unmapOwned, hinit], rfl⟩
  | true =>
    cases c with
    | map reserved owner va pa length permissions kind =>
      simp only [step, mapToOwned, Space.step, hinit, sees_space]
      rcases normalizeMapping va pa length with e | ⟨range, physical⟩
      · exact Or.inl ⟨e, rfl, rfl⟩
      by_cases hhit : t.mappings.any (·.hits owner range) = true
      · exact Or.inl ⟨.alreadyExists, by simp [hhit]⟩
      cases reserved with
      | false => exact Or.inl ⟨.outOfMemory, by simp [hhit]⟩
      | true =>
        simp only [hhit, Bool.not_true, Bool.false_eq_true, if_false]
        refine Or.inr ⟨_, rfl, ?_, fun h => List.pairwise_append.mpr
          ⟨h, List.pairwise_singleton .., by grind [Mapping.Apart]⟩⟩
        refine congrArg _ (funext fun o => funext fun a => ?_)
        have hno : o = owner ∧ range.Has a → t.space o a = none := by
          grind [space_eq_none]
        simp only [space] at hno ⊢
        grind [Mapping.entry, Mapping.translate]
    | unmap reserved owner va length =>
      simp only [step, unmapOwned, Space.step, hinit, sees_space]
      rcases normalizeVirtualRange va length with e | range
      · exact Or.inl ⟨e, rfl, rfl⟩
      cases reserved with
      | false => exact Or.inl ⟨_, rfl, rfl⟩
      | true =>
        by_cases hhit : t.mappings.any (·.hits owner range) = true
        · simp only [hhit, not_true_eq_false, Bool.not_true, Bool.false_eq_true, if_false]
          exact Or.inr ⟨_, rfl, congrArg _ (funext fun o => funext fun a =>
            (findSome?_flatMap_without _).symm), apart_without⟩
        · exact Or.inl ⟨.notFound, by simp [hhit]⟩

def run (t : PageTable) (calls : List Call) : PageTable := calls.foldl (fun t c => (t.step c).2) t

theorem run_spec (h : t.mappings.Pairwise Mapping.Apart) (calls : List Call) :
    (t.run calls).mappings.Pairwise Mapping.Apart ∧ (t.run calls).initialized = t.initialized ∧
      (t.run calls).space = t.space.run t.initialized calls := by
  induction calls generalizing t with
  | nil => exact ⟨h, rfl, rfl⟩
  | cons c calls ih =>
    rcases t.step_cases c with ⟨e, hst, hspace⟩ | ⟨ms, hst, hspace, hap⟩
    · simpa only [run, Space.run, foldl_cons, hst, hspace] using ih h
    · simpa only [run, Space.run, foldl_cons, hst, hspace] using ih (hap h)

/-- **The table is a map for each owner**, in which a process's own entries hide the kernel's: after
any calls it answers the next one and every lookup as the map does, an error changes nothing, and no
two mappings of one owner overlap. -/
theorem run_refines (initialized : Bool) (calls : List Call) : let t := run ⟨[], initialized⟩ calls
    let s := Space.run initialized (fun _ _ => none) calls
    (∀ owner a, t.lookupMappingOwned owner a = s.lookup owner a) ∧
      (∀ c, (t.step c).1 = (s.step initialized c).1) ∧
      (∀ c e, (t.step c).1 = .error e → (t.step c).2 = t) ∧
      t.mappings.Pairwise Mapping.Apart := by
  obtain ⟨hap, hinit, hspace⟩ := run_spec (t := ⟨[], initialized⟩) .nil calls
  refine ⟨fun owner a => ?_, fun c => ?_, fun c e he => ?_, hap⟩
  · exact lookup_space.symm.trans (congrArg (Space.lookup · owner a) hspace)
  · rcases step_cases _ c with ⟨e, hst, hs⟩ | ⟨ms, hst, hs, -⟩ <;>
      rw [hinit, hspace] at hs <;> rw [hst]
    all_goals exact (congrArg Prod.fst hs).symm
  · rcases step_cases _ c with ⟨e, hst, -⟩ | ⟨ms, hst, -⟩ <;> rw [hst] at he ⊢
    cases he

/-- **Two mappings one process sees overlap** once the kernel has mapped the page of it. -/
theorem kernel_maps_over_process :
    let t := run ⟨[], true⟩ [.map true 8192 4194304 32768 4096 3 .anonymous,
      .map true 0 4194304 65536 4096 3 .deviceMemory]
    t.mappings.length = 2 ∧
      ∀ m ∈ t.mappings, m.owner.matches 8192 = true ∧ m.covers 4194304 = true := by
  decide

end PageTable

end Protofire.Memory
