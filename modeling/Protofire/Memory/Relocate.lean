import Protofire.Memory.Paging

/-!
# Moving a frame under its mapping

Compaction moves a frame and asks for its mapping to follow (`memory/manager/compact.rs`). The
mapping is in two tables: the software page table, one list for all address spaces
(`memory/paging.rs`), and that of the hardware, a map from pages that takes a page or does not. The
mapping is looked for among those of all owners, but the list is updated for the kernel.
-/

namespace Protofire.Memory

open Function List

/-- The software table beside the table the hardware walks. -/
structure Tables where
  software : List Mapping
  hardware : ℕ → Option (ℕ × UInt8)

namespace Tables

section

variable (t : Tables) (owner : AddressSpaceId)

/-- The place of the mapping `replace_mapping_phys_owned` updates. -/
def indexOf (virtualAddress : ℕ) : Option ℕ :=
  t.software.findIdx? fun m => m.owner = owner ∧ m.virtualAddress = alignDown virtualAddress

/-- `replace_mapping_phys_owned`: the first mapping that starts at the page gets another frame. -/
def replaceMappingPhysOwned (virtualAddress physicalAddress : ℕ) : Option (List Mapping) :=
  (t.indexOf owner virtualAddress).map fun i =>
    t.software.modify i ({ · with physicalAddress := alignDown physicalAddress })

variable (takesNew takesOld : Bool)

/-- What `relocate_user_frame` does with the mapping it has found; the two flags say whether the
hardware takes the page with the new frame, and with the old one again. -/
def moveMapping (m : Mapping) (oldAddr newAddr : ℕ) : Bool × Tables :=
  let va := m.virtualAddress
  let unmapped := update t.hardware va none
  if takesNew = false then
    (false, { t with hardware := if (t.hardware va).isSome ∧ takesOld then
      Function.update unmapped va (some (oldAddr, m.permissions)) else unmapped })
  else
    let hardware := update unmapped va (some (newAddr, m.permissions))
    match t.replaceMappingPhysOwned 0 va newAddr with
    | some software => (true, ⟨software, hardware⟩)
    | none => (false, { t with hardware := hardware })

variable (oldAddr : ℕ)

/-- The mappings of one page to a frame. -/
def references : List Mapping :=
  t.software.filter fun m => m.length = pageSize ∧ m.physicalAddress = oldAddr

/-- `relocate_user_frame`: only an anonymous or locked page that nothing else maps is moved. -/
def relocateUserFrame (oldAddr newAddr : ℕ) : Bool × Tables :=
  let target := (t.references oldAddr).filter fun m => m.kind = .anonymous ∨ m.kind = .locked
  match target.getLast? with
  | none => (false, t)
  | some m => if (t.references oldAddr).length ≠ 1 then (false, t)
    else t.moveMapping takesNew takesOld m oldAddr newAddr

/-- The mapping at a place of the list is the only one that reaches a frame. -/
def Sole (frame i : ℕ) (m : Mapping) : Prop :=
  t.software[i]? = some m ∧ ∀ (j : ℕ) (x : Mapping), t.software[j]? = some x →
    x.physicalAddress ≤ frame → frame < x.physicalAddress + x.length → j = i

/-- What an answer promises: the one mapping of the frame is moved in both tables, or nothing is
changed. -/
def InStep (oldAddr newAddr : ℕ) : Bool × Tables → Prop
  | (true, t') => ∃ i m, t.Sole oldAddr i m ∧
      t'.software = t.software.set i { m with physicalAddress := newAddr } ∧
      t'.hardware = update t.hardware m.virtualAddress (some (newAddr, m.permissions))
  | (false, t') => t' = t

/-- The mapping that is found for a frame. -/
def Found (m : Mapping) : Prop :=
  t.references oldAddr = [m] ∧ (m.kind = .anonymous ∨ m.kind = .locked)

/-- What must hold of the mapping that is found. If the hardware takes the new frame, it is the only
mapping of its frame and the first of the kernel at its address, or the kernel has none there and
the hardware had the new frame already. If it does not, the hardware has no page there, or has the
old frame and takes it again. -/
def Movable (newAddr : ℕ) (m : Mapping) : Prop :=
  if takesNew then
    (∃ i, t.Sole oldAddr i m ∧ t.indexOf 0 m.virtualAddress = some i) ∨
      t.indexOf 0 m.virtualAddress = none ∧
        t.hardware m.virtualAddress = some (newAddr, m.permissions)
  else t.hardware m.virtualAddress = none ∨
    takesOld = true ∧ t.hardware m.virtualAddress = some (oldAddr, m.permissions)

end

variable {t : Tables} {takesNew takesOld : Bool} {m : Mapping} {oldAddr newAddr : ℕ}

/-- The tables are as they were exactly if the page is. -/
theorem hardware_eq_iff {va : ℕ} {page : Option (ℕ × UInt8)} :
    { t with hardware := update t.hardware va page } = t ↔ t.hardware va = page := by
  constructor
  · intro h
    have := congrFun (congrArg Tables.hardware h) va
    simpa using this.symm
  · rintro rfl
    rw [update_eq_self]

theorem inStep_moveMapping_iff (hnew : pageSize ∣ newAddr) (hne : newAddr ≠ oldAddr)
    (hm : t.Found oldAddr m) :
    t.InStep oldAddr newAddr (t.moveMapping takesNew takesOld m oldAddr newAddr) ↔
      t.Movable takesNew takesOld oldAddr newAddr m := by
  have hdown : alignDown newAddr = newAddr := by
    rw [alignDown, Nat.mod_eq_zero_of_dvd hnew, Nat.sub_zero]
  simp only [moveMapping, replaceMappingPhysOwned, hdown, Movable, update_idem]
  cases takesNew with
  | false =>
    -- the page is unmapped, and the old frame installed again where there was one
    cases hpage : t.hardware m.virtualAddress with
    | none => simp [InStep, hardware_eq_iff, hpage]
    | some page => cases takesOld <;> simp [InStep, hardware_eq_iff, hpage]
  | true =>
    cases t.indexOf 0 m.virtualAddress with
    | none => simp [InStep, hardware_eq_iff]
    | some i =>
      simp only [Option.map_some, Option.some.injEq, reduceCtorEq, false_and, or_false, if_true]
      constructor
      · rintro ⟨j, m', hsole, hset, -⟩
        have hmem : m ∈ t.references oldAddr := by simp [hm.1]
        obtain ⟨hsoft, hpage⟩ := mem_filter.mp hmem
        obtain ⟨hlen, hphys⟩ := of_decide_eq_true hpage
        obtain ⟨k, hk⟩ := getElem?_of_mem hsoft
        obtain rfl := hsole.2 k m hk (Nat.le_of_eq hphys) (by simp only [pageSize] at hlen; omega)
        cases hk.symm.trans hsole.1
        refine ⟨k, hsole, ?_⟩
        -- elsewhere the entry would still have the old frame
        by_contra hik
        have hat := congrArg (·[k]?) hset
        simp only [ne_eq, hik, not_false_eq_true, getElem?_modify_ne, hk, getElem?_set,
          if_true] at hat
        split at hat
        · exact hne ((congrArg Mapping.physicalAddress (Option.some.inj hat)).symm.trans hphys)
        · cases hat
      · rintro ⟨_, hsole, rfl⟩
        refine ⟨i, m, hsole, ?_, rfl⟩
        rw [modify_eq_set_getElem?, hsole.1]
        rfl

/-- **A frame is moved in both tables or in none** exactly if the mapping that is found for it, if
any, is movable. -/
theorem relocateUserFrame_inStep_iff (hnew : pageSize ∣ newAddr) (hne : newAddr ≠ oldAddr) :
    t.InStep oldAddr newAddr (t.relocateUserFrame takesNew takesOld oldAddr newAddr) ↔
      ∀ m, t.Found oldAddr m → t.Movable takesNew takesOld oldAddr newAddr m := by
  simp only [relocateUserFrame]
  split
  · rename_i hlast
    refine iff_of_true rfl ?_
    rintro m ⟨hrefs, hkind⟩
    simp [hrefs, hkind] at hlast
  rename_i m hlast
  split_ifs with hlen
  · exact iff_of_true rfl fun m hm => absurd (by rw [hm.1, length_singleton]) hlen
  obtain ⟨x, hx⟩ := length_eq_one_iff.mp (not_not.mp hlen)
  have hmem := mem_of_getLast? hlast
  rw [hx, mem_filter, mem_singleton] at hmem
  obtain ⟨rfl, hkind⟩ := hmem
  have hm : t.Found oldAddr m := ⟨hx, of_decide_eq_true hkind⟩
  rw [inStep_moveMapping_iff hnew hne hm]
  refine ⟨fun h m' hm' => ?_, fun h => h m hm⟩
  rwa [← singleton_inj.mp (hm.1.symm.trans hm'.1)]

/-- An anonymous page at 4 MiB, in a frame at 32 KiB. -/
def onePage (owner : AddressSpaceId) : Tables where
  software := [⟨4194304, 32768, 4096, 3, .anonymous, owner, by decide, by decide⟩]
  hardware va := if va = 4194304 then some (32768, 3) else none

/-- A page of the kernel is moved, and is lost if the hardware takes neither frame. -/
theorem relocateUserFrame_inStep_kernel :
    (onePage 0).InStep 32768 4096 ((onePage 0).relocateUserFrame true true 32768 4096) ∧
      ¬(onePage 0).InStep 32768 4096 ((onePage 0).relocateUserFrame false false 32768 4096) := by
  have hfound : ∀ m, (onePage 0).Found 32768 m → (onePage 0).software = [m] := fun m hm => hm.1
  constructor
  · refine (relocateUserFrame_inStep_iff (by decide) (by decide)).mpr fun m hm => ?_
    rw [← singleton_inj.mp (hfound m hm)]
    refine .inl ⟨0, ⟨rfl, fun j x hx _ _ => ?_⟩, rfl⟩
    exact Nat.lt_one_iff.mp (List.getElem?_eq_some_iff.mp hx).1
  · rw [relocateUserFrame_inStep_iff (by decide) (by decide)]
    exact fun h => absurd (h _ ⟨rfl, .inl rfl⟩) (by simp [Movable, onePage])

/-- **A page of a process is moved in the hardware only**, and the answer is that it was not. -/
theorem relocateUserFrame_process :
    ((onePage 8192).relocateUserFrame true true 32768 4096).1 = false ∧
    ((onePage 8192).relocateUserFrame true true 32768 4096).2.hardware 4194304 =
      some (4096, 3) ∧ (onePage 8192).hardware 4194304 = some (32768, 3) := by
  decide

end Tables

end Protofire.Memory
