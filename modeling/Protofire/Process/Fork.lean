import Protofire.Process.Duplicates

/-!
# The descriptors of a forked process

`Process::fork` (`kernel/process/process/fork.rs`) makes a new process and copies the descriptor
table into it. A new process has its three standard slots bound to the console and to the debug
device, and the copies are given descriptors by the counter of the child, in the order of the
parent's table.

So the child does not have the parent's descriptors under the same numbers unless the parent's table
is bound from the first descriptor on without a gap; and it has the standard slots of a new process,
whatever the parent's slots are bound to (`fork_copies`).

What becomes of the address space is given from outside, as is what opening an object again asks.
-/

namespace Protofire.Handles

open AList Function List Option Process

def handleRightRead : ℕ := 1

def handleRightWrite : ℕ := 2

/-- The devices of the standard slots. -/
structure Devices (ω : Type) where
  console : ω
  debug : ω

/-! ### The functions of the code -/

section Fork

variable {ω α β : Type} (reopens : ω → ℕ → Except Error Unit) (devices : Devices ω)

/-- Go on after a success. -/
def Answer.andThen (r : Answer ω α) (next : α → Process ω → Answer ω β) : Answer ω β :=
  match r with
  | (.ok value, p) => next value p
  | (.error e, p) => (.error e, p)

namespace Process

variable (p : Process ω)

/-- `open_device_handle`. -/
def openDeviceHandle (device : ω) (rights : ℕ) : Answer ω Handle :=
  p.openValidatedObject (reopens device rights) fun p => p.openHandle device rights

/-- `try_install_default_standard_handles`: three handles, then three slots. -/
def tryInstallDefaultStandardHandles : Answer ω Unit :=
  (cleanupOnError [] (p.openDeviceHandle reopens devices.console handleRightRead)).andThen
    fun stdin p =>
  (cleanupOnError [stdin] (p.openDeviceHandle reopens devices.debug handleRightWrite)).andThen
    fun stdout p =>
  (cleanupOnError [stdin, stdout]
      (p.openDeviceHandle reopens devices.debug handleRightWrite)).andThen
    fun stderr p =>
  (cleanupOnError [stdin, stdout, stderr] (p.bindStandardHandle 0 stdin)).andThen fun _ p =>
  (cleanupOnError [stdout, stderr] (p.bindStandardHandle 1 stdout)).andThen fun _ p =>
  cleanupOnError [stderr] (p.bindStandardHandle 2 stderr)

/-- A failure is logged and forgotten. -/
def installDefaultStandardHandles : Process ω :=
  (p.tryInstallDefaultStandardHandles reopens devices).2

/-- `new_with_security_token`. -/
def newWithSecurityToken : Process ω := Process.new.installDefaultStandardHandles reopens devices

/-- The descriptors of a table, in order. -/
def fds : List (Sigma fun _ : FileDescriptor => Handle) :=
  p.fdTable.entries.insertionSort fun a b => a.1 ≤ b.1

/-- Copy descriptors of the parent into the child. -/
def cloneFds (p : Process ω) :
    List (Sigma fun _ : FileDescriptor => Handle) → Process ω → Except Error (Process ω)
  | [], child => .ok child
  | ⟨fd, handle⟩ :: rest, child =>
    match p.handleEntry handle with
    | .error e => .error e
    | .ok entry =>
      match child.reopenObjectHandle reopens entry with
      | (.error e, _) => .error e
      | (.ok childHandle, child) =>
        match child.installFdHandle childHandle with
        | (.error e, _) => .error e
        | (.ok childFd, child) =>
          let flags := (p.fdFlags.lookup fd).getD 0
          cloneFds p rest
            (if flags ≠ 0 then { child with fdFlags := child.fdFlags.insert childFd flags }
            else child)

/-- `fork`, of a process with a number of threads, with what becomes of the address space. -/
def fork (threads : ℕ) (space : Except Error Unit) (p : Process ω) : Answer ω (Process ω) :=
  if p.terminated then (.error .busy, p)
  else if threads ≠ 1 then (.error .busy, p)
  else
    match p.cloneFds reopens p.fds (newWithSecurityToken reopens devices) with
    | .error e => (.error e, p)
    | .ok child =>
      match space with
      | .error e => (.error e, p)
      | .ok () => (.ok child, p)

end Process

end Fork

/-! ### A new process -/

section New

variable {ω : Type} {reopens : ω → ℕ → Except Error Unit} {devices : Devices ω} {p q : Process ω}

/-- **What a new process is like**: nothing in the table, and the slots, if anything, bound to the
handles that were opened. -/
structure IsNew (p : Process ω) : Prop where
  terminated : p.terminated = false
  fdTable : p.fdTable = ∅
  fdFlags : p.fdFlags = ∅
  nextFd : p.nextFd = standardFdCount
  nextHandle : p.nextHandle ≤ 7
  handles : standardFdCount ≤ p.nextHandle
  slots : ∀ fd (handle : ℕ), p.standardHandles fd = some handle → handle < p.nextHandle

theorem isNew_newWithSecurityToken : IsNew (newWithSecurityToken reopens devices) := by
  unfold newWithSecurityToken installDefaultStandardHandles
    tryInstallDefaultStandardHandles openDeviceHandle
  generalize reopens devices.console handleRightRead = console
  generalize reopens devices.debug handleRightWrite = debug
  -- the two devices of the slots can be opened or not; the debug device twice, with one answer
  rcases console with e | _
  · exact ⟨rfl, rfl, rfl, rfl, show 4 ≤ 7 by decide, show 3 ≤ 4 by decide, nofun⟩
  rcases debug with e | _
  · exact ⟨rfl, rfl, rfl, rfl, show 5 ≤ 7 by decide, show 3 ≤ 5 by decide, nofun⟩
  refine ⟨rfl, rfl, rfl, rfl, show 7 ≤ 7 by decide, show 3 ≤ 7 by decide, fun fd handle h => ?_⟩
  replace h : update (update (update (fun _ => none) 0 (some 4)) 1
    (some 5)) 2 (some 6) fd = some handle := h
  show handle < 7
  simp only [update_apply] at h
  split at h
  · cases h
    decide
  split at h
  · cases h
    decide
  split at h
  · cases h
    decide
  · cases h

end New

/-! ### The copies -/

section Clone

variable {ω : Type} {reopens : ω → ℕ → Except Error Unit} {p c c₀ child : Process ω}
  {copies : List (HandleEntry ω × UInt8)} {entry : HandleEntry ω} {flags : UInt8}

/-- **The child with some copies**: the table has them from the first descriptor on, with the
handles that come after those of the slots, and the slots are as they were. -/
structure Cloned (c₀ : Process ω) (copies : List (HandleEntry ω × UInt8)) (c : Process ω) :
    Prop where
  terminated : c.terminated = false
  nextFd : c.nextFd = standardFdCount + copies.length
  nextHandle : c.nextHandle = c₀.nextHandle + copies.length
  slots : c.standardHandles = c₀.standardHandles
  table : ∀ k : ℕ, c.fdTable.lookup k =
    if standardFdCount ≤ k ∧ k < standardFdCount + copies.length
    then some (c₀.nextHandle + (k - standardFdCount)) else none
  kept : ∀ handle : ℕ, handle < c₀.nextHandle →
    c.handleTable.lookup handle = c₀.handleTable.lookup handle
  handles : ∀ i copy, copies[i]? = some copy →
    c.handleTable.lookup (c₀.nextHandle + i) = some copy.1
  flags : ∀ k : ℕ, flagsOf c k =
    if standardFdCount ≤ k then (copies[k - standardFdCount]?.map Prod.snd).getD 0 else 0

theorem IsNew.cloned (h : IsNew c₀) : Cloned c₀ [] c₀ where
  terminated := h.terminated
  nextFd := h.nextFd
  nextHandle := rfl
  slots := rfl
  table k := by
    rw [h.fdTable, if_neg (fun hk => not_lt.mpr hk.1 hk.2)]
    rfl
  kept _ _ := rfl
  handles i copy hcp := by simp at hcp
  flags k := by
    rw [flagsOf, h.fdFlags]
    simp

/-- The child with one more copy. -/
def cloneOne (c : Process ω) (entry : HandleEntry ω) (flags : UInt8) : Process ω :=
  let opened := opened c entry.object entry.rights
  if flags ≠ 0 then { opened with fdFlags := opened.fdFlags.insert c.nextFd flags } else opened

theorem flagsOf_cloneOne (k : ℕ) (hfr : flagsOf c c.nextFd = 0) :
    flagsOf (cloneOne c entry flags) k = if k = c.nextFd then flags else flagsOf c k := by
  rw [cloneOne]
  split
  · show ((c.fdFlags.insert c.nextFd flags).lookup k).getD 0 = _
    by_cases hk : k = c.nextFd
    · rw [if_pos hk, hk, lookup_insert]
      rfl
    · rw [if_neg hk, lookup_insert_ne hk]
      rfl
  · rename_i hzero
    show flagsOf c k = _
    split
    · rename_i hk
      rw [hk, hfr, not_not.mp hzero]
    · rfl

/-- **One more copy** is bound to the next descriptor. -/
theorem Cloned.cloneOne (h : Cloned c₀ copies c)
    (hft : c₀.nextHandle + copies.length < 2 ^ 64 - 1) (hbel : standardFdCount ≤ c₀.nextHandle) :
    Cloned c₀ (copies ++ [(entry, flags)]) (cloneOne c entry flags) := by
  have hlen : (copies ++ [(entry, flags)]).length = copies.length + 1 := by simp
  have hfr : flagsOf c c.nextFd = 0 := by
    rw [h.flags, h.nextFd, if_pos (Nat.le_add_right _ _), Nat.add_sub_cancel_left,
      getElem?_eq_none (le_refl _)]
    rfl
  have hfld : ∀ {γ : Type} (f : Process ω → γ),
      (∀ q : Process ω, ∀ t, f { q with fdFlags := t } = f q) →
      f (Handles.cloneOne c entry flags) = f (opened c entry.object entry.rights) := by
    intro γ f hf
    rw [Handles.cloneOne]
    split
    · exact hf _ _
    · rfl
  refine ⟨?_, ?_, ?_, ?_, fun k => ?_, fun handle hlt => ?_, fun i copy hcp => ?_, fun k => ?_⟩
  · rw [hfld (·.terminated) fun _ _ => rfl]
    exact h.terminated
  · rw [hfld (·.nextFd) fun _ _ => rfl]
    show (c.nextFd + 1) % 2 ^ 64 = _
    rw [h.nextFd]
    omega
  · rw [hfld (·.nextHandle) fun _ _ => rfl]
    show (c.nextHandle + 1) % 2 ^ 64 = _
    rw [h.nextHandle]
    omega
  · rw [hfld (·.standardHandles) fun _ _ => rfl]
    exact h.slots
  · rw [hfld (·.fdTable) fun _ _ => rfl]
    show (c.fdTable.insert c.nextFd c.nextHandle).lookup k = _
    by_cases hk : k = c.nextFd
    · rw [hk, lookup_insert, h.nextFd, h.nextHandle, if_pos (by omega), Nat.add_sub_cancel_left]
    rw [lookup_insert_ne hk, h.table]
    rw [h.nextFd] at hk
    exact if_congr (by omega) rfl rfl
  · rw [hfld (·.handleTable) fun _ _ => rfl]
    show (c.handleTable.insert c.nextHandle _).lookup handle = _
    have hne : handle ≠ c.nextHandle := by
      rw [h.nextHandle]
      omega
    rw [lookup_insert_ne hne, h.kept handle hlt]
  · rw [hfld (·.handleTable) fun _ _ => rfl]
    show (c.handleTable.insert c.nextHandle _).lookup _ = _
    rcases lt_trichotomy i copies.length with hi | rfl | hi
    · rw [getElem?_append_left hi] at hcp
      have hne : c₀.nextHandle + i ≠ c.nextHandle := by
        rw [h.nextHandle]
        omega
      rw [lookup_insert_ne hne, h.handles i copy hcp]
    · rw [getElem?_concat_length] at hcp
      cases hcp
      rw [h.nextHandle, lookup_insert]
    · rw [getElem?_eq_none (by omega)] at hcp
      cases hcp
  · rw [flagsOf_cloneOne k hfr, h.flags, h.nextFd]
    by_cases hk : standardFdCount ≤ k
    · rw [if_pos hk, if_pos hk]
      rcases lt_trichotomy (k - standardFdCount) copies.length with hi | hi | hi
      · rw [if_neg (by omega), getElem?_append_left hi]
      · rw [if_pos (by omega), hi, getElem?_concat_length]
        rfl
      · rw [if_neg (by omega), getElem?_eq_none (by omega), getElem?_eq_none (by omega)]
    · rw [if_neg hk, if_neg hk, if_neg (by omega)]

/-- A copy of a descriptor of the parent. -/
def CopyOf (p : Process ω) (x : Sigma fun _ : FileDescriptor => Handle)
    (copy : HandleEntry ω × UInt8) : Prop :=
  p.handleEntry x.2 = .ok copy.1 ∧ copy.2 = flagsOf p x.1

/-- **A copy of the table**, by induction on the descriptors that are left. -/
theorem cloneFds_ok {l : List (Sigma fun _ : FileDescriptor => Handle)} (h : Cloned c₀ copies c)
    (hft : c₀.nextHandle + copies.length + l.length < 2 ^ 64)
    (hbel : standardFdCount ≤ c₀.nextHandle) (hok : p.cloneFds reopens l c = .ok child) :
    ∃ more, List.Forall₂ (CopyOf p) l more ∧ Cloned c₀ (copies ++ more) child := by
  induction l generalizing copies c with
  | nil =>
    cases hok
    exact ⟨[], .nil, by rwa [append_nil]⟩
  | cons x l ih =>
    obtain ⟨fd, handle⟩ := x
    rw [length_cons] at hft
    rw [cloneFds] at hok
    rcases hent : p.handleEntry handle with e | entry
    · simp only [hent] at hok
      cases hok
    simp only [hent] at hok
    rcases hro : c.reopenObjectHandle reopens entry with ⟨e | childHandle, c'⟩
    · simp only [hro] at hok
      cases hok
    simp only [hro] at hok
    -- the child runs, so it opens the handle and then the descriptor
    obtain ⟨rfl, rfl⟩ : childHandle = c.nextHandle ∧
        c' = c.withHandle entry.object entry.rights := by
      rw [reopenObjectHandle] at hro
      rcases openHandle_cases c (reopens entry.object entry.rights) entry.object
        entry.rights with ⟨e, heq⟩ | heq
      · rw [heq] at hro
        cases hro
      rw [heq] at hro
      obtain ⟨hhdl, hc⟩ := Prod.mk.inj hro
      exact ⟨(Except.ok.inj hhdl).symm, hc.symm⟩
    have hins : (c.withHandle entry.object entry.rights).installFdHandle c.nextHandle =
        (.ok c.nextFd, opened c entry.object entry.rights) := by
      rw [installFdHandle, if_neg]
      · rfl
      show ¬c.terminated = true
      rw [h.terminated]
      decide
    simp only [hins] at hok
    have hst : Cloned c₀ (copies ++ [(entry, flagsOf p fd)])
        (cloneOne c entry (flagsOf p fd)) := h.cloneOne (by omega) hbel
    obtain ⟨more, hmo, hclean⟩ := ih hst (by simp; omega) hok
    rw [append_assoc] at hclean
    exact ⟨_, .cons ⟨hent, rfl⟩ hmo, hclean⟩

end Clone

/-! ### What the child resolves -/

section Child

variable {ω : Type} {p c₀ child : Process ω} {copies : List (HandleEntry ω × UInt8)}

/-- The slots resolve as in a new process, and the descriptors from the first one on to the
copies. -/
theorem Cloned.resolved_eq (h : Cloned c₀ copies child) (hnew : IsNew c₀) (k : ℕ) :
    resolved child k = if k < standardFdCount then resolved c₀ k
      else copies[k - standardFdCount]?.map Prod.fst := by
  rw [resolved, binding_eq, h.slots, h.table]
  split
  · rename_i hk
    rw [resolved, binding_eq, if_pos hk]
    rcases hsl : c₀.standardHandles k with _ | handle
    · rfl
    · exact h.kept handle (hnew.slots k handle hsl)
  rename_i hk
  replace hk : standardFdCount ≤ k := not_lt.mp hk
  split
  · have hcp := getElem?_eq_getElem (show k - standardFdCount < copies.length by omega)
    rw [hcp]
    exact h.handles _ _ hcp
  · rw [getElem?_eq_none (by omega)]
    rfl

theorem getFdFlags_eq (p : Process ω) (fd : FileDescriptor) :
    p.getFdFlags fd = (binding p fd).elim (.error .notFound) fun _ => .ok (flagsOf p fd) := by
  rw [getFdFlags]
  rcases hres : p.resolveFdHandle fd with e | handle
  · have hno := resolveFdHandle_eq_error hres
    have hent := fdEntry_eq p fd
    rw [fdEntry, hres, resolved_eq_none hno] at hent
    rw [hno, Except.error.inj hent]
    rfl
  · rw [resolveFdHandle_eq_ok.mp hres]
    rfl

/-- **The same descriptors**: each resolves to the same object with the same rights, and has the
same flags; what is not bound in one is not bound in the other. -/
def SameDescriptors (p child : Process ω) : Prop :=
  ∀ n : ℕ, child.fdEntry n = p.fdEntry n ∧ child.getFdFlags n = p.getFdFlags n

/-- **What a fork needs**: the slots of the parent are those of a new process, and its table is
bound from the first descriptor on without a gap. -/
structure Forkable (c₀ p : Process ω) : Prop where
  slots : ∀ n < standardFdCount, c₀.fdEntry n = p.fdEntry n ∧ c₀.getFdFlags n = p.getFdFlags n
  table : ∀ k : ℕ, p.fdTable.lookup k ≠ none ↔
    standardFdCount ≤ k ∧ k < standardFdCount + p.fdTable.entries.length

/-- The members of a table in order. -/
theorem mem_fds {k : ℕ} {handle : Handle} :
    ⟨k, handle⟩ ∈ p.fds ↔ p.fdTable.lookup k = some handle := by
  rw [fds, (perm_insertionSort _ _).mem_iff]
  exact mem_lookup_iff.symm

theorem lookup_ne_none_iff {k : ℕ} : p.fdTable.lookup k ≠ none ↔ k ∈ p.fdTable.keys := by
  rw [ne_eq, lookup_eq_none, not_not]
  exact mem_keys

/-- In a table without a gap, the place of a descriptor says its number. -/
theorem fds_eq_of_forkable (htable : ∀ k : ℕ, p.fdTable.lookup k ≠ none ↔
      standardFdCount ≤ k ∧ k < standardFdCount + p.fdTable.entries.length) :
    p.fds.map Sigma.fst = List.range' standardFdCount p.fdTable.entries.length := by
  have hpm : (p.fds.map Sigma.fst).Perm p.fdTable.keys :=
    (perm_insertionSort _ _).map _
  have hsor : (p.fds.map Sigma.fst).Pairwise (· ≤ ·) := by
    rw [pairwise_map]
    exact pairwise_insertionSort _ _
  refine Perm.eq_of_pairwise (fun a b _ _ => le_antisymm) hsor
    ((pairwise_lt_range' 1).imp le_of_lt) ?_
  refine (perm_ext_iff_of_nodup (hpm.nodup_iff.mpr p.fdTable.keys_nodup)
    nodup_range').mpr fun k => ?_
  rw [hpm.mem_iff, mem_range'_1, ← htable, lookup_ne_none_iff]

theorem getElem?_fds {n : ℕ} (htable : ∀ k : ℕ, p.fdTable.lookup k ≠ none ↔
      standardFdCount ≤ k ∧ k < standardFdCount + p.fdTable.entries.length)
    (hn : standardFdCount ≤ n) (hlt : n < standardFdCount + p.fdTable.entries.length) :
    ∃ handle, p.fds[n - standardFdCount]? = some ⟨n, handle⟩ := by
  have hget : (p.fds.map Sigma.fst)[n - standardFdCount]? = some n := by
    rw [fds_eq_of_forkable htable, getElem?_range' (by omega)]
    exact congrArg some (by omega)
  rw [getElem?_map] at hget
  obtain ⟨⟨fd, handle⟩, hx, rfl⟩ := map_eq_some_iff.mp hget
  exact ⟨handle, hx⟩

/-- A table with all descriptors of an interval as long as the table has no other. -/
theorem standardFdCount_le_of_full
    (hfu : ∀ k : ℕ, standardFdCount ≤ k → k < standardFdCount + p.fdTable.entries.length →
      p.fdTable.lookup k ≠ none) {k : ℕ} (hk : p.fdTable.lookup k ≠ none) :
    standardFdCount ≤ k := by
  have hcard : p.fdTable.keys.toFinset.card ≤
      (Finset.Ico standardFdCount (standardFdCount + p.fdTable.entries.length)).card := by
    rw [toFinset_card_of_nodup p.fdTable.keys_nodup, Nat.card_Ico, Nat.add_sub_cancel_left]
    exact le_of_eq (length_map _)
  have hsub : Finset.Ico standardFdCount (standardFdCount + p.fdTable.entries.length) ⊆
      p.fdTable.keys.toFinset := by
    intro j hj
    obtain ⟨hle, hlt⟩ := Finset.mem_Ico.mp hj
    exact mem_toFinset.mpr (lookup_ne_none_iff.mp (hfu j hle hlt))
  have hmem : k ∈ p.fdTable.keys.toFinset := mem_toFinset.mpr (lookup_ne_none_iff.mp hk)
  rw [← Finset.eq_of_subset_of_card_le hsub hcard] at hmem
  exact (Finset.mem_Ico.mp hmem).1

/-- The parent resolves what was copied. -/
theorem CopyOf.resolved {k : ℕ} {handle : Handle} {copy : HandleEntry ω × UInt8}
    (h : CopyOf p ⟨k, handle⟩ copy) (hlk : p.fdTable.lookup k = some handle)
    (hk : standardFdCount ≤ k) : resolved p k = some copy.1 := by
  have hent : p.handleEntry handle = .ok copy.1 := h.1
  rw [handleEntry] at hent
  rw [Handles.resolved, binding_eq, if_neg (not_lt.mpr hk), hlk]
  show p.handleTable.lookup handle = _
  rcases htable : p.handleTable.lookup handle with _ | entry
  · rw [htable] at hent
    cases hent
  · rw [htable] at hent
    exact congrArg some (Except.ok.inj hent)

theorem resolved_eq_of_fdEntry {q : Process ω} {n : ℕ} (h : q.fdEntry n = p.fdEntry n) :
    resolved q n = resolved p n := by
  rw [fdEntry_eq, fdEntry_eq] at h
  rcases hq : resolved q n with _ | entry
  · rcases hp : resolved p n with _ | entry'
    · rfl
    rw [hq, hp] at h
    cases h
  rcases hp : resolved p n with _ | entry'
  · rw [hq, hp] at h
    cases h
  · rw [hq, hp] at h
    exact congrArg some (Except.ok.inj h)

theorem forall₂_getElem? {α β : Type} {R : α → β → Prop} {l : List α} {l' : List β} {i : ℕ} {x : α}
    (h : List.Forall₂ R l l') (hx : l[i]? = some x) : ∃ y, l'[i]? = some y ∧ R x y := by
  induction h generalizing i with
  | nil => cases hx
  | cons hr _ ih =>
    rcases i with _ | i
    · cases hx
      exact ⟨_, rfl, hr⟩
    · exact ih hx

/-- **The child has the descriptors of the parent** exactly when the parent is forkable. -/
theorem Cloned.sameDescriptors_iff (h : Cloned c₀ copies child) (hnew : IsNew c₀)
    (hcps : List.Forall₂ (CopyOf p) p.fds copies) : SameDescriptors p child ↔ Forkable c₀ p := by
  have hlen : copies.length = p.fdTable.entries.length := by
    rw [← hcps.length_eq, fds, length_insertionSort]
  have hslo : ∀ n < standardFdCount,
      child.fdEntry n = c₀.fdEntry n ∧ child.getFdFlags n = c₀.getFdFlags n := by
    intro n hn
    have hbind : binding child n = binding c₀ n := by
      rw [binding_eq, binding_eq, if_pos hn, if_pos hn, h.slots]
    have hfl : flagsOf child n = flagsOf c₀ n := by
      rw [h.flags, if_neg (not_le.mpr hn), flagsOf, hnew.fdFlags]
      rfl
    refine ⟨fdEntry_congr (by rw [h.resolved_eq hnew, if_pos hn]), ?_⟩
    rw [getFdFlags_eq, getFdFlags_eq, hbind, hfl]
  constructor
  · intro hsm
    have hresd : ∀ k, standardFdCount ≤ k →
        resolved p k = copies[k - standardFdCount]?.map Prod.fst := by
      intro k hk
      rw [← resolved_eq_of_fdEntry (hsm k).1, h.resolved_eq hnew, if_neg (not_lt.mpr hk)]
    have hfu : ∀ k : ℕ, standardFdCount ≤ k → k < standardFdCount + p.fdTable.entries.length →
        p.fdTable.lookup k ≠ none := by
      intro k hk hlt hno
      have hp := hresd k hk
      rw [resolved_eq_none (by rw [binding_eq, if_neg (not_lt.mpr hk), hno])] at hp
      have hcp := getElem?_eq_none_iff.mp (map_eq_none_iff.mp hp.symm)
      omega
    refine ⟨fun n hn => ?_, fun k => ⟨fun hk => ?_, fun hk => hfu k hk.1 hk.2⟩⟩
    · rw [← (hslo n hn).1, ← (hslo n hn).2]
      exact hsm n
    have hle := standardFdCount_le_of_full hfu hk
    obtain ⟨handle, hlk⟩ := ne_none_iff_exists'.mp hk
    obtain ⟨i, hi⟩ := mem_iff_getElem?.mp (mem_fds.mpr hlk)
    obtain ⟨copy, -, hcp⟩ := forall₂_getElem? hcps hi
    have hp := hresd k hle
    rw [hcp.resolved hlk hle] at hp
    obtain ⟨copy', hcp', -⟩ := map_eq_some_iff.mp hp.symm
    obtain ⟨hlt, -⟩ := List.getElem?_eq_some_iff.mp hcp'
    omega
  · intro hfor n
    rcases lt_or_ge n standardFdCount with hn | hn
    · rw [(hslo n hn).1, (hslo n hn).2]
      exact hfor.slots n hn
    have hch := h.resolved_eq hnew n
    rw [if_neg (not_lt.mpr hn)] at hch
    have hbind : binding child n = if standardFdCount ≤ n ∧ n < standardFdCount + copies.length
        then some (c₀.nextHandle + (n - standardFdCount)) else none := by
      rw [binding_eq, if_neg (not_lt.mpr hn), h.table]
    have hbin : binding p n = p.fdTable.lookup n := by
      rw [binding_eq, if_neg (not_lt.mpr hn)]
    by_cases hlt : n < standardFdCount + p.fdTable.entries.length
    · -- the descriptor has its place in the table, and the copy of that place its number
      obtain ⟨handle, hx⟩ := getElem?_fds hfor.table hn hlt
      have hlk := mem_fds.mp (mem_of_getElem? hx)
      obtain ⟨copy, hcp, hcoo⟩ := forall₂_getElem? hcps hx
      refine ⟨fdEntry_congr ?_, ?_⟩
      · rw [hch, hcp, hcoo.resolved hlk hn]
        rfl
      rw [getFdFlags_eq, getFdFlags_eq, hbind, hbin, hlk, if_pos (by omega),
        h.flags, if_pos hn, hcp, show flagsOf p n = copy.2 from hcoo.2.symm]
      rfl
    · have hno : p.fdTable.lookup n = none := by
        by_contra hbd
        exact hlt ((hfor.table n).mp hbd).2
      rw [if_neg (by omega)] at hbind
      refine ⟨fdEntry_congr ?_, ?_⟩
      · rw [resolved_eq_none hbind, resolved_eq_none (hbin.trans hno)]
      rw [getFdFlags_eq, getFdFlags_eq, hbind, hbin, hno]
      rfl

end Child

/-! ### The main result -/

/-- **A fork copies the descriptors** exactly when the standard slots of the parent are those of a
new process and its table is bound from the first descriptor on without a gap. The parent stays as
it is. (The counters of the child have 64 bits; they do not come round for a table that fits in
memory.) -/
theorem fork_copies {ω : Type} {reopens : ω → ℕ → Except Error Unit} {devices : Devices ω}
    {threads : ℕ} {space : Except Error Unit} {p p' child : Process ω}
    (hfork : p.fork reopens devices threads space = (.ok child, p'))
    (hfits : p.fdTable.entries.length + 7 < 2 ^ 64) : p' = p ∧ (SameDescriptors p child ↔
      Forkable (Process.newWithSecurityToken reopens devices) p) := by
  rw [fork] at hfork
  split at hfork
  · cases hfork
  split at hfork
  · cases hfork
  split at hfork
  · cases hfork
  rename_i clone hclone
  split at hfork
  · cases hfork
  obtain ⟨hch, rfl⟩ := Prod.mk.inj hfork
  cases hch
  have hnew : IsNew (newWithSecurityToken reopens devices) := isNew_newWithSecurityToken
  have hlen : p.fds.length = p.fdTable.entries.length := by
    rw [fds, length_insertionSort]
  obtain ⟨copies, hcps, hclean⟩ := cloneFds_ok hnew.cloned
    (by have := hnew.nextHandle; simp; omega) hnew.handles hclone
  exact ⟨rfl, hclean.sameDescriptors_iff hnew hcps⟩

/-- The devices of the slots as objects. -/
def twoDevices : Devices ℕ := ⟨0, 1⟩

/-- Every object can be opened again. -/
def reopensAll : ℕ → ℕ → Except Error Unit := fun _ _ => .ok ()

/-- A process that has opened objects, with its standard slots. -/
def withObjects (objects : List ℕ) : Process ℕ :=
  objects.foldl (fun p object => (p.openDescriptor object handleRightRead).2)
    (newWithSecurityToken reopensAll twoDevices)

theorem fork_copies_one : ∃ child,
    (withObjects [2]).fork reopensAll twoDevices 1 (.ok ()) = (.ok child, withObjects [2]) ∧
      SameDescriptors (withObjects [2]) child := by
  obtain ⟨child, hfork⟩ : ∃ child, (withObjects [2]).fork reopensAll twoDevices 1 (.ok ()) =
      (.ok child, withObjects [2]) := ⟨_, rfl⟩
  refine ⟨child, hfork, (fork_copies hfork (by decide)).2.mpr ⟨fun n hn => ?_, fun k => ?_⟩⟩
  · obtain rfl | rfl | rfl : n = 0 ∨ n = 1 ∨ n = 2 := by
      simp only [standardFdCount] at hn
      omega
    all_goals exact ⟨rfl, rfl⟩
  have hlk : (withObjects [2]).fdTable.lookup k = if k = 3 then some 7 else none := by
    by_cases hk : k = 3
    · rw [hk]
      rfl
    · rw [if_neg hk]
      exact lookup_insert_ne hk
  rw [hlk]
  show _ ↔ 3 ≤ k ∧ k < 4
  by_cases hk : k = 3
  · rw [if_pos hk]
    exact iff_of_true (some_ne_none _) (by omega)
  · rw [if_neg hk]
    exact iff_of_false (fun h => h rfl) (by omega)

/-- A parent with a gap at descriptor 3, and with its standard output bound to the same handle as
descriptor 4. -/
def withGap : Process ℕ :=
  (((withObjects [2, 5]).closeFd 3).2.bindStandardHandle 1 8).2

/-- **A child with other descriptors**: what the parent has under 4 the child has under 3, and the
child's standard output is the debug device. -/
theorem fork_renumbers : ∃ child,
    withGap.fork reopensAll twoDevices 1 (.ok ()) = (.ok child, withGap) ∧
      withGap.fdEntry 3 = .error .notFound ∧ withGap.fdEntry 4 = .ok ⟨5, 1⟩ ∧
      child.fdEntry 3 = .ok ⟨5, 1⟩ ∧ child.fdEntry 4 = .error .notFound ∧
      withGap.fdEntry 1 = .ok ⟨5, 1⟩ ∧ child.fdEntry 1 = .ok ⟨1, 2⟩ :=
  ⟨_, rfl, rfl, rfl, rfl, rfl, rfl, rfl⟩

end Protofire.Handles
