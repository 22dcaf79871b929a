import Protofire.Kernel.Block
import Protofire.Lib.References

/-!
# The handles and the descriptors of a process

A process (`kernel/process/process/handle_ops.rs`) has a table of *handles*, which are the open
objects, and names for them: *descriptors* from 3 on in a table, and the three standard slots. A
handle is closed when the last name for it goes, unless it was given to the caller as it is and has
no name yet.

Descriptors are given out in two ways: by a counter that goes up, and as the lowest free number from
a given one on. A third way is the caller's own choice. The counter does not look at the table, so
it hands out a descriptor that one of the other two has bound already: what was bound to it is lost,
its handle stays open for ever, and the new descriptor has the flags of the old one
(`openDescriptor_not_fresh`).

What opening an object again asks of it is the object's matter and given from outside; which object
it is does not matter here.
-/

namespace Protofire.Handles

open References AList Function Option

abbrev Handle := ℕ

abbrev FileDescriptor := ℕ

def standardFdCount : ℕ := 3

def firstExplicitFd : FileDescriptor := standardFdCount

/-- An open object with the rights it was opened with. -/
structure HandleEntry (ω : Type) where
  object : ω
  rights : ℕ

/-- What the process has of handles and descriptors. -/
structure Process (ω : Type) where
  terminated : Bool
  /-- The two counters have 64 bits. -/
  nextHandle : ℕ
  nextFd : ℕ
  handleTable : AList fun _ : Handle => HandleEntry ω
  fdTable : AList fun _ : FileDescriptor => Handle
  fdFlags : AList fun _ : FileDescriptor => UInt8
  /-- The slots below `standardFdCount`. -/
  standardHandles : FileDescriptor → Option Handle

/-- What a call answers, with the process that it leaves. -/
abbrev Answer (ω α : Type) := Except Error α × Process ω

namespace Process

variable {ω α : Type}

def new : Process ω where
  terminated := false
  nextHandle := 4
  nextFd := firstExplicitFd
  handleTable := ∅
  fdTable := ∅
  fdFlags := ∅
  standardHandles := fun _ => none

/-! ### Handles -/

section

variable (p : Process ω)

/-- The process with one more handle. -/
def withHandle (object : ω) (rights : ℕ) : Process ω :=
  { p with
    nextHandle := (p.nextHandle + 1) % 2 ^ 64
    handleTable := p.handleTable.insert p.nextHandle ⟨object, rights⟩ }

/-- `open_handle`: refused to a process that has ended. -/
def openHandle (object : ω) (rights : ℕ) : Answer ω Handle :=
  if p.terminated then (.error .busy, p) else (.ok p.nextHandle, p.withHandle object rights)

variable (handle : Handle)

/-- `handle_entry`. -/
def handleEntry : Except Error (HandleEntry ω) :=
  match p.handleTable.lookup handle with
  | none => .error .notFound
  | some entry => .ok entry

/-- A standard slot or a descriptor names the handle. -/
def handleIsReferenced : Bool :=
  ((List.range standardFdCount).any fun fd => p.standardHandles fd == some handle) ||
    p.fdTable.entries.any fun e => e.2 == handle

/-- `release_handle_if_unreferenced`. -/
def releaseHandleIfUnreferenced : Process ω :=
  if p.handleIsReferenced handle then p
  else { p with handleTable := p.handleTable.erase handle }

end

/-- The handles are released where the call failed. -/
def cleanupOnError (cleanup : List Handle) : Answer ω α → Answer ω α
  | (.ok value, p) => (.ok value, p)
  | (.error e, p) => (.error e, cleanup.foldl releaseHandleIfUnreferenced p)

/-! ### Descriptors -/

variable (p : Process ω)

section

variable (fd : FileDescriptor)

/-- Bind a descriptor in the table. -/
def withFd (handle : Handle) : Process ω :=
  { p with fdTable := p.fdTable.insert fd handle }

/-- Bind the descriptor of the counter. -/
def installFdHandle (handle : Handle) : Answer ω FileDescriptor :=
  if p.terminated then (.error .busy, p)
  else (.ok p.nextFd, { p.withFd p.nextFd handle with nextFd := (p.nextFd + 1) % 2 ^ 64 })

/-- `open_descriptor`: a handle, and the descriptor of the counter for it. -/
def openDescriptor (object : ω) (rights : ℕ) : Answer ω FileDescriptor :=
  match p.openHandle object rights with
  | (.error e, p) => (.error e, p)
  | (.ok handle, p) => cleanupOnError [handle] (p.installFdHandle handle)

/-- Open an object if a check of it succeeded. -/
def openValidatedObject (validation : Except Error Unit)
    (call : Process ω → Answer ω α) : Answer ω α :=
  match validation with
  | .error e => (.error e, p)
  | .ok () => call p

/-- `standard_handle`: the slots 0, 1 and 2. -/
def standardHandle : Except Error Handle :=
  if fd < standardFdCount then
    match p.standardHandles fd with
    | none => .error .notFound
    | some handle => .ok handle
  else .error .invalidArgument

/-- `resolve_fd_handle`: a standard slot or the table, by the number. -/
def resolveFdHandle : Except Error Handle :=
  if fd < standardFdCount then p.standardHandle fd
  else
    match p.fdTable.lookup fd with
    | none => .error .notFound
    | some handle => .ok handle

/-- `fd_entry`. -/
def fdEntry : Except Error (HandleEntry ω) :=
  match p.resolveFdHandle fd with
  | .error e => .error e
  | .ok handle => p.handleEntry handle

/-- Set a standard slot. -/
def withSlot (handle : Option Handle) : Process ω :=
  { p with standardHandles := update p.standardHandles fd handle }

/-- Take the name of a handle away. -/
def withoutFd : Process ω :=
  if fd < standardFdCount then p.withSlot fd none
  else { p with fdTable := p.fdTable.erase fd }

/-- `close_fd`: its handle is released if nothing else names it. -/
def closeFd : Answer ω Unit :=
  if p.terminated then (.error .busy, p)
  else
    match p.resolveFdHandle fd with
    | .error _ => (.error .notFound, p)
    | .ok handle =>
      let p := { p.withoutFd fd with fdFlags := p.fdFlags.erase fd }
      (.ok (), p.releaseHandleIfUnreferenced handle)

/-- Set and clear flags; a descriptor without flags has no entry. -/
def setFdFlags (set clear : UInt8) : Answer ω Unit :=
  if p.terminated then (.error .busy, p)
  else
    match p.resolveFdHandle fd with
    | .error e => (.error e, p)
    | .ok _ =>
      let flags := ((p.fdFlags.lookup fd).getD 0 ||| set) &&& ~~~clear
      (.ok (), { p with
        fdFlags := if flags = 0 then p.fdFlags.erase fd else p.fdFlags.insert fd flags })

/-- `get_fd_flags`. -/
def getFdFlags : Except Error UInt8 :=
  match p.resolveFdHandle fd with
  | .error e => .error e
  | .ok _ => .ok ((p.fdFlags.lookup fd).getD 0)

end

/-! ### Duplicates -/

/-- The lowest free descriptor from one on, while there are some left. -/
def lowestFree (p : Process ω) : ℕ → FileDescriptor → Option FileDescriptor
  | 0, _ => none
  | left + 1, fd => if p.fdTable.lookup fd = none then some fd else lowestFree p left (fd + 1)

/-- `allocate_fd_from`: the lowest number from `minFd` on that is not bound. -/
def allocateFdFrom (minFd : FileDescriptor) : Except Error FileDescriptor :=
  let fd := max minFd firstExplicitFd
  match p.lowestFree (2 ^ 64 - fd) fd with
  | none => .error .invalidArgument
  | some fd => .ok fd

section Duplicates

variable (reopens : ω → ℕ → Except Error Unit)

/-- `reopen_object_handle`: the same object and rights under a new handle. -/
def reopenObjectHandle (p : Process ω) (entry : HandleEntry ω) : Answer ω Handle :=
  p.openValidatedObject (reopens entry.object entry.rights) fun p =>
    p.openHandle entry.object entry.rights

/-- `reopen_object_descriptor`. -/
def reopenObjectDescriptor (p : Process ω) (entry : HandleEntry ω) : Answer ω FileDescriptor :=
  p.openValidatedObject (reopens entry.object entry.rights) fun p =>
    p.openDescriptor entry.object entry.rights

/-- `duplicate_fd`: onto the number of the counter. -/
def duplicateFd (p : Process ω) (fd : FileDescriptor) : Answer ω FileDescriptor :=
  if p.terminated then (.error .busy, p)
  else
    match p.fdEntry fd with
    | .error e => (.error e, p)
    | .ok entry => p.reopenObjectDescriptor reopens entry

/-- Bind a duplicate to a descriptor that is free by now. -/
def duplicateOnto (p : Process ω) (fd newfd : FileDescriptor) : Answer ω FileDescriptor :=
  match p.fdEntry fd with
  | .error e => (.error e, p)
  | .ok entry =>
    match p.reopenObjectHandle reopens entry with
    | (.error e, p) => (.error e, p)
    | (.ok handle, p) => (.ok newfd, p.withFd newfd handle)

/-- `duplicate_fd_to`: whatever `newfd` was bound to is closed first. -/
def duplicateFdTo (p : Process ω) (fd newfd : FileDescriptor) : Answer ω FileDescriptor :=
  if p.terminated then (.error .busy, p)
  else
    match p.resolveFdHandle newfd with
    | .error _ => p.duplicateOnto reopens fd newfd
    | .ok _ =>
      match p.closeFd newfd with
      | (.error e, p) => (.error e, p)
      | (.ok (), p) => p.duplicateOnto reopens fd newfd

/-- `duplicate_fd_from`: onto the lowest free number from `minFd` on. -/
def duplicateFdFrom (p : Process ω) (fd minFd : FileDescriptor) : Answer ω FileDescriptor :=
  if p.terminated then (.error .busy, p)
  else
    match p.fdEntry fd with
    | .error e => (.error e, p)
    | .ok entry =>
      match p.reopenObjectHandle reopens entry with
      | (.error e, p) => (.error e, p)
      | (.ok handle, p) =>
        match p.allocateFdFrom minFd with
        | .error e => (.error e, p)
        | .ok newFd => (.ok newFd, p.withFd newFd handle)

end Duplicates

/-! ### The standard slots -/

variable (fd : FileDescriptor)

/-- `replace_standard_handle_binding`: the old handle is released if nothing else names it. -/
def replaceStandardHandleBinding (handle : Handle) : Process ω :=
  match p.standardHandles fd with
  | none => p.withSlot fd (some handle)
  | some previous => (p.withSlot fd (some handle)).releaseHandleIfUnreferenced previous

/-- `bind_standard_handle`. -/
def bindStandardHandle (handle : Handle) : Answer ω Unit :=
  if ¬fd < standardFdCount then (.error .invalidArgument, p)
  else if p.terminated then (.error .busy, p)
  else
    match p.handleEntry handle with
    | .error e => (.error e, p)
    | .ok _ => (.ok (), p.replaceStandardHandleBinding fd handle)

/-- `install_standard_handle_entry`: the object is opened again for the slot. -/
def installStandardHandleEntry (reopens : ω → ℕ → Except Error Unit) (p : Process ω)
    (fd : FileDescriptor) (entry : HandleEntry ω) : Answer ω Unit :=
  if ¬fd < standardFdCount then (.error .invalidArgument, p)
  else
    match p.reopenObjectHandle reopens entry with
    | (.error e, p) => (.error e, p)
    | (.ok handle, p) => (.ok (), p.replaceStandardHandleBinding fd handle)

/-- Let one slot have what another one has. -/
def redirect (source target : FileDescriptor) : Answer ω Unit :=
  if ¬source < standardFdCount ∨ ¬target < standardFdCount then (.error .invalidArgument, p)
  else if p.terminated then (.error .busy, p)
  else
    match p.standardHandle source with
    | .error e => (.error e, p)
    | .ok handle => (.ok (), p.replaceStandardHandleBinding target handle)

end Process

/-! ### Names and flags -/

section Names

variable {ω : Type} {p p' : Process ω} {fd : FileDescriptor} {handle : Handle}

section

variable (p : Process ω) (fd : FileDescriptor)

/-- The handle that a descriptor is bound to. -/
def binding : Option Handle := (p.resolveFdHandle fd).toOption

/-- The flags of a descriptor. -/
def flagsOf : UInt8 := (p.fdFlags.lookup fd).getD 0

/-- The handle is open. -/
def Live (handle : Handle) : Prop := p.handleTable.lookup handle ≠ none

theorem binding_eq : binding p fd =
    if fd < standardFdCount then p.standardHandles fd else p.fdTable.lookup fd := by
  rw [binding, Process.resolveFdHandle, Process.standardHandle]
  by_cases hfd : fd < standardFdCount
  · rw [if_pos hfd, if_pos hfd, if_pos hfd]
    rcases p.standardHandles fd with _ | handle <;> rfl
  · rw [if_neg hfd, if_neg hfd]
    rcases p.fdTable.lookup fd with _ | handle <;> rfl

end

theorem resolveFdHandle_eq_ok : p.resolveFdHandle fd = .ok handle ↔ binding p fd = some handle := by
  rw [binding]
  rcases p.resolveFdHandle fd with e | h <;> simp [Except.toOption]

theorem resolveFdHandle_eq_error {e : Error} (h : p.resolveFdHandle fd = .error e) :
    binding p fd = none := by
  rw [binding, h]
  rfl

/-- The names of two processes with the same slots and the same table. -/
theorem binding_congr (hslo : p'.standardHandles = p.standardHandles)
    (htable : p'.fdTable = p.fdTable) : binding p' = binding p := by
  funext fd
  rw [binding_eq, binding_eq, hslo, htable]

/-- A descriptor of the table is bound. -/
theorem binding_withFd (h : standardFdCount ≤ fd) :
    binding (p.withFd fd handle) = update (binding p) fd (some handle) := by
  funext k
  rw [binding_eq]
  by_cases hk : k = fd
  · subst hk
    rw [update_self, if_neg (Nat.not_lt.mpr h)]
    exact lookup_insert _
  rw [update_of_ne hk, binding_eq]
  split
  · rfl
  · exact lookup_insert_ne hk

/-- A standard slot is set. -/
theorem binding_withSlot (h : fd < standardFdCount) (o : Option Handle) :
    binding (p.withSlot fd o) = update (binding p) fd o := by
  funext k
  rw [binding_eq]
  show (if k < standardFdCount then update p.standardHandles fd o k else p.fdTable.lookup k) = _
  by_cases hk : k = fd
  · subst hk
    rw [if_pos h, update_self, update_self]
  · rw [update_of_ne hk, update_of_ne hk, binding_eq]

/-- A name is taken away. -/
theorem binding_withoutFd : binding (p.withoutFd fd) = update (binding p) fd none := by
  rw [Process.withoutFd]
  split
  · rename_i hfd
    exact binding_withSlot hfd none
  rename_i hfd
  funext k
  rw [binding_eq]
  by_cases hk : k = fd
  · subst hk
    rw [update_self, if_neg hfd]
    exact lookup_erase _ _
  rw [update_of_ne hk, binding_eq]
  split
  · rfl
  · exact lookup_erase_ne hk

/-- The descriptors of the table are not those of the slots. -/
def Explicit (p : Process ω) : Prop := ∀ fd, p.fdTable.lookup fd ≠ none → standardFdCount ≤ fd

/-- What the code looks for is whether there is a name. -/
theorem handleIsReferenced_iff (h : Explicit p) :
    p.handleIsReferenced handle = true ↔ Referenced (binding p) handle := by
  simp only [Process.handleIsReferenced, Bool.or_eq_true, List.any_eq_true, List.mem_range,
    beq_iff_eq]
  constructor
  · rintro (⟨fd, hfd, hsl⟩ | ⟨⟨fd, handle'⟩, hmem, rfl⟩)
    · exact ⟨fd, by rw [binding_eq, if_pos hfd, hsl]⟩
    have hlk := mem_lookup_iff.mpr hmem
    refine ⟨fd, ?_⟩
    rw [binding_eq, if_neg (Nat.not_lt.mpr (h fd (by rw [hlk]; exact some_ne_none _)))]
    exact hlk
  · rintro ⟨fd, hfd⟩
    rw [binding_eq] at hfd
    split at hfd
    · rename_i hlt
      exact Or.inl ⟨fd, hlt, hfd⟩
    · exact Or.inr ⟨⟨fd, handle⟩, mem_lookup_iff.mp hfd, rfl⟩

/-- **A handle without a name is released**, and nothing else happens. -/
theorem release_spec (h : Explicit p) (handle : Handle) :
    (p.releaseHandleIfUnreferenced handle).fdTable = p.fdTable ∧
      (p.releaseHandleIfUnreferenced handle).fdFlags = p.fdFlags ∧
      (p.releaseHandleIfUnreferenced handle).standardHandles = p.standardHandles ∧
      ∀ x, Live (p.releaseHandleIfUnreferenced handle) x ↔
        Live p x ∧ (x = handle → Referenced (binding p) x) := by
  rw [Process.releaseHandleIfUnreferenced]
  split
  · rename_i href
    rw [handleIsReferenced_iff h] at href
    exact ⟨rfl, rfl, rfl, fun x => ⟨fun hx => ⟨hx, fun heq => heq ▸ href⟩, fun hx => hx.1⟩⟩
  rename_i href
  rw [handleIsReferenced_iff h] at href
  refine ⟨rfl, rfl, rfl, fun x => ?_⟩
  show (p.handleTable.erase handle).lookup x ≠ none ↔ _
  by_cases hx : x = handle
  · subst hx
    rw [lookup_erase]
    exact iff_of_false (fun hne => hne rfl) fun hx => href (hx.2 rfl)
  · rw [lookup_erase_ne hx]
    exact ⟨fun hlv => ⟨hlv, fun heq => absurd heq hx⟩, fun hlv => hlv.1⟩

end Names

/-! ### The invariant -/

/-- **What is true of a process**, with the handles that the caller has as they are: the open
handles are those with a name and those; the table has no descriptor of a slot; and only what is
bound has flags. -/
structure Inv {ω : Type} (p : Process ω) (raw : Handle → Prop) : Prop where
  tracks : Tracks (Live p) (binding p) raw
  explicit : Explicit p
  flagged : ∀ fd, p.fdFlags.lookup fd ≠ none → binding p fd ≠ none

/-- **A step keeps what it should**: the invariant, and the handles and flags of all descriptors
but the touched one. -/
structure Keeps {ω : Type} (p p' : Process ω) (raw' : Handle → Prop)
    (touched : Option FileDescriptor) : Prop where
  inv : Inv p' raw'
  others : ∀ fd, touched ≠ some fd → binding p' fd = binding p fd ∧ flagsOf p' fd = flagsOf p fd

section Steps

variable {ω : Type} {p p' : Process ω} {raw raw' : Handle → Prop} {fd : FileDescriptor}
  {handle : Handle} {object : ω} {rights : ℕ}

theorem inv_new : Inv (Process.new : Process ω) fun _ => False := by
  refine ⟨⟨fun x => iff_of_false (fun h => h rfl) ?_, fun _ h => absurd h id⟩,
    fun _ h => absurd rfl h, fun _ h => absurd rfl h⟩
  rintro (⟨fd, hfd⟩ | h)
  · rw [binding_eq] at hfd
    split at hfd <;> cases hfd
  · exact h

theorem Inv.congr (h : Inv p raw) (hraw : ∀ x, raw' x ↔ raw x) : Inv p raw' :=
  ⟨h.tracks.congr (fun _ => Iff.rfl) rfl hraw, h.explicit, h.flagged⟩

theorem Inv.keeps (h : Inv p raw) (touched : Option FileDescriptor) : Keeps p p raw touched :=
  ⟨h, fun _ _ => ⟨rfl, rfl⟩⟩

theorem live_withHandle (p : Process ω) (object : ω) (rights : ℕ) (x : Handle) :
    Live (p.withHandle object rights) x ↔ x = p.nextHandle ∨ Live p x := by
  show (p.handleTable.insert p.nextHandle _).lookup x ≠ none ↔ _
  by_cases hx : x = p.nextHandle
  · subst hx
    rw [lookup_insert]
    exact iff_of_true (some_ne_none _) (Or.inl rfl)
  · rw [lookup_insert_ne hx]
    exact ⟨Or.inr, fun h => h.resolve_left hx⟩

/-- A new handle is the caller's. -/
theorem Inv.withHandle (h : Inv p raw) (hnew : ¬Live p p.nextHandle) :
    Inv (p.withHandle object rights) fun x => x = p.nextHandle ∨ raw x :=
  ⟨(h.tracks.hold hnew).congr (live_withHandle p object rights) rfl fun _ => Iff.rfl, h.explicit,
    h.flagged⟩

/-- **A new handle is given a free descriptor.** -/
theorem Inv.bindNew (h : Inv p raw) (hnew : ¬Live p p.nextHandle) (hfd : standardFdCount ≤ fd)
    (hfr : binding p fd = none) :
    Inv ((p.withHandle object rights).withFd fd p.nextHandle) raw := by
  have hbind : binding ((p.withHandle object rights).withFd fd p.nextHandle) =
      update (binding p) fd (some p.nextHandle) := binding_withFd hfd
  refine ⟨(h.tracks.bindNew hnew fd).congr (fun x => ?_) hbind fun _ => Iff.rfl,
    fun k hk => ?_, fun k hk => ?_⟩
  · rw [hfr]
    exact (live_withHandle p object rights x).trans
      ⟨fun hx => ⟨hx, fun hn => (nomatch hn)⟩, fun hx => hx.1⟩
  · by_cases hkfd : k = fd
    · exact hkfd ▸ hfd
    · exact h.explicit k fun hno => hk ((lookup_insert_ne hkfd).trans hno)
  · rw [hbind]
    by_cases hkfd : k = fd
    · rw [hkfd, update_self]
      exact some_ne_none _
    · rw [update_of_ne hkfd]
      exact h.flagged k hk

/-- A descriptor that is not bound has no flags. -/
theorem Inv.flagsOf_eq_zero (h : Inv p raw) (hfr : binding p fd = none) : flagsOf p fd = 0 := by
  have hno : p.fdFlags.lookup fd = none := by
    by_contra hfl
    exact h.flagged fd hfl hfr
  rw [flagsOf, hno]
  rfl

theorem live_withoutFd (p : Process ω) (fd : FileDescriptor) :
    (p.withoutFd fd).handleTable = p.handleTable ∧ (p.withoutFd fd).fdFlags = p.fdFlags ∧
      (p.withoutFd fd).nextHandle = p.nextHandle := by
  rw [Process.withoutFd]
  split <;> exact ⟨rfl, rfl, rfl⟩

theorem Inv.explicit_withoutFd (h : Inv p raw) (fd : FileDescriptor) :
    Explicit (p.withoutFd fd) := by
  intro k hk
  refine h.explicit k fun hno => hk ?_
  rw [Process.withoutFd]
  split
  · exact hno
  by_cases hkfd : k = fd
  · rw [hkfd]
    exact lookup_erase _ _
  · exact (lookup_erase_ne hkfd).trans hno

/-- **A descriptor is closed.** -/
theorem Inv.closeFd (h : Inv p raw) (hclo : p.closeFd fd = (.ok (), p')) :
    Keeps p p' raw (some fd) ∧ binding p' fd = none ∧ p'.nextHandle = p.nextHandle ∧
      (∀ x, Live p' x → Live p x) := by
  rw [Process.closeFd] at hclo
  split at hclo
  · cases hclo
  split at hclo
  · cases hclo
  rename_i handle hres
  have hbd := resolveFdHandle_eq_ok.mp hres
  obtain ⟨htable, -, hnx⟩ := live_withoutFd p fd
  generalize hq : ({ p.withoutFd fd with fdFlags := p.fdFlags.erase fd }) = q at hclo
  have hexp : Explicit q := hq ▸ h.explicit_withoutFd fd
  have hbind : binding q = update (binding p) fd none := by
    rw [← hq]
    exact binding_withoutFd
  have hlv : ∀ x, Live q x ↔ Live p x := by
    intro x
    rw [← hq, Live, Live]
    exact iff_of_eq (by rw [htable])
  have hfl : q.fdFlags = p.fdFlags.erase fd := by rw [← hq]
  obtain ⟨htable', hfl', hslo', hlv'⟩ := release_spec hexp handle
  have hbind' : binding (q.releaseHandleIfUnreferenced handle) =
      update (binding p) fd none := (binding_congr hslo' htable').trans hbind
  obtain rfl := (Prod.mk.inj hclo).2
  refine ⟨⟨⟨?_, ?_, fun k hk => ?_⟩, fun k hk => ⟨?_, ?_⟩⟩, ?_, ?_, fun x hx => ?_⟩
  · refine (h.tracks.unbind fd).congr (fun x => ?_) hbind' fun _ => Iff.rfl
    rw [hlv', hlv, hbd, hbind]
    exact and_congr_right fun _ => imp_congr_left (by rw [some_inj, eq_comm])
  · exact fun k hk => hexp k (htable' ▸ hk)
  · rw [hfl', hfl] at hk
    have hkfd : k ≠ fd := by
      rintro rfl
      exact hk (lookup_erase _ _)
    rw [lookup_erase_ne hkfd] at hk
    rw [hbind', update_of_ne hkfd]
    exact h.flagged k hk
  · rw [hbind', update_of_ne fun heq => hk (congrArg some heq.symm)]
  · rw [flagsOf, hfl', hfl, lookup_erase_ne fun heq => hk (congrArg some heq.symm), flagsOf]
  · rw [hbind', update_self]
  · rw [← hnx, Process.releaseHandleIfUnreferenced, ← hq]
    split <;> rfl
  · exact (hlv x).mp ((hlv' x).mp hx).1

/-- **A slot is bound to an open handle**, which is not the caller's any more. -/
theorem Inv.replace (h : Inv p raw) (hfd : fd < standardFdCount) (hlv : Live p handle) :
    Keeps p (p.replaceStandardHandleBinding fd handle) (fun x => raw x ∧ x ≠ handle) (some fd) := by
  have hbind : binding (p.withSlot fd (some handle)) =
      update (binding p) fd (some handle) := binding_withSlot hfd _
  have hsl : binding p fd = p.standardHandles fd := by rw [binding_eq, if_pos hfd]
  have hfg : ∀ k, p.fdFlags.lookup k ≠ none →
      update (binding p) fd (some handle) k ≠ none := by
    intro k hk
    by_cases hkfd : k = fd
    · rw [hkfd, update_self]
      exact some_ne_none _
    · rw [update_of_ne hkfd]
      exact h.flagged k hk
  have hreb := h.tracks.rebind hlv fd
  rw [hsl] at hreb
  rw [Process.replaceStandardHandleBinding]
  split
  · rename_i hno
    refine ⟨⟨hreb.congr (fun x => ?_) hbind fun _ => Iff.rfl, h.explicit, ?_⟩,
      fun k hk => ⟨?_, rfl⟩⟩
    · rw [hno]
      exact ⟨fun hx => ⟨hx, fun hn => (nomatch hn)⟩, fun hx => hx.1⟩
    · rw [hbind]
      exact hfg
    · rw [hbind, update_of_ne fun heq => hk (congrArg some heq.symm)]
  rename_i previous hpv
  obtain ⟨htable', hfl', hslo', hlv'⟩ :=
    release_spec (p := p.withSlot fd (some handle)) h.explicit previous
  have hbind' := (binding_congr hslo' htable').trans hbind
  refine ⟨⟨hreb.congr (fun x => ?_) hbind' fun _ => Iff.rfl, ?_, fun k hk => ?_⟩,
    fun k hk => ⟨?_, ?_⟩⟩
  · rw [hlv', hpv, hbind]
    exact and_congr_right fun _ => imp_congr_left (by rw [some_inj, eq_comm])
  · exact fun k hk => h.explicit k (htable' ▸ hk)
  · rw [hfl'] at hk
    rw [hbind']
    exact hfg k hk
  · rw [hbind', update_of_ne fun heq => hk (congrArg some heq.symm)]
  · rw [flagsOf, hfl']
    rfl

/-- **Flags are set and cleared.** -/
theorem Inv.setFdFlags (h : Inv p raw) (set clear : UInt8) :
    Keeps p (p.setFdFlags fd set clear).2 raw (some fd) := by
  rw [Process.setFdFlags]
  split
  · exact h.keeps _
  split
  · exact h.keeps _
  rename_i handle hres
  have hbd := resolveFdHandle_eq_ok.mp hres
  have hoths : ∀ k, k ≠ fd → (if (((p.fdFlags.lookup fd).getD 0 ||| set) &&& ~~~clear) = 0
      then p.fdFlags.erase fd
      else p.fdFlags.insert fd (((p.fdFlags.lookup fd).getD 0 ||| set) &&& ~~~clear)).lookup k =
      p.fdFlags.lookup k := by
    intro k hk
    split
    · exact lookup_erase_ne hk
    · exact lookup_insert_ne hk
  refine ⟨⟨h.tracks, h.explicit, fun k hk => ?_⟩, fun k hk => ⟨rfl, ?_⟩⟩
  · by_cases hkfd : k = fd
    · rw [hkfd]
      show binding p fd ≠ none
      rw [hbd]
      exact some_ne_none _
    · exact h.flagged k ((hoths k hkfd) ▸ hk)
  · exact congrArg (fun o : Option UInt8 => o.getD 0)
      (hoths k fun heq => hk (congrArg some heq.symm))

end Steps

end Protofire.Handles
