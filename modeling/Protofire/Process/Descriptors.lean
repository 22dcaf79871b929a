import Protofire.Process.Handles

/-!
# Fresh descriptors

The calls of a process on its handles and descriptors, in any order. A call that gives out a
descriptor should give out one that was bound to nothing, and leave all the others as they are; and
the handles that are open should be those that somebody can name.

`Careful` says what the caller's own choices need for that: a duplicate is asked for on a descriptor
that the counter has passed and that is no standard slot, the search for a free descriptor finds one
that the counter has passed, and the counters have not come to their end. Then all that is bound is
below the counter (`Counted`), so what the counter gives out is free.
-/

namespace Protofire.Handles

open References Function Option Process

/-! ### What the opening calls do -/

section Opening

variable {ω : Type} {p p' : Process ω} {raw : Handle → Prop} {fd : FileDescriptor}

theorem openHandle_cases (p : Process ω) (validation : Except Error Unit) (object : ω)
    (rights : ℕ) : (∃ e, p.openValidatedObject validation (fun p => p.openHandle object rights) =
        (.error e, p)) ∨ p.openValidatedObject validation (fun p => p.openHandle object rights) =
        (.ok p.nextHandle, p.withHandle object rights) := by
  rcases validation with e | _
  · exact Or.inl ⟨e, rfl⟩
  show (∃ e, p.openHandle object rights = (.error e, p)) ∨ p.openHandle object rights = _
  rw [openHandle]
  split
  · exact Or.inl ⟨_, rfl⟩
  · exact Or.inr rfl

/-- The process with a descriptor of the counter. -/
def opened (p : Process ω) (object : ω) (rights : ℕ) : Process ω :=
  { (p.withHandle object rights).withFd p.nextFd p.nextHandle with
    nextFd := (p.nextFd + 1) % 2 ^ 64 }

theorem openDescriptor_cases (p : Process ω) (validation : Except Error Unit) (object : ω)
    (rights : ℕ) :
    (∃ e, p.openValidatedObject validation (fun p => p.openDescriptor object rights) =
        (.error e, p)) ∨
      p.openValidatedObject validation (fun p => p.openDescriptor object rights) =
        (.ok p.nextFd, opened p object rights) := by
  rcases validation with e | _
  · exact Or.inl ⟨e, rfl⟩
  show (∃ e, p.openDescriptor object rights = (.error e, p)) ∨ p.openDescriptor object rights = _
  rw [openDescriptor, openHandle]
  rcases htm : p.terminated with _ | _
  · refine Or.inr ?_
    simp only [Bool.false_eq_true, if_false]
    rw [installFdHandle, if_neg (by simp [withHandle, htm])]
    rfl
  · exact Or.inl ⟨_, rfl⟩

/-- **The search finds the lowest free descriptor.** -/
theorem lowestFree_eq_some_iff {left start k : ℕ} : p.lowestFree left start = some k ↔
    start ≤ k ∧ k < start + left ∧ p.fdTable.lookup k = none ∧
      ∀ j, start ≤ j → j < k → p.fdTable.lookup j ≠ none := by
  induction left generalizing start with
  | zero => exact iff_of_false (by simp [lowestFree]) fun h => by omega
  | succ left ih =>
    rw [lowestFree]
    split
    · rename_i hfr
      constructor
      · rintro h
        cases h
        exact ⟨le_refl _, by omega, hfr, fun j hle hlt => by omega⟩
      rintro ⟨hle, -, -, hbel⟩
      rcases Nat.eq_or_lt_of_le hle with rfl | hlt
      · rfl
      · exact absurd hfr (hbel start (le_refl _) hlt)
    rename_i hbd
    rw [ih]
    constructor
    · rintro ⟨hle, hlt, hfr, hbel⟩
      refine ⟨by omega, by omega, hfr, fun j hj hjk => ?_⟩
      rcases Nat.eq_or_lt_of_le hj with rfl | hj
      · exact hbd
      · exact hbel j hj hjk
    · rintro ⟨hle, hlt, hfr, hbel⟩
      have hne : start ≠ k := by
        rintro rfl
        exact hbd hfr
      exact ⟨by omega, by omega, hfr, fun j hj hjk => hbel j (by omega) hjk⟩

theorem lowestFree_ne_none {left start k : ℕ} (hle : start ≤ k) (hlt : k < start + left)
    (hfr : p.fdTable.lookup k = none) : p.lowestFree left start ≠ none := by
  induction left generalizing start with
  | zero => omega
  | succ left ih =>
    rw [lowestFree]
    split
    · exact some_ne_none _
    rename_i hbd
    have hne : start ≠ k := by
      rintro rfl
      exact hbd hfr
    exact ih (by omega) (by omega)

theorem binding_of_explicit {k : FileDescriptor} (hk : standardFdCount ≤ k) :
    binding p k = p.fdTable.lookup k := by
  rw [binding_eq, if_neg (not_lt.mpr hk)]

/-- **The descriptor that is found** for a duplicate is free, and not above any other free one. -/
theorem allocateFdFrom_of_free {minFd k : FileDescriptor} (hlt : k < 2 ^ 64) (hmin : minFd ≤ k)
    (hstandard : standardFdCount ≤ k) (hfree : binding p k = none) :
    ∃ newFd, p.allocateFdFrom minFd = .ok newFd ∧ standardFdCount ≤ newFd ∧ newFd ≤ k ∧
      binding p newFd = none := by
  rw [binding_of_explicit hstandard] at hfree
  have hstart : max minFd firstExplicitFd ≤ k := Nat.max_le.mpr ⟨hmin, hstandard⟩
  have hne : p.lowestFree (2 ^ 64 - max minFd firstExplicitFd) (max minFd firstExplicitFd) ≠ none :=
    lowestFree_ne_none hstart (by rwa [Nat.add_sub_cancel' (le_trans hstart (le_of_lt hlt))]) hfree
  obtain ⟨newFd, hfound⟩ := ne_none_iff_exists'.mp hne
  obtain ⟨hle, -, hfree', hbelow⟩ := lowestFree_eq_some_iff.mp hfound
  have hstandard' : standardFdCount ≤ newFd := le_trans (le_max_right _ _) hle
  refine ⟨newFd, by simp only [allocateFdFrom, hfound], hstandard', ?_, ?_⟩
  · by_contra hgt
    exact hbelow k hstart (not_le.mp hgt) hfree
  · rw [binding_of_explicit hstandard', hfree']

end Opening

/-! ### Calls -/

/-- A call, with what is answered when an object is opened again. -/
inductive Action (ω : Type) where
  | openHandle (validation : Except Error Unit) (object : ω) (rights : ℕ)
  | openDescriptor (validation : Except Error Unit) (object : ω) (rights : ℕ)
  | duplicateFd (reopens : ω → ℕ → Except Error Unit) (fd : FileDescriptor)
  | duplicateFdTo (reopens : ω → ℕ → Except Error Unit) (fd newfd : FileDescriptor)
  | duplicateFdFrom (reopens : ω → ℕ → Except Error Unit) (fd minFd : FileDescriptor)
  | closeFd (fd : FileDescriptor)
  | setFdFlags (fd : FileDescriptor) (set clear : UInt8)
  | bindStandardHandle (fd : FileDescriptor) (handle : Handle)
  | installStandardHandleEntry (reopens : ω → ℕ → Except Error Unit) (fd : FileDescriptor)
      (entry : HandleEntry ω)
  | redirect (source target : FileDescriptor)

section Calls

variable {ω α : Type}

/-- The descriptor that a call answers is a new one. -/
def allocated (r : Answer ω FileDescriptor) : Answer ω (Option FileDescriptor) :=
  (r.1.map some, r.2)

/-- A call answers no new descriptor. -/
def nothing (r : Answer ω α) : Answer ω (Option FileDescriptor) := (r.1.map fun _ => none, r.2)

/-- **A call**, with the descriptor it gives out. -/
def perform (p : Process ω) : Action ω → Answer ω (Option FileDescriptor)
  | .openHandle validation object rights =>
    nothing (p.openValidatedObject validation fun p => p.openHandle object rights)
  | .openDescriptor validation object rights =>
    allocated (p.openValidatedObject validation fun p => p.openDescriptor object rights)
  | .duplicateFd reopens fd => allocated (p.duplicateFd reopens fd)
  | .duplicateFdTo reopens fd newfd => nothing (p.duplicateFdTo reopens fd newfd)
  | .duplicateFdFrom reopens fd minFd => allocated (p.duplicateFdFrom reopens fd minFd)
  | .closeFd fd => nothing (p.closeFd fd)
  | .setFdFlags fd set clear => nothing (p.setFdFlags fd set clear)
  | .bindStandardHandle fd handle => nothing (p.bindStandardHandle fd handle)
  | .installStandardHandleEntry reopens fd entry =>
    nothing (p.installStandardHandleEntry reopens fd entry)
  | .redirect source target => nothing (p.redirect source target)

/-- The descriptor that the caller names for a change. -/
def Action.target : Action ω → Option FileDescriptor
  | .duplicateFdTo _ _ newfd => some newfd
  | .closeFd fd => some fd
  | .setFdFlags fd _ _ => some fd
  | .bindStandardHandle fd _ => some fd
  | .installStandardHandleEntry _ fd _ => some fd
  | .redirect _ target => some target
  | _ => none

/-- **The handles that the caller has as they are**, after a call: one that was opened, and not one
that was given to a slot. -/
def rawAfter (raw : Handle → Prop) (p : Process ω) : Action ω → Handle → Prop
  | .openHandle validation object rights =>
    match (p.openValidatedObject validation fun p => p.openHandle object rights).1 with
    | .ok handle => fun x => x = handle ∨ raw x
    | .error _ => raw
  | .bindStandardHandle fd handle =>
    match (p.bindStandardHandle fd handle).1 with
    | .ok _ => fun x => raw x ∧ x ≠ handle
    | .error _ => raw
  | _ => raw

/-- **A careful call**: the counters it uses have not come to their end, and a descriptor that the
caller chooses or the search finds is one that the counter has passed. -/
def Careful (p : Process ω) : Action ω → Prop
  | .openHandle .. | .installStandardHandleEntry .. => p.nextHandle + 1 < 2 ^ 64
  | .openDescriptor .. | .duplicateFd .. => p.nextHandle + 1 < 2 ^ 64 ∧ p.nextFd + 1 < 2 ^ 64
  | .duplicateFdTo _ _ newfd =>
    p.nextHandle + 1 < 2 ^ 64 ∧ standardFdCount ≤ newfd ∧ newfd < p.nextFd
  | .duplicateFdFrom _ _ minFd => p.nextHandle + 1 < 2 ^ 64 ∧
    ∃ fd < p.nextFd, minFd ≤ fd ∧ standardFdCount ≤ fd ∧ binding p fd = none
  | _ => True

end Calls

/-! ### What a call does -/

/-- **A call does what it should**: the invariant holds, a descriptor that is given out was bound to
nothing and has no flags, and the others are as before. -/
structure Done {ω : Type} (p : Process ω) (r : Answer ω (Option FileDescriptor))
    (raw' : Handle → Prop) (target : Option FileDescriptor) : Prop where
  inv : Inv r.2 raw'
  fresh : ∀ fd, r.1 = .ok (some fd) →
    binding p fd = none ∧ binding r.2 fd ≠ none ∧ flagsOf r.2 fd = 0
  others : ∀ fd, r.1 ≠ .ok (some fd) → target ≠ some fd →
    binding r.2 fd = binding p fd ∧ flagsOf r.2 fd = flagsOf p fd

section Done

variable {ω α : Type} {p p' : Process ω} {raw raw' : Handle → Prop} {fd : FileDescriptor}
  {target : Option FileDescriptor} {object : ω} {rights : ℕ}

theorem Keeps.done {r : Answer ω α} (h : Keeps p r.2 raw' target) :
    Done p (nothing r) raw' target := by
  refine ⟨h.inv, fun fd hfd => ?_, fun fd _ htgt => h.others fd htgt⟩
  rcases r with ⟨e | a, p'⟩ <;> cases hfd

/-- A call that failed and changed nothing. -/
theorem Inv.done_error {r : Answer ω FileDescriptor} {e : Error} (h : Inv p raw)
    (hr : r = (.error e, p)) : Done p (allocated r) raw target := by
  subst hr
  exact ⟨h, fun _ hfd => (nomatch hfd), fun _ _ _ => ⟨rfl, rfl⟩⟩

/-- A new handle is bound to a free descriptor. -/
theorem Inv.keeps_bindNew (h : Inv p raw) (hnew : ¬Live p p.nextHandle)
    (hfd : standardFdCount ≤ fd) (hfr : binding p fd = none) :
    Keeps p ((p.withHandle object rights).withFd fd p.nextHandle) raw (some fd) := by
  refine ⟨h.bindNew hnew hfd hfr, fun k hk => ⟨?_, rfl⟩⟩
  have hbind : binding ((p.withHandle object rights).withFd fd p.nextHandle) =
      update (binding p) fd (some p.nextHandle) := binding_withFd hfd
  rw [hbind, update_of_ne fun heq => hk (congrArg some heq.symm)]

theorem Keeps.trans {p'' : Process ω} (h : Keeps p p' raw target)
    (h' : Keeps p' p'' raw' target) : Keeps p p'' raw' target :=
  ⟨h'.inv, fun fd hfd => ⟨((h'.others fd hfd).1).trans (h.others fd hfd).1,
    ((h'.others fd hfd).2).trans (h.others fd hfd).2⟩⟩

/-- **A call that gives out a free descriptor for a new handle**, whatever it does to the
counter. -/
theorem Inv.done_bindNew (h : Inv p raw) (hnew : ¬Live p p.nextHandle)
    (hfd : standardFdCount ≤ fd) (hfr : binding p fd = none) (n : ℕ) : Done p (allocated (.ok fd,
      { (p.withHandle object rights).withFd fd p.nextHandle with nextFd := n })) raw target := by
  have hkp : Keeps p ((p.withHandle object rights).withFd fd p.nextHandle) raw (some fd) :=
    h.keeps_bindNew hnew hfd hfr
  have hbind : binding ((p.withHandle object rights).withFd fd p.nextHandle) =
      update (binding p) fd (some p.nextHandle) := binding_withFd hfd
  refine ⟨⟨hkp.inv.tracks, hkp.inv.explicit, hkp.inv.flagged⟩, fun k hk => ?_,
    fun k hk _ => hkp.others k fun heq => hk (congrArg _ heq)⟩
  cases Except.ok.inj hk
  refine ⟨hfr, ?_, h.flagsOf_eq_zero hfr⟩
  show binding ((p.withHandle object rights).withFd fd p.nextHandle) fd ≠ none
  rw [hbind, update_self]
  exact some_ne_none _

end Done

section Perform

variable {ω : Type} {p : Process ω} {raw : Handle → Prop}

section

variable (hnew : ¬Live p p.nextHandle)
include hnew

section

variable (h : Inv p raw)
include h

theorem Inv.openHandle_done (validation : Except Error Unit) (object : ω) (rights : ℕ) :
    Done p (perform p (.openHandle validation object rights))
      (rawAfter raw p (.openHandle validation object rights)) none := by
  rcases openHandle_cases p validation object rights with ⟨e, heq⟩ | heq
  · rw [perform, rawAfter, heq]
    exact (h.keeps none).done
  · rw [perform, rawAfter, heq]
    exact Keeps.done ⟨h.withHandle hnew, fun _ _ => ⟨rfl, rfl⟩⟩

theorem Inv.openDescriptor_done
    (hfd : standardFdCount ≤ p.nextFd) (hfr : binding p p.nextFd = none)
    (validation : Except Error Unit) (object : ω) (rights : ℕ) :
    Done p (allocated (p.openValidatedObject validation fun p => p.openDescriptor object rights))
      raw none := by
  rcases openDescriptor_cases p validation object rights with ⟨e, heq⟩ | heq
  · exact h.done_error heq
  rw [heq]
  exact h.done_bindNew hnew hfd hfr _

theorem Inv.duplicateFd_done (hfd : standardFdCount ≤ p.nextFd) (hfr : binding p p.nextFd = none)
    (reopens : ω → ℕ → Except Error Unit) (fd : FileDescriptor) :
    Done p (allocated (p.duplicateFd reopens fd)) raw none := by
  rw [duplicateFd]
  split
  · exact h.done_error rfl
  split
  · exact h.done_error rfl
  · exact h.openDescriptor_done hnew hfd hfr _ _ _

/-- A duplicate on a descriptor that is free. -/
theorem Inv.duplicateOnto_keeps
    {newfd : FileDescriptor} (hfd : standardFdCount ≤ newfd) (hfr : binding p newfd = none)
    (reopens : ω → ℕ → Except Error Unit) (fd : FileDescriptor) :
    Keeps p (p.duplicateOnto reopens fd newfd).2 raw (some newfd) := by
  rw [duplicateOnto]
  split
  · exact h.keeps _
  rename_i entry _
  rw [reopenObjectHandle]
  rcases openHandle_cases p (reopens entry.object entry.rights) entry.object entry.rights with
    ⟨e, heq⟩ | heq <;> rw [heq]
  · exact h.keeps _
  · exact h.keeps_bindNew hnew hfd hfr

theorem Inv.duplicateFdTo_keeps {newfd : FileDescriptor} (hfd : standardFdCount ≤ newfd)
    (reopens : ω → ℕ → Except Error Unit) (fd : FileDescriptor) :
    Keeps p (p.duplicateFdTo reopens fd newfd).2 raw (some newfd) := by
  rw [duplicateFdTo]
  split
  · exact h.keeps _
  rename_i htm
  split
  · rename_i hres
    exact h.duplicateOnto_keeps hnew hfd (resolveFdHandle_eq_error hres) reopens fd
  rename_i handle hres
  split
  · rename_i e p' hclo
    -- the descriptor is bound and the process runs, so it is closed
    rw [Process.closeFd, if_neg htm] at hclo
    simp only [hres] at hclo
    cases hclo
  · rename_i p' hclo
    obtain ⟨hkp, hfr, hnx, hlv⟩ := h.closeFd hclo
    refine hkp.trans (hkp.inv.duplicateOnto_keeps ?_ hfd hfr reopens fd)
    rw [hnx]
    exact fun hx => hnew (hlv _ hx)

theorem Inv.duplicateFdFrom_done {minFd : FileDescriptor}
    (hexis : ∃ fd < 2 ^ 64, minFd ≤ fd ∧ standardFdCount ≤ fd ∧ binding p fd = none)
    (reopens : ω → ℕ → Except Error Unit) (fd : FileDescriptor) :
    Done p (allocated (p.duplicateFdFrom reopens fd minFd)) raw none := by
  rw [duplicateFdFrom]
  split
  · exact h.done_error rfl
  split
  · exact h.done_error rfl
  rename_i entry _
  rw [reopenObjectHandle]
  rcases openHandle_cases p (reopens entry.object entry.rights) entry.object entry.rights with
    ⟨e, heq⟩ | heq <;> rw [heq]
  · exact h.done_error rfl
  obtain ⟨k, hlt, hmin, hstandard, hfree⟩ := hexis
  obtain ⟨newFd, hfound, hstandard', -, hfree'⟩ := allocateFdFrom_of_free
    (p := p.withHandle entry.object entry.rights) hlt hmin hstandard hfree
  simp only [hfound]
  exact h.done_bindNew hnew hstandard' hfree' _

end

end

theorem live_of_handleEntry {handle : Handle} {entry : HandleEntry ω}
    (h : p.handleEntry handle = .ok entry) : Live p handle := by
  rw [handleEntry] at h
  split at h
  · cases h
  rename_i hlk
  rw [Live, hlk]
  exact some_ne_none _

theorem Inv.bindStandardHandle_done (h : Inv p raw) (fd : FileDescriptor) (handle : Handle) :
    Done p (perform p (.bindStandardHandle fd handle))
      (rawAfter raw p (.bindStandardHandle fd handle)) (some fd) := by
  rw [perform, rawAfter, bindStandardHandle]
  split
  · exact (h.keeps _).done
  rename_i hfd
  split
  · exact (h.keeps _).done
  split
  · exact (h.keeps _).done
  rename_i hent
  exact (h.replace (not_not.mp hfd) (live_of_handleEntry hent)).done

theorem Inv.installStandardHandleEntry_keeps (h : Inv p raw) (hnew : ¬Live p p.nextHandle)
    (reopens : ω → ℕ → Except Error Unit) (fd : FileDescriptor) (entry : HandleEntry ω) :
    Keeps p (p.installStandardHandleEntry reopens fd entry).2 raw (some fd) := by
  rw [installStandardHandleEntry]
  split
  · exact h.keeps _
  rename_i hfd
  rw [reopenObjectHandle]
  rcases openHandle_cases p (reopens entry.object entry.rights) entry.object entry.rights with
    ⟨e, heq⟩ | heq <;> rw [heq]
  · exact h.keeps _
  have hop : Inv (p.withHandle entry.object entry.rights) fun x =>
      x = p.nextHandle ∨ raw x := h.withHandle hnew
  have hrepl := hop.replace (not_not.mp hfd) ((live_withHandle p _ _ _).mpr (Or.inl rfl))
  refine ⟨hrepl.inv.congr fun x => ?_, hrepl.others⟩
  constructor
  · refine fun hx => ⟨Or.inr hx, fun heq => hnew ?_⟩
    rw [← heq]
    exact (h.tracks.live_iff x).mpr (Or.inr hx)
  · rintro ⟨rfl | hx, hne⟩
    · exact absurd rfl hne
    · exact hx

theorem Inv.redirect_keeps (h : Inv p raw) (source target : FileDescriptor) :
    Keeps p (p.redirect source target).2 raw (some target) := by
  rw [redirect]
  split
  · exact h.keeps _
  rename_i hfds
  obtain ⟨hsrc, htgt⟩ := not_or.mp hfds
  split
  · exact h.keeps _
  split
  · exact h.keeps _
  rename_i handle hsl
  have hbd : binding p source = some handle := by
    rw [← resolveFdHandle_eq_ok, resolveFdHandle, if_pos (not_not.mp hsrc)]
    exact hsl
  have hlv : Live p handle := (h.tracks.live_iff handle).mpr (Or.inl ⟨source, hbd⟩)
  have hrepl := h.replace (not_not.mp htgt) hlv
  refine ⟨hrepl.inv.congr fun x => ⟨fun hx => ⟨hx, fun heq => ?_⟩, fun hx => hx.1⟩, hrepl.others⟩
  exact h.tracks.apart x hx ⟨source, heq ▸ hbd⟩

theorem Inv.closeFd_keeps (h : Inv p raw) (fd : FileDescriptor) :
    Keeps p (p.closeFd fd).2 raw (some fd) := by
  rcases hclo : p.closeFd fd with ⟨e | _, p'⟩
  · rw [Process.closeFd] at hclo
    split at hclo
    · rw [← (Prod.mk.inj hclo).2]
      exact h.keeps _
    split at hclo
    · rw [← (Prod.mk.inj hclo).2]
      exact h.keeps _
    · cases hclo
  · exact (h.closeFd hclo).1

end Perform

/-! ### The counters -/

/-- **The counters are ahead** of all that is bound and open. -/
structure Counted {ω : Type} (p : Process ω) : Prop where
  nextFd_ge : standardFdCount ≤ p.nextFd
  nextFd_lt : p.nextFd < 2 ^ 64
  fd_lt : ∀ fd, p.fdTable.lookup fd ≠ none → fd < p.nextFd
  handle_lt : ∀ handle, Live p handle → handle < p.nextHandle

section Counted

variable {ω : Type} {p p' : Process ω} {raw : Handle → Prop}

theorem counted_new : Counted (Process.new : Process ω) :=
  ⟨le_refl _, (by decide : 3 < 2 ^ 64), fun _ h => absurd rfl h, fun _ h => absurd rfl h⟩

theorem Counted.not_live (h : Counted p) : ¬Live p p.nextHandle :=
  fun hlive => Nat.lt_irrefl _ (h.handle_lt _ hlive)

theorem Counted.binding_nextFd (h : Counted p) : binding p p.nextFd = none := by
  rw [binding_of_explicit h.nextFd_ge]
  by_contra hbound
  exact Nat.lt_irrefl _ (h.fd_lt _ hbound)

/-- A process with the same counters and no more in its tables. -/
theorem Counted.mono (h : Counted p) (hfd : p'.nextFd = p.nextFd)
    (hhandle : p'.nextHandle = p.nextHandle)
    (htable : ∀ fd, p'.fdTable.lookup fd ≠ none → p.fdTable.lookup fd ≠ none)
    (hlive : ∀ handle, Live p' handle → Live p handle) : Counted p' where
  nextFd_ge := hfd ▸ h.nextFd_ge
  nextFd_lt := hfd ▸ h.nextFd_lt
  fd_lt fd hbound := hfd ▸ h.fd_lt fd (htable fd hbound)
  handle_lt handle hopen := hhandle ▸ h.handle_lt handle (hlive handle hopen)

theorem Counted.withHandle (h : Counted p) (hlt : p.nextHandle + 1 < 2 ^ 64) (object : ω)
    (rights : ℕ) : Counted (p.withHandle object rights) := by
  refine ⟨h.nextFd_ge, h.nextFd_lt, h.fd_lt, fun handle hopen => ?_⟩
  show handle < (p.nextHandle + 1) % 2 ^ 64
  rw [Nat.mod_eq_of_lt hlt]
  rcases (live_withHandle p object rights handle).mp hopen with rfl | hopen
  · exact Nat.lt_succ_self _
  · exact (h.handle_lt handle hopen).trans (Nat.lt_succ_self _)

theorem lookup_withFd {fd k : FileDescriptor} {handle : Handle}
    (h : (p.withFd fd handle).fdTable.lookup k ≠ none) : k = fd ∨ p.fdTable.lookup k ≠ none := by
  by_cases hk : k = fd
  · exact .inl hk
  · exact .inr ((AList.lookup_insert_ne hk).symm.trans_ne h)

theorem Counted.withFd (h : Counted p) {fd : FileDescriptor} (hfd : fd < p.nextFd)
    (handle : Handle) : Counted (p.withFd fd handle) := by
  refine ⟨h.nextFd_ge, h.nextFd_lt, fun k hk => ?_, h.handle_lt⟩
  rcases lookup_withFd hk with rfl | hk
  · exact hfd
  · exact h.fd_lt k hk

theorem Counted.opened (h : Counted p) (hhandle : p.nextHandle + 1 < 2 ^ 64)
    (hfd : p.nextFd + 1 < 2 ^ 64) (object : ω) (rights : ℕ) : Counted (opened p object rights) := by
  have hnext : (Handles.opened p object rights).nextFd = p.nextFd + 1 := Nat.mod_eq_of_lt hfd
  refine ⟨?_, ?_, fun k hk => ?_, (h.withHandle hhandle object rights).handle_lt⟩
  · rw [hnext]
    exact Nat.le_succ_of_le h.nextFd_ge
  · rwa [hnext]
  · rw [hnext]
    rcases lookup_withFd hk with rfl | hk
    · exact Nat.lt_succ_self _
    · exact Nat.lt_succ_of_lt (h.fd_lt k hk)

theorem Counted.release (h : Counted p) (handle : Handle) :
    Counted (p.releaseHandleIfUnreferenced handle) := by
  rw [releaseHandleIfUnreferenced]
  split
  · exact h
  refine h.mono rfl rfl (fun _ => id) fun x hx => ?_
  by_cases heq : x = handle
  · exact absurd (heq ▸ AList.lookup_erase handle p.handleTable) hx
  · exact (AList.lookup_erase_ne heq).symm.trans_ne hx

theorem Counted.withoutFd (h : Counted p) (fd : FileDescriptor) : Counted (p.withoutFd fd) := by
  rw [Process.withoutFd]
  split
  · exact h.mono rfl rfl (fun _ => id) fun _ => id
  refine h.mono rfl rfl (fun k hk => ?_) fun _ => id
  by_cases heq : k = fd
  · exact absurd (heq ▸ AList.lookup_erase fd p.fdTable) hk
  · exact (AList.lookup_erase_ne heq).symm.trans_ne hk

theorem Counted.closeFd (h : Counted p) (fd : FileDescriptor) : Counted (p.closeFd fd).2 := by
  rw [Process.closeFd]
  split
  · exact h
  split
  · exact h
  · have hclosed : Counted { p.withoutFd fd with fdFlags := p.fdFlags.erase fd } :=
      (h.withoutFd fd).mono rfl rfl (fun _ => id) fun _ => id
    exact hclosed.release _

theorem Counted.replace (h : Counted p) (fd : FileDescriptor) (handle : Handle) :
    Counted (p.replaceStandardHandleBinding fd handle) := by
  have hslot : Counted (p.withSlot fd (some handle)) :=
    h.mono rfl rfl (fun _ => id) fun _ => id
  rw [replaceStandardHandleBinding]
  split
  · exact hslot
  · exact hslot.release _

/-- Opening an object again leaves the process as it was, or with the next handle. -/
theorem reopen_cases (reopens : ω → ℕ → Except Error Unit) (p : Process ω) (entry : HandleEntry ω) :
    (∃ e, p.reopenObjectHandle reopens entry = (.error e, p)) ∨
      p.reopenObjectHandle reopens entry =
        (.ok p.nextHandle, p.withHandle entry.object entry.rights) :=
  openHandle_cases p (reopens entry.object entry.rights) entry.object entry.rights

theorem Counted.openDescriptor (h : Counted p) (hhandle : p.nextHandle + 1 < 2 ^ 64)
    (hfd : p.nextFd + 1 < 2 ^ 64) (validation : Except Error Unit) (object : ω) (rights : ℕ) :
    Counted (p.openValidatedObject validation fun p => p.openDescriptor object rights).2 := by
  rcases openDescriptor_cases p validation object rights with ⟨e, heq⟩ | heq
  · rw [heq]
    exact h
  · rw [heq]
    exact h.opened hhandle hfd object rights

theorem Counted.duplicateOnto (h : Counted p) (hhandle : p.nextHandle + 1 < 2 ^ 64)
    {newfd : FileDescriptor} (hfd : newfd < p.nextFd) (reopens : ω → ℕ → Except Error Unit)
    (fd : FileDescriptor) : Counted (p.duplicateOnto reopens fd newfd).2 := by
  rw [Process.duplicateOnto]
  split
  · exact h
  rename_i entry _
  rcases reopen_cases reopens p entry with ⟨e, heq⟩ | heq <;> rw [heq]
  · exact h
  · exact (h.withHandle hhandle _ _).withFd hfd _

theorem closeFd_counters (p : Process ω) (fd : FileDescriptor) :
    (p.closeFd fd).2.nextFd = p.nextFd ∧ (p.closeFd fd).2.nextHandle = p.nextHandle := by
  rw [Process.closeFd]
  split
  · exact ⟨rfl, rfl⟩
  split
  · exact ⟨rfl, rfl⟩
  · simp only [releaseHandleIfUnreferenced, Process.withoutFd]
    split_ifs <;> exact ⟨rfl, rfl⟩

theorem Counted.duplicateFdTo (h : Counted p) (hhandle : p.nextHandle + 1 < 2 ^ 64)
    {newfd : FileDescriptor} (hfd : newfd < p.nextFd) (reopens : ω → ℕ → Except Error Unit)
    (fd : FileDescriptor) : Counted (p.duplicateFdTo reopens fd newfd).2 := by
  rw [Process.duplicateFdTo]
  split
  · exact h
  split
  · exact h.duplicateOnto hhandle hfd reopens fd
  have hclosed := h.closeFd newfd
  obtain ⟨hnextFd, hnextHandle⟩ := closeFd_counters p newfd
  split
  · rename_i e q heq
    rwa [heq] at hclosed
  · rename_i q heq
    rw [heq] at hclosed hnextFd hnextHandle
    exact hclosed.duplicateOnto (hnextHandle ▸ hhandle) (hnextFd ▸ hfd) reopens fd

theorem Counted.duplicateFdFrom (h : Counted p) (hhandle : p.nextHandle + 1 < 2 ^ 64)
    {minFd hole : FileDescriptor} (hlt : hole < p.nextFd) (hmin : minFd ≤ hole)
    (hstandard : standardFdCount ≤ hole) (hfree : binding p hole = none)
    (reopens : ω → ℕ → Except Error Unit) (fd : FileDescriptor) :
    Counted (p.duplicateFdFrom reopens fd minFd).2 := by
  rw [Process.duplicateFdFrom]
  split
  · exact h
  split
  · exact h
  rename_i entry _
  rcases reopen_cases reopens p entry with ⟨e, heq⟩ | heq <;> rw [heq]
  · exact h
  obtain ⟨newFd, hfound, -, hle, -⟩ := allocateFdFrom_of_free
    (p := p.withHandle entry.object entry.rights) (hlt.trans h.nextFd_lt) hmin hstandard hfree
  simp only [hfound]
  exact (h.withHandle hhandle _ _).withFd (hle.trans_lt hlt) _

/-- **A careful call keeps the counters ahead.** -/
theorem Counted.perform (h : Counted p) (action : Action ω) (hcareful : Careful p action) :
    Counted (perform p action).2 := by
  cases action with
  | openHandle validation object rights =>
    rw [Handles.perform]
    rcases openHandle_cases p validation object rights with ⟨e, heq⟩ | heq <;> rw [heq]
    · exact h
    · exact h.withHandle hcareful object rights
  | openDescriptor validation object rights =>
    exact h.openDescriptor hcareful.1 hcareful.2 validation object rights
  | duplicateFd reopens fd =>
    show Counted (p.duplicateFd reopens fd).2
    rw [Process.duplicateFd]
    split
    · exact h
    split
    · exact h
    · exact h.openDescriptor hcareful.1 hcareful.2 _ _ _
  | duplicateFdTo reopens fd newfd =>
    exact h.duplicateFdTo hcareful.1 hcareful.2.2 reopens fd
  | duplicateFdFrom reopens fd minFd =>
    obtain ⟨hhandle, hole, hlt, hmin, hstandard, hfree⟩ := hcareful
    exact h.duplicateFdFrom hhandle hlt hmin hstandard hfree reopens fd
  | closeFd fd => exact h.closeFd fd
  | setFdFlags fd set clear =>
    show Counted (p.setFdFlags fd set clear).2
    rw [Process.setFdFlags]
    split
    · exact h
    split
    · exact h
    · exact h.mono rfl rfl (fun _ => id) fun _ => id
  | bindStandardHandle fd handle =>
    show Counted (p.bindStandardHandle fd handle).2
    rw [Process.bindStandardHandle]
    split
    · exact h
    split
    · exact h
    split
    · exact h
    · exact h.replace fd handle
  | installStandardHandleEntry reopens fd entry =>
    show Counted (p.installStandardHandleEntry reopens fd entry).2
    rw [Process.installStandardHandleEntry]
    split
    · exact h
    rcases reopen_cases reopens p entry with ⟨e, heq⟩ | heq <;> rw [heq]
    · exact h
    · exact (h.withHandle hcareful _ _).replace fd _
  | redirect source target =>
    show Counted (p.redirect source target).2
    rw [Process.redirect]
    split
    · exact h
    split
    · exact h
    split
    · exact h
    · exact h.replace target _

/-- **A careful call does what it should.** -/
theorem Inv.perform_done (h : Inv p raw) (hcount : Counted p) (action : Action ω)
    (hcareful : Careful p action) :
    Done p (perform p action) (rawAfter raw p action) action.target := by
  have hnew := hcount.not_live
  have hfree := hcount.binding_nextFd
  cases action with
  | openHandle validation object rights =>
    exact h.openHandle_done hnew validation object rights
  | openDescriptor validation object rights =>
    exact h.openDescriptor_done hnew hcount.nextFd_ge hfree validation object rights
  | duplicateFd reopens fd => exact h.duplicateFd_done hnew hcount.nextFd_ge hfree reopens fd
  | duplicateFdTo reopens fd newfd =>
    exact (h.duplicateFdTo_keeps hnew hcareful.2.1 reopens fd).done
  | duplicateFdFrom reopens fd minFd =>
    obtain ⟨-, hole, hlt, hhole⟩ := hcareful
    exact h.duplicateFdFrom_done hnew ⟨hole, hlt.trans hcount.nextFd_lt, hhole⟩ reopens fd
  | closeFd fd => exact (h.closeFd_keeps fd).done
  | setFdFlags fd set clear => exact (h.setFdFlags set clear).done
  | bindStandardHandle fd handle => exact h.bindStandardHandle_done fd handle
  | installStandardHandleEntry reopens fd entry =>
    exact (h.installStandardHandleEntry_keeps hnew reopens fd entry).done
  | redirect source target => exact (h.redirect_keeps source target).done

end Counted

/-! ### Runs -/

/-- **A run of careful calls** on a process, with the handles that the caller has as they are. -/
inductive Run {ω : Type} : Process ω → (Handle → Prop) → Prop
  | new : Run Process.new fun _ => False
  | step {p : Process ω} {raw : Handle → Prop} (h : Run p raw) (action : Action ω)
      (hcareful : Careful p action) : Run (perform p action).2 (rawAfter raw p action)

theorem Run.inv {ω : Type} {p : Process ω} {raw : Handle → Prop} (h : Run p raw) :
    Inv p raw ∧ Counted p := by
  induction h with
  | new => exact ⟨inv_new, counted_new⟩
  | step _ action hcareful ih =>
    exact ⟨(ih.1.perform_done ih.2 action hcareful).inv, ih.2.perform action hcareful⟩

/-- **Descriptors are fresh.** After every run of careful calls, a careful call that gives out a
descriptor gives out one that was bound to nothing, and it has no flags; every other descriptor but
the one that the caller names keeps its handle and its flags; and the open handles are those that
some descriptor or slot is bound to and those that the caller has as they are. -/
theorem descriptor_fresh {ω : Type} {p : Process ω} {raw : Handle → Prop} (h : Run p raw)
    (action : Action ω) (hcareful : Careful p action) :
    (∀ fd, (perform p action).1 = .ok (some fd) → binding p fd = none ∧
      binding (perform p action).2 fd ≠ none ∧ flagsOf (perform p action).2 fd = 0) ∧
    (∀ fd, (perform p action).1 ≠ .ok (some fd) → action.target ≠ some fd →
      binding (perform p action).2 fd = binding p fd ∧
        flagsOf (perform p action).2 fd = flagsOf p fd) ∧
    ∀ handle, Live (perform p action).2 handle ↔
      Referenced (binding (perform p action).2) handle ∨ rawAfter raw p action handle := by
  obtain ⟨hinv, hfresh, hothers⟩ := h.inv.1.perform_done h.inv.2 action hcareful
  exact ⟨hfresh, hothers, hinv.tracks.live_iff⟩

/-- A call that opens a descriptor. -/
def openOne : Action Unit := .openDescriptor (.ok ()) () 0

/-- Two descriptors are opened and the first is closed; a duplicate of the second is given the
first, which was free. -/
theorem descriptor_fresh_second : ∃ p : Process Unit, binding p 4 ≠ none ∧
      (perform p (.duplicateFdFrom (fun _ _ => .ok ()) 4 0)).1 = .ok (some 3) ∧
      binding p 3 = none ∧
      binding (perform p (.duplicateFdFrom (fun _ _ => .ok ()) 4 0)).2 3 ≠ none ∧
      flagsOf (perform p (.duplicateFdFrom (fun _ _ => .ok ()) 4 0)).2 3 = 0 := by
  have hrun := Run.step (Run.step (Run.step Run.new openOne ⟨by decide, by decide⟩) openOne
    ⟨by decide, by decide⟩) (.closeFd 3) trivial
  refine ⟨_, ?_, rfl, (descriptor_fresh hrun (.duplicateFdFrom (fun _ _ => .ok ()) 4 0) ?_).1 3 rfl⟩
  · exact Option.some_ne_none 5
  · exact ⟨by decide, 3, by decide, by decide, by decide, rfl⟩

/-- The process after some calls. -/
def afterCalls (actions : List (Action Unit)) : Process Unit :=
  actions.foldl (fun p action => (perform p action).2) Process.new

/-- A duplicate that is given the lowest free descriptor, with a flag. -/
def duplicated : Process Unit :=
  afterCalls [openOne, .duplicateFdFrom (fun _ _ => .ok ()) 3 0, .setFdFlags 4 1 0]

/-- Two duplicates on a standard slot. -/
def hidden : Process Unit :=
  afterCalls [openOne, .duplicateFdTo (fun _ _ => .ok ()) 3 1,
    .duplicateFdTo (fun _ _ => .ok ()) 3 1]

/-- **A descriptor that is not fresh.** A duplicate of descriptor 3 is given the lowest free one, 4,
and a flag; the next descriptor of the counter is 4 again. It has the flag, and the handle of the
duplicate stays open without a name. And the second of two duplicates on the standard slot 1 does
not find the first one, whose handle stays open, while nothing is bound to 1. -/
theorem openDescriptor_not_fresh :
    ((perform duplicated openOne).1 = .ok (some 4) ∧ binding duplicated 4 = some 5 ∧
      flagsOf (perform duplicated openOne).2 4 = 1 ∧ Live (perform duplicated openOne).2 5 ∧
      (perform duplicated openOne).2.handleIsReferenced 5 = false) ∧
    binding hidden 1 = none ∧ Live hidden 5 ∧ hidden.handleIsReferenced 5 = false := by
  refine ⟨⟨rfl, rfl, rfl, ?_, rfl⟩, rfl, ?_, rfl⟩
  · exact nofun
  · exact nofun

end Protofire.Handles
