import Protofire.Process.Descriptors

/-!
# Duplicates of a descriptor

What `duplicate_fd_to` and `duplicate_fd_from` (`kernel/process/process/handle_ops.rs`) leave for a
lookup to find.

`duplicate_fd_to` closes the target before it looks at the source, so when the source is not bound,
cannot be opened again or is the target itself, the call fails and the target is gone. And the new
handle is always put in the table, also when the target is a standard slot, which is looked up
somewhere else. `DuplicatesSafely` is what is left of its contract, and it is exact
(`duplicateFd_contract`). `duplicate_fd_from` does what it should.
-/

namespace Protofire.Handles

open AList Bool Function Process

section Resolved

variable {ω : Type} {p q : Process ω} {fd newfd k : FileDescriptor} {handle : Handle}
  {entry : HandleEntry ω}

/-- What a descriptor resolves to. -/
def resolved (p : Process ω) (fd : FileDescriptor) : Option (HandleEntry ω) :=
  (binding p fd).bind p.handleTable.lookup

/-- A lookup fails in one way only. -/
theorem fdEntry_eq (p : Process ω) (fd : FileDescriptor) :
    p.fdEntry fd = (resolved p fd).elim (.error .notFound) .ok := by
  rw [fdEntry, resolved, binding]
  rcases hres : p.resolveFdHandle fd with e | handle
  · -- a slot or the table has nothing: the error is the same
    have he : e = .notFound := by
      rw [resolveFdHandle, standardHandle] at hres
      split at hres
      all_goals
        split at hres
        · exact (Except.error.inj hres).symm
        · cases hres
    rw [he]
    rfl
  · show p.handleEntry handle = (p.handleTable.lookup handle).elim (.error .notFound) .ok
    rw [handleEntry]
    rcases p.handleTable.lookup handle with _ | entry
    · rfl
    · rfl

theorem fdEntry_eq_ok : p.fdEntry fd = .ok entry ↔ resolved p fd = some entry := by
  rw [fdEntry_eq]
  rcases resolved p fd with _ | e
  · simp
  · simp

theorem fdEntry_congr (h : resolved q fd = resolved p fd) : q.fdEntry fd = p.fdEntry fd := by
  rw [fdEntry_eq, fdEntry_eq, h]

theorem resolved_eq_none (h : binding p fd = none) : resolved p fd = none := by
  rw [resolved, h]
  rfl

/-! ### The steps of a duplicate -/

/-- A name counts as a reference. -/
theorem handleIsReferenced_of_binding (h : binding p fd = some handle) :
    p.handleIsReferenced handle = true := by
  simp only [handleIsReferenced, or_eq_true, List.any_eq_true, List.mem_range, beq_iff_eq]
  rw [binding_eq] at h
  split at h
  · rename_i hlt
    exact Or.inl ⟨fd, hlt, h⟩
  · exact Or.inr ⟨⟨fd, handle⟩, mem_lookup_iff.mp h, rfl⟩

/-- To release a handle changes nothing that a descriptor resolves to. -/
theorem resolved_release (p : Process ω) (handle : Handle) (k : FileDescriptor) :
    resolved (p.releaseHandleIfUnreferenced handle) k = resolved p k := by
  rw [releaseHandleIfUnreferenced]
  split
  · rfl
  rename_i href
  show (binding p k).bind (p.handleTable.erase handle).lookup = resolved p k
  rw [resolved]
  rcases hk : binding p k with _ | h
  · rfl
  refine lookup_erase_ne ?_
  rintro rfl
  exact href (handleIsReferenced_of_binding hk)

/-- **To close a descriptor changes nothing that the others resolve to.** -/
theorem closeFd_resolved (hclo : p.closeFd fd = (.ok (), q)) :
    resolved q = update (resolved p) fd none ∧ binding q fd = none ∧
      q.terminated = p.terminated ∧ q.nextHandle = p.nextHandle := by
  rw [closeFd] at hclo
  split at hclo
  · cases hclo
  split at hclo
  · cases hclo
  obtain rfl := (Prod.mk.inj hclo).2
  have hbd : ∀ r : Process ω, ∀ h,
      binding (r.releaseHandleIfUnreferenced h) = binding r := by
    intro r h
    rw [releaseHandleIfUnreferenced]
    split <;> rfl
  have htm : ∀ r : Process ω, ∀ h,
      (r.releaseHandleIfUnreferenced h).terminated = r.terminated ∧
        (r.releaseHandleIfUnreferenced h).nextHandle = r.nextHandle := by
    intro r h
    rw [releaseHandleIfUnreferenced]
    split <;> exact ⟨rfl, rfl⟩
  have hwo : binding ({ p.withoutFd fd with fdFlags := p.fdFlags.erase fd }) =
      update (binding p) fd none := binding_withoutFd
  have htable : (p.withoutFd fd).handleTable = p.handleTable := (live_withoutFd p fd).1
  have hnx : (p.withoutFd fd).nextHandle = p.nextHandle := (live_withoutFd p fd).2.2
  have hfg : (p.withoutFd fd).terminated = p.terminated := by
    rw [withoutFd]
    split <;> rfl
  refine ⟨?_, ?_, ?_, ?_⟩
  · funext k
    rw [resolved_release]
    show (binding ({ p.withoutFd fd with fdFlags := p.fdFlags.erase fd }) k).bind
      (p.withoutFd fd).handleTable.lookup = _
    rw [hwo, htable]
    by_cases hk : k = fd
    · subst hk
      rw [update_self, update_self]
      rfl
    · rw [update_of_ne hk, update_of_ne hk]
      rfl
  · rw [hbd, hwo, update_self]
  · rw [(htm _ _).1]
    exact hfg
  · rw [(htm _ _).2]
    exact hnx

/-- What a descriptor resolves to once there is a new handle. -/
theorem resolved_withHandle (p : Process ω) (entry : HandleEntry ω) (k : FileDescriptor) :
    resolved (p.withHandle entry.object entry.rights) k =
      if binding p k = some p.nextHandle then some entry else resolved p k := by
  show (binding p k).bind (p.handleTable.insert p.nextHandle _).lookup = _
  split
  · rename_i h
    rw [h]
    exact lookup_insert _
  rename_i h
  rw [resolved]
  rcases hk : binding p k with _ | x
  · rfl
  refine lookup_insert_ne ?_
  rintro rfl
  exact h hk

theorem resolved_withFd (hfd : standardFdCount ≤ fd) : resolved (p.withFd fd handle) =
      update (resolved p) fd (p.handleTable.lookup handle) := by
  funext k
  show (binding (p.withFd fd handle) k).bind p.handleTable.lookup = _
  rw [binding_withFd hfd]
  by_cases hk : k = fd
  · subst hk
    rw [update_self, update_self]
    rfl
  · rw [update_of_ne hk, update_of_ne hk]
    rfl

/-- A binding in the table does not show in a slot. -/
theorem resolved_withFd_slot (hfd : fd < standardFdCount) :
    resolved (p.withFd fd handle) fd = resolved p fd := by
  show (binding (p.withFd fd handle) fd).bind p.handleTable.lookup = _
  rw [resolved, binding_eq, binding_eq, if_pos hfd, if_pos hfd]
  rfl

end Resolved

/-! ### The contract -/

section Contract

variable {ω : Type} (reopens : ω → ℕ → Except Error Unit) (p : Process ω)
  (fd newfd minFd : FileDescriptor)

/-- **What `duplicate_fd_to` promises**: after a success both descriptors resolve to what the source
resolved to, and after a failure every descriptor resolves as before. -/
structure DuplicatesTo : Prop where
  ok : ∀ k, (p.duplicateFdTo reopens fd newfd).1 = .ok k → k = newfd ∧ ∃ entry,
    p.fdEntry fd = .ok entry ∧ (p.duplicateFdTo reopens fd newfd).2.fdEntry newfd = .ok entry ∧
      (p.duplicateFdTo reopens fd newfd).2.fdEntry fd = .ok entry
  error : ∀ e, (p.duplicateFdTo reopens fd newfd).1 = .error e →
    ∀ k, (p.duplicateFdTo reopens fd newfd).2.fdEntry k = p.fdEntry k

/-- The source is bound, and its object can be opened again. -/
def CanReopen : Prop :=
  ∃ entry, p.fdEntry fd = .ok entry ∧ reopens entry.object entry.rights = .ok ()

/-- **A safe duplicate**: the process has ended; or the source can be opened again, is not the
target, and the target is not a standard slot; or the target was not bound to begin with. -/
def DuplicatesSafely : Prop :=
  p.terminated = true ∨
    (CanReopen reopens p fd ∧ fd ≠ newfd ∧ standardFdCount ≤ newfd) ∨
    (¬(CanReopen reopens p fd ∧ fd ≠ newfd) ∧ ∀ entry, p.fdEntry newfd ≠ .ok entry)

variable {reopens p fd newfd minFd}

theorem canReopen_congr {q : Process ω} (h : resolved q fd = resolved p fd) :
    CanReopen reopens q fd ↔ CanReopen reopens p fd := by
  rw [CanReopen, CanReopen, fdEntry_congr h]

/-- Nothing is opened when the source cannot be. -/
theorem duplicateOnto_error (h : ¬CanReopen reopens p fd) :
    ∃ e, p.duplicateOnto reopens fd newfd = (.error e, p) := by
  rcases hent : p.fdEntry fd with e | entry
  · exact ⟨e, by simp only [duplicateOnto, hent]⟩
  rcases hreopens : reopens entry.object entry.rights with e | _
  · exact ⟨e, by simp only [duplicateOnto, hent, reopenObjectHandle, openValidatedObject, hreopens]⟩
  · exact absurd ⟨entry, hent, hreopens⟩ h

/-- The source is opened again under the next handle. -/
theorem duplicateOnto_ok {entry : HandleEntry ω} (htm : p.terminated = false)
    (hent : p.fdEntry fd = .ok entry) (hreopens : reopens entry.object entry.rights = .ok ()) :
    p.duplicateOnto reopens fd newfd =
      (.ok newfd, (p.withHandle entry.object entry.rights).withFd newfd p.nextHandle) := by
  simp only [duplicateOnto, hent, reopenObjectHandle, openValidatedObject, hreopens, openHandle,
    htm, false_eq_true, if_false]

/-- **The target is closed first**, if it is bound; then it is bound to nothing, and the others
resolve as before. -/
theorem duplicateFdTo_eq (htm : p.terminated = false) :
    ∃ q : Process ω, p.duplicateFdTo reopens fd newfd = q.duplicateOnto reopens fd newfd ∧
      resolved q = update (resolved p) newfd none ∧ binding q newfd = none ∧
      q.terminated = false := by
  rw [duplicateFdTo, if_neg (by rw [htm]; decide)]
  split
  · rename_i e hres
    have hno := resolveFdHandle_eq_error hres
    exact ⟨p, rfl, (update_eq_self_iff.mpr (resolved_eq_none hno).symm).symm, hno, htm⟩
  rename_i handle hres
  split
  · rename_i e q hclo
    rw [closeFd, if_neg (by rw [htm]; decide)] at hclo
    simp only [hres] at hclo
    cases hclo
  · rename_i q hclo
    obtain ⟨hresd, hbd, hq, -⟩ := closeFd_resolved hclo
    exact ⟨q, rfl, hresd, hbd, hq.trans htm⟩

/-- What can be opened again after the target is closed. -/
theorem canReopen_update {q : Process ω} (hresd : resolved q = update (resolved p) newfd none) :
    CanReopen reopens q fd ↔ CanReopen reopens p fd ∧ fd ≠ newfd := by
  by_cases hne : fd = newfd
  · subst hne
    refine iff_of_false ?_ fun h => h.2 rfl
    rintro ⟨entry, hent, -⟩
    rw [fdEntry_eq_ok, hresd, update_self] at hent
    cases hent
  · have hcon : CanReopen reopens q fd ↔ CanReopen reopens p fd :=
      canReopen_congr (by rw [hresd, update_of_ne hne])
    rw [hcon]
    exact (and_iff_left hne).symm

section Bound

variable {q : Process ω} {entry : HandleEntry ω} (hfr : binding q newfd = none)
  (hent : resolved q fd = some entry)

include hfr in
/-- **The target resolves to the object that was opened** when it is not a slot, and to nothing when
it is. -/
theorem resolved_target :
    resolved ((q.withHandle entry.object entry.rights).withFd newfd q.nextHandle) newfd =
      some entry ↔ standardFdCount ≤ newfd := by
  rcases lt_or_ge newfd standardFdCount with hsl | htable
  · rw [resolved_withFd_slot hsl, resolved_withHandle, hfr, resolved_eq_none hfr]
    exact iff_of_false (by simp) (not_le.mpr hsl)
  · rw [resolved_withFd htable, update_self]
    exact iff_of_true (lookup_insert _) htable

include hfr hent in
/-- The source resolves as before. -/
theorem resolved_source (htable : standardFdCount ≤ newfd) :
    resolved ((q.withHandle entry.object entry.rights).withFd newfd q.nextHandle) fd =
      some entry := by
  have hne : fd ≠ newfd := by
    rintro rfl
    rw [resolved_eq_none hfr] at hent
    cases hent
  rw [resolved_withFd htable, update_of_ne hne, resolved_withHandle]
  split
  · rfl
  · exact hent

end Bound

/-- **The contract of `duplicate_fd_to`** holds exactly for a safe duplicate. -/
theorem duplicatesTo_iff :
    DuplicatesTo reopens p fd newfd ↔ DuplicatesSafely reopens p fd newfd := by
  rcases htm : p.terminated with _ | _
  · obtain ⟨q, heq, hresd, hbd, hq⟩ :=
      @duplicateFdTo_eq ω reopens p fd newfd htm
    have hrg : ¬p.terminated = true := by rw [htm]; decide
    have hcan : CanReopen reopens q fd ↔ CanReopen reopens p fd ∧ fd ≠ newfd :=
      canReopen_update hresd
    by_cases hro : CanReopen reopens q fd
    · obtain ⟨hsrc, hne⟩ := hcan.mp hro
      obtain ⟨entry, hent, hok⟩ := hro
      rw [duplicateOnto_ok hq hent hok] at heq
      have hbef : p.fdEntry fd = .ok entry := by
        rw [← hent]
        exact fdEntry_congr (by rw [hresd, update_of_ne hne])
      rw [fdEntry_eq_ok] at hent
      constructor
      · rintro ⟨hprom, -⟩
        rw [heq] at hprom
        obtain ⟨-, entry', hent', htgt, -⟩ := hprom newfd rfl
        cases hbef.symm.trans hent'
        exact Or.inr (Or.inl ⟨hsrc, hne, (resolved_target hbd).mp (fdEntry_eq_ok.mp htgt)⟩)
      intro hsafe
      have htable : standardFdCount ≤ newfd := by
        rcases hsafe with hend | ⟨-, -, htable⟩ | ⟨hnot, -⟩
        · exact absurd hend hrg
        · exact htable
        · exact absurd ⟨hsrc, hne⟩ hnot
      refine ⟨fun k hk => ?_, fun e he => ?_⟩
      · rw [heq] at hk ⊢
        exact ⟨(Except.ok.inj hk).symm, entry, hbef,
          fdEntry_eq_ok.mpr ((resolved_target hbd).mpr htable),
          fdEntry_eq_ok.mpr (resolved_source hbd hent htable)⟩
      · rw [heq] at he
        cases he
    · obtain ⟨e, herr⟩ := @duplicateOnto_error ω reopens q fd newfd hro
      rw [herr] at heq
      rw [hcan] at hro
      constructor
      · rintro ⟨-, hkt⟩
        refine Or.inr (Or.inr ⟨hro, fun entry hent => ?_⟩)
        -- the target is closed, so it cannot have been bound
        have hsm := hkt e (by rw [heq]) newfd
        rw [heq, hent, fdEntry_eq_ok, hresd, update_self] at hsm
        cases hsm
      intro hsafe
      have hunb : ∀ entry, p.fdEntry newfd ≠ .ok entry := by
        rcases hsafe with hend | ⟨hsrc, hne, -⟩ | ⟨-, hunb⟩
        · exact absurd hend hrg
        · exact absurd ⟨hsrc, hne⟩ hro
        · exact hunb
      refine ⟨fun k hk => ?_, fun _ _ k => ?_⟩
      · rw [heq] at hk
        cases hk
      rw [heq]
      refine fdEntry_congr ?_
      rw [hresd, update_eq_self_iff.mpr]
      rcases hno : resolved p newfd with _ | entry
      · rfl
      · exact absurd (fdEntry_eq_ok.mpr hno) (hunb entry)
  · have heq : p.duplicateFdTo reopens fd newfd = (.error .busy, p) := by
      rw [duplicateFdTo, if_pos htm]
    refine iff_of_true ⟨fun k hk => ?_, fun e _ k => ?_⟩ (Or.inl htm)
    · rw [heq] at hk
      cases hk
    · rw [heq]

/-- **The lowest free descriptor** from `minFd` on that is not a slot, if there is one at all. -/
theorem allocateFdFrom_ok_iff {k : ℕ} : p.allocateFdFrom minFd = .ok k ↔
    k < 2 ^ 64 ∧ IsLeast { j | minFd ≤ j ∧ standardFdCount ≤ j ∧ binding p j = none } k := by
  have hlk : ∀ {j}, standardFdCount ≤ j → binding p j = p.fdTable.lookup j :=
    fun hj => by rw [binding_eq, if_neg (not_lt.mpr hj)]
  have hsea : p.allocateFdFrom minFd = .ok k ↔
      p.lowestFree (2 ^ 64 - max minFd firstExplicitFd) (max minFd firstExplicitFd) = some k := by
    rw [allocateFdFrom]
    rcases p.lowestFree (2 ^ 64 - max minFd firstExplicitFd) (max minFd firstExplicitFd) with _ | j
    · simp
    · simp
  rw [hsea, lowestFree_eq_some_iff]
  have hstart : ∀ {j}, max minFd firstExplicitFd ≤ j ↔ minFd ≤ j ∧ standardFdCount ≤ j :=
    Nat.max_le
  constructor
  · rintro ⟨hle, hlt, hfr, hbel⟩
    obtain ⟨hmin, hstan⟩ := hstart.mp hle
    refine ⟨by omega, ⟨hmin, hstan, (hlk hstan).trans hfr⟩, ?_⟩
    rintro j ⟨hj, hj', hunb⟩
    by_contra hlt
    exact hbel j (hstart.mpr ⟨hj, hj'⟩) (not_le.mp hlt) ((hlk hj').symm.trans hunb)
  · rintro ⟨hlt, ⟨hmin, hstan, hfr⟩, hleast⟩
    have hle := hstart.mpr ⟨hmin, hstan⟩
    refine ⟨hle, by omega, (hlk hstan).symm.trans hfr, fun j hj hjk hunb => ?_⟩
    obtain ⟨hj, hj'⟩ := hstart.mp hj
    exact absurd (hleast ⟨hj, hj', (hlk hj').trans hunb⟩) (not_le.mpr hjk)

theorem duplicateFdFrom_eq {entry : HandleEntry ω} (htm : p.terminated = false)
    (hent : p.fdEntry fd = .ok entry) (hreopens : reopens entry.object entry.rights = .ok ()) :
    p.duplicateFdFrom reopens fd minFd = match p.allocateFdFrom minFd with
      | .error e => (.error e, p.withHandle entry.object entry.rights)
      | .ok k => (.ok k, (p.withHandle entry.object entry.rights).withFd k p.nextHandle) := by
  have hlow : ∀ left start,
      (p.withHandle entry.object entry.rights).lowestFree left start = p.lowestFree left start := by
    intro left
    induction left with
    | zero => exact fun _ => rfl
    | succ left ih => exact fun start => by rw [lowestFree, ih]; rfl
  have halc : (p.withHandle entry.object entry.rights).allocateFdFrom minFd =
      p.allocateFdFrom minFd := by
    rw [allocateFdFrom, allocateFdFrom, hlow]
  rcases hfd : p.allocateFdFrom minFd with e | k <;>
    simp only [duplicateFdFrom, hent, reopenObjectHandle, openValidatedObject, hreopens,
      openHandle, htm, false_eq_true, if_false, halc, hfd]

theorem duplicateFdFrom_error (h : ¬(p.terminated = false ∧ CanReopen reopens p fd)) :
    ∃ e, p.duplicateFdFrom reopens fd minFd = (.error e, p) := by
  rcases htm : p.terminated with _ | _
  · rcases hent : p.fdEntry fd with e | entry
    · exact ⟨e, by simp only [duplicateFdFrom, htm, hent, false_eq_true, if_false]⟩
    rcases hreopens : reopens entry.object entry.rights with e | _
    · exact ⟨e, by simp only [duplicateFdFrom, htm, hent, false_eq_true,
        if_false, reopenObjectHandle, openValidatedObject, hreopens]⟩
    · exact absurd ⟨htm, entry, hent, hreopens⟩ h
  · exact ⟨.busy, by rw [duplicateFdFrom, if_pos htm]⟩

end Contract

/-- **Duplicates of a descriptor.** `duplicate_fd_to` keeps its contract exactly for a safe
duplicate. `duplicate_fd_from` always keeps its own: it succeeds exactly when the process runs, the
source can be opened again and there is a free descriptor from `minFd` on that is not a slot, it
answers the lowest of these, and that resolves to what the source resolves to, before and after. -/
theorem duplicateFd_contract {ω : Type} (reopens : ω → ℕ → Except Error Unit) (p : Process ω)
    (fd newfd minFd : FileDescriptor) :
    (DuplicatesTo reopens p fd newfd ↔ DuplicatesSafely reopens p fd newfd) ∧
    ∀ k : ℕ, ((p.duplicateFdFrom reopens fd minFd).1 = .ok k ↔
        p.terminated = false ∧ CanReopen reopens p fd ∧ k < 2 ^ 64 ∧
          IsLeast { j | minFd ≤ j ∧ standardFdCount ≤ j ∧ binding p j = none } k) ∧
      ((p.duplicateFdFrom reopens fd minFd).1 = .ok k → ∃ entry, p.fdEntry fd = .ok entry ∧
        (p.duplicateFdFrom reopens fd minFd).2.fdEntry k = .ok entry ∧
        (p.duplicateFdFrom reopens fd minFd).2.fdEntry fd = .ok entry) := by
  refine ⟨duplicatesTo_iff, fun k => ?_⟩
  by_cases hro : p.terminated = false ∧ CanReopen reopens p fd
  · obtain ⟨htm, entry, hent, hok⟩ := id hro
    rw [duplicateFdFrom_eq htm hent hok, ← allocateFdFrom_ok_iff]
    rcases halc : p.allocateFdFrom minFd with e | j
    · simp
    obtain ⟨-, ⟨-, htable, hfr⟩, -⟩ := allocateFdFrom_ok_iff.mp halc
    refine ⟨⟨fun h => ⟨hro.1, hro.2, h⟩, fun h => h.2.2⟩, fun h => ⟨entry, hent, ?_, ?_⟩⟩
    · cases h
      exact fdEntry_eq_ok.mpr ((resolved_target hfr).mpr htable)
    · exact fdEntry_eq_ok.mpr (resolved_source hfr (fdEntry_eq_ok.mp hent) htable)
  · obtain ⟨e, heq⟩ := @duplicateFdFrom_error ω reopens p fd minFd hro
    rw [heq]
    exact ⟨iff_of_false (by simp) fun h => hro ⟨h.1, h.2.1⟩, nofun⟩

/-- A process with the descriptors 3 and 4. -/
def withTwo : Process Unit := afterCalls [openOne, openOne]

/-- **Duplicates that break the contract.** Onto the standard slot 1: the call succeeds, and 1
resolves to nothing. Of a descriptor onto itself, and of one that is not bound onto one that is: the
call fails, and the target is gone. -/
theorem duplicateFdTo_loses : ((withTwo.duplicateFdTo (fun _ _ => .ok ()) 3 1).1 = .ok 1 ∧
      (withTwo.duplicateFdTo (fun _ _ => .ok ()) 3 1).2.fdEntry 1 = .error .notFound) ∧
    (withTwo.fdEntry 3 = .ok ⟨(), 0⟩ ∧
      (withTwo.duplicateFdTo (fun _ _ => .ok ()) 3 3).1 = .error .notFound ∧
      (withTwo.duplicateFdTo (fun _ _ => .ok ()) 3 3).2.fdEntry 3 = .error .notFound) ∧
    (withTwo.fdEntry 4 = .ok ⟨(), 0⟩ ∧
      (withTwo.duplicateFdTo (fun _ _ => .ok ()) 7 4).1 = .error .notFound ∧
      (withTwo.duplicateFdTo (fun _ _ => .ok ()) 7 4).2.fdEntry 4 = .error .notFound) :=
  ⟨⟨rfl, rfl⟩, ⟨rfl, rfl, rfl⟩, rfl, rfl, rfl⟩

end Protofire.Handles
