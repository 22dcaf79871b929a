import Protofire.Process.Arrivals

/-!
# The reason of an end

A process ends in one step of the machine, and the step gives the reason: the default action of a
fatal signal, or the end of the last thread. A process that has ended keeps its reason until it is
reaped. `Ascribes` says both of one process and one step. A step that leaves the books alone
ascribes anything, and so does one after which the process is alive; the rest is what the end of a
thread writes.
-/

namespace Protofire.Scheduling

open Function List Machine Option Process

/-- **A process that ends ends for the given reason**, and one that has ended keeps the reason it
has, as long as it is not reaped. -/
structure Ascribes (pid : ℕ) (reason : Option TerminationReason) (m m' : Machine) : Prop where
  lasts : ∀ process, m.processes pid = some process → ∃ process', m'.processes pid = some process' ∧
    (process.state = .terminated → process'.state = .terminated)
  reason : ∀ process', m'.processes pid = some process' → process'.state = .terminated →
    ∃ process, m.processes pid = some process ∧ (process'.terminationReaped = false →
      if process.state = .terminated then
        process.terminationReaped = false ∧ process'.terminationReason = process.terminationReason
      else process'.terminationReason = reason)

section Ascribe

variable {m m' m'' : Machine} {pid : ℕ} {reason : Option TerminationReason}

theorem Ascribes.of_settled
    (h : (m'.processes pid).map settled = (m.processes pid).map settled) :
    Ascribes pid reason m m' := by
  refine ⟨fun process hp => ?_, fun process' hp' hstate' => ?_⟩
  · rw [hp, map_some, map_eq_some_iff] at h
    obtain ⟨process', hp', heq⟩ := h
    exact ⟨process', hp', (settled_state heq).mpr⟩
  rw [hp', map_some, eq_comm, map_eq_some_iff] at h
  obtain ⟨process, hp, heq⟩ := h
  have hstate := (settled_state heq).mpr hstate'
  rw [settled_eq_self hstate, settled_eq_self hstate'] at heq
  refine ⟨process, hp, fun hreaped => ?_⟩
  rw [if_pos hstate, heq]
  exact ⟨hreaped, rfl⟩

theorem Ascribes.of_eq (h : m'.processes pid = m.processes pid) : Ascribes pid reason m m' :=
  .of_settled (by rw [h])

theorem Calm.ascribes (h : Calm m m') : Ascribes pid reason m m' := .of_settled (h.processes pid)

theorem Ascribes.of_alive (h : m'.alive pid)
    (hbefore : ∀ process, m.processes pid = some process → process.state ≠ .terminated) :
    Ascribes pid reason m m' := by
  obtain ⟨process, hp, hstate⟩ := h
  refine ⟨fun process' hp' => ⟨process, hp, fun h => absurd h (hbefore process' hp')⟩,
    fun process' hp' hstate' => ?_⟩
  cases hp.symm.trans hp'
  exact absurd hstate' hstate

theorem Ascribes.trans (h : Ascribes pid reason m m') (h' : Ascribes pid reason m' m'')
    (halive : m'.alive pid → m.alive pid) : Ascribes pid reason m m'' := by
  refine ⟨fun process hp => ?_, fun process'' hp'' hstate'' => ?_⟩
  · obtain ⟨process', hp', hstate'⟩ := h.lasts process hp
    obtain ⟨process'', hp'', hstate''⟩ := h'.lasts process' hp'
    exact ⟨process'', hp'', fun hstate => hstate'' (hstate' hstate)⟩
  obtain ⟨process', hp', hreason'⟩ := h'.reason process'' hp'' hstate''
  by_cases hstate' : process'.state = .terminated
  · obtain ⟨process, hp, hreason⟩ := h.reason process' hp' hstate'
    rw [if_pos hstate'] at hreason'
    refine ⟨process, hp, fun hreaped => ?_⟩
    obtain ⟨hreaped', heq⟩ := hreason' hreaped
    rw [heq]
    exact hreason hreaped'
  · obtain ⟨process, hp, hstate⟩ := halive ⟨process', hp', hstate'⟩
    rw [if_neg hstate'] at hreason'
    refine ⟨process, hp, fun hreaped => ?_⟩
    rw [if_neg hstate]
    exact hreason' hreaped

theorem Ascribes.trans_calm (h : Ascribes pid reason m m') (h' : Calm m' m'') :
    Ascribes pid reason m m'' := by
  refine ⟨fun process hp => ?_, fun process'' hp'' hstate'' => ?_⟩
  · obtain ⟨process', hp', hstate'⟩ := h.lasts process hp
    obtain ⟨process'', hp'', heq⟩ := h'.exists_process' hp'
    exact ⟨process'', hp'', fun hstate => (settled_state heq).mpr (hstate' hstate)⟩
  obtain ⟨process', hp', heq⟩ := h'.exists_process hp''
  have hstate' := (settled_state heq).mp hstate''
  rw [settled_eq_self hstate', settled_eq_self hstate''] at heq
  exact heq ▸ h.reason process' hp' hstate'

theorem Ascribes.trans_eq (h : Ascribes pid reason m m')
    (heq : m''.processes pid = m'.processes pid) : Ascribes pid reason m m'' :=
  ⟨fun process hp => heq ▸ h.lasts process hp, fun process' hp' => h.reason process' (heq ▸ hp')⟩

theorem Calm.trans_ascribes (h : Calm m m') (h' : Ascribes pid reason m' m'') :
    Ascribes pid reason m m'' := h.ascribes.trans h' (h.alive pid).mp

end Ascribe

/-! ### Threads that end -/

section End

variable {m : Machine} {c pid : ℕ} {k : ThreadKey} {reason : Option TerminationReason}

/-- The process of a thread that has not ended is open. -/
theorem Machine.Book.open_of_live (hbook : m.Book) (hlife : m.LifeAt k.pid) (hlive : m.live k) :
    ∃ process, m.processes k.pid = some process ∧ k.tid ∈ process.threads ∧
      process.Open (m.events (.process k.pid)).signaled := by
  obtain ⟨v, hview, -⟩ := id hlive
  obtain ⟨process, hp, -⟩ := hbook.owned k v hview
  have hmem := (hbook.listed _ _ hp k.tid).mpr hlive
  rw [LifeAt, hp] at hlife
  refine ⟨process, hp, hmem, hlife.resolve_right fun hclosed => ?_⟩
  rw [hclosed.threads] at hmem
  cases hmem

theorem Machine.Book.alive_of_live (hbook : m.Book) (hlife : m.LifeAt k.pid)
    (hlive : m.live k) : m.alive k.pid := by
  obtain ⟨process, hp, -, hopen⟩ := hbook.open_of_live hlife hlive
  exact ⟨process, hp, hopen.state⟩

/-- **The last thread ends its process for its own reason.** -/
theorem ascribes_terminateThread (hc : c < m.cpuCount) (hstop : m.NoStop) (hbook : m.Book)
    (hlife : m.LifeAt k.pid) : Ascribes k.pid reason m (m.terminateThread c k reason) := by
  by_cases hlive : m.live k
  · obtain ⟨process, hp, hmem, hopen⟩ := hbook.open_of_live hlife hlive
    obtain ⟨hrem, hgentle⟩ := @terminateThread_spec m c k reason process hc hstop hlive hp
    refine Ascribes.trans_calm ?_ hgentle.calm
    refine ⟨fun process₁ hp₁ => ?_, fun process' hp' hstate' => ?_⟩
    · cases hp.symm.trans hp₁
      exact ⟨_, by rw [hrem.process, hp]; rfl, fun h => absurd h hopen.state⟩
    rw [hrem.process, hp, map_some, Option.some.injEq] at hp'
    subst hp'
    refine ⟨process, hp, fun _ => ?_⟩
    have hends : process.endsWith k.tid = true := by
      by_contra hnot
      rw [state_without, if_neg hnot] at hstate'
      exact hopen.state hstate'
    rw [if_neg hopen.state, without, if_pos hmem, if_pos hends]
    show (if reason.isSome then reason else process.terminationReason) = reason
    rw [hopen.reason]
    cases reason <;> rfl
  · rw [terminateThread_of_not_live hlive]
    exact (Calm.refl m).ascribes

/-- Threads of a process that end with another one have no reason. -/
theorem ascribes_terminateAll (hc : c < m.cpuCount) (hstop : m.NoStop) (hbook : m.Book)
    (hlife : m.LifeAt pid) (ks : List ThreadKey) (hks : ∀ k ∈ ks, k.pid = pid) :
    Ascribes pid none m (m.terminateAll c ks) := by
  induction ks generalizing m with
  | nil => exact (Calm.refl m).ascribes
  | cons k ks ih =>
    have hpid : k.pid = pid := hks k mem_cons_self
    have hends := ends_terminateThread hc hstop hbook k none
    have hfirst : Ascribes k.pid none m (m.terminateThread c k none) :=
      ascribes_terminateThread hc hstop hbook (hpid.symm ▸ hlife)
    rw [hpid] at hfirst
    exact hfirst.trans (ih (hends.cpuCount ▸ hc) (hends.noStop hstop) (hends.book hbook)
      (hends.life hbook pid hlife) fun k' hk' => hks k' (mem_cons_of_mem _ hk')) (hends.alive pid)

section Orderly

variable (hm : m.Sound) (hlife : ∀ pid, m.LifeAt pid)

include hm hlife

/-- **An exit gives the reason**, unless the thread has ended before. -/
theorem ascribes_finishCurrentThread (hc : c < m.cpuCount) (hk : m.runs c k)
    {given : Option TerminationReason} (hgiven : m.live k → given = reason)
    (hnone : ¬m.live k → given = none) :
    Ascribes pid given m (m.finishCurrentThread c reason) := by
  rw [finishCurrentThread, show (m.cpus c).current = some k from hk]
  dsimp only
  rw [terminateSiblingThreads_eq]
  have hcalm : Calm m ((m.modifyCpu c fun s => { s with current := none }).modifyCpu c
      fun s => s.takeOut k.sibling) := (calm_modifyCpu ..).trans (calm_modifyCpu ..)
  have hbook := hcalm.book hm.book
  have hstop := hcalm.noStop hm.noStop
  have hsib := ends_terminateAll (hcalm.cpuCount ▸ hc) hstop hbook
    ((m.modifyCpu c fun s => { s with current := none }).entries c k.sibling)
  have hmine : ∀ k' ∈ (m.modifyCpu c fun s => { s with current := none }).entries c k.sibling,
      k'.pid = k.pid ∧ k' ≠ k := by
    intro k' hk'
    have hsibling := (Scheduling.mem_entries.mp hk').1
    rw [ThreadKey.sibling, decide_eq_true_iff] at hsibling
    exact ⟨hsibling.1, fun h => hsibling.2 (congrArg ThreadKey.tid h)⟩
  have hend := ends_terminateThread (hsib.cpuCount ▸ hcalm.cpuCount ▸ hc) (hsib.noStop hstop)
    (hsib.book hbook) k reason
  refine Ascribes.trans_calm ?_ (calm_modifyCpu ..)
  refine hcalm.trans_ascribes ?_
  by_cases hpid : pid = k.pid
  · rw [hpid]
    have hlife₁ := hcalm.lifeAt (hlife k.pid)
    by_cases hlive : m.live k
    · -- the thread itself is alive until its siblings have ended
      rw [hgiven hlive]
      have hlive₂ := (hsib.live k fun h => (hmine k h).2 rfl).mpr ((hcalm.live k).mpr hlive)
      have hlife₂ := hsib.life hbook k.pid hlife₁
      have halive := (hsib.book hbook).alive_of_live hlife₂ hlive₂
      refine (Ascribes.of_alive halive fun process₁ hp₁ => ?_).trans (ascribes_terminateThread
        (hsib.cpuCount ▸ hcalm.cpuCount ▸ hc) (hsib.noStop hstop) (hsib.book hbook) hlife₂)
        (hsib.alive k.pid)
      obtain ⟨process, hp, hstate⟩ := hsib.alive k.pid halive
      cases hp.symm.trans hp₁
      exact hstate
    · rw [hnone hlive, terminateThread_of_not_live (hsib.not_live (mt (hcalm.live k).mp hlive))]
      exact ascribes_terminateAll (hcalm.cpuCount ▸ hc) hstop hbook hlife₁ _
        fun k' hk' => (hmine k' hk').1
  · refine .of_settled ((hsib.trans hend).books pid fun k' hk' => ?_)
    rcases hk' with hk' | rfl
    · exact (hmine k' hk').1 ▸ Ne.symm hpid
    · exact Ne.symm hpid

theorem ascribes_dispatchNext (hc : c < m.cpuCount) (hidle : (m.cpus c).current = none)
    (prepared : Bool) : Ascribes pid none m (m.dispatchNext c prepared) := by
  rw [dispatchNext, takeNextDispatchableThread]
  have h := takeNext_spec c ThreadPriority.descending m
  generalize m.takeNext c ThreadPriority.descending = found at h
  cases h with
  | none s' drops => exact (calm_modifyCpu ..).ascribes
  | some k s' before p₀ after split ready drops =>
    have hcalm : Calm m (m.modifyCpu c fun _ => s') := calm_modifyCpu ..
    refine hcalm.trans_ascribes ?_
    cases prepared with
    | true =>
      have hidle' : ((m.modifyCpu c fun _ => s').cpus c).current = none := by
        rw [cpus_modifyCpu, drops.current, hidle]
      exact (touches_makeCurrent hidle').calm.ascribes.trans_calm
        (calm_modifyCpu _ c fun s => { s with needResched := false })
    | false =>
      have hbook := hcalm.book hm.book
      have hstop := hcalm.noStop hm.noStop
      by_cases hpid : pid = k.pid
      · rw [hpid]
        exact ascribes_terminateThread (m := m.modifyCpu c fun _ => s') hc hstop hbook
          (hcalm.lifeAt (hlife k.pid))
      · refine .of_settled ((ends_terminateThread (m := m.modifyCpu c fun _ => s') hc hstop hbook k
          none).books pid fun k' hk' => ?_)
        exact hk' ▸ Ne.symm hpid

theorem ascribes_finishOnRequest (hc : c < m.cpuCount) (hk : m.runs c k) :
    Ascribes pid none m (m.finishOnRequest c k) := by
  have hquiet : Quiet m (m.modifyThread k fun thread =>
    { thread with terminatePending := false }) := quiet_modifyThread fun _ => rfl
  have hsound := ((hquiet.settles hm.placed).step hm).sound
  refine hquiet.calm.trans_ascribes (ascribes_finishCurrentThread hsound
    (fun pid => hquiet.calm.lifeAt (hlife pid)) (hquiet.calm.cpuCount ▸ hc)
    (((hquiet.kept k).runs c).mpr hk) (fun hlive => ?_) fun _ => rfl)
  obtain ⟨process, hp, -, hopen⟩ := hm.book.open_of_live (hlife k.pid)
    ((hquiet.calm.live k).mp hlive)
  show none = (m.processes k.pid).bind (·.terminationReason)
  rw [hp, bind_some, hopen.reason]

/-- **What the dispatcher ends has no reason.** -/
theorem ascribes_schedule (hc : c < m.cpuCount)
    (hidle : m.contextSwitch = true → (m.cpus c).current = none) (prepared : Bool) :
    Ascribes pid none m (m.schedule c prepared) := by
  rw [schedule]
  split
  · rename_i hswitch
    rw [scheduleBareMetal, hidle hswitch]
    exact ascribes_dispatchNext hm hlife hc (hidle hswitch) prepared
  rw [scheduleSimulated]
  cases hk : (m.cpus c).current with
  | none =>
    have hset := settles_scheduleSimulated_preempt hm.placed hc
    exact hset.calm.ascribes
  | some k =>
    rw [elim_some]
    split
    · have hstep := step_finishOnRequest hm hc hk
      have hset := settles_scheduleSimulated_preempt hstep.sound.placed (hstep.cpuCount ▸ hc)
      exact (ascribes_finishOnRequest hm hlife hc hk).trans_calm hset.calm
    · exact (settles_scheduleSimulated_preempt hm.placed hc).calm.ascribes

/-- **An exit gives the reason of the thread that exits**, if it has not ended before. -/
theorem ascribes_terminateCurrentThread (hc : c < m.cpuCount)
    (reason : Option TerminationReason) : Ascribes pid
      (if (m.cpus c).current.any fun k => (m.threads k).any (·.state ≠ .terminated) then reason
        else none) m (m.terminateCurrentThread c reason) := by
  rw [terminateCurrentThread]
  cases hk : (m.cpus c).current with
  | none => exact (Calm.refl m).ascribes
  | some k =>
    have hlive : (m.threads k).any (·.state ≠ .terminated) = true ↔ m.live k := by
      rw [Option.any_eq_true, Machine.live, Machine.view]
      cases m.threads k <;> simp [Thread.view]
    obtain ⟨hstep, hidle⟩ := finishCurrentThread_spec hm hc hk reason
    refine (ascribes_finishCurrentThread hm hlife hc hk (fun h => ?_) fun h => ?_).trans_calm
      (settles_afterLeaving hstep.sound.placed (hstep.cpuCount ▸ hc) hidle).calm
    · exact if_pos (hlive.mpr h)
    · exact if_neg (mt hlive.mp h)

end Orderly

end End

/-! ### Threads that come, and reaping -/

section Come

variable {m m' : Machine} {c pid pid' : ℕ} {reason : Option TerminationReason}

theorem processes_placeReady (c : ℕ) (k : ThreadKey) :
    (m.placeReady c k).processes = m.processes := by
  rw [placeReady]
  split
  · rw [enqueueReadyThread]
    split <;> rfl
  · rfl

theorem ascribes_hold (tid : Option ℕ) :
    Ascribes pid' reason m (m.modifyProcess pid (·.hold tid)) := by
  by_cases hpid : pid' = pid
  · rw [hpid]
    refine ⟨fun process hp => ⟨process.hold tid, ?_, id⟩, fun process' hp' hstate' => ?_⟩
    · rw [processes_modifyProcess, hp]
      rfl
    rw [processes_modifyProcess, map_eq_some_iff] at hp'
    obtain ⟨process, hp, rfl⟩ := hp'
    refine ⟨process, hp, fun hreaped => ?_⟩
    rw [if_pos (show process.state = .terminated from hstate')]
    exact ⟨hreaped, rfl⟩
  · exact .of_eq (processes_modifyProcess_of_ne _ hpid)

theorem ascribes_placeThread (c target : ℕ) (k : ThreadKey) (suspended : Bool) :
    Ascribes pid reason m (m.placeThread c target k suspended) := by
  rw [placeThread]
  split
  · have hhold := @ascribes_hold (m.modifyThread k fun thread =>
      { thread with cpuAffinity := target }) k.pid pid reason (some k.tid)
    exact ⟨hhold.lasts, hhold.reason⟩
  · exact .of_eq (congrFun (processes_placeReady ..) pid)

theorem ascribes_spawnThread (halive : m.alive pid) (target : ℕ) (p : ThreadPriority)
    (policy : ThreadSchedPolicy) :
    Ascribes pid' reason m (m.spawnThread c target pid p policy) := by
  obtain ⟨process, hp, hstate⟩ := halive
  rw [spawnThread, newThread_alive hp hstate]
  have hadm := admits_enter (k := ⟨pid, process.nextTid⟩)
    { priority := p, schedPolicy := policy } hp rfl
  by_cases hpid : pid' = pid
  · rw [hpid]
    refine Ascribes.trans (.of_alive ⟨_, hadm.process, hstate⟩ fun process' hp' => ?_)
      (ascribes_placeThread ..) fun _ => ⟨process, hp, hstate⟩
    cases hp.symm.trans hp'
    exact hstate
  · have heq := hadm.processes pid' hpid
    exact Ascribes.trans (.of_eq heq) (ascribes_placeThread ..) fun h => by rwa [alive, ← heq]

theorem ascribes_spawn (hbook : m.Book) (target : ℕ) (p : ThreadPriority)
    (policy : ThreadSchedPolicy) (suspended : Bool) :
    Ascribes pid reason m (m.spawn c target p policy suspended) := by
  obtain ⟨process, hprocess⟩ : ∃ process : Process,
    process = { state := if suspended then .new else .ready } := ⟨_, rfl⟩
  have hp : (m.found process).processes m.nextPid = some process := update_self ..
  have hstate : process.state ≠ .terminated := by
    rw [hprocess]
    cases suspended <;> exact ProcessState.noConfusion
  rw [spawn_eq hprocess, newThread_alive hp hstate]
  have hadm := admits_enter (k := ⟨m.nextPid, process.nextTid⟩)
    { priority := p, schedPolicy := policy } hp rfl
  by_cases hpid : pid = m.nextPid
  · rw [hpid]
    refine .of_alive ?_ fun process' hp' => ?_
    swap
    · cases hbook.nextPid_absent.symm.trans hp'
    show (placeThread _ c target ⟨m.nextPid, process.nextTid⟩ suspended).alive m.nextPid
    rw [placeThread]
    split
    · exact alive_hold.mpr ⟨_, hadm.process, hstate⟩
    · exact ⟨_, (congrFun (processes_placeReady ..) _).trans hadm.process, hstate⟩
  · have heq := (hadm.processes pid hpid).trans (update_of_ne hpid ..)
    exact Ascribes.trans (.of_eq heq) (ascribes_placeThread ..) fun h => by rwa [alive, ← heq]

theorem ascribes_resumeSuspendedProcess (m : Machine) (c pid : ℕ) :
    Ascribes pid' reason m (m.resumeSuspendedProcess c pid) := by
  rw [resumeSuspendedProcess]
  split
  · exact (Calm.refl m).ascribes
  rename_i process hp
  split
  · exact (Calm.refl m).ascribes
  rename_i hstate
  have hready : Calm m (m.modifyProcess pid fun process => { process with state := .ready }) := by
    refine (quiet_modifyProcess fun process' hp' => ?_).calm
    cases hp.symm.trans hp'
    simp [settled, not_not.mp hstate]
  split
  · exact hready.ascribes
  · exact (hready.trans_ascribes (ascribes_hold none)).trans_eq
      (congrFun (processes_placeReady ..) pid')

theorem ascribes_reap (h : m.reap pid = some m') : Ascribes pid' reason m m' := by
  rw [reap] at h
  split at h
  · cases h
    by_cases hpid : pid' = pid
    · rw [hpid]
      refine ⟨fun process hp => ?_, fun process' hp' hstate' => ?_⟩
      · rw [processes_modifyProcess, hp]
        exact ⟨_, rfl, id⟩
      rw [processes_modifyProcess, map_eq_some_iff] at hp'
      obtain ⟨process, hp, rfl⟩ := hp'
      exact ⟨process, hp, Bool.noConfusion⟩
    · exact .of_eq (processes_modifyProcess_of_ne _ hpid)
  · cases h

theorem Kills.ascribes {signal : TerminationReason} (h : Kills m m' pid signal)
    (hsame : ¬m.alive pid → m' = m) : Ascribes pid' (some signal) m m' := by
  by_cases hpid : pid' = pid
  · rw [hpid]
    by_cases halive : m.alive pid
    · obtain ⟨process', hp', hreason⟩ := bind_eq_some_iff.mp (h.reason halive)
      obtain ⟨process, hp, hstate⟩ := halive
      refine ⟨fun process₁ hp₁ => ⟨process', hp', fun h => ?_⟩,
        fun process'' hp'' _ => ⟨process, hp, fun _ => ?_⟩⟩
      · cases hp.symm.trans hp₁
        exact absurd h hstate
      cases hp'.symm.trans hp''
      rw [if_neg hstate]
      exact hreason
    · rw [hsame halive]
      exact (Calm.refl m).ascribes
  · exact .of_settled (h.books pid' hpid)

end Come

end Protofire.Scheduling
