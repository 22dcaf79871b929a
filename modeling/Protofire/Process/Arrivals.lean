import Protofire.Process.Exits

/-!
# New threads, and threads that change their CPU

A thread comes into the machine with a number that its process has not used, so that nothing is
known of it before (`Admits`). It is ready and in no place until it is queued or held back. A
process that was held back at its start is resumed by queueing the thread in its slot. An idle CPU
steals from the queues of another one: what it takes is in no place until it is queued again.
-/

namespace Protofire.Scheduling

open Function List Machine

/-! ### New threads -/

/-- **A thread of a process has come.** If it has ended already, the process does not list it. -/
structure Admits (m m' : Machine) (k : ThreadKey) (process : Process) (v : View) : Prop where
  cpuCount : m'.cpuCount = m.cpuCount
  contextSwitch : m'.contextSwitch = m.contextSwitch
  nextPid : m'.nextPid = m.nextPid
  cpus : m'.cpus = m.cpus
  before : m.processes k.pid = some process
  number : k.tid = process.nextTid
  view : m'.view k = some v
  others : ∀ k' ≠ k, m'.view k' = m.view k'
  process : m'.processes k.pid = some { process with
    nextTid := process.nextTid + 1
    threads := if v.state = .terminated then process.threads else process.threads ++ [k.tid] }
  processes : ∀ pid ≠ k.pid, m'.processes pid = m.processes pid
  signaled : ∀ pid, (m'.events (.process pid)).signaled = (m.events (.process pid)).signaled
  heard : m.Heard → m'.Heard

section Admit

variable {m m' : Machine} {k k' : ThreadKey} {process : Process} {v : View} {c : ℕ}

section Admission

variable (h : Admits m m' k process v)

include h

theorem Admits.absent (hbo : m.Book) : m.view k = none := by
  cases hv : m.view k with
  | none => rfl
  | some v =>
    obtain ⟨process', hp, hlt⟩ := hbo.owned k v hv
    cases h.before.symm.trans hp
    rw [h.number] at hlt
    exact absurd hlt (lt_irrefl _)

theorem Admits.held (k' : ThreadKey) : m'.heldBack k' ↔ m.heldBack k' := by
  rw [heldBack, heldBack]
  by_cases hpid : k'.pid = k.pid
  · rw [hpid, h.process, h.before]
    simp
  · rw [h.processes _ hpid]

theorem Admits.alive (pid : ℕ) : m'.alive pid ↔ m.alive pid := by
  rw [Machine.alive, Machine.alive]
  by_cases hpid : pid = k.pid
  · rw [hpid, h.process, h.before]
    simp
  · rw [h.processes _ hpid]

theorem Admits.placed (hk : k' ≠ k) (hp : m.Placed k') : m'.Placed k' :=
  hp.kept (.of_cpus h.cpus (h.others k' hk)) h.cpuCount (h.held k') fun _ => (h.alive k'.pid).mpr

theorem Admits.noStop (hv : v.stopPending = false) (hsp : m.NoStop) : m'.NoStop := by
  intro k' v' hv'
  by_cases hk : k' = k
  · cases (hk ▸ h.view).symm.trans hv'
    exact hv
  · exact hsp k' v' ((h.others k' hk).symm.trans hv')

theorem Admits.book (hbo : m.Book) : m'.Book := by
  have hli := hbo.listed k.pid process h.before
  have hlv : ∀ k' ≠ k, (m'.live k' ↔ m.live k') := by
    intro k' hk
    rw [live, live, h.others k' hk]
  have hnew : k.tid ∉ process.threads := by
    rw [hli]
    rintro ⟨v', hv', -⟩
    cases (h.absent hbo).symm.trans hv'
  refine ⟨fun pid process' hp' => ?_, fun pid process' hp' tid => ?_, fun k' v' hv' => ?_,
    fun pid process' hp' => ?_⟩
  · by_cases hpid : pid = k.pid
    · cases (hpid ▸ h.process).symm.trans hp'
      have hnd := hbo.nodup _ _ h.before
      split
      · exact hnd
      · exact hnd.append (nodup_singleton _) (by simpa using hnew)
    · exact hbo.nodup pid process' ((h.processes pid hpid).symm.trans hp')
  · by_cases hpid : pid = k.pid
    · subst hpid
      cases h.process.symm.trans hp'
      by_cases htid : tid = k.tid
      · have hse : m'.live ⟨k.pid, tid⟩ ↔ v.state ≠ .terminated := by
          rw [htid, live, h.view]
          simp
        rw [hse]
        split
        · rename_i hst
          exact iff_of_false (htid ▸ hnew) fun hn => hn hst
        · rename_i hst
          exact iff_of_true (by simp [htid]) hst
      · have hne : (⟨k.pid, tid⟩) ≠ k := fun hk => htid (congrArg ThreadKey.tid hk)
        rw [hlv _ hne, ← hli]
        split
        · rfl
        · simp [htid]
    · have hne : (⟨pid, tid⟩) ≠ k := fun hk => hpid (congrArg ThreadKey.pid hk)
      rw [hlv _ hne]
      exact hbo.listed pid process' ((h.processes pid hpid).symm.trans hp') tid
  · by_cases hk : k' = k
    · refine ⟨_, hk ▸ h.process, ?_⟩
      rw [hk, h.number]
      exact Nat.lt_succ_self _
    obtain ⟨process', hp, hlt⟩ := hbo.owned k' v' ((h.others k' hk).symm.trans hv')
    by_cases hpid : k'.pid = k.pid
    · refine ⟨_, hpid ▸ h.process, ?_⟩
      cases h.before.symm.trans (hpid ▸ hp)
      exact Nat.lt_succ_of_lt hlt
    · exact ⟨process', (h.processes _ hpid).trans hp, hlt⟩
  · rw [h.nextPid]
    by_cases hpid : pid = k.pid
    · exact hpid ▸ hbo.numbered k.pid process h.before
    · exact hbo.numbered pid process' ((h.processes pid hpid).symm.trans hp')

end Admission

/-- A new thread is in no place. -/
theorem Admits.loose {p : ThreadPriority} (h : Admits m m' k process ⟨.ready, p, false⟩)
    (hm : m.Sound) (hst : process.state ≠ .terminated) : m'.Loose p k ∧ ∀ c, m'.parked c k = 0 := by
  have hview := h.absent hm.book
  cases hm.placed k with
  | absent view queued parked runs held =>
    have hpk : ∀ c, m'.parked c k = 0 := by
      intro c
      rw [Machine.parked, h.cpus]
      exact parked c
    refine ⟨⟨h.view, fun c' p' => ?_, fun _ => hpk, fun c' hr => runs c' ?_,
      fun hh => held ((h.held k).mp hh), (h.alive k.pid).mpr ⟨process, h.before, hst⟩⟩, hpk⟩
    · rw [Machine.queued, h.cpus]
      exact queued c' p'
    · rwa [Machine.runs, h.cpus] at hr
  | ready p c view | running p c view | waiting p c view | held p view | terminated p b view =>
    cases hview.symm.trans view

/-- What a process that has threads, or is about to, has not seen yet. -/
structure Process.Young (process : Process) (signaled : Bool) : Prop where
  state : process.state ≠ .terminated
  released : process.released = 0
  signaled : signaled = false
  reason : process.terminationReason = none
  reaped : process.terminationReaped = false
  reaps : process.reaps = 0

theorem Process.Open.young {signaled : Bool} (h : process.Open signaled) : process.Young signaled :=
  ⟨h.state, h.released, h.signaled, h.reason, h.reaped, h.reaps⟩

/-- A process with a new thread is open. -/
theorem Admits.lifeAt_self (h : Admits m m' k process v) (hv : v.state ≠ .terminated)
    (hyoung : process.Young (m.events (.process k.pid)).signaled) : m'.LifeAt k.pid := by
  rw [LifeAt, h.process, h.signaled]
  refine .inl ⟨hyoung.state, ?_, hyoung.released, hyoung.signaled, hyoung.reason, hyoung.reaped,
    hyoung.reaps⟩
  rw [if_neg hv]
  simp

theorem Admits.lifeAt_of_ne (h : Admits m m' k process v) {pid : ℕ} (hpid : pid ≠ k.pid)
    (hlf : m.LifeAt pid) : m'.LifeAt pid := hlf.congr (h.processes pid hpid) (h.signaled pid)

/-- The thread itself. -/
def Machine.enter (m : Machine) (k : ThreadKey) (process : Process) (thread : Thread) : Machine :=
  { m with
    threads := update m.threads k (some thread)
    processes := update m.processes k.pid (some { process with
      nextTid := process.nextTid + 1
      threads := if thread.state = .terminated then process.threads else process.threads ++ [k.tid]
        }) }

theorem admits_enter (thread : Thread) (hp : m.processes k.pid = some process)
    (hk : k.tid = process.nextTid) : Admits m (m.enter k process thread) k process thread.view := by
  refine ⟨rfl, rfl, rfl, rfl, hp, hk, ?_, fun k' hne => ?_, update_self ..,
    fun pid hpid => update_of_ne hpid .., fun _ => rfl, id⟩
  · simp [view, enter]
  · simp [view, enter, update_of_ne hne]

theorem newThread_alive {p : ThreadPriority} {policy : ThreadSchedPolicy} {pid : ℕ}
    (hp : m.processes pid = some process) (hst : process.state ≠ .terminated) :
    m.newThread c pid p policy = some (⟨pid, process.nextTid⟩,
      m.enter ⟨pid, process.nextTid⟩ process { priority := p, schedPolicy := policy }) := by
  rw [newThread, hp]
  dsimp only
  rw [if_neg hst]
  simp [enter, modifyProcess, hp]

end Admit

/-! ### The place of a new thread -/

section Place

variable {m m' : Machine} {k : ThreadKey} {p : ThreadPriority} {c pid : ℕ}

theorem Machine.Loose.calm (h : m.Loose p k) (hk : Kept m m' k) (hca : Calm m m') : m'.Loose p
    k := by
  refine ⟨hk.view.trans h.view, fun c' p' => ?_, fun hone c' => ?_,
    fun c' hr => h.runs c' ((hk.runs c').mp hr), fun hh => h.held ((hca.heldBack k).mp hh),
    (hca.alive k.pid).mpr h.alive⟩
  · rcases hk.queued with hq | ⟨v, hv, hst⟩
    · rw [hq, h.queued]
    cases h.view.symm.trans hv
    cases hst
  · exact Nat.eq_zero_of_le_zero (h.parked (hca.cpuCount ▸ hone) c' ▸ hk.parked_le c')

theorem Touches.settles_of_ne (h : Touches m m' k) (hplaced : ∀ k' ≠ k, m.Placed k')
    (hk : m'.Placed k) : Settles m m' := by
  refine ⟨h.calm, fun k' => ?_⟩
  by_cases hne : k' = k
  · exact hne ▸ hk
  · exact (hplaced k' hne).calm (h.kept k' hne) h.calm

theorem settles_placeReady (hc : c < m.cpuCount) (hplaced : ∀ k' ≠ k, m.Placed k')
    (hloo : m.Loose p k) : Settles m (m.placeReady c k) :=
  (touches_placeReady m c k).settles_of_ne hplaced (placed_placeReady hc hloo)

theorem settles_placeThread (hc : c < m.cpuCount) (hplaced : ∀ k' ≠ k, m.Placed k')
    (hloo : m.Loose p k) (target : ℕ) : Settles m (m.placeThread c target k false) := by
  have hqt : Quiet m (m.modifyThread k fun thread => { thread with cpuAffinity := target }) :=
    quiet_modifyThread fun _ => rfl
  have htgt : (if target < m.cpuCount then target else c) < m.cpuCount := by
    split
    · assumption
    · exact hc
  have hready := settles_placeReady (m := m.modifyThread k fun thread =>
      { thread with cpuAffinity := target })
        htgt
    (fun k' hne => (hplaced k' hne).calm (hqt.kept k') hqt.calm)
    (hloo.calm (hqt.kept k) hqt.calm)
  exact ⟨hqt.calm.trans hready.calm, hready.placed⟩

/-- A step may begin with something that leaves a thread in no place. -/
theorem Lasts.step {m₁ : Machine} (h : Lasts m m₁) (hcpu : m₁.cpuCount = m.cpuCount)
    (hsw : m₁.contextSwitch = m.contextSwitch) (hstep : Step m₁ m') : Step m m' :=
  ⟨hstep.cpuCount.trans hcpu, hstep.contextSwitch.trans hsw, hstep.sound, h.trans hstep.lasts⟩

theorem Settles.step_of_book (h : Settles m m') (hsp : m.NoStop) (hbo : m.Book) : Step m m' :=
  ⟨h.calm.cpuCount, h.calm.contextSwitch, ⟨h.placed, h.calm.noStop hsp, h.calm.book hbo⟩,
    h.calm.lasts⟩

variable {process : Process}

theorem Admits.lasts {m₁ : Machine} {v : View} (h : Admits m m₁ k process v)
    (hv : v.state ≠ .terminated)
    (hyoung : m.LifeAt k.pid → process.Young (m.events (.process k.pid)).signaled) : Lasts m
      m₁ := by
  refine ⟨h.heard, fun pid hl => ?_⟩
  by_cases hpid : pid = k.pid
  · rw [hpid] at hl ⊢
    exact h.lifeAt_self hv (hyoung hl)
  · exact h.lifeAt_of_ne hpid hl

/-- **A process starts one more thread.** -/
theorem step_spawnThread (hm : m.Sound) (hc : c < m.cpuCount) (halv : m.alive pid) (target : ℕ)
    (p : ThreadPriority) (policy : ThreadSchedPolicy) :
    Step m (m.spawnThread c target pid p policy) := by
  obtain ⟨process, hp, hst⟩ := halv
  rw [spawnThread, newThread_alive hp hst]
  have hadm := admits_enter (k := ⟨pid, process.nextTid⟩)
    { priority := p, schedPolicy := policy } hp rfl
  have hloo := (hadm.loose hm hst).1
  have hplace := settles_placeThread (hadm.cpuCount ▸ hc)
    (fun k' hne => hadm.placed hne (hm.placed k')) hloo target
  refine Lasts.step (hadm.lasts nofun fun hl => ?_) rfl rfl
    (hplace.step_of_book (hadm.noStop rfl hm.noStop) (hadm.book hm.book))
  rw [LifeAt, hp] at hl
  exact (hl.resolve_right fun h => hst h.state).young

/-- A new process, before it has a thread. -/
def Machine.found (m : Machine) (process : Process) : Machine :=
  { m with
    nextPid := m.nextPid + 1
    processes := update m.processes m.nextPid (some process) }

theorem Machine.Book.nextPid_absent (h : m.Book) : m.processes m.nextPid = none := by
  cases hp : m.processes m.nextPid with
  | none => rfl
  | some process => exact absurd (h.numbered _ _ hp) (lt_irrefl _)

theorem sound_found (hm : m.Sound) (hthr : process.threads = [])
    (hsusp : process.suspendedThread = none) : (m.found process).Sound := by
  have hno := hm.book.nextPid_absent
  have hp : (m.found process).processes m.nextPid = some process := update_self ..
  have hpne : ∀ pid ≠ m.nextPid, (m.found process).processes pid = m.processes pid :=
    fun pid hne => update_of_ne hne ..
  have hview : ∀ k v, m.view k = some v → k.pid ≠ m.nextPid := by
    intro k v hv hpid
    obtain ⟨process', hp', -⟩ := hm.book.owned k v hv
    rw [hpid, hno] at hp'
    cases hp'
  refine ⟨fun k => (hm.placed k).kept (.of_cpus rfl rfl) rfl ?_ ?_, hm.noStop, ?_, ?_, ?_, ?_⟩
  · rw [heldBack, heldBack]
    by_cases hpid : k.pid = m.nextPid
    · rw [hpid, hp, hno]
      simp [hsusp]
    · rw [hpne _ hpid]
  · rintro ⟨v, hv, -⟩ ⟨process', hp', hs⟩
    exact ⟨process', (hpne _ (hview k v hv)).trans hp', hs⟩
  · intro pid process' hp'
    by_cases hpid : pid = m.nextPid
    · cases (hpid ▸ hp).symm.trans hp'
      rw [hthr]
      exact nodup_nil
    · exact hm.book.nodup pid process' ((hpne pid hpid).symm.trans hp')
  · intro pid process' hp' tid
    by_cases hpid : pid = m.nextPid
    · cases (hpid ▸ hp).symm.trans hp'
      rw [hthr]
      refine iff_of_false not_mem_nil ?_
      rintro ⟨v, hv, -⟩
      exact hview _ v hv hpid
    · exact hm.book.listed pid process' ((hpne pid hpid).symm.trans hp') tid
  · intro k v hv
    obtain ⟨process', hp', hlt⟩ := hm.book.owned k v hv
    exact ⟨process', (hpne _ (hview k v hv)).trans hp', hlt⟩
  · intro pid process' hp'
    by_cases hpid : pid = m.nextPid
    · rw [hpid]
      exact Nat.lt_succ_self _
    · exact Nat.lt_succ_of_lt (hm.book.numbered pid process' ((hpne pid hpid).symm.trans hp'))

variable {pid' : ℕ}

/-- A change of a process that its end does not depend on. -/
theorem lifeAt_modifyProcess {f : Process → Process}
    (hop : ∀ process s, process.Open s → (f process).Open s)
    (hcl : ∀ process s, process.Closed s → (f process).Closed s) (h : m.LifeAt pid') :
    (m.modifyProcess pid f).LifeAt pid' := by
  by_cases hpid : pid' = pid
  · rw [LifeAt] at h ⊢
    rw [hpid] at h ⊢
    rw [processes_modifyProcess]
    cases hp : m.processes pid with
    | none =>
      rw [hp] at h
      exact h
    | some process =>
      rw [hp] at h
      exact h.imp (hop process _) (hcl process _)
  · exact h.congr (processes_modifyProcess_of_ne f hpid) rfl

/-- Hold a thread back, or let it go. -/
def Process.hold (process : Process) (tid : Option ℕ) : Process :=
  { process with suspendedThread := tid }

variable {tid : Option ℕ}

theorem lifeAt_hold (h : m.LifeAt pid') : (m.modifyProcess pid (·.hold tid)).LifeAt pid' := by
  refine lifeAt_modifyProcess (fun process s h => ?_) (fun process s h => ?_) h
  · exact ⟨h.state, h.threads, h.released, h.signaled, h.reason, h.reaped, h.reaps⟩
  · exact ⟨h.state, h.threads, h.released, h.signaled, h.reaps⟩

/-- A process is alive whether or not it holds a thread back. -/
theorem alive_hold : (m.modifyProcess pid (·.hold tid)).alive pid' ↔ m.alive pid' := by
  by_cases hpid : pid' = pid
  · rw [alive, alive, hpid, processes_modifyProcess]
    cases m.processes pid with
    | none => rfl
    | some process => simp [Process.hold]
  · exact alive_modifyProcess_of_ne hpid

/-- Only one thread of a process is concerned when it is held back or let go. -/
theorem heldBack_hold_of_ne {k' : ThreadKey} (hp : m.processes k.pid = some process) (hne : k' ≠ k)
    (hbef : process.suspendedThread ≠ some k.tid → process.suspendedThread = none)
    (htid : ∀ t, tid = some t → t = k.tid) :
    (m.modifyProcess k.pid (·.hold tid)).heldBack k' ↔ m.heldBack k' := by
  rw [heldBack, heldBack]
  by_cases hpid : k'.pid = k.pid
  · have hne' : k'.tid ≠ k.tid := fun ht => hne (by cases k'; simp_all)
    rw [hpid, processes_modifyProcess, hp]
    refine iff_of_false ?_ ?_
    · rintro ⟨process', hp', hs⟩
      cases hp'
      exact hne' (htid _ hs)
    rintro ⟨process', hp', hs⟩
    cases hp'
    by_cases hse : process.suspendedThread = some k.tid
    · exact hne' (Option.some.inj (hs.symm.trans hse))
    · cases (hbef hse).symm.trans hs
  · rw [processes_modifyProcess_of_ne _ hpid]

/-- **A thread that is held back at its start is in its place.** -/
theorem step_hold (hplaced : ∀ k' ≠ k, m.Placed k') (hloo : m.Loose p k)
    (hpk : ∀ c, m.parked c k = 0) (hsp : m.NoStop) (hbo : m.Book)
    (hp : m.processes k.pid = some process) (hsusp : process.suspendedThread = none) :
    Step m (m.modifyProcess k.pid (·.hold (some k.tid))) := by
  refine ⟨rfl, rfl, ⟨fun k' => ?_, hsp, hbo.modifyProcess (fun _ => rfl) fun _ => rfl⟩, id,
    fun _ => lifeAt_hold⟩
  by_cases hne : k' = k
  · rw [hne]
    refine .held p hloo.view hloo.queued hpk hloo.runs ⟨process.hold (some k.tid), ?_, rfl⟩
    rw [processes_modifyProcess, hp]
    rfl
  · exact (hplaced k' hne).kept (.of_cpus rfl rfl) rfl
      (heldBack_hold_of_ne hp hne (fun _ => hsusp) fun _ h => (Option.some.inj h).symm)
      fun _ => alive_hold.mpr

theorem spawn_eq {process : Process} {p : ThreadPriority} {policy : ThreadSchedPolicy} {target : ℕ}
    {b : Bool} (h : process = { state := if b then .new else .ready }) :
    m.spawn c target p policy b = match (m.found process).newThread c m.nextPid p policy with
      | none => m.found process
      | some (k, m) => m.placeThread c target k b := by
  rw [h]
  rfl

/-- **A process starts with one thread**, which is queued or held back. -/
theorem step_spawn (hm : m.Sound) (hc : c < m.cpuCount) (target : ℕ) (p : ThreadPriority)
    (policy : ThreadSchedPolicy) (startSuspended : Bool) :
    Step m (m.spawn c target p policy startSuspended) := by
  let process : Process := { state := if startSuspended then .new else .ready }
  let k : ThreadKey := ⟨m.nextPid, 1⟩
  have hst : process.state ≠ .terminated := by
    cases startSuspended <;> simp [process]
  have hfnd : (m.found process).Sound := sound_found hm rfl rfl
  have hp : (m.found process).processes m.nextPid = some process := update_self ..
  have hadm := admits_enter (k := k) { priority := p, schedPolicy := policy } hp rfl
  obtain ⟨hloo, hpk⟩ := hadm.loose hfnd hst
  have hplaced := fun k' hne => hadm.placed hne (hfnd.placed k')
  have hspawn : m.spawn c target p policy startSuspended =
      ((m.found process).enter k process { priority := p, schedPolicy := policy }).placeThread
        c target k startSuspended := by
    rw [@spawn_eq m c process p policy target _ rfl, newThread_alive hp hst]
  have hlas : Lasts m ((m.found process).enter k process
      { priority := p, schedPolicy := policy }) := by
    refine ⟨id, fun pid hl => ?_⟩
    by_cases hpid : pid = m.nextPid
    · rw [hpid, LifeAt, hm.book.nextPid_absent] at hl
      rw [hpid]
      exact hadm.lifeAt_self (by simp [Thread.view]) ⟨hst, rfl, hl, rfl, rfl, rfl⟩
    · exact hadm.lifeAt_of_ne hpid (hl.congr (update_of_ne hpid ..) rfl)
  have hsp := hadm.noStop rfl hfnd.noStop
  have hbo := hadm.book hfnd.book
  rw [hspawn]
  refine hlas.step rfl rfl ?_
  cases startSuspended with
  | false =>
    have hplace := settles_placeThread (hadm.cpuCount ▸ hc) hplaced hloo target
    exact hplace.step_of_book hsp hbo
  | true =>
    have hqt : Quiet ((m.found process).enter k process { priority := p, schedPolicy := policy })
        (((m.found process).enter k process { priority := p, schedPolicy := policy }).modifyThread k
          fun thread => { thread with cpuAffinity := target }) := quiet_modifyThread fun _ => rfl
    have hhold := step_hold (fun k' hne => (hplaced k' hne).calm (hqt.kept k') hqt.calm)
      (hloo.calm (hqt.kept k) hqt.calm) hpk (hqt.calm.noStop hsp)
      (hqt.calm.book hbo) hadm.process rfl
    exact hqt.calm.lasts.step rfl rfl hhold

/-- **A process that was held back is resumed.** -/
theorem step_resumeSuspendedProcess (hm : m.Sound) (hc : c < m.cpuCount) (pid : ℕ) :
    Step m (m.resumeSuspendedProcess c pid) := by
  rw [resumeSuspendedProcess]
  split
  · exact .refl hm
  rename_i process hp
  split
  · exact .refl hm
  rename_i hst
  have hst : process.state = .new := not_not.mp hst
  have hqt : Quiet m (m.modifyProcess pid fun process => { process with state := .ready }) := by
    refine quiet_modifyProcess fun process' hp' => ?_
    cases hp.symm.trans hp'
    simp [Process.settled, hst]
  have hready := (hqt.settles hm.placed).step hm
  split
  · exact hready
  rename_i tid htid
  have hp₁ : (m.modifyProcess pid fun process => { process with state := .ready }).processes pid =
      some { process with state := .ready } := by
    rw [processes_modifyProcess, hp]
    rfl
  generalize (m.modifyProcess pid fun process => { process with state := .ready }) = m₁
    at hp₁ hready
  have hsm : ∀ k' ≠ (⟨pid, tid⟩), ((m₁.modifyProcess pid (·.hold none)).heldBack k' ↔
      m₁.heldBack k') := fun k' hne =>
    heldBack_hold_of_ne (k := ⟨pid, tid⟩) hp₁ hne (fun h => absurd htid h) (by simp)
  have hplaced : ∀ k' ≠ (⟨pid, tid⟩), (m₁.modifyProcess pid (·.hold none)).Placed k' :=
    fun k' hne => (hready.sound.placed k').kept (.of_cpus rfl rfl) rfl (hsm k' hne)
      fun _ => alive_hold.mpr
  have hloo : ∃ p, (m₁.modifyProcess pid (·.hold none)).Loose p ⟨pid, tid⟩ := by
    have hhe : m₁.heldBack ⟨pid, tid⟩ := ⟨_, hp₁, htid⟩
    cases hready.sound.placed ⟨pid, tid⟩ with
    | held p view queued parked runs _ =>
      refine ⟨p, view, queued, fun _ => parked, runs, ?_, alive_hold.mpr ⟨_, hp₁, by simp⟩⟩
      rintro ⟨process', hp', hs⟩
      rw [processes_modifyProcess, hp₁] at hp'
      cases hp'
      cases hs
    | absent view queued parked runs held | ready p c view online queued parked runs held
    | running p c view online queued parked runs held
    | waiting p c view online queued pos parked runs held | terminated p b view runs held =>
      exact absurd hhe held
  obtain ⟨p, hloo⟩ := hloo
  have hplace := settles_placeReady (cpuOf_lt (k := ⟨pid, tid⟩) (hready.cpuCount ▸ hc)) hplaced hloo
  have hlas : Lasts m₁ (m₁.modifyProcess pid (·.hold none)) := ⟨id, fun _ => lifeAt_hold⟩
  exact hready.trans (hlas.step rfl rfl (hplace.step_of_book hready.sound.noStop
    (hready.sound.book.modifyProcess (fun _ => rfl) fun _ => rfl)))

/-- **A reap succeeds once.** -/
theorem step_reap (hm : m.Sound) (h : m.reap pid = some m') : Step m m' := by
  rw [reap] at h
  split at h
  · rename_i hany
    cases h
    obtain ⟨process, hp, hst⟩ := (Option.any_eq_true _ _).mp hany
    simp only [Bool.and_eq_true, decide_eq_true_eq, Bool.not_eq_true'] at hst
    refine ⟨rfl, rfl, ⟨fun k => ?_, hm.noStop, hm.book.modifyProcess (fun _ => rfl) fun _ => rfl⟩,
      id, fun pid' hl => ?_⟩
    · refine placed_modifyProcess (fun _ => rfl) (hm.placed k) fun _ halv => ?_
      by_cases hpid : k.pid = pid
      · obtain ⟨process', hp', hs⟩ := halv
        cases hp.symm.trans (hpid ▸ hp')
        exact absurd hst.1 hs
      · exact (alive_modifyProcess_of_ne hpid).mpr halv
    by_cases hpid : pid' = pid
    · rw [hpid, LifeAt, hp] at hl
      have hcl := hl.resolve_left fun h => h.state hst.1
      rw [hpid, LifeAt, processes_modifyProcess, hp]
      refine .inr ⟨hcl.state, hcl.threads, hcl.released, hcl.signaled, ?_⟩
      show process.reaps + 1 = 1
      rw [hcl.reaps, hst.2]
      rfl
    · exact hl.congr (processes_modifyProcess_of_ne _ hpid) rfl
  · cases h

end Place

/-! ### Stealing -/

section Steal

variable {m : Machine} {k : ThreadKey} {c victim : ℕ}

/-- What is stolen from a queue was ready; a thread that is ready is stolen or left. -/
theorem stealFrom_spec (m : Machine) (c : ℕ) (queue : List ThreadKey) (n : ℕ)
    (skipped : List ThreadKey) : (∀ k ∈ (m.stealFrom c queue n skipped).1, m.isReady k = true) ∧
      (∀ k, (m.stealFrom c queue n skipped).1.count k + (m.stealFrom c queue n skipped).2.2.count
        k ≤ queue.count k + skipped.count k) ∧ ∀ k, m.isReady k = true →
        (m.stealFrom c queue n skipped).1.count k + (m.stealFrom c queue n skipped).2.2.count k =
          queue.count k + skipped.count k := by
  fun_induction stealFrom m c queue n skipped with
  | case1 queue skipped | case2 n skipped => exact ⟨nofun, by simp, by simp⟩
  | case3 k queue n skipped affinity haff ih =>
    obtain ⟨hready, hle, heq⟩ := ih
    refine ⟨hready, fun k' => ?_, fun k' hk' => ?_⟩
    · have := hle k'
      rw [count_append, count_singleton] at this
      rw [count_cons]
      omega
    · have := heq k' hk'
      rw [count_append, count_singleton] at this
      rw [count_cons]
      omega
  | case4 k queue n skipped affinity haff hready rest ih =>
    obtain ⟨hre, hle, heq⟩ := ih
    refine ⟨fun k' hk' => ?_, fun k' => ?_, fun k' hk' => ?_⟩
    · rcases mem_cons.mp hk' with rfl | hk'
      · exact hready
      · exact hre k' hk'
    · have := hle k'
      simp only [rest, count_cons]
      omega
    · have := heq k' hk'
      simp only [rest, count_cons]
      omega
  | case5 k queue n skipped affinity haff hready ih =>
    obtain ⟨hre, hle, heq⟩ := ih
    refine ⟨hre, fun k' => ?_, fun k' hk' => ?_⟩
    · have := hle k'
      rw [count_cons]
      omega
    have hne : k ≠ k' := by
      rintro rfl
      exact hready hk'
    rw [count_cons, if_neg (by simpa using hne)]
    exact heq k' hk'

/-- A thread is in its place, or it is ready and in none. -/
def Machine.Settled (m : Machine) (k : ThreadKey) : Prop := m.Placed k ∨ ∃ p, m.Loose p k

/-- What the threads are like when some have been stolen from a CPU. -/
structure Steals (m m' : Machine) (victim : ℕ) (stolen : List ThreadKey) : Prop where
  calm : Calm m m'
  nodup : stolen.Nodup
  from_queue : ∀ k ∈ stolen, ∃ p, 0 < m.queued victim p k
  queued_le : ∀ c p k, m'.queued c p k ≤ m.queued c p k
  loose : ∀ k ∈ stolen, ∃ p, m'.Loose p k
  kept : ∀ k ∉ stolen, Kept m m' k

/-- A ready thread in a queue has its only place there. -/
theorem Machine.Settled.ready {p : ThreadPriority} (h : m.Settled k) (hready : m.isReady k = true)
    (hpos : 0 < m.queued c p k) : m.view k = some ⟨.ready, p, false⟩ ∧
      (∀ c' p', m.queued c' p' k = if c' = c ∧ p' = p then 1 else 0) ∧
      (m.cpuCount = 1 → ∀ c', m.parked c' k = 0) ∧ (∀ c', ¬m.runs c' k) ∧ ¬m.heldBack k ∧
      m.alive k.pid := by
  obtain ⟨v, hv, hst⟩ := isReady_iff.mp hready
  rcases h with hp | ⟨q, hloo⟩
  · cases hp with
    | ready q c₀ view online queued parked runs held alive =>
      have hplace : c = c₀ ∧ p = q := by
        by_contra hne
        rw [queued, if_neg hne] at hpos
        exact lt_irrefl 0 hpos
      obtain ⟨rfl, rfl⟩ := hplace
      exact ⟨view, queued, parked, runs, held, alive⟩
    | absent view => exact nomatch hv.symm.trans view
    | running q c₀ view | waiting q c₀ view | terminated q b view =>
      cases hv.symm.trans view; cases hst
    | held q view queued => exact absurd (queued c p) (ne_of_gt hpos)
  · exact absurd (hloo.queued c p) (ne_of_gt hpos)

/-- **Stealing from one queue.** -/
theorem steals_stealFrom (victim : ℕ) (hm : ∀ k, m.Settled k) (c : ℕ) (p : ThreadPriority) (n : ℕ) :
    Steals m (m.modifyCpu victim fun s => s.setQueue p
      (m.stealFrom c ((m.cpus victim).readyQueues p) n []).2.2) victim
      (m.stealFrom c ((m.cpus victim).readyQueues p) n []).1 := by
  obtain ⟨hready, hle, heq⟩ := stealFrom_spec m c ((m.cpus victim).readyQueues p) n []
  generalize m.stealFrom c ((m.cpus victim).readyQueues p) n [] = stolen at hready hle heq ⊢
  have hqd : ∀ k ∈ stolen.1, 0 < m.queued victim p k := by
    intro k hk
    have h₁ := hle k
    have h₂ := count_pos_iff.mpr hk
    rw [count_nil] at h₁
    rw [queued]
    omega
  have hone : ∀ k ∈ stolen.1, stolen.1.count k = 1 ∧ stolen.2.2.count k = 0 := by
    intro k hk
    have hq := ((hm k).ready (hready k hk) (hqd k hk)).2.1 victim p
    have h₁ := heq k (hready k hk)
    have h₂ := count_pos_iff.mpr hk
    rw [count_nil] at h₁
    rw [queued, if_pos ⟨rfl, rfl⟩] at hq
    omega
  refine ⟨calm_modifyCpu .., nodup_iff_count_le_one.mpr fun k => ?_,
    fun k hk => ⟨p, hqd k hk⟩, fun c' p' k => ?_, fun k hk => ⟨p, ?_⟩, fun k hk => ?_⟩
  · by_cases hk : k ∈ stolen.1
    · exact le_of_eq (hone k hk).1
    rw [count_eq_zero.mpr hk]
    exact Nat.zero_le 1
  · rw [queued, queued]
    by_cases hc : c' = victim
    · rw [hc, cpus_modifyCpu]
      by_cases hp : p' = p
      · have := hle k
        rw [count_nil] at this
        rw [hp, readyQueues_setQueue]
        omega
      · rw [readyQueues_setQueue_of_ne _ _ hp]
    · rw [cpus_modifyCpu_of_ne _ hc]
  · obtain ⟨view, queued, parked, runs, held, alive⟩ := (hm k).ready (hready k hk) (hqd k hk)
    have hre : SameCurrent m (m.modifyCpu victim fun s => s.setQueue p stolen.2.2) :=
      sameCurrent_modifyCpu rfl
    refine ⟨view, fun c' p' => ?_, fun hcpu c' => ?_, fun c' hr => runs c' ?_, held, alive⟩
    · have hq := queued c' p'
      rw [Machine.queued] at hq ⊢
      by_cases hc : c' = victim
      · rw [hc, cpus_modifyCpu]
        by_cases hp : p' = p
        · rw [hp, readyQueues_setQueue]
          exact (hone k hk).2
        · rw [readyQueues_setQueue_of_ne _ _ hp, ← hc, hq, if_neg fun h => hp h.2]
      · rw [cpus_modifyCpu_of_ne _ hc, hq, if_neg fun h => hc h.1]
    · have hq := parked hcpu c'
      rw [Machine.parked] at hq ⊢
      by_cases hc : c' = victim
      · rw [hc, cpus_modifyCpu, ← hc]
        exact hq
      · rw [cpus_modifyCpu_of_ne _ hc, hq]
    · rwa [Machine.runs, hre.current] at hr
  · refine kept_modifyReady ?_ rfl rfl
    by_cases hlv : ∃ v, m.view k = some v ∧ v.state = .terminated
    · exact .inr hlv
    refine .inl fun p' => ?_
    by_cases hp : p' = p
    · rw [hp, readyQueues_setQueue]
      have h₁ := hle k
      rw [count_nil] at h₁
      by_cases hr : m.isReady k = true
      · have h₂ := heq k hr
        rw [count_eq_zero.mpr hk] at h₂
        omega
      · have hplaced : m.Placed k := (hm k).resolve_right (by
          rintro ⟨q, h⟩
          exact hr h.isReady)
        have := count_eq_zero_of_placed (c := victim) hplaced (by simpa using hr) hlv p
        omega
    · rw [readyQueues_setQueue_of_ne _ _ hp]

theorem Steals.settled {m' : Machine} {stolen : List ThreadKey} (h : Steals m m' victim stolen)
    (hm : ∀ k, m.Settled k) (k : ThreadKey) : m'.Settled k := by
  by_cases hk : k ∈ stolen
  · exact .inr (h.loose k hk)
  rcases hm k with hp | ⟨p, hloo⟩
  · exact .inl (hp.calm (h.kept k hk) h.calm)
  · exact .inr ⟨p, hloo.calm (h.kept k hk) h.calm⟩

/-- **Stealing from the queues of a CPU.** -/
theorem steals_stealReadyThreads (c victim : ℕ) (ps : List ThreadPriority) (n : ℕ)
    (hm : ∀ k, m.Settled k) : Steals m (m.stealReadyThreads c victim ps n).2 victim
      (m.stealReadyThreads c victim ps n).1 := by
  induction ps generalizing m n with
  | nil =>
    exact ⟨.refl m, nodup_nil, nofun, fun _ _ _ => le_refl _, nofun, fun k _ => .refl m k⟩
  | cons p ps ih =>
    have hrnd := steals_stealFrom victim hm c p n
    rw [stealReadyThreads]
    split
    · exact hrnd
    have hre := ih (m.stealFrom c ((m.cpus victim).readyQueues p) n []).2.1 (hrnd.settled hm)
    -- what the first round took is in no queue for the others
    have hap : ∀ k ∈ (m.stealFrom c ((m.cpus victim).readyQueues p) n []).1,
        k ∉ (stealReadyThreads c victim ps
          (m.stealFrom c ((m.cpus victim).readyQueues p) n []).2.1 (m.modifyCpu victim fun s =>
            s.setQueue p (m.stealFrom c ((m.cpus victim).readyQueues p) n []).2.2)).1 := by
      intro k hk hk'
      obtain ⟨q, hpos⟩ := hre.from_queue k hk'
      obtain ⟨p', hloo⟩ := hrnd.loose k hk
      exact absurd (hloo.queued victim q) (ne_of_gt hpos)
    refine ⟨hrnd.calm.trans hre.calm,
      nodup_append.mpr ⟨hrnd.nodup, hre.nodup, fun a ha b hb hab => ?_⟩,
      fun k hk => ?_, fun c' p' k => le_trans (hre.queued_le c' p' k)
        (hrnd.queued_le c' p' k), fun k hk => ?_, fun k hk => ?_⟩
    · exact hap a ha (hab ▸ hb)
    · rcases mem_append.mp hk with hk | hk
      · exact hrnd.from_queue k hk
      obtain ⟨q, hpos⟩ := hre.from_queue k hk
      exact ⟨q, lt_of_lt_of_le hpos (hrnd.queued_le victim q k)⟩
    · rcases mem_append.mp hk with hk | hk
      · obtain ⟨p', hloo⟩ := hrnd.loose k hk
        exact ⟨p', hloo.calm (hre.kept k (hap k hk)) hre.calm⟩
      · exact hre.loose k hk
    · have hk := not_or.mp fun h => hk (mem_append.mpr h)
      exact (hrnd.kept k hk.1).trans (hre.kept k hk.2)

/-- Threads that are ready and in no place are queued one by one. -/
theorem settles_enqueueAll (hc : c < m.cpuCount) (ks : List ThreadKey) (hks : ks.Nodup)
    (hplaced : ∀ k ∉ ks, m.Placed k) (hloo : ∀ k ∈ ks, ∃ p, m.Loose p k) :
    Settles m (ks.foldl (fun m k => m.enqueueReadyThread c k) m) := by
  induction ks generalizing m with
  | nil => exact ⟨.refl m, fun k => hplaced k not_mem_nil⟩
  | cons k ks ih =>
    have htou := touches_enqueueReadyThread m c k
    obtain ⟨p, hk⟩ := hloo k mem_cons_self
    have hnot := (nodup_cons.mp hks).1
    have hre := ih (htou.calm.cpuCount ▸ hc)
      (nodup_cons.mp hks).2 (fun k' hk' => ?_) (fun k' hk' => ?_)
    · exact ⟨htou.calm.trans hre.calm, hre.placed⟩
    · by_cases hne : k' = k
      · rw [hne]
        exact placed_enqueueReadyThread hc hk
      · exact (hplaced k' (by simp [hne, hk'])).calm (htou.kept k' hne) htou.calm
    · obtain ⟨p', hl⟩ := hloo k' (mem_cons_of_mem _ hk')
      have hne : k' ≠ k := fun h => hnot (h ▸ hk')
      exact ⟨p', hl.calm (htou.kept k' hne) htou.calm⟩

/-- **An idle CPU steals work.** -/
theorem settles_tryStealWork (hplaced : ∀ k, m.Placed k) (hc : c < m.cpuCount) (victim : ℕ) :
    Settles m (m.tryStealWork c victim) := by
  rw [tryStealWork]
  split
  · exact (Quiet.refl m).settles hplaced
  have hstl := steals_stealReadyThreads c victim ThreadPriority.descending
    (max ((m.cpus victim).readyQueueLen / 2) 1) fun k => .inl (hplaced k)
  have hqueue := settles_enqueueAll (hstl.calm.cpuCount ▸ hc) _ hstl.nodup
    (fun k hk => (hplaced k).calm (hstl.kept k hk) hstl.calm) hstl.loose
  exact ⟨hstl.calm.trans hqueue.calm, hqueue.placed⟩

end Steal

end Protofire.Scheduling
