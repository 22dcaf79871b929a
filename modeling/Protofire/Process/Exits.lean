import Protofire.Process.Endings

/-!
# Exits and fatal signals

A thread that ends itself takes along the other threads of its process that its CPU can see, and the
default action of a fatal signal does this on every CPU. In both, the entries of the threads leave
the queues of a CPU first (`takeOut`), and then the threads end. A process that a fatal signal ends
says so before its threads have ended; what makes this harmless is that none of them is running:
then each one is found in a queue, and the process is completed when the last CPU has been searched.
-/

namespace Protofire.Scheduling

open List Machine Option ThreadPriority

/-! ### Out of the queues of a CPU -/

section TakeOut

variable {m : Machine} {c : ℕ} {k : ThreadKey} {mine : ThreadKey → Bool}

/-- A scheduler without the entries of some threads. -/
def Scheduler.takeOut (s : Scheduler) (mine : ThreadKey → Bool) : Scheduler :=
  { s with
    readyQueues := fun p => (s.readyQueues p).filter fun k => !mine k
    waitingQueue := s.waitingQueue.filter fun w => !mine w.thread }

/-- The threads whose entries are taken out. -/
def Machine.entries (m : Machine) (c : ℕ) (mine : ThreadKey → Bool) : List ThreadKey :=
  (m.readyThreads c).filter mine ++ ((m.cpus c).waitingQueue.map (·.thread)).filter mine

theorem mem_readyThreads : k ∈ m.readyThreads c ↔ ∃ p, 0 < m.queued c p k := by
  rw [readyThreads, mem_flatMap]
  constructor
  · rintro ⟨p, -, hk⟩
    exact ⟨p, count_pos_iff.mpr hk⟩
  rintro ⟨p, hk⟩
  refine ⟨p, ?_, count_pos_iff.mp hk⟩
  cases p <;> decide

theorem mem_parked : k ∈ (m.cpus c).waitingQueue.map (·.thread) ↔ 0 < m.parked c k := by
  rw [parked, countP_pos_iff]
  simp

theorem mem_entries : k ∈ m.entries c mine ↔
    mine k = true ∧ ((∃ p, 0 < m.queued c p k) ∨ 0 < m.parked c k) := by
  rw [entries, mem_append, mem_filter, mem_filter, mem_readyThreads, mem_parked]
  tauto

/-- A thread whose entries are not taken out is kept. -/
theorem kept_takeOut (hk : k ∉ m.entries c mine) :
    Kept m (m.modifyCpu c fun s => s.takeOut mine) k := by
  rw [mem_entries, not_and, not_or, not_exists] at hk
  have hpk : ((m.cpus c).takeOut mine).waitingQueue.countP (·.thread = k) =
      (m.cpus c).waitingQueue.countP (·.thread = k) := by
    show ((m.cpus c).waitingQueue.filter _).countP _ = _
    rw [countP_filter]
    refine countP_congr fun w hw => ?_
    simp only [Bool.and_eq_true, decide_eq_true_eq, Bool.not_eq_true']
    refine ⟨fun h => h.1, fun h => ⟨h, ?_⟩⟩
    rw [Bool.eq_false_iff]
    intro hmine
    refine (hk (h ▸ hmine)).2 ?_
    exact countP_pos_iff.mpr ⟨w, hw, by simpa using h⟩
  refine kept_modifyCpu (.inl fun p => ?_) (le_of_eq hpk) (fun _ _ _ => hpk) .rfl
  by_cases hmine : mine k = true
  · have hzero : ((m.cpus c).readyQueues p).count k = 0 := Nat.eq_zero_of_not_pos ((hk hmine).1 p)
    rw [hzero]
    refine count_eq_zero.mpr fun hmem => ?_
    simpa [hmine] using (mem_filter.mp hmem).2
  · exact count_filter (by simpa using hmine)

/-- The entries of a thread that has ended may go. -/
theorem placed_takeOut_of_not_live (h : m.Placed k) (hlv : ¬m.live k) :
    (m.modifyCpu c fun s => s.takeOut mine).Placed k := by
  by_cases hk : k ∈ m.entries c mine
  · cases h with
    | absent view queued parked =>
      rcases (mem_entries.mp hk).2 with ⟨p, hpos⟩ | hpos
      · exact absurd (queued c p) (ne_of_gt hpos)
      · exact absurd (parked c) (ne_of_gt hpos)
    | ready p c' view | running p c' view | waiting p c' view | held p view =>
      exact absurd ⟨_, view, nofun⟩ hlv
    | terminated p b view runs held =>
      refine .terminated p b view (fun hone c' hr => runs hone c' ?_) held
      rwa [Machine.runs, (sameCurrent_modifyCpu (by rfl)).current] at hr
  · exact h.calm (kept_takeOut hk) (calm_modifyCpu ..)

/-- A thread with an entry is neither held back nor, on a machine with one CPU, running. -/
theorem Machine.Placed.doomed (h : m.Placed k) (hk : k ∈ m.entries c mine) (hlv : m.live k) :
    m.Doomed k := by
  have hent := (mem_entries.mp hk).2
  have hno : (∀ c p, m.queued c p k = 0) → m.parked c k = 0 → False := by
    intro hq hp
    rcases hent with ⟨p, hpos⟩ | hpos
    · exact ne_of_gt hpos (hq c p)
    · exact ne_of_gt hpos hp
  cases h with
  | absent view queued parked | held p view queued parked => exact (hno queued (parked c)).elim
  | ready p c' view online queued parked runs held
  | waiting p c' view online queued pos parked runs held =>
    exact ⟨hlv, held, fun _ => runs⟩
  | running p c' view online queued parked runs held =>
    exact ⟨hlv, held, fun hone => (hno queued (parked hone c)).elim⟩
  | terminated p b view =>
    obtain ⟨v, hv, hst⟩ := hlv
    cases hv.symm.trans view
    exact absurd rfl hst

theorem Machine.Doomed.modifyCpu {f : Scheduler → Scheduler} (h : m.Doomed k)
    (hf : (f (m.cpus c)).current = (m.cpus c).current) : (m.modifyCpu c f).Doomed k := by
  refine ⟨h.live, h.held, fun hone c' hr => h.runs hone c' ?_⟩
  rwa [Machine.runs, (sameCurrent_modifyCpu hf).current] at hr

theorem Machine.Doomed.calm {m' : Machine} (h : m.Doomed k) (hca : Calm m m')
    (hcur : SameCurrent m m') : m'.Doomed k := by
  refine ⟨(hca.live k).mpr h.live, fun hh => h.held ((hca.heldBack k).mp hh), fun hone c hr =>
    ?_⟩
  refine h.runs (hca.cpuCount ▸ hone) c ?_
  rwa [Machine.runs, hcur.current] at hr

end TakeOut

/-- **Everybody is in a place, and the books are in order.** -/
structure Machine.Sound (m : Machine) : Prop where
  placed : ∀ k, m.Placed k
  noStop : m.NoStop
  book : m.Book

variable {m m' : Machine}

theorem Settles.sound (h : Settles m m') (hm : m.Sound) : m'.Sound :=
  ⟨h.placed, h.calm.noStop hm.noStop, h.calm.book hm.book⟩

/-- What is kept of the processes by a step. -/
structure Lasts (m m' : Machine) : Prop where
  heard : m.Heard → m'.Heard
  life : ∀ pid, m.LifeAt pid → m'.LifeAt pid

theorem Calm.lasts (h : Calm m m') : Lasts m m' := ⟨h.heard, fun _ => h.lifeAt⟩

theorem Lasts.trans {m'' : Machine} (h : Lasts m m') (h' : Lasts m' m'') : Lasts m m'' :=
  ⟨fun hh => h'.heard (h.heard hh), fun pid hl => h'.life pid (h.life pid hl)⟩

theorem Ends.lasts {S : ThreadKey → Prop} (h : Ends m m' S) (hbo : m.Book) :
    Lasts m m' := ⟨h.heard, h.life hbo⟩

/-! ### Exit -/

section Exit

variable {m : Machine} {c : ℕ} {k : ThreadKey}

/-- **A step that leaves the machine sound.** -/
structure Step (m m' : Machine) : Prop where
  cpuCount : m'.cpuCount = m.cpuCount
  contextSwitch : m'.contextSwitch = m.contextSwitch
  sound : m'.Sound
  lasts : Lasts m m'

variable {m' : Machine}

theorem Settles.step (h : Settles m m') (hm : m.Sound) : Step m m' :=
  ⟨h.calm.cpuCount, h.calm.contextSwitch, h.sound hm, h.calm.lasts⟩

theorem Step.trans {m m'' : Machine} (h : Step m m') (h' : Step m' m'') : Step m m'' :=
  ⟨h'.cpuCount.trans h.cpuCount, h'.contextSwitch.trans h.contextSwitch, h'.sound,
    h.lasts.trans h'.lasts⟩

theorem Step.refl (hm : m.Sound) : Step m m := ⟨rfl, rfl, hm, (Calm.refl m).lasts⟩

/-- Threads that have been taken out of their places end, and everybody is in a place again. -/
theorem Ends.step {m₁ : Machine} {S : ThreadKey → Prop} (hm : m.Sound) (hca : Calm m m₁)
    (h : Ends m₁ m' S) (hplaced : ∀ k, (S k → ¬m₁.live k) → m₁.Placed k)
    (hdom : ∀ k, S k → m₁.live k → m₁.Doomed k) : Step m m' := by
  have hbo := hca.book hm.book
  refine ⟨h.cpuCount.trans hca.cpuCount, h.contextSwitch.trans hca.contextSwitch,
    ⟨fun k => ?_, h.noStop (hca.noStop hm.noStop), h.book hbo⟩, hca.lasts.trans
      (h.lasts hbo)⟩
  by_cases hk : S k ∧ m₁.live k
  · exact h.ended k hk.1 (hdom k hk.1 hk.2)
  have hk' : S k → ¬m₁.live k := fun hS hl => hk ⟨hS, hl⟩
  exact h.placed k hk' (hplaced k hk')

/-- The siblings of a thread. -/
def ThreadKey.sibling (k k' : ThreadKey) : Bool := k'.pid = k.pid ∧ k'.tid ≠ k.tid

theorem terminateSiblingThreads_eq : m.terminateSiblingThreads c k =
    (m.modifyCpu c fun s => s.takeOut k.sibling).terminateAll c (m.entries c k.sibling) := rfl

theorem doomed_clearCurrent (h : m.Placed k) (hk : m.runs c k) (hlv : m.live k) :
    (m.modifyCpu c fun s => { s with current := none }).Doomed k := by
  have hrnr := h.runner hk
  refine ⟨hlv, ?_, fun _ => runs_clearCurrent hrnr hlv⟩
  cases hrnr with
  | running p view online queued parked runs held => exact held
  | terminated p b view many held => exact held

theorem placed_clearCurrent_of_not_live (h : m.Placed k) (hk : m.runs c k) (hlv : ¬m.live k) :
    (m.modifyCpu c fun s => { s with current := none }).Placed k := by
  cases h.runner hk with
  | running p view => exact absurd ⟨_, view, nofun⟩ hlv
  | terminated p b view many held => exact .terminated p b view (fun hone => absurd hone many) held

/-- A thread that does not wait may lose its registration. -/
theorem quiet_removeTimedWaiter (hlv : ¬m.live k) (c : ℕ) :
    Quiet m (m.modifyCpu c fun s => s.removeTimedWaiter k) := by
  have htou := touches_removeTimedWaiter m c k
  refine ⟨htou.calm, fun k' => ?_⟩
  by_cases hk : k' = k
  · rw [hk]
    refine kept_modifyCpu (.inl fun _ => rfl) ?_ (fun v hv hw => absurd ⟨v, hv, ?_⟩ hlv) .rfl
    · exact Nat.le_trans (Nat.le_of_eq (countP_removeTimedWaiter ..)) (Nat.zero_le _)
    rw [hw]
    exact nofun
  · exact htou.kept k' hk

section

variable (hm : m.Sound)
include hm

/-- **The running thread ends, and its siblings with it.** -/
theorem finishCurrentThread_spec (hc : c < m.cpuCount) (hk : m.runs c k)
    (reason : Option TerminationReason) : Step m (m.finishCurrentThread c reason) ∧
      ((m.finishCurrentThread c reason).cpus c).current = none := by
  rw [finishCurrentThread, show (m.cpus c).current = some k from hk]
  dsimp only
  rw [terminateSiblingThreads_eq]
  have hclear := touches_clearCurrent hk
  have hca : Calm m ((m.modifyCpu c fun s => { s with current := none }).modifyCpu c
      fun s => s.takeOut k.sibling) := hclear.calm.trans (calm_modifyCpu ..)
  -- the siblings end first, then the thread
  have hsib := ends_terminateAll (hca.cpuCount ▸ hc) (hca.noStop hm.noStop)
    (hca.book hm.book) ((m.modifyCpu c fun s => { s with current := none }).entries c k.sibling)
  have hse := ends_terminateThread (hsib.cpuCount ▸ hca.cpuCount ▸ hc)
    (hsib.noStop (hca.noStop hm.noStop)) (hsib.book (hca.book hm.book)) k reason
  have hall := hsib.trans hse
  have hsp : Step m _ := hall.step hm hca (fun k' hS => ?_) (fun k' hS hlv => ?_)
  · have hde := hall.dead k (.inr rfl)
    refine ⟨hsp.trans (Settles.step ((quiet_removeTimedWaiter hde c).settles hsp.sound.placed)
      hsp.sound), ?_⟩
    rw [(sameCurrent_modifyCpu (by rfl)).current, hall.current.current, cpus_modifyCpu,
      cpus_modifyCpu]
    rfl
  · by_cases hk' : k' = k
    · subst hk'
      have hlv : ¬m.live k' := hS (.inr rfl)
      exact placed_takeOut_of_not_live (placed_clearCurrent_of_not_live (hm.placed k') hk hlv)
        hlv
    · have hplaced := (hm.placed k').calm (hclear.kept k' hk') hclear.calm
      by_cases hlv : m.live k'
      · exact hplaced.calm (kept_takeOut fun h => hS (.inl h) hlv) (calm_modifyCpu ..)
      · exact placed_takeOut_of_not_live hplaced hlv
  · by_cases hk' : k' = k
    · subst hk'
      exact (doomed_clearCurrent (hm.placed k') hk hlv).modifyCpu rfl
    · have hplaced := (hm.placed k').calm (hclear.kept k' hk') hclear.calm
      exact (hplaced.doomed (hS.resolve_right hk') hlv).modifyCpu rfl

theorem step_terminateCurrentThread (hc : c < m.cpuCount)
    (reason : Option TerminationReason) : Step m (m.terminateCurrentThread c reason) := by
  rw [terminateCurrentThread]
  split
  · rename_i hso
    obtain ⟨k, hk⟩ := isSome_iff_exists.mp hso
    obtain ⟨hsp, hidle⟩ := finishCurrentThread_spec hm hc hk reason
    exact hsp.trans ((settles_afterLeaving hsp.sound.placed (hsp.cpuCount ▸ hc) hidle).step
      hsp.sound)
  · exact .refl hm

/-! ### Dispatch -/

/-- A thread whose address space cannot be made current ends instead of running. -/
theorem step_dispatchNext (hc : c < m.cpuCount) (hidle : (m.cpus c).current = none)
    (prepared : Bool) : Step m (m.dispatchNext c prepared) := by
  rw [dispatchNext, takeNextDispatchableThread]
  have h := takeNext_spec c descending m
  generalize m.takeNext c descending = found at h
  cases h with
  | none s' drops => exact ((quiet_of_drops hm.placed drops).settles hm.placed).step hm
  | some k s' before p₀ after split ready drops =>
    have htou := touches_of_drops hm.placed drops
    have hloo := loose_of_drops (hm.placed k) ready drops
    cases prepared with
    | true =>
      have hidle' : ((m.modifyCpu c fun _ => s').cpus c).current = none := by
        rw [cpus_modifyCpu, drops.current, hidle]
      have hcur := (htou.trans (touches_makeCurrent hidle')).settles hm.placed
        (placed_makeCurrent hc hloo)
      have hfg : Quiet ((m.modifyCpu c fun _ => s').makeCurrent c k)
          (((m.modifyCpu c fun _ => s').makeCurrent c k).modifyCpu c
            fun s => { s with needResched := false }) := quiet_modifyCpu rfl rfl rfl
      exact (hcur.trans (hfg.settles hcur.placed)).step hm
    | false =>
      have hen := ends_terminateThread (htou.calm.cpuCount ▸ hc)
        (htou.calm.noStop hm.noStop) (htou.calm.book hm.book) k none
      refine hen.step hm htou.calm (fun k' hk' => ?_) fun k' hk' hlv => ?_
      · have hne : k' ≠ k := by
          rintro rfl
          exact hk' rfl ⟨_, hloo.view, by simp⟩
        exact (hm.placed k').calm (htou.kept k' hne) htou.calm
      · rw [hk']
        exact ⟨⟨_, hloo.view, by simp⟩, hloo.held, fun _ => hloo.runs⟩

theorem step_finishOnRequest (hc : c < m.cpuCount) (hk : m.runs c k) :
    Step m (m.finishOnRequest c k) := by
  have hqt : Quiet m (m.modifyThread k fun thread =>
    { thread with terminatePending := false }) :=
    quiet_modifyThread fun _ => rfl
  have hsp := (hqt.settles hm.placed).step hm
  exact hsp.trans (finishCurrentThread_spec hsp.sound (hsp.cpuCount ▸ hc)
    (((hqt.kept k).runs c).mpr hk) _).1

theorem step_scheduleSimulated (hc : c < m.cpuCount) : Step m (m.scheduleSimulated c) := by
  have hreq : Step m ((m.cpus c).current.elim m fun k =>
      if (m.threads k).any (·.terminatePending) then m.finishOnRequest c k else m) := by
    cases hk : (m.cpus c).current with
    | none => exact .refl hm
    | some k =>
      rw [elim_some]
      split
      · exact step_finishOnRequest hm hc hk
      · exact .refl hm
  exact hreq.trans ((settles_scheduleSimulated_preempt hreq.sound.placed
    (hreq.cpuCount ▸ hc)).step hreq.sound)

/-- **The dispatcher**: where threads switch for real, it runs with nobody on the CPU. -/
theorem step_schedule (hc : c < m.cpuCount)
    (hidle : m.contextSwitch = true → (m.cpus c).current = none) (prepared : Bool) :
    Step m (m.schedule c prepared) := by
  rw [schedule]
  split
  · rename_i hsw
    rw [scheduleBareMetal, hidle hsw]
    exact step_dispatchNext hm hc (hidle hsw) prepared
  · exact step_scheduleSimulated hm hc

end

end Exit

/-! ### Fatal signals -/

section Kill

variable {m : Machine} {c cpu pid : ℕ} {k : ThreadKey}

/-- The threads of a process. -/
def mine (pid : ℕ) (k : ThreadKey) : Bool := k.pid = pid

theorem mine_iff : mine pid k = true ↔ k.pid = pid := by simp [mine]

/-- The waiters of a process that leave the queue of a CPU. -/
def Machine.waitersOf (m : Machine) (pid cpu : ℕ) : List TimedWaiter :=
  (m.cpus cpu).waitingQueue.filter fun w => mine pid w.thread

/-- Ask a thread of the process to end, if it is running. -/
def Machine.flagCurrent (m : Machine) (pid cpu : ℕ) : Machine :=
  match (m.cpus cpu).current with
  | some k =>
    if mine pid k then m.modifyThread k fun thread => { thread with terminatePending := true } else
      m
  | none => m

theorem terminateThreadsOfProcess_eq : m.terminateThreadsOfProcess c pid cpu =
    ((((m.waitersOf pid cpu).foldl (fun m w => m.removeWaiter w)
      (m.modifyCpu cpu fun s => s.takeOut (mine pid))).terminateAll c
        (m.entries cpu (mine pid))).flagCurrent pid cpu) := by
  have hes : m.entries cpu (mine pid) = (m.readyThreads cpu).filter (mine pid) ++
      (m.waitersOf pid cpu).map (·.thread) := by
    rw [Machine.entries, List.filter_map]
    rfl
  rw [hes]
  rfl

theorem gentle_flagCurrent (m : Machine) (pid cpu : ℕ) : Gentle m (m.flagCurrent pid cpu) := by
  rw [flagCurrent]
  split
  · split
    · refine Quiet.gentle ?_ ⟨fun _ => rfl⟩
      exact quiet_modifyThread fun _ => rfl
    · exact .refl m
  · exact .refl m

theorem gentle_removeWaiters (ws : List TimedWaiter) (m : Machine) :
    Gentle m (ws.foldl (fun m w => m.removeWaiter w) m) := by
  induction ws generalizing m with
  | nil => exact .refl m
  | cons w ws ih =>
    have hcur : SameCurrent m (m.removeWaiter w) := by
      rw [removeWaiter]
      split
      · exact .refl m
      · exact ⟨fun _ => rfl⟩
    exact ((quiet_removeWaiter m w).gentle hcur).trans (ih _)

variable {m' : Machine}

/-- What ends after it was taken out of the queues of a CPU has ended. -/
theorem Ends.after_takeOut {mine : ThreadKey → Bool}
    (h : Ends (m.modifyCpu cpu fun s => s.takeOut mine) m' (· ∈ m.entries cpu mine)) :
    Ends m m' (· ∈ m.entries cpu mine) := by
  have hca := calm_modifyCpu m cpu fun s => s.takeOut mine
  have hcur : SameCurrent m (m.modifyCpu cpu fun s => s.takeOut mine) := sameCurrent_modifyCpu rfl
  refine ⟨h.cpuCount, h.contextSwitch, h.nextPid, hcur.trans h.current, h.dead, h.live, h.held,
    h.alive, fun k hk hp => ?_, fun k hk hd => h.ended k hk (hd.calm hca hcur),
    fun k hk hde => (kept_takeOut hk).trans (h.frozen k hk hde), h.noStop,
    fun hb => h.book (hca.book hb), h.heard, fun hb => h.life (hca.book hb), h.struck, h.books⟩
  refine h.placed k hk ?_
  by_cases hmem : k ∈ m.entries cpu mine
  · exact placed_takeOut_of_not_live hp (hk hmem)
  · exact hp.calm (kept_takeOut hmem) hca

/-- **The threads of a process that are in the queues of a CPU end.** -/
theorem ends_terminateThreadsOfProcess (hc : c < m.cpuCount) (hto : m.NoStop) (hbo : m.Book)
    (pid cpu : ℕ) :
    Ends m (m.terminateThreadsOfProcess c pid cpu) (· ∈ m.entries cpu (mine pid)) := by
  rw [terminateThreadsOfProcess_eq]
  have hca := calm_modifyCpu m cpu fun s => s.takeOut (mine pid)
  have hwts := gentle_removeWaiters (m.waitersOf pid cpu)
    (m.modifyCpu cpu fun s => s.takeOut (mine pid))
  have hboth := hca.trans hwts.calm
  have hall := ends_terminateAll (hboth.cpuCount ▸ hc) (hboth.noStop hto)
    (hboth.book hbo) (m.entries cpu (mine pid))
  refine Ends.after_takeOut ((hwts.ends.trans hall).trans (gentle_flagCurrent ..).ends |>.congr ?_)
  simp

/-- A thread has its place on a CPU. -/
def Machine.placeOn (m : Machine) (cpu : ℕ) (k : ThreadKey) : Prop :=
  (∃ p, 0 < m.queued cpu p k) ∨
    (∃ v, m.view k = some v ∧ v.state = .waiting) ∧ 0 < m.parked cpu k

theorem Machine.placeOn.mem_entries (h : m.placeOn cpu k) (hpid : k.pid = pid) :
    k ∈ m.entries cpu (mine pid) :=
  Scheduling.mem_entries.mpr ⟨mine_iff.mpr hpid, h.imp_right And.right⟩

theorem Machine.placeOn.kept (h : m.placeOn cpu k) (hk : Kept m m' k) (hlv : m.live k) :
    m'.placeOn cpu k := by
  rcases h with ⟨p, hpos⟩ | ⟨⟨v, hv, hst⟩, hpos⟩
  · rcases hk.queued with hq | ⟨v, hv, hst⟩
    · exact .inl ⟨p, hq cpu p ▸ hpos⟩
    obtain ⟨v', hv', hlv⟩ := hlv
    cases hv.symm.trans hv'
    exact absurd hst hlv
  · exact .inr ⟨⟨v, hk.view.trans hv, hst⟩, hk.parked v hv hst cpu ▸ hpos⟩

/-- **Every CPU is searched.** The threads of the process that are left have their places on the
CPUs that are still to be searched. -/
theorem ends_terminateEverywhere (hc : c < m.cpuCount) (hto : m.NoStop) (hbo : m.Book)
    (hde : ¬m.alive pid) (cpus : List ℕ)
    (hplaced : ∀ k, m.Placed k ∨ k.pid = pid ∧ m.Doomed k ∧ ∃ cpu ∈ cpus, m.placeOn cpu k) :
    (∀ k, (cpus.foldl (fun m cpu => m.terminateThreadsOfProcess c pid cpu) m).Placed k) ∧
      ∃ S, (∀ k, S k → k.pid = pid) ∧
        Ends m (cpus.foldl (fun m cpu => m.terminateThreadsOfProcess c pid cpu) m) S := by
  induction cpus generalizing m with
  | nil =>
    refine ⟨fun k => (hplaced k).resolve_right ?_, _, fun _ => False.elim, (Gentle.refl m).ends⟩
    rintro ⟨-, -, cpu, hcpu, -⟩
    cases hcpu
  | cons cpu cpus ih =>
    have hps := ends_terminateThreadsOfProcess hc hto hbo pid cpu
    have hre := ih (hps.cpuCount ▸ hc) (hps.noStop hto) (hps.book hbo)
      (fun h => hde (hps.alive pid h)) fun k => ?_
    · obtain ⟨hall, S, hS, hen⟩ := hre
      refine ⟨hall, _, fun k hk => ?_, hps.trans hen⟩
      exact hk.elim (fun hmem => mine_iff.mp (Scheduling.mem_entries.mp hmem).1) (hS k)
    by_cases hmem : k ∈ m.entries cpu (mine pid)
    · left
      by_cases hlv : m.live k
      · refine hps.ended k hmem ?_
        rcases hplaced k with hp | ⟨-, hd, -⟩
        · exact hp.doomed hmem hlv
        · exact hd
      · exact hps.placed k (fun _ => hlv) ((hplaced k).resolve_right fun h => hlv h.2.1.live)
    · refine (hplaced k).imp (hps.placed k fun h => absurd h hmem) ?_
      rintro ⟨rfl, hd, cpu', hcpu', hplace⟩
      have hkt := hps.frozen k hmem hde
      refine ⟨rfl, hps.doomed hmem hd, cpu', ?_, hplace.kept hkt hd.live⟩
      exact (mem_cons.mp hcpu').resolve_left fun h => hmem ((h ▸ hplace).mem_entries rfl)

/-- The books say that a process has ended, before its threads have. -/
def Process.condemned (process : Process) (reason : TerminationReason) : Process :=
  { process with
    state := .terminated
    terminationReason := some reason
    terminationReaped := false }

theorem requestTermination_eq (reason : TerminationReason) (hidle : ∀ cpu, m.runsOn pid cpu = false)
    (halv : m.alive pid) : m.requestTermination c pid reason =
      ((m.scanned c).foldl (fun m cpu => m.terminateThreadsOfProcess c pid cpu)
        (m.modifyProcess pid (·.condemned reason))).completeTermination c pid (some reason) := by
  obtain ⟨process, hp, hst⟩ := halv
  have hrg : (m.scanned c).any ((m.modifyProcess pid (·.condemned reason)).runsOn pid) =
    false :=
    any_eq_false.mpr fun cpu _ => by
      rw [show (m.modifyProcess pid (·.condemned reason)).runsOn pid cpu = m.runsOn pid cpu from
        rfl,
        hidle]
      nofun
  rw [requestTermination, if_pos (by simp [hp, hst])]
  exact if_neg (ne_true_of_eq_false hrg)

variable {f : Process → Process}

theorem Machine.Book.modifyProcess (h : m.Book) (hthr : ∀ p, (f p).threads = p.threads)
    (hnx : ∀ p, (f p).nextTid = p.nextTid) : (m.modifyProcess pid f).Book := by
  have hproc : ∀ pid' process', (m.modifyProcess pid f).processes pid' = some process' →
      ∃ process, m.processes pid' = some process ∧ process'.threads = process.threads ∧
        process'.nextTid = process.nextTid := by
    intro pid' process' hp'
    by_cases hpid : pid' = pid
    · rw [hpid, processes_modifyProcess, map_eq_some_iff] at hp'
      obtain ⟨process, hp, rfl⟩ := hp'
      exact ⟨process, hpid ▸ hp, hthr _, hnx _⟩
    · rw [processes_modifyProcess_of_ne f hpid] at hp'
      exact ⟨process', hp', rfl, rfl⟩
  refine ⟨fun pid' process' hp' => ?_, fun pid' process' hp' => ?_, fun k v hv => ?_,
    fun pid' process' hp' => ?_⟩
  · obtain ⟨process, hp, ht, -⟩ := hproc pid' process' hp'
    rw [ht]
    exact h.nodup pid' process hp
  · obtain ⟨process, hp, ht, -⟩ := hproc pid' process' hp'
    rw [ht]
    exact h.listed pid' process hp
  · obtain ⟨process, hp, htid⟩ := h.owned k v hv
    by_cases hpid : k.pid = pid
    · refine ⟨f process, ?_, (hnx process).symm ▸ htid⟩
      rw [hpid, processes_modifyProcess, ← hpid, hp]
      rfl
    · exact ⟨process, (processes_modifyProcess_of_ne f hpid).trans hp, htid⟩
  · obtain ⟨process, hp, -, -⟩ := hproc pid' process' hp'
    exact h.numbered pid' process hp

theorem heldBack_modifyProcess (hf : ∀ p, (f p).suspendedThread = p.suspendedThread) :
    (m.modifyProcess pid f).heldBack k ↔ m.heldBack k := by
  rw [heldBack, heldBack]
  by_cases hpid : k.pid = pid
  · rw [hpid, processes_modifyProcess]
    cases m.processes pid with
    | none => exact Iff.rfl
    | some process => simp [hf process]
  · rw [processes_modifyProcess_of_ne f hpid]

/-- A change of a process keeps the threads in their places, as far as they do not rely on it. -/
theorem placed_modifyProcess (hf : ∀ p, (f p).suspendedThread = p.suspendedThread) (hk : m.Placed k)
    (halv : m.live k → m.alive k.pid → (m.modifyProcess pid f).alive k.pid) :
    (m.modifyProcess pid f).Placed k :=
  hk.kept (.of_cpus rfl rfl) rfl (heldBack_modifyProcess hf) halv

theorem alive_modifyProcess_of_ne {pid' : ℕ} (h : pid' ≠ pid) :
    (m.modifyProcess pid f).alive pid' ↔ m.alive pid' := by
  rw [alive, alive, processes_modifyProcess_of_ne f h]

/-- The threads of a condemned process have no place any more; each can be found. -/
theorem placed_condemned (hm : m.Sound) (hidle : ∀ cpu, m.runsOn pid cpu = false)
    (reason : TerminationReason) (k : ThreadKey) :
    (m.modifyProcess pid (·.condemned reason)).Placed k ∨ k.pid = pid ∧
      (m.modifyProcess pid (·.condemned reason)).Doomed k ∧
      ∃ cpu ∈ m.scanned c, (m.modifyProcess pid (·.condemned reason)).placeOn cpu k := by
  by_cases hpid : k.pid = pid
  · have hscan : ∀ cpu < m.cpuCount, cpu ∈ m.scanned c := fun cpu hcpu =>
      mem_append_left _ (mem_range.mpr hcpu)
    have hhe : ∀ k, (m.modifyProcess pid (·.condemned reason)).heldBack k ↔ m.heldBack k :=
      fun k => heldBack_modifyProcess fun _ => rfl
    have hde : ¬m.live k → (m.modifyProcess pid (·.condemned reason)).Placed k := fun h =>
      placed_modifyProcess (fun _ => rfl) (hm.placed k) fun hl => absurd hl h
    cases hm.placed k with
    | absent view =>
      refine .inl (hde ?_)
      rintro ⟨v, hv, -⟩
      cases hv.symm.trans view
    | ready p cpu view online queued parked runs held =>
      refine .inr ⟨hpid, ⟨⟨_, view, nofun⟩, fun hh => held ((hhe k).mp hh), fun _ => runs⟩, cpu,
        hscan cpu online, .inl ⟨p, ?_⟩⟩
      exact Nat.lt_of_lt_of_eq Nat.one_pos ((queued cpu p).trans (if_pos ⟨rfl, rfl⟩)).symm
    | running p cpu view online queued parked runs =>
      have hrun : (m.cpus cpu).current = some k := (runs cpu).mpr rfl
      have := hidle cpu
      rw [runsOn, hrun] at this
      simp [hpid] at this
    | waiting p cpu view online queued pos parked runs held =>
      exact .inr ⟨hpid, ⟨⟨_, view, nofun⟩, fun hh => held ((hhe k).mp hh), fun _ => runs⟩, cpu,
        hscan cpu online, .inr ⟨⟨_, view, rfl⟩, pos⟩⟩
    | held p view queued parked runs held =>
      exact .inl (.held p view queued parked runs ((hhe k).mpr held))
    | terminated p b view =>
      refine .inl (hde ?_)
      rintro ⟨v, hv, hlv⟩
      cases hv.symm.trans view
      exact hlv rfl
  · exact .inl (placed_modifyProcess (fun _ => rfl) (hm.placed k) fun _ =>
      (alive_modifyProcess_of_ne hpid).mpr)

theorem Machine.LifeAt.congr (h : m.LifeAt pid) (hp : m'.processes pid = m.processes pid)
    (hs : (m'.events (.process pid)).signaled = (m.events (.process pid)).signaled) :
    m'.LifeAt pid := by
  rw [LifeAt, hp, hs]
  exact h

/-- What a fatal signal leaves of a process. -/
structure Kills (m m' : Machine) (pid : ℕ) (reason : TerminationReason) : Prop where
  cpuCount : m'.cpuCount = m.cpuCount
  contextSwitch : m'.contextSwitch = m.contextSwitch
  sound : m'.Sound
  heard : m.Heard → m'.Heard
  others : ∀ pid' ≠ pid, m.LifeAt pid' → m'.LifeAt pid'
  life : (∀ process, m.processes pid = some process → process.suspendedThread = none) →
    m.LifeAt pid → m'.LifeAt pid
  books : ∀ pid' ≠ pid, (m'.processes pid').map Process.settled =
    (m.processes pid').map Process.settled
  reason : m.alive pid → (m'.processes pid).bind (·.terminationReason) = some reason

/-- **A fatal signal ends a process none of whose threads is running.** -/
theorem kills_requestTermination (hm : m.Sound) (hc : c < m.cpuCount)
    (hidle : ∀ cpu, m.runsOn pid cpu = false) (reason : TerminationReason) :
    Kills m (m.requestTermination c pid reason) pid reason := by
  by_cases halv : ¬m.alive pid
  · have hany : ¬(m.processes pid).any (·.state ≠ .terminated) = true := fun h => halv (by
      obtain ⟨process, hp, hs⟩ := (any_eq_true _ _).mp h
      exact ⟨process, hp, by simpa using hs⟩)
    rw [requestTermination, if_neg hany]
    exact ⟨rfl, rfl, hm, id, fun _ _ => id, fun _ => id, fun _ _ => rfl, fun h => absurd h halv⟩
  have halv : m.alive pid := not_not.mp halv
  rw [requestTermination_eq reason hidle halv]
  obtain ⟨process, hp, hst⟩ := halv
  have hp₁ : (m.modifyProcess pid (·.condemned reason)).processes pid =
      some (process.condemned reason) := by
    rw [processes_modifyProcess, hp]
    rfl
  have hde : ¬(m.modifyProcess pid (·.condemned reason)).alive pid := by
    rintro ⟨process', hp', hs⟩
    cases hp₁.symm.trans hp'
    exact hs rfl
  have hbo₁ : (m.modifyProcess pid (·.condemned reason)).Book :=
    hm.book.modifyProcess (fun _ => rfl) fun _ => rfl
  obtain ⟨hplaced, S, hS, hen⟩ := ends_terminateEverywhere
    (m := m.modifyProcess pid (·.condemned reason)) hc hm.noStop hbo₁ hde (m.scanned c)
    (placed_condemned hm hidle reason)
  generalize (m.scanned c).foldl (fun m cpu => m.terminateThreadsOfProcess c pid cpu)
    (m.modifyProcess pid (·.condemned reason)) = m₂ at hplaced hen
  have hbo₂ := hen.book hbo₁
  have hto₂ := hen.noStop hm.noStop
  obtain ⟨threads, hp₂⟩ := hen.struck pid _ hp₁ rfl
  have hc₂ : c < m₂.cpuCount := hen.cpuCount ▸ hc
  have hgen : Gentle ((m₂.modifyProcess pid (·.completed (some reason))).markSignaled
    (.process pid))
      (m₂.completeTermination c pid (some reason)) :=
    gentle_signal (m := m₂.modifyProcess pid (·.completed (some reason))) hto₂ hc₂ _
  have hp₃ : ((m₂.modifyProcess pid (·.completed (some reason))).markSignaled
      (.process pid)).processes pid =
      some ({ process.condemned reason with threads := threads }.completed (some reason)) := by
    show (m₂.modifyProcess pid _).processes pid = _
    rw [processes_modifyProcess, hp₂]
    rfl
  refine ⟨hgen.calm.cpuCount.trans hen.cpuCount,
    hgen.calm.contextSwitch.trans hen.contextSwitch, ⟨fun k => hgen.placed k ?_,
    hgen.calm.noStop hto₂, hgen.calm.book ?_⟩, fun hh => hgen.calm.heard ?_, ?_, ?_,
    fun pid' hne => ?_, fun _ => ?_⟩
  · refine Placed.kept (m := m₂.modifyProcess pid (·.completed (some reason))) ?_
      (.of_cpus rfl rfl) rfl Iff.rfl fun _ => id
    refine placed_modifyProcess (fun _ => rfl) (hplaced k) fun _ halv => ?_
    by_cases hpid : k.pid = pid
    · exact absurd (hen.alive _ (hpid ▸ halv)) hde
    · exact (alive_modifyProcess_of_ne hpid).mpr halv
  · have : (m₂.modifyProcess pid (·.completed (some reason))).Book :=
      hbo₂.modifyProcess (fun _ => rfl) fun _ => rfl
    exact ⟨this.nodup, this.listed, this.owned, this.numbered⟩
  · intro e
    by_cases he : e = .process pid
    · rw [he, markSignaled, events_modifyEvent]
      exact fun _ => rfl
    · rw [markSignaled, events_modifyEvent_of_ne _ he]
      exact hen.heard hh e
  · intro pid' hne hlf
    have hlf₁ : (m.modifyProcess pid (·.condemned reason)).LifeAt pid' :=
      hlf.congr (processes_modifyProcess_of_ne _ hne) rfl
    refine hgen.calm.lifeAt ((hen.life hbo₁ pid' hlf₁).congr
      (processes_modifyProcess_of_ne _ hne) ?_)
    rw [markSignaled, events_modifyEvent_of_ne _ fun h => hne (EventRef.process.inj h)]
    rfl
  · intro hsusp hlf
    rw [LifeAt, hp] at hlf
    have hop := hlf.resolve_right fun h => hst h.state
    have hnil : threads = [] := by
      refine eq_nil_iff_forall_not_mem.mpr fun tid hmem => ?_
      have hlv : m₂.live ⟨pid, tid⟩ := (hbo₂.listed pid _ hp₂ tid).mp hmem
      have hnoa : ¬m₂.alive pid := fun h => hde (hen.alive pid h)
      obtain ⟨v, hv, hst⟩ := id hlv
      cases hplaced ⟨pid, tid⟩ with
      | absent view => cases hv.symm.trans view
      | ready p c view online queued parked runs held alive
      | running p c view online queued parked runs held alive
      | waiting p c view online queued pos parked runs held alive =>
        exact hnoa alive
      | held p view queued parked runs held =>
        obtain ⟨process', hp', hs⟩ := held
        cases hp₂.symm.trans hp'
        cases (hsusp process hp).symm.trans hs
      | terminated p b view =>
        cases hv.symm.trans view
        exact hst rfl
    refine hgen.calm.lifeAt ?_
    rw [LifeAt, hp₃, markSignaled, events_modifyEvent]
    exact .inr ⟨rfl, hnil, congrArg (· + 1) hop.released, rfl, hop.reaps⟩
  · refine (hgen.calm.processes pid').trans (Eq.trans ?_ (Eq.trans (hen.books pid' fun k hk h =>
      hne ((hS k hk).symm.trans h).symm) ?_))
    · exact congrArg _ (processes_modifyProcess_of_ne _ hne)
    · exact congrArg _ (processes_modifyProcess_of_ne _ hne)
  · rw [hgen.calm.process_of_terminated hp₃ rfl]
    rfl

end Kill

end Protofire.Scheduling
