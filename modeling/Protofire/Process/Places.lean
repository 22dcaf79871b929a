import Protofire.Process.Scheduler

/-!
# The place of a thread

A thread that has not ended is in one of four places: a ready queue, the CPU, the waiting queue, or
the slot in which its process holds it back at its start. `Placed` says that it is in one of them,
that the place agrees with what the thread says of itself, and that it is in no other.

What an operation does to the place of a thread is described by what it leaves alone: `Kept` says
that a thread is where it was, and `Calm` that no thread has come or gone and that no process has
changed in more than whether it is ready, running or waiting.
-/

namespace Protofire.Scheduling

open Function Machine Option Process

/-! ### Where a thread is -/

/-- What a place has to agree with. -/
structure View where
  state : ThreadState
  priority : ThreadPriority
  stopPending : Bool
  deriving DecidableEq

/-- What the scheduler's invariants read of a thread. -/
def Thread.view (t : Thread) : View := ⟨t.state, t.priority, t.stopPending⟩

namespace Machine

variable (m : Machine)

def view (k : ThreadKey) : Option View := (m.threads k).map Thread.view

/-- How often a thread is in a ready queue. -/
def queued (c : ℕ) (p : ThreadPriority) (k : ThreadKey) : ℕ := ((m.cpus c).readyQueues p).count k

/-- How often a thread is in the waiting queue of a CPU. -/
def parked (c : ℕ) (k : ThreadKey) : ℕ := (m.cpus c).waitingQueue.countP (·.thread = k)

/-- The thread runs on the CPU. -/
def runs (c : ℕ) (k : ThreadKey) : Prop := (m.cpus c).current = some k

/-- A thread is in the slot of its process. -/
def heldBack (k : ThreadKey) : Prop :=
  ∃ process, m.processes k.pid = some process ∧ process.suspendedThread = some k.tid

/-- A process has not ended. -/
def alive (pid : ℕ) : Prop := ∃ process, m.processes pid = some process ∧ process.state ≠
    .terminated

/-- A thread has not ended. -/
def live (k : ThreadKey) : Prop := ∃ v, m.view k = some v ∧ v.state ≠ .terminated

/-- No thread is asked to stop. -/
def NoStop : Prop := ∀ k v, m.view k = some v → v.stopPending = false

/-- **A thread is in its place, and in no other.** A place in a waiting queue is the only one on a
machine with one CPU; with more of them a registration may be left behind. A thread that has ended
may be left in a queue. -/
inductive Placed (k : ThreadKey) : Prop
  | absent (view : m.view k = none) (queued : ∀ c p, m.queued c p k = 0)
      (parked : ∀ c, m.parked c k = 0) (runs : ∀ c, ¬m.runs c k) (held : ¬m.heldBack k)
  | ready (p : ThreadPriority) (c : ℕ) (view : m.view k = some ⟨.ready, p, false⟩)
      (online : c < m.cpuCount)
      (queued : ∀ c' p', m.queued c' p' k = if c' = c ∧ p' = p then 1 else 0)
      (parked : m.cpuCount = 1 → ∀ c', m.parked c' k = 0) (runs : ∀ c', ¬m.runs c' k)
      (held : ¬m.heldBack k) (alive : m.alive k.pid)
  | running (p : ThreadPriority) (c : ℕ) (view : m.view k = some ⟨.running, p, false⟩)
      (online : c < m.cpuCount) (queued : ∀ c' p', m.queued c' p' k = 0)
      (parked : m.cpuCount = 1 → ∀ c', m.parked c' k = 0) (runs : ∀ c', m.runs c' k ↔ c' = c)
      (held : ¬m.heldBack k) (alive : m.alive k.pid)
  | waiting (p : ThreadPriority) (c : ℕ) (view : m.view k = some ⟨.waiting, p, false⟩)
      (online : c < m.cpuCount) (queued : ∀ c' p', m.queued c' p' k = 0)
      (pos : 0 < m.parked c k)
      (parked : m.cpuCount = 1 → ∀ c', m.parked c' k = if c' = c then 1 else 0)
      (runs : ∀ c', ¬m.runs c' k) (held : ¬m.heldBack k) (alive : m.alive k.pid)
  | held (p : ThreadPriority) (view : m.view k = some ⟨.ready, p, false⟩)
      (queued : ∀ c' p', m.queued c' p' k = 0) (parked : ∀ c', m.parked c' k = 0)
      (runs : ∀ c', ¬m.runs c' k) (held : m.heldBack k)
  | terminated (p : ThreadPriority) (b : Bool) (view : m.view k = some ⟨.terminated, p, b⟩)
      (runs : m.cpuCount = 1 → ∀ c', ¬m.runs c' k) (held : ¬m.heldBack k)

end Machine

/-! ### What an operation leaves alone -/

/-- **A thread is where it was.** A thread that has ended may leave the queues, and one that does
not wait may lose a registration. -/
structure Kept (m m' : Machine) (k : ThreadKey) : Prop where
  view : m'.view k = m.view k
  queued : (∀ c p, m'.queued c p k = m.queued c p k) ∨
    ∃ v, m.view k = some v ∧ v.state = .terminated
  parked_le : ∀ c, m'.parked c k ≤ m.parked c k
  parked : ∀ v, m.view k = some v → v.state = .waiting → ∀ c, m'.parked c k = m.parked c k
  runs : ∀ c, m'.runs c k ↔ m.runs c k

theorem Kept.refl (m : Machine) (k : ThreadKey) : Kept m m k :=
  ⟨rfl, .inl fun _ _ => rfl, fun _ => Nat.le_refl _, fun _ _ _ _ => rfl, fun _ => .rfl⟩

variable {m m' m'' : Machine} {k : ThreadKey}

theorem Kept.trans (h : Kept m m' k) (h' : Kept m' m'' k) : Kept m m'' k := by
  refine ⟨h'.view.trans h.view, ?_, fun c => Nat.le_trans (h'.parked_le c) (h.parked_le c), ?_,
    fun c => (h'.runs c).trans (h.runs c)⟩
  · rcases h.queued with hq | hq
    · rcases h'.queued with hq' | hq'
      · exact .inl fun c p => (hq' c p).trans (hq c p)
      rw [h.view] at hq'
      exact .inr hq'
    · exact .inr hq
  · intro v hv hw c
    rw [h'.parked v (h.view.trans hv) hw, h.parked v hv hw]

/-- A process up to whether it is ready, running or waiting. -/
def Process.settled (process : Process) : Process :=
  { process with state := if process.state = .terminated then .terminated else .ready }

/-- Nobody waits for an event that is signalled. -/
def Machine.Heard (m : Machine) : Prop :=
  ∀ e, (m.events e).signaled = true → (m.events e).waiters = []

/-- **No thread has come or gone**, and no process has ended. -/
structure Calm (m m' : Machine) : Prop where
  cpuCount : m'.cpuCount = m.cpuCount
  contextSwitch : m'.contextSwitch = m.contextSwitch
  nextPid : m'.nextPid = m.nextPid
  absent : ∀ k, m'.view k = none ↔ m.view k = none
  live : ∀ k, m'.live k ↔ m.live k
  noStop : m.NoStop → m'.NoStop
  processes : ∀ pid, (m'.processes pid).map settled = (m.processes pid).map settled
  signaled : ∀ pid, (m'.events (.process pid)).signaled = (m.events (.process pid)).signaled
  heard : m.Heard → m'.Heard

theorem Calm.refl (m : Machine) : Calm m m :=
  ⟨rfl, rfl, rfl, fun _ => .rfl, fun _ => .rfl, id, fun _ => rfl, fun _ => rfl, id⟩

theorem Calm.trans (h : Calm m m') (h' : Calm m' m'') : Calm m m'' :=
  ⟨h'.cpuCount.trans h.cpuCount, h'.contextSwitch.trans h.contextSwitch,
    h'.nextPid.trans h.nextPid, fun k => (h'.absent k).trans (h.absent k),
    fun k => (h'.live k).trans (h.live k), fun hn => h'.noStop (h.noStop hn),
    fun pid => (h'.processes pid).trans (h.processes pid),
    fun pid => (h'.signaled pid).trans (h.signaled pid), fun hh => h'.heard (h.heard hh)⟩

variable {pid : ℕ} {process : Process}

theorem Calm.exists_process (h : Calm m m') (hp : m'.processes pid = some process) :
    ∃ process', m.processes pid = some process' ∧ process.settled = process'.settled := by
  have := h.processes pid
  rw [hp, map_some, eq_comm, map_eq_some_iff] at this
  obtain ⟨process', hp', heq⟩ := this
  exact ⟨process', hp', heq.symm⟩

theorem Calm.exists_process' (h : Calm m m') (hp : m.processes pid = some process) :
    ∃ process', m'.processes pid = some process' ∧ process'.settled = process.settled := by
  have := h.processes pid
  rw [hp, map_some, map_eq_some_iff] at this
  exact this

theorem Process.settled_state {a b : Process} (h : a.settled = b.settled) :
    a.state = .terminated ↔ b.state = .terminated := by
  have := congrArg state h
  simp only [settled] at this
  by_cases ha : a.state = .terminated
  · by_cases hb : b.state = .terminated
    · exact iff_of_true ha hb
    rw [if_pos ha, if_neg hb] at this
    cases this
  · by_cases hb : b.state = .terminated
    · rw [if_neg ha, if_pos hb] at this
      cases this
    · exact iff_of_false ha hb

theorem Calm.alive (h : Calm m m') (pid : ℕ) : m'.alive pid ↔ m.alive pid := by
  constructor
  · rintro ⟨process, hp, hs⟩
    obtain ⟨process', hp', heq⟩ := h.exists_process hp
    exact ⟨process', hp', fun hn => hs ((settled_state heq).mpr hn)⟩
  · rintro ⟨process, hp, hs⟩
    obtain ⟨process', hp', heq⟩ := h.exists_process' hp
    exact ⟨process', hp', fun hn => hs ((settled_state heq).mp hn)⟩

theorem Calm.heldBack (h : Calm m m') (k : ThreadKey) : m'.heldBack k ↔ m.heldBack k := by
  constructor
  · rintro ⟨process, hp, hs⟩
    obtain ⟨process', hp', heq⟩ := h.exists_process hp
    exact ⟨process', hp', (congrArg suspendedThread heq).symm.trans hs⟩
  · rintro ⟨process, hp, hs⟩
    obtain ⟨process', hp', heq⟩ := h.exists_process' hp
    exact ⟨process', hp', (congrArg suspendedThread heq).trans hs⟩

/-- **A thread that is kept stays in its place.** -/
theorem Machine.Placed.kept (h : m.Placed k) (hk : Kept m m' k) (hcpu : m'.cpuCount = m.cpuCount)
    (hhe : m'.heldBack k ↔ m.heldBack k) (halv : m.live k → m.alive k.pid → m'.alive k.pid) :
    m'.Placed k := by
  have hpk : ∀ c, m.parked c k = 0 → m'.parked c k = 0 :=
    fun c hc => Nat.eq_zero_of_le_zero (hc ▸ hk.parked_le c)
  have hqd : ∀ {v : View}, m.view k = some v → v.state ≠ .terminated →
      ∀ {places : ℕ → ThreadPriority → ℕ}, (∀ c p, m.queued c p k = places c p) →
        ∀ c p, m'.queued c p k = places c p := by
    intro v hv hs places hpls c p
    rcases hk.queued with hq | ⟨v', hv', hs'⟩
    · exact (hq c p).trans (hpls c p)
    cases hv.symm.trans hv'
    exact absurd hs' hs
  have hru : (∀ c, ¬m.runs c k) → ∀ c, ¬m'.runs c k := fun runs c => mt (hk.runs c).mp (runs c)
  cases h with
  | absent view queued parked runs held =>
    refine .absent (hk.view.trans view) ?_ (fun c => hpk c (parked c)) (hru runs)
      (mt hhe.mp held)
    rcases hk.queued with hq | ⟨v, hv, -⟩
    · exact fun c p => (hq c p).trans (queued c p)
    · exact nomatch view.symm.trans hv
  | ready p c view online queued parked runs held alive =>
    exact .ready p c (hk.view.trans view) (hcpu ▸ online) (hqd view nofun queued)
      (fun hone c' => hpk c' (parked (hcpu ▸ hone) c')) (hru runs) (mt hhe.mp held)
      (halv ⟨_, view, nofun⟩ alive)
  | running p c view online queued parked runs held alive =>
    exact .running p c (hk.view.trans view) (hcpu ▸ online) (hqd view nofun queued)
      (fun hone c' => hpk c' (parked (hcpu ▸ hone) c'))
      (fun c' => (hk.runs c').trans (runs c')) (mt hhe.mp held)
      (halv ⟨_, view, nofun⟩ alive)
  | waiting p c view online queued pos parked runs held alive =>
    refine .waiting p c (hk.view.trans view) (hcpu ▸ online) (hqd view nofun queued) ?_
      (fun hone c' => ?_) (hru runs) (mt hhe.mp held) (halv ⟨_, view, nofun⟩ alive)
    · rw [hk.parked _ view rfl]
      exact pos
    · rw [hk.parked _ view rfl, parked (hcpu ▸ hone)]
  | held p view queued parked runs held =>
    exact .held p (hk.view.trans view) (hqd view nofun queued)
      (fun c' => hpk c' (parked c')) (hru runs) (hhe.mpr held)
  | terminated p b view runs held =>
    exact .terminated p b (hk.view.trans view)
      (fun hone c' hr => runs (hcpu ▸ hone) c' ((hk.runs c').mp hr)) (mt hhe.mp held)

theorem Machine.Placed.calm (h : m.Placed k) (hk : Kept m m' k) (hc : Calm m m') : m'.Placed k :=
  h.kept hk hc.cpuCount (hc.heldBack k) fun _ => (hc.alive k.pid).mpr

/-- **Only one thread is moved.** -/
structure Touches (m m' : Machine) (k : ThreadKey) : Prop where
  calm : Calm m m'
  kept : ∀ k' ≠ k, Kept m m' k'

/-- **No thread is moved.** -/
structure Quiet (m m' : Machine) : Prop where
  calm : Calm m m'
  kept : ∀ k, Kept m m' k

theorem Quiet.refl (m : Machine) : Quiet m m := ⟨.refl m, .refl m⟩

theorem Quiet.trans (h : Quiet m m') (h' : Quiet m' m'') : Quiet m m'' :=
  ⟨h.calm.trans h'.calm, fun k => (h.kept k).trans (h'.kept k)⟩

theorem Quiet.touches (h : Quiet m m') (k : ThreadKey) : Touches m m' k :=
  ⟨h.calm, fun k' _ => h.kept k'⟩

theorem Touches.trans (h : Touches m m' k) (h' : Touches m' m'' k) : Touches m m'' k :=
  ⟨h.calm.trans h'.calm, fun k' hk => (h.kept k' hk).trans (h'.kept k' hk)⟩

/-- A loop that moves no thread. -/
theorem quiet_foldl {α : Type} {f : Machine → α → Machine} (hf : ∀ m a, Quiet m (f m a)) :
    ∀ (l : List α) (m : Machine), Quiet m (l.foldl f m)
  | [], m => .refl m
  | a :: l, m => (hf m a).trans (quiet_foldl hf l (f m a))

/-! ### The parts of an operation -/

section Parts

variable {m : Machine} {k k' : ThreadKey} {c pid : ℕ} {m' : Machine}

theorem Kept.of_cpus (hcp : m'.cpus = m.cpus) (hview : m'.view k = m.view k) : Kept m m' k := by
  refine ⟨hview, .inl fun c p => ?_, fun c => ?_, fun _ _ _ c => ?_, fun c => ?_⟩
  · rw [Machine.queued, Machine.queued, hcp]
  · exact Nat.le_of_eq (by rw [Machine.parked, Machine.parked, hcp])
  · rw [Machine.parked, Machine.parked, hcp]
  · rw [Machine.runs, Machine.runs, hcp]

theorem Calm.of_eq (hcpu : m'.cpuCount = m.cpuCount) (hsw : m'.contextSwitch = m.contextSwitch)
    (hpid : m'.nextPid = m.nextPid) (hthr : m'.threads = m.threads)
    (hprocesses : m'.processes = m.processes) (hevs : m'.events = m.events) : Calm m m' := by
  have hview : m'.view = m.view := by
    funext k
    rw [view, view, hthr]
  refine ⟨hcpu, hsw, hpid, fun k => ?_, fun k => ?_, fun hn k v => ?_, fun pid => ?_,
    fun pid => ?_, fun hh e => ?_⟩
  · rw [hview]
  · rw [Machine.live, Machine.live, hview]
  · rw [hview]
    exact hn k v
  · rw [hprocesses]
  · rw [hevs]
  · rw [hevs]
    exact hh e

section

variable (f : Thread → Thread)

theorem threads_modifyThread :
    (m.modifyThread k f).threads k = (m.threads k).map f := update_self ..

theorem threads_modifyThread_of_ne (h : k' ≠ k) :
    (m.modifyThread k f).threads k' = m.threads k' := update_of_ne h ..

theorem processes_modifyProcess (f : Process → Process) :
    (m.modifyProcess pid f).processes pid = (m.processes pid).map f := update_self ..

theorem processes_modifyProcess_of_ne (f : Process → Process) {pid' : ℕ} (h : pid' ≠ pid) :
    (m.modifyProcess pid f).processes pid' = m.processes pid' := update_of_ne h ..

variable {e : EventRef}

theorem events_modifyEvent (f : Event → Event) :
    (m.modifyEvent e f).events e = f (m.events e) := update_self ..

theorem events_modifyEvent_of_ne {e' : EventRef} (f : Event → Event) (h : e' ≠ e) :
    (m.modifyEvent e f).events e' = m.events e' := update_of_ne h ..

theorem view_modifyThread_of_ne (h : k' ≠ k) : (m.modifyThread k f).view k' = m.view k' := by
  rw [view, threads_modifyThread_of_ne f h, view]

theorem view_modifyThread :
    (m.modifyThread k f).view k = (m.threads k).map fun t => (f t).view := by
  rw [view, threads_modifyThread, map_map]
  rfl

end

variable {f : Thread → Thread}

theorem noStop_modifyThread (hf : ∀ t, t.stopPending = false → (f t).stopPending = false)
    (h : m.NoStop) : (m.modifyThread k f).NoStop := by
  intro k' v hv
  by_cases hk : k' = k
  · rw [hk, view_modifyThread] at hv
    obtain ⟨t, ht, rfl⟩ := map_eq_some_iff.mp hv
    exact hf t (h k t.view (by rw [view, ht]; rfl))
  · rw [view_modifyThread_of_ne f hk] at hv
    exact h k' v hv

theorem touches_modifyThread (hf : ∀ t, (f t).state = .terminated ↔ t.state = .terminated)
    (hsp : ∀ t, t.stopPending = false → (f t).stopPending = false) :
    Touches m (m.modifyThread k f) k := by
  refine ⟨⟨rfl, rfl, rfl, fun k' => ?_, fun k' => ?_, noStop_modifyThread hsp, fun _ => rfl,
    fun _ => rfl, id⟩, fun k' hk => .of_cpus rfl (view_modifyThread_of_ne f hk)⟩
  · by_cases hk : k' = k
    · rw [hk, view_modifyThread, view]
      cases m.threads k <;> simp
    · rw [view_modifyThread_of_ne f hk]
  by_cases hk : k' = k
  · rw [hk, live, live, view_modifyThread, view]
    cases m.threads k with
    | none => simp
    | some t =>
      simp only [map_some, Option.some.injEq, exists_eq_left']
      exact not_congr (hf t)
  · rw [live, live, view_modifyThread_of_ne f hk]

theorem quiet_modifyThread (hf : ∀ t, (f t).view = t.view) : Quiet m (m.modifyThread k f) := by
  have hst : ∀ t, (f t).state = t.state := fun t => congrArg View.state (hf t)
  have hsp : ∀ t, t.stopPending = false → (f t).stopPending = false :=
    fun t h => (congrArg View.stopPending (hf t)).trans h
  refine ⟨(touches_modifyThread (fun t => by rw [hst]) hsp).calm, fun k' => ?_⟩
  refine .of_cpus rfl ?_
  by_cases hk : k' = k
  · rw [hk, view_modifyThread, view]
    cases m.threads k with
    | none => rfl
    | some t => simp [hf t]
  · exact view_modifyThread_of_ne f hk

theorem quiet_modifyProcess {f : Process → Process}
    (hf : ∀ process, m.processes pid = some process → (f process).settled = process.settled) :
    Quiet m (m.modifyProcess pid f) := by
  refine ⟨⟨rfl, rfl, rfl, fun _ => .rfl, fun _ => .rfl, id, fun pid' => ?_, fun _ => rfl, id⟩,
    fun k => .of_cpus rfl rfl⟩
  by_cases hp : pid' = pid
  · rw [hp, processes_modifyProcess]
    cases hproc : m.processes pid with
    | none => rfl
    | some process => exact congrArg some (hf process hproc)
  · rw [processes_modifyProcess_of_ne f hp]

theorem quiet_modifyEvent {f : Event → Event}
    (hf : ∀ pid, e = .process pid → (f (m.events e)).signaled = (m.events e).signaled)
    (hw : ((m.events e).signaled = true → (m.events e).waiters = []) →
      (f (m.events e)).signaled = true → (f (m.events e)).waiters = []) :
    Quiet m (m.modifyEvent e f) := by
  refine ⟨⟨rfl, rfl, rfl, fun _ => .rfl, fun _ => .rfl, id, fun _ => rfl, fun pid => ?_,
    fun hh e' => ?_⟩, fun k => .of_cpus rfl rfl⟩
  · by_cases he : EventRef.process pid = e
    · rw [he, events_modifyEvent, hf pid he.symm]
    · rw [events_modifyEvent_of_ne f he]
  by_cases he : e' = e
  · rw [he, events_modifyEvent]
    exact hw (hh e)
  · rw [events_modifyEvent_of_ne f he]
    exact hh e'

theorem quiet_stamp (m : Machine) (k : ThreadKey) : Quiet m (m.stamp k) :=
  ⟨.of_eq rfl rfl rfl rfl rfl rfl, fun _ => .of_cpus rfl rfl⟩

theorem calm_modifyCpu (m : Machine) (c : ℕ) (f : Scheduler → Scheduler) :
    Calm m (m.modifyCpu c f) := .of_eq rfl rfl rfl rfl rfl rfl

theorem cpus_modifyCpu (f : Scheduler → Scheduler) : (m.modifyCpu c f).cpus c = f (m.cpus c) :=
  update_self ..

theorem cpus_modifyCpu_of_ne (f : Scheduler → Scheduler) {c' : ℕ} (h : c' ≠ c) :
    (m.modifyCpu c f).cpus c' = m.cpus c' :=
  update_of_ne h ..

variable {f : Scheduler → Scheduler}

/-- A change on one CPU keeps the threads whose entries it leaves. -/
theorem kept_modifyCpu
    (hq : (∀ p, ((f (m.cpus c)).readyQueues p).count k = ((m.cpus c).readyQueues p).count k) ∨
      ∃ v, m.view k = some v ∧ v.state = .terminated)
    (hle : (f (m.cpus c)).waitingQueue.countP (·.thread = k) ≤
      (m.cpus c).waitingQueue.countP (·.thread = k))
    (hp : ∀ v, m.view k = some v → v.state = .waiting →
      (f (m.cpus c)).waitingQueue.countP (·.thread = k) =
        (m.cpus c).waitingQueue.countP (·.thread = k))
    (hr : (f (m.cpus c)).current = some k ↔ (m.cpus c).current = some k) :
    Kept m (m.modifyCpu c f) k := by
  refine ⟨rfl, hq.imp_left fun hq c' p => ?_, fun c' => ?_, fun v hv hw c' => ?_, fun c' => ?_⟩
  · rw [queued, queued]
    by_cases hc : c' = c
    · rw [hc, cpus_modifyCpu, hq]
    · rw [cpus_modifyCpu_of_ne f hc]
  · rw [parked, parked]
    by_cases hc : c' = c
    · rw [hc, cpus_modifyCpu]
      exact hle
    · exact Nat.le_of_eq (by rw [cpus_modifyCpu_of_ne f hc])
  · rw [parked, parked]
    by_cases hc : c' = c
    · rw [hc, cpus_modifyCpu, hp v hv hw]
    · rw [cpus_modifyCpu_of_ne f hc]
  · rw [runs, runs]
    by_cases hc : c' = c
    · rw [hc, cpus_modifyCpu, hr]
    · rw [cpus_modifyCpu_of_ne f hc]

/-- A change of the ready queues alone. -/
theorem kept_modifyReady
    (hq : (∀ p, ((f (m.cpus c)).readyQueues p).count k = ((m.cpus c).readyQueues p).count k) ∨
      ∃ v, m.view k = some v ∧ v.state = .terminated)
    (hw : (f (m.cpus c)).waitingQueue = (m.cpus c).waitingQueue)
    (hr : (f (m.cpus c)).current = (m.cpus c).current) : Kept m (m.modifyCpu c f) k :=
  kept_modifyCpu hq (Nat.le_of_eq (by rw [hw])) (fun _ _ _ => by rw [hw]) (by rw [hr])

/-- A change that leaves the queues and the current thread alone. -/
theorem quiet_modifyCpu (hq : (f (m.cpus c)).readyQueues = (m.cpus c).readyQueues)
    (hw : (f (m.cpus c)).waitingQueue = (m.cpus c).waitingQueue)
    (hr : (f (m.cpus c)).current = (m.cpus c).current) : Quiet m (m.modifyCpu c f) :=
  ⟨calm_modifyCpu .., fun _ => kept_modifyReady (.inl fun _ => by rw [hq]) hw hr⟩

theorem isRevivable_iff : m.isRevivable k = true ↔ m.live k ∧ m.alive k.pid := by
  rw [isRevivable, Bool.and_eq_true, live, alive, view]
  refine and_congr ?_ ?_
  · cases m.threads k <;> simp [Thread.view]
  · cases m.processes k.pid <;> simp

theorem isReady_iff : m.isReady k = true ↔ ∃ v, m.view k = some v ∧ v.state = .ready := by
  rw [isReady, view]
  cases m.threads k <;> simp [Thread.view]

variable {ps : ProcessState} {ts : ThreadState}

/-- A thread and its process go on to another state. -/
theorem touches_setProcessAndThreadState (hps : ps ≠ .terminated) (hts : ts ≠ .terminated) :
    Touches m (m.setProcessAndThreadState k ps ts) k := by
  rw [setProcessAndThreadState]
  split
  · rename_i hrev
    obtain ⟨⟨v, hv, hlv⟩, process, hp, halv⟩ := isRevivable_iff.mp hrev
    obtain ⟨t, ht, hvt⟩ := map_eq_some_iff.mp hv
    have hproc : Quiet m (m.modifyProcess k.pid fun process =>
      { process with state := ps }) := by
      refine quiet_modifyProcess fun process' hp' => ?_
      cases hp.symm.trans hp'
      simp [settled, hps, halv]
    refine (hproc.touches k).trans ⟨⟨rfl, rfl, rfl, fun k' => ?_, fun k' => ?_,
      noStop_modifyThread fun _ h => h, fun _ => rfl, fun _ => rfl, id⟩,
      fun k' hk => .of_cpus rfl (view_modifyThread_of_ne _ hk)⟩
    · by_cases hk : k' = k
      · rw [hk, view_modifyThread, view]
        cases (m.modifyProcess k.pid fun process => { process with state := ps }).threads k <;> simp
      · rw [view_modifyThread_of_ne _ hk]
    by_cases hk : k' = k
    · rw [hk]
      refine iff_of_true ?_ ⟨v, hv, hlv⟩
      refine ⟨⟨ts, t.priority, t.stopPending⟩, ?_, hts⟩
      rw [view_modifyThread]
      show (m.threads k).map _ = _
      rw [ht]
      rfl
    · rw [live, live, view_modifyThread_of_ne _ hk]
  · exact (Quiet.refl m).touches k

theorem view_setProcessAndThreadState {v : View} (hv : m.view k = some v)
    (hrev : m.isRevivable k = true) :
    (m.setProcessAndThreadState k ps ts).view k = some { v with state := ts } := by
  obtain ⟨t, ht, rfl⟩ := map_eq_some_iff.mp hv
  rw [setProcessAndThreadState, if_pos hrev, view_modifyThread]
  show (m.threads k).map _ = _
  rw [ht]
  rfl

end Parts

end Protofire.Scheduling
