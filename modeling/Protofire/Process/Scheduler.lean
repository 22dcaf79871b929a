import Protofire.Lib.Queues

/-!
# The schedulers of a machine

Every CPU has a scheduler (`kernel/process/scheduler/`): a queue of ready threads for each priority,
a queue of the threads that are parked, and the thread that is running. A thread has its state and
its priority in itself, and a process has the numbers of its threads, so that the operations below
move a thread between the queues while they change what it says of itself.

A thread is named by its process and its number in it. A process is named by a number that is never
used again: the number that the pool hands out a second time after a reap names another process.
Two events are part of the model, that of a thread's end and that of a process's end; the other wait
queues are not, so a thread may also be parked on something unknown, and be woken from outside.

The machine keeps four notes that no function of the code reads: in what order threads were queued,
how often the resources of a process were released, what ended it first, and how often it was
reaped.
-/

namespace Protofire.Scheduling

open Function

/-! ### Threads, processes and queues -/

/-- States of a thread. -/
inductive ThreadState where
  | ready
  | running
  | waiting
  | stopped
  | terminated
  deriving DecidableEq, Repr

/-- States of a process. -/
inductive ProcessState where
  | new
  | ready
  | running
  | waiting
  | terminated
  deriving DecidableEq, Repr

/-- Priorities, lowest first. -/
inductive ThreadPriority where
  | idle
  | normal
  | high
  | realtime
  deriving DecidableEq, Repr

/-- The queue a priority is kept in. -/
def ThreadPriority.level : ThreadPriority → ℕ
  | .idle => 0
  | .normal => 1
  | .high => 2
  | .realtime => 3

/-- The priorities from the highest to the lowest. -/
def ThreadPriority.descending : List ThreadPriority := [.realtime, .high, .normal, .idle]

/-- Scheduling policies. -/
inductive ThreadSchedPolicy where
  | schedDefault
  | schedFifo
  | schedRoundRobin
  deriving DecidableEq, Repr

/-- Why a process ended. -/
inductive TerminationReason where
  | exit (status : ℕ)
  | exception (vector errorCode : ℕ) (faultAddress : Option ℕ)
  deriving DecidableEq, Repr

/-- A thread, by its process and its number in it (`WaiterIdentity`). -/
structure ThreadKey where
  pid : ℕ
  tid : ℕ
  deriving DecidableEq, Repr

/-- A thread as the scheduler keeps it. -/
structure Thread where
  state : ThreadState := .ready
  priority : ThreadPriority := .normal
  schedPolicy : ThreadSchedPolicy := .schedDefault
  boosted : Bool := false
  waitingTicks : ℕ := 0
  timeSliceRemaining : ℕ := 0
  /-- The tick to wake at, plus one; zero is no deadline. -/
  wakeDeadline : ℕ := 0
  stopPending : Bool := false
  terminatePending : Bool := false
  cpuAffinity : ℕ := 0

/-- A process, its threads' numbers and how it ended. -/
structure Process where
  state : ProcessState := .new
  threads : List ℕ := []
  nextTid : ℕ := 1
  suspendedThread : Option ℕ := none
  terminationReason : Option TerminationReason := none
  terminationReaped : Bool := false
  /-- How often the descriptors, handles, signal state and address space were released. -/
  released : ℕ := 0
  /-- How often the process was reaped. -/
  reaps : ℕ := 0

/-- The events of the model: the end of a process, and the end of a thread. -/
inductive EventRef where
  | process (pid : ℕ)
  | thread (k : ThreadKey)
  deriving DecidableEq, Repr

/-- A manual-reset event. -/
structure Event where
  signaled : Bool := false
  waiters : List ThreadKey := []

/-- A thread that is parked, and the event that a timeout has to leave. -/
structure TimedWaiter where
  thread : ThreadKey
  cleanup : Option EventRef
  deriving DecidableEq

/-- What a CPU has of threads. -/
structure Scheduler where
  readyQueues : ThreadPriority → List ThreadKey := fun _ => []
  waitingQueue : List TimedWaiter := []
  current : Option ThreadKey := none
  needResched : Bool := false

/-- The CPUs with everything they share. -/
structure Machine where
  /-- The CPUs `0`, …, `cpuCount - 1` are online. -/
  cpuCount : ℕ
  /-- `arch::supports_context_switch`: a host only simulates one. -/
  contextSwitch : Bool := true
  cpus : ℕ → Scheduler := fun _ => {}
  threads : ThreadKey → Option Thread := fun _ => none
  processes : ℕ → Option Process := fun _ => none
  events : EventRef → Event := fun _ => {}
  nextPid : ℕ := 2
  /-- When a thread was last queued. -/
  queuedAt : ThreadKey → ℕ := fun _ => 0
  clock : ℕ := 0

def timeSliceTicks : ℕ := 2

def boostThresholdTicks : ℕ := 50

def boostDurationTicks : ℕ := 8

/-! ### Queues -/

namespace Scheduler

variable (s : Scheduler) (p : ThreadPriority)

def setQueue (queue : List ThreadKey) : Scheduler :=
  { s with readyQueues := update s.readyQueues p queue }

variable (k : ThreadKey)

/-- Out of every queue, by its identity. -/
def removeQueuedThread : Scheduler :=
  { s with readyQueues := fun p => (s.readyQueues p).filter (· ≠ k) }

def pushBack : Scheduler :=
  s.setQueue p (s.readyQueues p ++ [k])

def pushFront : Scheduler :=
  s.setQueue p (k :: s.readyQueues p)

/-- `ready_queue_len`: over all priorities. -/
def readyQueueLen : ℕ :=
  (ThreadPriority.descending.map fun p => (s.readyQueues p).length).sum

/-- `take_timed_waiters_by_identity`. -/
def removeTimedWaiter : Scheduler :=
  { s with waitingQueue := (Queues.swapTake (·.thread = k) s.waitingQueue).2 }

/-- `park_thread`: a waiter of the same thread is replaced. -/
def parkThread (cleanup : Option EventRef) : Scheduler :=
  { s with waitingQueue := s.waitingQueue.filter (·.thread ≠ k) ++ [⟨k, cleanup⟩] }

end Scheduler

namespace Machine

variable (m : Machine)

def modifyThread (k : ThreadKey) (f : Thread → Thread) : Machine :=
  { m with threads := update m.threads k ((m.threads k).map f) }

variable (pid : ℕ)

def modifyProcess (f : Process → Process) : Machine :=
  { m with processes := update m.processes pid ((m.processes pid).map f) }

variable (c : ℕ)

def modifyCpu (f : Scheduler → Scheduler) : Machine :=
  { m with cpus := update m.cpus c (f (m.cpus c)) }

def modifyEvent (e : EventRef) (f : Event → Event) : Machine :=
  { m with events := update m.events e (f (m.events e)) }

section

variable (k : ThreadKey)

/-- `should_dispatch_ready_thread`. -/
def isReady : Bool := (m.threads k).any (·.state = .ready)

/-- Neither the thread nor its process has ended. -/
def isRevivable : Bool :=
  (m.threads k).any (·.state ≠ .terminated) && (m.processes k.pid).any (·.state ≠ .terminated)

/-- Nothing that has ended is set to another state. -/
def setProcessAndThreadState (ps : ProcessState) (ts : ThreadState) : Machine :=
  if m.isRevivable k then
    (m.modifyProcess k.pid fun process => { process with state := ps }).modifyThread k
      fun thread => { thread with state := ts }
  else m

/-- Note that a thread is queued now. -/
def stamp : Machine :=
  { m with queuedAt := update m.queuedAt k m.clock, clock := m.clock + 1 }

/-- The priority of a thread. -/
def priorityOf : ThreadPriority := ((m.threads k).map (·.priority)).getD .normal

/-- `enqueue_ready_thread`: one copy, in the queue of the priority that the thread has. -/
def enqueueReadyThread : Machine :=
  if m.isReady k then
    (m.modifyCpu c fun s => (s.removeQueuedThread k).pushBack (m.priorityOf k) k).stamp k
  else m

/-- `requeue_preempted_thread`: a FIFO thread goes to the front. -/
def requeuePreemptedThread : Machine :=
  if m.isReady k then
    (m.modifyCpu c fun s =>
      if (m.threads k).any (·.schedPolicy = .schedFifo) then
        (s.removeQueuedThread k).pushFront (m.priorityOf k) k
      else (s.removeQueuedThread k).pushBack (m.priorityOf k) k).stamp k
  else m

/-- `prune_nondispatchable_ready_threads`. -/
def pruneNondispatchableReadyThreads : Machine :=
  m.modifyCpu c fun s => { s with readyQueues := fun p => (s.readyQueues p).filter m.isReady }

/-- The next thread of the queues from the given priorities, and the queues without the entries that
were looked at. -/
def takeNext (c : ℕ) : List ThreadPriority → Machine → Option ThreadKey × Machine
  | [], m => (none, m)
  | p :: ps, m =>
    match ((m.cpus c).readyQueues p).dropWhile fun k => !m.isReady k with
    | [] => takeNext c ps (m.modifyCpu c fun s => s.setQueue p [])
    | k :: queue => (some k, m.modifyCpu c fun s => s.setQueue p queue)

/-- `take_next_dispatchable_thread`: the highest priority first. -/
def takeNextDispatchableThread : Option ThreadKey × Machine :=
  takeNext c ThreadPriority.descending m

/-- `maybe_set_need_resched`: the thread has a higher priority than the running one. -/
def maybeSetNeedResched : Machine :=
  m.modifyCpu c fun s =>
    if s.current.any fun k' => (m.priorityOf k').level < (m.priorityOf k).level then
      { s with needResched := true }
    else s

/-- Queue a thread, and ask for a reschedule if it was queued. -/
def placeReady : Machine :=
  if m.isReady k then (m.enqueueReadyThread c k).maybeSetNeedResched c k else m

/-! ### Waking -/

/-- `wake_waiter`: whether the thread was waiting, and the machine after it. -/
def wakeWaiter : Option Machine :=
  if (m.threads k).any (·.state = .waiting) then
    if (m.threads k).any (·.stopPending) then
      some ((m.modifyProcess k.pid fun process => { process with state := .ready }).modifyThread k
        fun thread => { thread with state := .stopped, stopPending := false, wakeDeadline := 0 })
    else if m.isRevivable k then
      some ((m.setProcessAndThreadState k .ready .ready).modifyThread k
        fun thread => { thread with wakeDeadline := 0 })
    else none
  else none

/-- The CPU of a thread, if it is online, and otherwise the given one. -/
def cpuOf (c : ℕ) : ℕ :=
  let cpu := ((m.threads k).map (·.cpuAffinity)).getD 0
  if cpu < m.cpuCount then cpu else c

/-- `wake_thread`: a waiting thread goes to the ready queue of its CPU. -/
def wakeThread : Machine :=
  match m.wakeWaiter k with
  | none => m
  | some m' =>
    let target := m.cpuOf k c
    (m'.modifyCpu target fun s => s.removeTimedWaiter k).placeReady target k

/-- `is_active_waiter`. -/
def isActiveWaiter : Bool :=
  (m.threads k).any (·.state = .waiting) && (m.processes k.pid).any (·.state ≠ .terminated)

/-- `Event::signal` of a manual-reset event: it stays signalled, and every waiter is woken. -/
def signal (e : EventRef) : Machine :=
  let waking := (m.events e).waiters.filter m.isActiveWaiter
  waking.foldl (fun m k => m.wakeThread c k)
    (m.modifyEvent e fun _ => { signaled := true, waiters := [] })

/-! ### Ending -/

/-- `complete_termination`. -/
def completeTermination (c pid : ℕ) (reason : Option TerminationReason) : Machine :=
  (m.modifyProcess pid fun process =>
    { process with
      state := .terminated
      terminationReason := if reason.isSome then reason else process.terminationReason
      terminationReaped := false
      released := process.released + 1 }).signal c (.process pid)

variable (reason : Option TerminationReason)

/-- `finish_thread_termination`: the last thread ends its process. -/
def finishThreadTermination : Machine :=
  match m.processes k.pid with
  | none => m
  | some process =>
    if k.tid ∉ process.threads then m
    else
      let lastThread := (process.threads.erase k.tid).isEmpty
      let m' := m.modifyProcess k.pid fun process =>
        { process with threads := process.threads.erase k.tid }
      if lastThread && process.state ≠ .terminated then m'.completeTermination c k.pid reason
      else m'

/-- `finish_termination` of a thread. -/
def terminateThread : Machine :=
  if (m.threads k).any (·.state ≠ .terminated) then
    let m := m.modifyThread k fun thread => { thread with state := .terminated }
    let m := m.finishThreadTermination c k reason
    let m := m.signal c (.thread k)
    m.modifyThread k fun thread => { thread with wakeDeadline := 0 }
  else m

/-- End threads that have no reason of their own. -/
def terminateAll (ks : List ThreadKey) : Machine :=
  ks.foldl (fun m k => m.terminateThread c k none) m

/-- The threads in the ready queues, from the lowest priority on. -/
def readyThreads : List ThreadKey :=
  ThreadPriority.descending.reverse.flatMap (m.cpus c).readyQueues

/-- `terminate_sibling_threads`. -/
def terminateSiblingThreads : Machine :=
  let sibling (k' : ThreadKey) : Bool := k'.pid = k.pid ∧ k'.tid ≠ k.tid
  let toTerminate := (m.readyThreads c).filter sibling ++
    ((m.cpus c).waitingQueue.map (·.thread)).filter sibling
  (m.modifyCpu c fun s =>
    { s with
      readyQueues := fun p => (s.readyQueues p).filter fun k' => !sibling k'
      waitingQueue := s.waitingQueue.filter fun w => !sibling w.thread }).terminateAll c toTerminate

end

variable (reason : Option TerminationReason)

/-- `finish_current_thread`: the siblings that this CPU can see end with the thread. -/
def finishCurrentThread : Machine :=
  match (m.cpus c).current with
  | none => m
  | some k =>
    let m := m.modifyCpu c fun s => { s with current := none }
    let m := m.terminateSiblingThreads c k
    let m := m.terminateThread c k reason
    m.modifyCpu c fun s => s.removeTimedWaiter k

/-- Leave the event that a timeout would have to leave. -/
def removeWaiter (w : TimedWaiter) : Machine :=
  match w.cleanup with
  | none => m
  | some e => m.modifyEvent e fun event =>
      { event with waiters := event.waiters.filter (· ≠ w.thread) }

/-- `terminate_threads_of_process` on one CPU: the threads in its queues end, and the one that is
running is asked to. -/
def terminateThreadsOfProcess (c pid cpu : ℕ) : Machine :=
  let mine (k : ThreadKey) : Bool := k.pid = pid
  let waiters := (m.cpus cpu).waitingQueue.filter fun w => mine w.thread
  let toTerminate := (m.readyThreads cpu).filter mine ++ waiters.map (·.thread)
  let m := m.modifyCpu cpu fun s =>
    { s with
      readyQueues := fun p => (s.readyQueues p).filter fun k => !mine k
      waitingQueue := s.waitingQueue.filter fun w => !mine w.thread }
  let m := (waiters.foldl (fun m w => m.removeWaiter w) m).terminateAll c toTerminate
  match (m.cpus cpu).current with
  | some k => if mine k then m.modifyThread k fun thread => { thread with terminatePending := true }
    else m
  | none => m

/-- A thread of the process is running on the CPU. -/
def runsOn (pid cpu : ℕ) : Bool := ((m.cpus cpu).current).any (·.pid = pid)

/-- The CPUs that a request for termination looks at. -/
def scanned : List ℕ :=
  List.range m.cpuCount ++ if m.cpuCount ≤ 1 then [c] else []

/-- `request_termination`: what a fatal signal does to a process. -/
def requestTermination (c pid : ℕ) (reason : TerminationReason) : Machine :=
  if (m.processes pid).any (·.state ≠ .terminated) then
    let m := m.modifyProcess pid fun process =>
      { process with
        state := .terminated
        terminationReason := some reason
        terminationReaped := false }
    let running := (m.scanned c).any (m.runsOn pid)
    let m := (m.scanned c).foldl (fun m cpu => m.terminateThreadsOfProcess c pid cpu) m
    if running then m else m.completeTermination c pid (some reason)
  else m

/-- The default action of a fatal signal. -/
def applyFatalSignal (c pid signal : ℕ) : Machine :=
  m.requestTermination c pid (.exit (128 + signal))

/-- `reap_termination_reason`, if it succeeds. -/
def reap : Option Machine :=
  if (m.processes pid).any fun process => process.state = .terminated && !process.terminationReaped
  then some (m.modifyProcess pid fun process =>
    { process with
      terminationReaped := true
      terminationReason := none
      reaps := process.reaps + 1 })
  else none

/-! ### Running -/

/-- Make a thread the current one of a CPU. -/
def makeCurrent (k : ThreadKey) : Machine :=
  (m.setProcessAndThreadState k .running .running).modifyCpu c fun s => { s with current := some k }

variable (prepared : Bool)

/-- The end of `schedule_bare_metal`: what becomes of the next thread depends on whether its address
space can be made current. -/
def dispatchNext : Machine :=
  match m.takeNextDispatchableThread c with
  | (none, m) => m
  | (some k, m) =>
    if prepared then (m.makeCurrent c k).modifyCpu c fun s => { s with needResched := false }
    else m.terminateThread c k none

/-- `dispatch_next_simulated`. -/
def dispatchNextSimulated : Machine :=
  match m.takeNextDispatchableThread c with
  | (none, m) => m
  | (some k, m) => m.makeCurrent c k

/-- End the current thread on request: the reason is the one that its process has. -/
def finishOnRequest (k : ThreadKey) : Machine :=
  let m := m.modifyThread k fun thread => { thread with terminatePending := false }
  m.finishCurrentThread c ((m.processes k.pid).bind (·.terminationReason))

/-- `schedule_bare_metal`, one round. -/
def scheduleBareMetal : Machine :=
  match (m.cpus c).current with
  | none => m.dispatchNext c prepared
  | some k =>
    if (m.threads k).any (·.terminatePending) then m.finishOnRequest c k
    else if (m.cpus c).needResched then m.dispatchNext c prepared
    else m

/-- Give up the CPU: the thread goes back to its queue if there is another one to run. -/
def leaveCpu (k : ThreadKey) : Machine :=
  let m := m.pruneNondispatchableReadyThreads c
  if (m.cpus c).readyQueueLen = 0 then m
  else
    let m := m.modifyCpu c fun s => { s with current := none }
    (m.setProcessAndThreadState k .ready .ready).requeuePreemptedThread c k

/-- `yield_current_thread`. -/
def yieldCurrentThread : Machine := (m.cpus c).current.elim m (m.leaveCpu c)

/-- `preempt_current_thread_from_interrupt`. -/
def preemptCurrentThreadFromInterrupt : Machine := (m.cpus c).current.elim m (m.leaveCpu c)

/-- `preempt_current_thread_simulated`: whether the thread went back to its queue. One that has
stopped running leaves the CPU and goes nowhere. -/
def preemptCurrentThreadSimulated : Bool × Machine :=
  match (m.cpus c).current with
  | none => (false, m)
  | some k =>
    if (m.threads k).any fun thread => thread.state = .ready || thread.state = .running then
      (((m.pruneNondispatchableReadyThreads c).cpus c).readyQueueLen ≠ 0, m.leaveCpu c k)
    else (false, m.modifyCpu c fun s => { s with current := none })

/-- `schedule_simulated`. -/
def scheduleSimulated : Machine :=
  let m := (m.cpus c).current.elim m fun k =>
    if (m.threads k).any (·.terminatePending) then m.finishOnRequest c k else m
  (m.preemptCurrentThreadSimulated c).2.dispatchNextSimulated c

/-- `schedule`, one round. -/
def schedule : Machine :=
  if m.contextSwitch then m.scheduleBareMetal c prepared else m.scheduleSimulated c

/-- What follows when the running thread has left the CPU: on a host, the next one is taken. -/
def afterLeaving : Machine := if m.contextSwitch then m else m.dispatchNextSimulated c

/-- `terminate_current_thread_with_reason`. -/
def terminateCurrentThread : Machine :=
  if (m.cpus c).current.isSome then (m.finishCurrentThread c reason).afterLeaving c else m

/-- `enter_waiting_state`. -/
def enterWaitingState (k : ThreadKey) (deadline : Option ℕ) : Machine :=
  if m.isRevivable k then
    (m.setProcessAndThreadState k .waiting .waiting).modifyThread k fun thread =>
      { thread with wakeDeadline := deadline.elim 0 fun tick => min (tick + 1) (2 ^ 64 - 1) }
  else m

/-- `block_current_thread_if` with the closures of the wait queues: on an event that is signalled
the thread goes on. -/
def blockCurrentThread (event : Option EventRef) (deadline : Option ℕ) : Machine :=
  match (m.cpus c).current with
  | none => m
  | some k =>
    let m := event.elim m fun e => m.modifyEvent e fun event =>
      { event with waiters := event.waiters.filter m.isActiveWaiter }
    if event.any fun e => (m.events e).signaled then m
    else
      let m := event.elim m fun e => m.modifyEvent e fun event =>
        { event with waiters := event.waiters ++ [k] }
      let cleanup := deadline.bind fun _ => event
      let m := (m.enterWaitingState k deadline).modifyCpu c fun s =>
        { s.parkThread k cleanup with current := none }
      m.afterLeaving c

/-- `sleep_current_thread`. -/
def sleepCurrentThread (c now ticks : ℕ) : Machine :=
  m.blockCurrentThread c none (some (min (now + max ticks 1) (2 ^ 64 - 1)))

/-! ### Ticks -/

/-- `boost_starved_threads`. -/
def boostStarvedThreads : Machine :=
  let waiting := (m.cpus c).readyQueues .normal
  let m := waiting.foldl (fun m k => m.modifyThread k fun thread =>
    { thread with waitingTicks := thread.waitingTicks + 1 }) m
  let boosted := waiting.filter fun k =>
    (m.threads k).any fun thread => boostThresholdTicks ≤ thread.waitingTicks
  let m := boosted.foldl (fun m k => m.modifyThread k fun thread =>
    { thread with
      waitingTicks := 0
      timeSliceRemaining := boostDurationTicks
      priority := .high
      boosted := true }) m
  let m := boosted.foldl (fun m k => m.modifyCpu c fun s => s.removeQueuedThread k) m
  let m := boosted.foldl (fun m k => (m.modifyCpu c fun s => s.pushBack .high k).stamp k) m
  let demoted := ((m.cpus c).readyQueues .high).filter fun k =>
    (m.threads k).any fun thread => thread.boosted && thread.timeSliceRemaining = 0
  let m := demoted.foldl (fun m k => m.modifyThread k fun thread =>
    { thread with boosted := false, priority := .normal }) m
  let m := demoted.foldl (fun m k => m.modifyCpu c fun s => s.removeQueuedThread k) m
  demoted.foldl (fun m k => (m.modifyCpu c fun s => s.pushBack .normal k).stamp k) m

/-- The running thread uses up the time of its boost. -/
def ageCurrent : Machine :=
  match (m.cpus c).current with
  | none => m
  | some k => m.modifyThread k fun thread =>
      if thread.boosted then { thread with timeSliceRemaining := thread.timeSliceRemaining - 1 }
      else thread

/-- `parked_waiter_is_active`. -/
def parkedWaiterIsActive (w : TimedWaiter) : Bool := m.isActiveWaiter w.thread

/-- `has_timed_wait_elapsed`. -/
def hasElapsed (ticks : ℕ) (w : TimedWaiter) : Bool :=
  (m.threads w.thread).any fun thread => thread.wakeDeadline ≠ 0 && thread.wakeDeadline - 1 ≤ ticks

/-- What becomes of a waiter whose time is over, in the pass of the CPU `c` over the queue of `cpu`.
-/
def wakeElapsed (c cpu : ℕ) (w : TimedWaiter) : Machine :=
  let affinity := ((m.threads w.thread).map (·.cpuAffinity)).getD 0
  let target := if affinity ≠ c ∧ affinity < m.cpuCount then affinity else cpu
  let m := m.removeWaiter w
  match m.wakeWaiter w.thread with
  | none => m
  | some m =>
    if !m.isReady w.thread then m
    else
      let m := m.enqueueReadyThread target w.thread
      if affinity = c then m.maybeSetNeedResched cpu w.thread
      else if affinity < m.cpuCount then
        m.modifyCpu affinity fun s => { s with needResched := true }
      else m

/-- `wake_ready_threads`: the pass of the CPU `c` over the queue of `cpu`. -/
def wakeReadyThreads (c ticks cpu : ℕ) : Machine :=
  let stale := Queues.swapTake (fun w => !m.parkedWaiterIsActive w) (m.cpus cpu).waitingQueue
  let woke := Queues.swapTake (m.hasElapsed ticks) stale.2
  let m := m.modifyCpu cpu fun s => { s with waitingQueue := woke.2 }
  let m := stale.1.foldl (fun m w => m.removeWaiter w) m
  woke.1.foldl (fun m w => m.wakeElapsed c cpu w) m

variable (c ticks : ℕ)

/-- `wake_expired_sleepers`. -/
def wakeExpiredSleepers : Machine :=
  (c :: (List.range m.cpuCount).filter (· ≠ c)).foldl
    (fun m cpu => m.wakeReadyThreads c ticks cpu) m

variable (allowPreemption : Bool)

/-- The end of a time slice; a FIFO thread has none. -/
def endTimeSlice : Machine :=
  if !allowPreemption || ticks % timeSliceTicks ≠ 0 then m
  else if (m.cpus c).current.any fun k => (m.threads k).any (·.schedPolicy = .schedFifo) then m
  else if m.contextSwitch then m.preemptCurrentThreadFromInterrupt c
  else
    let preempted := m.preemptCurrentThreadSimulated c
    if preempted.1 then preempted.2.dispatchNextSimulated c else preempted.2

/-- `handle_timer_tick`. -/
def handleTimerTick : Machine :=
  (((m.boostStarvedThreads c).ageCurrent c).wakeExpiredSleepers c ticks).endTimeSlice c ticks
    allowPreemption

/-- The tick of a CPU that does not keep the clock. -/
def handleLocalTimerTick : Machine :=
  ((m.ageCurrent c).wakeExpiredSleepers c ticks).endTimeSlice c ticks allowPreemption

/-! ### Starting -/

/-- `place_thread` of a new thread. -/
def placeThread (c target : ℕ) (k : ThreadKey) (startSuspended : Bool) : Machine :=
  let m := m.modifyThread k fun thread => { thread with cpuAffinity := target }
  if startSuspended then
    m.modifyProcess k.pid fun process => { process with suspendedThread := some k.tid }
  else m.placeReady (if target < m.cpuCount then target else c) k

/-- `Thread::new_inner`: a thread of a process that has ended is ended at once. -/
def newThread (c pid : ℕ) (priority : ThreadPriority) (policy : ThreadSchedPolicy) :
    Option (ThreadKey × Machine) :=
  match m.processes pid with
  | none => none
  | some process =>
    let k : ThreadKey := ⟨pid, process.nextTid⟩
    let thread : Thread := { priority := priority, schedPolicy := policy }
    let m := { m with threads := update m.threads k (some thread) }
    let m := m.modifyProcess pid fun process => { process with nextTid := process.nextTid + 1 }
    if process.state = .terminated then some (k, m.terminateThread c k none)
    else some (k, m.modifyProcess pid fun process =>
      { process with threads := process.threads ++ [k.tid] })

/-- Spawn a process with a thread. -/
def spawn (c target : ℕ) (priority : ThreadPriority) (policy : ThreadSchedPolicy)
    (startSuspended : Bool) : Machine :=
  let pid := m.nextPid
  let process : Process := { state := if startSuspended then .new else .ready }
  let m := { m with
    nextPid := m.nextPid + 1
    processes := update m.processes pid (some process) }
  match m.newThread c pid priority policy with
  | none => m
  | some (k, m) => m.placeThread c target k startSuspended

/-- Spawn one more thread of a process. -/
def spawnThread (c target pid : ℕ) (priority : ThreadPriority) (policy : ThreadSchedPolicy) :
    Machine :=
  match m.newThread c pid priority policy with
  | none => m
  | some (k, m) => m.placeThread c target k false

/-- `resume_suspended_process`. -/
def resumeSuspendedProcess (c pid : ℕ) : Machine :=
  match m.processes pid with
  | none => m
  | some process =>
    if process.state ≠ .new then m
    else
      let m := m.modifyProcess pid fun process => { process with state := .ready }
      match process.suspendedThread with
      | none => m
      | some tid =>
        let m := m.modifyProcess pid fun process => { process with suspendedThread := none }
        m.placeReady (m.cpuOf ⟨pid, tid⟩ c) ⟨pid, tid⟩

/-! ### Stealing -/

/-- `steal_ready_threads` on one queue: what is stolen, how many are still wanted, and the queue. -/
def stealFrom (c : ℕ) : List ThreadKey → ℕ → List ThreadKey → List ThreadKey × ℕ × List ThreadKey
  | queue, 0, skipped => ([], 0, queue ++ skipped)
  | [], n, skipped => ([], n, skipped)
  | k :: queue, n + 1, skipped =>
    let affinity := ((m.threads k).map (·.cpuAffinity)).getD 0
    if affinity ≠ 0 ∧ affinity ≠ c then stealFrom c queue (n + 1) (skipped ++ [k])
    else if m.isReady k then
      let rest := stealFrom c queue n skipped
      (k :: rest.1, rest.2)
    else stealFrom c queue (n + 1) skipped

/-- The queues from the given priorities, until enough is stolen. -/
def stealReadyThreads (c victim : ℕ) :
    List ThreadPriority → ℕ → Machine → List ThreadKey × Machine
  | [], _, m => ([], m)
  | p :: ps, n, m =>
    let round := m.stealFrom c ((m.cpus victim).readyQueues p) n []
    let m := m.modifyCpu victim fun s => s.setQueue p round.2.2
    if round.2.1 = 0 then (round.1, m)
    else
      let rest := stealReadyThreads c victim ps round.2.1 m
      (round.1 ++ rest.1, rest.2)

/-- `try_steal_work` from the CPU that was found to be the busiest. -/
def tryStealWork (c victim : ℕ) : Machine :=
  if m.cpuCount < 2 then m
  else
    let count := max ((m.cpus victim).readyQueueLen / 2) 1
    let stolen := stealReadyThreads c victim ThreadPriority.descending count m
    stolen.1.foldl (fun m k => m.enqueueReadyThread c k) stolen.2

end Machine

end Protofire.Scheduling
