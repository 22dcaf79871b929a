import Protofire.Process.Ticks

/-!
# The end of a thread

A thread ends by its state, then it leaves the list of its process, and the last one to leave
completes the termination of the process; only then is anybody woken. So the end of a thread is one
change of the machine that no scheduler sees (`Removed`), followed by wakes. The threads that end
with another one are taken out of the queues first: until their turn comes they are `Doomed`.
-/

namespace Protofire.Scheduling

open Function List Machine Option Process Thread

/-! ### The books of the processes -/

/-- **A process lists its threads that have not ended**, and numbers are given out in order. -/
structure Machine.Book (m : Machine) : Prop where
  nodup : ∀ pid process, m.processes pid = some process → process.threads.Nodup
  listed : ∀ pid process, m.processes pid = some process →
    ∀ tid, tid ∈ process.threads ↔ m.live ⟨pid, tid⟩
  owned : ∀ k v, m.view k = some v → ∃ process, m.processes k.pid = some process ∧
    k.tid < process.nextTid
  numbered : ∀ pid process, m.processes pid = some process → pid < m.nextPid

theorem Process.settled_threads {a b : Process} (h : a.settled = b.settled) : a.threads =
    b.threads :=
  congrArg (fun p => p.threads) h

variable {m m' : Machine}

theorem Calm.book (h : Calm m m') (hbo : m.Book) : m'.Book := by
  refine ⟨fun pid process hp => ?_, fun pid process hp tid => ?_, fun k v hv => ?_,
    fun pid process hp => ?_⟩
  · obtain ⟨process', hp', heq⟩ := h.exists_process hp
    rw [settled_threads heq]
    exact hbo.nodup pid process' hp'
  · obtain ⟨process', hp', heq⟩ := h.exists_process hp
    rw [settled_threads heq, h.live]
    exact hbo.listed pid process' hp' tid
  · obtain ⟨v', hv'⟩ : ∃ v', m.view k = some v' := by
      refine ne_none_iff_exists'.mp fun hno => ?_
      rw [(h.absent k).mpr hno] at hv
      cases hv
    obtain ⟨process, hp, htid⟩ := hbo.owned k v' hv'
    obtain ⟨process', hp', heq⟩ := h.exists_process' hp
    have hnx : process'.nextTid = process.nextTid := congrArg (fun p => p.nextTid) heq
    exact ⟨process', hp', hnx ▸ htid⟩
  · obtain ⟨process', hp', -⟩ := h.exists_process hp
    rw [h.nextPid]
    exact hbo.numbered pid process' hp'

/-! ### Open and closed processes -/

/-- **A process that has not ended**: it has threads, and nothing of its end has happened. -/
structure Process.Open (process : Process) (signaled : Bool) : Prop where
  state : process.state ≠ .terminated
  threads : process.threads ≠ []
  released : process.released = 0
  signaled : signaled = false
  reason : process.terminationReason = none
  reaped : process.terminationReaped = false
  reaps : process.reaps = 0

/-- **A process that has ended**: everything has happened once, and a reap succeeds if none has. -/
structure Process.Closed (process : Process) (signaled : Bool) : Prop where
  state : process.state = .terminated
  threads : process.threads = []
  released : process.released = 1
  signaled : signaled = true
  reaps : process.reaps = if process.terminationReaped then 1 else 0

/-- A process is open or closed, and the event of one that does not exist is not signalled. -/
def Machine.LifeAt (m : Machine) (pid : ℕ) : Prop :=
  match m.processes pid with
  | none => (m.events (.process pid)).signaled = false
  | some process => process.Open (m.events (.process pid)).signaled ∨
      process.Closed (m.events (.process pid)).signaled

theorem Process.settled_eq_self {process : Process} (h : process.state = .terminated) :
    process.settled = process := by
  rw [settled, if_pos h, ← h]

/-- A process that has ended is left alone. -/
theorem Calm.process_of_terminated (h : Calm m m') {pid : ℕ} {process : Process}
    (hp : m.processes pid = some process) (hst : process.state = .terminated) :
    m'.processes pid = some process := by
  obtain ⟨process', hp', heq⟩ := h.exists_process' hp
  have hst' := (settled_state heq).mpr hst
  rw [settled_eq_self hst, settled_eq_self hst'] at heq
  rw [hp', heq]

theorem Calm.lifeAt (h : Calm m m') {pid : ℕ} (hlf : m.LifeAt pid) : m'.LifeAt pid := by
  rw [LifeAt] at hlf ⊢
  rw [h.signaled]
  cases hp : m.processes pid with
  | none =>
    have : m'.processes pid = none := by
      have := h.processes pid
      rwa [hp, map_none, map_eq_none_iff] at this
    rw [hp] at hlf
    rw [this]
    exact hlf
  | some process =>
    rw [hp] at hlf
    rcases hlf with hop | hcl
    · obtain ⟨process', hp', heq⟩ := h.exists_process' hp
      rw [hp']
      refine .inl ⟨fun hs => hop.state ((settled_state heq).mp hs), ?_, ?_, hop.signaled, ?_,
        ?_, ?_⟩
      · rw [settled_threads heq]
        exact hop.threads
      · exact (congrArg (fun p => p.released) heq).trans hop.released
      · exact (congrArg (fun p => p.terminationReason) heq).trans hop.reason
      · exact (congrArg (fun p => p.terminationReaped) heq).trans hop.reaped
      · exact (congrArg (fun p => p.reaps) heq).trans hop.reaps
    · rw [h.process_of_terminated hp hcl.state]
      exact .inr hcl

/-! ### One thread ends -/

section

variable (process : Process)

/-- What `complete_termination` writes. -/
def Process.completed (reason : Option TerminationReason) : Process :=
  { process with
    state := .terminated
    terminationReason := if reason.isSome then reason else process.terminationReason
    terminationReaped := false
    released := process.released + 1 }

/-- The thread is the last one of a process that has not ended. -/
def Process.endsWith (tid : ℕ) : Bool :=
  decide (tid ∈ process.threads) && (process.threads.erase tid).isEmpty &&
    decide (process.state ≠ .terminated)

/-- The process when a thread has left. -/
def Process.without (tid : ℕ) (reason : Option TerminationReason) : Process :=
  if tid ∈ process.threads then
    let left := { process with threads := process.threads.erase tid }
    if process.endsWith tid then left.completed reason else left
  else process

end

/-- **A thread has ended, and nobody has been woken yet.** -/
structure Removed (m m' : Machine) (k : ThreadKey) (reason : Option TerminationReason) : Prop where
  cpuCount : m'.cpuCount = m.cpuCount
  contextSwitch : m'.contextSwitch = m.contextSwitch
  nextPid : m'.nextPid = m.nextPid
  cpus : m'.cpus = m.cpus
  noStop : m.NoStop → m'.NoStop
  view : ∃ p b, m'.view k = some ⟨.terminated, p, b⟩
  others : ∀ k' ≠ k, m'.view k' = m.view k'
  process : m'.processes k.pid = (m.processes k.pid).map (·.without k.tid reason)
  processes : ∀ pid ≠ k.pid, m'.processes pid = m.processes pid
  signaled : (m'.events (.process k.pid)).signaled =
    ((m.events (.process k.pid)).signaled || (m.processes k.pid).any (·.endsWith k.tid))
  signaled_of_ne : ∀ pid ≠ k.pid,
    (m'.events (.process pid)).signaled = (m.events (.process pid)).signaled
  heard : m.Heard → m'.Heard

section Terminate

variable {m : Machine} {c : ℕ} {k : ThreadKey} {reason : Option TerminationReason}

/-- The state of a thread that ends. -/
def Thread.ended (t : Thread) : Thread := { t with state := .terminated }

/-- The books of a machine without a thread. -/
def Machine.strike (m : Machine) (k : ThreadKey) (process : Process)
    (reason : Option TerminationReason) : Machine :=
  { m with processes := update m.processes k.pid (some (process.without k.tid reason)) }

variable {process : Process}

theorem finishThreadTermination_eq (hp : m.processes k.pid = some process) :
    m.finishThreadTermination c k reason =
      if process.endsWith k.tid then (m.strike k process reason).signal c (.process k.pid)
      else m.strike k process reason := by
  rw [finishThreadTermination, hp]
  dsimp only
  by_cases hmem : k.tid ∉ process.threads
  · have hwo : process.without k.tid reason = process := if_neg hmem
    rw [if_pos hmem, if_neg (by simp [endsWith, hmem]), strike, hwo, ← hp, update_eq_self]
  have hmem' : k.tid ∈ process.threads := not_not.mp hmem
  have hen : ((process.threads.erase k.tid).isEmpty && decide (process.state ≠ .terminated)) =
      process.endsWith k.tid := by
    simp [endsWith, hmem']
  rw [if_neg hmem, hen]
  split
  · rename_i h
    rw [completeTermination]
    simp [modifyProcess, strike, without, completed, hp, hmem', h]
  · rename_i h
    simp [modifyProcess, strike, without, hp, hmem', h]

/-- The state of the thread, the list of its process and, for the last one, the end of the process.
-/
def Machine.remove (m : Machine) (k : ThreadKey) (process : Process)
    (reason : Option TerminationReason) : Machine :=
  { (m.modifyThread k ended).strike k process reason with
    events := if process.endsWith k.tid then (m.markSignaled (.process k.pid)).events else m.events
      }

theorem removed_remove (hlv : m.live k) (hp : m.processes k.pid = some process) :
    Removed m (m.remove k process reason) k reason := by
  have hview : (m.remove k process reason).view = (m.modifyThread k ended).view := rfl
  have hevs : (m.remove k process reason).events =
    if process.endsWith k.tid then (m.markSignaled (.process k.pid)).events else m.events := rfl
  refine ⟨rfl, rfl, rfl, rfl, fun hsp => ?_, ?_, fun k' hk => ?_, ?_, fun pid hne => ?_, ?_,
    fun pid hne => ?_, fun hh e => ?_⟩
  · exact noStop_modifyThread (fun _ h => h) hsp
  · obtain ⟨v, hv, -⟩ := hlv
    obtain ⟨t, ht, -⟩ := map_eq_some_iff.mp hv
    refine ⟨t.priority, t.stopPending, ?_⟩
    rw [hview, view_modifyThread, ht]
    rfl
  · rw [hview, view_modifyThread_of_ne _ hk]
  · rw [hp]
    exact update_self ..
  · exact update_of_ne hne ..
  · rw [hevs, hp, any_some]
    split
    · rename_i h
      rw [Machine.markSignaled, events_modifyEvent, h, Bool.or_true]
    · rename_i h
      rw [Bool.eq_false_iff.mpr h, Bool.or_false]
  · rw [hevs]
    split
    · rw [markSignaled, events_modifyEvent_of_ne _ fun h => hne (EventRef.process.inj h)]
    · rfl
  · rw [hevs]
    split
    · by_cases he : e = .process k.pid
      · rw [he, markSignaled, events_modifyEvent]
        exact fun _ => rfl
      · rw [markSignaled, events_modifyEvent_of_ne _ he]
        exact hh e
    · exact hh e

theorem gentle_finishThreadTermination (hc : c < m.cpuCount) (hsp : m.NoStop)
    (hp : m.processes k.pid = some process) : Gentle (m.remove k process reason)
      ((m.modifyThread k ended).finishThreadTermination c k reason) := by
  have hp' : (m.modifyThread k ended).processes k.pid = some process := hp
  have hsp' : ((m.modifyThread k ended).strike k process reason).NoStop :=
    noStop_modifyThread (fun _ h => h) hsp
  rw [finishThreadTermination_eq hp', remove]
  split
  · exact gentle_signal hsp' hc (.process k.pid)
  · exact .refl _

/-- **The end of a thread is one change of the books, and then wakes.** -/
theorem terminateThread_spec (hc : c < m.cpuCount) (hsp : m.NoStop) (hlv : m.live k)
    (hp : m.processes k.pid = some process) : Removed m (m.remove k process reason) k reason ∧
      Gentle (m.remove k process reason) (m.terminateThread c k reason) := by
  refine ⟨removed_remove hlv hp, ?_⟩
  have hany : (m.threads k).any (·.state ≠ .terminated) = true := by
    obtain ⟨v, hv, hst⟩ := hlv
    obtain ⟨t, ht, rfl⟩ := map_eq_some_iff.mp hv
    simpa [ht, Thread.view] using hst
  have hfin : Gentle (m.remove k process reason)
      ((m.modifyThread k ended).finishThreadTermination c k reason) :=
    gentle_finishThreadTermination hc hsp hp
  rw [terminateThread, if_pos hany]
  have hcpu := hfin.calm.cpuCount
  refine (hfin.trans (gentle_signal_thread (hfin.calm.noStop ?_) (hcpu ▸ hc) k)).trans ?_
  · exact (removed_remove hlv hp).noStop hsp
  refine Quiet.gentle ?_ ⟨fun _ => rfl⟩
  exact quiet_modifyThread fun _ => rfl

theorem terminateThread_of_not_live (h : ¬m.live k) : m.terminateThread c k reason = m := by
  refine if_neg fun hany => h ?_
  obtain ⟨t, ht, hst⟩ := (Option.any_eq_true _ _).mp hany
  refine ⟨t.view, ?_, by simpa [Thread.view] using hst⟩
  rw [Machine.view, ht]
  rfl

end Terminate

/-! ### Many threads end -/

/-- A thread that is to end: it is not held back and, on a machine with one CPU, does not run. -/
structure Machine.Doomed (m : Machine) (k : ThreadKey) : Prop where
  live : m.live k
  held : ¬m.heldBack k
  runs : m.cpuCount = 1 → ∀ c, ¬m.runs c k

/-- **The threads of a set have ended.** -/
structure Ends (m m' : Machine) (S : ThreadKey → Prop) : Prop where
  cpuCount : m'.cpuCount = m.cpuCount
  contextSwitch : m'.contextSwitch = m.contextSwitch
  nextPid : m'.nextPid = m.nextPid
  current : SameCurrent m m'
  dead : ∀ k, S k → ¬m'.live k
  live : ∀ k, ¬S k → (m'.live k ↔ m.live k)
  held : ∀ k, m'.heldBack k ↔ m.heldBack k
  alive : ∀ pid, m'.alive pid → m.alive pid
  placed : ∀ k, (S k → ¬m.live k) → m.Placed k → m'.Placed k
  ended : ∀ k, S k → m.Doomed k → m'.Placed k
  frozen : ∀ k, ¬S k → ¬m.alive k.pid → Kept m m' k
  noStop : m.NoStop → m'.NoStop
  book : m.Book → m'.Book
  heard : m.Heard → m'.Heard
  life : m.Book → ∀ pid, m.LifeAt pid → m'.LifeAt pid
  struck : ∀ pid process, m.processes pid = some process → process.state = .terminated →
    ∃ threads, m'.processes pid = some { process with threads := threads }
  books : ∀ pid, (∀ k, S k → k.pid ≠ pid) →
    (m'.processes pid).map settled = (m.processes pid).map settled

section Ends

variable {m m' m'' : Machine} {S T : ThreadKey → Prop} {k : ThreadKey} {c : ℕ}

theorem Ends.doomed (h : Ends m m' S) (hk : ¬S k) (hd : m.Doomed k) : m'.Doomed k := by
  refine ⟨(h.live k hk).mpr hd.live, fun hh => hd.held ((h.held k).mp hh), fun hone c hr => ?_⟩
  refine hd.runs (h.cpuCount ▸ hone) c ?_
  rwa [runs, h.current.current] at hr

theorem Ends.not_live (h : Ends m m' S) (hk : ¬m.live k) : ¬m'.live k := by
  by_cases hS : S k
  · exact h.dead k hS
  · rwa [h.live k hS]

theorem Gentle.ends (h : Gentle m m') : Ends m m' fun _ => False :=
  ⟨h.calm.cpuCount, h.calm.contextSwitch, h.calm.nextPid, h.current, fun _ hk => hk.elim,
    fun k _ => h.calm.live k, h.calm.heldBack, fun pid => (h.calm.alive pid).mp,
    fun k _ => h.placed k, fun _ hk => hk.elim, fun k _ => h.frozen k, h.calm.noStop, h.calm.book,
    h.calm.heard, fun _ _ => h.calm.lifeAt,
    fun _ process hp hst => ⟨process.threads, h.calm.process_of_terminated hp hst⟩,
    fun pid _ => h.calm.processes pid⟩

theorem Ends.trans (h : Ends m m' S) (h' : Ends m' m'' T) : Ends m m'' fun k => S k ∨ T k := by
  refine ⟨h'.cpuCount.trans h.cpuCount, h'.contextSwitch.trans h.contextSwitch,
    h'.nextPid.trans h.nextPid, h.current.trans h'.current, fun k hk => ?_, fun k hk => ?_,
    fun k => (h'.held k).trans (h.held k), fun pid hp => h.alive pid (h'.alive pid hp),
    fun k hk hp => ?_, fun k hk hd => ?_, fun k hk hde => ?_, fun hs => h'.noStop (h.noStop hs),
    fun hb => h'.book (h.book hb), fun hh => h'.heard (h.heard hh),
    fun hb pid hl => h'.life (h.book hb) pid (h.life hb pid hl), fun pid process hp hs => ?_,
    fun pid hk => (h'.books pid fun k hT => hk k (.inr hT)).trans
      (h.books pid fun k hS => hk k (.inl hS))⟩
  · rcases hk with hk | hk
    · exact h'.not_live (h.dead k hk)
    · exact h'.dead k hk
  · rw [not_or] at hk
    exact (h'.live k hk.2).trans (h.live k hk.1)
  · refine h'.placed k (fun hT => h.not_live (hk (.inr hT)))
      (h.placed k (fun hS => hk (.inl hS)) hp)
  · by_cases hS : S k
    · exact h'.placed k (fun _ => h.dead k hS) (h.ended k hS hd)
    · exact h'.ended k (hk.resolve_left hS) (h.doomed hS hd)
  · rw [not_or] at hk
    exact (h.frozen k hk.1 hde).trans (h'.frozen k hk.2 fun ha => hde (h.alive _ ha))
  · obtain ⟨threads, hp'⟩ := h.struck pid process hp hs
    obtain ⟨threads', hp''⟩ := h'.struck pid { process with threads := threads } hp' hs
    exact ⟨threads', hp''⟩

/-- Threads that have ended before may be counted in. -/
theorem Ends.of_dead (h : Ends m m' fun _ => False) (hS : ∀ k, S k → ¬m.live k) : Ends m m' S :=
  ⟨h.cpuCount, h.contextSwitch, h.nextPid, h.current, fun k hk => h.not_live (hS k hk),
    fun k _ => h.live k id, h.held, h.alive, fun k _ => h.placed k nofun,
    fun k hk hd => absurd hd.live (hS k hk), fun k _ => h.frozen k id, h.noStop, h.book, h.heard,
    h.life, h.struck, fun pid _ => h.books pid nofun⟩

theorem Ends.congr (h : Ends m m' S) (hST : ∀ k, S k ↔ T k) : Ends m m' T := by
  have : S = T := funext fun k => propext (hST k)
  exact this ▸ h

end Ends

section Terminate

variable {m m' : Machine} {c : ℕ} {k : ThreadKey} {reason : Option TerminationReason}

variable (process : Process) (tid : ℕ)

section

variable (reason : Option TerminationReason)

theorem threads_without : (process.without tid reason).threads = process.threads.erase tid := by
  rw [without]
  split
  · dsimp only
    split <;> rfl
  rename_i hmem
  rw [erase_of_not_mem hmem]

theorem state_without : (process.without tid reason).state =
      if process.endsWith tid then .terminated else process.state := by
  rw [without]
  split
  · dsimp only
    split <;> rfl
  · rename_i hmem
    rw [if_neg (by simp [endsWith, hmem])]

theorem rest_without : (process.without tid reason).suspendedThread = process.suspendedThread ∧
      (process.without tid reason).nextTid = process.nextTid := by
  rw [without]
  split
  · dsimp only
    split <;> exact ⟨rfl, rfl⟩
  · exact ⟨rfl, rfl⟩

end

section Removal

variable (h : Removed m m' k reason)

include h

/-- Only the last thread of its process ends it. -/
theorem Removed.alive (hbo : m.Book) (pid : ℕ) : (m'.alive pid → m.alive pid) ∧
      ∀ k' ≠ k, k'.pid = pid → m.live k' → m.alive pid → m'.alive pid := by
  by_cases hpid : pid = k.pid
  · constructor
    · rintro ⟨process', hp', hst⟩
      rw [hpid, h.process, map_eq_some_iff] at hp'
      obtain ⟨process, hp, rfl⟩ := hp'
      refine ⟨process, hpid ▸ hp, fun hs => hst ?_⟩
      rw [state_without, hs]
      split <;> rfl
    rintro k' hne rfl hlv ⟨process, hp, hst⟩
    refine ⟨process.without k.tid reason, ?_, ?_⟩
    · rw [hpid, h.process, ← hpid, hp]
      rfl
    have hmem : k'.tid ∈ process.threads := (hbo.listed _ _ hp k'.tid).mpr hlv
    have htid : k'.tid ≠ k.tid := by
      intro ht
      cases k'
      simp_all
    have hle : k'.tid ∈ process.threads.erase k.tid := (mem_erase_of_ne htid).mpr hmem
    rw [state_without, if_neg]
    · exact hst
    rw [Process.endsWith, Bool.and_eq_true, Bool.and_eq_true, List.isEmpty_iff]
    rintro ⟨⟨-, hnil⟩, -⟩
    rw [hnil] at hle
    cases hle
  · have hsm : m'.alive pid ↔ m.alive pid := by
      rw [Machine.alive, Machine.alive, h.processes pid hpid]
    exact ⟨hsm.mp, fun _ _ _ _ => hsm.mpr⟩

theorem Removed.held (k' : ThreadKey) : m'.heldBack k' ↔ m.heldBack k' := by
  rw [heldBack, heldBack]
  by_cases hpid : k'.pid = k.pid
  · rw [hpid, h.process]
    cases m.processes k.pid with
    | none => exact Iff.rfl
    | some process => simp [(rest_without process k.tid reason).1]
  · rw [h.processes _ hpid]

theorem Removed.live {k' : ThreadKey} (hk : k' ≠ k) : m'.live k' ↔ m.live k' := by
  rw [Machine.live, Machine.live, h.others k' hk]

theorem Removed.not_live : ¬m'.live k := by
  rintro ⟨v, hv, hst⟩
  obtain ⟨p, b, hview⟩ := h.view
  cases hview.symm.trans hv
  exact hst rfl

theorem Removed.book (hlv : m.live k) (hbo : m.Book) : m'.Book := by
  have hproc : ∀ pid process', m'.processes pid = some process' → ∃ process,
      m.processes pid = some process ∧ process'.nextTid = process.nextTid ∧
      process'.threads = if pid = k.pid then process.threads.erase k.tid else process.threads := by
    intro pid process' hp'
    by_cases hpid : pid = k.pid
    · rw [hpid, h.process, map_eq_some_iff] at hp'
      obtain ⟨process, hp, rfl⟩ := hp'
      refine ⟨process, hpid ▸ hp, (rest_without ..).2, ?_⟩
      rw [if_pos hpid, threads_without]
    · rw [h.processes pid hpid] at hp'
      exact ⟨process', hp', rfl, (if_neg hpid).symm⟩
  refine ⟨fun pid process' hp' => ?_, fun pid process' hp' tid => ?_, fun k' v hv => ?_,
    fun pid process' hp' => ?_⟩
  · obtain ⟨process, hp, -, hthr⟩ := hproc pid process' hp'
    rw [hthr]
    split
    · exact (hbo.nodup pid process hp).erase _
    · exact hbo.nodup pid process hp
  · obtain ⟨process, hp, -, hthr⟩ := hproc pid process' hp'
    have hli := hbo.listed pid process hp tid
    rw [hthr]
    by_cases hk : (⟨pid, tid⟩) = k
    · rw [hk]
      refine iff_of_false ?_ h.not_live
      rw [if_pos (congrArg ThreadKey.pid hk), ← congrArg ThreadKey.tid hk]
      exact (hbo.nodup pid process hp).not_mem_erase
    rw [h.live hk, ← hli]
    split
    · rename_i hpid
      refine mem_erase_of_ne fun ht => hk ?_
      rw [hpid, ht]
    · rfl
  · have hv' : ∃ v', m.view k' = some v' := by
      by_cases hk : k' = k
      · obtain ⟨v', hv', -⟩ := hlv
        exact ⟨v', hk ▸ hv'⟩
      · exact ⟨v, h.others k' hk ▸ hv⟩
    obtain ⟨v', hv'⟩ := hv'
    obtain ⟨process, hp, htid⟩ := hbo.owned k' v' hv'
    by_cases hpid : k'.pid = k.pid
    · refine ⟨process.without k.tid reason, ?_, ?_⟩
      · rw [hpid, h.process, ← hpid, hp]
        rfl
      · rw [(rest_without ..).2]
        exact htid
    · exact ⟨process, (h.processes _ hpid).trans hp, htid⟩
  · obtain ⟨process, hp, -⟩ := hproc pid process' hp'
    rw [h.nextPid]
    exact hbo.numbered pid process hp

/-- **The last thread closes its process; another one leaves it open.** -/
theorem Removed.lifeAt (hlv : m.live k) (hbo : m.Book) {pid : ℕ}
    (hlf : m.LifeAt pid) : m'.LifeAt pid := by
  by_cases hpid : pid = k.pid
  · obtain ⟨v, hv, -⟩ := id hlv
    obtain ⟨process, hp, -⟩ := hbo.owned k v hv
    have hmem : k.tid ∈ process.threads := (hbo.listed _ _ hp k.tid).mpr hlv
    rw [hpid, LifeAt, hp] at hlf
    rw [hpid, LifeAt, h.process, h.signaled, hp, map_some, any_some]
    rcases hlf with hop | hcl
    · rw [hop.signaled]
      cases hen : process.endsWith k.tid with
      | true =>
        have hnil : process.threads.erase k.tid = [] := by
          rw [Process.endsWith, Bool.and_eq_true, Bool.and_eq_true, List.isEmpty_iff] at hen
          exact hen.1.2
        have hwo : process.without k.tid reason =
            { process with threads := process.threads.erase k.tid }.completed reason := by
          rw [without, if_pos hmem, if_pos hen]
        rw [hwo]
        exact .inr ⟨rfl, hnil, congrArg (· + 1) hop.released, rfl, hop.reaps⟩
      | false =>
        have hle : process.threads.erase k.tid ≠ [] := by
          intro hnil
          simp [endsWith, hmem, hnil, hop.state] at hen
        have hwo : process.without k.tid reason =
            { process with threads := process.threads.erase k.tid } := by
          rw [without, if_pos hmem]
          exact if_neg (by simp [hen])
        rw [hwo]
        exact .inl ⟨hop.state, hle, hop.released, rfl, hop.reason, hop.reaped, hop.reaps⟩
    · rw [hcl.threads] at hmem
      cases hmem
  · rw [LifeAt] at hlf ⊢
    rw [h.processes pid hpid, h.signaled_of_ne pid hpid]
    exact hlf

/-- A process that a fatal signal has ended only loses a thread. -/
theorem Removed.struck {pid : ℕ} {process : Process}
    (hp : m.processes pid = some process) (hst : process.state = .terminated) :
    ∃ threads, m'.processes pid = some { process with threads := threads } := by
  by_cases hpid : pid = k.pid
  · refine ⟨process.threads.erase k.tid, ?_⟩
    rw [hpid] at hp
    rw [hpid, h.process, hp, map_some]
    have hen : process.endsWith k.tid = false := by
      simp [endsWith, hst]
    rw [without]
    split
    · rw [if_neg (by simp [hen])]
    · rename_i hmem
      rw [erase_of_not_mem hmem]
  · exact ⟨process.threads, (h.processes pid hpid).trans hp⟩

theorem Removed.ends (hlv : m.live k) (hbo : m.Book) : Ends m m' (· = k) := by
  have hcur : SameCurrent m m' := ⟨fun c => by rw [h.cpus]⟩
  refine ⟨h.cpuCount, h.contextSwitch, h.nextPid, hcur, ?_, fun k' hk => h.live hk, h.held,
    fun pid => (h.alive hbo pid).1, fun k' hk hp => ?_, ?_, fun k' hk _ => ?_, h.noStop,
    fun _ => h.book hlv hbo, h.heard, fun _ _ => h.lifeAt hlv hbo, fun _ _ => h.struck,
    fun pid hk => congrArg _ (h.processes pid fun heq => hk k rfl heq.symm)⟩
  · rintro k' rfl
    exact h.not_live
  · have hne : k' ≠ k := fun he => hk he (he ▸ hlv)
    exact hp.kept (.of_cpus h.cpus (h.others k' hne)) h.cpuCount (h.held k')
      ((h.alive hbo k'.pid).2 k' hne rfl)
  · rintro k' rfl hd
    obtain ⟨p, b, hview⟩ := h.view
    refine .terminated p b hview (fun hone c hr => hd.runs (h.cpuCount ▸ hone) c ?_)
      fun hh => hd.held ((h.held _).mp hh)
    rwa [runs, h.cpus] at hr
  · exact .of_cpus h.cpus (h.others k' hk)

end Removal

/-- **One thread ends.** -/
theorem ends_terminateThread (hc : c < m.cpuCount) (hsp : m.NoStop) (hbo : m.Book)
    (k : ThreadKey)
    (reason : Option TerminationReason) : Ends m (m.terminateThread c k reason) (· = k) := by
  by_cases hlv : m.live k
  · obtain ⟨v, hv, -⟩ := id hlv
    obtain ⟨process, hp, -⟩ := hbo.owned k v hv
    obtain ⟨hrem, hgen⟩ := terminateThread_spec hc hsp hlv hp
    exact ((hrem.ends hlv hbo).trans hgen.ends).congr fun k' => by rw [or_false]
  · rw [terminateThread_of_not_live hlv]
    exact (Gentle.refl m).ends.of_dead fun k' hk => hk ▸ hlv

/-- **Threads end one after the other.** -/
theorem ends_terminateAll (hc : c < m.cpuCount) (hsp : m.NoStop) (hbo : m.Book)
    (ks : List ThreadKey) : Ends m (m.terminateAll c ks) (· ∈ ks) := by
  induction ks generalizing m with
  | nil => exact (Gentle.refl m).ends.congr fun k => by simp
  | cons k ks ih =>
    have hk := ends_terminateThread hc hsp hbo k none
    have hre := ih (hk.cpuCount ▸ hc) (hk.noStop hsp) (hk.book hbo)
    exact (hk.trans hre).congr fun k' => mem_cons.symm

end Terminate

end Protofire.Scheduling
