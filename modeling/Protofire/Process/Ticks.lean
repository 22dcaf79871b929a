import Protofire.Process.Running

/-!
# Ticks

A tick wakes the threads whose time is over, raises those that have waited too long and takes the
raised ones down again. Both work on a whole queue: the entries leave it together and are placed one
by one, so in between a thread is in no place. For the waiters this is `Limbo`; the threads that
change their priority are followed by counting them.
-/

namespace Protofire.Scheduling

open Bool List Machine Option Queues Scheduler View

/-! ### Waiters whose time is over -/

section Expiry

variable {m : Machine} {c cpu : ℕ} {k : ThreadKey}

/-- A thread that waits and is registered nowhere. -/
structure Machine.Limbo (m : Machine) (k : ThreadKey) : Prop where
  view : ∃ p, m.view k = some ⟨.waiting, p, false⟩
  queued : ∀ c' p', m.queued c' p' k = 0
  parked : m.cpuCount = 1 → ∀ c', m.parked c' k = 0
  runs : ∀ c', ¬m.runs c' k
  held : ¬m.heldBack k
  alive : m.alive k.pid

theorem Machine.Limbo.kept {m' : Machine} (h : m.Limbo k) (hk : Kept m m' k) (hc : Calm m m') :
    m'.Limbo k := by
  obtain ⟨p, hv⟩ := h.view
  refine ⟨⟨p, hk.view.trans hv⟩, fun c p' => ?_, fun hone c => ?_,
    fun c hr => h.runs c ((hk.runs c).mp hr), fun hh => h.held ((hc.heldBack k).mp hh),
    (hc.alive k.pid).mpr h.alive⟩
  · rcases hk.queued with hq | ⟨v, hv', hst⟩
    · rw [hq, h.queued]
    cases hv.symm.trans hv'
    cases hst
  · exact Nat.eq_zero_of_le_zero (h.parked (hc.cpuCount ▸ hone) c ▸ hk.parked_le c)

theorem quiet_removeWaiter (m : Machine) (w : TimedWaiter) : Quiet m (m.removeWaiter w) := by
  have h := quiet_pruneWaiters m w.cleanup fun k => k ≠ w.thread
  rw [removeWaiter]
  cases hw : w.cleanup with
  | none => exact .refl m
  | some e =>
    rw [hw] at h
    exact h

/-- A thread in limbo is ready and in no place when it is woken. -/
theorem Machine.Limbo.loose {m' : Machine} (h : m.Limbo k) (hsp : m.NoStop)
    (hw : m.wakeWaiter k = some m') : ∃ p, m'.Loose p k := by
  obtain ⟨htou, hcp, -, p, -, hview⟩ := wakeWaiter_spec hsp hw
  refine ⟨p, hview, fun c' p' => ?_, fun hone c' => ?_, fun c' hr => h.runs c' ?_,
    fun hh => h.held ((htou.calm.heldBack k).mp hh), (htou.calm.alive k.pid).mpr h.alive⟩
  · rw [Machine.queued, hcp]
    exact h.queued c' p'
  · rw [Machine.parked, hcp]
    exact h.parked (htou.calm.cpuCount ▸ hone) c'
  · rwa [Machine.runs, hcp] at hr

theorem wakeWaiter_eq_some {p : ThreadPriority} (hv : m.view k = some ⟨.waiting, p, false⟩)
    (halv : m.alive k.pid) : ∃ m', m.wakeWaiter k = some m' := by
  obtain ⟨t, ht, hview⟩ := map_eq_some_iff.mp hv
  have hst : t.state = .waiting := congrArg state hview
  have hsp : t.stopPending = false := congrArg stopPending hview
  have hrev : m.isRevivable k = true := isRevivable_iff.mpr ⟨⟨_, hv, nofun⟩, halv⟩
  rw [wakeWaiter, if_pos (by simp [ht, hst]), if_neg (by simp [ht, hsp]), if_pos hrev]
  exact ⟨_, rfl⟩

/-- What follows when a waiter has become ready: it is queued, and a CPU is asked to reschedule. -/
def Machine.placeElapsed (m : Machine) (c cpu affinity target : ℕ) (k : ThreadKey) : Machine :=
  let m := m.enqueueReadyThread target k
  if affinity = c then m.maybeSetNeedResched cpu k
  else if affinity < m.cpuCount then m.modifyCpu affinity fun s => { s with needResched := true }
  else m

theorem quiet_placeElapsed (m : Machine) (c cpu affinity target : ℕ) (k : ThreadKey) :
    Quiet (m.enqueueReadyThread target k) (m.placeElapsed c cpu affinity target k) := by
  rw [placeElapsed]
  split
  · exact quiet_maybeSetNeedResched ..
  split
  · exact quiet_modifyCpu rfl rfl rfl
  · exact .refl _

/-- The CPU that a waiter goes to. -/
def Machine.elapsedTarget (m : Machine) (c cpu : ℕ) (k : ThreadKey) : ℕ :=
  let affinity := ((m.threads k).map (·.cpuAffinity)).getD 0
  if affinity ≠ c ∧ affinity < m.cpuCount then affinity else cpu

theorem wakeElapsed_eq (w : TimedWaiter) : m.wakeElapsed c cpu w =
    match (m.removeWaiter w).wakeWaiter w.thread with
    | none => m.removeWaiter w
    | some m' =>
      if !m'.isReady w.thread then m'
      else m'.placeElapsed c cpu (((m.threads w.thread).map (·.cpuAffinity)).getD 0)
        (m.elapsedTarget c cpu w.thread) w.thread := rfl

theorem touches_wakeElapsed (hsp : m.NoStop) (c cpu : ℕ) (w : TimedWaiter) :
    Touches m (m.wakeElapsed c cpu w) w.thread := by
  have hrem := quiet_removeWaiter m w
  have hsp' := hrem.calm.noStop hsp
  rw [wakeElapsed_eq]
  split
  · exact hrem.touches _
  rename_i m' hw
  have hwake := (hrem.touches _).trans (wakeWaiter_spec hsp' hw).1
  split
  · exact hwake
  · exact hwake.trans ((touches_enqueueReadyThread ..).trans ((quiet_placeElapsed ..).touches _))

theorem view_enqueueReadyThread (m : Machine) (c : ℕ) (k k' : ThreadKey) :
    (m.enqueueReadyThread c k).view k' = m.view k' := by
  rw [enqueueReadyThread]
  split <;> rfl

variable {w : TimedWaiter}

/-- **A waiter whose time is over is ready and in its queue.** -/
theorem Machine.Limbo.placed_wakeElapsed (h : m.Limbo w.thread) (hsp : m.NoStop)
    (hcpu : cpu < m.cpuCount) : (m.wakeElapsed c cpu w).Placed w.thread ∧
      ∃ p, (m.wakeElapsed c cpu w).view w.thread = some ⟨.ready, p, false⟩ := by
  have hrem := quiet_removeWaiter m w
  have hsp' := hrem.calm.noStop hsp
  have hlim := h.kept (hrem.kept _) hrem.calm
  obtain ⟨p, hv⟩ := hlim.view
  obtain ⟨m', hw⟩ := wakeWaiter_eq_some hv hlim.alive
  obtain ⟨q, hloo⟩ := hlim.loose hsp' hw
  have hca := hrem.calm.trans (wakeWaiter_spec hsp' hw).1.calm
  have htgt : m.elapsedTarget c cpu w.thread < m'.cpuCount := by
    rw [elapsedTarget, hca.cpuCount]
    split
    · rename_i h
      exact h.2
    · exact hcpu
  rw [wakeElapsed_eq, hw]
  dsimp only
  rw [if_neg (by simp [hloo.isReady])]
  have hqt := quiet_placeElapsed m' c cpu (((m.threads w.thread).map (·.cpuAffinity)).getD 0)
    (m.elapsedTarget c cpu w.thread) w.thread
  refine ⟨(placed_enqueueReadyThread htgt hloo).calm (hqt.kept _) hqt.calm, q, ?_⟩
  rw [(hqt.kept _).view, view_enqueueReadyThread, hloo.view]

/-- A thread that does not wait is left alone. -/
theorem quiet_wakeElapsed (hsp : m.NoStop)
    (hview : ∀ v, m.view w.thread = some v → v.state ≠ .waiting) :
    Quiet m (m.wakeElapsed c cpu w) := by
  have hrem := quiet_removeWaiter m w
  rw [wakeElapsed_eq]
  cases hw : (m.removeWaiter w).wakeWaiter w.thread with
  | none => exact hrem
  | some m' =>
    obtain ⟨-, -, -, p, hv, -⟩ := wakeWaiter_spec (hrem.calm.noStop hsp) hw
    rw [(hrem.kept _).view] at hv
    exact absurd rfl (hview _ hv)

/-- The loop over the waiters whose time is over. Each of those that are left is in limbo, unless it
was woken under another entry. -/
theorem settles_wakeElapsed (hsp : m.NoStop) (hcpu : cpu < m.cpuCount) (ws : List TimedWaiter)
    (hplaced : ∀ k, m.Placed k ∨ (∃ w ∈ ws, w.thread = k) ∧ m.Limbo k)
    (hws : ∀ w ∈ ws, ∀ v, m.view w.thread = some v → v.state = .waiting → m.Limbo w.thread) :
    Settles m (ws.foldl (fun m w => m.wakeElapsed c cpu w) m) := by
  induction ws generalizing m with
  | nil => exact ⟨.refl m, fun k => (hplaced k).resolve_right fun h => by simpa using h.1⟩
  | cons w ws ih =>
    have htou := touches_wakeElapsed hsp c cpu w
    have hse : (m.wakeElapsed c cpu w).Placed w.thread ∧
        ∀ v, (m.wakeElapsed c cpu w).view w.thread = some v → v.state ≠ .waiting := by
      by_cases hlim : m.Limbo w.thread
      · obtain ⟨hp, p, hview⟩ := hlim.placed_wakeElapsed hsp hcpu
        refine ⟨hp, fun v hv => ?_⟩
        cases hview.symm.trans hv
        exact nofun
      have hp := (hplaced w.thread).resolve_right fun h => hlim h.2
      have hview : ∀ v, m.view w.thread = some v → v.state ≠ .waiting :=
        fun v hv hwait => hlim (hws w mem_cons_self v hv hwait)
      have hqt : Quiet m (m.wakeElapsed c cpu w) := quiet_wakeElapsed hsp hview
      exact ⟨hp.calm (hqt.kept _) hqt.calm, fun v hv =>
        hview v ((hqt.kept _).view.symm.trans hv)⟩
    have hre := ih (htou.calm.noStop hsp)
      (htou.calm.cpuCount ▸ hcpu) (fun k => ?_) (fun w' hw' v hv hwait => ?_)
    · exact ⟨htou.calm.trans hre.calm, hre.placed⟩
    · by_cases hk : k = w.thread
      · exact .inl (hk ▸ hse.1)
      refine (hplaced k).imp (fun h => h.calm (htou.kept k hk) htou.calm) ?_
      rintro ⟨⟨w', hw', rfl⟩, hlim⟩
      refine ⟨⟨w', ?_, rfl⟩, hlim.kept (htou.kept _ hk) htou.calm⟩
      exact (mem_cons.mp hw').resolve_left fun h => hk (h ▸ rfl)
    · by_cases hk : w'.thread = w.thread
      · -- this thread was woken under the entry `w`
        rw [hk] at hv
        exact absurd hwait (hse.2 v hv)
      · rw [(htou.kept _ hk).view] at hv
        exact (hws w' (mem_cons_of_mem _ hw') v hv hwait).kept (htou.kept _ hk) htou.calm

theorem Machine.Placed.isActive (h : m.Placed k) {v : View} (hv : m.view k = some v)
    (hst : v.state = .waiting) : m.isActiveWaiter k = true := by
  cases h with
  | waiting p c view online queued pos parked runs held alive =>
    obtain ⟨t, ht, hview⟩ := map_eq_some_iff.mp view
    have hs : t.state = .waiting := congrArg state hview
    obtain ⟨process, hp, hs'⟩ := alive
    simp [isActiveWaiter, ht, hs, hp, hs']
  | absent view => exact nomatch hv.symm.trans view
  | ready p c view | running p c view | held p view | terminated p b view =>
    cases hv.symm.trans view; cases hst

/-- The entries that stay registered on a CPU in a pass over its waiting queue. -/
def Machine.stillParked (m : Machine) (ticks cpu : ℕ) : List TimedWaiter :=
  (swapTake (m.hasElapsed ticks)
    (swapTake (fun w => !m.parkedWaiterIsActive w) (m.cpus cpu).waitingQueue).2).2

/-- The entries whose time is over. -/
def Machine.elapsed (m : Machine) (ticks cpu : ℕ) : List TimedWaiter :=
  (swapTake (m.hasElapsed ticks)
    (swapTake (fun w => !m.parkedWaiterIsActive w) (m.cpus cpu).waitingQueue).2).1

variable {ticks : ℕ}

theorem mem_elapsed : w ∈ m.elapsed ticks cpu ↔
    (w ∈ (m.cpus cpu).waitingQueue ∧ m.isActiveWaiter w.thread = true) ∧
      m.hasElapsed ticks w = true := by
  rw [elapsed, mem_swapTake_taken, mem_swapTake_kept, not_eq_false', parkedWaiterIsActive]

theorem countP_stillParked (ticks : ℕ) (k : ThreadKey) :
    (m.stillParked ticks cpu).countP (·.thread = k) = (m.cpus cpu).waitingQueue.countP fun w =>
        (decide (w.thread = k) && !m.hasElapsed ticks w) && m.isActiveWaiter w.thread := by
  rw [stillParked, (swapTake_perm _ _).2.countP_eq, countP_filter,
    (swapTake_perm _ _).2.countP_eq, countP_filter]
  simp [parkedWaiterIsActive]

theorem countP_stillParked_le (ticks : ℕ) (k : ThreadKey) :
    (m.stillParked ticks cpu).countP (·.thread = k) ≤ m.parked cpu k := by
  rw [countP_stillParked]
  refine countP_mono_left fun w _ h => ?_
  simp only [and_eq_true] at h
  exact h.1.1

/-- Whether a waiter's time is over depends on its thread. -/
theorem hasElapsed_congr {w' : TimedWaiter} (h : w.thread = w'.thread) :
    m.hasElapsed ticks w = m.hasElapsed ticks w' := by
  rw [hasElapsed, hasElapsed, h]

/-- A waiter whose time is over is taken out of the queue before it is woken. -/
theorem limbo_of_elapsed (hcpu : cpu < m.cpuCount) (hplaced : m.Placed w.thread)
    (hw : w ∈ m.elapsed ticks cpu) :
    (m.modifyCpu cpu fun s => { s with waitingQueue := m.stillParked ticks cpu }).Limbo
      w.thread := by
  obtain ⟨⟨-, hact⟩, helap⟩ := mem_elapsed.mp hw
  rw [isActiveWaiter, and_eq_true] at hact
  obtain ⟨t, ht, hst⟩ := (any_eq_true _ _).mp hact.1
  have hview : m.view w.thread = some t.view := by
    rw [view, ht]
    rfl
  have hst : t.view.state = .waiting := by simpa [Thread.view] using hst
  have hcp : ∀ c', (m.modifyCpu cpu fun s =>
      { s with waitingQueue := m.stillParked ticks cpu }).cpus c' =
      if c' = cpu then { m.cpus c' with waitingQueue := m.stillParked ticks cpu } else m.cpus
        c' := by
    intro c'
    split
    · rename_i hc
      rw [hc, cpus_modifyCpu]
    · rename_i hc
      rw [cpus_modifyCpu_of_ne _ hc]
  cases hplaced with
  | waiting p c view online queued pos parked runs held alive =>
    refine ⟨⟨p, view⟩, fun c' p' => ?_, fun hone c' => ?_, fun c' hr => runs c' ?_, held, alive⟩
    · rw [Machine.queued, hcp]
      split <;> exact queued c' p'
    · rw [Machine.parked, hcp]
      have hone : m.cpuCount = 1 := hone
      split
      · rw [countP_stillParked]
        refine countP_eq_zero.mpr fun w' _ h => ?_
        simp only [and_eq_true, decide_eq_true_eq] at h
        rw [hasElapsed_congr h.1.1, helap] at h
        cases h.1.2
      · have hc' := parked hone c'
        rwa [if_neg (by omega)] at hc'
    · rw [Machine.runs, hcp] at hr
      split at hr <;> exact hr
  | absent view => cases hview.symm.trans view
  | ready p c view | running p c view | held p view | terminated p b view =>
    rw [Option.some.inj (hview.symm.trans view)] at hst; cases hst

/-- **The pass over the waiting queue of one CPU.** -/
theorem settles_wakeReadyThreads (hsp : m.NoStop) (hcpu : cpu < m.cpuCount)
    (hplaced : ∀ k, m.Placed k) (ticks : ℕ) : Settles m (m.wakeReadyThreads c ticks cpu) := by
  have hdr : Calm m (m.modifyCpu cpu fun s =>
    { s with waitingQueue := m.stillParked ticks cpu }) :=
    calm_modifyCpu ..
  have hkt : ∀ k, (¬∃ w ∈ m.elapsed ticks cpu, w.thread = k) →
      Kept m (m.modifyCpu cpu fun s => { s with waitingQueue := m.stillParked ticks cpu }) k := by
    intro k hk
    refine kept_modifyCpu (.inl fun _ => rfl) (countP_stillParked_le ..) (fun v hv hw => ?_) .rfl
    have hact := (hplaced k).isActive hv hw
    rw [countP_stillParked]
    refine countP_congr fun w hmem => ?_
    simp only [and_eq_true, decide_eq_true_eq, not_eq_true']
    refine ⟨fun h => h.1.1, fun h => ⟨⟨h, ?_⟩, h ▸ hact⟩⟩
    rw [eq_false_iff]
    exact fun he => hk ⟨w, mem_elapsed.mpr ⟨⟨hmem, h ▸ hact⟩, he⟩, h⟩
  have hlim : ∀ w ∈ m.elapsed ticks cpu,
      (m.modifyCpu cpu fun s => { s with waitingQueue := m.stillParked ticks cpu }).Limbo
        w.thread :=
    fun w hw => limbo_of_elapsed hcpu (hplaced w.thread) hw
  have hqt := quiet_foldl quiet_removeWaiter
    (swapTake (fun w => !m.parkedWaiterIsActive w) (m.cpus cpu).waitingQueue).1
    (m.modifyCpu cpu fun s => { s with waitingQueue := m.stillParked ticks cpu })
  have hca := hdr.trans hqt.calm
  have hwok := settles_wakeElapsed (c := c) (hca.noStop hsp) (hca.cpuCount ▸ hcpu)
    (m.elapsed ticks cpu) (fun k => ?_) fun w hw _ _ _ => (hlim w hw).kept (hqt.kept _) hqt.calm
  · exact ⟨hca.trans hwok.calm, hwok.placed⟩
  by_cases hk : ∃ w ∈ m.elapsed ticks cpu, w.thread = k
  · obtain ⟨w, hw, rfl⟩ := hk
    exact .inr ⟨⟨w, hw, rfl⟩, (hlim w hw).kept (hqt.kept _) hqt.calm⟩
  · exact .inl ((hplaced k).calm ((hkt k hk).trans (hqt.kept k)) hca)

theorem lt_cpuCount_of_mem (hc : c < m.cpuCount) :
    ∀ cpu ∈ c :: (List.range m.cpuCount).filter (· ≠ c), cpu < m.cpuCount := by
  intro cpu hcpu
  rcases mem_cons.mp hcpu with rfl | hcpu
  · exact hc
  · exact mem_range.mp (mem_filter.mp hcpu).1

theorem settles_wakeExpiredSleepers (hsp : m.NoStop) (hc : c < m.cpuCount)
    (hplaced : ∀ k, m.Placed k) (ticks : ℕ) : Settles m (m.wakeExpiredSleepers c ticks) := by
  rw [wakeExpiredSleepers]
  have hcp := lt_cpuCount_of_mem hc
  generalize c :: (List.range m.cpuCount).filter (· ≠ c) = cpus at hcp
  induction cpus generalizing m with
  | nil => exact (Quiet.refl m).settles hplaced
  | cons cpu cpus ih =>
    have hps := settles_wakeReadyThreads (c := c) hsp (hcp cpu mem_cons_self) hplaced ticks
    refine hps.trans (ih (hps.calm.noStop hsp) (hps.calm.cpuCount ▸ hc) hps.placed ?_)
    intro cpu' hcpu'
    rw [hps.calm.cpuCount]
    exact hcp cpu' (mem_cons_of_mem _ hcpu')

end Expiry

/-! ### Starvation -/

section Boost

variable {m : Machine} {c : ℕ} {k : ThreadKey} {p : ThreadPriority}

theorem quiet_ageCurrent (m : Machine) (c : ℕ) : Quiet m (m.ageCurrent c) := by
  rw [ageCurrent]
  split
  · exact .refl m
  refine quiet_modifyThread fun t => ?_
  split <;> rfl

/-- Threads of a CPU are given another priority: each is changed, then each leaves the queues, then
each joins the queue of the new priority. -/
def Machine.changePriority (m : Machine) (c : ℕ) (ks : List ThreadKey) (f : Thread → Thread)
    (p : ThreadPriority) : Machine :=
  let m := ks.foldl (fun m k => m.modifyThread k f) m
  let m := ks.foldl (fun m k => m.modifyCpu c fun s => s.removeQueuedThread k) m
  ks.foldl (fun m k => (m.modifyCpu c fun s => s.pushBack p k).stamp k) m

/-- The queues of a scheduler when threads have moved to the queue of a priority. -/
def Scheduler.relocate (s : Scheduler) (ks : List ThreadKey) (p : ThreadPriority) : Scheduler :=
  { s with readyQueues := fun q =>
      (s.readyQueues q).filter (· ∉ ks) ++ if q = p then ks else [] }

theorem modifyCpu_comp (f g : Scheduler → Scheduler) :
    (m.modifyCpu c f).modifyCpu c g = m.modifyCpu c fun s => g (f s) := by
  simp [modifyCpu]

theorem foldl_removeQueuedThread (ks : List ThreadKey) (m : Machine) :
    ks.foldl (fun m k => m.modifyCpu c fun s => s.removeQueuedThread k) m = m.modifyCpu c fun s =>
        { s with readyQueues := fun q => (s.readyQueues q).filter (· ∉ ks) } := by
  induction ks generalizing m with
  | nil => simp [Machine.modifyCpu]
  | cons k ks ih =>
    rw [List.foldl_cons, ih, modifyCpu_comp]
    congr 1
    funext s
    rw [Scheduler.mk.injEq]
    refine ⟨funext fun q => ?_, rfl, rfl, rfl⟩
    show ((s.readyQueues q).filter _).filter _ = _
    simp [Bool.and_comm]

/-- The threads join a queue one by one. -/
def Machine.pushAll (m : Machine) (c : ℕ) (p : ThreadPriority) (ks : List ThreadKey) : Machine :=
  ks.foldl (fun m k => (m.modifyCpu c fun s => s.pushBack p k).stamp k) m

theorem cpus_pushAll (ks : List ThreadKey) (m : Machine) : (m.pushAll c p ks).cpus =
    (m.modifyCpu c fun s => s.setQueue p (s.readyQueues p ++ ks)).cpus := by
  induction ks generalizing m with
  | nil => simp [pushAll, modifyCpu, setQueue]
  | cons k ks ih =>
    have := ih ((m.modifyCpu c fun s => s.pushBack p k).stamp k)
    rw [pushAll] at this ⊢
    rw [foldl_cons, this]
    show ((m.modifyCpu c fun s => s.pushBack p k).modifyCpu c
      fun s => s.setQueue p (s.readyQueues p ++ ks)).cpus = _
    rw [modifyCpu_comp]
    simp [pushBack, setQueue]

theorem calm_pushAll (ks : List ThreadKey) (m : Machine) : Calm m (m.pushAll c p ks) := by
  induction ks generalizing m with
  | nil => exact .refl m
  | cons k ks ih =>
    exact ((calm_modifyCpu ..).trans (quiet_stamp ..).calm).trans (ih _)

theorem view_pushAll (ks : List ThreadKey) (m : Machine) : (m.pushAll c p ks).view = m.view := by
  induction ks generalizing m with
  | nil => rfl
  | cons k ks ih => exact (ih ((m.modifyCpu c fun s => s.pushBack p k).stamp k)).trans rfl

/-- The threads themselves are changed. -/
def Machine.modifyAll (m : Machine) (ks : List ThreadKey) (f : Thread → Thread) : Machine :=
  ks.foldl (fun m k => m.modifyThread k f) m

theorem cpus_modifyAll (f : Thread → Thread) (ks : List ThreadKey) (m : Machine) :
    (m.modifyAll ks f).cpus = m.cpus := by
  induction ks generalizing m with
  | nil => rfl
  | cons k ks ih => exact (ih (m.modifyThread k f)).trans rfl

section Change

variable {f : Thread → Thread} (hf : ∀ t, (f t).view = { t.view with priority := p })
include hf

theorem calm_modifyAll (ks : List ThreadKey) (m : Machine) : Calm m (m.modifyAll ks f) := by
  induction ks generalizing m with
  | nil => exact .refl m
  | cons k ks ih =>
    have hk : Touches m (m.modifyThread k f) k := by
      refine touches_modifyThread (fun t => ?_) fun t h => ?_
      · have hst : (f t).state = t.state := congrArg state (hf t)
        rw [hst]
      · have hsp : (f t).stopPending = t.stopPending := congrArg stopPending (hf t)
        rw [hsp, h]
    exact hk.calm.trans (ih _)

theorem view_modifyAll (ks : List ThreadKey) (m : Machine) (k : ThreadKey) :
    (m.modifyAll ks f).view k =
      if k ∈ ks then (m.view k).map fun v => { v with priority := p } else m.view k := by
  induction ks generalizing m with
  | nil => rfl
  | cons k' ks ih =>
    have hcons : m.modifyAll (k' :: ks) f = (m.modifyThread k' f).modifyAll ks f := rfl
    rw [hcons, ih]
    by_cases hk : k = k'
    · have hview : (m.modifyThread k' f).view k = (m.view k).map fun v =>
        { v with priority := p } := by
        rw [hk, view_modifyThread, Machine.view, Option.map_map]
        congr 1
        exact funext hf
      rw [if_pos (List.mem_cons.mpr (.inl hk)), hview, Option.map_map]
      split <;> rfl
    · rw [view_modifyThread_of_ne f hk]
      simp [hk]

theorem calm_changePriority (m : Machine) (c : ℕ) (ks : List ThreadKey) :
    Calm m (m.changePriority c ks f p) := by
  rw [changePriority, foldl_removeQueuedThread]
  exact (calm_modifyAll hf ks m).trans ((calm_modifyCpu ..).trans (calm_pushAll ks _))

theorem view_changePriority (m : Machine) (c : ℕ) (ks : List ThreadKey) (k : ThreadKey) :
    (m.changePriority c ks f p).view k =
      if k ∈ ks then (m.view k).map fun v => { v with priority := p } else m.view k := by
  rw [changePriority, foldl_removeQueuedThread]
  exact (congrFun (view_pushAll ks _) k).trans (view_modifyAll hf ks m k)

omit hf in
theorem cpus_changePriority (m : Machine) (c : ℕ) (ks : List ThreadKey) (c' : ℕ) :
    (m.changePriority c ks f p).cpus c' =
      if c' = c then (m.cpus c').relocate ks p else m.cpus c' := by
  rw [changePriority, foldl_removeQueuedThread]
  refine (congrFun (cpus_pushAll ks _) c').trans ?_
  rw [modifyCpu_comp]
  split
  · rename_i hc
    rw [hc, cpus_modifyCpu]
    have := congrFun (cpus_modifyAll f ks m) c
    rw [modifyAll] at this
    rw [this, setQueue, relocate, Scheduler.mk.injEq]
    refine ⟨funext fun q => ?_, rfl, rfl, rfl⟩
    by_cases hq : q = p
    · rw [hq, Function.update_self, if_pos rfl]
    · rw [Function.update_of_ne hq, if_neg hq, append_nil]
  · rename_i hc
    rw [cpus_modifyCpu_of_ne _ hc]
    exact congrFun (cpus_modifyAll f ks m) c'

theorem kept_changePriority {ks : List ThreadKey} (hk : k ∉ ks) :
    Kept m (m.changePriority c ks f p) k := by
  refine ⟨?_, .inl fun c' q => ?_, fun c' => ?_, fun _ _ _ c' => ?_, fun c' => ?_⟩
  · rw [view_changePriority hf, if_neg hk]
  · rw [queued, queued, cpus_changePriority]
    split
    · show (List.filter _ _ ++ _).count k = _
      rw [count_append, count_filter (by simpa using hk)]
      split
      · rw [count_eq_zero.mpr hk, Nat.add_zero]
      · rfl
    · rfl
  · rw [parked, parked, cpus_changePriority]
    split <;> exact Nat.le_refl _
  · rw [parked, parked, cpus_changePriority]
    split <;> rfl
  · rw [runs, runs, cpus_changePriority]
    split <;> rfl

/-- **Threads from one queue that are given another priority are in their places.** -/
theorem settles_changePriority {ks : List ThreadKey} {q : ThreadPriority}
    (hplaced : ∀ k, m.Placed k) (hks : ks.Sublist ((m.cpus c).readyQueues q)) :
    Settles m (m.changePriority c ks f p) := by
  have hca := calm_changePriority hf m c ks
  refine ⟨hca, fun k => ?_⟩
  by_cases hk : k ∉ ks
  · exact (hplaced k).calm (kept_changePriority hf hk) hca
  have hk : k ∈ ks := not_not.mp hk
  have hmem : 0 < ks.count k := count_pos_iff.mpr hk
  have hle : ks.count k ≤ m.queued c q k := hks.count_le k
  cases hplaced k with
  | ready q' c₀ view online queued parked runs held alive =>
    rw [queued] at hle
    have hplace : c = c₀ ∧ q = q' := by
      by_contra hne
      rw [if_neg hne] at hle
      omega
    rw [if_pos hplace] at hle
    obtain ⟨rfl, rfl⟩ := hplace
    refine .ready p c ?_ (hca.cpuCount ▸ online) (fun c' p' => ?_) (fun hone c' => ?_)
      (fun c' hr => runs c' ?_) (fun hh => held ((hca.heldBack k).mp hh))
      ((hca.alive k.pid).mpr alive)
    · rw [view_changePriority hf, if_pos hk, view]
      rfl
    · rw [Machine.queued, cpus_changePriority]
      split
      · rename_i hc
        show (List.filter _ _ ++ _).count k = _
        rw [count_append, count_eq_zero.mpr fun h => by
          simpa [hk] using (mem_filter.mp h).2]
        by_cases hp : p' = p
        · rw [if_pos hp, if_pos ⟨hc, hp⟩]
          omega
        · rw [if_neg hp, if_neg fun h => hp h.2]
          rfl
      · rename_i hc
        rw [if_neg fun h => hc h.1]
        exact (queued c' p').trans (if_neg fun h => hc h.1)
    · have := parked (hca.cpuCount ▸ hone) c'
      rw [Machine.parked, cpus_changePriority]
      split <;> exact this
    · rw [Machine.runs, cpus_changePriority] at hr
      split at hr <;> exact hr
  | absent view queued | running q' c₀ view online queued | waiting q' c₀ view online queued
  | held q' view queued =>
    exact absurd (queued c q) (by omega)
  | terminated q' b view runs held =>
    refine .terminated p b ?_ (fun hone c' hr => runs (hca.cpuCount ▸ hone) c' ?_)
      fun hh => held ((hca.heldBack k).mp hh)
    · rw [view_changePriority hf, if_pos hk, view]
      rfl
    · rw [Machine.runs, cpus_changePriority] at hr
      split at hr <;> exact hr

end Change

/-- One half of `boost_starved_threads`: the threads that have waited too long. -/
def Machine.starved (m : Machine) (c : ℕ) : List ThreadKey :=
  ((m.cpus c).readyQueues .normal).filter fun k =>
    (m.threads k).any fun thread => boostThresholdTicks ≤ thread.waitingTicks

/-- The other half: the threads whose boost is over. -/
def Machine.spent (m : Machine) (c : ℕ) : List ThreadKey :=
  ((m.cpus c).readyQueues .high).filter fun k =>
    (m.threads k).any fun thread => thread.boosted && thread.timeSliceRemaining = 0

/-- What the boost does to a thread that has waited for too long. -/
def Thread.boost (t : Thread) : Thread :=
  { t with
    waitingTicks := 0
    timeSliceRemaining := boostDurationTicks
    priority := .high
    boosted := true }

/-- The boost is over. -/
def Thread.unboost (t : Thread) : Thread := { t with boosted := false, priority := .normal }

def Thread.wait (t : Thread) : Thread := { t with waitingTicks := t.waitingTicks + 1 }

/-- The threads in the queue of the usual priority have waited one tick more. -/
def Machine.countWaiting (m : Machine) (c : ℕ) : Machine :=
  m.modifyAll ((m.cpus c).readyQueues .normal) Thread.wait

/-- Raise the threads that have waited too long. -/
def Machine.raiseStarved (m : Machine) (c : ℕ) : Machine :=
  m.changePriority c (m.starved c) Thread.boost .high

/-- Take down the threads whose boost is over. -/
def Machine.lowerSpent (m : Machine) (c : ℕ) : Machine :=
  m.changePriority c (m.spent c) Thread.unboost .normal

theorem boostStarvedThreads_eq (m : Machine) (c : ℕ) :
    m.boostStarvedThreads c = ((m.countWaiting c).raiseStarved c).lowerSpent c := by
  have h : (m.countWaiting c).starved c = ((m.cpus c).readyQueues .normal).filter fun k =>
      ((m.countWaiting c).threads k).any fun thread => boostThresholdTicks ≤
        thread.waitingTicks := by
    rw [starved, countWaiting, cpus_modifyAll]
  rw [raiseStarved, h]
  rfl

theorem settles_boostStarvedThreads (hplaced : ∀ k, m.Placed k) (c : ℕ) :
    Settles m (m.boostStarvedThreads c) := by
  rw [boostStarvedThreads_eq]
  have hcnt : Quiet m (m.countWaiting c) :=
    quiet_foldl (f := fun m k => m.modifyThread k Thread.wait)
      (fun _ _ => quiet_modifyThread fun _ => rfl) _ m
  have h₁ := hcnt.settles hplaced
  have h₂ : Settles (m.countWaiting c) ((m.countWaiting c).raiseStarved c) :=
    settles_changePriority (fun _ => rfl) h₁.placed filter_sublist
  have h₃ : Settles ((m.countWaiting c).raiseStarved c)
      (((m.countWaiting c).raiseStarved c).lowerSpent c) :=
    settles_changePriority (fun _ => rfl) h₂.placed filter_sublist
  exact (h₁.trans h₂).trans h₃

end Boost

/-! ### The end of a time slice -/

section Tick

variable {m : Machine} {c : ℕ}

theorem settles_endTimeSlice (hplaced : ∀ k, m.Placed k) (hc : c < m.cpuCount) (ticks : ℕ)
    (allowPreemption : Bool) : Settles m (m.endTimeSlice c ticks allowPreemption) := by
  have hrefl := (Quiet.refl m).settles hplaced
  rw [endTimeSlice]
  split
  · exact hrefl
  split
  · exact hrefl
  split
  · exact settles_yieldCurrentThread hplaced hc
  dsimp only
  split
  · exact settles_scheduleSimulated_preempt hplaced hc
  · exact settles_preemptCurrentThreadSimulated hplaced hc

theorem settles_handleLocalTimerTick (hsp : m.NoStop) (hplaced : ∀ k, m.Placed k)
    (hc : c < m.cpuCount) (ticks : ℕ) (allowPreemption : Bool) :
    Settles m (m.handleLocalTimerTick c ticks allowPreemption) := by
  have h₁ := (quiet_ageCurrent m c).settles hplaced
  have h₂ := settles_wakeExpiredSleepers (h₁.calm.noStop hsp) (h₁.calm.cpuCount ▸ hc) h₁.placed
    ticks
  have h := h₁.trans h₂
  exact h.trans (settles_endTimeSlice h.placed (h.calm.cpuCount ▸ hc) ticks allowPreemption)

theorem settles_handleTimerTick (hsp : m.NoStop) (hplaced : ∀ k, m.Placed k)
    (hc : c < m.cpuCount) (ticks : ℕ) (allowPreemption : Bool) :
    Settles m (m.handleTimerTick c ticks allowPreemption) := by
  have h₁ := settles_boostStarvedThreads hplaced c
  exact h₁.trans (settles_handleLocalTimerTick (h₁.calm.noStop hsp) h₁.placed
    (h₁.calm.cpuCount ▸ hc) ticks allowPreemption)

end Tick

end Protofire.Scheduling
