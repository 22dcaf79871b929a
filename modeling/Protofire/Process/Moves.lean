import Protofire.Process.Places

/-!
# Moving a thread

The operations of a scheduler that take a thread from one place to another, one after the other:
into a ready queue, from a waiting queue, to the CPU and back, into a waiting queue. For each of
them one lemma says that only this thread is touched and another one that it is in its place
afterwards; where an operation does this for many threads, `Gentle` carries both through the loop.
-/

namespace Protofire.Scheduling

open List Machine Option Quiet Scheduler

/-! ### Into a ready queue -/

section Queues

variable (s : Scheduler) {k k' : ThreadKey} {p : ThreadPriority}

theorem count_removeQueuedThread_of_ne (h : k' ≠ k) (p : ThreadPriority) :
    ((s.removeQueuedThread k).readyQueues p).count k' = (s.readyQueues p).count k' :=
  count_filter (by simpa using h)

theorem count_removeQueuedThread (p : ThreadPriority) :
    ((s.removeQueuedThread k).readyQueues p).count k = 0 := by
  refine count_eq_zero.mpr fun h => ?_
  simpa using (mem_filter.mp h).2

variable (queue : List ThreadKey)

theorem readyQueues_setQueue : (s.setQueue p queue).readyQueues p = queue :=
  Function.update_self ..

theorem readyQueues_setQueue_of_ne {p' : ThreadPriority} (h : p' ≠ p) :
    (s.setQueue p queue).readyQueues p' = s.readyQueues p' := Function.update_of_ne h ..

variable (p' : ThreadPriority)

theorem count_pushBack : ((s.pushBack p k).readyQueues p').count k' =
      (s.readyQueues p').count k' + if p' = p ∧ k' = k then 1 else 0 := by
  rw [pushBack]
  by_cases hp : p' = p
  · rw [hp, readyQueues_setQueue, count_append]
    by_cases hk : k' = k
    · simp [hk]
    · simp [hk, Ne.symm hk]
  · rw [readyQueues_setQueue_of_ne s _ hp, if_neg fun h => hp h.1, Nat.add_zero]

theorem count_pushFront : ((s.pushFront p k).readyQueues p').count k' =
      (s.readyQueues p').count k' + if p' = p ∧ k' = k then 1 else 0 := by
  rw [pushFront]
  by_cases hp : p' = p
  · rw [hp, readyQueues_setQueue]
    by_cases hk : k' = k
    · simp [hk]
    · simp [hk, Ne.symm hk]
  · rw [readyQueues_setQueue_of_ne s _ hp, if_neg fun h => hp h.1, Nat.add_zero]

end Queues

/-- A change of the ready queues of a scheduler that takes a thread out of them and puts it into one
of them. -/
structure PutsInto (s s' : Scheduler) (p : ThreadPriority) (k : ThreadKey) : Prop where
  others : ∀ k' ≠ k, ∀ p', (s'.readyQueues p').count k' = (s.readyQueues p').count k'
  count : ∀ p', (s'.readyQueues p').count k = if p' = p then 1 else 0
  waitingQueue : s'.waitingQueue = s.waitingQueue
  current : s'.current = s.current

variable (s : Scheduler)

theorem putsInto_pushBack (p : ThreadPriority) (k : ThreadKey) :
    PutsInto s ((s.removeQueuedThread k).pushBack p k) p k := by
  refine ⟨fun k' hk p' => ?_, fun p' => ?_, rfl, rfl⟩
  · rw [count_pushBack, count_removeQueuedThread_of_ne s hk, if_neg fun h => hk h.2, Nat.add_zero]
  rw [count_pushBack, count_removeQueuedThread]
  simp

theorem putsInto_pushFront (p : ThreadPriority) (k : ThreadKey) :
    PutsInto s ((s.removeQueuedThread k).pushFront p k) p k := by
  refine ⟨fun k' hk p' => ?_, fun p' => ?_, rfl, rfl⟩
  · rw [count_pushFront, count_removeQueuedThread_of_ne s hk, if_neg fun h => hk h.2, Nat.add_zero]
  rw [count_pushFront, count_removeQueuedThread]
  simp

section Enqueue

variable {m : Machine} {c : ℕ} {k : ThreadKey} {p : ThreadPriority}

theorem touches_putsInto {f : Scheduler → Scheduler} (hf : PutsInto (m.cpus c) (f (m.cpus c)) p k) :
    Touches m ((m.modifyCpu c f).stamp k) k := by
  refine Touches.trans ⟨calm_modifyCpu .., fun k' hk => ?_⟩ ((quiet_stamp _ k).touches k)
  exact kept_modifyReady (.inl fun p' => hf.others k' hk p') hf.waitingQueue hf.current

/-- A thread that is ready and in no place. -/
structure Machine.Loose (m : Machine) (p : ThreadPriority) (k : ThreadKey) : Prop where
  view : m.view k = some ⟨.ready, p, false⟩
  queued : ∀ c' p', m.queued c' p' k = 0
  parked : m.cpuCount = 1 → ∀ c', m.parked c' k = 0
  runs : ∀ c', ¬m.runs c' k
  held : ¬m.heldBack k
  alive : m.alive k.pid

/-- **A ready thread that is put into the queue of its priority is in its place.** -/
theorem placed_putsInto {f : Scheduler → Scheduler} (hc : c < m.cpuCount) (h : m.Loose p k)
    (hf : PutsInto (m.cpus c) (f (m.cpus c)) p k) : ((m.modifyCpu c f).stamp k).Placed k := by
  refine .ready p c h.view hc (fun c' p' => ?_) (fun hone c' => ?_) (fun c' hr => ?_) h.held h.alive
  · show ((((m.modifyCpu c f).cpus c').readyQueues p')).count k = _
    by_cases hc' : c' = c
    · rw [hc', cpus_modifyCpu, hf.count]
      simp
    · rw [cpus_modifyCpu_of_ne f hc', if_neg fun h => hc' h.1]
      exact h.queued c' p'
  · show (((m.modifyCpu c f).cpus c').waitingQueue).countP _ = 0
    by_cases hc' : c' = c
    · rw [hc', cpus_modifyCpu, hf.waitingQueue]
      exact h.parked hone c
    · rw [cpus_modifyCpu_of_ne f hc']
      exact h.parked hone c'
  · refine h.runs c' ?_
    have hr' : ((m.modifyCpu c f).cpus c').current = some k := hr
    by_cases hc' : c' = c
    · rw [hc', cpus_modifyCpu, hf.current] at hr'
      exact hc' ▸ hr'
    · rwa [cpus_modifyCpu_of_ne f hc'] at hr'

theorem priorityOf_eq {v : View} (h : m.view k = some v) : m.priorityOf k = v.priority := by
  obtain ⟨t, ht, rfl⟩ := map_eq_some_iff.mp h
  rw [priorityOf, ht]
  rfl

theorem touches_enqueueReadyThread (m : Machine) (c : ℕ) (k : ThreadKey) :
    Touches m (m.enqueueReadyThread c k) k := by
  rw [enqueueReadyThread]
  split
  · exact touches_putsInto (putsInto_pushBack ..)
  · exact (refl m).touches k

theorem Machine.Loose.isReady (h : m.Loose p k) : m.isReady k = true :=
  isReady_iff.mpr ⟨_, h.view, rfl⟩

theorem placed_enqueueReadyThread (hc : c < m.cpuCount) (h : m.Loose p k) :
    (m.enqueueReadyThread c k).Placed k := by
  rw [enqueueReadyThread, if_pos h.isReady, priorityOf_eq h.view]
  exact placed_putsInto hc h (putsInto_pushBack ..)

theorem touches_requeuePreemptedThread (m : Machine) (c : ℕ) (k : ThreadKey) :
    Touches m (m.requeuePreemptedThread c k) k := by
  rw [requeuePreemptedThread]
  split
  · split
    · exact touches_putsInto (putsInto_pushFront ..)
    · exact touches_putsInto (putsInto_pushBack ..)
  · exact (refl m).touches k

theorem placed_requeuePreemptedThread (hc : c < m.cpuCount) (h : m.Loose p k) :
    (m.requeuePreemptedThread c k).Placed k := by
  rw [requeuePreemptedThread, if_pos h.isReady, priorityOf_eq h.view]
  split
  · exact placed_putsInto hc h (putsInto_pushFront ..)
  · exact placed_putsInto hc h (putsInto_pushBack ..)

theorem quiet_maybeSetNeedResched (m : Machine) (c : ℕ) (k : ThreadKey) :
    Quiet m (m.maybeSetNeedResched c k) := by
  refine quiet_modifyCpu ?_ ?_ ?_ <;> split <;> rfl

theorem touches_placeReady (m : Machine) (c : ℕ) (k : ThreadKey) :
    Touches m (m.placeReady c k) k := by
  rw [placeReady]
  split
  · exact (touches_enqueueReadyThread m c k).trans ((quiet_maybeSetNeedResched _ c k).touches k)
  · exact (refl m).touches k

theorem placed_placeReady (hc : c < m.cpuCount) (h : m.Loose p k) :
    (m.placeReady c k).Placed k := by
  rw [placeReady, if_pos h.isReady]
  have hqt := quiet_maybeSetNeedResched (m.enqueueReadyThread c k) c k
  exact (placed_enqueueReadyThread hc h).calm (hqt.kept k) hqt.calm

end Enqueue

/-! ### Waking -/

section Waking

variable {m m' : Machine} {c : ℕ} {k : ThreadKey}

theorem countP_removeTimedWaiter_of_ne {k' : ThreadKey} (h : k' ≠ k) :
    (s.removeTimedWaiter k).waitingQueue.countP (·.thread = k') =
      s.waitingQueue.countP (·.thread = k') := by
  rw [removeTimedWaiter, (Queues.swapTake_perm _ _).2.countP_eq, countP_filter]
  refine countP_congr fun w _ => ?_
  simp only [Bool.and_eq_true, decide_eq_true_eq, Bool.not_eq_true', decide_eq_false_iff_not]
  exact ⟨fun hw => hw.1, fun hw => ⟨hw, fun hk => h (hw.symm.trans hk)⟩⟩

theorem countP_removeTimedWaiter (k : ThreadKey) :
    (s.removeTimedWaiter k).waitingQueue.countP (·.thread = k) = 0 := by
  rw [removeTimedWaiter, (Queues.swapTake_perm _ _).2.countP_eq]
  simp

/-- The registration of one thread is dropped. -/
theorem touches_removeTimedWaiter (m : Machine) (c : ℕ) (k : ThreadKey) :
    Touches m (m.modifyCpu c fun s => s.removeTimedWaiter k) k := by
  refine ⟨calm_modifyCpu .., fun k' hk => kept_modifyCpu (.inl fun _ => rfl) ?_ ?_ .rfl⟩
  · exact Nat.le_of_eq (countP_removeTimedWaiter_of_ne _ hk)
  · exact fun _ _ _ => countP_removeTimedWaiter_of_ne _ hk

/-- A thread that is woken becomes ready; only it is touched. -/
theorem wakeWaiter_spec (hsp : m.NoStop) (h : m.wakeWaiter k = some m') :
    Touches m m' k ∧ m'.cpus = m.cpus ∧ m.alive k.pid ∧ ∃ p, m.view k = some ⟨.waiting, p, false⟩ ∧
      m'.view k = some ⟨.ready, p, false⟩ := by
  rw [wakeWaiter] at h
  split at h
  · rename_i hwait
    split at h
    · rename_i hpend
      obtain ⟨t, ht, hpend⟩ := (any_eq_true _ _).mp hpend
      exact absurd (hsp k t.view (by rw [view, ht]; rfl)) (by simp [Thread.view, hpend])
    split at h
    · rename_i hrev
      cases h
      obtain ⟨t, ht, hwait⟩ := (any_eq_true _ _).mp hwait
      have hview : m.view k = some ⟨.waiting, t.priority, false⟩ := by
        have hv : m.view k = some t.view := by
          rw [view, ht]
          rfl
        have hst : t.state = .waiting := by simpa using hwait
        have hfg : t.stopPending = false := hsp k _ hv
        rw [hv, Thread.view, hst, hfg]
      have hset : Touches m (m.setProcessAndThreadState k .ready .ready) k :=
        touches_setProcessAndThreadState (by simp) (by simp)
      have hqt : Quiet (m.setProcessAndThreadState k .ready .ready)
          ((m.setProcessAndThreadState k .ready .ready).modifyThread k
            fun thread => { thread with wakeDeadline := 0 }) := quiet_modifyThread fun _ => rfl
      refine ⟨hset.trans (hqt.touches k), ?_, (isRevivable_iff.mp hrev).2, t.priority, hview, ?_⟩
      · rw [setProcessAndThreadState]
        split <;> rfl
      · rw [(hqt.kept k).view, view_setProcessAndThreadState hview hrev]
    · cases h
  · cases h

theorem cpuOf_lt (hc : c < m.cpuCount) : m.cpuOf k c < m.cpuCount := by
  rw [cpuOf]
  split
  · assumption
  · exact hc

/-- A thread that waits and is woken leaves its registration and is ready in no place. -/
theorem loose_of_wakeWaiter {target : ℕ} (hplaced : m.Placed k) (hsp : m.NoStop)
    (htgt : target < m.cpuCount) (h : m.wakeWaiter k = some m') :
    ∃ p, (m'.modifyCpu target fun s => s.removeTimedWaiter k).Loose p k := by
  obtain ⟨htou, hcp, halv, p, hview, hview'⟩ := wakeWaiter_spec hsp h
  cases hplaced with
  | waiting p' c' view online queued pos parked runs held alive =>
    have hca := htou.calm.trans (calm_modifyCpu m' target (·.removeTimedWaiter k))
    have hcp' : ∀ c, (m'.modifyCpu target fun s => s.removeTimedWaiter k).cpus c =
        if c = target then (m.cpus c).removeTimedWaiter k else m.cpus c := by
      intro c
      split
      · rename_i hc
        rw [hc, cpus_modifyCpu, hcp]
      · rename_i hc
        rw [cpus_modifyCpu_of_ne _ hc, hcp]
    refine ⟨p, hview', fun c p' => ?_, fun hone c => ?_, fun c hr => runs c ?_,
      fun hh => held ((hca.heldBack k).mp hh), (hca.alive k.pid).mpr halv⟩
    · rw [Machine.queued, hcp']
      have := queued c p'
      split <;> exact this
    · rw [hca.cpuCount] at hone
      rw [Machine.parked, hcp']
      split
      · exact countP_removeTimedWaiter ..
      have := parked hone c
      rw [if_neg (by omega)] at this
      exact this
    · rw [Machine.runs, hcp'] at hr
      split at hr <;> exact hr
  | absent view | ready _ _ view | running _ _ view | held _ view | terminated _ _ view =>
    cases hview.symm.trans view

theorem touches_wakeThread (hsp : m.NoStop) (c : ℕ) (k : ThreadKey) :
    Touches m (m.wakeThread c k) k := by
  rw [wakeThread]
  cases h : m.wakeWaiter k with
  | none => exact (refl m).touches k
  | some m' =>
    exact ((wakeWaiter_spec hsp h).1.trans (touches_removeTimedWaiter m' _ k)).trans
      (touches_placeReady ..)

/-- **A thread that is woken is in its place.** -/
theorem placed_wakeThread (hsp : m.NoStop) (hc : c < m.cpuCount) (h : m.Placed k) :
    (m.wakeThread c k).Placed k := by
  rw [wakeThread]
  cases hw : m.wakeWaiter k with
  | none => exact h
  | some m' =>
    have htgt := cpuOf_lt (k := k) hc
    obtain ⟨p, hloo⟩ := loose_of_wakeWaiter h hsp htgt hw
    refine placed_placeReady ?_ hloo
    rw [(calm_modifyCpu ..).cpuCount, (wakeWaiter_spec hsp hw).1.calm.cpuCount]
    exact htgt

/-- The current threads of the CPUs are the same. -/
structure SameCurrent (m m' : Machine) : Prop where
  current : ∀ c, (m'.cpus c).current = (m.cpus c).current

theorem SameCurrent.refl (m : Machine) : SameCurrent m m := ⟨fun _ => rfl⟩

theorem SameCurrent.trans {m m' m'' : Machine} (h : SameCurrent m m') (h' : SameCurrent m' m'') :
    SameCurrent m m'' := ⟨fun c => (h'.current c).trans (h.current c)⟩

theorem sameCurrent_modifyCpu {f : Scheduler → Scheduler}
    (hf : (f (m.cpus c)).current = (m.cpus c).current) : SameCurrent m (m.modifyCpu c f) := by
  refine ⟨fun c' => ?_⟩
  by_cases hc : c' = c
  · rw [hc, cpus_modifyCpu, hf]
  · rw [cpus_modifyCpu_of_ne f hc]

theorem sameCurrent_stamp (m : Machine) (k : ThreadKey) : SameCurrent m (m.stamp k) :=
  ⟨fun _ => rfl⟩

theorem sameCurrent_enqueueReadyThread (m : Machine) (c : ℕ) (k : ThreadKey) :
    SameCurrent m (m.enqueueReadyThread c k) := by
  rw [enqueueReadyThread]
  split
  · refine SameCurrent.trans ?_ (sameCurrent_stamp _ k)
    exact sameCurrent_modifyCpu rfl
  · exact .refl m

theorem sameCurrent_placeReady (m : Machine) (c : ℕ) (k : ThreadKey) :
    SameCurrent m (m.placeReady c k) := by
  rw [placeReady]
  split
  · refine (sameCurrent_enqueueReadyThread m c k).trans (sameCurrent_modifyCpu ?_)
    split <;> rfl
  · exact .refl m

theorem sameCurrent_wakeThread (hsp : m.NoStop) (c : ℕ) (k : ThreadKey) :
    SameCurrent m (m.wakeThread c k) := by
  rw [wakeThread]
  cases h : m.wakeWaiter k with
  | none => exact .refl m
  | some m' =>
    have hcp : SameCurrent m m' := ⟨fun c' => by rw [(wakeWaiter_spec hsp h).2.1]⟩
    have hrem : SameCurrent m' (m'.modifyCpu (m.cpuOf k c) fun s => s.removeTimedWaiter k) :=
      sameCurrent_modifyCpu rfl
    exact (hcp.trans hrem).trans (sameCurrent_placeReady ..)

/-- **Whoever is in a place stays in one.** The threads of a process that has ended are not moved.
-/
structure Gentle (m m' : Machine) : Prop where
  calm : Calm m m'
  placed : ∀ k, m.Placed k → m'.Placed k
  frozen : ∀ k, ¬m.alive k.pid → Kept m m' k
  current : SameCurrent m m'

theorem Gentle.refl (m : Machine) : Gentle m m :=
    ⟨.refl m, fun _ h => h, fun k _ => .refl m k, .refl m⟩

theorem Gentle.trans {m m' m'' : Machine} (h : Gentle m m') (h' : Gentle m' m'') : Gentle m
    m'' := by
  refine ⟨h.calm.trans h'.calm, fun k hk => h'.placed k (h.placed k hk), fun k hk => ?_,
    h.current.trans h'.current⟩
  exact (h.frozen k hk).trans (h'.frozen k fun ha => hk ((h.calm.alive k.pid).mp ha))

theorem Quiet.gentle (h : Quiet m m') (hcur : SameCurrent m m') : Gentle m m' :=
  ⟨h.calm, fun k hk => hk.calm (h.kept k) h.calm, fun k _ => h.kept k, hcur⟩

theorem gentle_wakeThread (hsp : m.NoStop) (hc : c < m.cpuCount) (k : ThreadKey) :
    Gentle m (m.wakeThread c k) := by
  have htou := touches_wakeThread hsp c k
  refine ⟨htou.calm, fun k' hk => ?_, fun k' hde => ?_, sameCurrent_wakeThread hsp c k⟩
  · by_cases h : k' = k
    · rw [h] at hk ⊢
      exact placed_wakeThread hsp hc hk
    · exact hk.calm (htou.kept k' h) htou.calm
  by_cases h : k' = k
  · -- a thread of a process that has ended is refused
    rw [h, wakeThread]
    cases hw : m.wakeWaiter k with
    | none => exact .refl m k
    | some m' => exact absurd (wakeWaiter_spec hsp hw).2.2.1 (h ▸ hde)
  · exact htou.kept k' h

theorem gentle_wakeAll (hsp : m.NoStop) (hc : c < m.cpuCount) (ks : List ThreadKey) :
    Gentle m (ks.foldl (fun m k => m.wakeThread c k) m) := by
  induction ks generalizing m with
  | nil => exact .refl m
  | cons k ks ih =>
    have hk := gentle_wakeThread hsp hc k
    exact hk.trans (ih (hk.calm.noStop hsp) (hk.calm.cpuCount ▸ hc))

/-- The event is signalled before anybody is woken. -/
def Machine.markSignaled (m : Machine) (e : EventRef) : Machine :=
  m.modifyEvent e fun _ => { signaled := true, waiters := [] }

theorem gentle_signal (hsp : m.NoStop) (hc : c < m.cpuCount) (e : EventRef) :
    Gentle (m.markSignaled e) (m.signal c e) :=
  gentle_wakeAll (m := m.markSignaled e) hsp hc _

/-- The end of a thread is nobody's but its waiters' concern. -/
theorem gentle_signal_thread (hsp : m.NoStop) (hc : c < m.cpuCount) (k : ThreadKey) :
    Gentle m (m.signal c (.thread k)) := by
  have hqt : Quiet m (m.markSignaled (.thread k)) :=
    quiet_modifyEvent nofun fun _ _ => rfl
  exact (hqt.gentle ⟨fun _ => rfl⟩).trans (gentle_signal hsp hc _)

end Waking

end Protofire.Scheduling
