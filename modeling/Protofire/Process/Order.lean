import Protofire.Process.Runs

/-!
# Whose turn it is

On a machine with one CPU every queue is in the order in which its threads were queued, as long as
no FIFO thread gives up the CPU: such a thread goes back to the front. The dispatcher then takes the
thread that has waited longest among those of the highest priority (`takeNext_first`). Each
operation removes entries from the queues or adds one at the back that is newer than all the others
(`Orders`).
-/

namespace Protofire.Scheduling

open List Machine Thread ThreadPriority

/-- The queues of the first CPU are in the order of queueing. -/
structure Machine.Ordered (m : Machine) : Prop where
  pairwise : ∀ p, ((m.cpus 0).readyQueues p).Pairwise fun a b => m.queuedAt a < m.queuedAt b
  past : ∀ p, ∀ k ∈ (m.cpus 0).readyQueues p, m.queuedAt k < m.clock

/-- On a machine with one CPU the queues stay in order. -/
structure Orders (m m' : Machine) : Prop where
  cpuCount : m'.cpuCount = m.cpuCount
  ordered : m.cpuCount = 1 → m.Ordered → m'.Ordered

theorem Orders.refl (m : Machine) : Orders m m := ⟨rfl, fun _ => id⟩

theorem Orders.trans {m m' m'' : Machine} (h : Orders m m') (h' : Orders m' m'') : Orders m m'' :=
  ⟨h'.cpuCount.trans h.cpuCount,
    fun hone ho => h'.ordered (h.cpuCount.trans hone) (h.ordered hone ho)⟩

section Parts

variable {m m' : Machine} {c pid : ℕ} {k : ThreadKey} {p : ThreadPriority}

theorem Orders.of_sublist (hcpu : m'.cpuCount = m.cpuCount)
    (hq : ∀ p, ((m'.cpus 0).readyQueues p).Sublist ((m.cpus 0).readyQueues p))
    (hat : m'.queuedAt = m.queuedAt) (hclk : m'.clock = m.clock) : Orders m m' := by
  refine ⟨hcpu, fun _ ho => ⟨fun p => ?_, fun p k hk => ?_⟩⟩
  · rw [hat]
    exact (ho.pairwise p).sublist (hq p)
  · rw [hat, hclk]
    exact ho.past p k ((hq p).subset hk)

theorem Orders.of_cpus (h : (m'.cpuCount, m'.cpus, m'.queuedAt, m'.clock) =
    (m.cpuCount, m.cpus, m.queuedAt, m.clock)) : Orders m m' := by
  simp only [Prod.mk.injEq] at h
  exact .of_sublist h.1 (fun p => by rw [h.2.1]) h.2.2.1 h.2.2.2

theorem orders_modifyCpu {f : Scheduler → Scheduler}
    (hf : ∀ p, ((f (m.cpus c)).readyQueues p).Sublist ((m.cpus c).readyQueues p)) :
    Orders m (m.modifyCpu c f) := by
  refine .of_sublist rfl (fun p => ?_) rfl rfl
  by_cases hc : 0 = c
  · rw [hc, cpus_modifyCpu]
    exact hf p
  · rw [cpus_modifyCpu_of_ne f hc]

theorem orders_setProcessAndThreadState (ps : ProcessState) (ts : ThreadState) :
    Orders m (m.setProcessAndThreadState k ps ts) := by
  rw [setProcessAndThreadState]
  split
  · exact .of_cpus rfl
  · exact .refl m

/-- A loop of operations on a CPU. -/
theorem orders_foldl {α : Type} {f : Machine → α → Machine}
    (hf : ∀ m a, c < m.cpuCount → Orders m (f m a)) (l : List α) (hc : c < m.cpuCount) :
    Orders m (l.foldl f m) := by
  induction l generalizing m with
  | nil => exact .refl m
  | cons a l ih =>
    have ha := hf m a hc
    exact ha.trans (ih (ha.cpuCount ▸ hc))

/-- **Threads that were in no queue join one at its back.** -/
theorem orders_pushAll (hc : c < m.cpuCount) (ks : List ThreadKey) (hks : ks.Nodup)
    (habs : ∀ k ∈ ks, ∀ q, k ∉ (m.cpus c).readyQueues q) : Orders m (m.pushAll c p ks) := by
  induction ks generalizing m with
  | nil => exact .refl m
  | cons k ks ih =>
    have hnew := habs k mem_cons_self
    have hk : Orders m ((m.modifyCpu c fun s => s.pushBack p k).stamp k) := by
      refine ⟨rfl, fun hone ho => ?_⟩
      obtain rfl : c = 0 := by omega
      have hat : ∀ q, ∀ k' ∈ (m.cpus 0).readyQueues q,
          ((m.modifyCpu 0 fun s => s.pushBack p k).stamp k).queuedAt k' = m.queuedAt k' := by
        intro q k' hk'
        have hne : k' ≠ k := by
          rintro rfl
          exact hnew q hk'
        exact Function.update_of_ne hne ..
      have hse : ((m.modifyCpu 0 fun s => s.pushBack p k).stamp k).queuedAt k = m.clock :=
        Function.update_self ..
      have hqueue : ∀ q, (((m.modifyCpu 0 fun s => s.pushBack p k).stamp k).cpus 0).readyQueues q =
          (m.cpus 0).readyQueues q ++ if q = p then [k] else [] := by
        intro q
        show (((m.modifyCpu 0 fun s => s.pushBack p k)).cpus 0).readyQueues q = _
        rw [cpus_modifyCpu, Scheduler.pushBack]
        by_cases hq : q = p
        · rw [hq, readyQueues_setQueue, if_pos rfl]
        · rw [readyQueues_setQueue_of_ne _ _ hq, if_neg hq, append_nil]
      have hin : ∀ q, ∀ k' ∈ (if q = p then [k] else []), k' = k := by
        intro q k' hk'
        split at hk'
        · exact mem_singleton.mp hk'
        · cases hk'
      refine ⟨fun q => ?_, fun q k' hk' => ?_⟩
      · rw [hqueue, pairwise_append]
        refine ⟨?_, ?_, fun a ha b hb => ?_⟩
        · refine (ho.pairwise q).imp_of_mem fun ha hb h => ?_
          rwa [hat q _ ha, hat q _ hb]
        · split
          · exact pairwise_singleton ..
          · exact List.Pairwise.nil
        · rw [hin q b hb, hse, hat q a ha]
          exact ho.past q a ha
      · rw [hqueue, mem_append] at hk'
        rcases hk' with hk' | hk'
        · rw [hat q k' hk']
          exact Nat.lt_succ_of_lt (ho.past q k' hk')
        · rw [hin q k' hk', hse]
          exact Nat.lt_succ_self _
    refine hk.trans (ih hc (nodup_cons.mp hks).2 fun k' hk' q hmem => ?_)
    have hne : k' ≠ k := fun h => (nodup_cons.mp hks).1 (h ▸ hk')
    have hcnt : 0 < (((m.cpus c).pushBack p k).readyQueues q).count k' := by
      have hmem : k' ∈ (((m.modifyCpu c fun s => s.pushBack p k)).cpus c).readyQueues q := hmem
      rw [cpus_modifyCpu] at hmem
      exact count_pos_iff.mpr hmem
    rw [count_pushBack, if_neg fun h => hne h.2] at hcnt
    exact habs k' (mem_cons_of_mem _ hk') q (count_pos_iff.mp hcnt)

/-- A thread leaves the queues and goes to the back of one. -/
theorem orders_pushBack (hc : c < m.cpuCount) (p : ThreadPriority) (k : ThreadKey) :
    Orders m ((m.modifyCpu c fun s => (s.removeQueuedThread k).pushBack p k).stamp k) := by
  have hrem : Orders m (m.modifyCpu c fun s => s.removeQueuedThread k) :=
    orders_modifyCpu fun p => filter_sublist
  have hpush := orders_pushAll (m := m.modifyCpu c fun s => s.removeQueuedThread k) (p := p) hc [k]
    (nodup_singleton k) fun k' hk' q hmem => ?_
  · have hcm := modifyCpu_comp (m := m) (c := c) (fun s => s.removeQueuedThread k)
      fun s => s.pushBack p k
    rw [← hcm]
    exact hrem.trans hpush
  · rw [mem_singleton.mp hk', cpus_modifyCpu] at hmem
    simpa using (mem_filter.mp hmem).2

theorem orders_enqueueReadyThread (hc : c < m.cpuCount) (k : ThreadKey) :
    Orders m (m.enqueueReadyThread c k) := by
  rw [enqueueReadyThread]
  split
  · exact orders_pushBack hc ..
  · exact .refl m

theorem orders_maybeSetNeedResched (m : Machine) (c : ℕ) (k : ThreadKey) :
    Orders m (m.maybeSetNeedResched c k) :=
  orders_modifyCpu fun p => by split <;> exact List.Sublist.refl _

theorem orders_placeReady (hc : c < m.cpuCount) (k : ThreadKey) : Orders m (m.placeReady c k) := by
  rw [placeReady]
  split
  · exact (orders_enqueueReadyThread hc k).trans (orders_maybeSetNeedResched ..)
  · exact .refl m

theorem orders_wakeWaiter (h : m.wakeWaiter k = some m') : Orders m m' := by
  rw [wakeWaiter] at h
  split at h
  · split at h
    · cases h
      exact .of_cpus rfl
    split at h
    · cases h
      exact (orders_setProcessAndThreadState ..).trans (.of_cpus rfl)
    · cases h
  · cases h

section Woken

variable (hc : c < m.cpuCount)

include hc

theorem orders_wakeThread (k : ThreadKey) : Orders m (m.wakeThread c k) := by
  rw [wakeThread]
  cases hw : m.wakeWaiter k with
  | none => exact .refl m
  | some m' =>
    have hwake := orders_wakeWaiter hw
    have hrem : Orders m' (m'.modifyCpu (m.cpuOf k c) fun s => s.removeTimedWaiter k) :=
      orders_modifyCpu fun _ => .refl _
    refine (hwake.trans hrem).trans (orders_placeReady ?_ k)
    rw [(hwake.trans hrem).cpuCount]
    exact cpuOf_lt hc

theorem orders_signal (e : EventRef) : Orders m (m.signal c e) := by
  have hmk : Orders m (m.markSignaled e) := .of_cpus rfl
  exact hmk.trans (orders_foldl (fun _ k hc => orders_wakeThread hc k) _ hc)

theorem orders_finishThreadTermination (k : ThreadKey)
    (reason : Option TerminationReason) : Orders m (m.finishThreadTermination c k reason) := by
  cases hp : m.processes k.pid with
  | none =>
    rw [finishThreadTermination, hp]
    exact .refl m
  | some process =>
    have hstr : Orders m (m.strike k process reason) := .of_cpus rfl
    rw [finishThreadTermination_eq hp]
    split
    · exact hstr.trans (orders_signal (m := m.strike k process reason) hc _)
    · exact hstr

theorem orders_terminateThread (k : ThreadKey)
    (reason : Option TerminationReason) : Orders m (m.terminateThread c k reason) := by
  rw [terminateThread]
  split
  · have hend : Orders m (m.modifyThread k ended) := .of_cpus rfl
    have hfin := hend.trans (orders_finishThreadTermination
      (m := m.modifyThread k ended)
      hc k reason)
    refine (hfin.trans (orders_signal (hfin.cpuCount ▸ hc) (.thread k))).trans ?_
    exact .of_cpus rfl
  · exact .refl m

theorem orders_terminateAll (ks : List ThreadKey) : Orders m (m.terminateAll c ks) :=
  orders_foldl (fun _ k hc => orders_terminateThread hc k none) ks hc

end Woken

theorem orders_takeOut (c : ℕ) (mine : ThreadKey → Bool) :
    Orders m (m.modifyCpu c fun s => s.takeOut mine) :=
  orders_modifyCpu fun _ => filter_sublist

theorem orders_clearCurrent (m : Machine) (c : ℕ) :
    Orders m (m.modifyCpu c fun s => { s with current := none }) :=
  orders_modifyCpu fun _ => .refl _

theorem orders_finishCurrentThread (hc : c < m.cpuCount) (reason : Option TerminationReason) :
    Orders m (m.finishCurrentThread c reason) := by
  rw [finishCurrentThread]
  split
  · exact .refl m
  rename_i k hk
  have hout := (orders_clearCurrent m c).trans (orders_takeOut c k.sibling)
  have hall := hout.trans (orders_terminateAll (hout.cpuCount ▸ hc)
    ((m.modifyCpu c fun s => { s with current := none }).entries c k.sibling))
  refine (hall.trans (orders_terminateThread (hall.cpuCount ▸ hc) k reason)).trans ?_
  exact orders_modifyCpu fun _ => .refl _

theorem orders_removeWaiter (m : Machine) (w : TimedWaiter) : Orders m (m.removeWaiter w) := by
  rw [removeWaiter]
  split
  · exact .refl m
  · exact .of_cpus rfl

theorem orders_terminateThreadsOfProcess (hc : c < m.cpuCount) (pid cpu : ℕ) :
    Orders m (m.terminateThreadsOfProcess c pid cpu) := by
  rw [terminateThreadsOfProcess_eq]
  have hout : Orders m (m.modifyCpu cpu fun s => s.takeOut (mine pid)) := orders_takeOut cpu _
  have hwts := hout.trans (orders_foldl
    (fun m w _ => orders_removeWaiter m w) (m.waitersOf pid cpu) (hout.cpuCount ▸ hc))
  refine (hwts.trans (orders_terminateAll (hwts.cpuCount ▸ hc) (m.entries cpu (mine pid)))).trans ?_
  rw [flagCurrent]
  split
  · split
    · exact .of_cpus rfl
    · exact .refl _
  · exact .refl _

theorem orders_requestTermination (hc : c < m.cpuCount) (pid : ℕ) (reason : TerminationReason) :
    Orders m (m.requestTermination c pid reason) := by
  rw [requestTermination]
  split
  · have hcon : Orders m (m.modifyProcess pid (·.condemned reason)) := .of_cpus rfl
    have hall := hcon.trans (orders_foldl
      (fun _ cpu hc => orders_terminateThreadsOfProcess hc pid cpu)
      ((m.modifyProcess pid (·.condemned reason)).scanned c) hc)
    dsimp only
    split
    · exact hall
    have hcmp : Orders m (modifyProcess _ pid (·.completed (some reason))) :=
      hall.trans (.of_cpus rfl)
    exact hcmp.trans (orders_signal (hcmp.cpuCount ▸ hc) (.process pid))
  · exact .refl m

end Parts

/-! ### The operations -/

section Operations

variable {m m' : Machine} {c : ℕ} {k : ThreadKey} {p : ThreadPriority}

theorem Drops.orders {s' : Scheduler} {taken : ThreadPriority → List ThreadKey}
    (h : Drops m c s' taken) : Orders m (m.modifyCpu c fun _ => s') := by
  refine orders_modifyCpu fun p => ?_
  obtain ⟨dropped, hqueue, -⟩ := h.queue p
  rw [hqueue]
  exact sublist_append_right ..

theorem orders_makeCurrent (m : Machine) (c : ℕ) (k : ThreadKey) : Orders m (m.makeCurrent c k) :=
  (orders_setProcessAndThreadState ..).trans (orders_modifyCpu fun _ => .refl _)

theorem orders_dispatchNextSimulated (m : Machine) (c : ℕ) :
    Orders m (m.dispatchNextSimulated c) := by
  rw [dispatchNextSimulated, takeNextDispatchableThread]
  have h := takeNext_spec c descending m
  generalize m.takeNext c descending = found at h
  cases h with
  | none s' drops => exact drops.orders
  | some k s' before p₀ after split ready drops => exact drops.orders.trans (orders_makeCurrent ..)

theorem orders_dispatchNext (hc : c < m.cpuCount) (prepared : Bool) :
    Orders m (m.dispatchNext c prepared) := by
  rw [dispatchNext, takeNextDispatchableThread]
  have h := takeNext_spec c descending m
  generalize m.takeNext c descending = found at h
  cases h with
  | none s' drops => exact drops.orders
  | some k s' before p₀ after split ready drops =>
    dsimp only
    split
    · refine (drops.orders.trans (orders_makeCurrent _ c k)).trans ?_
      exact orders_modifyCpu fun _ => .refl _
    · exact drops.orders.trans (orders_terminateThread (m := m.modifyCpu c fun _ => s') hc k none)

theorem orders_afterLeaving (m : Machine) (c : ℕ) : Orders m (m.afterLeaving c) := by
  rw [afterLeaving]
  split
  · exact .refl m
  · exact orders_dispatchNextSimulated m c

/-- A thread that the code would put back to the front. -/
def Machine.isFifo (m : Machine) (k : ThreadKey) : Bool :=
  (m.threads k).any (·.schedPolicy = .schedFifo)

theorem isFifo_setProcessAndThreadState (ps : ProcessState) (ts : ThreadState) :
    (m.setProcessAndThreadState k ps ts).isFifo k = m.isFifo k := by
  rw [setProcessAndThreadState]
  split
  · rw [isFifo, threads_modifyThread, isFifo]
    show Option.any _ ((m.threads k).map _) = _
    cases m.threads k <;> rfl
  · rfl

theorem orders_leaveCpu (hc : c < m.cpuCount) (hfifo : m.isFifo k = false) :
    Orders m (m.leaveCpu c k) := by
  have hprune : Orders m (m.pruneNondispatchableReadyThreads c) :=
    orders_modifyCpu fun _ => filter_sublist
  rw [leaveCpu]
  split
  · exact hprune
  have hset := (hprune.trans (orders_clearCurrent _ c)).trans
    (orders_setProcessAndThreadState (k := k) .ready .ready)
  refine hset.trans ?_
  have hfifo' : (((m.pruneNondispatchableReadyThreads c).modifyCpu c fun s =>
      { s with current := none }).setProcessAndThreadState k .ready .ready).isFifo k = false :=
    (isFifo_setProcessAndThreadState ..).trans hfifo
  rw [isFifo] at hfifo'
  rw [requeuePreemptedThread]
  split
  · rw [hfifo']
    exact orders_pushBack (hset.cpuCount ▸ hc) ..
  · exact .refl _

/-- The thread on the CPU may go to the back of its queue. -/
def Machine.Yields (m : Machine) (c : ℕ) : Prop := (m.cpus c).current.all fun k => !m.isFifo k

theorem orders_yieldCurrentThread (hc : c < m.cpuCount) (h : m.Yields c) :
    Orders m (m.yieldCurrentThread c) := by
  rw [yieldCurrentThread]
  rw [Yields] at h
  cases hk : (m.cpus c).current with
  | none => exact .refl m
  | some k =>
    rw [hk] at h
    exact orders_leaveCpu hc (by simpa using h)

theorem orders_preemptCurrentThreadSimulated (hc : c < m.cpuCount) (h : m.Yields c) :
    Orders m (m.preemptCurrentThreadSimulated c).2 := by
  rw [preemptCurrentThreadSimulated]
  rw [Yields] at h
  split
  · exact .refl m
  rename_i k hk
  rw [hk] at h
  split
  · exact orders_leaveCpu hc (by simpa using h)
  · exact orders_clearCurrent m c

theorem orders_finishOnRequest (hc : c < m.cpuCount) (k : ThreadKey) :
    Orders m (m.finishOnRequest c k) := by
  have hfg : Orders m (m.modifyThread k fun thread =>
    { thread with terminatePending := false }) := .of_cpus rfl
  exact hfg.trans (orders_finishCurrentThread (hfg.cpuCount ▸ hc) _)

theorem orders_schedule (hm : m.Sound) (hc : c < m.cpuCount)
    (hidle : m.contextSwitch = true → (m.cpus c).current = none)
    (h : m.contextSwitch = false → m.Yields c) (prepared : Bool) :
    Orders m (m.schedule c prepared) := by
  rw [schedule]
  split
  · rename_i hsw
    rw [scheduleBareMetal, hidle hsw]
    exact orders_dispatchNext hc prepared
  rename_i hsw
  have hyi := h (by simpa using hsw)
  have hreq : Orders m ((m.cpus c).current.elim m fun k =>
      if (m.threads k).any (·.terminatePending) then m.finishOnRequest c k else m) ∧
      ((m.cpus c).current.elim m fun k =>
        if (m.threads k).any (·.terminatePending) then m.finishOnRequest c k else m).Yields
          c := by
    cases hk : (m.cpus c).current with
    | none => exact ⟨.refl m, hyi⟩
    | some k =>
      rw [Option.elim_some]
      split
      · -- the thread that was asked to end has left the CPU
        have hqt : Quiet m (m.modifyThread k fun thread =>
            { thread with terminatePending := false }) := quiet_modifyThread fun _ => rfl
        have hsp := (hqt.settles hm.placed).step hm
        have hno := (finishCurrentThread_spec hsp.sound (hsp.cpuCount ▸ hc)
          (((hqt.kept k).runs c).mpr hk)
          (((m.modifyThread k fun thread => { thread with terminatePending := false }).processes
            k.pid).bind (·.terminationReason))).2
        refine ⟨orders_finishOnRequest hc k, ?_⟩
        rw [Yields, finishOnRequest, hno]
        rfl
      · exact ⟨.refl m, hyi⟩
  exact (hreq.1.trans (orders_preemptCurrentThreadSimulated (hreq.1.cpuCount ▸ hc)
    hreq.2)).trans (orders_dispatchNextSimulated ..)

theorem orders_blockCurrentThread (m : Machine) (c : ℕ) (event : Option EventRef)
    (deadline : Option ℕ) : Orders m (m.blockCurrentThread c event deadline) := by
  have hev : ∀ (m : Machine) (f : Event → Event),
      Orders m (event.elim m fun e => m.modifyEvent e f) := by
    intro m f
    cases event with
    | none => exact .refl m
    | some e => exact .of_cpus rfl
  have hent : ∀ (m : Machine) (k : ThreadKey), Orders m (m.enterWaitingState k deadline) := by
    intro m k
    rw [enterWaitingState]
    split
    · exact (orders_setProcessAndThreadState ..).trans (.of_cpus rfl)
    · exact .refl _
  rw [blockCurrentThread]
  split
  · exact .refl m
  rename_i k hk
  dsimp only
  split
  · exact hev ..
  have hjoin := (hev m fun event =>
    { event with waiters := event.waiters.filter m.isActiveWaiter }).trans
      (hev _ fun event => { event with waiters := event.waiters ++ [k] })
  have hpk := (hjoin.trans (hent _ k)).trans (orders_modifyCpu (c := c) (f := fun s =>
    { s.parkThread k (deadline.bind fun _ => event) with current := none })
      fun _ => .refl _)
  exact hpk.trans (orders_afterLeaving ..)

theorem Machine.Ordered.nodup (h : m.Ordered) (p : ThreadPriority) :
    ((m.cpus 0).readyQueues p).Nodup := by
  refine List.Pairwise.imp (fun hlt => ?_) (h.pairwise p)
  rintro rfl
  exact Nat.lt_irrefl _ hlt

theorem orders_changePriority (hc : c < m.cpuCount) {ks : List ThreadKey} {q : ThreadPriority}
    (hks : ks.Sublist ((m.cpus c).readyQueues q)) (f : Thread → Thread) :
    Orders m (m.changePriority c ks f p) := by
  rw [changePriority, foldl_removeQueuedThread]
  have hmod : Orders m (m.modifyAll ks f) :=
    orders_foldl (f := fun m k => m.modifyThread k f) (fun _ _ _ => .of_cpus rfl) ks hc
  have hrem := hmod.trans (orders_modifyCpu (c := c) (f := fun s => { s with
    readyQueues := fun q => (s.readyQueues q).filter (· ∉ ks) }) fun _ => filter_sublist)
  refine ⟨(calm_pushAll ks _).cpuCount.trans hrem.cpuCount, fun hone ho => ?_⟩
  obtain rfl : c = 0 := by omega
  refine (orders_pushAll (hrem.cpuCount ▸ hc) ks ((ho.nodup q).sublist hks)
    fun k hk q hmem => ?_).ordered (hrem.cpuCount.trans hone) (hrem.ordered hone ho)
  simpa [hk] using (mem_filter.mp hmem).2

theorem orders_boostStarvedThreads (hc : c < m.cpuCount) : Orders m (m.boostStarvedThreads c) := by
  rw [boostStarvedThreads_eq]
  have hcnt : Orders m (m.countWaiting c) :=
    orders_foldl (f := fun m k => m.modifyThread k wait) (fun _ _ _ => .of_cpus rfl) _ hc
  have hraise : Orders m ((m.countWaiting c).raiseStarved c) :=
    hcnt.trans (orders_changePriority (hcnt.cpuCount ▸ hc) filter_sublist _)
  exact hraise.trans (orders_changePriority (hraise.cpuCount ▸ hc) filter_sublist _)

theorem orders_ageCurrent (m : Machine) (c : ℕ) : Orders m (m.ageCurrent c) := by
  rw [ageCurrent]
  split
  · exact .refl m
  · exact .of_cpus rfl

theorem orders_wakeElapsed {cpu : ℕ} (hcpu : cpu < m.cpuCount) (c : ℕ) (w : TimedWaiter) :
    Orders m (m.wakeElapsed c cpu w) := by
  have hrem := orders_removeWaiter m w
  rw [wakeElapsed_eq]
  split
  · exact hrem
  rename_i m' hw
  have hwake := hrem.trans (orders_wakeWaiter hw)
  split
  · exact hwake
  have htgt : m.elapsedTarget c cpu w.thread < m'.cpuCount := by
    rw [elapsedTarget, hwake.cpuCount]
    split
    · rename_i h
      exact h.2
    · exact hcpu
  have hqueue := hwake.trans (orders_enqueueReadyThread htgt w.thread)
  rw [placeElapsed]
  split
  · exact hqueue.trans (orders_maybeSetNeedResched ..)
  split
  · exact hqueue.trans (orders_modifyCpu fun _ => .refl _)
  · exact hqueue

theorem orders_wakeReadyThreads {cpu : ℕ} (hcpu : cpu < m.cpuCount) (c ticks : ℕ) :
    Orders m (m.wakeReadyThreads c ticks cpu) := by
  have hdr : Orders m (m.modifyCpu cpu fun s =>
      { s with waitingQueue := m.stillParked ticks cpu }) := orders_modifyCpu fun _ =>
        List.Sublist.refl _
  have hstl := hdr.trans (orders_foldl
    (fun m w _ => orders_removeWaiter m w)
    (Queues.swapTake (fun w => !m.parkedWaiterIsActive w) (m.cpus cpu).waitingQueue).1
    (hdr.cpuCount ▸ hcpu))
  exact hstl.trans (orders_foldl
    (fun m w hcpu => orders_wakeElapsed hcpu c w) (m.elapsed ticks cpu) (hstl.cpuCount ▸ hcpu))

section Timed

variable (hc : c < m.cpuCount)

include hc

theorem orders_wakeExpiredSleepers (ticks : ℕ) : Orders m (m.wakeExpiredSleepers c ticks) := by
  rw [wakeExpiredSleepers]
  have hcp := lt_cpuCount_of_mem hc
  generalize c :: (List.range m.cpuCount).filter (· ≠ c) = cpus at hcp
  induction cpus generalizing m with
  | nil => exact .refl m
  | cons cpu cpus ih =>
    have hps := orders_wakeReadyThreads (hcp cpu mem_cons_self) c ticks
    refine hps.trans (ih (hps.cpuCount ▸ hc) fun cpu' hcpu' => ?_)
    rw [hps.cpuCount]
    exact hcp cpu' (mem_cons_of_mem _ hcpu')

/-- Only a thread that is not FIFO loses the CPU at the end of a time slice. -/
theorem orders_endTimeSlice (ticks : ℕ) (allowPreemption : Bool) :
    Orders m (m.endTimeSlice c ticks allowPreemption) := by
  rw [endTimeSlice]
  split
  · exact .refl m
  split
  · exact .refl m
  rename_i hfifo
  have hyi : m.Yields c := by
    rw [Yields]
    cases hk : (m.cpus c).current with
    | none => rfl
    | some k => simpa [hk, isFifo] using hfifo
  split
  · exact orders_yieldCurrentThread hc hyi
  have hprem := orders_preemptCurrentThreadSimulated hc hyi
  dsimp only
  split
  · exact hprem.trans (orders_dispatchNextSimulated ..)
  · exact hprem

theorem orders_handleLocalTimerTick (ticks : ℕ) (allowPreemption : Bool) :
    Orders m (m.handleLocalTimerTick c ticks allowPreemption) := by
  have hage := orders_ageCurrent m c
  have hwake := hage.trans (orders_wakeExpiredSleepers (hage.cpuCount ▸ hc) ticks)
  exact hwake.trans (orders_endTimeSlice (hwake.cpuCount ▸ hc) ticks allowPreemption)

theorem orders_placeThread (target : ℕ) (k : ThreadKey) (suspended : Bool) :
    Orders m (m.placeThread c target k suspended) := by
  have haff : Orders m (m.modifyThread k fun thread =>
    { thread with cpuAffinity := target }) := .of_cpus rfl
  rw [placeThread]
  split
  · exact haff.trans (.of_cpus rfl)
  refine haff.trans (orders_placeReady ?_ k)
  split
  · assumption
  · exact hc

theorem orders_newThread {pid : ℕ} {policy : ThreadSchedPolicy} (h : m.newThread c pid p policy =
    some (k, m')) : Orders m m' := by
  rw [newThread] at h
  split at h
  · cases h
  split at h
  · cases h
    refine Orders.trans ?_ (orders_terminateThread ?_ _ none)
    · exact .of_cpus rfl
    · exact hc
  · cases h
    exact .of_cpus rfl

theorem orders_resumeSuspendedProcess (pid : ℕ) : Orders m (m.resumeSuspendedProcess c pid) := by
  rw [resumeSuspendedProcess]
  split
  · exact .refl m
  split
  · exact .refl m
  split
  · exact .of_cpus rfl
  refine Orders.trans ?_ (orders_placeReady ?_ _)
  · exact .of_cpus rfl
  · exact cpuOf_lt hc

end Timed

end Operations

/-! ### Runs on one CPU -/

/-- No FIFO thread gives up the CPU. -/
def Op.KeepsOrder (m : Machine) : Op → Prop
  | .yield c | .preempt c => m.Yields c
  | .schedule c _ => m.contextSwitch = false → m.Yields c
  | _ => True

section Runs

variable {m : Machine}

theorem orders_exec (hm : m.Sound) (hone : m.cpuCount = 1) (op : Op) (hen : op.Enabled m)
    (hord : op.KeepsOrder m) : Orders m (op.exec m) := by
  cases op with
  | spawn c target priority policy suspended =>
    show Orders m (m.spawn c target priority policy suspended)
    rw [spawn]
    split
    · exact .of_cpus rfl
    rename_i k m₁ hnew
    have hfnd : Orders m (m.found { state := if suspended then .new else .ready }) :=
      .of_cpus rfl
    have hnew := hfnd.trans (orders_newThread hen hnew)
    exact hnew.trans (orders_placeThread (hnew.cpuCount ▸ hen) ..)
  | spawnThread c target pid priority policy =>
    show Orders m (m.spawnThread c target pid priority policy)
    rw [spawnThread]
    split
    · exact .refl m
    rename_i k m₁ hnew
    have hnew := orders_newThread hen.1 hnew
    exact hnew.trans (orders_placeThread (hnew.cpuCount ▸ hen.1) ..)
  | resume c pid => exact orders_resumeSuspendedProcess hen pid
  | schedule c prepared => exact orders_schedule hm hen.1 hen.2 hord prepared
  | yield c | preempt c => exact orders_yieldCurrentThread hen hord
  | block c event deadline | sleep c now ticks => exact orders_blockCurrentThread ..
  | wake c k => exact orders_wakeThread hen k
  | tick c ticks allow =>
    have hbos := orders_boostStarvedThreads hen
    exact hbos.trans (orders_handleLocalTimerTick (hbos.cpuCount ▸ hen) ticks allow)
  | localTick c ticks allow => exact orders_handleLocalTimerTick hen ticks allow
  | exit c reason =>
    show Orders m (m.terminateCurrentThread c reason)
    rw [terminateCurrentThread]
    split
    · exact (orders_finishCurrentThread hen reason).trans (orders_afterLeaving ..)
    · exact .refl m
  | kill c pid signal => exact orders_requestTermination hen pid _
  | steal c victim =>
    show Orders m (m.tryStealWork c victim)
    rw [tryStealWork, if_pos (by omega)]
    exact .refl m
  | reap pid =>
    show Orders m ((m.reap pid).getD m)
    rw [reap]
    split
    · exact .of_cpus rfl
    · exact .refl m
  | setPolicy k policy => exact .of_cpus rfl

theorem level_lt_of_split {before after : List ThreadPriority} {p p' : ThreadPriority}
    (h : descending = before ++ p :: after) (hp' : p' ∉ before) : p'.level < p.level ∨ p' = p := by
  match before, h with
  | [], h => cases h; cases p' <;> simp [level]
  | [_], h => cases h; cases p' <;> simp_all [level]
  | [_, _], h => cases h; cases p' <;> simp_all [level]
  | [_, _, _], h => cases h; cases p' <;> simp_all
  | _ :: _ :: _ :: _ :: _, h => simp [descending] at h

/-- What the dispatcher may take: a ready thread of a queue, and no other one of a higher priority
or queued before it in the same one. -/
def Machine.First (m : Machine) (k : ThreadKey) : Prop :=
  m.isReady k = true ∧ ∃ p, 0 < m.queued 0 p k ∧ ∀ k' p', m.isReady k' = true →
    0 < m.queued 0 p' k' → p'.level < p.level ∨ p' = p ∧ (k' = k ∨ m.queuedAt k < m.queuedAt k')

/-- **The dispatcher takes the first thread**, and none only if there is none. -/
theorem takeNext_first (hm : m.Ordered) : match (m.takeNextDispatchableThread 0).1 with
    | some k => m.First k | none => ∀ k p, m.isReady k = true → m.queued 0 p k = 0 := by
  rw [takeNextDispatchableThread]
  have h := takeNext_spec 0 descending m
  generalize m.takeNext 0 descending = found at h
  cases h with
  | none s' drops empty =>
    intro k p hready
    obtain ⟨dropped, hqueue, hdropped⟩ := drops.queue p
    rw [empty p (by cases p <;> decide), append_nil, append_nil] at hqueue
    refine count_eq_zero.mpr fun hk => ?_
    rw [hdropped k (hqueue ▸ hk)] at hready
    cases hready
  | some k s' before p₀ after split ready drops empty =>
    refine ⟨ready, p₀, ?_, fun k' p' hready hpos => ?_⟩
    · obtain ⟨dropped, hqueue, -⟩ := drops.queue p₀
      refine count_pos_iff.mpr ?_
      rw [hqueue, takenAt]
      simp
    obtain ⟨dropped, hqueue, hdropped⟩ := drops.queue p'
    have hmem : k' ∈ dropped ++ takenAt p₀ k p' ++ s'.readyQueues p' :=
      hqueue ▸ count_pos_iff.mp hpos
    have hnot : k' ∉ dropped := fun hk => by
      rw [hdropped k' hk] at hready
      cases hready
    have hbef : p' ∉ before := by
      intro hp
      have hp₀ : p' ≠ p₀ := by
        rintro rfl
        have hnd : descending.Nodup := by decide
        rw [split] at hnd
        exact (nodup_append.mp hnd).2.2 _ hp _ mem_cons_self rfl
      rw [empty p' hp, takenAt, if_neg hp₀] at hmem
      exact hnot (by simpa using hmem)
    refine (level_lt_of_split split hbef).imp_right fun hp => ⟨hp, ?_⟩
    rw [hp, takenAt, if_pos rfl, append_assoc, mem_append] at hmem
    rcases mem_cons.mp (hmem.resolve_left hnot) with hk | hk
    · exact .inl hk
    right
    rw [hp] at hqueue
    have hpr := hm.pairwise p₀
    rw [hqueue, takenAt, if_pos rfl, append_assoc] at hpr
    exact rel_of_pairwise_cons (pairwise_append.mp hpr).2.1 hk

/-- The slot of a process holds a thread back. -/
def Machine.isHeld (m : Machine) (k : ThreadKey) : Bool :=
  (m.processes k.pid).any (·.suspendedThread = some k.tid)

/-- In how many places a thread is: on the CPU, in the ready queues, in the waiting queue, and in
the slot of its process. -/
def Machine.places (m : Machine) (k : ThreadKey) : ℕ :=
  (if (m.cpus 0).current = some k then 1 else 0) +
    (descending.map fun p => m.queued 0 p k).sum + m.parked 0 k +
    if m.isHeld k then 1 else 0

/-- A place agrees with the state and the priority of the thread. -/
def Machine.Agrees (m : Machine) (k : ThreadKey) (t : Thread) : Prop :=
  match t.state with
  | .running => (m.cpus 0).current = some k
  | .ready => m.queued 0 t.priority k = 1 ∨ m.isHeld k = true
  | .waiting => m.parked 0 k = 1
  | .stopped => False
  | .terminated => True

theorem isHeld_iff {k : ThreadKey} : m.isHeld k = true ↔ m.heldBack k := by
  rw [isHeld, Option.any_eq_true]
  simp [heldBack]

/-- On one CPU a thread that is in its place is in one place. -/
theorem Machine.Placed.places_eq_one {k : ThreadKey} {t : Thread} (h : m.Placed k)
    (hone : m.cpuCount = 1) (ht : m.threads k = some t) (hlv : t.state ≠ .terminated) :
    m.places k = 1 ∧ m.Agrees k t := by
  have hview : m.view k = some t.view := by
    rw [view, ht]
    rfl
  have hhe : ¬m.heldBack k → m.isHeld k = false := fun hn =>
    Bool.eq_false_iff.mpr fun hh => hn (isHeld_iff.mp hh)
  have hst : ∀ {v : View}, m.view k = some v → t.state = v.state ∧ t.priority = v.priority := by
    intro v hv
    cases hview.symm.trans hv
    exact ⟨rfl, rfl⟩
  rw [places, Agrees]
  cases h with
  | absent view => cases hview.symm.trans view
  | ready p c view online queued parked runs held =>
    obtain rfl : c = 0 := by omega
    rw [(hst view).1, (hst view).2, hhe held, parked hone,
      if_neg (show ¬(m.cpus 0).current = some k from runs 0)]
    simp only [queued]
    cases p <;> simp [descending]
  | running p c view online queued parked runs held =>
    obtain rfl : c = 0 := by omega
    rw [(hst view).1, hhe held, parked hone,
      if_pos (show (m.cpus 0).current = some k from (runs 0).mpr rfl)]
    simp only [queued]
    exact ⟨by simp, (runs 0).mpr rfl⟩
  | waiting p c view online queued pos parked runs held =>
    obtain rfl : c = 0 := by omega
    rw [(hst view).1, hhe held, parked hone,
      if_neg (show ¬(m.cpus 0).current = some k from runs 0)]
    simp only [queued]
    simp
  | held p view queued parked runs held =>
    rw [(hst view).1, isHeld_iff.mpr held, parked,
      if_neg (show ¬(m.cpus 0).current = some k from runs 0)]
    simp only [queued]
    simp
  | terminated p b view => exact absurd (hst view).1 hlv

/-- **Placement and order.** On one CPU, in every state that a run reaches in which no fatal signal
finds a thread of its process running and no FIFO thread gives up the CPU, a thread that has not
ended is in exactly one place, which agrees with it, and the dispatcher takes the first thread. -/
theorem scheduler_placement {switch : Bool}
    (hrun : Reaches (fun m op => op.Spares m ∧ op.KeepsOrder m) (boot 1 switch) m) :
    (∀ k t, m.threads k = some t → t.state ≠ .terminated → m.places k = 1 ∧ m.Agrees k t) ∧
      match (m.takeNextDispatchableThread 0).1 with
      | some k => m.First k
      | none => ∀ k p, m.isReady k = true → m.queued 0 p k = 0 := by
  have hm : m.Sound ∧ m.cpuCount = 1 ∧ m.Ordered := by
    refine hrun.invariant (I := fun m => m.Sound ∧ m.cpuCount = 1 ∧ m.Ordered)
      ⟨sound_boot 1 switch, rfl, fun _ => List.Pairwise.nil, nofun⟩ ?_
    rintro m op ⟨hsnd, hone, horde⟩ hen ⟨hspar, hord⟩
    obtain ⟨hsnd', hcpu, -⟩ := sound_exec hsnd op hen hspar
    exact ⟨hsnd', hcpu.trans hone, (orders_exec hsnd hone op hen hord).ordered hone horde⟩
  exact ⟨fun k t ht hlv => (hm.1.placed k).places_eq_one hm.2.1 ht hlv, takeNext_first hm.2.2⟩

end Runs

/-- Of two processes that have been started the first one is dispatched: it is on the CPU, and the
other one is next. -/
theorem scheduler_placement_of_two : ∃ m : Machine,
    (m.cpus 0).current = some ⟨2, 1⟩ ∧ m.places ⟨2, 1⟩ = 1 ∧ m.places ⟨3, 1⟩ = 1 ∧
      m.First ⟨3, 1⟩ := by
  have hrun : Allowed (fun m op => op.Spares m ∧ op.KeepsOrder m) (boot 1 true)
      [.spawn 0 0 .normal .schedDefault false, .spawn 0 0 .normal .schedDefault false,
        .schedule 0 true] :=
    ⟨by decide, ⟨trivial, trivial⟩, by decide, ⟨trivial, trivial⟩, by decide, ⟨trivial, nofun⟩,
      trivial⟩
  obtain ⟨hpls, hfirst⟩ := scheduler_placement hrun.reaches
  refine ⟨_, by decide +kernel, (hpls ⟨2, 1⟩ _ rfl ?_).1, (hpls ⟨3, 1⟩ _ rfl ?_).1, hfirst⟩
  · decide +kernel
  · decide +kernel

/-- **A killed thread is lost, and a FIFO thread overtakes.** A thread whose process is killed while
it runs and which then yields still says that it runs, and is in no place; and a FIFO thread that
yields is next, before a thread of the same priority that has been queued longer. -/
theorem scheduler_misplacement : (∃ m, Reaches (fun _ _ => True) (boot 1 true) m ∧
      (m.threads ⟨2, 1⟩).map (·.state) = some .running ∧ m.places ⟨2, 1⟩ = 0) ∧
    ∃ m, Reaches (fun _ _ => True) (boot 1 true) m ∧
      (m.takeNextDispatchableThread 0).1 = some ⟨2, 1⟩ ∧ m.isReady ⟨3, 1⟩ = true ∧
      m.queued 0 .normal ⟨2, 1⟩ = 1 ∧ m.queued 0 .normal ⟨3, 1⟩ = 1 ∧
      m.queuedAt ⟨3, 1⟩ < m.queuedAt ⟨2, 1⟩ := by
  have hkill : Allowed (fun _ _ => True) (boot 1 true)
      [.spawn 0 0 .normal .schedDefault false, .spawn 0 0 .normal .schedDefault false,
        .schedule 0 true, .kill 0 2 9, .yield 0] :=
    ⟨by decide, trivial, by decide, trivial, by decide, trivial, by decide, trivial, by decide,
      trivial, trivial⟩
  have hfifo : Allowed (fun _ _ => True) (boot 1 true)
      [.spawn 0 0 .normal .schedFifo false, .spawn 0 0 .normal .schedDefault false,
        .schedule 0 true, .yield 0] :=
    ⟨by decide, trivial, by decide, trivial, by decide, trivial, by decide, trivial, trivial⟩
  exact ⟨⟨_, hkill.reaches, by decide +kernel, by decide +kernel⟩,
    ⟨_, hfifo.reaches, by decide +kernel, by decide +kernel, by decide +kernel, by decide +kernel,
      by decide +kernel⟩⟩

end Protofire.Scheduling
