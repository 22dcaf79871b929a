import Protofire.Process.Moves

/-!
# To the CPU and back

The dispatcher takes the first thread that is ready from the queues, from the highest priority on,
and drops what it finds before it. `takeNext_spec` says what is left of the queues; from it follow
both that nobody else is moved and, in `Order`, that no thread is passed over. A thread gives up the
CPU by going back to its queue (`leaveCpu`) or by being parked (`blockCurrentThread`).
-/

namespace Protofire.Scheduling

open List Machine Option Quiet Scheduler ThreadPriority

/-! ### Taking the next thread -/

section TakeNext

variable {m : Machine} {c : ℕ} {k : ThreadKey}

/-- The queues of a CPU after the dispatcher has looked for a thread. What it dropped was not ready.
-/
structure Drops (m : Machine) (c : ℕ) (s' : Scheduler) (taken : ThreadPriority → List ThreadKey) :
    Prop where
  waitingQueue : s'.waitingQueue = (m.cpus c).waitingQueue
  current : s'.current = (m.cpus c).current
  queue : ∀ p, ∃ dropped, (m.cpus c).readyQueues p = dropped ++ taken p ++ s'.readyQueues p ∧
    ∀ k ∈ dropped, m.isReady k = false

/-- What the dispatcher takes. -/
def takenAt (p₀ : ThreadPriority) (k : ThreadKey) (p : ThreadPriority) : List ThreadKey :=
  if p = p₀ then [k] else []

/-- What a search through the queues from the given priorities comes to. -/
inductive TakesNext (m : Machine) (c : ℕ) (ps : List ThreadPriority) :
    Option ThreadKey × Machine → Prop
  | none (s' : Scheduler) (drops : Drops m c s' fun _ => [])
    (empty : ∀ p ∈ ps, s'.readyQueues p = []) :
      TakesNext m c ps (none, m.modifyCpu c fun _ => s')
  | some (k : ThreadKey) (s' : Scheduler) (before : List ThreadPriority) (p₀ : ThreadPriority)
      (after : List ThreadPriority) (split : ps = before ++ p₀ :: after)
        (ready : m.isReady k = true)
      (drops : Drops m c s' (takenAt p₀ k)) (empty : ∀ p ∈ before, s'.readyQueues p = []) :
      TakesNext m c ps (some k, m.modifyCpu c fun _ => s')

theorem modifyCpu_modifyCpu (f : Scheduler → Scheduler) (s' : Scheduler) :
    (m.modifyCpu c f).modifyCpu c (fun _ => s') = m.modifyCpu c fun _ => s' := by
  simp [modifyCpu]

theorem modifyCpu_self (m : Machine) (c : ℕ) : (m.modifyCpu c fun _ => m.cpus c) = m := by
  simp [modifyCpu]

variable {s' : Scheduler}

/-- One queue has been emptied before the others are searched. -/
theorem Drops.emptied {p : ThreadPriority} {taken : ThreadPriority → List ThreadKey}
    (hno : ∀ k ∈ (m.cpus c).readyQueues p, m.isReady k = false)
    (h : Drops (m.modifyCpu c fun s => s.setQueue p []) c s' taken) :
    Drops m c s' taken ∧ taken p = [] ∧ s'.readyQueues p = [] := by
  have hp := h.queue p
  rw [cpus_modifyCpu, readyQueues_setQueue] at hp
  obtain ⟨dropped, hnil, -⟩ := hp
  have htkn : taken p = [] ∧ s'.readyQueues p = [] := by
    have := hnil.symm
    simp only [append_eq_nil_iff] at this
    exact ⟨this.1.2, this.2⟩
  refine ⟨⟨?_, ?_, fun p' => ?_⟩, htkn⟩
  · rw [h.waitingQueue, cpus_modifyCpu]
    rfl
  · rw [h.current, cpus_modifyCpu]
    rfl
  by_cases hp' : p' = p
  · refine ⟨(m.cpus c).readyQueues p', ?_, hp' ▸ hno⟩
    rw [hp', htkn.1, htkn.2, append_nil, append_nil]
  have := h.queue p'
  rw [cpus_modifyCpu, readyQueues_setQueue_of_ne _ _ hp'] at this
  exact this

/-- **What is left of the queues when the dispatcher has looked for a thread.** -/
theorem takeNext_spec (c : ℕ) (ps : List ThreadPriority) (m : Machine) :
    TakesNext m c ps (m.takeNext c ps) := by
  induction ps generalizing m with
  | nil =>
    have h : TakesNext m c [] (none, m.modifyCpu c fun _ => m.cpus c) :=
      .none (m.cpus c) ⟨rfl, rfl, fun p => ⟨[], rfl, nofun⟩⟩ nofun
    rw [modifyCpu_self] at h
    exact h
  | cons p ps ih =>
    rw [takeNext]
    split
    · rename_i hdr
      have hno : ∀ k ∈ (m.cpus c).readyQueues p, m.isReady k = false := by
        simpa using dropWhile_eq_nil_iff.mp hdr
      have hre := ih (m.modifyCpu c fun s => s.setQueue p [])
      generalize (m.modifyCpu c fun s => s.setQueue p []).takeNext c ps = found at hre
      cases hre with
      | none s' drops empty =>
        obtain ⟨hdrops, -, hnil⟩ := drops.emptied hno
        rw [modifyCpu_modifyCpu]
        exact .none s' hdrops (forall_mem_cons.mpr ⟨hnil, empty⟩)
      | some k s' before p₀ after split ready drops empty =>
        obtain ⟨hdrops, -, hnil⟩ := drops.emptied hno
        rw [modifyCpu_modifyCpu]
        exact .some k s' (p :: before) p₀ after (by rw [split]; rfl) ready hdrops
          (forall_mem_cons.mpr ⟨hnil, empty⟩)
    · rename_i k queue hdr
      have hready : m.isReady k = true := by
        have hne : ((m.cpus c).readyQueues p).dropWhile (fun k => !m.isReady k) ≠ [] := by
          rw [hdr]
          exact nofun
        have hhd := head_dropWhile_not (fun k => !m.isReady k) hne
        simpa [hdr] using hhd
      refine .some k ((m.cpus c).setQueue p queue) [] p ps rfl hready ⟨rfl, rfl, fun p' => ?_⟩ nofun
      by_cases hp : p' = p
      · refine ⟨((m.cpus c).readyQueues p).takeWhile fun k => !m.isReady k, ?_, fun k' hk' => ?_⟩
        · rw [hp, takenAt, if_pos rfl, readyQueues_setQueue, append_assoc, singleton_append,
            ← hdr, takeWhile_append_dropWhile]
        · simpa using mem_takeWhile_imp hk'
      · refine ⟨[], ?_, nofun⟩
        rw [takenAt, if_neg hp, readyQueues_setQueue_of_ne _ _ hp]
        rfl

/-- A thread that is not ready is in no ready queue, unless it has ended. -/
theorem Machine.Placed.not_queued (h : m.Placed k) (hready : m.isReady k = false) :
    (∀ c p, m.queued c p k = 0) ∨ ∃ v, m.view k = some v ∧ v.state = .terminated := by
  cases h with
  | absent view queued | running p c view online queued | waiting p c view online queued
  | held p view queued =>
    exact .inl queued
  | ready p c view =>
    rw [isReady_iff.mpr ⟨_, view, rfl⟩] at hready
    cases hready
  | terminated p b view => exact .inr ⟨_, view, rfl⟩

theorem count_eq_zero_of_placed (h : m.Placed k) (hready : m.isReady k = false)
    (hlv : ¬∃ v, m.view k = some v ∧ v.state = .terminated) (p : ThreadPriority) :
    ((m.cpus c).readyQueues p).count k = 0 :=
  (h.not_queued hready).resolve_right hlv c p

/-- The threads that were dropped were in no place there, and those that were not taken are kept. -/
theorem Drops.kept {taken : ThreadPriority → List ThreadKey} (h : Drops m c s' taken)
    (hplaced : m.Placed k) (hk : ∀ p, k ∉ taken p) : Kept m (m.modifyCpu c fun _ => s') k := by
  refine kept_modifyReady ?_ h.waitingQueue h.current
  by_cases hlv : ∃ v, m.view k = some v ∧ v.state = .terminated
  · exact .inr hlv
  refine .inl fun p => ?_
  obtain ⟨dropped, hqueue, hdropped⟩ := h.queue p
  have hzero : dropped.count k = 0 := by
    by_cases hready : m.isReady k = true
    · refine count_eq_zero.mpr fun hmem => ?_
      rw [hdropped k hmem] at hready
      cases hready
    · have := count_eq_zero_of_placed (c := c) hplaced (by simpa using hready) hlv p
      rw [hqueue, count_append, count_append] at this
      omega
  rw [hqueue, count_append, count_append, count_eq_zero.mpr (hk p)]
  omega

theorem quiet_of_drops (hplaced : ∀ k, m.Placed k) (h : Drops m c s' fun _ => []) :
    Quiet m (m.modifyCpu c fun _ => s') :=
  ⟨calm_modifyCpu .., fun k => h.kept (hplaced k) fun _ => not_mem_nil⟩

theorem touches_of_drops {p₀ : ThreadPriority} (hplaced : ∀ k, m.Placed k)
    (h : Drops m c s' (takenAt p₀ k)) : Touches m (m.modifyCpu c fun _ => s') k := by
  refine ⟨calm_modifyCpu .., fun k' hk => h.kept (hplaced k') fun p hmem => hk ?_⟩
  rw [takenAt] at hmem
  split at hmem
  · exact mem_singleton.mp hmem
  · cases hmem

/-- **The thread that is taken is ready, in the queue of its priority, and is in no place then.** -/
theorem loose_of_drops {p₀ : ThreadPriority} (hplaced : m.Placed k) (hready : m.isReady k = true)
    (h : Drops m c s' (takenAt p₀ k)) : (m.modifyCpu c fun _ => s').Loose p₀ k := by
  obtain ⟨v, hv, hst⟩ := isReady_iff.mp hready
  have hcnt : ∀ p, ((m.cpus c).readyQueues p).count k =
      (s'.readyQueues p).count k + if p = p₀ then 1 else 0 := by
    intro p
    obtain ⟨dropped, hqueue, hdropped⟩ := h.queue p
    have hzero : dropped.count k = 0 := by
      refine count_eq_zero.mpr fun hmem => ?_
      rw [hdropped k hmem] at hready
      cases hready
    rw [hqueue, count_append, count_append, hzero, takenAt]
    split
    · rw [count_singleton_self]
      omega
    · simp
  have hone : 0 < m.queued c p₀ k := by
    rw [queued, hcnt, if_pos rfl]
    omega
  cases hplaced with
  | ready p c₀ view online queued parked runs held alive =>
    have hplace : c = c₀ ∧ p₀ = p := by
      by_contra hne
      rw [queued, if_neg hne] at hone
      exact lt_irrefl 0 hone
    obtain ⟨rfl, rfl⟩ := hplace
    refine ⟨view, fun c' p' => ?_, fun hcpu c' => ?_, fun c' hr => runs c' ?_, held, alive⟩
    · have hq := queued c' p'
      rw [Machine.queued] at hq ⊢
      by_cases hc : c' = c
      · rw [hc, hcnt] at hq
        rw [hc, cpus_modifyCpu]
        by_cases hp : p' = p₀
        · rw [if_pos hp, if_pos ⟨rfl, hp⟩] at hq
          omega
        · rw [if_neg hp, if_neg fun h => hp h.2] at hq
          omega
      · rw [cpus_modifyCpu_of_ne _ hc, hq, if_neg fun h => hc h.1]
    · have hq := parked hcpu c'
      rw [Machine.parked] at hq ⊢
      by_cases hc : c' = c
      · rw [hc, cpus_modifyCpu, h.waitingQueue, ← hc, hq]
      · rw [cpus_modifyCpu_of_ne _ hc, hq]
    · rw [Machine.runs] at hr ⊢
      by_cases hc : c' = c
      · rw [hc, cpus_modifyCpu, h.current] at hr
        rw [hc, hr]
      · rwa [cpus_modifyCpu_of_ne _ hc] at hr
  | absent view => cases hv.symm.trans view
  | running p c' view | waiting p c' view | terminated p b view =>
    cases hv.symm.trans view
    cases hst
  | held p view queued => exact absurd (queued c p₀) (ne_of_gt hone)

/-- Nothing is taken from empty queues. -/
theorem takeNext_eq_none (hemp : (m.cpus c).readyQueueLen = 0) (ps : List ThreadPriority) :
    (m.takeNext c ps).1 = none := by
  have hnil : ∀ p, (m.cpus c).readyQueues p = [] := by
    intro p
    simp only [readyQueueLen, descending, map_cons, sum_cons] at hemp
    refine length_eq_zero_iff.mp ?_
    cases p <;> omega
  have h := takeNext_spec c ps m
  generalize m.takeNext c ps = found at h
  cases h with
  | none => rfl
  | some k s' before p₀ after split ready drops =>
    obtain ⟨dropped, hqueue, -⟩ := drops.queue p₀
    rw [hnil, takenAt] at hqueue
    simp at hqueue

end TakeNext

/-! ### Becoming current -/

section Dispatch

variable {m : Machine} {c : ℕ} {k : ThreadKey} {p : ThreadPriority}

theorem Machine.Loose.isRevivable (h : m.Loose p k) : m.isRevivable k = true :=
  isRevivable_iff.mpr ⟨⟨_, h.view, nofun⟩, h.alive⟩

theorem cpus_setProcessAndThreadState (ps : ProcessState) (ts : ThreadState) :
    (m.setProcessAndThreadState k ps ts).cpus = m.cpus := by
  rw [setProcessAndThreadState]
  split <;> rfl

/-- The CPU is taken or left by one thread. -/
theorem touches_setCurrent {f : Scheduler → Scheduler}
    (hq : (f (m.cpus c)).readyQueues = (m.cpus c).readyQueues)
    (hw : (f (m.cpus c)).waitingQueue = (m.cpus c).waitingQueue)
    (hr : ∀ k' ≠ k, (f (m.cpus c)).current = some k' ↔ (m.cpus c).current = some k') :
    Touches m (m.modifyCpu c f) k :=
  ⟨calm_modifyCpu .., fun k' hk => kept_modifyCpu (.inl fun _ => by rw [hq])
    (le_of_eq (by rw [hw])) (fun _ _ _ => by rw [hw]) (hr k' hk)⟩

theorem touches_makeCurrent (hidle : (m.cpus c).current = none) :
    Touches m (m.makeCurrent c k) k := by
  have hset : Touches m (m.setProcessAndThreadState k .running .running) k :=
    touches_setProcessAndThreadState nofun nofun
  refine hset.trans (touches_setCurrent rfl rfl ?_)
  intro k' hk
  rw [cpus_setProcessAndThreadState, hidle]
  exact iff_of_false (fun h => hk (Option.some.inj h).symm) nofun

/-- **A ready thread that is given an idle CPU is in its place.** -/
theorem placed_makeCurrent (hc : c < m.cpuCount) (h : m.Loose p k) :
    (m.makeCurrent c k).Placed k := by
  have hset : Touches m (m.setProcessAndThreadState k .running .running) k :=
    touches_setProcessAndThreadState nofun nofun
  have hcp : ∀ c', (m.makeCurrent c k).cpus c' =
      if c' = c then { m.cpus c with current := some k } else m.cpus c' := by
    intro c'
    rw [makeCurrent]
    split
    · rename_i hc'
      rw [hc', cpus_modifyCpu, cpus_setProcessAndThreadState]
    · rename_i hc'
      rw [cpus_modifyCpu_of_ne _ hc', cpus_setProcessAndThreadState]
  refine .running p c (view_setProcessAndThreadState h.view h.isRevivable)
    (hset.calm.cpuCount ▸ hc) (fun c' p' => ?_) (fun hone c' => ?_) (fun c' => ?_)
    (fun hh => h.held ((hset.calm.heldBack k).mp hh)) ((hset.calm.alive k.pid).mpr h.alive)
  · have := h.queued c' p'
    rw [queued, hcp]
    split
    · rename_i hc'
      rw [hc'] at this
      exact this
    · exact this
  · have := h.parked (hset.calm.cpuCount ▸ hone) c'
    rw [parked, hcp]
    split
    · rename_i hc'
      rw [hc'] at this
      exact this
    · exact this
  · rw [runs, hcp]
    split
    · rename_i hc'
      exact iff_of_true rfl hc'
    · rename_i hc'
      exact iff_of_false (h.runs c') hc'

variable {m' : Machine}

/-- An operation that touches one thread and leaves it in its place. -/
theorem Touches.placed (h : Touches m m' k) (hplaced : ∀ k, m.Placed k) (hk : m'.Placed k)
    (k' : ThreadKey) : m'.Placed k' := by
  by_cases hne : k' = k
  · rw [hne]
    exact hk
  · exact (hplaced k').calm (h.kept k' hne) h.calm

/-- Everybody is in a place, before and after. -/
structure Settles (m m' : Machine) : Prop where
  calm : Calm m m'
  placed : ∀ k, m'.Placed k

theorem Quiet.settles (h : Quiet m m') (hplaced : ∀ k, m.Placed k) : Settles m m' :=
  ⟨h.calm, fun k => (hplaced k).calm (h.kept k) h.calm⟩

theorem Touches.settles (h : Touches m m' k) (hplaced : ∀ k, m.Placed k) (hk : m'.Placed k) :
    Settles m m' := ⟨h.calm, h.placed hplaced hk⟩

theorem Settles.trans {m m'' : Machine} (h : Settles m m') (h' : Settles m' m'') : Settles m m'' :=
  ⟨h.calm.trans h'.calm, h'.placed⟩

/-- **The dispatcher of the host**: it runs with nobody on the CPU, or with nobody to take. -/
theorem settles_dispatchNextSimulated (hplaced : ∀ k, m.Placed k) (hc : c < m.cpuCount)
    (hidle : (m.cpus c).current = none ∨ (m.cpus c).readyQueueLen = 0) :
    Settles m (m.dispatchNextSimulated c) := by
  rw [dispatchNextSimulated, takeNextDispatchableThread]
  have h := takeNext_spec c descending m
  have hno := fun h => takeNext_eq_none (m := m) (c := c) h descending
  generalize m.takeNext c descending = found at h hno
  cases h with
  | none s' drops => exact (quiet_of_drops hplaced drops).settles hplaced
  | some k s' before p₀ after split ready drops =>
    have hcur : (m.cpus c).current = none := hidle.resolve_right fun h => nomatch hno h
    have hidle' : ((m.modifyCpu c fun _ => s').cpus c).current = none := by
      rw [cpus_modifyCpu, drops.current, hcur]
    exact ((touches_of_drops hplaced drops).trans (touches_makeCurrent hidle')).settles hplaced
      (placed_makeCurrent hc (loose_of_drops (hplaced k) ready drops))

end Dispatch

/-! ### Giving up the CPU -/

section Leave

variable {m : Machine} {c : ℕ} {k : ThreadKey}

theorem quiet_prune (hplaced : ∀ k, m.Placed k) (c : ℕ) :
    Quiet m (m.pruneNondispatchableReadyThreads c) := by
  refine ⟨calm_modifyCpu .., fun k => kept_modifyReady ?_ rfl rfl⟩
  by_cases hready : m.isReady k = true
  · exact .inl fun p => count_filter hready
  have hready : m.isReady k = false := by simpa using hready
  by_cases hlv : ∃ v, m.view k = some v ∧ v.state = .terminated
  · exact .inr hlv
  refine .inl fun p => ?_
  rw [count_eq_zero_of_placed (hplaced k) hready hlv p]
  refine count_eq_zero.mpr fun hmem => ?_
  rw [(mem_filter.mp hmem).2] at hready
  cases hready

theorem touches_clearCurrent (hk : m.runs c k) :
    Touches m (m.modifyCpu c fun s => { s with current := none }) k := by
  refine touches_setCurrent rfl rfl fun k' hne => iff_of_false nofun fun h => hne ?_
  exact Option.some.inj (h.symm.trans hk)

/-- What is known of the thread that runs: on a machine with more than one CPU it may have been
ended from another one. -/
inductive Machine.Runner (m : Machine) (c : ℕ) (k : ThreadKey) : Prop
  | running (p : ThreadPriority) (view : m.view k = some ⟨.running, p, false⟩)
      (online : c < m.cpuCount) (queued : ∀ c' p', m.queued c' p' k = 0)
      (parked : m.cpuCount = 1 → ∀ c', m.parked c' k = 0) (runs : ∀ c', m.runs c' k ↔ c' = c)
      (held : ¬m.heldBack k) (alive : m.alive k.pid)
  | terminated (p : ThreadPriority) (b : Bool) (view : m.view k = some ⟨.terminated, p, b⟩)
      (many : m.cpuCount ≠ 1) (held : ¬m.heldBack k)

theorem Machine.Placed.runner (h : m.Placed k) (hk : m.runs c k) : m.Runner c k := by
  cases h with
  | absent view queued parked runs | ready p c' view online queued parked runs
  | waiting p c' view online queued pos parked runs | held p view queued parked runs =>
    exact absurd hk (runs c)
  | running p c' view online queued parked runs held alive =>
    obtain rfl := (runs c).mp hk
    exact .running p view online queued parked runs held alive
  | terminated p b view runs held =>
    exact .terminated p b view (fun hone => runs hone c hk) held

theorem runs_clearCurrent (hk : m.Runner c k) (hlv : m.live k) (c' : ℕ) :
    ¬(m.modifyCpu c fun s => { s with current := none }).runs c' k := by
  intro hr
  cases hk with
  | running p view online queued parked runs =>
    rw [Machine.runs] at hr
    by_cases hc : c' = c
    · rw [hc, cpus_modifyCpu] at hr
      cases hr
    · rw [cpus_modifyCpu_of_ne _ hc] at hr
      exact hc ((runs c').mp hr)
  | terminated p b view =>
    obtain ⟨v, hv, hlv⟩ := hlv
    cases hv.symm.trans view
    exact hlv rfl

theorem isRevivable_eq_false {p : ThreadPriority} {b : Bool}
    (hv : m.view k = some ⟨.terminated, p, b⟩) : m.isRevivable k = false := by
  rw [Bool.eq_false_iff, ne_eq, isRevivable_iff]
  rintro ⟨⟨v, hv', hlv⟩, -⟩
  cases hv.symm.trans hv'
  exact hlv rfl

section LeavesCpu

variable (hplaced : ∀ k, m.Placed k)

include hplaced

section C

variable (hc : c < m.cpuCount)
include hc

/-- A thread that leaves the CPU goes back to the queue of its priority. -/
theorem settles_requeue (hk : m.runs c k) :
    Settles m (((m.modifyCpu c fun s => { s with current := none }).setProcessAndThreadState k
      .ready
      .ready).requeuePreemptedThread c k) := by
  have hclear := touches_clearCurrent hk
  have hset : Touches (m.modifyCpu c fun s => { s with current := none })
      ((m.modifyCpu c fun s => { s with current := none }).setProcessAndThreadState k .ready .ready)
        k :=
    touches_setProcessAndThreadState (by simp) (by simp)
  have hall := (hclear.trans hset).trans (touches_requeuePreemptedThread _ c k)
  refine hall.settles hplaced ?_
  have hrnr := (hplaced k).runner hk
  have hru := runs_clearCurrent hrnr
  cases hrnr with
  | running p view online queued parked runs held alive =>
    have hrev : (m.modifyCpu c fun s => { s with current := none }).isRevivable k = true :=
      isRevivable_iff.mpr ⟨⟨_, view, by simp⟩, alive⟩
    have hqueu : ∀ c', ((m.modifyCpu c fun s => { s with current := none }).cpus c').readyQueues =
        (m.cpus c').readyQueues ∧ ((m.modifyCpu c fun s => { s with current := none }).cpus
          c').waitingQueue = (m.cpus c').waitingQueue := by
      intro c'
      by_cases hc' : c' = c
      · rw [hc', cpus_modifyCpu]
        exact ⟨rfl, rfl⟩
      · rw [cpus_modifyCpu_of_ne _ hc']
        exact ⟨rfl, rfl⟩
    refine placed_requeuePreemptedThread (p := p) ?_ ⟨?_, fun c' p' => ?_, fun hone c' => ?_,
      fun c' => ?_, fun hh => held ?_, ?_⟩
    · rw [hset.calm.cpuCount]
      exact hc
    · exact view_setProcessAndThreadState (v := ⟨.running, p, false⟩) view hrev
    · rw [Machine.queued, cpus_setProcessAndThreadState, (hqueu c').1]
      exact queued c' p'
    · rw [Machine.parked, cpus_setProcessAndThreadState, (hqueu c').2]
      exact parked (hset.calm.cpuCount ▸ hone) c'
    · rw [Machine.runs, cpus_setProcessAndThreadState]
      exact hru ⟨_, view, by simp⟩ c'
    · exact ((hclear.trans hset).calm.heldBack k).mp hh
    · exact ((hclear.trans hset).calm.alive k.pid).mpr alive
  | terminated p b view many held =>
    have hrev : (m.modifyCpu c fun s => { s with current := none }).isRevivable k = false :=
      isRevivable_eq_false view
    have hready : (m.modifyCpu c fun s => { s with current := none }).isReady k = false := by
      rw [Bool.eq_false_iff, ne_eq, isReady_iff]
      rintro ⟨v, hv, hst⟩
      cases hv.symm.trans view
      cases hst
    rw [setProcessAndThreadState, if_neg (by simp [hrev]),
      requeuePreemptedThread, if_neg (by simp [hready])]
    exact .terminated p b view (fun hone => absurd hone many) held

theorem settles_leaveCpu (hk : m.runs c k) : Settles m (m.leaveCpu c k) := by
  have hprune := quiet_prune hplaced c
  have hsettles := hprune.settles hplaced
  rw [leaveCpu]
  split
  · exact hsettles
  exact hsettles.trans (settles_requeue hsettles.placed (hprune.calm.cpuCount ▸ hc)
    (((hprune.kept k).runs c).mpr hk))

theorem settles_yieldCurrentThread : Settles m (m.yieldCurrentThread c) := by
  rw [yieldCurrentThread]
  cases h : (m.cpus c).current with
  | none => exact (refl m).settles hplaced
  | some k => exact settles_leaveCpu hplaced hc h

theorem settles_afterLeaving (hidle : (m.cpus c).current = none) : Settles m (m.afterLeaving c) :=
    by
  rw [afterLeaving]
  split
  · exact (refl m).settles hplaced
  · exact settles_dispatchNextSimulated hplaced hc (.inl hidle)

/-- `preempt_current_thread_simulated` leaves the CPU idle, or nobody to take. -/
theorem settles_preemptCurrentThreadSimulated :
    Settles m (m.preemptCurrentThreadSimulated c).2 := by
  rw [preemptCurrentThreadSimulated]
  split
  · exact (refl m).settles hplaced
  rename_i k hk
  split
  · exact settles_leaveCpu hplaced hc hk
  rename_i hst
  -- only a thread that has ended from another CPU is dropped here
  refine (touches_clearCurrent hk).settles hplaced ?_
  cases (hplaced k).runner hk with
  | running p view =>
    obtain ⟨t, ht, hv⟩ := map_eq_some_iff.mp view
    refine absurd ((any_eq_true _ _).mpr ⟨t, ht, ?_⟩) hst
    have : t.state = .running := congrArg View.state hv
    simp [this]
  | terminated p b view many held =>
    exact .terminated p b view (fun hone => absurd hone many) held

end C

end LeavesCpu

theorem sameCurrent_requeuePreemptedThread (m : Machine) (c : ℕ) (k : ThreadKey) :
    SameCurrent m (m.requeuePreemptedThread c k) := by
  rw [requeuePreemptedThread]
  split
  · refine SameCurrent.trans (sameCurrent_modifyCpu ?_) (sameCurrent_stamp _ k)
    split <;> rfl
  · exact .refl m

theorem idle_leaveCpu (m : Machine) (c : ℕ) (k : ThreadKey) :
    ((m.leaveCpu c k).cpus c).current = none ∨ ((m.leaveCpu c k).cpus c).readyQueueLen = 0 := by
  rw [leaveCpu]
  split
  · rename_i hlen
    exact .inr hlen
  refine .inl ?_
  rw [(sameCurrent_requeuePreemptedThread ..).current, cpus_setProcessAndThreadState,
    cpus_modifyCpu]

theorem settles_scheduleSimulated_preempt (hplaced : ∀ k, m.Placed k) (hc : c < m.cpuCount) :
    Settles m ((m.preemptCurrentThreadSimulated c).2.dispatchNextSimulated c) := by
  have h := settles_preemptCurrentThreadSimulated hplaced hc
  rw [preemptCurrentThreadSimulated] at h ⊢
  split
  · rename_i hno
    exact settles_dispatchNextSimulated hplaced hc (.inl hno)
  rename_i k hk
  simp only [hk] at h
  split at h
  · rename_i hst
    rw [if_pos hst]
    exact h.trans (settles_dispatchNextSimulated h.placed (h.calm.cpuCount ▸ hc)
      (idle_leaveCpu m c k))
  · rename_i hst
    rw [if_neg hst]
    refine h.trans (settles_dispatchNextSimulated h.placed (h.calm.cpuCount ▸ hc) (.inl ?_))
    rw [cpus_modifyCpu]

end Leave

/-! ### Being parked -/

section Park

variable {m : Machine} {c : ℕ} {k : ThreadKey}

theorem countP_parkThread_of_ne (s : Scheduler) (cleanup : Option EventRef) {k' : ThreadKey}
    (h : k' ≠ k) : (s.parkThread k cleanup).waitingQueue.countP (·.thread = k') =
      s.waitingQueue.countP (·.thread = k') := by
  rw [parkThread, countP_append, countP_filter, countP_singleton, if_neg (by simpa using Ne.symm h)]
  refine countP_congr fun w _ => ?_
  simp only [Bool.and_eq_true, decide_eq_true_eq]
  exact ⟨fun hw => hw.1, fun hw => ⟨hw, fun hk => h (hw.symm.trans hk)⟩⟩

theorem countP_parkThread (s : Scheduler) (cleanup : Option EventRef) (k : ThreadKey) :
    (s.parkThread k cleanup).waitingQueue.countP (·.thread = k) = 1 := by
  rw [parkThread, countP_append, countP_singleton, if_pos (by simp)]
  simp

theorem touches_enterWaitingState (m : Machine) (k : ThreadKey) (deadline : Option ℕ) :
    Touches m (m.enterWaitingState k deadline) k := by
  rw [enterWaitingState]
  split
  · have hset : Touches m (m.setProcessAndThreadState k .waiting .waiting) k :=
      touches_setProcessAndThreadState nofun nofun
    refine hset.trans (touches ?_ k)
    exact quiet_modifyThread fun _ => rfl
  · exact (refl m).touches k

theorem cpus_enterWaitingState (deadline : Option ℕ) :
    (m.enterWaitingState k deadline).cpus = m.cpus := by
  rw [enterWaitingState]
  split
  · exact cpus_setProcessAndThreadState ..
  · rfl

theorem view_enterWaitingState {deadline : Option ℕ} {v : View} (hv : m.view k = some v)
    (hrev : m.isRevivable k = true) :
    (m.enterWaitingState k deadline).view k = some { v with state := .waiting } := by
  rw [enterWaitingState, if_pos hrev]
  have hqt : Quiet (m.setProcessAndThreadState k .waiting .waiting)
      ((m.setProcessAndThreadState k .waiting .waiting).modifyThread k fun thread =>
        { thread with wakeDeadline := deadline.elim 0 fun tick => min (tick + 1) (2 ^ 64 - 1) }) :=
    quiet_modifyThread fun _ => rfl
  rw [(hqt.kept k).view, view_setProcessAndThreadState hv hrev]

/-- **A thread that leaves the CPU to wait is registered.** -/
theorem settles_park (hplaced : ∀ k, m.Placed k) (hk : m.runs c k) (deadline : Option ℕ)
    (cleanup : Option EventRef) : Settles m ((m.enterWaitingState k deadline).modifyCpu c fun s =>
      { s.parkThread k cleanup with current := none }) := by
  have hent := touches_enterWaitingState m k deadline
  have hpk : Touches (m.enterWaitingState k deadline)
      ((m.enterWaitingState k deadline).modifyCpu c fun s =>
        { s.parkThread k cleanup with current := none }) k := by
    refine ⟨calm_modifyCpu .., fun k' hne => kept_modifyCpu (.inl fun _ => rfl) ?_ ?_ ?_⟩
    · exact le_of_eq (countP_parkThread_of_ne _ _ hne)
    · exact fun _ _ _ => countP_parkThread_of_ne _ _ hne
    · rw [cpus_enterWaitingState]
      exact iff_of_false (by simp) fun h => hne (Option.some.inj (h.symm.trans hk))
  have hall := hent.trans hpk
  refine hall.settles hplaced ?_
  cases (hplaced k).runner hk with
  | running p view online queued parked runs held alive =>
    have hrev : m.isRevivable k = true := isRevivable_iff.mpr ⟨⟨_, view, by simp⟩, alive⟩
    refine .waiting p c ?_ (hall.calm.cpuCount ▸ online) (fun c' p' => ?_) ?_ (fun hone c' => ?_)
      (fun c' hr => ?_) (fun hh => held ((hall.calm.heldBack k).mp hh))
      ((hall.calm.alive k.pid).mpr alive)
    · exact view_enterWaitingState view hrev
    · have hq := queued c' p'
      rw [Machine.queued] at hq ⊢
      by_cases hc' : c' = c
      · rw [hc', cpus_modifyCpu, cpus_enterWaitingState, ← hc']
        exact hq
      · rw [cpus_modifyCpu_of_ne _ hc', cpus_enterWaitingState]
        exact hq
    · rw [Machine.parked, cpus_modifyCpu]
      exact Nat.lt_of_lt_of_eq Nat.one_pos (countP_parkThread ..).symm
    · rw [Machine.parked]
      by_cases hc' : c' = c
      · rw [hc', cpus_modifyCpu, if_pos rfl]
        exact countP_parkThread ..
      · rw [cpus_modifyCpu_of_ne _ hc', cpus_enterWaitingState, if_neg hc']
        exact parked (hall.calm.cpuCount ▸ hone) c'
    · rw [Machine.runs] at hr
      by_cases hc' : c' = c
      · rw [hc', cpus_modifyCpu] at hr
        cases hr
      · rw [cpus_modifyCpu_of_ne _ hc', cpus_enterWaitingState] at hr
        exact hc' ((runs c').mp hr)
  | terminated p b view many held =>
    refine .terminated p b ?_ (fun hone => absurd (hall.calm.cpuCount ▸ hone) many)
      fun hh => held ((hall.calm.heldBack k).mp hh)
    show (m.enterWaitingState k deadline).view k = _
    rw [enterWaitingState, if_neg (by simp [isRevivable_eq_false view]), view]

/-- The wait queue of an event is tidied before a thread joins it. -/
theorem quiet_pruneWaiters (m : Machine) (event : Option EventRef) (p : ThreadKey → Bool) :
    Quiet m (event.elim m fun e => m.modifyEvent e fun event =>
      { event with waiters := event.waiters.filter p }) := by
  cases event with
  | none => exact .refl m
  | some e =>
    rw [elim_some]
    refine quiet_modifyEvent ?_ ?_
    · intro pid _
      rfl
    intro hh hs
    rw [hh hs]
    rfl

theorem quiet_joinWaiters {event : Option EventRef}
    (hop : (event.any fun e => (m.events e).signaled) = false) (k : ThreadKey) :
    Quiet m (event.elim m fun e => m.modifyEvent e fun event =>
      { event with waiters := event.waiters ++ [k] }) := by
  cases event with
  | none => exact .refl m
  | some e =>
    rw [elim_some]
    refine quiet_modifyEvent ?_ ?_
    · intro pid _
      rfl
    intro _ hs
    rw [any_some, hs] at hop
    cases hop

theorem settles_blockCurrentThread (hplaced : ∀ k, m.Placed k) (hc : c < m.cpuCount)
    (event : Option EventRef) (deadline : Option ℕ) :
    Settles m (m.blockCurrentThread c event deadline) := by
  rw [blockCurrentThread]
  split
  · exact (refl m).settles hplaced
  rename_i k hk
  have hprune := quiet_pruneWaiters m event m.isActiveWaiter
  dsimp only
  split
  · exact hprune.settles hplaced
  rename_i hop
  have hqt := hprune.trans (quiet_joinWaiters (by simpa using hop) k)
  have hsettles := hqt.settles hplaced
  have hpk := settles_park hsettles.placed (((hqt.kept k).runs c).mpr hk) deadline
    (deadline.bind fun _ => event)
  have hall := hsettles.trans hpk
  refine hall.trans (settles_afterLeaving hpk.placed (hall.calm.cpuCount ▸ hc) ?_)
  rw [cpus_modifyCpu]

end Park

end Protofire.Scheduling
