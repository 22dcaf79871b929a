import Mathlib

/-!
# Condition variables

`Condvar::wait` (`kernel/process/wait/condvar.rs`) releases the mutex and joins the wait queue in
two sections; a notification (`kernel/process/wait/queue.rs`) takes threads from the queue in one
section and wakes them after it. Each section is a step, and threads take theirs in any order.

A notification between the two sections of a waiter is lost (`notified_before_queued`). One that
comes after the waiter has joined the queue wakes it (`awaited_of_queued`).
-/

namespace Protofire.Condvar

open Function List

/-- Where a thread is. -/
inductive Stage where
  | running
  /-- In `wait`, without the mutex, before its section of the queue. -/
  | released
  | parked
  /-- In a notification, with the threads it has taken from the queue and not woken. -/
  | waking (chosen : List ℕ)
deriving DecidableEq

/-- The mutex, the predicate, the queue of the condition variable and each thread's stage. -/
structure System where
  holder : Option ℕ
  predicate : Bool
  waiters : List ℕ
  stage : ℕ → Stage

/-- The sections under one lock. -/
inductive Action where
  | lock
  | unlock
  | set (value : Bool)
  | wait
  | enqueue
  | notify (all : Bool)
  | wakeThread

variable (s : System)

/-- The queue without its stale entries. -/
def pruned : List ℕ := s.waiters.filter (s.stage · = .parked)

/-- A section of a thread. One that is not the thread's next changes nothing. -/
def step (t : ℕ) : Action → System
  | .lock =>
    if s.stage t = .running ∧ s.holder = none then { s with holder := some t } else s
  | .unlock =>
    if s.stage t = .running ∧ s.holder = some t then { s with holder := none } else s
  | .set value =>
    if s.stage t = .running ∧ s.holder = some t then { s with predicate := value } else s
  | .wait =>
    if s.stage t = .running ∧ s.holder = some t ∧ !s.predicate then
      { s with holder := none, stage := update s.stage t .released }
    else s
  | .enqueue =>
    if s.stage t = .released then
      { s with waiters := pruned s ++ [t], stage := update s.stage t .parked }
    else s
  | .notify all =>
    if s.stage t = .running then
      let count := if all then (pruned s).length else 1
      { s with
        waiters := (pruned s).drop count
        stage := update s.stage t (.waking ((pruned s).take count)) }
    else s
  | .wakeThread =>
    match s.stage t with
    | .waking [] => { s with stage := update s.stage t .running }
    | .waking (x :: rest) =>
      let woken := if s.stage x = .parked then update s.stage x .running else s.stage
      { s with stage := update woken t (.waking rest) }
    | _ => s

def run (sections : List (ℕ × Action)) : System := sections.foldl (fun s a => step s a.1 a.2) s

/-! ### Who wakes a parked thread -/

variable (stage : ℕ → Stage) (t : ℕ)

/-- The thread is in the queue. -/
def Queued : Prop := s.stage t = .parked ∧ t ∈ s.waiters

/-- The thread **is not left parked**: it runs, or a notification has chosen it. -/
def Awaited : Prop :=
  stage t = .running ∨ stage t = .parked ∧ ∃ u chosen, stage u = .waking chosen ∧ t ∈ chosen

variable {s stage t} {u : ℕ} {a : Action} {all : Bool} {sections : List (ℕ × Action)}

/-- Another thread that has not chosen this one may go where it will. -/
theorem Awaited.update (hu : u ≠ t) {next : Stage} (h : Awaited stage t)
    (hnx : ∀ chosen, stage u = .waking chosen → t ∈ chosen →
      ∃ rest, next = .waking rest ∧ t ∈ rest) : Awaited (update stage u next) t := by
  obtain hrun | ⟨hpk, v, chosen, hv, ht⟩ := h
  · exact Or.inl ((update_of_ne hu.symm ..).trans hrun)
  refine Or.inr ⟨(update_of_ne hu.symm ..).trans hpk, v, ?_⟩
  by_cases hvu : v = u
  · subst hvu
    obtain ⟨rest, rfl, hre⟩ := hnx chosen hv ht
    exact ⟨rest, update_self .., hre⟩
  · exact ⟨chosen, (update_of_ne hvu ..).trans hv, ht⟩

/-- A thread that a notification has chosen is chosen until it is woken. -/
theorem Awaited.step (hu : u ≠ t) (h : Awaited s.stage t) : Awaited (step s u a).stage t := by
  cases a with
  | lock | unlock | set =>
    simp only [Condvar.step]
    split <;> exact h
  | wait | enqueue | notify =>
    simp only [Condvar.step]
    split
    · exact h.update hu (by simp_all)
    · exact h
  | wakeThread =>
    simp only [Condvar.step]
    split
    · exact h.update hu (by simp_all)
    · rename_i x rest hwak
      -- the head of the chosen is woken, and the others stay chosen
      by_cases hx : x = t
      · subst hx
        exact Or.inl (by grind [Awaited, update_apply])
      refine Awaited.update hu ?_ (by grind)
      split
      · exact h.update hx (by simp_all)
      · exact h
    · exact h

theorem Awaited.run (h : Awaited s.stage t) (hothers : ∀ a ∈ sections, a.1 ≠ t) :
    Awaited (run s sections).stage t := by
  induction sections generalizing s with
  | nil => exact h
  | cons a sections ih =>
    rw [forall_mem_cons] at hothers
    exact ih (h.step hothers.1) hothers.2

theorem Queued.notify (hu : u ≠ t) (h : Queued s t) (hrun : s.stage u = .running)
    (hall : all ∨ ∀ x ∈ s.waiters, x = t) : Awaited (Condvar.step s u (.notify all)).stage t := by
  have hmem : t ∈ pruned s := mem_filter.mpr ⟨h.2, by simpa using h.1⟩
  simp only [Condvar.step, if_pos hrun]
  refine Or.inr ⟨(update_of_ne hu.symm ..).trans h.1, u, _, update_self .., ?_⟩
  obtain rfl | hall := hall
  · simpa using hmem
  -- alone in the queue, the thread is its head
  cases hp : pruned s with
  | nil => simp [hp] at hmem
  | cons x rest =>
    have hx : x ∈ pruned s := hp ▸ mem_cons_self
    obtain rfl := hall x (mem_filter.mp hx).1
    split <;> simp

/-- A notification that runs to its end wakes everyone it has chosen. -/
theorem running_of_wakes {chosen : List ℕ} (hu : u ≠ t) (hwaking : s.stage u = .waking chosen)
    (h : s.stage t = .running ∨ s.stage t = .parked ∧ t ∈ chosen) :
    (run s (replicate chosen.length (u, .wakeThread))).stage t = .running := by
  induction chosen generalizing s with
  | nil => simpa [run] using h
  | cons x rest ih =>
    rw [length_cons, replicate_succ, run, foldl_cons]
    refine ih ?_ ?_
    · simp [Condvar.step, hwaking]
    · simp only [Condvar.step, hwaking]
      grind [update_apply]

/-- **A notification after the waiter has joined the queue is not lost**: as long as the waiter has
not run again, it has been woken or is about to be, and the notification that has chosen it wakes
it. -/
theorem awaited_of_queued (hu : u ≠ t) (h : Queued s t ∨ Awaited s.stage t)
    (hrun : s.stage u = .running) (hall : all ∨ ∀ x ∈ s.waiters, x = t)
    (hothers : ∀ a ∈ sections, a.1 ≠ t) :
    Awaited (run (step s u (.notify all)) sections).stage t ∧
      ∀ v chosen, (run (step s u (.notify all)) sections).stage v = .waking chosen → t ∈ chosen →
        (run (run (step s u (.notify all)) sections)
          (replicate chosen.length (v, .wakeThread))).stage t = .running := by
  have hnot : Awaited (step s u (.notify all)).stage t :=
    h.elim (fun hqd => hqd.notify hu hrun hall) (·.step hu)
  have hawaited := hnot.run hothers
  refine ⟨hawaited, fun v chosen hwaking ht => running_of_wakes ?_ hwaking ?_⟩
  · rintro rfl
    obtain hrunning | ⟨hparked, -⟩ := hawaited
    · cases hwaking.symm.trans hrunning
    · cases hwaking.symm.trans hparked
  · exact hawaited.imp_right fun hparked => ⟨hparked.1, ht⟩

/-- All threads run, and nobody has the mutex. -/
def start : System := ⟨none, false, [], fun _ => .running⟩

theorem awaited_of_queued_one :
    (run (run (step (run start [(0, .lock), (0, .wait), (0, .enqueue), (1, .lock), (1, .set true)])
      1 (.notify false)) [(2, .lock)]) [(1, .wakeThread)]).stage 0 = .running :=
  (awaited_of_queued (by decide) (Or.inl ⟨by decide, by decide⟩)
    (by decide) (Or.inr (by decide)) (by decide)).2 1 [0] (by decide) (by decide)

/-- A notification comes between the two sections of a waiter. -/
def lost (all : Bool) : System :=
  run start [(0, .lock), (0, .wait), (1, .lock), (1, .set true), (1, .unlock), (1, .notify all),
    (1, .wakeThread), (0, .enqueue)]

theorem not_awaited_lost (all : Bool) : ¬ Awaited (lost all).stage 0 := by
  rintro (h | ⟨-, u, chosen, hu, -⟩)
  · revert h
    cases all <;> decide
  · cases all <;> simp [lost, run, Condvar.step, start, update_apply, pruned] at hu <;> grind

theorem notified_before_queued : ¬ Awaited (lost false).stage 0 ∧ ¬ Awaited (lost true).stage 0 :=
  ⟨not_awaited_lost false, not_awaited_lost true⟩

end Protofire.Condvar
