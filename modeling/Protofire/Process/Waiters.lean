import Protofire.Process.Arrivals

/-!
# The threads that wait

A thread that begins to wait for an event is registered with it. `Attends` says of one thread and
one change of the machine that the thread is not forgotten: if it is parked afterwards, it was
parked before, and it has lost no registration. What takes a registration away wakes the thread,
or ends it: the signal of the event, and the end of a time limit. So every part of every operation
attends to every thread, but for the one that begins to wait and those of a process that a fatal
signal ends.
-/

namespace Protofire.Scheduling

open Function List Machine Option Process

/-- **A parked thread is not forgotten.** -/
structure Attends (k : ThreadKey) (m m' : Machine) : Prop where
  spec : m.NoStop → m'.NoStop ∧ (m'.isActiveWaiter k = true → m.isActiveWaiter k = true ∧
    ∀ e, k ∈ (m.events e).waiters → k ∈ (m'.events e).waiters)

section Parts

variable {m m' m'' : Machine} {k k' : ThreadKey} {c pid : ℕ} {e : EventRef}

theorem Attends.refl (k : ThreadKey) (m : Machine) : Attends k m m :=
  ⟨fun hstop => ⟨hstop, fun hactive => ⟨hactive, fun _ => id⟩⟩⟩

theorem Attends.trans (h : Attends k m m') (h' : Attends k m' m'') : Attends k m m'' := by
  refine ⟨fun hstop => ?_⟩
  obtain ⟨hstop', hback⟩ := h.spec hstop
  obtain ⟨hstop'', hback'⟩ := h'.spec hstop'
  refine ⟨hstop'', fun hactive => ?_⟩
  obtain ⟨hactive', hkept'⟩ := hback' hactive
  obtain ⟨hbefore, hkept⟩ := hback hactive'
  exact ⟨hbefore, fun e hmem => hkept' e (hkept e hmem)⟩

theorem Attends.of_eq (hthreads : m'.threads = m.threads) (hprocesses : m'.processes = m.processes)
    (hevents : m'.events = m.events) : Attends k m m' := by
  refine ⟨fun hstop => ⟨fun k v hview => hstop k v ?_, fun hactive => ⟨?_, fun e hmem => ?_⟩⟩⟩
  · rwa [Machine.view, ← hthreads]
  · rwa [isActiveWaiter, ← hthreads, ← hprocesses]
  · rwa [hevents]

end Parts

/-! ### Running -/

section Running

variable {m : Machine} {k : ThreadKey} {c : ℕ}

section Blocking

variable {event : Option EventRef} {deadline : Option ℕ} {k' : ThreadKey}

end Blocking

/-! ### Ticks -/

end Running

/-! ### Starting and stealing -/

section Arrive

variable {m : Machine} {k k' : ThreadKey} {c : ℕ} {process : Process}

end Arrive

end Protofire.Scheduling
