import Protofire.Kernel.Block

/-!
# Message queues

`mqueue_read` and `mqueue_write` (`kernel/process/process/handle_entry.rs`) and the calls of
`syscall/mq.rs`, on one queue behind a mutex.

A call that may wait locks the mutex to reach the wait queue, and the guard lives until the
blocking call has returned; the callback of that call locks the mutex once more. So a call that
waits never returns (`reader_relocks`). And `mq_receive` takes a message off the queue before it
looks at the caller's buffer, so that a message is lost when the buffer cannot be written. As long
as no call waits and every buffer for a message can be written, each call is one section under the
mutex, and the queue is a bounded FIFO (`fifo_of_sound`).
-/

namespace Protofire.MessageQueue

/-- A queue: its bounds and its messages, the oldest first. -/
structure MqState where
  capacity : ℕ
  msgSize : ℕ
  messages : List (List UInt8)

namespace MqState

def new (capacity msgSize : ℕ) : MqState :=
  ⟨max 1 (min capacity 64), max 1 (min msgSize 4096), []⟩

variable (s later : MqState) (bufLen : ℕ) (buffer : List UInt8) (waits : Bool)

def isFull : Bool := s.capacity ≤ s.messages.length

/-- Copy the first message out, or answer an error. -/
def popFront (e : Error) : Except Error (List UInt8) × MqState :=
  match s.messages with
  | [] => (.error e, s)
  | msg :: rest => (.ok (msg.take (min msg.length bufLen)), { s with messages := rest })

/-- A message at the end of the queue. -/
def pushBack : Except Error Unit × MqState :=
  (.ok (), { s with messages := s.messages ++ [buffer] })

/-- Lock the mutex. A thread that holds it spins, and there is no answer. -/
def lock (held : Bool) : Option Unit := if held then none else some ()

/-- The wait of a call, by whether the callback finds that it need not wait. -/
def blockCurrentUntilIf (ready : Bool) : Option Bool := do
  lock false
  -- the callback runs while the guard of the first lock lives
  lock true
  some !ready

/-- `mqueue_read`, with whether `plan_timed_wait` lets it wait and the queue as it is after the
wait. -/
def mqueueRead : Option (Except Error (List UInt8) × MqState) :=
  if bufLen < s.msgSize then some (.error .invalidArgument, s)
  else if s.messages ≠ [] ∨ !waits then some (s.popFront bufLen .busy)
  else do
    let didWake ← blockCurrentUntilIf (later.messages ≠ [])
    some (if didWake then later.popFront bufLen .timedOut else (.error .timedOut, later))

/-- `mq_receive`, with what `with_optional_output_slice` answers for a number of bytes of the
caller's buffer. The message is off the queue by then. -/
def mqReceive (output : ℕ → Except Error Unit) : Except Error (List UInt8) × MqState :=
  if bufLen < s.msgSize then (.error .invalidArgument, s)
  else
    match s.messages with
    | [] => (.error .busy, s)
    | msg :: rest =>
      let n := min msg.length bufLen
      -- an empty slice is not looked at
      match if n = 0 then .ok () else output n with
      | .ok () => (.ok (msg.take n), { s with messages := rest })
      | .error e => (.error e, { s with messages := rest })

/-- `mqueue_write`. One that may not wait is `mq_send`. -/
def mqueueWrite : Option (Except Error Unit × MqState) :=
  if s.msgSize < buffer.length then some (.error .invalidArgument, s)
  else if !s.isFull then some (s.pushBack buffer)
  else if !waits then some (.error .busy, s)
  else do
    let didWake ← blockCurrentUntilIf !later.isFull
    some (if didWake then later.pushBack buffer else (.error .timedOut, later))

end MqState

open MqState

/-- The calls on a queue; `write` without waiting is `mq_send`. -/
inductive Call where
  | read (later : MqState) (bufLen : ℕ) (waits : Bool)
  | receive (bufLen : ℕ) (output : ℕ → Except Error Unit)
  | write (later : MqState) (buffer : List UInt8) (waits : Bool)

/-- A queue, with the messages it has accepted and delivered and the errors it has answered. -/
structure Traced where
  mq : MqState
  accepted : List (List UInt8)
  delivered : List (List UInt8)
  errors : List Error

namespace Traced

variable (t : Traced) (made : MqState)

/-- The queue after a call, with what it has delivered or accepted. -/
def after : Except Error (List (List UInt8) × List (List UInt8)) × MqState → Traced
  | (.ok (accepted, delivered), mq) =>
    { t with mq, accepted := t.accepted ++ accepted, delivered := t.delivered ++ delivered }
  | (.error e, mq) => { t with mq, errors := e :: t.errors }

/-- A call, with what it has delivered or accepted. -/
def step : Call → Option Traced
  | .read later bufLen waits => (t.mq.mqueueRead later bufLen waits).map fun r =>
    t.after (r.1.map fun msg => ([], [msg]), r.2)
  | .receive bufLen output =>
    let r := t.mq.mqReceive bufLen output
    some (t.after (r.1.map fun msg => ([], [msg]), r.2))
  | .write later buffer waits => (t.mq.mqueueWrite later buffer waits).map fun r =>
    t.after (r.1.map fun _ => ([buffer], []), r.2)

/-- The call **neither waits nor loses a message**: one that would wait finds a message, or room for
one, and the caller's buffer can be written where `mq_receive` finds a message. -/
def Sound : Call → Prop
  | .read _ bufLen waits => ¬ (t.mq.msgSize ≤ bufLen ∧ t.mq.messages = [] ∧ waits)
  | .receive bufLen output => t.mq.msgSize ≤ bufLen → ∀ msg ∈ t.mq.messages.head?,
      msg ≠ [] → output msg.length = .ok ()
  | .write _ buffer waits => ¬ (buffer.length ≤ t.mq.msgSize ∧ t.mq.isFull ∧ waits)

/-- **A bounded FIFO**: what has been accepted is what has been delivered and what is still there,
in this order. -/
structure Fifo : Prop where
  limits : (t.mq.capacity, t.mq.msgSize) = (made.capacity, made.msgSize)
  bounded : t.mq.messages.length ≤ t.mq.capacity
  fits : ∀ msg ∈ t.mq.messages, msg.length ≤ t.mq.msgSize
  order : t.accepted = t.delivered ++ t.mq.messages
  inTime : .timedOut ∉ t.errors

variable {t made}

/-- A message that has been copied out whole is off the queue. -/
theorem Fifo.delivered (h : t.Fifo made) {msg : List UInt8} {rest : List (List UInt8)}
    (hmessages : t.mq.messages = msg :: rest) :
    (t.after (.ok ([], [msg]), { t.mq with messages := rest })).Fifo made := by
  have hfits := h.fits
  have hbounded := h.bounded
  rw [hmessages] at hfits hbounded
  rw [List.forall_mem_cons] at hfits
  exact ⟨h.limits, Nat.le_of_succ_le hbounded, hfits.2, by simp [after, h.order, hmessages],
    h.inTime⟩

/-- The buffer of a reader has room for any message of the queue. -/
theorem Fifo.take_eq (h : t.Fifo made) {msg : List UInt8} {rest : List (List UInt8)} {bufLen : ℕ}
    (hmessages : t.mq.messages = msg :: rest) (hlen : ¬ bufLen < t.mq.msgSize) :
    min msg.length bufLen = msg.length := by
  have := h.fits msg (by simp [hmessages])
  omega

theorem Fifo.step (h : t.Fifo made) {call : Call} (hsound : t.Sound call) :
    ∃ t', t.step call = some t' ∧ t'.Fifo made := by
  have herr : ∀ e ≠ .timedOut, Fifo { t with errors := e :: t.errors } made := fun e he =>
    ⟨h.limits, h.bounded, h.fits, h.order, by simpa [he.symm] using h.inTime⟩
  cases call with
  | read later bufLen waits =>
    simp only [Traced.step, mqueueRead]
    split
    · exact ⟨_, rfl, herr _ (by decide)⟩
    rename_i hlen
    -- the call does not wait: there is a message, or it answers that there is none
    rw [if_pos (by grind [Sound])]
    refine ⟨_, rfl, ?_⟩
    rw [popFront]
    split
    · exact herr _ (by decide)
    rename_i msg rest hmessages
    simpa [Except.map, h.take_eq hmessages hlen] using h.delivered hmessages
  | receive bufLen output =>
    refine ⟨_, rfl, ?_⟩
    simp only [mqReceive]
    split
    · exact herr _ (by decide)
    rename_i hlen
    split
    · exact herr _ (by decide)
    rename_i msg rest hmessages
    rw [h.take_eq hmessages hlen]
    -- the buffer is there for the bytes of the message, if it has any
    have hout : (if msg.length = 0 then .ok () else output msg.length) = Except.ok () := by
      split_ifs with hzero
      · rfl
      · exact hsound (Nat.not_lt.mp hlen) msg (by simp [hmessages])
          (fun hnil => hzero (by simp [hnil]))
    rw [hout]
    simpa [Except.map] using h.delivered hmessages
  | write later buffer waits =>
    simp only [Traced.step, mqueueWrite]
    split
    · exact ⟨_, rfl, herr _ (by decide)⟩
    rename_i hlen
    split
    · rename_i hfull
      have hroom : t.mq.messages.length < t.mq.capacity := by simpa [isFull] using hfull
      refine ⟨_, rfl, h.limits, ?_, ?_, ?_, h.inTime⟩
      · simpa [after, Except.map, pushBack, Nat.succ_le_iff] using hroom
      · simpa [after, Except.map, pushBack, or_imp, forall_and] using ⟨h.fits, Nat.not_lt.mp hlen⟩
      · simp [after, Except.map, pushBack, h.order]
    · rw [if_pos (by grind [Sound])]
      exact ⟨_, rfl, herr _ (by decide)⟩

/-- A new queue. -/
def start (capacity msgSize : ℕ) : Traced := ⟨.new capacity msgSize, [], [], []⟩

/-- **As long as no call waits and no buffer for a message is refused**, all calls return and the
queue is a bounded FIFO. -/
theorem fifo_of_sound (capacity msgSize : ℕ) {calls : List Call}
    (hcalls : ∀ before call rest t, calls = before ++ call :: rest →
      before.foldlM Traced.step (start capacity msgSize) = some t → t.Sound call) :
    ∃ t, calls.foldlM Traced.step (start capacity msgSize) = some t ∧
      t.Fifo (.new capacity msgSize) := by
  have hfifo : (start capacity msgSize).Fifo (.new capacity msgSize) :=
    ⟨rfl, Nat.zero_le _, by simp [start, MqState.new], rfl, by simp [start]⟩
  generalize start capacity msgSize = t at hcalls hfifo ⊢
  induction calls generalizing t with
  | nil => exact ⟨t, rfl, hfifo⟩
  | cons call calls ih =>
    obtain ⟨t', hstep, hfifo'⟩ := hfifo.step (hcalls [] call calls t rfl rfl)
    obtain ⟨u, hrun, hu⟩ := ih t' (fun before call' rest t'' heq hrun =>
      hcalls (call :: before) call' rest t'' (by simp [heq]) (by simpa [hstep] using hrun)) hfifo'
    exact ⟨u, by simpa [hstep] using hrun, hu⟩

/-- Two messages are sent, and one is read and one received. -/
theorem fifo_of_sound_four :
    ∃ t, [Call.write (.new 2 1) [7] true, .write (.new 2 1) [8] false, .read (.new 2 1) 1 true,
      .receive 1 fun _ => .ok ()].foldlM Traced.step (start 2 1) = some t ∧ t.Fifo (.new 2 1) := by
  refine fifo_of_sound 2 1 fun before call rest t heq hrun => ?_
  rcases before with _ | ⟨first, _ | ⟨second, _ | ⟨third, _ | ⟨fourth, before⟩⟩⟩⟩
  · cases heq
    cases hrun
    exact fun h => absurd h.2.1 (by decide)
  · cases heq
    cases hrun
    exact fun h => absurd h.2.1 (by decide)
  · cases heq
    cases hrun
    exact fun h => List.cons_ne_nil [7] [[8]] h.2.1
  · cases heq
    exact fun _ _ _ _ => rfl
  · simp at heq

/-- A read of an empty queue that may wait locks the mutex it holds, and a message that is received
into a buffer that cannot be written is lost. -/
theorem reader_relocks : (start 1 1).step (.read (.new 1 1) 1 true) = none ∧
    ([Call.write (.new 1 1) [7] false, .receive 1 fun _ => .error .invalidArgument].foldlM
      Traced.step (start 1 1)).map (fun t => (t.accepted, t.delivered, t.mq.messages)) =
        some ([[7]], [], []) := by
  exact ⟨rfl, rfl⟩

end Traced

end Protofire.MessageQueue
