import Protofire.Kernel.Block
import Protofire.Lib.Ring

/-!
# Pipes

A pipe (`kernel/ipc/pipe.rs`) is a ring of bytes with a place to read from, a place to write to
and a count. The two places and the count say one thing twice: the place to write to is the
place to read from and the count, modulo the capacity (`PipeRing.Sound`). Reads and writes keep
that. A resize does so too, unless the ring is *exactly full* afterwards: it puts the place to
write to behind the last byte, which is then outside of the ring, and the first write after a
read stops the machine (`write_after_exact_resize`).

A call that finds nothing to do parks its thread and lets go of the lock; it is tried again when
the thread is woken. Here such a call answers `none` and leaves the ring as it was. `Channel`
counts the threads that wait; a resize wakes none of them (`resize_wakes_nobody`).
-/

namespace Protofire.Ipc

open Eff List Option Ring Nat

/-- The buffer of a pipe with its two places, and which ends are closed. -/
structure PipeRing where
  buf : List UInt8
  readPos : ℕ
  writePos : ℕ
  /-- The unread bytes in the buffer. -/
  byteCount : ℕ
  writeClosed : Bool
  readClosed : Bool
deriving DecidableEq

namespace PipeRing

def new (capacity : ℕ) : PipeRing where
  buf := replicate capacity 0
  readPos := 0
  writePos := 0
  byteCount := 0
  writeClosed := false
  readClosed := false

variable (ring : PipeRing)

def isEmpty : Bool := ring.byteCount = 0

def isFull : Bool := ring.byteCount = ring.buf.length

def remaining : ℕ := ring.buf.length - ring.byteCount

/-! ### The ring -/

/-- Take bytes from the place to read from. An index outside of the ring stops the machine. -/
def takeBytes : ℕ → Eff Error PipeRing (List UInt8)
  | 0 => pure []
  | n + 1 => do
    let ring ← Eff.get
    match ring.buf[ring.readPos]? with
    | none => Eff.halt
    | some byte =>
      Eff.modify fun ring => { ring with readPos := (ring.readPos + 1) % ring.buf.length }
      let rest ← takeBytes n
      pure (byte :: rest)

/-- Read up to a number of bytes. -/
def readFrom (len : ℕ) : Eff Error PipeRing (List UInt8) := do
  let ring ← Eff.get
  let n := min len ring.byteCount
  let bytes ← takeBytes n
  Eff.modify fun ring => { ring with byteCount := ring.byteCount - n }
  pure bytes

/-- Put bytes at the place to write to. An index outside of the ring stops the machine. -/
def putBytes : List UInt8 → Eff Error PipeRing Unit
  | [] => pure ()
  | byte :: bytes => do
    let ring ← Eff.get
    if ring.writePos < ring.buf.length then do
      Eff.modify fun ring =>
        { ring with
          buf := ring.buf.set ring.writePos byte
          writePos := (ring.writePos + 1) % ring.buf.length }
      putBytes bytes
    else Eff.halt

/-- Write as many bytes as there is room for, and answer how many. -/
def writeTo (src : List UInt8) : Eff Error PipeRing ℕ := do
  let ring ← Eff.get
  let n := min src.length ring.remaining
  putBytes (src.take n)
  Eff.modify fun ring => { ring with byteCount := ring.byteCount + n }
  pure n

/-- Rebuild the ring at another capacity, with the bytes in it at the front. -/
def resize (newCapacity : ℕ) : Eff Error PipeRing Unit := do
  let ring ← Eff.get
  failIf (newCapacity < ring.byteCount) .busy
  let pending ← readFrom ring.byteCount
  Eff.modify fun ring =>
    { ring with
      buf := pending ++ replicate (newCapacity - pending.length) 0
      readPos := 0
      writePos := pending.length
      byteCount := pending.length }

end PipeRing

/-! ### The ends -/

variable (nonblocking : Bool)

/-- Read at the read end. -/
def read (len : ℕ) : Eff Error PipeRing (Option (List UInt8)) := do
  if len = 0 then pure (some [])
  else do
    let ring ← Eff.get
    failIf (ring.isEmpty && !ring.writeClosed && nonblocking) .busy
    if ring.isEmpty && !ring.writeClosed then pure none
    else if ring.isEmpty && ring.writeClosed then pure (some [])
    else do
      let bytes ← PipeRing.readFrom len
      pure (some bytes)

/-- Write at the write end. -/
def write (buffer : List UInt8) : Eff Error PipeRing (Option ℕ) := do
  if buffer = [] then pure (some 0)
  else do
    let ring ← Eff.get
    failIf (ring.isFull && !ring.readClosed && nonblocking) .busy
    if ring.isFull && !ring.readClosed then pure none
    else do
      failIf ring.readClosed .deviceError
      let n ← PipeRing.writeTo buffer
      pure (some n)

/-- `set_pipe_capacity`: zero is refused. -/
def setPipeCapacity (capacity : ℕ) : Eff Error PipeRing Unit := do
  assert (0 < capacity)
  PipeRing.resize capacity

/-! ### What the ring holds -/

namespace PipeRing

/-- The bytes in the ring, from the next one to be read. -/
def buffered (ring : PipeRing) : List UInt8 :=
  (range ring.byteCount).map fun i => ring.buf.getD ((ring.readPos + i) % ring.buf.length) 0

/-- **The ring's two places and its count agree**, and the places are in the ring. -/
structure Sound (ring : PipeRing) : Prop where
  readPos_lt : ring.readPos < ring.buf.length
  writePos_eq : ring.writePos = (ring.readPos + ring.byteCount) % ring.buf.length
  count_le : ring.byteCount ≤ ring.buf.length

variable {ring : PipeRing} {queue : List UInt8}

theorem length_buffered (ring : PipeRing) : ring.buffered.length = ring.byteCount := by
  rw [buffered, length_map, length_range]

theorem Sound.holds (h : ring.Sound) : Holds ring.buf ring.readPos ring.buffered := by
  refine ⟨by rw [length_buffered]; exact h.count_le, fun i hi => ?_⟩
  rw [length_buffered] at hi
  have hlt : (ring.readPos + i) % ring.buf.length < ring.buf.length :=
    mod_lt _ (lt_of_le_of_lt (zero_le _) h.readPos_lt)
  rw [buffered, getElem?_map, getElem?_range hi, map_some,
    getD_eq_getElem?_getD, getElem?_eq_getElem hlt, getD_some]

/-- A queue that a ring holds is what is buffered, if the count is its length. -/
theorem buffered_of_holds (h : Holds ring.buf ring.readPos queue)
    (hcnt : ring.byteCount = queue.length) : ring.buffered = queue := by
  refine ext_getElem? fun i => ?_
  rw [buffered, getElem?_map, hcnt]
  by_cases hi : i < queue.length
  · rw [getElem?_range hi, map_some, getD_eq_getElem?_getD, h.2 i hi,
      getElem?_eq_getElem hi, getD_some]
  · rw [getElem?_eq_none (by simpa using hi), getElem?_eq_none (by omega), map_none]

/-- **Taking bytes answers the first of the queue**, and leaves the rest of it. -/
theorem takeBytes_run (n : ℕ) (hn : n ≤ queue.length)
    (h : Holds ring.buf ring.readPos queue) (hlt : ring.readPos < ring.buf.length) :
    ∃ pos, takeBytes n ring = (.ok (queue.take n), { ring with readPos := pos }) ∧
      pos = (ring.readPos + n) % ring.buf.length ∧
      Holds ring.buf pos (queue.drop n) := by
  induction n generalizing ring queue with
  | zero => exact ⟨ring.readPos, rfl, by rw [add_zero, mod_eq_of_lt hlt], h⟩
  | succ n ih =>
    obtain ⟨byte, queue, rfl⟩ : ∃ byte rest, queue = byte :: rest := by
      cases queue with
      | nil => simp at hn
      | cons byte rest => exact ⟨byte, rest, rfl⟩
    have hhd := h.head
    rw [mod_eq_of_lt hlt] at hhd
    obtain ⟨pos, hrun, hpos, hhol⟩ := @ih
      { ring with readPos := (ring.readPos + 1) % ring.buf.length } queue
      (by simpa using hn) h.tail (mod_lt _ (by omega))
    refine ⟨pos, ?_, ?_, hhol⟩
    · rw [takeBytes, bind_run_ok (get_run _)]
      simp only [hhd]
      rw [bind_run_ok (modify_run _ _), bind_run_ok hrun]
      rfl
    · rw [hpos, mod_add_mod]
      congr 1
      omega

/-- **Putting bytes adds them to the queue.** -/
theorem putBytes_run (src : List UInt8) (h : Holds ring.buf ring.readPos queue)
    (hrm : queue.length + src.length ≤ ring.buf.length)
    (hpos : src ≠ [] → ring.writePos = (ring.readPos + queue.length) % ring.buf.length) :
    ∃ buf pos, putBytes src ring = (.ok (), { ring with buf := buf, writePos := pos }) ∧
      buf.length = ring.buf.length ∧
      (src ≠ [] → pos = (ring.readPos + (queue.length + src.length)) % buf.length) ∧
      (src = [] → pos = ring.writePos) ∧ Holds buf ring.readPos (queue ++ src) := by
  induction src generalizing ring queue with
  | nil =>
    exact ⟨ring.buf, ring.writePos, rfl, rfl, fun h => absurd rfl h, fun _ => rfl, by simpa using h⟩
  | cons byte src ih =>
    rw [length_cons] at hrm
    have hwr := hpos (by simp)
    have hlt : ring.writePos < ring.buf.length := by
      rw [hwr]
      exact mod_lt _ (by omega)
    obtain ⟨buf, pos, hrun, hln, hnx, hsm, hhol⟩ := @ih
      { ring with
        buf := ring.buf.set ring.writePos byte
        writePos := (ring.writePos + 1) % ring.buf.length }
      (queue ++ [byte])
      (by rw [hwr]; exact h.push (by omega) byte)
      (by simp only [length_append, length_singleton, length_set]; omega)
      (by
        intro _
        simp only [length_append, length_singleton, length_set]
        rw [hwr, mod_add_mod, add_assoc])
    rw [length_set] at hln
    refine ⟨buf, pos, ?_, hln, fun _ => ?_, nofun, by simpa using hhol⟩
    · rw [putBytes, bind_run_ok (get_run _), if_pos hlt, bind_run_ok (modify_run _ _), hrun]
    by_cases hnil : src = []
    · rw [hsm hnil, hnil, hln]
      rw [hwr, mod_add_mod]
      rfl
    · rw [hnx hnil, length_append, length_singleton, length_cons]
      rw [add_assoc, add_comm 1]

/-- **Reading takes from the front of what is buffered.** -/
theorem readFrom_run (h : ring.Sound) (len : ℕ) : ∃ ring',
    readFrom len ring = (.ok (ring.buffered.take len), ring') ∧ ring'.Sound ∧
      ring'.buffered = ring.buffered.drop len ∧ ring'.buf = ring.buf ∧
      ring'.writePos = ring.writePos ∧ ring'.byteCount = ring.byteCount - len ∧
      ring'.writeClosed = ring.writeClosed ∧ ring'.readClosed = ring.readClosed := by
  have hln := length_buffered ring
  have hpos : 0 < ring.buf.length := lt_of_le_of_lt (zero_le _) h.readPos_lt
  obtain ⟨pos, hrun, rfl, hhol⟩ := takeBytes_run (min len ring.byteCount) (by omega) h.holds
    h.readPos_lt
  have htake : ring.buffered.take (min len ring.byteCount) = ring.buffered.take len := by
    rw [take_eq_take_iff]
    omega
  have hdr : ring.buffered.drop (min len ring.byteCount) = ring.buffered.drop len := by
    by_cases hle : len ≤ ring.byteCount
    · rw [min_eq_left hle]
    · rw [drop_eq_nil_of_le (by omega), drop_eq_nil_of_le (by omega)]
  have hcnt : ring.byteCount - min len ring.byteCount = ring.byteCount - len := by omega
  refine ⟨{ ring with
    readPos := (ring.readPos + min len ring.byteCount) % ring.buf.length
    byteCount := ring.byteCount - min len ring.byteCount }, ?_, ?_, ?_, rfl, rfl, hcnt, rfl, rfl⟩
  · rw [← htake]
    exact bind_run_ok hrun
  · refine ⟨mod_lt _ hpos, ?_, le_trans (sub_le _ _) h.count_le⟩
    rw [h.writePos_eq, mod_add_mod]
    congr 1
    show _ = ring.readPos + min len ring.byteCount + (ring.byteCount - min len ring.byteCount)
    omega
  · rw [← hdr]
    refine buffered_of_holds hhol ?_
    rw [length_drop, hln]

/-- **Writing adds to the back of what is buffered**, as much as there is room for. -/
theorem writeTo_run (h : ring.Sound) (src : List UInt8) : ∃ ring' n,
    writeTo src ring = (.ok n, ring') ∧ ring'.Sound ∧
      ring'.buffered = ring.buffered ++ src.take n ∧ ring'.buf.length = ring.buf.length ∧
      ring'.writeClosed = ring.writeClosed ∧ ring'.readClosed = ring.readClosed := by
  have hln := length_buffered ring
  have hle := h.count_le
  have hsrc : (src.take (min src.length ring.remaining)).length =
      min src.length ring.remaining := length_take_of_le (min_le_left _ _)
  have hrm : ring.remaining = ring.buf.length - ring.byteCount := rfl
  obtain ⟨buf, pos, hrun, hbuf, hnx, hsm, hhol⟩ := putBytes_run
    (src.take (min src.length ring.remaining)) h.holds (by omega)
    (fun _ => by rw [hln]; exact h.writePos_eq)
  refine ⟨{ ring with
      buf := buf
      writePos := pos
      byteCount := ring.byteCount + min src.length ring.remaining },
    min src.length ring.remaining, ?_, ⟨?_, ?_, ?_⟩, ?_, hbuf, rfl, rfl⟩
  · exact bind_run_ok hrun
  · rw [hbuf]
    exact h.readPos_lt
  · by_cases hnil : src.take (min src.length ring.remaining) = []
    · rw [hsm hnil, h.writePos_eq, hbuf, ← hsrc, hnil]
      rfl
    · rw [hnx hnil, hln, hsrc]
  · show ring.byteCount + min src.length ring.remaining ≤ buf.length
    omega
  · refine buffered_of_holds hhol ?_
    rw [length_append, hln, hsrc]

/-- **A resize keeps what is buffered**, if it is not to exactly that size. -/
theorem resize_run (h : ring.Sound) {capacity : ℕ} (hrm : ring.byteCount < capacity) :
    ∃ ring', resize capacity ring = (.ok (), ring') ∧ ring'.Sound ∧
      ring'.buffered = ring.buffered ∧ ring'.buf.length = capacity ∧
      ring'.writeClosed = ring.writeClosed ∧ ring'.readClosed = ring.readClosed := by
  obtain ⟨ring', hrun, -, -, -, -, -, hwr, hrd⟩ := readFrom_run h ring.byteCount
  have hln := length_buffered ring
  rw [take_of_length_le (le_of_eq hln)] at hrun
  have hbuf : (ring.buffered ++ List.replicate (capacity - ring.buffered.length) 0).length =
      capacity := by
    rw [length_append, length_replicate]
    omega
  refine ⟨{ ring' with
    buf := ring.buffered ++ List.replicate (capacity - ring.buffered.length) 0
    readPos := 0
    writePos := ring.buffered.length
    byteCount := ring.buffered.length }, ?_, ⟨?_, ?_, ?_⟩, ?_, hbuf, hwr, hrd⟩
  · rw [resize, bind_run_ok (get_run _), decide_eq_false (by omega),
      bind_run_ok (failIf_false_run _ _), bind_run_ok hrun, modify_run]
  · show 0 < (ring.buffered ++ _).length
    omega
  · show ring.buffered.length = (0 + ring.buffered.length) % (ring.buffered ++ _).length
    rw [zero_add, mod_eq_of_lt (by omega)]
  · show ring.buffered.length ≤ (ring.buffered ++ _).length
    omega
  · exact buffered_of_holds (holds_append _ _) rfl

end PipeRing

/-! ### Whole runs -/

/-- What is done to a pipe. -/
inductive Action where
  | read (nonblocking : Bool) (len : ℕ)
  | write (nonblocking : Bool) (buffer : List UInt8)
  | setPipeCapacity (capacity : ℕ)
  | closeReadEnd
  | closeWriteEnd

/-- A pipe with the bytes its writes have accepted and its reads have returned. -/
structure Traced where
  ring : PipeRing
  accepted : List UInt8
  returned : List UInt8

namespace Action

/-- A call, with the bytes it accepts and the bytes it returns. -/
def run : Action → Eff Error PipeRing (List UInt8 × List UInt8)
  | read nonblocking len => do
    let bytes ← Ipc.read nonblocking len
    pure ([], bytes.getD [])
  | write nonblocking buffer => do
    let n ← Ipc.write nonblocking buffer
    pure (buffer.take (n.getD 0), [])
  | setPipeCapacity capacity => do
    Ipc.setPipeCapacity capacity
    pure ([], [])
  | closeReadEnd => do
    Eff.modify fun ring => { ring with readClosed := true }
    pure ([], [])
  | closeWriteEnd => do
    Eff.modify fun ring => { ring with writeClosed := true }
    pure ([], [])

/-- The pipe after a call. -/
def after (a : Action) (t : Traced) : Traced :=
  match a.run t.ring with
  | (.ok (accepted, returned), ring) => ⟨ring, t.accepted ++ accepted, t.returned ++ returned⟩
  | (_, ring) => { t with ring := ring }

/-- **A careful call** is no resize to no capacity, and none to exactly the bytes in the pipe. -/
def Careful (ring : PipeRing) : Action → Prop
  | setPipeCapacity capacity => capacity ≠ 0 ∧ capacity ≠ ring.byteCount
  | _ => True

/-- **A resize changes the capacity alone, or answers `Busy` and changes nothing.** -/
theorem setPipeCapacity_spec {ring : PipeRing} (h : ring.Sound) {capacity : ℕ}
    (hpos : capacity ≠ 0) (hne : capacity ≠ ring.byteCount) :
    Ipc.setPipeCapacity capacity ring = (.err .busy, ring) ∨
      ∃ ring', Ipc.setPipeCapacity capacity ring = (.ok (), ring') ∧ ring'.Sound ∧
        ring'.buffered = ring.buffered ∧ ring'.buf.length = capacity ∧
        ring'.writeClosed = ring.writeClosed ∧ ring'.readClosed = ring.readClosed := by
  have haser : Ipc.setPipeCapacity capacity ring = PipeRing.resize capacity ring := by
    rw [Ipc.setPipeCapacity, decide_eq_true (Nat.pos_of_ne_zero hpos)]
    rfl
  rw [haser]
  by_cases hlt : capacity < ring.byteCount
  · left
    rw [PipeRing.resize, Eff.bind_run_ok (Eff.get_run _), decide_eq_true hlt]
    rfl
  · right
    exact PipeRing.resize_run h (by omega)

/-- **A read takes from the front of the queue**, or leaves the pipe as it was. -/
theorem read_spec {ring : PipeRing} (h : ring.Sound) (nonblocking : Bool) (len : ℕ) :
    (∃ bytes ring', Ipc.read nonblocking len ring = (.ok bytes, ring') ∧ ring'.Sound ∧
        bytes.getD [] ++ ring'.buffered = ring.buffered) ∨
      ∃ e, Ipc.read nonblocking len ring = (.err e, ring) := by
  rw [Ipc.read]
  by_cases hlen : len = 0
  · rw [if_pos hlen]
    exact Or.inl ⟨_, ring, rfl, h, rfl⟩
  rw [if_neg hlen, Eff.bind_run_ok (Eff.get_run _)]
  rcases hbusy : (ring.isEmpty && !ring.writeClosed && nonblocking) with _ | _
  · split
    · exact Or.inl ⟨none, ring, rfl, h, rfl⟩
    split
    · exact Or.inl ⟨some [], ring, rfl, h, rfl⟩
    obtain ⟨ring', hrun, hsnd, hdr, -⟩ := PipeRing.readFrom_run h len
    refine Or.inl ⟨some (ring.buffered.take len), ring', Eff.bind_run_ok hrun, hsnd, ?_⟩
    rw [hdr]
    exact List.take_append_drop len ring.buffered
  · exact Or.inr ⟨_, rfl⟩

/-- **A write adds to the back of the queue**, or leaves the pipe as it was. -/
theorem write_spec {ring : PipeRing} (h : ring.Sound) (nonblocking : Bool) (buffer : List UInt8) :
    (∃ n ring', Ipc.write nonblocking buffer ring = (.ok n, ring') ∧ ring'.Sound ∧
        ring'.buffered = ring.buffered ++ buffer.take (n.getD 0)) ∨
      ∃ e, Ipc.write nonblocking buffer ring = (.err e, ring) := by
  rw [Ipc.write]
  by_cases hnil : buffer = []
  · rw [if_pos hnil]
    exact Or.inl ⟨_, ring, rfl, h, by simp⟩
  rw [if_neg hnil, Eff.bind_run_ok (Eff.get_run _)]
  rcases hbusy : (ring.isFull && !ring.readClosed && nonblocking) with _ | _
  · split
    · exact Or.inl ⟨none, ring, rfl, h, by simp⟩
    rcases hcl : ring.readClosed with _ | _
    · obtain ⟨ring', n, hrun, hsnd, hqueue, -⟩ := PipeRing.writeTo_run h buffer
      exact Or.inl ⟨some n, ring', Eff.bind_run_ok hrun, hsnd, hqueue⟩
    · exact Or.inr ⟨_, rfl⟩
  · exact Or.inr ⟨_, rfl⟩

/-- **What a careful call does**: it comes back, and the pipe is a queue before and after. -/
theorem run_spec {ring : PipeRing} (h : ring.Sound) {a : Action} (hcar : a.Careful ring) :
    (∃ accepted returned ring', a.run ring = (.ok (accepted, returned), ring') ∧ ring'.Sound ∧
        returned ++ ring'.buffered = ring.buffered ++ accepted) ∨
      ∃ e, a.run ring = (.err e, ring) := by
  cases a with
  | read nonblocking len =>
    rcases read_spec h nonblocking len with ⟨bytes, ring', hrun, hsnd, hqueue⟩ | ⟨e, hrun⟩
    · refine Or.inl ⟨[], bytes.getD [], ring', ?_, hsnd, by simpa using hqueue⟩
      exact Eff.bind_run_ok hrun
    · exact Or.inr ⟨e, Eff.bind_run_err hrun⟩
  | write nonblocking buffer =>
    rcases write_spec h nonblocking buffer with ⟨n, ring', hrun, hsnd, hqueue⟩ | ⟨e, hrun⟩
    · refine Or.inl ⟨buffer.take (n.getD 0), [], ring', ?_, hsnd, by simpa using hqueue⟩
      exact Eff.bind_run_ok hrun
    · exact Or.inr ⟨e, Eff.bind_run_err hrun⟩
  | setPipeCapacity capacity =>
    rcases setPipeCapacity_spec h hcar.1 hcar.2 with hrun | ⟨ring', hrun, hsnd, hqueue, -⟩
    · exact Or.inr ⟨_, Eff.bind_run_err hrun⟩
    · exact Or.inl ⟨[], [], ring', Eff.bind_run_ok hrun, hsnd, by simpa using hqueue⟩
  | closeReadEnd | closeWriteEnd =>
    exact Or.inl ⟨[], [], _, rfl, ⟨h.readPos_lt, h.writePos_eq, h.count_le⟩,
      (List.append_nil ring.buffered).symm⟩

end Action

/-- The pipes that careful calls make of a new one. -/
inductive Reachable (capacity : ℕ) : Traced → Prop
  | new : Reachable capacity ⟨PipeRing.new capacity, [], []⟩
  | step {t : Traced} {a : Action} : Reachable capacity t → a.Careful t.ring →
      Reachable capacity (a.after t)

/-- What was returned and what is in the pipe is what was accepted. -/
def Traced.Fifo (t : Traced) : Prop := t.ring.Sound ∧ t.returned ++ t.ring.buffered = t.accepted

theorem Reachable.fifo {capacity : ℕ} (hpos : 0 < capacity) {t : Traced}
    (h : Reachable capacity t) : t.Fifo := by
  induction h with
  | new =>
    refine ⟨⟨by simpa [PipeRing.new] using hpos, ?_, Nat.zero_le _⟩, rfl⟩
    simp [PipeRing.new]
  | @step t a _ hcar ih =>
    obtain ⟨hsnd, hqueue⟩ := ih
    rcases Action.run_spec hsnd hcar with
      ⟨accepted, returned, ring', hrun, hsnd', hst⟩ | ⟨e, hrun⟩
    · rw [Action.after, hrun]
      refine ⟨hsnd', ?_⟩
      rw [List.append_assoc, hst, ← List.append_assoc, hqueue]
    · rw [Action.after, hrun]
      exact ⟨hsnd, hqueue⟩

/-- **A pipe is a queue** under careful calls: what its reads have returned and what is in it is
what its writes have accepted, the count is within the capacity, the next careful call comes
back, and a resize changes the capacity alone or answers `Busy` and changes nothing. -/
theorem pipe_fifo {capacity : ℕ} (hpos : 0 < capacity) {t : Traced} (h : Reachable capacity t) :
    t.returned ++ t.ring.buffered = t.accepted ∧ t.ring.byteCount ≤ t.ring.buf.length ∧
      (∀ a : Action, a.Careful t.ring → (a.run t.ring).1 ≠ .halt) ∧
      ∀ newCapacity, newCapacity ≠ 0 → newCapacity ≠ t.ring.byteCount →
        setPipeCapacity newCapacity t.ring = (.err .busy, t.ring) ∨
          ∃ ring', setPipeCapacity newCapacity t.ring = (.ok (), ring') ∧
            ring'.buffered = t.ring.buffered ∧ ring'.buf.length = newCapacity ∧
            ring'.writeClosed = t.ring.writeClosed ∧ ring'.readClosed = t.ring.readClosed := by
  obtain ⟨hsnd, hqueue⟩ := h.fifo hpos
  refine ⟨hqueue, hsnd.count_le, fun a hcar => ?_, fun newCapacity hzero hne => ?_⟩
  · rcases Action.run_spec hsnd hcar with ⟨_, _, _, hrun, -⟩ | ⟨e, hrun⟩ <;> rw [hrun] <;>
      intro hhalt <;> cases hhalt
  rcases Action.setPipeCapacity_spec hsnd hzero hne with hbusy | ⟨ring', hrun, -, hre⟩
  · exact Or.inl hbusy
  · exact Or.inr ⟨ring', hrun, hre⟩

/-- A pipe of four bytes with two of them in use, at another capacity. -/
theorem pipe_fifo_resized : ((Action.setPipeCapacity 3).run ((Action.write false [1, 2]).after
      ⟨PipeRing.new 4, [], []⟩).ring).1 ≠ .halt :=
  (pipe_fifo (show 0 < 4 by decide)
    (Reachable.step (a := .write false [1, 2]) Reachable.new trivial)).2.2.1
    (.setPipeCapacity 3) ⟨by decide, by decide⟩

/-- **A resize to exactly the bytes in the pipe stops the machine later**: two bytes in a pipe of
four, a resize to two, a byte read, and the next write is outside of the ring. -/
theorem write_after_exact_resize : ((Action.write false [3]).run
      ((Action.read false 1).after ((Action.setPipeCapacity 2).after
        ((Action.write false [1, 2]).after ⟨PipeRing.new 4, [], []⟩))).ring).1 = .halt := by
  decide

/-! ### Threads that wait -/

/-- A pipe with the numbers of the threads parked at its ends, and of those that were notified and
have not run. -/
structure Channel where
  ring : PipeRing
  readers : ℕ := 0
  writers : ℕ := 0
  woken : ℕ := 0

namespace Channel

/-- A thread holds the lock, for the first time or woken (`retry`): it parks, or notifies those
that wait for it. A call that fails changes nothing, and one that stops the machine is the last. -/
def step (c : Channel) (retry : Bool) (a : Action) : Channel :=
  let c := { c with woken := c.woken - retry.toNat }
  match a with
  | .read nonblocking len =>
    match read nonblocking len c.ring with
    | (.ok none, ring) => { c with ring := ring, readers := c.readers + 1 }
    | (.ok (some _), ring) =>
      if len = 0 ∨ c.ring.isEmpty then { c with ring := ring }
      else { c with ring := ring, writers := c.writers - 1, woken := c.woken + min 1 c.writers }
    | _ => c
  | .write nonblocking buffer =>
    match write nonblocking buffer c.ring with
    | (.ok none, ring) => { c with ring := ring, writers := c.writers + 1 }
    | (.ok (some _), ring) =>
      if buffer = [] then { c with ring := ring }
      else { c with ring := ring, readers := c.readers - 1, woken := c.woken + min 1 c.readers }
    | _ => c
  | .setPipeCapacity capacity =>
    match setPipeCapacity capacity c.ring with
    | (.ok _, ring) => { c with ring := ring }
    | _ => c
  | .closeReadEnd => { c with
      ring := { c.ring with readClosed := true }, writers := 0, woken := c.woken + c.writers }
  | .closeWriteEnd => { c with
      ring := { c.ring with writeClosed := true }, readers := 0, woken := c.woken + c.readers }

/-- A parked writer has no room and a reader, and a parked reader no bytes and a writer. -/
def Justified (c : Channel) : Prop :=
  (0 < c.writers → c.ring.isFull = true ∧ c.ring.readClosed = false) ∧
    (0 < c.readers → c.ring.isEmpty = true ∧ c.ring.writeClosed = false)

/-- **No wake-up is lost**: so it is when nobody who was notified is still to run. -/
def NoneLost (c : Channel) : Prop := c.woken = 0 → c.Justified

/-- A call that takes bytes, or brings some, notifies one thread, so that one at most may be parked
at the other end; a resize notifies none. -/
def Notifies (c : Channel) : Action → Prop
  | .read _ len => len ≠ 0 → c.ring.isEmpty = false → c.writers ≤ 1
  | .write _ buffer => buffer ≠ [] → c.ring.isFull = false → c.readers ≤ 1
  | .setPipeCapacity _ => c.writers = 0
  | .closeReadEnd | .closeWriteEnd => True

/-- The pipes of the runs in which each call notifies everyone it concerns. -/
inductive Alone (capacity : ℕ) : Channel → Prop
  | new : Alone capacity { ring := PipeRing.new capacity }
  | step {c : Channel} (retry : Bool) (a : Action) : Alone capacity c → c.Notifies a →
      Alone capacity (c.step retry a)

variable {c : Channel}

theorem justified_of_none (hwrit : c.writers = 0) (hreaders : c.readers = 0) : c.Justified :=
  ⟨fun h => by omega, fun h => by omega⟩

theorem Justified.step (h : c.Justified) {a : Action} (retry : Bool) (hnotifies : c.Notifies a) :
    (c.step retry a).Justified := by
  cases a with
  | read nonblocking len =>
    by_cases hlen : len = 0
    · subst hlen
      exact h
    rw [Channel.step, read, if_neg hlen, bind_run_ok (get_run _)]
    cases hemp : c.ring.isEmpty with
    | true =>
      simp only [or_true, if_true]
      cases hcl : c.ring.writeClosed <;> cases nonblocking
      · exact ⟨h.1, fun _ => ⟨hemp, hcl⟩⟩
      all_goals exact h
    | false =>
      have hno : c.readers = 0 := by grind [Justified]
      simp only [Bind.bind, Eff.bind, Bool.false_and, failIf, Eff.pure, reduceCtorEq, if_false,
        hlen, or_false]
      rcases PipeRing.readFrom len c.ring with ⟨_ | _ | _, ring⟩
      · exact justified_of_none (Nat.sub_eq_zero_of_le (hnotifies hlen hemp)) hno
      all_goals exact h
  | write nonblocking buffer =>
    by_cases hnil : buffer = []
    · subst hnil
      exact h
    rw [Channel.step, write, if_neg hnil, bind_run_ok (get_run _)]
    simp only [if_neg hnil]
    cases hfu : c.ring.isFull <;> cases hcl : c.ring.readClosed
    · have hno : c.writers = 0 := by grind [Justified]
      simp only [Bind.bind, Eff.bind, Bool.false_and, failIf, Eff.pure, reduceCtorEq, if_false]
      rcases PipeRing.writeTo buffer c.ring with ⟨_ | _ | _, ring⟩
      · exact justified_of_none hno (Nat.sub_eq_zero_of_le (hnotifies hnil hfu))
      all_goals exact h
    · exact h
    · cases nonblocking
      · exact ⟨fun _ => ⟨hfu, hcl⟩, h.2⟩
      · exact h
    · exact h
  | setPipeCapacity capacity =>
    have hno : c.writers = 0 := hnotifies
    obtain ⟨ring, _ | readers, writers, woken⟩ := c
    · rw [Channel.step]
      split
      exacts [justified_of_none hno rfl, h]
    obtain ⟨buf, readPos, writePos, byteCount, _, _⟩ := ring
    -- A reader waits, so the pipe is empty; a resize leaves it so.
    obtain rfl : byteCount = 0 := of_decide_eq_true (h.2 readers.succ_pos).1
    cases capacity with
    | zero => exact h
    | succ => exact ⟨fun hso => absurd hno (Nat.ne_of_gt hso), h.2⟩
  | closeReadEnd => exact ⟨nofun, h.2⟩
  | closeWriteEnd => exact ⟨h.1, nofun⟩

/-- **When no wake-up is lost**: whoever is parked has to wait, also while a thread that was
notified is still to run. -/
theorem justified_of_alone {capacity : ℕ} (h : Alone capacity c) : c.Justified := by
  induction h with
  | new => exact justified_of_none rfl rfl
  | step retry a _ hnotifies ih => exact ih.step retry hnotifies

/-- A reader waits for a byte, and a writer brings it. -/
theorem justified_of_alone_woken : ((({ ring := PipeRing.new 1 } : Channel).step false
    (.read false 1)).step false (.write false [7])).Justified := by
  have hparked : Alone 1 (({ ring := PipeRing.new 1 } : Channel).step false (.read false 1)) :=
    .step false (.read false 1) .new fun _ _ => Nat.zero_le 1
  exact justified_of_alone (hparked.step false (.write false [7]) fun _ _ => by decide)

/-- **A wake-up is lost**: a writer waits for room, and the pipe is resized. -/
theorem resize_wakes_nobody : ¬(((({ ring := PipeRing.new 1 } : Channel).step false
    (.write false [1])).step false (.write false [2])).step false
      (.setPipeCapacity 2)).NoneLost := by
  unfold NoneLost Justified
  decide

end Channel

end Protofire.Ipc
