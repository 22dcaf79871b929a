import Protofire.Lib.Splice
import Protofire.Network.TcpReceive

/-!
# The stream that is sent

What is written to a connection is a stream too. The send buffer is its part from `sendUnacked`
on, and the bytes before `sendNext` have been sent (`Sends`): a write adds to the end, an
acknowledgement takes away from the beginning – no further than `sendNext`, whatever number it
names – and output moves the boundary. So every segment of data carries the bytes that were
written at its numbers, and every byte before the boundary was carried by a segment.

Two things are not as they should be.

* `close` gives the end of the stream the number `sendNext` and leaves the state in which data is
  sent. What was written and not sent by then never leaves, and its first byte has the number of
  the end (`sent_exactly`, `close_skips_bytes`).
* After a write the whole window of the peer is allowed, with no regard to what is in flight, so
  that a second full segment goes beyond the window (`window_kept`, `flush_beyond_window`). The
  output after a segment subtracts what is in flight. And the windows of the handshake are not
  looked at: until the first acknowledgement after it, 65535 bytes are allowed.

Segments outside of the window should do nothing, but resets are not compared with it at all
(`inert_iff_harmless`, `reset_outside`). The last section puts the two sides together
(`delivered_begins`).
-/

namespace Protofire.Network.Tcp

open Serial Splice Connection List Nat

/-! ### What the sending side has -/

/-- A segment carries the bytes that were written at its numbers. -/
def CarriesAt (base : UInt32) (written : List UInt8) (seg : Segment) (off : ℕ) : Prop :=
  seg.sequenceNumber = number base off ∧ off + seg.payload.length ≤ written.length ∧
    seg.payload = slice written off seg.payload.length

/-- What is sent, by the two numbers, the buffer and the segments to send again. -/
structure Sender where
  sendNext : UInt32
  sendUnacked : UInt32
  sendBuffer : List UInt8
  pendingSegments : List (UInt32 × Segment)

/-- The half of a connection that sends. -/
def Connection.sender (c : Connection) : Sender :=
  ⟨c.sendNext, c.sendUnacked, c.sendBuffer, c.retransmit.pendingSegments⟩

/-- **What the sending side keeps**: of the bytes that were written some are acknowledged, some
are sent, and the buffer has those that are not acknowledged. -/
structure Sends (base : UInt32) (written : List UInt8) (acked sent : ℕ) (s : Sender) : Prop where
  acked_le : acked ≤ sent
  sent_le : sent ≤ written.length
  sendUnacked : s.sendUnacked = number base acked
  sendNext : s.sendNext = number base sent
  sendBuffer : s.sendBuffer = written.drop acked
  fits : written.length ≤ acked + maxSendBuffer
  pending : ∀ p ∈ s.pendingSegments, p.2.payload ≠ [] → ∃ off, CarriesAt base written p.2 off

section Frames

variable {c : Connection} {seg : Segment}

theorem sender_prepared : (c.prepared seg).sender = c.sender := by
  rw [prepared]
  rcases seg.options.timestamp with _ | ⟨peer, _⟩ <;> cases seg.flags.ack <;> rfl

theorem sender_acceptPayload {seq : UInt32} {payload : List UInt8} :
    (c.acceptPayload seq payload).sender = c.sender := by
  rw [acceptPayload]
  split
  · rfl
  split
  · rfl
  split
  · rw [enqueueOoo]
    split <;> rfl
  · rfl

theorem sender_receive : (c.receive seg).1.sender = c.sender ∧
    ∀ o ∈ (c.receive seg).2, o.payload = [] := by
  rw [receive]
  split
  · exact ⟨rfl, by simp⟩
  refine ⟨sender_acceptPayload, fun o ho => ?_⟩
  rw [mem_singleton.mp ho]
  rfl

theorem sender_receiveFin : (c.receiveFin seg).1.sender = c.sender ∧
    (c.receiveFin seg).1.sendWindow = c.sendWindow ∧
    ∀ o ∈ (c.receiveFin seg).2, o.payload = [] := by
  rw [receiveFin]
  split
  swap
  · exact ⟨rfl, rfl, by simp⟩
  simp only
  split
  · refine ⟨rfl, rfl, fun o ho => ?_⟩
    rw [mem_singleton.mp ho]
    rfl
  · exact ⟨rfl, rfl, by simp⟩

theorem sender_acknowledge : (c.acknowledge seg).sender = c.sender ∨
    (c.acknowledge seg).sender = (c.processDataAck seg.acknowledgmentNumber).sender := by
  rw [acknowledge]
  split
  · exact Or.inr rfl
  · exact Or.inl rfl

end Frames

/-! ### The steps of the sending side -/

section Steps

variable {base : UInt32} {written : List UInt8} {acked sent n : ℕ} {c : Connection} {seg : Segment}

theorem CarriesAt.append {off : ℕ} (h : CarriesAt base written seg off) (more : List UInt8) :
    CarriesAt base (written ++ more) seg off := by
  obtain ⟨hseq, hle, hbytes⟩ := h
  refine ⟨hseq, by rw [length_append]; omega, hbytes.trans ?_⟩
  refine ext_getElem? fun i => ?_
  rw [getElem?_slice, getElem?_slice]
  split
  · rw [getElem?_append_left (by omega)]
  · rfl

theorem mem_of_mem_unsacked {blocks : List (UInt32 × UInt32)} {pending : List (UInt32 × Segment)}
    {p : UInt32 × Segment} (hp : p ∈ unsacked blocks pending) : p ∈ pending := by
  have hmem : ∀ (start : UInt32) (l : List (UInt32 × Segment)),
      p ∈ uncovered blocks start l → p ∈ l := by
    intro start l
    induction l generalizing start with
    | nil => exact fun h => h
    | cons q l ih =>
      intro h
      rw [uncovered] at h
      split at h
      · exact mem_cons_of_mem _ (ih _ h)
      rcases mem_cons.mp h with rfl | h
      · exact mem_cons_self
      · exact mem_cons_of_mem _ (ih _ h)
  cases pending with
  | nil => exact hp
  | cons q rest =>
    rcases mem_cons.mp hp with rfl | hp
    · exact mem_cons_self
    · exact mem_cons_of_mem _ (hmem _ _ hp)

section Stream

variable (h : Sends base written acked sent c.sender)
include h

theorem Sends.length_sendBuffer : c.sendBuffer.length = written.length - acked := by
  have hbuf : c.sendBuffer = written.drop acked := h.sendBuffer
  rw [hbuf, length_drop]

theorem Sends.ahead_eq : c.ahead = sent - acked := by
  have huna : c.sendUnacked = number base acked := h.sendUnacked
  have hnx : c.sendNext = number base sent := h.sendNext
  have hle := h.sent_le
  have hft := h.fits
  rw [maxSendBuffer] at hft
  rw [ahead, huna, hnx]
  exact dist_of_le h.acked_le (by omega)

/-- **Bytes are accepted at the end.** -/
theorem Sends.write (data : List UInt8) :
    Sends base (written ++ data.take (c.write data).1) acked sent (c.write data).2.sender := by
  have hln := h.length_sendBuffer
  have hle := h.sent_le
  have hacked := h.acked_le
  have hft := h.fits
  have htake : (data.take (c.write data).1).length = (c.write data).1 :=
    List.length_take_of_le (by rw [Connection.write]; omega)
  have hacep : (c.write data).1 ≤ maxSendBuffer - c.sendBuffer.length := by
    exact min_le_right _ _
  refine ⟨hacked, ?_, h.sendUnacked, h.sendNext, ?_, ?_, fun p hp hdt => ?_⟩
  · rw [length_append]
    omega
  · rw [drop_append_of_le_length (by omega), ← h.sendBuffer]
    rfl
  · rw [length_append]
    omega
  · obtain ⟨off, hoff⟩ := h.pending p hp hdt
    exact ⟨off, hoff.append _⟩

/-- **An acknowledgement takes bytes that were sent**, whatever number it names. -/
theorem Sends.processDataAck (ack : UInt32) :
    ∃ acked', Sends base written acked' sent (c.processDataAck ack).sender := by
  rw [Connection.processDataAck]
  split
  swap
  · exact ⟨acked, h⟩
  rename_i hhon
  have huna : c.sendUnacked = number base acked := h.sendUnacked
  have hnx : c.sendNext = number base sent := h.sendNext
  have hbuf : c.sendBuffer = written.drop acked := h.sendBuffer
  have hln := h.length_sendBuffer
  have hacked := h.acked_le
  have hsent := h.sent_le
  have hft := h.fits
  -- the number is that of a place after what is acknowledged, and not after what was sent
  have hplace := eq_number_add_dist ack base acked
  rw [huna, hnx] at hhon
  rw [huna]
  generalize dist ack (number base acked) = diff at hhon hplace
  have hle : acked + diff ≤ sent := by
    by_contra hbey
    rw [hplace, dist_of_lt (by omega) (by simp only [half] at *; omega)] at hhon
    simp only [half] at *
    omega
  refine ⟨acked + diff, hle, hsent, hplace, hnx, ?_, by omega, fun p hp => ?_⟩
  · change c.sendBuffer.drop (min diff c.sendBuffer.length) = _
    rw [min_eq_left (by omega), hbuf, drop_drop]
  · exact h.pending p (dropWhile_subset _ (mem_of_mem_unsacked hp))

theorem Sends.acknowledge (seg : Segment) :
    ∃ acked', Sends base written acked' sent (c.acknowledge seg).sender := by
  rcases @sender_acknowledge c seg with heq | heq <;> rw [heq]
  · exact ⟨acked, h⟩
  · exact h.processDataAck seg.acknowledgmentNumber

/-- **Output sends the bytes after those that were sent**, or nothing. -/
theorem Sends.sendData (hn : n ≤ c.sendBuffer.length - c.ahead) (tick : ℕ) :
    c.sendData tick n = (c, []) ∨ ∃ seg, (c.sendData tick n).2 = [seg] ∧ 0 < n ∧
      (c.retransmit.pendingSegments.isEmpty ∨ c.effectiveMss ≤ n) ∧
      seg.payload.length = n ∧ CarriesAt base written seg sent ∧
      Sends base written acked (sent + n) (c.sendData tick n).1.sender := by
  rw [Connection.sendData]
  split
  swap
  · exact Or.inl rfl
  rename_i hal
  right
  have hln := h.length_sendBuffer
  have hah := h.ahead_eq
  have hacked := h.acked_le
  have hbuf : c.sendBuffer = written.drop acked := h.sendBuffer
  have hnx : c.sendNext = number base sent := h.sendNext
  have hdt : (c.sendBuffer.drop c.ahead).take n = slice written sent n := by
    rw [hbuf, hah, drop_drop, show acked + (sent - acked) = sent by omega, slice]
  have hlen : (slice written sent n).length = n := length_slice (by omega)
  rw [hdt]
  simp only [hlen]
  generalize hseg : c.stamped.segment pushAck c.stamped.timestampedOptions
    (slice written sent n) = seg
  have hpay : seg.payload = slice written sent n := by
    rw [← hseg]
    rfl
  have hcar : CarriesAt base written seg sent := by
    refine ⟨?_, by rw [hpay]; omega, by rw [hpay, hlen]⟩
    rw [← hseg]
    exact hnx
  refine ⟨seg, rfl, hal.1, hal.2, by rw [hpay, hlen], hcar, by omega, by omega,
    h.sendUnacked, ?_, h.sendBuffer, h.fits, fun p hp hp' => ?_⟩
  · rw [number_add, ← hnx]
    rfl
  have hmem : p ∈ c.retransmit.pendingSegments ∨
      p = (c.sendNext + UInt32.ofNat n, seg) := by
    rw [RetransmitState.queued] at hp
    split at hp
    · exact Or.inr (mem_singleton.mp hp)
    · exact (mem_append.mp hp).imp_right mem_singleton.mp
  rcases hmem with hmem | rfl
  · exact h.pending p hmem hp'
  · exact ⟨sent, hcar⟩

theorem Sends.tryFlushTcpOutput (tick : ℕ) :
    c.tryFlushTcpOutput tick = (c, []) ∨ ∃ seg, (c.tryFlushTcpOutput tick).2 = [seg] ∧
      0 < c.canFlush ∧ (c.retransmit.pendingSegments.isEmpty ∨ c.effectiveMss ≤ c.canFlush) ∧
      seg.payload.length = c.canFlush ∧ CarriesAt base written seg sent ∧
      Sends base written acked (sent + c.canFlush) (c.tryFlushTcpOutput tick).1.sender := by
  rw [Connection.tryFlushTcpOutput]
  split
  · exact Or.inl rfl
  · exact h.sendData (min_le_right _ _) tick

theorem Sends.pushOutput (tick : ℕ) :
    c.pushOutput tick = (c, []) ∨ ∃ seg, (c.pushOutput tick).2 = [seg] ∧
      0 < c.canPush ∧ (c.retransmit.pendingSegments.isEmpty ∨ c.effectiveMss ≤ c.canPush) ∧
      seg.payload.length = c.canPush ∧ CarriesAt base written seg sent ∧
      Sends base written acked (sent + c.canPush) (c.pushOutput tick).1.sender := by
  rw [Connection.pushOutput]
  split
  · exact h.sendData (min_le_right _ _) tick
  · exact Or.inl rfl

end Stream

end Steps

/-! ### One call -/

/-- **What a call does to the stream that is sent**: of the segments that leave each carries
written bytes at its numbers, and the bytes that were not sent before and are sent after it are
in one of them. -/
structure Emits (base : UInt32) (written : List UInt8) (sent sent' : ℕ) (out : List Segment) :
    Prop where
  le : sent ≤ sent'
  carries : ∀ seg ∈ out, seg.payload ≠ [] → ∃ off, CarriesAt base written seg off
  covers : ∀ k, sent ≤ k → k < sent' → ∃ seg ∈ out, ∃ off, CarriesAt base written seg off ∧
    off ≤ k ∧ k < off + seg.payload.length

section Calls

variable {base : UInt32} {written : List UInt8} {acked sent n : ℕ} {c : Connection} {seg : Segment}

theorem Emits.nothing : Emits base written sent sent [] :=
  ⟨le_refl _, fun seg hs => (nomatch hs), fun k hk hlt => by omega⟩

theorem Emits.single (h : CarriesAt base written seg sent) (hn : seg.payload.length = n) :
    Emits base written sent (sent + n) [seg] := by
  refine ⟨le_add_right _ _, fun s hs _ => ?_, fun k hk hlt => ?_⟩
  · exact ⟨sent, mem_singleton.mp hs ▸ h⟩
  · exact ⟨seg, mem_singleton_self _, sent, h, hk, by omega⟩

theorem Emits.append {sent' : ℕ} {out quiet : List Segment}
    (h : Emits base written sent sent' out) (hqt : ∀ seg ∈ quiet, seg.payload = []) :
    Emits base written sent sent' (quiet ++ out) := by
  refine ⟨h.le, fun seg hs hdt => ?_, fun k hk hlt => ?_⟩
  · rcases mem_append.mp hs with hs | hs
    · exact absurd (hqt seg hs) hdt
    · exact h.carries seg hs hdt
  · obtain ⟨seg, hs, hcar⟩ := h.covers k hk hlt
    exact ⟨seg, mem_append_right _ hs, hcar⟩

/-- The states in which data may be sent, or none any more. -/
def Usable (c : Connection) : Prop :=
  c.state = .established ∨ c.state = .closeWait ∨ c.state = .closed

/-- What becomes of a segment on an open connection: acknowledgements leave, and then output. -/
theorem processOpen_eq (h : Sends base written acked sent c.sender) (tick : ℕ) (seg : Segment) :
    ∃ acked' quiet, ∃ d : Connection, Sends base written acked' sent d.sender ∧
      (∀ o ∈ quiet, o.payload = []) ∧
      c.processOpen tick seg = ((d.pushOutput tick).1, quiet ++ (d.pushOutput tick).2) := by
  obtain ⟨hrec, hqt⟩ := @sender_receive (c.prepared seg) seg
  rw [← sender_prepared, ← hrec] at h
  obtain ⟨acked', hacked⟩ := h.acknowledge seg
  obtain ⟨hfin, -, hqt'⟩ :=
    @sender_receiveFin (((c.prepared seg).receive seg).1.acknowledge seg) seg
  rw [← hfin] at hacked
  refine ⟨acked', _, _, hacked, fun o ho => ?_, rfl⟩
  rcases mem_append.mp ho with ho | ho
  · exact hqt o ho
  · exact hqt' o ho

theorem processOpen_emits (h : Sends base written acked sent c.sender) (tick : ℕ)
    (seg : Segment) : ∃ acked' sent',
      Sends base written acked' sent' (c.processOpen tick seg).1.sender ∧
      Emits base written sent sent' (c.processOpen tick seg).2 := by
  obtain ⟨acked', quiet, d, hsen, hqt, heq⟩ := processOpen_eq h tick seg
  rw [heq]
  rcases hsen.pushOutput tick with hnone | ⟨o, ho, -, -, hln, hcar, haft⟩
  · rw [hnone]
    exact ⟨acked', sent, hsen, Emits.nothing.append hqt⟩
  · rw [ho]
    exact ⟨acked', _, haft, (Emits.single hcar hln).append hqt⟩

theorem state_processOpen (hst : c.state = .established ∨ c.state = .closeWait) (tick : ℕ)
    (seg : Segment) : (c.processOpen tick seg).1.state = .established ∨
      (c.processOpen tick seg).1.state = .closeWait := by
  rw [processOpen]
  rw [receiver_pushOutput.2]
  have hbef : (((c.prepared seg).receive seg).1.acknowledge seg).state = c.state := by
    rw [receiver_acknowledge.2, state_receive, receiver_prepared.2]
  generalize ((c.prepared seg).receive seg).1.acknowledge seg = d at hbef
  rw [← hbef] at hst
  rw [receiveFin]
  split
  · simp only
    split
    · exact Or.inr rfl
    · exact hst
  · exact hst

theorem processSegment_open (hst : c.state = .established ∨ c.state = .closeWait)
    {room : Option Bool} {tick : ℕ} : c.processSegment room tick seg =
      if seg.flags.rst then Reply.gone c
      else { conn := (c.processOpen tick seg).1, sent := (c.processOpen tick seg).2 } := by
  rcases hst with hst | hst <;> rw [processSegment, hst]

/-- What becomes of a segment on a connection that is open or gone. -/
theorem processSegment_cases (hst : Usable c) (room : Option Bool) (tick : ℕ) (seg : Segment) :
    c.processSegment room tick seg = Reply.gone c ∨
    c.processSegment room tick seg = { conn := c, removed := true } ∨
    ((c.state = .established ∨ c.state = .closeWait) ∧ c.processSegment room tick seg =
      { conn := (c.processOpen tick seg).1, sent := (c.processOpen tick seg).2 }) := by
  rcases or_assoc.mpr hst with hlv | hcl
  · rw [processSegment_open hlv]
    split
    · exact Or.inl rfl
    · exact Or.inr (Or.inr ⟨hlv, rfl⟩)
  · rw [processSegment, hcl]
    exact Or.inr (Or.inl rfl)

theorem processSegment_emits (h : Sends base written acked sent c.sender) (hst : Usable c)
    (room : Option Bool) (tick : ℕ) (seg : Segment) :
    Usable (c.processSegment room tick seg).conn ∧ ∃ acked' sent',
      Sends base written acked' sent' (c.processSegment room tick seg).conn.sender ∧
      Emits base written sent sent' (c.processSegment room tick seg).sent := by
  rcases processSegment_cases hst room tick seg with heq | heq | ⟨hlv, heq⟩ <;> rw [heq]
  · exact ⟨Or.inr (Or.inr rfl), acked, sent, h, Emits.nothing⟩
  · exact ⟨hst, acked, sent, h, Emits.nothing⟩
  · exact ⟨or_assoc.mp (Or.inl (state_processOpen hlv tick seg)), processOpen_emits h tick seg⟩

theorem state_tryFlushTcpOutput (tick : ℕ) : (c.tryFlushTcpOutput tick).1.state = c.state := by
  rw [tryFlushTcpOutput]
  split
  · rfl
  · exact receiver_sendData.2

theorem tryFlushTcpOutput_emits (h : Sends base written acked sent c.sender) (tick : ℕ) :
    ∃ sent', Sends base written acked sent' (c.tryFlushTcpOutput tick).1.sender ∧
      Emits base written sent sent' (c.tryFlushTcpOutput tick).2 := by
  rcases h.tryFlushTcpOutput tick with hnone | ⟨o, ho, -, -, hln, hcar, haft⟩
  · rw [hnone]
    exact ⟨sent, h, Emits.nothing⟩
  · rw [ho]
    exact ⟨_, haft, Emits.single hcar hln⟩

theorem retransmitCheck_emits (h : Sends base written acked sent c.sender) (hst : Usable c)
    (tick : ℕ) : Usable (c.retransmitCheck tick).2.conn ∧
      Sends base written acked sent (c.retransmitCheck tick).2.conn.sender ∧
      Emits base written sent sent (c.retransmitCheck tick).2.sent := by
  have hlv : c.state ≠ .timeWait := by
    rintro heq
    rw [Usable, heq] at hst
    simp at hst
  rw [retransmitCheck]
  split
  · rename_i heq
    exact absurd heq hlv
  · exact ⟨hst, h, Emits.nothing⟩
  split
  · exact ⟨hst, h, Emits.nothing⟩
  rename_i next seg rest hpend
  simp only
  split
  · split
    · exact ⟨Or.inr (Or.inr rfl), ⟨h.acked_le, h.sent_le, h.sendUnacked, h.sendNext,
        h.sendBuffer, h.fits, fun p hp => nomatch hp⟩, Emits.nothing⟩
    refine ⟨hst, h, le_refl _, fun o ho hdt => ?_, fun k hk hlt => by omega⟩
    rw [mem_singleton.mp ho] at hdt ⊢
    refine h.pending (next, seg) ?_ hdt
    rw [sender, hpend]
    exact mem_cons_self
  · exact ⟨hst, h, Emits.nothing⟩

end Calls

/-! ### Runs -/

/-- A connection on which nothing has been written. -/
structure Started (c : Connection) : Prop where
  state : c.state = .established
  sendNext : c.sendNext = c.initialSeq + 1
  sendUnacked : c.sendUnacked = c.initialSeq + 1
  sendBuffer : c.sendBuffer = []
  pending : c.retransmit.pendingSegments = []

/-- The connections that are reached by writes, segments of the peer, flushes and timeouts, with
the bytes that writes accepted and the segments that left. -/
inductive SendRun (c₀ : Connection) : List UInt8 → List Segment → Connection → Prop
  | start : SendRun c₀ [] [] c₀
  | write {written : List UInt8} {emitted : List Segment} {c : Connection}
      (hrun : SendRun c₀ written emitted c) (tick : ℕ) (data : List UInt8) (accepted : ℕ)
      (reply : Reply) (hwrite : c.writeThrough tick data = .ok (accepted, reply)) :
      SendRun c₀ (written ++ data.take accepted) (emitted ++ reply.sent) reply.conn
  | segment {written : List UInt8} {emitted : List Segment} {c : Connection}
      (hrun : SendRun c₀ written emitted c) (room : Option Bool) (tick : ℕ) (seg : Segment) :
      SendRun c₀ written (emitted ++ (c.processSegment room tick seg).sent)
        (c.processSegment room tick seg).conn
  | flush {written : List UInt8} {emitted : List Segment} {c : Connection}
      (hrun : SendRun c₀ written emitted c) (tick : ℕ) :
      SendRun c₀ written (emitted ++ (c.tryFlushTcpOutput tick).2) (c.tryFlushTcpOutput tick).1
  | retransmit {written : List UInt8} {emitted : List Segment} {c : Connection}
      (hrun : SendRun c₀ written emitted c) (tick : ℕ) :
      SendRun c₀ written (emitted ++ (c.retransmitCheck tick).2.sent)
        (c.retransmitCheck tick).2.conn

section Runs

variable {c₀ c : Connection} {base : UInt32} {written : List UInt8} {emitted : List Segment}
  {sent sent' : ℕ}

theorem Emits.more {out : List Segment} (h : Emits base written 0 sent emitted)
    (hout : Emits base written sent sent' out) : Emits base written 0 sent' (emitted ++ out) := by
  refine ⟨zero_le _, fun seg hs hdt => ?_, fun k hk hlt => ?_⟩
  · rcases mem_append.mp hs with hs | hs
    · exact h.carries seg hs hdt
    · exact hout.carries seg hs hdt
  by_cases hold : k < sent
  · obtain ⟨seg, hs, hcar⟩ := h.covers k hk hold
    exact ⟨seg, mem_append_left _ hs, hcar⟩
  · obtain ⟨seg, hs, hcar⟩ := hout.covers k (by omega) hlt
    exact ⟨seg, mem_append_right _ hs, hcar⟩

theorem Emits.append_written (h : Emits base written 0 sent emitted) (more : List UInt8) :
    Emits base (written ++ more) 0 sent emitted := by
  refine ⟨h.le, fun seg hs hdt => ?_, fun k hk hlt => ?_⟩
  · obtain ⟨off, hoff⟩ := h.carries seg hs hdt
    exact ⟨off, hoff.append more⟩
  · obtain ⟨seg, hs, off, hoff, hin⟩ := h.covers k hk hlt
    exact ⟨seg, hs, off, hoff.append more, hin⟩

/-- **In every run the sending side has what was written**, and the bytes before the boundary
have left. -/
theorem SendRun.sends (h : Started c₀) (hrun : SendRun c₀ written emitted c) : Usable c ∧
    ∃ acked sent, Sends (c₀.initialSeq + 1) written acked sent c.sender ∧
      Emits (c₀.initialSeq + 1) written 0 sent emitted := by
  induction hrun with
  | start =>
    refine ⟨Or.inl h.state, 0, 0, ⟨le_refl _, zero_le _, ?_, ?_, h.sendBuffer,
      zero_le _, fun p hp => ?_⟩, Emits.nothing⟩
    · rw [number_zero]
      exact h.sendUnacked
    · rw [number_zero]
      exact h.sendNext
    · rw [sender, h.pending] at hp
      cases hp
  | @write written emitted c hrun tick data accepted reply hwr ih =>
    obtain ⟨-, acked, sent, hsen, hem⟩ := ih
    rw [writeThrough] at hwr
    split at hwr
    · cases hwr
    rename_i hst
    cases Except.ok.inj hwr
    obtain ⟨sent', hsen', hout⟩ := tryFlushTcpOutput_emits (hsen.write data) tick
    refine ⟨Or.inl ?_, acked, sent', hsen', (hem.append_written _).more hout⟩
    exact (state_tryFlushTcpOutput tick).trans (Classical.not_not.mp hst)
  | @segment written emitted c hrun room tick seg ih =>
    obtain ⟨hst, acked, sent, hsen, hem⟩ := ih
    obtain ⟨hst', acked', sent', hsen', hout⟩ :=
      processSegment_emits hsen hst room tick seg
    exact ⟨hst', acked', sent', hsen', hem.more hout⟩
  | @flush written emitted c hrun tick ih =>
    obtain ⟨hst, acked, sent, hsen, hem⟩ := ih
    obtain ⟨sent', hsen', hout⟩ := tryFlushTcpOutput_emits hsen tick
    refine ⟨?_, acked, sent', hsen', hem.more hout⟩
    rw [Usable, state_tryFlushTcpOutput]
    exact hst
  | @retransmit written emitted c hrun tick ih =>
    obtain ⟨hst, acked, sent, hsen, hem⟩ := ih
    obtain ⟨hst', hsen', hout⟩ := retransmitCheck_emits hsen hst tick
    exact ⟨hst', acked, sent, hsen', hem.more hout⟩

/-- A byte left in a segment of data. -/
def Left (base : UInt32) (written : List UInt8) (emitted : List Segment) (k : ℕ) : Prop :=
  ∃ seg ∈ emitted, ∃ off, CarriesAt base written seg off ∧ off ≤ k ∧
    k < off + seg.payload.length

theorem close_sent {tick : ℕ} {reply : Reply} (h : c.close tick = .ok reply) :
    ∃ fin, reply.sent = [fin] ∧ fin.sequenceNumber = c.sendNext ∧ fin.payload = [] := by
  rw [close] at h
  split at h
  · cases h
    exact ⟨_, rfl, rfl, rfl⟩
  · cases h
    exact ⟨_, rfl, rfl, rfl⟩
  · cases h

/-- **What is written is what is sent, up to the close.** In every run each segment of data
carries the bytes that were written at its numbers. A close is sent after all of them, with the
number after the last one, exactly if the buffer has no byte that was not sent. -/
theorem sent_exactly (h : Started c₀) (hrun : SendRun c₀ written emitted c) :
    (∀ seg ∈ emitted, seg.payload ≠ [] → ∃ off, CarriesAt (c₀.initialSeq + 1) written seg off) ∧
    ∀ tick reply, c.close tick = .ok reply →
      ((∀ k < written.length, Left (c₀.initialSeq + 1) written emitted k) ∧
        (∀ fin ∈ reply.sent, fin.payload = [] ∧
          fin.sequenceNumber = number (c₀.initialSeq + 1) written.length) ↔
        c.sendBuffer.length ≤ dist c.sendNext c.sendUnacked) := by
  obtain ⟨-, acked, sent, hsen, hem⟩ := hrun.sends h
  refine ⟨hem.carries, fun tick reply hclo => ?_⟩
  obtain ⟨fin, hsent, hseq, hpay⟩ := close_sent hclo
  have hnx : c.sendNext = number (c₀.initialSeq + 1) sent := hsen.sendNext
  have hah : dist c.sendNext c.sendUnacked = sent - acked := hsen.ahead_eq
  have hacked := hsen.acked_le
  have hle := hsen.sent_le
  have hft := hsen.fits
  rw [hsen.length_sendBuffer, hsent]
  constructor
  · rintro ⟨-, hfin⟩
    have hnum := (hfin fin (mem_singleton_self _)).2
    rw [hseq, hnx] at hnum
    simp only [maxSendBuffer] at hft
    have := number_inj hnum (by omega) (by omega)
    omega
  · intro hall
    obtain rfl : sent = written.length := by omega
    refine ⟨fun k hk => hem.covers k (zero_le _) hk, fun o ho => ?_⟩
    rw [mem_singleton.mp ho]
    exact ⟨hpay, hseq.trans hnx⟩

end Runs

/-! ### The handshake -/

/-- A connection that is being opened: nothing was written, and no window is known. -/
structure Opening (c : Connection) : Prop where
  sendNext : c.sendNext = c.initialSeq + 1
  sendBuffer : c.sendBuffer = []
  sendWindow : c.sendWindow = 65535

theorem opening_new (initialSeq : UInt32) (tick : ℕ) : Opening (Connection.new initialSeq tick) :=
  ⟨rfl, rfl, rfl⟩

theorem opening_newChild (peerInitialSeq initialSeq : UInt32) (tick : ℕ) :
    Opening (Connection.newChild peerInitialSeq initialSeq tick) :=
  ⟨rfl, rfl, rfl⟩

/-- **A connection that its peer has opened too**, with the window that the peer's last segment of
the handshake has. The window of an answer to an opening is not scaled. -/
inductive Opens : Connection → ℕ → Prop
  | answered {c : Connection} (h : Opening c) (hstate : c.state = .synSent) (seg : Segment)
      (hopen : (c.processSynSent seg).conn.state = .established) :
      Opens (c.processSynSent seg).conn seg.windowSize
  | acknowledged {c : Connection} (h : Opening c) (hstate : c.state = .synReceived)
      (room : Option Bool) (seg : Segment)
      (hopen : (c.processSynReceived room seg).conn.state = .established) :
      Opens (c.processSynReceived room seg).conn (seg.windowSize * 2 ^ c.peerWindowScale)

/-- The window of the handshake is not stored. -/
theorem Opens.started {c : Connection} {window : ℕ} (h : Opens c window) :
    Started c ∧ c.sendWindow = 65535 := by
  cases h with
  | answered h hstate seg hopen =>
    revert hopen
    rw [processSynSent]
    split_ifs
    · exact TcpState.noConfusion
    · exact fun hopen => TcpState.noConfusion (hstate.symm.trans hopen)
    · exact fun _ => ⟨⟨rfl, h.sendNext, rfl, h.sendBuffer, rfl⟩, h.sendWindow⟩
    · exact fun hopen => TcpState.noConfusion (hstate.symm.trans hopen)
  | acknowledged h hstate room seg hopen =>
    revert hopen
    rw [processSynReceived]
    split_ifs
    · exact TcpState.noConfusion
    · exact fun hopen => TcpState.noConfusion (hstate.symm.trans hopen)
    · exact TcpState.noConfusion
    · exact fun _ => ⟨⟨rfl, h.sendNext, rfl, h.sendBuffer, rfl⟩, h.sendWindow⟩
    · exact fun hopen => TcpState.noConfusion (hstate.symm.trans hopen)

/-! ### The window of the peer -/

/-- The window that the peer has advertised last, after a segment: one that acknowledges advertises
a window. -/
def Connection.advertised (c : Connection) (last : ℕ) (seg : Segment) : ℕ :=
  if seg.flags.ack then seg.windowSize * 2 ^ c.peerWindowScale else last

/-- **The connections that writes, segments of the peer and timeouts lead to**, with the window that
the peer has advertised last. -/
inductive WindowRun (c₀ : Connection) (first : ℕ) : ℕ → Connection → Prop
  | start : WindowRun c₀ first first c₀
  | write {last : ℕ} {c : Connection} (hrun : WindowRun c₀ first last c) (tick : ℕ)
      (data : List UInt8) (accepted : ℕ) (reply : Reply)
      (hwrite : c.writeThrough tick data = .ok (accepted, reply)) :
      WindowRun c₀ first last reply.conn
  | segment {last : ℕ} {c : Connection} (hrun : WindowRun c₀ first last c) (room : Option Bool)
      (tick : ℕ) (seg : Segment) :
      WindowRun c₀ first (c.advertised last seg) (c.processSegment room tick seg).conn
  | retransmit {last : ℕ} {c : Connection} (hrun : WindowRun c₀ first last c) (tick : ℕ) :
      WindowRun c₀ first last (c.retransmitCheck tick).2.conn

theorem WindowRun.sendRun {c₀ c : Connection} {first last : ℕ} (h : WindowRun c₀ first last c) :
    ∃ written emitted, SendRun c₀ written emitted c := by
  induction h with
  | start => exact ⟨_, _, .start⟩
  | write hrun tick data accepted reply hwrite ih =>
    obtain ⟨_, _, ih⟩ := ih
    exact ⟨_, _, ih.write tick data accepted reply hwrite⟩
  | segment hrun room tick seg ih =>
    obtain ⟨_, _, ih⟩ := ih
    exact ⟨_, _, ih.segment room tick seg⟩
  | retransmit hrun tick ih =>
    obtain ⟨_, _, ih⟩ := ih
    exact ⟨_, _, ih.retransmit tick⟩

/-- **A segment is within a window**: it has no data, or it ends inside the window, or it is a byte
that probes a window of nothing while nothing is in flight. -/
def Within (window : ℕ) (c : Connection) (seg : Segment) : Prop :=
  seg.payload = [] ∨
    dist (seg.sequenceNumber + UInt32.ofNat seg.payload.length) c.sendUnacked ≤ window ∨
    (seg.payload.length = 1 ∧ window = 0 ∧ seg.sequenceNumber = c.sendUnacked)

/-- The bytes that are not sent when a write has been accepted. -/
def unsentAfter (c : Connection) (data : List UInt8) : ℕ :=
  c.sendBuffer.length + min data.length (maxSendBuffer - c.sendBuffer.length) - c.ahead

/-- How many bytes may leave after a write. -/
def flushedAfter (c : Connection) (data : List UInt8) : ℕ :=
  min (min c.window c.effectiveMss) (unsentAfter c data)

/-- **A write that keeps to a window**: nothing leaves, because there is nothing to send or few
bytes wait for an acknowledgement, or what leaves fits beside what is in flight, or it is a
probe. -/
def WriteFits (window : ℕ) (c : Connection) (data : List UInt8) : Prop :=
  flushedAfter c data = 0 ∨
    (c.retransmit.pendingSegments ≠ [] ∧ flushedAfter c data < c.effectiveMss) ∨
    c.ahead + flushedAfter c data ≤ window ∨
    (flushedAfter c data = 1 ∧ window = 0 ∧ c.ahead = 0)

section Window

variable {base : UInt32} {written : List UInt8} {acked sent : ℕ} {c c' : Connection} {seg : Segment}

/-- Where a segment that has just left ends. -/
theorem within_iff (h : Sends base written acked sent c.sender)
    (hcar : CarriesAt base written seg sent) (hpos : 0 < seg.payload.length)
    (huna : c'.sendUnacked = c.sendUnacked) {window : ℕ} : Within window c' seg ↔
      sent - acked + seg.payload.length ≤ window ∨
        (seg.payload.length = 1 ∧ window = 0 ∧ sent = acked) := by
  obtain ⟨hseq, hle, -⟩ := hcar
  have hacked := h.acked_le
  have hft := h.fits
  have hplace : c'.sendUnacked = number base acked := huna.trans h.sendUnacked
  have hdt : seg.payload ≠ [] := ne_nil_of_length_pos hpos
  simp only [maxSendBuffer] at hft
  have hnum : number base sent = number base acked ↔ sent = acked :=
    ⟨fun heq => number_inj heq (by omega) (by omega), fun heq => by rw [heq]⟩
  rw [Within, hseq, hplace, ← number_add, dist_of_le (by omega) (by omega), hnum,
    or_iff_right hdt, show sent + seg.payload.length - acked =
      sent - acked + seg.payload.length by omega]

theorem sendUnacked_sendData {tick n : ℕ} : (c.sendData tick n).1.sendUnacked = c.sendUnacked ∧
      (c.sendData tick n).1.sendWindow = c.sendWindow := by
  rw [sendData]
  split <;> exact ⟨rfl, rfl⟩

theorem sendUnacked_pushOutput {tick : ℕ} : (c.pushOutput tick).1.sendUnacked = c.sendUnacked ∧
      (c.pushOutput tick).1.sendWindow = c.sendWindow := by
  rw [pushOutput]
  split
  · exact sendUnacked_sendData
  · exact ⟨rfl, rfl⟩

theorem sendUnacked_tryFlushTcpOutput {tick : ℕ} :
    (c.tryFlushTcpOutput tick).1.sendUnacked = c.sendUnacked ∧
      (c.tryFlushTcpOutput tick).1.sendWindow = c.sendWindow := by
  rw [tryFlushTcpOutput]
  split
  · exact ⟨rfl, rfl⟩
  · exact sendUnacked_sendData

/-- **The output after a segment keeps to the window.** -/
theorem pushOutput_within (h : Sends base written acked sent c.sender) (tick : ℕ) :
    ∀ o ∈ (c.pushOutput tick).2, Within c.sendWindow (c.pushOutput tick).1 o := by
  have hah := h.ahead_eq
  have hacked := h.acked_le
  intro o ho
  rcases h.pushOutput tick with hnone | ⟨seg, hseg, hpos, -, hln, hcar, -⟩
  · rw [hnone] at ho
    cases ho
  rw [hseg] at ho
  obtain rfl := mem_singleton.mp ho
  rw [within_iff h hcar (by omega) sendUnacked_pushOutput.1]
  have hcan : c.canPush ≤ max c.sendWindow 1 - c.ahead :=
    le_trans (min_le_left _ _) (min_le_left _ _)
  omega

/-- What the code knows of the peer: its window, and how it is to be read. -/
structure Connection.SamePeer (c d : Connection) : Prop where
  sendWindow : d.sendWindow = c.sendWindow
  peerWindowScale : d.peerWindowScale = c.peerWindowScale
  peerMss : d.peerMss = c.peerMss

theorem samePeer_prepared : c.SamePeer (c.prepared seg) := by
  rw [prepared]
  rcases seg.options.timestamp with _ | ⟨peer, _⟩ <;> cases seg.flags.ack <;> exact ⟨rfl, rfl, rfl⟩

theorem samePeer_receive : c.SamePeer (c.receive seg).1 := by
  simp only [receive, acceptPayload, accept, enqueueOoo, deliverOoo, stamped]
  split_ifs <;> exact ⟨rfl, rfl, rfl⟩

theorem samePeer_receiveFin : c.SamePeer (c.receiveFin seg).1 := by
  rw [receiveFin]
  split
  · dsimp only
    split <;> exact ⟨rfl, rfl, rfl⟩
  · exact ⟨rfl, rfl, rfl⟩

/-- The window of an open connection is the one that was advertised last. -/
theorem sendWindow_processOpen {tick : ℕ} :
    (c.processOpen tick seg).1.sendWindow = c.advertised c.sendWindow seg := by
  have hprepared := @samePeer_prepared c seg
  have hreceive := @samePeer_receive (c.prepared seg) seg
  rw [processOpen, sendUnacked_pushOutput.2, samePeer_receiveFin.sendWindow, acknowledge,
    Connection.advertised]
  split
  · rw [hreceive.peerWindowScale, hprepared.peerWindowScale]
  · rw [hreceive.sendWindow, hprepared.sendWindow]

theorem processOpen_within (h : Sends base written acked sent c.sender) (tick : ℕ)
    (seg : Segment) : ∀ o ∈ (c.processOpen tick seg).2,
      Within (c.advertised c.sendWindow seg) (c.processOpen tick seg).1 o := by
  rw [← @sendWindow_processOpen c seg tick]
  obtain ⟨acked', quiet, d, hsen, hqt, heq⟩ := processOpen_eq h tick seg
  rw [heq]
  intro o ho
  rcases mem_append.mp ho with ho | ho
  · exact Or.inl (hqt o ho)
  · rw [sendUnacked_pushOutput.2]
    exact pushOutput_within hsen tick o ho

/-- **The output after a segment keeps to the window**, if the segment advertises one, or the code
has the last one. -/
theorem processSegment_within (h : Sends base written acked sent c.sender) (hst : Usable c)
    {last : ℕ} (room : Option Bool) (tick : ℕ) (seg : Segment)
    (hack : seg.flags.ack = true ∨ last = c.sendWindow) :
    ∀ o ∈ (c.processSegment room tick seg).sent,
      Within (c.advertised last seg) (c.processSegment room tick seg).conn o := by
  have hlast : c.advertised last seg = c.advertised c.sendWindow seg := by
    rcases hack with hack | rfl
    · rw [Connection.advertised, Connection.advertised, if_pos hack, if_pos hack]
    · rfl
  rcases processSegment_cases hst room tick seg with heq | heq | ⟨-, heq⟩ <;> rw [heq]
  · exact fun o ho => absurd ho not_mem_nil
  · exact fun o ho => absurd ho not_mem_nil
  · rw [hlast]
    exact processOpen_within h tick seg

theorem tryFlushTcpOutput_eq_nil_iff {tick : ℕ} (hst : c.state = .established) :
    (c.tryFlushTcpOutput tick).2 = [] ↔ ¬(0 < c.canFlush ∧
      (c.retransmit.pendingSegments.isEmpty ∨ c.effectiveMss ≤ c.canFlush)) := by
  rw [tryFlushTcpOutput]
  split
  · rename_i hnoth
    have hemp : c.sendBuffer = [] := hnoth.resolve_left fun hne => hne hst
    have hzero : c.canFlush = 0 := by
      rw [canFlush, hemp]
      simp
    exact iff_of_true rfl fun hal => by omega
  · rw [sendData]
    split
    · rename_i hal
      exact iff_of_false (by simp) fun hnot => hnot hal
    · rename_i hnot
      exact iff_of_true rfl hnot

/-- **The output after a write keeps to the window exactly if the write fits.** -/
theorem writeThrough_within_iff (h : Sends base written acked sent c.sender) {tick accepted : ℕ}
    {data : List UInt8} {reply : Reply}
    (hwr : c.writeThrough tick data = .ok (accepted, reply)) {window : ℕ} :
    (∀ o ∈ reply.sent, Within window reply.conn o) ↔ WriteFits window c data := by
  rw [writeThrough] at hwr
  split at hwr
  · cases hwr
  rename_i hst
  obtain ⟨-, rfl⟩ := Prod.mk.inj (Except.ok.inj hwr)
  have hsen := h.write data
  have hah := h.ahead_eq
  have hacked := h.acked_le
  have hln : (c.write data).2.sendBuffer.length =
      c.sendBuffer.length + min data.length (maxSendBuffer - c.sendBuffer.length) := by
    rw [write, length_append, length_take]
    omega
  have hcan : (c.write data).2.canFlush = flushedAfter c data := by
    rw [canFlush, hln]
    rfl
  have hnil := @tryFlushTcpOutput_eq_nil_iff (c.write data).2 tick (Classical.not_not.mp hst)
  change _ ↔ ¬(_ ∧ (c.retransmit.pendingSegments.isEmpty ∨ c.effectiveMss ≤ _)) at hnil
  rw [WriteFits, ← isEmpty_eq_false_iff]
  rcases hsen.tryFlushTcpOutput tick with hnone | ⟨seg, hseg, hpos, hal, hlen, hcar, -⟩
  · rw [hnone] at hnil ⊢
    have hnot := hnil.mp rfl
    rw [hcan] at hnot
    refine iff_of_true (fun o ho => absurd ho not_mem_nil) ?_
    cases hemp : c.retransmit.pendingSegments.isEmpty <;> rw [hemp] at hnot <;>
      simp only [true_or, and_true, true_and] at hnot ⊢ <;> omega
  change c.retransmit.pendingSegments.isEmpty ∨ c.effectiveMss ≤ _ at hal
  rw [hcan] at hpos hal hlen
  rw [hseg, forall_mem_singleton, within_iff hsen hcar (by omega)
    sendUnacked_tryFlushTcpOutput.1, hlen]
  cases hemp : c.retransmit.pendingSegments.isEmpty with
  | true =>
    simp only [Bool.true_eq_false, false_and, false_or]
    omega
  | false =>
    rw [hemp] at hal
    simp only [Bool.false_eq_true, false_or] at hal
    simp only [true_and]
    omega

theorem sendWindow_writeThrough {tick accepted : ℕ} {data : List UInt8} {reply : Reply}
    (h : c.writeThrough tick data = .ok (accepted, reply)) :
    reply.conn.sendWindow = c.sendWindow ∧ c.state = .established := by
  rw [writeThrough] at h
  split at h
  · cases h
  rename_i hst
  cases h
  exact ⟨sendUnacked_tryFlushTcpOutput.2, Classical.not_not.mp hst⟩

theorem sendWindow_retransmitCheck (c : Connection) (tick : ℕ) :
    (c.retransmitCheck tick).2.conn.sendWindow = c.sendWindow ∧
      ((c.retransmitCheck tick).2.conn.state = .closed ∨
        (c.retransmitCheck tick).2.conn.state = c.state) := by
  rw [retransmitCheck]
  split
  · split
    · exact ⟨rfl, .inl rfl⟩
    · exact ⟨rfl, .inr rfl⟩
  · exact ⟨rfl, .inr rfl⟩
  split
  · exact ⟨rfl, .inr rfl⟩
  dsimp only
  split_ifs
  · exact ⟨rfl, .inl rfl⟩
  · exact ⟨rfl, .inr rfl⟩
  · exact ⟨rfl, .inr rfl⟩

/-- **The code has the window that was advertised last**, unless none was since the handshake. -/
theorem WindowRun.sendWindow_eq {c₀ : Connection} {first last : ℕ} (h : Opens c₀ first)
    (hrun : WindowRun c₀ first last c) (hlive : c.state ≠ .closed) :
    last = c.sendWindow ∨ last = first ∧ c.sendWindow = 65535 := by
  induction hrun with
  | start => exact .inr ⟨rfl, h.started.2⟩
  | write hrun tick data accepted reply hwrite ih =>
    obtain ⟨hsame, hstate⟩ := sendWindow_writeThrough hwrite
    rw [hsame]
    exact ih (by rw [hstate]; decide)
  | @segment last c hrun room tick seg ih =>
    obtain ⟨_, _, hsend⟩ := hrun.sendRun
    rcases or_assoc.mpr (hsend.sends h.started.1).1 with hopen | hclosed
    swap
    · rw [processSegment, hclosed] at hlive
      exact absurd hclosed hlive
    rw [processSegment_open hopen] at hlive ⊢
    split at hlive
    · exact absurd rfl hlive
    · rename_i hrst
      rw [if_neg hrst]
      show _ = (c.processOpen tick seg).1.sendWindow ∨ _ ∧ (c.processOpen tick seg).1.sendWindow = _
      rw [sendWindow_processOpen, Connection.advertised, Connection.advertised]
      split
      · exact .inl rfl
      · exact ih (by rcases hopen with hst | hst <;> rw [hst] <;> decide)
  | @retransmit last c hrun tick ih =>
    obtain ⟨hsame, hstate⟩ := sendWindow_retransmitCheck c tick
    rw [hsame]
    exact ih fun hclosed => hlive (hstate.elim id fun heq => heq.trans hclosed)

/-- **The window that the peer has advertised last is kept**, in every run from the handshake on, by
the output after an acknowledgement; and by the output after a write exactly if the write fits. The
window that the code has is that one, unless no acknowledgement came since the handshake. -/
theorem window_kept {c₀ : Connection} {first last : ℕ} (h : Opens c₀ first)
    (hrun : WindowRun c₀ first last c) :
    (∀ room tick seg, seg.flags.ack = true ∨ last = c.sendWindow →
      ∀ o ∈ (c.processSegment room tick seg).sent,
        Within (c.advertised last seg) (c.processSegment room tick seg).conn o) ∧
    (∀ tick data accepted reply, c.writeThrough tick data = .ok (accepted, reply) →
      ((∀ o ∈ reply.sent, Within last reply.conn o) ↔ WriteFits last c data)) ∧
    (c.state ≠ .closed → last = c.sendWindow ∨ last = first ∧ c.sendWindow = 65535) := by
  obtain ⟨_, _, hsend⟩ := hrun.sendRun
  obtain ⟨hst, acked, sent, hsen, -⟩ := hsend.sends h.started.1
  exact ⟨processSegment_within hsen hst,
    fun tick data accepted reply hwr => writeThrough_within_iff hsen hwr, hrun.sendWindow_eq h⟩

end Window

/-! ### A connection of short segments -/

/-- A connection whose peer takes segments of four bytes and has a window of six. -/
def shortSegments : Connection :=
  { Connection.new 0 0 with
    state := .established, sendUnacked := 1, peerMss := 4, sendWindow := 6 }

theorem started_shortSegments : Started shortSegments := ⟨rfl, rfl, rfl, rfl, rfl⟩

/-- The connection after a write. -/
def afterWrite (c : Connection) (data : List UInt8) : Connection :=
  ((c.write data).2.tryFlushTcpOutput 0).1

/-- The segments that leave after a write. -/
def sentByWrite (c : Connection) (data : List UInt8) : List Segment :=
  ((c.write data).2.tryFlushTcpOutput 0).2

/-- The segment that carries bytes at a number. -/
def bytesAt (seq : UInt32) (payload : List UInt8) : Segment where
  sequenceNumber := seq
  acknowledgmentNumber := 0
  flags := pushAck
  windowSize := 1024
  options := {}
  payload := payload

/-- The connection after a write of four bytes, which leave in one segment. -/
def fourSent : Connection := afterWrite shortSegments [1, 2, 3, 4]

/-- The connection after a write of two bytes more, which wait. -/
def twoWaiting : Connection := afterWrite fourSent [5, 6]

theorem run_fourSent : SendRun shortSegments [1, 2, 3, 4] [bytesAt 1 [1, 2, 3, 4]] fourSent :=
  .write .start 0 [1, 2, 3, 4] 4 ⟨fourSent, [bytesAt 1 [1, 2, 3, 4]], false⟩ rfl

theorem run_twoWaiting :
    SendRun shortSegments [1, 2, 3, 4, 5, 6] [bytesAt 1 [1, 2, 3, 4]] twoWaiting :=
  run_fourSent.write 0 [5, 6] 2 ⟨twoWaiting, [], false⟩ rfl

/-- Four bytes are written and sent, and then the stream is closed. -/
theorem sent_exactly_four : Left 1 [1, 2, 3, 4] [bytesAt 1 [1, 2, 3, 4]] 3 ∧
    (fourSent.sendFin 0 .finWait1).sent.map Segment.sequenceNumber = [number 1 4] := by
  obtain ⟨hlf, hfin⟩ := ((sent_exactly started_shortSegments run_fourSent).2 0
    (fourSent.sendFin 0 .finWait1) rfl).mpr (by decide)
  exact ⟨hlf 3 (by decide), congrArg (fun n => [n]) (hfin _ (mem_singleton_self _)).2⟩

/-- **A close skips what was not sent.** Two bytes wait for the acknowledgement of four others
when the connection is closed: the end of the stream takes the number of the first of them, and
they are in no segment. -/
theorem close_skips_bytes : Started shortSegments ∧
    SendRun shortSegments [1, 2, 3, 4, 5, 6] [bytesAt 1 [1, 2, 3, 4]] twoWaiting ∧
    ¬Left 1 [1, 2, 3, 4, 5, 6] [bytesAt 1 [1, 2, 3, 4]] 4 ∧
    twoWaiting.close 0 = .ok (twoWaiting.sendFin 0 .finWait1) ∧
    (twoWaiting.sendFin 0 .finWait1).sent.map Segment.sequenceNumber = [number 1 4] ∧
    number 1 4 ≠ number 1 6 := by
  refine ⟨started_shortSegments, run_twoWaiting, ?_, rfl, rfl, by decide⟩
  rintro ⟨seg, hseg, off, ⟨hseq, hle, -⟩, -, hlt⟩
  obtain rfl := mem_singleton.mp hseg
  have hle : off + 4 ≤ 6 := hle
  have hlt : 4 < off + 4 := hlt
  have hzero : 0 = off := @number_inj 1 0 off hseq (by omega) (by omega)
  omega

/-- The acknowledgement of four bytes, with a window of six. -/
def ackFour : Segment := { bytesAt 1 [] with acknowledgmentNumber := 5, windowSize := 6 }

/-- The answer of a peer that takes segments of four bytes, with a window. -/
def synAck (window : ℕ) : Segment where
  sequenceNumber := 4294967295
  acknowledgmentNumber := 1
  flags := { syn := true, ack := true }
  windowSize := window
  options := { mss := 4 }
  payload := []

/-- The connection that it opens. -/
def answered (window : ℕ) : Connection := ((Connection.new 0 0).processSynSent (synAck window)).conn

theorem opens_answered (window : ℕ) : Opens (answered window) window :=
  .answered (opening_new 0 0) rfl (synAck window) rfl

/-- Of six bytes four leave at once, and two after the acknowledgement of the four. -/
theorem window_kept_acknowledged :
    sentByWrite (answered 6) [1, 2, 3, 4] = [bytesAt 1 [1, 2, 3, 4]] ∧
    (∀ o ∈ sentByWrite (answered 6) [1, 2, 3, 4],
      Within 6 (afterWrite (answered 6) [1, 2, 3, 4]) o) ∧
    Within 6 ((afterWrite (afterWrite (answered 6) [1, 2, 3, 4]) [5, 6]).processSegment none 0
      ackFour).conn (bytesAt 5 [5, 6]) := by
  have hstart : WindowRun (answered 6) 6 6 (answered 6) := .start
  have hfour : WindowRun (answered 6) 6 6 (afterWrite (answered 6) [1, 2, 3, 4]) :=
    hstart.write 0 [1, 2, 3, 4] 4 ⟨_, [bytesAt 1 [1, 2, 3, 4]], false⟩ rfl
  have htwo : WindowRun (answered 6) 6 6
      (afterWrite (afterWrite (answered 6) [1, 2, 3, 4]) [5, 6]) :=
    hfour.write 0 [5, 6] 2 ⟨_, [], false⟩ rfl
  refine ⟨rfl, ?_, ?_⟩
  · exact ((window_kept (opens_answered 6) hstart).2.1 0 [1, 2, 3, 4] 4
      ⟨_, [bytesAt 1 [1, 2, 3, 4]], false⟩ rfl).mpr (.inr (.inr (.inl (by decide))))
  · exact (window_kept (opens_answered 6) htwo).1 none 0 ackFour (.inl rfl) (bytesAt 5 [5, 6])
      (by decide)

/-- **Two full segments go beyond the window, and one goes beyond the window of the handshake.** A
peer that takes six bytes is sent eight by two writes of four; and one that has answered with a
window of three is sent four. -/
theorem flush_beyond_window :
    (Opens (answered 6) 6 ∧ WindowRun (answered 6) 6 6 (afterWrite (answered 6) [1, 2, 3, 4]) ∧
      sentByWrite (afterWrite (answered 6) [1, 2, 3, 4]) [5, 6, 7, 8] = [bytesAt 5 [5, 6, 7, 8]] ∧
      ¬Within 6 (afterWrite (afterWrite (answered 6) [1, 2, 3, 4]) [5, 6, 7, 8])
        (bytesAt 5 [5, 6, 7, 8])) ∧
    Opens (answered 3) 3 ∧ sentByWrite (answered 3) [1, 2, 3, 4] = [bytesAt 1 [1, 2, 3, 4]] ∧
      ¬Within 3 (afterWrite (answered 3) [1, 2, 3, 4]) (bytesAt 1 [1, 2, 3, 4]) := by
  have hstart : WindowRun (answered 6) 6 6 (answered 6) := .start
  refine ⟨⟨opens_answered 6, ?_, rfl, ?_⟩, opens_answered 3, rfl, ?_⟩
  · exact hstart.write 0 [1, 2, 3, 4] 4 ⟨_, [bytesAt 1 [1, 2, 3, 4]], false⟩ rfl
  · rw [Within]
    decide
  · rw [Within]
    decide

/-! ### Segments outside of the window -/

/-- No number of the segment is in the window. A segment without bytes and flags that count has the
number it names. -/
def Outside (r : Receiver) (seg : Segment) : Prop :=
  ∀ i < max 1 (seg.payload.length + seg.flags.syn.toNat + seg.flags.fin.toNat),
    maxRecvBuffer - r.recvBuffer.length ≤ dist (seg.sequenceNumber + UInt32.ofNat i) r.recvNext

/-- **A segment does nothing**: the connection is as it was on both sides, and at most an
acknowledgement leaves. -/
def Inert (c : Connection) (reply : Reply) : Prop :=
  reply.removed = false ∧ reply.conn.state = c.state ∧ reply.conn.recvNext = c.recvNext ∧
    reply.conn.recvBuffer = c.recvBuffer ∧ reply.conn.sender = c.sender ∧
    ∀ o ∈ reply.sent, o.flags = ackOnly

/-- The segment acknowledges bytes, or the end, that were not acknowledged. -/
def Acks (c : Connection) (seg : Segment) : Prop :=
  seg.flags.ack = true ∧ 0 < dist seg.acknowledgmentNumber c.sendUnacked ∧
    dist seg.acknowledgmentNumber c.sendUnacked ≤ half ∧
    dist c.sendNext seg.acknowledgmentNumber ≤ half

/-- The segment acknowledges all that was sent, also again. -/
def AcksAll (c : Connection) (seg : Segment) : Prop :=
  seg.flags.ack = true ∧ seg.acknowledgmentNumber = c.sendNext

/-- How much may leave with the window of the segment. -/
def pushableAfter (c : Connection) (seg : Segment) : ℕ :=
  min (min (max (c.advertised c.sendWindow seg) 1 - c.ahead) c.effectiveMss)
    (c.sendBuffer.length - c.ahead)

/-- Bytes that wait to be sent leave after the segment. -/
def Pushes (c : Connection) (seg : Segment) : Prop :=
  c.state = .established ∧ 0 < pushableAfter c seg ∧
    (c.retransmit.pendingSegments.isEmpty ∨ c.effectiveMss ≤ pushableAfter c seg)

/-- **What a segment outside of the window must not be**, by the state that it comes in: what the
code acts on without a look at its number. -/
def Harmless (tick : ℕ) (c : Connection) (seg : Segment) : Prop :=
  match c.state with
  | .established | .closeWait => seg.flags.rst = false ∧ ¬Acks c seg ∧
      ¬(seg.flags.fin = true ∧ seg.finSeq = c.recvNext) ∧ ¬Pushes c seg
  | .finWait1 => seg.flags.rst = false ∧ seg.flags.fin = false ∧ ¬Acks c seg ∧ ¬AcksAll c seg
  | .finWait2 => seg.flags.rst = false ∧ seg.flags.fin = false
  | .closing => seg.flags.rst = false ∧ ¬Acks c seg ∧ ¬AcksAll c seg
  | .lastAck => ¬Acks c seg ∧ ¬AcksAll c seg
  | .timeWait => tick < c.timeWaitStart + timeWaitTicks
  | .closed | .listen | .synSent | .synReceived => False

section Outside

variable {c : Connection} {seg : Segment}

theorem add_ofNat_zero (x : UInt32) : x + UInt32.ofNat 0 = x := UInt32.add_zero x

/-- Nothing is delivered into a full buffer. -/
theorem deliver_full {queue : List OooBlock} {next : UInt32} {buffer : List UInt8}
    (h : maxRecvBuffer - buffer.length = 0) : (deliver queue next buffer).2 = (next, buffer) := by
  induction queue with
  | nil => rfl
  | cons block queue ih =>
    rw [deliver]
    simp only [h, Nat.min_zero, add_ofNat_zero, take_zero, append_nil]
    split
    · rfl
    split
    · rfl
    · exact ih

theorem acceptPayload_outside (hout : Outside c.receiver seg) (hpay : seg.payload ≠ []) :
    (c.acceptPayload seg.sequenceNumber seg.payload).recvNext = c.recvNext ∧
      (c.acceptPayload seg.sequenceNumber seg.payload).recvBuffer = c.recvBuffer := by
  -- the byte that comes next is outside of the window only if there is none
  have hacc : ∀ i < seg.payload.length, c.recvNext = seg.sequenceNumber + UInt32.ofNat i →
      ∀ data, (c.accept data).recvNext = c.recvNext ∧
        (c.accept data).recvBuffer = c.recvBuffer := by
    intro i hi hnx data
    have hfu : maxRecvBuffer - c.recvBuffer.length ≤ dist _ c.recvNext := hout i (by omega)
    rw [← hnx, Serial.dist, UInt32.sub_self, UInt32.toNat_zero, le_zero] at hfu
    simp only [accept, deliverOoo, hfu, Nat.min_zero, add_ofNat_zero,
      take_zero, append_nil, deliver_full hfu, and_self]
  rw [acceptPayload]
  split
  · next hseq =>
    exact hacc 0 (length_pos_iff.mpr hpay) (by simp [hseq]) _
  split
  · next hovl =>
    refine hacc _ hovl.2 ?_ _
    simpa [number] using eq_number_add_dist c.recvNext seg.sequenceNumber 0
  split
  · rw [enqueueOoo]
    split <;> exact ⟨rfl, rfl⟩
  · exact ⟨rfl, rfl⟩

theorem receive_outside (hout : Outside c.receiver seg) :
    (c.receive seg).1.recvNext = c.recvNext ∧ (c.receive seg).1.recvBuffer = c.recvBuffer ∧
      ∀ o ∈ (c.receive seg).2, o.flags = ackOnly := by
  rw [receive]
  split
  · exact ⟨rfl, rfl, by simp⟩
  next hpay =>
  obtain ⟨hnx, hbuf⟩ := @acceptPayload_outside
    { c with pushBoundary := c.pushBoundary || seg.flags.psh } seg hout hpay
  refine ⟨hnx, hbuf, fun o ho => ?_⟩
  rw [mem_singleton.mp ho]
  rfl

/-- An acknowledgement moves the first number that is not acknowledged, or does nothing. -/
theorem processDataAck_eq (hack : seg.flags.ack = true) :
    ¬Acks c seg ∧ c.processDataAck seg.acknowledgmentNumber = c ∨
      Acks c seg ∧ (c.processDataAck seg.acknowledgmentNumber).sendUnacked ≠ c.sendUnacked := by
  rw [processDataAck]
  dsimp only
  split
  · rename_i hacks
    refine .inr ⟨⟨hack, hacks⟩, fun heq => ?_⟩
    have hpos := hacks.1
    rw [show seg.acknowledgmentNumber = c.sendUnacked from heq, Serial.dist, UInt32.sub_self,
      UInt32.toNat_zero] at hpos
    exact lt_irrefl _ hpos
  · rename_i hacks
    exact .inl ⟨fun h => hacks h.2, rfl⟩

theorem acknowledge_eq : ¬Acks c seg ∧ (c.acknowledge seg).sender = c.sender ∨
    Acks c seg ∧ (c.acknowledge seg).sendUnacked ≠ c.sendUnacked := by
  rw [acknowledge]
  split
  · rename_i hack
    rcases processDataAck_eq (c := c) hack with ⟨hnot, heq⟩ | hacks
    · exact .inl ⟨hnot, by rw [heq]; rfl⟩
    · exact .inr hacks
  · rename_i hack
    exact .inl ⟨fun h => hack h.1, rfl⟩

theorem sendUnacked_receiveFin : (c.receiveFin seg).1.sendUnacked = c.sendUnacked :=
  congrArg Sender.sendUnacked sender_receiveFin.1

/-- The connection on which the end is looked for and output is made. -/
def beforeFin (c : Connection) (seg : Segment) : Connection :=
  ((c.prepared seg).receive seg).1.acknowledge seg

/-- What a segment outside of the window has changed by then: no more than an acknowledgement. -/
theorem beforeFin_outside (hout : Outside c.receiver seg) :
    (beforeFin c seg).state = c.state ∧ (beforeFin c seg).recvNext = c.recvNext ∧
      (beforeFin c seg).recvBuffer = c.recvBuffer ∧
      (∀ o ∈ ((c.prepared seg).receive seg).2, o.flags = ackOnly) ∧
      (¬Acks c seg ∧ (beforeFin c seg).sender = c.sender ∨
        Acks c seg ∧ (beforeFin c seg).sendUnacked ≠ c.sendUnacked) := by
  obtain ⟨hreceiver, hstate⟩ := @receiver_prepared c seg
  obtain ⟨hnext, hbuffer, hquiet⟩ := receive_outside (hreceiver.symm ▸ hout)
  obtain ⟨hnext', hbuffer', -⟩ := Receiver.mk.inj hreceiver
  have hsender := (@sender_receive (c.prepared seg) seg).1.trans sender_prepared
  obtain ⟨hsendNext, hunacked, -⟩ := Sender.mk.inj hsender
  obtain ⟨hacked, hstate'⟩ := @receiver_acknowledge ((c.prepared seg).receive seg).1 seg
  obtain ⟨hnext'', hbuffer'', -⟩ := Receiver.mk.inj hacked
  refine ⟨hstate'.trans (state_receive.trans hstate), hnext''.trans (hnext.trans hnext'),
    hbuffer''.trans (hbuffer.trans hbuffer'), hquiet, ?_⟩
  have hacks : Acks ((c.prepared seg).receive seg).1 seg ↔ Acks c seg := by
    rw [Acks, Acks, hsendNext, hunacked]
  rcases @acknowledge_eq ((c.prepared seg).receive seg).1 seg with ⟨hnot, heq⟩ | ⟨hdoes, hne⟩
  · exact .inl ⟨mt hacks.mpr hnot, heq.trans hsender⟩
  · exact .inr ⟨hacks.mp hdoes, hunacked ▸ hne⟩

/-- Output is made exactly if bytes leave; they are not in an acknowledgement. -/
theorem pushOutput_quiet_iff (tick : ℕ) : (∀ o ∈ (c.pushOutput tick).2, o.flags = ackOnly) ↔
    ¬(c.state = .established ∧ 0 < c.canPush ∧
      (c.retransmit.pendingSegments.isEmpty ∨ c.effectiveMss ≤ c.canPush)) := by
  rw [pushOutput]
  split
  · rename_i hopen
    rw [sendData]
    split
    · rename_i hsends
      refine iff_of_false (fun h => ?_) fun h => h ⟨hopen.1, hsends⟩
      have := h _ (mem_singleton_self _)
      cases this
    · rename_i hsends
      exact iff_of_true (fun o ho => absurd ho not_mem_nil) fun h => hsends h.2
  · rename_i hopen
    refine iff_of_true (fun o ho => absurd ho not_mem_nil) fun h => hopen ⟨h.1, fun hempty => ?_⟩
    have hpos := h.2.1
    rw [canPush, hempty, length_nil, Nat.zero_sub, Nat.min_zero] at hpos
    exact lt_irrefl _ hpos

theorem pushOutput_of_quiet {tick : ℕ} (h : ∀ o ∈ (c.pushOutput tick).2, o.flags = ackOnly) :
    c.pushOutput tick = (c, []) := by
  have hnot := (pushOutput_quiet_iff tick).mp h
  rw [pushOutput]
  split
  · rename_i hopen
    exact if_neg fun hsends => hnot ⟨hopen.1, hsends⟩
  · rfl

theorem pushes_beforeFin (hstate : (beforeFin c seg).state = c.state)
    (hsender : (beforeFin c seg).sender = c.sender) :
    ((beforeFin c seg).state = .established ∧ 0 < (beforeFin c seg).canPush ∧
      ((beforeFin c seg).retransmit.pendingSegments.isEmpty ∨
        (beforeFin c seg).effectiveMss ≤ (beforeFin c seg).canPush)) ↔ Pushes c seg := by
  obtain ⟨hnext, hunacked, hbuffer, hpending⟩ := Sender.mk.inj hsender
  have hprepared := @samePeer_prepared c seg
  have hreceive := @samePeer_receive (c.prepared seg) seg
  have hmss : (beforeFin c seg).effectiveMss = c.effectiveMss := by
    rw [effectiveMss, effectiveMss, beforeFin, acknowledge, processDataAck]
    split_ifs <;> rw [← hprepared.peerMss, ← hreceive.peerMss]
  have hwindow : (beforeFin c seg).sendWindow = c.advertised c.sendWindow seg := by
    rw [beforeFin, acknowledge, Connection.advertised]
    split
    · rw [hreceive.peerWindowScale, hprepared.peerWindowScale]
    · rw [hreceive.sendWindow, hprepared.sendWindow]
  have hcan : (beforeFin c seg).canPush = pushableAfter c seg := by
    rw [canPush, window, ahead, hwindow, hmss, hnext, hunacked, hbuffer]
    rfl
  rw [Pushes, hstate, hcan, hmss, hpending]

/-- An end at the number that comes next, outside of the window, is one for a full buffer, and is
taken. -/
theorem receiveFin_outside (hout : Outside c.receiver seg)
    (hnext : (beforeFin c seg).recvNext = c.recvNext)
    (hbuffer : (beforeFin c seg).recvBuffer = c.recvBuffer) (hfin : seg.flags.fin = true)
    (hseq : seg.finSeq = c.recvNext) :
    ((beforeFin c seg).receiveFin seg).1.recvNext = c.recvNext + 1 := by
  have hfull : maxRecvBuffer - c.recvBuffer.length ≤ dist seg.finSeq c.recvNext :=
    hout seg.payload.length (by rw [hfin, Bool.toNat_true]; omega)
  rw [hseq, Serial.dist, UInt32.sub_self, UInt32.toNat_zero, le_zero] at hfull
  have hstays := @deliver_full (beforeFin c seg).oooQueue ((beforeFin c seg).recvNext + 1) _
    (hbuffer ▸ hfull)
  rw [receiveFin, if_pos ⟨hfin, hseq.trans hnext.symm⟩]
  dsimp only
  split
  · exact (congrArg Prod.fst hstays).trans (by rw [hnext])
  · exact (congrArg Prod.fst hstays).trans (by rw [hnext])

/-- **The steps on an open connection.** -/
theorem processOpen_inert_iff {tick : ℕ} (hout : Outside c.receiver seg) :
    Inert c { conn := (c.processOpen tick seg).1, sent := (c.processOpen tick seg).2 } ↔
      ¬Acks c seg ∧ ¬(seg.flags.fin = true ∧ seg.finSeq = c.recvNext) ∧ ¬Pushes c seg := by
  obtain ⟨hstate, hnext, hbuffer, hquiet, hacks⟩ := beforeFin_outside hout
  have hopen : c.processOpen tick seg =
      ((((beforeFin c seg).receiveFin seg).1.pushOutput tick).1,
        ((c.prepared seg).receive seg).2 ++ ((beforeFin c seg).receiveFin seg).2 ++
          (((beforeFin c seg).receiveFin seg).1.pushOutput tick).2) := rfl
  rw [hopen]
  constructor
  · rintro ⟨-, -, hnext', -, hsender, hsent⟩
    rcases hacks with ⟨hnot, hsame⟩ | ⟨-, hmoved⟩
    swap
    · refine absurd (congrArg Sender.sendUnacked hsender) ?_
      show (((beforeFin c seg).receiveFin seg).1.pushOutput tick).1.sendUnacked ≠ c.sendUnacked
      rwa [sendUnacked_pushOutput.1, sendUnacked_receiveFin]
    have hfin : ¬(seg.flags.fin = true ∧ seg.finSeq = c.recvNext) := by
      rintro ⟨hfin, hseq⟩
      have htaken := receiveFin_outside hout hnext hbuffer hfin hseq
      have hkept : (((beforeFin c seg).receiveFin seg).1.pushOutput tick).1.recvNext = _ :=
        congrArg Receiver.recvNext receiver_pushOutput.1
      exact ne_add_one _ (hnext'.symm.trans (hkept.trans htaken))
    refine ⟨hnot, hfin, ?_⟩
    have hnone : (beforeFin c seg).receiveFin seg = (beforeFin c seg, []) :=
      if_neg fun h => hfin ⟨h.1, h.2.trans hnext⟩
    rw [hnone] at hsent
    rw [← pushes_beforeFin hstate hsame, ← pushOutput_quiet_iff tick]
    exact fun o ho => hsent o (mem_append_right _ ho)
  · rintro ⟨hnot, hfin, hpushes⟩
    obtain ⟨-, hsame⟩ := hacks.resolve_right fun h => hnot h.1
    have hnone : (beforeFin c seg).receiveFin seg = (beforeFin c seg, []) :=
      if_neg fun h => hfin ⟨h.1, h.2.trans hnext⟩
    rw [← pushes_beforeFin hstate hsame, ← pushOutput_quiet_iff tick] at hpushes
    rw [hnone, pushOutput_of_quiet hpushes, append_nil, append_nil]
    exact ⟨rfl, hstate, hnext, hbuffer, hsame, hquiet⟩

theorem inert_self : Inert c { conn := c } :=
  ⟨rfl, rfl, rfl, rfl, rfl, fun _ ho => absurd ho not_mem_nil⟩

/-- A connection that only has an acknowledgement taken. -/
theorem inert_processDataAck_iff (hack : seg.flags.ack = true) :
    Inert c { conn := c.processDataAck seg.acknowledgmentNumber } ↔ ¬Acks c seg := by
  rcases processDataAck_eq (c := c) hack with ⟨hnot, heq⟩ | ⟨hacks, hmoved⟩
  · rw [heq]
    exact iff_of_true inert_self hnot
  · refine iff_of_false (fun h => hmoved ?_) fun hnot => hnot hacks
    exact congrArg Sender.sendUnacked h.2.2.2.2.1

theorem not_inert_of_state {reply : Reply} (h : reply.conn.state ≠ c.state) : ¬Inert c reply :=
  fun hinert => h hinert.2.1

theorem sendNext_processDataAck (ack : UInt32) : (c.processDataAck ack).sendNext = c.sendNext := by
  rw [processDataAck]
  dsimp only
  split <;> rfl

/-- In the states in which the own end waits for its acknowledgement. -/
theorem inert_waiting_iff {taken : Connection → Reply}
    (htaken : ∀ d : Connection, ¬Inert c (taken d)) :
    Inert c (if seg.flags.ack = true then
        if seg.acknowledgmentNumber = (c.processDataAck seg.acknowledgmentNumber).sendNext then
          taken (c.processDataAck seg.acknowledgmentNumber)
        else { conn := c.processDataAck seg.acknowledgmentNumber }
      else { conn := c }) ↔ ¬Acks c seg ∧ ¬AcksAll c seg := by
  rw [sendNext_processDataAck]
  split
  · rename_i hack
    split
    · rename_i hall
      exact iff_of_false (htaken _) fun h => h.2 ⟨hack, hall⟩
    · rename_i hall
      rw [inert_processDataAck_iff hack]
      exact ⟨fun h => ⟨h, fun hacks => hall hacks.2⟩, fun h => h.1⟩
  · rename_i hack
    exact iff_of_true inert_self ⟨fun h => hack h.1, fun h => hack h.1⟩

/-- **A segment outside of the window does nothing exactly if it is harmless.** -/
theorem inert_iff_harmless {room : Option Bool} {tick : ℕ}
    (hsync : c.state ∉ [TcpState.closed, .listen, .synSent, .synReceived])
    (hout : Outside c.receiver seg) :
    Inert c (c.processSegment room tick seg) ↔ Harmless tick c seg := by
  have hgone : ¬Inert c (Reply.gone c) := fun h => Bool.noConfusion h.1
  rw [processSegment, Harmless]
  rcases hst : c.state <;> rw [hst] at hsync <;> dsimp only
  case closed | listen | synSent | synReceived => exact absurd (by decide) hsync
  case established | closeWait =>
    split
    · rename_i hrst
      exact iff_of_false hgone fun h => by simp [hrst] at h
    · rename_i hrst
      rw [processOpen_inert_iff hout]
      exact ⟨fun h => ⟨Bool.eq_false_iff.mpr hrst, h⟩, fun h => h.2⟩
  case timeWait =>
    split
    · rename_i htime
      exact iff_of_false hgone (Nat.not_lt.mpr htime)
    · rename_i htime
      exact iff_of_true inert_self (Nat.not_le.mp htime)
  case finWait2 =>
    rw [processFinWait2]
    split_ifs with hrst hfin
    · exact iff_of_false hgone fun h => by simp [hrst] at h
    · refine iff_of_false (not_inert_of_state ?_) fun h => by simp [hfin] at h
      rw [hst]
      exact TcpState.noConfusion
    · exact iff_of_true inert_self ⟨Bool.eq_false_iff.mpr hrst, Bool.eq_false_iff.mpr hfin⟩
  case lastAck =>
    exact inert_waiting_iff fun d h => Bool.noConfusion h.1
  case closing =>
    rw [processClosing]
    split
    · rename_i hrst
      exact iff_of_false hgone fun h => by simp [hrst] at h
    · rename_i hrst
      have hwait := @inert_waiting_iff c seg
        (fun d => { conn := { d with state := .timeWait, timeWaitStart := tick } })
        fun d => not_inert_of_state (by rw [hst]; exact TcpState.noConfusion)
      exact hwait.trans ⟨fun h => ⟨Bool.eq_false_iff.mpr hrst, h⟩, fun h => h.2⟩
  case finWait1 =>
    rw [processFinWait1]
    split
    · rename_i hrst
      exact iff_of_false hgone fun h => by simp [hrst] at h
    rename_i hrst
    cases hfin : seg.flags.fin with
    | true =>
      refine iff_of_false ?_ fun h => by simp at h
      simp only [if_true]
      split_ifs <;> exact not_inert_of_state (by rw [hst]; exact TcpState.noConfusion)
    | false =>
      have hwait := @inert_waiting_iff c seg (fun d => { conn := { d with state := .finWait2 } })
        fun d => not_inert_of_state (by rw [hst]; exact TcpState.noConfusion)
      simp only [Bool.false_eq_true, if_false]
      exact hwait.trans ⟨fun h => ⟨Bool.eq_false_iff.mpr hrst, trivial, h⟩, fun h => h.2.2⟩

/-- A byte that was there before does nothing, and neither does a reset that comes after both ends
were sent. -/
theorem inert_iff_harmless_repeated :
    Inert openedAtZero (openedAtZero.processSegment none 0 (dataSegment 4294967295 [1])) ∧
    Inert { openedAtZero with state := .lastAck }
      ({ openedAtZero with state := .lastAck }.processSegment none 0
        { dataSegment 3000000000 [] with flags := { rst := true } }) := by
  constructor
  · refine (inert_iff_harmless (by decide) (by unfold Outside; decide)).mpr ⟨rfl, ?_, ?_, ?_⟩
    · exact fun h => absurd h.2.1 (by decide)
    · exact fun h => Bool.noConfusion h.1
    · exact fun h => absurd h.2.1 (by decide)
  · refine (inert_iff_harmless (by decide) (by unfold Outside; decide)).mpr ⟨?_, ?_⟩
    · exact fun h => Bool.noConfusion h.1
    · exact fun h => Bool.noConfusion h.1

/-- **A reset is obeyed wherever it is.** -/
theorem reset_outside : Outside openedAtZero.receiver
      { dataSegment 3000000000 [] with flags := { rst := true } } ∧
    ¬Inert openedAtZero (openedAtZero.processSegment none 0
      { dataSegment 3000000000 [] with flags := { rst := true } }) :=
  ⟨by unfold Outside; decide, fun h => Bool.noConfusion h.1⟩

end Outside

/-! ### From one end to the other -/

/-- What a connection comes to by reads and by segments of data that another one sent, in any order
and each any number of times. -/
inductive Delivered (emitted : List Segment) (c₀ : Connection) : List UInt8 → Connection → Prop
  | start : Delivered emitted c₀ [] c₀
  | segment {handed : List UInt8} {c : Connection} (hrun : Delivered emitted c₀ handed c)
      (room : Option Bool) (tick : ℕ) (seg : Segment) (hseg : seg ∈ emitted)
      (hdata : seg.payload ≠ [] ∧ seg.payload.length ≤ 65535)
      (hopen : seg.flags.rst = false ∧ seg.flags.fin = false) :
      Delivered emitted c₀ handed (c.processSegment room tick seg).conn
  | read {handed : List UInt8} {c : Connection} (hrun : Delivered emitted c₀ handed c) (len : ℕ) :
      Delivered emitted c₀ (handed ++ (c.read len).1) (c.read len).2

/-- Only a beginning of the bytes begins every stream that goes on from them. -/
theorem prefix_of_take {l written : List UInt8}
    (h : ∀ x, l = (written ++ₛ Stream'.const x).take l.length) : l <+: written := by
  have hle : l.length ≤ written.length := by
    by_contra hlt
    have hget (x : UInt8) : l[written.length]? = some x := by
      rw [h x, Stream'.getElem?_take (not_le.mp hlt), Stream'.get_append_length]
      rfl
    cases (hget 0).symm.trans (hget 1)
  have heq := h 0
  rw [Stream'.take_append_of_le_length _ _ _ hle] at heq
  exact prefix_iff_eq_take.mpr heq

section Transfer

variable {a₀ a b₀ b : Connection} {written handed : List UInt8} {emitted : List Segment}
  (ha : Started a₀) (hsend : SendRun a₀ written emitted a) (hb : Opened (a₀.initialSeq + 1) b₀)
  (hsize : written.length + maxRecvBuffer ≤ half) (hrun : Delivered emitted b₀ handed b)
include ha hsend hb hsize hrun

theorem Delivered.receiveRun (x : UInt8) :
    ReceiveRun (written ++ₛ Stream'.const x) (a₀.initialSeq + 1) Fresh b₀ handed b := by
  induction hrun generalizing x with
  | start => exact .start
  | read hrun len ih => exact .read (ih x) len
  | @segment handed c hrun room tick seg hseg hdata hopen ih =>
    obtain ⟨-, _, _, -, hem⟩ := hsend.sends ha
    obtain ⟨off, hseq, hle, hpay⟩ := hem.carries seg hseg hdata.1
    obtain ⟨-, -, hrec⟩ := (ih x).receives hb
    have hlen := (prefix_of_take fun x => by
      rw [length_append]
      exact ((ih x).receives hb).2.1).length_le
    rw [length_append] at hlen
    refine .segment (ih x) (fun block hblk => ?_) room tick seg
      ⟨hopen.1, hopen.2, hdata.2, off, hseq, by omega, by omega, ?_⟩
    · -- less than half of the numbers are in use, so no block is far behind
      obtain ⟨place, hat⟩ := hrec.queue block hblk
      have hbef := hat.before
      rw [hrec.recvNext, hat.start]
      simp only [maxRecvBuffer, half] at *
      rcases le_total place (handed.length + c.recvBuffer.length) with hp | hp <;>
        rw [dist_of_le hp (by omega)] <;> omega
    · rw [Stream'.drop_append_of_le_length _ _ _ (by omega),
        Stream'.take_append_of_le_length _ _ _ (by rw [length_drop]; omega)]
      exact hpay

/-- **What arrives is a beginning of what was written**, and the next number says how much: over a
network that loses, repeats and reorders segments, for less than half of the numbers. -/
theorem delivered_begins : handed ++ b.recvBuffer <+: written ∧
    b.recvNext = number (a₀.initialSeq + 1) (handed ++ b.recvBuffer).length := by
  have hrcv (x : UInt8) := (hrun.receiveRun ha hsend hb hsize x).receives hb
  rw [← length_append] at hrcv
  exact ⟨prefix_of_take fun x => (hrcv x).2.1, (hrcv 0).2.2.recvNext⟩

end Transfer

/-- Four bytes that were sent in one segment arrive, and are the first of the six that were
written. -/
theorem delivered_begins_four :
    Delivered [bytesAt 1 [1, 2, 3, 4]] { openedAtZero with recvNext := 1 } []
      ({ openedAtZero with recvNext := 1 }.processSegment none 0 (bytesAt 1 [1, 2, 3, 4])).conn ∧
    ({ openedAtZero with recvNext := 1 }.processSegment none 0
      (bytesAt 1 [1, 2, 3, 4])).conn.recvBuffer = [1, 2, 3, 4] ∧
    [] ++ ({ openedAtZero with recvNext := 1 }.processSegment none 0
      (bytesAt 1 [1, 2, 3, 4])).conn.recvBuffer <+: [1, 2, 3, 4, 5, 6] := by
  have hrun : Delivered [bytesAt 1 [1, 2, 3, 4]] { openedAtZero with recvNext := 1 } []
      ({ openedAtZero with recvNext := 1 }.processSegment none 0 (bytesAt 1 [1, 2, 3, 4])).conn :=
    .segment .start none 0 _ (mem_singleton_self _) (by decide) ⟨rfl, rfl⟩
  refine ⟨hrun, by decide +kernel, ?_⟩
  exact (delivered_begins started_shortSegments run_twoWaiting ⟨rfl, rfl, rfl, rfl⟩ (by decide)
    hrun).1

end Protofire.Network.Tcp
