import Protofire.Network.Tcp

/-!
# The stream that is received

What the peer sends is a stream, and its bytes are numbered. The bytes that readers were given,
followed by those in the receive buffer, should be the beginning of the stream that ends where
`recvNext` says – whatever order, overlap or repetition the segments come in.

The numbers of a segment are read as the places near the one that comes next: the place of a
number is the one at most half of the space away. With this every block of the queue is a piece of
the stream (`BlockAt`), and the three ways in which bytes come into the buffer – in order, as the
end of a repetition, out of the queue – each append the piece that comes next.

A block that `recvNext` has passed stays in the queue, and stays the first one of it. Nothing is
wrong with that until the numbers come around: half the space later the block counts as one that
is still to come, and when its number is the next one again its bytes are delivered a second time
(`stale_block_delivered`). So the statement about whole runs asks that no block has fallen so far
behind (`Fresh`).
-/

namespace Protofire.Network.Tcp

open Serial Connection

/-! ### What the receiving side has -/

/-- What is received, by next number, buffer and queue. -/
structure Receiver where
  recvNext : UInt32
  recvBuffer : List UInt8
  oooQueue : List OooBlock

/-- The half of a connection that receives. -/
def Connection.receiver (c : Connection) : Receiver := ⟨c.recvNext, c.recvBuffer, c.oooQueue⟩

section Frames

variable {c : Connection} {seg : Segment}

theorem receiver_prepared : (c.prepared seg).receiver = c.receiver ∧
    (c.prepared seg).state = c.state := by
  rw [prepared]
  rcases seg.options.timestamp with _ | ⟨peer, _⟩ <;> cases seg.flags.ack <;> exact ⟨rfl, rfl⟩

theorem receiver_acknowledge : (c.acknowledge seg).receiver = c.receiver ∧
    (c.acknowledge seg).state = c.state := by
  rw [acknowledge]
  split
  · rw [processDataAck]
    split <;> exact ⟨rfl, rfl⟩
  · exact ⟨rfl, rfl⟩

theorem receiver_sendData {tick n : ℕ} : (c.sendData tick n).1.receiver = c.receiver ∧
    (c.sendData tick n).1.state = c.state := by
  rw [sendData]
  split <;> exact ⟨rfl, rfl⟩

theorem receiver_pushOutput {tick : ℕ} : (c.pushOutput tick).1.receiver = c.receiver ∧
    (c.pushOutput tick).1.state = c.state := by
  rw [pushOutput]
  split
  · exact receiver_sendData
  · exact ⟨rfl, rfl⟩

theorem state_enqueueOoo {start : UInt32} {data : List UInt8} :
    (c.enqueueOoo start data).state = c.state := by
  rw [enqueueOoo]
  split <;> rfl

theorem state_acceptPayload {seq : UInt32} {payload : List UInt8} :
    (c.acceptPayload seq payload).state = c.state := by
  rw [acceptPayload]
  split
  · rfl
  split
  · rfl
  split
  · exact state_enqueueOoo
  · rfl

theorem state_receive : (c.receive seg).1.state = c.state := by
  rw [receive]
  split
  · rfl
  · exact state_acceptPayload

/-- **A segment that neither ends nor resets the stream is its payload**, as far as the receiving
side is concerned. -/
theorem receiver_processSegment (hst : c.state = .established) (hrst : seg.flags.rst = false)
    (hfin : seg.flags.fin = false) (room : Option Bool) (tick : ℕ) :
    (c.processSegment room tick seg).conn.receiver = ((c.prepared seg).receive seg).1.receiver ∧
      (c.processSegment room tick seg).conn.state = .established := by
  have hop : (c.processSegment room tick seg).conn = (c.processOpen tick seg).1 := by
    rw [processSegment, hst]
    simp only [hrst, Bool.false_eq_true, if_false]
  have hnof : ∀ d : Connection, d.receiveFin seg = (d, []) := fun d => by
    rw [receiveFin, hfin]
    simp
  rw [hop, processOpen, hnof]
  rw [receiver_pushOutput.1, receiver_acknowledge.1, receiver_pushOutput.2,
    receiver_acknowledge.2, state_receive, receiver_prepared.2]
  exact ⟨rfl, hst⟩

end Frames

/-! ### Blocks of the stream -/

/-- **A block is a piece of the stream**, the one at a place. The place is at most half of the
space away from the one that comes next, and the block ends no further than a segment after
that. -/
structure BlockAt (stream : Stream' UInt8) (base : UInt32) (next place : ℕ) (block : OooBlock) :
    Prop where
  start : block.1 = number base place
  bytes : block.2 = (stream.drop place).take block.2.length
  behind : next ≤ place + half
  before : place ≤ next + half
  stop : place + block.2.length ≤ next + half + 65535

/-- The block has not fallen further behind than a full buffer allows to make up. -/
def Near (next place : ℕ) : Prop := next + maxRecvBuffer ≤ place + half

section Blocks

variable {stream : Stream' UInt8} {base : UInt32} {next place t n : ℕ} {block : OooBlock}
  {data : List UInt8}

theorem piece_take {data : List UInt8} (h : data = (stream.drop place).take data.length)
    (hle : n ≤ data.length) : data.take n = (stream.drop place).take n := by
  rw [h, Stream'.take_take, min_eq_right hle]

theorem piece_drop {data : List UInt8} (h : data = (stream.drop place).take data.length) (n : ℕ) :
    data.drop n = (stream.drop (place + n)).take (data.length - n) := by
  conv_lhs => rw [h]
  rw [drop_take, Stream'.drop_drop]

/-- A block stays what it is while the stream goes on, by a buffer at most. -/
theorem BlockAt.advance (h : BlockAt stream base next place block) (hnear : Near next place)
    (hn : n ≤ maxRecvBuffer) : BlockAt stream base (next + n) place block := by
  have hbef := h.before
  have hsp := h.stop
  rw [Near] at hnear
  exact ⟨h.start, h.bytes, by omega, by omega, by omega⟩

/-- **Joining two blocks that overlap** gives a block of the stream again. The numbers say where
the second one begins, because it begins after the first and before its end. -/
theorem BlockAt.merged (h : BlockAt stream base next place block)
    (hdt : data = (stream.drop t).take data.length) (hlen : data.length ≤ 65535)
    (hgt : next < t) (hle : t ≤ next + half) (hne : number base t ≠ block.1)
    (haft : ¬(0 < dist block.1 (number base t) ∧ dist block.1 (number base t) ≤ half))
    (htl : 0 < dist (block.1 + UInt32.ofNat block.2.length) (number base t) ∧
      dist (block.1 + UInt32.ofNat block.2.length) (number base t) ≤ half) :
    BlockAt stream base next place (Tcp.merged block (number base t) data) := by
  obtain ⟨hstart, hbytes, hbeh, hbef, hsp⟩ := h
  rw [hstart] at hne haft htl
  rw [← number_add] at htl
  simp only [half] at *
  have hlt : place < t := by
    by_contra hge
    rcases eq_or_lt_of_le (Nat.le_of_not_lt hge) with heq | hlt
    · exact hne (by rw [heq])
    rw [dist_of_le (by omega) (by omega)] at haft
    omega
  have hclo : t ≤ place + 2147483648 := by
    rw [dist_of_lt hlt (by omega)] at haft
    omega
  have hin : t < place + block.2.length := by
    by_contra hout
    rcases eq_or_lt_of_le (Nat.le_of_not_lt hout) with heq | hout
    · rw [heq, dist_of_le (le_refl _) (by omega)] at htl
      omega
    · rw [dist_of_lt hout (by omega)] at htl
      omega
  have hovl : dist (number base (place + block.2.length)) (number base t) =
      place + block.2.length - t := dist_of_le (le_of_lt hin) (by omega)
  rw [Tcp.merged]
  simp only
  split
  swap
  · exact ⟨hstart, hbytes, hbeh, hbef, hsp⟩
  rw [hstart, ← number_add, hovl]
  split
  swap
  · rw [List.append_nil]
    exact ⟨rfl, hbytes, hbeh, hbef, hsp⟩
  refine ⟨rfl, ?_, hbeh, hbef, ?_⟩
  · have hre := piece_drop hdt (place + block.2.length - t)
    rw [show t + (place + block.2.length - t) = place + block.2.length by omega] at hre
    rw [List.length_append, take_add, Stream'.drop_drop, ← hbytes, List.length_drop, hre]
  · simp only [List.length_append, List.length_drop, half]
    omega

end Blocks

/-! ### The queue -/

/-- **What a queue keeps when a block is put into it.** A block comes as it is, or it is joined to
one that begins before it and ends after its beginning; the blocks that were passed on the way to
its place are none of those. -/
theorem enqueue_forall {P : OooBlock → Prop} {start : UInt32} {data : List UInt8}
    {before queue : List OooBlock} (hnew : P (start, data))
    (hmrg : ∀ block, P block → start ≠ block.1 →
      ¬(0 < dist block.1 start ∧ dist block.1 start ≤ half) →
      0 < dist (block.1 + UInt32.ofNat block.2.length) start ∧
        dist (block.1 + UInt32.ofNat block.2.length) start ≤ half → P (merged block start data))
    (hpas : ∀ block ∈ before, P block ∧ ¬(0 < dist (block.1 + UInt32.ofNat block.2.length) start ∧
        dist (block.1 + UInt32.ofNat block.2.length) start ≤ half))
    (hqueue : ∀ block ∈ queue, P block) : ∀ block ∈ enqueue start data before queue, P block := by
  have hpast : ∀ block ∈ before.reverse, P block := fun block hb =>
    (hpas block (List.mem_reverse.mp hb)).1
  induction queue generalizing before with
  | nil =>
    intro block hb
    rcases List.mem_append.mp (List.mem_of_mem_take hb) with hb | hb
    · exact hpast block hb
    rw [List.mem_singleton.mp hb]
    exact hnew
  | cons first queue ih =>
    obtain ⟨hfirst, hre⟩ := List.forall_mem_cons.mp hqueue
    have hwith : ∀ b, P b → ∀ block ∈ before.reverse ++ b :: queue, P block := fun b hb =>
      List.forall_mem_append.mpr ⟨hpast, List.forall_mem_cons.mpr ⟨hb, hre⟩⟩
    unfold enqueue
    simp only
    split
    · refine hwith _ ?_
      split
      · exact hnew
      · exact hfirst
    rename_i hne
    split
    · have hins : ∀ block ∈ before.reverse ++ (start, data) :: first :: queue, P block :=
        List.forall_mem_append.mpr
          ⟨hpast, List.forall_mem_cons.mpr ⟨hnew, List.forall_mem_cons.mpr ⟨hfirst, hre⟩⟩⟩
      split
      · exact fun block hb => hins block (List.mem_of_mem_take hb)
      rename_i last earlier
      rw [if_neg (hpas last List.mem_cons_self).2]
      exact fun block hb => hins block (List.mem_of_mem_take hb)
    rename_i haft
    split
    · rename_i htl
      exact hwith _ (hmrg first hfirst hne haft htl)
    rename_i htl
    refine ih (List.forall_mem_cons.mpr ⟨⟨hfirst, htl⟩, hpas⟩) hre ?_
    intro block hb
    rcases List.mem_append.mp (List.reverse_cons ▸ hb) with hb | hb
    · exact hpast block hb
    rw [List.mem_singleton.mp hb]
    exact hfirst

/-- **What is delivered comes next in the stream**, and the queue loses blocks only. -/
theorem deliver_spec {stream : Stream' UInt8} {base : UInt32} {next r : ℕ}
    {queue : List OooBlock} {buffer : List UInt8}
    (hbks : ∀ block ∈ queue, ∃ place, BlockAt stream base next place block ∧ Near next place)
    (hle : next ≤ r) (hrm : r + (maxRecvBuffer - buffer.length) ≤ next + maxRecvBuffer)
    (hbf : buffer.length ≤ maxRecvBuffer) : ∃ n,
      (deliver queue (number base r) buffer).2.1 = number base (r + n) ∧
      (deliver queue (number base r) buffer).2.2 = buffer ++ (stream.drop r).take n ∧
      buffer.length + n ≤ maxRecvBuffer ∧
      ∀ block ∈ (deliver queue (number base r) buffer).1, block ∈ queue := by
  have hstay : ∀ q : List OooBlock, ∃ n,
      number base r = number base (r + n) ∧ buffer = buffer ++ (stream.drop r).take n ∧
      buffer.length + n ≤ maxRecvBuffer ∧ ∀ block ∈ q, block ∈ q := fun q =>
    ⟨0, rfl, (List.append_nil _).symm, hbf, fun _ h => h⟩
  induction queue generalizing r buffer with
  | nil => exact hstay []
  | cons first queue ih =>
    obtain ⟨start, data⟩ := first
    obtain ⟨⟨place, hat, hnear⟩, hre⟩ := List.forall_mem_cons.mp hbks
    rw [deliver]
    split
    · exact hstay _
    rename_i hnx
    have hnum : number base place = number base r :=
      hat.start.symm.trans (Classical.not_not.mp hnx)
    have hplace : place = r := by
      have hbef := hat.before
      simp only [Near, half] at *
      exact number_inj hnum (by omega) (by omega)
    subst hplace
    generalize hacc : min data.length (maxRecvBuffer - buffer.length) = accept
    have hbytes : data.take accept = (stream.drop place).take accept :=
      piece_take hat.bytes (show accept ≤ data.length by omega)
    simp only [hbytes, ← number_add]
    split
    · exact ⟨accept, rfl, rfl, by omega, fun _ hb => List.mem_cons_of_mem _ hb⟩
    have hln : (buffer ++ (stream.drop place).take accept).length =
        buffer.length + accept := by rw [List.length_append, Stream'.length_take]
    obtain ⟨n, hn, hbuf, hft, hmem⟩ := @ih (place + accept)
      (buffer ++ (stream.drop place).take accept) hre (by omega)
      (by omega) (by omega)
      (fun q => ⟨0, rfl, (List.append_nil _).symm, by omega, fun _ h => h⟩)
    refine ⟨accept + n, ?_, ?_, by omega, fun _ hb => List.mem_cons_of_mem _ (hmem _ hb)⟩
    · rw [hn, add_assoc]
    · rw [hbuf, List.append_assoc, take_add, Stream'.drop_drop]

/-! ### One segment -/

/-- The receiving side has the beginning of the stream up to a place, except for bytes that were
handed out, and pieces of the stream in its queue. -/
structure Receives (stream : Stream' UInt8) (base : UInt32) (next : ℕ) (r : Receiver) : Prop where
  recvNext : r.recvNext = number base next
  fits : r.recvBuffer.length ≤ maxRecvBuffer
  queue : ∀ block ∈ r.oooQueue, ∃ place, BlockAt stream base next place block

/-- **No block has fallen far behind**: every block is after the number that comes next, or at
most half of the space and a buffer before it. -/
def Fresh (r : Receiver) : Prop :=
  ∀ block ∈ r.oooQueue, dist r.recvNext block.1 + maxRecvBuffer ≤ half ∨
    dist block.1 r.recvNext ≤ half

/-- **A segment of the stream**: its bytes are those of the stream at its place, which is the one
near the place that comes next. It came in a packet, and neither ends nor resets the stream. -/
structure OfStream (stream : Stream' UInt8) (base : UInt32) (next : ℕ) (seg : Segment) :
    Prop where
  rst : seg.flags.rst = false
  fin : seg.flags.fin = false
  length_le : seg.payload.length ≤ 65535
  place : ∃ t, seg.sequenceNumber = number base t ∧ t ≤ next + half ∧ next ≤ t + half + 1 ∧
    seg.payload = (stream.drop t).take seg.payload.length

section OneSegment

variable {stream : Stream' UInt8} {base : UInt32} {next t : ℕ} {c : Connection} {data : List UInt8}

theorem Receives.near (h : Receives stream base next c.receiver) (hfresh : Fresh c.receiver)
    (block : OooBlock) (hb : block ∈ c.oooQueue) :
    ∃ place, BlockAt stream base next place block ∧ Near next place := by
  obtain ⟨place, hat⟩ := h.queue block hb
  refine ⟨place, hat, ?_⟩
  have hwhere := hfresh block hb
  rw [h.recvNext, hat.start] at hwhere
  have hbeh := hat.behind
  simp only [Near, maxRecvBuffer, half] at *
  by_contra hfar
  rw [dist_of_le (by omega) (by omega), dist_of_lt (by omega) (by omega)] at hwhere
  omega

/-- What a step adds: a piece of the stream at the end of the buffer. -/
def Appends (stream : Stream' UInt8) (base : UInt32) (next : ℕ) (r r' : Receiver) : Prop :=
  ∃ n, r'.recvBuffer = r.recvBuffer ++ (stream.drop next).take n ∧
    Receives stream base (next + n) r'

section

variable (h : Receives stream base next c.receiver)
include h

theorem Appends.refl : Appends stream base next c.receiver c.receiver :=
  ⟨0, (List.append_nil _).symm, h⟩

/-- **Bytes that come next are appended**, and after them what was waiting for them. -/
theorem accept_appends (hfresh : Fresh c.receiver)
    (hdt : data = (stream.drop next).take data.length) :
    Appends stream base next c.receiver (c.accept data).receiver := by
  have hft : c.recvBuffer.length ≤ maxRecvBuffer := h.fits
  generalize hacep : min data.length (maxRecvBuffer - c.recvBuffer.length) = accepted
  have hbytes : data.take accepted = (stream.drop next).take accepted :=
    piece_take hdt (by omega)
  have hln : (c.recvBuffer ++ (stream.drop next).take accepted).length =
      c.recvBuffer.length + accepted := by rw [List.length_append, Stream'.length_take]
  obtain ⟨n, hnx, hbf, hrm, hmem⟩ := @deliver_spec stream base next (next + accepted)
    c.oooQueue (c.recvBuffer ++ (stream.drop next).take accepted) (h.near hfresh)
    (Nat.le_add_right _ _) (by omega) (by omega)
  have hrcv : (c.accept data).receiver =
      ⟨(deliver c.oooQueue (number base (next + accepted))
          (c.recvBuffer ++ (stream.drop next).take accepted)).2.1,
        (deliver c.oooQueue (number base (next + accepted))
          (c.recvBuffer ++ (stream.drop next).take accepted)).2.2,
        (deliver c.oooQueue (number base (next + accepted))
          (c.recvBuffer ++ (stream.drop next).take accepted)).1⟩ := by
    rw [accept, hacep, hbytes, number_add, ← h.recvNext]
    rfl
  rw [hrcv]
  refine ⟨accepted + n, ?_, ?_, ?_, fun block hb => ?_⟩
  · rw [hbf, List.append_assoc, take_add, Stream'.drop_drop]
    rfl
  · rw [hnx, add_assoc]
  · rw [hbf, List.length_append, Stream'.length_take]
    omega
  · obtain ⟨place, hat, hnear⟩ := h.near hfresh block (hmem block hb)
    exact ⟨place, hat.advance hnear (by omega)⟩

/-- **A block that comes too early is kept as a piece of the stream.** -/
theorem enqueueOoo_receives
    (hfresh : Fresh c.receiver) (hdt : data = (stream.drop t).take data.length)
    (hlen : data.length ≤ 65535) (hgt : next < t) (hle : t ≤ next + half) :
    Appends stream base next c.receiver (c.enqueueOoo (number base t) data).receiver := by
  rw [enqueueOoo]
  split
  · exact Appends.refl h
  refine ⟨0, (List.append_nil _).symm, h.recvNext, h.fits, ?_⟩
  have hall : ∀ block ∈ enqueue (number base t) data [] c.oooQueue,
      ∃ place, BlockAt stream base next place block ∧ Near next place := by
    refine enqueue_forall ⟨t, ⟨rfl, hdt, by omega, hle, by simp only; omega⟩, ?_⟩ ?_
      (fun block hb => nomatch hb) (h.near hfresh)
    · simp only [Near, maxRecvBuffer, half]
      omega
    · rintro block ⟨place, hat, hnear⟩ hne haft htl
      exact ⟨place, hat.merged hdt hlen hgt hle hne haft htl, hnear⟩
  exact fun block hb => (hall block hb).imp fun place hplace => hplace.1

/-- **Every way a segment can take appends a piece of the stream.** -/
theorem acceptPayload_appends {seg : Segment}
    (hfresh : Fresh c.receiver) (hseg : OfStream stream base next seg) :
    Appends stream base next c.receiver
      (c.acceptPayload seg.sequenceNumber seg.payload).receiver := by
  obtain ⟨t, hstart, hah, hbeh, hbytes⟩ := hseg.place
  have hnx : c.recvNext = number base next := h.recvNext
  have hlen := hseg.length_le
  rw [acceptPayload]
  simp only [hstart, hnx, half] at *
  split
  · rename_i heq
    obtain rfl := number_inj heq (by omega) (by omega)
    exact accept_appends h hfresh hbytes
  rename_i hne
  have hplace : t ≠ next := fun heq => hne (by rw [heq])
  split
  · -- the numbers are those of a repetition, which begins before what comes next
    rename_i hovl
    have hlt : t < next := by
      by_contra hge
      rw [dist_of_lt (by omega) (by omega)] at hovl
      omega
    have hdist : dist (number base next) (number base t) = next - t :=
      dist_of_le (by omega) (by omega)
    rw [hdist] at hovl ⊢
    refine accept_appends h hfresh ?_
    have hre := piece_drop hbytes (next - t)
    rw [show t + (next - t) = next by omega] at hre
    rwa [List.length_drop]
  split
  · rename_i hear
    have hgt : next < t := by
      by_contra hge
      rw [dist_of_lt (by omega) (by omega)] at hear
      omega
    exact enqueueOoo_receives h hfresh hbytes hlen hgt hah
  · exact Appends.refl h

theorem receive_appends {seg : Segment}
    (hfresh : Fresh c.receiver) (hseg : OfStream stream base next seg) :
    Appends stream base next c.receiver (c.receive seg).1.receiver := by
  rw [receive]
  split
  · exact Appends.refl h
  exact @acceptPayload_appends stream base next
    { c with pushBoundary := c.pushBoundary || seg.flags.psh } h seg hfresh hseg

end

end OneSegment

/-! ### Runs -/

/-- A connection that has just been opened by both sides. -/
structure Opened (base : UInt32) (c : Connection) : Prop where
  state : c.state = .established
  recvNext : c.recvNext = base
  recvBuffer : c.recvBuffer = []
  oooQueue : c.oooQueue = []

/-- **The stream is intact**: what was handed out and what is in the buffer are the beginning of
the stream up to the number that comes next, and the buffer is not too long. -/
def Intact (stream : Stream' UInt8) (base : UInt32) (handed : List UInt8) (c : Connection) : Prop :=
  handed ++ c.recvBuffer = stream.take (handed.length + c.recvBuffer.length) ∧
    c.recvNext = number base (handed.length + c.recvBuffer.length) ∧
    c.recvBuffer.length ≤ maxRecvBuffer

/-- The connections that are reached by segments of the stream and reads, with the bytes that the
reads were given. A segment comes in a state of a kind. -/
inductive ReceiveRun (stream : Stream' UInt8) (base : UInt32) (kind : Receiver → Prop)
    (c₀ : Connection) : List UInt8 → Connection → Prop
  | start : ReceiveRun stream base kind c₀ [] c₀
  | segment {handed : List UInt8} {c : Connection}
      (hrun : ReceiveRun stream base kind c₀ handed c) (hkind : kind c.receiver)
      (room : Option Bool) (tick : ℕ) (seg : Segment)
      (hseg : OfStream stream base (handed.length + c.recvBuffer.length) seg) :
      ReceiveRun stream base kind c₀ handed (c.processSegment room tick seg).conn
  | read {handed : List UInt8} {c : Connection}
      (hrun : ReceiveRun stream base kind c₀ handed c) (len : ℕ) :
      ReceiveRun stream base kind c₀ (handed ++ (c.read len).1) (c.read len).2

section Runs

variable {stream : Stream' UInt8} {base : UInt32} {handed : List UInt8} {c₀ c : Connection}

theorem Opened.receives (h : Opened base c₀) : Receives stream base 0 c₀.receiver := by
  refine ⟨?_, ?_, fun block hb => ?_⟩
  · exact h.recvNext.trans number_zero.symm
  · rw [receiver, h.recvBuffer]
    exact Nat.zero_le _
  · rw [receiver, h.oooQueue] at hb
    cases hb

theorem ReceiveRun.receives (h : Opened base c₀)
    (hrun : ReceiveRun stream base Fresh c₀ handed c) : c.state = .established ∧
      handed ++ c.recvBuffer = stream.take (handed.length + c.recvBuffer.length) ∧
      Receives stream base (handed.length + c.recvBuffer.length) c.receiver := by
  induction hrun with
  | start =>
    rw [h.recvBuffer]
    exact ⟨h.state, rfl, h.receives⟩
  | @segment handed c hrun hfresh room tick seg hseg ih =>
    obtain ⟨hst, hbytes, hrec⟩ := ih
    obtain ⟨hrcv, hst'⟩ := receiver_processSegment hst hseg.rst hseg.fin room tick
    rw [← (@receiver_prepared c seg).1] at hrec hfresh
    obtain ⟨n, hbf, hrec'⟩ := receive_appends hrec hfresh hseg
    rw [← hrcv] at hbf hrec'
    rw [receiver_prepared.1] at hbf
    generalize (c.processSegment room tick seg).conn = c' at *
    have hbuf : c'.recvBuffer =
        c.recvBuffer ++ (stream.drop (handed.length + c.recvBuffer.length)).take n := hbf
    have hln : handed.length + c'.recvBuffer.length =
        handed.length + c.recvBuffer.length + n := by
      rw [hbuf, List.length_append, Stream'.length_take, add_assoc]
    rw [hln]
    refine ⟨hst', ?_, hrec'⟩
    rw [hbuf, ← List.append_assoc, hbytes, take_add stream (_ + _) n]
  | @read handed c hrun len ih =>
    obtain ⟨hst, hbytes, hrec⟩ := ih
    have hsm : (handed ++ (c.read len).1) ++ (c.read len).2.recvBuffer =
        handed ++ c.recvBuffer := by
      rw [Connection.read, List.append_assoc, List.take_append_drop]
    have hln : (handed ++ (c.read len).1).length + (c.read len).2.recvBuffer.length =
        handed.length + c.recvBuffer.length := by
      rw [← List.length_append, hsm, List.length_append]
    rw [hsm, hln]
    refine ⟨hst, hbytes, hrec.recvNext, le_trans ?_ hrec.fits, hrec.queue⟩
    rw [Connection.read, Connection.receiver, List.length_drop]
    exact Nat.sub_le _ _

/-- **The stream is intact in every run** in which no block of the queue falls far behind. -/
theorem received_intact (h : Opened base c₀)
    (hrun : ReceiveRun stream base Fresh c₀ handed c) : Intact stream base handed c := by
  obtain ⟨-, hbytes, hrec⟩ := hrun.receives h
  exact ⟨hbytes, hrec.recvNext, hrec.fits⟩

end Runs

/-! ### A block that stays behind -/

/-- A stream of three ones and of zeros after them. -/
def threeOnes : Stream' UInt8 := fun k => if k < 3 then 1 else 0

/-- A segment of data. -/
def dataSegment (seq : UInt32) (payload : List UInt8) : Segment where
  sequenceNumber := seq
  acknowledgmentNumber := 0
  flags := ackOnly
  windowSize := 0
  options := {}
  payload := payload

/-- A connection whose peer begins with number 0 and sends blocks. -/
def openedAtZero : Connection :=
  { Connection.new 0 0 with state := .established, peerSackOk := true }

theorem opened_openedAtZero : Opened 0 openedAtZero := ⟨rfl, rfl, rfl, rfl⟩

theorem ofStream_dataSegment {next t : ℕ} {payload : List UInt8} (hle : payload.length ≤ 65535)
    (hah : t ≤ next + half) (hbeh : next ≤ t + half + 1)
    (hbytes : payload = (threeOnes.drop t).take payload.length) :
    OfStream threeOnes 0 next (dataSegment (number 0 t) payload) :=
  ⟨rfl, rfl, hle, t, rfl, hah, hbeh, hbytes⟩

/-- The second and the third byte, then the first. -/
theorem received_intact_reversed : Intact threeOnes 0 []
    ((openedAtZero.processSegment none 0 (dataSegment 1 [1, 1])).conn.processSegment none 0
      (dataSegment 0 [1])).conn :=
  received_intact opened_openedAtZero
    (.segment
      (.segment .start (fun block hb => nomatch hb) none 0 (dataSegment 1 [1, 1])
        (@ofStream_dataSegment 0 1 [1, 1] (by decide) (by decide) (by decide) rfl))
      (fun block hb => by
        obtain rfl := List.mem_singleton.mp hb
        exact Or.inr (by decide))
      none 0 (dataSegment 0 [1])
      (@ofStream_dataSegment 0 0 [1] (by decide) (by decide) (by decide) rfl))

theorem take_one_drop (stream : Stream' UInt8) (k : ℕ) : (stream.drop k).take 1 = [stream k] := by
  rw [Stream'.take_succ, Stream'.head_drop]
  rfl

/-- The byte that comes next, on an empty buffer. -/
theorem run_nextByte {handed : List UInt8} {c : Connection} {r : ℕ} {queue : List OooBlock}
    (hrun : ReceiveRun threeOnes 0 (fun _ => True) openedAtZero handed c)
    (hln : handed.length = r) (hst : c.state = .established)
    (hc : c.receiver = ⟨number 0 r, [], queue⟩) : ∃ d,
    ReceiveRun threeOnes 0 (fun _ => True) openedAtZero handed d ∧ d.state = .established ∧
      d.receiver = ⟨(deliver queue (number 0 (r + 1)) [threeOnes r]).2.1,
        (deliver queue (number 0 (r + 1)) [threeOnes r]).2.2,
        (deliver queue (number 0 (r + 1)) [threeOnes r]).1⟩ := by
  obtain ⟨hrcv, hst'⟩ := @receiver_processSegment c
    (dataSegment (number 0 r) [threeOnes r]) hst rfl rfl none 0
  refine ⟨_, hrun.segment trivial none 0 _ ?_, hst', hrcv.trans ?_⟩
  · rw [hln, show c.recvBuffer = [] from congrArg Receiver.recvBuffer hc]
    exact ofStream_dataSegment (by simp) (by simp) (by simp; omega) (take_one_drop threeOnes r).symm
  have hprep := (@receiver_prepared c (dataSegment (number 0 r) [threeOnes r])).1.trans hc
  generalize c.prepared (dataSegment (number 0 r) [threeOnes r]) = d at hprep
  obtain ⟨hnx, hbf, hqueue⟩ := Receiver.mk.inj hprep
  rw [number_add]
  simp [receive, dataSegment, acceptPayload, accept, deliverOoo, receiver, stamped, hnx,
    hbf, hqueue, maxRecvBuffer]

/-- Byte after byte is received and read, with a block in the queue that was passed long ago. -/
theorem stale_block_stays (n : ℕ) (hn : n + 2 ≤ 2 ^ 32) : ∃ handed c,
    ReceiveRun threeOnes 0 (fun _ => True) openedAtZero handed c ∧ handed.length = n + 2 ∧
      c.state = .established ∧ c.receiver = ⟨number 0 (n + 2), [], [(1, [1, 1])]⟩ := by
  induction n with
  | zero =>
    have hstart : ReceiveRun threeOnes 0 (fun _ => True) openedAtZero [] openedAtZero := .start
    have hfirst := hstart.segment trivial none 0 (dataSegment 1 [1, 1])
      (@ofStream_dataSegment 0 1 [1, 1] (by decide) (by decide) (by decide) rfl)
    have hsnd := hfirst.segment trivial none 0 (dataSegment 0 [1, 1])
      (@ofStream_dataSegment 0 0 [1, 1] (by decide) (by decide) (by decide) rfl)
    exact ⟨_, _, hsnd.read 2, rfl, rfl, rfl⟩
  | succ n ih =>
    obtain ⟨handed, c, hrun, hln, hst, hc⟩ := ih (by omega)
    obtain ⟨d, hstep, hst', hrcv⟩ := run_nextByte hrun hln hst hc
    have hpas : 1 ≠ number 0 (n + 2 + 1) := by
      intro heq
      have := congrArg UInt32.toNat heq
      rw [toNat_number] at this
      simp at this
      omega
    have hstays : deliver [(1, [1, 1])] (number 0 (n + 2 + 1)) [threeOnes (n + 2)] =
        ([(1, [1, 1])], number 0 (n + 2 + 1), [threeOnes (n + 2)]) := if_pos hpas
    rw [hstays] at hrcv
    obtain ⟨hnx, hbuf, hqueue⟩ := Receiver.mk.inj hrcv
    refine ⟨_, _, hstep.read 1, ?_, hst', ?_⟩
    · rw [Connection.read, hbuf, List.length_append, hln]
      rfl
    · rw [Connection.read, hbuf, hnx, hqueue]
      rfl

/-- **A block that was passed is delivered when its number comes around.** The second and the
third byte of the stream come before the first, and then the first with the second: the block
stays in the queue. When 2³² bytes have been received in order, its number is the next one again,
and the reader is given two ones where the stream has zeros. -/
theorem stale_block_delivered : Opened 0 openedAtZero ∧ ∃ handed c,
    ReceiveRun threeOnes 0 (fun _ => True) openedAtZero handed c ∧
      ¬Intact threeOnes 0 handed c := by
  refine ⟨opened_openedAtZero, ?_⟩
  obtain ⟨handed, c, hrun, hln, hst, hc⟩ := stale_block_stays (2 ^ 32 - 2) (by omega)
  obtain ⟨d, hstep, -, hrcv⟩ := run_nextByte hrun hln hst hc
  have hbuf : d.recvBuffer = [0, 1, 1] := congrArg Receiver.recvBuffer hrcv
  refine ⟨handed, d, hstep, fun hint => ?_⟩
  have hget := congrArg (fun l => l[4294967297]?) hint.1
  rw [hbuf] at hget
  rw [List.getElem?_append_right (by omega), hln, Stream'.getElem?_take (by simp)] at hget
  revert hget
  decide

/-! ### The end of the stream -/

/-- The number of the end of the stream. -/
def Segment.finSeq (seg : Segment) : UInt32 :=
  seg.sequenceNumber + UInt32.ofNat seg.payload.length

theorem ne_add_one (x : UInt32) : x ≠ x + 1 := by
  intro h
  have := congrArg UInt32.toNat h
  rw [UInt32.toNat_add] at this
  simp at this
  omega

section Fin

variable {room : Option Bool} {tick : ℕ} {c : Connection} {seg : Segment}

end Fin

end Protofire.Network.Tcp
