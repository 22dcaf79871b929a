import Protofire.Kernel.Block
import Protofire.Lib.Serial

/-!
# Connections of TCP

A connection is two streams of bytes that are numbered by 32-bit numbers. The side that sends
keeps what was written and not yet acknowledged in one buffer, sent and unsent bytes together; the
boundary between them is the distance of `sendNext` from `sendUnacked`. The side that receives
keeps what was received in order and not yet read in another buffer, and blocks that came too
early in a queue.

Data leaves by two ways, `tryFlushTcpOutput` after a write and `pushOutput` after a segment came
in, which differ in how much they allow (`canFlush` and `canPush`) and in nothing else. A segment
is taken apart in the order of the source: the payload, the acknowledgement, the end of the
stream, and then the output.

The addresses and ports, the waking of readers, congestion control and the two flags of explicit
congestion notification are left out: no buffer, number or window depends on them. The options of
a segment are what their parsers answer.
-/

namespace Protofire.Network.Tcp

open Serial

/-! ### Constants -/

def defaultMss : ℕ := 1460

def minPeerMss : ℕ := 536

def maxRecvBuffer : ℕ := 65536

def maxSendBuffer : ℕ := 65536

def rtoBaseTicks : ℕ := 30

def maxRetries : ℕ := 5

def maxBackoffMultiplier : ℕ := 3

def timeWaitTicks : ℕ := 6000

def maxSackBlocks : ℕ := 3

def defaultWindowScale : ℕ := 6

/-- The most blocks of the out-of-order queue. -/
def maxOooBlocks : ℕ := 64

/-- Half of the numbers: a number is not before another one if it is at most this far after it. -/
def half : ℕ := 2147483647

/-! ### Segments -/

/-- Header flags. -/
structure Flags where
  fin : Bool := false
  syn : Bool := false
  rst : Bool := false
  psh : Bool := false
  ack : Bool := false
deriving DecidableEq

def ackOnly : Flags := { ack := true }

def pushAck : Flags := { ack := true, psh := true }

def finAck : Flags := { fin := true, ack := true }

def rstAck : Flags := { rst := true, ack := true }

/-- The options of a segment. -/
structure Options where
  mss : ℕ := minPeerMss
  windowScale : ℕ := 0
  sackPermitted : Bool := false
  sack : List (UInt32 × UInt32) := []
  timestamp : Option (UInt32 × UInt32) := none
deriving DecidableEq

/-- A segment, with the options that the code reads. -/
structure Segment where
  sequenceNumber : UInt32
  acknowledgmentNumber : UInt32
  flags : Flags
  windowSize : ℕ
  options : Options
  payload : List UInt8
deriving DecidableEq

/-! ### The state of a connection -/

/-- States of a connection. -/
inductive TcpState where
  | closed | listen | synSent | synReceived | established | finWait1 | finWait2 | closing
  | closeWait | lastAck | timeWait
deriving DecidableEq

/-- The segments that are not acknowledged, oldest first, each with the number after it. -/
structure RetransmitState where
  startedAt : ℕ
  count : ℕ
  pendingSegments : List (UInt32 × Segment)

/-- Bytes of the peer that came too early, with the number of the first. -/
abbrev OooBlock : Type := UInt32 × List UInt8

/-- One connection with its two sequence spaces and both buffers. -/
structure Connection where
  state : TcpState
  sendNext : UInt32
  sendUnacked : UInt32
  sendWindow : ℕ
  initialSeq : UInt32
  recvNext : UInt32
  sendBuffer : List UInt8
  recvBuffer : List UInt8
  retransmit : RetransmitState
  timeWaitStart : ℕ
  peerInitialSeq : UInt32
  peerMss : ℕ
  peerWindowScale : ℕ
  oooQueue : List OooBlock
  peerSackBlocks : List (UInt32 × UInt32)
  peerSackOk : Bool
  tsVal : UInt32
  peerTsVal : UInt32
  peerTimestamps : Bool
  pushBoundary : Bool

namespace Connection

/-- A connection that is opened from here. -/
def new (initialSeq : UInt32) (tick : ℕ) : Connection where
  state := .synSent
  sendNext := initialSeq + 1
  sendUnacked := initialSeq
  sendWindow := 65535
  initialSeq := initialSeq
  recvNext := 0
  sendBuffer := []
  recvBuffer := []
  retransmit := ⟨tick, 0, []⟩
  timeWaitStart := 0
  peerInitialSeq := 0
  peerMss := minPeerMss
  peerWindowScale := 0
  oooQueue := []
  peerSackBlocks := []
  peerSackOk := false
  tsVal := UInt32.ofNat tick * 10000
  peerTsVal := 0
  peerTimestamps := false
  pushBoundary := false

/-- A connection that a peer opens. -/
def newChild (peerInitialSeq initialSeq : UInt32) (tick : ℕ) : Connection :=
  { new initialSeq tick with
    state := .synReceived
    recvNext := peerInitialSeq + 1
    peerInitialSeq := peerInitialSeq }

variable (c : Connection)

/-- The window to advertise. -/
def recvWindow : ℕ :=
  (maxRecvBuffer - c.recvBuffer.length) / 2 ^ defaultWindowScale

/-- Read up to a number of bytes. -/
def read (len : ℕ) : List UInt8 × Connection :=
  (c.recvBuffer.take len, { c with recvBuffer := c.recvBuffer.drop len })

/-- Buffer bytes for transmission: how many were accepted. -/
def write (data : List UInt8) : ℕ × Connection :=
  let accepted := min data.length (maxSendBuffer - c.sendBuffer.length)
  (accepted, { c with sendBuffer := c.sendBuffer ++ data.take accepted })

/-! ### Segments that leave -/

/-- The connection with its clock advanced. -/
def stamped : Connection := { c with tsVal := c.tsVal + 1 }

/-- The connection with the clock of the peer. -/
def advanceTimestamp (peerTsVal : UInt32) : Connection :=
  { c with peerTsVal := peerTsVal, tsVal := c.tsVal + 1 }

/-- The options of a segment, with the timestamps if the peer takes them. -/
def timestampedOptions : Options :=
  { timestamp := if c.peerTimestamps then some (c.tsVal, c.peerTsVal) else none }

/-- The blocks that wait out of order go with an acknowledgement. -/
def ackOptionsWithSack : Options :=
  { c.timestampedOptions with
    sack := (c.oooQueue.map fun b => (b.1, b.1 + UInt32.ofNat b.2.length)).take maxSackBlocks }

/-- The segment at the next number. -/
def segment (flags : Flags) (options : Options) (payload : List UInt8) : Segment where
  sequenceNumber := c.sendNext
  acknowledgmentNumber := c.recvNext
  flags := flags
  windowSize := c.recvWindow
  options := options
  payload := payload

end Connection

/-- Put a segment at the end of those that are not acknowledged. The first one starts the timer. -/
def RetransmitState.queued (r : RetransmitState) (tick : ℕ) (next : UInt32) (seg : Segment) :
    RetransmitState :=
  if r.pendingSegments.isEmpty then ⟨tick, 0, [(next, seg)]⟩
  else { r with pendingSegments := r.pendingSegments ++ [(next, seg)] }

namespace Connection

variable (c : Connection)

/-- `effective_mss`. -/
def effectiveMss : ℕ := min defaultMss c.peerMss

/-- The window of the peer, or a byte to probe it with. -/
def window : ℕ := max c.sendWindow 1

/-- The bytes of the buffer that were sent. -/
def ahead : ℕ := dist c.sendNext c.sendUnacked

/-- How much may leave after a write. -/
def canFlush : ℕ :=
  min (min c.window c.effectiveMss) (c.sendBuffer.length - c.ahead)

/-- How much may leave after a segment came in: what is in flight counts against the window. -/
def canPush : ℕ :=
  min (min (c.window - c.ahead) c.effectiveMss) (c.sendBuffer.length - c.ahead)

variable (tick : ℕ) (c : Connection)

/-- Send bytes of the buffer, unless they are few and others are in flight. -/
def sendData (canSend : ℕ) : Connection × List Segment :=
  if 0 < canSend ∧ (c.retransmit.pendingSegments.isEmpty ∨ c.effectiveMss ≤ canSend) then
    let data := (c.sendBuffer.drop c.ahead).take canSend
    let seg := c.stamped.segment pushAck c.stamped.timestampedOptions data
    let next := c.sendNext + UInt32.ofNat data.length
    ({ c.stamped with sendNext := next, retransmit := c.retransmit.queued tick next seg }, [seg])
  else (c, [])

/-- `try_flush_tcp_output`: one segment of the buffer after a write. -/
def tryFlushTcpOutput : Connection × List Segment :=
  if c.state ≠ .established ∨ c.sendBuffer = [] then (c, []) else c.sendData tick c.canFlush

/-- The output at the end of `processSegment`. -/
def pushOutput : Connection × List Segment :=
  if c.state = .established ∧ c.sendBuffer ≠ [] then c.sendData tick c.canPush else (c, [])

/-! ### Acknowledgements -/

end Connection

variable (blocks : List (UInt32 × UInt32))

/-- A block of the peer covers the numbers from one to another. -/
def covered (start stop : UInt32) : Bool :=
  blocks.any fun b =>
    (decide (dist start b.1 ≤ half) || decide (start = b.1)) &&
      (decide (dist b.2 stop ≤ half) || decide (b.2 = stop))

/-- The segments that no block covers, from a number on. -/
def uncovered (blocks : List (UInt32 × UInt32)) : (start : UInt32) → List (UInt32 × Segment) →
    List (UInt32 × Segment)
  | _, [] => []
  | start, p :: rest =>
    if covered blocks start p.1 then uncovered blocks p.1 rest
    else p :: uncovered blocks p.1 rest

/-- What is left of the segments. The oldest one stays in any case. -/
def unsacked : List (UInt32 × Segment) → List (UInt32 × Segment)
  | [] => []
  | p :: rest => p :: uncovered blocks p.1 rest

namespace Connection

/-- Take an acknowledgement that is after `sendUnacked` and not after `sendNext`. -/
def processDataAck (c : Connection) (ack : UInt32) : Connection :=
  let diff := dist ack c.sendUnacked
  if 0 < diff ∧ diff ≤ half ∧ dist c.sendNext ack ≤ half then
    let pending := c.retransmit.pendingSegments.dropWhile fun p => decide (dist ack p.1 ≤ half)
    let pending := unsacked c.peerSackBlocks pending
    { c with
      sendUnacked := ack
      retransmit := { c.retransmit with
        pendingSegments := pending
        count := if pending.isEmpty then 0 else c.retransmit.count }
      sendBuffer := c.sendBuffer.drop (min diff c.sendBuffer.length) }
  else c

end Connection

/-! ### Blocks that come too early -/

/-- Move blocks to the buffer as long as the first one is what comes next. -/
def deliver : List OooBlock → (recvNext : UInt32) → (recvBuffer : List UInt8) →
    List OooBlock × UInt32 × List UInt8
  | [], recvNext, recvBuffer => ([], recvNext, recvBuffer)
  | (start, data) :: queue, recvNext, recvBuffer =>
    if start ≠ recvNext then ((start, data) :: queue, recvNext, recvBuffer)
    else
      let accept := min data.length (maxRecvBuffer - recvBuffer.length)
      let recvNext := recvNext + UInt32.ofNat accept
      let recvBuffer := recvBuffer ++ data.take accept
      if accept < data.length then (queue, recvNext, recvBuffer)
      else deliver queue recvNext recvBuffer

/-- A block with the bytes of a later one that overlaps it. -/
def merged (block : OooBlock) (start : UInt32) (data : List UInt8) : OooBlock :=
  let stop := start + UInt32.ofNat data.length
  let blockStop := block.1 + UInt32.ofNat block.2.length
  let mergedLen := dist (max stop blockStop) block.1
  if block.2.length < mergedLen then
    let overlap := dist blockStop start
    (block.1, block.2 ++ if overlap < data.length then data.drop overlap else [])
  else block

/-- Put a block into the queue, after the blocks before it (nearest first). -/
def enqueue (start : UInt32) (data : List UInt8) : (before queue : List OooBlock) → List OooBlock
  | before, [] => (before.reverse ++ [(start, data)]).take maxOooBlocks
  | before, block :: queue =>
    let diff := dist block.1 start
    let tail := dist (block.1 + UInt32.ofNat block.2.length) start
    if start = block.1 then
      before.reverse ++ (if block.2.length < data.length then (start, data) else block) :: queue
    else if 0 < diff ∧ diff ≤ half then
      match before with
      | [] => ((start, data) :: block :: queue).take maxOooBlocks
      | last :: earlier =>
        let tail := dist (last.1 + UInt32.ofNat last.2.length) start
        if 0 < tail ∧ tail ≤ half then earlier.reverse ++ merged last start data :: block :: queue
        else (before.reverse ++ (start, data) :: block :: queue).take maxOooBlocks
    else if 0 < tail ∧ tail ≤ half then before.reverse ++ merged block start data :: queue
    else enqueue start data (block :: before) queue

namespace Connection

variable (c : Connection)

/-- `deliver_ooo`: queued segments that now start at `recv_next` are taken over. -/
def deliverOoo : Connection :=
  let moved := deliver c.oooQueue c.recvNext c.recvBuffer
  { c with oooQueue := moved.1, recvNext := moved.2.1, recvBuffer := moved.2.2 }

/-- `enqueue_ooo`: bytes that were taken already are not queued. -/
def enqueueOoo (start : UInt32) (data : List UInt8) : Connection :=
  let stop := start + UInt32.ofNat data.length
  if stop ≠ c.recvNext ∧ dist c.recvNext stop ≤ half then c
  else { c with oooQueue := enqueue start data [] c.oooQueue }

/-! ### Payload -/

/-- Take bytes that come next, as many as there is room for. -/
def accept (data : List UInt8) : Connection :=
  let accepted := min data.length (maxRecvBuffer - c.recvBuffer.length)
  { c with
    recvBuffer := c.recvBuffer ++ data.take accepted
    recvNext := c.recvNext + UInt32.ofNat accepted }.deliverOoo

/-- `accept_payload`: what comes next is taken, what comes later is queued. -/
def acceptPayload (seq : UInt32) (payload : List UInt8) : Connection :=
  let diff := dist seq c.recvNext
  let overlap := dist c.recvNext seq
  if seq = c.recvNext then c.accept payload
  else if 0 < overlap ∧ overlap < payload.length then c.accept (payload.drop overlap)
  else if diff ≤ half ∧ 0 < diff ∧ c.peerSackOk = true then c.enqueueOoo seq payload
  else c

/-! ### The steps of `processSegment` on an open connection -/

variable (seg : Segment)

/-- The clock and the blocks that the peer sends with a segment. -/
def prepared : Connection :=
  let c := match seg.options.timestamp with
    | some (peer, _) => c.advanceTimestamp peer
    | none => c
  if seg.flags.ack then { c with peerSackBlocks := seg.options.sack } else c

/-- The payload of a segment, and the acknowledgement it is answered with. -/
def receive : Connection × List Segment :=
  if seg.payload = [] then (c, [])
  else
    let c := { c with pushBoundary := c.pushBoundary || seg.flags.psh }
    let c := (c.acceptPayload seg.sequenceNumber seg.payload).stamped
    (c, [c.segment ackOnly c.ackOptionsWithSack []])

/-- The acknowledgement and the window that come with a segment. -/
def acknowledge : Connection :=
  if seg.flags.ack then
    { c.processDataAck seg.acknowledgmentNumber with
      sendWindow := seg.windowSize * 2 ^ c.peerWindowScale }
  else c

/-- The end of the peer's stream, if everything before it is there. -/
def receiveFin : Connection × List Segment :=
  let finSeq := seg.sequenceNumber + UInt32.ofNat seg.payload.length
  if seg.flags.fin = true ∧ finSeq = c.recvNext then
    let c := { c with recvNext := c.recvNext + 1 }.deliverOoo
    if c.state = .established then
      let c := { c with state := .closeWait }.stamped
      (c, [c.segment ackOnly c.timestampedOptions []])
    else (c, [])
  else (c, [])

/-- The steps on an open connection, when the peer does not reset it. -/
def processOpen (tick : ℕ) (c : Connection) (seg : Segment) : Connection × List Segment :=
  let received := (c.prepared seg).receive seg
  let ended := (received.1.acknowledge seg).receiveFin seg
  let pushed := ended.1.pushOutput tick
  (pushed.1, received.2 ++ ended.2 ++ pushed.2)

/-! ### The state machine -/

end Connection

/-- What a call leaves: the connection, the segments to send, and whether the table has the
connection no more. -/
structure Reply where
  conn : Connection
  sent : List Segment := []
  removed : Bool := false

/-- What becomes of a connection that ends. -/
def Reply.gone (c : Connection) : Reply := ⟨{ c with state := .closed }, [], true⟩

namespace Connection

/-- The answer of the peer to an opening. -/
def processSynSent (c : Connection) (seg : Segment) : Reply :=
  if seg.flags.rst then Reply.gone c
  else if seg.flags.syn && seg.flags.ack then
    if seg.acknowledgmentNumber ≠ c.initialSeq + 1 then { conn := c }
    else
      let c := { c with
        peerInitialSeq := seg.sequenceNumber
        recvNext := seg.sequenceNumber + 1
        sendUnacked := c.initialSeq + 1
        peerMss := seg.options.mss
        peerWindowScale := seg.options.windowScale
        peerSackOk := seg.options.sackPermitted
        peerTimestamps := c.peerTimestamps || seg.options.timestamp.isSome
        peerTsVal := (seg.options.timestamp.map Prod.fst).getD c.peerTsVal
        retransmit := { c.retransmit with pendingSegments := [], count := 0 } }.stamped
      { conn := { c with state := .established }
        sent := [c.segment ackOnly c.timestampedOptions []] }
  else { conn := c }

/-- The connection that its peer has acknowledged. -/
def opened (c : Connection) : Connection :=
  { c with
    sendUnacked := c.initialSeq + 1
    retransmit := { c.retransmit with pendingSegments := [], count := 0 }
    state := .established }

variable (listenerHasRoom : Option Bool)

/-- The acknowledgement of an opening by the peer. The listener, if there is one, may have no room
for the connection. -/
def processSynReceived (c : Connection) (seg : Segment) : Reply :=
  if seg.flags.rst then Reply.gone c
  else if seg.flags.ack then
    if seg.acknowledgmentNumber ≠ c.initialSeq + 1 then { conn := c }
    else if listenerHasRoom = some false then
      let reset : Segment :=
        { sequenceNumber := c.initialSeq + 1, acknowledgmentNumber := seg.sequenceNumber,
          flags := rstAck, windowSize := 0, options := {}, payload := [] }
      { Reply.gone c with sent := [reset] }
    else { conn := c.opened }
  else { conn := c }

variable (tick : ℕ) (c : Connection)

section

variable (seg : Segment)

/-- `FinWait1`: our FIN is out and not yet acknowledged. -/
def processFinWait1 : Reply :=
  if seg.flags.rst then Reply.gone c
  else if seg.flags.ack then
    let c := c.processDataAck seg.acknowledgmentNumber
    if seg.acknowledgmentNumber = c.sendNext then
      if seg.flags.fin then { conn := { c with state := .timeWait, timeWaitStart := tick } }
      else { conn := { c with state := .finWait2 } }
    else if seg.flags.fin then { conn := { c with state := .closing } }
    else { conn := c }
  else if seg.flags.fin then { conn := { c with state := .closing } }
  else { conn := c }

/-- `LastAck`: only the acknowledgement of our FIN is awaited. -/
def processLastAck : Reply :=
  if seg.flags.ack then
    let c := c.processDataAck seg.acknowledgmentNumber
    if seg.acknowledgmentNumber = c.sendNext then Reply.gone c else { conn := c }
  else { conn := c }

/-- `FinWait2`: only the peer's FIN is awaited. -/
def processFinWait2 : Reply :=
  if seg.flags.rst then Reply.gone c
  else if seg.flags.fin then
    let c := { c with
      recvNext := c.recvNext + 1, state := .timeWait, timeWaitStart := tick }.stamped
    { conn := c, sent := [c.segment ackOnly c.timestampedOptions []] }
  else { conn := c }

/-- `Closing`: both FINs are out. -/
def processClosing : Reply :=
  if seg.flags.rst then Reply.gone c
  else if seg.flags.ack then
    let c := c.processDataAck seg.acknowledgmentNumber
    if seg.acknowledgmentNumber = c.sendNext then
      { conn := { c with state := .timeWait, timeWaitStart := tick } }
    else { conn := c }
  else { conn := c }

end

/-- A segment comes in for a connection. -/
def processSegment (tick : ℕ) (c : Connection) (seg : Segment) : Reply :=
  match c.state with
  | .synSent => c.processSynSent seg
  | .synReceived => c.processSynReceived listenerHasRoom seg
  | .established | .closeWait =>
    if seg.flags.rst then Reply.gone c
    else { conn := (c.processOpen tick seg).1, sent := (c.processOpen tick seg).2 }
  | .finWait1 => c.processFinWait1 tick seg
  | .lastAck => c.processLastAck seg
  | .finWait2 => c.processFinWait2 tick seg
  | .closing => c.processClosing tick seg
  | .timeWait =>
    if c.timeWaitStart + timeWaitTicks ≤ tick then Reply.gone c else { conn := c }
  | .closed | .listen => { conn := c, removed := true }

/-- Write to a connection and send what may leave: how many bytes were accepted. -/
def writeThrough (data : List UInt8) : Except Error (ℕ × Reply) :=
  if c.state ≠ .established then .error .connectionReset
  else
    let flushed := (c.write data).2.tryFlushTcpOutput tick
    .ok ((c.write data).1, { conn := flushed.1, sent := flushed.2 })

/-- Send the oldest segment again if its time is over. -/
def retransmitCheck : Outcome Error Unit × Reply :=
  match c.state with
  | .timeWait =>
    if c.timeWaitStart + timeWaitTicks ≤ tick then (.ok (), Reply.gone c)
    else (.ok (), { conn := c })
  | .closed => (.ok (), { conn := c, removed := true })
  | _ =>
    match c.retransmit.pendingSegments with
    | [] => (.ok (), { conn := c })
    | (_, seg) :: _ =>
      let timeout := rtoBaseTicks * 2 ^ min c.retransmit.count maxBackoffMultiplier
      if c.retransmit.startedAt + timeout ≤ tick then
        if maxRetries ≤ c.retransmit.count then
          let c := { c with retransmit := { c.retransmit with pendingSegments := [] } }
          (.err .timedOut, Reply.gone c)
        else
          let retransmit := { c.retransmit with
            count := c.retransmit.count + 1, startedAt := tick }
          (.ok (), { conn := { c with retransmit := retransmit }, sent := [seg] })
      else (.ok (), { conn := c })

/-- Send the end of the stream and wait for its acknowledgement in a state. -/
def sendFin (state : TcpState) : Reply :=
  let fin := c.stamped.segment finAck c.stamped.timestampedOptions []
  let next := c.sendNext + 1
  { conn := { c.stamped with
      sendNext := next
      state := state
      retransmit := ⟨tick, 0, c.retransmit.pendingSegments ++ [(next, fin)]⟩ }
    sent := [fin] }

/-- `close`: a FIN in the two states that may send one. -/
def close : Except Error Reply :=
  match c.state with
  | .established => .ok (c.sendFin tick .finWait1)
  | .closeWait => .ok (c.sendFin tick .lastAck)
  | _ => .error .notFound

end Connection

end Protofire.Network.Tcp
