import Protofire.Lib.Effect

/-!
# The block device

A `BlockDevice` (`kernel/block.rs`) is an array of blocks behind an interface that
may fail. A driver is not part of this development, so what it answers is data: a
device carries a stream `Device.answers` of the answers it will give, one per
request, and every statement about the code above quantifies over that stream.

The answers say more than success and failure, because the layers above depend on
the difference:

* a single block is written atomically – its old or its new content survives –
  while a request that covers several blocks and is not completed may leave **any
  subset** of them written;
* a failed request comes back with an error and the kernel goes on; when the machine
  *stops*, the request does not come back at all, and the device is what the next
  boot finds;
* a queued write (`submit_write`) may reach the medium any time between its
  submission and the poll that reports it.

The device also keeps a record of the write requests it was handed, with what they
were made for (`WriteOrigin`) and whether they succeeded. No function of the source
reads it; the durability statements do.
-/

namespace Protofire

/-- The errors of the kernel (`crate::Error`). -/
inductive Error where
  | invalidArgument | notFound | alreadyExists | permissionDenied | outOfMemory
  | deviceError | busy | timedOut | unsupported | notImplemented | internalError
  | invalidCredential | connectionReset | noSpace
  deriving DecidableEq, Repr

/-- `BLOCK_SIZE`: the bytes of a block. -/
abbrev blockSize : ℕ := 512

/-- The content of a block. -/
abbrev Block : Type := Fin blockSize → UInt8

/-- The block of zeros. -/
def zeroBlock : Block := fun _ => 0

/-- What a write request is made for. The device does not see it: it labels the
entries of its record. -/
inductive WriteOrigin where
  /-- A write that goes straight to the device. -/
  | direct
  /-- The write-back of a dirty block that leaves the cache. -/
  | eviction
  /-- A write queued by a flush. -/
  | queued
  deriving DecidableEq, Repr

/-- One entry of the device's record: a block handed to it, and whether the request
was answered with success. -/
structure WriteRecord where
  origin : WriteOrigin
  lba : ℕ
  data : Block
  succeeded : Bool

/-- What becomes of a write request. `lands i` says whether the `i`-th block of a
request that is not completed reaches the medium. -/
inductive WriteFate where
  /-- Every block is written, and the request answers success. -/
  | completes
  /-- The request answers an error. -/
  | fails (e : Error) (lands : ℕ → Bool)
  /-- The machine stops during the request. -/
  | stops (lands : ℕ → Bool)

/-- What becomes of the submission of a write to the device's queue. -/
inductive SubmitFate where
  /-- The device writes the block before the submission returns. -/
  | inPlace
  /-- The device takes the request; `lands` says whether the block reaches the
  medium before its completion is reported. -/
  | queues (lands : Bool)
  /-- The device refuses. -/
  | refuses (e : Error) (lands : Bool)

/-- What a poll of a queued write answers. -/
inductive PollFate where
  /-- Not completed yet. -/
  | pending
  /-- Completed: the block is on the medium. -/
  | done
  /-- Completed with an error. -/
  | failed (e : Error) (lands : Bool)

/-- `DeviceHealth`. -/
inductive DeviceHealth where
  | healthy | degraded | failed
  deriving DecidableEq, Repr

/-- The answers a device has ready for its next request, whichever it is. -/
structure Answer where
  read : Option Error
  write : WriteFate
  submit : SubmitFate
  poll : PollFate
  health : DeviceHealth

/-- The answer of a device that completes everything in place. -/
def Answer.success : Answer :=
  { read := none, write := .completes, submit := .inPlace, poll := .done, health := .healthy }

/-- A write the device has accepted and not yet reported. -/
structure InFlightWrite where
  id : ℕ
  lba : ℕ
  data : Block

/-- A block device: its blocks, the answers it will give, and what it holds. -/
structure Device where
  /-- `block_count()`. -/
  blockCount : ℕ
  /-- `is_read_only()`. -/
  readOnly : Bool
  /-- `queue_depth()`. -/
  queueDepth : ℕ
  /-- The content of the medium. -/
  blocks : ℕ → Block
  /-- The answer to each request, by the request's number. -/
  answers : ℕ → Answer
  /-- The number of the next request. -/
  now : ℕ
  /-- The queued writes that were not reported yet. -/
  inFlight : List InFlightWrite
  /-- The record of the write requests, oldest first. -/
  log : List WriteRecord
  /-- A block count is a 64-bit number, so that `u64::MAX` numbers no block. -/
  blockCount_le : blockCount ≤ 2 ^ 64 - 1

/-- `Ticket`: a request finished in place (`Ticket::DONE`), or the device's own name
of a queued one. -/
inductive Ticket where
  | done
  | queued (id : ℕ)
  deriving DecidableEq, Repr

/-- `RequestState`. -/
inductive RequestState where
  | pending
  | done (result : Except Error Unit)

namespace Device

/-! ### The medium -/

variable (blocks : ℕ → Block)

/-- The medium after the blocks `data`, from `lba` on, were written, as far as
`lands` says. -/
def store (lba : ℕ) (data : List Block) (lands : ℕ → Bool) : ℕ → Block :=
  fun b => if lba ≤ b ∧ lands (b - lba) then (data[b - lba]?).getD (blocks b) else blocks b

variable (origin : WriteOrigin) (lba : ℕ) (data : List Block)

/-- The record entries of a request. -/
def records (ok : Bool) : List WriteRecord :=
  data.mapIdx fun i b => { origin, lba := lba + i, data := b, succeeded := ok }

/-- The record entries of a write, by how it ended. -/
def recordsOf : Outcome Error Unit → List WriteRecord
  | .ok _ => records origin lba data true
  | .err _ => records origin lba data false
  | .halt => []

/-! ### The requests -/

/-- `read_blocks`, for `n` blocks: the range is checked, then the device answers. -/
def readBlocks (lba n : ℕ) : Eff Error Device (List Block) := fun d =>
  if lba + n > d.blockCount then (.err .invalidArgument, d)
  else match (d.answers d.now).read with
    | some e => (.err e, { d with now := d.now + 1 })
    | none => (.ok ((List.range n).map fun i => d.blocks (lba + i)), { d with now := d.now + 1 })

/-- `write_blocks`: a read-only device and a range beyond the device are refused
before anything is written. -/
def writeBlocks : Eff Error Device Unit :=
  fun d =>
    let refused := { d with log := d.log ++ records origin lba data false }
    if d.readOnly then (.err .permissionDenied, refused)
    else if lba + data.length > d.blockCount then (.err .invalidArgument, refused)
    else match (d.answers d.now).write with
      | .completes =>
        (.ok (), { d with
          blocks := store d.blocks lba data fun _ => true
          now := d.now + 1
          log := d.log ++ records origin lba data true })
      | .fails e lands =>
        (.err e, { d with
          blocks := store d.blocks lba data lands
          now := d.now + 1
          log := d.log ++ records origin lba data false })
      | .stops lands =>
        (.halt, { d with
          blocks := store d.blocks lba data lands
          now := d.now + 1 })

/-- `submit_write` of one block. -/
def submitWrite (data : Block) : Eff Error Device Ticket := fun d =>
  let refused := { d with log := d.log ++ records .queued lba [data] false }
  if d.readOnly then (.err .permissionDenied, refused)
  else if lba + 1 > d.blockCount then (.err .invalidArgument, refused)
  else match (d.answers d.now).submit with
    | .inPlace =>
      (.ok .done, { d with
        blocks := store d.blocks lba [data] fun _ => true
        now := d.now + 1
        log := d.log ++ records .queued lba [data] true })
    | .queues lands =>
      (.ok (.queued d.now), { d with
        blocks := store d.blocks lba [data] fun _ => lands
        now := d.now + 1
        inFlight := { id := d.now, lba, data } :: d.inFlight })
    | .refuses e lands =>
      (.err e, { d with
        blocks := store d.blocks lba [data] fun _ => lands
        now := d.now + 1
        log := d.log ++ records .queued lba [data] false })

/-- `poll`: a request finished in place is done; a ticket the device does not know
answers an error rather than waiting for ever. -/
def poll (ticket : Ticket) : Eff Error Device RequestState := fun d =>
  match ticket with
  | .done => (.ok (.done (.ok ())), d)
  | .queued id =>
    match d.inFlight.find? fun w => w.id == id with
    | none => (.ok (.done (.error .invalidArgument)), d)
    | some w =>
      let rest := d.inFlight.filter fun w => w.id != id
      match (d.answers d.now).poll with
      | .pending => (.ok .pending, { d with now := d.now + 1 })
      | .done =>
        (.ok (.done (.ok ())), { d with
          blocks := store d.blocks w.lba [w.data] fun _ => true
          now := d.now + 1
          inFlight := rest
          log := d.log ++ records .queued w.lba [w.data] true })
      | .failed e lands =>
        (.ok (.done (.error e)), { d with
          blocks := store d.blocks w.lba [w.data] fun _ => lands
          now := d.now + 1
          inFlight := rest
          log := d.log ++ records .queued w.lba [w.data] false })

/-- What no request changes: the device's shape, and the answers it will give. -/
structure Kept (d d' : Device) : Prop where
  blockCount_eq : d'.blockCount = d.blockCount
  readOnly_eq : d'.readOnly = d.readOnly
  queueDepth_eq : d'.queueDepth = d.queueDepth
  answers_eq : d'.answers = d.answers

theorem Kept.refl (d : Device) : Kept d d := ⟨rfl, rfl, rfl, rfl⟩

theorem Kept.trans {d d' d'' : Device} (h : Kept d d') (h' : Kept d' d'') : Kept d d'' :=
  ⟨h'.blockCount_eq.trans h.blockCount_eq, h'.readOnly_eq.trans h.readOnly_eq,
    h'.queueDepth_eq.trans h.queueDepth_eq, h'.answers_eq.trans h.answers_eq⟩

/-- A request about one block has changed the device: the block may have reached the
medium, and the record has grown. -/
structure Wrote (d : Device) (lba : ℕ) (data : Block) (lands : Bool) (records : List WriteRecord)
    (d' : Device) : Prop extends Kept d d' where
  blocks_eq : d'.blocks = store d.blocks lba [data] fun _ => lands
  log_eq : d'.log = d.log ++ records

/-! ### What a request does to the medium -/

@[simp] theorem store_one_same (b : Block) (lands : ℕ → Bool) :
    store blocks lba [b] lands lba = if lands 0 then b else blocks lba := by
  simp [store]

@[simp] theorem store_none : store blocks lba data (fun _ => false) = blocks := by
  funext b
  simp [store]

theorem store_one_of_ne {lba c : ℕ} (b : Block) (lands : ℕ → Bool)
    (h : c ≠ lba) : store blocks lba [b] lands c = blocks c := by
  have hno : lba ≤ c → [b][c - lba]? = none := fun hle => by
    simp only [List.getElem?_eq_none_iff, List.length_singleton]
    omega
  by_cases hle : lba ≤ c
  · simp [store, hno hle]
  · simp [store, hle]

@[simp] theorem records_one (b : Block) (ok : Bool) :
    records origin lba [b] ok = [{ origin, lba, data := b, succeeded := ok }] := by
  simp [records]

/-- What a write leaves: as much of it as reached the medium, and a record of its blocks
unless the machine stopped. -/
theorem writeBlocks_run {origin : WriteOrigin} {lba : ℕ} {data : List Block} {d d' : Device}
    {o : Outcome Error Unit} (h : writeBlocks origin lba data d = (o, d')) :
    Kept d d' ∧ (∃ lands, d'.blocks = store d.blocks lba data lands ∧
      (o = .ok () → lba + data.length ≤ d.blockCount ∧ lands = fun _ => true) ∧
      (d.blockCount < lba + data.length → lands = fun _ => false)) ∧
      d'.log = d.log ++ recordsOf origin lba data o := by
  unfold writeBlocks at h
  split at h
  · cases h
    exact ⟨⟨rfl, rfl, rfl, rfl⟩, ⟨fun _ => false, by simp⟩, rfl⟩
  split at h
  · cases h
    exact ⟨⟨rfl, rfl, rfl, rfl⟩, ⟨fun _ => false, by simp⟩, rfl⟩
  rename_i hle
  have hle' : ¬d.blockCount < lba + data.length := hle
  split at h <;> cases h
  · exact ⟨⟨rfl, rfl, rfl, rfl⟩,
      ⟨fun _ => true, rfl, fun _ => ⟨by omega, rfl⟩, fun hc => absurd hc hle'⟩, rfl⟩
  · rename_i e lands _
    exact ⟨⟨rfl, rfl, rfl, rfl⟩, ⟨lands, rfl, fun hc => (by cases hc), fun hc => absurd hc hle'⟩,
      rfl⟩
  · rename_i lands _
    exact ⟨⟨rfl, rfl, rfl, rfl⟩, ⟨lands, rfl, fun hc => (by cases hc), fun hc => absurd hc hle'⟩,
      (List.append_nil _).symm⟩

end Device

end Protofire
