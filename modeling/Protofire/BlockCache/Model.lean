import Protofire.Kernel.Block

/-!
# The block cache

The fixed-capacity cache between a filesystem and its device (`fs/block_cache.rs`):
reads are served from the cached copy, writes go *through* to the device or stay
*back* in the cache with a dirty flag, and a flush queues the dirty blocks on the
device.

The model keeps the cache's own data – the slots, the generation counter that is
both the recency clock of the eviction and the stamp a flush recognizes its own
content by, the last LBA read – and leaves the statistics counters out, which no
function here reads.

An LBA is a natural number; `emptyLba`, the largest 64-bit number, marks an empty
slot and names no block of any device. The functions here run one after another.
The lock sections they are made of, and what happens when several threads
interleave them, are a different model.
-/

namespace Protofire

open Device Eff

/-! ### The data -/

/-- `u64::MAX`. -/
abbrev u64Max : ℕ := 2 ^ 64 - 1

/-- `EMPTY_LBA`: the LBA of an empty slot. -/
abbrev emptyLba : ℕ := u64Max

/-- `CACHE_CAPACITY`. -/
abbrev cacheCapacity : ℕ := 512

/-- `PREFETCH_RUN_BLOCKS`: the most blocks one read-ahead request covers. -/
abbrev prefetchRunBlocks : ℕ := 4

/-- `FLUSH_POLL_LIMIT`. -/
abbrev flushPollLimit : ℕ := 50000000

/-- `WRITE_BACK_PRESSURE_THRESHOLD`. -/
abbrev writeBackPressureThreshold : ℕ := cacheCapacity / 2

/-- `u64::saturating_add`. -/
def saturatingAdd (a b : ℕ) : ℕ := min (a + b) u64Max

/-- `u64::wrapping_sub`. -/
def wrappingSub (a b : ℕ) : ℕ := (a + 2 ^ 64 - b) % 2 ^ 64

/-- A slot of the cache. -/
structure CacheEntry where
  lba : ℕ
  data : Block
  generation : ℕ
  /-- The block was modified in the cache and not yet written to the device. -/
  dirty : Bool
  /-- The tick at which the block last became dirty. -/
  dirtySince : ℕ

namespace CacheEntry

/-- `CacheEntry::empty`. -/
def empty : CacheEntry :=
  { lba := emptyLba, data := zeroBlock, generation := 0, dirty := false, dirtySince := 0 }

/-- `CacheEntry::is_empty`. -/
def isEmpty (e : CacheEntry) : Bool := e.lba == emptyLba

end CacheEntry

/-- The cache's own state. -/
structure BlockCache where
  entries : List CacheEntry
  generation : ℕ
  lastReadLba : ℕ
  readAheadDepth : ℕ

namespace BlockCache

/-- `BlockCache::with_read_ahead`; `BlockCache::new` is depth zero. -/
def withReadAhead (depth : ℕ) : BlockCache :=
  { entries := List.replicate cacheCapacity CacheEntry.empty, generation := 0
    lastReadLba := u64Max, readAheadDepth := depth }

variable (c : BlockCache) (p : CacheEntry → Bool)

/-- The first slot a predicate accepts. -/
def slot : Option ℕ := c.entries.findIdx? p

/-- The slot of least generation among those a predicate accepts, with what it
holds; of several, the first. -/
def leastRecent : Option (CacheEntry × ℕ) :=
  (c.entries.zipIdx.filter fun x => p x.1).argmin fun x => x.1.generation

/-- `is_cached`. -/
def isCached (lba : ℕ) : Bool := c.entries.any fun e => e.lba == lba

/-- `cached`: the cached copy of a block. -/
def cached (lba : ℕ) : Option Block :=
  (c.entries.find? fun e => e.lba == lba).map fun e => e.data

/-- `dirty_slots`. -/
def dirtySlots : ℕ := (c.entries.filter fun e => e.dirty).length

/-- Put an entry into a slot. -/
def put (i : ℕ) (e : CacheEntry) : BlockCache :=
  { c with entries := c.entries.set i e }

end BlockCache

/-- A cache, its device, and the cache clock `BLOCK_CACHE_TICK`. -/
structure CacheIo where
  device : Device
  cache : BlockCache
  tick : ℕ

/-- A fresh cache on a device. -/
def CacheIo.fresh (device : Device) (depth : ℕ) : CacheIo :=
  { device, cache := BlockCache.withReadAhead depth, tick := 0 }

/-- The computations of the cache. -/
abbrev CacheM (α : Type) : Type := Eff Error CacheIo α

namespace CacheM

/-! ### The parts of the state -/

/-- A request to the device. -/
def onDevice {α : Type} (m : Eff Error Device α) : CacheM α :=
  zoom CacheIo.device (fun w d => { w with device := d }) m

/-- Change the cache's own state. -/
def modifyCache (f : BlockCache → BlockCache) : CacheM Unit :=
  Eff.modify fun w => { w with cache := f w.cache }

/-- Put an entry into a slot. -/
def place (i : ℕ) (e : CacheEntry) : CacheM Unit := modifyCache fun c => c.put i e

/-- Change the first slot a predicate accepts, if there is one. -/
def updateFirst (p : CacheEntry → Bool) (f : CacheEntry → CacheEntry) : CacheM Unit :=
  modifyCache fun c =>
    match c.slot p with
    | none => c
    | some i => { c with entries := c.entries.modify i f }

/-- `next_generation`. -/
def nextGeneration : CacheM ℕ := fun w =>
  (.ok w.cache.generation,
    { w with cache := { w.cache with generation := (w.cache.generation + 1) % 2 ^ 64 } })

/-- `bump_generation_and_update`. -/
def bumpGenerationAndUpdate (lba : ℕ) : CacheM Unit := do
  let generation ← nextGeneration
  updateFirst (fun e => e.lba == lba) fun e => { e with generation }

/-! ### Insertion and eviction -/

/-- The last resort of `insert`: every slot is dirty. The least recent one is emptied,
its content is written to the device – what the device answers is not looked at – and
the entry goes to an empty slot. -/
def evictDirty (entry : CacheEntry) : CacheM Unit := do
  let w ← Eff.get
  match w.cache.leastRecent fun _ => true with
  | none => Eff.halt
  | some (victim, i) => do
    place i CacheEntry.empty
    let _ ← attempt (onDevice (writeBlocks .eviction victim.lba [victim.data]))
    let w ← Eff.get
    match w.cache.slot CacheEntry.isEmpty with
    | none => Eff.halt
    | some j => place j entry

/-- `insert`: in place if the LBA is cached, else into an empty slot, else over the
least recent clean slot, else over the least recent dirty one. -/
def insert (lba : ℕ) (data : Block) (dirty : Bool) : CacheM Unit := do
  let generation ← nextGeneration
  let w ← Eff.get
  let entry : CacheEntry :=
    { lba, data, generation, dirty, dirtySince := if dirty then w.tick else 0 }
  match w.cache.slot fun e => e.lba == lba with
  | some i => place i entry
  | none =>
    match w.cache.slot CacheEntry.isEmpty with
    | some i => place i entry
    | none =>
      match w.cache.leastRecent fun e => !e.dirty with
      | some (_, i) => place i entry
      | none => evictDirty entry

/-- Insert a run of blocks, clean, from an LBA on. -/
def insertRun : ℕ → List Block → CacheM Unit
  | _, [] => pure ()
  | lba, b :: rest => do
    insert lba b false
    insertRun (lba + 1) rest

/-! ### Reads -/

/-- The lookahead of a sequential miss: how many of the next blocks, up to the depth,
are not cached. -/
def lookahead (c : BlockCache) (lba : ℕ) : ℕ :=
  ((List.range (min c.readAheadDepth prefetchRunBlocks)).takeWhile fun k =>
    !c.isCached (lba + k + 1)).length

/-- The miss path of `read_cached`: one request covers the block and its lookahead. -/
def readMiss (lba ahead : ℕ) : CacheM Block := do
  let run ← onDevice (readBlocks lba (ahead + 1))
  insertRun lba run
  match run with
  | [] => Eff.halt
  | b :: _ => pure b

section

variable (lba : ℕ)

/-- `read_cached`. -/
def readCached : CacheM Block := do
  let w ← Eff.get
  match w.cache.entries.find? fun e => e.lba == lba with
  | some e => do
    bumpGenerationAndUpdate lba
    modifyCache fun c => { c with lastReadLba := lba }
    pure e.data
  | none => do
    let sequential := w.cache.lastReadLba != u64Max && lba == w.cache.lastReadLba + 1
    modifyCache fun c => { c with lastReadLba := lba }
    readMiss lba (if sequential then lookahead w.cache lba else 0)

/-- The loop of `read_run`: a run longer than a request is split, and a failed read
ends it. The first argument bounds the number of requests. -/
def readChunks : ℕ → ℕ → ℕ → CacheM Unit
  | 0, _, _ => pure ()
  | _ + 1, _, 0 => pure ()
  | fuel + 1, lba, blocks + 1 => do
    let chunk := min (blocks + 1) prefetchRunBlocks
    match ← attempt (onDevice (readBlocks lba chunk)) with
    | .error _ => pure ()
    | .ok run => do
      insertRun lba run
      readChunks fuel (lba + chunk) (blocks + 1 - chunk)

/-- `read_run`. -/
def readRun : Option ℕ → ℕ → CacheM Unit
  | none, _ => pure ()
  | some start, blocks => readChunks blocks start blocks

/-- The loop of `prefetch`, from an offset on, with the run it has collected. -/
def prefetchFrom (startLba : ℕ) : ℕ → ℕ → Option ℕ → ℕ → CacheM Unit
  | 0, _, runStart, runBlocks => readRun runStart runBlocks
  | count + 1, offset, runStart, runBlocks => do
    let w ← Eff.get
    let lba := saturatingAdd startLba offset
    if w.cache.isCached lba then do
      readRun runStart runBlocks
      prefetchFrom startLba count (offset + 1) none 0
    else
      prefetchFrom startLba count (offset + 1) (some (runStart.getD lba)) (runBlocks + 1)

/-- `prefetch`. -/
def prefetch (startLba count : ℕ) : CacheM Unit := prefetchFrom startLba count 0 none 0

variable (data : Block)

/-- `populate_clean`. -/
def populateClean : CacheM Unit := insert lba data false

/-! ### Writes -/

/-- `write_through`. -/
def writeThrough : CacheM Unit := do
  onDevice (writeBlocks .direct lba [data])
  let w ← Eff.get
  if w.cache.isCached lba then do
    updateFirst (fun e => e.lba == lba) fun e => { e with data, dirty := false, dirtySince := 0 }
    bumpGenerationAndUpdate lba
  else pure ()

/-- `write_back`. -/
def writeBack : CacheM Unit := do
  let w ← Eff.get
  if w.cache.isCached lba then do
    updateFirst (fun e => e.lba == lba) fun e =>
      { e with data, dirty := true, dirtySince := w.tick }
    bumpGenerationAndUpdate lba
  else insert lba data true

/-- `invalidate`. -/
def invalidate : CacheM Unit :=
  updateFirst (fun e => e.lba == lba) fun _ => CacheEntry.empty

end

/-- `invalidate_range`. -/
def invalidateRange (startLba count : ℕ) : CacheM Unit :=
  modifyCache fun c => { c with
    entries := c.entries.map fun e =>
      if !e.isEmpty && startLba ≤ e.lba && e.lba < saturatingAdd startLba count
      then CacheEntry.empty else e }

/-! ### The flush -/

/-- `PendingWrite`: a write a flush has handed to the device. -/
structure PendingWrite where
  ticket : Ticket
  lba : ℕ
  generation : ℕ

variable (select : CacheEntry → Bool)

/-- The blocks a flush still has to hand to the device: dirty, selected, and not
handed over by this flush before. -/
def submittable (attempted : List ℕ) (e : CacheEntry) : Bool :=
  e.dirty && select e && !attempted.contains e.lba

/-- `submit_selected`, for the room left in the device's queue. What was handed over
before a refusal stays handed over, so the error is part of the answer. -/
def submitSelected (select : CacheEntry → Bool) :
    ℕ → List PendingWrite → List ℕ → CacheM (Option Error × List PendingWrite × List ℕ)
  | 0, pending, attempted => pure (none, pending, attempted)
  | room + 1, pending, attempted => do
    let w ← Eff.get
    match w.cache.entries.zipIdx.find? fun x => submittable select attempted x.1 with
    | none => pure (none, pending, attempted)
    | some (e, i) => do
      let generation ← nextGeneration
      place i { e with generation }
      match ← attempt (onDevice (submitWrite e.lba e.data)) with
      | .error err => pure (some err, pending, attempted)
      | .ok ticket =>
        submitSelected select room (pending ++ [{ ticket, lba := e.lba, generation }])
          (attempted ++ [e.lba])

/-- `wait_for_write`, for at most so many polls. -/
def waitForWrite (ticket : Ticket) : ℕ → CacheM Unit
  | 0 => Eff.throw .timedOut
  | polls + 1 => do
    match ← onDevice (poll ticket) with
    | .pending => waitForWrite ticket polls
    | .done result => ofExcept result

/-- `retire_write`: clear the dirty flag a completed write was for, and say whether
the write is one to count. -/
def retireWrite (write : PendingWrite) : CacheM Bool := do
  let w ← Eff.get
  match w.cache.entries.zipIdx.find? fun x =>
      x.1.lba == write.lba && x.1.generation == write.generation with
  | none => pure true
  | some (e, i) =>
    if e.dirty then do
      place i { e with dirty := false, dirtySince := 0 }
      pure true
    else pure false

/-- The first half of a round of `flush_selected`: the queue is topped up while nothing
has failed. -/
def topUp (depth : ℕ) (failure : Option Error) (pending : List PendingWrite) (attempted : List ℕ) :
    CacheM (Option Error × List PendingWrite × List ℕ) :=
  match failure with
  | some e => pure (some e, pending, attempted)
  | none => submitSelected select (depth - pending.length) pending attempted

/-- The loop of `flush_selected`: top up the queue, wait for the oldest write, retire it.
The first argument bounds the number of rounds. -/
def flushLoop (select : CacheEntry → Bool) (depth : ℕ) :
    ℕ → List PendingWrite → List ℕ → ℕ → Option Error → CacheM ℕ
  | 0, _, _, _, _ => Eff.halt
  | rounds + 1, pending, attempted, flushed, failure => do
    let top ← topUp select depth failure pending attempted
    match top with
    | (some e, [], _) => Eff.throw e
    | (none, [], _) => pure flushed
    | (failure, write :: rest, attempted) => do
      match ← attempt (waitForWrite write.ticket (flushPollLimit + 1)) with
      | .ok () => do
        let counted ← retireWrite write
        flushLoop select depth rounds rest attempted (flushed + if counted then 1 else 0) failure
      | .error e => flushLoop select depth rounds rest attempted flushed (failure <|> some e)

/-- `flush_selected`. A block is handed over at most once, so the loop makes at most
one round per slot and a last one that finds the queue empty. -/
def flushSelected : CacheM ℕ := do
  let w ← Eff.get
  flushLoop select (max 1 w.device.queueDepth) (w.cache.entries.length + 1) [] [] 0 none

/-- `flush`. -/
def flush : CacheM Unit := do
  let _ ← flushSelected fun _ => true
  pure ()

/-- `flush_aged`. -/
def flushAged (ageTicks : ℕ) : CacheM ℕ := do
  let w ← Eff.get
  flushSelected fun e => ageTicks ≤ wrappingSub w.tick e.dirtySince

/-- `flush_range`. -/
def flushRange (startLba count : ℕ) : CacheM Unit := do
  let _ ← flushSelected fun e => startLba ≤ e.lba && e.lba < saturatingAdd startLba count
  pure ()

/-- `flush_if_under_pressure`. -/
def flushIfUnderPressure : CacheM Unit := do
  let w ← Eff.get
  if writeBackPressureThreshold ≤ w.cache.dirtySlots then do
    let _ ← attempt flush
    pure ()
  else pure ()

/-- `advance_cache_ticks`. -/
def advanceCacheTicks (n : ℕ) : CacheM Unit :=
  Eff.modify fun w => { w with tick := (w.tick + n) % 2 ^ 64 }

end CacheM

end Protofire
