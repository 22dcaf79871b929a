import Protofire.SimpleFs.Directory
import Protofire.SimpleFs.Format

/-!
# The commit of metadata

`commit_metadata_update` (`fs/simplefs/file_io.rs`) runs a change of the state, validates the
state it leaves, and writes the tables and the superblocks
(`flush_metadata`, `fs/simplefs/extent_repair.rs`); whatever fails, the state is rolled back.

The tables are written to the slot the superblocks do not point to. Formats from V3 on first
mark both superblocks with the generation that is to come; then the tables go to the shadow
slot, block by block where the slot's content is known and as a whole where it is not; then
both superblocks are written with the two slots exchanged. Each superblock and each run of
blocks is one request to the device, and each may fail or be the last one before the machine
stops.
-/

namespace Protofire

open CacheM Eff

namespace CacheM

/-- `device_health() == Failed` is an error. -/
def checkHealth : CacheM Unit := do
  let w ← Eff.get
  failIf ((w.device.answers w.device.now).health == .failed) .deviceError

/-- `cached_read_blocks`, for `n` blocks. -/
def readBlocksFrom : ℕ → ℕ → CacheM (List Block)
  | _, 0 => pure []
  | lba, n + 1 => do
    let block ← readCached lba
    let rest ← readBlocksFrom (lba + 1) n
    pure (block :: rest)

/-- `cached_read_blocks`. -/
def cachedReadBlocks (lba n : ℕ) : CacheM (List Block) := do
  checkHealth
  readBlocksFrom lba n

/-- `write_blocks_cached`. -/
def writeBlocksCached (lba : ℕ) (data : List Block) : CacheM Unit := do
  checkHealth
  onDevice (Device.writeBlocks .direct lba data)
  insertRun lba data

/-- Write a run of an image, if there is one. -/
def writeRun (base : ℕ) (image : List Block) (run : Option ℕ) (stop : ℕ) : CacheM Unit :=
  match run with
  | none => pure ()
  | some start => writeBlocksCached (base + start) ((image.take stop).drop start)

/-- The loop of `write_shadow_table`, from a block on, with the start of the run of differing
blocks it is in. -/
def writeDiffering (base : ℕ) (image : List Block) :
    List Block → ℕ → Option ℕ → CacheM Unit
  | [], index, run => writeRun base image run index
  | block :: rest, index, run => do
    let w ← Eff.get
    let onDisk ← match w.cache.cached (base + index) with
      | some cached => pure cached
      | none => readCached (base + index)
    if onDisk = block then do
      writeRun base image run index
      writeDiffering base image rest (index + 1) none
    else writeDiffering base image rest (index + 1) (some (run.getD index))

/-- `write_shadow_table`. -/
def writeShadowTable (base : ℕ) (image : List Block) (full : Bool) : CacheM Unit := do
  checkHealth
  if full then writeBlocksCached base image else writeDiffering base image image 0 none

end CacheM

namespace SimpleFs

/-- `RuntimeMetadataImage`. -/
structure RuntimeMetadataImage where
  inodeTable : List Block
  direntTable : List Block
  xattrTable : List Block

namespace FsM

/-- Change the state. -/
def modifyState (f : State → State) : FsM Unit := onState (Eff.modify f)

/-- Roll the state back and answer an error. -/
def rollback {α : Type} (e : Error) : FsM α := do
  modifyState State.rollbackUndo
  Eff.throw e

end FsM

/-- `generation.checked_add(1)`. -/
def checkedSucc (generation : UInt32) : Option UInt32 :=
  if generation.toNat + 1 < 2 ^ 32 then some (generation + 1) else none

namespace Fs

variable (fs : Fs)

open FsM

variable (s : State)

/-- `runtime_superblock_record`. -/
def runtimeSuperblockRecord : SuperblockRecord where
  inodeCount := s.inodes.length
  direntCount := s.dirEntries.length
  activeInodeTableBlock := s.activeInodeTableBlock
  activeDirentTableBlock := s.activeDirentTableBlock
  shadowInodeTableBlock := s.shadowInodeTableBlock
  shadowDirentTableBlock := s.shadowDirentTableBlock
  inodeTableBlocks := fs.inodeTableBlocks
  direntTableBlocks := fs.direntTableBlocks
  dataBlockStart := fs.dataBlockStart
  generation := s.generation
  pendingCommit := 0
  activeXattrTableBlock := s.activeXattrTableBlock
  shadowXattrTableBlock := s.shadowXattrTableBlock
  xattrTableBlocks := fs.xattrTableBlocks
  xattrCount := s.xattrs.length

variable (nextGeneration : UInt32)

/-- The record of phase 1: the tables are still the active ones, so the counts are those of
the start of the commit. -/
def pendingRecord : SuperblockRecord :=
  { fs.runtimeSuperblockRecord s with
    pendingCommit := nextGeneration
    inodeCount := s.undo.oldInodeCount.getD s.inodes.length
    direntCount := s.undo.oldDirentCount.getD s.dirEntries.length
    xattrCount := s.undo.oldXattrCount.getD s.xattrs.length }

/-- The record of phase 3: the slots are exchanged. -/
def publishRecord : SuperblockRecord :=
  { fs.runtimeSuperblockRecord s with
    activeInodeTableBlock := s.shadowInodeTableBlock
    activeDirentTableBlock := s.shadowDirentTableBlock
    shadowInodeTableBlock := s.activeInodeTableBlock
    shadowDirentTableBlock := s.activeDirentTableBlock
    generation := nextGeneration
    pendingCommit := 0
    activeXattrTableBlock := s.shadowXattrTableBlock
    shadowXattrTableBlock := s.activeXattrTableBlock }

/-- The tables fit the images `runtime_metadata_image` writes them to; the code panics where
they do not. -/
def imageFits : Bool :=
  s.inodes.length * inodeSize ≤ fs.inodeTableBlocks * blockSize &&
    s.dirEntries.length * direntSize ≤ fs.direntTableBlocks * blockSize &&
    (!fs.formatVersion.supportsPersistentXattrs ||
      s.xattrs.length * xattrRecordSize ≤ fs.xattrTableBlocks * blockSize)

/-- `runtime_metadata_image`. -/
def runtimeMetadataImage : RuntimeMetadataImage where
  inodeTable :=
    blocksOf (tableBytes inodeSize (encodeInode fs.formatVersion) s.inodes) fs.inodeTableBlocks
  direntTable := blocksOf (tableBytes direntSize encodeDirEntry s.dirEntries) fs.direntTableBlocks
  xattrTable :=
    if fs.formatVersion.supportsPersistentXattrs then
      blocksOf (tableBytes xattrRecordSize encodeXattr s.xattrs) fs.xattrTableBlocks
    else []

variable (r : SuperblockRecord)

/-- A superblock as a block. -/
def superblock : Block :=
  blockOf (writeSuperblock fs.label fs.formatVersion r) 0

/-- Write a record to both superblocks, the second one first. -/
def writeMirrors : CacheM Unit := do
  writeBlocksCached secondarySuperblockBlock [fs.superblock r]
  writeBlocksCached primarySuperblockBlock [fs.superblock r]

/-- The writes of `flush_metadata_inner`: phase 1 from V3 on, phase 2, phase 3. -/
def writeMetadata : CacheM Unit := do
  let image := fs.runtimeMetadataImage s
  when fs.formatVersion.persistsSecurity (fs.writeMirrors (fs.pendingRecord s nextGeneration))
  writeShadowTable s.shadowInodeTableBlock image.inodeTable s.needsShadowSync
  writeShadowTable s.shadowDirentTableBlock image.direntTable s.needsShadowSync
  when fs.formatVersion.supportsPersistentXattrs
    (writeShadowTable s.shadowXattrTableBlock image.xattrTable s.needsShadowSync)
  fs.writeMirrors (fs.publishRecord s nextGeneration)

end Fs

/-- The state after its metadata was published. -/
def State.published (s : State) (nextGeneration : UInt32) : State :=
  { s with
    activeInodeTableBlock := s.shadowInodeTableBlock
    shadowInodeTableBlock := s.activeInodeTableBlock
    activeDirentTableBlock := s.shadowDirentTableBlock
    shadowDirentTableBlock := s.activeDirentTableBlock
    activeXattrTableBlock := s.shadowXattrTableBlock
    shadowXattrTableBlock := s.activeXattrTableBlock
    generation := nextGeneration
    needsShadowSync := false }

namespace Fs

variable (fs : Fs)

open FsM

/-- `flush_metadata_inner`. -/
def flushMetadataInner : FsM Unit := do
  let v ← Eff.get
  assert (fs.imageFits v.state)
  let nextGeneration ← ofOption .invalidArgument (checkedSucc v.state.generation)
  onIo (fs.writeMetadata v.state nextGeneration)
  modifyState fun s => s.published nextGeneration

/-- `flush_metadata`. -/
def flushMetadata : FsM Unit := do
  match ← attempt fs.flushMetadataInner with
  | .ok () => pure ()
  | .error e => do
    modifyState fun s => { s with needsShadowSync := true }
    Eff.throw e

/-- `validate_runtime_state`. -/
def validateRuntimeState (s : State) : Except Error Unit := do
  Fallible.failIf (fs.inodeCapacity < s.inodes.length ∨ fs.direntCapacity < s.dirEntries.length)
    .internalError
  (validateSuperblockRecord (fs.runtimeSuperblockRecord s)).mapError fun _ => .internalError
  (validateLoadedMetadata fs.same s.tables fs.dataBlockStart fs.blockCount).mapError
    fun _ => .internalError

/-- The end of a commit, from the state a closure left: validate, write, and keep or roll
back. -/
def finishCommit {α : Type} (result : α) : FsM α := do
  let v ← Eff.get
  match fs.validateRuntimeState v.state with
  | .error e => rollback e
  | .ok () => do
    match ← attempt fs.flushMetadata with
    | .error e => rollback e
    | .ok () => do
      modifyState State.commitUndo
      pure result

/-- `commit_metadata_update`. -/
def commitMetadataUpdate {α : Type} (mutate : FsM α) : FsM α := do
  modifyState State.beginUndo
  match ← attempt mutate with
  | .error e => rollback e
  | .ok result => fs.finishCommit result

end Fs

end SimpleFs

end Protofire
