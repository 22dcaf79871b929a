import Protofire.SimpleFs.Operations

/-!
# Mounting

`open_with_runtime_policy` (`fs/simplefs/superblock.rs`) and what it loads
(`fs/simplefs/format_io.rs`): of the superblocks that parse, the one of the highest
generation whose tables can be read and are accepted; then the indices and the free extents
are built from the tables.

A mount hands its reads to the device's queue where there is one; here each is one read.
The mount policy accepts every format (`supports_runtime_mount`), so it is left out.
-/

namespace Protofire.SimpleFs

open Device Eff

/-! ### Loading -/

/-- `readable_superblock_candidates`: the primary one first. -/
def readableSuperblockCandidates : Eff Error Device (List (Name × ParsedSuperblock)) := do
  let primary ← attempt (readBlocks primarySuperblockBlock 1)
  let secondary ← attempt (readBlocks secondarySuperblockBlock 1)
  pure ([primary, secondary].filterMap fun read =>
    match read with
    | .error _ => none
    | .ok blocks => (parseSuperblock (bytesOf blocks)).toOption)

variable (same : Name → Name → Bool) (p : ParsedSuperblock)

/-- `load_runtime_state_from_superblock`. -/
def loadRuntimeStateFromSuperblock : Eff Error Device Tables := do
  let r := p.record
  failIf (inodeCapacityOf r.inodeTableBlocks < r.inodeCount ||
    direntCapacityOf r.direntTableBlocks < r.direntCount) .invalidArgument
  let inodeBlocks ← readBlocks r.activeInodeTableBlock (blocksFor (r.inodeCount * inodeSize))
  let direntBlocks ← readBlocks r.activeDirentTableBlock
    (blocksFor (r.direntCount * direntSize))
  let inodes ← ofExcept (decodeInodes p.formatVersion (bytesOf inodeBlocks) r.inodeCount)
  let dirEntries ← ofExcept (decodeDirEntries (bytesOf direntBlocks) r.direntCount)
  let d ← Eff.get
  ofExcept (validateLoadedMetadata same { inodes, dirEntries } r.dataBlockStart d.blockCount)
  pure { inodes, dirEntries }

/-- The loop of `load_current_runtime_state`, with whether a candidate was refused as
unsupported. -/
def loadFirst (same : Name → Name → Bool) :
    List (Name × ParsedSuperblock) → Bool → Eff Error Device (Name × ParsedSuperblock × Tables)
  | [], sawUnsupported => Eff.throw (if sawUnsupported then .unsupported else .invalidArgument)
  | (label, p) :: rest, sawUnsupported => do
    match ← attempt (loadRuntimeStateFromSuperblock same p) with
    | .ok tables => pure (label, p, tables)
    | .error e => loadFirst same rest (sawUnsupported || e == .unsupported)

/-- `load_current_runtime_state`: the candidates in the order of their generations, highest
first, and the primary one first where they are equal. -/
def loadCurrentRuntimeState : Eff Error Device (Name × ParsedSuperblock × Tables) := do
  let candidates ← readableSuperblockCandidates
  loadFirst same (candidates.insertionSort fun a b =>
    b.2.record.generation ≤ a.2.record.generation) false

/-! ### The state of a mounted volume -/

/-- Enter the children of a directory into `parent_of` and `inode_to_entry_index`. -/
def indexDirectory (dirEntries : List DirEntry) (acc : List (Option ℕ) × List (Option ℕ))
    (dir : Inode × ℕ) : List (Option ℕ) × List (Option ℕ) :=
  if dir.1.liveDir then
    match slice dirEntries dir.1.start dir.1.stop with
    | none => acc
    | some entries => entries.zipIdx.foldl (fun acc e =>
        (acc.1.set e.1.child (some dir.2), acc.2.set e.1.child (some (dir.1.start + e.2)))) acc
  else acc

/-- The indices `open_with_runtime_policy` builds. -/
def indices (t : Tables) : List (Option ℕ) × List (Option ℕ) :=
  t.inodes.zipIdx.foldl (indexDirectory t.dirEntries)
    (List.replicate t.inodes.length none, List.replicate t.inodes.length none)

/-- The slots a mount finds free: removed inodes, but not the root's. -/
def freeSlots (inodes : List Inode) : List ℕ :=
  ((inodes.zipIdx.drop 1).filter fun x => x.1.deleted).map Prod.snd

/-- The state `open_with_runtime_policy` builds, before the free extents and the list of the
directories. -/
def loadedState (r : SuperblockRecord) (t : Tables) (xattrs : List XattrRecord) : State where
  inodes := t.inodes
  dirEntries := t.dirEntries
  activeInodeTableBlock := r.activeInodeTableBlock
  activeDirentTableBlock := r.activeDirentTableBlock
  shadowInodeTableBlock := r.shadowInodeTableBlock
  shadowDirentTableBlock := r.shadowDirentTableBlock
  generation := r.generation
  needsShadowSync := true
  freeInodeSlots := freeSlots t.inodes
  parentOf := (indices t).1
  inodeToEntryIndex := (indices t).2
  freeDataExtents := SortedMap.empty
  dirInodeIndices := []
  undo := {}
  xattrs
  activeXattrTableBlock := r.activeXattrTableBlock
  shadowXattrTableBlock := r.shadowXattrTableBlock
  dedupRefcounts := []
  dedupHashToExtents := []
  openHandles := fun _ => 0

namespace Fs

/-- The state a mount leaves. -/
def mountedState (fs : Fs) (r : SuperblockRecord) (t : Tables) (xattrs : List XattrRecord) :
    State :=
  (fs.rebuildFreeDataExtents (loadedState r t xattrs)).rebuildDirInodeIndices

variable (caseSensitive : Bool) (simpleFolds : Char → Option Char)

/-- The constants of a mounted volume. -/
def ofSuperblock (stackDepth : ℕ) (device : Device) (label : Name) (p : ParsedSuperblock) : Fs where
  label
  formatVersion := p.formatVersion
  caseSensitive
  simpleFolds
  inodeTableBlocks := p.record.inodeTableBlocks
  direntTableBlocks := p.record.direntTableBlocks
  dataBlockStart := p.record.dataBlockStart
  inodeCapacity := inodeCapacityOf p.record.inodeTableBlocks
  direntCapacity := direntCapacityOf p.record.direntTableBlocks
  xattrTableBlocks := p.record.xattrTableBlocks
  xattrCapacity := xattrCapacityOf p.record.xattrTableBlocks
  blockCount := device.blockCount
  readOnly := device.readOnly
  stackDepth

/-- The depth of the read-ahead of the cache a mount makes. -/
abbrev mountReadAhead : ℕ := 4

/-- `read_xattr_records` of the active table, in formats that have one. -/
def loadXattrs : Eff Error Device (List XattrRecord) := do
  if p.formatVersion.supportsPersistentXattrs then do
    let capacity := xattrCapacityOf p.record.xattrTableBlocks
    let blocks ← readBlocks p.record.activeXattrTableBlock
      (blocksFor (capacity * xattrRecordSize))
    pure (readXattrRecords (bytesOf blocks) capacity)
  else pure []

/-- `open_with_runtime_policy`. -/
def openVolume (stackDepth : ℕ) : Eff Error Device (Fs × Volume) := do
  let (label, p, tables) ← loadCurrentRuntimeState (namesMatch simpleFolds caseSensitive)
  let xattrs ← loadXattrs p
  let device ← Eff.get
  let fs := ofSuperblock caseSensitive simpleFolds stackDepth device label p
  pure (fs, { state := fs.mountedState p.record tables xattrs
              io := CacheIo.fresh device mountReadAhead })

end Fs

end Protofire.SimpleFs
