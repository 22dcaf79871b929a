import Protofire.SimpleFs.State

/-!
# Lookups and the primitives of the directory tables

`fs/simplefs/fs.rs`, and what `fs/simplefs/path.rs`, `extent_repair.rs` and `xattr.rs` do to
the state: walking a path, inserting and removing a dirent, taking and giving back an inode
slot, the free extents of the data area, the records of extended attributes.

All directories share one dirent table: each live directory owns a slice of it, and an
insertion or a removal moves the slices behind it. The functions are as the code has them,
with the order of their steps: an error may come after the state was changed, and it is the
caller – a commit – that takes the change back.

Where the code would panic – an index beyond a vector – the computation halts.
-/

namespace Protofire.SimpleFs

open Eff Fallible State XattrRecord

/-! ### Lookups -/

/-- `ResolvedChildEntry`. -/
structure ResolvedChildEntry where
  entryIndex : ℕ
  inodeIndex : ℕ
  inode : Inode
  deriving DecidableEq

variable (s : State)

/-- The closure of `find_map` in `resolve_live_child_dirent_locked`: the name matches and
the node was not removed. -/
def State.liveChild (same : Name → Name → Bool) (segment : Name) (start : ℕ)
    (entry : DirEntry × ℕ) : Option ResolvedChildEntry :=
  if same entry.1.name segment then
    match s.inodes[entry.1.child]? with
    | none => none
    | some inode =>
      if inode.deleted then none
      else some { entryIndex := start + entry.2, inodeIndex := entry.1.child, inode }
  else none

/-- `parent_of.get(i).copied().flatten()`. -/
def State.parent? (i : ℕ) : Option ℕ := s.parentOf[i]?.join

namespace Fs

variable (fs : Fs)

/-- `resolve_live_child_dirent_locked`. -/
def resolveLiveChildDirent (s : State) (parentIndex : ℕ) (segment : Name) :
    Except Error ResolvedChildEntry := do
  let inode ← ofOption .internalError s.inodes[parentIndex]?
  failIf (inode.liveDir = false) .notFound
  let entries ← ofOption .internalError (slice s.dirEntries inode.start inode.stop)
  ofOption .notFound
    (entries.zipIdx.findSome? (s.liveChild fs.same segment inode.start))

/-- `find_child`. -/
def findChild (s : State) (parentIndex : ℕ) (segment : Name) : Except Error ℕ :=
  (fs.resolveLiveChildDirent s parentIndex segment).map ResolvedChildEntry.inodeIndex

/-- The loop of `lookup_index_locked`. -/
def walk (s : State) : ℕ → List Name → Except Error ℕ
  | current, [] => .ok current
  | current, segment :: rest =>
    if segment = [] ∨ segment = ['.'] then walk s current rest
    else if segment = ['.', '.'] then walk s ((s.parent? current).getD 0) rest
    else
      match fs.findChild s current segment with
      | .error e => .error e
      | .ok child => walk s child rest

/-- `lookup_index_locked`. -/
def lookupIndex (s : State) (path : Name) : Except Error ℕ :=
  if path = [] ∨ path = ['/'] then .ok 0
  else fs.walk s 0 ((trimSlashes path).splitOn '/')

end Fs

variable (inode : Inode)

variable (index : ℕ)

/-! ### Dirents -/

/-- What the insertion of a dirent does to the inode of a live directory. -/
def Inode.shiftForInsert (parentIndex insertAt dirIdx : ℕ) (inode : Inode) : Inode :=
  if dirIdx = parentIndex then { inode with entryCount := inode.entryCount + 1 }
  else if insertAt ≤ inode.start then { inode with entryStart := inode.entryStart + 1 }
  else inode

/-- What the removal of a dirent does to the inode of a live directory. -/
def Inode.shiftForRemove (parentIndex entryIndex dirIdx : ℕ) (inode : Inode) : Inode :=
  if dirIdx = parentIndex then
    { inode with entryCount := if inode.entryCount = 0 then 0 else inode.entryCount - 1 }
  else if entryIndex < inode.start then { inode with entryStart := inode.entryStart - 1 }
  else inode

namespace State

/-- Change the inodes of the directories in `dirInodeIndices`, one after another. -/
def mapDirs (f : ℕ → Inode → Inode) : List Inode :=
  s.dirInodeIndices.foldl (fun inodes dirIdx => inodes.modify dirIdx (f dirIdx)) s.inodes

/-- Every directory in `dirInodeIndices` has an inode. -/
def dirsInRange : Bool := s.dirInodeIndices.all fun dirIdx => dirIdx < s.inodes.length

/-- The changes of `insert_dir_entry_locked` once its checks have passed. The position of
the new dirent is stored first, and then every position from `insertAt` on is moved. -/
def insertEntry (parentIndex insertAt : ℕ) (entry : DirEntry) : State :=
  let s := s.saveParentOfForUndo entry.child
  { s with
    dirEntries := s.dirEntries.insertIdx insertAt entry
    parentOf := s.parentOf.set entry.child (some parentIndex)
    inodeToEntryIndex := (s.inodeToEntryIndex.set entry.child (some insertAt)).map
      (Option.map fun pos => if insertAt ≤ pos then pos + 1 else pos)
    inodes := s.mapDirs (Inode.shiftForInsert parentIndex insertAt) }

variable (parentIndex entryIndex : ℕ)

/-- The changes of `remove_dir_entry_locked` once its checks have passed. -/
def removeEntry (removed : DirEntry) : State :=
  let s := s.saveParentOfForUndo removed.child
  { s with
    dirEntries := s.dirEntries.eraseIdx entryIndex
    parentOf := s.parentOf.set removed.child none
    inodeToEntryIndex := (s.inodeToEntryIndex.set removed.child none).map
      (Option.map fun pos => if entryIndex < pos then pos - 1 else pos)
    inodes := s.mapDirs (Inode.shiftForRemove parentIndex entryIndex) }

/-- `remove_dir_entry_locked`. -/
def removeDirEntry : LockedM DirEntry := do
  Eff.modify saveAllDirentsAndDirInodesForUndo
  let s ← Eff.get
  let parent ← ofOption .internalError s.inodes[parentIndex]?
  failIf (!parent.liveDir) .invalidArgument
  failIf (entryIndex < parent.start || parent.stop ≤ entryIndex) .internalError
  match s.dirEntries[entryIndex]? with
  | none => Eff.halt
  | some removed => do
    assert s.dirsInRange
    Eff.modify fun s => s.removeEntry parentIndex entryIndex removed
    pure removed

/-- Take the last free slot for a new inode. -/
def recycleSlot (old inode : Inode) : State :=
  let s := s.saveParentOfForUndo index
  { s with
    dirInodeIndices := if old.liveDir then s.dirInodeIndices.erase index else s.dirInodeIndices
    inodes := s.inodes.set index inode
    parentOf := s.parentOf.set index none
    inodeToEntryIndex := s.inodeToEntryIndex.set index none }

/-- Append a new inode. -/
def pushInode : State :=
  let s := s.saveInodesLenForUndo
  { s with
    inodes := s.inodes ++ [inode]
    parentOf := s.parentOf ++ [none]
    inodeToEntryIndex := s.inodeToEntryIndex ++ [none] }

/-- List a new inode with the directories if it is one. -/
def enlistDir (inode : Inode) : State :=
  if inode.kind = .directory then { s with dirInodeIndices := s.dirInodeIndices ++ [index] } else s

end State

namespace Fs

variable (fs : Fs)

/-- `insert_dir_entry_locked`. -/
def insertDirEntry (parentIndex : ℕ) (entry : DirEntry) : LockedM Unit := do
  Eff.modify saveAllDirentsAndDirInodesForUndo
  let s ← Eff.get
  failIf (fs.direntCapacity ≤ s.dirEntries.length) .outOfMemory
  let parent ← ofOption .internalError s.inodes[parentIndex]?
  failIf (!parent.liveDir) .invalidArgument
  assert (parent.stop ≤ s.dirEntries.length && s.dirsInRange)
  Eff.modify fun s => s.insertEntry parentIndex parent.stop entry

/-- `has_available_inode_slot`. -/
def hasAvailableInodeSlot (s : State) : Bool :=
  !s.freeInodeSlots.isEmpty || s.inodes.length < fs.inodeCapacity

/-- The slot `allocate_inode_slot` puts the inode in. -/
def takeInodeSlot (inode : Inode) : LockedM ℕ := do
  let s ← Eff.get
  match s.freeInodeSlots.getLast? with
  | some index => do
    Eff.modify fun s => { s with freeInodeSlots := s.freeInodeSlots.dropLast }
    Eff.modify fun s => s.saveInodeForUndo index
    let old ← ofOption .internalError s.inodes[index]?
    Eff.modify fun s => s.recycleSlot index old inode
    pure index
  | none => do
    failIf (fs.inodeCapacity ≤ s.inodes.length) .outOfMemory
    Eff.modify fun s => s.pushInode inode
    pure s.inodes.length

/-- `allocate_inode_slot`. -/
def allocateInodeSlot (inode : Inode) : LockedM ℕ := do
  Eff.modify saveFreeSlotsForUndo
  Eff.modify saveDirIndicesForUndo
  let index ← fs.takeInodeSlot inode
  Eff.modify fun s => s.enlistDir index inode
  pure index

end Fs

/-! ### Free extents -/

namespace Fs

variable (fs : Fs)

/-- `mark_extent_free`: the range is cut to the data area. -/
def markExtentFree (s : State) (start count : ℕ) : State :=
  if count = 0 then s
  else
    let s := s.saveFreeExtentsForUndo
    let clampedStart := max start fs.dataBlockStart
    let clampedEnd := min (saturatingAdd start count) fs.blockCount
    if clampedEnd ≤ clampedStart then s
    else { s with
      freeDataExtents := s.freeDataExtents.release clampedStart (clampedEnd - clampedStart) }

/-- `release_inode_extent`. -/
def releaseInodeExtent (s : State) (dataBlock blockCount : UInt32) (deduped : Bool) : State :=
  let key := (dataBlock, blockCount)
  if deduped = false ∨ blockCount = 0 then fs.markExtentFree s dataBlock.toNat blockCount.toNat
  else
    match s.dedupRefcounts.lookup key with
    | none => fs.markExtentFree s dataBlock.toNat blockCount.toNat
    | some count =>
      if count - 1 = 0 then
        fs.markExtentFree
          { s with
            dedupRefcounts := s.dedupRefcounts.filter (·.1 ≠ key)
            dedupHashToExtents := (s.dedupHashToExtents.map fun pool =>
              (pool.1, pool.2.filter fun e => (e.1, e.2.1) ≠ key)).filter (·.2 ≠ []) }
          dataBlock.toNat blockCount.toNat
      else { s with
        dedupRefcounts := s.dedupRefcounts.map fun e => if e.1 = key then (key, count - 1) else e }

/-- `rebuild_free_data_extents`. -/
def rebuildFreeDataExtents (s : State) : State :=
  let s := s.saveFreeExtentsForUndo
  let extents := (s.inodes.filterMap Inode.extent).insertionSort fun a b => a.1 ≤ b.1
  { s with freeDataExtents := Extents.gaps fs.dataBlockStart fs.blockCount extents }

end Fs

/-- `rebuild_dir_inode_indices`. -/
def State.rebuildDirInodeIndices : State :=
  { s with dirInodeIndices := (s.inodes.zipIdx.filter fun x => x.1.liveDir).map Prod.snd }

/-! ### Extended attributes -/

namespace XattrRecord

/-- `XattrRecord::default`. -/
def default : XattrRecord :=
  { inodeIndex := 0, nameLen := 0, valueLen := 0, status := xattrStatusDeleted
    name := fun _ => 0, value := fun _ => 0 }

variable (r : XattrRecord)

/-- A record that is removed: its status is set and its payload cleared. -/
def deleted : XattrRecord :=
  { r with status := xattrStatusDeleted, nameLen := 0, valueLen := 0
           name := fun _ => 0, value := fun _ => 0 }

variable (inodeIndex : ℕ)

/-- The record is a live one of an inode. -/
def attached (r : XattrRecord) : Bool :=
  r.status == xattrStatusLive && r.inodeIndex.toNat == inodeIndex

/-- The bytes of a record's name field that a name of that length has. -/
def nameBytes (len : ℕ) : List UInt8 := (List.ofFn r.name).take len

/-- The test of `find_live_xattr`. -/
def isFor (name : List UInt8) (r : XattrRecord) : Bool :=
  r.attached inodeIndex && r.nameLen.toNat == name.length && r.nameBytes name.length == name

/-- The comparison of `find_live_xattr` reads beyond the name field: the slice
`record.name[..name.len()]` panics. -/
def overruns (name : List UInt8) (r : XattrRecord) : Bool :=
  r.attached inodeIndex && r.nameLen.toNat == name.length && xattrNameMax < name.length

/-- The bytes of a record's value. -/
def valueBytes : List UInt8 := (List.ofFn r.value).take r.valueLen.toNat

/-- The slices `record.name[..name_len]` and `record.value[..value_len]` are in range. -/
def lengthsFit : Bool :=
  r.nameLen.toNat ≤ xattrNameMax && r.valueLen.toNat ≤ xattrValueMax

end XattrRecord

namespace State

/-- `find_live_xattr`. -/
def findLiveXattr (inodeIndex : ℕ) (name : List UInt8) : LockedM (Option ℕ) := do
  assert (!s.xattrs.any (overruns inodeIndex name))
  pure (s.xattrs.findIdx? (isFor inodeIndex name))

/-- Save a record and put another in its place. -/
def putXattr (record : XattrRecord) : State :=
  let s := s.saveXattrForUndo index
  { s with xattrs := s.xattrs.set index record }

/-- `mark_inode_xattrs_deleted`: the records are saved and cleared one after another. -/
def markInodeXattrsDeleted (inodeIndex : ℕ) : State :=
  let indices := (s.xattrs.zipIdx.filter fun x => x.1.attached inodeIndex).map Prod.snd
  let cleared := indices.foldl (fun acc index =>
    (Undo.save acc.1 acc.2 index, acc.2.modify index deleted))
    (s.undo.xattrs, s.xattrs)
  { s with undo := { s.undo with xattrs := cleared.1 }, xattrs := cleared.2 }

end State

/-- A field of a record filled with the given bytes, and zeros behind them. -/
def paddedBytes (n : ℕ) (bytes : List UInt8) : Fin n → UInt8 := fun i => (bytes[i.val]?).getD 0

namespace Fs

variable (fs : Fs) (inodeIndex : ℕ) (name value : List UInt8)

/-- The record `set_xattr_for_inode` writes for a new attribute. -/
def newXattr : XattrRecord :=
  { inodeIndex := UInt32.ofNat inodeIndex, status := xattrStatusLive
    nameLen := UInt32.ofNat name.length, valueLen := UInt32.ofNat value.length
    name := paddedBytes xattrNameMax name, value := paddedBytes xattrValueMax value }

/-- `set_xattr_for_inode`. -/
def setXattrForInode : LockedM Unit := do
  let s ← Eff.get
  failIf (name.isEmpty || xattrNameMax < name.length) .invalidArgument
  failIf (xattrValueMax < value.length) .invalidArgument
  failIf (s.inodes.length ≤ inodeIndex) .invalidArgument
  match ← s.findLiveXattr inodeIndex name with
  | some index =>
    match s.xattrs[index]? with
    | none => Eff.halt
    | some record => Eff.modify fun s => s.putXattr index { record with
        valueLen := UInt32.ofNat value.length, value := paddedBytes xattrValueMax value }
  | none =>
    match s.xattrs.findIdx? fun r => r.status == xattrStatusDeleted with
    | some index => Eff.modify fun s => s.putXattr index (newXattr inodeIndex name value)
    | none => do
      failIf (fs.xattrCapacity ≤ s.xattrs.length) .outOfMemory
      Eff.modify fun s =>
        let s := s.saveXattrLenForUndo
        { s with xattrs := s.xattrs ++ [newXattr inodeIndex name value] }

/-- `remove_xattr_for_inode`. -/
def removeXattrForInode (name : List UInt8) : LockedM Unit := do
  let s ← Eff.get
  match ← s.findLiveXattr inodeIndex name with
  | none => Eff.throw .notFound
  | some index =>
    match s.xattrs[index]? with
    | none => Eff.halt
    | some record => Eff.modify fun s => s.putXattr index record.deleted

/-- `get_xattr_for_inode`. -/
def getXattrForInode (name : List UInt8) : LockedM (Option (List UInt8)) := do
  let s ← Eff.get
  match ← s.findLiveXattr inodeIndex name with
  | none => pure none
  | some index =>
    match s.xattrs[index]? with
    | none => Eff.halt
    | some record => do
      assert (record.valueLen.toNat ≤ xattrValueMax)
      pure (some record.valueBytes)

/-- `list_xattrs_for_inode`. -/
def listXattrsForInode : LockedM (List (List UInt8 × List UInt8)) := do
  let s ← Eff.get
  let records := s.xattrs.filter (attached inodeIndex)
  assert (records.all lengthsFit)
  pure (records.map fun r => (r.nameBytes r.nameLen.toNat, r.valueBytes))

end Fs

/-! ### The removal of an inode -/

/-- The inode a removal leaves in the slot. -/
def Inode.removed : Inode :=
  { inode with deleted := true, entryStart := 0, dataBlock := 0, blockCount := 0, size := 0
               entryCount := 0, persistentSecurity := none }

namespace State

/-- Mark an inode removed and give its slot back, unless a handle still refers to it. -/
def retireInode (inode : Inode) : State :=
  { s with
    inodes := s.inodes.set index inode.removed
    freeInodeSlots :=
      if s.openHandles index = 0 then s.freeInodeSlots ++ [index] else s.freeInodeSlots }

/-- Take an inode that was a directory off the list of the directories. -/
def delistDir (inode : Inode) : State :=
  if inode.kind = .directory then { s with dirInodeIndices := s.dirInodeIndices.erase index } else s

end State

/-- The end of `remove_path` and of `remove_path_recursive_locked`, from the saves on: the
inode is marked removed, its slot and its extended attributes are given back, and its extent
is released. -/
def Fs.removeInode (fs : Fs) (index : ℕ) : LockedM Unit := do
  Eff.modify fun s => s.saveInodeForUndo index
  Eff.modify saveFreeSlotsForUndo
  Eff.modify saveDirIndicesForUndo
  let s ← Eff.get
  let inode ← ofOption .internalError s.inodes[index]?
  Eff.modify fun s => s.retireInode index inode
  Eff.modify fun s => s.markInodeXattrsDeleted index
  Eff.modify fun s => s.delistDir index inode
  Eff.modify fun s => fs.releaseInodeExtent s inode.dataBlock inode.blockCount inode.deduped

end Protofire.SimpleFs
