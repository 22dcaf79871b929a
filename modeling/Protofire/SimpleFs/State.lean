import Protofire.BlockCache.Model
import Protofire.Lib.Extents
import Protofire.SimpleFs.Validate

/-!
# The state of a mounted volume

`SimpleFsState` (`fs/simplefs/mod.rs`): the inode and dirent tables with the indices kept
beside them, the free space of the data area, and the undo log a commit keeps
(`fs/simplefs/transaction.rs`).

The log mixes three ways of remembering. Vectors that are changed element by element
(`inodes`, `parentOf`, `xattrs`, the names in `dirEntries`) have a list of saved elements
and the length before the first push. Small collections have a copy taken before the first
change. The dirent table and the index into it are shifted by every insertion, so they have
a copy taken before the first insertion or removal – on top of which the elements saved
*before* are put back.

The parts of the state no function here reads (the staging roots) are left out.
-/

namespace Undo

variable {α : Type} (log : List (ℕ × α))

/-- Add the element at an index to a log, if there is one. -/
def save (v : List α) (i : ℕ) : List (ℕ × α) :=
  log ++ (v[i]?.map fun a => (i, a)).toList

/-- Put the saved elements back, the last one first. -/
def replay (v : List α) : List α :=
  log.foldr (fun saved v => v.set saved.1 saved.2) v

/-- Cut a vector to a length that was saved. -/
def truncate : Option ℕ → List α → List α
  | none, v => v
  | some n, v => v.take n

end Undo

namespace Protofire.SimpleFs

/-! ### The data -/

/-- The free extents of the data area. -/
abbrev FreeMap : Type := Extents

/-- `UndoLog`. -/
structure UndoLog where
  inodes : List (ℕ × Inode) := []
  dirents : List (ℕ × DirEntry) := []
  allDirents : Option (List DirEntry) := none
  allInodeToEntryIndex : Option (List (Option ℕ)) := none
  parentOf : List (ℕ × Option ℕ) := []
  inodeToEntryIndex : List (ℕ × Option ℕ) := []
  inodesLen : Option ℕ := none
  parentOfLen : Option ℕ := none
  inodeToEntryIndexLen : Option ℕ := none
  freeDataExtents : Option FreeMap := none
  freeInodeSlots : Option (List ℕ) := none
  dirInodeIndices : Option (List ℕ) := none
  xattrs : List (ℕ × XattrRecord) := []
  xattrLen : Option ℕ := none
  oldInodeCount : Option ℕ := none
  oldDirentCount : Option ℕ := none
  oldXattrCount : Option ℕ := none

/-- `SimpleFsState`. -/
structure State where
  inodes : List Inode
  dirEntries : List DirEntry
  activeInodeTableBlock : ℕ
  activeDirentTableBlock : ℕ
  shadowInodeTableBlock : ℕ
  shadowDirentTableBlock : ℕ
  generation : UInt32
  needsShadowSync : Bool
  freeInodeSlots : List ℕ
  parentOf : List (Option ℕ)
  inodeToEntryIndex : List (Option ℕ)
  freeDataExtents : FreeMap
  dirInodeIndices : List ℕ
  undo : UndoLog
  xattrs : List XattrRecord
  activeXattrTableBlock : ℕ
  shadowXattrTableBlock : ℕ
  /-- `dedup_refcounts`, by extent. -/
  dedupRefcounts : List ((UInt32 × UInt32) × ℕ)
  /-- `dedup_hash_to_extents`, by hash. -/
  dedupHashToExtents : List (UInt64 × List (UInt32 × UInt32 × UInt32))
  /-- `open_handles`; a slot without an entry has count zero. -/
  openHandles : ℕ → ℕ

/-- The parts of `SimpleFs` that do not change while it is mounted, with what its device
says of itself. The table of case folds beyond ASCII is a parameter. -/
structure Fs where
  label : Name
  formatVersion : FormatVersion
  caseSensitive : Bool
  simpleFolds : Char → Option Char
  inodeTableBlocks : ℕ
  direntTableBlocks : ℕ
  dataBlockStart : ℕ
  inodeCapacity : ℕ
  direntCapacity : ℕ
  xattrTableBlocks : ℕ
  xattrCapacity : ℕ
  /-- `device.block_count()`. -/
  blockCount : ℕ
  /-- `device.is_read_only()`. -/
  readOnly : Bool
  /-- The depth of recursion the kernel's stack has room for. A call that goes deeper does
  not come back. -/
  stackDepth : ℕ

/-- Two names are the same under the volume's case policy. -/
def Fs.same (fs : Fs) : Name → Name → Bool :=
  namesMatch fs.simpleFolds fs.caseSensitive

/-- A mounted volume: its state, and the cache and the device below it. -/
structure Volume where
  state : State
  io : CacheIo

/-- Computations under the state lock that do not touch the device. -/
abbrev LockedM (α : Type) : Type := Eff Error State α

/-- Computations of the filesystem. -/
abbrev FsM (α : Type) : Type := Eff Error Volume α

namespace FsM

/-- A computation on the state. -/
def onState {α : Type} (m : LockedM α) : FsM α :=
  Eff.zoom Volume.state (fun v s => { v with state := s }) m

/-- A computation of the cache and the device. -/
def onIo {α : Type} (m : CacheM α) : FsM α :=
  Eff.zoom Volume.io (fun v w => { v with io := w }) m

variable {α : Type} {I : State → Prop}

theorem preserves_onState {m : LockedM α} (h : Eff.Preserves I m) :
    Eff.Preserves (fun v => I v.state) (onState m) := fun v hv => h v.state hv

theorem preserves_onIo (m : CacheM α) : Eff.Preserves (fun v => I v.state) (onIo m) :=
  fun _ hv => hv

end FsM

variable (s : State)

/-- The tables of a state. -/
def State.tables : Tables := { inodes := s.inodes, dirEntries := s.dirEntries }

namespace State

/-! ### The undo log -/

/-- `begin_undo`. -/
def beginUndo : State :=
  { s with undo := {
      oldInodeCount := some s.inodes.length
      oldDirentCount := some s.dirEntries.length
      oldXattrCount := some s.xattrs.length } }

variable (index : ℕ)

/-- `save_inode_for_undo`. -/
def saveInodeForUndo : State :=
  { s with undo := { s.undo with inodes := Undo.save s.undo.inodes s.inodes index } }

/-- `save_parent_of_for_undo`. -/
def saveParentOfForUndo : State :=
  { s with undo := { s.undo with parentOf := Undo.save s.undo.parentOf s.parentOf index } }

/-- `save_xattr_for_undo`. -/
def saveXattrForUndo : State :=
  { s with undo := { s.undo with xattrs := Undo.save s.undo.xattrs s.xattrs index } }

/-- `save_xattr_len_for_undo`. -/
def saveXattrLenForUndo : State :=
  { s with undo := { s.undo with xattrLen := s.undo.xattrLen.or (some s.xattrs.length) } }

/-- `save_free_extents_for_undo`. -/
def saveFreeExtentsForUndo : State :=
  { s with undo := { s.undo with
      freeDataExtents := s.undo.freeDataExtents.or (some s.freeDataExtents) } }

/-- `save_free_slots_for_undo`. -/
def saveFreeSlotsForUndo : State :=
  { s with undo := { s.undo with
      freeInodeSlots := s.undo.freeInodeSlots.or (some s.freeInodeSlots) } }

/-- `save_dir_indices_for_undo`. -/
def saveDirIndicesForUndo : State :=
  { s with undo := { s.undo with
      dirInodeIndices := s.undo.dirInodeIndices.or (some s.dirInodeIndices) } }

/-- `save_all_dirents_and_dir_inodes_for_undo`. -/
def saveAllDirentsAndDirInodesForUndo : State :=
  if s.undo.allDirents.isNone then
    { s with undo := { s.undo with
        allDirents := some s.dirEntries
        inodes := s.dirInodeIndices.foldl (fun log dir => Undo.save log s.inodes dir) s.undo.inodes
        allInodeToEntryIndex := some s.inodeToEntryIndex } }
  else s

/-- `save_inodes_len_for_undo`. -/
def saveInodesLenForUndo : State :=
  if s.undo.inodesLen.isNone then
    { s with undo := { s.undo with
        inodesLen := some s.inodes.length
        parentOfLen := some s.parentOf.length
        inodeToEntryIndexLen := some s.inodeToEntryIndex.length } }
  else s

/-- `rollback_undo`. The elements of each vector are put back, last first, before or after
it is cut, in the order of the code. -/
def rollbackUndo : State :=
  { s with
    dirEntries := Undo.replay s.undo.dirents (s.undo.allDirents.getD s.dirEntries)
    inodes := Undo.truncate s.undo.inodesLen (Undo.replay s.undo.inodes s.inodes)
    xattrs := Undo.truncate s.undo.xattrLen (Undo.replay s.undo.xattrs s.xattrs)
    freeDataExtents := s.undo.freeDataExtents.getD s.freeDataExtents
    freeInodeSlots := s.undo.freeInodeSlots.getD s.freeInodeSlots
    dirInodeIndices := s.undo.dirInodeIndices.getD s.dirInodeIndices
    parentOf := Undo.replay s.undo.parentOf (Undo.truncate s.undo.parentOfLen s.parentOf)
    inodeToEntryIndex := Undo.replay s.undo.inodeToEntryIndex
      (Undo.truncate s.undo.inodeToEntryIndexLen
        (s.undo.allInodeToEntryIndex.getD s.inodeToEntryIndex)) }

/-- `commit_undo`. -/
def commitUndo : State := { s with undo := {} }

end State

end Protofire.SimpleFs
