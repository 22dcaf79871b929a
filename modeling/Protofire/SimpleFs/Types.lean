import Protofire.Kernel.Block

/-!
# The records of SimpleFs

The on-disk records (`fs/simplefs/types.rs`, `fs/simplefs/constants.rs`): inodes, directory
entries, extended attributes and the superblock, for the three format versions.

The fields keep the widths the format gives them, so a field that is written back is the
field that was read. What the code keeps as `usize` – block numbers and counts outside the
records – is a natural number here, and is cut to the width of a record's field where the
code cuts it.

A name is the list of its characters. Its length, wherever the code takes one, is the
length of its UTF-8 encoding.
-/

namespace Protofire

/-- A file name or a path. -/
abbrev Name : Type := List Char

/-- `NodeKind`. -/
inductive NodeKind where
  | directory | file | device | symlink
  deriving DecidableEq, Repr

/-- `SecurityDescriptor`, and its on-disk form `OnDiskPersistentSecurityDescriptor`. -/
structure SecurityDescriptor where
  ownerUid : UInt32
  ownerGid : UInt32
  mode : UInt16
  deriving DecidableEq, Repr

/-- `MAX_PERMISSION_MODE`. -/
def maxPermissionMode : UInt16 := 0o777

/-- `DEFAULT_DIRECTORY_MODE`. -/
def defaultDirectoryMode : UInt16 := 0o755

/-- The mode has no bit beyond the permissions. -/
def SecurityDescriptor.modeAllowed (d : SecurityDescriptor) : Bool :=
  d.mode &&& ~~~maxPermissionMode == 0

namespace SimpleFs

/-! ### Constants -/

/-- `INODE_SIZE`. -/
abbrev inodeSize : ℕ := 32

/-- `DIRENT_SIZE`. -/
abbrev direntSize : ℕ := 64

/-- `dirent_name_max_len`, the same for every format. -/
abbrev direntNameMaxLen : ℕ := direntSize - 8

/-- `MAX_INLINE_SYMLINK_LEN`. -/
abbrev maxInlineSymlinkLen : ℕ := 12

/-- `MAX_SYMLINK_DEPTH`. -/
abbrev maxSymlinkDepth : ℕ := 8

/-- `XATTR_NAME_MAX`. -/
abbrev xattrNameMax : ℕ := 64

/-- `XATTR_VALUE_MAX`. -/
abbrev xattrValueMax : ℕ := 256

/-- `XATTR_RECORD_SIZE`. -/
abbrev xattrRecordSize : ℕ := 16 + xattrNameMax + xattrValueMax

/-- `PRIMARY_SUPERBLOCK_BLOCK`. -/
abbrev primarySuperblockBlock : ℕ := 0

/-- `SECONDARY_SUPERBLOCK_BLOCK`. -/
abbrev secondarySuperblockBlock : ℕ := 1

/-- `blocks_for`. -/
def blocksFor (byteLen : ℕ) : ℕ := if byteLen = 0 then 0 else (byteLen + blockSize - 1) / blockSize

/-! ### Formats -/

/-- `SimpleFsFormatVersion`. -/
inductive FormatVersion where
  | v2
  /-- `V3PersistentSecurityDescriptors`. -/
  | v3
  /-- `V4PersistentSecurityDescriptorsWithXattrs`. -/
  | v4
  deriving DecidableEq, Repr

namespace FormatVersion

/-- Whether `persistent_security_descriptor_layout` is there: the format stores security
descriptors, and a pending-commit marker with them. -/
def persistsSecurity : FormatVersion → Bool
  | v2 => false
  | v3 | v4 => true

/-- `supports_persistent_xattrs`. -/
def supportsPersistentXattrs : FormatVersion → Bool
  | v2 | v3 => false
  | v4 => true

/-- `on_disk_value`. -/
def onDiskValue : FormatVersion → UInt32
  | v2 => 2
  | v3 => 3
  | v4 => 4

/-- `parse_supported`. -/
def parseSupported (raw : UInt32) : Except Error FormatVersion :=
  if raw = onDiskValue v2 then .ok v2
  else if raw = onDiskValue v3 then .ok v3
  else if raw = onDiskValue v4 then .ok v4
  else .error .unsupported

end FormatVersion

variable (tableBlocks : ℕ)

/-- `inode_capacity`. -/
def inodeCapacityOf : ℕ := tableBlocks * blockSize / inodeSize

/-- `dirent_capacity`. -/
def direntCapacityOf : ℕ := tableBlocks * blockSize / direntSize

/-- `xattr_capacity`. -/
def xattrCapacityOf : ℕ := tableBlocks * blockSize / xattrRecordSize

/-! ### Records -/

/-- `OnDiskInode`. -/
structure Inode where
  kind : NodeKind
  deleted : Bool
  entryStart : UInt32
  entryCount : UInt32
  dataBlock : UInt32
  blockCount : UInt32
  size : UInt32
  persistentSecurity : Option SecurityDescriptor
  dataChecksum : UInt32
  compressed : Bool
  deduped : Bool
  deriving DecidableEq

/-- `OnDiskDirEntry`. -/
structure DirEntry where
  inodeIndex : UInt32
  kind : NodeKind
  name : Name
  deriving DecidableEq

/-- `XATTR_STATUS_LIVE`. -/
def xattrStatusLive : UInt32 := 0

/-- `XATTR_STATUS_DELETED`. -/
def xattrStatusDeleted : UInt32 := 1

/-- `XattrRecord`. -/
structure XattrRecord where
  inodeIndex : UInt32
  nameLen : UInt32
  valueLen : UInt32
  status : UInt32
  name : Fin xattrNameMax → UInt8
  value : Fin xattrValueMax → UInt8

namespace Inode

variable (i : Inode)

/-- The node is a directory that was not removed. -/
def liveDir : Bool := i.kind == .directory && !i.deleted

/-- The first index of a directory's slice of the dirent table. -/
def start : ℕ := i.entryStart.toNat

/-- The number of a directory's entries. -/
def count : ℕ := i.entryCount.toNat

/-- The end of a directory's slice of the dirent table. -/
def stop : ℕ := i.start + i.count

/-- The first block of a node's extent. -/
def extentStart : ℕ := i.dataBlock.toNat

/-- The number of blocks of a node's extent. -/
def extentLength : ℕ := i.blockCount.toNat

/-- The end of a node's extent. -/
def extentEnd : ℕ := i.extentStart + i.extentLength

/-- The node has an extent: it was not removed, it is not a directory, and it has
blocks. -/
def hasExtent : Bool := !i.deleted && i.kind != .directory && i.blockCount != 0

end Inode

/-- The index of the node a directory entry names. -/
def DirEntry.child (e : DirEntry) : ℕ := e.inodeIndex.toNat

/-- `SuperblockRecord`. -/
structure SuperblockRecord where
  inodeCount : ℕ
  direntCount : ℕ
  activeInodeTableBlock : ℕ
  activeDirentTableBlock : ℕ
  shadowInodeTableBlock : ℕ
  shadowDirentTableBlock : ℕ
  inodeTableBlocks : ℕ
  direntTableBlocks : ℕ
  dataBlockStart : ℕ
  generation : UInt32
  pendingCommit : UInt32
  activeXattrTableBlock : ℕ
  shadowXattrTableBlock : ℕ
  xattrTableBlocks : ℕ
  xattrCount : ℕ
  deriving DecidableEq

end SimpleFs

end Protofire
