import Protofire.Lib.Bytes
import Protofire.SimpleFs.Validate

/-!
# The on-disk format

The encoding of the superblock and of the tables, and their decoding
(`fs/simplefs/format_io.rs`). A record is a sequence of writes to zeros at the offsets of
the format; a table is its records one behind the other in an image of zeros; a table that
is read is a run of blocks, and the decoding takes as many records from it as the superblock
says there are.
-/

namespace Protofire.SimpleFs

open Fallible List SecurityDescriptor Utf8

/-! ### Buffers and blocks -/

variable (b : Bytes)

/-- A block of a buffer. -/
def blockOf (i : ℕ) : Block := fun j => b (i * blockSize + j)

/-- The first `n` blocks of a buffer. -/
def blocksOf (n : ℕ) : List Block := (range n).map (blockOf b)

/-- The bytes of a run of blocks. -/
def bytesOf (blocks : List Block) : Bytes := fun k =>
  match blocks[k / blockSize]? with
  | none => 0
  | some block => block ⟨k % blockSize, Nat.mod_lt k (by decide)⟩

/-- An image of zeros with the records of a table in it, each in its own region of `size`
bytes. -/
def tableBytes {α : Type} (size : ℕ) (encode : α → Bytes) (records : List α) : Bytes := fun k =>
  match records[k / size]? with
  | none => 0
  | some r => encode r (k % size)

/-- The region of a table that a record is in. -/
def regionOf (size index : ℕ) : Bytes := fun k => b (index * size + k)

/-! ### Kinds -/

/-- `encode_kind`. -/
def encodeKind : NodeKind → UInt8
  | .directory => 1
  | .file => 2
  | .device => 3
  | .symlink => 4

/-- `decode_kind`. -/
def decodeKind (value : UInt8) : Except Error NodeKind :=
  if value = 1 then .ok .directory
  else if value = 2 then .ok .file
  else if value = 3 then .ok .device
  else if value = 4 then .ok .symlink
  else .error .invalidArgument

/-! ### Inodes -/

/-- `INODE_FLAG_DELETED`. -/
def inodeFlagDeleted : UInt8 := 1

/-- `INODE_FLAG_COMPRESSED`. -/
def inodeFlagCompressed : UInt8 := 2

/-- `INODE_FLAG_DEDUPED`. -/
def inodeFlagDeduped : UInt8 := 4

/-- The flags byte of an inode. -/
def Inode.flags (inode : Inode) : UInt8 :=
  (if inode.deleted then inodeFlagDeleted else 0) |||
    (if inode.compressed then inodeFlagCompressed else 0) |||
    (if inode.deduped then inodeFlagDeduped else 0)

variable (v : FormatVersion)

/-- `write_inode_persistent_security_descriptor`; an inode without a descriptor has one of
zeros. -/
def writeSecurity (security : Option SecurityDescriptor) (b : Bytes) : Bytes :=
  if v.persistsSecurity then
    ((b.writeU16 2 ((security.map mode).getD 0)).writeU32 24
      ((security.map ownerUid).getD 0)).writeU32 28
      ((security.map ownerGid).getD 0)
  else b

/-- The record `write_runtime_inode_table` writes for an inode. The data checksum has a
place in V2 only (`data_checksum_offset`). -/
def encodeInode (inode : Inode) : Bytes :=
  let b := ((((((Bytes.zero.writeU8 0 (encodeKind inode.kind)).writeU8 1 inode.flags).writeU32 4
    inode.entryStart).writeU32 8 inode.entryCount).writeU32 12 inode.dataBlock).writeU32 16
    inode.blockCount).writeU32 20 inode.size
  let b := writeSecurity v inode.persistentSecurity b
  if v.persistsSecurity then b else b.writeU32 28 inode.dataChecksum

/-- `read_inode_persistent_security_descriptor`. -/
def readSecurity (b : Bytes) : Option SecurityDescriptor :=
  if v.persistsSecurity then
    some { ownerUid := b.readU32 24, ownerGid := b.readU32 28, mode := b.readU16 2 }
  else none

/-- One round of `decode_inodes`. -/
def decodeInode (b : Bytes) : Except Error Inode := do
  let kind ← decodeKind (b 0)
  pure
    { kind, deleted := b 1 &&& inodeFlagDeleted != 0
      entryStart := b.readU32 4, entryCount := b.readU32 8
      dataBlock := b.readU32 12, blockCount := b.readU32 16, size := b.readU32 20
      persistentSecurity := readSecurity v b
      dataChecksum := if v.persistsSecurity then 0 else b.readU32 28
      compressed := b 1 &&& inodeFlagCompressed != 0
      deduped := b 1 &&& inodeFlagDeduped != 0 }

variable (buffer : Bytes)

/-- `decode_inodes`. -/
def decodeInodes (count : ℕ) : Except Error (List Inode) :=
  (range count).mapM fun index => decodeInode v (regionOf buffer inodeSize index)

/-! ### Dirents -/

/-- The record `write_runtime_dir_entry_table` writes for a dirent. -/
def encodeDirEntry (e : DirEntry) : Bytes :=
  (((Bytes.zero.writeU32 0 e.inodeIndex).writeU8 4 (encodeKind e.kind)).writeU8 5
    (UInt8.ofNat (byteLength e.name))).writeAt 8 (encode e.name)

/-- One round of `decode_dir_entries`. -/
def decodeDirEntry : Except Error DirEntry := do
  let kind ← decodeKind (b 4)
  let nameLen := (b 5).toNat
  failIf (direntNameMaxLen < nameLen) .invalidArgument
  pure { inodeIndex := b.readU32 0, kind, name := decodeLossy (b.readAt 8 nameLen) }

/-- `decode_dir_entries`. -/
def decodeDirEntries (count : ℕ) : Except Error (List DirEntry) :=
  (range count).mapM fun index => decodeDirEntry (regionOf buffer direntSize index)

/-! ### Extended attributes -/

/-- The record `write_runtime_xattr_table` writes. -/
def encodeXattr (r : XattrRecord) : Bytes :=
  (((((Bytes.zero.writeU32 0 r.inodeIndex).writeU32 4 r.nameLen).writeU32 8 r.valueLen).writeU32
    12 r.status).writeAt 16 (ofFn r.name)).writeAt (16 + xattrNameMax) (ofFn r.value)

/-- One record of `read_xattr_records`. -/
def decodeXattr : XattrRecord :=
  { inodeIndex := b.readU32 0, nameLen := b.readU32 4, valueLen := b.readU32 8
    status := b.readU32 12, name := fun i => b (16 + i)
    value := fun i => b (16 + xattrNameMax + i) }

/-- The loop of `read_xattr_records`: it ends at the first slot of zeros. -/
def readXattrRecords (capacity : ℕ) : List XattrRecord :=
  ((range capacity).map (regionOf buffer xattrRecordSize)).takeWhile
    (fun b => (b.readAt 0 xattrRecordSize).any (· ≠ 0)) |>.map decodeXattr

/-! ### The superblock -/

/-- `MAGIC`. -/
def magic : List UInt8 := [0x41, 0x44, 0x41, 0x46, 0x53, 0x31, 0, 0]

/-- `SUPERBLOCK_LABEL_LEN`. -/
abbrev superblockLabelLen : ℕ := 32

/-- `superblock_checksum`: the four bytes of the checksum itself are passed over. -/
def superblockChecksum : UInt32 :=
  (range blockSize).foldl (fun hash index =>
    if 56 ≤ index ∧ index < 60 then hash
    else (hash ^^^ (b index).toUInt32) * 0x01000193) 0x811c9dc5

variable (r : SuperblockRecord)

/-- The fields `write_superblock` writes before the label and the checksum. -/
def superblockFields : Bytes :=
  let b := Bytes.zero.writeAt 0 magic
  let b := b.writeU32 8 v.onDiskValue
  let b := b.writeU32 12 (UInt32.ofNat blockSize)
  let b := b.writeU32 16 (UInt32.ofNat r.inodeCount)
  let b := b.writeU32 20 (UInt32.ofNat r.direntCount)
  let b := b.writeU32 24 (UInt32.ofNat r.activeInodeTableBlock)
  let b := b.writeU32 28 (UInt32.ofNat r.activeDirentTableBlock)
  let b := b.writeU32 32 (UInt32.ofNat r.dataBlockStart)
  let b := b.writeU32 36 (UInt32.ofNat r.shadowInodeTableBlock)
  let b := b.writeU32 40 (UInt32.ofNat r.shadowDirentTableBlock)
  let b := b.writeU32 44 (UInt32.ofNat r.inodeTableBlocks)
  let b := b.writeU32 48 (UInt32.ofNat r.direntTableBlocks)
  let b := b.writeU32 100 (UInt32.ofNat r.activeXattrTableBlock)
  let b := b.writeU32 104 (UInt32.ofNat r.shadowXattrTableBlock)
  let b := b.writeU32 108 (UInt32.ofNat r.xattrTableBlocks)
  let b := b.writeU32 112 (UInt32.ofNat r.xattrCount)
  let b := b.writeU32 52 r.generation
  if v.persistsSecurity then b.writeU32 96 r.pendingCommit else b

/-- `write_superblock`. -/
def writeSuperblock (label : Name) (v : FormatVersion) (r : SuperblockRecord) : Bytes :=
  let b := (superblockFields v r).writeAt 64 ((encode label).take superblockLabelLen)
  b.writeU32 56 (superblockChecksum b)

/-- `ParsedSuperblock`. -/
structure ParsedSuperblock where
  formatVersion : FormatVersion
  record : SuperblockRecord
  deriving DecidableEq

/-- `validate_superblock_record`. -/
def validateSuperblockRecord : Except Error Unit := do
  failIf (r.inodeTableBlocks = 0) .invalidArgument
  let activeInodeEnd := r.activeInodeTableBlock + r.inodeTableBlocks
  let activeEnd := r.activeDirentTableBlock + r.direntTableBlocks
  let shadowInodeEnd := r.shadowInodeTableBlock + r.inodeTableBlocks
  let shadowEnd := r.shadowDirentTableBlock + r.direntTableBlocks
  failIf (r.activeInodeTableBlock ≤ secondarySuperblockBlock ∨
    r.activeDirentTableBlock ≠ activeInodeEnd ∨
    r.shadowInodeTableBlock ≤ secondarySuperblockBlock ∨
    r.shadowDirentTableBlock ≠ shadowInodeEnd) .invalidArgument
  failIf (activeEnd ≤ r.activeInodeTableBlock ∨ shadowEnd ≤ r.shadowInodeTableBlock)
    .invalidArgument
  failIf (r.activeInodeTableBlock < shadowEnd ∧ r.shadowInodeTableBlock < activeEnd)
    .invalidArgument
  failIf (r.dataBlockStart < activeEnd ∨ r.dataBlockStart < shadowEnd) .invalidArgument

/-- `parse_label`. -/
def parseLabel : Name :=
  decodeLossy ((b.readAt 64 superblockLabelLen).takeWhile (· ≠ 0))

/-- The record `parse_superblock` reads. -/
def readRecord (b : Bytes) : SuperblockRecord where
  inodeCount := (b.readU32 16).toNat
  direntCount := (b.readU32 20).toNat
  activeInodeTableBlock := (b.readU32 24).toNat
  activeDirentTableBlock := (b.readU32 28).toNat
  dataBlockStart := (b.readU32 32).toNat
  shadowInodeTableBlock := (b.readU32 36).toNat
  shadowDirentTableBlock := (b.readU32 40).toNat
  inodeTableBlocks := (b.readU32 44).toNat
  direntTableBlocks := (b.readU32 48).toNat
  generation := b.readU32 52
  pendingCommit := if v.persistsSecurity then b.readU32 96 else 0
  activeXattrTableBlock := (b.readU32 100).toNat
  shadowXattrTableBlock := (b.readU32 104).toNat
  xattrTableBlocks := (b.readU32 108).toNat
  xattrCount := (b.readU32 112).toNat

/-- `parse_superblock`. -/
def parseSuperblock : Except Error (Name × ParsedSuperblock) := do
  failIf (b.readAt 0 8 ≠ magic) .invalidArgument
  let formatVersion ← FormatVersion.parseSupported (b.readU32 8)
  failIf ((b.readU32 12).toNat ≠ blockSize) .unsupported
  failIf (b.readU32 56 ≠ superblockChecksum b) .invalidArgument
  let record := readRecord formatVersion b
  validateSuperblockRecord record
  pure (parseLabel b, { formatVersion, record })

end Protofire.SimpleFs
