import Protofire.SimpleFs.Commit

/-!
# Transactions

The mutations that a `TransactionContext` makes (`fs/simplefs/transaction.rs`), and the commit that
makes several of them one after another. The order of the checks inside and the point at which each
error is answered are those of the code.
-/

namespace Protofire.SimpleFs

open FsM
open Eff (failIf ofOption ofExcept)

/-! ### Creating -/

namespace Fs

variable (fs : Fs)

/-- The descriptor of a new node: the one asked for, or the owner of the parent with a
default mode. Formats that store none have none. -/
def newSecurity (security : Option SecurityDescriptor) (parent : Inode) (mode : UInt16) :
    Option SecurityDescriptor :=
  if fs.formatVersion.persistsSecurity then
    some (security.getD
      { ownerUid := (parent.persistentSecurity.map SecurityDescriptor.ownerUid).getD 0
        ownerGid := (parent.persistentSecurity.map SecurityDescriptor.ownerGid).getD 0
        mode })
  else none

variable (path : Name)

/-- The checks every creation starts with under the lock: the path is free, there is room,
and the parent is a directory. -/
def createChecks : LockedM (ℕ × Inode) := do
  let s ← Eff.get
  failIf (fs.lookupIndex s path).isOk .alreadyExists
  failIf (!fs.hasAvailableInodeSlot s || fs.direntCapacity ≤ s.dirEntries.length) .outOfMemory
  let parentPath ← ofOption .invalidArgument (parentPath path)
  let parentIndex ← ofExcept (fs.lookupIndex s parentPath)
  let parent ← ofOption .internalError s.inodes[parentIndex]?
  failIf (parent.kind != .directory) .invalidArgument
  pure (parentIndex, parent)

/-- The end of every creation: the inode gets a slot, and the parent an entry for it. -/
def linkNew (parentIndex : ℕ) (name : Name) (inode : Inode) : LockedM ℕ := do
  let index ← fs.allocateInodeSlot inode
  fs.insertDirEntry parentIndex { inodeIndex := UInt32.ofNat index, kind := inode.kind, name }
  pure index

variable (security : Option SecurityDescriptor)

/-! ### Transactions -/

/-- The inode of a new directory. -/
def newDirectory (entryStart : ℕ) (security : Option SecurityDescriptor) : Inode :=
  { kind := .directory, deleted := false, entryStart := UInt32.ofNat entryStart, entryCount := 0
    dataBlock := 0, blockCount := 0, size := 0, persistentSecurity := security
    dataChecksum := 0, compressed := false, deduped := false }

/-- `TransactionContext::create_dir_with_security`. -/
def txCreateDir : LockedM Unit := do
  failIf (security.any fun d => !d.modeAllowed) .invalidArgument
  failIf (path == [] || path == ['/']) .invalidArgument
  ofExcept (validateDirEntryName (baseName path))
  let (parentIndex, parent) ← fs.createChecks path
  let s ← Eff.get
  let _ ← fs.linkNew parentIndex (baseName path)
    (newDirectory s.dirEntries.length (fs.newSecurity security parent defaultDirectoryMode))
  pure ()

/-- `TransactionContext::remove_path`. -/
def txRemovePath : LockedM Unit := do
  failIf (path == [] || path == ['/']) .invalidArgument
  let s ← Eff.get
  let parentPath ← ofOption .invalidArgument (parentPath path)
  let parentIndex ← ofExcept (fs.lookupIndex s parentPath)
  let parent ← ofOption .internalError s.inodes[parentIndex]?
  failIf (!parent.liveDir) .invalidArgument
  let resolved ← ofExcept (fs.resolveLiveChildDirent s parentIndex (baseName path))
  failIf (resolved.inode.kind == .directory && resolved.inode.entryCount != 0) .busy
  let _ ← State.removeDirEntry parentIndex resolved.entryIndex
  fs.removeInode resolved.inodeIndex

/-- `TransactionContext::update_security_descriptor`. -/
def txUpdateSecurityDescriptor (security : SecurityDescriptor) : LockedM Unit := do
  failIf (!fs.formatVersion.persistsSecurity) .unsupported
  failIf (!security.modeAllowed) .invalidArgument
  let s ← Eff.get
  let index ← ofExcept (fs.lookupIndex s path)
  Eff.modify fun s => s.saveInodeForUndo index
  let inode ← ofOption .internalError s.inodes[index]?
  failIf inode.deleted .notFound
  Eff.modify fun s =>
    { s with inodes := s.inodes.set index { inode with persistentSecurity := some security } }

/-! ### Paths through symbolic links -/

/-- `read_symlink_target`. -/
def readSymlinkTarget (inode : Inode) : CacheM (List UInt8) := do
  let len := inode.size.toNat
  failIf (len == 0) .invalidArgument
  if inode.blockCount = 0 then
    let b := ((Bytes.zero.writeU32 0 inode.entryStart).writeU32 4 inode.entryCount).writeU32 8
      inode.dataBlock
    pure (b.readAt 0 (min len maxInlineSymlinkLen))
  else do
    let blocks ← CacheM.cachedReadBlocks inode.extentStart 1
    pure ((bytesOf blocks).readAt 0 (min len blockSize))

/-- The path a link leads to: its target, relative to the directory of the link unless it is
absolute, with the components behind the link. -/
def linkedPath (target walked : Name) (rest : List Name) : Name :=
  let suffix := if rest = [] then [] else '/' :: ['/'].intercalate rest
  if target.head? = some '/' then target ++ suffix
  else ((rsplitOnceSlash walked).map Prod.fst).getD ['/'] ++ '/' :: target ++ suffix

/-- The loop of `resolve_path_locked_depth`: the node the components lead to, or the path to
go on with after a symbolic link. `walked` is the path so far. -/
def resolveComponents (s : State) : List Name → ℕ → Name → CacheM (ℕ ⊕ Name)
  | [], current, _ => pure (.inl current)
  | segment :: rest, current, walked =>
    if segment = [] ∨ segment = ['.'] then resolveComponents s rest current walked
    else if segment = ['.', '.'] then
      resolveComponents s rest ((s.parent? current).getD 0)
        (((rsplitOnceSlash walked).map Prod.fst).getD walked)
    else do
      let child ← ofExcept (fs.findChild s current segment)
      let walked := walked ++ '/' :: segment
      let inode ← ofOption .internalError s.inodes[child]?
      if inode.kind = .symlink then do
        let target ← readSymlinkTarget inode
        let target ← ofOption .invalidArgument (Utf8.decode target)
        pure (.inr (linkedPath target walked rest))
      else resolveComponents s rest child walked

/-- `resolve_path_locked_depth`, by the number of links that may still be followed. -/
def resolvePathDepth (s : State) : ℕ → Name → CacheM ℕ
  | remaining, path =>
    if path = [] ∨ path = ['/'] then pure 0
    else
      match remaining with
      | 0 => Eff.throw .invalidArgument
      | remaining + 1 => do
        match ← fs.resolveComponents s ((trimSlashes path).splitOn '/') 0 [] with
        | .inl index => pure index
        | .inr path => resolvePathDepth s remaining path

/-- `resolve_path_locked`. -/
def resolvePath (s : State) (path : Name) : CacheM ℕ :=
  fs.resolvePathDepth s (maxSymlinkDepth + 1) path

end Fs

/-- The mutations of a `TransactionContext`. -/
inductive TxOp where
  | createDir (path : Name) (security : Option SecurityDescriptor)
  | removePath (path : Name)
  | updateSecurityDescriptor (path : Name) (security : SecurityDescriptor)
  | setXattr (path : Name) (name value : List UInt8)
  | removeXattr (path : Name) (name : List UInt8)

namespace Fs

variable (fs : Fs)

/-- One mutation of a transaction. -/
def txRun : TxOp → FsM Unit
  | .createDir path security => onState (fs.txCreateDir path security)
  | .removePath path => onState (fs.txRemovePath path)
  | .updateSecurityDescriptor path security =>
    onState (fs.txUpdateSecurityDescriptor path security)
  | .setXattr path name value => do
    let v ← Eff.get
    let index ← onIo (fs.resolvePath v.state path)
    onState (fs.setXattrForInode index name value)
  | .removeXattr path name => do
    let v ← Eff.get
    let index ← onIo (fs.resolvePath v.state path)
    onState (removeXattrForInode index name)

/-- `transaction`. -/
def transaction {α : Type} (f : FsM α) : FsM α := do
  failIf fs.readOnly .permissionDenied
  fs.commitMetadataUpdate f

/-- A transaction that makes several mutations, one after another. -/
def transactionOf (ops : List TxOp) : FsM Unit := fs.transaction (Eff.forEach fs.txRun ops)

end Fs

end Protofire.SimpleFs
