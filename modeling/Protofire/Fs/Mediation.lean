import Protofire.Fs.Path

/-!
# Who may change a mounted file system

The mount table (`fs/filesystem`) stands between the file syscalls and the file systems: it picks
the mount of a path, asks for the effective descriptor of a node or of its parent, and only then
calls a method that changes something. That call is the last thing a request does, so a request is
given here by the call it ends in (`FileSystem.callOf`), and a file system by what it answers
(`Backend`): every statement is about any of them.

One request has no gate: the repair of a volume is called for anybody, on any mount. And a change of
the attributes of a device node passes the gate that was left open for the input and output of
devices, so it can reach a file system that is mounted read-only. Without these two no file system
is called that may not be written, in any sequence of requests; and every call is mediated
(`Mediated`), except that a file is written through the handle that made it whatever its own
descriptor says.
-/

namespace Protofire.Vfs

open Fallible List Option

open Fs (Path)

/-! ### Tokens and descriptors -/

/-- Integrity levels of `security/token.rs`, lowest first. -/
inductive IntegrityLevel where
  | system | high | medium | low
  deriving DecidableEq

/-- What `SecurityToken` says of the calling process. -/
structure SecurityToken where
  userId : ℕ
  primaryGroupId : ℕ
  integrity : IntegrityLevel
  elevated : Bool := false
  recovery : Bool := false
  supplementaryGroupIds : List ℕ := []
  authenticated : Bool := false
  provisioned : Bool := false
  macType : ℕ := 0

namespace SecurityToken

variable (token : SecurityToken)

/-- `is_system`: the system user at system integrity. -/
def isSystem : Bool := token.userId == 0 && token.integrity == .system

/-- `is_kernel_token`: a system token that no account was provisioned with. -/
def isKernelToken : Bool := token.isSystem && !token.provisioned

def isAdminMode : Bool := token.elevated || token.isSystem

/-- `belongs_to_group`: the primary group or one of the others. -/
def belongsToGroup (group : ℕ) : Bool :=
  token.primaryGroupId == group || token.supplementaryGroupIds.contains group

/-- `may_bypass_discretionary_permissions`: no descriptor is asked for such a token. -/
def mayBypassDiscretionaryPermissions : Bool :=
  token.isKernelToken || ((token.userId == 0 || token.isAdminMode) && token.authenticated)

/-- `may_bypass_read_only_mounts`: only a recovery token writes to a read-only mount. -/
def mayBypassReadOnlyMounts : Bool := token.recovery

end SecurityToken

/-- Mode bits: three of `rwx` for each of owner, group and others. -/
abbrev AccessBits := BitVec 16

def accessRead : AccessBits := 0b100

def accessWrite : AccessBits := 0b010

def accessExecute : AccessBits := 0b001

inductive NodeKind where
  | directory | file | device | symlink
  deriving DecidableEq

/-- Owner, group and mode of a node. -/
structure SecurityDescriptor where
  ownerUid : ℕ
  ownerGid : ℕ
  mode : AccessBits

/-- A change of some of the descriptor's fields. -/
structure SecurityDescriptorUpdate where
  ownerUid : Option ℕ := none
  ownerGid : Option ℕ := none
  mode : Option AccessBits := none

/-- Which accesses a token has to a node, as `access_query_for` answers. -/
structure AccessQueryResult where
  grantedModeBits : AccessBits
  canWrite : Bool
  allowed : Bool

namespace SecurityDescriptor

variable (descriptor : SecurityDescriptor)

def root (mode : AccessBits) : SecurityDescriptor := ⟨0, 0, mode⟩

def guest (mode : AccessBits) : SecurityDescriptor := ⟨1000, 1000, mode⟩

/-- `granted_mode_bits_for`: the triple of owner, group or others, whichever is first to fit. -/
def grantedModeBitsFor (token : SecurityToken) : AccessBits :=
  if token.userId = descriptor.ownerUid then descriptor.mode >>> 6 &&& 0b111
  else if token.belongsToGroup descriptor.ownerGid then descriptor.mode >>> 3 &&& 0b111
  else descriptor.mode &&& 0b111

variable (required : AccessBits) (token : SecurityToken)

/-- Every bit asked for is one the mode grants. -/
def grantsAccess : Prop :=
  required &&& ~~~descriptor.grantedModeBitsFor token = 0

/-- `access_query_for`: a token of low integrity is never granted write. -/
def accessQueryFor : AccessQueryResult :=
  let granted := if token.mayBypassDiscretionaryPermissions then 0b111
    else descriptor.grantedModeBitsFor token
  let granted := if token.integrity = .low then granted &&& ~~~accessWrite else granted
  ⟨granted, granted &&& accessWrite != 0, required &&& ~~~granted == 0⟩

variable (update : SecurityDescriptorUpdate)

/-- `apply_update`: refuses a mode with more than the nine permission bits. -/
def applyUpdate : Except Error SecurityDescriptor :=
  let mode := update.mode.getD descriptor.mode
  if mode &&& ~~~0o777 ≠ 0 then .error .invalidArgument
  else .ok ⟨update.ownerUid.getD descriptor.ownerUid, update.ownerGid.getD descriptor.ownerGid,
    mode⟩

/-- `update_changes_ownership`. -/
def changesOwnership : Bool :=
  update.ownerUid.any (· != descriptor.ownerUid) || update.ownerGid.any (· != descriptor.ownerGid)

end SecurityDescriptor

/-- Whether a file system keeps descriptors of its own, and lets them be changed. -/
inductive MutationSupport where
  | layoutDerivedOnly | persistentReadOnly | persistent
  deriving DecidableEq

/-- Who may change the permissions below a path. -/
inductive PermissionMutationScope where
  | systemManaged | dataBoundary | userData

structure Metadata where
  kind : NodeKind
  security : SecurityDescriptor

/-! ### What follows from a path alone -/

def isDescendantOf (path root : Path) : Bool := (root ++ ['/']).isPrefixOf path

def isExactOrChildOf (path root : Path) : Bool := path == root || isDescendantOf path root

/-- `permission_mutation_scope`: the scope its place in the tree gives a path. -/
def permissionMutationScope (path : Path) : PermissionMutationScope :=
  if path = ['/'] ∨ isExactOrChildOf path "/system".toList ∨ isExactOrChildOf path "/apps".toList
    then
    .systemManaged
  else if path = "/data".toList ∨ path = "/data/users".toList ∨
      isExactOrChildOf path "/data/etc".toList then
    .dataBoundary
  else if isDescendantOf path "/data".toList ∨ isExactOrChildOf path "/tmp".toList then .userData
  else .systemManaged

/-- `device_mode_for_path`: the mode of a device node, by its path. -/
def deviceModeForPath (path : Path) : Option AccessBits :=
  if ["console", "stdin", "stdout", "stderr", "null", "zero"].any
      (fun name => path == ("/system/dev/" ++ name).toList) then some 0o666
  else if ["debug", "serial0", "keyboard", "keyboard-raw"].any
      (fun name => path == ("/system/dev/" ++ name).toList) then some 0o660
  else none

/-- `default_security_descriptor_for_path`: what a node without a stored descriptor is given. -/
def defaultSecurityDescriptorForPath (path : Path) (kind : NodeKind) : SecurityDescriptor :=
  if path = ['/'] ∨ path = "/data".toList ∨ path = "/data/users".toList then .root 0o755
  else if isExactOrChildOf path "/data/etc".toList then
    .root (if kind = .directory then 0o700 else 0o600)
  else
    match if kind = .device then deviceModeForPath path else none with
    | some mode => .root mode
    | none =>
      if isExactOrChildOf path "/system".toList ∨ isExactOrChildOf path "/apps".toList then
        .root (match kind with | .directory => 0o755 | .device => 0o660 | .file | .symlink => 0o644)
      else if isDescendantOf path "/data".toList then
        .guest (if kind = .directory then 0o775 else 0o664)
      else if isExactOrChildOf path "/tmp".toList then
        .guest (if kind = .directory then 0o777 else 0o666)
      else
        .root (match kind with
          | .directory => 0o755 | .file => 0o644 | .device => 0o660 | .symlink => 0o777)

/-- `parent_normalized_path`: none for the root. -/
def parentNormalizedPath (path : Path) : Option Path :=
  if path = ['/'] ∨ '/' ∉ path then none
  else
    let parent := (path.reverse.dropWhile (· != '/')).tail.reverse
    some (if parent = [] then ['/'] else parent)

/-! ### The mount table -/

/-- What a change of one node is. -/
inductive NodeChange where
  | write (offset : ℕ) (bytes : List UInt8)
  | setLen (length : ℕ)
  | punchHole (offset length : ℕ)
  | setXattr (name value : List UInt8)
  | removeXattr (name : List UInt8)
  | setFileFlags (set clear : ℕ)

/-- The methods that change a file system. -/
inductive Mutation (ν : Type) where
  | createFile (path : Path)
  | createDir (path : Path)
  | removePath (path : Path)
  | rename (old new : Path)
  | swapPaths (a b : Path)
  | change (node : ν) (change : NodeChange)
  | updateSecurityDescriptor (path : Path) (security : SecurityDescriptor)
  | checkAndRepair

/-- **A file system**, by what it answers. The one thing asked of it is that `stat` and `lookup`
mean the same node. -/
structure Backend (ν σ : Type) where
  support : σ → MutationSupport
  kind : ν → NodeKind
  lookup : σ → Path → Except Error ν
  stat : σ → Path → Except Error Metadata
  /-- Whether the listing of a directory succeeds. -/
  list : σ → Path → Except Error Unit
  mutate : Mutation ν → σ → Except Error (Option ν) × σ
  stat_kind : ∀ s path metadata node, stat s path = .ok metadata → lookup s path = .ok node →
    kind node = metadata.kind

structure MountPoint (F : Type) where
  fs : F
  readOnly : Bool

/-- The mounted file systems, in the order of their paths, and the loaded policy of type
enforcement. -/
structure FileSystem (F ν σ : Type) where
  backend : Backend ν σ
  mounts : List (Path × MountPoint F)
  checkFile : SecurityToken → Path → NodeKind → AccessBits → Bool

/-- A mount holds its own path and everything below it. -/
def matchesMount (path mount : Path) : Bool :=
  if path = mount then true
  else if mount.getLast? = some '/' then mount.isPrefixOf path
  else (mount ++ ['/']).isPrefixOf path

section Table

variable {F ν σ : Type}

/-- One round of the search for the longest mount. -/
def pickLonger (path : Path) (best : Option (Path × MountPoint F)) (entry : Path × MountPoint F) :
    Option (Path × MountPoint F) :=
  if matchesMount path entry.1 then
    match best with
    | some other => if entry.1.length ≤ other.1.length then best else some entry
    | none => some entry
  else best

/-- `relative_path`: the path as the mounted file system is asked for it. -/
def relativePath (path mount : Path) : Path :=
  if path = mount then ['/']
  else
    let suffix := path.drop mount.length
    if suffix.head? = some '/' then suffix else '/' :: suffix

namespace FileSystem

variable (fs : FileSystem F ν σ) (v : F → σ) (path : Path)

/-- `resolve_mount_entry`: the longest mount that holds the path. -/
def resolveMountEntry : Option (MountPoint F × Path) :=
  (fs.mounts.foldl (pickLonger path) none).map fun entry => (entry.2, relativePath path entry.1)

def requireMountEntry : Except Error (MountPoint F × Path) :=
  match fs.resolveMountEntry path with
  | some entry => .ok entry
  | none => .error .notFound

variable (token : SecurityToken)

/-- `mount_allows_write`. -/
def mountAllowsWrite : Bool :=
  match fs.resolveMountEntry path with
  | some (mount, _) => !mount.readOnly || token.mayBypassReadOnlyMounts
  | none => true

/-- `require_mount_write_access`: the guard of every change. -/
def requireMountWriteAccess : Except Error Unit :=
  if fs.mountAllowsWrite path token then .ok () else .error .permissionDenied

/-- The descriptor is the volume's own where it keeps descriptors, and follows from the path where
it does not. -/
def statNormalizedPath : Except Error Metadata :=
  if path = ['/'] then .ok ⟨.directory, defaultSecurityDescriptorForPath path .directory⟩
  else do
    let (mount, relative) ← fs.requireMountEntry path
    let metadata ← fs.backend.stat (v mount.fs) relative
    let _ ← (if metadata.kind = .directory then fs.backend.list (v mount.fs) relative else .ok ())
    if fs.backend.support (v mount.fs) = .layoutDerivedOnly then
      .ok ⟨metadata.kind, defaultSecurityDescriptorForPath path metadata.kind⟩
    else .ok metadata

/-- `effective_access_query_context_for_metadata`, as far as it decides. -/
def allows (metadata : Metadata) (required : AccessBits) (token : SecurityToken) : Bool :=
  let access := metadata.security.accessQueryFor required token
  let allowed :=
    if metadata.kind ≠ .device ∧ access.canWrite ∧ ¬fs.mountAllowsWrite path token then
      required &&& ~~~(access.grantedModeBits &&& ~~~accessWrite) == 0
    else access.allowed
  allowed && fs.checkFile token path metadata.kind required

/-- The rights of a handle that are asked for. -/
structure DesiredAccess where
  read : Bool
  write : Bool

/-- `required_open_access`: a directory is searched as well. -/
def requiredOpenAccess (kind : NodeKind) (desired : DesiredAccess) : AccessBits :=
  (if desired.read then accessRead else 0) ||| (if desired.write then accessWrite else 0) |||
    if kind = .directory ∧ (desired.read ∨ desired.write) then accessExecute else 0

/-- `authorize_existing_open`: the node's descriptor first, then the mount. -/
def authorizeExistingOpen (desired : DesiredAccess) (token : SecurityToken) :
    Except Error Unit := do
  let metadata ← fs.statNormalizedPath v path
  if fs.allows path metadata (requiredOpenAccess metadata.kind desired) token then
    -- Input and output of a device does not need a writable mount.
    if desired.write ∧ metadata.kind ≠ .device then fs.requireMountWriteAccess path token
    else .ok ()
  else .error .permissionDenied

/-- `authorize_parent_directory_mutation`: write and search on the parent. -/
def authorizeParentDirectoryMutation : Except Error Unit :=
  match parentNormalizedPath path with
  | none => .error .invalidArgument
  | some parent => do
    fs.requireMountWriteAccess path token
    let metadata ← fs.statNormalizedPath v parent
    if metadata.kind ≠ .directory then .error .invalidArgument
    else if fs.allows parent metadata (accessWrite ||| accessExecute) token then .ok ()
    else .error .permissionDenied

/-- `authorize_security_descriptor_update`: the scope of the path decides who may. -/
def authorizeSecurityDescriptorUpdate (current : SecurityDescriptor)
    (update : SecurityDescriptorUpdate) (token : SecurityToken) : Except Error Unit := do
  fs.requireMountWriteAccess path token
  if token.isKernelToken then .ok ()
  else
    match permissionMutationScope path with
    | .systemManaged => if token.recovery then .ok () else .error .permissionDenied
    | .dataBoundary =>
      if token.isAdminMode ∨ token.recovery then .ok () else .error .permissionDenied
    | .userData =>
      if token.isAdminMode ∨ token.recovery then .ok ()
      else if token.userId ≠ current.ownerUid ∨ current.changesOwnership update then
        .error .permissionDenied
      else .ok ()

end FileSystem

open FileSystem (DesiredAccess)

/-! ### Requests -/

/-- What an open does with a node that is, or is not, there. -/
inductive Disposition where
  | openExisting | createNew | openAlways
  deriving DecidableEq

/-- What a program asks for. A change of a node by its path is one of its attributes or flags; its
content is changed through a handle. -/
inductive Request where
  | openFile (path : Path) (desired : DesiredAccess) (disposition : Disposition)
  | createDir (path : Path)
  | removePath (path : Path)
  | rename (old new : Path)
  | swapPaths (a b : Path)
  | changeAttribute (path : Path) (change : NodeChange)
  | changeContent (handle : ℕ) (change : NodeChange)
  | setSecurityDescriptor (path : Path) (update : SecurityDescriptorUpdate)
  | repairVolume (path : Path)

/-- An open file. Of the last three fields no function of the code knows: who opened it, whether the
request made the file, and what the volumes were then. -/
structure Handle (F ν σ : Type) where
  fs : F
  node : ν
  path : Path
  desired : DesiredAccess
  token : SecurityToken
  created : Bool
  opened : F → σ

/-- What the volumes hold, and the open files. -/
structure State (F ν σ : Type) where
  volumes : F → σ
  handles : List (Handle F ν σ) := []

namespace FileSystem

variable [DecidableEq F] (fs : FileSystem F ν σ) (s : State F ν σ) (token : SecurityToken)

/-- `with_authorized_namespace_mutation`. -/
def namespaceCall (path : Path) (call : F → Path → Except Error (Mutation ν)) :
    Except Error (Option (F × Mutation ν)) := do
  fs.authorizeParentDirectoryMutation s.volumes path token
  let (mount, relative) ← fs.requireMountEntry path
  let method ← call mount.fs relative
  .ok (some (mount.fs, method))

/-- Two paths of one file system that a request renames or swaps. -/
def pairCall (a b : Path) (method : Path → Path → Mutation ν) :
    Except Error (Option (F × Mutation ν)) := do
  let (mount, relativeA) ← fs.requireMountEntry a
  let (mount', relativeB) ← fs.requireMountEntry b
  if mount.fs ≠ mount'.fs then .error .unsupported
  else
    fs.authorizeParentDirectoryMutation s.volumes a token
    fs.authorizeParentDirectoryMutation s.volumes b token
    .ok (some (mount.fs, method relativeA relativeB))

/-- **The call that a request ends in**, if it ends in one: to which file system, and of which
method. -/
def callOf : Request → Except Error (Option (F × Mutation ν))
  | .openFile path desired .openExisting => do
    fs.authorizeExistingOpen s.volumes path desired token
    .ok none
  | .openFile path _ .createNew => fs.namespaceCall s token path fun f relative =>
    match fs.backend.lookup (s.volumes f) relative with
    | .ok _ => .error .alreadyExists
    | .error .notFound => .ok (.createFile relative)
    | .error e => .error e
  | .openFile path desired .openAlways => do
    let (mount, relative) ← fs.requireMountEntry path
    match fs.backend.lookup (s.volumes mount.fs) relative with
    | .ok _ =>
      fs.authorizeExistingOpen s.volumes path desired token
      .ok none
    | .error .notFound => fs.namespaceCall s token path fun _ relative => .ok (.createFile relative)
    | .error e => .error e
  | .createDir path => fs.namespaceCall s token path fun _ relative =>
    if relative = ['/'] then .error .alreadyExists else .ok (.createDir relative)
  | .removePath path => fs.namespaceCall s token path fun _ relative => .ok (.removePath relative)
  | .rename old new =>
    if old = ['/'] ∨ new = ['/'] then .error .invalidArgument
    else if old = new then .ok none
    else fs.pairCall s token old new .rename
  | .swapPaths a b =>
    if a = ['/'] ∨ b = ['/'] ∨ a = b then .error .invalidArgument
    else fs.pairCall s token a b .swapPaths
  | .changeAttribute path change =>
    if path = ['/'] then .error .permissionDenied
    else do
      fs.authorizeExistingOpen s.volumes path ⟨false, true⟩ token
      let (mount, relative) ← fs.requireMountEntry path
      let node ← fs.backend.lookup (s.volumes mount.fs) relative
      .ok (some (mount.fs, .change node change))
  | .changeContent i change =>
    match s.handles[i]? with
    | none => .error .invalidArgument
    | some handle =>
      if ¬handle.desired.write then .error .permissionDenied
      -- The device does its own input and output.
      else if fs.backend.kind handle.node = .device then .ok none
      else .ok (some (handle.fs, .change handle.node change))
  | .setSecurityDescriptor path update => do
    let metadata ← fs.statNormalizedPath s.volumes path
    fs.authorizeSecurityDescriptorUpdate path metadata.security update token
    let updated ← metadata.security.applyUpdate update
    let (mount, relative) ← fs.requireMountEntry path
    if fs.backend.support (s.volumes mount.fs) ≠ .persistent then .error .unsupported
    else .ok (some (mount.fs, .updateSecurityDescriptor relative updated))
  | .repairVolume path =>
    if path = ['/'] then .error .unsupported
    else do
      let (mount, _) ← fs.requireMountEntry path
      .ok (some (mount.fs, .checkAndRepair))

/-- The handle that a request leaves, where it opened a file. -/
def handleOf (v : F → σ) (made : Option ν) : Request → Option (Handle F ν σ)
  | .openFile path desired _ =>
    match fs.requireMountEntry path, fs.statNormalizedPath v path with
    | .ok (mount, relative), .ok _ =>
      match made, fs.backend.lookup (v mount.fs) relative with
      | some node, _ => some ⟨mount.fs, node, path, desired, token, true, s.volumes⟩
      | none, .ok node =>
        -- The descriptor of a directory cannot be written.
        if path = ['/'] ∨ fs.backend.kind node = .directory then none
        else some ⟨mount.fs, node, path, desired, token, false, s.volumes⟩
      | none, .error _ => none
    | _, _ => none
  | _ => none

/-- A request. -/
def exec (request : Request) : State F ν σ :=
  match fs.callOf s token request with
  | .error _ => s
  | .ok none => ⟨s.volumes, s.handles ++ (fs.handleOf s token s.volumes none request).toList⟩
  | .ok (some (f, method)) =>
    let (answer, after) := fs.backend.mutate method (s.volumes f)
    let v := Function.update s.volumes f after
    match answer with
    | .ok (some node) => ⟨v, s.handles ++ (fs.handleOf s token v (some node) request).toList⟩
    | _ => ⟨v, s.handles⟩

end FileSystem

/-! ### What a call needs -/

/-- The mount of a path: no mount that matches it is longer. -/
structure Longest (mounts : List (Path × MountPoint F)) (path : Path)
    (entry : Path × MountPoint F) :
    Prop where
  mem : entry ∈ mounts
  matched : matchesMount path entry.1 = true
  longest : ∀ other ∈ mounts, matchesMount path other.1 = true → other.1.length ≤ entry.1.length

/-- The state of the search after some of the mounts. -/
def Searched (path : Path) (seen : List (Path × MountPoint F)) :
    Option (Path × MountPoint F) → Prop
  | some entry => Longest seen path entry
  | none => ∀ other ∈ seen, matchesMount path other.1 = false

theorem searched_nil (path : Path) : Searched (F := F) path [] none := nofun

variable {path : Path} {seen : List (Path × MountPoint F)} {best : Option (Path × MountPoint F)}

theorem Searched.step (h : Searched path seen best) (entry : Path × MountPoint F) :
    Searched path (seen ++ [entry]) (pickLonger path best entry) := by
  unfold pickLonger
  split
  · rename_i hmat
    rcases best with _ | other
    · refine ⟨by simp, hmat, forall_mem_append.mpr ⟨fun next hsn hm => ?_, by simp⟩⟩
      rw [h next hsn] at hm
      cases hm
    dsimp only
    split
    · rename_i hle
      exact ⟨by simp [h.mem], h.matched, forall_mem_append.mpr ⟨h.longest, by simp [hle]⟩⟩
    rename_i hlt
    refine ⟨by simp, hmat, forall_mem_append.mpr ⟨fun next hsn hm => ?_, by simp⟩⟩
    exact (h.longest next hsn hm).trans (Nat.le_of_not_le hlt)
  · rename_i hmat
    rcases best with _ | other
    · exact forall_mem_append.mpr ⟨h, by simpa using hmat⟩
    · exact ⟨by simp [h.mem], h.matched, forall_mem_append.mpr ⟨h.longest, by simp [hmat]⟩⟩

theorem Searched.foldl (h : Searched path seen best) (mounts : List (Path × MountPoint F)) :
    Searched path (seen ++ mounts) (mounts.foldl (pickLonger path) best) := by
  induction mounts generalizing seen best with
  | nil => simpa using h
  | cons entry mounts ih => simpa using ih (h.step entry)

variable {fs : FileSystem F ν σ} {v : F → σ} {path : Path} {token : SecurityToken}

section

variable (fs : FileSystem F ν σ)

/-- The mount of the path belongs to a file system and is not read-only. -/
def FileSystem.Writable (path : Path) (f : F) : Prop :=
  ∃ entry, Longest fs.mounts path entry ∧ entry.2.fs = f ∧ entry.2.readOnly = false

/-- The token may bypass the permissions, or the effective descriptor of the path grants it an
access. -/
def FileSystem.Grants (v : F → σ) (path : Path) (required : AccessBits)
    (token : SecurityToken) : Prop :=
  token.mayBypassDiscretionaryPermissions = true ∨
    ∃ metadata, fs.statNormalizedPath v path = .ok metadata ∧
      metadata.security.grantsAccess required token

/-- The parent of the path may be written and searched. -/
def FileSystem.ParentGrants (v : F → σ) (path : Path) (token : SecurityToken) : Prop :=
  ∃ parent, parentNormalizedPath path = some parent ∧
    fs.Grants v parent (accessWrite ||| accessExecute) token

/-- Whom the scope of a path lets change a descriptor: only recovery a managed one, an administrator
a boundary, and an owner its own data, which it may not give away. -/
def ScopeAdmits (path : Path) (current : SecurityDescriptor) (update : SecurityDescriptorUpdate)
    (token : SecurityToken) : Prop :=
  match permissionMutationScope path with
  | .systemManaged => token.recovery = true
  | .dataBoundary => token.isAdminMode = true ∨ token.recovery = true
  | .userData => token.isAdminMode = true ∨ token.recovery = true ∨
      token.userId = current.ownerUid ∧ current.changesOwnership update = false

/-- **A call is mediated**: what must hold of the mount and of the descriptors, in the state before
the request, if the request ends in a call to a file system. For the content of a file the node must
have granted it when the handle was opened. -/
def FileSystem.Mediated (s : State F ν σ) (token : SecurityToken) (f : F) : Request → Prop
  | .openFile path _ _ | .createDir path | .removePath path =>
    fs.Writable path f ∧ fs.ParentGrants s.volumes path token
  | .rename a b | .swapPaths a b =>
    (fs.Writable a f ∧ fs.ParentGrants s.volumes a token) ∧
      fs.Writable b f ∧ fs.ParentGrants s.volumes b token
  | .changeAttribute path _ => fs.Writable path f ∧ fs.Grants s.volumes path accessWrite token
  | .changeContent i _ => ∃ handle, s.handles[i]? = some handle ∧ handle.fs = f ∧
      fs.Writable handle.path f ∧ fs.Grants handle.opened handle.path accessWrite handle.token
  | .setSecurityDescriptor path update => fs.Writable path f ∧
      (token.mayBypassDiscretionaryPermissions = true ∨ ∃ metadata,
        fs.statNormalizedPath s.volumes path = .ok metadata ∧
          ScopeAdmits path metadata.security update token)
  | .repairVolume path => fs.Writable path f ∧ fs.Grants s.volumes path accessWrite token

end

/-! ### What the checks give -/

variable {required : AccessBits} {granted : AccessBits}

theorem covers_of_and {mask : AccessBits} (h : required &&& ~~~(granted &&& mask) = 0) :
    required &&& ~~~granted = 0 := by
  grind

theorem covers_of_covers {access : AccessBits} (h : required &&& access = access)
    (hrequ : required &&& ~~~granted = 0) : access &&& ~~~granted = 0 := by
  rw [← h, BitVec.and_assoc, BitVec.and_comm access, ← BitVec.and_assoc, hrequ]
  exact BitVec.zero_and

theorem allows_grants {metadata : Metadata} (h : fs.allows path metadata required token = true) :
    token.mayBypassDiscretionaryPermissions = true ∨
      metadata.security.grantsAccess required token := by
  refine or_iff_not_imp_left.mpr fun hbyp => ?_
  have hquery : (metadata.security.accessQueryFor required token).allowed = true →
      metadata.security.grantsAccess required token := by
    intro hal
    simp only [SecurityDescriptor.accessQueryFor, beq_iff_eq] at hal
    split at hal
    · exact covers_of_and hal
    · exact hal
  rw [FileSystem.allows, Bool.and_eq_true] at h
  have hal := h.1
  split at hal
  · refine hquery ?_
    exact beq_iff_eq.mpr (covers_of_and (beq_iff_eq.mp hal))
  · exact hquery hal

theorem writable_of_ok {entry : MountPoint F × Path} (hent : fs.requireMountEntry path = .ok entry)
    (hwr : fs.requireMountWriteAccess path token = .ok ()) (hord : token.recovery = false) :
    fs.Writable path entry.1.fs := by
  have hres : fs.resolveMountEntry path = some entry := by
    rw [FileSystem.requireMountEntry] at hent
    split at hent <;> simp_all
  have halws : fs.mountAllowsWrite path token = true := by
    rw [FileSystem.requireMountWriteAccess] at hwr
    split at hwr <;> simp_all
  have hsear : Searched path fs.mounts (fs.mounts.foldl (pickLonger path) none) :=
    (searched_nil path).foldl fs.mounts
  rw [FileSystem.mountAllowsWrite, hres] at halws
  obtain ⟨found, hfnd, rfl⟩ := map_eq_some_iff.mp hres
  rw [hfnd] at hsear
  refine ⟨found, hsear, rfl, ?_⟩
  simpa [SecurityToken.mayBypassReadOnlyMounts, hord] using halws

theorem authorizeParent_spec (h : fs.authorizeParentDirectoryMutation v path token = .ok ()) :
    fs.requireMountWriteAccess path token = .ok () ∧ fs.ParentGrants v path token := by
  rw [FileSystem.authorizeParentDirectoryMutation] at h
  split at h
  · cases h
  rename_i parent hpar
  obtain ⟨_, hwr, h⟩ := bind_eq_ok.mp h
  obtain ⟨metadata, hst, h⟩ := bind_eq_ok.mp h
  split at h
  · cases h
  split at h
  · rename_i halws
    refine ⟨hwr, parent, hpar, (allows_grants halws).imp_right fun hgr => ?_⟩
    exact ⟨metadata, hst, hgr⟩
  · cases h

theorem authorizeExistingOpen_spec {desired : DesiredAccess} (hdes : desired.write = true)
    (h : fs.authorizeExistingOpen v path desired token = .ok ()) :
    fs.Grants v path accessWrite token ∧ ∃ metadata, fs.statNormalizedPath v path = .ok metadata ∧
      (metadata.kind ≠ .device → fs.requireMountWriteAccess path token = .ok ()) := by
  obtain ⟨metadata, hst, h⟩ := bind_eq_ok.mp h
  split at h
  · rename_i halws
    refine ⟨(allows_grants halws).imp_right fun hgr => ⟨metadata, hst, ?_⟩,
      metadata, hst, fun hkind => ?_⟩
    · refine covers_of_covers ?_ hgr
      rw [FileSystem.requiredOpenAccess, hdes]
      cases desired.read <;> cases metadata.kind <;> decide
    · rwa [if_pos ⟨hdes, hkind⟩] at h
  · cases h

theorem authorizeSecurityDescriptorUpdate_spec {current : SecurityDescriptor}
    {update : SecurityDescriptorUpdate}
    (h : fs.authorizeSecurityDescriptorUpdate path current update token = .ok ()) :
    fs.requireMountWriteAccess path token = .ok () ∧
      (token.mayBypassDiscretionaryPermissions = true ∨ ScopeAdmits path current update token) := by
  obtain ⟨_, hwr, h⟩ := bind_eq_ok.mp h
  refine ⟨hwr, ?_⟩
  split at h
  · rename_i hker
    exact .inl (by rw [SecurityToken.mayBypassDiscretionaryPermissions, hker, Bool.true_or])
  right
  rw [ScopeAdmits]
  split at h
  · split at h
    · assumption
    · cases h
  · split at h
    · assumption
    · cases h
  split at h
  · rename_i hadmin
    exact hadmin.imp_right .inl
  split at h
  · cases h
  rename_i hown
  rw [not_or, not_not] at hown
  exact .inr (.inr ⟨hown.1, Bool.eq_false_iff.mpr hown.2⟩)

section Calls

variable {s : State F ν σ} {f : F} {method : Mutation ν}

variable {call : F → Path → Except Error (Mutation ν)} {made : Option (F × Mutation ν)}

theorem namespaceCall_spec (hord : token.recovery = false)
    (h : fs.namespaceCall s token path call = .ok made) :
    ∃ entry method, fs.requireMountEntry path = .ok entry ∧ made = some (entry.1.fs, method) ∧
      fs.Writable path entry.1.fs ∧ fs.ParentGrants s.volumes path token := by
  obtain ⟨_, hpar, h⟩ := bind_eq_ok.mp h
  obtain ⟨entry, hent, h⟩ := bind_eq_ok.mp h
  obtain ⟨method, _, h⟩ := bind_eq_ok.mp h
  obtain ⟨hwr, hgr⟩ := authorizeParent_spec hpar
  exact ⟨entry, method, hent, (Except.ok.inj h).symm, writable_of_ok hent hwr hord, hgr⟩

variable {desired : DesiredAccess} {disposition : Disposition}

/-- An opening finds its file and is authorised for it, or makes it. -/
theorem callOf_openFile [DecidableEq F]
    (h : fs.callOf s token (.openFile path desired disposition) = .ok made) :
    made = none ∧ fs.authorizeExistingOpen s.volumes path desired token = .ok () ∨
      ∃ call, fs.namespaceCall s token path call = .ok made := by
  cases disposition with
  | openExisting =>
    obtain ⟨_, hop, h⟩ := bind_eq_ok.mp h
    exact .inl ⟨(Except.ok.inj h).symm, hop⟩
  | createNew =>
    rw [FileSystem.callOf] at h
    exact .inr ⟨_, h⟩
  | openAlways =>
    obtain ⟨entry, _, h⟩ := bind_eq_ok.mp h
    dsimp only at h
    split at h
    · obtain ⟨_, hop, h⟩ := bind_eq_ok.mp h
      exact .inl ⟨(Except.ok.inj h).symm, hop⟩
    · exact .inr ⟨_, h⟩
    · cases h

theorem pairCall_spec [DecidableEq F] {a b : Path} {call : Path → Path → Mutation ν}
    (hord : token.recovery = false) (h : fs.pairCall s token a b call = .ok (some (f, method))) :
    (fs.Writable a f ∧ fs.ParentGrants s.volumes a token) ∧
      fs.Writable b f ∧ fs.ParentGrants s.volumes b token := by
  obtain ⟨⟨mount, relative⟩, hent, h⟩ := bind_eq_ok.mp h
  obtain ⟨⟨mount', relative'⟩, hent', h⟩ := bind_eq_ok.mp h
  dsimp only at h
  split at h
  · cases h
  rename_i hsm
  obtain ⟨_, ha, h⟩ := bind_eq_ok.mp h
  obtain ⟨_, hb, h⟩ := bind_eq_ok.mp h
  cases h
  obtain ⟨hwr, hgr⟩ := authorizeParent_spec ha
  obtain ⟨hwr', hgr'⟩ := authorizeParent_spec hb
  have hwrt' := writable_of_ok hent' hwr' hord
  rw [← not_not.mp hsm] at hwrt'
  exact ⟨⟨writable_of_ok hent hwr hord, hgr⟩, hwrt', hgr'⟩

/-! ### Runs -/

/-- The request is no repair, and no change of an attribute of a device node. -/
def Request.Ordinary (fs : FileSystem F ν σ) (v : F → σ) : Request → Prop
  | .repairVolume _ => False
  | .changeAttribute path _ => ∀ metadata, fs.statNormalizedPath v path = .ok metadata →
      metadata.kind ≠ .device
  | _ => True

/-- The request changes content through the handle whose opening made the file. Nobody has asked the
descriptor of that file. -/
def Request.ThroughMaker (handles : List (Handle F ν σ)) : Request → Prop
  | .changeContent i _ => ∃ handle, handles[i]? = some handle ∧ handle.created = true
  | _ => False

/-- A handle that writes a file was opened as it must be, on a mount that may be written. -/
def Handle.Lawful (fs : FileSystem F ν σ) (handle : Handle F ν σ) : Prop :=
  handle.desired.write = true → fs.backend.kind handle.node ≠ .device →
    fs.Writable handle.path handle.fs ∧
      (handle.created = false → fs.Grants handle.opened handle.path accessWrite handle.token)

theorem mediated_of_made (hord : token.recovery = false)
    (h : fs.namespaceCall s token path call = .ok (some (f, method))) :
    fs.Writable path f ∧ fs.ParentGrants s.volumes path token := by
  obtain ⟨entry, _, -, hmd, hwrt⟩ := namespaceCall_spec hord h
  cases hmd
  exact hwrt

variable {request : Request}

/-- Content is changed through a handle that writes, and not of a device. -/
theorem callOf_changeContent [DecidableEq F] {i : ℕ} {change : NodeChange}
    (h : fs.callOf s token (.changeContent i change) = .ok (some (f, method))) :
    ∃ handle, s.handles[i]? = some handle ∧ handle.fs = f ∧ handle.desired.write = true ∧
      fs.backend.kind handle.node ≠ .device := by
  rw [FileSystem.callOf] at h
  split at h
  · cases h
  rename_i handle hhandle
  split at h
  · cases h
  rename_i hwrite
  split at h
  · cases h
  rename_i hkind
  cases h
  exact ⟨handle, hhandle, rfl, not_not.mp hwrite, hkind⟩

/-- **The call that a request ends in is mediated.** -/
theorem callOf_mediated [DecidableEq F] (hs : ∀ handle ∈ s.handles, handle.Lawful fs)
    (hord : token.recovery = false) (hreq : request.Ordinary fs s.volumes)
    (hmaker : ¬request.ThroughMaker s.handles)
    (h : fs.callOf s token request = .ok (some (f, method))) : fs.Mediated s token f request := by
  cases request with
  | openFile path desired disposition =>
    rcases callOf_openFile h with ⟨hno, -⟩ | ⟨_, hmd⟩
    · cases hno
    · exact mediated_of_made hord hmd
  | createDir path | removePath path =>
    rw [FileSystem.callOf] at h
    exact mediated_of_made hord h
  | rename old new =>
    rw [FileSystem.callOf] at h
    split at h
    · cases h
    split at h
    · cases h
    · exact pairCall_spec hord h
  | swapPaths a b =>
    rw [FileSystem.callOf] at h
    split at h
    · cases h
    · exact pairCall_spec hord h
  | changeAttribute path change =>
    rw [FileSystem.callOf] at h
    split at h
    · cases h
    obtain ⟨_, hop, h⟩ := bind_eq_ok.mp h
    obtain ⟨entry, hent, h⟩ := bind_eq_ok.mp h
    obtain ⟨node, _, h⟩ := bind_eq_ok.mp h
    cases h
    obtain ⟨hgr, metadata, hst, hwr⟩ := authorizeExistingOpen_spec rfl hop
    exact ⟨writable_of_ok hent (hwr (hreq metadata hst)) hord, hgr⟩
  | changeContent i change =>
    obtain ⟨handle, hhandle, rfl, hwrite, hkind⟩ := callOf_changeContent h
    obtain ⟨hwritable, hgrants⟩ := hs handle (mem_of_getElem? hhandle) hwrite hkind
    refine ⟨handle, hhandle, rfl, hwritable, hgrants ?_⟩
    exact Bool.eq_false_iff.mpr fun hmade => hmaker ⟨handle, hhandle, hmade⟩
  | setSecurityDescriptor path update =>
    obtain ⟨metadata, hst, h⟩ := bind_eq_ok.mp h
    obtain ⟨_, haut, h⟩ := bind_eq_ok.mp h
    obtain ⟨_, _, h⟩ := bind_eq_ok.mp h
    obtain ⟨entry, hent, h⟩ := bind_eq_ok.mp h
    dsimp only at h
    split at h
    · cases h
    cases h
    obtain ⟨hwr, hadm⟩ := authorizeSecurityDescriptorUpdate_spec haut
    exact ⟨writable_of_ok hent hwr hord, hadm.imp_right fun hadm => ⟨metadata, hst, hadm⟩⟩
  | repairVolume path => cases hreq

theorem FileSystem.Mediated.writable (h : fs.Mediated s token f request) :
    ∃ path, fs.Writable path f := by
  cases request with
  | rename a b | swapPaths a b => exact ⟨a, h.1.1⟩
  | changeContent i change =>
    obtain ⟨handle, -, -, hwrt, -⟩ := h
    exact ⟨_, hwrt⟩
  | openFile | createDir | removePath | changeAttribute | setSecurityDescriptor | repairVolume =>
    exact ⟨_, h.1⟩

/-- **The call that a request ends in is to a file system that may be written**, also through the
handle that made the file. -/
theorem callOf_writable [DecidableEq F] (hs : ∀ handle ∈ s.handles, handle.Lawful fs)
    (hord : token.recovery = false) (hreq : request.Ordinary fs s.volumes)
    (h : fs.callOf s token request = .ok (some (f, method))) : ∃ path, fs.Writable path f := by
  by_cases hmaker : request.ThroughMaker s.handles
  · cases request with
    | changeContent i change =>
      obtain ⟨handle, hhandle, rfl, hwrite, hkind⟩ := callOf_changeContent h
      exact ⟨_, (hs handle (mem_of_getElem? hhandle) hwrite hkind).1⟩
    | _ => exact hmaker.elim
  · exact (callOf_mediated hs hord hreq hmaker h).writable

variable {entry : MountPoint F × Path} {node : ν}

/-- What a volume says of the kind of a path is the kind of the node that it finds there. -/
theorem kind_of_stat {metadata : Metadata} (hpath : path ≠ ['/'])
    (hst : fs.statNormalizedPath v path = .ok metadata)
    (hent : fs.requireMountEntry path = .ok entry)
    (hlk : fs.backend.lookup (v entry.1.fs) entry.2 = .ok node) :
    fs.backend.kind node = metadata.kind := by
  rw [FileSystem.statNormalizedPath, if_neg hpath] at hst
  obtain ⟨entry', hent', hst⟩ := bind_eq_ok.mp hst
  cases hent.symm.trans hent'
  obtain ⟨stat, hbac, hst⟩ := bind_eq_ok.mp hst
  rw [fs.backend.stat_kind _ _ _ _ hbac hlk]
  obtain ⟨_, _, hst⟩ := bind_eq_ok.mp hst
  split at hst <;> cases hst <;> rfl

variable {handle : Handle F ν σ}

/-- A handle for a file that was there is lawful, because its opening was authorised. -/
theorem lawful_of_existing (hord : token.recovery = false)
    (hop : fs.authorizeExistingOpen s.volumes path desired token = .ok ())
    (h : fs.handleOf s token s.volumes none (.openFile path desired disposition) = some handle) :
    handle.Lawful fs := by
  intro hwr hkind
  rw [FileSystem.handleOf] at h
  split at h
  · rename_i mount relative metadata hent hst
    split at h
    · rename_i hno
      cases hno
    · split at h
      · cases h
      rename_i node hlk hroot
      cases h
      obtain ⟨hgr, metadata, hst, hmnt⟩ := authorizeExistingOpen_spec hwr hop
      have hnode := kind_of_stat (fun hp => hroot (.inl hp)) hst hent hlk
      refine ⟨writable_of_ok hent (hmnt ?_) hord, fun _ => hgr⟩
      rw [← hnode]
      exact hkind
    · cases h
  · cases h

/-- A handle for a file that the request made is lawful, because its mount may be written. -/
theorem lawful_of_made (hent : fs.requireMountEntry path = .ok entry)
    (hwritable : fs.Writable path entry.1.fs)
    (h : fs.handleOf s token v (some node) (.openFile path desired disposition) = some handle) :
    handle.Lawful fs := by
  intro _ _
  rw [FileSystem.handleOf] at h
  split at h
  · rename_i hent' _
    cases hent.symm.trans hent'
    cases h
    exact ⟨hwritable, fun hmade => Bool.noConfusion hmade⟩
  · cases h

variable [DecidableEq F]

/-- **A request leaves lawful handles.** -/
theorem lawful_exec (hs : ∀ handle ∈ s.handles, handle.Lawful fs) (hord : token.recovery = false) :
    ∀ handle ∈ (fs.exec s token request).handles, handle.Lawful fs := by
  have hopn : ∀ {made : Option (F × Mutation ν)} {v : F → σ} {node : Option ν} {handle},
      fs.callOf s token request = .ok made → (made = none → node = none ∧ v = s.volumes) →
      (made.isSome → node.isSome) →
      handle ∈ (fs.handleOf s token v node request).toList → handle.Lawful fs := by
    intro made v node handle hcall hno hso hhdl
    have hhdl := mem_toList.mp hhdl
    cases request with
    | openFile path desired disposition =>
      rcases callOf_openFile hcall with ⟨hmd, hop⟩ | ⟨_, hmd⟩
      · obtain ⟨rfl, rfl⟩ := hno hmd
        exact lawful_of_existing hord hop hhdl
      obtain ⟨entry, _, hent, hmd, hwrt⟩ := namespaceCall_spec hord hmd
      obtain ⟨node, rfl⟩ := isSome_iff_exists.mp (hso (hmd ▸ rfl))
      exact lawful_of_made hent hwrt.1 hhdl
    | _ => cases hhdl
  rw [FileSystem.exec]
  split
  · exact hs
  · rename_i hcall
    exact forall_mem_append.mpr ⟨hs, fun _ => hopn hcall (fun _ => ⟨rfl, rfl⟩) nofun⟩
  rename_i f method hcall
  dsimp only
  split
  · exact forall_mem_append.mpr ⟨hs, fun _ => hopn hcall nofun fun _ => rfl⟩
  · exact hs

/-- A file system that no request calls stays as it is. -/
theorem volumes_exec {f : F} (h : ∀ method, fs.callOf s token request ≠ .ok (some (f, method))) :
    (fs.exec s token request).volumes f = s.volumes f := by
  rw [FileSystem.exec]
  split
  · rfl
  · rfl
  rename_i f' method hcall
  have hne : f ≠ f' := by
    rintro rfl
    exact h method hcall
  dsimp only
  split <;> exact Function.update_of_ne hne ..

/-- What a run of ordinary requests leads to, with tokens that are not in recovery mode. -/
def FileSystem.Reaches (fs : FileSystem F ν σ) : State F ν σ → State F ν σ → Prop :=
  Relation.ReflTransGen fun s s' => ∃ (token : SecurityToken) (request : Request),
    token.recovery = false ∧ request.Ordinary fs s.volumes ∧ s' = fs.exec s token request

/-- **Changes are mediated.** From volumes without open handles, in every state that ordinary
requests lead to, the call that an ordinary request ends in is mediated, unless it goes through the
handle that made the file; and a file system all of whose mounts are read-only is as it was. -/
theorem changes_mediated {volumes : F → σ} (hrun : fs.Reaches ⟨volumes, []⟩ s) :
    (∀ (token : SecurityToken) (request : Request) (f : F) (method : Mutation ν),
      token.recovery = false → request.Ordinary fs s.volumes → ¬request.ThroughMaker s.handles →
      fs.callOf s token request = .ok (some (f, method)) → fs.Mediated s token f request) ∧
    ∀ f, (∀ entry ∈ fs.mounts, entry.2.fs = f → entry.2.readOnly = true) →
      s.volumes f = volumes f := by
  have hinv : (∀ handle ∈ s.handles, handle.Lawful fs) ∧
      ∀ f, (∀ entry ∈ fs.mounts, entry.2.fs = f → entry.2.readOnly = true) →
        s.volumes f = volumes f := by
    induction hrun with
    | refl => exact ⟨nofun, fun _ _ => rfl⟩
    | tail _ hsp ih =>
      obtain ⟨token, request, hord, hreq, rfl⟩ := hsp
      refine ⟨lawful_exec ih.1 hord, fun f hro => ?_⟩
      refine (volumes_exec fun method hcall => ?_).trans (ih.2 f hro)
      -- A call to it would have found a mount of it that is not read-only.
      obtain ⟨_, entry, hlon, hfs, hwrt⟩ := callOf_writable ih.1 hord hreq hcall
      rw [hro entry hlon.mem hfs] at hwrt
      cases hwrt
  exact ⟨fun _ _ _ _ => callOf_mediated hinv.1, hinv.2⟩

end Calls

end Table

/-- A volume that only counts its changes, with one file. -/
def counter : Backend Unit ℕ where
  support _ := .layoutDerivedOnly
  kind _ := .file
  lookup _ _ := .ok ()
  stat _ _ := .ok ⟨.file, .root 0o644⟩
  list _ _ := .ok ()
  mutate _ n := (.ok none, n + 1)
  stat_kind _ _ _ _ hstat _ := by cases hstat; rfl

/-- The volume, mounted read-only under `/system` and writable under `/tmp`. -/
def twoMounts : FileSystem Bool Unit ℕ where
  backend := counter
  mounts := [("/system".toList, ⟨true, true⟩), ("/tmp".toList, ⟨false, false⟩)]
  checkFile _ _ _ _ := true

def guest : SecurityToken where
  userId := 1000
  primaryGroupId := 1000
  integrity := .medium

/-- A guest sets an attribute of a file under `/tmp`: the call is mediated, and what is mounted
read-only stays as it was. -/
theorem changes_mediated_of_guest : ∃ s : State Bool Unit ℕ,
    s.volumes false = 1 ∧ s.volumes true = 0 ∧
      twoMounts.Mediated s guest false (.changeAttribute "/tmp/a".toList (.setXattr [1] [2])) := by
  have hord : ∀ v, (Request.changeAttribute "/tmp/a".toList (.setXattr [1] [2])).Ordinary
      twoMounts v := by
    intro v metadata hst
    cases hst
    decide
  have hrun : twoMounts.Reaches ⟨fun _ => 0, []⟩ (twoMounts.exec ⟨fun _ => 0, []⟩ guest
      (.changeAttribute "/tmp/a".toList (.setXattr [1] [2]))) :=
    .single ⟨guest, _, rfl, hord _, rfl⟩
  obtain ⟨hmed, hro⟩ := changes_mediated hrun
  refine ⟨_, by decide +kernel, hro true (by decide), ?_⟩
  exact hmed guest _ false (.change () (.setXattr [1] [2])) rfl (hord _) id rfl

/-- **The repair of a volume is not mediated**: a guest's request for it changes a file system that
is mounted read-only. -/
theorem repair_unmediated : guest.isKernelToken = false ∧ guest.recovery = false ∧
      twoMounts.callOf ⟨fun _ => 0, []⟩ guest (.repairVolume "/system".toList) =
        .ok (some (true, .checkAndRepair)) ∧
      ¬twoMounts.Mediated ⟨fun _ => 0, []⟩ guest true (.repairVolume "/system".toList) ∧
      (twoMounts.exec ⟨fun _ => 0, []⟩ guest (.repairVolume "/system".toList)).volumes true =
        1 := by
  refine ⟨rfl, rfl, rfl, ?_, rfl⟩
  rintro ⟨⟨entry, hlon, hfs, hwrt⟩, -⟩
  have hmem := hlon.mem
  simp only [twoMounts, mem_cons, not_mem_nil, or_false] at hmem
  rcases hmem with rfl | rfl
  · cases hwrt
  · cases hfs

end Protofire.Vfs
