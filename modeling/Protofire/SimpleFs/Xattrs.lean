import Protofire.SimpleFs.Admission
import Protofire.SimpleFs.Mount

/-!
# Extended attributes of an untrusted volume

`read_xattr_records` (`fs/simplefs/superblock.rs`) takes the lengths of a record from the
device as they are, and `fs/simplefs/xattr.rs` uses them as the bounds of slices into two
arrays of a fixed size. A live record whose lengths do not fit (`Fits`) is a panic that waits
for the next listing of its inode.

What is not wrong at the mount stays right: an attribute that is set has been measured, one
that is removed has no length, and a commit that fails puts back what was there. So whether
the calls are safe, in this volume and after any number of transactions, is decided by the
table the mount read (`xattr_safety`).
-/

namespace Protofire.SimpleFs

open List Bool Device Eff SimpleFs.Fs State XattrRecord

/-! ### Records whose lengths fit -/

/-- **A record the calls can read**: it is not live, or its lengths fit the two fields. -/
def XattrRecord.Fits (r : XattrRecord) : Prop :=
  r.status = xattrStatusLive → r.lengthsFit = true

theorem XattrRecord.fits_deleted (r : XattrRecord) : r.deleted.Fits := fun h => by
  cases (show (1 : UInt32) = 0 from h)

variable {r : XattrRecord}

theorem XattrRecord.lengthsFit_iff :
    r.lengthsFit = true ↔ r.nameLen.toNat ≤ xattrNameMax ∧ r.valueLen.toNat ≤ xattrValueMax := by
  simp [lengthsFit]

/-- A length that was checked fits its field. -/
theorem toNat_ofNat_le {n max : ℕ} (h : n ≤ max) : (UInt32.ofNat n).toNat ≤ max := by
  exact (Nat.mod_le _ _).trans h

variable {index : ℕ} {name : List UInt8}

theorem fits_newXattr {value : List UInt8} (hname : name.length ≤ xattrNameMax)
    (hval : value.length ≤ xattrValueMax) : (newXattr index name value).Fits := fun _ =>
  lengthsFit_iff.mpr ⟨toNat_ofNat_le hname, toNat_ofNat_le hval⟩

namespace State

/-- Every record of the table fits. -/
def XattrsFit (s : State) : Prop := ∀ r ∈ s.xattrs, r.Fits

/-- Every record of the table fits, and every record a rollback would put back. -/
def XattrsKept (s : State) : Prop := s.XattrsFit ∧ ∀ x ∈ s.undo.xattrs, x.2.Fits

variable {s : State}

theorem XattrsKept.putXattr (h : s.XattrsKept) (index : ℕ) {record : XattrRecord}
    (hr : record.Fits) : (s.putXattr index record).XattrsKept := by
  refine ⟨fun r hmem => ?_, fun x hx => ?_⟩
  · rcases mem_or_eq_of_mem_set hmem with hmem | rfl
    · exact h.1 r hmem
    · exact hr
  rcases mem_append.mp hx with hx | hx
  · exact h.2 x hx
  obtain ⟨old, hold, rfl⟩ := Option.map_eq_some_iff.mp (Option.mem_toList.mp hx)
  exact h.1 old (mem_of_getElem? hold)

theorem mem_replay {α : Type} {log : List (ℕ × α)} {v : List α} {a : α}
    (h : a ∈ Undo.replay log v) : a ∈ v ∨ ∃ x ∈ log, x.2 = a := by
  induction log with
  | nil => exact Or.inl h
  | cons x log ih =>
    rcases mem_or_eq_of_mem_set h with h | rfl
    · exact (ih h).imp_right fun ⟨y, hy, hya⟩ => ⟨y, mem_cons_of_mem x hy, hya⟩
    · exact Or.inr ⟨x, mem_cons_self, rfl⟩

theorem XattrsKept.rollbackUndo (h : s.XattrsKept) : s.rollbackUndo.XattrsKept := by
  refine ⟨fun r hmem => ?_, h.2⟩
  have hrep : r ∈ Undo.replay s.undo.xattrs s.xattrs := by
    change r ∈ Undo.truncate s.undo.xattrLen _ at hmem
    cases hlen : s.undo.xattrLen with
    | none => rwa [hlen] at hmem
    | some n =>
      rw [hlen] at hmem
      exact mem_of_mem_take hmem
  rcases mem_replay hrep with hr | ⟨x, hx, rfl⟩
  · exact h.1 r hr
  · exact h.2 x hx

/-- What `find_live_xattr` finds is a record of the table, live and of that name. -/
theorem found_isFor {index i : ℕ} {name : List UInt8}
    (h : s.xattrs.findIdx? (isFor index name) = some i) :
    ∃ r, s.xattrs[i]? = some r ∧ r ∈ s.xattrs ∧ r.isFor index name = true := by
  obtain ⟨hlt, hr, -⟩ := findIdx?_eq_some_iff_getElem.mp h
  exact ⟨_, getElem?_eq_getElem hlt, getElem_mem hlt, hr⟩

/-- Where the records fit, a search runs to its end. -/
theorem XattrsFit.findLiveXattr_run (h : s.XattrsFit) (index : ℕ) (name : List UInt8) :
    s.findLiveXattr index name s = (.ok (s.xattrs.findIdx? (isFor index name)), s) := by
  have hno : s.xattrs.any (overruns index name) = false := by
    rw [any_eq_false]
    intro r hr hov
    simp only [overruns, attached, and_eq_true, beq_iff_eq, decide_eq_true_eq] at hov
    obtain ⟨⟨⟨hlv, -⟩, hlen⟩, hov⟩ := hov
    have := (lengthsFit_iff.mp (h r hr hlv)).1
    omega
  rw [findLiveXattr, hno]
  rfl

end State

theorem XattrRecord.isFor_live (h : r.isFor index name = true) : r.status = xattrStatusLive := by
  simp only [isFor, attached, and_eq_true, beq_iff_eq] at h
  exact h.1.1.1

/-! ### The calls -/

/-- A call about the attributes of an inode. -/
inductive XattrCall where
  | list (index : ℕ)
  | get (index : ℕ) (name : List UInt8)
  | set (index : ℕ) (name value : List UInt8)
  | remove (index : ℕ) (name : List UInt8)

/-- What a call runs under the lock. -/
def XattrCall.run (fs : Fs) : XattrCall → LockedM Unit
  | .list index => do
    let _ ← listXattrsForInode index
    pure ()
  | .get index name => do
    let _ ← getXattrForInode index name
    pure ()
  | .set index name value => fs.setXattrForInode index name value
  | .remove index name => removeXattrForInode index name

variable {fs : Fs} {s : State}

/-- The listing of an inode panics exactly at a live record that does not fit. -/
theorem list_halts_iff : ((XattrCall.list index).run fs s).1 = .halt ↔
      ∃ r ∈ s.xattrs, r.attached index = true ∧ r.lengthsFit = false := by
  rw [XattrCall.run]
  simp only [listXattrsForInode, bind_run, get_run]
  cases hall : (s.xattrs.filter (attached index)).all lengthsFit with
  | true =>
    refine iff_of_false nofun ?_
    rintro ⟨r, hr, hidx, hft⟩
    have := all_eq_true.mp hall r (mem_filter.mpr ⟨hr, hidx⟩)
    rw [hft] at this
    cases this
  | false =>
    obtain ⟨r, hr, hft⟩ := all_eq_false.mp hall
    obtain ⟨hr, hidx⟩ := mem_filter.mp hr
    exact iff_of_true rfl ⟨r, hr, hidx, by simpa using hft⟩

/-- **Where the records fit, no call panics.** -/
theorem State.XattrsFit.run_ne_halt (h : s.XattrsFit) (call : XattrCall) :
    (call.run fs s).1 ≠ .halt := by
  cases call with
  | list index =>
    rw [Ne, list_halts_iff]
    rintro ⟨r, hr, hidx, hft⟩
    simp only [attached, and_eq_true, beq_iff_eq] at hidx
    rw [h r hr hidx.1] at hft
    cases hft
  | get index name =>
    rw [XattrCall.run, Ne]
    simp only [getXattrForInode, bind_run, get_run, h.findLiveXattr_run index name]
    rcases hfnd : s.xattrs.findIdx? (isFor index name) with _ | i
    · exact nofun
    obtain ⟨r, hi, hr, hfor⟩ := found_isFor hfnd
    have hft := (lengthsFit_iff.mp (h r hr (isFor_live hfor))).2
    simp [hi, hft, bind_run]
  | set index name value =>
    refine failIf_bind_ne_halt (failIf_bind_ne_halt (failIf_bind_ne_halt ?_))
    rw [bind_run_ok (h.findLiveXattr_run index name)]
    rcases hfnd : s.xattrs.findIdx? (isFor index name) with _ | i
    · rcases hsl : s.xattrs.findIdx? fun r => r.status == xattrStatusDeleted with _ | i
      · simp only [hsl]
        exact failIf_bind_ne_halt nofun
      · simp [hsl]
    · obtain ⟨r, hi, -⟩ := found_isFor hfnd
      simp [hi]
  | remove index name =>
    simp only [XattrCall.run, removeXattrForInode, bind_run, get_run,
      h.findLiveXattr_run index name]
    rcases hfnd : s.xattrs.findIdx? (isFor index name) with _ | i
    · exact nofun
    obtain ⟨r, hi, -⟩ := found_isFor hfnd
    simp [hi]

/-! ### Transactions keep what fits -/

section Kept

variable {fs : Fs}

open FsM Eff

variable {α : Type}

/-- What is behind a search may use what it found. -/
theorem preserves_found {I : State → Prop} {s : State} {index : ℕ} {name : List UInt8}
    {f : Option ℕ → LockedM α} (h : Preserves I (f (s.xattrs.findIdx? (isFor index name)))) :
    Preserves I (s.findLiveXattr index name >>= f) := by
  intro s' hs'
  rw [findLiveXattr]
  cases s.xattrs.any (overruns index name)
  · exact h s' hs'
  · exact hs'

theorem preserves_setXattrForInode (index : ℕ) (name value : List UInt8) :
    Preserves XattrsKept (fs.setXattrForInode index name value) := by
  refine Preserves.get_bind fun s hs => ?_
  refine (Preserves.failIf_bind fun hname => .failIf_bind fun hval => .bind (.failIf _ _) fun _ =>
    preserves_found ?_) s hs
  simp only [or_eq_false_iff, decide_eq_false_iff_not, not_lt] at hname hval
  rcases hfnd : s.xattrs.findIdx? (isFor index name) with _ | i
  · dsimp only
    split
    · exact .modify fun _ h => h.putXattr _ (fits_newXattr hname.2 hval)
    refine .bind (.failIf _ _) fun _ => .modify fun s' h => ⟨fun r hr => ?_, h.2⟩
    rcases mem_append.mp hr with hr | hr
    · exact h.1 r hr
    rw [mem_singleton.mp hr]
    exact fits_newXattr hname.2 hval
  · obtain ⟨r, hi, hr, hfor⟩ := found_isFor hfnd
    dsimp only
    rw [hi]
    refine .modify fun _ h => h.putXattr i fun hlv => ?_
    have hold := lengthsFit_iff.mp (hs.1 r hr hlv)
    exact lengthsFit_iff.mpr ⟨hold.1, toNat_ofNat_le hval⟩

theorem preserves_removeXattrForInode (index : ℕ) (name : List UInt8) :
    Preserves XattrsKept (removeXattrForInode index name) := by
  refine .bind .get fun s => preserves_found ?_
  split
  · exact .throw _
  split
  · exact .halt
  · exact .modify fun _ h => h.putXattr _ (fits_deleted _)

theorem preserves_rollback (e : Error) :
    Preserves (fun v => v.state.XattrsKept) (rollback e : FsM α) :=
  .bind (preserves_onState (.modify fun _ h => h.rollbackUndo)) fun _ => .throw _

theorem preserves_flushMetadata : Preserves (fun v => v.state.XattrsKept) fs.flushMetadata := by
  have hinner : Preserves (fun v : Volume => v.state.XattrsKept) fs.flushMetadataInner :=
    .bind .get fun _ => .bind (.assert _) fun _ => .bind (.ofOption _ _) fun _ =>
      .bind (preserves_onIo _) fun _ => preserves_onState (.modify fun _ h => h)
  refine .bind hinner.attempt fun result => ?_
  cases result with
  | ok _ => exact .pure _
  | error e => exact .bind (preserves_onState (.modify fun _ h => h)) fun _ => .throw _

/-- **A commit keeps what its closure keeps**, whether it is published or rolled back. -/
theorem preserves_commit {mutate : FsM α} (h : Preserves (fun v => v.state.XattrsKept) mutate) :
    Preserves (fun v => v.state.XattrsKept) (fs.commitMetadataUpdate mutate) := by
  refine .bind (preserves_onState (.modify fun _ h => ⟨h.1, nofun⟩)) fun _ =>
    .bind h.attempt fun result => ?_
  cases result with
  | error e => exact preserves_rollback e
  | ok a =>
    refine .bind .get fun v => ?_
    split
    · exact preserves_rollback _
    refine .bind preserves_flushMetadata.attempt fun result => ?_
    cases result with
    | error e => exact preserves_rollback e
    | ok _ => exact .bind (preserves_onState (.modify fun _ h => ⟨h.1, nofun⟩)) fun _ => .pure _

/-- A mutation of the attributes of a node. -/
def TxOp.isXattr : TxOp → Bool
  | .setXattr .. | .removeXattr .. => true
  | _ => false

theorem preserves_txRun_xattr {op : TxOp} (h : op.isXattr = true) :
    Preserves (fun v => v.state.XattrsKept) (fs.txRun op) := by
  cases op with
  | setXattr path name value =>
    exact .bind .get fun _ => .bind (preserves_onIo _) fun _ =>
      preserves_onState (preserves_setXattrForInode _ _ _)
  | removeXattr path name =>
    exact .bind .get fun _ => .bind (preserves_onIo _) fun _ =>
      preserves_onState (preserves_removeXattrForInode _ _)
  | createDir | removePath | updateSecurityDescriptor => cases h

/-- One transaction on attributes came back, with success or with an error. -/
def Fs.XattrStep (fs : Fs) (v v' : Volume) : Prop :=
  ∃ ops : List TxOp, (∀ op ∈ ops, op.isXattr = true) ∧ (fs.transactionOf ops v).1 ≠ .halt ∧
    (fs.transactionOf ops v).2 = v'

variable {v v' : Volume}

/-- **Every transaction on attributes keeps the records that fit.** -/
theorem Fs.XattrStep.kept (h : fs.XattrStep v v') (hv : v.state.XattrsKept) :
    v'.state.XattrsKept := by
  obtain ⟨ops, hops, -, rfl⟩ := h
  have hkt : Preserves (fun v => v.state.XattrsKept) (fs.transactionOf ops) :=
    .bind (.failIf _ _) fun _ =>
      preserves_commit (.forEach fun op hop => preserves_txRun_xattr (hops op hop))
  exact hkt v hv

/-- The volumes that transactions on attributes lead to. -/
def Fs.XattrReach (fs : Fs) : Volume → Volume → Prop := Relation.ReflTransGen fs.XattrStep

theorem Fs.XattrReach.kept (h : fs.XattrReach v v') (hv : v.state.XattrsKept) :
    v'.state.XattrsKept := by
  induction h with
  | refl => exact hv
  | tail _ hst ih => exact hst.kept ih

end Kept

/-! ### What a mount reads -/

/-- The records of the active table on a device. -/
def ParsedSuperblock.storedXattrs (p : ParsedSuperblock) (d : Device) : List XattrRecord :=
  let capacity := xattrCapacityOf p.record.xattrTableBlocks
  if p.formatVersion.supportsPersistentXattrs then
    readXattrRecords (bytesOf ((range (blocksFor (capacity * xattrRecordSize))).map fun i =>
      d.blocks (p.record.activeXattrTableBlock + i))) capacity
  else []

section Mounted

open Eff

variable {blocks : ℕ → Block}

/-- Reads leave the medium as it is. -/
theorem preserves_readBlocks (lba n : ℕ) :
    Preserves (fun d => d.blocks = blocks) (readBlocks lba n) := by
  intro d hd
  unfold readBlocks
  split
  · exact hd
  · split <;> exact hd

theorem preserves_loadFirst (same : Name → Name → Bool)
    (candidates : List (Name × ParsedSuperblock)) :
    ∀ saw, Preserves (fun d => d.blocks = blocks) (loadFirst same candidates saw) := by
  induction candidates with
  | nil => exact fun _ => .throw _
  | cons c rest ih =>
    intro saw
    refine .bind (.attempt ?_) fun result => ?_
    · exact .bind (.failIf _ _) fun _ => .bind (preserves_readBlocks _ _) fun _ =>
        .bind (preserves_readBlocks _ _) fun _ => .bind (.ofExcept _) fun _ =>
          .bind (.ofExcept _) fun _ => .bind .get fun _ => .bind (.ofExcept _) fun _ => .pure _
    · cases result with
      | ok tables => exact .pure _
      | error e => exact ih _

theorem preserves_loadCurrentRuntimeState (blocks : ℕ → Block) (same : Name → Name → Bool) :
    Preserves (fun d => d.blocks = blocks) (loadCurrentRuntimeState same) :=
  .bind (.bind (preserves_readBlocks _ _).attempt fun _ =>
    .bind (preserves_readBlocks _ _).attempt fun _ => .pure _) fun _ => preserves_loadFirst _ _ _

/-- **The attributes of a mounted volume** are the records of a table on the device, and nothing
is left for a rollback. -/
theorem openVolume_xattrs {caseSensitive : Bool} {simpleFolds : Char → Option Char}
    {stackDepth : ℕ} {d d' : Device} {fs : Fs} {v : Volume}
    (h : openVolume caseSensitive simpleFolds stackDepth d = (.ok (fs, v), d')) :
    ∃ p : ParsedSuperblock, v.state.xattrs = p.storedXattrs d ∧ v.state.undo.xattrs = [] := by
  obtain ⟨⟨label, p, tables⟩, d₁, hload, h⟩ := bind_eq_ok.mp h
  obtain ⟨xattrs, d₂, hxat, h⟩ := bind_eq_ok.mp h
  cases h
  have hbks := preserves_loadCurrentRuntimeState d.blocks
    (namesMatch simpleFolds caseSensitive) d rfl
  rw [hload] at hbks
  refine ⟨p, ?_, rfl⟩
  change xattrs = _
  rw [loadXattrs] at hxat
  rw [ParsedSuperblock.storedXattrs]
  split at hxat
  · rename_i hfmt
    obtain ⟨run, d₃, hrd, hxat⟩ := bind_eq_ok.mp hxat
    cases hxat
    rw [if_pos hfmt, ← hbks]
    unfold readBlocks at hrd
    split at hrd
    · cases hrd
    split at hrd
    · cases hrd
    cases hrd
    rfl
  · rename_i hfmt
    cases hxat
    rw [if_neg hfmt]

end Mounted

/-- **The calls about extended attributes are safe exactly on the volumes whose records fit.**
For every device content that mounts, no call panics in the mounted volume and after any
transactions on attributes, if and only if every live record of the table the mount read has
lengths that fit. -/
theorem xattr_safety {caseSensitive : Bool} {simpleFolds : Char → Option Char} {stackDepth : ℕ}
    {d d' : Device} {fs : Fs} {v : Volume}
    (h : Fs.openVolume caseSensitive simpleFolds stackDepth d = (.ok (fs, v), d')) :
    ∃ p : ParsedSuperblock, v.state.xattrs = p.storedXattrs d ∧
      ((∀ v', fs.XattrReach v v' → ∀ call : XattrCall, (call.run fs v'.state).1 ≠ .halt) ↔
        ∀ r ∈ p.storedXattrs d, r.Fits) := by
  obtain ⟨p, hsto, hundo⟩ := openVolume_xattrs h
  refine ⟨p, hsto, fun hsafe r hr hlv => ?_, fun hft v' hrch call => ?_⟩
  · -- a live record that does not fit is found by listing its inode
    by_contra hbad
    refine hsafe v .refl (.list r.inodeIndex.toNat) (list_halts_iff.mpr ⟨r, hsto ▸ hr, ?_, ?_⟩)
    · simp [attached, hlv]
    · simpa using hbad
  · have hkt : v.state.XattrsKept := ⟨fun r hr => hft r (hsto ▸ hr), by simp [hundo]⟩
    exact (hrch.kept hkt).1.run_ne_halt call

variable (xattrTable : Bytes)

/-- A V4 volume with one superblock, an empty root directory, and one block for its table of
extended attributes. -/
def smallVolume : Device where
  blockCount := 16
  readOnly := false
  queueDepth := 1
  blocks := fun b =>
    if b = primarySuperblockBlock then blockOf (writeSuperblock [] .v4 (smallRecord 6 7)) 0
    else if b = 2 then blockOf (encodeInode .v4 (newDirectory 0 none)) 0
    else if b = 6 then blockOf xattrTable 0
    else zeroBlock
  answers := fun _ => Answer.success
  now := 0
  inFlight := []
  log := []
  blockCount_le := by decide

/-- The mount of such a volume, with names compared as they are. -/
def smallMount : Outcome Error (Fs × Volume) × Device :=
  openVolume true (fun _ => none) 8 (smallVolume xattrTable)

/-- What the mounted volume satisfies, if there is one. -/
def mountedAnd (p : State → Bool) (m : Outcome Error (Fs × Volume) × Device) : Bool :=
  match m.1 with
  | .ok (_, v) => p v.state
  | _ => false

theorem exists_of_mountedAnd {p : State → Bool} {m : Outcome Error (Fs × Volume) × Device}
    (h : mountedAnd p m = true) : ∃ fs v d', m = (.ok (fs, v), d') ∧ p v.state = true := by
  obtain ⟨⟨fs, v⟩ | e | _, d'⟩ := m
  · exact ⟨fs, v, d', rfl, h⟩
  · cases h
  · cases h

/-- A volume whose root has an attribute with a name of five bytes. -/
theorem xattr_safety_of_fits : ∃ fs v d',
    smallMount (Bytes.zero.writeU32 4 5) = (.ok (fs, v), d') ∧
      (∃ r ∈ v.state.xattrs, r.attached 0 = true) ∧
      ∀ v', fs.XattrReach v v' → ∀ call : XattrCall, (call.run fs v'.state).1 ≠ .halt := by
  have hmounted : mountedAnd (fun s => (s.xattrs.any fun r => r.attached 0) &&
      s.xattrs.all fun r => r.lengthsFit) (smallMount (Bytes.zero.writeU32 4 5)) = true := by
    decide +kernel
  obtain ⟨fs, v, d', hmnt, hlive⟩ := exists_of_mountedAnd hmounted
  rw [and_eq_true, any_eq_true, all_eq_true] at hlive
  obtain ⟨p, hsto, hsafe⟩ := xattr_safety hmnt
  exact ⟨fs, v, d', hmnt, hlive.1, hsafe.mpr fun r hr _ => hlive.2 r (hsto ▸ hr)⟩

/-- **A record from the device makes a listing panic**: it is live, belongs to the root, and has
a name of 65 bytes in a field of 64. -/
theorem xattr_overrun :
    ¬∀ (caseSensitive : Bool) (simpleFolds : Char → Option Char) (stackDepth : ℕ) (d d' : Device)
      (fs : Fs) (v : Volume),
      Fs.openVolume caseSensitive simpleFolds stackDepth d = (.ok (fs, v), d') →
      ∀ v', fs.XattrReach v v' → ∀ call : XattrCall, (call.run fs v'.state).1 ≠ .halt := by
  intro hall
  have hbad : mountedAnd (fun s => s.xattrs.any fun r => r.attached 0 && !r.lengthsFit)
      (smallMount (Bytes.zero.writeU32 4 65)) = true := by
    decide +kernel
  obtain ⟨fs, v, d', hmnt, hany⟩ := exists_of_mountedAnd hbad
  obtain ⟨r, hr, hoverrun⟩ := any_eq_true.mp hany
  rw [and_eq_true, not_eq_true'] at hoverrun
  exact hall _ _ _ _ _ fs v hmnt v .refl (.list 0)
    (list_halts_iff.mpr ⟨r, hr, hoverrun.1, hoverrun.2⟩)

end Protofire.SimpleFs
