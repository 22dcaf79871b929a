import Protofire.SimpleFs.Format

/-!
# The regions of an accepted superblock

What `validate_superblock_record` (`fs/simplefs/format_io.rs`) knows about the regions that a
commit writes: the two superblocks and the two slots of tables. A slot is an inode table with
its dirent table right behind it, and the check keeps the slots apart, behind the superblocks
and in front of the data.

On V4 volumes an extended attribute table belongs to each slot (`flush_metadata_inner` writes
the shadow one at every commit), and no check looks at it. `superblock_admission` says what is
missing.
-/

namespace Protofire.SimpleFs

open IsEmpty List

/-! ### Runs of blocks -/

/-- A run of blocks: where it starts, and how many there are. -/
structure BlockRun where
  start : ℕ
  blocks : ℕ

namespace BlockRun

/-- The block behind a run. -/
def stop (a : BlockRun) : ℕ := a.start + a.blocks

instance : Membership ℕ BlockRun := ⟨fun a k => a.start ≤ k ∧ k < a.stop⟩

/-- Two runs share no block. -/
def Apart (a b : BlockRun) : Prop := ∀ k ∈ a, k ∉ b

theorem apart_iff {a b : BlockRun} :
    a.Apart b ↔ a.blocks = 0 ∨ b.blocks = 0 ∨ a.stop ≤ b.start ∨ b.stop ≤ a.start := by
  refine ⟨fun h => ?_, ?_⟩
  · -- the later of the two starts would be a block of both
    by_contra hmeet
    simp only [stop, not_or] at hmeet
    have hmax := h (max a.start b.start) ⟨le_max_left .., by simp only [stop]; omega⟩
    exact hmax ⟨le_max_right .., by simp only [stop]; omega⟩
  · rintro h k ⟨hak, hka⟩ ⟨hbk, hkb⟩
    simp only [stop] at h hka hkb
    omega

end BlockRun

namespace SuperblockRecord

/-! ### The regions -/

section

variable (r : SuperblockRecord)

/-- The regions of every format. -/
def slotRegions : List BlockRun :=
  [⟨primarySuperblockBlock, 1⟩, ⟨secondarySuperblockBlock, 1⟩,
    ⟨r.activeInodeTableBlock, r.inodeTableBlocks⟩, ⟨r.activeDirentTableBlock, r.direntTableBlocks⟩,
    ⟨r.shadowInodeTableBlock, r.inodeTableBlocks⟩, ⟨r.shadowDirentTableBlock, r.direntTableBlocks⟩]

/-- The active table of extended attributes. -/
def activeXattrs : BlockRun := ⟨r.activeXattrTableBlock, r.xattrTableBlocks⟩

/-- The shadow table of extended attributes. -/
def shadowXattrs : BlockRun := ⟨r.shadowXattrTableBlock, r.xattrTableBlocks⟩

/-- **The regions a commit writes**, and the superblocks. -/
def regions (v : FormatVersion) (r : SuperblockRecord) : List BlockRun :=
  r.slotRegions ++ if v.supportsPersistentXattrs then [r.activeXattrs, r.shadowXattrs] else []

/-- **The regions are laid out**: no two share a block, and all end where the data begins. -/
def Laid (v : FormatVersion) (r : SuperblockRecord) : Prop :=
  (r.regions v).Pairwise BlockRun.Apart ∧ ∀ a ∈ r.regions v, a.stop ≤ r.dataBlockStart

/-- The check of one more table that `validate_superblock_record` would have to make, if the
table has a block at all: behind the superblocks, and before or behind each slot. -/
def ClearOfSlots (a : BlockRun) : Prop :=
  secondarySuperblockBlock < a.start ∧
    (a.stop ≤ r.activeInodeTableBlock ∨ r.activeDirentTableBlock + r.direntTableBlocks ≤ a.start) ∧
    (a.stop ≤ r.shadowInodeTableBlock ∨ r.shadowDirentTableBlock + r.direntTableBlocks ≤ a.start)

/-- **The tables of extended attributes have a place of their own.** -/
def XattrsPlaced : Prop :=
  r.activeXattrs.stop ≤ r.dataBlockStart ∧ r.shadowXattrs.stop ≤ r.dataBlockStart ∧
    (0 < r.xattrTableBlocks → r.ClearOfSlots r.activeXattrs ∧ r.ClearOfSlots r.shadowXattrs ∧
      (r.activeXattrs.stop ≤ r.shadowXattrs.start ∨ r.shadowXattrs.stop ≤ r.activeXattrs.start))

end

/-! ### What the check admits -/

/-- What an accepted record satisfies. -/
structure Admitted (r : SuperblockRecord) : Prop where
  inodeBlocks : 0 < r.inodeTableBlocks
  active_gt : secondarySuperblockBlock < r.activeInodeTableBlock
  active_joined : r.activeDirentTableBlock = r.activeInodeTableBlock + r.inodeTableBlocks
  shadow_gt : secondarySuperblockBlock < r.shadowInodeTableBlock
  shadow_joined : r.shadowDirentTableBlock = r.shadowInodeTableBlock + r.inodeTableBlocks
  slots_apart : r.shadowDirentTableBlock + r.direntTableBlocks ≤ r.activeInodeTableBlock ∨
    r.activeDirentTableBlock + r.direntTableBlocks ≤ r.shadowInodeTableBlock
  active_stop : r.activeDirentTableBlock + r.direntTableBlocks ≤ r.dataBlockStart
  shadow_stop : r.shadowDirentTableBlock + r.direntTableBlocks ≤ r.dataBlockStart

theorem admitted_of_validate {r : SuperblockRecord} (h : validateSuperblockRecord r = .ok ()) :
    r.Admitted := by
  simp only [validateSuperblockRecord, Fallible.bind_eq_ok, Fallible.failIf_eq_ok] at h
  constructor <;> omega

variable {r : SuperblockRecord}

/-- The regions of every format are laid out by the check. -/
theorem Admitted.slotRegions_laid (h : r.Admitted) :
    r.slotRegions.Pairwise BlockRun.Apart ∧ ∀ a ∈ r.slotRegions, a.stop ≤ r.dataBlockStart := by
  obtain ⟨hbks, hact, hjoin, hshd, hjoin', hslo, hsp, hsp'⟩ := h
  simp only [secondarySuperblockBlock] at hact hshd
  simp only [slotRegions, primarySuperblockBlock, secondarySuperblockBlock, pairwise_cons,
    forall_mem_cons, not_mem_nil, forall_iff, implies_true, List.Pairwise.nil,
    and_true, BlockRun.apart_iff, BlockRun.stop]
  refine ⟨⟨?_, ?_, ?_, ?_, ?_⟩, ?_⟩ <;> omega

/-- A table is apart from the regions of every format exactly if it passes the check that is
made of them. -/
theorem Admitted.clear_iff (h : r.Admitted) {a : BlockRun} (ha : 0 < a.blocks) :
    (∀ b ∈ r.slotRegions, b.Apart a) ↔ r.ClearOfSlots a := by
  obtain ⟨hbks, hact, hjoin, hshd, hjoin', -, -, -⟩ := h
  simp only [slotRegions, primarySuperblockBlock, secondarySuperblockBlock, forall_mem_cons,
    not_mem_nil, forall_iff, implies_true, and_true, BlockRun.apart_iff,
    BlockRun.stop, ClearOfSlots]
  refine ⟨?_, ?_⟩
  · rintro ⟨hprim, hsec, hinod, hdir, hinod', hdir'⟩
    refine ⟨?_, ?_, ?_⟩ <;> omega
  · rintro ⟨hbeh, hsl, hsl'⟩
    refine ⟨?_, ?_, ?_, ?_, ?_, ?_⟩ <;> omega

end SuperblockRecord

open SuperblockRecord

/-- **Superblock admission.** The regions of an accepted record are laid out exactly if, on a
format that has them, the tables of extended attributes have a place of their own. -/
theorem superblock_admission {v : FormatVersion} {r : SuperblockRecord}
    (h : validateSuperblockRecord r = .ok ()) :
    r.Laid v ↔ (v.supportsPersistentXattrs = true → r.XattrsPlaced) := by
  have hadm := admitted_of_validate h
  obtain ⟨hprs, hstops⟩ := hadm.slotRegions_laid
  cases hv : v.supportsPersistentXattrs with
  | false =>
    rw [Laid, regions, hv, if_neg Bool.false_ne_true]
    exact iff_of_true ⟨hprs, hstops⟩ nofun
  | true =>
    simp only [Laid, regions, hv, if_true, pairwise_append, pairwise_cons,
      forall_mem_append, forall_mem_cons, not_mem_nil, forall_iff,
      implies_true, List.Pairwise.nil, and_true, hprs, true_and, true_implies, XattrsPlaced]
    rcases Nat.eq_zero_or_pos r.xattrTableBlocks with hzero | hpos
    · -- tables without a block are apart from everything
      have hno : ∀ b : BlockRun, b.Apart r.activeXattrs ∧ b.Apart r.shadowXattrs := fun b =>
        ⟨BlockRun.apart_iff.mpr (Or.inr (Or.inl hzero)),
          BlockRun.apart_iff.mpr (Or.inr (Or.inl hzero))⟩
      refine ⟨fun ⟨_, _, hen⟩ => ⟨hen.1, hen.2, fun hpos => absurd hzero hpos.ne'⟩, ?_⟩
      rintro ⟨hact, hshd, -⟩
      exact ⟨⟨(hno _).2, fun b _ => hno b⟩, hstops, hact, hshd⟩
    have hact := hadm.clear_iff (a := r.activeXattrs) hpos
    have hshd := hadm.clear_iff (a := r.shadowXattrs) hpos
    have hboth : r.activeXattrs.Apart r.shadowXattrs ↔
        (r.activeXattrs.stop ≤ r.shadowXattrs.start ∨
          r.shadowXattrs.stop ≤ r.activeXattrs.start) := by
      rw [BlockRun.apart_iff]
      exact ⟨fun h => (h.resolve_left hpos.ne').resolve_left hpos.ne', fun h => .inr (.inr h)⟩
    rw [hboth, ← hact, ← hshd]
    refine ⟨fun ⟨⟨h₁, h₂⟩, _, h₃, h₄⟩ => ⟨h₃, h₄, fun _ =>
      ⟨fun b hb => (h₂ b hb).1, fun b hb => (h₂ b hb).2, h₁⟩⟩, ?_⟩
    rintro ⟨h₃, h₄, hplaced⟩
    obtain ⟨h₁, h₂, h⟩ := hplaced hpos
    exact ⟨⟨h, fun b hb => ⟨h₁ b hb, h₂ b hb⟩⟩, hstops, h₃, h₄⟩

/-- A record of tables of one block each, with given places for those of the extended
attributes. -/
def smallRecord (activeXattr shadowXattr : ℕ) : SuperblockRecord where
  inodeCount := 1
  direntCount := 0
  activeInodeTableBlock := 2
  activeDirentTableBlock := 3
  shadowInodeTableBlock := 4
  shadowDirentTableBlock := 5
  inodeTableBlocks := 1
  direntTableBlocks := 1
  dataBlockStart := 8
  generation := 1
  pendingCommit := 0
  activeXattrTableBlock := activeXattr
  shadowXattrTableBlock := shadowXattr
  xattrTableBlocks := 1
  xattrCount := 0

/-- Tables of extended attributes between the slots and the data. -/
theorem superblock_admission_of_placed :
    validateSuperblockRecord (smallRecord 6 7) = .ok () ∧ (smallRecord 6 7).Laid .v4 :=
  ⟨rfl, (superblock_admission rfl).mpr fun _ => by
    refine ⟨by decide, by decide, fun _ => ⟨?_, ?_, by decide⟩⟩
    · exact ⟨by decide, by decide, by decide⟩
    · exact ⟨by decide, by decide, by decide⟩⟩

/-- **A table that no check looks at**: the shadow table of extended attributes, which the next
commit writes, is the active inode table. -/
theorem superblock_overlap :
    ¬∀ (v : FormatVersion) (r : SuperblockRecord), validateSuperblockRecord r = .ok () →
      r.Laid v := by
  intro hall
  obtain ⟨hap, -⟩ := hall .v4 (smallRecord 6 2) rfl
  -- the third region and the last
  have hmeet := pairwise_iff_getElem.mp hap 2 7 (by decide) (by decide) (by decide)
  exact hmeet 2 ⟨by decide, by decide⟩ ⟨by decide, by decide⟩

end Protofire.SimpleFs
