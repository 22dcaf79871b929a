import Protofire.Lib.Forest
import Protofire.SimpleFs.Path

/-!
# The admission of metadata

`validate_loaded_metadata` (`fs/simplefs/format_io.rs`) decides at a mount, and again before
every commit, whether an inode table and a dirent table may be used. It checks local
conditions – slices and extents in range, extents apart, every dirent in one live
directory's slice, every live node named once – and `Admitted` states what it accepts, so
that nothing below has to look at its loops again (`validateLoadedMetadata_eq_ok`).

The local conditions do not make a tree: two directories may name each other, with no path
to them from the root. That is the only way to miss (`Tables.rootedTree_iff`): accepted
tables describe a tree rooted at inode 0 exactly if no live directory contains itself.
-/

namespace Protofire.SimpleFs

open Inode Fallible List Option

/-- An inode table and a dirent table. -/
structure Tables where
  inodes : List Inode
  dirEntries : List DirEntry
  deriving DecidableEq

/-! ### The function of the code -/

/-- The check of the names of one directory: no two match. -/
def siblingsDistinct (same : Name → Name → Bool) : List DirEntry → Bool
  | [] => true
  | e :: rest => rest.all (fun f => !same e.name f.name) && siblingsDistinct same rest

/-- `get(start..stop)`. -/
def slice {α : Type} (l : List α) (start stop : ℕ) : Option (List α) :=
  if start ≤ stop ∧ stop ≤ l.length then some ((l.drop start).take (stop - start)) else none

/-- One round of the loop over the inodes, with the live extents and the coverage of the
dirents found so far. -/
def validateInode (same : Name → Name → Bool) (dirEntries : List DirEntry)
    (dataBlockStart deviceBlockCount : ℕ) (found : List (ℕ × ℕ) × List ℕ) (inode : Inode) :
    Except Error (List (ℕ × ℕ) × List ℕ) :=
  if inode.kind = .directory then
    match slice dirEntries inode.start inode.stop with
    | none => .error .invalidArgument
    | some entries =>
      if inode.deleted then .ok found
      else if siblingsDistinct same entries then
        .ok (found.1,
          found.2.mapIdx fun k n => if inode.start ≤ k ∧ k < inode.stop then n + 1 else n)
      else .error .invalidArgument
  else if inode.extentLength = 0 then
    if inode.deleted = false ∧ inode.size ≠ 0 ∧ inode.kind ≠ .symlink
    then .error .invalidArgument else .ok found
  else if inode.deleted then .ok found
  else if inode.extentStart < dataBlockStart ∨ deviceBlockCount < inode.extentEnd ∨
      inode.extentLength * blockSize < inode.size.toNat
    then .error .invalidArgument
  else .ok (found.1 ++ [(inode.extentStart, inode.extentEnd)], found.2)

/-- One round of the loop over the dirents, with the references to each inode counted so
far. -/
def validateDirEntry (inodes : List Inode) (counts : List ℕ) (entry : DirEntry) :
    Except Error (List ℕ) := do
  validateDirEntryName entry.name
  failIf (entry.child = 0) .invalidArgument
  let child ← ofOption .invalidArgument inodes[entry.child]?
  failIf (child.deleted = true) .invalidArgument
  failIf (entry.kind ≠ child.kind) .invalidArgument
  pure (counts.modify entry.child (· + 1))

/-- `validate_loaded_metadata`. -/
def validateLoadedMetadata (same : Name → Name → Bool) (t : Tables)
    (dataBlockStart deviceBlockCount : ℕ) : Except Error Unit := do
  let root ← ofOption .invalidArgument t.inodes.head?
  failIf (root.deleted = true ∨ root.kind ≠ .directory) .invalidArgument
  let found ← t.inodes.foldlM
    (validateInode same t.dirEntries dataBlockStart deviceBlockCount)
    ([], replicate t.dirEntries.length 0)
  let extents := found.1.insertionSort fun a b => a.1 ≤ b.1
  failIf (¬extents.IsChain fun a b => a.2 ≤ b.1) .invalidArgument
  failIf (found.2.any (· ≠ 1) = true) .invalidArgument
  let counts ← t.dirEntries.foldlM (validateDirEntry t.inodes)
    (replicate t.inodes.length 0)
  failIf
    (((t.inodes.zip counts).drop 1).any (fun x => !x.1.deleted && x.2 != 1) = true)
    .invalidArgument

/-! ### What it accepts -/

namespace Tables

variable (t : Tables)

/-- A live directory's slice covers an index of the dirent table. -/
def covers (k : ℕ) (inode : Inode) : Bool :=
  inode.liveDir && inode.start ≤ k && k < inode.stop

end Tables

/-- **The tables the validation accepts.** -/
structure Admitted (same : Name → Name → Bool) (t : Tables)
    (dataBlockStart deviceBlockCount : ℕ) : Prop where
  root : ∃ root, t.inodes[0]? = some root ∧ root.liveDir = true
  slices : ∀ inode ∈ t.inodes, inode.kind = .directory → inode.stop ≤ t.dirEntries.length
  siblings : ∀ inode ∈ t.inodes, inode.liveDir = true →
    siblingsDistinct same ((t.dirEntries.drop inode.start).take inode.count) = true
  sizes : ∀ inode ∈ t.inodes, inode.deleted = false → inode.kind ≠ .directory →
    inode.kind ≠ .symlink ∨ inode.extentLength ≠ 0 →
      inode.size.toNat ≤ inode.extentLength * blockSize
  extents : ∀ inode ∈ t.inodes, inode.hasExtent = true →
    dataBlockStart ≤ inode.extentStart ∧ inode.extentEnd ≤ deviceBlockCount
  apart : t.inodes.Pairwise fun a b => a.hasExtent = true → b.hasExtent = true →
    a.extentEnd ≤ b.extentStart ∨ b.extentEnd ≤ a.extentStart
  coverage : ∀ k < t.dirEntries.length, t.inodes.countP (Tables.covers k) = 1
  entries : ∀ e ∈ t.dirEntries, validateDirEntryName e.name = .ok () ∧ e.child ≠ 0 ∧
    ∃ inode, t.inodes[e.child]? = some inode ∧ inode.deleted = false ∧ e.kind = inode.kind
  named : ∀ (i : ℕ) (inode : Inode), i ≠ 0 → t.inodes[i]? = some inode → inode.deleted = false →
    t.dirEntries.countP (fun e => e.child == i) = 1

/-! ### The loop over the inodes -/

section InodeLoop

variable {same : Name → Name → Bool} {dirEntries : List DirEntry}
  {dataBlockStart deviceBlockCount : ℕ}

/-- What one round asks of an inode. -/
structure InodeAdmitted (same : Name → Name → Bool) (dirEntries : List DirEntry)
    (dataBlockStart deviceBlockCount : ℕ) (inode : Inode) : Prop where
  slices : inode.kind = .directory → inode.stop ≤ dirEntries.length
  siblings : inode.liveDir = true →
    siblingsDistinct same ((dirEntries.drop inode.start).take inode.count) = true
  sizes : inode.deleted = false → inode.kind ≠ .directory →
    inode.kind ≠ .symlink ∨ inode.extentLength ≠ 0 →
      inode.size.toNat ≤ inode.extentLength * blockSize
  extents : inode.hasExtent = true →
    dataBlockStart ≤ inode.extentStart ∧ inode.extentEnd ≤ deviceBlockCount

/-- The extent of an inode that has one. -/
def Inode.extent (inode : Inode) : Option (ℕ × ℕ) :=
  if inode.hasExtent then some (inode.extentStart, inode.extentEnd) else none

/-- What one round adds. -/
def addInode (found : List (ℕ × ℕ) × List ℕ) (inode : Inode) : List (ℕ × ℕ) × List ℕ :=
  (found.1 ++ inode.extent.toList,
    if inode.liveDir then
      found.2.mapIdx fun k n => if inode.start ≤ k ∧ k < inode.stop then n + 1 else n
    else found.2)

theorem Inode.liveDir_eq_true {inode : Inode} :
    inode.liveDir = true ↔ inode.kind = .directory ∧ inode.deleted = false := by
  simp [liveDir]

theorem Inode.hasExtent_eq_true {inode : Inode} : inode.hasExtent = true ↔
      inode.deleted = false ∧ inode.kind ≠ .directory ∧ inode.extentLength ≠ 0 := by
  have hcnt : inode.blockCount ≠ 0 ↔ inode.extentLength ≠ 0 := by
    rw [extentLength, ← UInt32.toNat_zero, Ne, Ne, UInt32.toNat_inj]
  simp only [hasExtent, Bool.and_eq_true, Bool.not_eq_true', bne_iff_ne, and_assoc, hcnt]

theorem slice_inode {inode : Inode} : slice dirEntries inode.start inode.stop =
      if inode.stop ≤ dirEntries.length then some ((dirEntries.drop inode.start).take inode.count)
      else none := by
  have hle : inode.start ≤ inode.stop := Nat.le_add_right _ _
  have hlen : inode.stop - inode.start = inode.count := Nat.add_sub_cancel_left ..
  simp [slice, hle, hlen]

/-- **What a round accepts, and what it adds.** -/
theorem validateInode_eq_ok {found found' : List (ℕ × ℕ) × List ℕ} {inode : Inode} :
    validateInode same dirEntries dataBlockStart deviceBlockCount found inode = .ok found' ↔
      InodeAdmitted same dirEntries dataBlockStart deviceBlockCount inode ∧
        found' = addInode found inode := by
  by_cases hdir : inode.kind = .directory
  · -- a directory: its slice, and the names in it
    have hno : ¬inode.hasExtent = true := fun h => (hasExtent_eq_true.mp h).2.1 hdir
    have hext : inode.extent = none := by simp [extent, hno]
    rw [validateInode, if_pos hdir, slice_inode]
    by_cases hsp : inode.stop ≤ dirEntries.length
    · rw [if_pos hsp]
      by_cases hdel : inode.deleted = true
      · have hlv : inode.liveDir = false := by simp [liveDir, hdel]
        simp only [hdel, if_true, addInode, hext, hlv, toList_none, append_nil, Except.ok.injEq]
        exact ⟨fun h => ⟨⟨fun _ => hsp, by simp [hlv], by simp [hdel], by simp [hno]⟩, h.symm⟩,
          fun h => h.2.symm⟩
      have hdel : inode.deleted = false := by simpa using hdel
      have hlv : inode.liveDir = true := liveDir_eq_true.mpr ⟨hdir, hdel⟩
      simp only [hdel, Bool.false_eq_true, if_false]
      split
      · rename_i hsib
        simp only [addInode, hext, hlv, toList_none, append_nil, Except.ok.injEq]
        exact ⟨fun h => ⟨⟨fun _ => hsp, fun _ => hsib, fun _ h => absurd hdir h,
          by simp [hno]⟩, h.symm⟩, fun h => h.2.symm⟩
      · rename_i hsib
        exact iff_of_false (by simp) fun h => hsib (h.1.siblings hlv)
    · rw [if_neg hsp]
      exact iff_of_false (by simp) fun h => hsp (h.1.slices hdir)
  · -- anything else: its extent
    have hlv : inode.liveDir = false := by simp [liveDir, hdir]
    rw [validateInode, if_neg hdir]
    by_cases hlen : inode.extentLength = 0
    · have hno : inode.hasExtent = false := by
        rw [← Bool.not_eq_true, hasExtent_eq_true]
        exact fun h => h.2.2 hlen
      have hsz : inode.size ≠ 0 ↔ ¬inode.size.toNat ≤ inode.extentLength * blockSize := by
        rw [hlen, Nat.zero_mul, Nat.le_zero, ← UInt32.toNat_zero, UInt32.toNat_inj]
      rw [if_pos hlen]
      split
      · rename_i hbad
        refine iff_of_false (by simp) fun h => ?_
        exact hsz.mp hbad.2.1 (h.1.sizes hbad.1 hdir (Or.inl hbad.2.2))
      rename_i hgd
      simp only [addInode, extent, hno, hlv, Bool.false_eq_true, if_false,
        toList_none, append_nil, Except.ok.injEq]
      refine ⟨fun h => ⟨⟨fun h => absurd h hdir, by simp [hlv], fun hdel _ hk => ?_,
        by simp [hno]⟩, h.symm⟩, fun h => h.2.symm⟩
      by_contra hc
      exact hgd ⟨hdel, hsz.mpr hc, hk.resolve_right fun h => h hlen⟩
    · rw [if_neg hlen]
      by_cases hdel : inode.deleted = true
      · have hno : inode.hasExtent = false := by simp [hasExtent, hdel]
        simp only [hdel, if_true, addInode, extent, hno, hlv, Bool.false_eq_true, if_false,
          toList_none, append_nil, Except.ok.injEq]
        exact ⟨fun h => ⟨⟨fun h => absurd h hdir, by simp [hlv], by simp [hdel],
          by simp [hno]⟩, h.symm⟩, fun h => h.2.symm⟩
      have hdel : inode.deleted = false := by simpa using hdel
      have hhas : inode.hasExtent = true := hasExtent_eq_true.mpr ⟨hdel, hdir, hlen⟩
      simp only [hdel, Bool.false_eq_true, if_false]
      split
      · refine iff_of_false (by simp) fun h => ?_
        have hrng := h.1.extents hhas
        have hsz := h.1.sizes hdel hdir (Or.inr hlen)
        omega
      rename_i hgd
      simp only [not_or, Nat.not_lt] at hgd
      simp only [addInode, extent, hhas, hlv, Except.ok.injEq]
      exact ⟨fun h => ⟨⟨fun h => absurd h hdir, by simp [hlv], fun _ _ _ => hgd.2.2,
        fun _ => ⟨hgd.1, hgd.2.1⟩⟩, h.symm⟩, fun h => h.2.symm⟩

variable (inodes : List Inode) (found : List (ℕ × ℕ) × List ℕ)

theorem foldl_addInode_fst :
    (inodes.foldl addInode found).1 = found.1 ++ inodes.filterMap extent := by
  induction inodes generalizing found with
  | nil => simp
  | cons inode inodes ih =>
    rw [foldl_cons, ih, addInode]
    cases h : inode.extent <;> simp [h]

theorem foldl_addInode_snd (k : ℕ) : (inodes.foldl addInode found).2[k]? =
      found.2[k]?.map (· + inodes.countP (Tables.covers k)) := by
  induction inodes generalizing found with
  | nil => simp
  | cons inode inodes ih =>
    have hst : (addInode found inode).2[k]? =
        found.2[k]?.map (· + if Tables.covers k inode then 1 else 0) := by
      by_cases hlv : inode.liveDir = true
      · rw [addInode, if_pos hlv, getElem?_mapIdx]
        simp only [Tables.covers, hlv, Bool.true_and, Bool.and_eq_true, decide_eq_true_eq]
        split <;> rfl
      · simp [addInode, Tables.covers, hlv]
    rw [List.foldl_cons, ih, hst, Option.map_map, List.countP_cons]
    congr 1
    funext n
    simp only [Function.comp_apply]
    omega

/-- Extents sorted by their start, each after the one before it, are apart. -/
theorem pairwise_of_isChain {l : List (ℕ × ℕ)} (hpos : ∀ x ∈ l, x.1 < x.2)
    (h : l.IsChain fun a b => a.2 ≤ b.1) : l.Pairwise fun a b => a.2 ≤ b.1 := by
  induction l with
  | nil => exact List.Pairwise.nil
  | cons a l ih =>
    have hre := ih (fun x hx => hpos x (mem_cons_of_mem _ hx)) h.of_cons
    refine pairwise_cons.mpr ⟨fun c hc => ?_, hre⟩
    cases l with
    | nil => cases hc
    | cons b l =>
      have hab : a.2 ≤ b.1 := (isChain_cons_cons.mp h).1
      rcases mem_cons.mp hc with rfl | hc
      · exact hab
      have hb := hpos b (by simp)
      have hbc := rel_of_pairwise_cons hre hc
      omega

/-- **The check of the sorted extents says that the extents are apart.** -/
theorem isChain_insertionSort_iff {l : List (ℕ × ℕ)} (hpos : ∀ x ∈ l, x.1 < x.2) :
    ((l.insertionSort fun a b => a.1 ≤ b.1).IsChain fun a b => a.2 ≤ b.1) ↔
      l.Pairwise fun a b => a.2 ≤ b.1 ∨ b.2 ≤ a.1 := by
  have hpm := perm_insertionSort (fun a b : ℕ × ℕ => a.1 ≤ b.1) l
  have hpos' : ∀ x ∈ l.insertionSort fun a b => a.1 ≤ b.1, x.1 < x.2 := fun x hx =>
    hpos x (hpm.mem_iff.mp hx)
  have hsymm : ∀ {a b : ℕ × ℕ}, a.2 ≤ b.1 ∨ b.2 ≤ a.1 → b.2 ≤ a.1 ∨ a.2 ≤ b.1 := fun h => h.symm
  rw [← hpm.pairwise_iff hsymm]
  constructor
  · exact fun h => (pairwise_of_isChain hpos' h).imp fun hab => Or.inl hab
  intro h
  have hsor := pairwise_insertionSort (fun a b : ℕ × ℕ => a.1 ≤ b.1) l
  refine List.Pairwise.isChain ((hsor.and h).imp_of_mem fun ha hb hab => ?_)
  have := hpos' _ hb
  omega

end InodeLoop
/-! ### The loop over the dirents -/

/-- What one round asks of a dirent. -/
def EntryAdmitted (inodes : List Inode) (e : DirEntry) : Prop :=
  validateDirEntryName e.name = .ok () ∧ e.child ≠ 0 ∧
    ∃ inode, inodes[e.child]? = some inode ∧ inode.deleted = false ∧ e.kind = inode.kind

theorem validateDirEntry_eq_ok {inodes : List Inode} {counts counts' : List ℕ} {e : DirEntry} :
    validateDirEntry inodes counts e = .ok counts' ↔
      EntryAdmitted inodes e ∧ counts' = counts.modify e.child (· + 1) := by
  unfold validateDirEntry
  simp only [bind_eq_ok, failIf_eq_ok, ofOption_eq_ok]
  constructor
  · rintro ⟨_, hname, _, hzero, child, hc, _, hdel, _, hkind, hcoun⟩
    refine ⟨⟨hname, hzero, child, hc, by simpa using hdel, by simpa using hkind⟩, ?_⟩
    exact (Except.ok.inj hcoun).symm
  · rintro ⟨⟨hname, hzero, child, hc, hdel, hkind⟩, rfl⟩
    exact ⟨(), hname, (), hzero, child, hc, (), by simp [hdel], (), by simp [hkind], rfl⟩

theorem foldl_modify_getElem? (dirEntries : List DirEntry) (counts : List ℕ) (i : ℕ) :
    (dirEntries.foldl (fun counts e => counts.modify e.child (· + 1)) counts)[i]? =
      counts[i]?.map (· + dirEntries.countP fun e => e.child == i) := by
  induction dirEntries generalizing counts with
  | nil => simp
  | cons e dirEntries ih =>
    rw [foldl_cons, ih, getElem?_modify]
    rcases counts[i]? with _ | n
    · rfl
    by_cases hi : e.child = i
    · simp [hi]
      omega
    · simp [hi]

/-- A list all of whose elements are one. -/
theorem any_ne_one_eq_false {l : List ℕ} :
    l.any (· ≠ 1) = false ↔ ∀ k < l.length, l[k]? = some 1 := by
  rw [List.any_eq_false]
  constructor
  · intro h k hk
    have := h _ (List.getElem_mem hk)
    rw [List.getElem?_eq_getElem hk]
    simpa using this
  intro h x hx
  obtain ⟨k, hk, rfl⟩ := List.mem_iff_getElem.mp hx
  have := h k hk
  rw [List.getElem?_eq_getElem hk] at this
  simpa using this

/-! ### The whole function -/

section Whole

variable {same : Name → Name → Bool} {t : Tables} {dataBlockStart deviceBlockCount : ℕ}

theorem extent_pos {inode : Inode} {x : ℕ × ℕ} (h : inode.extent = some x) : x.1 < x.2 := by
  unfold extent at h
  split at h
  · rename_i hhas
    cases h
    have := (hasExtent_eq_true.mp hhas).2.2
    simp only [extentEnd]
    omega
  · cases h

variable (inodes : List Inode)

theorem length_foldl_addInode (found : List (ℕ × ℕ) × List ℕ) :
    (inodes.foldl addInode found).2.length = found.2.length := by
  induction inodes generalizing found with
  | nil => rfl
  | cons inode inodes ih =>
    rw [foldl_cons, ih, addInode]
    split <;> simp

theorem length_foldl_modify (dirEntries : List DirEntry) (counts : List ℕ) :
    (dirEntries.foldl (fun counts e => counts.modify e.child (· + 1)) counts).length =
      counts.length := by
  induction dirEntries generalizing counts with
  | nil => rfl
  | cons e dirEntries ih => rw [foldl_cons, ih, length_modify]

theorem apart_iff : (inodes.filterMap extent).Pairwise (fun a b => a.2 ≤ b.1 ∨ b.2 ≤ a.1) ↔
      inodes.Pairwise fun a b => a.hasExtent = true → b.hasExtent = true →
        a.extentEnd ≤ b.extentStart ∨ b.extentEnd ≤ a.extentStart := by
  rw [pairwise_filterMap]
  refine List.Pairwise.iff fun {a b} => ?_
  constructor
  · intro h ha hb
    exact h _ (by rw [extent, if_pos ha]) _ (by rw [extent, if_pos hb])
  intro h x hx y hy
  unfold extent at hx hy
  split at hx <;> split at hy <;> cases hx <;> cases hy
  exact h ‹_› ‹_›

/-- The check of the reference counts. -/
theorem drop_any_eq_false {inodes : List Inode} {counts : List ℕ}
    (hlen : counts.length = inodes.length) :
    ((inodes.zip counts).drop 1).any (fun x => !x.1.deleted && x.2 != 1) = false ↔
      ∀ (i : ℕ) (inode : Inode), i ≠ 0 → inodes[i]? = some inode → inode.deleted = false →
        counts[i]? = some 1 := by
  rw [List.any_eq_false]
  constructor
  · intro h i inode hi hino hdel
    obtain ⟨n, hn⟩ : ∃ n, counts[i]? = some n := by
      have hlt := (List.getElem?_eq_some_iff.mp hino).1
      exact ⟨counts[i], List.getElem?_eq_getElem (hlen ▸ hlt)⟩
    have hmem : (inode, n) ∈ (inodes.zip counts).drop 1 := by
      refine List.mem_of_getElem? (i := i - 1) ?_
      rw [List.getElem?_drop, show 1 + (i - 1) = i by omega, List.getElem?_zip_eq_some]
      exact ⟨hino, hn⟩
    have hone := h _ hmem
    rw [hn]
    simpa [hdel] using hone
  · rintro h ⟨inode, n⟩ hmem
    obtain ⟨i, hi⟩ := List.mem_iff_getElem?.mp hmem
    rw [List.getElem?_drop, List.getElem?_zip_eq_some] at hi
    cases hdel : inode.deleted with
    | true => simp
    | false =>
      have hone := h (1 + i) inode (by omega) hi.1 hdel
      obtain rfl : n = 1 := Option.some.inj (hi.2.symm.trans hone)
      simp

/-- **The validation accepts exactly the admitted tables.** -/
theorem validateLoadedMetadata_eq_ok :
    validateLoadedMetadata same t dataBlockStart deviceBlockCount = .ok () ↔
      Admitted same t dataBlockStart deviceBlockCount := by
  have hexte : ∀ x ∈ t.inodes.filterMap extent, x.1 < x.2 := by
    intro x hx
    obtain ⟨inode, -, hx⟩ := mem_filterMap.mp hx
    exact extent_pos hx
  have hinod := @foldlM_eq_ok _ _ _ _ _ _ (fun found inode found' =>
    @validateInode_eq_ok same t.dirEntries dataBlockStart deviceBlockCount found found' inode)
    t.inodes ([], List.replicate t.dirEntries.length 0)
  have hes := @foldlM_eq_ok _ _ _ _ _ _ (fun counts e counts' =>
    @validateDirEntry_eq_ok t.inodes counts counts' e) t.dirEntries
    (List.replicate t.inodes.length 0)
  unfold validateLoadedMetadata
  simp only [bind_eq_ok, failIf_eq_ok, ofOption_eq_ok, hinod, hes, Bool.not_eq_true, not_not]
  constructor
  · rintro ⟨root, hroot, _, hrod, found, ⟨hin, rfl⟩, _, hchn, _, hcov, counts, ⟨hent, rfl⟩, hcoun⟩
    rw [foldl_addInode_fst] at hchn
    refine ⟨⟨root, ?_, ?_⟩, fun i hi => (hin i hi).slices, fun i hi => (hin i hi).siblings,
      fun i hi => (hin i hi).sizes, fun i hi => (hin i hi).extents, ?_, fun k hk => ?_, hent,
      fun i inode hi hino hdel => ?_⟩
    · rwa [head?_eq_getElem?] at hroot
    · rw [not_or, not_not] at hrod
      exact liveDir_eq_true.mpr ⟨hrod.2, by simpa using hrod.1⟩
    · exact (apart_iff t.inodes).mp ((isChain_insertionSort_iff hexte).mp hchn)
    · have hlen : k < (t.inodes.foldl addInode ([], List.replicate t.dirEntries.length 0)).2.length
        := by rw [length_foldl_addInode, length_replicate]; exact hk
      have hone := any_ne_one_eq_false.mp hcov k hlen
      rw [foldl_addInode_snd, getElem?_replicate, if_pos hk] at hone
      simpa using hone
    · have hlt := (List.getElem?_eq_some_iff.mp hino).1
      have hone := (drop_any_eq_false (by rw [length_foldl_modify, length_replicate])).mp
        hcoun i inode hi hino hdel
      rw [foldl_modify_getElem?, getElem?_replicate, if_pos hlt] at hone
      simpa using hone
  · intro h
    obtain ⟨root, hroot, hlv⟩ := h.root
    have hrod := liveDir_eq_true.mp hlv
    refine ⟨root, by rwa [head?_eq_getElem?], (), by simp [hrod.1, hrod.2], _,
      ⟨fun i hi => ⟨h.slices i hi, h.siblings i hi, h.sizes i hi, h.extents i hi⟩, rfl⟩, (), ?_, (),
      ?_, _, ⟨h.entries, rfl⟩, ?_⟩
    · rw [foldl_addInode_fst]
      exact (isChain_insertionSort_iff hexte).mpr ((apart_iff t.inodes).mpr h.apart)
    · refine any_ne_one_eq_false.mpr fun k hk => ?_
      rw [length_foldl_addInode, length_replicate] at hk
      rw [foldl_addInode_snd, getElem?_replicate, if_pos hk]
      simpa using h.coverage k hk
    · refine (drop_any_eq_false (by rw [length_foldl_modify, length_replicate])).mpr
        fun i inode hi hino hdel => ?_
      have hlt := (List.getElem?_eq_some_iff.mp hino).1
      rw [foldl_modify_getElem?, getElem?_replicate, if_pos hlt]
      simpa using h.named i inode hi hino hdel

end Whole

/-! ### The graph of the tables -/

/-- An element that a list has exactly one of, and its index. -/
theorem exists_of_countP_eq_one {α : Type} {p : α → Bool} {l : List α} (h : l.countP p = 1) :
    ∃ (i : ℕ) (a : α), l[i]? = some a ∧ p a = true ∧
      ∀ (j : ℕ) (b : α), l[j]? = some b → p b = true → j = i := by
  induction l with
  | nil => simp at h
  | cons a l ih =>
    rw [countP_cons] at h
    by_cases ha : p a = true
    · rw [if_pos ha] at h
      have hnone := countP_eq_zero.mp (Nat.succ.inj h)
      refine ⟨0, a, rfl, ha, fun j b hj hb => ?_⟩
      cases j with
      | zero => rfl
      | succ j => exact absurd hb (hnone b (mem_of_getElem? hj))
    · rw [if_neg ha] at h
      obtain ⟨i, b, hi, hb, huq⟩ := ih h
      refine ⟨i + 1, b, hi, hb, fun j c hj hc => ?_⟩
      cases j with
      | zero => exact absurd (Option.some.inj hj ▸ hc) ha
      | succ j => rw [huq j c hj hc]

theorem siblingsDistinct_iff {same : Name → Name → Bool} {l : List DirEntry} :
    siblingsDistinct same l = true ↔ l.Pairwise fun e f => same e.name f.name = false := by
  induction l with
  | nil => simp [siblingsDistinct]
  | cons e l ih => simp [siblingsDistinct, ih]

namespace Tables

variable (t : Tables)

/-- The node at an index was not removed. -/
def Live (i : ℕ) : Prop := ∃ inode, t.inodes[i]? = some inode ∧ inode.deleted = false

/-- The node at an index is a directory that was not removed. -/
def LiveDir (i : ℕ) : Prop := ∃ inode, t.inodes[i]? = some inode ∧ inode.liveDir = true

/-- An index of the dirent table is in the slice of a live directory. -/
def InSlice (p k : ℕ) : Prop :=
  ∃ dir, t.inodes[p]? = some dir ∧ dir.liveDir = true ∧ dir.start ≤ k ∧ k < dir.stop

/-- **A live directory has an entry for a node.** -/
def Link (p i : ℕ) : Prop := ∃ k e, t.InSlice p k ∧ t.dirEntries[k]? = some e ∧ e.child = i

/-- **The live nodes form a tree rooted at inode 0**, with the conditions the slices, the
names and the extents of such a tree meet. -/
structure RootedTree (same : Name → Name → Bool) (dataBlockStart deviceBlockCount : ℕ) :
    Prop where
  reachable : ∀ i, t.Live i → Relation.ReflTransGen t.Link 0 i
  parent : ∀ i, t.Live i → i ≠ 0 → ∃! p, t.Link p i
  slices : ∀ (p : ℕ) (dir : Inode), t.inodes[p]? = some dir → dir.liveDir = true →
    dir.stop ≤ t.dirEntries.length
  names : ∀ (p k l : ℕ) (e f : DirEntry), t.InSlice p k → t.InSlice p l →
    t.dirEntries[k]? = some e → t.dirEntries[l]? = some f → k < l → same e.name f.name = false
  extents : ∀ (i : ℕ) (inode : Inode), t.inodes[i]? = some inode → inode.hasExtent = true →
    dataBlockStart ≤ inode.extentStart ∧ inode.extentEnd ≤ deviceBlockCount
  apart : ∀ (i j : ℕ) (a b : Inode), t.inodes[i]? = some a → t.inodes[j]? = some b → i ≠ j →
    a.hasExtent = true → b.hasExtent = true →
      a.extentEnd ≤ b.extentStart ∨ b.extentEnd ≤ a.extentStart

end Tables

namespace Admitted

/-- The live nodes are finitely many. -/
theorem finite_live (t : Tables) : {i | t.Live i}.Finite := by
  refine (Set.finite_lt_nat t.inodes.length).subset ?_
  rintro i ⟨inode, hino, -⟩
  exact (List.getElem?_eq_some_iff.mp hino).1

variable {same : Name → Name → Bool} {t : Tables} {dataBlockStart deviceBlockCount : ℕ}
  (h : Admitted same t dataBlockStart deviceBlockCount)

include h

/-- Every dirent is in the slice of one live directory. -/
theorem exists_inSlice {k : ℕ} (hk : k < t.dirEntries.length) :
    ∃ p, t.InSlice p k ∧ ∀ q, t.InSlice q k → q = p := by
  obtain ⟨p, dir, hp, hcov, huq⟩ := exists_of_countP_eq_one (h.coverage k hk)
  have hcvs : ∀ inode : Inode, Tables.covers k inode = true ↔
      inode.liveDir = true ∧ inode.start ≤ k ∧ k < inode.stop := by
    simp [Tables.covers, and_assoc]
  refine ⟨p, ⟨dir, hp, (hcvs dir).mp hcov⟩, ?_⟩
  rintro q ⟨dir', hq, hin⟩
  exact huq q dir' hq ((hcvs dir').mpr hin)

/-- Every live node but the root is named by one dirent. -/
theorem exists_entry {i : ℕ} (hi : i ≠ 0) (hlv : t.Live i) :
    ∃ (k : ℕ) (e : DirEntry), t.dirEntries[k]? = some e ∧ e.child = i ∧
      ∀ (l : ℕ) (f : DirEntry), t.dirEntries[l]? = some f → f.child = i → l = k := by
  obtain ⟨inode, hino, hdel⟩ := hlv
  obtain ⟨k, e, hk, hch, huq⟩ := exists_of_countP_eq_one (h.named i inode hi hino hdel)
  exact ⟨k, e, hk, by simpa using hch, fun l f hl hf => huq l f hl (by simpa using hf)⟩

/-- The nodes the dirents name are live, and not the root. -/
theorem child_live {k : ℕ} {e : DirEntry} (hk : t.dirEntries[k]? = some e) :
    e.child ≠ 0 ∧ t.Live e.child := by
  obtain ⟨-, hne, inode, hino, hdel, -⟩ := h.entries e (mem_of_getElem? hk)
  exact ⟨hne, inode, hino, hdel⟩

/-- A node has at most one parent. -/
theorem link_unique {p q i : ℕ} (hp : t.Link p i) (hq : t.Link q i) : p = q := by
  obtain ⟨k, e, hpk, hk, hke⟩ := hp
  obtain ⟨l, f, hql, hl, hlf⟩ := hq
  obtain ⟨hne, hlv⟩ := h.child_live hk
  rw [hke] at hne hlv
  obtain ⟨m, g, -, -, huq⟩ := h.exists_entry hne hlv
  obtain rfl : k = l := (huq k e hk hke).trans (huq l f hl hlf).symm
  obtain ⟨r, -, huq⟩ := h.exists_inSlice (List.getElem?_eq_some_iff.mp hk).1
  exact (huq p hpk).trans (huq q hql).symm

/-- A live node that is not the root has a parent, which is a live directory. -/
theorem exists_link {i : ℕ} (hi : i ≠ 0) (hlv : t.Live i) : ∃ p, t.Link p i ∧ t.Live p := by
  obtain ⟨k, e, hk, hch, -⟩ := h.exists_entry hi hlv
  obtain ⟨p, hp, -⟩ := h.exists_inSlice (List.getElem?_eq_some_iff.mp hk).1
  refine ⟨p, ⟨k, e, hp, hk, hch⟩, ?_⟩
  obtain ⟨dir, hdir, hlv, -⟩ := hp
  exact ⟨dir, hdir, (liveDir_eq_true.mp hlv).2⟩

/-- Nothing has an entry for the root. -/
theorem not_link_root (p : ℕ) : ¬t.Link p 0 := by
  rintro ⟨k, e, -, hk, hch⟩
  exact (h.child_live hk).1 hch

/-- Two entries of one directory have different names. -/
theorem names_ne {p k l : ℕ} {e f : DirEntry} (hpk : t.InSlice p k) (hpl : t.InSlice p l)
    (hk : t.dirEntries[k]? = some e) (hl : t.dirEntries[l]? = some f) (hlt : k < l) :
    same e.name f.name = false := by
  obtain ⟨dir, hdir, hlv, hks, hkt⟩ := hpk
  obtain ⟨dir', hdir', -, hls, hlt'⟩ := hpl
  cases hdir.symm.trans hdir'
  have hpr := siblingsDistinct_iff.mp (h.siblings dir (mem_of_getElem? hdir) hlv)
  have hget : ∀ {m : ℕ} {g : DirEntry}, t.dirEntries[m]? = some g → dir.start ≤ m → m < dir.stop →
      ((t.dirEntries.drop dir.start).take dir.count)[m - dir.start]? = some g := by
    intro m g hm hs ht
    have hcnt : m - dir.start < dir.count := by
      simp only [stop] at ht
      omega
    rw [getElem?_take_of_lt hcnt, getElem?_drop, Nat.add_sub_cancel' hs, hm]
  obtain ⟨hk', hke⟩ := List.getElem?_eq_some_iff.mp (hget hk hks hkt)
  obtain ⟨hl', hlf⟩ := List.getElem?_eq_some_iff.mp (hget hl hls hlt')
  have := pairwise_iff_getElem.mp hpr _ _ hk' hl' (by omega)
  rwa [hke, hlf] at this

/-- The extents of two nodes are apart. -/
theorem extents_apart {i j : ℕ} {a b : Inode} (hi : t.inodes[i]? = some a)
    (hj : t.inodes[j]? = some b) (hij : i ≠ j) (ha : a.hasExtent = true) (hb : b.hasExtent = true) :
    a.extentEnd ≤ b.extentStart ∨ b.extentEnd ≤ a.extentStart := by
  obtain ⟨hi', rfl⟩ := List.getElem?_eq_some_iff.mp hi
  obtain ⟨hj', rfl⟩ := List.getElem?_eq_some_iff.mp hj
  rcases Nat.lt_or_gt_of_ne hij with hlt | hlt
  · exact pairwise_iff_getElem.mp h.apart i j hi' hj' hlt ha hb
  · exact (pairwise_iff_getElem.mp h.apart j i hj' hi' hlt hb ha).symm

end Admitted

/-! ### Trees and cycles -/

/-- **Accepted tables describe a tree rooted at inode 0 exactly if no live directory
contains itself.** -/
theorem Tables.rootedTree_iff {same : Name → Name → Bool} {t : Tables}
    {dataBlockStart deviceBlockCount : ℕ}
    (h : validateLoadedMetadata same t dataBlockStart deviceBlockCount = .ok ()) :
    t.RootedTree same dataBlockStart deviceBlockCount ↔
      ∀ d, t.LiveDir d → ¬Relation.TransGen t.Link d d := by
  have hadm := validateLoadedMetadata_eq_ok.mp h
  constructor
  · rintro htree d ⟨dir, hdir, hlv⟩
    have hrch := htree.reachable d ⟨dir, hdir, (liveDir_eq_true.mp hlv).2⟩
    exact @Forest.not_cycle_of_reachable ℕ t.Link 0 (fun _ _ _ => hadm.link_unique)
      hadm.not_link_root d hrch
  intro hacy
  refine ⟨fun i hi => ?_, fun i hi hne => ?_, fun p dir hp hlv => ?_,
    fun _ _ _ _ _ hpk hpl hk hl hlt => hadm.names_ne hpk hpl hk hl hlt,
    fun i inode hi => hadm.extents inode (mem_of_getElem? hi),
    fun _ _ _ _ hi hj hij ha hb => hadm.extents_apart hi hj hij ha hb⟩
  · refine Forest.reachable_of_not_cycle (Admitted.finite_live t) (fun x _ hx => ?_)
      (fun y hy hne => ?_) hi
    · -- an element of a cycle has an entry, so it is a live directory
      obtain ⟨y, ⟨k, e, ⟨dir, hdir, hlv, -⟩, -⟩, -⟩ := Relation.TransGen.head'_iff.mp hx
      exact hacy x ⟨dir, hdir, hlv⟩ hx
    · obtain ⟨p, hlk, hp⟩ := hadm.exists_link hne hy
      exact ⟨p, hp, hlk⟩
  · obtain ⟨p, hlk, -⟩ := hadm.exists_link hne hi
    exact ⟨p, hlk, fun q hq => hadm.link_unique hq hlk⟩
  · exact hadm.slices dir (mem_of_getElem? hp) (liveDir_eq_true.mp hlv).1

/-- A directory with a slice of the dirent table. -/
def directoryInode (entryStart entryCount : UInt32) : Inode where
  kind := .directory
  deleted := false
  entryStart
  entryCount
  dataBlock := 0
  blockCount := 0
  size := 0
  persistentSecurity := none
  dataChecksum := 0
  compressed := false
  deduped := false

/-- The root holds one directory. -/
def nestedTables : Tables where
  inodes := [directoryInode 0 1, directoryInode 1 0]
  dirEntries := [⟨1, .directory, ['d']⟩]

theorem rootedTree_iff_nestedTables :
    validateLoadedMetadata (namesMatch (fun _ => none) true) nestedTables 2 2 = .ok () ∧
      (nestedTables.RootedTree (namesMatch (fun _ => none) true) 2 2 ↔
        ∀ d, nestedTables.LiveDir d → ¬Relation.TransGen nestedTables.Link d d) :=
  ⟨by decide +kernel, Tables.rootedTree_iff (by decide +kernel)⟩

/-- The root is empty, and two directories hold each other. -/
def cyclicTables : Tables where
  inodes := [directoryInode 0 0, directoryInode 0 1, directoryInode 1 1]
  dirEntries := [⟨2, .directory, ['b']⟩, ⟨1, .directory, ['a']⟩]

/-- **The validation accepts tables that are no tree.** -/
theorem validate_accepts_cycle :
    ¬∀ (same : Name → Name → Bool) (t : Tables) (dataBlockStart deviceBlockCount : ℕ),
      validateLoadedMetadata same t dataBlockStart deviceBlockCount = .ok () →
        t.RootedTree same dataBlockStart deviceBlockCount := by
  intro hall
  have htree := hall (namesMatch (fun _ => none) true) cyclicTables 2 2 (by decide +kernel)
  have hrch := htree.reachable 1 ⟨directoryInode 0 1, rfl, rfl⟩
  -- the root has no entries, so it reaches only itself
  rcases Relation.ReflTransGen.cases_head hrch with h | ⟨x, ⟨k, e, ⟨dir, hdir, -, hs, ht⟩, -⟩, -⟩
  · cases h
  cases hdir
  have hcnt : (directoryInode 0 0).stop = 0 := by decide
  omega

end Protofire.SimpleFs
