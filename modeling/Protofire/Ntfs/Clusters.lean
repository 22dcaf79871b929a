import Protofire.Lib.Bitmap
import Protofire.Ntfs.RecordCache

/-!
# The free clusters of a volume

Which clusters of a volume are in use is a file of the volume, `$Bitmap`, with a bit for every
cluster. A claim reads the file, finds the first run of clear bits that is long enough, sets
the bits and writes the file back; giving clusters back clears their bits in the same way. That
two claims never answer one cluster is therefore as true as a read of the file answers what the
last write left there.

* A file in clusters of its own is read and written through its runs, and there it is true
  (`readBitmap_run`, `writeBitmap_run`).
* A file that lies in its record is read from the record in the mount's cache and written to
  the device alone, so that the second claim of a mount answers what the first one did
  (`resident_claimed_twice`).

The place of the file's value in its record, its size and its runs are what the attributes of
the record say; no claim changes them, and they are given here.
-/

namespace Protofire.Ntfs

open Splice Bytes Eff Volume Bitmap List Mount Option Outcome

/-! ### Writing by runs -/

/-- No two bytes of a value lie in one place. -/
def Once (clusterSize : ℕ) (runs : List DataRun) : Prop :=
  ∀ k k' p, byteOffsetInRuns clusterSize runs k = some p →
    byteOffsetInRuns clusterSize runs k' = some p → k = k'

section Writing

variable {v : Volume} {run : DataRun} {runs : List DataRun} {buf : List UInt8} {cs : ℕ} {k : ℕ}

theorem byteOffsetInRuns_cons_of_lt (hrl : 0 ≤ run.lcn) (hlt : k < run.clusterCount * cs) :
    byteOffsetInRuns cs (run :: runs) k = some (run.lcn.toNat * cs + k) := by
  rw [byteOffsetInRuns, if_pos hlt, if_neg (by omega)]

theorem byteOffsetInRuns_cons_add (k : ℕ) :
    byteOffsetInRuns cs (run :: runs) (run.clusterCount * cs + k) = byteOffsetInRuns cs runs k := by
  rw [byteOffsetInRuns, if_neg (by omega), Nat.add_sub_cancel_left]

theorem Once.tail (h : Once cs (run :: runs)) : Once cs runs := fun k k' p hk hk' => by
  have := h (run.clusterCount * cs + k) (run.clusterCount * cs + k') p
    (by rwa [byteOffsetInRuns_cons_add]) (by rwa [byteOffsetInRuns_cons_add])
  omega

theorem exists_byteOffsetInRuns (hrl : ∀ run ∈ runs, 0 ≤ run.lcn) (hlt : k < spanned runs * cs) :
    ∃ p, byteOffsetInRuns cs runs k = some p := by
  induction runs generalizing k with
  | nil => simp at hlt
  | cons run runs ih =>
    rw [spanned_cons, Nat.add_mul] at hlt
    by_cases hhere : k < run.clusterCount * cs
    · exact ⟨_, byteOffsetInRuns_cons_of_lt (hrl run mem_cons_self) hhere⟩
    obtain ⟨k', rfl⟩ := Nat.exists_eq_add_of_le (Nat.le_of_not_lt hhere)
    rw [byteOffsetInRuns_cons_add]
    exact ih (fun r hr => hrl r (mem_cons_of_mem _ hr)) (by omega)

namespace Volume

/-- After the runs of a value there are zeros. -/
theorem runByte_of_ge {k : ℕ} (h : spanned runs * v.clusterSize ≤ k) : v.runByte runs k = 0 := by
  have hrgt := @runByte_append_right v runs [] k h
  rwa [append_nil] at hrgt

/-- A segment of a run can be written if the run is on the device. -/
theorem OnDevice.writeSegment (h : v.OnDevice (run :: runs)) (hrl : 0 ≤ run.lcn)
    {data : List UInt8} (hle : data.length ≤ run.clusterCount * v.clusterSize) :
    writeDeviceBytes (run.lcn.toNat * v.clusterSize) data v =
      (.ok (), { v with bytes := v.bytes.writeAt (run.lcn.toNat * v.clusterSize) data }) := by
  have hrd := h.segment hrl (show 0 + data.length ≤ _ by omega)
  rw [readDeviceBytes] at hrd
  refine if_pos ?_
  split at hrd
  · rename_i hft
    exact hft.imp_left eq_nil_of_length_eq_zero
  · cases hrd

/-- **What a write by runs leaves on the device**: every byte of the value in its place, and
nothing anywhere else. -/
theorem writeRuns_ok (hdev : v.OnDevice runs) (hrl : ∀ run ∈ runs, 0 ≤ run.lcn)
    (honce : Once v.clusterSize runs) (start total : ℕ) : ∃ total' bytes',
      writeRuns 0 buf.length buf runs start total v = (.ok total', { v with bytes := bytes' }) ∧
      (∀ p, (∀ k, byteOffsetInRuns v.clusterSize runs k ≠ some p) → bytes' p = v.bytes p) ∧
      ∀ k p, byteOffsetInRuns v.clusterSize runs k = some p →
        bytes' p = buf[start + k]?.getD (v.bytes p) := by
  induction runs generalizing start total v with
  | nil => exact ⟨total, v.bytes, rfl, fun _ _ => rfl, fun k p h => nomatch h⟩
  | cons run runs ih =>
    have hre : v.OnDevice runs := fun c hc => hdev c (names_cons.mpr (Or.inr hc))
    have hrer : ∀ run ∈ runs, 0 ≤ run.lcn := fun r hr => hrl r (mem_cons_of_mem _ hr)
    have hlcn : 0 ≤ run.lcn := hrl run mem_cons_self
    rw [writeRuns, bind_run_ok (get_run v)]
    by_cases hsp : buf.length ≤ start
    · rw [if_pos hsp]
      refine ⟨total, v.bytes, rfl, fun _ _ => rfl, fun k p _ => ?_⟩
      rw [getElem?_eq_none (by omega), getD_none]
    rw [if_neg hsp]
    -- the part of the buffer that belongs into this run, empty for a run without clusters
    generalize hdt : slice buf start
      (min buf.length (start + run.clusterCount * v.clusterSize) - start) = data
    have hlen : data.length =
        min buf.length (start + run.clusterCount * v.clusterSize) - start := by
      rw [← hdt, length_slice (by omega)]
    have hget : ∀ k < run.clusterCount * v.clusterSize, data[k]? = buf[start + k]? := by
      intro k hk
      rw [← hdt, getElem?_slice]
      split
      · rfl
      · rw [getElem?_eq_none (by omega)]
    generalize hv₁ : ({ v with
      bytes := v.bytes.writeAt (run.lcn.toNat * v.clusterSize) data }) = v₁
    have hgo : ∀ total₁, ∃ total' bytes', writeRuns 0 buf.length buf runs
        (start + run.clusterCount * v.clusterSize) total₁ v₁ =
          (.ok total', { v with bytes := bytes' }) ∧
        (∀ p, (∀ k, byteOffsetInRuns v.clusterSize (run :: runs) k ≠ some p) →
          bytes' p = v.bytes p) ∧
        ∀ k p, byteOffsetInRuns v.clusterSize (run :: runs) k = some p →
          bytes' p = buf[start + k]?.getD (v.bytes p) := by
      intro total₁
      subst hv₁
      obtain ⟨total', bytes', hrun, hout, hin⟩ := ih
        (show OnDevice { v with bytes := v.bytes.writeAt _ data } runs from hre) hrer
        honce.tail (start + run.clusterCount * v.clusterSize) total₁
      refine ⟨total', bytes', hrun, fun p hp => ?_, fun k p hk => ?_⟩
      · have hpast : p < run.lcn.toNat * v.clusterSize ∨
            run.lcn.toNat * v.clusterSize + data.length ≤ p := by
          by_contra hseg
          refine hp (p - run.lcn.toNat * v.clusterSize) ?_
          rw [byteOffsetInRuns_cons_of_lt hlcn (by omega)]
          congr 1
          omega
        refine (hout p fun k hk => ?_).trans (writeAt_apply_of_apart _ _ hpast)
        exact hp _ ((byteOffsetInRuns_cons_add k).trans hk)
      by_cases hlt : k < run.clusterCount * v.clusterSize
      · have hp := @byteOffsetInRuns_cons_of_lt run runs v.clusterSize k hlcn hlt
        cases hp.symm.trans hk
        refine (hout _ fun k' hk' => ?_).trans ?_
        · have := honce _ _ _ hk ((byteOffsetInRuns_cons_add k').trans hk')
          omega
        · change writeAt _ _ _ _ = _
          rw [writeAt, if_pos (by omega), Nat.add_sub_cancel_left, hget k hlt]
      obtain ⟨k', rfl⟩ := Nat.exists_eq_add_of_le (Nat.le_of_not_lt hlt)
      have hk' := (byteOffsetInRuns_cons_add k').symm.trans hk
      rw [hin k' p hk', Nat.add_assoc]
      congr 1
      refine writeAt_apply_of_apart _ _ ?_
      by_contra hseg
      have hj : byteOffsetInRuns v.clusterSize (run :: runs)
          (p - run.lcn.toNat * v.clusterSize) = some p := by
        rw [byteOffsetInRuns_cons_of_lt hlcn (by omega)]
        congr 1
        omega
      have := honce _ _ _ hk hj
      omega
    by_cases hemp : start + run.clusterCount * v.clusterSize ≤ 0
    · rw [if_pos hemp]
      have hnil : data = [] := eq_nil_of_length_eq_zero (by omega)
      have hsm : v₁ = v := by
        rw [← hv₁, hnil]
        congr
        funext p
        simp [writeAt]
      rw [hsm] at hgo
      exact hgo total
    · rw [if_neg hemp]
      simp only [Nat.zero_max, Nat.sub_self, Nat.add_zero, Nat.sub_zero]
      rw [if_neg (by omega), hdt, bind_run_ok (hdev.writeSegment hlcn (by omega)), hv₁]
      exact hgo _

/-- **A value that was written is what its runs say.** -/
theorem writeToRuns_ok (hdev : v.OnDevice runs) (hrl : ∀ run ∈ runs, 0 ≤ run.lcn)
    (honce : Once v.clusterSize runs) (hle : buf.length ≤ spanned runs * v.clusterSize) :
    ∃ total bytes', writeToRuns runs 0 buf v = (.ok total, { v with bytes := bytes' }) ∧
      ∀ k, ({ v with bytes := bytes' } : Volume).runByte runs k =
        buf[k]?.getD (v.runByte runs k) := by
  have hrun : ∃ total bytes', writeToRuns runs 0 buf v =
      (.ok total, { v with bytes := bytes' }) ∧
      ∀ k p, byteOffsetInRuns v.clusterSize runs k = some p →
        bytes' p = buf[k]?.getD (v.bytes p) := by
    rw [writeToRuns]
    split
    · rename_i hnil
      exact ⟨0, v.bytes, rfl, fun k p _ => by simp [hnil]⟩
    obtain ⟨total, bytes', hrun, -, hin⟩ := @writeRuns_ok v runs buf hdev hrl honce 0 0
    rw [Nat.zero_add]
    exact ⟨total, bytes', hrun, fun k p hk => by rw [hin k p hk, Nat.zero_add]⟩
  obtain ⟨total, bytes', hrun, hin⟩ := hrun
  refine ⟨total, bytes', hrun, fun k => ?_⟩
  by_cases hlt : k < spanned runs * v.clusterSize
  · obtain ⟨p, hk⟩ := exists_byteOffsetInRuns hrl hlt
    have hnew : ({ v with bytes := bytes' }).runByte runs k = bytes' p :=
      runByte_of_byteOffsetInRuns hk
    rw [hnew, runByte_of_byteOffsetInRuns hk, hin k p hk]
  · have hge := Nat.le_of_not_lt hlt
    rw [getElem?_eq_none (by omega), runByte_of_ge hge]
    exact runByte_of_ge hge

end Volume

end Writing

/-! ### Reading and changing the bitmap -/

/-- The bytes of a bitmap with the clusters of runs given back. A cluster after the end of the
bitmap has no bit, and neither has any after it. -/
def clearedRuns (bitmap : List UInt8) (runs : List DataRun) : List UInt8 :=
  runs.foldl (fun bytes run => if run.lcn < 0 then bytes else
    withBits false bytes run.lcn.toNat run.clusterCount) bitmap

namespace Mount

/-- The bitmap of the clusters, as many bytes of it as the volume needs. -/
def readBitmap (data : ParsedAttr) : Eff Error Mount (List UInt8) :=
  match data.dataRunsOffset with
  | none => do
    let record ← readMftRecord bitmapRecord
    let header ← ofOption .invalidArgument (MftRecordHeader.parse record)
    let m ← Eff.get
    let size := min ((m.volume.volumeClusters + 7) / 8) data.dataSize
    let content := slice record (header.size + data.offset + data.valueOffset) data.dataSize
    assert (size ≤ content.length)
    pure (content.take size)
  | some _ => do
    let m ← Eff.get
    let size := min ((m.volume.volumeClusters + 7) / 8) data.dataSize
    let read ← ofExcept (m.volume.readFromRuns data.dataRuns data.dataSize 0
      (replicate size 0))
    pure read.2

section

variable (data information : ParsedAttr)

/-- Take clusters from the free space of the volume: the first of them. -/
def claimClusters (count : ℕ) : Eff Error Mount ℕ := do
  let m ← Eff.get
  let bitmap ← readBitmap data
  match findClear (bits bitmap) count m.volume.volumeClusters 0 0 0 with
  | none => Eff.halt
  | some found => do
    let first ← ofExcept found
    setDirty information true
    writeBitmap data (withBits true bitmap first count)
    pure first

/-- Give clusters back to the free space of the volume. -/
def freeClusters (runs : List DataRun) : Eff Error Mount Unit := do
  let bitmap ← readBitmap data
  setDirty information true
  writeBitmap data (clearedRuns bitmap runs)

/-- The bit of a cluster in a bitmap with runs. -/
def clusterBit (data : ParsedAttr) (m : Mount) (c : ℕ) : Bool :=
  byteBit (m.volume.runByte data.dataRuns (c / 8)) (c % 8)

/-- **A bitmap in clusters of its own**: it has a bit for every cluster, its runs hold all of it
and are on the device, and no two of its bytes lie in one place. -/
structure InClusters (data : ParsedAttr) (m : Mount) : Prop where
  runs : data.dataRunsOffset ≠ none
  covers : (m.volume.volumeClusters + 7) / 8 ≤ data.dataSize
  spans : data.dataSize ≤ spanned data.dataRuns * m.volume.clusterSize
  onDevice : m.volume.OnDevice data.dataRuns
  real : ∀ run ∈ data.dataRuns, 0 ≤ run.lcn
  once : Once m.volume.clusterSize data.dataRuns

/-- The flags of the volume are not in the clusters of the bitmap. -/
def FlagsApart (m : Mount) : Prop :=
  ∀ at', (volumeFlagsAt information m).1 = .ok at' → ∀ p, at' ≤ p → p < at' + 2 →
    ¬Names data.dataRuns (p / m.volume.clusterSize)

end

/-- The same mount but for the bytes of the device and the cache. -/
def Steady (m m' : Mount) : Prop := ∃ bytes cache, m' = m.holding bytes cache

/-- The same mount but for the cache. -/
def Peeked (m m' : Mount) : Prop := ∃ cache, m' = m.holding m.volume.bytes cache

section Steps

variable {m m' m₁ m₂ : Mount} {data information : ParsedAttr} {n c : ℕ}

theorem Steady.refl (m : Mount) : m.Steady m := ⟨m.volume.bytes, m.mftCache, rfl⟩

theorem Steady.trans (h : m.Steady m₁) (h' : m₁.Steady m₂) : m.Steady m₂ := by
  obtain ⟨bytes, cache, rfl⟩ := h
  obtain ⟨bytes', cache', rfl⟩ := h'
  exact ⟨bytes', cache', rfl⟩

theorem Steady.inClusters (h : m.Steady m') (hin : InClusters data m) : InClusters data m' := by
  obtain ⟨bytes, cache, rfl⟩ := h
  exact ⟨hin.runs, hin.covers, hin.spans, hin.onDevice, hin.real, hin.once⟩

theorem Steady.volumeClusters_eq (h : m.Steady m') :
    m'.volume.volumeClusters = m.volume.volumeClusters := by
  obtain ⟨bytes, cache, rfl⟩ := h
  rfl

/-! ### What the calls below a claim do -/

/-- The bytes of the bitmap that a claim reads. -/
def bitmapBytes (data : ParsedAttr) (m : Mount) : List UInt8 :=
  m.volume.runBytes data.dataRuns 0 ((m.volume.volumeClusters + 7) / 8)

theorem length_bitmapBytes :
    (bitmapBytes data m).length = (m.volume.volumeClusters + 7) / 8 := length_runBytes _

theorem bit_bitmapBytes (hlt : c / 8 < (m.volume.volumeClusters + 7) / 8) :
    bit (bitmapBytes data m) c = some (clusterBit data m c) := by
  rw [bit, bitmapBytes, getElem?_runBytes, if_pos hlt, Nat.zero_add]
  rfl

/-- **A bitmap in clusters is read as it is on the device.** -/
theorem readBitmap_run (h : InClusters data m) :
    readBitmap data m = (.ok (bitmapBytes data m), m) := by
  obtain ⟨total, hrd⟩ := readFromRuns_ok h.onDevice
    (show 0 + (List.replicate ((m.volume.volumeClusters + 7) / 8) 0).length ≤
      data.dataSize by simpa using h.covers) h.spans
  obtain ⟨place, hplace⟩ := ne_none_iff_exists'.mp h.runs
  simp only [readBitmap, hplace, bind_run, get_run, Nat.min_eq_left h.covers]
  rw [hrd, length_replicate]
  rfl

/-- **A bitmap that was written is what the next read answers.** -/
theorem writeBitmap_run (h : InClusters data m) {new : List UInt8}
    (hlen : new.length = (m.volume.volumeClusters + 7) / 8) : ∃ m',
      writeBitmap data new m = (.ok (), m') ∧ m.Steady m' ∧
      ∀ c, clusterBit data m' c = (bit new c).getD (clusterBit data m c) := by
  have hle : new.length ≤ spanned data.dataRuns * m.volume.clusterSize := by
    have := h.covers
    have := h.spans
    omega
  obtain ⟨total, bytes', hrun, hby⟩ := writeToRuns_ok h.onDevice h.real h.once hle
  refine ⟨m.holding bytes' m.mftCache, ?_, ⟨bytes', m.mftCache, rfl⟩, fun c => ?_⟩
  · obtain ⟨place, hplace⟩ := ne_none_iff_exists'.mp h.runs
    simp only [writeBitmap, hplace, bind_run, onVolume, zoom_run, hrun]
    rfl
  · rw [clusterBit, show (m.holding bytes' m.mftCache).volume = { m.volume with bytes := bytes' }
      from rfl, hby, bit]
    cases new[c / 8]? <;> rfl

/-- Reading a record changes the cache and nothing else. -/
theorem readMftRecord_peeked (n : ℕ) : Preserves m.Peeked (readMftRecord n) := by
  refine Preserves.get_bind fun m' hm' => ?_
  rcases m'.mftCache n with _ | record
  · refine Preserves.bind (Preserves.failIf _ _) (fun _ => Preserves.bind
      (Preserves.ofExcept _) fun _ => Preserves.bind
        (Preserves.modify ?_) fun _ => Preserves.ofExcept _) m' hm'
    rintro m₁ ⟨cache, rfl⟩
    exact ⟨_, rfl⟩
  · exact Preserves.ofExcept _ m' hm'

theorem volumeFlagsAt_peeked : Preserves m.Peeked (volumeFlagsAt information) :=
  Preserves.bind (readMftRecord_peeked _) fun _ => Preserves.bind
    (Preserves.ofOption _ _) fun _ => Preserves.bind
      (Preserves.bind Preserves.get fun _ => Preserves.ofOption _ _)
      fun _ => Preserves.pure _

/-- A write beside the clusters of the bitmap leaves its bits alone. -/
theorem writeDeviceBytes_bits {at' : ℕ} {field : List UInt8}
    (hapar : ∀ p, at' ≤ p → p < at' + field.length →
      ¬Names data.dataRuns (p / m.volume.clusterSize)) :
    m.Steady (onVolume (writeDeviceBytes at' field) m).2 ∧
      ∀ c, clusterBit data (onVolume (writeDeviceBytes at' field) m).2 c = clusterBit data m c := by
  obtain ⟨hv, hbytes⟩ := @writeDeviceBytes_within
    (fun p => at' ≤ p ∧ p < at' + field.length) m.volume at' field (fun p hp hlt => ⟨hp, hlt⟩)
    m.volume ⟨rfl, fun _ _ => rfl⟩
  generalize hw : (writeDeviceBytes at' field m.volume).2 = w at hv hbytes
  have hm : (onVolume (writeDeviceBytes at' field) m).2 = m.holding w.bytes m.mftCache := by
    rw [onVolume, zoom_run, hw, hv]
    rfl
  rw [hm]
  refine ⟨⟨_, _, rfl⟩, fun c => ?_⟩
  have hby : (m.holding w.bytes m.mftCache).volume.runByte data.dataRuns (c / 8) =
      m.volume.runByte data.dataRuns (c / 8) := by
    refine runByte_congr (v := m.volume)
      (w := (m.holding w.bytes m.mftCache).volume) rfl (fun k hk j hj => ?_) _
    refine hbytes _ fun hin => hapar _ hin.1 hin.2 ?_
    have hdiv : (k * m.volume.clusterSize + j) / m.volume.clusterSize = k := by
      rw [Nat.mul_comm k, Nat.mul_add_div (by omega), Nat.div_eq_of_lt hj, Nat.add_zero]
    exact hdiv.symm ▸ hk
  rw [clusterBit, clusterBit, hby]

/-- Saying that the volume is dirty leaves the bitmap alone. -/
theorem setDirty_bits (hfl : FlagsApart data information m) (dirty : Bool) :
    m.Steady (setDirty information dirty m).2 ∧
      ∀ c, clusterBit data (setDirty information dirty m).2 c = clusterBit data m c := by
  have hrd : ∀ cache, m.Steady (m.holding m.volume.bytes cache) ∧
      ∀ c, clusterBit data (m.holding m.volume.bytes cache) c = clusterBit data m c :=
    fun cache => ⟨⟨_, cache, rfl⟩, fun c => rfl⟩
  rw [setDirty, bind_run_ok (get_run m), bind_run]
  cases decide (m.sectorSize = 0) with
  | true => exact ⟨Steady.refl m, fun c => rfl⟩
  | false =>
    simp only [failIf_false_run]
    rw [bind_run]
    obtain ⟨cache, hcac⟩ := @volumeFlagsAt_peeked m information m ⟨m.mftCache, rfl⟩
    rcases hat : volumeFlagsAt information m with ⟨at' | e | _, m₁⟩ <;>
      obtain rfl : m₁ = _ := (congrArg Prod.snd hat).symm.trans hcac
    · have hapar := hfl at' (congrArg Prod.fst hat)
      simp only [bind_run, volumeFlags, get_run]
      rcases (m.holding m.volume.bytes cache).volume.readDeviceBytes at' 2 with e | field
      · exact hrd cache
      simp only [ofExcept_ok_run, pure_run]
      generalize (if dirty = true then u16At field 0 ||| 1 else u16At field 0 &&& 65534) = wanted
      by_cases hsm : wanted = u16At field 0
      · rw [if_pos hsm]
        exact hrd cache
      rw [if_neg hsm]
      obtain ⟨hstd, hbi⟩ := @writeDeviceBytes_bits (m.holding m.volume.bytes cache)
        data at' (leBytes wanted 2) hapar
      exact ⟨(hrd cache).1.trans hstd, hbi⟩
    · exact hrd cache
    · exact hrd cache

/-! ### Errors of the calls below a claim -/

theorem readDeviceBytes_ne_noSpace (v : Volume) (off len : ℕ) :
    v.readDeviceBytes off len ≠ .error .noSpace := by
  rw [readDeviceBytes]
  split <;> exact fun h => nomatch h

theorem readRuns_ne_noSpace (v : Volume) (offset stop : ℕ) (runs : List DataRun)
    (start total : ℕ) (buf : List UInt8) :
    v.readRuns offset stop runs start total buf ≠ .error .noSpace := by
  fun_induction readRuns v offset stop runs start total buf with
  | case1 | case2 => exact fun h => nomatch h
  | case3 => assumption
  | case4 => assumption
  | case6 => assumption
  | case5 run runs start total buf runEnd hstart hend segStart segLen hrl e he =>
    intro h
    rw [Except.error.inj h] at he
    exact readDeviceBytes_ne_noSpace _ _ _ he

theorem fixSectors_ne_noSpace (usaOffset sectorSize : ℕ) (low high : UInt8) (left i : ℕ)
    (buf : List UInt8) : fixSectors usaOffset sectorSize low high left i buf ≠ .error .noSpace := by
  fun_induction fixSectors usaOffset sectorSize low high left i buf with
  | case1 | case2 | case3 => exact fun h => nomatch h
  | case4 => assumption

theorem unpack_ne_noSpace (sectorSize : ℕ) (record : List UInt8) :
    unpack sectorSize record ≠ .error .noSpace := by
  rw [unpack]
  split
  · rintro ⟨⟩
  rw [applyUsaFixup]
  split
  · rintro ⟨⟩
  split
  · rintro ⟨⟩
  · exact fixSectors_ne_noSpace _ _ _ _ _ _ _

theorem readMftRecord_avoids (n : ℕ) : Avoids .noSpace (readMftRecord n) := by
  refine Avoids.get_bind fun m => ?_
  rcases m.mftCache n with _ | record
  · refine Avoids.bind (Avoids.failIf (by decide) _) (fun _ => Avoids.bind
      (Avoids.ofExcept ?_) fun _ => Avoids.bind (Avoids.modify _) fun _ =>
        Avoids.ofExcept (unpack_ne_noSpace _ _)) m
    rw [readFromRuns]
    split
    · rintro ⟨⟩
    · exact readRuns_ne_noSpace _ _ _ _ _ _ _
  · exact Avoids.ofExcept (unpack_ne_noSpace _ _) m

theorem volumeFlagsAt_avoids : Avoids .noSpace (volumeFlagsAt information) :=
  Avoids.bind (readMftRecord_avoids _) fun _ => Avoids.bind
    (Avoids.ofOption (by decide) _) fun _ => Avoids.bind
      (Avoids.bind Avoids.get fun _ => Avoids.ofOption (by decide) _)
      fun _ => Avoids.pure _

theorem writeDeviceBytes_avoids (off : ℕ) (field : List UInt8) :
    Avoids .noSpace (writeDeviceBytes off field) := by
  intro v
  rw [writeDeviceBytes]
  split <;> rintro ⟨⟩

theorem setDirty_avoids (dirty : Bool) : Avoids .noSpace (setDirty information dirty) :=
  Avoids.bind Avoids.get fun _ => Avoids.bind
    (Avoids.failIf (by decide) _) fun _ => Avoids.bind volumeFlagsAt_avoids fun _ =>
      Avoids.bind (Avoids.bind Avoids.get fun _ => Avoids.bind
        (Avoids.ofExcept (readDeviceBytes_ne_noSpace _ _ _)) fun _ => Avoids.pure _)
        fun _ => Avoids.ite (Avoids.pure _) (Avoids.zoom (writeDeviceBytes_avoids _ _))

/-! ### What a claim does, and what giving back does -/

/-- A range of clusters of the volume whose bits are clear. -/
def Free (data : ParsedAttr) (m : Mount) (first count : ℕ) : Prop :=
  first + count ≤ m.volume.volumeClusters ∧
    ∀ c, first ≤ c → c < first + count → clusterBit data m c = false

/-- The bitmap says the same of every cluster. -/
def SameBits (data : ParsedAttr) (m m' : Mount) : Prop :=
  ∀ c, clusterBit data m' c = clusterBit data m c

/-- **What a claim does**: it takes a free range, or there is none, or it fails for another
reason. -/
inductive Claims (data : ParsedAttr) (count : ℕ) (m : Mount) : Outcome Error ℕ → Mount → Prop
  | took (first : ℕ) (m' : Mount) (hpos : 0 < count) (hfree : Free data m first count)
      (hbits : ∀ c, clusterBit data m' c = true ↔
        clusterBit data m c = true ∨ first ≤ c ∧ c < first + count) :
      Claims data count m (.ok first) m'
  | noSpace (hnone : 0 < count → ∀ first, ¬Free data m first count) :
      Claims data count m (.err .noSpace) m
  | failed (o : Outcome Error ℕ) (m' : Mount) (hok : ∀ first, o ≠ .ok first)
      (hne : o ≠ .err .noSpace) (first : ℕ) (hfree : Free data m first count)
      (hbits : SameBits data m m') : Claims data count m o m'

theorem bit_lt_of_lt (hlt : c < m.volume.volumeClusters) :
    c / 8 < (m.volume.volumeClusters + 7) / 8 := by omega

/-- The bytes of the bitmap have the bit of a cluster, or end before it. -/
theorem bit_bitmapBytes_cases (data : ParsedAttr) (m : Mount) (c : ℕ) :
    bit (bitmapBytes data m) c = none ∨
      bit (bitmapBytes data m) c = some (clusterBit data m c) := by
  by_cases hc : c / 8 < (m.volume.volumeClusters + 7) / 8
  · exact Or.inr (bit_bitmapBytes hc)
  · exact Or.inl (bit_eq_none.mpr (by rw [length_bitmapBytes]; omega))

/-- **A claim takes a free range if there is one.** -/
theorem claimClusters_claims (h : InClusters data m) (hfl : FlagsApart data information m)
    (count : ℕ) : m.Steady (claimClusters data information count m).2 ∧
      Claims data count m (claimClusters data information count m).1
        (claimClusters data information count m).2 := by
  have hbit : ∀ c < m.volume.volumeClusters,
      (bits (bitmapBytes data m))[c]? = some (clusterBit data m c) := fun c hc => by
    rw [getElem?_bits, bit_bitmapBytes (bit_lt_of_lt hc)]
  rw [claimClusters, bind_run_ok (get_run m), bind_run_ok (readBitmap_run h)]
  have hlen : 0 + m.volume.volumeClusters ≤ (bits (bitmapBytes data m)).length := by
    rw [bits, length_map, length_range, length_bitmapBytes]
    omega
  rcases @findClear_answers _ count _ _ 0 0 hlen with hfd | ⟨first, hfd⟩ <;> simp only [hfd]
  · refine ⟨Steady.refl m, .noSpace fun hpos first hfr => ?_⟩
    have hin := hfr.1
    obtain ⟨c, hc, hlt, hset⟩ := findClear_error hfd hpos (fun h => by omega)
      (fun f hf => by omega) first (by omega)
    rw [hbit c (by omega), hfr.2 c hc hlt] at hset
    cases hset
  obtain ⟨hpos, hle, hclear⟩ := findClear_ok hfd (fun h => absurd rfl h) fun h => absurd rfl h
  have hfr : Free data m first count := by
    refine ⟨by omega, fun c hc hlt => ?_⟩
    have := hclear c hc hlt
    rw [hbit c (by omega)] at this
    exact Option.some.inj this
  simp only [bind_run, ofExcept_ok_run]
  obtain ⟨hstd, hbi⟩ := setDirty_bits hfl true
  have havoi := @setDirty_avoids information true m
  rcases hdirty : setDirty information true m with ⟨_ | e | _, m₁⟩ <;> rw [hdirty] at hstd hbi havoi
  · have hlen : (withBits true (bitmapBytes data m) first count).length =
        (m₁.volume.volumeClusters + 7) / 8 := by
      rw [length_withBits, length_bitmapBytes, hstd.volumeClusters_eq]
    obtain ⟨m₂, hwr, hstd₂, hbi₂⟩ := writeBitmap_run (hstd.inClusters h) hlen
    simp only [hwr]
    refine ⟨hstd.trans hstd₂, .took first m₂ hpos hfr fun c => ?_⟩
    rw [hbi₂, hbi, bit_withBits]
    by_cases hin : first ≤ c ∧ c < first + count
    · rw [bit_bitmapBytes (bit_lt_of_lt (by omega))]
      simp [hin]
    rcases bit_bitmapBytes_cases data m c with hbyte | hbyte <;> simp [hbyte, hin]
  · exact ⟨hstd, .failed _ _ (by simp) (fun he => havoi (congrArg err (err.inj he))) first hfr hbi⟩
  · exact ⟨hstd, .failed _ _ (by simp) (by simp) first hfr hbi⟩

variable {bitmap : List UInt8} {runs : List DataRun}

theorem bit_clearedRuns : (Names runs c → bit (clearedRuns bitmap runs) c = (bit bitmap c).map
      fun _ => false) ∧ (¬Names runs c → bit (clearedRuns bitmap runs) c = bit bitmap c) := by
  induction runs generalizing bitmap with
  | nil => exact ⟨fun h => absurd h not_names_nil, fun _ => rfl⟩
  | cons run runs ih =>
    rw [show clearedRuns bitmap (run :: runs) = clearedRuns (if run.lcn < 0 then bitmap else
      withBits false bitmap run.lcn.toNat run.clusterCount) runs from rfl, names_cons]
    split
    · rw [or_iff_right (by omega)]
      exact ih
    have hthis := @bit_withBits bitmap false run.lcn.toNat run.clusterCount c
    obtain ⟨hnamed, hoth⟩ := @ih (withBits false bitmap run.lcn.toNat run.clusterCount)
    constructor
    · intro h
      by_cases hre : Names runs c
      · rw [hnamed hre, hthis]
        split
        · rw [Option.map_map]
          rfl
        · rfl
      · rw [hoth hre, hthis, if_pos (h.resolve_right hre).2]
    · intro h
      rw [hoth fun hre => h (Or.inr hre), hthis, if_neg fun hin => h (Or.inl ⟨by omega, hin⟩)]

theorem length_clearedRuns : (clearedRuns bitmap runs).length = bitmap.length := by
  induction runs generalizing bitmap with
  | nil => rfl
  | cons run runs ih =>
    refine ih.trans ?_
    simp only
    split
    · rfl
    · exact length_withBits

/-- **What giving back does**: the clusters have no bit any more, or the call failed and the
bitmap is what it was. -/
inductive Frees (data : ParsedAttr) (runs : List DataRun) (m : Mount) :
    Outcome Error Unit → Mount → Prop
  | gave (m' : Mount) (hbits : ∀ c, clusterBit data m' c = true ↔
      clusterBit data m c = true ∧ ¬Names runs c) : Frees data runs m (.ok ()) m'
  | failed (o : Outcome Error Unit) (m' : Mount) (hok : o ≠ .ok ()) (hbits : SameBits data m m') :
      Frees data runs m o m'

theorem freeClusters_frees (h : InClusters data m) (hfl : FlagsApart data information m)
    (hin : ∀ c, Names runs c → c < m.volume.volumeClusters) :
    m.Steady (freeClusters data information runs m).2 ∧
      Frees data runs m (freeClusters data information runs m).1
        (freeClusters data information runs m).2 := by
  rw [freeClusters, bind_run_ok (readBitmap_run h), bind_run]
  obtain ⟨hstd, hbi⟩ := setDirty_bits hfl true
  rcases hdirty : setDirty information true m with ⟨_ | e | _, m₁⟩ <;> rw [hdirty] at hstd hbi
  · have hlen : (clearedRuns (bitmapBytes data m) runs).length =
        (m₁.volume.volumeClusters + 7) / 8 := by
      rw [length_clearedRuns, length_bitmapBytes, hstd.volumeClusters_eq]
    obtain ⟨m₂, hwr, hstd₂, hbi₂⟩ := writeBitmap_run (hstd.inClusters h) hlen
    simp only [hwr]
    refine ⟨hstd.trans hstd₂, .gave m₂ fun c => ?_⟩
    rw [hbi₂, hbi]
    by_cases hnam : Names runs c
    · rw [bit_clearedRuns.1 hnam, bit_bitmapBytes (bit_lt_of_lt (hin c hnam))]
      simp [hnam]
    rw [bit_clearedRuns.2 hnam]
    rcases bit_bitmapBytes_cases data m c with hbyte | hbyte <;> simp [hbyte, hnam]
  all_goals exact ⟨hstd, .failed _ _ nofun hbi⟩

/-! ### The bitmap beside the device -/

/-- The volume of a mount, with the bits of its bitmap beside it. -/
def withBitmap (data : ParsedAttr) (m : Mount) : Volume :=
  { m.volume with bitmap := bits (bitmapBytes data m) }

theorem marked_withBitmap (hc : c < m.volume.volumeClusters) :
    (m.withBitmap data).marked c = clusterBit data m c := by
  show (bits (bitmapBytes data m)).getD c false = _
  rw [getD_eq_getElem?_getD, getElem?_bits, bit_bitmapBytes (bit_lt_of_lt hc), getD_some]

/-- **A claim is the claim on the bits beside the device**, if the bitmap has clusters of its own:
it answers the same cluster, and leaves the same bits. -/
theorem claimClusters_refines (h : InClusters data m) (hflags : FlagsApart data information m)
    {count first : ℕ} (hrun : Mount.claimClusters data information count m = (.ok first, m')) :
    ∃ v', Volume.claimClusters count (m.withBitmap data) = (.ok first, v') ∧
      ∀ c < m.volume.volumeClusters, v'.marked c = clusterBit data m' c := by
  have hclaims := (claimClusters_claims h hflags count).2
  rw [hrun] at hclaims
  have hfound : findClear (bits (bitmapBytes data m)) count m.volume.volumeClusters 0 0 0 =
      some (.ok first) := by
    rw [Mount.claimClusters, bind_run_ok (get_run m), bind_run_ok (readBitmap_run h)] at hrun
    cases hfind : findClear (bits (bitmapBytes data m)) count m.volume.volumeClusters 0 0 0 with
    | none =>
      rw [hfind] at hrun
      cases hrun
    | some found =>
      rw [hfind] at hrun
      obtain ⟨first', _, hanswer, hmark⟩ := bind_eq_ok.mp hrun
      obtain ⟨_, _, -, hwrite⟩ := bind_eq_ok.mp hmark
      obtain ⟨_, _, -, hpure⟩ := bind_eq_ok.mp hwrite
      obtain ⟨hfirst, -⟩ := Prod.mk.inj hpure
      rw [(ofExcept_eq_ok.mp hanswer).1, Outcome.ok.inj hfirst]
  have hclaim : Volume.claimClusters count (m.withBitmap data) = (.ok first,
      { m.withBitmap data with
        bitmap := setBits (bits (bitmapBytes data m)) first count true }) := by
    have hfree : findClear (m.withBitmap data).bitmap count (m.withBitmap data).volumeClusters 0 0 0
        = some (.ok first) := hfound
    rw [Volume.claimClusters, hfree]
    rfl
  refine ⟨_, hclaim, fun c hc => ?_⟩
  cases hclaims with
  | took first m' hpos hfree hbits =>
    rw [Bool.eq_iff_iff, (Volume.claimClusters_ok hclaim).2.2.1, hbits, marked_withBitmap hc]
  | failed o m' hok => exact absurd rfl (hok first)

/-- **Giving back is giving back on the bits beside the device**, if the bitmap has clusters of its
own. -/
theorem freeClusters_refines (h : InClusters data m) (hflags : FlagsApart data information m)
    (hin : ∀ c, Names runs c → c < m.volume.volumeClusters)
    (hrun : Mount.freeClusters data information runs m = (.ok (), m')) :
    ∃ v', Volume.freeClusters runs (m.withBitmap data) = (.ok (), v') ∧
      ∀ c < m.volume.volumeClusters, v'.marked c = clusterBit data m' c := by
  have hfrees := (freeClusters_frees h hflags hin).2
  rw [hrun] at hfrees
  refine ⟨(m.withBitmap data).freed runs, rfl, fun c hc => ?_⟩
  cases hfrees with
  | gave m' hbits =>
    rw [Bool.eq_iff_iff, marked_freed, hbits, marked_withBitmap hc]
  | failed o m' hok => exact absurd rfl hok

/-! ### Runs of claims -/

variable {held : ℕ → Prop}

/-- Mounts that are reached by claims and returns, with the clusters that claims took and no
return gave back. What is given back was claimed before. -/
inductive Run (data information : ParsedAttr) (m₀ : Mount) : Mount → (ℕ → Prop) → Prop
  | start : Run data information m₀ m₀ fun _ => False
  | claim {m : Mount} {held : ℕ → Prop} (hrun : Run data information m₀ m held)
      (hflags : FlagsApart data information m) (count : ℕ) :
      Run data information m₀ (claimClusters data information count m).2 fun c => held c ∨
        ∃ first, (claimClusters data information count m).1 = .ok first ∧
          first ≤ c ∧ c < first + count
  | free {m : Mount} {held : ℕ → Prop} (hrun : Run data information m₀ m held)
      (hflags : FlagsApart data information m) (runs : List DataRun)
      (hheld : ∀ c, Names runs c → held c) :
      Run data information m₀ (freeClusters data information runs m).2 fun c => held c ∧
        ¬((freeClusters data information runs m).1 = .ok () ∧ Names runs c)

/-- **Every cluster that is held has its bit.** -/
theorem Run.marked {m₀ : Mount} (h : InClusters data m₀)
    (hrun : Run data information m₀ m held) : m₀.Steady m ∧
      ∀ c, held c → c < m.volume.volumeClusters ∧ clusterBit data m c = true := by
  induction hrun with
  | start => exact ⟨Steady.refl _, fun c hc => hc.elim⟩
  | @claim m held hrun hfl count ih =>
    obtain ⟨hstd, hmk⟩ := ih
    obtain ⟨hst, hclm⟩ := claimClusters_claims (hstd.inClusters h) hfl count
    refine ⟨hstd.trans hst, fun c hc => ?_⟩
    rw [hst.volumeClusters_eq]
    generalize (claimClusters data information count m).1 = o at hclm hc
    generalize (claimClusters data information count m).2 = m' at hclm
    rcases hclm with ⟨first, m', hpos, hfr, hbi⟩ | hnone | ⟨o, m', hok, -, -, -, hbi⟩
    · rw [hbi]
      rcases hc with hc | ⟨first', hfirst, hge, hlt⟩
      · exact ⟨(hmk c hc).1, Or.inl (hmk c hc).2⟩
      cases hfirst
      exact ⟨by have := hfr.1; omega, Or.inr ⟨hge, hlt⟩⟩
    · rcases hc with hc | ⟨_, hfirst, -⟩
      · exact hmk c hc
      · cases hfirst
    · rw [hbi]
      rcases hc with hc | ⟨first', hfirst, -⟩
      · exact hmk c hc
      · exact absurd hfirst (hok first')
  | @free m held hrun hfl runs hhe ih =>
    obtain ⟨hstd, hmk⟩ := ih
    obtain ⟨hst, hfrs⟩ := freeClusters_frees (hstd.inClusters h) hfl
      fun c hc => (hmk c (hhe c hc)).1
    refine ⟨hstd.trans hst, fun c ⟨hc, hkt⟩ => ?_⟩
    rw [hst.volumeClusters_eq]
    refine ⟨(hmk c hc).1, ?_⟩
    generalize (freeClusters data information runs m).1 = o at hfrs hkt
    generalize (freeClusters data information runs m).2 = m' at hfrs
    rcases hfrs with ⟨m', hbi⟩ | ⟨o, m', -, hbi⟩
    · exact (hbi c).mpr ⟨(hmk c hc).2, fun hnam => hkt ⟨rfl, hnam⟩⟩
    rw [hbi]
    exact (hmk c hc).2

/-- **No two claims hold one cluster**, after any claims and returns, if the bitmap has clusters
of its own. A claim takes clusters of the volume that none of the earlier ones holds, it says
that there is no space exactly if no range of clear bits is long enough, and neither a claim nor
a return changes the bit of another cluster. -/
theorem claimClusters_exclusive {m₀ : Mount} (h : InClusters data m₀)
    (hrun : Run data information m₀ m held) (hflags : FlagsApart data information m) :
    (∀ count, 1 ≤ count → (∀ first, (claimClusters data information count m).1 = .ok first →
        first + count ≤ m.volume.volumeClusters ∧ ∀ c, first ≤ c → c < first + count → ¬held c ∧
          clusterBit data (claimClusters data information count m).2 c = true) ∧
      ((claimClusters data information count m).1 = .err .noSpace ↔
        ¬∃ first, Free data m first count) ∧
      ∀ c, clusterBit data (claimClusters data information count m).2 c ≠ clusterBit data m c →
        ∃ first, (claimClusters data information count m).1 = .ok first ∧
          first ≤ c ∧ c < first + count) ∧ ∀ runs, (∀ c, Names runs c → held c) → ∀ c,
      clusterBit data (freeClusters data information runs m).2 c ≠ clusterBit data m c →
        Names runs c := by
  obtain ⟨hstd, hmk⟩ := hrun.marked h
  refine ⟨fun count hpos => ?_, fun runs hhe c hne => ?_⟩
  · have hclm := (claimClusters_claims (hstd.inClusters h) hflags count).2
    generalize (claimClusters data information count m).1 = o at hclm
    generalize (claimClusters data information count m).2 = m' at hclm
    rcases hclm with
      ⟨first, m', -, hfr, hbi⟩ | hnone | ⟨o, m', hok, hspace, first, hfr, hbi⟩
    · refine ⟨fun first' hfirst => ?_, ?_, fun c hne => ⟨first, rfl, ?_⟩⟩
      · cases hfirst
        refine ⟨hfr.1, fun c hc hlt => ⟨fun hhe => ?_, (hbi c).mpr (Or.inr ⟨hc, hlt⟩)⟩⟩
        have := hfr.2 c hc hlt
        rw [(hmk c hhe).2] at this
        cases this
      · exact iff_of_false nofun fun hno => hno ⟨first, hfr⟩
      · by_contra hout
        exact hne (Bool.eq_iff_iff.mpr ((hbi c).trans (or_iff_left hout)))
    · refine ⟨nofun, iff_of_true rfl ?_, fun c hne => absurd rfl hne⟩
      rintro ⟨first, hfr⟩
      exact hnone hpos first hfr
    · exact ⟨fun first' hfirst => absurd hfirst (hok first'),
        iff_of_false hspace fun hno => hno ⟨first, hfr⟩, fun c hne => absurd (hbi c) hne⟩
  · have hfrs := (freeClusters_frees (hstd.inClusters h) hflags
      fun c hc => (hmk c (hhe c hc)).1).2
    generalize (freeClusters data information runs m).1 = o at hfrs
    generalize (freeClusters data information runs m).2 = m' at hfrs hne
    rcases hfrs with ⟨m', hbi⟩ | ⟨o, m', -, hbi⟩
    · by_contra hnam
      exact hne (Bool.eq_iff_iff.mpr ((hbi c).trans (and_iff_left hnam)))
    · exact absurd (hbi c) hne

end Steps

end Mount

/-! ### A bitmap in a cluster, and one in its record -/

/-- A bitmap of two bytes in a cluster after the table. -/
def bitmapInCluster : ParsedAttr :=
  { residentValue with dataSize := 2, dataRunsOffset := some 64, dataRuns := [⟨10, 1⟩] }

theorem inClusters_tableOfEight : InClusters bitmapInCluster tableOfEight where
  runs := by decide
  covers := by decide
  spans := by decide
  onDevice := by
    intro c hc
    simp only [bitmapInCluster, names_cons, not_names_nil, or_false] at hc
    simp only [tableOfEight]
    omega
  real := by
    intro run hrun
    obtain rfl := mem_singleton.mp hrun
    decide
  once := fun _ _ _ => eq_of_byteOffsetInRuns_single (by decide)

theorem flagsApart_of_eq {m : Mount} (hsz : m.volume.clusterSize = 128)
    (hat : (volumeFlagsAt residentValue m).1 = .ok 602) :
    FlagsApart bitmapInCluster residentValue m := by
  intro at' hat' p hge hlt
  cases hat.symm.trans hat'
  rw [hsz]
  simp only [bitmapInCluster, names_cons, not_names_nil, or_false]
  have hdiv : p / 128 < 10 := by omega
  exact fun hnam => absurd hnam.2.1 (by simpa using hdiv)

/-- The mount after a claim of one cluster. -/
def claimedOne (data : ParsedAttr) : Mount :=
  (claimClusters data residentValue 1 tableOfEight).2

/-- The second claim of a mount, which does not take the cluster of the first. -/
theorem claimClusters_exclusive_second : (Mount.claimClusters bitmapInCluster residentValue 1
      (claimedOne bitmapInCluster)).1 = .ok 3 ∧
    ¬(False ∨ ∃ first, (Mount.claimClusters bitmapInCluster residentValue 1 tableOfEight).1 =
      .ok first ∧ first ≤ 3 ∧ 3 < first + 1) := by
  have hok : (claimClusters bitmapInCluster residentValue 1
      (claimedOne bitmapInCluster)).1 = .ok 3 := by decide +kernel
  refine ⟨hok, ?_⟩
  exact ((((claimClusters_exclusive inClusters_tableOfEight
    (Run.claim Run.start (flagsApart_of_eq rfl (by decide +kernel)) 1)
    (flagsApart_of_eq (by decide +kernel) (by decide +kernel))).1 1 (by decide)).1 3 hok).2 3
      (by decide) (by decide)).1

/-- **A bitmap in its record is claimed from twice.** The mount reads it from its cache and
writes it to the device, so that two claims in a row answer one cluster. -/
theorem resident_claimed_twice : (tableOfEight.Laid ∧ tableOfEight.Coherent ∧
      (tableOfEight.volume.volumeClusters + 7) / 8 ≤ residentValue.dataSize) ∧
    (Mount.claimClusters residentValue residentValue 1 tableOfEight).1 = .ok 0 ∧
    (Mount.claimClusters residentValue residentValue 1 (claimedOne residentValue)).1 = .ok 0 := by
  refine ⟨⟨laid_tableOfEight, coherent_tableOfEight, by decide⟩, ?_, ?_⟩ <;> decide +kernel

end Protofire.Ntfs
