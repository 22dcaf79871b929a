import Protofire.Ntfs.Records

/-!
# The table of a mount

The master file table is *laid out* as a table if its runs hold whole records and no byte of the
device is two bytes of it (`Mount.Laid`), and the cache of a mount is *coherent* if what it has of
a record is what the device holds of it. The bitmap of the clusters and the flags of the volume are
found through such a table, and their writers write beside everything else (`Volume.Within`).
-/

namespace Protofire.Ntfs

open Splice Bytes Eff List MftRecordHeader Volume

/-! ### Where the bytes of a value are -/

section Offsets

variable {v : Volume} {runs xs ys : List DataRun} {cs k p : ℕ}

theorem runByte_of_byteOffsetInRuns (h : byteOffsetInRuns v.clusterSize runs k = some p) :
    v.runByte runs k = v.bytes p := by
  induction runs generalizing k with
  | nil => cases h
  | cons run runs ih =>
    rw [byteOffsetInRuns] at h
    rw [runByte]
    split at h
    · rename_i hlt
      split at h
      · cases h
      rename_i hrl
      rw [if_pos hlt, if_neg hrl, Option.some.inj h]
    · rename_i hge
      rw [if_neg hge, ih h]

theorem byteOffsetInRuns_append_right (h : spanned xs * cs ≤ k) :
    byteOffsetInRuns cs (xs ++ ys) k = byteOffsetInRuns cs ys (k - spanned xs * cs) := by
  induction xs generalizing k with
  | nil => simp
  | cons run xs ih =>
    rw [spanned_cons, Nat.add_mul] at h ⊢
    rw [cons_append, byteOffsetInRuns, if_neg (by omega), ih (by omega), Nat.sub_sub]

theorem byteOffsetInRuns_single {lcn : ℤ} {count : ℕ} (hrl : 0 ≤ lcn) (hlt : k < count * cs) :
    byteOffsetInRuns cs [⟨lcn, count⟩] k = some (lcn.toNat * cs + k) := by
  rw [byteOffsetInRuns, if_pos hlt, if_neg (Int.not_lt.mpr hrl)]

theorem lt_of_byteOffsetInRuns (h : byteOffsetInRuns cs runs k = some p) :
    k < spanned runs * cs := by
  by_contra hge
  have hrgt := @byteOffsetInRuns_append_right runs [] cs k (by omega)
  rw [append_nil, h] at hrgt
  cases hrgt

theorem eq_of_byteOffsetInRuns_single {lcn : ℤ} {count k' : ℕ} (hrl : 0 ≤ lcn)
    (hk : byteOffsetInRuns cs [⟨lcn, count⟩] k = some p)
    (hk' : byteOffsetInRuns cs [⟨lcn, count⟩] k' = some p) : k = k' := by
  have hlt : k < count * cs := lt_of_byteOffsetInRuns hk
  have hlt' : k' < count * cs := lt_of_byteOffsetInRuns hk'
  have hp := (byteOffsetInRuns_single hrl hlt).symm.trans hk
  have hp' := (byteOffsetInRuns_single hrl hlt').symm.trans hk'
  simpa using hp.trans hp'.symm

end Offsets

namespace Mount

/-! ### A table that is laid out as one -/

/-- **The table is laid out**: its runs hold whole records and lie on the device, and no byte of
the device is two bytes of the table. -/
structure Laid (m : Mount) : Prop where
  recordSize_pos : 0 < m.mftRecordSize
  clusterSize_pos : 0 < m.volume.clusterSize
  sizes : m.mftRecordSize ∣ m.volume.clusterSize ∨ m.volume.clusterSize ∣ m.mftRecordSize
  whole : ∀ run ∈ m.mftRuns,
    0 ≤ run.lcn ∧ m.mftRecordSize ∣ run.clusterCount * m.volume.clusterSize
  once : ∀ k k' p, byteOffsetInRuns m.volume.clusterSize m.mftRuns k = some p →
    byteOffsetInRuns m.volume.clusterSize m.mftRuns k' = some p → k = k'
  onDevice : m.volume.OnDevice m.mftRuns
  dvd_dataSize : m.mftRecordSize ∣ m.mftDataSize
  dataSize_le : m.mftDataSize ≤ spanned m.mftRuns * m.volume.clusterSize

section

variable (m : Mount)

/-- What the device holds of a record. -/
def held (number : ℕ) : List UInt8 :=
  m.volume.runBytes m.mftRuns (number * m.mftRecordSize) m.mftRecordSize

/-- A record is one of the table's. -/
def InTable (number : ℕ) : Prop :=
  (number + 1) * m.mftRecordSize ≤ m.mftDataSize

/-- **The cache is coherent**: what it has of a record is what the device holds of it. -/
def Coherent : Prop :=
  ∀ number record, m.mftCache number = some record →
    m.InTable number ∧ record = m.held number

end

/-- The mount with other bytes on the device and another cache. -/
def holding (m : Mount) (bytes : Bytes) (cache : ℕ → Option (List UInt8)) : Mount :=
  { m with volume := { m.volume with bytes := bytes }, mftCache := cache }

end Mount

/-! ### Writes beside the table -/

namespace Volume

/-- A volume that differs from another in bytes of a region only. -/
def Within (region : ℕ → Prop) (v₀ v : Volume) : Prop :=
  v = { v₀ with bytes := v.bytes } ∧ ∀ p, ¬region p → v.bytes p = v₀.bytes p

variable {region : ℕ → Prop} {v₀ : Volume}

theorem writeDeviceBytes_within {off : ℕ} {data : List UInt8}
    (h : ∀ p, off ≤ p → p < off + data.length → region p) :
    Preserves (Within region v₀) (writeDeviceBytes off data) := by
  rintro v ⟨hv, hbytes⟩
  rw [writeDeviceBytes]
  split
  · refine ⟨by rw [hv], fun p hp => ?_⟩
    have hap : p < off ∨ off + data.length ≤ p := by
      by_contra hin
      exact hp (h p (by omega) (by omega))
    exact (writeAt_apply_of_apart v.bytes data hap).trans (hbytes p hp)
  · exact ⟨hv, hbytes⟩

end Volume

/-! ### A table of eight records -/

/-- A record of two sectors with room for a resident value. -/
def plainRecord : List UInt8 :=
  mftMagic ++ [48, 0, 3, 0] ++ replicate 12 0 ++ [56, 0, 1, 0] ++ replicate 104 0

/-- A table of eight records of one cluster each. -/
def tableOfEight : Mount where
  volume :=
    { bytes := fun p => if p < 128 then 0 else (packUsa plainRecord 48 3 64).getD (p % 128) 0
      size := 2048
      clusterSize := 128
      volumeClusters := 16
      bitmap := [] }
  mftRuns := [⟨1, 8⟩]
  mftDataSize := 1024
  mftRecordSize := 128
  sectorSize := 64
  mftCache := fun _ => none

/-- A value of eight bytes in the record. -/
def residentValue : ParsedAttr where
  holder := 7
  offset := 0
  attrLen := 32
  flags := 0
  valueOffset := 24
  content := replicate 8 0
  dataSize := 8
  dataRunsOffset := none
  dataRuns := []

theorem laid_tableOfEight : tableOfEight.Laid where
  recordSize_pos := by decide
  clusterSize_pos := by decide
  sizes := Or.inl ⟨1, rfl⟩
  whole := by
    intro run hrun
    obtain rfl := mem_singleton.mp hrun
    exact ⟨by decide, 8, rfl⟩
  once := fun _ _ _ => eq_of_byteOffsetInRuns_single (by decide)
  onDevice := by
    intro c hc
    simp only [tableOfEight, names_cons, not_names_nil, or_false] at hc ⊢
    omega
  dvd_dataSize := ⟨8, rfl⟩
  dataSize_le := by decide

theorem coherent_tableOfEight : tableOfEight.Coherent := nofun

end Protofire.Ntfs
