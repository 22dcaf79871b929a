import Protofire.Ntfs.Runs

/-!
# Records of the master file table

A file of the volume is a *record* of the master file table, and the table is a file of its own:
a record's place on the device is its number's offset in that file, found through the file's
runs. On the device each sector of a record ends with a *sequence number*, and the bytes that
number stands in for are kept in an array in the record's header. `packUsa` puts a record into
that form and moves the number on; `applyUsaFixup` takes it out of it, and refuses a record
whose sectors carry different numbers – a write that did not finish.

A mount keeps the records it has read in a cache, in the form the device has them in
(`readMftRecord`). The bits of a resident bitmap and the dirty flag of the volume are written where
they lie on the device, and the cache keeps what it had of their records.
-/

namespace Protofire.Ntfs

open Splice List Bytes Eff Volume

/-! ### The form of a record -/

variable (buf : List UInt8)

/-- The little-endian half word at an index. -/
def u16At (i : ℕ) : ℕ := (buf.getD i 0).toNat + 256 * (buf.getD (i + 1) 0).toNat

/-- A number in little-endian bytes. -/
def leBytes (n count : ℕ) : List UInt8 := (range count).map (leByte n)

def mftMagic : List UInt8 := [0x46, 0x49, 0x4c, 0x45]

/-- The header of a record. -/
structure MftRecordHeader where
  usaOffset : ℕ
  usaCount : ℕ
  flags : ℕ
  firstAttrOffset : ℕ

namespace MftRecordHeader

/-- `parse`: none without the magic. -/
def parse : Option MftRecordHeader :=
  if buf.length < 48 then none
  else if buf.take 4 ≠ mftMagic then none
  else some
    { usaOffset := u16At buf 4
      usaCount := u16At buf 6
      flags := u16At buf 22
      firstAttrOffset := u16At buf 20 }

def size (header : MftRecordHeader) : ℕ := header.firstAttrOffset

end MftRecordHeader

/-- Check the sectors of a buffer against its sequence number, and put the bytes of the array
back at their ends. -/
def fixSectors (usaOffset sectorSize : ℕ) (low high : UInt8) : ℕ → (i : ℕ) → List UInt8 →
    Except Error (List UInt8)
  | 0, _, buf => .ok buf
  | left + 1, i, buf =>
    let sectorEnd := i * sectorSize
    if sectorEnd < 2 ∨ buf.length < sectorEnd ∨ buf.length ≤ usaOffset + i * 2 + 1 then
      .error .invalidArgument
    else if buf.getD (sectorEnd - 2) 0 ≠ low ∨ buf.getD (sectorEnd - 1) 0 ≠ high then
      .error .invalidArgument
    else
      let buf := buf.set (sectorEnd - 2) (buf.getD (usaOffset + i * 2) 0)
      fixSectors usaOffset sectorSize low high left (i + 1)
        (buf.set (sectorEnd - 1) (buf.getD (usaOffset + i * 2 + 1) 0))

/-- `apply_usa_fixup`: each sector's last two bytes are checked and replaced. -/
def applyUsaFixup (usaOffset usaCount sectorSize : ℕ) : Except Error (List UInt8) :=
  if usaCount = 0 then .ok buf
  else if sectorSize = 0 ∨ buf.length < usaOffset + usaCount * 2 ∨ usaOffset < 2 then
    .error .invalidArgument
  else
    fixSectors usaOffset sectorSize (buf.getD usaOffset 0) (buf.getD (usaOffset + 1) 0)
      (usaCount - 1) 1 buf

/-- Move the ends of the sectors into the array, and put the sequence number there. -/
def packSectors (usaOffset sectorSize : ℕ) (low high : UInt8) : ℕ → (i : ℕ) → List UInt8 →
    List UInt8
  | 0, _, buf => buf
  | left + 1, i, buf =>
    let sectorEnd := i * sectorSize
    if 2 ≤ sectorEnd ∧ sectorEnd ≤ buf.length ∧ usaOffset + i * 2 + 1 < buf.length then
      let was := (buf.getD (sectorEnd - 2) 0, buf.getD (sectorEnd - 1) 0)
      let buf := (buf.set (usaOffset + i * 2) was.1).set (usaOffset + i * 2 + 1) was.2
      packSectors usaOffset sectorSize low high left (i + 1)
        ((buf.set (sectorEnd - 2) low).set (sectorEnd - 1) high)
    else packSectors usaOffset sectorSize low high left (i + 1) buf

/-- Pack a record for the device, under the next sequence number. -/
def packUsa (usaOffset usaCount sectorSize : ℕ) : List UInt8 :=
  if sectorSize = 0 ∨ usaCount = 0 ∨ buf.length < usaOffset + usaCount * 2 then buf
  else
    let sequence := (u16At buf usaOffset + 1) % 2 ^ 16
    let low := leByte sequence 0
    let high := leByte sequence 1
    packSectors usaOffset sectorSize low high (usaCount - 1) 1
      ((buf.set usaOffset low).set (usaOffset + 1) high)

/-! ### Run lists -/

/-- The bytes of a number, as few as it takes. -/
def countBytes : ℕ → (count : ℕ) → List UInt8
  | 0, _ => []
  | rounds + 1, count =>
    if count = 0 then [] else UInt8.ofNat (count % 256) :: countBytes rounds (count / 256)

/-- The bytes of a signed number, up to the one whose top bit is its sign. -/
def deltaBytes (nonneg : Bool) : ℕ → (value : ℤ) → List UInt8
  | 0, _ => []
  | rounds + 1, value =>
    let byte := (value % 256).toNat
    let rest := value / 256
    let done := if nonneg then rest = 0 ∧ byte < 128 else rest = -1 ∧ 128 ≤ byte
    UInt8.ofNat byte :: if done then [] else deltaBytes nonneg rounds rest

/-- Runs are stored as differences from the one before. -/
def encodeRunsFrom : List DataRun → (previous : ℤ) → List UInt8
  | [], _ => [0]
  | run :: runs, previous =>
    if run.clusterCount = 0 then encodeRunsFrom runs previous
    else
      let length := countBytes 8 run.clusterCount
      let offset :=
        if 0 ≤ run.lcn then deltaBytes (previous ≤ run.lcn) 9 (run.lcn - previous) else []
      UInt8.ofNat (offset.length * 16 + length.length) :: length ++ offset ++
        encodeRunsFrom runs (if 0 ≤ run.lcn then run.lcn else previous)

/-- `encode_runs`. -/
def encodeRuns (runs : List DataRun) : List UInt8 := encodeRunsFrom runs 0

/-- Where a byte of a value lies on the device. -/
def byteOffsetInRuns (clusterSize : ℕ) : List DataRun → (offset : ℕ) → Option ℕ
  | [], _ => none
  | run :: runs, offset =>
    if offset < run.clusterCount * clusterSize then
      if run.lcn < 0 then none else some (run.lcn.toNat * clusterSize + offset)
    else byteOffsetInRuns clusterSize runs (offset - run.clusterCount * clusterSize)

namespace Volume

/-- Write a range run by run, from the offset where the first of the runs starts. -/
def writeRuns (offset stop : ℕ) (buf : List UInt8) : List DataRun → (start total : ℕ) →
    Eff Error Volume ℕ
  | [], _, total => pure total
  | run :: runs, start, total => do
    let v ← Eff.get
    let runEnd := start + run.clusterCount * v.clusterSize
    if stop ≤ start then pure total
    else if runEnd ≤ offset then writeRuns offset stop buf runs runEnd total
    else
      let segStart := max offset start
      let segLen := min stop runEnd - segStart
      if run.lcn < 0 then Eff.throw .unsupported
      else
        writeDeviceBytes (run.lcn.toNat * v.clusterSize + (segStart - start))
          (slice buf (segStart - offset) segLen)
        writeRuns offset stop buf runs runEnd (total + segLen)

/-- Write a range of a value. A sparse run has nowhere for the bytes to go. -/
def writeToRuns (runs : List DataRun) (offset : ℕ) (buf : List UInt8) : Eff Error Volume ℕ :=
  if buf = [] then pure 0 else writeRuns offset (offset + buf.length) buf runs 0 0

end Volume

/-! ### A mount and its cache -/

/-- A mounted volume, with the place of its master file table and the records it has read. -/
structure Mount where
  volume : Volume
  mftRuns : List DataRun
  mftDataSize : ℕ
  mftRecordSize : ℕ
  sectorSize : ℕ
  mftCache : ℕ → Option (List UInt8)

/-- What the writers look at of an attribute: where it begins in its record, how long it is, and
where its value or its run list is. -/
structure ParsedAttr where
  holder : ℕ
  offset : ℕ
  attrLen : ℕ
  flags : ℕ
  valueOffset : ℕ
  content : List UInt8
  dataSize : ℕ
  dataRunsOffset : Option ℕ
  dataRuns : List DataRun

namespace Mount

/-- Unpack a record. -/
def unpack (sectorSize : ℕ) (record : List UInt8) : Except Error (List UInt8) :=
  match MftRecordHeader.parse record with
  | none => .error .invalidArgument
  | some header => applyUsaFixup record header.usaOffset header.usaCount sectorSize

variable (number : ℕ) (record : List UInt8)

/-- The mount with a record in its cache. -/
def cached (m : Mount) : Mount :=
  { m with mftCache := fun n => if n = number then some record else m.mftCache n }

variable (m : Mount)

/-- Run a step of the volume. -/
def onVolume {α : Type} : Eff Error Volume α → Eff Error Mount α :=
  zoom Mount.volume fun m v => { m with volume := v }

/-- `read_mft_record`: from the cache, or from the device into the cache. -/
def readMftRecord : Eff Error Mount (List UInt8) := do
  let m ← Eff.get
  match m.mftCache number with
  | some record => ofExcept (unpack m.sectorSize record)
  | none =>
    let offset := number * m.mftRecordSize
    failIf (m.mftDataSize < offset + m.mftRecordSize) .notFound
    let read ← ofExcept (m.volume.readFromRuns m.mftRuns m.mftDataSize offset
      (replicate m.mftRecordSize 0))
    Eff.modify (cached number read.2)
    ofExcept (unpack m.sectorSize read.2)

/-- Where a record lies on the device. -/
def recordOffset : Eff Error Mount ℕ := do
  let m ← Eff.get
  ofOption .invalidArgument
    (byteOffsetInRuns m.volume.clusterSize m.mftRuns (number * m.mftRecordSize))

/-! ### Fields that are written in place -/

variable (data : ParsedAttr)

def bitmapRecord : ℕ := 6

/-- Write the bitmap of the clusters back where it came from. -/
def writeBitmap (bitmap : List UInt8) : Eff Error Mount Unit :=
  match data.dataRunsOffset with
  | none => do
    let record ← readMftRecord bitmapRecord
    let header ← ofOption .invalidArgument (MftRecordHeader.parse record)
    let at' ← recordOffset bitmapRecord
    onVolume (writeDeviceBytes (at' + header.size + data.offset + data.valueOffset) bitmap)
  | some _ => do
    let _ ← onVolume (writeToRuns data.dataRuns 0 bitmap)

def volumeRecord : ℕ := 3

def volumeFlagsOffset : ℕ := 10

variable (information : ParsedAttr)

/-- Where the flags of the volume are on the device. -/
def volumeFlagsAt : Eff Error Mount ℕ := do
  let record ← readMftRecord volumeRecord
  let header ← ofOption .invalidArgument (MftRecordHeader.parse record)
  let at' ← recordOffset volumeRecord
  pure (at' + header.size + information.offset + information.valueOffset + volumeFlagsOffset)

/-- The flags of the volume. -/
def volumeFlags (at' : ℕ) : Eff Error Mount ℕ := do
  let m ← Eff.get
  let field ← ofExcept (m.volume.readDeviceBytes at' 2)
  pure (u16At field 0)

/-- Say whether the volume is in the middle of being changed. -/
def setDirty (dirty : Bool) : Eff Error Mount Unit := do
  let m ← Eff.get
  failIf (m.sectorSize = 0) .invalidArgument
  let at' ← volumeFlagsAt information
  let flags ← volumeFlags at'
  let wanted := if dirty then flags ||| 1 else flags &&& 65534
  if wanted = flags then pure ()
  else onVolume (writeDeviceBytes at' (leBytes wanted 2))

end Mount

end Protofire.Ntfs
