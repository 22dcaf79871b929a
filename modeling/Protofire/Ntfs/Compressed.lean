import Protofire.Ntfs.Lznt1
import Protofire.Ntfs.Runs

/-!
# Reading a compressed stream

A compressed stream is cut into *compression units* of a power of two of clusters. A unit has a
place of its own in the stream, and is there in one of two ways: as it is, on as many real
clusters as it has, or squeezed, as chunks that follow each other from the unit's place on, with
a sparse run for the rest. Nothing says which: the reader counts the real clusters of the unit,
and takes a unit with all of them for one that is stored as it is.

`Holds` says what it is for a stream to decode to a content, without the reader; and the reader
answers every range of that content (`readACompressedStream_ok`).
-/

namespace Protofire.Ntfs

open Splice List Lznt1

/-- What a compressed attribute's record says of its stream. -/
structure CompressedData where
  dataRuns : List DataRun
  dataSize : ℕ
  /-- The size of a compression unit, as the exponent of a power of two of clusters. -/
  unitExponent : ℕ
deriving DecidableEq

namespace Volume

/-! ### The units of a stream -/

section

variable (v : Volume) (data : CompressedData)

/-- `compression_unit_bytes`: the exponent is one to eight. -/
def compressionUnitBytes : Except Error ℕ :=
  if data.unitExponent = 0 ∨ 8 < data.unitExponent then .error .invalidArgument
  else .ok (2 ^ data.unitExponent * v.clusterSize)

/-- Count the clusters of one run to the units they are in. -/
def holdRun (unitClusters : ℕ) (real : Bool) : ℕ → (left vcn : ℕ) → List ℕ → ℕ × List ℕ
  | 0, _, vcn, held => (vcn, held)
  | rounds + 1, left, vcn, held =>
    if left = 0 then (vcn, held)
    else
      let index := vcn / unitClusters
      let take := min left (unitClusters - vcn % unitClusters)
      let held := held ++ replicate (index + 1 - held.length) 0
      holdRun unitClusters real rounds (left - take) (vcn + take)
        (if real then held.modify index (· + take) else held)

variable (runs : List DataRun)

/-- How many real clusters each unit has. -/
def compressionUnitsHeld (unitClusters : ℕ) : List ℕ :=
  (runs.foldl (fun (state : ℕ × List ℕ) run => holdRun unitClusters (decide (0 ≤ run.lcn))
    run.clusterCount run.clusterCount state.1 state.2) (0, [])).2

/-! ### Chunks -/

variable (stream place : ℕ)

/-- The header of the chunk at a place of the stream. -/
def chunkHeader : Except Error Lznt1.Unit := do
  let header ← v.readFromRuns runs stream place [0, 0]
  let low := header.2.getD 0 0
  let high := header.2.getD 1 0
  if isPadding low high then .error .invalidArgument else .ok (parseUnit low high)

/-- The payload of a chunk at a place of the stream. -/
def chunkPayload (chunk : Lznt1.Unit) : Except Error (List UInt8) := do
  let payload ← v.readFromRuns runs stream (place + 2) (replicate (chunk.length - 2) 0)
  .ok payload.2

/-! ### The reader -/

/-- The chunk at a place, as the reader decodes it: the place after it and its bytes. -/
def readChunk : Except Error (ℕ × List UInt8) := do
  if stream < place + 2 then .error .invalidArgument
  else
    let chunk ← v.chunkHeader runs stream place
    if stream < place + 2 + (chunk.length - 2) then .error .invalidArgument
    else
      let payload ← v.chunkPayload runs stream place chunk
      let expanded ← expand chunk payload unitSize
      if expanded = [] then .error .invalidArgument
      else .ok (place + 2 + (chunk.length - 2), expanded)

/-- The loop of the reader: what was read, the place in the file and the place in the stream. It
halts when the rounds are used up, as a loop that does not end. -/
def readUnits (v : Volume) (data : CompressedData)
    (unitBytes unitClusters stream offset stop wanted : ℕ) (held : List ℕ) :
    ℕ → (read fileAt place : ℕ) → List UInt8 → Outcome Error (ℕ × List UInt8)
  | 0, _, _, _, _ => .halt
  | rounds + 1, read, fileAt, place, buffer =>
    if wanted ≤ read then .ok (read, buffer)
    else
      let unitEnd := (fileAt / unitBytes + 1) * unitBytes
      if held.getD (fileAt / unitBytes) 0 = unitClusters then
        -- stored as it is: the bytes of the unit are the file's
        let start := max fileAt offset
        let want := min (min stop unitEnd) data.dataSize - start
        if want = 0 then
          v.readUnits data unitBytes unitClusters stream offset stop wanted held rounds read
            (min unitEnd data.dataSize) unitEnd buffer
        else
          match v.readFromRuns data.dataRuns stream (place + (start - fileAt))
              (slice buffer read want) with
          | .error e => .err e
          | .ok (_, bytes) =>
            v.readUnits data unitBytes unitClusters stream offset stop wanted held rounds
              (read + want) (min unitEnd data.dataSize) unitEnd (splice buffer read bytes)
      else
        match v.readChunk data.dataRuns stream place with
        | .error e => .err e
        | .ok (next, expanded) =>
          let chunkEnd := fileAt + expanded.length
          -- the next unit is at its own place
          let next := if unitEnd ≤ chunkEnd then unitEnd else next
          if offset < chunkEnd then
            let start := max offset fileAt
            let take := min (min stop chunkEnd - start) (expanded.length - (start - fileAt))
            v.readUnits data unitBytes unitClusters stream offset stop wanted held rounds
              (read + take) chunkEnd next
              (splice buffer read (slice expanded (start - fileAt) take))
          else
            v.readUnits data unitBytes unitClusters stream offset stop wanted held rounds read
              chunkEnd next buffer

/-- Read a range of a compressed stream: how many bytes were read, and the buffer. -/
def readACompressedStream (offset : ℕ) (buffer : List UInt8) : Outcome Error (ℕ × List UInt8) :=
  let stop := min (offset + buffer.length) data.dataSize
  let wanted := stop - offset
  if wanted = 0 then .ok (0, buffer)
  else
    match v.compressionUnitBytes data with
    | .error e => .err e
    | .ok unitBytes =>
      if v.clusterSize = 0 then .halt
      else
        let unitClusters := unitBytes / v.clusterSize
        if unitClusters = 0 then .err .invalidArgument
        else if spanned data.dataRuns = 0 then
          .ok (wanted, splice buffer 0 (replicate wanted 0))
        else
          let place := offset / unitBytes * unitBytes
          v.readUnits data unitBytes unitClusters (spanned data.dataRuns * v.clusterSize) offset
            stop wanted (compressionUnitsHeld data.dataRuns unitClusters) (unitBytes + wanted + 1)
            0 place place buffer

/-! ### What a stream holds -/

/-- A chunk lies between two places of the stream and decodes to bytes. -/
def Chunk (place next : ℕ) (out : List UInt8) : Prop :=
  ∃ low high payload, next = place + 2 + payload.length ∧
    v.runBytes runs place 2 = [low, high] ∧
    v.runBytes runs (place + 2) payload.length = payload ∧ Decodes low high payload out

/-- The chunks from a place on decode to bytes, and end before a limit. A chunk may decode to
more than the bytes only where they are the file's last. -/
inductive Chain (v : Volume) (runs : List DataRun) (limit : ℕ) (last : Prop) :
    ℕ → List UInt8 → Prop
  | nil (place : ℕ) : Chain v runs limit last place []
  | cons {place next : ℕ} {out rest : List UInt8} (chunk : v.Chunk runs place next out)
    (hne : out ≠ []) (hle : next ≤ limit) (tail : Chain v runs limit last next rest) :
    Chain v runs limit last place (out ++ rest)
  | final {place next : ℕ} {out bytes : List UInt8} (chunk : v.Chunk runs place next out)
    (hlast : last) (hne : bytes ≠ []) (hle : next ≤ limit) (hpre : bytes <+: out) :
    Chain v runs limit last place bytes

/-- The bytes of one unit of a stream's runs. -/
def UnitHolds (unitBytes unitClusters unit : ℕ) (content : List UInt8) : Prop :=
  if (compressionUnitsHeld data.dataRuns unitClusters).getD unit 0 = unitClusters then
    ∀ k, unit * unitBytes ≤ k → k < (unit + 1) * unitBytes → k < data.dataSize →
      k < spanned data.dataRuns * v.clusterSize ∧ content[k]? = some (v.runByte data.dataRuns k)
  else
    v.Chain data.dataRuns (min ((unit + 1) * unitBytes) (spanned data.dataRuns * v.clusterSize))
      (data.dataSize ≤ (unit + 1) * unitBytes) (unit * unitBytes)
      (slice content (unit * unitBytes) unitBytes)

end

/-- **A stream decodes to a content**: every unit is stored as it is on real clusters, or it is
the chunks from its place on. -/
structure Holds (v : Volume) (data : CompressedData) (content : List UInt8) : Prop where
  exponent : data.unitExponent ≠ 0 ∧ data.unitExponent ≤ 8
  clusterSize : 0 < v.clusterSize
  length : content.length = data.dataSize
  onDevice : v.OnDevice data.dataRuns
  unit : ∀ unit, unit * (2 ^ data.unitExponent * v.clusterSize) < data.dataSize →
    v.UnitHolds data (2 ^ data.unitExponent * v.clusterSize) (2 ^ data.unitExponent) unit content

section Congr

variable {v w : Volume} {runs runs' : List DataRun} {limit limit' place next : ℕ}

theorem Chunk.congr {out : List UInt8} (h : v.Chunk runs place next out)
    (hby : ∀ k < next, w.runByte runs' k = v.runByte runs k) : w.Chunk runs' place next out := by
  obtain ⟨low, high, payload, rfl, hhdr, hpay, hdec⟩ := h
  refine ⟨low, high, payload, rfl, ?_, ?_, hdec⟩
  · rw [← hhdr]
    exact runBytes_congr fun k _ hk => hby k (by omega)
  · exact (runBytes_congr fun k _ hk => hby k (by omega)).trans hpay

theorem Chain.congr {last : Prop} {bytes : List UInt8} (h : v.Chain runs limit last place bytes)
    (hle : limit ≤ limit') (hby : ∀ k < limit, w.runByte runs' k = v.runByte runs k) :
    w.Chain runs' limit' last place bytes := by
  induction h with
  | nil place => exact .nil place
  | cons chunk hne hnx _ ih =>
    exact .cons (chunk.congr fun k hk => hby k (by omega)) hne (by omega) ih
  | final chunk hla hne hnx hpre =>
    exact .final (chunk.congr fun k hk => hby k (by omega)) hla hne (by omega) hpre

/-- A unit is what the stream has up to its end. -/
theorem UnitHolds.congr {data data' : CompressedData} {ub uc unit : ℕ}
    {content content' : List UInt8} (h : v.UnitHolds data ub uc unit content)
    (hsz : data'.dataSize = data.dataSize)
    (hhe : (compressionUnitsHeld data'.dataRuns uc).getD unit 0 =
      (compressionUnitsHeld data.dataRuns uc).getD unit 0)
    (hsn : min ((unit + 1) * ub) (spanned data.dataRuns * v.clusterSize) ≤
      spanned data'.dataRuns * w.clusterSize)
    (hby : ∀ k < (unit + 1) * ub, k < spanned data.dataRuns * v.clusterSize →
      w.runByte data'.dataRuns k = v.runByte data.dataRuns k)
    (hcon : ∀ k, unit * ub ≤ k → k < (unit + 1) * ub → content'[k]? = content[k]?) :
    w.UnitHolds data' ub uc unit content' := by
  rw [UnitHolds] at h ⊢
  rw [hhe, hsz]
  split
  · rename_i hwhole
    rw [if_pos hwhole] at h
    intro k hge hlt hfile
    obtain ⟨hin, hget⟩ := h k hge hlt hfile
    exact ⟨by omega, by rw [hcon k hge hlt, hget, hby k hlt hin]⟩
  rename_i hsqd
  rw [if_neg hsqd] at h
  have hsli : slice content' (unit * ub) ub = slice content (unit * ub) ub := by
    refine ext_getElem? fun i => ?_
    rw [getElem?_slice, getElem?_slice]
    by_cases hi : i < ub
    · rw [if_pos hi, if_pos hi, hcon _ (by omega) (by rw [Nat.add_mul]; omega)]
    · rw [if_neg hi, if_neg hi]
  rw [hsli]
  exact h.congr (by omega) fun k hk => hby k (by omega) (by omega)

/-- A stream is what its clusters hold. -/
theorem Holds.congr {data : CompressedData} {content : List UInt8} (h : v.Holds data content)
    (hsz : w.size = v.size) (hcluster : w.clusterSize = v.clusterSize)
    (hbytes : ∀ c, Names data.dataRuns c → ∀ j < v.clusterSize,
      w.bytes (c * v.clusterSize + j) = v.bytes (c * v.clusterSize + j)) :
    w.Holds data content where
  exponent := h.exponent
  clusterSize := hcluster ▸ h.clusterSize
  length := h.length
  onDevice c hc := by
    rw [hcluster, hsz]
    exact h.onDevice c hc
  unit unit hlt := by
    rw [hcluster] at hlt ⊢
    exact (h.unit unit hlt).congr rfl rfl (by rw [hcluster]; omega)
      (fun k _ _ => runByte_congr hcluster hbytes k) fun _ _ _ => rfl

end Congr

/-! ### Counting real clusters -/

/-- How many real clusters runs have in a range, from the first cluster of the runs on. -/
def covered (low high : ℕ) : List DataRun → ℕ → ℕ
  | [], _ => 0
  | run :: runs, vcn =>
    (if 0 ≤ run.lcn then min (vcn + run.clusterCount) high - max vcn low else 0) +
      covered low high runs (vcn + run.clusterCount)

section Covered

variable {low high vcn uc : ℕ} {xs ys : List DataRun}

theorem covered_append : covered low high (xs ++ ys) vcn =
    covered low high xs vcn + covered low high ys (vcn + spanned xs) := by
  induction xs generalizing vcn with
  | nil => simp [covered]
  | cons run xs ih =>
    rw [cons_append, covered, ih, covered, spanned_cons, Nat.add_assoc, Nat.add_assoc]

theorem covered_eq_zero (h : high ≤ vcn ∨ vcn + spanned xs ≤ low) :
    covered low high xs vcn = 0 := by
  induction xs generalizing vcn with
  | nil => rfl
  | cons run xs ih =>
    rw [spanned_cons] at h
    rw [covered, ih (by omega)]
    split <;> omega

theorem covered_shift (d : ℕ) :
    covered (d + low) (d + high) xs (d + vcn) = covered low high xs vcn := by
  induction xs generalizing vcn with
  | nil => rfl
  | cons run xs ih =>
    rw [covered, Nat.add_assoc, ih]
    congr 2
    omega

/-- The clusters of a run are counted to their units. -/
theorem holdRun_spec (huc : 0 < uc) {real : Bool} {rounds left : ℕ} {held : List ℕ}
    (hrn : left ≤ rounds) : (holdRun uc real rounds left vcn held).1 = vcn + left ∧
      ∀ u, (holdRun uc real rounds left vcn held).2.getD u 0 = held.getD u 0 +
        if real then min (vcn + left) ((u + 1) * uc) - max vcn (u * uc) else 0 := by
  induction rounds generalizing left vcn held with
  | zero =>
    rw [show left = 0 by omega]
    refine ⟨rfl, fun u => ?_⟩
    rw [show min (vcn + 0) ((u + 1) * uc) - max vcn (u * uc) = 0 by omega, ite_self]
    rfl
  | succ rounds ih =>
    rw [holdRun]
    by_cases hzero : left = 0
    · rw [if_pos hzero, hzero]
      refine ⟨rfl, fun u => ?_⟩
      rw [show min (vcn + 0) ((u + 1) * uc) - max vcn (u * uc) = 0 by omega, ite_self]
      rfl
    rw [if_neg hzero]
    simp only
    have hmod := Nat.mod_lt vcn huc
    have hdiv : uc * (vcn / uc) + vcn % uc = vcn := Nat.div_add_mod vcn uc
    rw [Nat.mul_comm] at hdiv
    generalize htake : min left (uc - vcn % uc) = take
    generalize hidx : vcn / uc = index at hdiv ⊢
    refine ⟨by rw [(ih (by omega)).1]; omega, fun u => ?_⟩
    generalize hfu : held ++ List.replicate (index + 1 - held.length) 0 = full
    have hpad : full.getD u 0 = held.getD u 0 := by
      rw [← hfu, getD_eq_getElem?_getD, getD_eq_getElem?_getD, getElem?_append]
      split
      · rfl
      rw [getElem?_replicate, getElem?_eq_none (l := held) (by omega)]
      split <;> rfl
    have hlong : index < full.length := by
      rw [← hfu, length_append, length_replicate]
      omega
    obtain ⟨-, hget⟩ := @ih (vcn + take) (left - take)
      (if real then full.modify index (· + take) else full) (by omega)
    rw [hget u, show vcn + take + (left - take) = vcn + left by omega]
    cases real with
    | false => simp only [Bool.false_eq_true, if_false, hpad]
    | true =>
      simp only [if_true]
      have hcnt : (full.modify index (· + take)).getD u 0 =
          held.getD u 0 + if u = index then take else 0 := by
        rw [getD_eq_getElem?_getD, getElem?_modify, ← hpad, getD_eq_getElem?_getD]
        by_cases hu : u = index
        · simp [hu, getElem?_eq_getElem hlong]
        · simp [hu, Ne.symm hu]
      rw [hcnt, Nat.add_assoc]
      congr 1
      rw [Nat.add_mul, Nat.one_mul]
      rcases Nat.lt_trichotomy u index with hu | hu | hu
      · have := Nat.mul_le_mul_right uc (show u + 1 ≤ index from hu)
        rw [Nat.add_mul, Nat.one_mul] at this
        rw [if_neg (by omega)]
        omega
      · rw [if_pos hu, hu]
        omega
      · have := Nat.mul_le_mul_right uc (show index + 1 ≤ u from hu)
        rw [Nat.add_mul, Nat.one_mul] at this
        rw [if_neg (by omega)]
        omega

/-- **The units are counted right.** -/
theorem getD_compressionUnitsHeld (huc : 0 < uc) (runs : List DataRun) (unit : ℕ) :
    (compressionUnitsHeld runs uc).getD unit 0 = covered (unit * uc) ((unit + 1) * uc) runs 0 := by
  have hfold : ∀ (runs : List DataRun) (vcn : ℕ) (held : List ℕ),
      (runs.foldl (fun state run => holdRun uc (decide (0 ≤ run.lcn))
        run.clusterCount run.clusterCount state.1 state.2) (vcn, held)).2.getD unit 0 =
      held.getD unit 0 + covered (unit * uc) ((unit + 1) * uc) runs vcn := by
    intro runs
    induction runs with
    | nil => exact fun _ _ => rfl
    | cons run runs ih =>
      intro vcn held
      obtain ⟨hvcn, hget⟩ := @holdRun_spec vcn uc huc (decide (0 ≤ run.lcn)) _ _ held
        (Nat.le_refl run.clusterCount)
      rw [foldl_cons, ih, hget unit, hvcn, covered, Nat.add_assoc]
      simp only [decide_eq_true_eq]
  rw [compressionUnitsHeld, hfold]
  simp

end Covered

/-! ### The reader answers what the stream holds -/

section Reading

variable {v : Volume} {runs : List DataRun} {place next : ℕ} {out : List UInt8}

theorem chunkHeader_ok (hdev : v.OnDevice runs) {low high : UInt8}
    (hle : place + 2 ≤ spanned runs * v.clusterSize)
    (hbytes : v.runBytes runs place 2 = [low, high]) (hpad : isPadding low high = false) :
    v.chunkHeader runs (spanned runs * v.clusterSize) place = .ok (parseUnit low high) := by
  obtain ⟨total, hrd⟩ := readFromRuns_ok hdev
    (show place + [0, 0].length ≤ spanned runs * v.clusterSize from hle)
    (Nat.le_refl _)
  rw [chunkHeader, hrd, show [(0 : UInt8), 0].length = 2 from rfl, hbytes]
  exact if_neg (by simp [hpad])

theorem chunkPayload_ok (hdev : v.OnDevice runs) {chunk : Lznt1.Unit}
    (hle : place + 2 + (chunk.length - 2) ≤ spanned runs * v.clusterSize) :
    v.chunkPayload runs (spanned runs * v.clusterSize) place chunk =
      .ok (v.runBytes runs (place + 2) (chunk.length - 2)) := by
  obtain ⟨total, hrd⟩ := readFromRuns_ok hdev (show place + 2 +
    (List.replicate (chunk.length - 2) 0).length ≤ spanned runs * v.clusterSize by
      rwa [length_replicate]) (Nat.le_refl _)
  rw [chunkPayload, hrd, length_replicate]
  rfl

theorem Chunk.read (hdev : v.OnDevice runs) (h : v.Chunk runs place next out) (hne : out ≠ [])
    (hle : next ≤ spanned runs * v.clusterSize) :
    v.readChunk runs (spanned runs * v.clusterSize) place = .ok (next, out) := by
  obtain ⟨low, high, payload, rfl, hhdr, hpay, hdec⟩ := h
  have hln : (parseUnit low high).length - 2 = payload.length := by
    rw [hdec.length, Nat.add_sub_cancel]
  have hexpa := hdec.expand
  rw [readChunk, if_neg (by omega), chunkHeader_ok hdev (by omega) hhdr hdec.not_padding]
  simp only [bind, Except.bind]
  rw [if_neg (by omega), chunkPayload_ok hdev (by omega), hln, hpay]
  simp only [hexpa, hne, if_false]

theorem runBytes_eq_slice {content : List UInt8} {off n : ℕ}
    (h : ∀ k, off ≤ k → k < off + n → content[k]? = some (v.runByte runs k)) :
    v.runBytes runs off n = slice content off n := by
  refine ext_getElem? fun i => ?_
  rw [getElem?_runBytes, getElem?_slice]
  by_cases hi : i < n
  · rw [if_pos hi, if_pos hi, h (off + i) (by omega) (by omega)]
  · rw [if_neg hi, if_neg hi]

end Reading

/-- A place of the stream where the reader can go on from a place in the file. -/
def Position (v : Volume) (data : CompressedData) (unitBytes unitClusters : ℕ)
    (content : List UInt8) (fileAt place : ℕ) : Prop :=
  let unit := fileAt / unitBytes
  if (compressionUnitsHeld data.dataRuns unitClusters).getD unit 0 = unitClusters then
    fileAt = unit * unitBytes ∧ place = fileAt
  else
    v.Chain data.dataRuns (min ((unit + 1) * unitBytes) (spanned data.dataRuns * v.clusterSize))
      (data.dataSize ≤ (unit + 1) * unitBytes) place
      (slice content fileAt ((unit + 1) * unitBytes - fileAt))

section Loop

variable {v : Volume} {data : CompressedData} {content buffer : List UInt8}
  {ub uc offset stop fileAt place : ℕ}

theorem UnitHolds.position {unit : ℕ} (hub : 0 < ub) (h : v.UnitHolds data ub uc unit content) :
    v.Position data ub uc content (unit * ub) (unit * ub) := by
  have hsub : (unit + 1) * ub - unit * ub = ub := by
    rw [Nat.add_mul]
    omega
  rw [UnitHolds] at h
  simp only [Position, Nat.mul_div_cancel unit hub, hsub]
  split
  · exact ⟨trivial, trivial⟩
  rename_i hsqd
  rwa [if_neg hsqd] at h

/-- A copy of the next bytes of the content into the buffer. -/
theorem splice_content {read n : ℕ} (hln : offset + read + n ≤ content.length)
    (hbuf : read + n ≤ buffer.length) :
    splice (splice buffer 0 (slice content offset read)) read (slice content (offset + read) n) =
      splice buffer 0 (slice content offset (read + n)) := by
  have hfirst : (slice content offset read).length = read := length_slice (by omega)
  have hsnd : (slice content (offset + read) n).length = n := length_slice (by omega)
  rw [slice_append, ← splice_splice_append (by omega), hfirst, Nat.zero_add]

/-- What the chunk at a position decodes to: the next bytes of the content, up to the end of the
unit or beyond the end of the file, and a position after it. -/
theorem Position.chunk (hln : content.length = data.dataSize) (hub : 0 < ub)
    (hlt : fileAt < data.dataSize) (h : v.Position data ub uc content fileAt place)
    (hhe : (compressionUnitsHeld data.dataRuns uc).getD (fileAt / ub) 0 ≠ uc) : ∃ next out,
      v.Chunk data.dataRuns place next out ∧ out ≠ [] ∧
      next ≤ spanned data.dataRuns * v.clusterSize ∧
      (∀ i < out.length, fileAt + i < data.dataSize → out[i]? = content[fileAt + i]?) ∧
      (data.dataSize ≤ fileAt + out.length ∨ fileAt + out.length = (fileAt / ub + 1) * ub ∨
        fileAt + out.length < (fileAt / ub + 1) * ub ∧
          v.Position data ub uc content (fileAt + out.length) next) := by
  have hend : fileAt < (fileAt / ub + 1) * ub := by
    rw [Nat.add_mul, Nat.one_mul]
    exact Nat.lt_div_mul_add hub
  have hge : fileAt / ub * ub ≤ fileAt := Nat.div_mul_le_self fileAt ub
  simp only [Position] at h
  rw [if_neg hhe] at h
  generalize hbytes : slice content fileAt ((fileAt / ub + 1) * ub - fileAt) = bytes at h
  have hget : ∀ i < bytes.length, bytes[i]? = content[fileAt + i]? := fun i hi => by
    rw [← hbytes, getElem?_slice]
    refine if_pos ?_
    rw [← hbytes, slice, length_take] at hi
    omega
  have hlen : bytes.length = min ((fileAt / ub + 1) * ub) data.dataSize - fileAt := by
    rw [← hbytes, slice, length_take, length_drop]
    omega
  cases h with
  | nil => simp at hlen; omega
  | @cons _ next out rest chunk hne hle tail =>
    rw [length_append] at hlen
    refine ⟨next, out, chunk, hne, by omega, fun i hi _ => ?_, ?_⟩
    · rw [← hget i (by rw [length_append]; omega), getElem?_append_left hi]
    by_cases hun : fileAt + out.length = (fileAt / ub + 1) * ub
    · exact Or.inr (Or.inl hun)
    by_cases hfile : data.dataSize ≤ fileAt + out.length
    · exact Or.inl hfile
    have hsm : (fileAt + out.length) / ub = fileAt / ub :=
      Nat.div_eq_of_lt_le (by omega) (by omega)
    refine Or.inr (Or.inr ⟨by omega, ?_⟩)
    simp only [Position, hsm]
    rw [if_neg hhe]
    have hre : slice content (fileAt + out.length)
        ((fileAt / ub + 1) * ub - (fileAt + out.length)) = rest := by
      rw [show (fileAt / ub + 1) * ub - fileAt = out.length +
        ((fileAt / ub + 1) * ub - (fileAt + out.length)) by omega, slice_append] at hbytes
      refine (append_inj hbytes ?_).2
      exact length_slice (by omega)
    rwa [hre]
  | @final _ next out _ chunk hla hne hle hpre =>
    have hle' := hpre.length_le
    refine ⟨next, out, chunk, fun h => ?_, by omega, fun i hi hfile => ?_, Or.inl (by omega)⟩
    · rw [h, prefix_nil] at hpre
      exact hne hpre
    · obtain ⟨rest, rfl⟩ := hpre
      rw [getElem?_append_left (by omega), hget i (by omega)]

/-- A stream that holds a unit goes beyond the unit's place. -/
theorem UnitHolds.lt_spanned {unit : ℕ} (h : v.UnitHolds data ub uc unit content)
    (hln : content.length = data.dataSize) (hub : 0 < ub) (hlt : unit * ub < data.dataSize) :
    unit * ub < spanned data.dataRuns * v.clusterSize := by
  by_cases hhe : (compressionUnitsHeld data.dataRuns uc).getD unit 0 = uc
  · rw [UnitHolds, if_pos hhe] at h
    exact (h (unit * ub) (Nat.le_refl _) (by rw [Nat.add_mul]; omega) hlt).1
  obtain ⟨next, out, ⟨_, _, _, rfl, _⟩, _, hle, _⟩ := (h.position hub).chunk hln hub hlt
    (by rwa [Nat.mul_div_cancel unit hub])
  omega

/-- The bytes the reader has in its buffer when it comes to a place in the file. -/
def upTo (content buffer : List UInt8) (offset stop fileAt : ℕ) : List UInt8 :=
  splice buffer 0 (slice content offset (min fileAt stop - offset))

/-- The reader at a place in the file and in the stream. -/
def readerAt (v : Volume) (data : CompressedData) (ub uc : ℕ) (content buffer : List UInt8)
    (offset stop rounds fileAt place : ℕ) : Outcome Error (ℕ × List UInt8) :=
  v.readUnits data ub uc (spanned data.dataRuns * v.clusterSize) offset stop (stop - offset)
    (compressionUnitsHeld data.dataRuns uc) rounds (min fileAt stop - offset) fileAt place
    (upTo content buffer offset stop fileAt)

/-- One round of the reader in a unit that is stored as it is. -/
theorem readUnits_whole (hdev : v.OnDevice data.dataRuns) (hln : content.length = data.dataSize)
    (hoff : offset < stop) (hsp : stop ≤ data.dataSize) (hbuf : stop - offset ≤ buffer.length)
    (hlt : fileAt < stop) (hend : fileAt < (fileAt / ub + 1) * ub)
    (hofs : offset < (fileAt / ub + 1) * ub) (hpos : v.Position data ub uc content fileAt place)
    (hun : v.UnitHolds data ub uc (fileAt / ub) content)
    (hhe : (compressionUnitsHeld data.dataRuns uc).getD (fileAt / ub) 0 = uc) (rounds : ℕ) :
    v.readerAt data ub uc content buffer offset stop (rounds + 1) fileAt place =
      v.readerAt data ub uc content buffer offset stop rounds
        (min ((fileAt / ub + 1) * ub) data.dataSize) ((fileAt / ub + 1) * ub) := by
  simp only [Position] at hpos
  rw [if_pos hhe] at hpos
  rw [UnitHolds, if_pos hhe] at hun
  rw [readerAt, readUnits, if_neg (by omega)]
  simp only [readerAt, upTo]
  rw [if_pos hhe]
  generalize (fileAt / ub + 1) * ub = unitEnd at *
  rw [show min fileAt stop = fileAt by omega,
    Nat.min_eq_left (show min stop unitEnd ≤ data.dataSize by omega)]
  generalize hwant : min stop unitEnd - max fileAt offset = want
  have hrd : offset + (fileAt - offset) = max fileAt offset := by omega
  have hbytes : v.runBytes data.dataRuns (max fileAt offset) want =
      slice content (max fileAt offset) want :=
    runBytes_eq_slice fun k hk hlt => (hun k (by omega) (by omega) (by omega)).2
  have hspl : (splice buffer 0 (slice content offset (fileAt - offset))).length =
      buffer.length := length_splice (by rw [length_slice (by omega)]; omega)
  have hrm : (slice (splice buffer 0 (slice content offset (fileAt - offset)))
      (fileAt - offset) want).length = want := length_slice (by omega)
  have hin : max fileAt offset + (slice (splice buffer 0 (slice content offset (fileAt - offset)))
      (fileAt - offset) want).length ≤ spanned data.dataRuns * v.clusterSize := by
    have := (hun (max fileAt offset + want - 1) (by omega) (by omega) (by omega)).1
    omega
  obtain ⟨total, hgo⟩ := readFromRuns_ok hdev hin (Nat.le_refl _)
  rw [if_neg (by omega), show place + (max fileAt offset - fileAt) = max fileAt offset by omega,
    hgo, hrm, hbytes]
  simp only
  rw [← hrd, splice_content (by omega) (by omega),
    show min (min unitEnd data.dataSize) stop - offset = fileAt - offset + want by omega]

/-- One round of the reader at a chunk. -/
theorem readUnits_chunk (hln : content.length = data.dataSize)
    (hoff : offset < stop) (hsp : stop ≤ data.dataSize) (hbuf : stop - offset ≤ buffer.length)
    (hlt : fileAt < stop) {next : ℕ} {out : List UInt8}
    (hhe : (compressionUnitsHeld data.dataRuns uc).getD (fileAt / ub) 0 ≠ uc)
    (hchk : v.readChunk data.dataRuns (spanned data.dataRuns * v.clusterSize) place =
      .ok (next, out))
    (hout : ∀ i < out.length, fileAt + i < data.dataSize → out[i]? = content[fileAt + i]?)
    (rounds : ℕ) : v.readerAt data ub uc content buffer offset stop (rounds + 1) fileAt place =
      v.readerAt data ub uc content buffer offset stop rounds (fileAt + out.length)
        (if (fileAt / ub + 1) * ub ≤ fileAt + out.length then (fileAt / ub + 1) * ub
          else next) := by
  rw [readerAt, readUnits, if_neg (by omega)]
  simp only [readerAt, upTo]
  rw [if_neg hhe, hchk, show min fileAt stop = fileAt by omega]
  simp only
  split
  · generalize hwant : min stop (fileAt + out.length) - max offset fileAt = want
    have htake : min want (out.length - (max offset fileAt - fileAt)) = want := by omega
    have hbytes : slice out (max offset fileAt - fileAt) want =
        slice content (offset + (fileAt - offset)) want := by
      refine ext_getElem? fun i => ?_
      rw [getElem?_slice, getElem?_slice]
      by_cases hi : i < want
      · rw [if_pos hi, if_pos hi, hout _ (by omega) (by omega)]
        congr 1
        omega
      · rw [if_neg hi, if_neg hi]
    rw [htake, hbytes, splice_content (by omega) (by omega),
      show min (fileAt + out.length) stop - offset = fileAt - offset + want by omega]
  · rw [show min (fileAt + out.length) stop - offset = fileAt - offset by omega]

/-- The loop of the reader from a position on, by induction on the rounds that are left. -/
theorem readUnits_ok (h : v.Holds data content)
    (hub : ub = 2 ^ data.unitExponent * v.clusterSize) (huc : uc = 2 ^ data.unitExponent)
    (hoff : offset < stop) (hsp : stop ≤ data.dataSize) (hbuf : stop - offset ≤ buffer.length)
    (hfrom : offset / ub * ub ≤ fileAt)
    (hpos : fileAt < stop → v.Position data ub uc content fileAt place) {rounds : ℕ}
    (hrn : stop ≤ fileAt + rounds) :
    v.readerAt data ub uc content buffer offset stop (rounds + 1) fileAt place =
      .ok (stop - offset, splice buffer 0 (slice content offset (stop - offset))) := by
  have hpow : 0 < ub := by
    rw [hub]
    exact Nat.mul_pos (Nat.two_pow_pos _) h.clusterSize
  have hun : ∀ unit, unit * ub < data.dataSize → v.UnitHolds data ub uc unit content := by
    intro unit hlt
    rw [hub, huc]
    exact h.unit unit (hub ▸ hlt)
  induction rounds generalizing fileAt place with
  | zero =>
    rw [readerAt, readUnits, upTo, show min fileAt stop = stop by omega, if_pos (Nat.le_refl _)]
  | succ rounds ih =>
    by_cases hdone : stop ≤ fileAt
    · rw [readerAt, readUnits, upTo, show min fileAt stop = stop by omega, if_pos (Nat.le_refl _)]
    have hle := Nat.div_mul_le_self fileAt ub
    have hend : fileAt < (fileAt / ub + 1) * ub := by
      rw [Nat.add_mul, Nat.one_mul]
      exact Nat.lt_div_mul_add hpow
    have hofs : offset < (fileAt / ub + 1) * ub := by
      have hmono := Nat.div_le_div_right (c := ub) hfrom
      rw [Nat.mul_div_cancel _ hpow] at hmono
      calc offset < (offset / ub + 1) * ub := by
            rw [Nat.add_mul, Nat.one_mul]
            exact Nat.lt_div_mul_add hpow
        _ ≤ (fileAt / ub + 1) * ub := Nat.mul_le_mul_right ub (by omega)
    -- the position at the start of the next unit
    have hnx : (fileAt / ub + 1) * ub < stop →
        v.Position data ub uc content ((fileAt / ub + 1) * ub) ((fileAt / ub + 1) * ub) :=
      fun hlt => (hun (fileAt / ub + 1) (by omega)).position hpow
    by_cases hhe : (compressionUnitsHeld data.dataRuns uc).getD (fileAt / ub) 0 = uc
    · rw [readUnits_whole h.onDevice h.length hoff hsp hbuf (by omega) hend hofs
        (hpos (by omega)) (hun _ (by omega)) hhe]
      refine ih (by omega) (fun hlt => ?_) (by omega)
      rw [Nat.min_eq_left (by omega)] at hlt ⊢
      exact hnx hlt
    obtain ⟨next, out, chunk, hne, hle, hout, haft⟩ :=
      (hpos (by omega)).chunk h.length hpow (by omega) hhe
    have hso := length_pos_iff.mpr hne
    rw [readUnits_chunk h.length hoff hsp hbuf (by omega) hhe
      (chunk.read h.onDevice hne hle) hout]
    refine ih (by omega) (fun hlt => ?_) (by omega)
    rcases haft with hfile | hun' | ⟨hlt', hposi⟩
    · omega
    · rw [if_pos (by omega), hun']
      exact hnx (by omega)
    · rwa [if_neg (by omega)]

end Loop

/-- **The reader answers every range of what the stream holds.** -/
theorem readACompressedStream_ok {v : Volume} {data : CompressedData} {content : List UInt8}
    (h : v.Holds data content) (offset : ℕ) (buffer : List UInt8) :
    v.readACompressedStream data offset buffer =
      .ok (min (offset + buffer.length) data.dataSize - offset,
        splice buffer 0 (slice content offset
          (min (offset + buffer.length) data.dataSize - offset))) := by
  have hcluster := h.clusterSize
  rw [readACompressedStream]
  split
  · rename_i hno
    rw [hno, slice_zero, splice_nil]
  rename_i hso
  generalize hsp : min (offset + buffer.length) data.dataSize = stop at hso ⊢
  have hexp : ¬(data.unitExponent = 0 ∨ 8 < data.unitExponent) := by
    have := h.exponent
    omega
  have hpow : 0 < 2 ^ data.unitExponent * v.clusterSize :=
    Nat.mul_pos (Nat.two_pow_pos _) hcluster
  have hfirst : offset / (2 ^ data.unitExponent * v.clusterSize) *
      (2 ^ data.unitExponent * v.clusterSize) ≤ offset := Nat.div_mul_le_self _ _
  have hun := h.unit (offset / (2 ^ data.unitExponent * v.clusterSize)) (by omega)
  have hsn : spanned data.dataRuns ≠ 0 := fun hzero => by
    have := hun.lt_spanned h.length hpow (by omega)
    simp [hzero] at this
  rw [compressionUnitBytes, if_neg hexp]
  simp only
  rw [if_neg (by omega), Nat.mul_div_cancel _ hcluster,
    if_neg (Nat.ne_of_gt (Nat.two_pow_pos data.unitExponent)), if_neg hsn]
  have hgo := readUnits_ok h rfl rfl (show offset < stop by omega) (by omega)
    (show stop - offset ≤ buffer.length by omega)
    (Nat.le_refl _) (fun _ => hun.position hpow)
    (show stop ≤ offset / (2 ^ data.unitExponent * v.clusterSize) *
        (2 ^ data.unitExponent * v.clusterSize) +
        (2 ^ data.unitExponent * v.clusterSize + (stop - offset)) by
      have := Nat.lt_div_mul_add (a := offset) hpow
      omega)
  rwa [readerAt, upTo, show min (offset / (2 ^ data.unitExponent * v.clusterSize) *
    (2 ^ data.unitExponent * v.clusterSize)) stop - offset = 0 by omega, slice_zero] at hgo

end Volume

end Protofire.Ntfs
