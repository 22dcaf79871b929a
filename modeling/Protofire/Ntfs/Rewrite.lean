import Protofire.Ntfs.Compressed

/-!
# Writing to a compressed stream

A write inside a compressed file rewrites the units from the one it begins in to the file's end.
The clusters for the worst case are claimed first; each unit is decoded, the write's bytes are
laid over it, and it is encoded again – chunk by chunk, or as it is if the chunks take as much
room. What the encoding did not need goes back, the record gets the new run list, and last the
clusters of the old units are freed.

The record is not modelled: `RecordWriter` is any way of writing the new run list to it, which
may need clusters of its own for that, and leaves those of the list alone.
-/

namespace Protofire.Ntfs

open Splice Bytes List Option Bool Eff

/-- A way to write a run list and its sizes to the record of an attribute. -/
structure RecordWriter where
  write : List DataRun → (virtualSize realBytes : ℕ) → Eff Error Volume Unit
  /-- The clusters of the list stay claimed and keep their bytes. -/
  keeps : ∀ {runs virtualSize realBytes v v'}, write runs virtualSize realBytes v = (.ok (), v') →
    v'.size = v.size ∧ v'.clusterSize = v.clusterSize ∧ ∀ c, Names runs c →
      (v.marked c = true → v'.marked c = true) ∧ ∀ k < v.clusterSize,
        v'.bytes (c * v.clusterSize + k) = v.bytes (c * v.clusterSize + k)

/-- A record that has the room. -/
def RecordWriter.inPlace : RecordWriter where
  write _ _ _ := pure ()
  keeps h := by
    cases h
    exact ⟨rfl, rfl, fun _ _ => ⟨id, fun _ _ => rfl⟩⟩

/-! ### The run list, cut at a unit -/

/-- The runs before a virtual cluster. -/
def keptRuns (boundary : ℕ) : List DataRun → ℕ → List DataRun
  | [], _ => []
  | run :: runs, vcn =>
    if boundary ≤ vcn then []
    else
      let take := min (boundary - vcn) run.clusterCount
      ⟨run.lcn, take⟩ :: keptRuns boundary runs (vcn + take)

/-- The runs whose clusters go back after the write. A run that the boundary cuts is taken from
its first cluster on. -/
def oldRuns (boundary : ℕ) : List DataRun → ℕ → List DataRun
  | [], _ => []
  | run :: runs, vcn =>
    let runEnd := vcn + run.clusterCount
    if boundary < runEnd then
      ⟨run.lcn, run.clusterCount - (boundary - vcn)⟩ :: oldRuns boundary runs runEnd
    else oldRuns boundary runs runEnd

/-- A virtual cluster is inside a run of real clusters, not at its start. -/
def cutsRun (boundary : ℕ) : List DataRun → ℕ → Bool
  | [], _ => false
  | run :: runs, vcn =>
    decide (0 ≤ run.lcn ∧ vcn < boundary ∧ boundary < vcn + run.clusterCount) ||
      cutsRun boundary runs (vcn + run.clusterCount)

/-- No cluster is named by two of the runs. -/
def Apart (runs : List DataRun) : Prop :=
  runs.Pairwise fun a b => ∀ c, Names [a] c → ¬Names [b] c

section Cut

variable {boundary vcn c : ℕ} {runs : List DataRun}

theorem spanned_keptRuns :
    spanned (keptRuns boundary runs vcn) = min (boundary - vcn) (spanned runs) := by
  induction runs generalizing vcn with
  | nil => simp [keptRuns]
  | cons run runs ih =>
    rw [keptRuns, spanned_cons]
    split
    · rw [spanned_nil]
      omega
    rw [spanned_cons, ih]
    simp only
    omega

theorem names_of_names_keptRuns (h : Names (keptRuns boundary runs vcn) c) : Names runs c := by
  induction runs generalizing vcn with
  | nil => exact h
  | cons run runs ih =>
    rw [keptRuns] at h
    split at h
    · exact absurd h not_names_nil
    rcases names_cons.mp h with hrun | hre
    · simp only at hrun
      exact names_cons.mpr (Or.inl (by omega))
    · exact names_cons.mpr (Or.inr (ih hre))

theorem names_of_names_oldRuns (h : Names (oldRuns boundary runs vcn) c) : Names runs c := by
  induction runs generalizing vcn with
  | nil => exact h
  | cons run runs ih =>
    rw [oldRuns] at h
    split at h
    · rcases names_cons.mp h with hrun | hre
      · simp only at hrun
        exact names_cons.mpr (Or.inl (by omega))
      · exact names_cons.mpr (Or.inr (ih hre))
    · exact names_cons.mpr (Or.inr (ih h))

theorem keptRuns_of_le (h : boundary ≤ vcn) : keptRuns boundary runs vcn = [] := by
  cases runs with
  | nil => rfl
  | cons run runs => rw [keptRuns, if_pos h]

/-- What is kept and what goes back is all there is, where no run is cut. -/
theorem names_kept_or_old (hcut : cutsRun boundary runs vcn = false) (h : Names runs c) :
    Names (keptRuns boundary runs vcn) c ∨ Names (oldRuns boundary runs vcn) c := by
  induction runs generalizing vcn with
  | nil => exact absurd h not_names_nil
  | cons run runs ih =>
    simp only [cutsRun, or_eq_false_iff, decide_eq_false_iff_not] at hcut
    rw [keptRuns, oldRuns]
    by_cases hle : boundary ≤ vcn
    · right
      rcases names_cons.mp h with hrun | hre
      · rw [if_pos (by omega)]
        exact names_cons.mpr (Or.inl (by simp only; omega))
      have hold := (ih hcut.2 hre).resolve_left (by
        rw [keptRuns_of_le (by omega)]
        exact not_names_nil)
      split
      · exact names_cons.mpr (Or.inr hold)
      · exact hold
    rw [if_neg hle]
    rcases names_cons.mp h with hrun | hre
    · left
      refine names_cons.mpr (Or.inl ?_)
      simp only
      omega
    by_cases hend : boundary < vcn + run.clusterCount
    · right
      rw [if_pos hend]
      exact names_cons.mpr (Or.inr ((ih hcut.2 hre).resolve_left (by
        rw [keptRuns_of_le (by omega)]
        exact not_names_nil)))
    · rw [if_neg hend, Nat.min_eq_right (by omega)]
      exact (ih hcut.2 hre).imp (fun hkt => names_cons.mpr (Or.inr hkt)) id

/-- What is kept does not go back, where no run is cut. -/
theorem not_names_old (hap : Apart runs) (hcut : cutsRun boundary runs vcn = false)
    (h : Names (keptRuns boundary runs vcn) c) : ¬Names (oldRuns boundary runs vcn) c := by
  induction runs generalizing vcn with
  | nil => exact not_names_nil
  | cons run runs ih =>
    simp only [cutsRun, or_eq_false_iff, decide_eq_false_iff_not] at hcut
    obtain ⟨hrun, hre⟩ := pairwise_cons.mp hap
    rw [keptRuns] at h
    rw [oldRuns]
    split at h
    · exact absurd h not_names_nil
    simp only at h
    split
    · -- the run goes on beyond the boundary, so it is sparse and the last one that is kept
      rw [keptRuns_of_le (by omega)] at h
      obtain ⟨hrl, -⟩ := (names_cons.mp h).resolve_right not_names_nil
      simp only at hrl
      omega
    rw [Nat.min_eq_right (by omega)] at h
    rcases names_cons.mp h with hhere | hthere
    · intro hold
      obtain ⟨other, hmem, hoth⟩ := names_of_names_oldRuns hold
      exact hrun other hmem c (names_cons.mpr (Or.inl hhere)) (names_cons.mpr (Or.inl hoth))
    · exact ih hre hcut.2 hthere

theorem lt_of_cutsRun (h : cutsRun boundary runs vcn = true) : vcn < boundary := by
  induction runs generalizing vcn with
  | nil => cases h
  | cons run runs ih =>
    simp only [cutsRun, or_eq_true, decide_eq_true_eq] at h
    rcases h with h | h
    · exact h.2.1
    have := ih h
    omega

/-- **A run that is cut has a cluster that is kept and goes back.** -/
theorem exists_names_kept_and_old (h : cutsRun boundary runs vcn = true) :
    ∃ c, Names (keptRuns boundary runs vcn) c ∧ Names (oldRuns boundary runs vcn) c := by
  induction runs generalizing vcn with
  | nil => cases h
  | cons run runs ih =>
    have hlt := lt_of_cutsRun h
    simp only [cutsRun, or_eq_true, decide_eq_true_eq] at h
    rw [keptRuns, if_neg (by omega), oldRuns]
    rcases h with ⟨hrl, -, hend⟩ | h
    · refine ⟨run.lcn.toNat, names_cons.mpr (Or.inl ?_), ?_⟩
      · simp only
        omega
      · rw [if_pos hend]
        exact names_cons.mpr (Or.inl (by simp only; omega))
    · have hnx := lt_of_cutsRun h
      obtain ⟨c, hkt, hold⟩ := ih h
      rw [Nat.min_eq_right (by omega), if_neg (by omega)]
      exact ⟨c, names_cons.mpr (Or.inr hkt), hold⟩

end Cut

/-! ### One unit -/

/-- Encode a unit's bytes, chunk by chunk. -/
def encodeUnit : ℕ → List UInt8 → Except Error (List UInt8)
  | 0, _ => .ok []
  | rounds + 1, plain =>
    if plain = [] then .ok []
    else do
      let chunk ← Lznt1.compressUnit (plain.take Lznt1.unitSize)
      let rest ← encodeUnit rounds (plain.drop Lznt1.unitSize)
      .ok (chunk ++ rest)

/-- What is stored of a unit, and on how many clusters. -/
def squeeze (clusterSize unitClusters : ℕ) (plain : List UInt8) :
    Except Error (List UInt8 × ℕ) := do
  let stored ← encodeUnit plain.length plain
  .ok (if unitClusters * clusterSize ≤ stored.length then (plain, unitClusters)
    else (stored, (stored.length + clusterSize - 1) / clusterSize))

/-- The part of a write that is in a unit, laid over the unit's bytes. -/
def overlay (offset : ℕ) (buffer : List UInt8) (bytesAt plainLen : ℕ) (plain : List UInt8) :
    List UInt8 :=
  let start := max offset bytesAt
  let stop := min (offset + buffer.length) (bytesAt + plainLen)
  if start < stop then
    splice plain (start - bytesAt) (slice buffer (start - offset) (stop - start))
  else plain

/-- The runs of one unit: the clusters it is stored on, and a sparse run for the others. -/
def unitRuns (lcn real unitClusters : ℕ) : List DataRun :=
  ⟨lcn, real⟩ :: if real < unitClusters then [⟨-1, unitClusters - real⟩] else []

/-- The units a write has stored so far. -/
structure Rewrite where
  /-- The clusters that were used. -/
  went : ℕ
  realBytes : ℕ
  runs : List DataRun
  /-- The buffer the units are decoded into. -/
  plain : List UInt8

/-- The state after a unit that is stored on some clusters. -/
def Rewrite.next (state : Rewrite) (first unitClusters clusterSize real : ℕ)
    (plain : List UInt8) : Rewrite where
  went := state.went + real
  realBytes := state.realBytes + real * clusterSize
  runs := state.runs ++ unitRuns (first + state.went) real unitClusters
  plain := plain

namespace Volume

/-- Decode the chunks of a squeezed unit into a buffer. A round decodes at least one byte. -/
def decodeUnit (v : Volume) (runs : List DataRun) (stream plainLen : ℕ) :
    ℕ → (place got : ℕ) → List UInt8 → Except Error (List UInt8)
  | 0, _, _, plain => .ok plain
  | rounds + 1, place, got, plain =>
    if plainLen ≤ got then .ok plain
    else do
      let chunk ← v.chunkHeader runs stream place
      let payload ← v.chunkPayload runs stream place chunk
      let out ← Lznt1.expand chunk payload (plain.length - got)
      if out = [] then .error .invalidArgument
      else
        v.decodeUnit runs stream plainLen rounds (place + 2 + (chunk.length - 2))
          (got + min out.length (plainLen - got)) (splice plain got out)

/-- Read a unit into a buffer: as it is stored, or its chunks decoded. -/
def oldUnit (v : Volume) (data : CompressedData) (held : List ℕ)
    (unitClusters bytesAt unit plainLen : ℕ) (plain : List UInt8) : Except Error (List UInt8) :=
  let stream := spanned data.dataRuns * v.clusterSize
  if held.getD unit 0 = unitClusters then do
    let bytes ← v.readFromRuns data.dataRuns stream bytesAt (plain.take plainLen)
    .ok (splice plain 0 bytes.2)
  else v.decodeUnit data.dataRuns stream plainLen plainLen bytesAt 0 plain

/-- Write stored bytes cluster by cluster, the last one with zeros. A cluster that would begin after
the bytes stops the machine: there is one if the last unit of a file is stored as it is and is
shorter by more than a cluster. -/
def writeBlocks (clusterSize first : ℕ) (stored : List UInt8) :
    ℕ → ℕ → Eff Error Volume Unit
  | 0, _ => pure ()
  | left + 1, wrote => do
    assert (decide (wrote * clusterSize ≤ stored.length))
    let data := slice stored (wrote * clusterSize) clusterSize
    writeDeviceBytes ((first + wrote) * clusterSize)
      (data ++ replicate (clusterSize - data.length) 0)
    writeBlocks clusterSize first stored left (wrote + 1)

/-- The loop over the units of a write. -/
def rewriteUnits (data : CompressedData) (held : List ℕ) (clusterSize unitClusters : ℕ)
    (offset : ℕ) (buffer : List UInt8) (first : ℕ) :
    ℕ → (unit : ℕ) → Rewrite → Eff Error Volume Rewrite
  | 0, _, state => pure state
  | left + 1, unit, state => do
    let v ← Eff.get
    let bytesAt := unit * (unitClusters * clusterSize)
    let plainLen := min (data.dataSize - bytesAt) (unitClusters * clusterSize)
    let plain ← ofExcept (v.oldUnit data held unitClusters bytesAt unit plainLen state.plain)
    let plain := overlay offset buffer bytesAt plainLen plain
    let (stored, real) ← ofExcept (squeeze clusterSize unitClusters (plain.take plainLen))
    writeBlocks clusterSize (first + state.went) stored real 0
    rewriteUnits data held clusterSize unitClusters offset buffer first left (unit + 1)
      (state.next first unitClusters clusterSize real plain)

/-- Write a buffer into a compressed stream: how many bytes were written, and the attribute as
its record then has it. -/
def writeToACompressedStream (record : RecordWriter) (data : CompressedData) (offset : ℕ)
    (buffer : List UInt8) : Eff Error Volume (ℕ × CompressedData) := do
  let v ← Eff.get
  failIf (decide (data.dataSize < offset + buffer.length)) .notImplemented
  failIf data.dataRuns.isEmpty .notImplemented
  let unitBytes ← ofExcept (v.compressionUnitBytes data)
  assert (decide (v.clusterSize ≠ 0))
  let unitClusters := unitBytes / v.clusterSize
  failIf (decide (unitClusters = 0)) .invalidArgument
  let held := compressionUnitsHeld data.dataRuns unitClusters
  let firstUnit := offset / unitBytes
  let boundary := firstUnit * unitClusters
  let units := (data.dataSize + unitBytes - 1) / unitBytes
  let worst := (units - firstUnit) * unitClusters
  let first ← claimClusters worst
  let state ← rewriteUnits data held v.clusterSize unitClusters offset buffer first
    (units - firstUnit) firstUnit
    { went := 0, realBytes := 0, runs := keptRuns boundary data.dataRuns 0
      plain := replicate unitBytes 0 }
  when (decide (state.went < worst))
    (freeClusters [⟨(first + state.went : ℕ), worst - state.went⟩])
  record.write state.runs (units * unitBytes) state.realBytes
  let old := oldRuns boundary data.dataRuns 0
  when (!old.isEmpty) (freeClusters old)
  pure (buffer.length, { data with dataRuns := state.runs })

/-! ### One unit is read, overlaid and stored -/

section OneUnit

variable {v v' : Volume} {runs : List DataRun} {data : CompressedData}
  {content buffer plain plain' : List UInt8} {ub uc offset plainLen : ℕ}

/-- One chunk is decoded into the buffer, as far as the buffer goes. -/
theorem decodeUnit_chunk (hdev : v.OnDevice runs) {place next got rounds : ℕ} {out : List UInt8}
    (hchk : v.Chunk runs place next out) (hle : next ≤ spanned runs * v.clusterSize)
    (hgot : got < plainLen)
    (h : v.decodeUnit runs (spanned runs * v.clusterSize) plainLen (rounds + 1) place got plain =
      .ok plain') : v.decodeUnit runs (spanned runs * v.clusterSize) plainLen rounds next
      (got + min (out.take (plain.length - got)).length (plainLen - got))
      (splice plain got (out.take (plain.length - got))) = .ok plain' := by
  obtain ⟨low, high, payload, rfl, hhdr, hpay, hdec⟩ := hchk
  have hln : (Lznt1.parseUnit low high).length - 2 = payload.length := by
    rw [hdec.length, Nat.add_sub_cancel]
  rw [decodeUnit, if_neg (by omega), chunkHeader_ok hdev (by omega) hhdr hdec.not_padding] at h
  simp only [bind, Except.bind] at h
  rw [chunkPayload_ok hdev (by omega), hln, hpay] at h
  simp only at h
  split at h
  · cases h
  rename_i out' hexp
  obtain rfl := Lznt1.expand_eq_take hdec.expand hexp
  split at h
  · cases h
  · exact h

/-- **The chunks of a unit are decoded into the buffer.** -/
theorem decodeUnit_ok (hdev : v.OnDevice runs) {limit place got rounds : ℕ} {last : Prop}
    {bytes : List UInt8} (hchn : v.Chain runs limit last place bytes)
    (hlmt : limit ≤ spanned runs * v.clusterSize) (hgot : got + bytes.length = plainLen)
    (hpln : plainLen ≤ plain.length) (hrn : plainLen ≤ got + rounds)
    (h : v.decodeUnit runs (spanned runs * v.clusterSize) plainLen rounds place got plain =
      .ok plain') : plain'.length = plain.length ∧
        plain'.take plainLen = plain.take got ++ bytes := by
  have hdone : ∀ {rounds place got plain}, plainLen ≤ got → v.decodeUnit runs
      (spanned runs * v.clusterSize) plainLen rounds place got plain = .ok plain' →
      plain' = plain := by
    intro rounds place got plain hge h
    cases rounds with
    | zero => exact (Except.ok.inj h).symm
    | succ rounds =>
      rw [decodeUnit, if_pos hge] at h
      exact (Except.ok.inj h).symm
  induction hchn generalizing got rounds plain with
  | nil place =>
    obtain rfl := hdone (by simp at hgot; omega) h
    rw [append_nil, ← hgot]
    exact ⟨rfl, rfl⟩
  | @cons place next out rest chunk hne hle tail ih =>
    have hso := length_pos_iff.mpr hne
    rw [length_append] at hgot
    obtain ⟨rounds, rfl⟩ : ∃ n, rounds = n + 1 := ⟨rounds - 1, by omega⟩
    have hst := decodeUnit_chunk hdev chunk (by omega) (by omega) h
    rw [take_of_length_le (by omega), min_eq_left (by omega)] at hst
    have hspl : (splice plain got out).length = plain.length := length_splice (by omega)
    obtain ⟨hln, htake⟩ := ih (by omega) (by omega) (by omega) hst
    refine ⟨hln.trans hspl, ?_⟩
    have hfirst := @take_splice _ plain out got [] (by rw [append_nil]; omega)
    rw [append_nil] at hfirst
    rw [htake, hfirst, append_assoc]
  | @final place next out bytes chunk hla hne hle hpre =>
    have hso := length_pos_iff.mpr hne
    obtain ⟨rounds, rfl⟩ : ∃ n, rounds = n + 1 := ⟨rounds - 1, by omega⟩
    have hst := decodeUnit_chunk hdev chunk (by omega) (by omega) h
    obtain ⟨rest, rfl⟩ := hpre
    have hmo : (rest.take (plain.length - got - bytes.length)).length ≤
        plain.length - got - bytes.length := length_take_le ..
    rw [take_append, take_of_length_le (by omega)] at hst
    generalize rest.take (plain.length - got - bytes.length) = more at hmo hst
    have hft : got + (bytes ++ more).length ≤ plain.length := by
      rw [length_append]
      omega
    obtain rfl := hdone (by rw [length_append]; omega) hst
    exact ⟨length_splice hft, hgot ▸ take_splice hft⟩

/-- **A unit is read as the content has it.** -/
theorem oldUnit_ok (hdev : v.OnDevice data.dataRuns) (hln : content.length = data.dataSize)
    {unit : ℕ} (hun : v.UnitHolds data ub uc unit content)
    (hlen : plainLen = min (data.dataSize - unit * ub) ub) (hpos : 0 < plainLen)
    (hpln : plain.length = ub)
    (h : v.oldUnit data (compressionUnitsHeld data.dataRuns uc) uc (unit * ub) unit plainLen
      plain = .ok plain') : plain'.length = ub ∧
        plain'.take plainLen = slice content (unit * ub) ub := by
  have hsli : (slice content (unit * ub) ub).length = plainLen := by
    rw [slice, length_take, length_drop, hln]
    omega
  rw [oldUnit] at h
  rw [UnitHolds] at hun
  split at h
  · rename_i hwhole
    rw [if_pos hwhole] at hun
    have hrm : (plain.take plainLen).length = plainLen := length_take_of_le (by omega)
    have hin : unit * ub + (plain.take plainLen).length ≤
        spanned data.dataRuns * v.clusterSize := by
      have := (hun (unit * ub + plainLen - 1) (by omega) (by rw [add_mul]; omega) (by omega)).1
      omega
    obtain ⟨total, hrd⟩ := readFromRuns_ok hdev hin (le_refl _)
    rw [hrd, hrm] at h
    cases h
    have hbytes : v.runBytes data.dataRuns (unit * ub) plainLen =
        slice content (unit * ub) plainLen :=
      runBytes_eq_slice fun k hge hlt => (hun k hge (by rw [add_mul]; omega) (by omega)).2
    have hcut : slice content (unit * ub) ub = slice content (unit * ub) plainLen := by
      rw [slice, slice, take_eq_take_iff, length_drop]
      omega
    rw [hcut] at hsli ⊢
    rw [hbytes]
    have hft : 0 + (slice content (unit * ub) plainLen ++ []).length ≤ plain.length := by
      rw [append_nil]
      omega
    have htake := take_splice hft
    rw [append_nil] at hft htake
    rw [hsli, zero_add, take_zero] at htake
    exact ⟨(length_splice hft).trans hpln, htake⟩
  · rename_i hsqd
    rw [if_neg hsqd] at hun
    obtain ⟨hsm, htake⟩ := decodeUnit_ok hdev hun (by omega) (by rw [hsli, zero_add])
      (by omega) (by omega) h
    exact ⟨hsm.trans hpln, htake⟩

/-- **A write is laid over a unit as over the content.** -/
theorem overlay_ok {bytesAt : ℕ} (hin : offset + buffer.length ≤ content.length)
    (hpln : plainLen ≤ plain.length)
    (htake : plain.take plainLen = slice content bytesAt plainLen) :
    (overlay offset buffer bytesAt plainLen plain).length = plain.length ∧
    (overlay offset buffer bytesAt plainLen plain).take plainLen =
      slice (splice content offset buffer) bytesAt plainLen := by
  have hget : ∀ i < plainLen, plain[i]? = content[bytesAt + i]? := fun i hi => by
    rw [← getElem?_take_of_lt hi, htake, getElem?_slice, if_pos hi]
  rw [overlay]
  split
  · have hsli : (slice buffer (max offset bytesAt - offset)
        (min (offset + buffer.length) (bytesAt + plainLen) - max offset bytesAt)).length =
          min (offset + buffer.length) (bytesAt + plainLen) - max offset bytesAt :=
      length_slice (by omega)
    refine ⟨length_splice (by omega), ext_getElem? fun i => ?_⟩
    rw [getElem?_take, getElem?_slice]
    by_cases hi : i < plainLen
    · rw [if_pos hi, getElem?_splice (by omega), getElem?_splice hin, hget i hi, getElem?_slice]
      split
      · rw [if_pos (by omega), if_pos (by omega)]
        congr 1
        omega
      · rw [if_neg (by omega)]
    · rw [if_neg hi, if_neg hi]
  · refine ⟨rfl, ext_getElem? fun i => ?_⟩
    rw [getElem?_take, getElem?_slice]
    by_cases hi : i < plainLen
    · rw [if_pos hi, if_pos hi, getElem?_splice hin, hget i hi, if_neg (by omega)]
    · rw [if_neg hi, if_neg hi]

/-- **What the blocks of a unit leave on the device.** -/
theorem writeBlocks_ok {clusterSize first left wrote : ℕ} {stored : List UInt8}
    (h : writeBlocks clusterSize first stored left wrote v = (.ok (), v')) :
    v' = { v with bytes := v'.bytes } ∧
      (∀ c, first + wrote ≤ c → c < first + wrote + left → (c + 1) * clusterSize ≤ v.size) ∧
      ∀ k, v'.bytes k = if (first + wrote) * clusterSize ≤ k ∧
        k < (first + wrote + left) * clusterSize then stored.getD (k - first * clusterSize) 0
        else v.bytes k := by
  induction left generalizing wrote v with
  | zero =>
    cases h
    refine ⟨rfl, fun c _ _ => by omega, fun k => ?_⟩
    rw [add_zero, if_neg (by omega)]
  | succ left ih =>
    obtain ⟨_, v₀, hbegins, h⟩ := bind_eq_ok.mp h
    rw [(assert_eq_ok.mp hbegins).2] at h
    obtain ⟨_, v₁, hwr, hre⟩ := bind_eq_ok.mp h
    obtain ⟨hsm, hdv, hbytes⟩ := ih hre
    generalize hblk : slice stored (wrote * clusterSize) clusterSize ++ List.replicate
      (clusterSize - (slice stored (wrote * clusterSize) clusterSize).length) 0 = block at hwr
    have hln : block.length = clusterSize := by
      rw [← hblk, length_append, length_replicate]
      have : (slice stored (wrote * clusterSize) clusterSize).length ≤ clusterSize :=
        length_take_le ..
      omega
    have hget : ∀ i < clusterSize, block[i]? = some (stored.getD (wrote * clusterSize + i) 0) := by
      intro i hi
      rw [← hblk, getElem?_append, getElem?_slice, getElem?_replicate, getD_eq_getElem?_getD]
      have hsht : (slice stored (wrote * clusterSize) clusterSize).length =
          min clusterSize (stored.length - wrote * clusterSize) := by
        rw [slice, length_take, length_drop]
      split
      · rw [getElem?_eq_getElem (by omega), getD_some]
      · rw [if_pos (by omega), getElem?_eq_none (by omega), getD_none]
    rw [writeDeviceBytes] at hwr
    split at hwr
    · rename_i hrm
      cases hwr
      have hfirst : (first + wrote + 1) * clusterSize =
          (first + wrote) * clusterSize + clusterSize := Nat.succ_mul ..
      have hstart : (first + wrote) * clusterSize = first * clusterSize + wrote * clusterSize :=
        add_mul ..
      have hmono : (first + wrote + 1) * clusterSize ≤ (first + wrote + (left + 1)) * clusterSize :=
        Nat.mul_le_mul_right _ (by omega)
      refine ⟨hsm, fun c hge hlt => ?_, fun k => ?_⟩
      · by_cases hc : c = first + wrote
        · rw [hc]
          rcases hrm with hnil | hle
          · rw [hnil, length_nil] at hln
            rw [← hln]
            omega
          · omega
        · exact hdv c (by omega) (by omega)
      rw [hbytes k, show first + (wrote + 1) = first + wrote + 1 by omega,
        show first + wrote + 1 + left = first + wrote + (left + 1) by omega]
      by_cases hlate : (first + wrote + 1) * clusterSize ≤ k
      · by_cases hlt : k < (first + wrote + (left + 1)) * clusterSize
        · rw [if_pos ⟨hlate, hlt⟩, if_pos ⟨by omega, hlt⟩]
        rw [if_neg (by omega), if_neg (by omega)]
        exact writeAt_apply_of_apart _ _ (by omega)
      rw [if_neg (by omega)]
      by_cases hge : (first + wrote) * clusterSize ≤ k
      · rw [if_pos (by omega)]
        simp only [writeAt, if_pos hge]
        rw [hget _ (by omega), getD_some]
        congr 1
        omega
      · rw [if_neg (by omega)]
        exact writeAt_apply_of_apart _ _ (by omega)
    · cases hwr

end OneUnit

/-! ### The runs of a unit -/

section UnitRuns

variable {v : Volume} {lcn real uc c k : ℕ}

theorem spanned_unitRuns (h : real ≤ uc) : spanned (unitRuns lcn real uc) = uc := by
  rw [unitRuns, spanned_cons]
  split
  · rw [spanned_cons, spanned_nil]
    simp only
    omega
  · rw [spanned_nil]
    simp only
    omega

theorem names_unitRuns : Names (unitRuns lcn real uc) c ↔ lcn ≤ c ∧ c < lcn + real := by
  rw [unitRuns, names_cons]
  split
  · simp [names_cons]
  · simp

theorem covered_unitRuns (h : real ≤ uc) : covered 0 uc (unitRuns lcn real uc) 0 = real := by
  have hspar : covered 0 uc (if real < uc then [⟨-1, uc - real⟩] else []) (0 + real) = 0 := by
    split <;> rfl
  rw [unitRuns, covered, if_pos (Int.natCast_nonneg lcn)]
  simp only
  omega

theorem runByte_unitRuns (h : real ≤ uc) (hk : k < uc * v.clusterSize) :
    v.runByte (unitRuns lcn real uc) k =
      if k < real * v.clusterSize then v.bytes (lcn * v.clusterSize + k) else 0 := by
  rw [unitRuns, runByte]
  simp only
  split
  · exact if_neg (by omega)
  rename_i hge
  have hlt : real < uc := by
    by_contra hnot
    exact hge (by rwa [show real = uc by omega])
  rw [if_pos hlt, runByte, Nat.sub_mul, if_pos (by omega), if_pos (show -1 < 0 by decide)]

theorem squeeze_ok {cs : ℕ} {plain stored : List UInt8} (hcs : 0 < cs)
    (hpln : plain.length ≤ uc * cs) (h : squeeze cs uc plain = .ok (stored, real)) :
    real ≤ uc ∧ stored.length ≤ real * cs := by
  obtain ⟨encoded, -, hif⟩ := Fallible.bind_eq_ok.mp h
  rw [Except.ok.injEq] at hif
  split at hif
  · cases hif
    exact ⟨le_refl _, hpln⟩
  obtain ⟨rfl, rfl⟩ := Prod.mk.inj hif
  have hmod := Nat.div_add_mod (encoded.length + cs - 1) cs
  have hlt' := Nat.mod_lt (encoded.length + cs - 1) hcs
  rw [mul_comm] at hmod
  refine ⟨?_, by omega⟩
  refine Nat.le_of_lt_succ (Nat.div_lt_of_lt_mul ?_)
  rw [mul_comm, Nat.succ_mul]
  omega

end UnitRuns

/-! ### The loop over the units -/

/-- What the loop leaves of a number of units: their runs, on the clusters that went. -/
structure Rewritten (v v' : Volume) (state state' : Rewrite) (first uc left : ℕ)
    (fresh : List DataRun) : Prop where
  runs : state'.runs = state.runs ++ fresh
  spanned : Ntfs.spanned fresh = left * uc
  le : state.went ≤ state'.went
  le_worst : state'.went ≤ state.went + left * uc
  names : ∀ c, Names fresh c ↔ first + state.went ≤ c ∧ c < first + state'.went
  same : v' = { v with bytes := v'.bytes }
  onDevice : v'.OnDevice fresh
  frame : ∀ k, k < (first + state.went) * v.clusterSize ∨
    (first + state'.went) * v.clusterSize ≤ k → v'.bytes k = v.bytes k

/-- The units of runs are stored from the bytes of a content, from a unit on. -/
def Stores (v : Volume) (runs : List DataRun) (uc unit left : ℕ) (new : List UInt8) : Prop :=
  ∀ j < left, ∃ stored real, squeeze v.clusterSize uc
      (slice new ((unit + j) * (uc * v.clusterSize)) (uc * v.clusterSize)) = .ok (stored, real) ∧
    covered (j * uc) ((j + 1) * uc) runs 0 = real ∧
    ∀ k < uc * v.clusterSize, v.runByte runs (j * (uc * v.clusterSize) + k) = stored.getD k 0

section Loop

variable {data : CompressedData} {content buffer : List UInt8} {offset first uc left unit : ℕ}
  {v v₁ v' : Volume} {state state' : Rewrite}

/-- One unit of the loop. -/
theorem rewriteUnits_succ {held : List ℕ} (h : rewriteUnits data held v.clusterSize uc offset buffer
      first (left + 1) unit state v = (.ok state', v')) :
    ∃ plain stored real v₁, v.oldUnit data held uc (unit * (uc * v.clusterSize)) unit
        (min (data.dataSize - unit * (uc * v.clusterSize)) (uc * v.clusterSize)) state.plain =
          .ok plain ∧ squeeze v.clusterSize uc ((overlay offset buffer (unit * (uc * v.clusterSize))
        (min (data.dataSize - unit * (uc * v.clusterSize)) (uc * v.clusterSize)) plain).take
        (min (data.dataSize - unit * (uc * v.clusterSize)) (uc * v.clusterSize))) =
          .ok (stored, real) ∧
      writeBlocks v.clusterSize (first + state.went) stored real 0 v = (.ok (), v₁) ∧
      rewriteUnits data held v₁.clusterSize uc offset buffer first left (unit + 1)
        (state.next first uc v.clusterSize real (overlay offset buffer (unit * (uc * v.clusterSize))
          (min (data.dataSize - unit * (uc * v.clusterSize)) (uc * v.clusterSize)) plain)) v₁ =
        (.ok state', v') := by
  rw [rewriteUnits, bind_run_ok (get_run v)] at h
  obtain ⟨plain, w, hrd, h⟩ := bind_eq_ok.mp h
  obtain ⟨hold, hw⟩ := ofExcept_eq_ok.mp hrd
  rw [hw] at h
  obtain ⟨⟨stored, real⟩, w', henc, h⟩ := bind_eq_ok.mp h
  obtain ⟨hsqz, hw'⟩ := ofExcept_eq_ok.mp henc
  rw [hw'] at h
  obtain ⟨_, v₁, hwr, h⟩ := bind_eq_ok.mp h
  have hcluster : v₁.clusterSize = v.clusterSize := by rw [(writeBlocks_ok hwr).1]
  refine ⟨plain, stored, real, v₁, hold, hsqz, hwr, ?_⟩
  rw [hcluster]
  exact h

variable {plain : List UInt8} {fresh : List DataRun}

/-- A unit that is stored before others. -/
theorem Rewritten.cons {real : ℕ} {stored : List UInt8}
    (h : Rewritten v₁ v' (state.next first uc v.clusterSize real plain) state' first uc left fresh)
    (hrl : real ≤ uc)
    (hwr : writeBlocks v.clusterSize (first + state.went) stored real 0 v = (.ok (), v₁)) :
    Rewritten v v' state state' first uc (left + 1)
      (unitRuns (first + state.went) real uc ++ fresh) := by
  obtain ⟨hsm, hdv, hbytes⟩ := writeBlocks_ok hwr
  rw [add_zero] at hdv hbytes
  have hcluster : v₁.clusterSize = v.clusterSize := by rw [hsm]
  have hcluster' : v'.clusterSize = v.clusterSize := by rw [h.same, hsm]
  have hsz' : v'.size = v.size := by rw [h.same, hsm]
  have hle := h.le
  have hle_worst := h.le_worst
  have hnam := h.names
  have hfrm := h.frame
  have hmul : (left + 1) * uc = left * uc + uc := Nat.succ_mul ..
  simp only [hcluster, Rewrite.next] at hfrm
  simp only [Rewrite.next] at hle hle_worst hnam
  refine ⟨?_, ?_, by omega, by omega, fun c => ?_, ?_, fun c hc => ?_, fun k hk => ?_⟩
  · rw [h.runs, Rewrite.next, append_assoc]
  · rw [spanned_append, spanned_unitRuns hrl, h.spanned]
    omega
  · rw [names_append, names_unitRuns, hnam]
    omega
  · rw [h.same, hsm]
  · rw [hcluster', hsz']
    rcases names_append.mp hc with hc | hc
    · rw [names_unitRuns] at hc
      exact hdv c hc.1 hc.2
    · have := h.onDevice c hc
      rwa [hcluster', hsz'] at this
  · have hmono := Nat.mul_le_mul_right v.clusterSize
      (show first + state.went ≤ first + (state.went + real) by omega)
    have hmono' := Nat.mul_le_mul_right v.clusterSize
      (show first + (state.went + real) ≤ first + state'.went by omega)
    rw [hfrm k (by omega), hbytes, if_neg]
    rw [add_assoc]
    omega

/-- **The loop uses clusters in their order, and at most those of the worst case.** -/
theorem rewriteUnits_runs {held : List ℕ} (hcs : 0 < v.clusterSize)
    (h : rewriteUnits data held v.clusterSize uc offset buffer first left unit state v =
      (.ok state', v')) : ∃ fresh, Rewritten v v' state state' first uc left fresh := by
  induction left generalizing v state unit with
  | zero =>
    cases h
    exact ⟨[], by simp, by simp, le_refl _, by simp, fun c => by simp, rfl,
      fun c hc => absurd hc not_names_nil, fun _ _ => rfl⟩
  | succ left ih =>
    obtain ⟨plain, stored, real, v₁, -, hsqz, hwr, hre⟩ := rewriteUnits_succ h
    have hcluster : v₁.clusterSize = v.clusterSize := by rw [(writeBlocks_ok hwr).1]
    have hrl := (squeeze_ok hcs (le_trans (length_take_le ..) (min_le_right ..)) hsqz).1
    obtain ⟨fresh, hfresh⟩ := ih (hcluster ▸ hcs) hre
    exact ⟨_, hfresh.cons hrl hwr⟩

/-- A unit that is stored before others holds what it was squeezed from. -/
theorem Stores.cons {real : ℕ} {stored new : List UInt8}
    (h : v'.Stores fresh uc (unit + 1) left new)
    (hru : Rewritten v₁ v' (state.next first uc v.clusterSize real plain) state' first uc left
      fresh) (hrl : real ≤ uc) (hln : stored.length ≤ real * v.clusterSize)
    (hsqz : squeeze v.clusterSize uc
      (slice new (unit * (uc * v.clusterSize)) (uc * v.clusterSize)) = .ok (stored, real))
    (hwr : writeBlocks v.clusterSize (first + state.went) stored real 0 v = (.ok (), v₁)) :
    v'.Stores (unitRuns (first + state.went) real uc ++ fresh) uc unit (left + 1) new := by
  obtain ⟨hsm, -, hbytes⟩ := writeBlocks_ok hwr
  rw [add_zero] at hbytes
  have hcluster : v₁.clusterSize = v.clusterSize := by rw [hsm]
  have hcluster' : v'.clusterSize = v.clusterSize := by rw [hru.same, hsm]
  have hsn : spanned (unitRuns (first + state.went) real uc) = uc := spanned_unitRuns hrl
  have hfrm := hru.frame
  simp only [hcluster, Rewrite.next] at hfrm
  simp only [Stores, hcluster'] at h ⊢
  intro j hj
  cases j with
  | zero =>
    refine ⟨stored, real, by rwa [add_zero], ?_, fun k hk => ?_⟩
    · rw [Nat.zero_mul, Nat.one_mul, covered_append, covered_unitRuns hrl,
        covered_eq_zero (Or.inl (by omega)), add_zero]
    rw [zero_mul, zero_add, runByte_append_left (by rwa [hsn, hcluster']),
      runByte_unitRuns hrl (by rwa [hcluster']), hcluster']
    split
    · have hend : (first + (state.went + real)) * v.clusterSize =
          (first + state.went) * v.clusterSize + real * v.clusterSize := by
        rw [← add_assoc, add_mul]
      rw [hfrm _ (Or.inl (by omega)), hbytes, if_pos, Nat.add_sub_cancel_left]
      rw [add_assoc]
      omega
    · rw [getD_eq_getElem?_getD, getElem?_eq_none (by omega), Option.getD_none]
  | succ j =>
    obtain ⟨stored', real', hsqz', hcov, hby⟩ := h j (by omega)
    have hshf : (j + 1) * uc = uc + j * uc := by rw [Nat.succ_mul, add_comm]
    have hshf' : (j + 1 + 1) * uc = uc + (j + 1) * uc := by
      rw [Nat.succ_mul (j + 1), add_comm]
    refine ⟨stored', real', ?_, ?_, fun k hk => ?_⟩
    · rwa [show unit + (j + 1) = unit + 1 + j by omega]
    · rw [covered_append, covered_eq_zero (Or.inr (by omega)), hsn, zero_add, zero_add,
        hshf', hshf]
      rw [hshf] at hcov
      exact (@covered_shift (j * uc) (uc + j * uc) 0 fresh uc).trans hcov
    have hskip : (j + 1) * (uc * v.clusterSize) + k - uc * v.clusterSize =
        j * (uc * v.clusterSize) + k := by
      rw [Nat.succ_mul]
      omega
    rw [runByte_append_right (by rw [hsn, hcluster', Nat.succ_mul]; omega), hsn, hcluster',
      hskip, hby k hk]

/-- The bytes a unit of the new content is squeezed from. -/
theorem take_overlay (hhol : v.Holds data content) (huc : uc = 2 ^ data.unitExponent)
    (hin : offset + buffer.length ≤ data.dataSize)
    (hlt : unit * (uc * v.clusterSize) < data.dataSize) {plain' : List UInt8}
    (hpln : plain.length = uc * v.clusterSize)
    (hold : v.oldUnit data (compressionUnitsHeld data.dataRuns uc) uc
      (unit * (uc * v.clusterSize)) unit
      (min (data.dataSize - unit * (uc * v.clusterSize)) (uc * v.clusterSize)) plain = .ok plain') :
    (overlay offset buffer (unit * (uc * v.clusterSize)) (min
      (data.dataSize - unit * (uc * v.clusterSize)) (uc * v.clusterSize)) plain').length =
        uc * v.clusterSize ∧ (overlay offset buffer (unit * (uc * v.clusterSize))
      (min (data.dataSize - unit * (uc * v.clusterSize)) (uc * v.clusterSize)) plain').take
      (min (data.dataSize - unit * (uc * v.clusterSize)) (uc * v.clusterSize)) =
      slice (splice content offset buffer) (unit * (uc * v.clusterSize)) (uc * v.clusterSize) := by
  have hun := hhol.unit unit (huc ▸ hlt)
  rw [← huc] at hun
  have hub : 0 < uc * v.clusterSize :=
    mul_pos (huc ▸ Nat.two_pow_pos _) hhol.clusterSize
  have hln := hhol.length
  generalize uc * v.clusterSize = ub at *
  have hcut : ∀ l : List UInt8, l.length = data.dataSize →
      slice l (unit * ub) ub = slice l (unit * ub) (min (data.dataSize - unit * ub) ub) := by
    intro l hl
    rw [slice, slice, take_eq_take_iff, length_drop]
    omega
  obtain ⟨hold_length, hold_take⟩ := oldUnit_ok hhol.onDevice hln hun rfl (by omega) hpln hold
  obtain ⟨hover_length, hover_take⟩ := overlay_ok
    (show offset + buffer.length ≤ content.length by omega) (by omega)
    (hold_take.trans (hcut content hln))
  refine ⟨hover_length.trans hold_length, ?_⟩
  rw [hcut _ ((length_splice (by omega)).trans hln), ← hover_take]

/-- **The loop stores the units of the new content**, by induction on the units that are left. The
clusters it writes were claimed for it, so an old unit is there until it is read. -/
theorem rewriteUnits_stores (hhol : v.Holds data content) (huc : uc = 2 ^ data.unitExponent)
    (hin : offset + buffer.length ≤ data.dataSize)
    (hlt : ∀ j < left, (unit + j) * (uc * v.clusterSize) < data.dataSize)
    (hap : ∀ c, Names data.dataRuns c → c < first + state.went ∨ first + state.went + left * uc ≤ c)
    (hpln : state.plain.length = uc * v.clusterSize)
    (h : rewriteUnits data (compressionUnitsHeld data.dataRuns uc) v.clusterSize uc offset buffer
      first left unit state v = (.ok state', v')) (hfresh : state'.runs = state.runs ++ fresh) :
    v'.Stores fresh uc unit left (splice content offset buffer) := by
  induction left generalizing v state unit fresh with
  | zero => exact fun j hj => absurd hj (by omega)
  | succ left ih =>
    obtain ⟨plain, stored, real, v₁, hold, hsqz, hwr, hre⟩ := rewriteUnits_succ h
    have hfirst := hlt 0 (by omega)
    rw [add_zero] at hfirst
    obtain ⟨hpln', htake⟩ := take_overlay hhol huc hin hfirst hpln hold
    rw [htake] at hsqz
    have hcs := hhol.clusterSize
    obtain ⟨hrl, hln⟩ := squeeze_ok hcs (length_take_le ..) hsqz
    obtain ⟨hsm, -, hbytes⟩ := writeBlocks_ok hwr
    rw [add_zero] at hbytes
    have hcluster : v₁.clusterSize = v.clusterSize := by rw [hsm]
    have hsz : v₁.size = v.size := by rw [hsm]
    have hmul : (left + 1) * uc = left * uc + uc := Nat.succ_mul ..
    -- the clusters of the old units are not those that were written
    have hhol₁ : v₁.Holds data content := by
      refine hhol.congr hsz hcluster fun c hc j hj => ?_
      rw [hbytes, if_neg]
      rcases hap c hc with hc | hc
      · have := Nat.mul_le_mul_right v.clusterSize (show c + 1 ≤ first + state.went from hc)
        rw [add_mul] at this
        omega
      · have := Nat.mul_le_mul_right v.clusterSize (show first + state.went + real ≤ c by omega)
        omega
    obtain ⟨fresh', hru⟩ := rewriteUnits_runs (hcluster ▸ hcs) hre
    have hsplit : fresh = unitRuns (first + state.went) real uc ++ fresh' := by
      have heq := hru.runs
      rw [hfresh, Rewrite.next, append_assoc] at heq
      exact append_cancel_left heq
    rw [hsplit]
    refine Stores.cons (ih hhol₁ (fun j hj => ?_) (fun c hc => ?_) ?_ hre hru.runs) hru
      hrl hln hsqz hwr
    · rw [hcluster, add_assoc, add_comm 1 j]
      exact hlt (j + 1) (by omega)
    · have := hap c hc
      simp only [Rewrite.next]
      omega
    · rw [hcluster]
      exact hpln'

end Loop

/-! ### The write -/

/-- A write that answers, step by step: the claim, the loop, what goes back of the claim, the
record, and what goes back of the old units. -/
structure Writes (record : RecordWriter) (data data' : CompressedData) (offset uc : ℕ)
    (buffer : List UInt8) (v v' : Volume) (first firstUnit units : ℕ) (state : Rewrite)
    (v₁ v₂ v₃ : Volume) : Prop where
  inside : offset + buffer.length ≤ data.dataSize
  clusterSize : 0 < v.clusterSize
  firstUnit_eq : firstUnit = offset / (uc * v.clusterSize)
  units_eq : units = (data.dataSize + uc * v.clusterSize - 1) / (uc * v.clusterSize)
  result : data' = { data with dataRuns := state.runs }
  claim : claimClusters ((units - firstUnit) * uc) v = (.ok first, v₁)
  loop : rewriteUnits data (compressionUnitsHeld data.dataRuns uc) v₁.clusterSize uc offset buffer
    first (units - firstUnit) firstUnit
    ⟨0, 0, keptRuns (firstUnit * uc) data.dataRuns 0, replicate (uc * v.clusterSize) 0⟩ v₁ =
      (.ok state, v₂)
  written : record.write state.runs (units * (uc * v.clusterSize)) state.realBytes
    (v₂.freed [⟨(first + state.went : ℕ), (units - firstUnit) * uc - state.went⟩]) = (.ok (), v₃)
  final : v' = v₃.freed (oldRuns (firstUnit * uc) data.dataRuns 0)

section Write

variable {record : RecordWriter} {data data' : CompressedData} {buffer : List UInt8}
  {offset count : ℕ} {v v' : Volume}

theorem when_freeClusters {c : Bool} {runs : List DataRun} {w : Volume}
    (h : Eff.when c (freeClusters runs) v = (.ok (), w)) (hno : c = false → v.freed runs = v) :
    w = v.freed runs := by
  cases c with
  | false => rw [hno rfl]; exact (congrArg Prod.snd h).symm
  | true => exact (congrArg Prod.snd h).symm

/-- **What a write that answers has done.** -/
theorem writeToACompressedStream_cases
    (h : writeToACompressedStream record data offset buffer v = (.ok (count, data'), v')) :
    ∃ first firstUnit units state v₁ v₂ v₃, Writes record data data' offset
      (2 ^ data.unitExponent) buffer v v' first firstUnit units state v₁ v₂ v₃ := by
  rw [writeToACompressedStream, Eff.bind_run_ok (Eff.get_run v)] at h
  obtain ⟨_, w, hst, h⟩ := Eff.bind_eq_ok.mp h
  obtain ⟨hins, hw⟩ := Eff.failIf_eq_ok.mp hst
  rw [hw] at h
  obtain ⟨_, w, hst, h⟩ := Eff.bind_eq_ok.mp h
  rw [(Eff.failIf_eq_ok.mp hst).2] at h
  obtain ⟨unitBytes, w, hst, h⟩ := Eff.bind_eq_ok.mp h
  obtain ⟨hun, hw⟩ := Eff.ofExcept_eq_ok.mp hst
  rw [hw] at h
  obtain ⟨_, w, hst, h⟩ := Eff.bind_eq_ok.mp h
  obtain ⟨hcluster, hw⟩ := Eff.assert_eq_ok.mp hst
  rw [hw] at h
  obtain ⟨_, w, hst, h⟩ := Eff.bind_eq_ok.mp h
  rw [(Eff.failIf_eq_ok.mp hst).2] at h
  obtain ⟨first, v₁, hclaim, h⟩ := Eff.bind_eq_ok.mp h
  obtain ⟨state, v₂, hloop, h⟩ := Eff.bind_eq_ok.mp h
  obtain ⟨_, w, htl, h⟩ := Eff.bind_eq_ok.mp h
  obtain ⟨_, v₃, hrecord, h⟩ := Eff.bind_eq_ok.mp h
  obtain ⟨_, w', hold, hla⟩ := Eff.bind_eq_ok.mp h
  have hcs : 0 < v.clusterSize := by
    have := of_decide_eq_true hcluster
    omega
  rw [compressionUnitBytes] at hun
  split at hun
  · cases hun
  cases hun
  rw [Nat.mul_div_cancel _ hcs] at hclaim hloop htl hold
  have hw : w = v₂.freed [⟨(first + state.went : ℕ), _⟩] := when_freeClusters htl fun hno => by
    have hzero := Nat.sub_eq_zero_of_le (Nat.le_of_not_lt (of_decide_eq_false hno))
    simp only [hzero]
    rfl
  have hw' : w' = v₃.freed _ := when_freeClusters hold fun hno => by
    simp only [Bool.not_eq_false', List.isEmpty_iff] at hno
    rw [hno]
    rfl
  have hcluster₁ : v₁.clusterSize = v.clusterSize := by rw [(claimClusters_ok hclaim).2.2.2]
  obtain ⟨hres, hfin⟩ := Prod.mk.inj hla
  obtain ⟨-, hattr⟩ := Prod.mk.inj (Outcome.ok.inj hres)
  refine ⟨first, _, _, state, v₁, v₂, v₃, ?_, hcs, rfl, rfl, hattr.symm, hclaim, ?_, ?_, ?_⟩
  · have := of_decide_eq_false hins
    omega
  · rw [hcluster₁]
    exact hloop
  · rw [← hw]
    exact hrecord
  · rw [← hfin]
    exact hw'

/-- **A rewrite frees what the file no longer uses, and only that, exactly if the first unit it
rewrites does not begin inside a run of clusters.** -/
theorem freed_iff_not_cutsRun (hapart : Apart data.dataRuns)
    (hmarked : ∀ c, Names data.dataRuns c → v.marked c = true)
    (h : writeToACompressedStream record data offset buffer v = (.ok (count, data'), v')) :
    ((∀ c, Names data'.dataRuns c → v'.marked c = true) ∧
      ∀ c, Names data.dataRuns c → ¬Names data'.dataRuns c → v'.marked c = false) ↔
    cutsRun (offset / (2 ^ data.unitExponent * v.clusterSize) * 2 ^ data.unitExponent)
      data.dataRuns 0 = false := by
  obtain ⟨first, firstUnit, units, state, v₁, v₂, v₃, w⟩ := writeToACompressedStream_cases h
  obtain ⟨-, hfr, hclaimed, hsm⟩ := claimClusters_ok w.claim
  have hcluster : v₁.clusterSize = v.clusterSize := by rw [hsm]
  obtain ⟨fresh, hfresh⟩ := rewriteUnits_runs (hcluster ▸ w.clusterSize) w.loop
  obtain ⟨-, -, hkp⟩ := record.keeps w.written
  have hbi : ∀ c, v₂.marked c = v₁.marked c := fun c => by rw [hfresh.same]; rfl
  have hru : data'.dataRuns = keptRuns (firstUnit * 2 ^ data.unitExponent) data.dataRuns 0 ++
      fresh := by rw [w.result, hfresh.runs]
  have hnam := hfresh.names
  have hwor := hfresh.le_worst
  simp only [add_zero] at hnam hwor
  rw [← w.firstUnit_eq, hru, w.final]
  -- a cluster the file used was claimed before, and is not one of those the write claimed
  have hnew : ∀ c, Names data.dataRuns c →
      ¬(first ≤ c ∧ c < first + (units - firstUnit) * 2 ^ data.unitExponent) := by
    intro c hc hin
    have := hfr c hin.1 hin.2
    simp [hmarked c hc] at this
  have hhe : ∀ c,
      Names (keptRuns (firstUnit * 2 ^ data.unitExponent) data.dataRuns 0 ++ fresh) c →
      v₃.marked c = true := by
    intro c hc
    refine (hkp c (by rwa [hfresh.runs])).1 (marked_freed.mpr ⟨?_, fun htl => ?_⟩)
    · rw [hbi, hclaimed]
      rcases names_append.mp hc with hkt | hfresh
      · exact Or.inl (hmarked c (names_of_names_keptRuns hkt))
      have := (hnam c).mp hfresh
      exact Or.inr (by omega)
    obtain ⟨-, hge, hlt⟩ := (names_cons.mp htl).resolve_right not_names_nil
    simp only at hge hlt
    rcases names_append.mp hc with hkt | hfresh
    · exact hnew c (names_of_names_keptRuns hkt) (by omega)
    have := (hnam c).mp hfresh
    omega
  constructor
  · rintro ⟨hus, -⟩
    by_contra hcut
    obtain ⟨c, hkt, hold⟩ := exists_names_kept_and_old (not_eq_false _ ▸ hcut)
    exact (marked_freed.mp (hus c (names_append.mpr (Or.inl hkt)))).2 hold
  intro hcut
  refine ⟨fun c hc => marked_freed.mpr ⟨hhe c hc, fun hold => ?_⟩, fun c hc hnot => ?_⟩
  · rcases names_append.mp hc with hkt | hfresh
    · exact not_names_old hapart hcut hkt hold
    have := (hnam c).mp hfresh
    exact hnew c (names_of_names_oldRuns hold) (by omega)
  · have hold := (names_kept_or_old hcut hc).resolve_left fun hkt =>
      hnot (names_append.mpr (Or.inl hkt))
    rw [eq_false_iff]
    exact fun hstill => (marked_freed.mp hstill).2 hold

/-- A file of two units, stored as they are on one run of four clusters. -/
def twoUnits : CompressedData where
  dataRuns := [⟨2, 4⟩]
  dataSize := 64
  unitExponent := 1

/-- A volume of sixteen clusters, of which the file of `twoUnits` is on the third to the sixth. -/
def sixteenClusters : Volume where
  bytes := Bytes.zero
  size := 256
  clusterSize := 16
  volumeClusters := 16
  bitmap := replicate 6 true ++ replicate 10 false

theorem apart_twoUnits : Apart twoUnits.dataRuns := pairwise_singleton ..

theorem marked_twoUnits (c : ℕ) (h : Names twoUnits.dataRuns c) :
    sixteenClusters.marked c = true := by
  obtain ⟨-, hge, hlt⟩ := (names_cons.mp h).resolve_right not_names_nil
  have hlt' : c < 6 := hlt
  interval_cases c <;> rfl

/-- A write to the first unit frees the clusters of both units. -/
theorem freed_iff_not_cutsRun_first :
    cutsRun (0 / (2 ^ 1 * 16) * 2 ^ 1) twoUnits.dataRuns 0 = false ∧
    (∀ c, Names [⟨6, 1⟩, ⟨-1, 1⟩, ⟨7, 1⟩, ⟨-1, 1⟩] c →
      (writeToACompressedStream .inPlace twoUnits 0 [1] sixteenClusters).2.marked c = true) ∧
    ∀ c, Names twoUnits.dataRuns c → ¬Names [⟨6, 1⟩, ⟨-1, 1⟩, ⟨7, 1⟩, ⟨-1, 1⟩] c →
      (writeToACompressedStream .inPlace twoUnits 0 [1] sixteenClusters).2.marked c = false := by
  have hwr : (writeToACompressedStream .inPlace twoUnits 0 [1] sixteenClusters).1 =
      .ok (1, { twoUnits with dataRuns := [⟨6, 1⟩, ⟨-1, 1⟩, ⟨7, 1⟩, ⟨-1, 1⟩] }) := by
    decide +kernel
  exact ⟨by decide, (freed_iff_not_cutsRun apart_twoUnits marked_twoUnits
    (Prod.ext hwr rfl)).mpr (by decide)⟩

/-- A write to the second unit leaves the clusters of the first one free. -/
theorem writeToACompressedStream_frees_kept : Apart twoUnits.dataRuns ∧
    (∀ c, Names twoUnits.dataRuns c → sixteenClusters.marked c = true) ∧
    (writeToACompressedStream .inPlace twoUnits 32 [1] sixteenClusters).1 =
      .ok (1, { twoUnits with dataRuns := [⟨2, 2⟩, ⟨6, 1⟩, ⟨-1, 1⟩] }) ∧
    Names [⟨2, 2⟩, ⟨6, 1⟩, ⟨-1, 1⟩] 2 ∧
    (writeToACompressedStream .inPlace twoUnits 32 [1] sixteenClusters).2.marked 2 = false :=
  ⟨apart_twoUnits, marked_twoUnits, by decide +kernel,
    names_cons.mpr (Or.inl (by decide)), by decide +kernel⟩

end Write

end Volume

end Protofire.Ntfs
