import Protofire.Kernel.Block
import Protofire.Lib.Bytes
import Protofire.Lib.Splice

/-!
# Runs of clusters

The value of a non-resident attribute lies in *runs*: a number of clusters from one on, or a
number of clusters that are not there and read as zeros. A byte of the value is found by walking
the runs (`runByte`), and a read of a range copies it run by run. The clusters that are in use
are the bits of the volume's bitmap: a claim takes the first run of clear bits that is long
enough, and what a file gives back is cleared.

The device is its bytes. The bitmap is a file, and the run list of an attribute is in the
attribute's record; both are kept beside the bytes here, as on a volume where no data cluster
overlaps them. For the bitmap this stands for a file in clusters of its own: the calls on such a
file do to its bits what is done here (`Mount.claimClusters_refines`, `Mount.freeClusters_refines`).
A bitmap that lies in its record is read from a cache that no claim updates, and is not meant.
-/

namespace Protofire.Ntfs

open Splice List Option

/-- A run of clusters, sparse if its number is negative. -/
structure DataRun where
  lcn : ℤ
  clusterCount : ℕ
deriving DecidableEq

/-- A mounted volume. -/
structure Volume where
  bytes : Bytes
  /-- The bytes of the device. -/
  size : ℕ
  clusterSize : ℕ
  volumeClusters : ℕ
  /-- The bits of the cluster bitmap, a file in clusters of its own. -/
  bitmap : List Bool

/-- The virtual clusters of a run list. -/
def spanned (runs : List DataRun) : ℕ := (runs.map DataRun.clusterCount).sum

@[simp] theorem spanned_nil : spanned [] = 0 := rfl

@[simp] theorem spanned_cons (run : DataRun) (runs : List DataRun) :
    spanned (run :: runs) = run.clusterCount + spanned runs := by
  rw [spanned, map_cons, sum_cons, spanned]

theorem spanned_append (xs ys : List DataRun) : spanned (xs ++ ys) = spanned xs + spanned ys := by
  rw [spanned, map_append, sum_append, spanned, spanned]

/-- A run list names a cluster. -/
def Names (runs : List DataRun) (cluster : ℕ) : Prop :=
  ∃ run ∈ runs, 0 ≤ run.lcn ∧ run.lcn.toNat ≤ cluster ∧
    cluster < run.lcn.toNat + run.clusterCount

variable {c : ℕ}

theorem names_append {xs ys : List DataRun} : Names (xs ++ ys) c ↔ Names xs c ∨ Names ys c := by
  simp only [Names, mem_append, or_and_right, exists_or]

theorem names_cons {run : DataRun} {runs : List DataRun} : Names (run :: runs) c ↔
    (0 ≤ run.lcn ∧ run.lcn.toNat ≤ c ∧ c < run.lcn.toNat + run.clusterCount) ∨ Names runs c := by
  simp only [Names, mem_cons, or_and_right, exists_or, exists_eq_left]

@[simp] theorem not_names_nil : ¬Names [] c := by simp [Names]

namespace Volume

/-! ### The device -/

section

variable (v : Volume)

/-- `read_device_bytes`: refused past the device's end. -/
def readDeviceBytes (off len : ℕ) : Except Error (List UInt8) :=
  if len = 0 ∨ off + len ≤ v.size then .ok (v.bytes.readAt off len) else .error .deviceError

/-- `write_device_bytes`: refused past the device's end. -/
def writeDeviceBytes (off : ℕ) (data : List UInt8) : Eff Error Volume Unit := fun v =>
  if data = [] ∨ off + data.length ≤ v.size then
    (.ok (), { v with bytes := v.bytes.writeAt off data })
  else (.err .deviceError, v)

/-! ### Reading by runs -/

/-- Read a range run by run, from the offset where the first of the runs starts. -/
def readRuns (v : Volume) (offset stop : ℕ) : List DataRun → ℕ → ℕ → List UInt8 →
    Except Error (ℕ × List UInt8)
  | [], _, total, buf => .ok (total, buf)
  | run :: runs, start, total, buf =>
    let runEnd := start + run.clusterCount * v.clusterSize
    if stop ≤ start then .ok (total, buf)
    else if runEnd ≤ offset then v.readRuns offset stop runs runEnd total buf
    else
      let segStart := max offset start
      let segLen := min stop runEnd - segStart
      let dest := segStart - offset
      if run.lcn < 0 then
        v.readRuns offset stop runs runEnd (total + segLen)
          (splice buf dest (replicate segLen 0))
      else
        match v.readDeviceBytes (run.lcn.toNat * v.clusterSize + (segStart - start)) segLen with
        | .error e => .error e
        | .ok data => v.readRuns offset stop runs runEnd (total + segLen) (splice buf dest data)

/-- Read a range of a value into a buffer: how many bytes were read, and the buffer. -/
def readFromRuns (runs : List DataRun) (fileSize offset : ℕ) (buf : List UInt8) :
    Except Error (ℕ × List UInt8) :=
  if fileSize ≤ offset ∨ buf = [] then .ok (0, buf)
  else v.readRuns offset (min (offset + buf.length) fileSize) runs 0 0 buf

/-- The byte of a value at an offset. -/
def runByte (v : Volume) : List DataRun → ℕ → UInt8
  | [], _ => 0
  | run :: runs, k =>
    if k < run.clusterCount * v.clusterSize then
      if run.lcn < 0 then 0 else v.bytes (run.lcn.toNat * v.clusterSize + k)
    else v.runByte runs (k - run.clusterCount * v.clusterSize)

variable (runs : List DataRun)

/-- The bytes of a value from an offset on. -/
def runBytes (off n : ℕ) : List UInt8 :=
  (range n).map fun i => v.runByte runs (off + i)

/-! ### The bitmap -/

/-- The bitmap has the cluster in use. -/
def marked (cluster : ℕ) : Bool := v.bitmap.getD cluster false

variable (bitmap : List Bool)

/-- The first run of clear bits of a length, from a cluster on. The answer `none` is an index
outside the bitmap. -/
def findClear (bitmap : List Bool) (count : ℕ) : ℕ → (cluster runStart run : ℕ) →
    Option (Except Error ℕ)
  | 0, _, _, _ => some (.error .noSpace)
  | left + 1, cluster, runStart, run =>
    match bitmap[cluster]? with
    | none => none
    | some true => findClear bitmap count left (cluster + 1) runStart 0
    | some false =>
      let runStart := if run = 0 then cluster else runStart
      if run + 1 = count then some (.ok runStart)
      else findClear bitmap count left (cluster + 1) runStart (run + 1)

/-- The bitmap with the bits of a range set to a value. -/
def setBits (first count : ℕ) (value : Bool) : List Bool :=
  (range' first count).foldl (fun bits cluster => bits.set cluster value) bitmap

/-- Take clusters from the free space. -/
def claimClusters (count : ℕ) : Eff Error Volume ℕ := fun v =>
  match findClear v.bitmap count v.volumeClusters 0 0 0 with
  | none => (.halt, v)
  | some (.error e) => (.err e, v)
  | some (.ok first) => (.ok first, { v with bitmap := setBits v.bitmap first count true })

/-- The bitmap with the clusters of runs given back. -/
def clearRuns (runs : List DataRun) : List Bool :=
  runs.foldl (fun bits run =>
    if run.lcn < 0 then bits else setBits bits run.lcn.toNat run.clusterCount false) bitmap

/-- The volume with the clusters of runs given back. -/
def freed : Volume :=
  { v with bitmap := clearRuns v.bitmap runs }

end

/-- Give clusters back to the free space. -/
def freeClusters (runs : List DataRun) : Eff Error Volume Unit := Eff.modify (freed · runs)

/-! ### What a read finds -/

section Reading

variable {v : Volume} {runs xs ys : List DataRun} {buf : List UInt8} {offset stop start total k : ℕ}

/-- The clusters that runs name are on the device. -/
def OnDevice (v : Volume) (runs : List DataRun) : Prop :=
  ∀ c, Names runs c → (c + 1) * v.clusterSize ≤ v.size

theorem runByte_append_left (h : k < spanned xs * v.clusterSize) :
    v.runByte (xs ++ ys) k = v.runByte xs k := by
  induction xs generalizing k with
  | nil => simp at h
  | cons run xs ih =>
    rw [spanned_cons, Nat.add_mul] at h
    simp only [cons_append, runByte]
    split
    · rfl
    · exact ih (by omega)

theorem runByte_append_right (h : spanned xs * v.clusterSize ≤ k) :
    v.runByte (xs ++ ys) k = v.runByte ys (k - spanned xs * v.clusterSize) := by
  induction xs generalizing k with
  | nil => simp
  | cons run xs ih =>
    rw [spanned_cons, Nat.add_mul] at h ⊢
    simp only [cons_append, runByte]
    rw [if_neg (by omega), ih (by omega), Nat.sub_sub]

/-- A value is read from the clusters its runs name. -/
theorem runByte_congr {w : Volume} (hcluster : w.clusterSize = v.clusterSize)
    (h : ∀ c, Names runs c → ∀ j < v.clusterSize,
      w.bytes (c * v.clusterSize + j) = v.bytes (c * v.clusterSize + j)) (k : ℕ) :
    w.runByte runs k = v.runByte runs k := by
  induction runs generalizing k with
  | nil => rfl
  | cons run runs ih =>
    rw [runByte, runByte, hcluster, ih fun c hc => h c (names_cons.mpr (Or.inr hc))]
    split
    · rename_i hlt
      split
      · rfl
      have hpos : 0 < v.clusterSize := Nat.pos_of_ne_zero fun hzero => by simp [hzero] at hlt
      have hdiv : k / v.clusterSize < run.clusterCount :=
        Nat.div_lt_of_lt_mul (by rwa [Nat.mul_comm])
      have hk : run.lcn.toNat * v.clusterSize + k =
          (run.lcn.toNat + k / v.clusterSize) * v.clusterSize + k % v.clusterSize := by
        rw [Nat.add_mul, Nat.add_assoc, Nat.mul_comm (k / v.clusterSize), Nat.div_add_mod]
      rw [hk]
      exact h _ (names_cons.mpr (Or.inl ⟨by omega, Nat.le_add_right _ _,
        Nat.add_lt_add_left hdiv _⟩)) _ (Nat.mod_lt _ hpos)
    · rfl

theorem length_runBytes (n : ℕ) : (v.runBytes runs offset n).length = n := by
  rw [runBytes, length_map, length_range]

variable {n : ℕ}

theorem getElem?_runBytes {i : ℕ} : (v.runBytes runs offset n)[i]? =
    if i < n then some (v.runByte runs (offset + i)) else none := by
  rw [runBytes, getElem?_map]
  by_cases h : i < n
  · rw [getElem?_range h, if_pos h, map_some]
  · rw [getElem?_eq_none (by simpa using h), if_neg h, map_none]

theorem runBytes_congr {w : Volume} {runs' : List DataRun}
    (h : ∀ k, offset ≤ k → k < offset + n → v.runByte runs k = w.runByte runs' k) :
    v.runBytes runs offset n = w.runBytes runs' offset n :=
  map_congr_left fun i hi => h _ (by omega) (by have := mem_range.mp hi; omega)

/-- A segment of a run is on the device with the run. -/
theorem OnDevice.segment {run : DataRun} (h : v.OnDevice (run :: runs)) (hrl : 0 ≤ run.lcn)
    {from' : ℕ} (hle : from' + n ≤ run.clusterCount * v.clusterSize) :
    v.readDeviceBytes (run.lcn.toNat * v.clusterSize + from') n =
      .ok (v.bytes.readAt (run.lcn.toNat * v.clusterSize + from') n) := by
  refine if_pos ?_
  by_cases hn : n = 0
  · exact Or.inl hn
  have hpos : 0 < run.clusterCount := by
    by_contra hzero
    rw [show run.clusterCount = 0 by omega] at hle
    omega
  have hla := h (run.lcn.toNat + run.clusterCount - 1)
    (names_cons.mpr (Or.inl ⟨hrl, by omega, by omega⟩))
  rw [show run.lcn.toNat + run.clusterCount - 1 + 1 = run.lcn.toNat + run.clusterCount by omega,
    Nat.add_mul] at hla
  omega

/-- The bytes of one run that a read copies are those of the value. -/
theorem splice_segment (byte : ℕ → UInt8) {data : List UInt8} {count : ℕ}
    (hlen : stop ≤ offset + buf.length) (hstart : start < stop) (hend : offset < start + count)
    (hln : data.length = min stop (start + count) - max offset start)
    (hdt : ∀ i < data.length, data[i]? = some (byte (max offset start - start + i))) (i : ℕ) :
    (splice buf (max offset start - offset) data).length = buf.length ∧
    (splice buf (max offset start - offset) data)[i]? =
      if start ≤ offset + i ∧ offset + i < stop ∧ offset + i < start + count then
        some (byte (offset + i - start)) else buf[i]? := by
  have hft : max offset start - offset + data.length ≤ buf.length := by omega
  refine ⟨length_splice hft, ?_⟩
  rw [getElem?_splice hft]
  by_cases hin : start ≤ offset + i ∧ offset + i < stop ∧ offset + i < start + count
  · rw [if_pos hin, if_pos (by omega), hdt _ (by omega)]
    congr 2
    omega
  · split
    · omega
    · rfl

/-- **What a read by runs leaves in the buffer.** -/
theorem readRuns_ok (start total : ℕ) (hdev : v.OnDevice runs) (hle : offset ≤ stop)
    (hlen : stop ≤ offset + buf.length) : ∃ total' out,
      v.readRuns offset stop runs start total buf = .ok (total', out) ∧
      out.length = buf.length ∧ ∀ i, out[i]? = if start ≤ offset + i ∧ offset + i < stop ∧
            offset + i < start + spanned runs * v.clusterSize then
          some (v.runByte runs (offset + i - start)) else buf[i]? := by
  induction runs generalizing start total buf with
  | nil =>
    refine ⟨total, buf, rfl, rfl, fun i => ?_⟩
    rw [if_neg (by simp; omega)]
  | cons run runs ih =>
    have hre : v.OnDevice runs := fun c hc => hdev c (names_cons.mpr (Or.inr hc))
    rw [readRuns, spanned_cons, Nat.add_mul]
    generalize hcnt : run.clusterCount * v.clusterSize = count
    -- what the rest of the runs leave in a buffer that has this run's part already
    have hgo : ∀ total₁ buf₁, buf₁.length = buf.length → (∀ i, buf₁[i]? =
        if start ≤ offset + i ∧ offset + i < stop ∧ offset + i < start + count then
          some (v.runByte (run :: runs) (offset + i - start)) else buf[i]?) → ∃ total' out,
        v.readRuns offset stop runs (start + count) total₁ buf₁ = .ok (total', out) ∧
        out.length = buf.length ∧ ∀ i, out[i]? =
          if start ≤ offset + i ∧ offset + i < stop ∧
              offset + i < start + (count + spanned runs * v.clusterSize) then
            some (v.runByte (run :: runs) (offset + i - start)) else buf[i]? := by
      intro total₁ buf₁ hln hbuf
      obtain ⟨total', out, hrd, hout, hget⟩ := ih (start + count) total₁
        hre (by omega : stop ≤ offset + buf₁.length)
      refine ⟨total', out, hrd, hout.trans hln, fun i => ?_⟩
      rw [hget, hbuf]
      by_cases hrun : offset + i < start + count
      · rw [if_neg (by omega)]
        refine if_congr ?_ rfl rfl
        omega
      have hby : v.runByte (run :: runs) (offset + i - start) =
          v.runByte runs (offset + i - (start + count)) := by
        rw [runByte, hcnt, if_neg (by omega), Nat.sub_sub]
      rw [hby, if_neg (show ¬(start ≤ offset + i ∧ offset + i < stop ∧
        offset + i < start + count) by omega)]
      refine if_congr ?_ rfl rfl
      omega
    simp only
    split
    · refine ⟨total, buf, rfl, rfl, fun i => ?_⟩
      rw [if_neg (by omega)]
    split
    · refine hgo total buf rfl fun i => ?_
      rw [if_neg (by omega)]
    split
    · rename_i hstart hend hspar
      have hseg := splice_segment (v.runByte (run :: runs)) hlen (by omega)
        (by omega : offset < start + count) length_replicate fun i hi => by
          rw [length_replicate] at hi
          rw [getElem?_replicate_of_lt hi, runByte, if_pos (by omega), if_pos hspar]
      exact hgo _ _ (hseg 0).1 fun i => (hseg i).2
    rename_i hstart hend hrl
    rw [hdev.segment (by omega) (by omega)]
    have hln : (v.bytes.readAt (run.lcn.toNat * v.clusterSize + (max offset start - start))
        (min stop (start + count) - max offset start)).length =
          min stop (start + count) - max offset start := by simp [Bytes.readAt]
    have hseg := splice_segment (v.runByte (run :: runs)) hlen (by omega)
      (by omega) hln fun i hi => by
        rw [hln] at hi
        rw [Bytes.readAt, getElem?_map, getElem?_range hi, map_some, runByte,
          if_pos (by omega), if_neg hrl, Nat.add_assoc]
    exact hgo _ _ (hseg 0).1 fun i => (hseg i).2

/-- **A read inside the value is the value's bytes.** -/
theorem readFromRuns_ok {fileSize : ℕ} (hdev : v.OnDevice runs)
    (hin : offset + buf.length ≤ fileSize) (hle : fileSize ≤ spanned runs * v.clusterSize) :
    ∃ total, v.readFromRuns runs fileSize offset buf =
      .ok (total, v.runBytes runs offset buf.length) := by
  rw [readFromRuns]
  split
  · rename_i hemp
    have hnil : buf = [] := by
      rcases hemp with h | h
      · exact eq_nil_of_length_eq_zero (by omega)
      · exact h
    exact ⟨0, by rw [hnil]; rfl⟩
  obtain ⟨total, out, hrd, hln, hget⟩ := readRuns_ok 0 0 hdev
    (show offset ≤ min (offset + buf.length) fileSize by omega)
    (show min (offset + buf.length) fileSize ≤ offset + buf.length by omega)
  refine ⟨total, ?_⟩
  rw [hrd]
  congr 2
  refine ext_getElem? fun i => ?_
  rw [hget, getElem?_runBytes]
  by_cases hi : i < buf.length
  · rw [if_pos (by omega), if_pos hi, Nat.sub_zero]
  · rw [if_neg (by omega), if_neg hi, getElem?_eq_none (by omega)]

end Reading

/-! ### What the bitmap says -/

section Bits

variable {bits : List Bool} {count first c : ℕ} {left cluster runStart run : ℕ}

/-- **A claim finds clear bits** in what it searches, as many as were asked for, and at least
one. -/
theorem findClear_ok (h : findClear bits count left cluster runStart run = some (.ok first))
    (hrun : run ≠ 0 → runStart + run = cluster)
    (hclear : run ≠ 0 → ∀ c, runStart ≤ c → c < cluster → bits[c]? = some false) :
    0 < count ∧ first + count ≤ cluster + left ∧
      ∀ c, first ≤ c → c < first + count → bits[c]? = some false := by
  fun_induction findClear bits count left cluster runStart run with
  | case1 => cases h
  | case2 => cases h
  | case3 left cluster runStart run hbit ih =>
    have hre := ih h (fun h => absurd rfl h) fun h => absurd rfl h
    rwa [Nat.add_right_comm] at hre
  | case4 left cluster runStart run hbit start hfu =>
    obtain rfl : start = first := Except.ok.inj (Option.some.inj h)
    by_cases hzero : run = 0
    · have hstart : start = cluster := if_pos hzero
      refine ⟨by omega, by omega, fun c hc hlt => ?_⟩
      rw [show c = cluster by omega, hbit]
    have hstart : start = runStart := if_neg hzero
    have hend := hrun hzero
    refine ⟨by omega, by omega, fun c hc hlt => ?_⟩
    by_cases heq : c = cluster
    · rw [heq, hbit]
    · exact hclear hzero c (by omega) (by omega)
  | case5 left cluster runStart run hbit start hfu ih =>
    have hre := ih h (fun _ => ?_) fun _ c hc hlt => ?_
    · rwa [Nat.add_right_comm] at hre
    · by_cases hzero : run = 0
      · rw [show start = cluster from if_pos hzero, hzero]
      · rw [show start = runStart from if_neg hzero, ← Nat.add_assoc, hrun hzero]
    by_cases heq : c = cluster
    · rw [heq, hbit]
    by_cases hzero : run = 0
    · rw [show start = cluster from if_pos hzero] at hc
      omega
    · rw [show start = runStart from if_neg hzero] at hc
      exact hclear hzero c hc (by omega)

/-- A search inside the bitmap answers, and it has one error. -/
theorem findClear_answers (h : cluster + left ≤ bits.length) :
    findClear bits count left cluster runStart run = some (.error .noSpace) ∨
      ∃ first, findClear bits count left cluster runStart run = some (.ok first) := by
  fun_induction findClear bits count left cluster runStart run with
  | case1 => exact Or.inl rfl
  | case2 left cluster runStart run hbit =>
    rw [getElem?_eq_none_iff] at hbit
    omega
  | case3 left cluster runStart run hbit ih | case5 left cluster runStart run hbit start hfu ih =>
    exact ih (by omega)
  | case4 => exact Or.inr ⟨_, rfl⟩

/-- **A claim that finds nothing has nothing to find.** The clear bits before a cluster are
`run` in number, with a bit in use before them, and no range of the length lies before it. -/
theorem findClear_error {e : Error}
    (h : findClear bits count left cluster runStart run = some (.error e)) (hlt : run < count)
    (hblk : run < cluster → bits[cluster - run - 1]? = some true)
    (hmiss : ∀ f, f + count ≤ cluster → ∃ c, f ≤ c ∧ c < f + count ∧ bits[c]? = some true) (f : ℕ)
    (hf : f + count ≤ cluster + left) : ∃ c, f ≤ c ∧ c < f + count ∧ bits[c]? = some true := by
  fun_induction findClear bits count left cluster runStart run with
  | case1 => exact hmiss f hf
  | case2 => cases h
  | case3 left cluster runStart run hbit ih =>
    refine ih h (by omega) (fun _ => hbit) (fun f hf => ?_) (by omega)
    by_cases hla : f + count = cluster + 1
    · exact ⟨cluster, by omega, by omega, hbit⟩
    · exact hmiss f (by omega)
  | case4 => cases Option.some.inj h
  | case5 left cluster runStart run hbit start hfu ih =>
    refine ih h (by omega) (fun hpos => ?_) (fun f hf => ?_) (by omega)
    · rw [show cluster + 1 - (run + 1) - 1 = cluster - run - 1 by omega]
      exact hblk (by omega)
    by_cases hla : f + count = cluster + 1
    · exact ⟨cluster - run - 1, by omega, by omega, hblk (by omega)⟩
    · exact hmiss f (by omega)

theorem getElem?_setBits {value : Bool} : (setBits bits first count value)[c]? =
    if first ≤ c ∧ c < first + count then bits[c]?.map fun _ => value else bits[c]? := by
  induction count generalizing bits first with
  | zero => rw [if_neg (by omega)]; rfl
  | succ n ih =>
    have hst : setBits bits first (n + 1) value = setBits (bits.set first value) (first + 1) n
        value := by rw [setBits, range'_succ, foldl_cons, setBits]
    rw [hst, ih, getElem?_set]
    by_cases heq : first = c
    · subst heq
      rw [if_neg (by omega), if_pos rfl,
        if_pos (show first ≤ first ∧ first < first + (n + 1) by omega)]
      by_cases hlt : first < bits.length
      · rw [if_pos hlt, getElem?_eq_getElem hlt, map_some]
      · rw [if_neg hlt, getElem?_eq_none (by omega), map_none]
    · rw [if_neg heq]
      refine if_congr ?_ rfl rfl
      omega

/-- **What is given back is clear, and nothing else changes.** -/
theorem getD_clearRuns {runs : List DataRun} : (clearRuns bits runs).getD c false = true ↔
    bits.getD c false = true ∧ ¬Names runs c := by
  induction runs generalizing bits with
  | nil => simp [clearRuns]
  | cons run runs ih =>
    rw [show clearRuns bits (run :: runs) = clearRuns (if run.lcn < 0 then bits else
      setBits bits run.lcn.toNat run.clusterCount false) runs from rfl, ih, names_cons, not_or,
      ← and_assoc]
    refine and_congr_left' ?_
    split
    · exact (and_iff_left (by omega)).symm
    rw [getD_eq_getElem?_getD, getElem?_setBits, getD_eq_getElem?_getD]
    split
    · cases bits[c]? <;> simp
      omega
    · refine (and_iff_left ?_).symm
      omega

theorem marked_freed {v : Volume} {runs : List DataRun} :
    (v.freed runs).marked c = true ↔ v.marked c = true ∧ ¬Names runs c := getD_clearRuns

/-- **A claim takes clusters that were free.** -/
theorem claimClusters_ok {v v' : Volume} (h : claimClusters count v = (.ok first, v')) :
    0 < count ∧ (∀ c, first ≤ c → c < first + count → v.marked c = false) ∧
      (∀ c, v'.marked c = true ↔ v.marked c = true ∨ first ≤ c ∧ c < first + count) ∧
      v' = { v with bitmap := v'.bitmap } := by
  rw [claimClusters] at h
  split at h
  · cases h
  · cases h
  rename_i first' hfd
  cases h
  obtain ⟨hpos, -, hclear⟩ := findClear_ok hfd (fun h => absurd rfl h) fun h => absurd rfl h
  refine ⟨hpos, fun c hc hlt => ?_, fun c => ?_, rfl⟩
  · rw [marked, getD_eq_getElem?_getD, hclear c hc hlt, getD_some]
  simp only [marked, getD_eq_getElem?_getD, getElem?_setBits]
  by_cases hin : first ≤ c ∧ c < first + count
  · simp [hin, hclear c hin.1 hin.2]
  · simp [hin]

end Bits

end Volume

end Protofire.Ntfs
