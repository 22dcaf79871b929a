import Protofire.Ntfs.Rewrite

/-!
# Reading a compressed stream after a write

The writer compares the length of an encoding with the bytes of a unit, the reader counts the
clusters the unit is on. The two disagree about an encoding that is shorter than the unit but
needs all its clusters: it is written as chunks and read as it is. Whatever the lengths are, the
new stream holds `storedContent`, where the bytes of such a unit are those of its encoding, and
so a read after a write finds the written content exactly if no unit is of that kind – or if its
encoding is, of all things, the unit itself.
-/

namespace Protofire.Ntfs

open Splice Fallible List Lznt1 Option

/-- The last chunk of a unit is a whole one, or was squeezed. -/
def Tight (plain : List UInt8) : Prop :=
  plain.length % unitSize = 0 ∨ ∀ chunk,
    compressUnit (plain.drop (plain.length / unitSize * unitSize)) = .ok chunk →
      chunk.length < unitSize + 2

section

variable (clusterSize unitClusters : ℕ) (plain : List UInt8)

/-- A unit is stored as it is, or its chunks decode to its bytes and no more. -/
def Unpadded : Prop :=
  ∀ stored, encodeUnit plain.length plain = .ok stored →
    stored.length < unitClusters * clusterSize → Tight plain

/-- What the reader finds of a unit: its bytes, or the encoding if that is on all the clusters of
the unit. -/
def readBack : List UInt8 :=
  match encodeUnit plain.length plain with
  | .error _ => plain
  | .ok stored =>
    if (unitClusters - 1) * clusterSize < stored.length ∧
        stored.length < unitClusters * clusterSize then
      (stored ++ replicate plain.length 0).take plain.length
    else plain

/-- What the reader finds of a content that was written from a unit on. -/
def storedContent (clusterSize unitClusters firstUnit : ℕ) (new : List UInt8) : List UInt8 :=
  (range new.length).map fun k =>
    if k < firstUnit * (unitClusters * clusterSize) then new.getD k 0
    else (readBack clusterSize unitClusters (slice new
      (k / (unitClusters * clusterSize) * (unitClusters * clusterSize))
      (unitClusters * clusterSize))).getD (k % (unitClusters * clusterSize)) 0

/-- A unit that the reader takes for what the writer made of it: it is stored as it is, or its
encoding leaves a cluster of the unit. A unit that is its own encoding reads as it is too. -/
def Recognised : Prop :=
  ∀ stored, encodeUnit plain.length plain = .ok stored →
    unitClusters * clusterSize ≤ stored.length ∨
    stored.length ≤ (unitClusters - 1) * clusterSize ∨
    (stored ++ replicate plain.length 0).take plain.length = plain

end

section ReadBack

variable {cs uc firstUnit unit k : ℕ} {plain new : List UInt8}

theorem length_readBack : (readBack cs uc plain).length = plain.length := by
  rw [readBack]
  split
  · rfl
  split
  · rw [length_take, length_append, length_replicate]
    omega
  · rfl

theorem readBack_eq_iff : readBack cs uc plain = plain ↔ Recognised cs uc plain := by
  rw [readBack, Recognised]
  split
  · rename_i e herr
    simp [herr]
  rename_i stored hok
  simp only [hok, Except.ok.injEq, forall_eq']
  split
  · exact ⟨fun h => Or.inr (Or.inr h), fun h => h.resolve_left (by omega) |>.resolve_left
      (by omega)⟩
  · exact ⟨fun _ => by omega, fun _ => rfl⟩

theorem length_storedContent : (storedContent cs uc firstUnit new).length = new.length := by
  rw [storedContent, length_map, length_range]

theorem getElem?_storedContent (hub : 0 < uc * cs) (h : k < new.length) :
    (storedContent cs uc firstUnit new)[k]? = if k < firstUnit * (uc * cs) then new[k]?
    else (readBack cs uc (slice new (k / (uc * cs) * (uc * cs)) (uc * cs)))[k % (uc * cs)]? := by
  have hso : ∀ {l : List UInt8} {i : ℕ}, i < l.length → some (l.getD i 0) = l[i]? := by
    intro l i hi
    rw [getD_eq_getElem?_getD, getElem?_eq_getElem hi, getD_some]
  have hdiv := Nat.div_add_mod k (uc * cs)
  have hmod := Nat.mod_lt k hub
  rw [mul_comm] at hdiv
  rw [storedContent, getElem?_map, getElem?_range h, map_some]
  split
  · exact hso h
  refine hso ?_
  rw [length_readBack, slice, length_take, length_drop]
  omega

/-- The bytes the reader finds of a unit that was written. -/
theorem getElem?_storedContent_unit (hub : 0 < uc * cs) (hun : firstUnit ≤ unit)
    (hk : k < uc * cs) (hlt : unit * (uc * cs) + k < new.length) :
    (storedContent cs uc firstUnit new)[unit * (uc * cs) + k]? =
      (readBack cs uc (slice new (unit * (uc * cs)) (uc * cs)))[k]? := by
  have hmono := Nat.mul_le_mul_right (uc * cs) hun
  have hdiv : (unit * (uc * cs) + k) / (uc * cs) = unit := by
    rw [add_comm, Nat.add_mul_div_right _ _ hub, Nat.div_eq_of_lt hk, zero_add]
  have hmod : (unit * (uc * cs) + k) % (uc * cs) = k := by
    rw [add_comm, Nat.add_mul_mod_self_right, Nat.mod_eq_of_lt hk]
  rw [getElem?_storedContent hub hlt, if_neg (by omega), hdiv, hmod]

/-- **The reader finds the content exactly if it recognises every unit.** -/
theorem storedContent_eq_iff (hub : 0 < uc * cs) : storedContent cs uc firstUnit new = new ↔
    ∀ unit, firstUnit ≤ unit → unit * (uc * cs) < new.length →
      Recognised cs uc (slice new (unit * (uc * cs)) (uc * cs)) := by
  constructor
  · intro h unit hun hlt
    rw [← readBack_eq_iff]
    refine ext_getElem? fun k => ?_
    rw [getElem?_slice]
    by_cases hk : k < uc * cs ∧ unit * (uc * cs) + k < new.length
    · rw [if_pos hk.1, ← getElem?_storedContent_unit hub hun hk.1 hk.2, h]
    rw [getElem?_eq_none (by
      rw [length_readBack, slice, length_take, length_drop]
      omega)]
    split
    · rw [getElem?_eq_none (by omega)]
    · rfl
  intro h
  refine ext_getElem? fun k => ?_
  by_cases hk : k < new.length
  · rw [getElem?_storedContent hub hk]
    split
    · rfl
    have hdiv := Nat.div_add_mod k (uc * cs)
    have hmod := Nat.mod_lt k hub
    rw [mul_comm] at hdiv
    rw [readBack_eq_iff.mpr (h (k / (uc * cs))
      ((Nat.le_div_iff_mul_le hub).mpr (by omega)) (by omega)), getElem?_slice, if_pos hmod,
      hdiv]
  · rw [getElem?_eq_none (by rw [length_storedContent]; omega), getElem?_eq_none (by omega)]

end ReadBack

/-- On a volume whose clusters are a power of two of bytes, no unit but the last one of a file
has zeros after its bytes. -/
theorem unpadded_of_two_pow {e k : ℕ} {plain : List UInt8} (h : plain.length = 2 ^ e * 2 ^ k) :
    Unpadded (2 ^ k) (2 ^ e) plain := by
  intro stored henc hlt
  have hpos : 0 < plain.length := by
    rw [h]
    exact mul_pos (Nat.two_pow_pos e) (Nat.two_pow_pos k)
  rw [← pow_add] at h hlt
  by_cases hlar : 12 ≤ e + k
  · left
    rw [h]
    exact Nat.mod_eq_zero_of_dvd (Nat.pow_dvd_pow 2 hlar)
  -- the unit is one chunk, which is too long for the unit if it is not squeezed
  right
  have hsml : 2 ^ (e + k) < unitSize :=
    Nat.pow_lt_pow_right (by decide) (show e + k < 12 by omega)
  intro chunk hchk
  rw [Nat.div_eq_of_lt (by omega), zero_mul, drop_zero] at hchk
  obtain ⟨rounds, hrn⟩ : ∃ n, plain.length = n + 1 := ⟨plain.length - 1, by omega⟩
  rw [hrn, encodeUnit, if_neg (length_pos_iff.mp hpos),
    take_of_length_le (by omega), hchk] at henc
  obtain ⟨_, hfirst, henc⟩ := bind_eq_ok.mp henc
  obtain ⟨rest, -, henc⟩ := bind_eq_ok.mp henc
  cases hfirst
  rw [← Except.ok.inj henc, length_append] at hlt
  omega

namespace Volume

section Encoded

variable {w : Volume} {runs : List DataRun} {place limit : ℕ} {bytes stored : List UInt8}

theorem Tight.drop (h : Tight bytes) : Tight (bytes.drop unitSize) := by
  have hun : 0 < unitSize := by decide
  rw [Tight, length_drop, drop_drop]
  by_cases hlong : unitSize ≤ bytes.length
  · have hdiv : unitSize + (bytes.length - unitSize) / unitSize * unitSize =
        bytes.length / unitSize * unitSize := by
      obtain ⟨n, hn⟩ : ∃ n, bytes.length = n + unitSize :=
        ⟨bytes.length - unitSize, by omega⟩
      rw [hn, Nat.add_sub_cancel, Nat.add_div_right n hun, Nat.succ_mul, add_comm]
    rw [hdiv, ← Nat.mod_eq_sub_mod hlong]
    exact h
  · exact Or.inl (by rw [Nat.sub_eq_zero_of_le (by omega), Nat.zero_mod])

/-- The bytes of a chunk, where the stream has them. -/
theorem chunk_of_bytes {low high : UInt8} {payload rest out : List UInt8}
    (hdec : Decodes low high payload out) (hby : ∀ i < (low :: high :: payload ++ rest).length,
      w.runByte runs (place + i) = (low :: high :: payload ++ rest).getD i 0) :
    w.Chunk runs place (place + 2 + payload.length) out := by
  have hln : (low :: high :: payload ++ rest).length = 2 + payload.length + rest.length := by
    simp only [length_cons, length_append]
    omega
  refine ⟨low, high, payload, rfl, ?_, ext_getElem? fun i => ?_, hdec⟩
  · have h₀ := hby 0 (by omega)
    have h₁ := hby 1 (by omega)
    simp only [runBytes, range_succ, map_append, map_cons, h₀, h₁]
    rfl
  rw [getElem?_runBytes]
  by_cases hi : i < payload.length
  · rw [add_assoc, hby _ (by omega), add_comm 2 i]
    simp [getElem?_append_left, hi]
  · rw [if_neg hi, getElem?_eq_none (by omega)]

/-- **An encoding in the stream decodes to what was encoded.** -/
theorem chain_of_encodeUnit {last : Prop} {rounds : ℕ}
    (h : encodeUnit rounds bytes = .ok stored) (hrn : bytes.length ≤ rounds)
    (hby : ∀ i < stored.length, w.runByte runs (place + i) = stored.getD i 0)
    (hlmt : place + stored.length ≤ limit) (hti : last ∨ Tight bytes) :
    w.Chain runs limit last place bytes := by
  induction rounds generalizing bytes stored place with
  | zero =>
    rw [eq_nil_of_length_eq_zero (Nat.le_zero.mp hrn)]
    exact .nil place
  | succ rounds ih =>
    rw [encodeUnit] at h
    split at h
    · rename_i hnil
      rw [hnil]
      exact .nil place
    rename_i hne
    have hpos := length_pos_iff.mpr hne
    have hun : 0 < unitSize := by decide
    have htake : bytes.take unitSize ≠ [] := by
      rw [← length_pos_iff, length_take]
      omega
    obtain ⟨low, high, payload, hchk, hcas⟩ :=
      compressUnit_spec htake (length_take_le ..)
    obtain ⟨chunk, hcom, h⟩ := bind_eq_ok.mp h
    obtain ⟨rest, hre, h⟩ := bind_eq_ok.mp h
    obtain rfl : low :: high :: payload = chunk := Except.ok.inj (hchk.symm.trans hcom)
    obtain rfl : low :: high :: payload ++ rest = stored := Except.ok.inj h
    have hln : (low :: high :: payload ++ rest).length =
        2 + payload.length + rest.length := by
      simp only [length_cons, length_append]
      omega
    -- the chunks after the first, which decode to the rest of the bytes
    have htl : w.Chain runs limit last (place + 2 + payload.length)
        (bytes.drop unitSize) := by
      refine ih hre (by rw [length_drop]; omega) (fun i hi => ?_) (by omega)
        (hti.imp id Tight.drop)
      have := hby (2 + payload.length + i) (by omega)
      rw [add_assoc place, add_assoc, this, getD_eq_getElem?_getD,
        getElem?_append_right (by simp; omega)]
      congr 2
      simp
      omega
    have hexa : Decodes low high payload (bytes.take unitSize) →
        w.Chain runs limit last place bytes := by
      intro hdec
      rw [← take_append_drop unitSize bytes]
      exact .cons (chunk_of_bytes hdec hby) htake (by omega) htl
    rcases hcas with ⟨-, hdec⟩ | ⟨-, hpay, hdec⟩
    · exact hexa hdec
    by_cases hfu : unitSize ≤ bytes.length
    · rw [length_take_of_le hfu, Nat.sub_self, replicate_zero, append_nil] at hdec
      exact hexa hdec
    -- a chunk with zeros at its end is the last one of the file
    rw [take_of_length_le (by omega)] at hdec hchk
    rcases hti with hla | hti
    · exact .final (chunk_of_bytes hdec hby) hla hne (by omega) (prefix_append ..)
    rw [Tight, Nat.mod_eq_of_lt (by omega), Nat.div_eq_of_lt (by omega), zero_mul] at hti
    have hsht := hti.resolve_left (by omega) _ hchk
    simp only [length_cons] at hsht
    omega

end Encoded

/-! ### The units of the new stream -/

section Units

variable {v v' : Volume} {runs kept fresh : List DataRun} {boundary vcn k low high : ℕ}

theorem runByte_keptRuns (h : k < spanned (keptRuns boundary runs vcn) * v.clusterSize) :
    v.runByte (keptRuns boundary runs vcn) k = v.runByte runs k := by
  induction runs generalizing vcn k with
  | nil => rfl
  | cons run runs ih =>
    rw [keptRuns] at h ⊢
    split at h
    · simp at h
    rename_i hlt
    rw [if_neg hlt]
    simp only [spanned_cons] at h ⊢
    simp only [runByte]
    by_cases hcut : boundary < vcn + run.clusterCount
    · -- the run is cut, and nothing is kept after it
      have hmin : min (boundary - vcn) run.clusterCount = boundary - vcn := by omega
      rw [hmin, keptRuns_of_le (by omega), spanned_nil, add_zero] at h
      have hmono := Nat.mul_le_mul_right v.clusterSize
        (show boundary - vcn ≤ run.clusterCount by omega)
      rw [hmin, if_pos h, if_pos (show k < run.clusterCount * v.clusterSize by omega)]
    · rw [Nat.min_eq_right (by omega)] at h ⊢
      rw [add_mul] at h
      split
      · rfl
      · exact ih (by omega)

theorem covered_keptRuns (h : high ≤ boundary) :
    covered low high (keptRuns boundary runs vcn) vcn = covered low high runs vcn := by
  induction runs generalizing vcn with
  | nil => rfl
  | cons run runs ih =>
    rw [keptRuns]
    split
    · exact (covered_eq_zero (Or.inl (by omega))).symm
    simp only [covered]
    by_cases hcut : boundary < vcn + run.clusterCount
    · have hmin : min (boundary - vcn) run.clusterCount = boundary - vcn := by omega
      have hend : min (vcn + (boundary - vcn)) high = min (vcn + run.clusterCount) high := by
        omega
      rw [hmin, hend, keptRuns_of_le (by omega), covered,
        covered_eq_zero (show high ≤ vcn + run.clusterCount ∨ _ from Or.inl (by omega))]
    · have hmin : min (boundary - vcn) run.clusterCount = run.clusterCount := by omega
      rw [hmin, ih]

variable {uc unit : ℕ} {new : List UInt8}

/-- A unit of runs that are stored after others. -/
theorem Stores.shift {left j : ℕ} (h : v.Stores fresh uc unit left new)
    (hkt : spanned kept = unit * uc) (hj : j < left) :
    ∃ stored real, squeeze v.clusterSize uc (slice new ((unit + j) * (uc * v.clusterSize))
        (uc * v.clusterSize)) = .ok (stored, real) ∧
      covered ((unit + j) * uc) ((unit + j + 1) * uc) (kept ++ fresh) 0 = real ∧
      ∀ k < uc * v.clusterSize, v.runByte (kept ++ fresh)
        ((unit + j) * (uc * v.clusterSize) + k) = stored.getD k 0 := by
  obtain ⟨stored, real, hsqz, hcov, hby⟩ := h j hj
  refine ⟨stored, real, hsqz, ?_, fun k hk => ?_⟩
  · have hlow : (unit + j) * uc = unit * uc + j * uc := add_mul ..
    have hhigh : (unit + j + 1) * uc = unit * uc + (j + 1) * uc := by
      rw [add_assoc, add_mul]
    rw [covered_append, covered_eq_zero (Or.inr (by omega)), hkt, hlow, hhigh, zero_add, zero_add]
    exact (@covered_shift (j * uc) ((j + 1) * uc) 0 fresh (unit * uc)).trans hcov
  · have hplace : (unit + j) * (uc * v.clusterSize) + k - unit * uc * v.clusterSize =
        j * (uc * v.clusterSize) + k := by
      rw [add_mul, mul_assoc]
      omega
    rw [runByte_append_right (by rw [hkt, add_mul, mul_assoc]; omega), hkt, hplace, hby k hk]

/-- **A unit that was written holds what the reader finds of it.** -/
theorem unitHolds_of_stored {data : CompressedData} {firstUnit real : ℕ} {stored : List UInt8}
    (hcs : 0 < v.clusterSize) (huc : 0 < uc) (hln : new.length = data.dataSize)
    (hun : firstUnit ≤ unit) (hlt : unit * (uc * v.clusterSize) < data.dataSize)
    (hsn : (unit + 1) * uc ≤ spanned data.dataRuns) (hsqz : squeeze v.clusterSize uc
      (slice new (unit * (uc * v.clusterSize)) (uc * v.clusterSize)) = .ok (stored, real))
    (hcov : covered (unit * uc) ((unit + 1) * uc) data.dataRuns 0 = real)
    (hby : ∀ k < uc * v.clusterSize, v.runByte data.dataRuns
      (unit * (uc * v.clusterSize) + k) = stored.getD k 0)
    (hpad : (unit + 1) * (uc * v.clusterSize) < data.dataSize → Unpadded v.clusterSize uc
      (slice new (unit * (uc * v.clusterSize)) (uc * v.clusterSize))) :
    v.UnitHolds data (uc * v.clusterSize) uc unit
      (storedContent v.clusterSize uc firstUnit new) := by
  have hub : 0 < uc * v.clusterSize := mul_pos huc hcs
  have hstr := Nat.mul_le_mul_right v.clusterSize hsn
  rw [mul_assoc] at hstr
  have hend : (unit + 1) * (uc * v.clusterSize) =
      unit * (uc * v.clusterSize) + uc * v.clusterSize := Nat.succ_mul ..
  have hget : ∀ i < uc * v.clusterSize, unit * (uc * v.clusterSize) + i < data.dataSize →
      (storedContent v.clusterSize uc firstUnit new)[unit * (uc * v.clusterSize) + i]? =
        (readBack v.clusterSize uc
          (slice new (unit * (uc * v.clusterSize)) (uc * v.clusterSize)))[i]? :=
    fun i hi hin => getElem?_storedContent_unit hub hun hi (by omega)
  generalize hpln : slice new (unit * (uc * v.clusterSize)) (uc * v.clusterSize) = plain at *
  have hlen : plain.length =
      min (uc * v.clusterSize) (data.dataSize - unit * (uc * v.clusterSize)) := by
    rw [← hpln, slice, length_take, length_drop, hln]
  have hrd := @readBack_eq_iff v.clusterSize uc plain
  obtain ⟨encoded, henc, hif⟩ := bind_eq_ok.mp hsqz
  -- a unit on all its clusters is read as the bytes that are stored
  have hwhole : real = uc → (∀ i < plain.length, (readBack v.clusterSize uc plain)[i]? =
      some (stored.getD i 0)) → v.UnitHolds data (uc * v.clusterSize) uc unit
        (storedContent v.clusterSize uc firstUnit new) := by
    intro hrl hso
    rw [UnitHolds, getD_compressionUnitsHeld huc, hcov, if_pos hrl]
    intro k hge hun hfile
    obtain ⟨i, rfl⟩ : ∃ i, k = unit * (uc * v.clusterSize) + i :=
      ⟨k - unit * (uc * v.clusterSize), by omega⟩
    refine ⟨by omega, ?_⟩
    rw [hget i (by omega) hfile, hso i (by omega), hby i (by omega)]
  rw [Except.ok.injEq] at hif
  split at hif
  · rename_i hraw
    obtain ⟨rfl, rfl⟩ := Prod.mk.inj hif
    refine hwhole rfl fun i hi => ?_
    have hsm : readBack v.clusterSize uc plain = plain := hrd.mpr fun encoded' henc' => by
      cases henc.symm.trans henc'
      exact Or.inl hraw
    rw [hsm, getD_eq_getElem?_getD, getElem?_eq_getElem hi, getD_some]
  obtain ⟨rfl, hrl⟩ := Prod.mk.inj hif
  have hmod := Nat.div_add_mod (encoded.length + v.clusterSize - 1) v.clusterSize
  have hmodlt := Nat.mod_lt (encoded.length + v.clusterSize - 1) hcs
  rw [hrl, mul_comm] at hmod
  have hpred : (uc - 1) * v.clusterSize + v.clusterSize = uc * v.clusterSize := by
    rw [← Nat.succ_mul, Nat.succ_eq_add_one, Nat.sub_add_cancel huc]
  by_cases hall : real = uc
  · rw [hall] at hmod
    refine hwhole hall fun i hi => ?_
    rw [readBack, henc]
    simp only
    rw [if_pos (by omega), getElem?_take_of_lt hi, getElem?_append,
      getD_eq_getElem?_getD, getElem?_replicate]
    split
    · rename_i hin
      rw [getElem?_eq_getElem hin, getD_some]
    · rw [if_pos (by omega), getElem?_eq_none (by omega), getD_none]
  have hle : real ≤ uc := (squeeze_ok hcs (by omega) hsqz).1
  have hmono := Nat.mul_le_mul_right v.clusterSize (show real ≤ uc - 1 by omega)
  have hsm : readBack v.clusterSize uc plain = plain := hrd.mpr fun encoded' henc' => by
    cases henc.symm.trans henc'
    exact Or.inr (Or.inl (by omega))
  have hsli : slice (storedContent v.clusterSize uc firstUnit new)
      (unit * (uc * v.clusterSize)) (uc * v.clusterSize) = plain := by
    refine ext_getElem? fun i => ?_
    rw [getElem?_slice]
    by_cases hi : i < plain.length
    · rw [if_pos (by omega), hget i (by omega) (by omega), hsm]
    rw [getElem?_eq_none (show plain.length ≤ i by omega)]
    split
    · exact getElem?_eq_none (by rw [length_storedContent]; omega)
    · rfl
  rw [UnitHolds, getD_compressionUnitsHeld huc, hcov, if_neg hall, hsli]
  refine chain_of_encodeUnit henc (le_refl _) (fun i hi => hby i (by omega)) (by omega) ?_
  by_cases hla : data.dataSize ≤ (unit + 1) * (uc * v.clusterSize)
  · exact Or.inl hla
  · exact Or.inr (hpad (by omega) encoded henc (by omega))

end Units

/-! ### The whole stream -/

section Stream

variable {record : RecordWriter} {data data' : CompressedData} {content buffer : List UInt8}
  {offset count : ℕ} {v v' : Volume}

theorem lt_units_iff {n b u : ℕ} (hb : 0 < b) : u < (n + b - 1) / b ↔ u * b < n := by
  rw [Nat.lt_iff_add_one_le, Nat.le_div_iff_mul_le hb, add_mul]
  omega

variable {uc first firstUnit units : ℕ} {state : Rewrite} {v₁ v₂ v₃ : Volume}

/-- A claim leaves the clusters of a file where they are. -/
theorem Writes.apart
    (w : Writes record data data' offset uc buffer v v' first firstUnit units state v₁ v₂ v₃)
    (hmk : ∀ c, Names data.dataRuns c → v.marked c = true) {c : ℕ}
    (hc : Names data.dataRuns c) : c < first ∨ first + (units - firstUnit) * uc ≤ c := by
  by_contra hin
  have hfr := (claimClusters_ok w.claim).2.1 c (by omega) (by omega)
  simp [hmk c hc] at hfr

/-- The new run list: what was kept, and the units that were stored. -/
theorem Writes.stream
    (w : Writes record data data' offset uc buffer v v' first firstUnit units state v₁ v₂ v₃)
    (hhol : v.Holds data content) (huc : uc = 2 ^ data.unitExponent)
    (hmk : ∀ c, Names data.dataRuns c → v.marked c = true) :
    v'.size = v.size ∧ v'.clusterSize = v.clusterSize ∧ ∃ fresh,
      data'.dataRuns = keptRuns (firstUnit * uc) data.dataRuns 0 ++ fresh ∧
      spanned fresh = (units - firstUnit) * uc ∧
      v'.Stores fresh uc firstUnit (units - firstUnit) (splice content offset buffer) ∧
      v'.OnDevice fresh ∧
      ∀ c, Names (keptRuns (firstUnit * uc) data.dataRuns 0) c → ∀ k < v.clusterSize,
        v'.bytes (c * v.clusterSize + k) = v.bytes (c * v.clusterSize + k) := by
  have hcs := w.clusterSize
  obtain ⟨-, -, -, hsm₁⟩ := claimClusters_ok w.claim
  have hcluster₁ : v₁.clusterSize = v.clusterSize := by rw [hsm₁]
  have hsz₁ : v₁.size = v.size := by rw [hsm₁]
  have hbytes₁ : v₁.bytes = v.bytes := by rw [hsm₁]
  obtain ⟨fresh, hfresh⟩ := rewriteUnits_runs (hcluster₁ ▸ hcs) w.loop
  have hcluster₂ : v₂.clusterSize = v.clusterSize := by rw [hfresh.same, hcluster₁]
  have hsz₂ : v₂.size = v.size := by rw [hfresh.same, hsz₁]
  obtain ⟨hsz₃, hcluster₃, hkp⟩ := record.keeps w.written
  have hsz' : v'.size = v.size := by
    rw [w.final]
    exact hsz₃.trans hsz₂
  have hcluster' : v'.clusterSize = v.clusterSize := by
    rw [w.final]
    exact hcluster₃.trans hcluster₂
  -- the record's write leaves the bytes of the list
  have hbytes' : ∀ c, Names state.runs c → ∀ k < v.clusterSize,
      v'.bytes (c * v.clusterSize + k) = v₂.bytes (c * v.clusterSize + k) := by
    intro c hc k hk
    have := (hkp c hc).2 k (by rwa [show (v₂.freed _).clusterSize = _ from hcluster₂])
    rw [show (v₂.freed _).clusterSize = _ from hcluster₂] at this
    rw [w.final]
    exact this
  have hap := fun c hc => w.apart hmk (c := c) hc
  have hhol₁ : v₁.Holds data content :=
    hhol.congr hsz₁ hcluster₁ fun _ _ _ _ => by rw [hbytes₁]
  have hsts : v₂.Stores fresh uc firstUnit (units - firstUnit) (splice content offset buffer) :=
    rewriteUnits_stores hhol₁ huc w.inside
      (fun j hj => by
        rw [hcluster₁]
        refine (lt_units_iff (mul_pos (huc ▸ Nat.two_pow_pos _) hcs)).mp ?_
        have := w.units_eq
        omega)
      (fun c hc => by simpa using hap c hc)
      (by rw [length_replicate, hcluster₁]) w.loop hfresh.runs
  have hin : ∀ c, Names fresh c → Names state.runs c := fun c hc => by
    rw [hfresh.runs]
    exact names_append.mpr (Or.inr hc)
  refine ⟨hsz', hcluster', fresh, by rw [w.result, hfresh.runs], hfresh.spanned, ?_,
    fun c hc => ?_, fun c hc k hk => ?_⟩
  · intro j hj
    obtain ⟨stored, real, hsqz, hcov, hby⟩ := hsts j hj
    rw [hcluster₂] at hsqz hby
    rw [hcluster']
    refine ⟨stored, real, hsqz, hcov, fun k hk => ?_⟩
    rw [← hby k hk]
    refine runByte_congr (by rw [hcluster', hcluster₂]) (fun c hc j hj => ?_) _
    rw [hcluster₂] at hj ⊢
    exact hbytes' c (hin c hc) j hj
  · rw [hcluster', hsz', ← hcluster₂, ← hsz₂]
    exact hfresh.onDevice c hc
  have hnam : Names state.runs c := by
    rw [hfresh.runs]
    exact names_append.mpr (Or.inl hc)
  rw [hbytes' c hnam k hk, ← hbytes₁]
  refine hfresh.frame _ ?_
  rw [hcluster₁]
  rcases hap c (names_of_names_keptRuns hc) with hlow | hhigh
  · have := Nat.mul_le_mul_right v.clusterSize (show c + 1 ≤ first from hlow)
    rw [add_mul] at this
    simp only [add_zero]
    omega
  have hwor := hfresh.le_worst
  have := Nat.mul_le_mul_right v.clusterSize (show first + state.went ≤ c by
    simp only at hwor
    omega)
  omega

/-- **What the stream holds after a write.** -/
theorem holds_storedContent (hhol : v.Holds data content)
    (hmk : ∀ c, Names data.dataRuns c → v.marked c = true)
    (hpad : ∀ unit, offset / (2 ^ data.unitExponent * v.clusterSize) ≤ unit →
      (unit + 1) * (2 ^ data.unitExponent * v.clusterSize) < data.dataSize →
      Unpadded v.clusterSize (2 ^ data.unitExponent) (slice (splice content offset buffer)
        (unit * (2 ^ data.unitExponent * v.clusterSize)) (2 ^ data.unitExponent * v.clusterSize)))
    (h : writeToACompressedStream record data offset buffer v = (.ok (count, data'), v')) :
    data'.dataSize = data.dataSize ∧ offset + buffer.length ≤ content.length ∧
      v'.Holds data' (storedContent v.clusterSize (2 ^ data.unitExponent)
        (offset / (2 ^ data.unitExponent * v.clusterSize)) (splice content offset buffer)) := by
  obtain ⟨first, firstUnit, units, state, v₁, v₂, v₃, w⟩ := writeToACompressedStream_cases h
  obtain ⟨hdev, hcluster, fresh, hru, hsn, hsts, hfresh, hkt⟩ :=
    w.stream hhol rfl hmk
  have hins := w.inside
  rw [← hhol.length] at hins
  rw [← w.firstUnit_eq] at hpad ⊢
  have hsz : data'.dataSize = data.dataSize := by rw [w.result]
  have hexp : data'.unitExponent = data.unitExponent := by rw [w.result]
  have hln : (splice content offset buffer).length = data.dataSize :=
    (length_splice hins).trans hhol.length
  have hcs := hhol.clusterSize
  have huc : 0 < 2 ^ data.unitExponent := Nat.two_pow_pos _
  have hub : 0 < 2 ^ data.unitExponent * v.clusterSize := mul_pos huc hcs
  have hoff : firstUnit * (2 ^ data.unitExponent * v.clusterSize) ≤ offset := by
    rw [w.firstUnit_eq]
    exact Nat.div_mul_le_self ..
  -- the write rewrites at least one unit, so there are runs up to the first one
  have hfirst : firstUnit < units := by
    have := (claimClusters_ok w.claim).1
    by_contra hnot
    rw [Nat.sub_eq_zero_of_le (by omega)] at this
    omega
  have hlt : ∀ unit, unit < units ↔
      unit * (2 ^ data.unitExponent * v.clusterSize) < data.dataSize := fun unit => by
    rw [w.units_eq]
    exact lt_units_iff hub
  have hbd : spanned (keptRuns (firstUnit * 2 ^ data.unitExponent) data.dataRuns 0) =
      firstUnit * 2 ^ data.unitExponent := by
    have hbey := (hhol.unit firstUnit ((hlt _).mp hfirst)).lt_spanned hhol.length hub
      ((hlt _).mp hfirst)
    rw [← mul_assoc] at hbey
    have := Nat.lt_of_mul_lt_mul_right hbey
    rw [spanned_keptRuns]
    omega
  refine ⟨hsz, hins, ?_, hcluster ▸ hcs, ?_, fun c hc => ?_, fun unit hun => ?_⟩
  · rw [hexp]
    exact hhol.exponent
  · rw [length_storedContent, hln, hsz]
  · rw [hru] at hc
    rcases names_append.mp hc with hc | hc
    · rw [hcluster, hdev]
      exact hhol.onDevice c (names_of_names_keptRuns hc)
    · exact hfresh c hc
  rw [hexp, hcluster, hsz] at hun
  rw [hexp, hcluster]
  have hend : (unit + 1) * 2 ^ data.unitExponent * v.clusterSize =
      (unit + 1) * (2 ^ data.unitExponent * v.clusterSize) := mul_assoc ..
  have hstart : firstUnit * 2 ^ data.unitExponent * v.clusterSize =
      firstUnit * (2 ^ data.unitExponent * v.clusterSize) := mul_assoc ..
  by_cases hold : unit < firstUnit
  · -- a unit that was kept
    have hclus := Nat.mul_le_mul_right (2 ^ data.unitExponent) (show unit + 1 ≤ firstUnit from hold)
    have hplace := Nat.mul_le_mul_right v.clusterSize hclus
    refine (hhol.unit unit hun).congr hsz ?_ ?_ (fun k hk _ => ?_) fun k hge hk => ?_
    · have hzero : covered (unit * 2 ^ data.unitExponent) ((unit + 1) * 2 ^ data.unitExponent)
          fresh (0 + firstUnit * 2 ^ data.unitExponent) = 0 :=
        covered_eq_zero (Or.inl (by omega))
      rw [getD_compressionUnitsHeld huc, getD_compressionUnitsHeld huc, hru, covered_append,
        covered_keptRuns hclus, hbd, hzero, add_zero]
    · have hstr : spanned data'.dataRuns * v'.clusterSize = firstUnit *
          (2 ^ data.unitExponent * v.clusterSize) + spanned fresh * v.clusterSize := by
        rw [hru, spanned_append, hcluster, add_mul, hbd, hstart]
      omega
    · have hin : k < spanned (keptRuns (firstUnit * 2 ^ data.unitExponent) data.dataRuns 0) *
          v.clusterSize := by
        rw [hbd]
        omega
      rw [hru, runByte_append_left (by rwa [hcluster]), runByte_congr hcluster hkt,
        runByte_keptRuns hin]
    · by_cases hfile : k < data.dataSize
      · rw [getElem?_storedContent hub (by omega), if_pos (by omega), getElem?_splice hins,
          if_neg (by omega)]
      · rw [getElem?_eq_none (by rw [length_storedContent]; omega),
          getElem?_eq_none (by have := hhol.length; omega)]
  · -- a unit that was written
    obtain ⟨j, rfl⟩ : ∃ j, unit = firstUnit + j := ⟨unit - firstUnit, by omega⟩
    obtain ⟨stored, real, hsqz, hcov, hby⟩ :=
      hsts.shift hbd (show j < units - firstUnit by have := (hlt _).mpr hun; omega)
    rw [← hru] at hcov hby
    have hclus : (firstUnit + j + 1) * 2 ^ data.unitExponent ≤ spanned data'.dataRuns := by
      rw [hru, spanned_append, hbd, hsn, ← add_mul]
      refine Nat.mul_le_mul_right _ ?_
      have := (hlt _).mpr hun
      omega
    rw [← hcluster] at hpad hun hcs ⊢
    exact unitHolds_of_stored hcs huc (hln.trans hsz.symm) (by omega) (by omega) hclus
      hsqz hcov hby fun hla => hpad _ (by omega) (by omega)

/-- **A read after a write finds the written content, in every range, exactly if the reader
recognises every unit the write has stored.** -/
theorem read_after_write_iff (hholds : v.Holds data content)
    (hmarked : ∀ c, Names data.dataRuns c → v.marked c = true)
    (hpad : ∀ unit, offset / (2 ^ data.unitExponent * v.clusterSize) ≤ unit →
      (unit + 1) * (2 ^ data.unitExponent * v.clusterSize) < data.dataSize →
      Unpadded v.clusterSize (2 ^ data.unitExponent) (slice (splice content offset buffer)
        (unit * (2 ^ data.unitExponent * v.clusterSize))
        (2 ^ data.unitExponent * v.clusterSize)))
    (h : writeToACompressedStream record data offset buffer v = (.ok (count, data'), v')) :
    (∀ start into, v'.readACompressedStream data' start into =
      .ok (min (start + into.length) data.dataSize - start, splice into 0
        (slice (splice content offset buffer) start
          (min (start + into.length) data.dataSize - start)))) ↔
    ∀ unit, offset / (2 ^ data.unitExponent * v.clusterSize) ≤ unit →
      unit * (2 ^ data.unitExponent * v.clusterSize) < data.dataSize →
      Recognised v.clusterSize (2 ^ data.unitExponent) (slice (splice content offset buffer)
        (unit * (2 ^ data.unitExponent * v.clusterSize))
        (2 ^ data.unitExponent * v.clusterSize)) := by
  obtain ⟨hsz, hins, hsto⟩ := holds_storedContent hholds hmarked hpad h
  have hln : (splice content offset buffer).length = data.dataSize :=
    (length_splice hins).trans hholds.length
  have hrd := readACompressedStream_ok hsto
  rw [hsz] at hrd
  have hub : 0 < 2 ^ data.unitExponent * v.clusterSize :=
    mul_pos (Nat.two_pow_pos _) hholds.clusterSize
  rw [← hln, ← storedContent_eq_iff hub, hln]
  constructor
  · intro hall
    -- a read of the whole file
    have hwhole := Prod.mk.inj (Outcome.ok.inj
      ((hrd 0 (List.replicate data.dataSize 0)).symm.trans
        (hall 0 (List.replicate data.dataSize 0))))
    have hcvr : ∀ l : List UInt8, l.length = data.dataSize →
        splice (List.replicate data.dataSize 0) 0 (slice l 0 data.dataSize) = l := by
      intro l hl
      rw [← hl, slice_self, splice, take_zero, nil_append,
        drop_eq_nil_of_le (by rw [length_replicate]; omega), append_nil]
    have hsm := hwhole.2
    rwa [length_replicate, zero_add, min_self, Nat.sub_zero,
      hcvr _ (length_storedContent.trans hln), hcvr _ hln] at hsm
  · intro heq start into
    rw [hrd, heq]

theorem holds_twoUnits : sixteenClusters.Holds twoUnits (List.replicate 64 0) where
  exponent := ⟨by decide, by decide⟩
  clusterSize := by decide
  length := by decide
  onDevice c hc := by
    obtain ⟨-, -, hlt⟩ := (names_cons.mp hc).resolve_right not_names_nil
    have hlt' : c < 6 := hlt
    show (c + 1) * 16 ≤ 256
    omega
  unit unit hlt := by
    have hlt' : unit * 32 < 64 := hlt
    rw [UnitHolds, if_pos (by
      have : unit < 2 := by omega
      interval_cases unit <;> decide)]
    intro k _ _ hk
    have hk' : k < 64 := hk
    refine ⟨hk', ?_⟩
    rw [getElem?_replicate_of_lt hk', show twoUnits.dataRuns = [⟨2, 4⟩] from rfl, runByte]
    split
    · rfl
    · rfl

/-- A write of one byte to a file of zeros, whose units are squeezed to half a cluster. -/
theorem read_after_write_iff_zeros :
    readACompressedStream (writeToACompressedStream .inPlace twoUnits 0 [1] sixteenClusters).2
      { twoUnits with dataRuns := [⟨6, 1⟩, ⟨-1, 1⟩, ⟨7, 1⟩, ⟨-1, 1⟩] } 0 [7, 7, 7] =
      .ok (3, [1, 0, 0]) := by
  have hwr : (writeToACompressedStream .inPlace twoUnits 0 [1] sixteenClusters).1 =
      .ok (1, { twoUnits with dataRuns := [⟨6, 1⟩, ⟨-1, 1⟩, ⟨7, 1⟩, ⟨-1, 1⟩] }) := by
    decide +kernel
  refine (read_after_write_iff holds_twoUnits marked_twoUnits (fun unit _ hlt => ?_)
    (Prod.ext hwr rfl)).mpr (fun unit _ hlt => ?_) 0 [7, 7, 7]
  · have hlt' : (unit + 1) * 32 < 64 := hlt
    refine @unpadded_of_two_pow 1 4 _ (length_slice ?_)
    show unit * 32 + 32 ≤ 64
    omega
  have hlt' : unit * 32 < 64 := hlt
  have henc : encodeUnit 32 (1 :: List.replicate 31 0) = .ok [4, 176, 4, 1, 0, 27, 0] := by
    decide +kernel
  have henc' : encodeUnit 32 (List.replicate 32 0) = .ok [3, 176, 2, 0, 28, 0] := by
    decide +kernel
  have hun : unit < 2 := by omega
  intro stored hsto
  interval_cases unit
  · cases henc.symm.trans hsto
    exact Or.inr (Or.inl (by decide))
  · cases henc'.symm.trans hsto
    exact Or.inr (Or.inl (by decide))

/-- The bytes from one to twenty, in a unit of two clusters of sixteen: their encoding has
twenty-eight bytes. -/
def oneToTwenty : List UInt8 := (range 20).map fun i => UInt8.ofNat (i + 1)

/-- A unit whose encoding needs both its clusters reads back as its encoding. -/
theorem writeToACompressedStream_misread : sixteenClusters.Holds twoUnits (List.replicate 64 0) ∧
    (∀ c, Names twoUnits.dataRuns c → sixteenClusters.marked c = true) ∧
    (writeToACompressedStream .inPlace twoUnits 0 oneToTwenty sixteenClusters).1 =
      .ok (20, { twoUnits with dataRuns := [⟨6, 2⟩, ⟨8, 1⟩, ⟨-1, 1⟩] }) ∧
    readACompressedStream
      (writeToACompressedStream .inPlace twoUnits 0 oneToTwenty sixteenClusters).2
      { twoUnits with dataRuns := [⟨6, 2⟩, ⟨8, 1⟩, ⟨-1, 1⟩] } 0 [0, 0, 0] = .ok (3, [25, 176, 0]) ∧
    slice (splice (List.replicate 64 0) 0 oneToTwenty) 0 3 = [1, 2, 3] :=
  ⟨holds_twoUnits, marked_twoUnits, by decide +kernel, by decide +kernel, by decide +kernel⟩

end Stream

end Volume

end Protofire.Ntfs
