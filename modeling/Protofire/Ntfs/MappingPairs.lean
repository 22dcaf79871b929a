import Protofire.Ntfs.Records

/-!
# Mapping pairs

A run list is kept as pairs of a length and a *delta*, the distance from the last run that names a
cluster, each in as few bytes as it takes and the delta with its sign in the top bit. A sparse run
has no delta and does not move the place the next one is measured from. `parseDataRuns` reads back
what `encodeRuns` writes, whatever follows it: the induction is over the runs, with the place both
sides measure from.
-/

namespace Protofire.Ntfs

open List

variable (bytes : List UInt8)

/-- The bytes of a field as a number. -/
def leValue : ℕ := Nat.ofDigits 256 (bytes.map UInt8.toNat)

/-- The bytes of a field as a signed number: the sign is extended from the top bit of the last. -/
def signedValue : ℤ :=
  if 2 ^ (8 * bytes.length - 1) ≤ leValue bytes then leValue bytes - (2 ^ (8 * bytes.length) : ℕ)
  else leValue bytes

/-- The loop of the parser. The answer `none` is a shift or a sum outside the 64 bits. -/
def parseRunsFrom : ℕ → List UInt8 → (previous : ℤ) → Option (List DataRun)
  | 0, _, _ | _, [], _ => some []
  | rounds + 1, header :: buf, previous =>
    let lenBytes := header.toNat % 16
    let offBytes := header.toNat / 16
    if header = 0 ∨ buf.length < lenBytes + offBytes then some []
    else if 8 < lenBytes ∨ 8 < offBytes then none
    else
      let clusterCount := leValue (buf.take lenBytes)
      let lcn := previous + signedValue ((buf.drop lenBytes).take offBytes)
      let rest := buf.drop (lenBytes + offBytes)
      if clusterCount = 0 then parseRunsFrom rounds rest previous
      else if offBytes = 0 then (parseRunsFrom rounds rest previous).map (⟨-1, clusterCount⟩ :: ·)
      else if lcn < -2 ^ 63 ∨ 2 ^ 63 ≤ lcn then none
      else (parseRunsFrom rounds rest lcn).map (⟨lcn, clusterCount⟩ :: ·)

/-- `parse_data_runs`. -/
def parseDataRuns (buf : List UInt8) : Option (List DataRun) := parseRunsFrom buf.length buf 0

theorem leValue_cons (b : UInt8) (bytes : List UInt8) :
    leValue (b :: bytes) = b.toNat + 256 * leValue bytes := Nat.ofDigits_cons ..

theorem signedValue_cons (b : UInt8) {bytes : List UInt8} (hne : bytes ≠ []) :
    signedValue (b :: bytes) = b.toNat + 256 * signedValue bytes := by
  obtain ⟨n, hn⟩ := Nat.exists_eq_succ_of_ne_zero (mt length_eq_zero_iff.mp hne)
  have hb := b.toNat_lt
  rw [signedValue, signedValue, length_cons, leValue_cons, hn,
    show 8 * (n + 1 + 1) - 1 = 8 * n + 7 + 8 by omega, show 8 * (n + 1) - 1 = 8 * n + 7 by omega,
    show 8 * (n + 1 + 1) = 8 * n + 7 + 9 by omega, show 8 * (n + 1) = 8 * n + 7 + 1 by omega]
  simp only [pow_add _ (8 * n + 7)]
  generalize 2 ^ (8 * n + 7) = place
  split_ifs <;> omega

theorem countBytes_spec {n count : ℕ} (hlt : count < 256 ^ n) :
    leValue (countBytes n count) = count ∧ (countBytes n count).length ≤ n ∧
      (count ≠ 0 → countBytes n count ≠ []) := by
  induction n generalizing count with
  | zero =>
    have hzero : count = 0 := Nat.lt_one_iff.mp hlt
    exact ⟨hzero.symm, le_rfl, fun hne => absurd hzero hne⟩
  | succ n ih =>
    rw [countBytes]
    split_ifs with hzero
    · exact ⟨hzero.symm, Nat.zero_le _, fun hne => absurd hzero hne⟩
    rw [pow_succ] at hlt
    obtain ⟨hval, hln, -⟩ := ih (Nat.div_lt_of_lt_mul (mul_comm _ 256 ▸ hlt))
    refine ⟨?_, Nat.succ_le_succ hln, fun _ => cons_ne_nil _ _⟩
    rw [leValue_cons, UInt8.toNat_ofNat']
    omega

theorem deltaBytes_spec {n rounds : ℕ} (hrn : n < rounds) {value : ℤ} {nonneg : Bool}
    (hsign : nonneg = true ↔ 0 ≤ value) (hlow : -2 ^ (8 * n + 7) ≤ value)
    (hhigh : value < 2 ^ (8 * n + 7)) : signedValue (deltaBytes nonneg rounds value) = value ∧
      (deltaBytes nonneg rounds value).length ≤ n + 1 ∧ deltaBytes nonneg rounds value ≠ [] := by
  induction rounds generalizing n value with
  | zero => exact absurd hrn (Nat.not_lt_zero _)
  | succ rounds ih =>
    have hby : (UInt8.ofNat (value % 256).toNat).toNat = (value % 256).toNat := by
      rw [UInt8.toNat_ofNat']
      omega
    -- the last byte is the one the rest of the value fits into
    have hst : deltaBytes nonneg (rounds + 1) value = UInt8.ofNat (value % 256).toNat ::
        if -128 ≤ value ∧ value < 128 then [] else deltaBytes nonneg rounds (value / 256) := by
      refine congrArg _ (if_congr ?_ rfl rfl)
      cases nonneg <;> simp only [reduceIte, Bool.false_eq_true, true_iff, false_iff] at hsign ⊢ <;>
        omega
    rw [hst]
    split_ifs with hla
    · refine ⟨?_, Nat.succ_le_succ (Nat.zero_le n), cons_ne_nil _ _⟩
      have hone : leValue [UInt8.ofNat (value % 256).toNat] = (value % 256).toNat := by
        rw [leValue_cons, hby]
        rfl
      rw [signedValue, length_singleton]
      split_ifs <;> omega
    cases n with
    | zero => omega
    | succ n =>
      rw [show 8 * (n + 1) + 7 = 8 * n + 7 + 8 by omega, pow_add] at hlow hhigh
      obtain ⟨hval, hln, hne⟩ := @ih n (by omega) (value / 256) (hsign.trans (by omega))
        (by omega) (by omega)
      refine ⟨?_, Nat.succ_le_succ hln, cons_ne_nil _ _⟩
      rw [signedValue_cons _ hne, hval]
      omega

/-- A pair is read as it was written. -/
theorem parseRunsFrom_pair {lengths offsets tail : List UInt8} {previous : ℤ} (rounds : ℕ)
    (hne : lengths ≠ []) (hleng : lengths.length ≤ 8) (hofs : offsets.length ≤ 8)
    (hcnt : leValue lengths ≠ 0) :
    parseRunsFrom (rounds + 1) (UInt8.ofNat (offsets.length * 16 + lengths.length) :: lengths ++
      offsets ++ tail) previous = if offsets = [] then
      (parseRunsFrom rounds tail previous).map (⟨-1, leValue lengths⟩ :: ·) else
      let lcn := previous + signedValue offsets
      if lcn < -2 ^ 63 ∨ 2 ^ 63 ≤ lcn then none
      else (parseRunsFrom rounds tail lcn).map (⟨lcn, leValue lengths⟩ :: ·) := by
  have hpos := length_pos_iff.mpr hne
  have hhdr : (UInt8.ofNat (offsets.length * 16 + lengths.length)).toNat =
      offsets.length * 16 + lengths.length := by
    rw [UInt8.toNat_ofNat']
    omega
  have hzero : UInt8.ofNat (offsets.length * 16 + lengths.length) ≠ 0 := fun h => by
    rw [h] at hhdr
    simp at hhdr
    omega
  have hlen : (offsets.length * 16 + lengths.length) % 16 = lengths.length := by omega
  have hoff : (offsets.length * 16 + lengths.length) / 16 = offsets.length := by omega
  rw [cons_append, cons_append, append_assoc, parseRunsFrom]
  simp only [hhdr, hlen, hoff, hzero, length_append, false_or]
  rw [if_neg (by omega), if_neg (by omega), take_left, if_neg hcnt, drop_left,
    take_left, ← append_assoc, ← length_append, drop_left]
  simp only [length_eq_zero_iff]

section Runs

variable {runs : List DataRun} (rest : List UInt8)
  (hru : ∀ run ∈ runs, 0 < run.clusterCount ∧ run.clusterCount < 2 ^ 64 ∧ run.lcn < 2 ^ 63)

include hru

theorem length_le_encodeRunsFrom (previous : ℤ) :
    runs.length ≤ (encodeRunsFrom runs previous).length := by
  induction runs generalizing previous with
  | nil => exact Nat.zero_le _
  | cons run runs ih =>
    obtain ⟨⟨hpos, -⟩, hre⟩ := forall_mem_cons.mp hru
    rw [encodeRunsFrom, if_neg hpos.ne']
    simp only [length_cons, length_append]
    have := ih hre (if 0 ≤ run.lcn then run.lcn else previous)
    omega

theorem parseRunsFrom_encodeRunsFrom {previous : ℤ} {rounds : ℕ} (hrn : runs.length ≤ rounds)
    (hle : 0 ≤ previous) (hlt : previous < 2 ^ 63) :
    parseRunsFrom rounds (encodeRunsFrom runs previous ++ rest) previous =
      some (runs.map fun run => { run with lcn := if 0 ≤ run.lcn then run.lcn else -1 }) := by
  induction runs generalizing previous rounds with
  | nil => cases rounds <;> rfl
  | cons run runs ih =>
    obtain ⟨⟨hpos, hcnt, hlcn⟩, hre⟩ := forall_mem_cons.mp hru
    obtain ⟨hval, hln, hne⟩ := @countBytes_spec 8 run.clusterCount hcnt
    obtain ⟨rounds, rfl⟩ := Nat.exists_eq_add_of_le' hrn
    rw [encodeRunsFrom, if_neg hpos.ne', map_cons, append_assoc, length_cons, ← add_assoc]
    split_ifs with hrl
    · -- the delta lies between those of the two ends of the 63 bits
      obtain ⟨hdel, hbytes, hso⟩ := @deltaBytes_spec 7 9 (by decide) (run.lcn - previous)
        (previous ≤ run.lcn) (by simp) (by omega) (by omega)
      rw [parseRunsFrom_pair _ (hne hpos.ne') hln hbytes (hval.trans_ne hpos.ne'),
        if_neg hso, hdel, hval, add_sub_cancel, if_neg (by omega),
        ih hre (Nat.le_add_left _ _) hrl hlcn]
      rfl
    · have hno : ([] : List UInt8).length ≤ 8 := Nat.zero_le 8
      rw [parseRunsFrom_pair _ (hne hpos.ne') hln hno (hval.trans_ne hpos.ne'), hval,
        ih hre (Nat.le_add_left _ _) hle hlt]
      rfl

/-- **A run list is read back as it was written**, whatever follows it: the counts are any positive
64-bit numbers, the places any that 63 bits hold, and a sparse run comes back as −1. -/
theorem parseDataRuns_encodeRuns : parseDataRuns (encodeRuns runs ++ rest) =
    some (runs.map fun run => { run with lcn := if 0 ≤ run.lcn then run.lcn else -1 }) := by
  refine parseRunsFrom_encodeRunsFrom rest hru ?_ le_rfl (by decide)
  rw [length_append]
  exact (length_le_encodeRunsFrom hru 0).trans (Nat.le_add_right _ _)

end Runs

/-- The theorem above where the deltas are the longest there are, with a sparse run between. -/
theorem parseDataRuns_encodeRuns_ends : parseDataRuns (encodeRuns
      [⟨2 ^ 63 - 1, 2 ^ 64 - 1⟩, ⟨-5, 1⟩, ⟨0, 1⟩] ++ [1]) =
    some [⟨2 ^ 63 - 1, 2 ^ 64 - 1⟩, ⟨-1, 1⟩, ⟨0, 1⟩] :=
  parseDataRuns_encodeRuns [1] (by decide)

end Protofire.Ntfs
