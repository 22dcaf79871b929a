import Protofire.Kernel.Block
import Protofire.Lib.Bytes
import Protofire.Lib.Lz

/-!
# The chunks of a compressed stream

A compressed stream is a sequence of chunks of at most 4096 bytes, each decoded on its own. A
chunk is a header of two bytes and a payload. A squeezed payload is a sequence of items in
groups of eight, each group behind a byte of flags: a flag tells a literal byte from a pair, a
distance back and a length packed in sixteen bits, where the split between the two moves as the
output grows. A payload that squeezing does not make smaller is stored as it is, padded to a
whole chunk.

The encoder looks for matches in chains of the positions with the same hash. What it finds is a
match whatever the chains hold, as long as they name positions behind the current one, and
decoding undoes it: the encoder's payload, with any bits above the current one in its last byte
of flags, leads the decoder to the bytes encoded so far.
-/

namespace Protofire.Ntfs.Lznt1

open List Option Bytes Lz Function

/-- The most bytes a chunk decodes to. -/
def unitSize : ℕ := 4096

/-- How far the output has to have grown before the split of a pair moves. -/
def distances : List ℕ := [0x10, 0x20, 0x40, 0x80, 0x100, 0x200, 0x400, 0x800, 0x1000]

/-- What a chunk's header says. -/
structure Unit where
  /-- The chunk's length in the stream, with the header. -/
  length : ℕ
  compressed : Bool
deriving DecidableEq

/-- The header of a chunk. -/
def parseUnit (low high : UInt8) : Unit where
  length := 3 + (low.toNat + 256 * high.toNat) % 0x1000
  compressed := (low.toNat + 256 * high.toNat).testBit 15

/-- The bytes behind the last chunk. -/
def isPadding (low high : UInt8) : Bool := low == 0 && high == 0

/-- How many of the distances the output has passed, up to the last but one. -/
def indexFor (produced : ℕ) : ℕ := (distances.dropLast.takeWhile (· < produced)).length

/-! ### The decoder -/

/-- The place in a group of items after an item: the next item, or a byte of flags. -/
def nextItem (flags : UInt8) (bit : ℕ) : Option (UInt8 × ℕ) :=
  if bit + 1 < 8 then some (flags, bit + 1) else none

/-- The output after a pair. -/
def expandPair (room : ℕ) (low high : UInt8) (out : List UInt8) : Except Error (List UInt8) :=
  let pair := low.toNat + 256 * high.toNat
  let shift := 12 - indexFor out.length
  let distance := 1 + pair >>> shift
  let length := 3 + pair % 2 ^ shift
  if out.length < distance then .error .invalidArgument
  else .ok (copyBack distance room length out)

/-- The loop of the decoder, at a byte of flags or at an item of a group. -/
def expandFrom (room : ℕ) : List UInt8 → Option (UInt8 × ℕ) → List UInt8 →
    Except Error (List UInt8)
  | [], none, out => .ok out
  | [], some (flags, bit), out =>
    if flags.toNat.testBit bit then .error .invalidArgument else .ok out
  | byte :: payload, none, out => expandFrom room payload (some (byte, 0)) out
  | byte :: payload, some (flags, bit), out =>
    if flags.toNat.testBit bit then
      match payload with
      | [] => .error .invalidArgument
      | high :: payload =>
        match expandPair room byte high out with
        | .error e => .error e
        | .ok out => expandFrom room payload (nextItem flags bit) out
    else if out.length = room then .ok out
    else expandFrom room payload (nextItem flags bit) (out ++ [byte])

/-- Decode a chunk's payload into a buffer with some room: the bytes written. -/
def expand (unit : Unit) (payload : List UInt8) (room : ℕ) : Except Error (List UInt8) :=
  let room := min room unitSize
  if unit.compressed then expandFrom room payload none [] else .ok (payload.take room)

/-! ### The matcher -/

/-- How many values the hash of three bytes takes. -/
def hashSize : ℕ := 4096

/-- How many positions are looked at for a match. -/
def chainLimit : ℕ := 32

section

variable (input : List UInt8)

/-- The hash of the three bytes at a position. -/
def hashOf (at' : ℕ) : ℕ :=
  ((input.getD at' 0).toNat <<< 16 ||| (input.getD (at' + 1) 0).toNat <<< 8 |||
    (input.getD (at' + 2) 0).toNat) &&& (hashSize - 1)

/-- The last position of each hash, and for each position the one before it with its hash. -/
structure Chains where
  head : ℕ → Option ℕ
  chain : ℕ → Option ℕ

/-- Put a position into the chains. -/
def Chains.insert (c : Chains) (input : List UInt8) (at' : ℕ) : Chains :=
  if input.length < at' + 3 then c
  else
    let hash := hashOf input at'
    { head := update c.head hash (some at')
      chain := update c.chain at' (c.head hash) }

/-- How far the bytes from two positions on agree, up to a limit. -/
def commonLength (input : List UInt8) (candidate at' : ℕ) : ℕ → ℕ → ℕ
  | 0, length => length
  | left + 1, length =>
    if input[candidate + length]? = input[at' + length]? then
      commonLength input candidate at' left (length + 1)
    else length

/-- Follow a chain, and keep the longest match. -/
def searchChain (input : List UInt8) (at' maxDistance limit : ℕ) (chain : ℕ → Option ℕ) :
    ℕ → Option ℕ → ℕ × ℕ → ℕ × ℕ
  | 0, _, best => best
  | _ + 1, none, best => best
  | hops + 1, some candidate, best =>
    if maxDistance < at' - candidate then best
    else
      let length := commonLength input candidate at' limit 0
      if best.2 < length then
        if length = limit then (at' - candidate, length)
        else searchChain input at' maxDistance limit chain hops (chain candidate)
          (at' - candidate, length)
      else searchChain input at' maxDistance limit chain hops (chain candidate) best

/-- The distance and the length of the longest match. -/
def longestMatch (at' maxDistance maxLength : ℕ) (c : Chains) : ℕ × ℕ :=
  if input.length < at' + 3 then (0, 0)
  else searchChain input at' maxDistance (min maxLength (input.length - at')) c.chain chainLimit
    (c.head (hashOf input at')) (0, 0)

/-! ### The encoder -/

/-- The encoder between two items. -/
structure Encoder where
  payload : List UInt8
  /-- The place of the last byte of flags. -/
  flagsAt : ℕ
  bit : ℕ
  produced : ℕ
  chains : Chains

/-- An encoder before its first byte. -/
def Encoder.start : Encoder where
  payload := []
  flagsAt := 0
  bit := 0
  produced := 0
  chains := ⟨fun _ => none, fun _ => none⟩

/-- The payload with room for a group's flags, and where they are. -/
def Encoder.openGroup (e : Encoder) : List UInt8 × ℕ :=
  if e.bit = 0 then (e.payload ++ [0], e.payload.length) else (e.payload, e.flagsAt)

/-- Set a bit of a byte. -/
def setFlag (bit : ℕ) (flags : UInt8) : UInt8 := UInt8.ofNat (flags.toNat ||| 1 <<< bit)

/-- One item. -/
def Encoder.step (e : Encoder) : Encoder :=
  let index := indexFor e.produced
  let shift := 12 - index
  let (distance, length) :=
    longestMatch input e.produced (1 <<< (4 + index)) (1 <<< shift + 2) e.chains
  let (payload, flagsAt) := e.openGroup
  if 3 ≤ length then
    let pair := (distance - 1) <<< shift ||| (length - 3)
    { payload := payload.modify flagsAt (setFlag e.bit) ++
        [leByte pair 0, leByte pair 1]
      flagsAt := flagsAt
      bit := (e.bit + 1) % 8
      produced := e.produced + length
      chains := (range' e.produced length).foldl (fun c at' => c.insert input at') e.chains }
  else
    { payload := payload ++ [input.getD e.produced 0]
      flagsAt := flagsAt
      bit := (e.bit + 1) % 8
      produced := e.produced + 1
      chains := e.chains.insert input e.produced }

/-- The loop of the encoder. Each round encodes a byte at least. -/
def Encoder.run (input : List UInt8) : ℕ → Encoder → Encoder
  | 0, e => e
  | rounds + 1, e =>
    if e.produced < input.length then Encoder.run input rounds (e.step input) else e

/-- Encode a chunk: the bytes it adds to the stream. -/
def compressUnit : Except Error (List UInt8) :=
  if input = [] ∨ unitSize < input.length then .error .invalidArgument
  else
    let payload := (Encoder.run input input.length .start).payload
    if payload.length < input.length then
      let header := (payload.length - 1) ||| 0xB000
      .ok (leByte header 0 :: leByte header 1 :: payload)
    else
      .ok (leByte 0x3FFF 0 :: leByte 0x3FFF 1 ::
        (input ++ replicate (unitSize - input.length) 0))

end

/-! ### Matches -/

section Match

variable {input : List UInt8} {candidate at' limit left length maxDistance maxLength : ℕ}
  {c : Chains}

theorem indexFor_le (produced : ℕ) : indexFor produced ≤ 8 :=
  Nat.le_trans (takeWhile_sublist _).length_le (by decide)

/-- A length is common, up to a limit. -/
structure Common (input : List UInt8) (candidate at' limit length : ℕ) : Prop where
  le : length ≤ limit
  eq : ∀ k < length, input[candidate + k]? = input[at' + k]?

theorem common_commonLength (h : Common input candidate at' limit length)
    (hlf : length + left = limit) :
    Common input candidate at' limit (commonLength input candidate at' left length) := by
  induction left generalizing length with
  | zero => exact h
  | succ n ih =>
    rw [commonLength]
    split
    · refine ih ⟨by omega, fun k hk => ?_⟩ (by omega)
      by_cases hlt : k < length
      · exact h.eq k hlt
      · rwa [show k = length by omega]
    · exact h

/-- What the matcher answers: nothing, or a match behind the position. -/
def IsMatch (input : List UInt8) (at' maxDistance limit : ℕ) (r : ℕ × ℕ) : Prop :=
  r.2 = 0 ∨ 0 < r.1 ∧ r.1 ≤ at' ∧ r.1 ≤ maxDistance ∧ Common input (at' - r.1) at' limit r.2

/-- The chains name positions below a bound. -/
structure Chains.Behind (c : Chains) (bound : ℕ) : Prop where
  head : ∀ hash p, c.head hash = some p → p < bound
  chain : ∀ i p, c.chain i = some p → p < bound

theorem Chains.Behind.insert (h : c.Behind at') : (c.insert input at').Behind (at' + 1) := by
  rw [Chains.insert]
  split
  · exact ⟨fun hash p hp => Nat.lt_succ_of_lt (h.head hash p hp),
      fun i p hp => Nat.lt_succ_of_lt (h.chain i p hp)⟩
  refine ⟨fun hash p hp => ?_, fun i p hp => ?_⟩
  · simp only [Function.update_apply] at hp
    split at hp
    · cases hp
      exact Nat.lt_succ_self _
    · exact Nat.lt_succ_of_lt (h.head hash p hp)
  · simp only [Function.update_apply] at hp
    split at hp
    · exact Nat.lt_succ_of_lt (h.head _ p hp)
    · exact Nat.lt_succ_of_lt (h.chain i p hp)

theorem Chains.Behind.insertAll (h : c.Behind at') (n : ℕ) :
    ((List.range' at' n).foldl (fun c i => c.insert input i) c).Behind (at' + n) := by
  induction n generalizing c at' with
  | zero => exact h
  | succ n ih =>
    rw [show at' + (n + 1) = at' + 1 + n by omega]
    exact ih h.insert

theorem isMatch_searchChain {hops : ℕ} {first : Option ℕ} {best : ℕ × ℕ}
    (hchn : ∀ i p, c.chain i = some p → p < at') (hfirst : ∀ p, first = some p → p < at')
    (hbest : IsMatch input at' maxDistance limit best) : IsMatch input at' maxDistance limit
      (searchChain input at' maxDistance limit c.chain hops first best) := by
  induction hops generalizing first best with
  | zero => exact hbest
  | succ n ih =>
    cases first with
    | none => exact hbest
    | some candidate =>
      have hlt := hfirst candidate rfl
      rw [searchChain]
      by_cases hfar : maxDistance < at' - candidate
      · rw [if_pos hfar]
        exact hbest
      rw [if_neg hfar]
      -- the bytes at the candidate agree with those at the position as far as was compared
      have hcom : Common input candidate at' limit
          (commonLength input candidate at' limit 0) :=
        common_commonLength ⟨Nat.zero_le _, fun k hk => absurd hk (by omega)⟩ (by omega)
      have hmat : IsMatch input at' maxDistance limit
          (at' - candidate, commonLength input candidate at' limit 0) :=
        Or.inr ⟨by omega, by omega, by omega,
          by rwa [show at' - (at' - candidate) = candidate by omega]⟩
      simp only
      split
      · split
        · exact hmat
        · exact ih (hchn candidate) hmat
      · exact ih (hchn candidate) hbest

theorem isMatch_longestMatch (h : c.Behind at') :
    IsMatch input at' maxDistance (min maxLength (input.length - at'))
      (longestMatch input at' maxDistance maxLength c) := by
  rw [longestMatch]
  split
  · exact Or.inl rfl
  · exact isMatch_searchChain h.chain (h.head _) (Or.inl rfl)

end Match

/-! ### What the decoder makes of an item -/

section Item

variable {room bit : ℕ} {flags byte low high : UInt8} {out rest : List UInt8}

theorem expandFrom_literal (hbit : flags.toNat.testBit bit = false) (hrm : out.length < room) :
    expandFrom room (byte :: rest) (some (flags, bit)) out =
      expandFrom room rest (nextItem flags bit) (out ++ [byte]) := by
  rw [expandFrom.eq_def]
  simp only [hbit, Bool.false_eq_true, if_false]
  rw [if_neg (by omega)]

theorem expandFrom_pair (hbit : flags.toNat.testBit bit = true) {out' : List UInt8}
    (hpr : expandPair room low high out = .ok out') :
    expandFrom room (low :: high :: rest) (some (flags, bit)) out =
      expandFrom room rest (nextItem flags bit) out' := by
  rw [expandFrom]
  simp only [hbit, if_true, hpr]

/-- The pair of a match is taken apart again. -/
theorem expandPair_match {input : List UInt8} {pos distance length : ℕ}
    (hrm : input.length ≤ room) (hmat : IsMatch input pos (1 <<< (4 + indexFor pos))
      (min (1 <<< (12 - indexFor pos) + 2) (input.length - pos)) (distance, length))
    (hle : 3 ≤ length) (hpos : pos ≤ input.length) :
    let pair := (distance - 1) <<< (12 - indexFor pos) ||| (length - 3)
    expandPair room (leByte pair 0) (leByte pair 1) (input.take pos) =
      .ok (input.take (pos + length)) := by
  obtain ⟨hdpos, hdle, hdmax, hcom⟩ := hmat.resolve_left (by omega)
  have hidx := indexFor_le pos
  have hlmt := hcom.le
  have hlen : (input.take pos).length = pos := length_take_of_le hpos
  generalize hs : 12 - indexFor pos = shift at *
  -- the pair is the distance in the high bits and the length in the low ones
  have hlow : length - 3 < 2 ^ shift := by
    omega
  have hor : (distance - 1) <<< shift ||| (length - 3) =
      (distance - 1) * 2 ^ shift + (length - 3) := by
    rw [← Nat.shiftLeft_add_eq_or_of_lt hlow, Nat.shiftLeft_eq]
  have hbd : (distance - 1) * 2 ^ shift + (length - 3) < 256 * 256 := by
    have hpow : 2 ^ (4 + indexFor pos) * 2 ^ shift = 256 * 256 := by
      rw [← Nat.pow_add, show 4 + indexFor pos + shift = 16 by omega]
    calc (distance - 1) * 2 ^ shift + (length - 3)
        < (distance - 1) * 2 ^ shift + 2 ^ shift := Nat.add_lt_add_left hlow _
      _ = (distance - 1 + 1) * 2 ^ shift := by rw [Nat.add_mul, Nat.one_mul]
      _ ≤ 2 ^ (4 + indexFor pos) * 2 ^ shift := Nat.mul_le_mul_right _ (by omega)
      _ = 256 * 256 := hpow
  rw [hor]
  generalize hp : (distance - 1) * 2 ^ shift + (length - 3) = pair at *
  have hbytes : (leByte pair 0).toNat + 256 * (leByte pair 1).toNat = pair := by
    rw [toNat_leByte, toNat_leByte]
    omega
  have hdiv : pair >>> shift = distance - 1 := by
    rw [Nat.shiftRight_eq_div_pow, ← hp, Nat.mul_comm, Nat.mul_add_div (Nat.two_pow_pos _),
      Nat.div_eq_of_lt hlow, Nat.add_zero]
  have hmod : pair % 2 ^ shift = length - 3 := by
    rw [← hp, Nat.mul_comm, Nat.mul_add_mod, Nat.mod_eq_of_lt hlow]
  simp only [expandPair, hbytes, hlen, hs, hdiv, hmod]
  rw [if_neg (by omega), show 1 + (distance - 1) = distance by omega,
    show 3 + (length - 3) = length by omega]
  exact congrArg _ (copyBack_take hdpos hdle (by omega) (by omega) hcom.eq)

end Item

/-! ### The room of the decoder -/

section Room

variable {room room' : ℕ} {payload out out' : List UInt8} {place : Option (UInt8 × ℕ)}

theorem isPrefix_expandPair {low high : UInt8} (h : expandPair room low high out = .ok out') :
    out <+: out' := by
  simp only [expandPair] at h
  split at h
  · cases h
  cases h
  exact isPrefix_copyBack

/-- **What the items keep**, the expansion keeps. -/
theorem expandFrom_keeps {P : List UInt8 → Prop}
    (hpr : ∀ {low high out out'}, P out → expandPair room low high out = .ok out' → P out')
    (hby : ∀ {byte out}, P out → out.length ≠ room → P (out ++ [byte])) (hout : P out)
    (h : expandFrom room payload place out = .ok out') : P out' := by
  fun_induction expandFrom room payload place out with
  | case1 out | case3 flags bit out hbit | case8 => exact (Except.ok.inj h) ▸ hout
  | case2 flags bit out hbit => cases h
  | case5 => cases h
  | case6 => cases h
  | case4 byte payload out ih => exact ih hout h
  | case7 byte flags bit out hbit high payload out₁ hrun ih => exact ih (hpr hout hrun) h
  | case9 byte payload flags bit out hbit hrm ih => exact ih (hby hout hrm) h

theorem isPrefix_expandFrom (h : expandFrom room payload place out = .ok out') : out <+: out' :=
  expandFrom_keeps (fun hout hpr => hout.trans (isPrefix_expandPair hpr))
    (fun hout _ => hout.trans (prefix_append _ _)) prefix_rfl h

/-- A full buffer stays as it is. -/
theorem expandFrom_full (hfu : out.length = room)
    (h : expandFrom room payload place out = .ok out') : out' = out := by
  refine expandFrom_keeps (P := (· = out)) (fun hout hpr => ?_) (fun hout hrm => ?_) rfl h
  · subst hout
    simp only [expandPair] at hpr
    split at hpr
    · cases hpr
    rw [copyBack_full (by omega)] at hpr
    exact (Except.ok.inj hpr).symm
  · exact absurd (hout ▸ hfu) hrm

theorem length_expandFrom_le (hle : out.length ≤ room)
    (h : expandFrom room payload place out = .ok out') : out'.length ≤ room := by
  refine expandFrom_keeps (P := (·.length ≤ room)) (fun hout hpr => ?_) (fun hout hrm => ?_)
    hle h
  · simp only [expandPair] at hpr
    split at hpr
    · cases hpr
    · exact (Except.ok.inj hpr) ▸ length_copyBack_le hout
  · simp only [length_append, length_singleton]
    omega

/-- A pair that does not fill the smaller room is the same in the larger one. -/
theorem expandPair_room {low high : UInt8} (hrm : room ≤ room') (hle : out.length ≤ room)
    (h : expandPair room low high out = .ok out') : ∃ out₂,
      expandPair room' low high out = .ok out₂ ∧ out' = out₂.take room := by
  simp only [expandPair] at h ⊢
  split at h
  · cases h
  rename_i hlt
  rw [if_neg hlt]
  exact ⟨_, rfl, by rw [← Except.ok.inj h]; exact copyBack_take_room hrm hle⟩

/-- **A smaller room cuts the output.** -/
theorem expandFrom_room (hrm : room ≤ room') (hle : out.length ≤ room) {out₁ out₂ : List UInt8}
    (h₁ : expandFrom room payload place out = .ok out₁)
    (h₂ : expandFrom room' payload place out = .ok out₂) : out₁ = out₂.take room := by
  fun_induction expandFrom room payload place out with
  | case1 out =>
    cases h₁
    cases h₂
    exact (take_of_length_le hle).symm
  | case2 flags bit out hbit => cases h₁
  | case3 flags bit out hbit =>
    rw [expandFrom, if_neg hbit] at h₂
    cases h₁
    cases h₂
    exact (take_of_length_le hle).symm
  | case4 byte payload out ih => exact ih hle h₁ (by rwa [expandFrom] at h₂)
  | case5 => cases h₁
  | case6 => cases h₁
  | case7 byte flags bit out hbit high payload out' hpr ih =>
    obtain ⟨out'', hpr', rfl⟩ := expandPair_room hrm hle hpr
    rw [expandFrom_pair hbit hpr'] at h₂
    by_cases hfu : room ≤ out''.length
    · -- the smaller room is full after this pair
      have hlen : (out''.take room).length = room := length_take_of_le hfu
      obtain rfl := expandFrom_full hlen h₁
      obtain ⟨rest, rfl⟩ := isPrefix_expandFrom h₂
      rw [take_append_of_le_length hfu]
    · rw [take_of_length_le (by omega)] at ih h₁
      exact ih (by omega) h₁ h₂
  | case8 byte payload flags bit out hbit hfu =>
    cases h₁
    obtain ⟨rest, rfl⟩ := isPrefix_expandFrom h₂
    rw [take_left' hfu]
  | case9 byte payload flags bit out hbit hfu ih =>
    have hclear : flags.toNat.testBit bit = false := by simpa using hbit
    rw [expandFrom_literal hclear (by omega)] at h₂
    exact ih (by simp only [length_append, length_singleton]; omega) h₁ h₂

/-- What a chunk decodes to in a smaller room is the beginning of what it decodes to. -/
theorem expand_room {unit : Unit} {out₁ out₂ : List UInt8} (hrm : room ≤ room')
    (h₁ : expand unit payload room = .ok out₁) (h₂ : expand unit payload room' = .ok out₂) :
    out₁ = out₂.take room := by
  have hmin : min room unitSize ≤ min room' unitSize := by omega
  simp only [expand] at h₁ h₂
  cases hc : unit.compressed with
  | true =>
    rw [hc] at h₁ h₂
    have hlen := length_expandFrom_le (Nat.zero_le _) h₂
    rw [expandFrom_room hmin (Nat.zero_le _) h₁ h₂, take_eq_take_iff]
    omega
  | false =>
    simp only [hc, Bool.false_eq_true, if_false, Except.ok.injEq] at h₁ h₂
    subst h₁ h₂
    rw [take_take]
    congr 1
    omega

/-- What a chunk decodes to in any room is cut from what it decodes to in the room of a chunk. -/
theorem expand_eq_take {unit : Unit} {out out' : List UInt8}
    (h : expand unit payload unitSize = .ok out) (h' : expand unit payload room = .ok out') :
    out' = out.take room := by
  by_cases hrm : room ≤ unitSize
  · exact expand_room hrm h' h
  have hsm : expand unit payload room = expand unit payload unitSize := by
    simp only [expand, Nat.min_self, Nat.min_eq_right (show unitSize ≤ room by omega)]
  rw [hsm, h, Except.ok.injEq] at h'
  have hcut := expand_room (Nat.le_refl unitSize) h h
  have hlen : out.length ≤ unitSize := by
    rw [hcut]
    exact length_take_le ..
  rw [← h', take_of_length_le (by omega)]

end Room

/-! ### What the decoder makes of the encoder's payload -/

section Encoder

variable {input : List UInt8} {room : ℕ} {e : Encoder}

/-- The decoder comes to an item, from a payload whose byte of flags may still change in the
bits from that item on. -/
def LeadsTo (room : ℕ) (payload : List UInt8) (flagsAt bit : ℕ) (out : List UInt8) : Prop :=
  ∀ flags : UInt8, (∀ i < bit, flags.toNat.testBit i = (payload.getD flagsAt 0).toNat.testBit i) →
    ∀ rest, expandFrom room (payload.set flagsAt flags ++ rest) none [] =
      expandFrom room rest (some (flags, bit)) out

/-- **The invariant of the encoder.** -/
structure Encoder.Sound (input : List UInt8) (room : ℕ) (e : Encoder) : Prop where
  le : e.produced ≤ input.length
  bit_lt : e.bit < 8
  behind : e.chains.Behind e.produced
  flagsAt_lt : e.bit ≠ 0 → e.flagsAt < e.payload.length
  clear : e.bit ≠ 0 → ∀ i, e.bit ≤ i → (e.payload.getD e.flagsAt 0).toNat.testBit i = false
  closed : e.bit = 0 → ∀ rest, expandFrom room (e.payload ++ rest) none [] =
    expandFrom room rest none (input.take e.produced)
  opened : e.bit ≠ 0 → LeadsTo room e.payload e.flagsAt e.bit (input.take e.produced)

theorem testBit_setFlag {bit : ℕ} (hbit : bit < 8) (flags : UInt8) (i : ℕ) :
    (setFlag bit flags).toNat.testBit i = (flags.toNat.testBit i || decide (bit = i)) := by
  have hlt : flags.toNat ||| 1 <<< bit < 2 ^ 8 :=
    Nat.or_lt_two_pow flags.toNat_lt (by
      rw [Nat.one_shiftLeft]
      exact Nat.pow_lt_pow_right (by omega) hbit)
  rw [setFlag, UInt8.toNat_ofNat_of_lt' hlt, Nat.testBit_or, Nat.one_shiftLeft, Nat.testBit_two_pow]

/-- A group is open, with its byte of flags in the payload. -/
theorem Encoder.Sound.openGroup (h : e.Sound input room) : e.openGroup.2 < e.openGroup.1.length ∧
      (∀ i, e.bit ≤ i → (e.openGroup.1.getD e.openGroup.2 0).toNat.testBit i = false) ∧
      LeadsTo room e.openGroup.1 e.openGroup.2 e.bit (input.take e.produced) := by
  by_cases hbit : e.bit = 0
  · simp only [Encoder.openGroup, hbit, if_true]
    refine ⟨by simp, by simp, fun flags _ rest => ?_⟩
    rw [set_append_right _ _ (Nat.le_refl _), Nat.sub_self, set_cons_zero,
      append_assoc, singleton_append, h.closed hbit, expandFrom]
  · simp only [Encoder.openGroup, if_neg hbit]
    exact ⟨h.flagsAt_lt hbit, h.clear hbit, h.opened hbit⟩

/-- An item leads on to the next place. -/
theorem LeadsTo.item {payload bytes out out' : List UInt8} {flagsAt bit : ℕ} {flags : UInt8}
    (h : LeadsTo room payload flagsAt bit out) (hlt : flagsAt < payload.length)
    (hfl : ∀ i < bit, flags.toNat.testBit i = (payload.getD flagsAt 0).toNat.testBit i)
    (hitem : ∀ flags' : UInt8, flags'.toNat.testBit bit = flags.toNat.testBit bit → ∀ rest,
      expandFrom room (bytes ++ rest) (some (flags', bit)) out =
        expandFrom room rest (nextItem flags' bit) out') (flags' : UInt8)
    (hagr : ∀ i < bit + 1, flags'.toNat.testBit i = flags.toNat.testBit i) (rest : List UInt8) :
    expandFrom room ((payload.set flagsAt flags ++ bytes).set flagsAt flags' ++ rest) none [] =
      expandFrom room rest (nextItem flags' bit) out' := by
  rw [set_append_left _ _ (by simpa using hlt), set_set, append_assoc,
    h flags' (fun i hi => (hagr i (by omega)).trans (hfl i hi)),
    hitem flags' (hagr bit (by omega))]

/-- The encoder after an item whose bytes are known. -/
theorem Encoder.Sound.next (h : e.Sound input room) {bytes : List UInt8} {flags : UInt8}
    {length : ℕ} {chains : Chains} (hle : e.produced + length ≤ input.length)
    (hbeh : chains.Behind (e.produced + length)) (hfl : ∀ i < e.bit, flags.toNat.testBit i =
      (e.openGroup.1.getD e.openGroup.2 0).toNat.testBit i)
    (hclear : ∀ i, e.bit < i → flags.toNat.testBit i = false)
    (hitem : ∀ flags' : UInt8, flags'.toNat.testBit e.bit = flags.toNat.testBit e.bit → ∀ rest,
      expandFrom room (bytes ++ rest) (some (flags', e.bit)) (input.take e.produced) =
        expandFrom room rest (nextItem flags' e.bit) (input.take (e.produced + length))) :
    Encoder.Sound input room
      { payload := e.openGroup.1.set e.openGroup.2 flags ++ bytes
        flagsAt := e.openGroup.2
        bit := (e.bit + 1) % 8
        produced := e.produced + length
        chains := chains } := by
  obtain ⟨hlt, -, hleads⟩ := h.openGroup
  have hbit := h.bit_lt
  have hget : (e.openGroup.1.set e.openGroup.2 flags ++ bytes).getD e.openGroup.2 0 = flags := by
    rw [getD_eq_getElem?_getD, getElem?_append_left (by simpa using hlt),
      getElem?_set_self hlt, Option.getD_some]
  have hnx := hleads.item hlt hfl hitem
  refine ⟨hle, Nat.mod_lt _ (by decide), hbeh, fun _ => ?_, fun hne i hi => ?_,
    fun hzero rest => ?_, fun hne flags' hagr rest => ?_⟩
  · simp only [length_append, length_set]
    omega
  · simp only at hne hi ⊢
    rw [hget]
    exact hclear i (by omega)
  · -- the group is complete, and its flags are what they are
    have hset := hnx flags (fun _ _ => rfl) rest
    have hse : (e.openGroup.1.set e.openGroup.2 flags ++ bytes).set e.openGroup.2 flags =
        e.openGroup.1.set e.openGroup.2 flags ++ bytes := by
      rw [set_append_left _ _ (by simpa using hlt), set_set]
    rw [hse] at hset
    simp only at hzero
    rw [hset, nextItem, if_neg (by omega)]
  · simp only at hne hagr ⊢
    have hmod : (e.bit + 1) % 8 = e.bit + 1 := by omega
    rw [hmod] at hagr ⊢
    rw [hget] at hagr
    rw [hnx flags' hagr rest, nextItem, if_pos (by omega)]

theorem Encoder.Sound.step (h : e.Sound input room) (hrm : input.length ≤ room)
    (hmo : e.produced < input.length) : (e.step input).Sound input room ∧
      e.produced < (e.step input).produced := by
  obtain ⟨hlt, hclear, -⟩ := h.openGroup
  have hbit := h.bit_lt
  have hlen : (input.take e.produced).length = e.produced := length_take_of_le h.le
  have hmat : IsMatch input e.produced (1 <<< (4 + indexFor e.produced))
      (min (1 <<< (12 - indexFor e.produced) + 2) (input.length - e.produced)) (longestMatch input
        e.produced (1 <<< (4 + indexFor e.produced)) (1 <<< (12 - indexFor e.produced) + 2)
        e.chains) := isMatch_longestMatch h.behind
  rw [Encoder.step]
  generalize longestMatch input e.produced (1 <<< (4 + indexFor e.produced))
    (1 <<< (12 - indexFor e.produced) + 2) e.chains = found at hmat ⊢
  obtain ⟨distance, length⟩ := found
  simp only
  by_cases hpr : 3 ≤ length
  · rw [if_pos hpr]
    have hcom := (hmat.resolve_left (by omega)).2.2.2.le
    refine ⟨?_, by simp only; omega⟩
    rw [modify_eq_set_getElem?, getElem?_eq_getElem hlt]
    have hby : e.openGroup.1.getD e.openGroup.2 0 = e.openGroup.1[e.openGroup.2] := by
      rw [getD_eq_getElem?_getD, getElem?_eq_getElem hlt, getD_some]
    rw [hby] at hclear
    refine h.next (by omega) (h.behind.insertAll length) (fun i hi => ?_) (fun i hi => ?_)
      fun flags hfl rest => ?_
    · rw [hby, testBit_setFlag hbit, decide_eq_false (by omega), Bool.or_false]
    · rw [testBit_setFlag hbit, decide_eq_false (by omega), Bool.or_false, hclear i (by omega)]
    · refine expandFrom_pair ?_ (expandPair_match hrm hmat hpr h.le)
      simp [hfl, testBit_setFlag hbit]
  · rw [if_neg hpr]
    refine ⟨?_, by simp only; omega⟩
    have hse : e.openGroup.1.set e.openGroup.2 (e.openGroup.1.getD e.openGroup.2 0) =
        e.openGroup.1 := by
      rw [getD_eq_getElem?_getD, getElem?_eq_getElem hlt, getD_some, set_getElem_self]
    have hbeh : (e.chains.insert input e.produced).Behind (e.produced + 1) := h.behind.insert
    have hitem : ∀ flags' : UInt8, flags'.toNat.testBit e.bit =
        (e.openGroup.1.getD e.openGroup.2 0).toNat.testBit e.bit → ∀ rest,
        expandFrom room ([input.getD e.produced 0] ++ rest) (some (flags', e.bit))
          (input.take e.produced) =
        expandFrom room rest (nextItem flags' e.bit) (input.take (e.produced + 1)) := by
      intro flags hfl rest
      rw [singleton_append, expandFrom_literal (hfl.trans (hclear _ (Nat.le_refl _)))
        (by omega), getD_eq_getElem?_getD, getElem?_eq_getElem hmo,
        getD_some, ← take_succ_eq_append_getElem]
    have hsnd := h.next (by omega) hbeh (fun _ _ => rfl) (fun i hi => hclear i (by omega)) hitem
    rwa [hse] at hsnd

theorem Encoder.sound_start : Encoder.start.Sound input room :=
  ⟨Nat.zero_le _, by decide, ⟨nofun, nofun⟩,
    fun h => absurd rfl h, fun h => absurd rfl h, fun _ _ => rfl, fun h => absurd rfl h⟩

/-- The encoder goes on to the end of its input. -/
theorem Encoder.Sound.run (h : e.Sound input room) (hrm : input.length ≤ room) {rounds : ℕ}
    (hrn : input.length ≤ e.produced + rounds) : (Encoder.run input rounds e).Sound input room ∧
      (Encoder.run input rounds e).produced = input.length := by
  induction rounds generalizing e with
  | zero => exact ⟨h, Nat.le_antisymm h.le hrn⟩
  | succ n ih =>
    rw [Encoder.run]
    split
    · rename_i hmo
      obtain ⟨hst, hlt⟩ := h.step hrm hmo
      exact ih hst (by omega)
    · exact ⟨h, Nat.le_antisymm h.le (by omega)⟩

/-- **The payload of the encoder decodes to its input.** -/
theorem expandFrom_run (hrm : input.length ≤ room) :
    expandFrom room (Encoder.run input input.length .start).payload none [] = .ok input := by
  obtain ⟨h, hend⟩ := Encoder.sound_start.run hrm
    (show input.length ≤ Encoder.start.produced + input.length by omega)
  generalize Encoder.run input input.length .start = e at h hend
  have htake : input.take e.produced = input := by rw [hend, take_length]
  by_cases hbit : e.bit = 0
  · have hcl := h.closed hbit []
    rwa [append_nil, htake] at hcl
  -- the last group is not full, and the flags of the items that are not there are clear
  have hlt := h.flagsAt_lt hbit
  have hse : e.payload.set e.flagsAt (e.payload.getD e.flagsAt 0) = e.payload := by
    rw [getD_eq_getElem?_getD, getElem?_eq_getElem hlt, getD_some, set_getElem_self]
  have hopn := h.opened hbit _ (fun _ _ => rfl) []
  rw [hse, htake, expandFrom, h.clear hbit _ (Nat.le_refl _)] at hopn
  simpa using hopn

end Encoder

/-! ### Chunks -/

theorem parseUnit_leByte {header : ℕ} (hlt : header < 0x10000) (hpos : 0 < header) :
    parseUnit (leByte header 0) (leByte header 1) = ⟨3 + header % 0x1000, header.testBit 15⟩ ∧
    isPadding (leByte header 0) (leByte header 1) = false := by
  have hsum : (leByte header 0).toNat + 256 * (leByte header 1).toNat = header := by
    rw [toNat_leByte, toNat_leByte]
    omega
  refine ⟨by rw [parseUnit, hsum], ?_⟩
  rw [isPadding, Bool.and_eq_false_iff, beq_eq_false_iff_ne, beq_eq_false_iff_ne]
  by_contra hcon
  simp only [not_or, not_not] at hcon
  rw [hcon.1, hcon.2] at hsum
  simp at hsum
  omega

/-- What a chunk is, in the stream and to the decoder. -/
structure Decodes (low high : UInt8) (payload out : List UInt8) : Prop where
  not_padding : isPadding low high = false
  length : (parseUnit low high).length = payload.length + 2
  expand : Lznt1.expand (parseUnit low high) payload unitSize = .ok out

/-- **A chunk decodes to its input**, with zeros up to a whole chunk if it was stored as it is. -/
theorem compressUnit_spec {input : List UInt8} (hne : input ≠ []) (hle : input.length ≤ unitSize) :
    ∃ low high payload, compressUnit input = .ok (low :: high :: payload) ∧
      (payload.length < input.length ∧ Decodes low high payload input ∨
        (parseUnit low high).compressed = false ∧ payload.length = unitSize ∧
          Decodes low high payload (input ++ List.replicate (unitSize - input.length) 0)) := by
  have hcond : ¬(input = [] ∨ unitSize < input.length) := by
    rintro (h | h)
    · exact hne h
    · omega
  rw [compressUnit, if_neg hcond]
  have hrun := expandFrom_run hle
  simp only
  split
  · rename_i hlt
    generalize (Encoder.run input input.length .start).payload = payload at hrun hlt
    have hpay : 0 < payload.length := by
      rw [length_pos_iff]
      rintro rfl
      exact hne (Except.ok.inj hrun).symm
    simp only [unitSize] at hle
    have hhdr : (payload.length - 1) ||| 0xB000 = 0xB000 + (payload.length - 1) := by
      rw [Nat.or_comm, show 0xB000 = 11 <<< 12 by rfl,
        ← Nat.shiftLeft_add_eq_or_of_lt (show payload.length - 1 < 2 ^ 12 by omega)]
    obtain ⟨hprs, hpad⟩ :=
      @parseUnit_leByte (0xB000 + (payload.length - 1)) (by omega) (by omega)
    rw [hhdr]
    refine ⟨_, _, payload, rfl, Or.inl ⟨hlt, hpad, ?_, ?_⟩⟩
    · rw [hprs]
      simp only
      omega
    have hbit : (0xB000 + (payload.length - 1)).testBit 15 = true := by
      rw [Nat.testBit_eq_decide_div_mod_eq, decide_eq_true_eq]
      omega
    rw [hprs, hbit]
    simpa [expand] using hrun
  · obtain ⟨hprs, hpad⟩ := @parseUnit_leByte 0x3FFF (by decide) (by decide)
    have hlen : (input ++ List.replicate (unitSize - input.length) 0).length = unitSize := by
      rw [length_append, length_replicate]
      omega
    refine ⟨_, _, _, rfl, Or.inr ⟨by rfl, hlen, hpad, ?_, ?_⟩⟩
    · rw [hlen]
      rfl
    · rw [expand, if_neg (by decide), take_of_length_le (by omega)]

/-- **The round trip of a chunk.** What is appended for a non-empty input of at most 4096 bytes is
at most 4098 bytes long, its header says how long it is and is not padding, and it expands to the
input, with more bytes behind it only if it was stored as it is. -/
theorem compressUnit_roundTrip {input : List UInt8} (hne : input ≠ [])
    (hle : input.length ≤ unitSize) :
    ∃ low high payload out, compressUnit input = .ok (low :: high :: payload) ∧
      payload.length + 2 ≤ 4098 ∧ (parseUnit low high).length = payload.length + 2 ∧
      isPadding low high = false ∧ expand (parseUnit low high) payload unitSize = .ok out ∧
      input.length ≤ out.length ∧ out.take input.length = input ∧
      ((parseUnit low high).compressed = true → out.length = input.length) := by
  obtain ⟨low, high, payload, hchk, ⟨hlt, h⟩ | ⟨hpln, hlen, h⟩⟩ := compressUnit_spec hne hle
  · exact ⟨low, high, payload, input, hchk, by simp only [unitSize] at hle; omega, h.length,
      h.not_padding, h.expand, Nat.le_refl _, take_length, fun _ => rfl⟩
  · exact ⟨low, high, payload, _, hchk, by simp [hlen, unitSize], h.length, h.not_padding,
      h.expand, by simp, by simp, fun hc => by simp [hpln] at hc⟩

/-- Twelve equal bytes are one byte and a back-reference, and expand to what they were. -/
theorem compressUnit_roundTrip_twelve :
    compressUnit (replicate 12 7) = .ok [3, 176, 2, 7, 8, 0] ∧
      ∃ out, expand (parseUnit 3 176) [2, 7, 8, 0] unitSize = .ok out ∧
        out.take 12 = replicate 12 7 ∧ out.length = 12 := by
  have hpacked : compressUnit (replicate 12 7) = .ok [3, 176, 2, 7, 8, 0] := by decide +kernel
  obtain ⟨_, _, _, out, hchk, -, -, -, hexpand, -, htake, hlength⟩ :=
    @compressUnit_roundTrip (replicate 12 7) (by decide) (by decide)
  cases hpacked.symm.trans hchk
  exact ⟨hpacked, out, hexpand, htake, hlength (by decide)⟩

end Protofire.Ntfs.Lznt1
