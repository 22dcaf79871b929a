import Protofire.Network.Fragments

/-!
# The round trip of a fragmented datagram

A payload is *divided* into parts, each of which travels in a fragment of its own; all parts but
the last are some whole blocks. Whatever the order in which the fragments arrive, and whatever
fragments of other datagrams arrive between them, the reassembly answers nothing until the last
of them is there, then answers the payload, and keeps nothing of it.

A fragment that is not there yet has a block that has not arrived, or it is the one that tells the
length. So an entry is complete when all the fragments are there and not before
(`Division.complete_iff`), and what a complete entry answers is made of the fragments, which agree
with the payload (`Division.eq_payload`).
-/

namespace Protofire.Network.Fragments

open Pieces List Piece ReassemblyEntry

/-! ### Divisions -/

/-- The pieces of a payload that is sent in parts, from a place on. -/
def divide (offset : ℕ) : List (List UInt8) → List Piece
  | [] => []
  | [data] => [⟨offset, data, false⟩]
  | data :: part :: parts =>
    ⟨offset, data, true⟩ :: divide (offset + data.length / 8) (part :: parts)

/-- **The parts of a payload**: they follow one another, and all but the last are some whole
blocks. -/
structure Parts (payload : List UInt8) (parts : List (List UInt8)) : Prop where
  ne_nil : parts ≠ []
  flatten : parts.flatten = payload
  whole : ∀ part ∈ parts.dropLast, part ≠ [] ∧ part.length % 8 = 0

/-- **What is true of the pieces of a payload**, from a place on. -/
structure Division (offset : ℕ) (payload : List UInt8) (pieces : List Piece) : Prop where
  apart : pieces.Pairwise BlocksApart
  single : pieces.Pairwise fun p q => p.more = true ∨ q.more = true
  last : ∃ p ∈ pieces, p.more = false
  ended : ∀ p ∈ pieces, p.more = false → p.stop = payload.length
  filled : ∀ p ∈ pieces, p.more = true → p.data ≠ [] ∧ p.data.length % 8 = 0
  inside : ∀ p ∈ pieces, offset ≤ p.offset ∧ p.stop ≤ payload.length
  agrees : ∀ p ∈ pieces, Agrees payload p.start p.data
  covered : ∀ block, offset ≤ block → block < (payload.length + 7) / 8 →
    ∃ p ∈ pieces, p.Occupies block

section Divide

variable {offset : ℕ} {payload before data : List UInt8} {pieces : List Piece}

/-- The last part alone. -/
theorem division_singleton (hbef : before.length = offset * 8) :
    Division offset (before ++ data) [⟨offset, data, false⟩] := by
  refine ⟨pairwise_singleton _ _, pairwise_singleton _ _, ⟨_, mem_singleton_self _, rfl⟩, ?_, ?_,
    ?_, ?_, fun block hle hlt => ⟨_, mem_singleton_self _, ?_⟩⟩
  · simp [stop, start, hbef]
  · simp
  · simp [stop, start, hbef]
  · simp only [mem_singleton, forall_eq]
    intro i hi _
    rw [start, ← hbef, getElem?_append_right (by omega), Nat.add_sub_cancel_left]
  · simp only [Occupies, blockCount]
    rw [length_append] at hlt
    omega

/-- A part in front of others. -/
theorem Division.cons (h : Division (offset + data.length / 8) (before ++ data ++ payload) pieces)
    (hbef : before.length = offset * 8) (hdt : data ≠ [] ∧ data.length % 8 = 0) :
    Division offset (before ++ data ++ payload) (⟨offset, data, true⟩ :: pieces) := by
  have hbks : (⟨offset, data, true⟩ : Piece).blockCount = data.length / 8 := by
    show (data.length + 7) / 8 = data.length / 8
    omega
  have hln : (before ++ data ++ payload).length =
      offset * 8 + data.length + payload.length := by
    rw [length_append, length_append, hbef]
  refine ⟨pairwise_cons.mpr ⟨fun q hq block hp hq' => ?_, h.apart⟩,
    pairwise_cons.mpr ⟨fun _ _ => Or.inl rfl, h.single⟩, ?_, ?_, ?_, ?_, ?_,
    fun block hle hlt => ?_⟩
  · have hfrom := (h.inside q hq).1
    simp only [Occupies] at hp hq'
    omega
  · obtain ⟨p, hp, hmo⟩ := h.last
    exact ⟨p, mem_cons_of_mem _ hp, hmo⟩
  · exact forall_mem_cons.mpr ⟨by simp, h.ended⟩
  · exact forall_mem_cons.mpr ⟨fun _ => hdt, h.filled⟩
  · refine forall_mem_cons.mpr ⟨⟨Nat.le_refl _, ?_⟩, fun p hp => ⟨?_, (h.inside p hp).2⟩⟩
    · rw [hln, stop]
      exact Nat.le_add_right _ _
    · exact Nat.le_trans (Nat.le_add_right _ _) (h.inside p hp).1
  · refine forall_mem_cons.mpr ⟨fun i hi _ => ?_, h.agrees⟩
    rw [start, ← hbef, append_assoc, getElem?_append_right (by omega),
      Nat.add_sub_cancel_left, getElem?_append_left hi]
  · by_cases hfirst : block < offset + data.length / 8
    · refine ⟨_, mem_cons_self, hle, ?_⟩
      rw [hbks]
      exact hfirst
    · obtain ⟨p, hp, hocc⟩ := h.covered block (Nat.le_of_not_lt hfirst) hlt
      exact ⟨p, mem_cons_of_mem _ hp, hocc⟩

/-- **The pieces of a divided payload.** -/
theorem division_divide {parts : List (List UInt8)} (before : List UInt8)
    (hbef : before.length = offset * 8) (hne : parts ≠ [])
    (hwhole : ∀ part ∈ parts.dropLast, part ≠ [] ∧ part.length % 8 = 0) :
    Division offset (before ++ parts.flatten) (divide offset parts) := by
  induction parts generalizing offset before with
  | nil => exact absurd rfl hne
  | cons data parts ih =>
    rcases parts with _ | ⟨part, parts⟩
    · rw [flatten_cons, flatten_nil, append_nil]
      exact division_singleton hbef
    rw [dropLast_cons_cons, forall_mem_cons] at hwhole
    have hlen : (before ++ data).length = (offset + data.length / 8) * 8 := by
      rw [length_append]
      omega
    have hre := ih (before ++ data) hlen (cons_ne_nil _ _) hwhole.2
    rw [flatten_cons, ← append_assoc]
    exact hre.cons hbef hwhole.1

theorem Parts.division {parts : List (List UInt8)} (h : Parts payload parts) :
    Division 0 payload (divide 0 parts) := by
  have hdivi : Division 0 ([] ++ parts.flatten) (divide 0 parts) :=
    division_divide [] rfl h.ne_nil h.whole
  rwa [h.flatten] at hdivi

/-- The order of the pieces does not matter. -/
theorem Division.perm {pieces' : List Piece} (h : Division offset payload pieces)
    (hpm : pieces.Perm pieces') : Division offset payload pieces' where
  apart := hpm.pairwise h.apart fun h => h.symm
  single := hpm.pairwise h.single fun h => h.symm
  last := by
    obtain ⟨p, hp, hmo⟩ := h.last
    exact ⟨p, hpm.mem_iff.mp hp, hmo⟩
  ended := fun p hp => h.ended p (hpm.mem_iff.mpr hp)
  filled := fun p hp => h.filled p (hpm.mem_iff.mpr hp)
  inside := fun p hp => h.inside p (hpm.mem_iff.mpr hp)
  agrees := fun p hp => h.agrees p (hpm.mem_iff.mpr hp)
  covered := fun block hle hlt => by
    obtain ⟨p, hp, hocc⟩ := h.covered block hle hlt
    exact ⟨p, hpm.mem_iff.mp hp, hocc⟩

end Divide

/-! ### An entry that has some of the pieces -/

section Entry

variable {η : Type} {entry : ReassemblyEntry η} {payload : List UInt8} {pieces rest : List Piece}
  {p : Piece}

/-- **What the pieces make is the payload.** -/
theorem Division.eq_payload (h : Division 0 payload pieces) {answer : List UInt8}
    (hmd : MadeOf answer pieces) : answer = payload := by
  obtain ⟨⟨p, hp, hmo, hsp⟩, hbytes⟩ := hmd
  have hln : answer.length = payload.length := hsp.symm.trans (h.ended p hp hmo)
  refine ext_getElem? fun k => ?_
  by_cases hk : k < answer.length
  · obtain ⟨before, q, after, rfl, ⟨hle, hlt⟩, hby, -⟩ := hbytes k hk
    have hagrs := h.agrees q (by simp) (k - q.start) (by rw [stop] at hlt; omega) (by omega)
    rw [Nat.add_sub_cancel' hle] at hagrs
    rw [hby, hagrs]
  · rw [getElem?_eq_none (Nat.le_of_not_lt hk), getElem?_eq_none (by omega)]

/-- A piece that has not arrived overlaps nothing that has. -/
theorem Division.not_overlaps (h : Division 0 payload (pieces ++ p :: rest))
    (hent : Collects entry pieces) : entry.overlaps p = false := by
  rw [overlaps_eq_false]
  intro block hocc
  by_contra hmk
  obtain ⟨q, hq, hocc'⟩ := (hent.bits block).mp (by simpa using hmk)
  exact (pairwise_append.mp h.apart).2.2 q hq p mem_cons_self block hocc' hocc

/-- Of two pieces, one of which has arrived, at most one is the last. -/
theorem Division.more_of_haveLast (h : Division 0 payload (pieces ++ rest))
    (hent : Collects entry pieces) (hla : entry.haveLast = true) : ∀ q ∈ rest, q.more = true := by
  intro q hq
  obtain ⟨r, hr, hmo⟩ := hent.last.mp hla
  rcases (pairwise_append.mp h.single).2.2 r hr q hq with hr' | hq'
  · rw [hmo] at hr'
    cases hr'
  · exact hq'

/-- **All blocks are there when all pieces are, and not before.** -/
theorem Division.complete_iff (h : Division 0 payload (pieces ++ rest))
    (hent : Collects entry pieces)
    (hln : entry.haveLast = true → entry.totalLength = payload.length) :
    entry.haveLast = true ∧ entry.allBlocks = true ↔ rest = [] := by
  constructor
  · rintro ⟨hla, hall⟩
    by_contra hre
    obtain ⟨q, hq⟩ := exists_mem_of_ne_nil rest hre
    have hmem : q ∈ pieces ++ rest := mem_append_right _ hq
    obtain ⟨hne, hmod⟩ := h.filled q hmem (h.more_of_haveLast hent hla q hq)
    have hpos := length_pos_iff.mpr hne
    -- the first block of the piece that is missing
    have hocc : q.Occupies q.offset := by
      simp only [Occupies, blockCount]
      omega
    have hins := (h.inside q hmem).2
    rw [stop, start] at hins
    have hmk := allBlocks_eq_true.mp hall q.offset (by rw [hln hla]; omega)
    obtain ⟨r, hr, hocc'⟩ := (hent.bits _).mp hmk
    exact (pairwise_append.mp h.apart).2.2 r hr q hq _ hocc' hocc
  · rintro rfl
    rw [append_nil] at h
    have hla := hent.last.mpr h.last
    refine ⟨hla, allBlocks_eq_true.mpr fun block hlt => (hent.bits block).mpr ?_⟩
    rw [hln hla] at hlt
    exact h.covered block (Nat.zero_le _) hlt

variable (hpos : 0 < payload.length) (hmax : payload.length ≤ maxDatagramSize)

include hpos hmax in
theorem Division.isComplete_iff (h : Division 0 payload (pieces ++ rest))
    (hent : Sound entry pieces) : entry.isComplete = true ↔ rest = [] := by
  have halc : entry.haveLast = true →
      entry.buffer ≠ none ∧ entry.totalLength = payload.length := by
    intro hla
    obtain ⟨p, hp, hmo⟩ := hent.last.mp hla
    have hsp := h.ended p (mem_append_left _ hp) hmo
    have hso := hent.allocated p hp hmo (by rw [hsp]; exact hmax)
    obtain ⟨⟨q, hq, hqmore, hqst⟩, -⟩ := hent.ended hso
    exact ⟨hso, hqst.symm.trans (h.ended q (mem_append_left _ hq) hqmore)⟩
  rw [← h.complete_iff hent.toCollects fun hla => (halc hla).2]
  simp only [isComplete, Bool.and_eq_true, decide_eq_true_eq]
  constructor
  · rintro ⟨⟨⟨hla, -⟩, -⟩, hall⟩
    exact ⟨hla, hall⟩
  rintro ⟨hla, hall⟩
  obtain ⟨hso, hln⟩ := halc hla
  exact ⟨⟨⟨hla, by omega⟩, Option.isSome_iff_ne_none.mpr hso⟩, hall⟩

include hpos in
theorem Division.isComplete6_iff (h : Division 0 payload (pieces ++ rest))
    (hent : Sound6 entry pieces) : entry.isComplete6 = true ↔ rest = [] := by
  have hln : entry.haveLast = true → entry.totalLength = payload.length := by
    intro hla
    obtain ⟨q, hq, hqmore, hqst⟩ := hent.ended hla
    exact hqst.symm.trans (h.ended q (mem_append_left _ hq) hqmore)
  rw [← h.complete_iff hent.toCollects hln]
  simp only [isComplete6, Bool.and_eq_true, decide_eq_true_eq]
  constructor
  · rintro ⟨⟨hla, -⟩, hall⟩
    exact ⟨hla, hall⟩
  rintro ⟨hla, hall⟩
  have := hln hla
  exact ⟨⟨hla, by omega⟩, hall⟩

/-- A piece of a division is careful. -/
theorem Division.careful (h : Division 0 payload (pieces ++ p :: rest))
    (hent : Sound entry pieces) : Careful entry p := by
  have hmem : p ∈ pieces ++ p :: rest := by simp
  refine ⟨fun hmo => (h.filled p hmem hmo).2, fun hso => Or.inl ?_⟩
  obtain ⟨⟨q, hq, hqmore, -⟩, -⟩ := hent.ended hso
  exact (h.filled p hmem (h.more_of_haveLast hent.toCollects
    (hent.last.mpr ⟨q, hq, hqmore⟩) p mem_cons_self)).2

theorem Division.careful6 (h : Division 0 payload (pieces ++ p :: rest))
    (hent : Sound6 entry pieces) : Careful6 entry p := by
  have hmem : p ∈ pieces ++ p :: rest := by simp
  refine ⟨fun hmo => (h.filled p hmem hmo).2, fun hla => Or.inl ⟨?_, ?_⟩⟩
  · exact h.more_of_haveLast hent.toCollects hla p mem_cons_self
  obtain ⟨q, hq, hqmore, hqst⟩ := hent.ended hla
  rw [← hqst, h.ended q (mem_append_left _ hq) hqmore]
  exact (h.inside p hmem).2

end Entry

/-- **A packet that is not a fragment** is all of its payload. -/
theorem Division.whole {payload : List UInt8} {log rest : List Piece} {p : Piece}
    (h : Division 0 payload (log ++ p :: rest)) (hp : p.IsWhole) :
    log = [] ∧ rest = [] ∧ p.data = payload := by
  obtain ⟨hmo, hoff⟩ := hp
  have hmem : p ∈ log ++ p :: rest := by simp
  have hln : p.data.length = payload.length := by
    have := h.ended p hmem hmo
    rw [stop, start] at this
    omega
  -- a second piece would have a block of the first
  have halone : ∀ q ∈ log ++ p :: rest, BlocksApart q p → ¬(q.more = true ∨ p.more = true) := by
    rintro q hq hap (hqmore | hpmore)
    · obtain ⟨hne, -⟩ := h.filled q hq hqmore
      have hpos := length_pos_iff.mpr hne
      have hins := (h.inside q hq).2
      rw [stop, start] at hins
      refine hap q.offset ?_ ?_
      · simp only [Occupies, blockCount]
        omega
      · simp only [Occupies, blockCount, hoff]
        omega
    · rw [hmo] at hpmore
      cases hpmore
  obtain ⟨-, hap, hap'⟩ := pairwise_append.mp h.apart
  obtain ⟨-, hsin, hsin'⟩ := pairwise_append.mp h.single
  refine ⟨eq_nil_iff_forall_not_mem.mpr fun q hq => ?_,
    eq_nil_iff_forall_not_mem.mpr fun q hq => ?_, ext_getElem? fun k => ?_⟩
  · exact halone q (by simp [hq]) (hap' q hq p mem_cons_self) (hsin' q hq p mem_cons_self)
  · exact halone q (by simp [hq]) ((pairwise_cons.mp hap).1 q hq).symm
      ((pairwise_cons.mp hsin).1 q hq).symm
  by_cases hk : k < p.data.length
  · have := h.agrees p hmem k hk (by rw [start]; omega)
    rwa [start, hoff, Nat.zero_add, eq_comm] at this
  · rw [getElem?_eq_none (Nat.le_of_not_lt hk), getElem?_eq_none (by omega)]

/-! ### The arrivals -/

section Arrivals

variable {κ η ι ο : Type}

/-- The cache after some packets. -/
def afterAll (process : Cache κ η → ι → Option ο × Cache κ η) (cache : Cache κ η)
    (arrivals : List ι) : Cache κ η :=
  arrivals.foldl (fun cache x => (process cache x).2) cache

/-- Packets of other keys leave an entry as it is. -/
theorem afterAll_of_ne {process : Cache κ η → ι → Option ο × Cache κ η} {keyOf : ι → κ} {key : κ}
    {cache : Cache κ η} {arrivals : List ι}
    (hoth : ∀ cache x, keyOf x ≠ key → (process cache x).2 key = cache key)
    (h : ∀ x ∈ arrivals, keyOf x ≠ key) : afterAll process cache arrivals key = cache key := by
  induction arrivals generalizing cache with
  | nil => rfl
  | cons x arrivals ih =>
    rw [forall_mem_cons] at h
    exact (ih h.2).trans (hoth cache x h.1)

variable [DecidableEq κ]

/-- The pieces of a datagram among the packets. -/
def piecesOf (keyOf : ι → κ) (pieceOf : ι → Piece) (key : κ) (arrivals : List ι) : List Piece :=
  (arrivals.filter fun x => keyOf x = key).map pieceOf

/-- **What the reassembly answers to the packets of a key**: nothing to all but the last, an answer
to the last; and in the end it keeps nothing. -/
def AnswersOnce (process : Cache κ η → ι → Option ο × Cache κ η) (keyOf : ι → κ) (key : κ)
    (cache : Cache κ η) (arrivals : List ι) (good : ο → Prop) : Prop :=
  (∀ before x after, arrivals = before ++ x :: after → keyOf x = key →
    ((∃ y ∈ after, keyOf y = key) → (process (afterAll process cache before) x).1 = none) ∧
    ((∀ y ∈ after, keyOf y ≠ key) →
      ∃ answer, (process (afterAll process cache before) x).1 = some answer ∧ good answer)) ∧
  afterAll process cache arrivals key = none

variable {process : Cache κ η → ι → Option ο × Cache κ η} {keyOf : ι → κ} {pieceOf : ι → Piece}
  {key : κ} {S : ReassemblyEntry η → List Piece → Prop} {payload : List UInt8} {cache : Cache κ η}
  {arrivals : List ι} {good : ο → Prop}

/-- **The step of the reassembly of a datagram**: the last piece is answered and nothing is kept;
another one is kept. -/
def DividedStep (process : Cache κ η → ι → Option ο × Cache κ η) (pieceOf : ι → Piece) (key : κ)
    (S : ReassemblyEntry η → List Piece → Prop) (payload : List UInt8) (good : ο → Prop) (x : ι) :
    Prop :=
  ∀ cache log rest, Held S cache key log → Division 0 payload (log ++ pieceOf x :: rest) →
    (rest ≠ [] → (process cache x).1 = none ∧
      Held S (process cache x).2 key (log ++ [pieceOf x])) ∧
    (rest = [] → (∃ answer, (process cache x).1 = some answer ∧ good answer) ∧
      (process cache x).2 key = none)

theorem piecesOf_append (keyOf : ι → κ) (pieceOf : ι → Piece) (key : κ) (before after : List ι) :
    piecesOf keyOf pieceOf key (before ++ after) =
      piecesOf keyOf pieceOf key before ++ piecesOf keyOf pieceOf key after := by
  rw [piecesOf, filter_append, map_append, piecesOf, piecesOf]

theorem piecesOf_cons_of_eq {x : ι} (h : keyOf x = key) (after : List ι) :
    piecesOf keyOf pieceOf key (x :: after) = pieceOf x :: piecesOf keyOf pieceOf key after := by
  rw [piecesOf, filter_cons_of_pos (by simpa using h), map_cons, piecesOf]

theorem piecesOf_cons_of_ne {x : ι} (h : keyOf x ≠ key) (after : List ι) :
    piecesOf keyOf pieceOf key (x :: after) = piecesOf keyOf pieceOf key after := by
  rw [piecesOf, filter_cons_of_neg (by simpa using h), piecesOf]

theorem piecesOf_eq_nil : piecesOf keyOf pieceOf key arrivals = [] ↔
    ∀ x ∈ arrivals, keyOf x ≠ key := by
  simp [piecesOf]

/-- **While pieces are missing**, the cache has the ones that arrived. -/
theorem held_afterAll {before : List ι} (after : List ι) {log : List Piece}
    (hoth : ∀ cache x, keyOf x ≠ key → (process cache x).2 key = cache key)
    (hst : ∀ x ∈ before, keyOf x = key → DividedStep process pieceOf key S payload good x)
    (h : Held S cache key log)
    (hdiv : Division 0 payload (log ++ piecesOf keyOf pieceOf key (before ++ after)))
    (haft : piecesOf keyOf pieceOf key after ≠ []) :
    Held S (afterAll process cache before) key (log ++ piecesOf keyOf pieceOf key before) := by
  induction before generalizing cache log with
  | nil =>
    rw [show piecesOf keyOf pieceOf key [] = [] from rfl, append_nil]
    exact h
  | cons x before ih =>
    rw [forall_mem_cons] at hst
    rw [cons_append] at hdiv
    by_cases hx : keyOf x = key
    · rw [piecesOf_cons_of_eq hx] at hdiv ⊢
      have hre : piecesOf keyOf pieceOf key (before ++ after) ≠ [] := by
        rw [piecesOf_append]
        exact fun hnil => haft (append_eq_nil_iff.mp hnil).2
      have hhe := ((hst.1 hx cache log _ h hdiv).1 hre).2
      rw [append_cons] at hdiv ⊢
      exact ih hst.2 hhe hdiv
    · rw [piecesOf_cons_of_ne hx] at hdiv ⊢
      exact ih hst.2 (h.congr (hoth cache x hx)) hdiv

/-- The last packet of a key. -/
theorem exists_last (h : piecesOf keyOf pieceOf key arrivals ≠ []) : ∃ before x after,
    arrivals = before ++ x :: after ∧ keyOf x = key ∧ ∀ y ∈ after, keyOf y ≠ key := by
  induction arrivals with
  | nil => exact absurd rfl h
  | cons x arrivals ih =>
    by_cases hre : piecesOf keyOf pieceOf key arrivals = []
    · refine ⟨[], x, arrivals, rfl, ?_, piecesOf_eq_nil.mp hre⟩
      by_contra hx
      rw [piecesOf_cons_of_ne hx] at h
      exact h hre
    · obtain ⟨before, y, after, rfl, hy, haft⟩ := ih hre
      exact ⟨x :: before, y, after, rfl, hy, haft⟩

/-- **The reassembly answers once**, if each of its steps does what it should. -/
theorem answersOnce_of_step (hoth : ∀ cache x, keyOf x ≠ key → (process cache x).2 key = cache key)
    (hst : ∀ x ∈ arrivals, keyOf x = key → DividedStep process pieceOf key S payload good x)
    (hdiv : Division 0 payload (piecesOf keyOf pieceOf key arrivals)) (hno : cache key = none) :
    AnswersOnce process keyOf key cache arrivals good := by
  -- what the step of a packet of the key finds
  have hat : ∀ before x after, arrivals = before ++ x :: after → keyOf x = key →
      (piecesOf keyOf pieceOf key after ≠ [] → (process (afterAll process cache before) x).1 = none)
      ∧ (piecesOf keyOf pieceOf key after = [] →
        (∃ answer, (process (afterAll process cache before) x).1 = some answer ∧ good answer) ∧
          (process (afterAll process cache before) x).2 key = none) := by
    rintro before x after rfl hx
    have hhe : Held S (afterAll process cache before) key
        ([] ++ piecesOf keyOf pieceOf key before) := by
      refine held_afterAll (x :: after) hoth
        (fun y hy => hst y (mem_append_left _ hy)) (held_of_none hno) hdiv ?_
      rw [piecesOf_cons_of_eq hx]
      exact cons_ne_nil _ _
    rw [piecesOf_append, piecesOf_cons_of_eq hx] at hdiv
    obtain ⟨hmis, hla⟩ := hst x (by simp) hx _ _ _ hhe hdiv
    exact ⟨fun h => (hmis h).1, hla⟩
  refine ⟨fun before x after harr hx => ?_, ?_⟩
  · obtain ⟨hmis, hla⟩ := hat before x after harr hx
    constructor
    · rintro ⟨y, hy, hykey⟩
      exact hmis fun hnil => piecesOf_eq_nil.mp hnil y hy hykey
    · exact fun haft => (hla (piecesOf_eq_nil.mpr haft)).1
  have hne : piecesOf keyOf pieceOf key arrivals ≠ [] := by
    obtain ⟨p, hp, -⟩ := hdiv.last
    exact ne_nil_of_mem hp
  obtain ⟨before, x, after, harr, hx, haft⟩ := exists_last hne
  obtain ⟨-, hla⟩ := hat before x after harr hx
  rw [harr, afterAll, foldl_append]
  exact (afterAll_of_ne hoth haft).trans (hla (piecesOf_eq_nil.mpr haft)).2

end Arrivals

/-! ### The round trip -/

section RoundTrip

variable {payload : List UInt8}

theorem dividedStep4 (hpos : 0 < payload.length) (hmax : payload.length ≤ maxDatagramSize)
    (packet : Ipv4Packet) :
    DividedStep processIpv4Fragment Ipv4Packet.piece packet.key Sound payload
      (fun answer => answer.payload = payload) packet := by
  intro cache log rest hhe hdiv
  by_cases hwhole : packet.piece.IsWhole
  · obtain ⟨rfl, rfl, hdt⟩ := hdiv.whole hwhole
    rw [processIpv4Fragment_whole hwhole]
    exact ⟨fun h => absurd rfl h, fun _ => ⟨⟨packet, rfl, hdt⟩, hhe.eq_none⟩⟩
  have hent : Sound (entryOf cache packet) log := hhe.getD (sound_new _)
  have hov := hdiv.not_overlaps hent.toCollects
  have hnx := hent.step hov (hdiv.careful hent)
  rw [append_cons] at hdiv
  rw [processIpv4Fragment_eq hwhole]
  refine settle_divided hov hnx (hdiv.isComplete_iff hpos hmax hnx) fun hyes hnil => ?_
  obtain ⟨buf, hbuf, hmd⟩ := hnx.complete hyes
  rw [hnil, append_nil] at hdiv
  rw [ReassemblyEntry.packet, hbuf]
  exact hdiv.eq_payload hmd

theorem collect6_header {η : Type} (entry : ReassemblyEntry η) (p : Piece) :
    (entry.collect6 p).header = entry.header := by
  obtain ⟨bitmap, heq, -⟩ := markBlocks_eq ((entry.noteLast6 p).store6 p) p
  rw [collect6, heq]
  have hnote : (entry.noteLast6 p).header = entry.header := by
    rw [noteLast6]
    split <;> rfl
  refine Eq.trans ?_ hnote
  rw [store6]
  split
  · rfl
  · split <;> rfl

theorem dividedStep6 (hpos : 0 < payload.length) (frag : Ipv6Fragment) :
    DividedStep processIpv6Fragment Ipv6Fragment.piece frag.key
      (fun entry pieces => Sound6 entry pieces ∧ entry.header = frag.nextHeader) payload
      (fun answer => answer = (frag.nextHeader, payload)) frag := by
  intro cache log rest hhe hdiv
  by_cases hwhole : frag.piece.IsWhole
  · obtain ⟨rfl, rfl, hdt⟩ := hdiv.whole hwhole
    rw [processIpv6Fragment_whole hwhole, hdt]
    exact ⟨fun h => absurd rfl h, fun _ => ⟨⟨_, rfl, rfl⟩, hhe.eq_none⟩⟩
  obtain ⟨hent, hhdr⟩ : Sound6 (entryOf6 cache frag) log ∧
      (entryOf6 cache frag).header = frag.nextHeader := hhe.getD ⟨sound6_new _, rfl⟩
  have hov := hdiv.not_overlaps hent.toCollects
  have hnx := hent.step hov (hdiv.careful6 hent)
  have hnx' := (collect6_header (entryOf6 cache frag) frag.piece).trans hhdr
  rw [append_cons] at hdiv
  rw [processIpv6Fragment_eq hwhole]
  refine settle_divided (by simp [hhdr, hov]) ⟨hnx, hnx'⟩
    (hdiv.isComplete6_iff hpos hnx) fun hyes hnil => ?_
  obtain ⟨buf, hbuf, hmd⟩ := hnx.complete hyes
  rw [hnil, append_nil] at hdiv
  rw [hbuf, hnx', Option.getD_some, hdiv.eq_payload hmd]

end RoundTrip

/-- **The round trip of a fragmented datagram.** A payload of 1 to 65535 bytes is divided into
parts, and the fragments with these parts arrive in any order, with packets of other keys between
them. Every fragment but the last to arrive is answered by nothing, the last by the payload, and
then nothing of it is kept. -/
theorem reassembly_round_trip {payload : List UInt8} {parts : List (List UInt8)}
    (hparts : Parts payload parts) (hpos : 1 ≤ payload.length) (hmax : payload.length ≤ 65535) :
    (∀ (key : FragmentKey) (cache : FragmentCache) (arrivals : List Ipv4Packet), cache key = none →
      (piecesOf Ipv4Packet.key Ipv4Packet.piece key arrivals).Perm (divide 0 parts) →
      AnswersOnce processIpv4Fragment Ipv4Packet.key key cache arrivals
        fun answer => answer.payload = payload) ∧
    ∀ (key : Ipv6FragmentKey) (nextHeader : UInt8) (cache : Ipv6FragmentCache)
      (arrivals : List Ipv6Fragment), cache key = none →
      (piecesOf Ipv6Fragment.key Ipv6Fragment.piece key arrivals).Perm (divide 0 parts) →
      (∀ frag ∈ arrivals, frag.key = key → frag.nextHeader = nextHeader) →
      AnswersOnce processIpv6Fragment Ipv6Fragment.key key cache arrivals
        fun answer => answer = (nextHeader, payload) := by
  constructor
  · intro key cache arrivals hno hpm
    refine answersOnce_of_step (fun _ _ h => processIpv4Fragment_of_ne h) (fun packet _ hkey => ?_)
      (hparts.division.perm hpm.symm) hno (S := Sound)
    subst hkey
    exact dividedStep4 hpos hmax packet
  intro key nextHeader cache arrivals hno hpm hhdr
  refine answersOnce_of_step (fun _ _ h => processIpv6Fragment_of_ne h)
    (fun frag hfrag hkey => ?_) (hparts.division.perm hpm.symm) hno
    (S := fun entry pieces => Sound6 entry pieces ∧ entry.header = nextHeader)
  have := hhdr frag hfrag hkey
  subst hkey this
  exact dividedStep6 hpos frag

theorem reassembly_round_trip_reversed :
    AnswersOnce processIpv4Fragment Ipv4Packet.key (packetOf ⟨0, [], true⟩).key (fun _ => none)
      [packetOf ⟨1, [2, 2, 2], false⟩, packetOf ⟨0, List.replicate 8 1, true⟩]
      (fun answer => answer.payload = [1, 1, 1, 1, 1, 1, 1, 1, 2, 2, 2]) ∧
    AnswersOnce processIpv6Fragment Ipv6Fragment.key ⟨7, 1, 2⟩ (fun _ => none)
      [fragOf ⟨1, [2, 2, 2], false⟩, fragOf ⟨0, List.replicate 8 1, true⟩]
      (fun answer => answer = (17, [1, 1, 1, 1, 1, 1, 1, 1, 2, 2, 2])) := by
  have hprt : Parts [1, 1, 1, 1, 1, 1, 1, 1, 2, 2, 2] [List.replicate 8 1, [2, 2, 2]] :=
    ⟨by decide, by decide, by decide⟩
  constructor
  · exact (reassembly_round_trip hprt (by decide) (by decide)).1 _ _ _ rfl (by decide)
  exact (reassembly_round_trip hprt (by decide) (by decide)).2 _ _ _ _ rfl (by decide) (by decide)

end Protofire.Network.Fragments
