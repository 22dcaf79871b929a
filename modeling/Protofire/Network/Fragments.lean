import Protofire.Lib.Pieces
import Protofire.Network.Ipv4

/-!
# The reassembly of fragments

A datagram that is too long for a link travels in *fragments*: pieces of its payload with their
places, counted in blocks of eight bytes, and a flag on every piece but the last
(`network/internet/fragments.rs`). The pieces of one datagram are collected in an entry: a set of
the blocks that have arrived, the pieces themselves as long as the length is not known, and from
the last piece on a buffer of the payload's length. A piece of which a block has arrived already
drops the whole entry.

What an entry has collected is a list of pieces, and everything in the entry follows from it
(`Collects`). The set of blocks knows a block and not its bytes: a last piece need not fill its
last block, which is right at the end of the payload and nowhere else. So an entry that gets a
*second* last piece may answer bytes that no fragment carried; and the reassembly for IPv6, which
takes the length from the last piece it saw and the buffer's from the farthest, answers payloads
of a length that no last piece had.

When an entry was made is looked at by the eviction alone, which is not part of this.
-/

namespace Protofire.Network.Fragments

open Splice Pieces List

def maxDatagramSize : ℕ := 65535

/-- A fragment as it arrives: its place in blocks, its bytes, and whether more follow. -/
structure Piece where
  offset : ℕ
  data : List UInt8
  more : Bool
deriving DecidableEq

namespace Piece

variable (p : Piece)

/-- Where the piece begins, in bytes. -/
def start : ℕ := p.offset * 8

/-- Where the piece ends. -/
def stop : ℕ := p.start + p.data.length

/-- How many blocks of eight bytes the piece reaches into. -/
def blockCount : ℕ := (p.data.length + 7) / 8

/-- The piece has a part of a block. -/
def Occupies (block : ℕ) : Prop :=
  p.offset ≤ block ∧ block < p.offset + p.blockCount

/-- The piece has a byte of the payload. -/
def Covers (k : ℕ) : Prop := p.start ≤ k ∧ k < p.stop

/-- A packet that is not a fragment at all. -/
def IsWhole : Prop := p.more = false ∧ p.offset = 0

/-- A piece that is followed by others fills its blocks. -/
def Aligned : Prop := p.more = true → p.data.length % 8 = 0

instance (p : Piece) : Decidable p.IsWhole := inferInstanceAs (Decidable (_ ∧ _))

instance (p : Piece) : Decidable p.Aligned := inferInstanceAs (Decidable (_ → _))

instance (p : Piece) (k : ℕ) : Decidable (p.Covers k) := inferInstanceAs (Decidable (_ ∧ _))

end Piece

/-! ### An entry -/

/-- What has been collected of a datagram, with what is kept of its header. -/
structure ReassemblyEntry (η : Type) where
  totalLength : ℕ
  buffer : Option (List UInt8)
  pendingFragments : List (ℕ × List UInt8)
  /-- The bits of the blocks that have arrived. -/
  bitmap : ℕ → Bool
  header : η
  haveLast : Bool

/-- What becomes of an entry when a fragment arrives. -/
inductive Received (η : Type) where
  | dropped
  | kept (entry : ReassemblyEntry η)
  | complete (entry : ReassemblyEntry η)

namespace ReassemblyEntry

variable {η : Type}

def new (header : η) : ReassemblyEntry η where
  totalLength := 0
  buffer := none
  pendingFragments := []
  bitmap := fun _ => false
  header := header
  haveLast := false

variable (entry : ReassemblyEntry η)

/-- `mark_block`. -/
def markBlock (block : ℕ) : ReassemblyEntry η :=
  { entry with bitmap := fun b => if b = block then true else entry.bitmap b }

variable (p : Piece)

/-- Mark the blocks of a piece, one after the other. -/
def markBlocks : ReassemblyEntry η :=
  (range p.blockCount).foldl (fun entry i => entry.markBlock (p.offset + i)) entry

/-- The blocks up to the known length have arrived. -/
def allBlocks : Bool :=
  (range ((entry.totalLength + 7) / 8)).all entry.bitmap

/-- Some block of the piece has already arrived. -/
def overlaps : Bool :=
  (range p.blockCount).any fun i => entry.bitmap (p.offset + i)

/-! ### IPv4 -/

/-- `is_complete`: the last piece and every block before its end have arrived. -/
def isComplete : Bool :=
  entry.haveLast && entry.totalLength ≠ 0 && entry.buffer.isSome && entry.allBlocks

/-- Allocate the buffer at the last piece, and put into it what has arrived. -/
def noteLast : ReassemblyEntry η :=
  if p.more then entry
  else if entry.buffer.isNone ∧ p.stop ≤ maxDatagramSize then
    { entry with
      haveLast := true
      totalLength := p.stop
      buffer := some (layAll (replicate p.stop 0) entry.pendingFragments)
      pendingFragments := [] }
  else { entry with haveLast := true }

/-- Put a piece into the buffer, or with the pieces that wait for one. -/
def store : ReassemblyEntry η :=
  match entry.buffer with
  | some buf => { entry with buffer := some (lay buf p.start p.data) }
  | none => { entry with pendingFragments := entry.pendingFragments ++ [(p.start, p.data)] }

/-- The entry with one more piece. -/
def collect : ReassemblyEntry η :=
  ((entry.noteLast p).store p).markBlocks p

/-- A fragment of an IPv4 datagram. -/
def receive : Received η :=
  if entry.overlaps p then .dropped
  else
    let entry := entry.collect p
    if entry.isComplete then .complete entry else .kept entry

/-! ### IPv6 -/

/-- `is_complete` of an IPv6 entry. -/
def isComplete6 : Bool :=
  entry.haveLast && entry.totalLength ≠ 0 && entry.allBlocks

/-- The last piece fixes the length. -/
def noteLast6 : ReassemblyEntry η :=
  if p.more then entry else { entry with haveLast := true, totalLength := p.stop }

/-- Put a piece into the buffer, which grows to hold it; allocate the buffer at the last piece; or
put the piece with those that wait. -/
def store6 : ReassemblyEntry η :=
  match entry.buffer with
  | some buf => { entry with
      buffer := some (splice (buf ++ replicate (p.stop - buf.length) 0) p.start p.data) }
  | none =>
    if p.more then
      { entry with pendingFragments := entry.pendingFragments ++ [(p.start, p.data)] }
    else
      { entry with
        buffer := some (layAll (splice (replicate entry.totalLength 0) p.start p.data)
          entry.pendingFragments)
        pendingFragments := [] }

/-- The entry with one more piece. -/
def collect6 : ReassemblyEntry η :=
  ((entry.noteLast6 p).store6 p).markBlocks p

/-- A fragment of an IPv6 datagram. -/
def receive6 : Received η :=
  if entry.overlaps p then .dropped
  else
    let entry := entry.collect6 p
    if entry.isComplete6 then .complete entry else .kept entry

end ReassemblyEntry

/-! ### The two caches -/

/-- What the fragments of one datagram share. -/
structure FragmentKey where
  id : UInt16
  protocol : UInt8
  source : Ipv4Addr
  destination : Ipv4Addr
deriving DecidableEq

/-- A received packet, header and payload. -/
structure Ipv4Packet where
  header : Ipv4Header
  payload : List UInt8
deriving DecidableEq

namespace Ipv4Packet

variable (packet : Ipv4Packet)

/-- The packet as a piece of a payload. -/
def piece : Piece where
  offset := packet.header.flagsFragmentOffset.toNat % 2 ^ 13
  data := packet.payload
  more := packet.header.flagsFragmentOffset.toNat / 2 ^ 13 % 2 = 1

def key : FragmentKey where
  id := packet.header.identification
  protocol := packet.header.protocol.toU8
  source := packet.header.source
  destination := packet.header.destination

end Ipv4Packet

/-- A cache of entries. -/
abbrev Cache (κ η : Type) := κ → Option (ReassemblyEntry η)

namespace Cache

variable {κ η : Type} [DecidableEq κ] (cache : Cache κ η)

/-- One entry of the cache is replaced, or removed. -/
def set (key : κ) (entry : Option (ReassemblyEntry η)) : Cache κ η := fun k =>
  if k = key then entry else cache k

@[simp] theorem set_self (key : κ) (entry : Option (ReassemblyEntry η)) :
    cache.set key entry key = entry := if_pos rfl

theorem set_of_ne {key k : κ} (entry : Option (ReassemblyEntry η))
    (h : k ≠ key) : cache.set key entry k = cache k := if_neg h

end Cache

abbrev FragmentCache := Cache FragmentKey Ipv4Header

/-- The datagram of a complete entry. -/
def ReassemblyEntry.packet (entry : ReassemblyEntry Ipv4Header) : Ipv4Packet :=
  let payload := entry.buffer.getD []
  { header := { entry.header with
      flagsFragmentOffset := 0
      totalLength := UInt16.ofNat (min (ipv4MinHeaderSize + payload.length) 65535) }
    payload := payload }

/-- The entry that a packet finds or makes. -/
def entryOf (cache : FragmentCache) (packet : Ipv4Packet) : ReassemblyEntry Ipv4Header :=
  (cache packet.key).getD (.new packet.header)

/-- `process_ipv4_fragment`: the datagram, once its last missing piece arrives. -/
def processIpv4Fragment (cache : FragmentCache) (packet : Ipv4Packet) :
    Option Ipv4Packet × FragmentCache :=
  if packet.piece.IsWhole then (some packet, cache)
  else
    match (entryOf cache packet).receive packet.piece with
    | .dropped => (none, cache.set packet.key none)
    | .kept entry => (none, cache.set packet.key (some entry))
    | .complete entry => (some entry.packet, cache.set packet.key none)

/-- An address of 16 bytes. -/
abbrev Ipv6Addr := BitVec 128

/-- What the fragments of one IPv6 datagram share. -/
structure Ipv6FragmentKey where
  identification : UInt32
  source : Ipv6Addr
  destination : Ipv6Addr
deriving DecidableEq

/-- A fragment with its addresses and its fragment header. -/
structure Ipv6Fragment where
  key : Ipv6FragmentKey
  nextHeader : UInt8
  piece : Piece

abbrev Ipv6FragmentCache := Cache Ipv6FragmentKey UInt8

/-- The entry that a fragment finds or makes. -/
def entryOf6 (cache : Ipv6FragmentCache) (frag : Ipv6Fragment) : ReassemblyEntry UInt8 :=
  (cache frag.key).getD (.new frag.nextHeader)

/-- `process_ipv6_fragment`. -/
def processIpv6Fragment (cache : Ipv6FragmentCache) (frag : Ipv6Fragment) :
    Option (UInt8 × List UInt8) × Ipv6FragmentCache :=
  if frag.piece.IsWhole then (some (frag.nextHeader, frag.piece.data), cache)
  else
    let entry := entryOf6 cache frag
    -- the fragments of a datagram agree on what follows the fragment header
    if frag.nextHeader ≠ entry.header then (none, cache.set frag.key none)
    else
      match entry.receive6 frag.piece with
      | .dropped => (none, cache.set frag.key none)
      | .kept entry => (none, cache.set frag.key (some entry))
      | .complete entry => (some (entry.header, entry.buffer.getD []), cache.set frag.key none)

/-! ### What an entry has collected -/

/-- Two pieces have no block in common. -/
def BlocksApart (p q : Piece) : Prop := ∀ block, p.Occupies block → ¬q.Occupies block

variable {p q : Piece}

theorem BlocksApart.symm (h : BlocksApart p q) : BlocksApart q p :=
  fun block hq hp => h block hp hq

variable {k : ℕ}

/-- A byte that a piece has is in a block that it has. -/
theorem Piece.Covers.occupies (h : p.Covers k) : p.Occupies (k / 8) := by
  simp only [Piece.Covers, Piece.start, Piece.stop] at h
  simp only [Piece.Occupies, Piece.blockCount]
  omega

theorem BlocksApart.apart (h : BlocksApart p q) : Apart (p.start, p.data) (q.start, q.data) := by
  by_contra hcon
  simp only [Apart, not_or] at hcon
  obtain ⟨hpq, hqp, hp, hq⟩ := hcon
  have hplen : 0 < p.data.length := length_pos_of_ne_nil hp
  have hqlen : 0 < q.data.length := length_pos_of_ne_nil hq
  -- the later of the two starts is a byte of both pieces
  have hmax : p.Covers (max p.start q.start) ∧ q.Covers (max p.start q.start) := by
    simp only [Piece.Covers, Piece.stop]
    omega
  exact h _ hmax.1.occupies hmax.2.occupies

/-- **What an entry has collected**: the pieces that arrived since it was made, none of which
shares a block with another. -/
structure Collects {η : Type} (entry : ReassemblyEntry η) (pieces : List Piece) : Prop where
  bits : ∀ block, entry.bitmap block = true ↔ ∃ p ∈ pieces, p.Occupies block
  apart : pieces.Pairwise BlocksApart
  last : entry.haveLast = true ↔ ∃ p ∈ pieces, p.more = false
  waiting : entry.buffer = none →
    entry.pendingFragments = pieces.map fun p => (p.start, p.data)
  laid : ∀ buf, entry.buffer = some buf → buf.length = entry.totalLength ∧
    ∀ p ∈ pieces, Agrees buf p.start p.data

section Blocks

variable {η : Type} {entry : ReassemblyEntry η} {pieces : List Piece} {p : Piece}

theorem markBlocks_eq (entry : ReassemblyEntry η) (p : Piece) : ∃ bitmap,
    entry.markBlocks p = { entry with bitmap := bitmap } ∧
      ∀ block, bitmap block = true ↔ entry.bitmap block = true ∨ p.Occupies block := by
  have hfold : ∀ (l : List ℕ) (entry : ReassemblyEntry η), ∃ bitmap,
      l.foldl (fun entry i => entry.markBlock (p.offset + i)) entry =
        { entry with bitmap := bitmap } ∧
      ∀ block, bitmap block = true ↔
        entry.bitmap block = true ∨ ∃ i ∈ l, block = p.offset + i := by
    intro l
    induction l with
    | nil => exact fun entry => ⟨entry.bitmap, rfl, by simp⟩
    | cons i l ih =>
      intro entry
      obtain ⟨bitmap, heq, hbi⟩ := ih (entry.markBlock (p.offset + i))
      refine ⟨bitmap, by rw [foldl_cons, heq]; rfl, fun block => ?_⟩
      rw [hbi, ReassemblyEntry.markBlock]
      by_cases hblk : block = p.offset + i <;> simp [hblk]
  obtain ⟨bitmap, heq, hbi⟩ := hfold (List.range p.blockCount) entry
  refine ⟨bitmap, heq, fun block => (hbi block).trans (or_congr_right ?_)⟩
  simp only [mem_range, Piece.Occupies]
  constructor
  · omega
  rintro ⟨hle, hlt⟩
  exact ⟨block - p.offset, by omega, by omega⟩

theorem overlaps_eq_false : entry.overlaps p = false ↔
    ∀ block, p.Occupies block → entry.bitmap block = false := by
  rw [ReassemblyEntry.overlaps, any_eq_false]
  simp only [mem_range]
  constructor
  · rintro h block ⟨hle, hlt⟩
    have := h (block - p.offset) (by omega)
    rw [Nat.add_sub_cancel' hle] at this
    simpa using this
  · intro h i hi
    simpa using h (p.offset + i) ⟨by omega, by omega⟩

theorem allBlocks_eq_true : entry.allBlocks = true ↔
    ∀ block < (entry.totalLength + 7) / 8, entry.bitmap block = true := by
  rw [ReassemblyEntry.allBlocks, all_eq_true]
  simp only [mem_range]

/-- A piece that overlaps nothing shares no block with what was collected. -/
theorem Collects.apart_of_not_overlaps (h : Collects entry pieces)
    (hov : entry.overlaps p = false) : ∀ q ∈ pieces, BlocksApart q p := by
  intro q hq block hocc hocc'
  have hmk := (h.bits block).mpr ⟨q, hq, hocc⟩
  rw [overlaps_eq_false.mp hov block hocc'] at hmk
  cases hmk

/-- Blocks and pieces, one more. -/
theorem Collects.pairwise_append (h : Collects entry pieces)
    (hov : entry.overlaps p = false) : (pieces ++ [p]).Pairwise BlocksApart := by
  rw [List.pairwise_append]
  refine ⟨h.apart, pairwise_singleton _ _, fun q hq r hr => ?_⟩
  obtain rfl := mem_singleton.mp hr
  exact h.apart_of_not_overlaps hov q hq

theorem collects_new (header : η) : Collects (.new header) [] :=
  ⟨fun _ => by simp [ReassemblyEntry.new], List.Pairwise.nil,
    by simp [ReassemblyEntry.new], fun _ => rfl, nofun⟩

/-- The pieces that wait are all there when they are laid over a buffer. -/
theorem Collects.agrees_layAll (h : Collects entry pieces) (hnone : entry.buffer = none)
    (buf : List UInt8) :
    ∀ q ∈ pieces, Agrees (layAll buf entry.pendingFragments) q.start q.data := by
  rw [h.waiting hnone]
  have hap : (pieces.map fun p : Piece => (p.start, p.data)).Pairwise Apart :=
    pairwise_map.mpr (h.apart.imp fun hpq => hpq.apart)
  exact fun q hq => Pieces.agrees_layAll buf hap (q.start, q.data) (mem_map.mpr ⟨q, hq, rfl⟩)

/-- A buffer that agrees with the pieces agrees with one more that is laid over it. -/
theorem agrees_append {buf : List UInt8} (hbuf : ∀ q ∈ pieces, Agrees buf q.start q.data)
    (hap : ∀ q ∈ pieces, BlocksApart q p) :
    ∀ q ∈ pieces ++ [p], Agrees (lay buf p.start p.data) q.start q.data :=
  forall_mem_append.mpr ⟨fun q hq => (hbuf q hq).lay (hap q hq).apart,
    forall_mem_singleton.mpr (agrees_lay buf p.start p.data)⟩

theorem exists_mem_append_singleton {P : Piece → Prop} :
    (∃ q ∈ pieces ++ [p], P q) ↔ (∃ q ∈ pieces, P q) ∨ P p := by
  simp only [mem_append, mem_singleton, or_and_right, exists_or, exists_eq_left]

/-- **The pieces are what the entry has**, when the marks and the rest were brought up to date. -/
theorem Collects.mark {entry' : ReassemblyEntry η} (h : Collects entry pieces)
    (hov : entry.overlaps p = false) (hbm : entry'.bitmap = entry.bitmap)
    (hla : entry'.haveLast = true ↔ ∃ q ∈ pieces ++ [p], q.more = false)
    (hwait : entry'.buffer = none →
      entry'.pendingFragments = (pieces ++ [p]).map fun p => (p.start, p.data))
    (hld : ∀ buf, entry'.buffer = some buf → buf.length = entry'.totalLength ∧
      ∀ q ∈ pieces ++ [p], Agrees buf q.start q.data) :
    Collects (entry'.markBlocks p) (pieces ++ [p]) := by
  obtain ⟨bitmap, heq, hbi⟩ := markBlocks_eq entry' p
  rw [heq]
  refine ⟨fun block => ?_, h.pairwise_append hov, hla, hwait, hld⟩
  rw [exists_mem_append_singleton, ← h.bits, ← hbm]
  exact hbi block

end Blocks

/-! ### The bytes of a complete entry -/

/-- **Exactly one piece carries the byte** at a place. -/
def CarriedOnce (pieces : List Piece) (k : ℕ) (byte : Option UInt8) : Prop :=
  ∃ before p after, pieces = before ++ p :: after ∧ p.Covers k ∧
    byte = p.data[k - p.start]? ∧ ∀ q ∈ before ++ after, ¬q.Covers k

variable {pieces : List Piece}

/-- **A byte of a complete entry is the byte of one piece**, if the pieces fill the blocks that
they have up to the length. -/
theorem Collects.carriedOnce {η : Type} {entry : ReassemblyEntry η} {buf : List UInt8}
    (h : Collects entry pieces) (hbuf : entry.buffer = some buf) (hall : entry.allBlocks = true)
    (hfill : ∀ p ∈ pieces, p.data.length % 8 = 0 ∨ entry.totalLength ≤ p.stop)
    (hk : k < buf.length) : CarriedOnce pieces k buf[k]? := by
  obtain ⟨hln, hagrs⟩ := h.laid buf hbuf
  obtain ⟨p, hp, hocc⟩ := (h.bits (k / 8)).mp (allBlocks_eq_true.mp hall (k / 8) (by omega))
  have hcvs : p.Covers k := by
    have hend := hfill p hp
    simp only [Piece.Occupies, Piece.blockCount] at hocc
    simp only [Piece.Covers, Piece.stop, Piece.start] at hend ⊢
    omega
  obtain ⟨before, after, rfl⟩ := append_of_mem hp
  refine ⟨before, p, after, rfl, hcvs, ?_, fun q hq hq' => ?_⟩
  · have hby := hagrs p hp (k - p.start) (by
      have := hcvs.2
      rw [Piece.stop] at this
      have := hcvs.1
      omega) (by rw [Nat.add_sub_cancel' hcvs.1]; exact hk)
    rwa [Nat.add_sub_cancel' hcvs.1] at hby
  · -- two pieces with the byte would share its block
    have hap := h.apart
    rw [List.pairwise_append, List.pairwise_cons] at hap
    rcases mem_append.mp hq with hq | hq
    · exact hap.2.2 q hq p (by simp) _ hq'.occupies hcvs.occupies
    · exact hap.2.1.1 q hq _ hcvs.occupies hq'.occupies

/-- **What a payload is made of**: it is as long as a last piece says, and exactly one piece
carries each of its bytes. -/
def MadeOf (payload : List UInt8) (pieces : List Piece) : Prop :=
  (∃ p ∈ pieces, p.more = false ∧ p.stop = payload.length) ∧
    ∀ k < payload.length, CarriedOnce pieces k payload[k]?

/-! ### IPv4 -/

section Ipv4

variable {η : Type} {entry : ReassemblyEntry η} {pieces : List Piece} {p : Piece}

/-- **What is true of an IPv4 entry**: it has collected its pieces; from the first last piece that
is not too long there is a buffer, whose length is the end of a last piece; and a piece that does
not fill its blocks reaches the end. -/
structure Sound (entry : ReassemblyEntry η) (pieces : List Piece) : Prop extends
    Collects entry pieces where
  allocated : ∀ p ∈ pieces, p.more = false → p.stop ≤ maxDatagramSize → entry.buffer ≠ none
  ended : entry.buffer ≠ none →
    (∃ p ∈ pieces, p.more = false ∧ p.stop = entry.totalLength) ∧
      entry.totalLength ≤ maxDatagramSize
  filled : ∀ p ∈ pieces, p.data.length % 8 = 0 ∨
    (entry.buffer ≠ none ∧ entry.totalLength ≤ p.stop) ∨ maxDatagramSize < p.stop

theorem sound_new (header : η) : Sound (.new header) [] :=
  ⟨collects_new header, fun _ hp => absurd hp not_mem_nil, fun h => absurd rfl h,
    fun _ hp => absurd hp not_mem_nil⟩

/-- **A careful piece** fills its blocks if more follow; and once there is a buffer it fills them,
or reaches the end of the buffer, or drops the entry. -/
def Careful (entry : ReassemblyEntry η) (p : Piece) : Prop :=
  p.Aligned ∧
    (entry.buffer ≠ none →
      p.data.length % 8 = 0 ∨ entry.totalLength ≤ p.stop ∨ entry.overlaps p = true)

/-- What has to be shown of an entry before the blocks of a piece are marked. -/
theorem sound_markBlocks {entry' : ReassemblyEntry η} (hcol : Collects (entry'.markBlocks p) pieces)
    (halc : ∀ q ∈ pieces, q.more = false → q.stop ≤ maxDatagramSize → entry'.buffer ≠ none)
    (hended : entry'.buffer ≠ none → (∃ q ∈ pieces, q.more = false ∧
      q.stop = entry'.totalLength) ∧ entry'.totalLength ≤ maxDatagramSize)
    (hfilled : ∀ q ∈ pieces, q.data.length % 8 = 0 ∨
      (entry'.buffer ≠ none ∧ entry'.totalLength ≤ q.stop) ∨ maxDatagramSize < q.stop) :
    Sound (entry'.markBlocks p) pieces := by
  obtain ⟨bitmap, heq, -⟩ := markBlocks_eq entry' p
  rw [heq] at hcol ⊢
  exact ⟨hcol, halc, hended, hfilled⟩

section

variable (h : Sound entry pieces)
include h

section

variable (hov : entry.overlaps p = false)
include hov

/-- The last piece that the length is from. -/
theorem Sound.step_first
    (hmo : p.more = false) (hnone : entry.buffer = none) (hle : p.stop ≤ maxDatagramSize) :
    Sound (((entry.noteLast p).store p).markBlocks p) (pieces ++ [p]) := by
  have hnote : (entry.noteLast p).store p = { entry with
      haveLast := true
      totalLength := p.stop
      buffer := some (lay (layAll (List.replicate p.stop 0) entry.pendingFragments) p.start p.data)
      pendingFragments := [] } := by
    rw [ReassemblyEntry.noteLast, if_neg (by simp [hmo]), if_pos (by simp [hnone, hle])]
    rfl
  rw [hnote]
  refine sound_markBlocks (h.mark hov rfl (iff_of_true rfl ⟨p, by simp, hmo⟩)
    nofun fun buf hbuf => ?_) (by simp)
    (fun _ => ⟨⟨p, by simp, hmo, rfl⟩, hle⟩) (forall_mem_append.mpr ⟨fun q hq => ?_,
      forall_mem_singleton.mpr (Or.inr (Or.inl ⟨by simp, Nat.le_refl _⟩))⟩)
  · cases hbuf
    exact ⟨by simp, agrees_append (h.agrees_layAll hnone _) (h.apart_of_not_overlaps hov)⟩
  · exact (h.filled q hq).imp_right (Or.imp_left fun hso => absurd hnone hso.1)

/-- A piece that the length is not from: it goes into the buffer or waits for it. -/
theorem Sound.step_other
    {haveLast : Bool} (hla : haveLast = true ↔ ∃ q ∈ pieces ++ [p], q.more = false)
    (hft : p.more = false → p.stop ≤ maxDatagramSize → entry.buffer ≠ none)
    (hfill : p.data.length % 8 = 0 ∨ (entry.buffer ≠ none ∧ entry.totalLength ≤ p.stop) ∨
      maxDatagramSize < p.stop) :
    Sound ((({ entry with haveLast := haveLast } : ReassemblyEntry η).store p).markBlocks p)
      (pieces ++ [p]) := by
  have halc : ∀ q ∈ pieces ++ [p], q.more = false → q.stop ≤ maxDatagramSize →
      entry.buffer ≠ none :=
    forall_mem_append.mpr ⟨h.allocated, forall_mem_singleton.mpr hft⟩
  have hfilled : ∀ q ∈ pieces ++ [p], q.data.length % 8 = 0 ∨
      (entry.buffer ≠ none ∧ entry.totalLength ≤ q.stop) ∨ maxDatagramSize < q.stop :=
    forall_mem_append.mpr ⟨h.filled, forall_mem_singleton.mpr hfill⟩
  rcases hbuf : entry.buffer with _ | buf
  · rw [hbuf] at halc hfilled
    refine sound_markBlocks (h.mark hov rfl hla (fun _ => ?_) fun buf h => (nomatch h))
      halc (fun h => absurd rfl h) hfilled
    rw [map_append, ← h.waiting hbuf]
    rfl
  have hstore : ({ entry with haveLast := haveLast, buffer := some buf }).store p = { entry with
        haveLast := haveLast
        buffer := some (lay buf p.start p.data) } := rfl
  obtain ⟨⟨q, hq, hqmore, hqst⟩, hle⟩ := h.ended (by simp [hbuf])
  rw [hstore]
  refine sound_markBlocks (h.mark hov rfl hla nofun
    fun buf' hbuf' => ?_) (by simp) (fun _ => ⟨⟨q, by simp [hq], hqmore, hqst⟩, hle⟩)
    fun q hq => (hfilled q hq).imp id (Or.imp (fun h => ⟨by simp, h.2⟩) id)
  cases hbuf'
  exact ⟨by rw [length_lay]; exact (h.laid buf hbuf).1,
    agrees_append (h.laid buf hbuf).2 (h.apart_of_not_overlaps hov)⟩

/-- **A careful piece is collected.** -/
theorem Sound.step (hcar : Careful entry p) : Sound (entry.collect p) (pieces ++ [p]) := by
  rw [ReassemblyEntry.collect]
  rcases hmo : p.more with _ | _
  · by_cases hfirst : entry.buffer = none ∧ p.stop ≤ maxDatagramSize
    · exact h.step_first hov hmo hfirst.1 hfirst.2
    have hnote : entry.noteLast p = { entry with haveLast := true } := by
      rw [ReassemblyEntry.noteLast, if_neg (by simp [hmo]), if_neg (by simpa using hfirst)]
    rw [hnote]
    refine h.step_other hov (iff_of_true rfl ⟨p, by simp, hmo⟩)
      (fun _ hle hnone => hfirst ⟨hnone, hle⟩) ?_
    by_cases hnone : entry.buffer = none
    · exact Or.inr (Or.inr (Nat.lt_of_not_le fun hle => hfirst ⟨hnone, hle⟩))
    rcases hcar.2 hnone with hlen | hend | hdr
    · exact Or.inl hlen
    · exact Or.inr (Or.inl ⟨hnone, hend⟩)
    · rw [hov] at hdr
      cases hdr
  · have hnote : entry.noteLast p = { entry with haveLast := entry.haveLast } := by
      rw [ReassemblyEntry.noteLast, if_pos hmo]
    rw [hnote]
    refine h.step_other hov ?_ (fun hno => ?_) (Or.inl (hcar.1 hmo))
    · rw [h.last]
      simp [hmo]
    · rw [hmo] at hno
      cases hno

end

/-- **A complete entry answers what its pieces are.** -/
theorem Sound.complete (hcm : entry.isComplete = true) :
    ∃ buf, entry.buffer = some buf ∧ MadeOf buf pieces := by
  simp only [ReassemblyEntry.isComplete, Bool.and_eq_true] at hcm
  obtain ⟨⟨-, hso⟩, hall⟩ := hcm
  obtain ⟨buf, hbuf⟩ := Option.isSome_iff_exists.mp hso
  obtain ⟨⟨p, hp, hmo, hsp⟩, hle⟩ := h.ended (by simp [hbuf])
  refine ⟨buf, hbuf, ⟨p, hp, hmo, hsp.trans (h.laid buf hbuf).1.symm⟩, fun k hk => ?_⟩
  refine h.carriedOnce hbuf hall (fun q hq => ?_) hk
  exact (h.filled q hq).imp_right fun h =>
    h.elim And.right fun hfar => Nat.le_trans hle (Nat.le_of_lt hfar)

end

end Ipv4

/-! ### IPv6 -/

section Ipv6

variable {η : Type} {entry : ReassemblyEntry η} {pieces : List Piece} {p : Piece}

/-- **What is true of an IPv6 entry**: its length is the end of its last piece, and every other
piece fills its blocks. -/
structure Sound6 (entry : ReassemblyEntry η) (pieces : List Piece) : Prop extends
    Collects entry pieces where
  allocated : entry.buffer ≠ none ↔ entry.haveLast = true
  ended : entry.haveLast = true → ∃ p ∈ pieces, p.more = false ∧ p.stop = entry.totalLength
  filled : ∀ p ∈ pieces, p.data.length % 8 = 0 ∨
    (entry.haveLast = true ∧ p.stop = entry.totalLength)

theorem sound6_new (header : η) : Sound6 (.new header) [] :=
  ⟨collects_new header, by simp [ReassemblyEntry.new], by simp [ReassemblyEntry.new],
    fun _ hp => absurd hp not_mem_nil⟩

/-- **A careful piece** fills its blocks if more follow; and after a last piece it is no other last
one and does not reach beyond the end, or it drops the entry. -/
def Careful6 (entry : ReassemblyEntry η) (p : Piece) : Prop :=
  p.Aligned ∧
    (entry.haveLast = true →
      (p.more = true ∧ p.stop ≤ entry.totalLength) ∨ entry.overlaps p = true)

theorem sound6_markBlocks {entry' : ReassemblyEntry η}
    (hcol : Collects (entry'.markBlocks p) pieces)
    (halc : entry'.buffer ≠ none ↔ entry'.haveLast = true)
    (hended : entry'.haveLast = true → ∃ q ∈ pieces, q.more = false ∧ q.stop = entry'.totalLength)
    (hfilled : ∀ q ∈ pieces, q.data.length % 8 = 0 ∨
      (entry'.haveLast = true ∧ q.stop = entry'.totalLength)) :
    Sound6 (entry'.markBlocks p) pieces := by
  obtain ⟨bitmap, heq, -⟩ := markBlocks_eq entry' p
  rw [heq] at hcol ⊢
  exact ⟨hcol, halc, hended, hfilled⟩

/-- A piece within a buffer is laid over it. -/
theorem splice_eq_lay {buf : List UInt8} {off : ℕ} {data : List UInt8}
    (h : off + data.length ≤ buf.length) : splice buf off data = lay buf off data := by
  rw [lay]
  split
  · rw [take_of_length_le (by omega)]
  · rw [eq_nil_of_length_eq_zero (show data.length = 0 by omega), splice_nil]

/-- **A careful piece is collected.** -/
theorem Sound6.step (h : Sound6 entry pieces) (hov : entry.overlaps p = false)
    (hcar : Careful6 entry p) : Sound6 (entry.collect6 p) (pieces ++ [p]) := by
  rw [ReassemblyEntry.collect6]
  have hap := h.apart_of_not_overlaps hov
  rcases hbuf : entry.buffer with _ | buf
  · have hno : entry.haveLast = false := by
      by_contra hyes
      exact absurd hbuf (h.allocated.mpr (by simpa using hyes))
    have hwhole : ∀ q ∈ pieces, q.data.length % 8 = 0 := fun q hq =>
      (h.filled q hq).resolve_right (by simp [hno])
    rcases hmo : p.more with _ | _
    · have hstore : (entry.noteLast6 p).store6 p = { entry with
          haveLast := true
          totalLength := p.stop
          buffer := some (layAll (splice (List.replicate p.stop 0) p.start p.data)
            entry.pendingFragments)
          pendingFragments := [] } := by
        rw [ReassemblyEntry.noteLast6, ReassemblyEntry.store6]
        simp only [hbuf, hmo]
        rfl
      rw [hstore]
      refine sound6_markBlocks (h.mark hov rfl (iff_of_true rfl ⟨p, by simp, hmo⟩)
        nofun fun buf hbuf' => ?_) (by simp)
        (fun _ => ⟨p, by simp, hmo, rfl⟩) (forall_mem_append.mpr
          ⟨fun q hq => Or.inl (hwhole q hq), forall_mem_singleton.mpr (Or.inr ⟨rfl, rfl⟩)⟩)
      cases hbuf'
      rw [splice_eq_lay (by simp [Piece.stop])]
      refine ⟨by simp, forall_mem_append.mpr ⟨h.agrees_layAll hbuf _,
        forall_mem_singleton.mpr ((agrees_lay _ _ _).layAll fun r hr => ?_)⟩⟩
      rw [h.waiting hbuf, mem_map] at hr
      obtain ⟨r, hr, rfl⟩ := hr
      exact (hap r hr).symm.apart
    · have hstore : (entry.noteLast6 p).store6 p = { entry with
          pendingFragments := entry.pendingFragments ++ [(p.start, p.data)] } := by
        rw [ReassemblyEntry.noteLast6, ReassemblyEntry.store6]
        simp only [hbuf, hmo, if_true]
      rw [hstore]
      refine sound6_markBlocks (h.mark hov rfl ?_ (fun _ => ?_) fun buf h => ?_) h.allocated
        (fun hyes => ?_) (forall_mem_append.mpr ⟨fun q hq => Or.inl (hwhole q hq),
          forall_mem_singleton.mpr (Or.inl (hcar.1 hmo))⟩)
      · rw [h.last]
        simp [hmo]
      · rw [map_append, ← h.waiting hbuf]
        rfl
      · simp only [hbuf] at h
        cases h
      · rw [hno] at hyes
        cases hyes
  · have hyes : entry.haveLast = true := h.allocated.mp (by simp [hbuf])
    obtain ⟨hmo, hle⟩ := (hcar.2 hyes).resolve_right (by simp [hov])
    obtain ⟨hln, hagrs⟩ := h.laid buf hbuf
    have hstore : (entry.noteLast6 p).store6 p =
        { entry with buffer := some (lay buf p.start p.data) } := by
      rw [ReassemblyEntry.noteLast6, if_pos hmo, ReassemblyEntry.store6]
      simp only [hbuf]
      rw [show p.stop - buf.length = 0 by omega, replicate_zero, append_nil,
        splice_eq_lay (by rw [hln]; exact hle)]
    obtain ⟨q, hq, hqmore, hqst⟩ := h.ended hyes
    rw [hstore]
    refine sound6_markBlocks (h.mark hov rfl ?_ nofun fun buf' hbuf' => ?_)
      (iff_of_true (by simp) hyes) (fun _ => ⟨q, by simp [hq], hqmore, hqst⟩)
      (forall_mem_append.mpr ⟨h.filled, forall_mem_singleton.mpr (Or.inl (hcar.1 hmo))⟩)
    · rw [h.last]
      simp [hmo]
    · cases hbuf'
      exact ⟨by rw [length_lay]; exact hln, agrees_append hagrs hap⟩

/-- **A complete entry answers what its pieces are.** -/
theorem Sound6.complete (h : Sound6 entry pieces) (hcm : entry.isComplete6 = true) :
    ∃ buf, entry.buffer = some buf ∧ MadeOf buf pieces := by
  simp only [ReassemblyEntry.isComplete6, Bool.and_eq_true] at hcm
  obtain ⟨⟨hyes, -⟩, hall⟩ := hcm
  obtain ⟨buf, hbuf⟩ := Option.ne_none_iff_exists'.mp (h.allocated.mpr hyes)
  obtain ⟨p, hp, hmo, hsp⟩ := h.ended hyes
  refine ⟨buf, hbuf, ⟨p, hp, hmo, hsp.trans (h.laid buf hbuf).1.symm⟩, fun k hk => ?_⟩
  refine h.carriedOnce hbuf hall (fun q hq => ?_) hk
  exact (h.filled q hq).imp id fun hq => Nat.le_of_eq hq.2.symm

end Ipv6

/-! ### The entry of a key -/

section Held

variable {κ η : Type} {S : ReassemblyEntry η → List Piece → Prop} {cache : Cache κ η} {key : κ}
  {log : List Piece}

/-- **What a cache has of a key**: nothing, or an entry for what has arrived. -/
def Held (S : ReassemblyEntry η → List Piece → Prop) (cache : Cache κ η) (key : κ)
    (log : List Piece) : Prop :=
  match cache key with
  | none => log = []
  | some entry => log ≠ [] ∧ S entry log

theorem held_of_none (h : cache key = none) : Held S cache key [] := by
  rw [Held, h]

theorem Held.congr {cache' : Cache κ η} (h : Held S cache key log)
    (hcac : cache' key = cache key) : Held S cache' key log := by
  rwa [Held, hcac]

/-- The entry of the key, or a new one. -/
theorem Held.getD (h : Held S cache key log) {header : η} (hnew : S (.new header) []) :
    S ((cache key).getD (.new header)) log := by
  rw [Held] at h
  rcases hent : cache key with _ | entry
  · rw [hent] at h
    obtain rfl : log = [] := h
    exact hnew
  · rw [hent] at h
    exact h.2

/-- Nothing is kept for nothing. -/
theorem Held.eq_none (h : Held S cache key []) : cache key = none := by
  rw [Held] at h
  rcases hent : cache key with _ | entry
  · rfl
  rw [hent] at h
  exact absurd rfl h.1

/-- What is known of the pieces after a step: nothing if the entry is gone. -/
def logAfter (cache : Cache κ η) (key : κ) (log : List Piece) (p : Piece) : List Piece :=
  if (cache key).isSome then log ++ [p] else []

variable [DecidableEq κ] {p : Piece}

theorem held_dropped :
    Held S (cache.set key none) key (logAfter (cache.set key none) key log p) := by
  rw [logAfter, Cache.set_self]
  exact held_of_none (Cache.set_self ..)

variable {entry : ReassemblyEntry η}

theorem held_set_some (h : S entry (log ++ [p])) :
    Held S (cache.set key (some entry)) key (log ++ [p]) := by
  rw [Held, Cache.set_self]
  exact ⟨by simp, h⟩

theorem held_kept (h : S entry (log ++ [p])) :
    Held S (cache.set key (some entry)) key (logAfter (cache.set key (some entry)) key log p) := by
  rw [logAfter, Cache.set_self]
  exact held_set_some h

variable {ο : Type} {drops complete : Bool} {answer : ο}

/-- **What a fragment does with its entry**: it drops the entry, completes it or is kept. -/
def settle (cache : Cache κ η) (key : κ) (drops complete : Bool) (answer : ο)
    (entry : ReassemblyEntry η) : Option ο × Cache κ η :=
  if drops then (none, cache.set key none)
  else if complete then (some answer, cache.set key none)
  else (none, cache.set key (some entry))

theorem settle_of_ne {k : κ} (h : key ≠ k) :
    (settle cache key drops complete answer entry).2 k = cache k := by
  rw [settle]
  split_ifs <;> exact Cache.set_of_ne _ _ h.symm

theorem held_settle (h : drops = false → S entry (log ++ [p])) :
    Held S (settle cache key drops complete answer entry).2 key
      (logAfter (settle cache key drops complete answer entry).2 key log p) := by
  rw [settle]
  split_ifs with hdrops
  · exact held_dropped
  · exact held_dropped
  · exact held_kept (h (by simpa using hdrops))

theorem settle_eq_some {x : ο} (h : (settle cache key drops complete answer entry).1 = some x) :
    drops = false ∧ complete = true ∧ answer = x := by
  rw [settle] at h
  split_ifs at h
  simp_all

/-- The last piece of a datagram is answered and nothing is kept; another one is kept. -/
theorem settle_divided {rest : List Piece} {good : ο → Prop} (hdrops : drops = false)
    (hnx : S entry (log ++ [p])) (hcm : complete = true ↔ rest = [])
    (hgd : complete = true → rest = [] → good answer) :
    let r := settle cache key drops complete answer entry
    (rest ≠ [] → r.1 = none ∧ Held S r.2 key (log ++ [p])) ∧
      (rest = [] → (∃ answer, r.1 = some answer ∧ good answer) ∧ r.2 key = none) := by
  rw [hdrops]
  cases complete with
  | false => exact ⟨fun _ => ⟨rfl, held_set_some hnx⟩, fun hnil => nomatch hcm.mpr hnil⟩
  | true => exact ⟨fun hne => absurd (hcm.mp rfl) hne, fun hnil =>
      ⟨⟨_, rfl, hgd rfl hnil⟩, Cache.set_self ..⟩⟩

end Held

section Process

variable {cache : FragmentCache} {packet : Ipv4Packet} {cache6 : Ipv6FragmentCache}
  {frag : Ipv6Fragment}

theorem processIpv4Fragment_whole (h : packet.piece.IsWhole) :
    processIpv4Fragment cache packet = (some packet, cache) := if_pos h

theorem processIpv6Fragment_whole (h : frag.piece.IsWhole) :
    processIpv6Fragment cache6 frag = (some (frag.nextHeader, frag.piece.data), cache6) := if_pos h

theorem processIpv4Fragment_eq (h : ¬packet.piece.IsWhole) :
    let entry := (entryOf cache packet).collect packet.piece
    processIpv4Fragment cache packet = settle cache packet.key
      ((entryOf cache packet).overlaps packet.piece) entry.isComplete entry.packet entry := by
  simp only [processIpv4Fragment, ReassemblyEntry.receive, settle]
  split_ifs <;> rfl

theorem processIpv6Fragment_eq (h : ¬frag.piece.IsWhole) :
    let entry := (entryOf6 cache6 frag).collect6 frag.piece
    processIpv6Fragment cache6 frag = settle cache6 frag.key
      (frag.nextHeader != (entryOf6 cache6 frag).header ||
        (entryOf6 cache6 frag).overlaps frag.piece)
      entry.isComplete6 (entry.header, entry.buffer.getD []) entry := by
  simp only [processIpv6Fragment, ReassemblyEntry.receive6, settle]
  split_ifs <;> simp_all

/-- **A packet touches the entry of its own key.** -/
theorem processIpv4Fragment_of_ne {key : FragmentKey} (h : packet.key ≠ key) :
    (processIpv4Fragment cache packet).2 key = cache key := by
  by_cases hwhole : packet.piece.IsWhole
  · rw [processIpv4Fragment_whole hwhole]
  · rw [processIpv4Fragment_eq hwhole, settle_of_ne h]

theorem processIpv6Fragment_of_ne {key : Ipv6FragmentKey} (h : frag.key ≠ key) :
    (processIpv6Fragment cache6 frag).2 key = cache6 key := by
  by_cases hwhole : frag.piece.IsWhole
  · rw [processIpv6Fragment_whole hwhole]
  · rw [processIpv6Fragment_eq hwhole, settle_of_ne h]

end Process

/-! ### Runs -/

section Runs

variable {κ η ι ο : Type}

/-- **A run**, as one key sees it: packets of other keys, whole packets, and careful fragments.
With the cache goes the list of the fragments that arrived since the entry was made. -/
inductive Run (process : Cache κ η → ι → Option ο × Cache κ η) (keyOf : ι → κ)
    (pieceOf : ι → Piece) (careful : Cache κ η → ι → Prop) (key : κ) :
    Cache κ η → List Piece → Prop
  | start (cache : Cache κ η) (hnone : cache key = none) :
      Run process keyOf pieceOf careful key cache []
  | other {cache : Cache κ η} {log : List Piece} {x : ι}
      (h : Run process keyOf pieceOf careful key cache log)
      (hx : keyOf x ≠ key ∨ (pieceOf x).IsWhole) :
      Run process keyOf pieceOf careful key (process cache x).2 log
  | fragment {cache : Cache κ η} {log : List Piece} (x : ι)
      (h : Run process keyOf pieceOf careful key cache log) (hkey : keyOf x = key)
      (hpiece : ¬(pieceOf x).IsWhole) (hcareful : careful cache x) :
      Run process keyOf pieceOf careful key (process cache x).2
        (logAfter (process cache x).2 key log (pieceOf x))

/-- A run holds what each of its steps holds. -/
theorem Run.held {process : Cache κ η → ι → Option ο × Cache κ η} {keyOf : ι → κ}
    {pieceOf : ι → Piece} {careful : Cache κ η → ι → Prop} {key : κ}
    {S : ReassemblyEntry η → List Piece → Prop} {cache : Cache κ η} {log : List Piece}
    (hrun : Run process keyOf pieceOf careful key cache log)
    (hoth : ∀ cache x, keyOf x ≠ key ∨ (pieceOf x).IsWhole → (process cache x).2 key = cache key)
    (hst : ∀ cache log x, Held S cache key log → keyOf x = key → ¬(pieceOf x).IsWhole →
      careful cache x →
        Held S (process cache x).2 key (logAfter (process cache x).2 key log (pieceOf x))) :
    Held S cache key log := by
  induction hrun with
  | start _ hnone => exact held_of_none hnone
  | other _ hx ih => exact ih.congr (hoth _ _ hx)
  | fragment _ _ hkey hpc hcar ih => exact hst _ _ _ ih hkey hpc hcar

end Runs

abbrev Run4 := Run processIpv4Fragment Ipv4Packet.key Ipv4Packet.piece
  fun cache packet => Careful (entryOf cache packet) packet.piece

abbrev Run6 := Run processIpv6Fragment Ipv6Fragment.key Ipv6Fragment.piece
  fun cache frag => Careful6 (entryOf6 cache frag) frag.piece

section Steps

variable {cache : FragmentCache} {packet : Ipv4Packet} {cache6 : Ipv6FragmentCache}
  {frag : Ipv6Fragment} {log : List Piece}

/-- **A step of the IPv4 reassembly**: what is kept is sound, and what is answered is made of the
pieces. -/
theorem processIpv4Fragment_step (h : Held Sound cache packet.key log)
    (hpc : ¬packet.piece.IsWhole) (hcar : Careful (entryOf cache packet) packet.piece) :
    Held Sound (processIpv4Fragment cache packet).2 packet.key
        (logAfter (processIpv4Fragment cache packet).2 packet.key log packet.piece) ∧
      ∀ answer, (processIpv4Fragment cache packet).1 = some answer →
        MadeOf answer.payload (log ++ [packet.piece]) := by
  have hent : Sound (entryOf cache packet) log := h.getD (sound_new _)
  rw [processIpv4Fragment_eq hpc]
  refine ⟨held_settle fun hov => hent.step hov hcar, fun answer hans => ?_⟩
  obtain ⟨hov, hcm, rfl⟩ := settle_eq_some hans
  obtain ⟨buf, hbuf, hmd⟩ := (hent.step hov hcar).complete hcm
  rw [ReassemblyEntry.packet, hbuf]
  exact hmd

/-- **A step of the IPv6 reassembly.** -/
theorem processIpv6Fragment_step (h : Held Sound6 cache6 frag.key log)
    (hpc : ¬frag.piece.IsWhole) (hcar : Careful6 (entryOf6 cache6 frag) frag.piece) :
    Held Sound6 (processIpv6Fragment cache6 frag).2 frag.key
        (logAfter (processIpv6Fragment cache6 frag).2 frag.key log frag.piece) ∧
      ∀ answer, (processIpv6Fragment cache6 frag).1 = some answer →
        MadeOf answer.2 (log ++ [frag.piece]) := by
  have hent : Sound6 (entryOf6 cache6 frag) log := h.getD (sound6_new _)
  rw [processIpv6Fragment_eq hpc]
  refine ⟨held_settle fun hkp => hent.step (Bool.or_eq_false_iff.mp hkp).2 hcar,
    fun answer hans => ?_⟩
  obtain ⟨hkp, hcm, rfl⟩ := settle_eq_some hans
  obtain ⟨buf, hbuf, hmd⟩ :=
    (hent.step (Bool.or_eq_false_iff.mp hkp).2 hcar).complete hcm
  rw [hbuf]
  exact hmd

end Steps

variable {log : List Piece}

theorem Run4.sound {key : FragmentKey} {cache : FragmentCache} (hrun : Run4 key cache log) :
    Held Sound cache key log := by
  refine hrun.held (fun cache packet hx => ?_) fun cache log packet h hkey hpc hcar => ?_
  · rcases hx with hne | hwhole
    · exact processIpv4Fragment_of_ne hne
    · rw [processIpv4Fragment_whole hwhole]
  · subst hkey
    exact (processIpv4Fragment_step h hpc hcar).1

theorem Run6.sound {key : Ipv6FragmentKey} {cache : Ipv6FragmentCache} (hrun : Run6 key cache log) :
    Held Sound6 cache key log := by
  refine hrun.held (fun cache frag hx => ?_) fun cache log frag h hkey hpc hcar => ?_
  · rcases hx with hne | hwhole
    · exact processIpv6Fragment_of_ne hne
    · rw [processIpv6Fragment_whole hwhole]
  · subst hkey
    exact (processIpv6Fragment_step h hpc hcar).1

/-- **The reassembly invents no bytes**: whatever a careful fragment answers after a run of careful
ones is as long as a last fragment says, and each of its bytes was carried at its place by exactly
one of the fragments that arrived since the entry was made. -/
theorem madeOf_of_run (key : FragmentKey) (cache : FragmentCache) (log : List Piece)
    (packet answer : Ipv4Packet) (key6 : Ipv6FragmentKey) (cache6 : Ipv6FragmentCache)
    (log6 : List Piece) (frag : Ipv6Fragment) (answer6 : UInt8 × List UInt8) :
    (Run4 key cache log → packet.key = key → ¬packet.piece.IsWhole →
      Careful (entryOf cache packet) packet.piece →
      (processIpv4Fragment cache packet).1 = some answer →
      MadeOf answer.payload (log ++ [packet.piece])) ∧
    (Run6 key6 cache6 log6 → frag.key = key6 → ¬frag.piece.IsWhole →
      Careful6 (entryOf6 cache6 frag) frag.piece →
      (processIpv6Fragment cache6 frag).1 = some answer6 →
      MadeOf answer6.2 (log6 ++ [frag.piece])) := by
  constructor
  · rintro hrun rfl hpc hcar hans
    exact (processIpv4Fragment_step hrun.sound hpc hcar).2 answer hans
  · rintro hrun rfl hpc hcar hans
    exact (processIpv6Fragment_step hrun.sound hpc hcar).2 answer6 hans

/-- A packet that carries a piece. -/
def packetOf (p : Piece) : Ipv4Packet where
  header := {
    totalLength := 0
    identification := 7
    flagsFragmentOffset := UInt16.ofNat (p.offset + if p.more then 2 ^ 13 else 0)
    ttl := 64
    protocol := .udp
    headerChecksum := 0
    source := ⟨10, 0, 0, 1⟩
    destination := ⟨10, 0, 0, 2⟩ }
  payload := p.data

/-- A fragment that carries a piece. -/
def fragOf (p : Piece) : Ipv6Fragment := ⟨⟨7, 1, 2⟩, 17, p⟩

theorem madeOf_of_run_two : MadeOf [1, 1, 1, 1, 1, 1, 1, 1, 2, 2, 2]
      [⟨0, List.replicate 8 1, true⟩, ⟨1, [2, 2, 2], false⟩] ∧
    MadeOf [1, 1, 1, 1, 1, 1, 1, 1, 2, 2, 2]
      [⟨0, List.replicate 8 1, true⟩, ⟨1, [2, 2, 2], false⟩] := by
  have hmd := madeOf_of_run (packetOf ⟨0, [], true⟩).key
    (processIpv4Fragment (fun _ => none) (packetOf ⟨0, List.replicate 8 1, true⟩)).2
    [⟨0, List.replicate 8 1, true⟩] (packetOf ⟨1, [2, 2, 2], false⟩)
    ⟨⟨31, 7, 0, 64, .udp, 0, ⟨10, 0, 0, 1⟩, ⟨10, 0, 0, 2⟩⟩, [1, 1, 1, 1, 1, 1, 1, 1, 2, 2, 2]⟩
    ⟨7, 1, 2⟩ (processIpv6Fragment (fun _ => none) (fragOf ⟨0, List.replicate 8 1, true⟩)).2
    [⟨0, List.replicate 8 1, true⟩] (fragOf ⟨1, [2, 2, 2], false⟩)
    (17, [1, 1, 1, 1, 1, 1, 1, 1, 2, 2, 2])
  constructor
  · exact hmd.1 (.fragment (packetOf ⟨0, List.replicate 8 1, true⟩) (.start (fun _ => none) rfl)
        rfl (by decide) ⟨by decide, fun h => absurd rfl h⟩)
      rfl (by decide) ⟨by decide, fun h => absurd rfl h⟩ (by decide +kernel)
  · exact hmd.2 (.fragment (fragOf ⟨0, List.replicate 8 1, true⟩) (.start (fun _ => none) rfl)
        rfl (by decide) ⟨by decide, nofun⟩)
      rfl (by decide) ⟨by decide, nofun⟩ (by decide +kernel)

/-- A payload with a byte that no piece has. -/
theorem not_madeOf {payload : List UInt8} (k : ℕ) (hk : k < payload.length)
    (h : ∀ p ∈ pieces, ¬p.Covers k) : ¬MadeOf payload pieces := by
  rintro ⟨-, hbytes⟩
  obtain ⟨before, p, after, rfl, hcvs, -⟩ := hbytes k hk
  exact h p (by simp) hcvs

/-- **Invented bytes.** For IPv4, a second last fragment of 5 bytes marks the block 1 of a datagram
of 24 bytes, and bytes 13 to 15 of the payload are nobody's. For IPv6, a second last fragment moves
the end from 32 to 16, and the payload still has 32 bytes, of which the third block is nobody's. -/
theorem processFragment_invents :
    (∃ key cache log packet answer, Run processIpv4Fragment Ipv4Packet.key Ipv4Packet.piece
        (fun _ packet => packet.piece.Aligned) key cache log ∧
      packet.key = key ∧ ¬packet.piece.IsWhole ∧ packet.piece.Aligned ∧
      (processIpv4Fragment cache packet).1 = some answer ∧
      ¬MadeOf answer.payload (log ++ [packet.piece])) ∧
    ∃ key cache log frag answer, Run processIpv6Fragment Ipv6Fragment.key Ipv6Fragment.piece
        (fun _ frag => frag.piece.Aligned) key cache log ∧
      frag.key = key ∧ ¬frag.piece.IsWhole ∧ frag.piece.Aligned ∧
      (processIpv6Fragment cache frag).1 = some answer ∧
      ¬MadeOf answer.2 (log ++ [frag.piece]) := by
  constructor
  · refine ⟨(packetOf ⟨0, [], true⟩).key, _, _, packetOf ⟨0, List.replicate 8 1, true⟩,
      ⟨⟨44, 7, 0, 64, .udp, 0, ⟨10, 0, 0, 1⟩, ⟨10, 0, 0, 2⟩⟩,
        List.replicate 8 1 ++ [2, 2, 2, 2, 2, 0, 0, 0] ++ List.replicate 8 3⟩,
      .fragment (packetOf ⟨1, List.replicate 5 2, false⟩)
        (.fragment (packetOf ⟨2, List.replicate 8 3, false⟩) (.start (fun _ => none) rfl)
          rfl (by decide) (by decide)) rfl (by decide) (by decide),
      rfl, by decide, by decide, by decide +kernel, not_madeOf 13 (by decide) ?_⟩
    decide +kernel
  · refine ⟨⟨7, 1, 2⟩, _, _, fragOf ⟨0, List.replicate 8 1, true⟩,
      (17, List.replicate 8 1 ++ List.replicate 8 2 ++ List.replicate 8 0 ++ List.replicate 8 3),
      .fragment (fragOf ⟨1, List.replicate 8 2, false⟩)
        (.fragment (fragOf ⟨3, List.replicate 8 3, false⟩) (.start (fun _ => none) rfl)
          rfl (by decide) (by decide)) rfl (by decide) (by decide),
      rfl, by decide, by decide, by decide +kernel, not_madeOf 16 (by decide) ?_⟩
    decide +kernel

end Protofire.Network.Fragments
