import Protofire.Lib.Bitmap
import Protofire.Lib.Bytes

/-!
# The kernel heap

The kernel's allocator cuts one span of memory into blocks. A block starts with a header of two
words, its size with the used flag in the lowest bit and the address of the block before it; a
free block has the link of its free list in the third word, and a used block has a canary in its
last one. The free blocks are kept in lists by the class of their size, and two levels of
bitmaps tell which lists have a block.

The headers, the links and the canaries are in the memory that is handed out, so the state is
the memory, byte by byte, with the allocator's own record beside it. Pointers are numbers, and
the null pointer is `0`. The sums of addresses the source writes with `wrapping_add` do not wrap
in the states of interest and are plain sums here; where the source checks a sum, so does the
model.
-/

namespace Protofire.Tlsf

open Bitmap Function

/-! ### Constants -/

def kernelHeapSize : ℕ := 64 * 1024 * 1024
def heapBlockAlignment : ℕ := 16
def flMin : ℕ := 5
def flMax : ℕ := 26
def flCount : ℕ := flMax - flMin + 1
def slCount : ℕ := 32
def slIndexLog2 : ℕ := 5
def headerSize : ℕ := 16
def freeNextOffset : ℕ := headerSize
def minFreeBlock : ℕ := 32
def freshZeroBytes : ℕ := 2048
def canarySize : ℕ := 8
def canaryValue : ℕ := 0xC0DEC0DEC0DEC0DE

/-- The numbers of a machine word. -/
def wordBound : ℕ := 2 ^ 64

/-- The memory with the allocator's record. -/
structure Heap where
  mem : Bytes
  start : ℕ
  stop : ℕ
  available : ℕ
  /-- A bit for each first-level class with a block. -/
  flBitmap : BitVec 32
  /-- For each first-level class, a bit for each of its second-level classes with a block. -/
  slBitmaps : ℕ → BitVec 32
  /-- The first block of each free list; `0` is the empty list. -/
  freeLists : ℕ → ℕ

/-! ### Checked arithmetic -/

def saturatingAdd (a b : ℕ) : ℕ := min (a + b) (wordBound - 1)

def checkedAdd (a b : ℕ) : Option ℕ := if a + b < wordBound then some (a + b) else none

def checkedSub (a b : ℕ) : Option ℕ := if b ≤ a then some (a - b) else none

/-- Round up to a multiple of a power of two. The source clears the low bits of the sum. -/
def alignUp (value align : ℕ) : Option ℕ :=
  (checkedAdd value (align - 1)).map fun sum => sum - sum % align

namespace Heap

/-! ### Blocks -/

variable (h : Heap)

section

variable (block : ℕ)

/-- The size word with its tag. -/
def blockRawSize : ℕ := h.mem.word block

/-- `block_size`: the tag is masked away. -/
def blockSize : ℕ := h.blockRawSize block - h.blockRawSize block % 2

/-- `block_is_used`: the lowest bit of the size word. -/
def blockIsUsed : Bool := h.blockRawSize block % 2 != 0

def setWord (h : Heap) (address value : ℕ) : Heap := { h with mem := h.mem.setWord address value }

/-- Write the size, with the flag that is there. -/
def blockSetSize (block size : ℕ) : Heap :=
  h.setWord block (size ||| h.blockRawSize block % 2)

def blockSetUsed : Heap := h.setWord block (h.blockRawSize block ||| 1)

def blockClearUsed : Heap := h.setWord block (h.blockSize block)

/-- `block_prev_phys`: where the block before this one starts. -/
def blockPrevPhys : ℕ := h.mem.word (block + 8)

def blockSetPrevPhys (block prev : ℕ) : Heap := h.setWord (block + 8) prev

/-- Tell the block after a block what comes before it. -/
def blockSetPrevPhysOfNext (block newPrev : ℕ) : Heap :=
  if block + h.blockSize block < h.stop then
    h.blockSetPrevPhys (block + h.blockSize block) newPrev
  else h

/-- `block_next_free`: the link of its free list, kept in the payload. -/
def blockNextFree : ℕ := h.mem.word (block + freeNextOffset)

def blockSetNextFree (block next : ℕ) : Heap := h.setWord (block + freeNextOffset) next

/-! ### Classes of sizes -/

/-- The class of a size: the position of its highest bit, and the five bits below it. -/
def mapping (size : ℕ) : ℕ × ℕ :=
  let fl := size.log2
  (fl, ((size >>> (fl - slIndexLog2)) ^^^ (1 <<< slIndexLog2)) &&& (slCount - 1))

/-- The free list of a size class. -/
def listIndex (fl sl : ℕ) : ℕ := (fl - flMin) * slCount + sl

/-! ### Free lists -/

/-- `zero_fresh_header_region`: at most `freshZeroBytes` of the block. -/
def zeroFreshHeaderRegion : Heap :=
  let zeroEnd := min (block + freshZeroBytes) (block + h.blockSize block)
  { h with mem := h.mem.clear (block + headerSize + 8) zeroEnd }

/-- Put a block at the head of the list of its class. -/
def insertFreeBlock : Heap :=
  let size := h.blockSize block
  if size < minFreeBlock then h
  else
    let (fl, sl) := mapping size
    let idx := listIndex fl sl
    let h := h.blockSetNextFree block (h.freeLists idx)
    let h := h.zeroFreshHeaderRegion block
    { h with
      freeLists := update h.freeLists idx block
      flBitmap := h.flBitmap ||| 1#32 <<< (fl - flMin)
      slBitmaps := update h.slBitmaps (fl - flMin)
        (h.slBitmaps (fl - flMin) ||| 1#32 <<< sl) }

/-- Walk a list to a block and take it out. The first argument bounds the walk. -/
def unlink : ℕ → Heap → (idx block prev current : ℕ) → Heap
  | 0, h, _, _, _, _ => h
  | rounds + 1, h, idx, block, prev, current =>
    if current = 0 then h
    else if current = block then
      let next := h.blockNextFree current
      if prev = 0 then { h with freeLists := update h.freeLists idx next }
      else h.blockSetNextFree prev next
    else unlink rounds h idx block current (h.blockNextFree current)

/-- Clear the bits of a class whose list is empty. -/
def clearBits (fl sl : ℕ) : Heap :=
  if h.freeLists (listIndex fl sl) = 0 then
    let slBitmap := h.slBitmaps (fl - flMin) &&& ~~~(1#32 <<< sl)
    { h with
      slBitmaps := update h.slBitmaps (fl - flMin) slBitmap
      flBitmap := if slBitmap = 0 then h.flBitmap &&& ~~~(1#32 <<< (fl - flMin))
        else h.flBitmap }
  else h

/-- A block takes at least `minFreeBlock` bytes, so no list is longer than this. -/
def listBound : ℕ := (h.stop - h.start) / minFreeBlock + 1

/-- Take a block out of the list of its class. -/
def removeFreeBlock : Heap :=
  let size := h.blockSize block
  if size < minFreeBlock then h
  else
    let (fl, sl) := mapping size
    let idx := listIndex fl sl
    (unlink h.listBound h idx block 0 (h.freeLists idx)).clearBits fl sl

end

/-- The first block of the first list, from a class on, that has one; `0` if there is none. -/
def findFrom (startFl sl : ℕ) : ℕ :=
  let flIdx := startFl - flMin
  let slMask := h.slBitmaps flIdx &&& ~~~(1#32 <<< sl - 1)
  if slMask ≠ 0 then h.freeLists (listIndex startFl (trailingZeros slMask))
  else
    let flMask := h.flBitmap &&& (1#32 <<< flCount - 1) &&& ~~~(1#32 <<< (flIdx + 1) - 1)
    if flMask ≠ 0 then
      let nextFlBit := trailingZeros flMask
      let slMask := h.slBitmaps nextFlBit
      if slMask ≠ 0 then h.freeLists (listIndex (nextFlBit + flMin) (trailingZeros slMask))
      else 0
    else 0

/-- The search from the class of a size on. -/
def findSuitableBlock (minSize : ℕ) : ℕ :=
  let (fl, sl) := if minSize < 1 <<< flMin then (flMin, 0) else mapping minSize
  h.findFrom (min (max fl flMin) flMax) sl

/-! ### Canaries and the walk over the blocks -/

/-- What is wrong with the heap, and where. -/
structure HeapDefect where
  address : ℕ
  reason : String
deriving DecidableEq

/-- `canary_write`: into the last word of the block. -/
def canaryWrite (blockStart : ℕ) : Heap :=
  h.setWord (blockStart + h.blockSize blockStart - canarySize) canaryValue

/-- `canary_check`. -/
def canaryCheck (blockStart : ℕ) : Except HeapDefect Unit :=
  let size := h.blockSize blockStart
  if size < canarySize then
    .error ⟨blockStart, "block is smaller than the canary it must hold"⟩
  else if h.mem.word (blockStart + size - canarySize) ≠ canaryValue then
    .error ⟨blockStart, "canary overwritten: an allocation wrote past its own bytes"⟩
  else .ok ()

/-- The checks of one block of the walk, and where the next one is. -/
def checkBlock (previous : Option ℕ) (block : ℕ) : Except HeapDefect ℕ :=
  let size := h.blockSize block
  if block % heapBlockAlignment ≠ 0 then .error ⟨block, "block is not aligned"⟩
  else if size < minFreeBlock then
    .error ⟨block, "block size is below the minimum free block size"⟩
  else if size % heapBlockAlignment ≠ 0 then
    .error ⟨block, "block size is not a multiple of the block alignment"⟩
  else if h.stop < block + size then .error ⟨block, "block extends past the end of the heap"⟩
  else if block + size < h.stop ∧ h.blockPrevPhys (block + size) ≠ block then
    .error ⟨block + size, "prev_phys does not point at the preceding block"⟩
  else if previous.any (h.blockPrevPhys block != ·) then
    .error ⟨block, "prev_phys does not point at the preceding block"⟩
  else .ok (block + size)

/-- The walk over the blocks. Each block is at least `minFreeBlock` bytes long or ends it, so
the bound is not reached. -/
def checkWalk : ℕ → Heap → Option ℕ → ℕ → Except HeapDefect Unit
  | 0, _, _, block => .error ⟨block, "walk bound"⟩
  | rounds + 1, h, previous, block =>
    if block < h.stop then
      match h.checkBlock previous block with
      | .error defect => .error defect
      | .ok next => checkWalk rounds h (some block) next
    else if block ≠ h.stop then
      .error ⟨block, "block walk did not land on the end of the heap"⟩
    else .ok ()

/-- `check_invariants`: the walk over all blocks. -/
def checkInvariants : Except HeapDefect Unit :=
  if h.start = 0 ∨ h.stop ≤ h.start then .error ⟨h.start, "heap bounds are not initialised"⟩
  else checkWalk h.listBound h none h.start

/-! ### Coalescing -/

/-- The size of a block that acknowledges its predecessor. -/
def validateCoalesceNeighbour (candidate predecessor heapEnd : ℕ) : Option ℕ :=
  let size := h.blockSize candidate
  if candidate % heapBlockAlignment ≠ 0 then none
  else if size < minFreeBlock then none
  else if heapEnd < candidate + size then none
  else if h.blockPrevPhys candidate ≠ predecessor then none
  else some size

/-- Merge a block with the one before it, if that is free. -/
def coalescePrev (block size : ℕ) : Heap × ℕ × ℕ :=
  let prev := h.blockPrevPhys block
  if h.start < block ∧ h.start ≤ prev ∧ prev < block ∧ prev + h.blockSize prev = block ∧
      h.blockIsUsed prev = false ∧ prev % heapBlockAlignment = 0 ∧
      minFreeBlock ≤ h.blockSize prev then
    (h.removeFreeBlock prev, prev, size + h.blockSize prev)
  else (h, block, size)

/-- Merge a block with the one after it, if that is free and acknowledges it. -/
def coalesceNext (start size : ℕ) : Heap × ℕ :=
  if start + size < h.stop ∧ h.blockIsUsed (start + size) = false then
    match h.validateCoalesceNeighbour (start + size) start h.stop with
    | some nextSize => (h.removeFreeBlock (start + size), size + nextSize)
    | none => (h, size)
  else (h, size)

/-- Merge a free block with the blocks beside it. -/
def coalesce (block : ℕ) : Heap × ℕ :=
  let (h, start, size) := h.coalescePrev block (h.blockSize block)
  let (h, size) := h.coalesceNext start size
  let h := h.blockSetSize start size
  let h := h.blockClearUsed start
  (h.blockSetPrevPhysOfNext start start, start)

/-! ### Allocating -/

/-- The size and the alignment of a request. -/
structure Layout where
  size : ℕ
  align : ℕ
deriving DecidableEq

variable (layout : Layout)

/-- The bytes of a request with its canary. -/
def Layout.reservedSize : ℕ := saturatingAdd (max layout.size 1) canarySize

/-- `requested_align`. -/
def Layout.requestedAlign : ℕ := max layout.align heapBlockAlignment

/-- The size of a block that is sure to hold a request. -/
def Layout.minBlockSize : ℕ :=
  let endRound :=
    (wordBound + heapBlockAlignment - (headerSize + layout.reservedSize) % wordBound) % wordBound %
      heapBlockAlignment
  saturatingAdd (saturatingAdd (saturatingAdd headerSize layout.reservedSize)
    (layout.requestedAlign - heapBlockAlignment)) endRound

/-- Where a request goes in a block: its payload, the header before it and the end of it. -/
def placeIn (candidate : ℕ) (layout : Layout) : Option (ℕ × ℕ × ℕ) := do
  let payloadStart ← alignUp (candidate + headerSize) layout.requestedAlign
  let allocHeaderStart ← checkedSub payloadStart headerSize
  let allocEnd ← (checkedAdd allocHeaderStart headerSize).bind (checkedAdd · layout.reservedSize)
  let allocEnd ← alignUp allocEnd heapBlockAlignment
  pure (payloadStart, allocHeaderStart, allocEnd)

/-- The least size of the class after the class of a size. -/
def nextClassMin (size : ℕ) : ℕ :=
  let (fl, sl) := mapping size
  if sl + 1 < slCount then 1 <<< fl + (sl + 1) * 1 <<< (fl - slIndexLog2) else 1 <<< (fl + 1)

/-- The header of the block that is handed out, and what lies before it in the block it is cut
from: a free block of its own, or padding of the handed-out block with a forwarding word. The
results are the start and the size of the block. -/
def carveFront (candidate allocHeaderStart allocationEnd : ℕ) : Heap × ℕ × ℕ :=
  let prefixSize := allocHeaderStart - candidate
  if minFreeBlock ≤ prefixSize then
    let h := (h.blockSetSize candidate prefixSize).blockClearUsed candidate
    let h := h.insertFreeBlock candidate
    let allocatedSize := allocationEnd - allocHeaderStart
    let h := (h.blockSetSize allocHeaderStart allocatedSize).blockSetUsed allocHeaderStart
    (h, allocHeaderStart, allocatedSize)
  else if 0 < prefixSize then
    let allocatedSize := allocationEnd - candidate
    let h := (h.blockSetSize candidate allocatedSize).blockSetUsed candidate
    (h.setWord allocHeaderStart candidate, candidate, allocatedSize)
  else
    let allocatedSize := allocationEnd - allocHeaderStart
    let h := (h.blockSetSize allocHeaderStart allocatedSize).blockSetUsed allocHeaderStart
    (h, allocHeaderStart, allocatedSize)

/-- The block after the one that is handed out, if what is left is enough for one. -/
def carveBack (allocStart allocEnd blockEnd : ℕ) : Heap :=
  if minFreeBlock ≤ blockEnd - allocEnd then
    let h := (h.blockSetSize allocEnd (blockEnd - allocEnd)).blockClearUsed allocEnd
    let h := h.blockSetPrevPhys allocEnd allocStart
    h.insertFreeBlock allocEnd
  else h

/-- The tags of the blocks around the cuts. -/
def fixPrevPhys (candidate allocHeaderStart allocStart allocEnd blockEnd : ℕ) : Heap :=
  let h := if minFreeBlock ≤ allocHeaderStart - candidate then
    h.blockSetPrevPhys allocHeaderStart candidate else h
  if minFreeBlock ≤ blockEnd - allocEnd then h.blockSetPrevPhysOfNext allocEnd allocEnd
  else if blockEnd < h.stop then h.blockSetPrevPhys blockEnd allocStart
  else h

/-- Cut a free block that is on no list around a request. -/
def carve (candidate allocHeaderStart allocEnd blockEnd : ℕ) : Heap :=
  let allocationEnd := if minFreeBlock ≤ blockEnd - allocEnd then allocEnd else blockEnd
  let (h, allocStart, allocatedSize) := h.carveFront candidate allocHeaderStart allocationEnd
  let h := h.carveBack allocStart allocEnd blockEnd
  let h := h.fixPrevPhys candidate allocHeaderStart allocStart allocEnd blockEnd
  let h := h.canaryWrite allocStart
  { h with available := h.available - allocatedSize }

/-- The search for a block, one a round; a block that turns out to be too tight is put back and
the search goes on in the classes after its own. -/
def search : ℕ → Heap → Layout → ℕ → Option (ℕ × Heap)
  | 0, _, _, _ => none
  | rounds + 1, h, layout, minBlockSize =>
    let candidate := h.findSuitableBlock minBlockSize
    if candidate = 0 then some (0, h)
    else
      let h := h.removeFreeBlock candidate
      let blockEnd := saturatingAdd candidate (h.blockSize candidate)
      match placeIn candidate layout with
      | none => some (0, h.insertFreeBlock candidate)
      | some (payloadStart, allocHeaderStart, allocEnd) =>
        if blockEnd < allocEnd then
          let h := h.insertFreeBlock candidate
          search rounds h layout (nextClassMin (h.blockSize candidate))
        else some (payloadStart, h.carve candidate allocHeaderStart allocEnd blockEnd)

/-- The search goes up the classes, so it takes a round for each at most. -/
def searchBound : ℕ := flCount * slCount + 1

/-- `allocate_locked`. -/
def allocateLocked : Option (ℕ × Heap) :=
  search searchBound h layout layout.minBlockSize

/-! ### Deallocating -/

/-- The block of a pointer: the one before it, or the one the forwarding word names. -/
def headerOf (payloadStart nominal : ℕ) : ℕ :=
  if h.start ≤ nominal ∧ nominal < h.stop then
    let fwd := h.mem.word nominal
    if h.start ≤ fwd ∧ fwd < nominal ∧ fwd % heapBlockAlignment = 0 ∧
        nominal = fwd + heapBlockAlignment then
      let size := h.blockSize fwd
      if h.blockIsUsed fwd = true ∧ headerSize ≤ size ∧ fwd ≤ payloadStart ∧
          payloadStart < fwd + size ∧ fwd + size ≤ h.stop then fwd
      else nominal
    else nominal
  else nominal

/-- Give a block back. An error is the panic of a damaged canary. -/
def deallocateLocked (ptr : ℕ) : Except HeapDefect (Bool × Heap) :=
  if ptr = 0 then .ok (false, h)
  else match checkedSub ptr headerSize with
    | none => .ok (false, h)
    | some nominal =>
      let headerStart := h.headerOf ptr nominal
      let size := h.blockSize headerStart
      if ¬(h.start ≤ headerStart ∧ headerStart < h.stop) then .ok (false, h)
      else if size = 0 ∨ size < headerSize then .ok (false, h)
      else if h.blockIsUsed headerStart = false then .ok (false, h)
      else match h.canaryCheck headerStart with
        | .error defect => .error defect
        | .ok () =>
          let h := { h with available := saturatingAdd h.available size }
          let h := h.blockClearUsed headerStart
          let (h, block) := h.coalesce headerStart
          .ok (true, h.insertFreeBlock block)

/-! ### The heap at the start -/

/-- The heap before it is initialised. -/
def new (mem : Bytes) : Heap where
  mem := mem
  start := 0
  stop := 0
  available := 0
  flBitmap := 0
  slBitmaps := fun _ => 0
  freeLists := fun _ => 0

/-- One free block over the whole span. -/
def initializeHeap (start : ℕ) : Heap :=
  let h := { h with start := start, stop := start + kernelHeapSize, available := kernelHeapSize }
  let h := (h.blockSetSize start kernelHeapSize).blockClearUsed start
  let h := h.blockSetPrevPhys start 0
  h.insertFreeBlock start

end Heap

end Protofire.Tlsf
