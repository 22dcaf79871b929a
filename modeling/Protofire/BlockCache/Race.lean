import Protofire.BlockCache.Moves

/-!
# A flush among concurrent calls

The functions of the block cache take its locks section by section, so calls of several
threads interleave between the sections. Here each lock-protected section is one atomic
step, and a state holds, beside the shared cache, where one flush and any number of
`write_back` and `read_cached` calls stand. What is asked of the end is that every block
whose cached data differs from what the device has received is marked dirty.

`write_back` stores its data in one section and stamps the slot with a new generation in a
later one, while a flush recognizes a rewritten slot by its generation alone. A write that
completes between the two sections finds the generation it was submitted with and clears
the flag of data the device never received. `FlushRace.loses_rewrite` is that run, with one
block, one flush and one call.

`FlushRace.coherent_of_careful` says what the interleaving has to avoid, and that nothing
else goes wrong: the window above (`Careful.retire`); a device write of a block while a
read still carries the copy it read before (`Careful.submit`, `Careful.evictionWrite`); an
evicted block coming back into the cache before its own write; a second slot for a block
that waits for an evicted one (`Careful.refill`); and a generation counter that wraps.
-/

namespace Protofire

open List Option CacheEntry CacheM Function

namespace FlushRace

/-! ### The shared state -/

/-- What the threads share. `received` is, for each block, the data the device received
last. -/
structure Shared where
  cache : BlockCache
  tick : ℕ
  blockCount : ℕ
  received : ℕ → Block
  blockCount_le : blockCount ≤ u64Max

namespace Shared

variable (sh : Shared)

/-- Put an entry into a slot. -/
def put (sh : Shared) (i : ℕ) (e : CacheEntry) : Shared := { sh with cache := sh.cache.put i e }

/-- The device receives a block. -/
def receive (lba : ℕ) (data : Block) : Shared :=
  { sh with received := update sh.received lba data }

/-- The section of `next_generation`. -/
def counted : Shared :=
  { sh with cache := { sh.cache with generation := (sh.cache.generation + 1) % 2 ^ 64 } }

/-- The section that notes the last LBA read. -/
def noted (lba : ℕ) : Shared :=
  { sh with cache := { sh.cache with lastReadLba := lba } }

end Shared

/-! ### The calls -/

/-- An `insert` that has its generation, with the blocks its caller inserts after it. -/
structure Insertion where
  lba : ℕ
  data : Block
  generation : ℕ
  dirty : Bool
  dirtySince : ℕ
  rest : List (ℕ × Block)

/-- The entry an insertion puts into its slot. -/
def Insertion.entry (n : Insertion) : CacheEntry :=
  { lba := n.lba, data := n.data, generation := n.generation, dirty := n.dirty
    dirtySince := n.dirtySince }

/-- Where a call stands: the section it takes next. -/
inductive Call where
  /-- `write_back`, before its first section. -/
  | writeBack (lba : ℕ) (data : Block)
  /-- `read_cached`, before its first section. -/
  | readCached (lba : ℕ)
  /-- `bump_generation_and_update`, before it takes a number. A `write_back` remembers here
  the generation its slot carried when it stored its data; the code does not. -/
  | bump (lba : ℕ) (seen : Option ℕ)
  /-- `bump_generation_and_update`, with its number. -/
  | stamp (lba generation : ℕ) (seen : Option ℕ)
  /-- A hit of `read_cached` that has still to note its LBA. -/
  | noteRead (lba : ℕ)
  /-- A miss of `read_cached` that has still to note its LBA. -/
  | missed (lba : ℕ)
  /-- A sequential miss that looks for the blocks to read ahead. -/
  | looking (lba found depth : ℕ)
  /-- A miss about to read so many blocks from the device. -/
  | reading (lba blocks : ℕ)
  /-- The insertions still to make. -/
  | insert (todo : List (ℕ × Block)) (dirty : Bool)
  /-- An insertion about to look for its slot. -/
  | insertAt (n : Insertion)
  /-- An insertion that has emptied the slot of a dirty block and has to write it. -/
  | evicting (victim : CacheEntry) (n : Insertion)
  /-- An insertion about to look for the slot it has emptied. -/
  | refilling (n : Insertion)
  /-- The call has returned. -/
  | finished

/-- The slot `insert` takes without an eviction. -/
def insertSlot (c : BlockCache) (lba : ℕ) : Option ℕ :=
  match c.slot fun e => e.lba == lba with
  | some i => some i
  | none =>
    match c.slot isEmpty with
    | some i => some i
    | none => (c.leastRecent fun e => !e.dirty).map Prod.snd

/-- What a step is, as far as carefulness depends on it. -/
inductive Event where
  /-- The section of `submit_selected`. -/
  | submit
  /-- The section of `retire_write`. -/
  | retire
  /-- The device write of an evicted block. -/
  | evictionWrite (lba : ℕ)
  /-- The second section of an insertion that evicted. -/
  | refill (lba : ℕ)
  /-- Anything else. -/
  | other
  deriving DecidableEq

/-- **One section of a call.** -/
inductive CallStep : Shared → Call → Event → Shared → Call → Prop
  | storeHit {sh : Shared} {lba i : ℕ} {data : Block} {e : CacheEntry}
      (hs : (sh.cache.slot fun e => e.lba == lba) = some i) (hi : sh.cache.entries[i]? = some e) :
      CallStep sh (.writeBack lba data) .other
        (sh.put i { e with data, dirty := true, dirtySince := sh.tick })
        (.bump lba (some e.generation))
  | storeMiss {sh : Shared} {lba : ℕ} {data : Block}
      (hs : (sh.cache.slot fun e => e.lba == lba) = none) :
      CallStep sh (.writeBack lba data) .other sh (.insert [(lba, data)] true)
  | readHit {sh : Shared} {lba i : ℕ} (hs : (sh.cache.slot fun e => e.lba == lba) = some i) :
      CallStep sh (.readCached lba) .other sh (.bump lba none)
  | readMiss {sh : Shared} {lba : ℕ} (hs : (sh.cache.slot fun e => e.lba == lba) = none) :
      CallStep sh (.readCached lba) .other sh (.missed lba)
  | takeNumber {sh : Shared} {lba : ℕ} {seen : Option ℕ} :
      CallStep sh (.bump lba seen) .other sh.counted (.stamp lba sh.cache.generation seen)
  | stampHit {sh : Shared} {lba i generation : ℕ} {seen : Option ℕ} {e : CacheEntry}
      (hs : (sh.cache.slot fun e => e.lba == lba) = some i) (hi : sh.cache.entries[i]? = some e) :
      CallStep sh (.stamp lba generation seen) .other (sh.put i { e with generation })
        (if seen = none then .noteRead lba else .finished)
  | stampMiss {sh : Shared} {lba generation : ℕ} {seen : Option ℕ}
      (hs : (sh.cache.slot fun e => e.lba == lba) = none) :
      CallStep sh (.stamp lba generation seen) .other sh
        (if seen = none then .noteRead lba else .finished)
  | noteHit {sh : Shared} {lba : ℕ} :
      CallStep sh (.noteRead lba) .other (sh.noted lba) .finished
  | noteMiss {sh : Shared} {lba : ℕ} :
      CallStep sh (.missed lba) .other (sh.noted lba) (.looking lba 0
        (if sh.cache.lastReadLba != u64Max && lba == sh.cache.lastReadLba + 1
          then min sh.cache.readAheadDepth prefetchRunBlocks else 0))
  | lookFurther {sh : Shared} {lba found depth : ℕ} (hd : found < depth)
      (hc : sh.cache.isCached (lba + found + 1) = false) :
      CallStep sh (.looking lba found depth) .other sh (.looking lba (found + 1) depth)
  | lookEnd {sh : Shared} {lba found depth : ℕ}
      (h : depth ≤ found ∨ sh.cache.isCached (lba + found + 1) = true) :
      CallStep sh (.looking lba found depth) .other sh (.reading lba (found + 1))
  | readDevice {sh : Shared} {lba blocks : ℕ} (h : lba + blocks ≤ sh.blockCount) :
      CallStep sh (.reading lba blocks) .other sh
        (.insert ((range blocks).map fun k => (lba + k, sh.received (lba + k))) false)
  | readFails {sh : Shared} {lba blocks : ℕ} :
      CallStep sh (.reading lba blocks) .other sh .finished
  | insertDone {sh : Shared} {dirty : Bool} : CallStep sh (.insert [] dirty) .other sh .finished
  | insertNext {sh : Shared} {lba : ℕ} {data : Block} {rest : List (ℕ × Block)} {dirty : Bool} :
      CallStep sh (.insert ((lba, data) :: rest) dirty) .other sh.counted
        (.insertAt ⟨lba, data, sh.cache.generation, dirty, if dirty then sh.tick else 0, rest⟩)
  | insertPut {sh : Shared} {n : Insertion} {i : ℕ} (hs : insertSlot sh.cache n.lba = some i) :
      CallStep sh (.insertAt n) .other (sh.put i n.entry) (.insert n.rest n.dirty)
  | insertEvict {sh : Shared} {n : Insertion} {i : ℕ} {victim : CacheEntry}
      (hs : insertSlot sh.cache n.lba = none)
      (hv : (sh.cache.leastRecent fun _ => true) = some (victim, i)) :
      CallStep sh (.insertAt n) .other (sh.put i CacheEntry.empty) (.evicting victim n)
  | evictWrite {sh : Shared} {n : Insertion} {victim : CacheEntry}
      (hlba : victim.lba < sh.blockCount) :
      CallStep sh (.evicting victim n) (.evictionWrite victim.lba)
        (sh.receive victim.lba victim.data) (.refilling n)
  | evictWriteFails {sh : Shared} {n : Insertion} {victim : CacheEntry} :
      CallStep sh (.evicting victim n) (.evictionWrite victim.lba) sh (.refilling n)
  | refill {sh : Shared} {n : Insertion} {i : ℕ}
      (hs : sh.cache.slot isEmpty = some i) :
      CallStep sh (.refilling n) (.refill n.lba) (sh.put i n.entry) (.insert n.rest n.dirty)

/-! ### The flush -/

/-- A write the flush has handed to the device. -/
structure PendingWrite where
  lba : ℕ
  generation : ℕ

/-- The section of `submit_selected`: blocks are stamped and handed over, under one lock,
until the queue is full, nothing is left, or the device refuses. The last index says
whether it refused. -/
inductive Submits (select : CacheEntry → Bool) (depth : ℕ) :
    Shared → List PendingWrite → List ℕ → Shared → List PendingWrite → List ℕ → Bool → Prop
  | full {sh : Shared} {pending : List PendingWrite} {attempted : List ℕ}
      (h : depth ≤ pending.length) :
      Submits select depth sh pending attempted sh pending attempted false
  | nothing {sh : Shared} {pending : List PendingWrite} {attempted : List ℕ}
      (h : (sh.cache.entries.zipIdx.find? fun x =>
        submittable select attempted x.1) = none) :
      Submits select depth sh pending attempted sh pending attempted false
  | refused {sh : Shared} {pending : List PendingWrite} {attempted : List ℕ} {e : CacheEntry}
      {i : ℕ} (lands : Bool) (hroom : pending.length < depth)
      (h : (sh.cache.entries.zipIdx.find? fun x =>
        submittable select attempted x.1) = some (e, i))
      (hlba : lands = true → e.lba < sh.blockCount) :
      Submits select depth sh pending attempted
        (if lands
          then (sh.counted.put i { e with generation := sh.cache.generation }).receive e.lba e.data
          else sh.counted.put i { e with generation := sh.cache.generation })
        pending attempted true
  | handed {sh sh' : Shared} {pending pending' : List PendingWrite} {attempted attempted' : List ℕ}
      {failed : Bool} {e : CacheEntry} {i : ℕ} (hroom : pending.length < depth)
      (h : (sh.cache.entries.zipIdx.find? fun x =>
        submittable select attempted x.1) = some (e, i)) (hlba : e.lba < sh.blockCount)
      (hrest : Submits select depth
        ((sh.counted.put i { e with generation := sh.cache.generation }).receive e.lba e.data)
        (pending ++ [⟨e.lba, sh.cache.generation⟩]) (attempted ++ [e.lba])
        sh' pending' attempted' failed) :
      Submits select depth sh pending attempted sh' pending' attempted' failed

/-- Where the flush stands. -/
inductive FlushStage where
  /-- About to top up the queue. -/
  | topUp
  /-- Waiting for the oldest write. -/
  | waiting
  /-- The oldest write has completed, and is about to be retired. -/
  | completed
  /-- The flush has returned. -/
  | returned
  deriving DecidableEq

/-- The flush: what it waits for, what it has handed over, whether something failed. -/
structure Flush where
  stage : FlushStage
  pending : List PendingWrite
  attempted : List ℕ
  failed : Bool

/-- The section of `retire_write`. -/
def retire (c : BlockCache) (p : PendingWrite) : BlockCache :=
  match c.entries.zipIdx.find? fun x => x.1.lba == p.lba && x.1.generation == p.generation with
  | none => c
  | some (e, i) => if e.dirty then c.put i { e with dirty := false, dirtySince := 0 } else c

/-- **One section of the flush.** -/
inductive FlushStep (select : CacheEntry → Bool) (depth : ℕ) :
    Shared → Flush → Event → Shared → Flush → Prop
  | submit {sh sh' : Shared} {fl : Flush} {pending : List PendingWrite} {attempted : List ℕ}
      {failed : Bool} (hs : fl.stage = .topUp) (hf : fl.failed = false)
      (h : Submits select depth sh fl.pending fl.attempted sh' pending attempted failed) :
      FlushStep select depth sh fl .submit sh'
        ⟨if pending = [] then .returned else .waiting, pending, attempted, failed⟩
  | skip {sh : Shared} {fl : Flush} (hs : fl.stage = .topUp) (hf : fl.failed = true) :
      FlushStep select depth sh fl .other sh
        { fl with stage := if fl.pending = [] then .returned else .waiting }
  | complete {sh : Shared} {fl : Flush} (hs : fl.stage = .waiting) :
      FlushStep select depth sh fl .other sh { fl with stage := .completed }
  | fail {sh : Shared} {fl : Flush} (hs : fl.stage = .waiting) :
      FlushStep select depth sh fl .other sh ⟨.topUp, fl.pending.tail, fl.attempted, true⟩
  | retire {sh : Shared} {fl : Flush} {p : PendingWrite} {rest : List PendingWrite}
      (hs : fl.stage = .completed) (hp : fl.pending = p :: rest) :
      FlushStep select depth sh fl .retire { sh with cache := retire sh.cache p }
        ⟨.topUp, rest, fl.attempted, fl.failed⟩

/-! ### The system -/

/-- The shared state, the flush and the calls. -/
structure State where
  shared : Shared
  flush : Flush
  calls : List Call

/-- **One step of the system**: a section of the flush, a section of a call, a new call, or
the clock. -/
inductive Step (select : CacheEntry → Bool) (depth : ℕ) : State → Event → State → Prop
  | flush {s : State} {ev : Event} {sh : Shared} {fl : Flush}
      (h : FlushStep select depth s.shared s.flush ev sh fl) :
      Step select depth s ev { s with shared := sh, flush := fl }
  | call {s : State} {ev : Event} {i : ℕ} {c c' : Call} {sh : Shared} (hi : s.calls[i]? = some c)
      (h : CallStep s.shared c ev sh c') :
      Step select depth s ev { s with shared := sh, calls := s.calls.set i c' }
  | newWriteBack {s : State} (lba : ℕ) (data : Block) :
      Step select depth s .other { s with calls := s.calls ++ [.writeBack lba data] }
  | newReadCached {s : State} (lba : ℕ) :
      Step select depth s .other { s with calls := s.calls ++ [.readCached lba] }
  | tick {s : State} (n : ℕ) :
      Step select depth s .other { s with shared := { s.shared with tick := n } }

/-- The flush has returned, and so has every call. -/
def State.Finished (s : State) : Prop :=
  s.flush.stage = .returned ∧ ∀ c ∈ s.calls, c = .finished

/-- Every block whose cached data differs from what the device received is marked dirty. -/
def State.DirtyIfNewer (s : State) : Prop :=
  ∀ e ∈ s.shared.cache.entries, e.lba ≠ emptyLba → e.data ≠ s.shared.received e.lba →
    e.dirty = true

/-! ### Careful interleavings -/

namespace Call

/-- The copies a read has made of device blocks and not inserted yet. -/
def buffers : Call → List (ℕ × Block)
  | insert todo false => todo
  | insertAt n => if n.dirty then [] else (n.lba, n.data) :: n.rest
  | evicting _ n => if n.dirty then [] else (n.lba, n.data) :: n.rest
  | refilling n => if n.dirty then [] else (n.lba, n.data) :: n.rest
  | _ => []

/-- The generation a call has taken and not used yet. -/
def number : Call → Option ℕ
  | stamp _ generation _ => some generation
  | insertAt n => some n.generation
  | evicting _ n => some n.generation
  | refilling n => some n.generation
  | _ => none

/-- A `write_back` that stored its data while the slot carried this generation, and has
not stamped it yet. -/
def Storing (c : Call) (lba generation : ℕ) : Prop :=
  c = .bump lba (some generation) ∨ ∃ number, c = .stamp lba number (some generation)

end Call

/-- **When a step may be taken.** Each condition is about the state before the step. -/
structure Careful (depth : ℕ) (s : State) (ev : Event) : Prop where
  /-- The generation counter does not wrap. -/
  counter : s.shared.cache.generation + depth + 1 < 2 ^ 64
  /-- A write is not retired while a `write_back` of its block is between its two
  sections: it has stored new data in the slot that still carries the generation of the
  write, and has not stamped it. -/
  retire : ev = .retire → ∀ p, s.flush.pending.head? = some p →
    ∀ e ∈ s.shared.cache.entries, e.lba = p.lba → e.generation = p.generation →
      ∀ c ∈ s.calls, ¬c.Storing p.lba p.generation
  /-- No dirty block is handed to the device while a read carries an older copy of it. -/
  submit : ev = .submit → ∀ c ∈ s.calls, ∀ x ∈ c.buffers,
    ∀ e ∈ s.shared.cache.entries, e.lba = x.1 → e.dirty = false
  /-- An evicted block is written while it is neither cached again nor carried by a
  read. -/
  evictionWrite : ∀ lba, ev = .evictionWrite lba →
    (∀ e ∈ s.shared.cache.entries, e.lba ≠ lba) ∧ ∀ c ∈ s.calls, ∀ x ∈ c.buffers, x.1 ≠ lba
  /-- A block that waited for an evicted slot was not cached in the meantime. -/
  refill : ∀ lba, ev = .refill lba → lba ≠ emptyLba → ∀ e ∈ s.shared.cache.entries, e.lba ≠ lba

/-! ### The invariant -/

/-- What is known of a write the flush waits for: if the slot still carries its
generation, the slot holds what the device received, or a `write_back` has yet to stamp
it. -/
structure InFlight (sh : Shared) (attempted : List ℕ) (calls : List Call) (p : PendingWrite) :
    Prop where
  listed : p.lba ∈ attempted
  block : p.lba ≠ emptyLba
  number_lt : p.generation < sh.cache.generation
  number_ne : ∀ c ∈ calls, c.number ≠ some p.generation
  content : ∀ e ∈ sh.cache.entries, e.lba = p.lba → e.generation = p.generation →
    e.data = sh.received p.lba ∨ ∃ c ∈ calls, c.Storing p.lba p.generation

/-- **The invariant of careful interleavings.** -/
structure Coherent (sh : Shared) (pending : List PendingWrite) (attempted : List ℕ)
    (calls : List Call) : Prop where
  unique : sh.cache.Unique
  clean : ∀ e ∈ sh.cache.entries, e.lba ≠ emptyLba → e.dirty = true ∨ e.data = sh.received e.lba
  buffers : ∀ c ∈ calls, ∀ x ∈ c.buffers, x.2 = sh.received x.1
  numbers : ∀ c ∈ calls, ∀ g, c.number = some g → g < sh.cache.generation
  inFlight : ∀ p ∈ pending, InFlight sh attempted calls p

variable {sh : Shared} {pending : List PendingWrite} {attempted : List ℕ} {calls : List Call}

section Kept

variable (h : Coherent sh pending attempted calls)

include h

/-- The counter moves on. -/
theorem Coherent.counted (hc : sh.cache.generation + 1 < 2 ^ 64) :
    Coherent sh.counted pending attempted calls := by
  have hg : sh.counted.cache.generation = sh.cache.generation + 1 := Nat.mod_eq_of_lt hc
  refine ⟨h.unique, h.clean, h.buffers, fun c hcm g hcg => ?_, fun p hp => ?_⟩
  · have := h.numbers c hcm g hcg
    omega
  · obtain ⟨h1, h2, h3, h4, h5⟩ := h.inFlight p hp
    exact ⟨h1, h2, by omega, h4, h5⟩

/-- A slot takes an entry: one that is dirty or as the device received it, and that no write
in flight mistakes for its own. -/
theorem Coherent.put {i : ℕ} {old new : CacheEntry} (hi : sh.cache.entries[i]? = some old)
    (hnew : ∀ (j : ℕ) (e : CacheEntry), sh.cache.entries[j]? = some e → e.lba = new.lba →
      e.lba ≠ emptyLba → j = i)
    (hclean : new.lba ≠ emptyLba → new.dirty = true ∨ new.data = sh.received new.lba)
    (hown : ∀ p ∈ pending, new.lba = p.lba → new.generation = p.generation →
      new.data = sh.received p.lba ∨ ∃ c ∈ calls, c.Storing p.lba p.generation) :
    Coherent (sh.put i new) pending attempted calls := by
  refine ⟨h.unique.put hi hnew, fun e he hne => ?_, h.buffers, h.numbers, fun p hp => ?_⟩
  · rcases BlockCache.mem_put he with rfl | he
    · exact hclean hne
    · exact h.clean e he hne
  obtain ⟨h1, h2, h3, h4, h5⟩ := h.inFlight p hp
  refine ⟨h1, h2, h3, h4, fun e he hlba hgen => ?_⟩
  rcases BlockCache.mem_put he with rfl | he
  · exact hown p hp hlba hgen
  · exact h5 e he hlba hgen

/-- The device receives a block that no clean slot, no read and no write in flight holds. -/
theorem Coherent.receive {lba : ℕ} {data : Block}
    (hdirty : ∀ e ∈ sh.cache.entries, e.lba = lba → e.dirty = true)
    (hbuf : ∀ c ∈ calls, ∀ x ∈ c.buffers, x.1 ≠ lba)
    (hown : ∀ p ∈ pending, p.lba = lba → ∀ e ∈ sh.cache.entries, e.lba ≠ lba) :
    Coherent (sh.receive lba data) pending attempted calls := by
  have hkp : ∀ b, b ≠ lba → (sh.receive lba data).received b = sh.received b := fun b hb =>
    Function.update_of_ne hb _ _
  refine ⟨h.unique, fun e he hne => ?_, fun c hc x hx => ?_, h.numbers, fun p hp => ?_⟩
  · by_cases hel : e.lba = lba
    · exact Or.inl (hdirty e he hel)
    rw [hkp _ hel]
    exact h.clean e he hne
  · rw [hkp _ (hbuf c hc x hx)]
    exact h.buffers c hc x hx
  · obtain ⟨h1, h2, h3, h4, h5⟩ := h.inFlight p hp
    refine ⟨h1, h2, h3, h4, fun e he hlba hgen => ?_⟩
    by_cases hpl : p.lba = lba
    · exact absurd (hlba.trans hpl) (hown p hp hpl e he)
    rw [hkp _ hpl]
    exact h5 e he hlba hgen

/-- Another call, with nothing in its hands. -/
theorem Coherent.newCall {c : Call} (hbuf : c.buffers = []) (hnum : c.number = none) :
    Coherent sh pending attempted (calls ++ [c]) := by
  refine ⟨h.unique, h.clean, fun d hd x hx => ?_, fun d hd g hg => ?_, fun p hp => ?_⟩
  · rcases mem_append.mp hd with hd | hd
    · exact h.buffers d hd x hx
    rw [mem_singleton.mp hd, hbuf] at hx
    exact absurd hx not_mem_nil
  · rcases mem_append.mp hd with hd | hd
    · exact h.numbers d hd g hg
    rw [mem_singleton.mp hd, hnum] at hg
    cases hg
  · obtain ⟨h1, h2, h3, h4, h5⟩ := h.inFlight p hp
    refine ⟨h1, h2, h3, fun d hd => ?_, fun e he hlba hgen => (h5 e he hlba hgen).imp_right ?_⟩
    · rcases mem_append.mp hd with hd | hd
      · exact h4 d hd
      rw [mem_singleton.mp hd, hnum]
      simp
    · rintro ⟨d, hd, hst⟩
      exact ⟨d, mem_append_left _ hd, hst⟩

/-- A call moves on. -/
theorem Coherent.setCall {i : ℕ} {c c' : Call}
    (hi : calls[i]? = some c) (hbuf : ∀ x ∈ c'.buffers, x.2 = sh.received x.1)
    (hnum : ∀ g, c'.number = some g → g < sh.cache.generation ∧ ∀ p ∈ pending, g ≠ p.generation)
    (hst : ∀ p ∈ pending, c.Storing p.lba p.generation → c'.Storing p.lba p.generation ∨
      ∀ e ∈ sh.cache.entries, e.lba = p.lba → e.generation ≠ p.generation) :
    Coherent sh pending attempted (calls.set i c') := by
  refine ⟨h.unique, h.clean, fun d hd x hx => ?_, fun d hd g hg => ?_, fun p hp => ?_⟩
  · rcases mem_or_eq_of_mem_set hd with hd | rfl
    · exact h.buffers d hd x hx
    · exact hbuf x hx
  · rcases mem_or_eq_of_mem_set hd with hd | rfl
    · exact h.numbers d hd g hg
    · exact (hnum g hg).1
  obtain ⟨h1, h2, h3, h4, h5⟩ := h.inFlight p hp
  refine ⟨h1, h2, h3, fun d hd hc => ?_, fun e he hlba hgen => ?_⟩
  · rcases mem_or_eq_of_mem_set hd with hd | rfl
    · exact h4 d hd hc
    · exact (hnum _ hc).2 p hp rfl
  rcases h5 e he hlba hgen with hrec | ⟨d, hd, hds⟩
  · exact Or.inl hrec
  obtain ⟨j, hj⟩ := mem_iff_getElem?.mp hd
  by_cases hij : i = j
  · subst hij
    cases hi.symm.trans hj
    have hlt : i < calls.length := (List.getElem?_eq_some_iff.mp hi).1
    rcases hst p hp hds with hs | hno
    · exact Or.inr ⟨c', mem_of_getElem? (by
        rw [getElem?_set, if_pos rfl, if_pos hlt]), hs⟩
    · exact absurd hgen (hno e he hlba)
  · exact Or.inr ⟨d, mem_of_getElem? (by rwa [getElem?_set, if_neg hij]), hds⟩

/-- The clock and the last LBA read do not matter. -/
theorem Coherent.congr {sh' : Shared} (hes : sh'.cache.entries = sh.cache.entries)
    (hgen : sh'.cache.generation = sh.cache.generation) (hrec : sh'.received = sh.received) :
    Coherent sh' pending attempted calls := by
  refine ⟨?_, by rw [hes, hrec]; exact h.clean, by rw [hrec]; exact h.buffers,
    by rw [hgen]; exact h.numbers, fun p hp => ?_⟩
  · intro i j e f hi hj
    rw [hes] at hi hj
    exact h.unique i j e f hi hj
  · obtain ⟨h1, h2, h3, h4, h5⟩ := h.inFlight p hp
    exact ⟨h1, h2, by rw [hgen]; exact h3, h4, by rw [hes, hrec]; exact h5⟩

end Kept

/-- The slot an insertion takes without an eviction holds the block, or no slot does. -/
theorem insertSlot_eq_some {c : BlockCache} {lba i : ℕ} (h : insertSlot c lba = some i) :
    ∃ old, c.entries[i]? = some old ∧ (old.lba = lba ∨ ∀ e ∈ c.entries, e.lba ≠ lba) := by
  unfold insertSlot at h
  split at h
  · rename_i hs
    obtain ⟨old, hi, hlba⟩ := BlockCache.slot_eq_some hs
    cases h
    exact ⟨old, hi, Or.inl (by simpa using hlba)⟩
  rename_i hnone
  have hun : ∀ e ∈ c.entries, e.lba ≠ lba := fun e he => by
    simpa using BlockCache.slot_eq_none hnone e he
  split at h
  · rename_i hs
    obtain ⟨old, hi, -⟩ := BlockCache.slot_eq_some hs
    cases h
    exact ⟨old, hi, Or.inr hun⟩
  · obtain ⟨⟨old, j⟩, hl, rfl⟩ := map_eq_some_iff.mp h
    exact ⟨old, (BlockCache.leastRecent_eq_some hl).1, Or.inr hun⟩

section Filled

variable (h : Coherent sh pending attempted calls)

include h

variable {c : Call} {n : Insertion}

/-- An insertion that holds a copy of a device block holds what the device received. -/
theorem Coherent.entry_clean (hc : c ∈ calls)
    (hbuf : c.buffers = if n.dirty then [] else (n.lba, n.data) :: n.rest) :
    n.entry.dirty = true ∨ n.entry.data = sh.received n.entry.lba := by
  cases hd : n.dirty with
  | true => exact Or.inl hd
  | false =>
    refine Or.inr (h.buffers c hc (n.lba, n.data) ?_)
    rw [hbuf, hd]
    simp

theorem Coherent.rest_clean (hc : c ∈ calls)
    (hbuf : c.buffers = if n.dirty then [] else (n.lba, n.data) :: n.rest) :
    ∀ x ∈ (Call.insert n.rest n.dirty).buffers, x.2 = sh.received x.1 := by
  intro x hx
  cases hd : n.dirty with
  | true =>
    rw [hd] at hx
    exact absurd hx not_mem_nil
  | false =>
    rw [hd] at hx
    refine h.buffers c hc x ?_
    rw [hbuf, hd]
    exact mem_cons_of_mem _ hx

variable {i : ℕ}

/-- An insertion puts its entry into a slot, and its caller goes on. -/
theorem Coherent.fill {k : ℕ} {old : CacheEntry} (hi : calls[i]? = some c)
    (hbuf : c.buffers = if n.dirty then [] else (n.lba, n.data) :: n.rest)
    (hnum : c.number = some n.generation) (hst : ∀ lba g, ¬c.Storing lba g)
    (hk : sh.cache.entries[k]? = some old)
    (hnew : ∀ (j : ℕ) (e : CacheEntry), sh.cache.entries[j]? = some e → e.lba = n.lba →
      e.lba ≠ emptyLba → j = k) :
    Coherent (sh.put k n.entry) pending attempted (calls.set i (.insert n.rest n.dirty)) := by
  have hc : c ∈ calls := mem_of_getElem? hi
  have hput : Coherent (sh.put k n.entry) pending attempted calls :=
    h.put hk hnew (fun _ => h.entry_clean hc hbuf) fun p hp _ hgen =>
      absurd (hnum.trans (congrArg some hgen)) ((h.inFlight p hp).number_ne c hc)
  exact hput.setCall hi (h.rest_clean hc hbuf) (fun g hg => by cases hg)
    fun p _ hs => absurd hs (hst _ _)

variable {c' : Call}

/-- A call that stores nothing moves on with nothing in its hands. -/
theorem Coherent.idle (hi : calls[i]? = some c) (hst : ∀ lba g, ¬c.Storing lba g)
    (hbuf : c'.buffers = []) (hnum : c'.number = none) :
    Coherent sh pending attempted (calls.set i c') :=
  h.setCall hi (by simp [hbuf]) (by simp [hnum]) fun p _ hs => absurd hs (hst _ _)

/-- A call that stores nothing moves on with what it has in its hands. -/
theorem Coherent.hold (hi : calls[i]? = some c) (hst : ∀ lba g, ¬c.Storing lba g)
    (hbuf : c'.buffers = c.buffers) (hnum : c'.number = c.number) :
    Coherent sh pending attempted (calls.set i c') := by
  have hc : c ∈ calls := mem_of_getElem? hi
  refine h.setCall hi (hbuf ▸ h.buffers c hc) (fun g hg => ?_) fun p _ hs => absurd hs (hst _ _)
  rw [hnum] at hg
  exact ⟨h.numbers c hc g hg, fun p hp hgp =>
    (h.inFlight p hp).number_ne c hc (hg.trans (congrArg some hgp))⟩

/-- A `write_back` or a read that stamps its slot: no write in flight finds its own
generation there. -/
theorem Coherent.stamped {lba number : ℕ} {seen : Option ℕ}
    (hi : calls[i]? = some (.stamp lba number seen)) (hbuf : c'.buffers = [])
    (hnum : c'.number = none)
    (hsl : ∀ e ∈ sh.cache.entries, e.lba = lba → e.lba ≠ emptyLba → e.generation = number) :
    Coherent sh pending attempted (calls.set i c') := by
  refine h.setCall hi (by simp [hbuf]) (by simp [hnum]) fun p hp hs =>
    Or.inr fun e he hlba hgen => ?_
  have hp' := h.inFlight p hp
  have hl : lba = p.lba := by
    rcases hs with hs | ⟨g, hs⟩ <;> cases hs
    rfl
  refine hp'.number_ne _ (mem_of_getElem? hi) ?_
  rw [← hgen, hsl e he (hlba.trans hl.symm) (by rw [hlba]; exact hp'.block)]
  rfl

end Filled

variable {ev : Event} {sh' : Shared}

/-- **A section of a call keeps the invariant**, if it is taken carefully. -/
theorem CallStep.coherent {i : ℕ} {c c' : Call} (hsp : CallStep sh c ev sh' c')
    (h : Coherent sh pending attempted calls) (hi : calls[i]? = some c)
    (hcnt : sh.cache.generation + 1 < 2 ^ 64) (hev : ∀ lba, ev = .evictionWrite lba →
      (∀ e ∈ sh.cache.entries, e.lba ≠ lba) ∧ ∀ c ∈ calls, ∀ x ∈ c.buffers, x.1 ≠ lba)
    (hre : ∀ lba, ev = .refill lba → lba ≠ emptyLba → ∀ e ∈ sh.cache.entries, e.lba ≠ lba) :
    Coherent sh' pending attempted (calls.set i c') := by
  have hc : c ∈ calls := mem_of_getElem? hi
  have hg : sh.counted.cache.generation = sh.cache.generation + 1 := Nat.mod_eq_of_lt hcnt
  have hsl : ∀ {lba k e}, sh.cache.slot (·.lba == lba) = some k →
      sh.cache.entries[k]? = some e → e.lba = lba := by
    intro lba k e hs hk
    obtain ⟨f, hf, hfl⟩ := BlockCache.slot_eq_some hs
    cases hk.symm.trans hf
    simpa using hfl
  cases hsp with
  | storeHit hs hk =>
    -- the call is remembered as storing before the slot changes
    rename_i lba k data e
    have hset : Coherent sh pending attempted (calls.set i (.bump lba (some e.generation))) :=
      h.setCall hi (by simp [Call.buffers]) (by simp [Call.number])
        fun p _ hs => by simp [Call.Storing] at hs
    refine hset.put hk (fun j f hj hf hne => h.unique j k f e hj hk hf hne) (fun _ => Or.inl rfl)
      fun p _ hlba hgen => Or.inr ⟨.bump lba (some e.generation), ?_, ?_⟩
    · have hlt : i < calls.length := (List.getElem?_eq_some_iff.mp hi).1
      exact mem_of_getElem? (by rw [getElem?_set, if_pos rfl, if_pos hlt])
    · exact Or.inl (by rw [← hgen, ← hlba, ← hsl hs hk])
  | storeMiss hs | readHit hs | readMiss hs | lookFurther hd hcch | lookEnd hl | readFails
  | insertDone =>
    exact h.idle hi (by simp [Call.Storing]) rfl rfl
  | takeNumber =>
    refine (h.counted hcnt).setCall hi (by simp [Call.buffers]) (fun g hgn => ?_)
      fun p _ hs => Or.inl ?_
    · obtain rfl : sh.cache.generation = g := Option.some.inj hgn
      exact ⟨by omega, fun p hp => (h.inFlight p hp).number_lt.ne'⟩
    · rcases hs with hs | ⟨g, hs⟩ <;> cases hs
      exact Or.inr ⟨sh.cache.generation, rfl⟩
  | stampHit hs hk =>
    rename_i lba k number seen e
    have hel := hsl hs hk
    have hput : Coherent (sh.put k { e with generation := number }) pending attempted calls :=
      h.put hk (fun j f hj hf hne => h.unique j k f e hj hk hf hne)
        (h.clean e (mem_of_getElem? hk)) fun p hp _ hgen =>
          absurd (congrArg some hgen) ((h.inFlight p hp).number_ne _ hc)
    refine hput.stamped hi ?_ ?_ fun f hf hfl hne => ?_
    · split <;> rfl
    · split <;> rfl
    obtain ⟨j, hj⟩ := mem_iff_getElem?.mp hf
    rcases BlockCache.getElem?_put hk hj with ⟨-, rfl⟩ | ⟨hkj, hj⟩
    · rfl
    · exact absurd (h.unique k j e f hk hj (hel.trans hfl.symm) (by rwa [hel, ← hfl])) hkj
  | stampMiss hs =>
    refine h.stamped hi ?_ ?_ fun f hf hfl _ => ?_
    · split <;> rfl
    · split <;> rfl
    · exact absurd hfl (by simpa using BlockCache.slot_eq_none hs f hf)
  | noteHit =>
    have hn : Coherent _ pending attempted (calls.set i .finished) :=
      h.idle hi (by simp [Call.Storing]) rfl rfl
    exact hn.congr rfl rfl rfl
  | noteMiss =>
    exact (h.idle hi (by simp [Call.Storing]) rfl rfl).congr rfl rfl rfl
  | readDevice hle =>
    refine h.setCall hi (fun x hx => ?_) (by simp [Call.number]) fun p _ hs => ?_
    · obtain ⟨k, -, rfl⟩ := mem_map.mp hx
      rfl
    · simp [Call.Storing] at hs
  | insertNext =>
    rename_i lba data rest dirty
    refine (h.counted hcnt).setCall hi (fun x hx => ?_) (fun g hgn => ?_)
      fun p _ hs => by simp [Call.Storing] at hs
    · cases dirty with
      | true => exact absurd hx not_mem_nil
      | false => exact h.buffers _ hc x hx
    · obtain rfl : sh.cache.generation = g := Option.some.inj hgn
      exact ⟨by omega, fun p hp => (h.inFlight p hp).number_lt.ne'⟩
  | insertPut hs =>
    rename_i n k
    obtain ⟨old, hk, hold⟩ := insertSlot_eq_some hs
    refine h.fill hi rfl rfl (by simp [Call.Storing]) hk fun j e hj he hne => ?_
    rcases hold with hold | hun
    · exact h.unique j k e old hj hk (he.trans hold.symm) hne
    · exact absurd he (hun e (mem_of_getElem? hj))
  | insertEvict hs hv =>
    have hk := (BlockCache.leastRecent_eq_some hv).1
    have hput : Coherent (sh.put _ CacheEntry.empty) pending attempted calls :=
      h.put hk (fun _ _ _ he hne => absurd he hne) (fun hc => absurd rfl hc)
        fun p hp hlba _ => absurd hlba.symm (h.inFlight p hp).block
    exact hput.hold hi (by simp [Call.Storing]) rfl rfl
  | evictWrite hlba =>
    rename_i n victim
    obtain ⟨hun, hbuf⟩ := hev victim.lba rfl
    have hrec : Coherent (sh.receive victim.lba victim.data) pending attempted calls :=
      h.receive (fun e he hel => absurd hel (hun e he)) hbuf fun _ _ _ e he => hun e he
    exact hrec.hold hi (by simp [Call.Storing]) rfl rfl
  | evictWriteFails => exact h.hold hi (by simp [Call.Storing]) rfl rfl
  | refill hs =>
    rename_i n k
    obtain ⟨old, hk, hold⟩ := BlockCache.slot_eq_some hs
    refine h.fill hi rfl rfl (by simp [Call.Storing]) hk fun j e hj he hne => ?_
    exact absurd he (hre n.lba rfl (by rwa [← he]) e (mem_of_getElem? hj))

/-! ### The sections of the flush -/

/-- No read carries a copy of a dirty block. -/
def ReadsSettled (sh : Shared) (calls : List Call) : Prop :=
  ∀ c ∈ calls, ∀ x ∈ c.buffers, ∀ e ∈ sh.cache.entries, e.lba = x.1 → e.dirty = false

variable {select : CacheEntry → Bool} {e : CacheEntry} {k : ℕ}

/-- What `submit_selected` finds is a dirty slot whose block this flush has not handed over. -/
theorem submittable_found {c : BlockCache}
    (hf : (c.entries.zipIdx.find? fun x => CacheM.submittable select attempted x.1) = some (e, k)) :
    c.entries[k]? = some e ∧ e.dirty = true ∧ e.lba ∉ attempted := by
  have hsub := find?_some hf
  have hmem := mem_zipIdx_iff_getElem?.mp (mem_of_find?_eq_some hf)
  have hall : (e.dirty = true ∧ select e = true) ∧ e.lba ∉ attempted := by
    simpa [CacheM.submittable] using hsub
  exact ⟨hmem, hall.1.1, hall.2⟩

/-- A dirty slot is stamped for the device. -/
theorem Coherent.stampDirty (h : Coherent sh pending attempted calls)
    (hc : sh.cache.generation + 1 < 2 ^ 64) (hk : sh.cache.entries[k]? = some e)
    (hd : e.dirty = true) :
    Coherent (sh.counted.put k { e with generation := sh.cache.generation }) pending attempted
      calls :=
  (h.counted hc).put hk (fun j f hj hf hne => h.unique j k f e hj hk hf hne)
    (fun _ => Or.inl hd) fun p hp _ hgen => absurd hgen (h.inFlight p hp).number_lt.ne'

theorem ReadsSettled.stampDirty (h : ReadsSettled sh calls) {g : ℕ}
    (hk : sh.cache.entries[k]? = some e) :
    ReadsSettled (sh.counted.put k { e with generation := g }) calls := by
  intro c hc x hx f hf hlba
  rcases BlockCache.mem_put hf with rfl | hf
  · exact h c hc x hx e (mem_of_getElem? hk) hlba
  · exact h c hc x hx f hf hlba

/-- **A dirty slot is stamped and the device receives its block.** The slot then holds what
the device received, under the generation of the write. -/
theorem Coherent.handOver (h : Coherent sh pending attempted calls)
    (hc : sh.cache.generation + 1 < 2 ^ 64) (hk : sh.cache.entries[k]? = some e)
    (hd : e.dirty = true) (hatt : e.lba ∉ attempted) (hlba : e.lba < sh.blockCount)
    (hrds : ReadsSettled sh calls) :
    Coherent ((sh.counted.put k { e with generation := sh.cache.generation }).receive e.lba e.data)
      pending attempted calls := by
  have hne : e.lba ≠ emptyLba := (hlba.trans_le sh.blockCount_le).ne
  have hst := h.stampDirty hc hk hd
  refine hst.receive (fun f hf hfl => ?_) (fun c hcm x hx hxl => ?_) fun p hp hpl => ?_
  · obtain ⟨j, hj⟩ := mem_iff_getElem?.mp hf
    rcases BlockCache.getElem?_put hk hj with ⟨-, rfl⟩ | ⟨hkj, hj⟩
    · exact hd
    · exact absurd (h.unique k j e f hk hj hfl.symm hne) hkj
  · have hclean := hrds c hcm x hx e (mem_of_getElem? hk) hxl.symm
    rw [hd] at hclean
    cases hclean
  · exact absurd (hpl ▸ (h.inFlight p hp).listed) hatt

/-- The flush waits for the write it has handed over. -/
theorem Coherent.waitFor (h : Coherent sh pending attempted calls)
    (hk : sh.cache.entries[k]? = some e) (hne : e.lba ≠ emptyLba)
    (hdt : e.data = sh.received e.lba) (hg : e.generation < sh.cache.generation)
    (hfr : ∀ c ∈ calls, c.number ≠ some e.generation) :
    Coherent sh (pending ++ [⟨e.lba, e.generation⟩]) (attempted ++ [e.lba]) calls := by
  refine ⟨h.unique, h.clean, h.buffers, h.numbers, fun p hp => ?_⟩
  rcases mem_append.mp hp with hp | hp
  · obtain ⟨h1, h2, h3, h4, h5⟩ := h.inFlight p hp
    exact ⟨mem_append_left _ h1, h2, h3, h4, h5⟩
  obtain rfl := mem_singleton.mp hp
  refine ⟨by simp, hne, hg, hfr, fun f hf hlba _ => Or.inl ?_⟩
  obtain ⟨j, hj⟩ := mem_iff_getElem?.mp hf
  obtain rfl := h.unique j k f e hj hk hlba (by rw [hlba]; exact hne)
  cases hj.symm.trans hk
  exact hdt

variable {depth : ℕ}

section

variable (h : Coherent sh pending attempted calls)
include h

/-- **`submit_selected` keeps the invariant**, if no read carries a copy of a dirty block. -/
theorem Submits.coherent {pending' : List PendingWrite} {attempted' : List ℕ} {failed : Bool}
    (hs : Submits select depth sh pending attempted sh' pending' attempted' failed)
    (hrds : ReadsSettled sh calls)
    (hcnt : sh.cache.generation + (depth - pending.length) + 1 < 2 ^ 64) :
    Coherent sh' pending' attempted' calls := by
  induction hs with
  | full | nothing => exact h
  | refused lands hrm hf hlba =>
    obtain ⟨hk, hd, hatt⟩ := submittable_found hf
    split
    · rename_i hl
      exact h.handOver (by omega) hk hd hatt (hlba hl) hrds
    · exact h.stampDirty (by omega) hk hd
  | @handed sh sh' pending pending' attempted attempted' failed e k hrm hf hlba _ ih =>
    obtain ⟨hk, hd, hatt⟩ := submittable_found hf
    have hg : sh.counted.cache.generation = sh.cache.generation + 1 :=
      Nat.mod_eq_of_lt (by omega)
    have hov := h.handOver (by omega) hk hd hatt hlba hrds
    refine ih (hov.waitFor
      (BlockCache.getElem?_put_self hk) ?_ ?_ ?_ fun c hc hcg => ?_) (hrds.stampDirty hk) ?_
    · exact (hlba.trans_le sh.blockCount_le).ne
    · exact (Function.update_self e.lba e.data sh.received).symm
    · exact Nat.lt_of_lt_of_eq (Nat.lt_succ_self _) hg.symm
    · exact (h.numbers c hc _ hcg).ne rfl
    have hlen : (pending ++ [(⟨e.lba, sh.cache.generation⟩ : PendingWrite)]).length =
        pending.length + 1 := by simp
    have hgen : ((sh.counted.put k { e with generation := sh.cache.generation }).receive e.lba
        e.data).cache.generation = sh.cache.generation + 1 := hg
    omega

/-- A write the flush no longer waits for. -/
theorem Coherent.forget {pending' : List PendingWrite}
    (hsub : ∀ p ∈ pending', p ∈ pending) : Coherent sh pending' attempted calls :=
  ⟨h.unique, h.clean, h.buffers, h.numbers, fun p hp => h.inFlight p (hsub p hp)⟩

/-- **`retire_write` keeps the invariant**, if no `write_back` is between storing into the
slot and stamping it. -/
theorem Coherent.retire {p : PendingWrite}
    (hp : p ∈ pending) (hst : ∀ e ∈ sh.cache.entries, e.lba = p.lba →
      e.generation = p.generation → ∀ c ∈ calls, ¬c.Storing p.lba p.generation) :
    Coherent { sh with cache := FlushRace.retire sh.cache p } pending attempted calls := by
  unfold FlushRace.retire
  split
  · exact h
  rename_i e k hf
  have hk := mem_zipIdx_iff_getElem?.mp (mem_of_find?_eq_some hf)
  have hfnd : e.lba = p.lba ∧ e.generation = p.generation := by
    simpa using find?_some hf
  split
  · have he := mem_of_getElem? hk
    have hdt : e.data = sh.received p.lba := by
      rcases (h.inFlight p hp).content e he hfnd.1 hfnd.2 with hrec | ⟨c, hc, hcs⟩
      · exact hrec
      · exact absurd hcs (hst e he hfnd.1 hfnd.2 c hc)
    refine h.put hk (fun j f hj hfl hne => h.unique j k f e hj hk hfl hne)
      (fun _ => Or.inr ?_) fun q _ hql _ => Or.inl ?_
    · exact hdt.trans (congrArg sh.received hfnd.1.symm)
    · exact hdt.trans (congrArg sh.received (hfnd.1.symm.trans hql))
  · exact h

end

variable {s : State}

/-- **A section of the flush keeps the invariant**, if it is taken carefully. -/
theorem FlushStep.coherent {fl' : Flush}
    (hsp : FlushStep select depth s.shared s.flush ev sh' fl')
    (h : Coherent s.shared s.flush.pending s.flush.attempted s.calls) (hca : Careful depth s ev) :
    Coherent sh' fl'.pending fl'.attempted s.calls := by
  cases hsp with
  | submit _ _ hsub =>
    refine hsub.coherent h (hca.submit rfl) ?_
    have := hca.counter
    omega
  | skip | complete => exact h
  | fail => exact h.forget fun p => mem_of_mem_tail
  | retire _ hp =>
    rename_i p rest _
    have hmem : p ∈ s.flush.pending := by rw [hp]; exact mem_cons_self
    refine (h.retire hmem (hca.retire rfl p (by rw [hp]; rfl))).forget fun q hq => ?_
    rw [hp]
    exact mem_cons_of_mem _ hq

/-! ### Whole runs -/

/-- Where the runs start: a flush about to begin, no calls, no block in two slots, and every
clean slot as the device received it. -/
structure Start (s : State) : Prop where
  flush : s.flush = ⟨.topUp, [], [], false⟩
  calls : s.calls = []
  capacity : s.shared.cache.entries.length = cacheCapacity
  unique : s.shared.cache.Unique
  clean : s.DirtyIfNewer

/-- A careful step keeps the invariant. -/
theorem Step.coherent {s' : State} (hsp : Step select depth s ev s') (hca : Careful depth s ev)
    (h : Coherent s.shared s.flush.pending s.flush.attempted s.calls) :
    Coherent s'.shared s'.flush.pending s'.flush.attempted s'.calls := by
  cases hsp with
  | flush hf => exact hf.coherent h hca
  | call hi hc =>
    refine hc.coherent h hi ?_ hca.evictionWrite hca.refill
    have := hca.counter
    omega
  | newWriteBack | newReadCached => exact h.newCall rfl rfl
  | tick => exact h.congr rfl rfl rfl

theorem Start.coherent (h : Start s) :
    Coherent s.shared s.flush.pending s.flush.attempted s.calls := by
  rw [h.flush, h.calls]
  refine ⟨h.unique, fun e he hne => ?_, by simp, by simp, by simp⟩
  by_cases hd : e.data = s.shared.received e.lba
  · exact Or.inr hd
  · exact Or.inl (h.clean e he hne hd)

/-! ### Runs on one block -/

/-- A cache that holds one block, on a device of eight. -/
def oneBlock (e : CacheEntry) (generation : ℕ) (received : ℕ → Block) : Shared where
  cache :=
    { entries := e :: replicate (cacheCapacity - 1) CacheEntry.empty
      generation, lastReadLba := u64Max, readAheadDepth := 0 }
  tick := 0
  blockCount := 8
  received
  blockCount_le := by decide

/-- The block as a first `write_back` left it. -/
def firstWrite : CacheEntry :=
  { lba := 0, data := fun _ => 1, generation := 0, dirty := true, dirtySince := 0 }

/-- A flush is about to begin on a cache with one dirty block. -/
def beforeFlush : State where
  shared := oneBlock firstWrite 1 fun _ => zeroBlock
  flush := ⟨.topUp, [], [], false⟩
  calls := []

theorem oneBlock_start {g : ℕ} {received : ℕ → Block} (he : e.dirty = true) :
    Start { shared := oneBlock e g received, flush := ⟨.topUp, [], [], false⟩, calls := [] } := by
  have hmem : ∀ f ∈ (oneBlock e g received).cache.entries, f = e ∨ f = CacheEntry.empty :=
    fun f hf => (mem_cons.mp hf).imp_right eq_of_mem_replicate
  refine ⟨rfl, rfl, congrArg (· + 1) length_replicate, ?_, fun f hf hne _ => ?_⟩
  · intro i j f f' hi hj hlba hne
    have hzero : ∀ (k : ℕ) (x : CacheEntry),
        (oneBlock e g received).cache.entries[k]? = some x → x.lba ≠ emptyLba → k = 0 := by
      intro k x hk hx
      cases k with
      | zero => rfl
      | succ k =>
        have hx' : x ∈ List.replicate (cacheCapacity - 1) CacheEntry.empty :=
          mem_of_getElem? hk
        exact absurd (congrArg CacheEntry.lba (eq_of_mem_replicate hx')) hx
    rw [hzero i f hi hne, hzero j f' hj (by rwa [← hlba])]
  · rcases hmem f hf with rfl | rfl
    · exact he
    · exact absurd rfl hne

/-- **In a careful run every block newer than the device is marked dirty**, in every state
and so when the flush and the calls have returned. -/
theorem coherent_of_careful {select : CacheEntry → Bool} {depth : ℕ} {start s : State}
    (hstart : Start start) (hrun : Relation.ReflTransGen
      (fun s s' => ∃ ev, Step select depth s ev s' ∧ Careful depth s ev) start s) :
    s.DirtyIfNewer := by
  have hinv : Coherent s.shared s.flush.pending s.flush.attempted s.calls := by
    induction hrun with
    | refl => exact hstart.coherent
    | tail _ hsp ih =>
      obtain ⟨ev, hsp, hca⟩ := hsp
      exact hsp.coherent hca ih
  intro e he hne hd
  exact (hinv.clean e he hne).resolve_right hd

theorem careful_other (h : s.shared.cache.generation + depth + 1 < 2 ^ 64) :
    Careful depth s .other :=
  ⟨h, nofun, nofun, nofun, nofun⟩

/-- A `write_back` has stored new data over the block the flush waits for. -/
def storing : State where
  shared :=
    oneBlock { firstWrite with data := fun _ => 2, generation := 1 } 2
      (update (fun _ => zeroBlock) 0 fun _ => 1)
  flush := ⟨.waiting, [⟨0, 1⟩], [0], false⟩
  calls := [.bump 0 (some 1)]

theorem storing_reached : Relation.ReflTransGen
    (fun s s' => ∃ ev, Step (fun _ => true) 1 s ev s' ∧ Careful 1 s ev) beforeFlush storing := by
  let careful := fun s s' => ∃ ev, Step (fun _ => true) 1 s ev s' ∧ Careful 1 s ev
  let handed := oneBlock { firstWrite with generation := 1 } 2 storing.shared.received
  have hsub : Submits (fun _ => true) 1 beforeFlush.shared [] [] handed [⟨0, 1⟩] [0] false :=
    .handed Nat.one_pos rfl (by decide) (.full le_rfl)
  have h1 : careful beforeFlush ⟨handed, storing.flush, []⟩ :=
    ⟨.submit, .flush (@FlushStep.submit _ _ _ _ beforeFlush.flush _ _ _ rfl rfl hsub), by decide,
      nofun, fun _ _ hc => absurd hc not_mem_nil, nofun, nofun⟩
  have h2 : careful ⟨handed, storing.flush, []⟩
      ⟨handed, storing.flush, [.writeBack 0 fun _ => 2]⟩ :=
    ⟨.other, .newWriteBack 0 _, careful_other (by decide)⟩
  have h3 : careful ⟨handed, storing.flush, [.writeBack 0 fun _ => 2]⟩ storing :=
    ⟨.other, .call (i := 0) rfl
      (.storeHit (i := 0) (e := { firstWrite with generation := 1 }) rfl rfl),
      careful_other (by decide)⟩
  exact .tail (.tail (.single h1) h2) h3

/-- The rewrite is stamped before the write it overtook is retired. -/
def afterOrderly : State where
  shared :=
    oneBlock { firstWrite with data := fun _ => 2, generation := 2 } 3
      (update (fun _ => zeroBlock) 0 fun _ => 1)
  flush := ⟨.returned, [], [0], false⟩
  calls := [.finished]

theorem coherent_of_careful_afterOrderly :
    afterOrderly.Finished ∧ afterOrderly.shared.received 0 ≠ (fun _ => 2) ∧
      afterOrderly.DirtyIfNewer := by
  let stored : CacheEntry := { firstWrite with data := fun _ => 2, generation := 1 }
  let held (entry : CacheEntry) := oneBlock entry 3 storing.shared.received
  let s4 : State := ⟨held stored, storing.flush, [.stamp 0 2 (some 1)]⟩
  let s5 : State := ⟨held { stored with generation := 2 }, storing.flush, [.finished]⟩
  let s6 : State := { s5 with flush := { storing.flush with stage := .completed } }
  let s7 : State := { s5 with flush := ⟨.topUp, [], [0], false⟩ }
  let careful := fun s s' => ∃ ev, Step (fun _ => true) 1 s ev s' ∧ Careful 1 s ev
  have h4 : careful storing s4 :=
    ⟨.other, .call (i := 0) rfl .takeNumber, careful_other (by decide)⟩
  have h5 : careful s4 s5 :=
    ⟨.other, .call (i := 0) rfl (.stampHit (i := 0) rfl rfl), careful_other (by decide)⟩
  have h6 : careful s5 s6 := ⟨.other, .flush (.complete rfl), careful_other (by decide)⟩
  have hfd : FlushRace.retire s5.shared.cache ⟨0, 1⟩ = s5.shared.cache := by
    have hnone : (s5.shared.cache.entries.zipIdx.find? fun x =>
        x.1.lba == 0 && x.1.generation == 1) = none :=
      isNone_iff_eq_none.mp (by decide +kernel)
    rw [FlushRace.retire, hnone]
  have h7 : careful s6 s7 := by
    refine ⟨.retire, ?_, by decide, fun _ p _ e _ _ _ c hc hst => ?_, nofun, nofun, nofun⟩
    · have hret : FlushStep (fun _ => true) 1 s6.shared s6.flush .retire
          { s6.shared with cache := FlushRace.retire s6.shared.cache ⟨0, 1⟩ } s7.flush :=
        .retire rfl rfl
      rw [hfd] at hret
      exact .flush hret
    · rw [mem_singleton.mp hc] at hst
      simp [Call.Storing] at hst
  have h8 : careful s7 afterOrderly := by
    refine ⟨.submit, .flush (.submit rfl rfl (.nothing
      (isNone_iff_eq_none.mp (by decide +kernel)))), by decide, nofun, fun _ c hc => ?_,
      nofun, nofun⟩
    rw [mem_singleton.mp hc]
    exact fun x hx => absurd hx not_mem_nil
  refine ⟨⟨rfl, by simp [afterOrderly]⟩, fun hdt => ?_, coherent_of_careful (oneBlock_start rfl)
      (.tail (.tail (.tail (.tail (.tail storing_reached h4) h5) h6) h7) h8)⟩
  have hby : (1 : UInt8) = 2 := congrFun hdt ⟨0, by decide⟩
  exact absurd hby (by decide)

/-! ### The lost rewrite -/

/-- The state the run below ends in. -/
def afterRace : State where
  shared :=
    oneBlock { firstWrite with data := fun _ => 2, generation := 2, dirty := false } 3
      (update (fun _ => zeroBlock) 0 fun _ => 1)
  flush := ⟨.returned, [], [0], false⟩
  calls := [.finished]

theorem afterRace_reached :
    Relation.ReflTransGen (fun s s' => ∃ ev, Step (fun _ => true) 1 s ev s') beforeFlush
      afterRace := by
  let cleared : CacheEntry :=
    { firstWrite with data := fun _ => 2, generation := 1, dirty := false }
  let held (n : ℕ) := oneBlock cleared n storing.shared.received
  let s4 : State := { storing with flush := { storing.flush with stage := .completed } }
  let s5 : State := { storing with shared := held 2, flush := ⟨.topUp, [], [0], false⟩ }
  let s6 : State := { s5 with flush := ⟨.returned, [], [0], false⟩ }
  let s7 : State := ⟨held 3, s6.flush, [.stamp 0 2 (some 1)]⟩
  let step := fun s s' => ∃ ev, Step (fun _ => true) 1 s ev s'
  -- the first write completes, and is retired by its generation
  have h4 : step storing s4 := ⟨_, .flush (.complete rfl)⟩
  have h5 : step s4 s5 := ⟨_, .flush (.retire (p := ⟨0, 1⟩) rfl rfl)⟩
  -- nothing is left to hand over, and the call stamps its slot
  have h6 : step s5 s6 :=
    ⟨_, .flush (.submit rfl rfl (.nothing (isNone_iff_eq_none.mp (by decide +kernel))))⟩
  have h7 : step s6 s7 := ⟨_, .call (i := 0) rfl .takeNumber⟩
  have h8 : step s7 afterRace :=
    ⟨_, .call (i := 0) rfl (.stampHit (i := 0) (e := cleared) rfl rfl)⟩
  have h3 : Relation.ReflTransGen step beforeFlush storing :=
    storing_reached.lift id fun _ _ ⟨ev, hsp, _⟩ => ⟨ev, hsp⟩
  exact .tail (.tail (.tail (.tail (.tail h3 h4) h5) h6) h7) h8

/-- **Some interleaving loses a rewrite**: everything has returned, the cached data is not
what the device received, and the block is clean. -/
theorem loses_rewrite : ¬∀ (select : CacheEntry → Bool) (depth : ℕ) (start s : State), Start start →
      Relation.ReflTransGen (fun s s' => ∃ ev, Step select depth s ev s') start s →
      s.Finished → s.DirtyIfNewer := by
  intro hall
  have hfin : afterRace.Finished := ⟨rfl, by simp [afterRace]⟩
  have hdirty := hall _ _ _ _ (oneBlock_start rfl) afterRace_reached hfin _ mem_cons_self
    (by decide) fun hdt => ?_
  · cases hdirty
  have hby : (2 : UInt8) = 1 := congrFun hdt ⟨0, by decide⟩
  exact absurd hby (by decide)

end FlushRace

end Protofire
