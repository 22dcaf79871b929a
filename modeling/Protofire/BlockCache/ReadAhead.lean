import Protofire.BlockCache.Refinement

/-!
# Read-ahead

A sequential miss asks the device for the demanded block *and* its lookahead in one
request. The lookahead ends at the read-ahead depth or before the first block that is
cached; nothing ends it at the last block of the device. So a demanded read fails exactly
when the lookahead of a sequential miss runs over the end, and in every other state the
depth cannot be told from the answer.
-/

namespace Protofire

open BlockCache CacheEntry CacheM Device Eff List

/-- **A device that accepts the requests lying inside it**: what is beyond `block_count`
it refuses, as every device does. -/
def Device.Accepts (d : Device) : Prop :=
  ∀ n, (d.answers n).read = none ∧ (d.answers n).write = .completes

namespace CacheIo

variable {w w' : CacheIo} {L : List WriteRecord}

/-- All the slots of a cache, in front of an accepting device. -/
structure Serves (w : CacheIo) : Prop where
  slots : w.entries.length = cacheCapacity
  accepts : w.device.Accepts

/-- The same cache with another read-ahead depth. -/
def withDepth (w : CacheIo) (depth : ℕ) : CacheIo :=
  { w with cache := { w.cache with readAheadDepth := depth } }

/-- The most blocks a sequential miss reads ahead. -/
def depth (w : CacheIo) : ℕ := min w.cache.readAheadDepth prefetchRunBlocks

/-- **The lookahead ends inside the device**, or there is none: the block is cached, or it
does not follow the block read before, or at a block of the device the depth is reached or
the next block is cached. -/
def LookaheadEnds (w : CacheIo) (lba : ℕ) : Prop :=
  w.cache.isCached lba = true ∨
    ¬(w.cache.lastReadLba ≠ u64Max ∧ lba = w.cache.lastReadLba + 1) ∨
    ∃ k ≤ w.depth, lba + k < w.device.blockCount ∧
      (k = w.depth ∨ w.cache.isCached (lba + k + 1) = true)

/-! ### Insertions come back -/

section

variable (hw : w.Serves)
include hw

theorem Serves.put (i : ℕ) (e : CacheEntry) : (w.put i e).Serves :=
  ⟨(length_set ..).trans hw.slots, hw.accepts⟩

theorem Serves.withDevice {d : Device} (h : w.device.Kept d) : (w.withDevice d).Serves :=
  ⟨hw.slots, fun n => h.answers_eq ▸ hw.accepts n⟩

theorem Move.serves (h : Move L w w') : w'.Serves := by
  cases h with
  | clock | read => exact ⟨hw.slots, hw.accepts⟩
  | evict i victim o d _ _ hd => exact (hw.put i _).withDevice (writeBlocks_one hd).1
  | hand e lands records d _ _ _ _ hd => exact hw.withDevice hd.toKept
  | stamp | load | retire => exact hw.put _ _

theorem Inserts.serves {lba : ℕ} {data : Block} {dirty : Bool}
    (h : Inserts L w lba data dirty w') : w'.Serves := by
  obtain ⟨w₁, i, old, new, hmv, -, -, -, -, -, rfl, -⟩ := h
  exact (hmv.preserves (fun _ _ hm => hm.serves) hw).put i new

theorem Serves.writeBlocks_ne_halt (origin : WriteOrigin) (lba : ℕ)
    (data : List Block) : (writeBlocks origin lba data w.device).1 ≠ .halt := by
  rw [writeBlocks, (hw.accepts _).2]
  split
  · rintro ⟨⟩
  · split <;> rintro ⟨⟩

theorem Serves.evictDirty_ne_halt (entry : CacheEntry) : (evictDirty entry w).1 ≠ .halt := by
  rcases hv : w.cache.leastRecent fun _ => true with _ | ⟨victim, i⟩
  · have hno := leastRecent_eq_none hv
    have hpos : 0 < w.cache.entries.length := hw.slots ▸ (by decide)
    exact absurd (hno _ (getElem_mem hpos)) (by decide)
  obtain ⟨hi, -⟩ := leastRecent_eq_some hv
  have ho := hw.writeBlocks_ne_halt .eviction victim.lba [victim.data]
  rcases hd : writeBlocks .eviction victim.lba [victim.data] w.device with ⟨o, d⟩
  rcases hs : (w.cache.put i empty).slot isEmpty with _ | j
  · exact absurd hs (slot_isEmpty_put_ne_none hi)
  cases o <;>
    simp [evictDirty, bind_run, hv, place, modifyCache, onDevice, Eff.attempt, hd, hs] at ho ⊢

theorem Serves.insert_ne_halt (lba : ℕ) (data : Block) (dirty : Bool) :
    (insert lba data dirty w).1 ≠ .halt := by
  have hcoun : w.counted.Serves := ⟨hw.slots, hw.accepts⟩
  rw [insert_run rfl]
  rcases w.cache.slot fun e => e.lba == lba with _ | i
  · rcases w.cache.slot isEmpty with _ | i
    · rcases w.cache.leastRecent fun e => !e.dirty with _ | ⟨old, i⟩
      · exact hcoun.evictDirty_ne_halt _
      intro h
      cases h
    · intro h
      cases h
  · intro h
    cases h

end

/-- A run that was read is inserted whole. -/
theorem Serves.insertRun_ok {run : List Block} :
    ∀ {w : CacheIo} {lba : ℕ}, w.Serves → (insertRun lba run w).1 = .ok () := by
  induction run with
  | nil => exact fun _ => rfl
  | cons b run ih =>
    intro w lba hw
    obtain ⟨hok, hins⟩ := insert_inserts (L := []) (hw.insert_ne_halt lba b false)
    rw [insertRun, bind_run_ok (Prod.ext hok rfl)]
    exact ih (hins.serves hw)

/-! ### The answer of a read -/

/-- **The request of a miss** is answered with the demanded block if it ends inside the
device, and refused as a whole otherwise. -/
theorem Serves.readMiss_eq (hw : w.Serves) (lba ahead : ℕ) : (readMiss lba ahead w).1 =
      if lba + ahead < w.device.blockCount then .ok (w.device.blocks lba)
      else .err .invalidArgument := by
  split
  · have hrd : onDevice (readBlocks lba (ahead + 1)) w =
        (.ok (w.device.blocks lba ::
            (List.range ahead).map fun i => w.device.blocks (lba + (i + 1))),
          w.withDevice { w.device with now := w.device.now + 1 }) := by
      refine onDevice_run ?_
      rw [readBlocks, if_neg (by omega), (hw.accepts _).1]
      simp [range_succ_eq_map]
    have hser := hw.withDevice (d := { w.device with now := w.device.now + 1 })
      ⟨rfl, rfl, rfl, rfl⟩
    rw [readMiss, bind_run_ok hrd, bind_run_ok (Prod.ext hser.insertRun_ok rfl)]
    rfl
  · have hrd : onDevice (readBlocks lba (ahead + 1)) w =
        (.err .invalidArgument, w.withDevice w.device) := by
      refine onDevice_run ?_
      rw [readBlocks, if_pos (by omega)]
    rw [readMiss, bind_run_err hrd]

/-- The answer of a miss. -/
theorem Serves.readCached_miss_eq (hw : w.Serves) {lba : ℕ}
    (h : (w.entries.find? fun e => e.lba == lba) = none) : (readCached lba w).1 =
      if lba + (if w.cache.lastReadLba != u64Max && lba == w.cache.lastReadLba + 1
          then lookahead w.cache lba else 0) < w.device.blockCount
      then .ok (w.device.blocks lba) else .err .invalidArgument := by
  rw [readCached_miss h]
  exact Serves.readMiss_eq (w := { w with cache := { w.cache with lastReadLba := lba } })
    ⟨hw.slots, hw.accepts⟩ lba _

/-- **Where the lookahead ends**: at the depth, or before the first block that is cached. -/
theorem lookahead_spec (w : CacheIo) (lba : ℕ) : lookahead w.cache lba ≤ w.depth ∧
      (lookahead w.cache lba = w.depth ∨
        w.cache.isCached (lba + lookahead w.cache lba + 1) = true) := by
  have hspl := takeWhile_append_dropWhile (p := fun k => !w.cache.isCached (lba + k + 1))
    (l := List.range w.depth)
  have hlen := congrArg List.length hspl
  rw [length_append, length_range] at hlen
  change lookahead w.cache lba + _ = _ at hlen
  refine ⟨by omega, ?_⟩
  rcases hre : (List.range w.depth).dropWhile fun k => !w.cache.isCached (lba + k + 1)
    with _ | ⟨x, rest⟩
  · rw [hre] at hlen
    exact Or.inl hlen
  -- what is left begins with the number of the block the loop stopped at
  have hx : (List.range w.depth)[lookahead w.cache lba]? = some x := by
    rw [← hspl, hre]
    refine (getElem?_append_right le_rfl).trans ?_
    rw [Nat.sub_self, getElem?_cons_zero]
  have hsp := head_dropWhile_not (fun k => !w.cache.isCached (lba + k + 1))
    (by rw [hre]; exact cons_ne_nil x rest)
  simp only [hre, Bool.not_eq_false'] at hsp
  rw [getElem?_range (by rw [hre, length_cons] at hlen; omega)] at hx
  exact Or.inr (Option.some.inj hx ▸ hsp)

/-- The lookahead of a miss, as the request it leads to sees it. -/
theorem lookahead_fits_iff {lba : ℕ} : lba + lookahead w.cache lba < w.device.blockCount ↔
      ∃ k ≤ w.depth, lba + k < w.device.blockCount ∧
        (k = w.depth ∨ w.cache.isCached (lba + k + 1) = true) := by
  obtain ⟨hle, hend⟩ := lookahead_spec w lba
  refine ⟨fun h => ⟨_, hle, h, hend⟩, ?_⟩
  rintro ⟨k, hk, hft, hkend⟩
  have : lookahead w.cache lba ≤ k := by
    by_contra hlt
    have hun : w.Uncached (lba + (k + 1)) := uncached_lookahead (not_le.mp hlt)
    rcases hkend with rfl | hcch
    · omega
    obtain ⟨e, he, heq⟩ := isCached_eq_true.mp hcch
    exact hun e he heq
  omega

/-- **Read-ahead is transparent exactly where the lookahead ends inside the device.** For
every state of the cache, every depth and every accepting device, the read of a block of the
device succeeds, with the bytes it has without read-ahead, if and only if the block is
cached, or is no sequential miss, or has a lookahead that stops in time. -/
theorem readAhead_transparent {w : CacheIo} (hslots : w.entries.length = cacheCapacity)
    (haccepts : w.device.Accepts) {lba : ℕ} (hlba : lba < w.device.blockCount) :
    (∃ b, (CacheM.readCached lba w).1 = .ok b ∧
      (CacheM.readCached lba (w.withDepth 0)).1 = .ok b) ↔ w.LookaheadEnds lba := by
  have hser : w.Serves := ⟨hslots, haccepts⟩
  rcases hfd : w.entries.find? fun e => e.lba == lba with _ | e
  · have hun := uncached_of_find? hfd
    have hmiss : w.cache.isCached lba = false := isCached_eq_false.mpr hun
    -- without read-ahead the request is the demanded block alone
    have hno : lookahead (w.withDepth 0).cache lba = 0 :=
      Nat.le_zero.mp (lookahead_spec (w.withDepth 0) lba).1
    have hzero : (readCached lba (w.withDepth 0)).1 = .ok (w.device.blocks lba) := by
      rw [Serves.readCached_miss_eq (w := w.withDepth 0) ⟨hslots, haccepts⟩ hfd, hno, ite_self]
      exact if_pos hlba
    rw [hzero, hser.readCached_miss_eq hfd, LookaheadEnds, hmiss]
    by_cases hseq : w.cache.lastReadLba ≠ u64Max ∧ lba = w.cache.lastReadLba + 1
    · have hah : (w.cache.lastReadLba != u64Max && lba == w.cache.lastReadLba + 1) = true := by
        simpa using hseq
      rw [if_pos hah, ← lookahead_fits_iff]
      by_cases hft : lba + lookahead w.cache lba < w.device.blockCount
      · rw [if_pos hft]
        exact ⟨fun _ => Or.inr (Or.inr hft), fun _ => ⟨_, rfl, rfl⟩⟩
      rw [if_neg hft]
      refine ⟨?_, ?_⟩
      · rintro ⟨b, hb, -⟩
        cases hb
      rintro (h | h | h)
      · cases h
      · exact absurd hseq h
      · exact absurd h hft
    · have hah : ¬(w.cache.lastReadLba != u64Max && lba == w.cache.lastReadLba + 1) = true := by
        simpa using hseq
      rw [if_neg hah, Nat.add_zero, if_pos hlba]
      exact ⟨fun _ => Or.inr (Or.inl hseq), fun _ => ⟨_, rfl, rfl⟩⟩
  · obtain ⟨w₁, hb, -⟩ := bump_run (L := []) w lba
    obtain ⟨w₂, hb₂, -⟩ := bump_run (L := []) (w.withDepth 0) lba
    have hcch : w.cache.isCached lba = true :=
      isCached_eq_true.mpr ⟨e, mem_of_find?_eq_some hfd, by simpa using find?_some hfd⟩
    rw [readCached_hit hfd hb, readCached_hit (w := w.withDepth 0) hfd hb₂]
    exact ⟨fun _ => Or.inl hcch, fun _ => ⟨e.data, rfl, rfl⟩⟩

/-- A fresh cache of the depth SimpleFs mounts with, on a device of two blocks. -/
def freshRead : CacheIo :=
  fresh { CacheUse.oneBlockDevice with blockCount := 2, blockCount_le := by decide } 4

/-- The cache after the first block was read. -/
def firstRead : CacheIo := (readCached 0 freshRead).2

theorem serves_first {d : Device} (haccepts : d.Accepts) (depth : ℕ) :
    (readCached 0 (fresh d depth)).2.Serves := by
  have hserves : (fresh d depth).Serves := ⟨length_replicate, haccepts⟩
  have hfind : ((fresh d depth).entries.find? fun e => e.lba == 0) = none := by
    refine find?_eq_none.mpr fun e he => ?_
    obtain rfl := eq_of_mem_replicate he
    decide
  refine (readCached_moves (L := []) ?_).1.preserves (fun _ _ hm => hm.serves) hserves
  rw [hserves.readCached_miss_eq hfind]
  split <;> split <;> simp

theorem firstRead_serves : firstRead.Serves := serves_first (fun _ => ⟨rfl, rfl⟩) 4

/-- The first block of a device of eight was read. -/
def firstOfEight : CacheIo :=
  (readCached 0 (fresh { CacheUse.oneBlockDevice with
    blockCount := 8, blockCount_le := by decide } 4)).2

/-- The second block is a sequential miss, and the four blocks behind it are on the device. -/
theorem readAhead_transparent_of_next :
    firstOfEight.cache.isCached 1 = false ∧ firstOfEight.cache.lastReadLba = 0 ∧
      ∃ b, (CacheM.readCached 1 firstOfEight).1 = .ok b ∧
        (CacheM.readCached 1 (firstOfEight.withDepth 0)).1 = .ok b := by
  have hserves : firstOfEight.Serves := serves_first (fun _ => ⟨rfl, rfl⟩) 4
  refine ⟨by decide +kernel, by decide +kernel,
    (readAhead_transparent hserves.slots hserves.accepts (by decide +kernel)).mpr ?_⟩
  exact Or.inr (Or.inr ⟨4, by decide +kernel, by decide +kernel, Or.inl (by decide +kernel)⟩)

theorem firstRead_fails : (match (readCached 1 firstRead).1 with
    | .ok _ => true
    | _ => false) = false ∧ 1 < firstRead.device.blockCount := by
  decide +kernel

/-- **A lookahead makes a demanded read fail**: the second block of the device follows the
first, so it is asked for together with the four blocks behind the end. -/
theorem readAhead_refused : ¬∀ w : CacheIo, w.entries.length = cacheCapacity → w.device.Accepts →
      ∀ lba < w.device.blockCount, ∃ b, (CacheM.readCached lba w).1 = .ok b ∧
        (CacheM.readCached lba (w.withDepth 0)).1 = .ok b := by
  intro hall
  obtain ⟨hfails, hlt⟩ := firstRead_fails
  obtain ⟨b, hb, -⟩ := hall firstRead firstRead_serves.slots firstRead_serves.accepts 1 hlt
  rw [hb] at hfails
  cases hfails

end CacheIo

end Protofire
