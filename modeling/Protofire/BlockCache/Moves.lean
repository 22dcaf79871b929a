import Protofire.BlockCache.Model

/-!
# What a call of the block cache can do

Every operation of the cache is made of a few kinds of moves: it takes a number from
the generation counter, stamps a slot, evicts a dirty block, loads a block it has read
from the device, hands a dirty block to the device, or clears the dirty flag of a block
whose write has completed. `CacheIo.Move` lists them, each with what the code has made
sure of at that point, and this file shows once and for all that the operations make no
others. The invariants of the cache are then proved move by move, and nothing after this
file unfolds an operation.

Three operations do one thing more, the point of the call: `write_back` and
`populate_clean` put new content into a slot, `write_through` puts it on the device.
Their lemmas say what that is and that only moves come before and after it.
-/

namespace Protofire

open BlockCache Bool CacheEntry CacheM Device Eff List Option

namespace BlockCache

/-- No LBA occupies two slots. -/
def Unique (c : BlockCache) : Prop :=
  ∀ (i j : ℕ) (e f : CacheEntry), c.entries[i]? = some e → c.entries[j]? = some f →
    e.lba = f.lba → e.lba ≠ emptyLba → i = j

variable {c : BlockCache} {i : ℕ} {new old : CacheEntry}

/-- What a slot holds after another entry was put somewhere. -/
theorem getElem?_put {j : ℕ} {e : CacheEntry} (hi : c.entries[i]? = some old)
    (h : (c.put i new).entries[j]? = some e) :
    i = j ∧ e = new ∨ i ≠ j ∧ c.entries[j]? = some e := by
  have hlt : i < c.entries.length := (List.getElem?_eq_some_iff.mp hi).1
  rw [put, getElem?_set] at h
  by_cases hij : i = j
  · rw [if_pos hij, if_pos hlt] at h
    exact Or.inl ⟨hij, (Option.some.inj h).symm⟩
  · rw [if_neg hij] at h
    exact Or.inr ⟨hij, h⟩

theorem mem_put {e : CacheEntry} (h : e ∈ (c.put i new).entries) : e = new ∨ e ∈ c.entries := by
  rcases mem_or_eq_of_mem_set h with h | h
  · exact Or.inr h
  · exact Or.inl h

theorem getElem?_put_self (hi : c.entries[i]? = some old) :
    (c.put i new).entries[i]? = some new := by
  have hlt : i < c.entries.length := (List.getElem?_eq_some_iff.mp hi).1
  rw [put, getElem?_set, if_pos rfl, if_pos hlt]

theorem getElem?_put_of_ne {j : ℕ} (hij : i ≠ j) : (c.put i new).entries[j]? = c.entries[j]? := by
  rw [put, getElem?_set, if_neg hij]

/-- A slot may receive an entry whose block is in no other slot. -/
theorem Unique.put (hu : c.Unique) (hi : c.entries[i]? = some old)
    (hnew : ∀ (j : ℕ) (e : CacheEntry), c.entries[j]? = some e → e.lba = new.lba →
      e.lba ≠ emptyLba → j = i) : (c.put i new).Unique := by
  intro j k e f hj hk hlba hne
  rcases getElem?_put hi hj with ⟨rfl, rfl⟩ | ⟨-, hj'⟩ <;>
    rcases getElem?_put hi hk with ⟨rfl, rfl⟩ | ⟨-, hk'⟩
  · rfl
  · exact (hnew k f hk' hlba.symm (hlba ▸ hne)).symm
  · exact hnew j e hj' hlba hne
  · exact hu j k e f hj' hk' hlba hne

theorem Unique.put_same (hu : c.Unique) (hi : c.entries[i]? = some old) (hlba : new.lba = old.lba) :
    (c.put i new).Unique :=
  hu.put hi fun j e hj he hne => hu j i e old hj hi (he.trans hlba) hne

end BlockCache

namespace CacheIo

section

variable (w : CacheIo)

/-- Put an entry into a slot. -/
def put (w : CacheIo) (i : ℕ) (e : CacheEntry) : CacheIo := { w with cache := w.cache.put i e }

/-- The slots. -/
abbrev entries (w : CacheIo) : List CacheEntry := w.cache.entries

@[simp] theorem put_entries (i : ℕ) (e : CacheEntry) :
    (w.put i e).entries = w.entries.set i e := rfl

@[simp] theorem put_device (i : ℕ) (e : CacheEntry) : (w.put i e).device = w.device := rfl

/-- The same cache on a device that has moved on. -/
def withDevice (d : Device) : CacheIo := { w with device := d }

@[simp] theorem withDevice_device (d : Device) : (w.withDevice d).device = d := rfl

/-- An LBA is in no slot. -/
def Uncached (lba : ℕ) : Prop := ∀ e ∈ w.entries, e.lba ≠ lba

/-- No LBA occupies two slots. -/
def Unique (w : CacheIo) : Prop := w.cache.Unique

/-- A slot may be given to the block `lba`: it holds that block already, or no slot does
and this one is empty or clean. -/
def Yields (old : CacheEntry) (lba : ℕ) : Prop :=
  old.lba = lba ∨ w.Uncached lba ∧ (old.lba = emptyLba ∨ old.dirty = false)

/-- **The moves of the cache.** The parameter is the record of the device when the call
began: a dirty flag is cleared only for a write that this call has seen succeed. -/
inductive Move (L : List WriteRecord) : CacheIo → CacheIo → Prop
  /-- A number is taken from the generation counter, the last LBA is noted, the clock
  advances. -/
  | clock (w : CacheIo) (generation lastReadLba tick : ℕ) :
      Move L w { w with tick, cache := { w.cache with generation, lastReadLba } }
  /-- A slot is stamped with a generation. -/
  | stamp (w : CacheIo) (i : ℕ) (e : CacheEntry) (generation : ℕ) (h : w.entries[i]? = some e) :
      Move L w (w.put i { e with generation })
  /-- The device answers a read. -/
  | read (w : CacheIo) : Move L w (w.withDevice { w.device with now := w.device.now + 1 })
  /-- A dirty block of a full cache without clean slots is written to the device and
  leaves. -/
  | evict (w : CacheIo) (i : ℕ) (victim : CacheEntry) (o : Outcome Error Unit) (d : Device)
      (h : w.entries[i]? = some victim)
      (hfull : ∀ e ∈ w.entries, e.lba ≠ emptyLba ∧ e.dirty = true)
      (hw : writeBlocks .eviction victim.lba [victim.data] w.device = (o, d))
      (ho : o ≠ .halt) : Move L w ((w.put i CacheEntry.empty).withDevice d)
  /-- A block that was not cached is loaded, as the device holds it. -/
  | load (w : CacheIo) (i : ℕ) (old new : CacheEntry) (h : w.entries[i]? = some old)
      (hold : w.Uncached new.lba ∧ (old.lba = emptyLba ∨ old.dirty = false))
      (hlba : new.lba < w.device.blockCount) (hclean : new.dirty = false)
      (hdata : new.data = w.device.blocks new.lba) : Move L w (w.put i new)
  /-- A dirty block is handed to the device's queue, or the queue answers for it: the
  block may reach the medium, and the record may grow by this block. -/
  | hand (w : CacheIo) (e : CacheEntry) (lands : Bool) (records : List WriteRecord) (d : Device)
      (h : e ∈ w.entries) (hdirty : e.dirty = true)
      (hlba : lands = true → e.lba < w.device.blockCount)
      (hrec : ∀ r ∈ records, r.origin = .queued)
      (hd : w.device.Wrote e.lba e.data lands records d) : Move L w (w.withDevice d)
  /-- The dirty flag of a block is cleared: its content is on the device, and the record
  of this call has its successful write. -/
  | retire (w : CacheIo) (i : ℕ) (e : CacheEntry) (new : List WriteRecord)
      (h : w.entries[i]? = some e) (hdirty : e.dirty = true)
      (hlba : e.lba < w.device.blockCount) (hblocks : w.device.blocks e.lba = e.data)
      (hlog : w.device.log = L ++ new)
      (hrec : { origin := .queued, lba := e.lba, data := e.data, succeeded := true } ∈ new) :
      Move L w (w.put i { e with dirty := false, dirtySince := 0 })

/-- A sequence of moves. -/
def Moves (L : List WriteRecord) : CacheIo → CacheIo → Prop :=
  Relation.ReflTransGen (Move L)

variable {L : List WriteRecord}

theorem Moves.refl : Moves L w w :=
  Relation.ReflTransGen.refl

end

variable {w w' : CacheIo}

theorem Move.moves (h : Move L w w') : Moves L w w' := Relation.ReflTransGen.single h

theorem Moves.trans {w'' : CacheIo} (h : Moves L w w') (h' : Moves L w' w'') :
    Moves L w w'' := Relation.ReflTransGen.trans h h'

/-- **An invariant of the cache is an invariant of its moves.** -/
theorem Moves.preserves {I : CacheIo → Prop} (step : ∀ w w', Move L w w' → I w → I w')
    (h : Moves L w w') (hw : I w) : I w' := by
  induction h with
  | refl => exact hw
  | tail _ hm ih => exact step _ _ hm ih

end CacheIo

/-! ### Slots -/

namespace BlockCache

variable {c : BlockCache} {p : CacheEntry → Bool}

theorem slot_eq_some {i : ℕ} (h : c.slot p = some i) :
    ∃ e, c.entries[i]? = some e ∧ p e = true := by
  obtain ⟨hi, hp, -⟩ := findIdx?_eq_some_iff_getElem.mp h
  exact ⟨c.entries[i], getElem?_eq_getElem hi, hp⟩

theorem slot_eq_none (h : c.slot p = none) : ∀ e ∈ c.entries, p e = false :=
  findIdx?_eq_none_iff.mp h

theorem leastRecent_eq_some {e : CacheEntry} {i : ℕ} (h : c.leastRecent p = some (e, i)) :
    c.entries[i]? = some e ∧ p e = true := by
  have hmem := argmin_mem (mem_def.mpr h)
  obtain ⟨hmem, hp⟩ := mem_filter.mp hmem
  exact ⟨mem_zipIdx_iff_getElem?.mp hmem, hp⟩

theorem leastRecent_eq_none (h : c.leastRecent p = none) : ∀ e ∈ c.entries, p e = false := by
  intro e he
  have hnil := argmin_eq_none.mp h
  obtain ⟨i, hi⟩ := mem_iff_getElem?.mp he
  by_contra hp
  have : (e, i) ∈ c.entries.zipIdx.filter fun x => p x.1 :=
    mem_filter.mpr ⟨mem_zipIdx_iff_getElem?.mpr hi, by simpa using hp⟩
  rw [hnil] at this
  exact not_mem_nil this

theorem isCached_eq_false {lba : ℕ} : c.isCached lba = false ↔ ∀ e ∈ c.entries, e.lba ≠ lba := by
  simp [isCached]

theorem isCached_eq_true {lba : ℕ} : c.isCached lba = true ↔ ∃ e ∈ c.entries, e.lba = lba := by
  simp [isCached]

end BlockCache

namespace CacheIo

open BlockCache (getElem?_put mem_put getElem?_put_self getElem?_put_of_ne)

variable {L : List WriteRecord} {w : CacheIo} {i j : ℕ} {new e old : CacheEntry}

/-- Putting an entry caches its own block only. -/
theorem Uncached.put {b : ℕ} (h : w.Uncached b) (hb : new.lba ≠ b) : (w.put i new).Uncached b := by
  intro e he
  rcases mem_put he with rfl | he
  · exact hb
  · exact h e he

/-- The state after a number was taken from the generation counter. -/
def counted (w : CacheIo) : CacheIo :=
  { w with cache := { w.cache with generation := (w.cache.generation + 1) % 2 ^ 64 } }

theorem counted_move (w : CacheIo) : Move L w w.counted :=
  Move.clock w ((w.cache.generation + 1) % 2 ^ 64) w.cache.lastReadLba w.tick

/-! ### Insertion -/

/-- **What an insertion leaves**: after a few moves some slot that may be given to the
block receives it, and no block that was not cached is touched by those moves. -/
def Inserts (L : List WriteRecord) (w : CacheIo) (lba : ℕ) (data : Block) (dirty : Bool)
    (w' : CacheIo) : Prop :=
  ∃ w₁ i old new, Moves L w w₁ ∧ w₁.entries[i]? = some old ∧ w₁.Yields old lba ∧
    new.lba = lba ∧ new.data = data ∧ new.dirty = dirty ∧ w' = w₁.put i new ∧
    w₁.device.blockCount = w.device.blockCount ∧ w₁.device.blocks lba = w.device.blocks lba ∧
    ∀ b, w.Uncached b → b ≠ emptyLba →
      w₁.Uncached b ∧ w₁.device.blocks b = w.device.blocks b

variable {lba : ℕ} {data : Block} {d : Device}

/-- The write of one block touches that block only. -/
theorem writeBlocks_one {origin : WriteOrigin} {d' : Device} {o : Outcome Error Unit}
    (h : writeBlocks origin lba [data] d = (o, d')) :
    d.Kept d' ∧ ∀ b, b ≠ lba → d'.blocks b = d.blocks b := by
  obtain ⟨hkt, ⟨lands, hbks, -⟩, -⟩ := writeBlocks_run h
  refine ⟨hkt, fun b hb => ?_⟩
  rw [hbks, store_one_of_ne _ _ _ hb]

/-- Emptying a slot of a full cache leaves exactly that slot empty. -/
theorem slot_isEmpty_put_empty (hi : w.entries[i]? = some old)
    (hfu : ∀ e ∈ w.entries, e.lba ≠ emptyLba)
    (hj : (w.put i empty).cache.slot isEmpty = some j) : j = i := by
  obtain ⟨e, he, hemp⟩ := slot_eq_some hj
  rcases getElem?_put hi he with ⟨rfl, -⟩ | ⟨-, he⟩
  · rfl
  · exact absurd (by simpa [CacheEntry.isEmpty] using hemp) (hfu e (List.mem_of_getElem? he))

theorem slot_isEmpty_put_ne_none (hi : w.entries[i]? = some old) :
    (w.put i CacheEntry.empty).cache.slot CacheEntry.isEmpty ≠ none := by
  intro h
  have := slot_eq_none h _ (mem_of_getElem? (getElem?_put_self hi))
  simp [empty, CacheEntry.isEmpty] at this

/-- The last resort of an insertion, when it comes back. -/
theorem evictDirty_run {entry : CacheEntry}
    (hfu : ∀ e ∈ w.entries, e.lba ≠ emptyLba ∧ e.dirty = true)
    (hr : (evictDirty entry w).1 ≠ .halt) :
    ∃ i victim o d, w.entries[i]? = some victim ∧ o ≠ .halt ∧
      writeBlocks .eviction victim.lba [victim.data] w.device = (o, d) ∧ evictDirty entry w =
        (.ok (), ((w.put i empty).withDevice d).put i entry) := by
  rcases hv : w.cache.leastRecent fun _ => true with _ | ⟨victim, i⟩
  · simp [evictDirty, bind_run, hv] at hr
  obtain ⟨hi, -⟩ := leastRecent_eq_some hv
  rcases hd : writeBlocks .eviction victim.lba [victim.data] w.device with ⟨o, d⟩
  rcases hs : (w.put i empty).cache.slot isEmpty with _ | j
  · exact absurd hs (slot_isEmpty_put_ne_none hi)
  obtain rfl : j = i := slot_isEmpty_put_empty hi (fun e he => (hfu e he).1) hs
  have hs' : (w.cache.put j empty).slot isEmpty = some j := hs
  refine ⟨j, victim, o, d, hi, ?_, hd, ?_⟩
  · rintro rfl
    simp [evictDirty, bind_run, hv, place, modifyCache, onDevice, Eff.attempt, hd] at hr
  cases o <;>
  simp [evictDirty, bind_run, hv, place, modifyCache, onDevice,
    Eff.attempt, hd, hs', CacheIo.put, withDevice] at hr ⊢

/-- An insertion takes a number and then looks for a slot. -/
theorem insert_run {dirty : Bool} {entry : CacheEntry}
    (h : entry = ⟨lba, data, w.cache.generation, dirty, if dirty then w.tick else 0⟩) :
    insert lba data dirty w = (match w.cache.slot fun e => e.lba == lba with
      | some i => place i entry
      | none =>
        match w.cache.slot isEmpty with
        | some i => place i entry
        | none =>
          match w.cache.leastRecent fun e => !e.dirty with
          | some (_, i) => place i entry
          | none => evictDirty entry : CacheM Unit) w.counted := h ▸ rfl

variable {dirty : Bool}

/-- **Insertion.** -/
theorem insert_inserts (hr : (insert lba data dirty w).1 ≠ .halt) :
    (insert lba data dirty w).1 = .ok () ∧
      Inserts L w lba data dirty (insert lba data dirty w).2 := by
  obtain ⟨entry, hent⟩ : ∃ entry : CacheEntry, entry =
    ⟨lba, data, w.cache.generation, dirty, if dirty then w.tick else 0⟩ := ⟨_, rfl⟩
  have heq := insert_run hent
  have hlba : entry.lba = lba := by rw [hent]
  have hdt : entry.data = data := by rw [hent]
  have hdirty : entry.dirty = dirty := by rw [hent]
  -- the three placements that touch no device
  have hplace : ∀ (i : ℕ) (old : CacheEntry), w.entries[i]? = some old → w.Yields old lba →
      Inserts L w lba data dirty (w.counted.put i entry) := fun i old hi hold =>
    ⟨w.counted, i, old, entry, (counted_move w).moves, hi, hold, hlba, hdt, hdirty, rfl, rfl, rfl,
      fun b hb _ => ⟨hb, rfl⟩⟩
  rcases hs : w.cache.slot fun e => e.lba == lba with _ | i
  · have hun : w.Uncached lba := fun e he => by
      simpa using slot_eq_none hs e he
    rcases hse : w.cache.slot isEmpty with _ | i
    · have hne : ∀ e ∈ w.entries, e.lba ≠ emptyLba := fun e he => by
        simpa [CacheEntry.isEmpty] using BlockCache.slot_eq_none hse e he
      rcases hl : w.cache.leastRecent fun e => !e.dirty with _ | ⟨old, i⟩
      · rw [hs, hse, hl] at heq
        replace heq : insert lba data dirty w = evictDirty entry w.counted := heq
        have hfu : ∀ e ∈ w.counted.entries, e.lba ≠ emptyLba ∧ e.dirty = true := fun e he =>
          ⟨hne e he, by simpa using leastRecent_eq_none hl e he⟩
        rw [heq] at hr ⊢
        obtain ⟨i, victim, o, d, hi, ho, hd, hrun⟩ := evictDirty_run hfu hr
        rw [hrun]
        have hmem : victim ∈ w.entries := mem_of_getElem? hi
        have hone := writeBlocks_one hd
        refine ⟨rfl, (w.counted.put i empty).withDevice d, i, empty, entry,
          ?_, getElem?_put_self hi, ?_, hlba, hdt, hdirty, rfl, hone.1.blockCount_eq,
          hone.2 lba (hun victim hmem).symm, fun b hb hbne =>
            ⟨hb.put hbne.symm, hone.2 b (hb victim hmem).symm⟩⟩
        · exact (counted_move w).moves.trans (Move.evict _ i victim o d hi hfu hd ho).moves
        by_cases hlbae : lba = emptyLba
        · exact Or.inl hlbae.symm
        · exact Or.inr ⟨hun.put (Ne.symm hlbae), Or.inl rfl⟩
      · rw [hs, hse, hl] at heq
        obtain ⟨hi, hclean⟩ := leastRecent_eq_some hl
        rw [heq]
        exact ⟨rfl, hplace i old hi (Or.inr ⟨hun, Or.inr (by simpa using hclean)⟩)⟩
    · rw [hs, hse] at heq
      obtain ⟨old, hi, hemp⟩ := slot_eq_some hse
      rw [heq]
      exact ⟨rfl, hplace i old hi (Or.inr ⟨hun, Or.inl (by simpa [CacheEntry.isEmpty] using hemp)⟩)⟩
  · rw [hs] at heq
    obtain ⟨old, hi, hlba⟩ := slot_eq_some hs
    rw [heq]
    exact ⟨rfl, hplace i old hi (Or.inl (by simpa using hlba))⟩

/-! ### Reads -/

/-- The blocks of a run that a device has just answered: not cached, and as the device
holds them. -/
def FreshRun (w : CacheIo) (lba : ℕ) (run : List Block) : Prop :=
  lba + run.length ≤ w.device.blockCount ∧
    ∀ k (h : k < run.length), w.Uncached (lba + k) ∧ run[k] = w.device.blocks (lba + k)

theorem ne_emptyLba_of_lt (h : lba < d.blockCount) : lba ≠ emptyLba :=
  (lt_of_lt_of_le h d.blockCount_le).ne

variable {w' : CacheIo}

/-- Inserting the first block of a fresh run is a load, and leaves the rest fresh. -/
theorem FreshRun.insert {b : Block} {run : List Block} (hf : w.FreshRun lba (b :: run))
    (h : Inserts L w lba b false w') : Moves L w w' ∧ w'.FreshRun (lba + 1) run ∧
      ∀ b, w.Uncached b → b ≠ emptyLba → b ≠ lba → w'.Uncached b := by
  obtain ⟨w₁, i, old, new, hmv, hi, hold, hlba, hdt, hdirty, rfl, hcnt, -, hkp⟩ := h
  obtain ⟨hrng, hrun⟩ := hf
  rw [length_cons] at hrng
  have hlt : lba < w.device.blockCount := by omega
  obtain ⟨hun, hb⟩ := hrun 0 (by simp)
  obtain ⟨hun₁, hblk⟩ := hkp lba hun (ne_emptyLba_of_lt hlt)
  refine ⟨hmv.trans (Move.load w₁ i old new hi ?_ ?_ hdirty ?_).moves, ⟨?_, ?_⟩, ?_⟩
  · rcases hold with hold | ⟨-, hold⟩
    · exact absurd hold (hun₁ old (mem_of_getElem? hi))
    · exact ⟨hlba ▸ hun₁, hold⟩
  · rw [hlba, hcnt]
    exact hlt
  · rw [hlba, hdt, hblk]
    exact hb
  · rw [put_device]
    omega
  · intro k hk
    obtain ⟨hunk, hbk⟩ := hrun (k + 1) (by simpa using hk)
    rw [show lba + (k + 1) = lba + 1 + k by omega] at hunk hbk
    have hltk : lba + 1 + k < w.device.blockCount := by omega
    obtain ⟨hunk₁, hblkk⟩ := hkp _ hunk (ne_emptyLba_of_lt hltk)
    refine ⟨hunk₁.put (by omega), ?_⟩
    rw [put_device, hblkk]
    exact hbk
  · intro b hb hbe hbl
    exact (hkp b hb hbe).1.put (hlba ▸ hbl.symm)

theorem insertRun_moves {run : List Block} : ∀ {w : CacheIo} {lba : ℕ}, w.FreshRun lba run →
    (insertRun lba run w).1 ≠ .halt →
    (insertRun lba run w).1 = .ok () ∧ Moves L w (insertRun lba run w).2 ∧
      ∀ b, w.Uncached b → b ≠ emptyLba → lba + run.length ≤ b →
        (insertRun lba run w).2.Uncached b := by
  induction run with
  | nil => exact fun _ _ => ⟨rfl, Moves.refl _, fun b hb _ _ => hb⟩
  | cons b run ih =>
    intro w lba hf hr
    rw [insertRun] at hr ⊢
    obtain ⟨hok, hins⟩ := insert_inserts (ne_halt_of_bind hr)
    obtain ⟨hmv, hf', hkp⟩ := hf.insert hins
    rw [bind_run_ok (Prod.ext hok rfl)] at hr ⊢
    obtain ⟨hok', hmv', hkp'⟩ := ih hf' hr
    refine ⟨hok', hmv.trans hmv', fun c hc hce hle => ?_⟩
    rw [length_cons] at hle
    exact hkp' c (hkp c hc hce (by omega)) hce (by omega)

theorem readBlocks_run (lba n : ℕ) (d : Device) : (∃ e d', readBlocks lba n d = (.err e, d') ∧
        (d' = d ∨ d' = { d with now := d.now + 1 })) ∨
      lba + n ≤ d.blockCount ∧ readBlocks lba n d =
        (.ok ((List.range n).map fun i => d.blocks (lba + i)), { d with now := d.now + 1 }) := by
  unfold readBlocks
  split
  · exact Or.inl ⟨_, _, rfl, Or.inl rfl⟩
  split
  · exact Or.inl ⟨_, _, rfl, Or.inr rfl⟩
  · exact Or.inr ⟨by omega, rfl⟩

theorem onDevice_run {α : Type} {m : Eff Error Device α} {o : Outcome Error α}
    (h : m w.device = (o, d)) : onDevice m w = (o, w.withDevice d) := by
  rw [onDevice, zoom_run, h]
  rfl

/-- A read of blocks none of which is cached answers a fresh run, or an error. -/
theorem onDevice_readBlocks {n : ℕ}
    (hun : ∀ k < n, lba + k < w.device.blockCount → w.Uncached (lba + k)) :
    (∃ e w', onDevice (readBlocks lba n) w = (.err e, w') ∧ Moves L w w') ∨
      ∃ run w', onDevice (readBlocks lba n) w = (.ok run, w') ∧
        Moves L w w' ∧ run.length = n ∧ w'.FreshRun lba run ∧ w'.entries = w.entries ∧
        w'.device.blocks = w.device.blocks ∧ lba + n ≤ w.device.blockCount ∧
        w'.device.blockCount = w.device.blockCount := by
  rcases readBlocks_run lba n w.device with ⟨e, d, h, hd⟩ | ⟨hle, h⟩
  · refine Or.inl ⟨e, w.withDevice d, onDevice_run h, ?_⟩
    rcases hd with rfl | rfl
    · exact Moves.refl w
    · exact (Move.read w).moves
  refine Or.inr ⟨(List.range n).map fun i => w.device.blocks (lba + i),
    w.withDevice { w.device with now := w.device.now + 1 }, onDevice_run h, (Move.read w).moves,
    by simp, ⟨by simpa using hle, fun k hk => ?_⟩, rfl, rfl, hle, rfl⟩
  have hkn : k < n := by simpa using hk
  exact ⟨hun k hkn (by omega), by simp⟩

/-- Changing the first slot that a predicate accepts. -/
theorem updateFirst_run (p : CacheEntry → Bool) (f : CacheEntry → CacheEntry) (w : CacheIo) :
    (∀ e ∈ w.entries, p e = false) ∧ updateFirst p f w = (.ok (), w) ∨
      ∃ i e, w.entries[i]? = some e ∧ p e = true ∧ updateFirst p f w = (.ok (), w.put i (f e)) := by
  rcases hs : w.cache.slot p with _ | i
  · refine Or.inl ⟨slot_eq_none hs, ?_⟩
    rw [updateFirst, modifyCache, modify_run, hs]
  obtain ⟨e, hi, hp⟩ := slot_eq_some hs
  refine Or.inr ⟨i, e, hi, hp, ?_⟩
  rw [updateFirst, modifyCache, modify_run, hs]
  show (Outcome.ok (), { w with cache := { w.cache with entries := w.entries.modify i f } }) = _
  rw [modify_eq_set_getElem?, hi]
  rfl

/-- Restamping the slot of a block, after which every entry is there as it was. -/
theorem bump_run (w : CacheIo) (lba : ℕ) :
    ∃ w', bumpGenerationAndUpdate lba w = (.ok (), w') ∧ Moves L w w' ∧
      ∀ e ∈ w.entries, ∃ f ∈ w'.entries, f.lba = e.lba ∧ f.data = e.data ∧ f.dirty = e.dirty := by
  have heq : bumpGenerationAndUpdate lba w =
      updateFirst (fun e => e.lba == lba)
        (fun e => { e with generation := w.cache.generation }) w.counted := rfl
  rcases updateFirst_run (fun e => e.lba == lba)
    (fun e => { e with generation := w.cache.generation }) w.counted with
    ⟨-, h⟩ | ⟨i, e, hi, -, h⟩
  · exact ⟨w.counted, heq.trans h, (counted_move w).moves, fun e he => ⟨e, he, rfl, rfl, rfl⟩⟩
  refine ⟨_, heq.trans h, (counted_move w).moves.trans (Move.stamp _ i e _ hi).moves,
    fun f hf => ?_⟩
  obtain ⟨j, hj⟩ := mem_iff_getElem?.mp hf
  by_cases hij : i = j
  · subst hij
    cases hi.symm.trans hj
    exact ⟨_, mem_of_getElem? (getElem?_put_self hi), rfl, rfl, rfl⟩
  · exact ⟨f, mem_of_getElem? ((getElem?_put_of_ne hij).trans hj), rfl, rfl, rfl⟩

theorem uncached_of_find? (h : (w.entries.find? fun e => e.lba == lba) = none) :
    w.Uncached lba := fun e he => by
  simpa using find?_eq_none.mp h e he

/-- Of the blocks after a sequential miss, those the lookahead covers are not cached. -/
theorem uncached_lookahead {k : ℕ} (h : k < lookahead w.cache lba) :
    w.Uncached (lba + (k + 1)) := by
  have hmem := mem_takeWhile_imp (getElem_mem h)
  have hk : ((List.range (min w.cache.readAheadDepth prefetchRunBlocks)).takeWhile fun k =>
      !w.cache.isCached (lba + k + 1))[k] = k := by
    rw [( takeWhile_prefix _).getElem h, getElem_range]
  rw [hk, not_eq_true'] at hmem
  exact isCached_eq_false.mp hmem

theorem readMiss_moves {ahead : ℕ} (hun : ∀ k < ahead + 1, w.Uncached (lba + k))
    (hr : (readMiss lba ahead w).1 ≠ .halt) :
    Moves L w (readMiss lba ahead w).2 ∧ ∀ b, (readMiss lba ahead w).1 = .ok b →
      lba < w.device.blockCount ∧ b = w.device.blocks lba := by
  rw [readMiss] at hr ⊢
  rcases onDevice_readBlocks fun k hk _ => hun k hk with
    ⟨e, w', h, hmv⟩ | ⟨run, w', h, hmv, hlen, hf, -, hbks, hle, -⟩
  · rw [bind_run_err h]
    exact ⟨hmv, fun b hb => by cases hb⟩
  rw [bind_run_ok h] at hr ⊢
  obtain ⟨hok, hmv', -⟩ := insertRun_moves hf (ne_halt_of_bind hr)
  rw [bind_run_ok (Prod.ext hok rfl)]
  cases run with
  | nil => simp at hlen
  | cons b run =>
    refine ⟨hmv.trans hmv', ?_⟩
    rintro _ ⟨⟩
    have hb := (hf.2 0 (by simp)).2
    rw [hbks] at hb
    exact ⟨by omega, hb⟩

/-- A miss notes the block and asks the device for it and its lookahead. -/
theorem readCached_miss (h : (w.entries.find? fun e => e.lba == lba) = none) :
    readCached lba w = readMiss lba
      (if w.cache.lastReadLba != u64Max && lba == w.cache.lastReadLba + 1
        then lookahead w.cache lba else 0)
      { w with cache := { w.cache with lastReadLba := lba } } := by
  simp only [readCached, bind_run, get_run, h]
  rfl

/-- A hit answers the cached copy. -/
theorem readCached_hit (h : (w.entries.find? fun e => e.lba == lba) = some e)
    (hb : bumpGenerationAndUpdate lba w = (.ok (), w')) : readCached lba w =
      (.ok e.data, { w' with cache := { w'.cache with lastReadLba := lba } }) := by
  simp only [readCached, bind_run, get_run, h, hb]
  rfl

/-- **A read through the cache** is made of moves, and what it answers is the cached
copy, or else the device's block. -/
theorem readCached_moves (hr : (readCached lba w).1 ≠ .halt) :
    Moves L w (readCached lba w).2 ∧ ∀ b, (readCached lba w).1 = .ok b →
      (∃ e ∈ w.entries, e.lba = lba ∧ b = e.data) ∨
        w.Uncached lba ∧ lba < w.device.blockCount ∧ b = w.device.blocks lba := by
  rcases hfd : w.entries.find? fun e => e.lba == lba with _ | e
  · have hun := uncached_of_find? hfd
    have heq := readCached_miss hfd
    generalize hah : (if w.cache.lastReadLba != u64Max && lba == w.cache.lastReadLba + 1
      then lookahead w.cache lba else 0) = ahead at heq
    rw [heq] at hr ⊢
    have hclk : Move L w { w with cache := { w.cache with lastReadLba := lba } } :=
      Move.clock w w.cache.generation lba w.tick
    have hrun : ∀ k < ahead + 1, w.Uncached (lba + k) := by
      rintro (_ | k) hk
      · exact hun
      refine uncached_lookahead ?_
      split at hah <;> omega
    obtain ⟨hmv, hval⟩ := readMiss_moves (w := { w with
      cache := { w.cache with lastReadLba := lba } }) hrun hr
    exact ⟨hclk.moves.trans hmv, fun b hb => Or.inr ⟨hun, hval b hb⟩⟩
  · have hmem := mem_of_find?_eq_some hfd
    have hlba : e.lba = lba := by simpa using find?_some hfd
    obtain ⟨w', hb, hmv, -⟩ := bump_run w lba
    have heq := readCached_hit hfd hb
    rw [heq]
    refine ⟨hmv.trans (Move.clock w' w'.cache.generation lba w'.tick).moves, ?_⟩
    rintro b ⟨⟩
    exact Or.inl ⟨e, hmem, hlba, rfl⟩

theorem Move.kept (h : Move L w w') : w.device.Kept w'.device := by
  cases h with
  | evict i victim o d hi hfu hw ho => exact (writeBlocks_one hw).1
  | hand e lands records d he hdirty hlba hrec hd => exact hd.toKept
  | _ => exact ⟨rfl, rfl, rfl, rfl⟩

theorem Moves.kept (h : Moves L w w') : w.device.Kept w'.device :=
  h.preserves (I := fun v => w.device.Kept v.device) (fun _ _ hm hv => hv.trans hm.kept)
    (Kept.refl _)

/-- Every block of a run that names a block of the device is not cached. -/
def UncachedRun (w : CacheIo) (lba blocks : ℕ) : Prop :=
  ∀ k < blocks, lba + k < w.device.blockCount → w.Uncached (lba + k)

theorem readChunks_moves {fuel : ℕ} : ∀ {w : CacheIo} {lba blocks : ℕ}, w.UncachedRun lba blocks →
    (readChunks fuel lba blocks w).1 ≠ .halt → (readChunks fuel lba blocks w).1 = .ok () ∧
      Moves L w (readChunks fuel lba blocks w).2 := by
  induction fuel with
  | zero => exact fun _ _ => ⟨rfl, Moves.refl _⟩
  | succ fuel ih =>
    rintro w lba (_ | blocks) hun hr
    · exact ⟨rfl, Moves.refl _⟩
    rw [readChunks] at hr ⊢
    generalize hchk : min (blocks + 1) prefetchRunBlocks = chunk at hr ⊢
    have hun₀ : ∀ k < chunk, lba + k < w.device.blockCount → w.Uncached (lba + k) :=
      fun k hk hlt => hun k (by omega) hlt
    rcases onDevice_readBlocks hun₀ with
      ⟨e, w', h, hmv⟩ | ⟨run, w', h, hmv, hlen, hf, hes, -, hle, hcnt⟩
    · rw [bind_run_ok (attempt_err h)]
      exact ⟨rfl, hmv⟩
    rw [bind_run_ok (attempt_ok h)] at hr ⊢
    obtain ⟨hok, hmv', hkp⟩ := insertRun_moves (L := L) hf (ne_halt_of_bind hr)
    simp only [bind_run_ok (Prod.ext hok rfl)] at hr ⊢
    have hun' :
        (insertRun lba run w').2.UncachedRun (lba + chunk) (blocks + 1 - chunk) := by
      intro k hk hlt
      rw [hmv'.kept.blockCount_eq] at hlt
      have hun₁ : w.Uncached (lba + chunk + k) := by
        have := hun (chunk + k) (by omega) (by omega)
        rwa [← Nat.add_assoc] at this
      refine hkp _ ?_ (ne_emptyLba_of_lt hlt) (by omega)
      intro e he
      exact hun₁ e (hes ▸ he)
    obtain ⟨hok'', hmv''⟩ := ih hun' hr
    exact ⟨hok'', (hmv.trans hmv').trans hmv''⟩

/-- The run a prefetch has collected: its blocks are not cached, and it ends where the
scan stands, unless it lies beyond the device. -/
def Collected (w : CacheIo) (position : ℕ) : Option ℕ → ℕ → Prop
  | none, _ => True
  | some s, blocks =>
    w.UncachedRun s blocks ∧ (s + blocks = position ∨ w.device.blockCount ≤ s)

theorem readRun_moves {position blocks : ℕ} {runStart : Option ℕ}
    (hc : w.Collected position runStart blocks) (hr : (readRun runStart blocks w).1 ≠ .halt) :
    (readRun runStart blocks w).1 = .ok () ∧ Moves L w (readRun runStart blocks w).2 := by
  cases runStart with
  | none => exact ⟨rfl, Moves.refl w⟩
  | some s => exact readChunks_moves hc.1 hr

variable {startLba : ℕ}

/-- The scan goes on over a block that is not cached. -/
theorem Collected.extend {offset blocks : ℕ} {runStart : Option ℕ}
    (hc : w.Collected (startLba + offset) runStart blocks) (hno : runStart = none → blocks = 0)
    (hun : w.Uncached (saturatingAdd startLba offset)) :
    w.Collected (startLba + (offset + 1)) (some (runStart.getD (saturatingAdd startLba offset)))
      (blocks + 1) := by
  have hmax := w.device.blockCount_le
  have hsat : saturatingAdd startLba offset = startLba + offset ∨
      w.device.blockCount ≤ saturatingAdd startLba offset := by
    unfold saturatingAdd u64Max
    omega
  cases runStart with
  | none =>
    rw [hno rfl, getD_none]
    refine ⟨fun k hk _ => ?_, ?_⟩
    · obtain rfl : k = 0 := by omega
      exact hun
    · omega
  | some s =>
    obtain ⟨hrun, hpos⟩ := hc
    rw [getD_some]
    refine ⟨fun k hk hlt => ?_, ?_⟩
    · by_cases hkb : k < blocks
      · exact hrun k hkb hlt
      -- the new block is the one the scan stands on: it names a block of the device
      have heq : saturatingAdd startLba offset = s + k := by
        unfold saturatingAdd u64Max
        omega
      rwa [heq] at hun
    · omega

theorem prefetchFrom_moves {count : ℕ} : ∀ {w : CacheIo} {offset blocks : ℕ}
    (runStart : Option ℕ), w.Collected (startLba + offset) runStart blocks →
    (runStart = none → blocks = 0) →
    (prefetchFrom startLba count offset runStart blocks w).1 ≠ .halt →
    (prefetchFrom startLba count offset runStart blocks w).1 = .ok () ∧
      Moves L w (prefetchFrom startLba count offset runStart blocks w).2 := by
  induction count with
  | zero => exact fun _ hc _ hr => readRun_moves hc hr
  | succ count ih =>
    intro w offset blocks runStart hc hno hr
    rw [prefetchFrom, bind_run_ok (get_run w)] at hr ⊢
    by_cases hcch : w.cache.isCached (saturatingAdd startLba offset) = true
    · simp only [hcch, if_true] at hr ⊢
      obtain ⟨hok, hmv⟩ := readRun_moves hc (ne_halt_of_bind hr)
      rw [bind_run_ok (Prod.ext hok rfl)] at hr ⊢
      obtain ⟨hok', hmv'⟩ := ih none trivial (fun _ => rfl) hr
      exact ⟨hok', hmv.trans hmv'⟩
    · rw [not_eq_true] at hcch
      simp only [hcch, false_eq_true] at hr ⊢
      exact ih _ (hc.extend hno (isCached_eq_false.mp hcch)) (by simp) hr

theorem prefetch_moves {count : ℕ} (hr : (prefetch startLba count w).1 ≠ .halt) :
    (prefetch startLba count w).1 = .ok () ∧ Moves L w (prefetch startLba count w).2 :=
  prefetchFrom_moves none trivial (fun _ => rfl) hr

/-! ### Writes -/

/-- No move makes a block occupy a second slot. -/
theorem Move.unique (h : Move L w w') (hu : w.Unique) : w'.Unique := by
  cases h with
  | clock => exact hu
  | read => exact hu
  | hand => exact hu
  | stamp i e generation hi | retire i e new hi => exact hu.put_same hi rfl
  | evict i victim o d hi hfu hw ho =>
    have h : (w.put i empty).Unique := hu.put hi fun _ _ _ he hne => absurd he hne
    exact h
  | load i old new hi hold hlba hclean hdt =>
    exact hu.put hi fun j e hj he _ => absurd he (hold.1 e (mem_of_getElem? hj))

/-- **What a call that puts new content into the cache leaves**: moves, one slot that may
be given to the block receives the content, and moves again. -/
def Stores (L : List WriteRecord) (w : CacheIo) (lba : ℕ) (data : Block) (dirty : Bool)
    (w' : CacheIo) : Prop :=
  ∃ w₁ i old new, Moves L w w₁ ∧ w₁.entries[i]? = some old ∧ w₁.Yields old lba ∧
    new.lba = lba ∧ new.data = data ∧ new.dirty = dirty ∧
    w₁.device.blocks lba = w.device.blocks lba ∧ Moves L (w₁.put i new) w' ∧
    ∃ e ∈ w'.entries, e.lba = lba ∧ e.data = data ∧ e.dirty = dirty

theorem Inserts.stores (h : Inserts L w lba data dirty w') : Stores L w lba data dirty w' := by
  obtain ⟨w₁, i, old, new, hm, hi, hold, hlba, hdt, hdirty, rfl, -, hblk, -⟩ := h
  exact ⟨w₁, i, old, new, hm, hi, hold, hlba, hdt, hdirty, hblk, Moves.refl _, new,
    mem_of_getElem? (getElem?_put_self hi), hlba, hdt, hdirty⟩

theorem populateClean_stores (hr : (populateClean lba data w).1 ≠ .halt) :
    Stores L w lba data false (populateClean lba data w).2 :=
  (insert_inserts hr).2.stores

/-- **A write-back** answers success and stores the content dirty. -/
theorem writeBack_stores (hr : (writeBack lba data w).1 ≠ .halt) :
    (writeBack lba data w).1 = .ok () ∧ Stores L w lba data true (writeBack lba data w).2 := by
  rw [writeBack, bind_run_ok (get_run w)] at hr ⊢
  by_cases hcch : w.cache.isCached lba = true
  · obtain ⟨e, he, helba⟩ := isCached_eq_true.mp hcch
    simp only [hcch, if_true]
    rcases updateFirst_run (fun e => e.lba == lba)
      (fun e => { e with data, dirty := true, dirtySince := w.tick }) w with
      ⟨hno, -⟩ | ⟨i, old, hi, hold, hrun⟩
    · simpa [helba] using hno e he
    obtain ⟨w', hb, hmv, hsm⟩ :=
      bump_run (w.put i { old with data, dirty := true, dirtySince := w.tick }) lba
    have hlba : old.lba = lba := by simpa using hold
    rw [bind_run_ok hrun, hb]
    refine ⟨rfl, w, i, old, { old with data, dirty := true, dirtySince := w.tick }, Moves.refl w,
      hi, Or.inl hlba, hlba, rfl, rfl, rfl, hmv, ?_⟩
    obtain ⟨f, hf, hflba, hfdata, hfdir⟩ :=
      hsm _ (mem_of_getElem? (getElem?_put_self hi))
    exact ⟨f, hf, hflba.trans hlba, hfdata, hfdir⟩
  · simp only [hcch, false_eq_true] at hr ⊢
    exact ⟨(insert_inserts (L := L) hr).1, (insert_inserts hr).2.stores⟩

/-- **A write-through**: the device answers first; on success the cached copy, if there is
one, takes the content and is clean. -/
theorem writeThrough_run (hr : (writeThrough lba data w).1 ≠ .halt) :
    ∃ o d, writeBlocks .direct lba [data] w.device = (o, d) ∧ o ≠ .halt ∧
      (writeThrough lba data w).1 = o ∧
      ((o ≠ .ok () ∨ w.Uncached lba) ∧ (writeThrough lba data w).2 = w.withDevice d ∨
        o = .ok () ∧ ∃ (i : ℕ) (old new : CacheEntry), w.entries[i]? = some old ∧ old.lba = lba ∧
          new.lba = lba ∧ new.data = data ∧ new.dirty = false ∧
          Moves L ((w.withDevice d).put i new) (writeThrough lba data w).2) := by
  obtain ⟨⟨o, d⟩, hd⟩ : ∃ r, writeBlocks .direct lba [data] w.device = r := ⟨_, rfl⟩
  have hdev := onDevice_run hd
  rw [writeThrough] at hr ⊢
  refine ⟨o, d, hd, ?_⟩
  cases o with
  | halt =>
    rw [bind_run_halt hdev] at hr
    exact absurd rfl hr
  | err e =>
    rw [bind_run_err hdev]
    exact ⟨by simp, rfl, Or.inl ⟨Or.inl (by simp), rfl⟩⟩
  | ok u =>
    refine ⟨by simp, ?_⟩
    rw [bind_run_ok hdev, bind_run_ok (get_run _)] at hr ⊢
    by_cases hcch : (w.withDevice d).cache.isCached lba = true
    · obtain ⟨e, he, helba⟩ := isCached_eq_true.mp hcch
      simp only [hcch, if_true]
      rcases updateFirst_run (fun e => e.lba == lba)
        (fun e => { e with data, dirty := false, dirtySince := 0 }) (w.withDevice d) with
        ⟨hno, -⟩ | ⟨i, old, hi, hold, hrun⟩
      · simpa [helba] using hno e he
      obtain ⟨w', hb, hmv, -⟩ := bump_run
        ((w.withDevice d).put i { old with data, dirty := false, dirtySince := 0 }) lba
      have hlba : old.lba = lba := by simpa using hold
      rw [bind_run_ok hrun, hb]
      exact ⟨rfl, Or.inr ⟨trivial, i, old, { old with data, dirty := false, dirtySince := 0 },
        hi, hlba, hlba, rfl, rfl, hmv⟩⟩
    · rw [not_eq_true] at hcch
      simp only [hcch, false_eq_true]
      exact ⟨rfl, Or.inl ⟨Or.inr (isCached_eq_false.mp hcch), rfl⟩⟩

theorem Stores.kept (h : Stores L w lba data dirty w') : w.device.Kept w'.device := by
  obtain ⟨w₁, i, old, new, hm, -, -, -, -, -, -, hm', -⟩ := h
  have hk : w₁.device.Kept w'.device := Moves.kept (w := w₁.put i new) hm'
  exact hm.kept.trans hk

theorem writeThrough_kept (hr : (writeThrough lba data w).1 ≠ .halt) :
    w.device.Kept (writeThrough lba data w).2.device := by
  obtain ⟨o, d, hw, -, -, ⟨-, heq⟩ | ⟨-, i, old, new, -, -, -, -, -, hmv⟩⟩ :=
    writeThrough_run (L := []) hr
  · rw [heq]
    exact (writeBlocks_one hw).1
  have hk : d.Kept (writeThrough lba data w).2.device :=
    Moves.kept hmv
  exact (writeBlocks_one hw).1.trans hk

end CacheIo

end Protofire
