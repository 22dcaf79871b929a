import Protofire.BlockCache.Flush

/-!
# The block cache refines its device

Seen from above, a cache over a device is a memory: a read answers what the block was
last given. `CacheIo.Refines` states the relation between the two – what is cached is what
the memory holds, what is clean or not cached is on the device – and this file shows that
every call keeps it, on a device whose requests succeed.

“Given” includes `populate_clean`. Its caller has just written the block to the device and
hands the cache that content; the entry takes it and is clean, whatever it held before. A
block that was dirty loses the older write then, so a read answers the content of the
latest `write_through`, `write_back` **or** `populate_clean`, and not always that of the
latest write.
-/

namespace Protofire

open CacheIo CacheM Device Function List

/-- An answer with which a request succeeds: a read and a write complete, a submission is
taken, a poll reports success or nothing yet. -/
structure Answer.Succeeds (a : Answer) : Prop where
  read : a.read = none
  write : a.write = .completes
  submit : a.submit = .inPlace ∨ ∃ lands, a.submit = .queues lands
  poll : a.poll = .pending ∨ a.poll = .done

/-- **A device whose requests all succeed.** A request beyond the device is still
refused. -/
structure Device.Succeeds (d : Device) : Prop where
  writable : d.readOnly = false
  answers : ∀ n, (d.answers n).Succeeds
  /-- A queued write is reported within the polls a flush makes. -/
  reported : ∀ n, ∃ k ≤ flushPollLimit, (d.answers (n + k)).poll = .done

/-- On such a device the write of a block of the device completes. -/
theorem Device.Succeeds.writeBlocks {d : Device} (hd : d.Succeeds) {origin : WriteOrigin} {lba : ℕ}
    (hlt : lba < d.blockCount) (data : Block) {o : Outcome Error Unit} {d' : Device}
    (h : writeBlocks origin lba [data] d = (o, d')) : o = .ok () ∧ d'.blocks lba = data := by
  have hle : ¬lba + [data].length > d.blockCount := by
    rw [length_singleton]
    omega
  simp only [Device.writeBlocks, hd.writable, if_neg hle, (hd.answers d.now).write] at h
  cases h
  exact ⟨rfl, by simp⟩

theorem Device.Succeeds.kept {d d' : Device} (hd : d.Succeeds) (hk : d.Kept d') : d'.Succeeds :=
  ⟨hk.readOnly_eq.trans hd.writable, fun n => hk.answers_eq ▸ hd.answers n,
    fun n => hk.answers_eq ▸ hd.reported n⟩

namespace CacheIo

open BlockCache (getElem?_put mem_put getElem?_put_self getElem?_put_of_ne)

variable {L : List WriteRecord} {w w' : CacheIo} {m : ℕ → Block}

/-- **The cache refines the memory `m`**: what is cached is what `m` holds, what is clean or
not cached is on the device, and no block occupies two slots. -/
structure Refines (w : CacheIo) (m : ℕ → Block) : Prop where
  unique : w.Unique
  cached_eq : ∀ e ∈ w.entries, e.lba < w.device.blockCount → e.data = m e.lba
  clean_eq : ∀ e ∈ w.entries, e.dirty = false → e.lba ≠ emptyLba →
    e.lba < w.device.blockCount ∧ e.data = w.device.blocks e.lba
  uncached_eq : ∀ b < w.device.blockCount, w.Uncached b → w.device.blocks b = m b

theorem Refines.congr {m' : ℕ → Block} (h : w.Refines m)
    (hm : ∀ b < w.device.blockCount, m' b = m b) : w.Refines m' :=
  ⟨h.unique, fun e he hlt => (h.cached_eq e he hlt).trans (hm _ hlt).symm, h.clean_eq,
    fun b hb hun => (h.uncached_eq b hb hun).trans (hm b hb).symm⟩

variable {i : ℕ} {old new : CacheEntry}

/-- A block of the device that is in no slot after one was reused was in none before, or in
that one, and clean. -/
theorem uncached_before_put {b : ℕ} (hi : w.entries[i]? = some old)
    (hun : (w.put i new).Uncached b) : w.Uncached b ∨ old.lba = b := by
  by_contra hc
  rw [not_or] at hc
  obtain ⟨hcch, hold⟩ := hc
  simp only [Uncached, not_forall, not_not] at hcch
  obtain ⟨e, he, hlba⟩ := hcch
  obtain ⟨j, hj⟩ := mem_iff_getElem?.mp he
  have hij : i ≠ j := by
    rintro rfl
    rw [hi] at hj
    cases hj
    exact hold hlba
  exact hun e (mem_of_getElem? ((getElem?_put_of_ne hij).trans hj)) hlba

/-- **A slot takes new content**: the memory changes at that block and nowhere else. -/
theorem Refines.put (h : w.Refines m) (hi : w.entries[i]? = some old) (hold : w.Yields old new.lba)
    (hclean : new.dirty = false → new.lba ≠ emptyLba →
      new.lba < w.device.blockCount ∧ new.data = w.device.blocks new.lba) :
    (w.put i new).Refines (update m new.lba new.data) := by
  have hoth : ∀ (j : ℕ) (e : CacheEntry), w.entries[j]? = some e → e.lba = new.lba →
      e.lba ≠ emptyLba → j = i := by
    intro j e hj he hne
    rcases hold with hold | ⟨hun, -⟩
    · exact h.unique j i e old hj hi (he.trans hold.symm) hne
    · exact absurd he (hun e (mem_of_getElem? hj))
  refine ⟨h.unique.put hi hoth, fun e he hlt => ?_, fun e he hd hne => ?_, fun b hb hun => ?_⟩
  · obtain ⟨j, hj⟩ := mem_iff_getElem?.mp he
    rcases getElem?_put hi hj with ⟨-, rfl⟩ | ⟨hij, hj⟩
    · rw [update_self]
    have hne : e.lba ≠ new.lba := fun hc =>
      hij (hoth j e hj hc (ne_emptyLba_of_lt hlt)).symm
    rw [update_of_ne hne]
    exact h.cached_eq e (mem_of_getElem? hj) hlt
  · rcases mem_put he with rfl | he
    · exact hclean hd hne
    · exact h.clean_eq e he hd hne
  have hbn : b ≠ new.lba := fun hc =>
    hun new (mem_of_getElem? (getElem?_put_self hi)) hc.symm
  rw [update_of_ne hbn]
  rcases uncached_before_put hi hun with hun' | rfl
  · exact h.uncached_eq b hb hun'
  -- the block that left was clean, so the device has it
  rcases hold with hold | ⟨-, hold | hold⟩
  · exact absurd hold hbn
  · exact absurd hold (ne_emptyLba_of_lt hb)
  · have hmem := mem_of_getElem? hi
    exact (h.clean_eq old hmem hold (ne_emptyLba_of_lt hb)).2.symm.trans (h.cached_eq old hmem hb)

/-- Restamping a slot, or clearing its dirty flag once the device has its content. -/
theorem Refines.put_same (h : w.Refines m) (hi : w.entries[i]? = some old)
    (hlba : new.lba = old.lba) (hdt : new.data = old.data)
    (hclean : new.dirty = false → new.lba ≠ emptyLba →
      new.lba < w.device.blockCount ∧ new.data = w.device.blocks new.lba) :
    (w.put i new).Refines m := by
  refine (h.put hi (Or.inl hlba.symm) hclean).congr fun b hb => ?_
  by_cases hbn : b = new.lba
  · rw [hbn, update_self, hdt, hlba]
    exact (h.cached_eq old (mem_of_getElem? hi) (by rw [← hlba, ← hbn]; exact hb)).symm
  · rw [update_of_ne hbn]

/-- **Every move keeps the refinement**, on a device whose requests succeed. -/
theorem Move.refines (hd : w.device.Succeeds) (h : Move L w w') (hr : w.Refines m) :
    w'.Refines m := by
  cases h with
  | clock | read => exact ⟨hr.unique, hr.cached_eq, hr.clean_eq, hr.uncached_eq⟩
  | stamp i e generation hi =>
    exact hr.put_same hi rfl rfl (hr.clean_eq e (mem_of_getElem? hi))
  | evict i victim o d hi hfu hw ho =>
    have hmem := mem_of_getElem? hi
    obtain ⟨hkt, hbks⟩ := writeBlocks_one hw
    refine ⟨(Move.evict (L := L) w i victim o d hi hfu hw ho).unique hr.unique,
      fun e he hlt => ?_, fun e he hed hne => ?_, fun b hb hun => ?_⟩
    · rw [withDevice_device, hkt.blockCount_eq] at hlt
      rcases mem_put he with rfl | he
      · exact absurd rfl (ne_emptyLba_of_lt hlt)
      · exact hr.cached_eq e he hlt
    · rcases mem_put he with rfl | he
      · exact absurd rfl hne
      rw [(hfu e he).2] at hed
      cases hed
    · rw [withDevice_device, hkt.blockCount_eq] at hb
      rcases uncached_before_put hi hun with hun' | rfl
      · rw [withDevice_device, hbks b (hun' victim hmem).symm]
        exact hr.uncached_eq b hb hun'
      · exact (hd.writeBlocks hb victim.data hw).2.trans (hr.cached_eq victim hmem hb)
  | load i old new hi hold hlba hclean hdt =>
    refine (hr.put hi (Or.inr hold) fun _ _ => ⟨hlba, hdt⟩).congr fun b hb => ?_
    by_cases hbn : b = new.lba
    · rw [hbn, update_self, hdt]
      exact (hr.uncached_eq new.lba hlba hold.1).symm
    · rw [update_of_ne hbn]
  | hand e lands records d he hdirty hlba hrec hd =>
    refine ⟨hr.unique, fun f hf hlt => ?_, fun f hf hfd hne => ?_, fun b hb hun => ?_⟩
    · rw [withDevice_device, hd.blockCount_eq] at hlt
      exact hr.cached_eq f hf hlt
    · replace hf : f ∈ w.entries := hf
      obtain ⟨hlt, hdt⟩ := hr.clean_eq f hf hfd hne
      have hfe : f.lba ≠ e.lba := by
        intro hc
        obtain ⟨i, hi⟩ := mem_iff_getElem?.mp hf
        obtain ⟨j, hj⟩ := mem_iff_getElem?.mp he
        obtain rfl := hr.unique i j f e hi hj hc hne
        rw [hi] at hj
        cases hj
        rw [hdirty] at hfd
        cases hfd
      rw [withDevice_device, hd.blockCount_eq, hd.blocks_eq, store_one_of_ne _ _ _ hfe]
      exact ⟨hlt, hdt⟩
    · rw [withDevice_device, hd.blockCount_eq] at hb
      rw [withDevice_device, hd.blocks_eq, store_one_of_ne _ _ _ (hun e he).symm]
      exact hr.uncached_eq b hb hun
  | retire i e new hi hdirty hlba hbks hlog hrec =>
    exact hr.put_same hi rfl rfl fun _ _ => ⟨hlba, hbks.symm⟩

theorem Moves.refines (hd : w.device.Succeeds) (h : Moves L w w') (hr : w.Refines m) :
    w'.Refines m :=
  (h.preserves (I := fun v => v.device.Succeeds ∧ v.Refines m)
    (fun _ _ hm hv => ⟨hv.1.kept hm.kept, hm.refines hv.1 hv.2⟩) ⟨hd, hr⟩).2

variable {lba : ℕ} {data : Block}

/-- A call that stores content stores it in the memory too. -/
theorem Stores.refines {dirty : Bool} (h : Stores L w lba data dirty w') (hd : w.device.Succeeds)
    (hr : w.Refines m)
    (hclean : dirty = false → lba < w.device.blockCount ∧ data = w.device.blocks lba) :
    w'.Refines (update m lba data) := by
  obtain ⟨w₁, i, old, new, hm, hi, hold, rfl, rfl, rfl, hblk, hm', -⟩ := h
  have hd₁ : (w₁.put i new).device.Succeeds := hd.kept hm.kept
  refine hm'.refines hd₁ ((hm.refines hd hr).put hi hold fun hc _ => ?_)
  rw [hm.kept.blockCount_eq, hblk]
  exact hclean hc

/-- **The device takes new content** for a block that no slot holds with another one. -/
theorem Refines.written (h : w.Refines m) {d : Device} (hkt : w.device.Kept d)
    (hbks : d.blocks = store w.device.blocks lba [data] fun _ => true)
    (hsm : ∀ e ∈ w.entries, e.lba = lba → e.data = data) :
    (w.withDevice d).Refines (update m lba data) := by
  have hblk : ∀ b, b ≠ lba → d.blocks b = w.device.blocks b := fun b hb => by
    rw [hbks, store_one_of_ne _ _ _ hb]
  have hblk' : d.blocks lba = data := by simp [hbks]
  refine ⟨h.unique, fun e he hlt => ?_, fun e he hed hne => ?_, fun b hb hun => ?_⟩
  · rw [withDevice_device, hkt.blockCount_eq] at hlt
    by_cases hel : e.lba = lba
    · rw [hel, update_self]
      exact hsm e he hel
    · rw [update_of_ne hel]
      exact h.cached_eq e he hlt
  · obtain ⟨hlt, hdt⟩ := h.clean_eq e he hed hne
    rw [withDevice_device, hkt.blockCount_eq]
    by_cases hel : e.lba = lba
    · exact ⟨hlt, by rw [hel, hblk']; exact hsm e he hel⟩
    · exact ⟨hlt, by rw [hblk _ hel]; exact hdt⟩
  · rw [withDevice_device, hkt.blockCount_eq] at hb
    rw [withDevice_device]
    by_cases hbl : b = lba
    · rw [hbl, update_self, hblk']
    rw [update_of_ne hbl, hblk b hbl]
    exact h.uncached_eq b hb hun

/-- A write-through of a block of the device. -/
theorem writeThrough_refines (hrun : (writeThrough lba data w).1 = .ok ())
    (hd : w.device.Succeeds) (hr : w.Refines m) :
    (writeThrough lba data w).2.Refines (update m lba data) := by
  obtain ⟨o, d, hw, -, ho, hcs⟩ := writeThrough_run (L := []) (by rw [hrun]; simp)
  obtain rfl : o = .ok () := ho.symm.trans hrun
  obtain ⟨hkt, ⟨lands, hbks, hlan, -⟩, -⟩ := writeBlocks_run hw
  obtain ⟨hle, rfl⟩ := hlan rfl
  rcases hcs with ⟨hun, heq⟩ | ⟨-, i, old, new, hi, hold, hlba, hdt, hclean, hmv⟩
  · rw [heq]
    have hun' : w.Uncached lba := hun.resolve_left fun hc => hc rfl
    exact hr.written hkt hbks fun e he hel => absurd hel (hun' e he)
  -- the copy takes the content as a dirty one, the device follows, the flag is cleared
  subst hlba hdt
  refine hmv.refines (hd.kept hkt) ?_
  obtain ⟨mid, hmid⟩ : ∃ mid : CacheEntry, mid = { new with dirty := true } := ⟨_, rfl⟩
  have hmid_lba : mid.lba = new.lba := by rw [hmid]
  have hmid_data : mid.data = new.data := by rw [hmid]
  have hi' : (w.put i mid).entries[i]? = some mid := getElem?_put_self hi
  have hst : (w.put i mid).Refines (update m new.lba new.data) := by
    rw [← hmid_lba, ← hmid_data]
    exact hr.put hi (Or.inl (hold.trans hmid_lba.symm)) fun hc => by rw [hmid] at hc; cases hc
  have hwr := hst.written hkt hbks fun e he hel => ?_
  · rw [update_idem] at hwr
    have hput : (((w.put i mid).withDevice d).put i new).Refines _ :=
      hwr.put_same hi' hmid_lba.symm hmid_data.symm fun _ _ => ?_
    · rwa [show (((w.put i mid).withDevice d).put i new) = (w.withDevice d).put i new by
        simp [put, withDevice, BlockCache.put]] at hput
    rw [withDevice_device, hkt.blockCount_eq, hbks]
    refine ⟨?_, by simp⟩
    rw [length_singleton] at hle
    omega
  · obtain ⟨j, hj⟩ := mem_iff_getElem?.mp he
    have hne : e.lba ≠ emptyLba := by
      rw [length_singleton] at hle
      exact hel ▸ ne_emptyLba_of_lt (d := w.device) (by omega)
    obtain rfl := hst.unique j i e mid hj hi' (hel.trans hmid_lba.symm) hne
    rw [hi'] at hj
    rw [← Option.some.inj hj, hmid_data]

/-- A write-through fails only beyond the device, and changes nothing. -/
theorem writeThrough_failed_refines {e : Error} (hrun : (writeThrough lba data w).1 = .err e)
    (hd : w.device.Succeeds) (hr : w.Refines m) : (writeThrough lba data w).2.Refines m := by
  obtain ⟨o, d, hw, -, ho, hcs⟩ := writeThrough_run (L := []) (by rw [hrun]; simp)
  obtain rfl : o = .err e := ho.symm.trans hrun
  obtain ⟨hkt, ⟨lands, hbks, -, hlan⟩, -⟩ := writeBlocks_run hw
  rcases hcs with ⟨-, heq⟩ | ⟨hc, -⟩
  · have hge : w.device.blockCount < lba + [data].length := by
      by_contra hc
      rw [length_singleton] at hc
      obtain ⟨hc, -⟩ := hd.writeBlocks (by omega) data hw
      cases hc
    obtain rfl := hlan hge
    rw [store_none] at hbks
    rw [heq]
    refine ⟨hr.unique, fun e he hlt => ?_, fun e he hed hne => ?_, fun b hb hun => ?_⟩
    · rw [withDevice_device, hkt.blockCount_eq] at hlt
      exact hr.cached_eq e he hlt
    · rw [withDevice_device, hkt.blockCount_eq, hbks]
      exact hr.clean_eq e he hed hne
    · rw [withDevice_device, hkt.blockCount_eq] at hb
      rw [withDevice_device, hbks]
      exact hr.uncached_eq b hb hun
  · cases hc

end CacheIo

/-! ### Runs -/

/-- A cache in use, with what its callers know: the content each block was last *written*
with (`write_through`, `write_back`), and the content it was last *given*
(`populate_clean` included). Before any call both are the device's initial content. -/
structure CacheUse where
  io : CacheIo
  written : ℕ → Block
  given : ℕ → Block

namespace CacheUse

/-- A fresh cache on a device. -/
def fresh (d : Device) (depth : ℕ) : CacheUse :=
  { io := CacheIo.fresh d depth, written := d.blocks, given := d.blocks }

/-- **One call.** A call that does not come back ends the run; a `populate_clean` is made
with the content the device holds. -/
inductive Step : CacheUse → CacheUse → Prop
  | readCached (s : CacheUse) (lba : ℕ) (hr : (readCached lba s.io).1 ≠ .halt) :
      Step s { s with io := (readCached lba s.io).2 }
  | writeThrough (s : CacheUse) (lba : ℕ) (data : Block)
      (hr : (writeThrough lba data s.io).1 = .ok ()) :
      Step s ⟨(writeThrough lba data s.io).2, update s.written lba data,
        update s.given lba data⟩
  | writeThroughFailed (s : CacheUse) (lba : ℕ) (data : Block) (e : Error)
      (hr : (writeThrough lba data s.io).1 = .err e) :
      Step s { s with io := (writeThrough lba data s.io).2 }
  | writeBack (s : CacheUse) (lba : ℕ) (data : Block)
      (hr : (writeBack lba data s.io).1 = .ok ()) :
      Step s ⟨(writeBack lba data s.io).2, update s.written lba data,
        update s.given lba data⟩
  | flush (s : CacheUse) (hr : (flush s.io).1 ≠ .halt) :
      Step s { s with io := (flush s.io).2 }
  | flushAged (s : CacheUse) (ageTicks : ℕ) (hr : (flushAged ageTicks s.io).1 ≠ .halt) :
      Step s { s with io := (flushAged ageTicks s.io).2 }
  | flushRange (s : CacheUse) (startLba count : ℕ)
      (hr : (flushRange startLba count s.io).1 ≠ .halt) :
      Step s { s with io := (flushRange startLba count s.io).2 }
  | prefetch (s : CacheUse) (startLba count : ℕ)
      (hr : (prefetch startLba count s.io).1 ≠ .halt) :
      Step s { s with io := (prefetch startLba count s.io).2 }
  | populateClean (s : CacheUse) (lba : ℕ) (hlba : lba < s.io.device.blockCount)
      (hr : (populateClean lba (s.io.device.blocks lba) s.io).1 ≠ .halt) :
      Step s ⟨(populateClean lba (s.io.device.blocks lba) s.io).2, s.written,
        update s.given lba (s.io.device.blocks lba)⟩
  | advanceCacheTicks (s : CacheUse) (n : ℕ) :
      Step s { s with io := (advanceCacheTicks n s.io).2 }

/-- The states a fresh cache on a device comes to. -/
def Reachable (d : Device) (depth : ℕ) (s : CacheUse) : Prop :=
  Relation.ReflTransGen Step (fresh d depth) s

/-- The cache refines what its callers gave it. -/
structure Sound (s : CacheUse) : Prop where
  succeeds : s.io.device.Succeeds
  refines : s.io.Refines s.given

theorem fresh_sound {d : Device} (hd : d.Succeeds) (depth : ℕ) : (fresh d depth).Sound := by
  have hemp : ∀ e ∈ (CacheIo.fresh d depth).entries, e = CacheEntry.empty := fun e he =>
    eq_of_mem_replicate he
  refine ⟨hd, fun i j e f hi hj hlba hne => ?_, fun e he hlt => ?_, fun e he _ hne => ?_,
    fun b _ _ => rfl⟩
  · rw [hemp e (mem_of_getElem? hi)] at hne
    exact absurd rfl hne
  · rw [hemp e he] at hlt
    exact absurd rfl (ne_emptyLba_of_lt hlt)
  · rw [hemp e he] at hne
    exact absurd rfl hne

variable {s : CacheUse} {w : CacheIo}

/-- A call made of moves. -/
theorem Sound.moves (hs : s.Sound) {L : List WriteRecord} (h : Moves L s.io w) :
    Sound { s with io := w } :=
  ⟨hs.succeeds.kept h.kept, h.refines hs.succeeds hs.refines⟩

theorem Step.sound {s' : CacheUse} (h : Step s s') (hs : s.Sound) : s'.Sound := by
  cases h with
  | readCached lba hr => exact hs.moves (L := []) (readCached_moves hr).1
  | writeThrough lba data hr =>
    exact ⟨hs.succeeds.kept (writeThrough_kept (by rw [hr]; simp)),
      writeThrough_refines hr hs.succeeds hs.refines⟩
  | writeThroughFailed lba data e hr =>
    exact ⟨hs.succeeds.kept (writeThrough_kept (by rw [hr]; simp)),
      writeThrough_failed_refines hr hs.succeeds hs.refines⟩
  | writeBack lba data hr =>
    have hst := (writeBack_stores (L := []) (by rw [hr]; simp)).2
    exact ⟨hs.succeeds.kept hst.kept, hst.refines hs.succeeds hs.refines fun hc => by cases hc⟩
  | flush hr => exact hs.moves (flush_run hs.refines.unique).2.1
  | flushAged ageTicks hr => exact hs.moves (flushAged_run hs.refines.unique ageTicks).2
  | flushRange startLba count hr =>
    exact hs.moves (flushRange_run hs.refines.unique startLba count).2
  | prefetch startLba count hr => exact hs.moves (L := []) (prefetch_moves hr).2
  | populateClean lba hlba hr =>
    have hst := populateClean_stores (L := []) hr
    exact ⟨hs.succeeds.kept hst.kept, hst.refines hs.succeeds hs.refines fun _ => ⟨hlba, rfl⟩⟩
  | advanceCacheTicks n => exact hs.moves (L := []) (Move.clock s.io _ _ _).moves

theorem Reachable.sound {d : Device} (hd : d.Succeeds) {depth : ℕ} (h : Reachable d depth s) :
    s.Sound := by
  induction h with
  | refl => exact fresh_sound hd depth
  | tail _ hsp ih => exact hsp.sound ih

/-- What a successful read answers is the content the block was last given. -/
theorem Sound.readCached_eq (hs : s.Sound) {lba : ℕ} {b : Block}
    (hlt : lba < s.io.device.blockCount) (hr : readCached lba s.io = (.ok b, w)) :
    b = s.given lba := by
  have hne : (readCached lba s.io).1 ≠ .halt := by
    rw [hr]
    simp
  obtain ⟨-, hval⟩ := readCached_moves (L := []) hne
  rcases hval b (by rw [hr]) with ⟨e, he, rfl, rfl⟩ | ⟨hun, -, rfl⟩
  · exact hs.refines.cached_eq e he hlt
  · exact hs.refines.uncached_eq lba hlt hun

/-- After a flush that answers success the device holds what the blocks were last given. -/
theorem Sound.flush_eq (hs : s.Sound) (hr : flush s.io = (.ok (), w)) {lba : ℕ}
    (hlt : lba < w.device.blockCount) : w.device.blocks lba = s.given lba := by
  obtain ⟨-, hmv, hclean⟩ := flush_run hs.refines.unique
  rw [hr] at hmv hclean
  have href := hmv.refines hs.succeeds hs.refines
  by_cases hun : w.Uncached lba
  · exact href.uncached_eq lba hlt hun
  simp only [Uncached, not_forall, not_not] at hun
  obtain ⟨e, he, rfl⟩ := hun
  have hed := hclean rfl e he
  exact (href.clean_eq e he hed (ne_emptyLba_of_lt hlt)).2.symm.trans (href.cached_eq e he hlt)

/-- **The block cache refines its device.** In every state a fresh cache comes to on a
device whose requests succeed: a successful read of a block of the device answers the
content the block was last given, a clean entry equals the device's block, no LBA occupies
two slots, and a flush that answers success leaves on the device what every block was last
given. -/
theorem blockCache_refines_device {d : Device} (hd : d.Succeeds) {depth : ℕ} {s : CacheUse}
    (h : Reachable d depth s) :
    (∀ lba b w, lba < s.io.device.blockCount → CacheM.readCached lba s.io = (.ok b, w) →
      b = s.given lba) ∧ (∀ e ∈ s.io.entries, e.lba ≠ emptyLba → e.dirty = false →
      e.lba < s.io.device.blockCount ∧ e.data = s.io.device.blocks e.lba) ∧
    (∀ (i j : ℕ) (e f : CacheEntry), s.io.entries[i]? = some e → s.io.entries[j]? = some f →
      e.lba = f.lba → e.lba ≠ emptyLba → i = j) ∧ ∀ w, CacheM.flush s.io = (.ok (), w) →
      ∀ lba < w.device.blockCount, w.device.blocks lba = s.given lba := by
  have hs := h.sound hd
  exact ⟨fun lba b w hlt hr => hs.readCached_eq hlt hr,
    fun e he hne hed => hs.refines.clean_eq e he hed hne, hs.refines.unique,
    fun w hr lba hlt => hs.flush_eq hr hlt⟩

/-! ### A populated block -/

/-- A device of one block of zeros, whose requests succeed in place. -/
def oneBlockDevice : Device :=
  { blockCount := 1, readOnly := false, queueDepth := 1, blocks := fun _ => zeroBlock
    answers := fun _ => Answer.success, now := 0, inFlight := [], log := []
    blockCount_le := by decide }

theorem oneBlockDevice_succeeds : oneBlockDevice.Succeeds :=
  ⟨rfl, fun _ => ⟨rfl, rfl, Or.inl rfl, Or.inr rfl⟩, fun _ => ⟨0, Nat.zero_le _, rfl⟩⟩

/-- The block of ones. -/
def onesBlock : Block := fun _ => 1

/-- The block is written back, then populated with what the device still holds. -/
def populatedUse : CacheUse :=
  let s := fresh oneBlockDevice 0
  let w := (writeBack 0 onesBlock s.io).2
  ⟨(populateClean 0 (w.device.blocks 0) w).2, update s.written 0 onesBlock,
    update (update s.given 0 onesBlock) 0 (w.device.blocks 0)⟩

set_option maxRecDepth 4000 in
theorem populatedUse_reachable : Reachable oneBlockDevice 0 populatedUse := by
  refine .tail (.tail .refl (.writeBack _ 0 onesBlock ?_)) (.populateClean _ 0 ?_ ?_)
  all_goals decide +kernel

theorem populatedUse_zero : (match (readCached 0 populatedUse.io).1 with
    | .ok b => b 0 == 0
    | _ => false) = true ∧ 0 < populatedUse.io.device.blockCount ∧
      populatedUse.written 0 0 = 1 := by
  decide +kernel

/-- **A read need not answer the latest write**: the content of a dirty block is superseded
by a `populate_clean`. -/
theorem readCached_not_latest_write :
    ¬∀ (d : Device) (depth : ℕ) (s : CacheUse), d.Succeeds → Reachable d depth s →
      ∀ lba b w, lba < s.io.device.blockCount → CacheM.readCached lba s.io = (.ok b, w) →
        b = s.written lba := by
  intro hall
  obtain ⟨hzero, hlt, hone⟩ := populatedUse_zero
  have hlat :=
    hall oneBlockDevice 0 populatedUse oneBlockDevice_succeeds populatedUse_reachable 0
  generalize populatedUse.written 0 = b₀ at hone hlat
  generalize readCached 0 populatedUse.io = r at hzero hlat
  obtain ⟨b | e | _, w⟩ := r
  · rw [hlat b w hlt rfl] at hzero
    simp [hone] at hzero
  · cases hzero
  · cases hzero

/-- The theorem above at a state that was written, and populated with the device's content. -/
theorem blockCache_refines_device_populated :
    oneBlockDevice.Succeeds ∧ Reachable oneBlockDevice 0 populatedUse ∧
    (∀ lba b w, lba < populatedUse.io.device.blockCount →
      CacheM.readCached lba populatedUse.io = (.ok b, w) → b = populatedUse.given lba) :=
  ⟨oneBlockDevice_succeeds, populatedUse_reachable,
    (blockCache_refines_device oneBlockDevice_succeeds populatedUse_reachable).1⟩

end CacheUse

end Protofire
