import Protofire.BlockCache.Flush

/-!
# No acknowledged write is lost

A `write_back` that answers success is a promise: until the block's write to the device
has succeeded, or the block is overwritten or invalidated, the cache is the only place its
content is in, and must keep it. This file keeps the ledger of these promises
(`CacheLedger`) beside a cache whose device may fail any request, and asks of every state
that each block still owed is in the cache, dirty, with the content that is owed.

The four ways a write can fail treat the promise differently. A refused submission, a
write that completes with an error and one that never completes leave the dirty flag
alone. An *eviction* empties the slot first and then writes, and does not look at the
answer: when that write fails, the content is gone. `CacheLedger.writeBack_durable` shows
that this is the only leak – where evictions succeed, no failure of any other request loses
a block.
-/

namespace Protofire

open CacheEntry CacheIo CacheM Device Eff Function List Moves

namespace CacheIo

open BlockCache (getElem?_put_self getElem?_put_of_ne)

variable {L : List WriteRecord} {w w' : CacheIo} {owed : ℕ → Option Block}

/-- A block is in the cache, dirty, with this content. -/
def DirtyCopy (w : CacheIo) (lba : ℕ) (data : Block) : Prop :=
  ∃ e ∈ w.entries, e.lba = lba ∧ e.dirty = true ∧ e.data = data

/-- A record has the successful write of a block with this content. -/
def Settled (records : List WriteRecord) (lba : ℕ) (data : Block) : Prop :=
  ∃ r ∈ records, r.succeeded = true ∧ r.lba = lba ∧ r.data = data

/-- A record has an eviction whose write failed. -/
def EvictionFailed (records : List WriteRecord) : Prop :=
  ∃ r ∈ records, r.origin = .eviction ∧ r.succeeded = false

variable {records : List WriteRecord} {lba : ℕ} {data : Block}

theorem Settled.append {more : List WriteRecord} (h : Settled records lba data) :
    Settled (records ++ more) lba data := by
  obtain ⟨r, hr, h⟩ := h
  exact ⟨r, mem_append_left _ hr, h⟩

theorem EvictionFailed.append {more : List WriteRecord} (h : EvictionFailed records) :
    EvictionFailed (records ++ more) := by
  obtain ⟨r, hr, h⟩ := h
  exact ⟨r, mem_append_left _ hr, h⟩

/-- **What a call keeps of the blocks it owes the device**: each is still in the cache, or
the device has completed its write since the call began – unless a failed eviction is on
the record. -/
structure Holds (L : List WriteRecord) (owed : ℕ → Option Block) (w : CacheIo) : Prop where
  unique : w.Unique
  held : ∃ new, w.device.log = L ++ new ∧ (EvictionFailed new ∨
    ∀ lba data, lba ≠ emptyLba → owed lba = some data →
      Settled new lba data ∨ w.DirtyCopy lba data)

/-- The cached copies survive where the record only grows. -/
theorem Holds.grow (h : Holds L owed w) (hu : w'.Unique)
    (hlog : w'.device.log = w.device.log ++ records)
    (hcp : ∀ lba data, lba ≠ emptyLba → owed lba = some data → w.DirtyCopy lba data →
      EvictionFailed records ∨ Settled records lba data ∨ w'.DirtyCopy lba data) :
    Holds L owed w' := by
  obtain ⟨hu₀, new, hnew, hhe⟩ := h
  refine ⟨hu, new ++ records, by rw [hlog, hnew, append_assoc], ?_⟩
  rcases hhe with hf | hhe
  · exact Or.inl hf.append
  by_cases hfail : EvictionFailed records
  · obtain ⟨r, hr, h⟩ := hfail
    exact Or.inl ⟨r, mem_append_right _ hr, h⟩
  refine Or.inr fun lba data hne ho => ?_
  rcases hhe lba data hne ho with hs | hd
  · exact Or.inl hs.append
  rcases hcp lba data hne ho hd with hc | ⟨r, hr, hs⟩ | hd'
  · exact absurd hc hfail
  · exact Or.inl ⟨r, mem_append_right _ hr, hs⟩
  · exact Or.inr hd'

variable {i : ℕ} {old : CacheEntry}

/-- A cached copy survives in a slot other than the one that is reused. -/
theorem DirtyCopy.put (hd : w.DirtyCopy lba data) (hi : w.entries[i]? = some old)
    (new : CacheEntry) :
    (w.put i new).DirtyCopy lba data ∨ old.lba = lba ∧ old.dirty = true ∧ old.data = data := by
  obtain ⟨e, he, hlba, hdirty, hdt⟩ := hd
  obtain ⟨j, hj⟩ := mem_iff_getElem?.mp he
  by_cases hij : i = j
  · subst hij
    rw [hi] at hj
    cases hj
    exact Or.inr ⟨hlba, hdirty, hdt⟩
  · exact Or.inl ⟨e, mem_of_getElem? ((getElem?_put_of_ne hij).trans hj), hlba, hdirty, hdt⟩

theorem dirtyCopy_put_self {new : CacheEntry} (hi : w.entries[i]? = some old)
    (hdirty : new.dirty = true) : (w.put i new).DirtyCopy new.lba new.data :=
  ⟨new, mem_of_getElem? (getElem?_put_self hi), rfl, hdirty, rfl⟩

/-- **Every move keeps what is owed.** -/
theorem Move.holds (h : Move L w w') (hh : Holds L owed w) : Holds L owed w' := by
  have hu := h.unique hh.unique
  cases h with
  | clock | read => exact ⟨hu, hh.held⟩
  | stamp i e generation hi =>
    refine hh.grow hu (append_nil _).symm fun lba data _ _ hd => Or.inr (Or.inr ?_)
    rcases hd.put hi _ with hd | ⟨rfl, hdirty, rfl⟩
    · exact hd
    · exact dirtyCopy_put_self hi hdirty
  | evict i victim o d hi hfu hw ho =>
    obtain ⟨-, -, hlog⟩ := writeBlocks_run hw
    refine hh.grow hu hlog fun lba data hne _ hd => ?_
    rcases hd.put hi empty with hd | ⟨rfl, -, rfl⟩
    · exact Or.inr (Or.inr hd)
    cases o with
    | ok u =>
      exact Or.inr (Or.inl ⟨⟨.eviction, victim.lba, victim.data, true⟩,
        by simp [recordsOf], rfl, rfl, rfl⟩)
    | err e =>
      exact Or.inl ⟨⟨.eviction, victim.lba, victim.data, false⟩, by simp [recordsOf], rfl, rfl⟩
    | halt => exact absurd rfl ho
  | load i old new hi hold hlba hclean hdt =>
    refine hh.grow hu (append_nil _).symm fun lba data hne _ hd => Or.inr (Or.inr ?_)
    rcases hd.put hi _ with hd | ⟨rfl, hdirty, -⟩
    · exact hd
    rcases hold.2 with hc | hc
    · exact absurd hc hne
    rw [hdirty] at hc
    cases hc
  | hand e lands records d he hdirty hlba hrec hd =>
    exact hh.grow hu hd.log_eq fun lba data _ _ hd => Or.inr (Or.inr hd)
  | retire i e new hi hdirty hlba hbks hlog hrec =>
    obtain ⟨-, new', hnew', hhe⟩ := hh
    obtain rfl : new = new' := append_cancel_left (hlog.symm.trans hnew')
    refine ⟨hu, new, hlog, hhe.imp_right fun hhe lba data hne ho => ?_⟩
    rcases hhe lba data hne ho with hs | hd
    · exact Or.inl hs
    rcases hd.put hi _ with hd | ⟨rfl, -, rfl⟩
    · exact Or.inr hd
    · exact Or.inl ⟨_, hrec, rfl, rfl, rfl⟩

theorem Moves.holds (h : Moves L w w') (hh : Holds L owed w) : Holds L owed w' :=
  h.preserves (fun _ _ hm => hm.holds) hh

/-- Less is owed. -/
theorem Holds.mono {owed' : ℕ → Option Block} (h : Holds L owed w)
    (hle : ∀ lba data, owed' lba = some data → owed lba = some data) : Holds L owed' w := by
  obtain ⟨hu, new, hnew, hhe⟩ := h
  refine ⟨hu, new, hnew, hhe.imp_right fun hhe lba data hne ho => ?_⟩
  exact hhe lba data hne (hle _ _ ho)

theorem update_none_eq_some {b : ℕ} (h : update owed b none lba = some data) :
    lba ≠ b ∧ owed lba = some data := by
  by_cases hb : lba = b
  · rw [hb, update_self] at h
    cases h
  · rw [update_of_ne hb] at h
    exact ⟨hb, h⟩

/-- A slot is given to a block that is not owed. -/
theorem Holds.put (h : Holds L owed w) {new : CacheEntry} (hi : w.entries[i]? = some old)
    (hu : (w.put i new).Unique) (hold : w.Yields old new.lba) :
    Holds L (update owed new.lba none) (w.put i new) := by
  have h' : Holds L (update owed new.lba none) w :=
    h.mono fun _ _ ho => (update_none_eq_some ho).2
  refine h'.grow hu (append_nil _).symm fun lba data hne ho hd => Or.inr (Or.inr ?_)
  obtain ⟨hlba, -⟩ := update_none_eq_some ho
  rcases hd.put hi new with hd | ⟨rfl, hdirty, -⟩
  · exact hd
  rcases hold with hold | ⟨-, hc | hc⟩
  · exact absurd hold hlba
  · exact absurd hc hne
  · rw [hdirty] at hc
    cases hc

theorem Stores.holds {dirty : Bool} (h : Stores L w lba data dirty w') (hh : Holds L owed w) :
    Holds L (update owed lba none) w' := by
  obtain ⟨w₁, i, old, new, hm, hi, hold, rfl, rfl, rfl, -, hm', -⟩ := h
  have hh₁ := hm.holds hh
  refine holds hm' (hh₁.put hi (hh₁.unique.put hi fun j e hj he hne => ?_) hold)
  rcases hold with hold | ⟨hun, -⟩
  · exact hh₁.unique j i e old hj hi (he.trans hold.symm) hne
  · exact absurd he (hun e (mem_of_getElem? hj))

/-- A request that changes no slot. -/
theorem Holds.withDevice (h : Holds L owed w) {d : Device}
    (hlog : d.log = w.device.log ++ records) : Holds L owed (w.withDevice d) :=
  h.grow h.unique hlog fun _ _ _ _ hd => Or.inr (Or.inr hd)

theorem writeThrough_holds (hh : Holds L owed w) (hr : (writeThrough lba data w).1 ≠ .halt) :
    Holds L (update owed lba none) (writeThrough lba data w).2 ∧
      ((writeThrough lba data w).1 ≠ .ok () → Holds L owed (writeThrough lba data w).2) := by
  obtain ⟨o, d, hw, -, ho, hcs⟩ := writeThrough_run (L := L) hr
  obtain ⟨-, -, hlog⟩ := writeBlocks_run hw
  rcases hcs with ⟨-, heq⟩ | ⟨rfl, i, old, new, hi, hold, rfl, rfl, -, hmv⟩
  · rw [heq]
    exact ⟨(hh.withDevice hlog).mono fun _ _ ho => (update_none_eq_some ho).2,
      fun _ => hh.withDevice hlog⟩
  · refine ⟨holds hmv ?_, fun hc => absurd ho hc⟩
    have hd := hh.withDevice hlog
    exact hd.put hi (hd.unique.put_same hi hold.symm) (Or.inl hold)

theorem invalidate_holds (hh : Holds L owed w) (lba : ℕ) :
    Holds L (update owed lba none) (invalidate lba w).2 := by
  have h' : Holds L (update owed lba none) w :=
    hh.mono fun _ _ ho => (update_none_eq_some ho).2
  rw [invalidate]
  rcases updateFirst_run (fun e => e.lba == lba) (fun _ => empty) w with
    ⟨-, hrun⟩ | ⟨i, old, hi, hold, hrun⟩
  · rw [hrun]
    exact h'
  rw [hrun]
  have hu : (w.put i empty).Unique :=
    hh.unique.put hi fun _ _ _ he hne => absurd he hne
  refine h'.grow hu (append_nil _).symm fun b data hne ho hd => Or.inr (Or.inr ?_)
  rcases hd.put hi empty with hd | ⟨rfl, -, -⟩
  · exact hd
  · exact absurd (by simpa using hold) (update_none_eq_some ho).1

/-- The blocks a range of LBAs does not cover. -/
def outside (startLba count : ℕ) (owed : ℕ → Option Block) (b : ℕ) : Option Block :=
  if startLba ≤ b ∧ b < saturatingAdd startLba count then none else owed b

theorem outside_eq_some {startLba count b : ℕ} (h : outside startLba count owed b = some data) :
    ¬(startLba ≤ b ∧ b < saturatingAdd startLba count) ∧ owed b = some data := by
  unfold outside at h
  split at h
  · cases h
  · exact ⟨by assumption, h⟩

theorem invalidateRange_holds (hh : Holds L owed w) (startLba count : ℕ) :
    Holds L (outside startLba count owed) (invalidateRange startLba count w).2 := by
  have h' : Holds L (outside startLba count owed) w :=
    hh.mono fun _ _ ho => (outside_eq_some ho).2
  have hget : ∀ (j : ℕ) (e : CacheEntry),
      (invalidateRange startLba count w).2.entries[j]? = some e → e.lba ≠ emptyLba →
      w.entries[j]? = some e := by
    intro j e hj hne
    replace hj : (w.entries.map fun e =>
        if !e.isEmpty && startLba ≤ e.lba && e.lba < saturatingAdd startLba count
        then empty else e)[j]? = some e := hj
    rw [getElem?_map, Option.map_eq_some_iff] at hj
    obtain ⟨f, hf, hfe⟩ := hj
    split at hfe
    · rw [← hfe] at hne
      exact absurd rfl hne
    · rw [← hfe]
      exact hf
  refine h'.grow (fun i j e f hi hj hlba hne => ?_) (append_nil _).symm
    fun b data hne ho hd => Or.inr (Or.inr ?_)
  · exact hh.unique i j e f (hget i e hi hne) (hget j f hj (hlba ▸ hne)) hlba hne
  obtain ⟨e, he, rfl, hdirty, hdt⟩ := hd
  refine ⟨e, mem_map.mpr ⟨e, he, ?_⟩, rfl, hdirty, hdt⟩
  have hout := (outside_eq_some ho).1
  rw [if_neg]
  simpa [CacheEntry.isEmpty, hne] using hout

theorem flushIfUnderPressure_moves (hu : w.Unique) :
    Moves w.device.log w (flushIfUnderPressure w).2 := by
  rw [flushIfUnderPressure, bind_run_ok (get_run w)]
  obtain ⟨hret, hmv, -⟩ := flush_run hu
  split
  · obtain ⟨hstart, -, -⟩ := discard_run (Eff.attempt flush) w
    rw [hstart, Eff.attempt]
    rcases hf : flush w with ⟨_ | _ | _, w'⟩ <;> rw [hf] at hmv <;> exact hmv
  · exact refl w

end CacheIo

/-! ### Runs -/

/-- The calls of the cache. -/
inductive CacheCall where
  | readCached (lba : ℕ)
  | writeThrough (lba : ℕ) (data : Block)
  | writeBack (lba : ℕ) (data : Block)
  | flush
  | flushAged (ageTicks : ℕ)
  | flushRange (startLba count : ℕ)
  | flushIfUnderPressure
  | prefetch (startLba count : ℕ)
  | populateClean (lba : ℕ) (data : Block)
  | invalidate (lba : ℕ)
  | invalidateRange (startLba count : ℕ)
  | advanceCacheTicks (n : ℕ)

namespace CacheCall

/-- Make a call, for its effect. -/
def run : CacheCall → CacheM Unit
  | readCached lba => CacheM.readCached lba >>= fun _ => pure ()
  | writeThrough lba data => CacheM.writeThrough lba data
  | writeBack lba data => CacheM.writeBack lba data
  | flush => CacheM.flush
  | flushAged ageTicks => CacheM.flushAged ageTicks >>= fun _ => pure ()
  | flushRange startLba count => CacheM.flushRange startLba count
  | flushIfUnderPressure => CacheM.flushIfUnderPressure
  | prefetch startLba count => CacheM.prefetch startLba count
  | populateClean lba data => CacheM.populateClean lba data
  | invalidate lba => CacheM.invalidate lba
  | invalidateRange startLba count => CacheM.invalidateRange startLba count
  | advanceCacheTicks n => CacheM.advanceCacheTicks n

/-- What is owed to the device after a call that ended so: a `write_back` that answers
success is owed from then on, and a block that is overwritten or invalidated is owed no
longer. -/
def owes : CacheCall → Outcome Error Unit → (ℕ → Option Block) → ℕ → Option Block
  | writeBack lba data, .ok _, owed => update owed lba (some data)
  | writeThrough lba _, .ok _, owed => update owed lba none
  | populateClean lba _, _, owed => update owed lba none
  | invalidate lba, _, owed => update owed lba none
  | invalidateRange startLba count, _, owed => outside startLba count owed
  | _, _, owed => owed

end CacheCall

/-- A cache in use, with the writes it has acknowledged and still owes to the device. -/
structure CacheLedger where
  io : CacheIo
  owed : ℕ → Option Block

namespace CacheLedger

/-- A fresh cache on a device; the device's record begins with it. -/
def fresh (d : Device) (depth : ℕ) : CacheLedger :=
  { io := CacheIo.fresh { d with log := [] } depth, owed := fun _ => none }

/-- What is left of the debts when some writes were recorded: a debt is paid by a
successful write of its block with its content. -/
def discharge (records : List WriteRecord) (owed : ℕ → Option Block) (lba : ℕ) : Option Block :=
  (owed lba).filter fun data =>
    !records.any fun r => r.succeeded && r.lba == lba && decide (r.data = data)

/-- **One call** that comes back. -/
inductive Step : CacheLedger → CacheLedger → Prop
  | call (s : CacheLedger) (c : CacheCall) (hr : (c.run s.io).1 ≠ .halt) :
      Step s ⟨(c.run s.io).2, c.owes (c.run s.io).1
        (discharge ((c.run s.io).2.device.log.drop s.io.device.log.length) s.owed)⟩

/-- The states a fresh cache on a device comes to. -/
def Reachable (d : Device) (depth : ℕ) (s : CacheLedger) : Prop :=
  Relation.ReflTransGen Step (fresh d depth) s

/-- Every block that is owed is in the cache, dirty, with the content that is owed. -/
def Durable (s : CacheLedger) : Prop :=
  ∀ lba data, lba ≠ emptyLba → s.owed lba = some data → s.io.DirtyCopy lba data

/-- No eviction so far has failed. -/
def EvictionsSucceed (s : CacheLedger) : Prop :=
  ∀ r ∈ s.io.device.log, r.origin = .eviction → r.succeeded = true

variable {owed : ℕ → Option Block}

theorem discharge_eq_some {records : List WriteRecord} {lba : ℕ} {data : Block}
    (h : discharge records owed lba = some data) :
    owed lba = some data ∧ ¬CacheIo.Settled records lba data := by
  rw [discharge, Option.filter_eq_some_iff] at h
  refine ⟨h.1, ?_⟩
  rintro ⟨r, hr, hok, hlba, hdt⟩
  have := h.2
  simp only [Bool.not_eq_true', List.any_eq_false] at this
  exact this r hr (by simp [hok, hlba, hdt])

/-- A call that holds on to what is owed, and releases some of it. -/
theorem durable_of_holds {w w' : CacheIo} {owed' : ℕ → Option Block}
    (release : (ℕ → Option Block) → ℕ → Option Block) (hh : Holds w.device.log owed' w')
    (hrel : ∀ records lba data, release (discharge records owed) lba = some data →
      owed' lba = some data ∧ ¬Settled records lba data ∨ w'.DirtyCopy lba data) :
    ∃ new, w'.device.log = w.device.log ++ new ∧ (EvictionFailed new ∨
      ∀ lba data, lba ≠ emptyLba → release (discharge new owed) lba = some data →
        w'.DirtyCopy lba data) := by
  obtain ⟨-, new, hnew, hhe⟩ := hh
  refine ⟨new, hnew, hhe.imp_right fun hhe lba data hne ho => ?_⟩
  rcases hrel new lba data ho with ⟨ho', hs⟩ | hd
  · exact (hhe lba data hne ho').resolve_left hs
  · exact hd

theorem discharge_update_none {records : List WriteRecord} {b lba : ℕ} {data : Block}
    (h : update (discharge records owed) b none lba = some data) :
    update owed b none lba = some data ∧ ¬Settled records lba data := by
  obtain ⟨hne, h⟩ := update_none_eq_some h
  rw [update_of_ne hne]
  exact discharge_eq_some h

/-- **What one call leaves of the debts**: no failed eviction, or every block still owed is
held. -/
theorem run_durable {w : CacheIo} (c : CacheCall) (hr : (c.run w).1 ≠ .halt)
    (hh : Holds w.device.log owed w) :
    (c.run w).2.Unique ∧ ∃ new, (c.run w).2.device.log = w.device.log ++ new ∧
      (EvictionFailed new ∨ ∀ lba data, lba ≠ emptyLba →
        c.owes (c.run w).1 (discharge new owed) lba = some data →
        (c.run w).2.DirtyCopy lba data) := by
  have hmv : ∀ {w'}, Moves w.device.log w w' → w'.Unique ∧
      ∃ new, w'.device.log = w.device.log ++ new ∧ (EvictionFailed new ∨
        ∀ lba data, lba ≠ emptyLba → discharge new owed lba = some data →
          w'.DirtyCopy lba data) := fun hm =>
    ⟨(hm.holds hh).unique, durable_of_holds id (hm.holds hh)
      fun _ _ _ ho => Or.inl (discharge_eq_some ho)⟩
  cases c with
  | readCached lba =>
    obtain ⟨hstart, -, hhalt⟩ := discard_run (readCached lba) w
    have hm := (readCached_moves (L := w.device.log) fun hc => hr (hhalt.mpr hc)).1
    rw [CacheCall.run, hstart]
    exact hmv hm
  | writeThrough lba data =>
    obtain ⟨hov, hkp⟩ := writeThrough_holds hh hr
    refine ⟨hov.unique, ?_⟩
    cases ho : (writeThrough lba data w).1 with
    | ok u =>
      simp only [CacheCall.run, ho]
      exact durable_of_holds (fun o => update o lba none) hov
        fun _ _ _ ho => Or.inl (discharge_update_none ho)
    | err e =>
      simp only [CacheCall.run, ho]
      exact durable_of_holds id (hkp (by simp [ho])) fun _ _ _ ho => Or.inl (discharge_eq_some ho)
    | halt => exact absurd ho hr
  | writeBack lba data =>
    obtain ⟨ho, hst⟩ := writeBack_stores hr
    have hov := hst.holds hh
    obtain ⟨-, -, -, -, -, -, -, -, -, -, -, -, e, he, hlba, hdt, hdirty⟩ := hst
    refine ⟨hov.unique, ?_⟩
    simp only [CacheCall.run, ho]
    refine durable_of_holds (fun o => update o lba (some data)) hov fun records b d hb => ?_
    by_cases hbl : b = lba
    · rw [hbl, update_self] at hb
      cases hb
      exact Or.inr ⟨e, he, hlba.trans hbl.symm, hdirty, hdt⟩
    · rw [update_of_ne hbl] at hb ⊢
      exact Or.inl (discharge_eq_some hb)
  | flush => exact hmv (flush_run hh.unique).2.1
  | flushAged ageTicks =>
    obtain ⟨hstart, -, -⟩ := discard_run (flushAged ageTicks) w
    rw [CacheCall.run, hstart]
    exact hmv (flushAged_run hh.unique ageTicks).2
  | flushRange startLba count => exact hmv (flushRange_run hh.unique startLba count).2
  | flushIfUnderPressure => exact hmv (flushIfUnderPressure_moves hh.unique)
  | prefetch startLba count => exact hmv (prefetch_moves hr).2
  | populateClean lba data =>
    have hov := (populateClean_stores hr).holds hh
    exact ⟨hov.unique, durable_of_holds (fun o => update o lba none) hov
      fun _ _ _ ho => Or.inl (discharge_update_none ho)⟩
  | invalidate lba =>
    have hov := invalidate_holds hh lba
    exact ⟨hov.unique, durable_of_holds (fun o => update o lba none) hov
      fun _ _ _ ho => Or.inl (discharge_update_none ho)⟩
  | invalidateRange startLba count =>
    have hov := invalidateRange_holds hh startLba count
    refine ⟨hov.unique, durable_of_holds (outside startLba count) hov fun _ _ _ ho => Or.inl ?_⟩
    obtain ⟨hout, ho⟩ := outside_eq_some ho
    rw [outside, if_neg hout]
    exact discharge_eq_some ho
  | advanceCacheTicks n => exact hmv (Move.clock w _ _ _).moves

/-- The invariant of a run. -/
structure Sound (s : CacheLedger) : Prop where
  unique : s.io.Unique
  durable : EvictionFailed s.io.device.log ∨ s.Durable

theorem fresh_sound (d : Device) (depth : ℕ) : (fresh d depth).Sound := by
  refine ⟨fun i j e f hi hj _ hne => ?_, Or.inr fun lba data _ ho => by cases ho⟩
  have he : e = empty := eq_of_mem_replicate (mem_of_getElem? hi)
  rw [he] at hne
  exact absurd rfl hne

theorem Step.sound {s s' : CacheLedger} (h : Step s s') (hs : s.Sound) : s'.Sound := by
  obtain ⟨c, hr⟩ := h
  rcases hs.durable with hf | hd
  · have hno : Holds s.io.device.log (fun _ => none) s.io :=
      ⟨hs.unique, [], by simp, Or.inr fun _ _ _ ho => by cases ho⟩
    obtain ⟨hu, new, hnew, -⟩ := run_durable c hr hno
    exact ⟨hu, Or.inl (hnew ▸ hf.append)⟩
  obtain ⟨hu, new, hnew, hdur⟩ := run_durable c hr
    ⟨hs.unique, [], by simp, Or.inr fun lba data hne ho => Or.inr (hd lba data hne ho)⟩
  refine ⟨hu, ?_⟩
  rcases hdur with hf | hdur
  · obtain ⟨r, hmem, hrec⟩ := hf
    exact Or.inl ⟨r, hnew ▸ mem_append_right _ hmem, hrec⟩
  refine Or.inr fun lba data hne ho => hdur lba data hne ?_
  have hdr : (c.run s.io).2.device.log.drop s.io.device.log.length = new := by
    rw [hnew, drop_left]
  rw [← hdr]
  exact ho

theorem Reachable.sound {d : Device} {depth : ℕ} {s : CacheLedger} (h : Reachable d depth s) :
    s.Sound := by
  induction h with
  | refl => exact fresh_sound d depth
  | tail _ hsp ih => exact hsp.sound ih

/-- **No acknowledged write is lost while evictions succeed.** On any device, whatever its
other requests answer: in every state a fresh cache comes to, if every write the device was
handed to make room for another block has succeeded, then each block whose `write_back`
answered success, and that was since neither written to the device nor overwritten nor
invalidated, is in the cache with its dirty flag set and its latest data. -/
theorem writeBack_durable {d : Device} {depth : ℕ} {s : CacheLedger} (h : Reachable d depth s)
    (hev : s.EvictionsSucceed) : s.Durable := by
  refine h.sound.durable.resolve_left ?_
  rintro ⟨r, hr, horig, hfail⟩
  rw [hev r hr horig] at hfail
  cases hfail

/-! ### A failed eviction -/

/-- The block of ones. -/
def ones : Block := fun _ => 1

/-- A device of 513 blocks that fails every write. -/
def failingDevice : Device :=
  { blockCount := 513, readOnly := false, queueDepth := 1, blocks := fun _ => zeroBlock
    answers := fun _ => { Answer.success with write := .fails .deviceError fun _ => false }
    now := 0, inFlight := [], log := [], blockCount_le := by decide }

/-- The slots after the first `k` blocks were written back. -/
def filledEntries (k : ℕ) : List CacheEntry :=
  (range k).map (fun i => ⟨i, ones, i, true, 0⟩) ++
    replicate (cacheCapacity - k) CacheEntry.empty

/-- The cache after the first `k` blocks were written back. -/
def filled (k : ℕ) : CacheLedger :=
  { io :=
      { device := failingDevice
        cache := { entries := filledEntries k, generation := k, lastReadLba := u64Max
                   readAheadDepth := 0 }
        tick := 0 }
    owed := fun b => if b < k then some ones else none }

variable {k : ℕ}

theorem mem_filledEntries {e : CacheEntry} (h : e ∈ filledEntries k) :
    (∃ i < k, e = ⟨i, ones, i, true, 0⟩) ∨ e = empty := by
  rcases mem_append.mp h with h | h
  · obtain ⟨i, hi, rfl⟩ := mem_map.mp h
    exact Or.inl ⟨i, mem_range.mp hi, rfl⟩
  · exact Or.inr (eq_of_mem_replicate h)

theorem filledEntries_set (hk : k < cacheCapacity) :
    (filledEntries k).set k ⟨k, ones, k, true, 0⟩ = filledEntries (k + 1) := by
  obtain ⟨n, hn⟩ : ∃ n, cacheCapacity - k = n + 1 := ⟨cacheCapacity - k - 1, by omega⟩
  have hn' : cacheCapacity - (k + 1) = n := by omega
  rw [filledEntries, filledEntries, hn, hn']
  simp [range_succ, replicate_succ]

theorem uncached_filled (hk : k < emptyLba) : (filled k).io.Uncached k := by
  intro e he
  rcases mem_filledEntries he with ⟨i, hi, rfl⟩ | rfl
  · exact hi.ne
  · exact hk.ne'

theorem filledEntries_getElem?_lt {i : ℕ} (hi : i < k) :
    (filledEntries k)[i]? = some ⟨i, ones, i, true, 0⟩ := by
  rw [filledEntries, getElem?_append_left (by simpa using hi), getElem?_map, getElem?_range hi]
  rfl

section

variable (hk : k < cacheCapacity)
include hk

theorem filledEntries_getElem?_self : (filledEntries k)[k]? = some empty := by
  rw [filledEntries, getElem?_append_right (by simp), length_map, length_range,
    getElem?_replicate, if_pos (by omega)]

theorem slot_filled : (filled k).io.cache.slot isEmpty = some k := by
  obtain ⟨hlt, hemp⟩ := List.getElem?_eq_some_iff.mp (filledEntries_getElem?_self hk)
  refine findIdx?_eq_some_iff_getElem.mpr ⟨hlt, ?_, fun j hj => ?_⟩
  · show isEmpty (filledEntries k)[k] = true
    rw [hemp]
    rfl
  obtain ⟨hlt', hget⟩ := List.getElem?_eq_some_iff.mp (filledEntries_getElem?_lt hj)
  show ¬isEmpty (filledEntries k)[j] = true
  rw [hget]
  simp only [CacheEntry.isEmpty, beq_iff_eq]
  have : cacheCapacity < emptyLba := by decide
  omega

theorem writeBack_filled : writeBack k ones (filled k).io = (.ok (), (filled (k + 1)).io) := by
  have hcap : cacheCapacity < emptyLba := by decide
  have hun := uncached_filled (k := k) (by omega)
  have hc : (filled k).io.cache.isCached k = false := BlockCache.isCached_eq_false.mpr hun
  have hs : ((filled k).io.cache.slot fun e => e.lba == k) = none :=
    findIdx?_eq_none_iff.mpr fun e he => by simpa using hun e he
  have hgen : (k + 1) % 2 ^ 64 = k + 1 := Nat.mod_eq_of_lt (by unfold cacheCapacity at hk; omega)
  have hins : insert k ones true (filled k).io =
      place k ⟨k, ones, k, true, 0⟩ (filled k).io.counted := by
    simp only [CacheM.insert, Eff.bind_run, CacheM.nextGeneration, Eff.get_run]
    have hs' : ((filled k).io.counted.cache.slot fun e => e.lba == k) = none := hs
    have he' : (filled k).io.counted.cache.slot isEmpty = some k := slot_filled hk
    simp only [counted] at hs' he'
    simp only [hs', he']
    rfl
  rw [writeBack, bind_run_ok (get_run _)]
  simp only [hc, Bool.false_eq_true, if_false]
  rw [hins]
  simp only [place, modifyCache, modify_run, counted, BlockCache.put,
    filled, filledEntries_set hk, hgen]

theorem filled_step : Step (filled k) (filled (k + 1)) := by
  have hrun := writeBack_filled hk
  have hsp := Step.call (filled k) (.writeBack k ones) (by rw [CacheCall.run, hrun]; simp)
  simp only [CacheCall.run, hrun, CacheCall.owes] at hsp
  convert hsp using 1
  rw [filled]
  congr 1
  funext b
  by_cases hb : b = k
  · subst hb
    simp
  rw [update_of_ne hb]
  have hlt : b < k + 1 ↔ b < k := by omega
  by_cases hbk : b < k
  · simp [discharge, hlt, hbk, filled]
    rfl
  · simp [discharge, hlt, hbk, filled]

end

theorem filled_reachable (hk : k ≤ cacheCapacity) : Reachable failingDevice 0 (filled k) := by
  induction k with
  | zero => exact .refl
  | succ k ih => exact .tail (ih (by omega)) (filled_step (by omega))

/-- The call that finds every slot dirty, and loses one. -/
def overflowed : CacheLedger :=
  let c := CacheCall.writeBack 512 ones
  let r := c.run (filled 512).io
  ⟨r.2, c.owes r.1 (discharge (r.2.device.log.drop (filled 512).io.device.log.length)
    (filled 512).owed)⟩

theorem overflowed_reachable : Reachable failingDevice 0 overflowed :=
  .tail (filled_reachable le_rfl) (.call (filled 512) (.writeBack 512 ones) (by decide +kernel))

/-- **A failed eviction loses an acknowledged write**: 512 blocks are written back, and the
write-back of one more empties the slot of the first before the device refuses its
content. -/
theorem eviction_loses_write :
    ¬∀ (d : Device) (depth : ℕ) (s : CacheLedger), Reachable d depth s → s.Durable := by
  intro hall
  have hdur := hall failingDevice 0 overflowed overflowed_reachable
  have howed : (overflowed.owed 0).isSome = true := by decide +kernel
  have hgone : (overflowed.io.entries.all fun e => e.lba != 0) = true := by decide +kernel
  obtain ⟨data, hdt⟩ := Option.isSome_iff_exists.mp howed
  obtain ⟨e, he, hlba, -, -⟩ := hdur 0 data (by decide) hdt
  have := all_eq_true.mp hgone e he
  simp [hlba] at this

/-- The theorem above where the device fails every write and no eviction was needed. -/
theorem writeBack_durable_full : Reachable failingDevice 0 (filled 512) ∧
    (filled 512).EvictionsSucceed ∧ (filled 512).Durable :=
  ⟨filled_reachable le_rfl, fun _ hr => absurd hr not_mem_nil,
    writeBack_durable (filled_reachable le_rfl) fun _ hr => absurd hr not_mem_nil⟩

end CacheLedger

end Protofire
