import Protofire.BlockCache.Moves

/-!
# The flush of the block cache

`flush_selected` hands the dirty blocks it selects to the device's queue, waits for the
oldest, and clears a dirty flag only for a write the device has completed and only while
the slot carries the generation that was handed over. This file shows that one flush,
with nothing in between, is made of the moves of the cache: that a flag is cleared only
when the very content of the slot is on the device. It also shows that a flush comes
back, on any device, and that a flush that answers success leaves no selected block
dirty.

The invariant (`CacheIo.Flushing`) ties the two sides together: for every write the flush
waits for, the slot it was taken from still holds what was handed over, and the device has
that content – already on the medium, or in its queue under the ticket's number. A block
is handed over at most once in a flush, so no answer about one write disturbs another.
-/

namespace Protofire

open CacheEntry Device Eff List

namespace Device

/-- What the device answers to a submission, and what it then is. -/
theorem submitWrite_run (lba : ℕ) (data : Block) (d : Device) :
    (∃ e d' lands records, submitWrite lba data d = (.err e, d') ∧
        (lands = true → lba < d.blockCount) ∧ (∀ r ∈ records, r.origin = .queued) ∧
        d.Wrote lba data lands records d' ∧ d'.inFlight = d.inFlight ∧ d.now ≤ d'.now) ∨
      ∃ ticket d' lands records, submitWrite lba data d = (.ok ticket, d') ∧ lba < d.blockCount ∧
        (∀ r ∈ records, r.origin = .queued) ∧ d.Wrote lba data lands records d' ∧ d.now < d'.now ∧
        (ticket = .done ∧ lands = true ∧ d'.inFlight = d.inFlight ∧
            { origin := .queued, lba, data, succeeded := true } ∈ records ∨
          ticket = .queued d.now ∧ d'.inFlight = { id := d.now, lba, data } :: d.inFlight) := by
  have hrec : ∀ r ∈ records .queued lba [data] false, r.origin = .queued := by simp
  have href : d.Wrote lba data false (records .queued lba [data] false)
      { d with log := d.log ++ records .queued lba [data] false } :=
    ⟨⟨rfl, rfl, rfl, rfl⟩, by simp, rfl⟩
  unfold submitWrite
  split
  · exact Or.inl ⟨_, _, false, _, rfl, by simp, hrec, href, rfl, le_rfl⟩
  split
  · exact Or.inl ⟨_, _, false, _, rfl, by simp, hrec, href, rfl, le_rfl⟩
  split
  · exact Or.inr ⟨_, _, true, _, rfl, by omega, by simp, ⟨⟨rfl, rfl, rfl, rfl⟩, rfl, rfl⟩,
      Nat.lt_succ_self _, Or.inl ⟨rfl, rfl, rfl, by simp⟩⟩
  · exact Or.inr ⟨_, _, _, [], rfl, by omega, by simp, ⟨⟨rfl, rfl, rfl, rfl⟩, rfl, by simp⟩,
      Nat.lt_succ_self _, Or.inr ⟨rfl, rfl⟩⟩
  · exact Or.inl ⟨_, _, _, _, rfl, fun _ => by omega, hrec, ⟨⟨rfl, rfl, rfl, rfl⟩, rfl, rfl⟩, rfl,
      Nat.le_succ _⟩

/-- What a poll of a queued request the device holds answers. -/
theorem poll_run {id : ℕ} {d : Device} {f : InFlightWrite}
    (hf : (d.inFlight.find? fun f => f.id == id) = some f) :
    poll (.queued id) d = (.ok .pending, { d with now := d.now + 1 }) ∨
      ∃ r d' lands records, poll (.queued id) d = (.ok (.done r), d') ∧
        (∀ r ∈ records, r.origin = .queued) ∧ d.Wrote f.lba f.data lands records d' ∧
        d.now ≤ d'.now ∧ d'.inFlight = d.inFlight.filter (fun f => f.id != id) ∧
        (r = .ok () → lands = true ∧
          { origin := .queued, lba := f.lba, data := f.data, succeeded := true } ∈ records) := by
  unfold poll
  simp only [hf]
  split
  · exact Or.inl rfl
  · exact Or.inr ⟨_, _, true, _, rfl, by simp, ⟨⟨rfl, rfl, rfl, rfl⟩, rfl, rfl⟩, Nat.le_succ _, rfl,
      fun _ => ⟨rfl, by simp⟩⟩
  · exact Or.inr ⟨_, _, _, _, rfl, by simp, ⟨⟨rfl, rfl, rfl, rfl⟩, rfl, rfl⟩, Nat.le_succ _, rfl,
      fun hc => by cases hc⟩

end Device

namespace CacheIo

open CacheM

open BlockCache (getElem?_put mem_put getElem?_put_self getElem?_put_of_ne)

variable {L : List WriteRecord}

/-- A record of this call has the successful write of a block. -/
def Recorded (L : List WriteRecord) (d : Device) (lba : ℕ) (data : Block) : Prop :=
  ∃ new, d.log = L ++ new ∧
    { origin := .queued, lba := lba, data := data, succeeded := true } ∈ new

/-- **A write on its way**: the slot it was taken from still holds what was handed over,
and the device has the content – on the medium and in its record, or in its queue. -/
def OnItsWay (L : List WriteRecord) (w : CacheIo) (p : PendingWrite) : Prop :=
  p.lba < w.device.blockCount ∧ ∃ (i : ℕ) (e : CacheEntry), w.entries[i]? = some e ∧ e.lba = p.lba ∧
    e.generation = p.generation ∧ e.dirty = true ∧
    (p.ticket = .done ∧ w.device.blocks e.lba = e.data ∧ Recorded L w.device e.lba e.data ∨
      ∃ id < w.device.now, p.ticket = .queued id ∧
        (w.device.inFlight.find? fun f => f.id == id) = some { id, lba := e.lba, data := e.data })

/-- **The invariant of a flush** between two of its lock sections. -/
structure Flushing (L : List WriteRecord) (w : CacheIo) (pending : List PendingWrite)
    (attempted : List ℕ) (failed : Bool) : Prop where
  unique : w.Unique
  grown : ∃ new, w.device.log = L ++ new
  /-- Every write the flush waits for is on its way. -/
  onItsWay : ∀ p ∈ pending, OnItsWay L w p
  /-- No block is on its way twice. -/
  distinct : pending.Pairwise fun p q => p.lba ≠ q.lba
  listed : ∀ p ∈ pending, p.lba ∈ attempted
  inRange : ∀ a ∈ attempted, a < w.device.blockCount
  /-- While nothing has failed, a block handed over is clean or on its way. -/
  settled : failed = false → ∀ e ∈ w.entries, e.dirty = true → e.lba ∈ attempted →
    ∃ p ∈ pending, p.lba = e.lba

variable {w : CacheIo} {p : PendingWrite}

/-- A write stays on its way when the cache and the device do not touch its block. -/
theorem OnItsWay.frame {w' : CacheIo} (h : OnItsWay L w p)
    (hes : ∀ (j : ℕ) (e : CacheEntry), w.entries[j]? = some e → e.lba = p.lba →
      w'.entries[j]? = some e) (hcnt : w'.device.blockCount = w.device.blockCount)
    (hbks : w'.device.blocks p.lba = w.device.blocks p.lba)
    (hlog : ∃ records, w'.device.log = w.device.log ++ records)
    (hnow : w.device.now ≤ w'.device.now)
    (hfli : ∀ (id : ℕ) (f : InFlightWrite), id < w.device.now → p.ticket = .queued id →
      (w.device.inFlight.find? fun f => f.id == id) = some f →
      (w'.device.inFlight.find? fun f => f.id == id) = some f) : OnItsWay L w' p := by
  obtain ⟨hlt, i, e, hi, hlba, hgen, hdirty, hdev⟩ := h
  refine ⟨hcnt ▸ hlt, i, e, hes i e hi hlba, hlba, hgen, hdirty, ?_⟩
  rcases hdev with ⟨ht, hb, new, hnew, hrec⟩ | ⟨id, hid, ht, hf⟩
  · obtain ⟨records, hlog⟩ := hlog
    refine Or.inl ⟨ht, ?_, new ++ records, ?_, mem_append_left _ hrec⟩
    · rw [hlba, hbks, ← hlba]
      exact hb
    · rw [hlog, hnew, append_assoc]
  · exact Or.inr ⟨id, hid.trans_le hnow, ht, hfli id _ hid ht hf⟩

variable {w : CacheIo} {pending : List PendingWrite} {attempted : List ℕ} {failed : Bool}

variable {i : ℕ} {e : CacheEntry}

/-- Stamping a block that was not handed over. -/
theorem Flushing.stamp (h : Flushing L w pending attempted failed) (hi : w.entries[i]? = some e)
    (hna : e.lba ∉ attempted) (generation : ℕ) :
    Flushing L (w.counted.put i { e with generation }) pending attempted failed where
  unique := h.unique.put_same hi rfl
  grown := h.grown
  onItsWay p hp := by
    refine (h.onItsWay p hp).frame (fun j f hj hf => ?_) rfl rfl ⟨[], by simp [counted]⟩ le_rfl
      fun _ _ _ _ hf => hf
    have hij : i ≠ j := by
      rintro rfl
      rw [hi] at hj
      cases hj
      exact hna (hf ▸ h.listed p hp)
    exact (getElem?_put_of_ne hij).trans hj
  distinct := h.distinct
  listed := h.listed
  inRange := h.inRange
  settled hfl f hf hd ha := by
    rcases mem_put hf with rfl | hf
    · exact absurd ha hna
    · exact h.settled hfl f hf hd ha

variable {d : Device} {lands : Bool} {records : List WriteRecord}

section Flushing

variable (h : Flushing L w pending attempted failed)
include h

theorem Flushing.grown_of_wrote {a : ℕ} {b : Block} (hd : w.device.Wrote a b lands records d) : ∃
    new, d.log = L ++ new := by
  obtain ⟨new, hnew⟩ := h.grown
  exact ⟨new ++ records, by rw [hd.log_eq, hnew, append_assoc]⟩

/-- A write the device reports done is in the record of this call. -/
theorem Flushing.recorded {a : ℕ} {b : Block} (hd : w.device.Wrote a b lands records d)
    (hr : { origin := .queued, lba := a, data := b, succeeded := true } ∈ records) :
    Recorded L d a b := by
  obtain ⟨new, hnew⟩ := h.grown
  exact ⟨new ++ records, by rw [hd.log_eq, hnew, append_assoc], mem_append_right _ hr⟩

/-- The device has refused a block: nothing handed over before is touched. -/
theorem Flushing.refused (hna : e.lba ∉ attempted)
    (hd : w.device.Wrote e.lba e.data lands records d) (hfli : d.inFlight = w.device.inFlight)
    (hnow : w.device.now ≤ d.now) : Flushing L (w.withDevice d) pending attempted true where
  unique := h.unique
  grown := h.grown_of_wrote hd
  onItsWay p hp := by
    have hne : p.lba ≠ e.lba := fun hc => hna (hc ▸ h.listed p hp)
    refine (h.onItsWay p hp).frame (fun j f hj _ => hj) hd.blockCount_eq ?_ ⟨records, hd.log_eq⟩
      hnow fun id f _ _ hf => ?_
    · rw [withDevice_device, hd.blocks_eq, store_one_of_ne _ _ _ hne]
    rw [withDevice_device, hfli]
    exact hf
  distinct := h.distinct
  listed := h.listed
  inRange a ha := by
    rw [withDevice_device, hd.blockCount_eq]
    exact h.inRange a ha
  settled hfl := by simp at hfl

/-- The device has taken a block. -/
theorem Flushing.accepted (hna : e.lba ∉ attempted)
    (hlt : e.lba < w.device.blockCount) (hd : w.device.Wrote e.lba e.data lands records d)
    (hnow : w.device.now ≤ d.now) (hfli : ∀ (id : ℕ) (f : InFlightWrite), id < w.device.now →
      (w.device.inFlight.find? fun f => f.id == id) = some f →
      (d.inFlight.find? fun f => f.id == id) = some f) {ticket : Ticket}
    (htic : OnItsWay L (w.withDevice d) ⟨ticket, e.lba, e.generation⟩) :
    Flushing L (w.withDevice d) (pending ++ [⟨ticket, e.lba, e.generation⟩]) (attempted ++ [e.lba])
      failed where
  unique := h.unique
  grown := h.grown_of_wrote hd
  onItsWay := by
    refine forall_mem_append.mpr ⟨fun p hp => ?_, forall_mem_singleton.mpr htic⟩
    have hne : p.lba ≠ e.lba := fun hc => hna (hc ▸ h.listed p hp)
    refine (h.onItsWay p hp).frame (fun j f hj _ => hj) hd.blockCount_eq ?_ ⟨records, hd.log_eq⟩
      hnow fun id f hid _ hf => hfli id f hid hf
    rw [withDevice_device, hd.blocks_eq, store_one_of_ne _ _ _ hne]
  distinct := by
    refine pairwise_append.mpr ⟨h.distinct, pairwise_singleton _ _, fun p hp q hq hc => ?_⟩
    rw [mem_singleton.mp hq] at hc
    replace hc : p.lba = e.lba := hc
    exact hna (hc ▸ h.listed p hp)
  listed := forall_mem_append.mpr ⟨fun p hp => mem_append_left _ (h.listed p hp), by simp⟩
  inRange := by
    rw [withDevice_device, hd.blockCount_eq]
    exact forall_mem_append.mpr ⟨h.inRange, forall_mem_singleton.mpr hlt⟩
  settled hfl f hf hdf ha := by
    rcases mem_append.mp ha with ha | ha
    · obtain ⟨p, hp, hpf⟩ := h.settled hfl f hf hdf ha
      exact ⟨p, mem_append_left _ hp, hpf⟩
    · exact ⟨⟨ticket, e.lba, e.generation⟩, mem_append_right _ (mem_singleton_self _),
        (mem_singleton.mp ha).symm⟩

end Flushing

/-- The write at the head of the queue is waited for no longer. -/
theorem Flushing.drop (h : Flushing L w (p :: pending) attempted failed) :
    Flushing L w pending attempted true where
  unique := h.unique
  grown := h.grown
  onItsWay q hq := h.onItsWay q (mem_cons_of_mem p hq)
  distinct := (pairwise_cons.mp h.distinct).2
  listed q hq := h.listed q (mem_cons_of_mem p hq)
  inRange := h.inRange
  settled hfl := by simp at hfl

/-- **Handing a block over**: the device refuses it and the flush has failed, or the block
is on its way. -/
theorem Flushing.handOver (h : Flushing L w pending attempted failed) (hi : w.entries[i]? = some e)
    (hdirty : e.dirty = true) (hna : e.lba ∉ attempted) :
    (∃ err d, onDevice (submitWrite e.lba e.data) w = (.err err, w.withDevice d) ∧
        Moves L w (w.withDevice d) ∧ Flushing L (w.withDevice d) pending attempted true) ∨
      ∃ ticket d, onDevice (submitWrite e.lba e.data) w = (.ok ticket, w.withDevice d) ∧
        Moves L w (w.withDevice d) ∧ Flushing L (w.withDevice d)
          (pending ++ [⟨ticket, e.lba, e.generation⟩]) (attempted ++ [e.lba]) failed := by
  have hmem : e ∈ w.entries := mem_of_getElem? hi
  rcases submitWrite_run e.lba e.data w.device with
    ⟨err, d, lands, records, hs, hlt, hrec, hd, hfli, hnow⟩ |
    ⟨ticket, d, lands, records, hs, hlt, hrec, hd, hnow, hans⟩
  · exact Or.inl ⟨err, d, onDevice_run hs,
      (Move.hand w e lands records d hmem hdirty hlt hrec hd).moves, h.refused hna hd hfli hnow⟩
  refine Or.inr ⟨ticket, d, onDevice_run hs,
    (Move.hand w e lands records d hmem hdirty (fun _ => hlt) hrec hd).moves,
    h.accepted hna hlt hd hnow.le (fun id f hid hf => ?_)
      ⟨hd.blockCount_eq ▸ hlt, i, e, hi, rfl, rfl, hdirty, ?_⟩⟩
  · rcases hans with ⟨-, -, hfli, -⟩ | ⟨-, hfli⟩
    · exact hfli ▸ hf
    -- the new request has a number of its own, so the older ones are still found
    have hne : (w.device.now == id) = false := by
      rw [beq_eq_false_iff_ne]
      omega
    simp only [hfli, find?_cons, hne, hf]
  · rcases hans with ⟨rfl, rfl, -, hr⟩ | ⟨rfl, hfli⟩
    · exact Or.inl ⟨rfl, by simp [hd.blocks_eq], h.recorded hd hr⟩
    · exact Or.inr ⟨w.device.now, hnow, rfl, by simp [hfli]⟩

/-- How many slots hold a block that was not handed over. -/
def unattempted (w : CacheIo) (attempted : List ℕ) : ℕ :=
  ((w.entries.map lba).filter fun a => !attempted.contains a).length

theorem lbas_put {old new : CacheEntry} (hi : w.entries[i]? = some old) (hlba : new.lba = old.lba) :
    (w.put i new).entries.map lba = w.entries.map lba := by
  obtain ⟨hlt, rfl⟩ := List.getElem?_eq_some_iff.mp hi
  rw [put_entries, map_set, hlba, ← getElem_map lba (h := by simpa using hlt), set_getElem_self]

theorem unattempted_put {old : CacheEntry} (hi : w.entries[i]? = some old) (new : CacheEntry)
    (hlba : new.lba = old.lba) (attempted : List ℕ) :
    (w.put i new).unattempted attempted = w.unattempted attempted := by
  rw [unattempted, lbas_put hi hlba, unattempted]

/-- Every block that is handed over leaves one slot less to look at. -/
theorem unattempted_append_lt {attempted : List ℕ} (he : e ∈ w.entries) (hna : e.lba ∉ attempted) :
    w.unattempted (attempted ++ [e.lba]) < w.unattempted attempted := by
  have hspl :
      ((w.entries.map lba).filter fun a => !(attempted ++ [e.lba]).contains a) =
      ((w.entries.map lba).filter fun a => !attempted.contains a).filter
        fun a => a != e.lba := by
    rw [filter_filter]
    refine filter_congr fun a _ => ?_
    by_cases ha : a = e.lba <;> simp [ha]
  rw [unattempted, unattempted, hspl, length_filter_lt_length_iff_exists]
  exact ⟨e.lba, mem_filter.mpr ⟨mem_map_of_mem he, by simpa using hna⟩, by simp⟩

variable (select : CacheEntry → Bool)

/-- What `submit_selected` leaves. -/
theorem submitSelected_run (room : ℕ) :
    ∀ {w : CacheIo} {pending : List PendingWrite} {attempted : List ℕ},
      Flushing L w pending attempted false → ∃ failure pending' attempted' w',
        submitSelected select room pending attempted w =
          (.ok (failure, pending', attempted'), w') ∧ Moves L w w' ∧
        Flushing L w' pending' attempted' failure.isSome ∧ pending.length ≤ pending'.length ∧
        pending'.length + w'.unattempted attempted' ≤ pending.length + w.unattempted attempted ∧
        (room ≠ 0 → failure = none → pending' = [] →
          ∀ e ∈ w'.entries, submittable select attempted' e = false) := by
  induction room with
  | zero => exact fun h =>
      ⟨none, _, _, _, rfl, Moves.refl _, h, le_rfl, le_rfl, fun hc => absurd rfl hc⟩
  | succ room ih =>
    intro w pending attempted h
    rw [submitSelected, bind_run_ok (get_run w)]
    rcases hfi : w.entries.zipIdx.find? fun x => submittable select attempted x.1 with _ | ⟨e, i⟩
    · refine ⟨none, pending, attempted, w, by simp only [hfi]; rfl, Moves.refl w, h, le_rfl,
        le_rfl, fun _ _ _ e he => ?_⟩
      obtain ⟨i, hi⟩ := mem_iff_getElem?.mp he
      simpa using find?_eq_none.mp hfi (e, i) (mem_zipIdx_iff_getElem?.mpr hi)
    have hi : w.entries[i]? = some e :=
      mem_zipIdx_iff_getElem?.mp (mem_of_find?_eq_some hfi)
    have hsub := find?_some hfi
    obtain ⟨⟨hdirty, -⟩, hna⟩ : (e.dirty = true ∧ select e = true) ∧ e.lba ∉ attempted := by
      simpa [submittable] using hsub
    -- the block is stamped first, then handed to the device
    obtain ⟨w₁, hw₁⟩ : ∃ w₁, w₁ = w.counted.put i { e with generation := w.cache.generation } :=
      ⟨_, rfl⟩
    have hi₁ : w₁.entries[i]? = some { e with generation := w.cache.generation } :=
      hw₁ ▸ getElem?_put_self hi
    have hmv : Moves L w w₁ :=
      hw₁ ▸ (counted_move w).moves.trans (Move.stamp w.counted i e _ hi).moves
    have hfl : Flushing L w₁ pending attempted false := hw₁ ▸ h.stamp hi hna _
    have hun : w₁.unattempted attempted = w.unattempted attempted :=
      hw₁ ▸ unattempted_put hi { e with generation := w.cache.generation } rfl
        attempted
    have hlt := unattempted_append_lt (mem_of_getElem? hi₁) hna
    replace hlt : w₁.unattempted (attempted ++ [e.lba]) < w₁.unattempted attempted := hlt
    simp only [hfi]
    rw [bind_run_ok (show nextGeneration w = (.ok w.cache.generation, w.counted) from rfl),
      bind_run_ok (show place i { e with generation := w.cache.generation } w.counted =
        (.ok (), w₁) from hw₁ ▸ rfl)]
    rcases hfl.handOver hi₁ hdirty hna with ⟨err, d, hs, hm, hfl'⟩ | ⟨ticket, d, hs, hm, hfl'⟩
    · refine ⟨some err, pending, attempted, w₁.withDevice d, ?_, hmv.trans hm, hfl', le_rfl,
        Nat.add_le_add_left hun.le _, fun _ hc => by cases hc⟩
      rw [bind_run_ok (attempt_err hs)]
      rfl
    obtain ⟨failure, pending', attempted', w', hrun, hm', hfl'', hlen, hmeas, -⟩ := ih hfl'
    rw [length_append, length_singleton] at hlen hmeas
    replace hmeas : pending'.length + w'.unattempted attempted' ≤
      pending.length + 1 + w₁.unattempted (attempted ++ [e.lba]) := hmeas
    refine ⟨failure, pending', attempted', w', ?_, (hmv.trans hm).trans hm', hfl'', by omega,
      by omega, fun _ _ hc => ?_⟩
    swap
    · rw [hc, length_nil] at hlen
      omega
    rw [bind_run_ok (attempt_ok hs)]
    exact hrun

variable {id : ℕ} {f : InFlightWrite}

/-- A queued request that the device still holds after another one was reported. -/
theorem find?_filter_ne {l : List InFlightWrite} {id' : ℕ} (hne : id' ≠ id)
    (hf : (l.find? fun f => f.id == id') = some f) :
    ((l.filter fun f => f.id != id).find? fun f => f.id == id') = some f := by
  rw [find?_filter, ← hf]
  congr 1
  funext g
  by_cases hg : g.id = id'
  · simp [hg, hne]
  · simp [hg]

/-- The device holds a queued write under the block it was made for. -/
theorem OnItsWay.found {q : PendingWrite} (h : OnItsWay L w q) (hq : q.ticket = .queued id)
    (hf : (w.device.inFlight.find? fun f => f.id == id) = some f) : f.lba = q.lba := by
  obtain ⟨-, i, e, -, hlba, -, -, ⟨ht, -⟩ | ⟨id', -, ht, hg⟩⟩ := h
  · rw [hq] at ht
    cases ht
  rw [hq] at ht
  cases ht
  rw [hf] at hg
  cases hg
  exact hlba

/-- Nothing but the device's answer about the oldest write changes what the flush knows. -/
theorem Flushing.answered (h : Flushing L w (p :: pending) attempted failed)
    (hp : p.ticket = .queued id) (hfl : f.lba = p.lba)
    (hf : (w.device.inFlight.find? fun f => f.id == id) = some f)
    (hd : w.device.Wrote f.lba f.data lands records d) (hnow : w.device.now ≤ d.now)
    (hfli : d.inFlight = w.device.inFlight.filter fun f => f.id != id) :
    Flushing L (w.withDevice d) pending attempted true where
  unique := h.unique
  grown := h.grown_of_wrote hd
  onItsWay q hq := by
    have hne : q.lba ≠ f.lba := hfl ▸ ((pairwise_cons.mp h.distinct).1 q hq).symm
    refine (h.onItsWay q (mem_cons_of_mem p hq)).frame (fun j f hj _ => hj) hd.blockCount_eq ?_
      ⟨records, hd.log_eq⟩ hnow fun id' g _ hq' hg => ?_
    · rw [withDevice_device, hd.blocks_eq, store_one_of_ne _ _ _ hne]
    rw [withDevice_device, hfli]
    refine find?_filter_ne ?_ hg
    rintro rfl
    exact hne ((h.onItsWay q (mem_cons_of_mem p hq)).found hq' hf).symm
  distinct := (pairwise_cons.mp h.distinct).2
  listed q hq := h.listed q (mem_cons_of_mem p hq)
  inRange a ha := by
    rw [withDevice_device, hd.blockCount_eq]
    exact h.inRange a ha
  settled hfl := by simp at hfl

/-- **The end of a wait**: the flush goes on without the write it waited for. If the device
reported success, the content is on the device and in the record, and the slot still
holds it. -/
structure Waited (L : List WriteRecord) (w : CacheIo) (p : PendingWrite)
    (pending : List PendingWrite) (attempted : List ℕ) (o : Outcome Error Unit) (w' : CacheIo) :
    Prop where
  moves : Moves L w w'
  entries_eq : w'.entries = w.entries
  flushing : Flushing L w' pending attempted true
  returns : o ≠ .halt
  landed : o = .ok () → ∃ (i : ℕ) (e : CacheEntry), w'.entries[i]? = some e ∧ e.lba = p.lba ∧
    e.generation = p.generation ∧ e.dirty = true ∧ e.lba < w'.device.blockCount ∧
    w'.device.blocks e.lba = e.data ∧ Recorded L w'.device e.lba e.data

/-- A poll that answers nothing changes nothing the flush knows. -/
theorem Flushing.tick (h : Flushing L w pending attempted failed) :
    Flushing L (w.withDevice { w.device with now := w.device.now + 1 }) pending attempted
      failed where
  unique := h.unique
  grown := h.grown
  onItsWay p hp := (h.onItsWay p hp).frame (fun _ _ hj _ => hj) rfl rfl ⟨[], by simp⟩
    (Nat.le_succ _) fun _ _ _ _ hf => hf
  distinct := h.distinct
  listed := h.listed
  inRange := h.inRange
  settled := h.settled

theorem waitForWrite_run (polls : ℕ) : ∀ {w : CacheIo},
    Flushing L w (p :: pending) attempted failed →
    Waited L w p pending attempted (waitForWrite p.ticket polls w).1
      (waitForWrite p.ticket polls w).2 := by
  induction polls with
  | zero =>
    exact fun h => ⟨Moves.refl _, rfl, h.drop, by simp [waitForWrite], by simp [waitForWrite]⟩
  | succ polls ih =>
    intro w h
    obtain ⟨hlt, i, e, hi, hlba, hgen, hdirty, hdev⟩ := h.onItsWay p (by simp)
    rcases hdev with ⟨ht, hb, hrec⟩ | ⟨id, hid, ht, hf⟩
    · have hrun : waitForWrite p.ticket (polls + 1) w = (.ok (), w) := by
        rw [ht]
        rfl
      rw [hrun]
      exact ⟨Moves.refl w, rfl, h.drop, by simp,
        fun _ => ⟨i, e, hi, hlba, hgen, hdirty, hlba ▸ hlt, hb, hrec⟩⟩
    have hmem : e ∈ w.entries := mem_of_getElem? hi
    rcases poll_run hf with
      hpoll | ⟨r, d, lands, records, hpoll, hrec, hd, hnow, hfli, hr⟩
    · rw [waitForWrite, bind_run_ok (onDevice_run (ht ▸ hpoll))]
      have hw := ih h.tick
      exact ⟨(Move.read w).moves.trans hw.moves, hw.entries_eq, hw.flushing, hw.returns, hw.landed⟩
    rw [waitForWrite, bind_run_ok (onDevice_run (ht ▸ hpoll))]
    have hmv : Moves L w (w.withDevice d) :=
      (Move.hand w e lands records d hmem hdirty (fun _ => hlba ▸ hlt) hrec hd).moves
    have hre := h.answered ht hlba hf hd hnow hfli
    cases r with
    | error err => exact ⟨hmv, rfl, hre, fun hc => (by cases hc), fun hc => by cases hc⟩
    | ok u =>
      obtain ⟨rfl, hdone⟩ := hr rfl
      refine ⟨hmv, rfl, hre, fun hc => (by cases hc), fun _ =>
        ⟨i, e, hi, hlba, hgen, hdirty, ?_, ?_, h.recorded hd hdone⟩⟩
      · exact hd.blockCount_eq.symm ▸ hlba ▸ hlt
      · simp [hd.blocks_eq]

/-- **Retiring a write the device has completed** clears the dirty flag of the slot it was
taken from, and of no other. -/
theorem retireWrite_run {w' : CacheIo} (h : Flushing L w (p :: pending) attempted failed)
    (hw : Waited L w p pending attempted (.ok ()) w') :
    ∃ w'', retireWrite p w' = (.ok true, w'') ∧ Moves L w' w'' ∧
      Flushing L w'' pending attempted failed ∧
      w''.unattempted attempted = w'.unattempted attempted := by
  obtain ⟨i, e, hi, hlba, hgen, hdirty, hlt, hb, new, hnew, hrec⟩ := hw.landed rfl
  have hne : e.lba ≠ emptyLba := ne_emptyLba_of_lt hlt
  have hfi : (w'.entries.zipIdx.find? fun x =>
      x.1.lba == p.lba && x.1.generation == p.generation) = some (e, i) := by
    rcases hf : w'.entries.zipIdx.find? fun x =>
      x.1.lba == p.lba && x.1.generation == p.generation with _ | ⟨f, j⟩
    · have := find?_eq_none.mp hf (e, i) (mem_zipIdx_iff_getElem?.mpr hi)
      simp [hlba, hgen] at this
    have hj := mem_zipIdx_iff_getElem?.mp (mem_of_find?_eq_some hf)
    have hfp := find?_some hf
    simp only [Bool.and_eq_true, beq_iff_eq] at hfp
    obtain rfl : i = j := hw.flushing.unique i j e f hi hj (hlba.trans hfp.1.symm) hne
    rw [hi] at hj
    cases hj
    exact hf
  have hmove : Move L w' (w'.put i { e with dirty := false, dirtySince := 0 }) :=
    Move.retire w' i e new hi hdirty hlt hb hnew hrec
  refine ⟨w'.put i { e with dirty := false, dirtySince := 0 }, ?_, hmove.moves, ?_,
    unattempted_put hi { e with dirty := false, dirtySince := 0 } rfl attempted⟩
  · simp only [retireWrite, bind_run, get_run, hfi, hdirty]
    rfl
  have hoth : ∀ (j : ℕ) (f : CacheEntry),
      (w'.put i { e with dirty := false, dirtySince := 0 }).entries[j]? = some f →
      f.dirty = true → w'.entries[j]? = some f ∧ f.lba ≠ p.lba := by
    intro j f hj hfd
    rcases getElem?_put hi hj with ⟨-, rfl⟩ | ⟨hij, hj⟩
    · simp at hfd
    refine ⟨hj, fun hc => hij ?_⟩
    exact hw.flushing.unique i j e f hi hj (hlba.trans hc.symm) hne
  refine ⟨hw.flushing.unique.put_same hi rfl, hw.flushing.grown, fun q hq => ?_,
    hw.flushing.distinct, hw.flushing.listed, hw.flushing.inRange, fun hfl f hf hfd hfa => ?_⟩
  · have hqp : q.lba ≠ p.lba := ((pairwise_cons.mp h.distinct).1 q hq).symm
    refine (hw.flushing.onItsWay q hq).frame (fun j f hj hf => ?_) rfl rfl ⟨[], by simp⟩ le_rfl
      fun _ _ _ _ hf => hf
    have hij : i ≠ j := by
      rintro rfl
      rw [hi] at hj
      cases hj
      exact hqp (hf.symm.trans hlba)
    exact (getElem?_put_of_ne hij).trans hj
  · obtain ⟨j, hj⟩ := mem_iff_getElem?.mp hf
    obtain ⟨hj', hfp⟩ := hoth j f hj hfd
    have hfw : f ∈ w.entries := hw.entries_eq ▸ mem_of_getElem? hj'
    obtain ⟨q, hq, hqf⟩ := h.settled hfl f hfw hfd hfa
    rcases mem_cons.mp hq with rfl | hq
    · exact absurd hqf.symm hfp
    · exact ⟨q, hq, hqf⟩

/-- The queue is topped up while nothing has failed. -/
theorem topUp_run {depth : ℕ} (hdep : depth ≠ 0)
    {failure : Option Error} (h : Flushing L w pending attempted failure.isSome) :
    ∃ failure' pending' attempted' w', topUp select depth failure pending attempted w =
        (.ok (failure', pending', attempted'), w') ∧ Moves L w w' ∧
      Flushing L w' pending' attempted' failure'.isSome ∧
      pending'.length + w'.unattempted attempted' ≤ pending.length + w.unattempted attempted ∧
      (failure' = none → pending' = [] →
        ∀ e ∈ w'.entries, submittable select attempted' e = false) := by
  cases failure with
  | some err =>
    exact ⟨some err, pending, attempted, w, rfl, Moves.refl w, h, le_rfl, fun hc => by cases hc⟩
  | none =>
    obtain ⟨failure', pending', attempted', w', hrun, hm, hfl, hlen, hmeas, hexit⟩ :=
      submitSelected_run select (depth - pending.length) h
    refine ⟨failure', pending', attempted', w', hrun, hm, hfl, hmeas, fun hf hp => ?_⟩
    rw [hp, length_nil] at hlen
    exact hexit (by omega) hf hp

theorem flushLoop_run {select : CacheEntry → Bool} {depth : ℕ} (hdep : depth ≠ 0) {rounds : ℕ} :
    ∀ {w : CacheIo} {pending : List PendingWrite} {attempted : List ℕ} (flushed : ℕ)
      (failure : Option Error), Flushing L w pending attempted failure.isSome →
      pending.length + w.unattempted attempted < rounds →
      (flushLoop select depth rounds pending attempted flushed failure w).1 ≠ .halt ∧
      Moves L w (flushLoop select depth rounds pending attempted flushed failure w).2 ∧
      ∀ n, (flushLoop select depth rounds pending attempted flushed failure w).1 = .ok n →
        ∀ e ∈ (flushLoop select depth rounds pending attempted flushed failure w).2.entries,
          select e = true → e.dirty = false := by
  induction rounds with
  | zero => exact fun _ _ _ hlt => absurd hlt (Nat.not_lt_zero _)
  | succ rounds ih =>
    intro w pending attempted flushed failure h hlt
    obtain ⟨failure', pending', attempted', w₁, hrun, hm, hfl, hmeas, hexit⟩ :=
      topUp_run select hdep h
    rw [flushLoop, bind_run_ok hrun]
    cases pending' with
    | nil =>
      cases failure' with
      | some err => exact ⟨by simp, hm, fun n hn => by cases hn⟩
      | none =>
        refine ⟨by simp, hm, fun n _ e he hsel => ?_⟩
        -- a dirty block would be on its way, and nothing is
        by_contra hdirty
        rw [Bool.not_eq_false] at hdirty
        have hsub := hexit rfl rfl e he
        have hatt : e.lba ∈ attempted' := by simpa [submittable, hdirty, hsel] using hsub
        obtain ⟨p, hp, -⟩ := hfl.settled rfl e he hdirty hatt
        exact not_mem_nil hp
    | cons p rest =>
      rw [length_cons] at hmeas
      have hw := waitForWrite_run (flushPollLimit + 1) hfl
      obtain ⟨⟨o, w₂⟩, hwait⟩ : ∃ r, waitForWrite p.ticket (flushPollLimit + 1) w₁ = r := ⟨_, rfl⟩
      rw [hwait] at hw
      replace hw : Waited L w₁ p rest attempted' o w₂ := hw
      have hun : w₂.unattempted attempted' = w₁.unattempted attempted' := by
        rw [unattempted, hw.entries_eq, unattempted]
      cases o with
      | ok u =>
        obtain ⟨w₃, hreti, hm', hfl', hun'⟩ := retireWrite_run hfl hw
        simp only [bind_run_ok (attempt_ok hwait), bind_run_ok hreti]
        obtain ⟨hret, hmv, hclean⟩ := ih (flushed + 1) failure' hfl' (by omega)
        exact ⟨hret, ((hm.trans hw.moves).trans hm').trans hmv, hclean⟩
      | err e =>
        simp only [bind_run_ok (attempt_err hwait)]
        have hso : (failure' <|> some e).isSome = true := by cases failure' <;> rfl
        obtain ⟨hret, hmv, hclean⟩ := ih flushed (failure' <|> some e)
          (by rw [hso]; exact hw.flushing) (by omega)
        exact ⟨hret, (hm.trans hw.moves).trans hmv, hclean⟩
      | halt => exact absurd rfl hw.returns

/-- **A flush** comes back, is made of moves, and when it answers success the blocks it
selects are clean. -/
theorem flushSelected_run (hu : w.Unique) :
    (flushSelected select w).1 ≠ .halt ∧ Moves w.device.log w (flushSelected select w).2 ∧
      ∀ n, (flushSelected select w).1 = .ok n →
        ∀ e ∈ (flushSelected select w).2.entries, select e = true → e.dirty = false := by
  have h : Flushing w.device.log w [] [] (none : Option Error).isSome :=
    { unique := hu
      grown := ⟨[], by simp⟩
      onItsWay := fun p hp => absurd hp not_mem_nil
      distinct := List.Pairwise.nil
      listed := fun p hp => absurd hp not_mem_nil
      inRange := fun p hp => absurd hp not_mem_nil
      settled := fun _ _ _ _ ha => absurd ha not_mem_nil }
  refine flushLoop_run (by omega) 0 none h ?_
  show [].length + w.unattempted [] < w.entries.length + 1
  rw [length_nil, unattempted]
  have := length_filter_le (fun a => !([].contains a)) (w.entries.map lba)
  rw [length_map] at this
  omega

theorem flush_run (hu : w.Unique) : (flush w).1 ≠ .halt ∧ Moves w.device.log w (flush w).2 ∧
    ((flush w).1 = .ok () → ∀ e ∈ (flush w).2.entries, e.dirty = false) := by
  obtain ⟨hret, hmv, hclean⟩ := flushSelected_run (fun _ => true) hu
  obtain ⟨hst, hok, hhalt⟩ := discard_run (flushSelected fun _ => true) w
  refine ⟨fun hc => hret (hhalt.mp hc), ?_, fun hrun e he => ?_⟩
  · rw [flush, hst]
    exact hmv
  obtain ⟨n, hn⟩ := hok.mp hrun
  rw [flush, hst] at he
  exact hclean n hn e he rfl

theorem flushAged_run (hu : w.Unique) (ageTicks : ℕ) :
    (flushAged ageTicks w).1 ≠ .halt ∧ Moves w.device.log w (flushAged ageTicks w).2 := by
  rw [flushAged, bind_run_ok (get_run w)]
  exact ⟨(flushSelected_run _ hu).1, (flushSelected_run _ hu).2.1⟩

theorem flushRange_run (hu : w.Unique) (startLba count : ℕ) :
    (flushRange startLba count w).1 ≠ .halt ∧
      Moves w.device.log w (flushRange startLba count w).2 := by
  obtain ⟨hret, hmv, -⟩ := flushSelected_run
    (fun e => startLba ≤ e.lba && e.lba < saturatingAdd startLba count) hu
  obtain ⟨hst, -, hhalt⟩ := discard_run
    (flushSelected fun e => startLba ≤ e.lba && e.lba < saturatingAdd startLba count) w
  refine ⟨fun hc => hret (hhalt.mp hc), ?_⟩
  rw [flushRange, hst]
  exact hmv

end CacheIo

end Protofire
