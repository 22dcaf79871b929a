import Mathlib

/-!
# Names bound to resources

Resources are *live* as long as a name is bound to them or somebody holds them without a name.
`Tracks` says that exactly those are live, and that what is held has no name. It is kept by the
four things that happen: a new resource is held, a held one is given a name, a name is unbound and
what has no name any more is released, and a name is bound to something else.
-/

namespace References

open Function

variable {ν ρ : Type} {live : ρ → Prop} {binding : ν → Option ρ} {held : ρ → Prop} {n : ν} {r : ρ}

/-- Some name is bound to the resource. -/
def Referenced (binding : ν → Option ρ) (r : ρ) : Prop := ∃ n, binding n = some r

/-- **What is live is what is bound or held.** -/
structure Tracks (live : ρ → Prop) (binding : ν → Option ρ) (held : ρ → Prop) : Prop where
  live_iff : ∀ r, live r ↔ Referenced binding r ∨ held r
  apart : ∀ r, held r → ¬Referenced binding r

theorem Tracks.congr {live' held' : ρ → Prop} {binding' : ν → Option ρ}
    (h : Tracks live binding held) (hlv : ∀ r, live' r ↔ live r) (hbd : binding' = binding)
    (hhe : ∀ r, held' r ↔ held r) : Tracks live' binding' held' := by
  subst hbd
  exact ⟨fun r => by rw [hlv, hhe, h.live_iff], fun r hr => h.apart r ((hhe r).mp hr)⟩

/-- A new resource is held. -/
theorem Tracks.hold (h : Tracks live binding held) (hnew : ¬live r) :
    Tracks (fun x => x = r ∨ live x) binding fun x => x = r ∨ held x := by
  refine ⟨fun x => ?_, ?_⟩
  · rw [h.live_iff, or_left_comm]
  rintro x (rfl | hx)
  · exact fun href => hnew ((h.live_iff x).mpr (Or.inl href))
  · exact h.apart x hx

variable [DecidableEq ν]

theorem referenced_update {r' : Option ρ} {x : ρ} : Referenced (update binding n r') x ↔
      r' = some x ∨ ∃ m, m ≠ n ∧ binding m = some x := by
  constructor
  · rintro ⟨m, hm⟩
    by_cases hmn : m = n
    · subst hmn
      rw [update_self] at hm
      exact Or.inl hm
    · rw [update_of_ne hmn] at hm
      exact Or.inr ⟨m, hmn, hm⟩
  · rintro (rfl | ⟨m, hmn, hm⟩)
    · exact ⟨n, update_self ..⟩
    · exact ⟨m, by rw [update_of_ne hmn, hm]⟩

/-- A resource that some name had is bound still, or it was the one the name had. -/
theorem referenced_of_update {r' : Option ρ} {x : ρ} (h : Referenced binding x) :
    Referenced (update binding n r') x ∨ binding n = some x := by
  obtain ⟨m, hm⟩ := h
  by_cases hmn : m = n
  · exact Or.inr (hmn ▸ hm)
  · exact Or.inl (referenced_update.mpr (Or.inr ⟨m, hmn, hm⟩))

section

variable (h : Tracks live binding held)
include h

/-- **A name is bound anew**, to nothing or to a live resource, which is not held any more; what it
was bound to is released if it has no other name. -/
theorem Tracks.replace (n : ν) {r' : Option ρ} (hr : ∀ x, r' = some x → live x) :
    Tracks (fun x => live x ∧ (binding n = some x → Referenced (update binding n r') x))
      (update binding n r') fun x => held x ∧ r' ≠ some x := by
  have hsub : ∀ x, Referenced (update binding n r') x → r' = some x ∨ Referenced binding x :=
    fun x hx => (referenced_update.mp hx).imp_right fun ⟨m, _, hm⟩ => ⟨m, hm⟩
  refine ⟨fun x => ⟨?_, ?_⟩, ?_⟩
  · rintro ⟨hlv, hkp⟩
    by_cases hx : r' = some x
    · exact Or.inl (referenced_update.mpr (Or.inl hx))
    rcases (h.live_iff x).mp hlv with href | hhe
    · exact Or.inl ((referenced_of_update href).elim id hkp)
    · exact Or.inr ⟨hhe, hx⟩
  · rintro (href | ⟨hhe, -⟩)
    · exact ⟨(hsub x href).elim (hr x) fun href => (h.live_iff x).mpr (Or.inl href), fun _ => href⟩
    · exact ⟨(h.live_iff x).mpr (Or.inr hhe), fun hn => absurd ⟨n, hn⟩ (h.apart x hhe)⟩
  · rintro x ⟨hhe, hx⟩ href
    exact (hsub x href).elim hx (h.apart x hhe)

theorem Tracks.unbind (n : ν) :
    Tracks (fun x => live x ∧ (binding n = some x → Referenced (update binding n none) x))
      (update binding n none) held :=
  (h.replace n (by simp)).congr (fun _ => Iff.rfl) rfl fun x => by simp

theorem Tracks.rebind (hr : live r) (n : ν) : Tracks
      (fun x => live x ∧ (binding n = some x → Referenced (update binding n (some r)) x))
      (update binding n (some r)) fun x => held x ∧ x ≠ r :=
  (h.replace n fun x hx => Option.some.inj hx ▸ hr).congr (fun _ => Iff.rfl) rfl
    fun x => by simp [eq_comm]

/-- **A name is bound to a new resource**, which replaces what it was bound to. -/
theorem Tracks.bindNew (hnew : ¬live r) (n : ν) : Tracks (fun x => (x = r ∨ live x) ∧
        (binding n = some x → Referenced (update binding n (some r)) x))
      (update binding n (some r)) held := by
  refine ((h.hold hnew).rebind (Or.inl rfl) n).congr (fun x => Iff.rfl) rfl fun x => ?_
  constructor
  · exact fun hx => ⟨Or.inr hx, fun heq => hnew ((h.live_iff r).mpr (Or.inr (heq ▸ hx)))⟩
  rintro ⟨rfl | hx, hne⟩
  · exact absurd rfl hne
  · exact hx

end

end References
