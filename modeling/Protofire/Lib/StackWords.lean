import Mathlib

/-!
# Words that drive a stack

Each letter of a word is passed over, is pushed on a stack, or takes the top of it away; taking from
the empty stack does nothing. The stack is a list whose top is at its end.

What is on top after a word can be read off the word alone: it is the last letter that is pushed and
followed only by an *idle* word, one in which everything that is pushed is taken away again
(`run_eq_concat_iff`).
-/

namespace StackWords

open List

/-- What a letter does to the stack. -/
inductive Move where
  | skip
  | pop
  | push

variable {α : Type} (move : α → Move)

/-- One letter. -/
def act (stack : List α) (a : α) : List α :=
  match move a with
  | .skip => stack
  | .pop => stack.dropLast
  | .push => stack ++ [a]

/-- A word. -/
def run (stack word : List α) : List α := word.foldl (act move) stack

/-- **An idle word** takes away what it pushes, and nothing else. -/
inductive Idle : List α → Prop
  | nil : Idle []
  | skip {a : α} {w : List α} (ha : move a = .skip) (hw : Idle w) : Idle (a :: w)
  | pair {a b : α} {v w : List α} (ha : move a = .push) (hv : Idle v) (hb : move b = .pop)
      (hw : Idle w) : Idle (a :: (v ++ b :: w))

variable {move} {s w v : List α} {a : α}

theorem act_skip (h : move a = .skip) : act move s a = s := by simp only [act, h]

theorem act_pop (h : move a = .pop) : act move s a = s.dropLast := by simp only [act, h]

theorem act_push (h : move a = .push) : act move s a = s ++ [a] := by simp only [act, h]

@[simp] theorem run_nil : run move s [] = s := rfl

@[simp] theorem run_cons : run move s (a :: w) = run move (act move s a) w := rfl

theorem run_append : run move s (v ++ w) = run move (run move s v) w := foldl_append

theorem Idle.append (hv : Idle move v) (hw : Idle move w) : Idle move (v ++ w) := by
  induction hv with
  | nil => exact hw
  | skip ha _ ih => exact .skip ha ih
  | pair ha hv hb _ _ ih =>
    rw [cons_append, append_assoc]
    exact .pair ha hv hb ih

/-- An idle word leaves the stack as it is. -/
theorem Idle.run_eq (hw : Idle move w) (s : List α) : run move s w = s := by
  induction hw generalizing s with
  | nil => rfl
  | skip ha _ ih => rw [run_cons, act_skip ha, ih]
  | pair ha _ hb _ ihv ihw =>
    rw [run_cons, act_push ha, run_append, ihv, run_cons, act_pop hb, dropLast_concat, ihw]

/-- What is on the stack was there before or is a letter that is pushed. -/
theorem mem_run (h : a ∈ run move s w) : a ∈ s ∨ a ∈ w ∧ move a = .push := by
  induction w generalizing s with
  | nil => exact Or.inl h
  | cons b w ih =>
    rcases ih h with hs | ⟨hw, ha⟩
    · rcases hb : move b with _ | _ | _
      · rw [act_skip hb] at hs
        exact Or.inl hs
      · rw [act_pop hb] at hs
        exact Or.inl (dropLast_subset _ hs)
      · rw [act_push hb, mem_append, mem_singleton] at hs
        rcases hs with hs | rfl
        · exact Or.inl hs
        · exact Or.inr ⟨mem_cons_self, hb⟩
    · exact Or.inr ⟨mem_cons_of_mem _ hw, ha⟩

/-- A word of letters that are pushed. -/
theorem run_of_push (h : ∀ a ∈ w, move a = .push) : run move s w = s ++ w := by
  induction w generalizing s with
  | nil => rw [run_nil, append_nil]
  | cons a w ih =>
    rw [run_cons, act_push (h a mem_cons_self), ih fun b hb => h b (mem_cons_of_mem _ hb),
      append_assoc, singleton_append]

/-- **What is on top after a word** is the last letter that is pushed and followed only by an idle
word, and below it is what the word before that letter makes. -/
theorem run_eq_concat_iff : run move [] w = s ++ [a] ↔
    ∃ v rest, w = v ++ a :: rest ∧ move a = .push ∧ Idle move rest ∧ run move [] v = s := by
  constructor
  · -- by induction on the length: when the last letter takes the top away, the word before the one
    -- that pushed that top is shorter by more than one letter
    induction hn : w.length using Nat.strongRecOn generalizing w s a with
    | _ n ih =>
      subst hn
      intro h
      rcases eq_nil_or_concat w with rfl | ⟨u, b, rfl⟩
      · exact absurd h (by simp)
      rw [concat_eq_append] at h ⊢
      have hu : u.length < (u.concat b).length := by simp
      rw [run_append] at h
      rcases hb : move b with _ | _ | _
      · rw [run_cons, act_skip hb] at h
        obtain ⟨v, rest, rfl, ha, hidle, hv⟩ := ih _ hu rfl h
        exact ⟨v, rest ++ [b], by simp, ha, hidle.append (.skip hb .nil), hv⟩
      · rw [run_cons, act_pop hb] at h
        rcases eq_nil_or_concat (run move [] u) with hnil | ⟨t, c, hc⟩
        · rw [hnil] at h
          exact absurd h (by simp)
        rw [concat_eq_append] at hc
        rw [hc, dropLast_concat] at h
        obtain ⟨v', rest', rfl, hpush, hidle', hv'⟩ := ih _ hu rfl hc
        obtain ⟨v, rest, rfl, ha, hidle, hv⟩ :=
          ih v'.length (by simp) rfl (hv'.trans h)
        exact ⟨v, rest ++ c :: (rest' ++ [b]), by simp, ha,
          hidle.append (.pair hpush hidle' hb .nil), hv⟩
      · rw [run_cons, act_push hb] at h
        obtain ⟨rfl, hab⟩ := append_inj' h rfl
        obtain rfl : b = a := by simpa using hab
        exact ⟨u, [], rfl, hb, .nil, rfl⟩
  · rintro ⟨v, rest, rfl, ha, hidle, rfl⟩
    rw [run_append, run_cons, act_push ha, hidle.run_eq]

end StackWords
