import Mathlib

/-!
# Computations that fail, stop, and leave their state behind

A call of a systems program does three things at once: it answers a value, or it
answers an error, or it never answers at all – and in each case the state it was
working on stays as it left it. `Eff ε σ α` is that shape: a function of the state
to an `Outcome` *and* the state left behind. It is the composition of an exception
and a state monad in the order that does **not** roll the state back on an error,
which is the order a program in which an error is a return value has.

An outcome `halt` stands for a call that does not come back: the machine stops
while a request is on its way, an assertion fails, a recursion runs out of stack.

Two judgements are enough for everything that is proved about such computations:

* `Eff.Triple` – from every state of the precondition, the outcome and the state
  left behind satisfy the postcondition. The postcondition sees the outcome, so a
  statement about the error path is the same kind of statement as one about the
  success path;
* `Eff.Preserves` – an assertion about the state is kept whatever the outcome is.
-/

/-- How a call ends: with a value, with an error, or not at all. -/
inductive Outcome (ε α : Type) where
  /-- The call answered a value. -/
  | ok (a : α)
  /-- The call answered an error. -/
  | err (e : ε)
  /-- The call did not come back. -/
  | halt
  deriving DecidableEq, Repr

/-- A computation over a state of type `σ` that may answer an error of type `ε`. -/
def Eff (ε σ α : Type) : Type := σ → Outcome ε α × σ

namespace Eff

variable {ε σ τ α β : Type}

/-! ### The operations -/

/-- Answer a value. -/
protected def pure (a : α) : Eff ε σ α := fun s => (.ok a, s)

/-- Run one computation, and on its value a second one. An error and a missing
answer end the sequence where they occur. -/
protected def bind (m : Eff ε σ α) (f : α → Eff ε σ β) : Eff ε σ β := fun s =>
  match m s with
  | (.ok a, s') => f a s'
  | (.err e, s') => (.err e, s')
  | (.halt, s') => (.halt, s')

instance : Monad (Eff ε σ) where
  pure := Eff.pure
  bind := Eff.bind

/-- The state. -/
def get : Eff ε σ σ := fun s => (.ok s, s)

/-- Change the state. -/
def modify (f : σ → σ) : Eff ε σ Unit := fun s => (.ok (), f s)

/-- Answer an error. -/
def throw (e : ε) : Eff ε σ α := fun s => (.err e, s)

/-- Never answer. -/
def halt : Eff ε σ α := fun s => (.halt, s)

/-- Answer what a pure fallible function answered. -/
def ofExcept : Except ε α → Eff ε σ α
  | .ok a => Eff.pure a
  | .error e => throw e

/-- Answer a value that may be missing, with the error to answer when it is. -/
def ofOption (e : ε) : Option α → Eff ε σ α
  | some a => Eff.pure a
  | none => throw e

/-- Fail with `e` if the condition holds. -/
def failIf (c : Bool) (e : ε) : Eff ε σ Unit := if c then throw e else Eff.pure ()

/-- Go on only if the condition holds. -/
def assert (c : Bool) : Eff ε σ Unit := if c then Eff.pure () else halt

/-- Run a computation only if the condition holds. -/
def when (c : Bool) (m : Eff ε σ Unit) : Eff ε σ Unit := if c then m else Eff.pure ()

/-- Turn an error into a value the caller can look at. A call that does not come
back still does not come back. -/
def attempt (m : Eff ε σ α) : Eff ε σ (Except ε α) := fun s =>
  match m s with
  | (.ok a, s') => (.ok (.ok a), s')
  | (.err e, s') => (.ok (.error e), s')
  | (.halt, s') => (.halt, s')

/-- Run a computation on a part of a larger state. -/
def zoom (part : τ → σ) (put : τ → σ → τ) (m : Eff ε σ α) : Eff ε τ α := fun t =>
  ((m (part t)).1, put t (m (part t)).2)

/-- Run a computation on the elements of a list, left to right. -/
def forEach (f : α → Eff ε σ Unit) : List α → Eff ε σ Unit
  | [] => Eff.pure ()
  | a :: l => Eff.bind (f a) fun _ => forEach f l

/-! ### What they run to -/

variable (a : α)

@[simp] theorem pure_run (s : σ) : (pure a : Eff ε σ α) s = (.ok a, s) := rfl

@[simp] theorem get_run (s : σ) : (get : Eff ε σ σ) s = (.ok s, s) := rfl

@[simp] theorem modify_run (f : σ → σ) (s : σ) : (modify f : Eff ε σ Unit) s = (.ok (), f s) := rfl

section

variable (e : ε) (s : σ)

@[simp] theorem throw_run : (throw e : Eff ε σ α) s = (.err e, s) := rfl

@[simp] theorem halt_run : (halt : Eff ε σ α) s = (.halt, s) := rfl

@[simp] theorem ofExcept_ok_run (s : σ) : (ofExcept (.ok a) : Eff ε σ α) s = (.ok a, s) := rfl

@[simp] theorem ofExcept_error_run : (ofExcept (.error e) : Eff ε σ α) s = (.err e, s) := rfl

@[simp] theorem ofOption_some_run (a : α) (s : σ) :
    (ofOption e (some a) : Eff ε σ α) s = (.ok a, s) := rfl

@[simp] theorem ofOption_none_run : (ofOption e none : Eff ε σ α) s = (.err e, s) := rfl

@[simp] theorem failIf_true_run : (failIf true e : Eff ε σ Unit) s = (.err e, s) := rfl

@[simp] theorem failIf_false_run : (failIf false e : Eff ε σ Unit) s = (.ok (), s) := rfl

end

@[simp] theorem assert_true_run (s : σ) : (assert true : Eff ε σ Unit) s = (.ok (), s) := rfl

@[simp] theorem assert_false_run (s : σ) : (assert false : Eff ε σ Unit) s = (.halt, s) := rfl

@[simp] theorem when_true (m : Eff ε σ Unit) : when true m = m := rfl

@[simp] theorem when_false (m : Eff ε σ Unit) : when false m = Eff.pure () := rfl

@[simp] theorem zoom_run (part : τ → σ) (put : τ → σ → τ) (m : Eff ε σ α) (t : τ) :
    zoom part put m t = ((m (part t)).1, put t (m (part t)).2) := rfl

theorem bind_run (m : Eff ε σ α) (f : α → Eff ε σ β) (s : σ) : (m >>= f) s = match m s with
      | (.ok a, s') => f a s'
      | (.err e, s') => (.err e, s')
      | (.halt, s') => (.halt, s') := rfl

variable {m : Eff ε σ α} {f : α → Eff ε σ β} {s s' : σ}

theorem bind_run_ok {a : α} (h : m s = (.ok a, s')) : (m >>= f) s = f a s' := by
  rw [bind_run, h]

variable {e : ε}

theorem bind_run_err (h : m s = (.err e, s')) : (m >>= f) s = (.err e, s') := by
  rw [bind_run, h]

theorem bind_run_halt (h : m s = (.halt, s')) : (m >>= f) s = (.halt, s') := by
  rw [bind_run, h]

theorem attempt_ok {a : α} (h : m s = (.ok a, s')) : attempt m s = (.ok (.ok a), s') := by
  rw [attempt, h]

theorem attempt_err (h : m s = (.err e, s')) : attempt m s = (.ok (.error e), s') := by
  rw [attempt, h]

/-- **A sequence that answered a value ran through its first part**: the first part
answered a value, and the second part answered from the state it left. -/
theorem bind_eq_ok {s'' : σ} {b : β} :
    (m >>= f) s = (.ok b, s'') ↔ ∃ a s', m s = (.ok a, s') ∧ f a s' = (.ok b, s'') := by
  rw [bind_run]
  rcases m s with ⟨a | e | _, s'⟩
  · constructor
    · exact fun h => ⟨a, s', rfl, h⟩
    rintro ⟨_, _, h, h'⟩
    cases h
    exact h'
  · simp
  · simp

/-- Forgetting the value changes neither the state nor whether there is one. -/
theorem discard_run (m : Eff ε σ α) (s : σ) : ((m >>= fun _ => pure ()) s).2 = (m s).2 ∧
      (((m >>= fun _ => pure ()) s).1 = .ok () ↔ ∃ a, (m s).1 = .ok a) ∧
      (((m >>= fun _ => pure ()) s).1 = .halt ↔ (m s).1 = .halt) := by
  rw [bind_run]
  rcases m s with ⟨a | e | _, s'⟩ <;> simp

/-- A sequence that came back came back from its first part. -/
theorem ne_halt_of_bind (h : ((m >>= f) s).1 ≠ .halt) : (m s).1 ≠ .halt := by
  intro hm
  have : m s = (.halt, (m s).2) := Prod.ext hm rfl
  exact h (by rw [bind_run_halt this])

variable {c : Bool}

/-- A check comes back, so what is behind it decides. -/
theorem failIf_bind_ne_halt {f : Unit → Eff ε σ α} (h : (f () s).1 ≠ .halt) :
    ((failIf c e >>= f) s).1 ≠ .halt := by
  cases c
  · exact h
  · exact nofun

theorem ofExcept_eq_ok {x : Except ε α} {a : α} :
    (ofExcept x : Eff ε σ α) s = (.ok a, s') ↔ x = .ok a ∧ s' = s := by
  cases x <;> simp [eq_comm]

theorem failIf_eq_ok {u : Unit} :
    (failIf c e : Eff ε σ Unit) s = (.ok u, s') ↔ c = false ∧ s' = s := by
  cases c <;> simp [eq_comm]

theorem assert_eq_ok {u : Unit} :
    (assert c : Eff ε σ Unit) s = (.ok u, s') ↔ c = true ∧ s' = s := by
  cases c <;> simp [eq_comm]

/-! ### Pre- and postconditions -/

/-- From every state of the precondition, the outcome and the state left behind
satisfy the postcondition. -/
def Triple (P : σ → Prop) (m : Eff ε σ α) (Q : Outcome ε α → σ → Prop) : Prop :=
  ∀ s, P s → Q (m s).1 (m s).2

/-- The assertion is kept, whatever the outcome. -/
def Preserves (I : σ → Prop) (m : Eff ε σ α) : Prop := Triple I m fun _ => I

variable {P P' I : σ → Prop} {m : Eff ε σ α} {f : α → Eff ε σ β} {Q Q' : Outcome ε α → σ → Prop}

/-- **The rule of sequencing**: the second part starts in the state the first part
left on success; an error or a missing answer of the first part must already be
what the postcondition allows. -/
theorem Triple.bind {R : Outcome ε β → σ → Prop} (h : Triple P m Q)
    (hok : ∀ a, Triple (Q (.ok a)) (f a) R) (herr : ∀ e s, Q (.err e) s → R (.err e) s)
    (hhalt : ∀ s, Q .halt s → R .halt s) : Triple P (m >>= f) R := by
  intro s hs
  have hm := h s hs
  rw [bind_run]
  rcases hms : m s with ⟨a | e | _, s'⟩ <;> rw [hms] at hm
  · exact hok a s' hm
  · exact herr e s' hm
  · exact hhalt s' hm

theorem Preserves.pure : Preserves I (pure a : Eff ε σ α) := fun _ hs => hs

theorem Preserves.get : Preserves I (get : Eff ε σ σ) := fun _ hs => hs

theorem Preserves.throw (e : ε) : Preserves I (throw e : Eff ε σ α) := fun _ hs => hs

theorem Preserves.halt : Preserves I (halt : Eff ε σ α) := fun _ hs => hs

theorem Preserves.modify {g : σ → σ} (h : ∀ s, I s → I (g s)) :
    Preserves I (modify g : Eff ε σ Unit) := h

theorem Preserves.ofExcept (x : Except ε α) : Preserves I (ofExcept x : Eff ε σ α) := by
  cases x <;> exact fun _ hs => hs

theorem Preserves.ofOption (e : ε) (x : Option α) : Preserves I (ofOption e x : Eff ε σ α) := by
  cases x <;> exact fun _ hs => hs

theorem Preserves.failIf (c : Bool) (e : ε) : Preserves I (failIf c e : Eff ε σ Unit) := by
  cases c <;> exact fun _ hs => hs

theorem Preserves.assert (c : Bool) : Preserves I (assert c : Eff ε σ Unit) := by
  cases c <;> exact fun _ hs => hs

theorem Preserves.bind (hm : Preserves I m) (hf : ∀ a, Preserves I (f a)) : Preserves I (m >>= f) :=
  Triple.bind hm hf (fun _ _ h => h) fun _ h => h

/-- Reading the state and going on from it: the continuation may use what the
assertion says of the state it was handed. -/
theorem Preserves.get_bind {f : σ → Eff ε σ β} (hf : ∀ s, I s → I (f s s).2) :
    Preserves I (Eff.get >>= f) := fun s hs => hf s hs

theorem Preserves.attempt (hm : Preserves I m) : Preserves I (attempt m) := by
  intro s hs
  have h := hm s hs
  unfold Eff.attempt
  rcases hms : m s with ⟨a | e | _, s'⟩ <;> rw [hms] at h <;> exact h

/-- What is behind a check may use that the check passed. -/
theorem Preserves.failIf_bind {f : Unit → Eff ε σ α} (h : c = false → Preserves I (f ())) :
    Preserves I (Eff.failIf c e >>= f) := by
  cases c
  · exact h rfl
  · exact fun _ hs => hs

/-- A loop over a list keeps what its body keeps. -/
theorem Preserves.forEach {g : α → Eff ε σ Unit} {l : List α} (h : ∀ a ∈ l, Preserves I (g a)) :
    Preserves I (forEach g l) := by
  induction l with
  | nil => exact Preserves.pure ()
  | cons a l ih =>
    exact Preserves.bind (h a (by simp)) fun _ => ih fun b hb => h b (by simp [hb])

/-! ### Errors that are not answered -/

/-- A computation that does not answer an error. -/
def Avoids (e : ε) (m : Eff ε σ α) : Prop := ∀ s, (m s).1 ≠ .err e

section Avoids

variable {e : ε}

theorem Avoids.pure : Avoids e (pure a : Eff ε σ α) := fun _ h => nomatch h

theorem Avoids.get : Avoids e (get : Eff ε σ σ) := fun _ h => nomatch h

theorem Avoids.modify (g : σ → σ) : Avoids e (modify g : Eff ε σ Unit) := fun _ h => nomatch h

theorem Avoids.ofExcept {x : Except ε α} (h : x ≠ .error e) :
    Avoids e (ofExcept x : Eff ε σ α) := by
  cases x with
  | ok a => exact Avoids.pure a
  | error e' => exact fun _ he => h (congrArg Except.error (Outcome.err.inj he))

theorem Avoids.ofOption {e' : ε} (h : e' ≠ e) (x : Option α) :
    Avoids e (ofOption e' x : Eff ε σ α) := by
  cases x with
  | some a => exact Avoids.pure a
  | none => exact fun _ he => h (Outcome.err.inj he)

theorem Avoids.failIf {e' : ε} (h : e' ≠ e) (c : Bool) : Avoids e (failIf c e' : Eff ε σ Unit) := by
  cases c with
  | false => exact Avoids.pure ()
  | true => exact fun _ he => h (Outcome.err.inj he)

theorem Avoids.bind (hm : Avoids e m) (hf : ∀ a, Avoids e (f a)) : Avoids e (m >>= f) := by
  intro s
  rw [bind_run]
  rcases hms : m s with ⟨a | e' | _, s'⟩
  · exact hf a s'
  · intro he
    exact hm s (by rw [hms, Outcome.err.inj he])
  · exact fun h => nomatch h

theorem Avoids.ite {c : Prop} [Decidable c] {m m' : Eff ε σ α} (h : Avoids e m)
    (h' : Avoids e m') : Avoids e (if c then m else m') := by
  split
  · exact h
  · exact h'

/-- Reading the state and going on from it. -/
theorem Avoids.get_bind {f : σ → Eff ε σ β} (hf : ∀ s, (f s s).1 ≠ .err e) :
    Avoids e (Eff.get >>= f) := hf

theorem Avoids.zoom {part : τ → σ} {put : τ → σ → τ} (h : Avoids e m) :
    Avoids e (zoom part put m) := fun t => h (part t)

end Avoids

end Eff

/-! ### Fallible functions without a state -/

namespace Fallible

variable {α β γ ε : Type}

theorem bind_eq_ok {x : Except ε α} {f : α → Except ε β} {b : β} :
    x >>= f = .ok b ↔ ∃ a, x = .ok a ∧ f a = .ok b := by
  cases x with
  | error e => exact iff_of_false (by rintro ⟨⟩) (by rintro ⟨_, ⟨⟩, _⟩)
  | ok a =>
    constructor
    · exact fun h => ⟨a, rfl, h⟩
    rintro ⟨_, ⟨⟩, h⟩
    exact h

/-- Fail with `e` if the condition holds. -/
def failIf (c : Prop) [Decidable c] (e : ε) : Except ε Unit := if c then .error e else .ok ()

/-- Answer a value that may be missing, with the error to answer when it is. -/
def ofOption (e : ε) : Option α → Except ε α
  | some a => .ok a
  | none => .error e

@[simp] theorem failIf_eq_ok {c : Prop} [Decidable c] {e : ε} {u : Unit} :
    failIf c e = .ok u ↔ ¬c := by
  unfold failIf
  split
  · rename_i h
    exact iff_of_false (by simp) fun hc => hc h
  · rename_i h
    exact iff_of_true rfl h

@[simp] theorem ofOption_eq_ok {x : Option α} {e : ε} {a : α} :
    ofOption e x = .ok a ↔ x = some a := by
  cases x <;> simp [ofOption]

/-- A loop whose rounds all succeed or fail on their own. -/
theorem foldlM_eq_ok {step : β → α → Except ε β} {good : α → Prop} {next : β → α → β}
    (hst : ∀ b a b', step b a = .ok b' ↔ good a ∧ b' = next b a) {l : List α} {b b' : β} :
    l.foldlM step b = .ok b' ↔ (∀ a ∈ l, good a) ∧ b' = l.foldl next b := by
  induction l generalizing b with
  | nil =>
    simp only [List.not_mem_nil, false_implies, implies_true, true_and]
    exact ⟨fun h => (Except.ok.inj h).symm, fun h => congrArg Except.ok h.symm⟩
  | cons a l ih =>
    rw [List.foldlM_cons, bind_eq_ok, List.forall_mem_cons]
    constructor
    · rintro ⟨c, hc, hl⟩
      obtain ⟨ha, rfl⟩ := (hst b a c).mp hc
      obtain ⟨hall, rfl⟩ := ih.mp hl
      exact ⟨⟨ha, hall⟩, rfl⟩
    · rintro ⟨⟨ha, hl⟩, rfl⟩
      exact ⟨next b a, (hst b a _).mpr ⟨ha, rfl⟩, ih.mpr ⟨hl, rfl⟩⟩

end Fallible
