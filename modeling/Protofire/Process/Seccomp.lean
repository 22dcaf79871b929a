import Protofire.Kernel.Block

/-!
# The system call filter

A process may install a filter (`kernel/process/seccomp.rs`, `syscall/seccomp.rs`) that decides on
each of its system calls by number, before the call is made.

The filter a process installs **replaces** the one it had, and a forked child is built with the
filter of a new process, which is off. So a call that is denied stays denied exactly as long as no
process of the tree forks and the header and the rules of each filter that is installed name an
action for it that denies it again (`denied_iff_tightens`).

What the memory of a caller holds and whether a fork succeeds is given from outside.
-/

namespace Protofire.Seccomp

def actionAllow : UInt32 := 0

def actionKill : UInt32 := 1

def actionTrap : UInt32 := 2

def seccompMaxRules : ℕ := 128

def ruleHeaderSize : ℕ := 12

def filterRuleSize : ℕ := 12

def seccompSetModeFilter : Int := 1

/-- One rule: a call number and what becomes of the call. -/
structure FilterRule where
  syscallNumber : UInt32
  action : UInt32
  flags : UInt32

/-- What stands before the rules in the caller's memory. -/
structure RuleHeader where
  defaultAction : UInt32
  ruleCount : UInt32
  flags : UInt32

/-- The filter of a process. -/
structure FilterState where
  rules : List FilterRule
  defaultAction : UInt32
  enabled : Bool

/-- The actions that a filter may name. -/
def Known (action : UInt32) : Prop :=
  action = actionAllow ∨ action = actionKill ∨ action = actionTrap
deriving Decidable

namespace FilterState

/-- The filter of a new process. -/
def new : FilterState := ⟨[], actionAllow, false⟩

variable (header : RuleHeader) (rules : List FilterRule)

/-- The filter that takes the place of the one there was. -/
def install : Except Error FilterState :=
  if (∃ rule ∈ rules, ¬ Known rule.action) ∨ ¬ Known header.defaultAction then
    .error .invalidArgument
  else .ok ⟨rules, header.defaultAction, true⟩

/-- `install_filter`. -/
def installFilter : Except Error FilterState :=
  if seccompMaxRules < rules.length then .error .invalidArgument else install header rules

variable (self : FilterState)

/-- `evaluate`: the first rule of the call decides, or else the default action. -/
def evaluate (syscallNumber : ℕ) : UInt32 :=
  if !self.enabled then actionAllow
  else
    match self.rules.find? (·.syscallNumber = UInt32.ofNat syscallNumber) with
    | some rule => rule.action
    | none => self.defaultAction

/-- The filter has the call killed or trapped. -/
def Denies (n : ℕ) : Prop := self.evaluate n = actionKill ∨ self.evaluate n = actionTrap
deriving Decidable

end FilterState

/-! ### The calls -/

/-- The arguments of the call that installs a filter, with what reading the header and a number of
rules from the caller's memory answers. -/
structure Request where
  operation : Int
  dataPtr : ℕ
  dataLen : ℕ
  header : Except Error RuleHeader
  rules : ℕ → Except Error (List FilterRule)

open FilterState

/-- `seccomp`: reads the header, then the rules, then installs. -/
def seccomp (q : Request) : Except Error FilterState := do
  if q.operation ≠ seccompSetModeFilter then throw .notImplemented
  if q.dataPtr = 0 ∨ q.dataLen < ruleHeaderSize then throw .invalidArgument
  let header ← q.header
  if header.flags ≠ 0 then throw .invalidArgument
  let ruleCount := header.ruleCount.toNat
  if seccompMaxRules < ruleCount then throw .invalidArgument
  if q.dataLen ≠ ruleHeaderSize + ruleCount * filterRuleSize then throw .invalidArgument
  let rules ← q.rules ruleCount
  installFilter header rules

/-- The calls that touch filters. -/
inductive Call where
  | seccomp (q : Request)
  /-- A fork, with its outcome. -/
  | fork (outcome : Except Error Unit)

/-- The number of a call in the table. -/
def Call.number : Call → ℕ
  | seccomp _ => 129
  | fork _ => 62

/-- A process and its descendants, as their filters in the order they came to be, after one of them
has made a call. The filter of the caller decides first whether the call is made. -/
def step (tree : List FilterState) (caller : ℕ) (call : Call) : List FilterState :=
  match tree[caller]? with
  | none => tree
  | some filter =>
    if filter.Denies call.number then tree
    else
      match call with
      | .seccomp q =>
        match seccomp q with
        | .ok filter => tree.set caller filter
        | .error _ => tree
      | .fork (.ok ()) => tree ++ [.new]
      | .fork (.error _) => tree

/-- The tree after a sequence of calls, each with its caller. -/
def run (tree : List FilterState) (calls : List (ℕ × Call)) : List FilterState :=
  calls.foldl (fun tree c => step tree c.1 c.2) tree

/-! ### What is denied stays denied -/

section Tightens

/-- The action that a header and rules name for a call: that of the first rule for its number, or
the default one. -/
def verdict (header : RuleHeader) (rules : List FilterRule) (n : ℕ) : UInt32 :=
  match rules.find? (·.syscallNumber = UInt32.ofNat n) with
  | some rule => rule.action
  | none => header.defaultAction

/-- The call is made: its caller is one of the processes, and the caller's filter lets it pass. -/
def Call.Made (tree : List FilterState) (caller : ℕ) (call : Call) : Prop :=
  ∃ filter, tree[caller]? = some filter ∧ ¬ filter.Denies call.number

/-- The call **does not loosen the filters on a number**: a request that is accepted hands in a
header and rules that name another action than to allow it, and a fork fails. -/
def Call.Tightens (n : ℕ) : Call → Prop
  | seccomp q => (∃ filter, Seccomp.seccomp q = .ok filter) → ∀ header rules,
      q.header = .ok header → q.rules header.ruleCount.toNat = .ok rules →
      verdict header rules n ≠ actionAllow
  | fork outcome => outcome ≠ .ok ()

variable {n : ℕ} {tree : List FilterState} {filter : FilterState}

theorem not_denies_new : ¬ FilterState.new.Denies n := by
  simp [Denies, evaluate, FilterState.new, actionAllow, actionKill, actionTrap]

/-- A filter that is installed denies a call exactly if the action named for it is not to allow it:
there are only the three. -/
theorem denies_install {header : RuleHeader} {rules : List FilterRule}
    (h : install header rules = .ok filter) :
    filter.Denies n ↔ verdict header rules n ≠ actionAllow := by
  simp only [install] at h
  split_ifs at h with hknown
  cases h
  push Not at hknown
  have haction : Known (verdict header rules n) := by
    simp only [verdict]
    split
    · rename_i rule hrule
      exact hknown.1 rule (List.mem_of_find?_eq_some hrule)
    · exact hknown.2
  have heval : (⟨rules, header.defaultAction, true⟩ : FilterState).evaluate n =
      verdict header rules n := rfl
  rw [Denies, heval]
  obtain hallow | hkill | htrap := haction
  · simp [hallow, actionAllow, actionKill, actionTrap]
  · simp [hkill, actionAllow, actionKill]
  · simp [htrap, actionAllow, actionTrap]

/-- An accepted request installs what it hands in. -/
theorem seccomp_eq_ok {q : Request} (h : Seccomp.seccomp q = .ok filter) :
    ∃ header rules, q.header = .ok header ∧ q.rules header.ruleCount.toNat = .ok rules ∧
      install header rules = .ok filter := by
  simp only [Seccomp.seccomp, bind, Except.bind, throw, throwThe, MonadExceptOf.throw] at h
  split_ifs at h
  split at h
  · cases h
  rename_i header hheader
  split_ifs at h
  split at h
  · cases h
  rename_i rules hrules
  simp only [installFilter] at h
  split_ifs at h
  exact ⟨header, rules, hheader, hrules, h⟩

theorem tightens_seccomp_iff {q : Request} (h : Seccomp.seccomp q = .ok filter) :
    (Call.seccomp q).Tightens n ↔ filter.Denies n := by
  obtain ⟨header, rules, hheader, hrules, hinstall⟩ := seccomp_eq_ok h
  rw [denies_install hinstall]
  constructor
  · exact fun htight => htight ⟨filter, h⟩ header rules hheader hrules
  · intro hne _ header' rules' hheader' hrules'
    cases hheader.symm.trans hheader'
    cases hrules.symm.trans hrules'
    exact hne

/-- **One call** keeps a number denied in all processes exactly if it is not made or does not
loosen the filters on it. -/
theorem step_denies_iff (caller : ℕ) (call : Call) (h : ∀ filter ∈ tree, filter.Denies n) :
    (∀ filter ∈ step tree caller call, filter.Denies n) ↔
      (call.Made tree caller → call.Tightens n) := by
  unfold step
  split
  · rename_i hnone
    refine iff_of_true h ?_
    rintro ⟨filter, hfilter, -⟩
    simp [hnone] at hfilter
  rename_i filter hfilter
  split_ifs with hden
  · refine iff_of_true h ?_
    rintro ⟨filter', hfilter', hlets⟩
    cases hfilter.symm.trans hfilter'
    exact absurd hden hlets
  have hmade : call.Made tree caller := ⟨filter, hfilter, hden⟩
  rw [forall_prop_of_true hmade]
  cases call with
  | seccomp q =>
    dsimp only
    split
    · rename_i new hnew
      rw [tightens_seccomp_iff hnew]
      -- only the place of the caller has changed
      constructor
      · intro hall
        have hlt := (List.getElem?_eq_some_iff.mp hfilter).1
        exact hall new (List.mem_iff_getElem?.mpr ⟨caller, by simp [hlt]⟩)
      · intro hdenies filter' hmem
        obtain hold | rfl := List.mem_or_eq_of_mem_set hmem
        · exact h filter' hold
        · exact hdenies
    · rename_i e he
      refine iff_of_true h ?_
      rintro ⟨filter', hfilter'⟩
      simp [he] at hfilter'
  | fork outcome =>
    cases outcome with
    | ok =>
      refine iff_of_false (fun hall => not_denies_new (n := n) (hall _ ?_)) (fun hne => hne rfl)
      exact List.mem_append_right _ List.mem_cons_self
    | error e => exact iff_of_true h (by simp [Call.Tightens])

/-- **A denied call stays denied** in a process and all its descendants, whatever part of the calls
has been made, exactly if no call that is made loosens the filters on it. -/
theorem denied_iff_tightens (h : filter.Denies n) (calls : List (ℕ × Call)) :
    (∀ before, before <+: calls → ∀ filter' ∈ run [filter] before, filter'.Denies n) ↔
      ∀ before caller call, before ++ [(caller, call)] <+: calls →
        call.Made (run [filter] before) caller → call.Tightens n := by
  have hstep (before : List (ℕ × Call)) (caller : ℕ) (call : Call) :
      run [filter] (before ++ [(caller, call)]) = step (run [filter] before) caller call := by
    simp [run]
  constructor
  · intro hall before caller call hpre
    rw [← step_denies_iff caller call (hall before ((List.prefix_append _ _).trans hpre)), ← hstep]
    exact hall _ hpre
  · -- over the calls that have been made, the last one taken off
    intro htight before
    induction before using List.reverseRecOn with
    | nil =>
      intro _ filter' hmem
      rwa [List.mem_singleton.mp hmem]
    | append_singleton before c ih =>
      intro hpre
      rw [hstep, step_denies_iff c.1 c.2 (ih ((List.prefix_append _ _).trans hpre))]
      exact htight before c.1 c.2 hpre

end Tightens

/-- The filter that kills call 42 only. -/
def killOne : FilterState := ⟨[⟨42, actionKill, 0⟩], actionAllow, true⟩

/-- A request for a filter without rules. -/
def ruleless (defaultAction : UInt32) : Request where
  operation := 1
  dataPtr := 8
  dataLen := 12
  header := .ok ⟨defaultAction, 0, 0⟩
  rules := fun _ => .ok []

/-- A second filter traps what the first one has killed, and a fork fails. -/
theorem denied_iff_tightens_trap : killOne.Denies 42 ∧ ∀ before,
    before <+: [(0, .seccomp (ruleless actionTrap)), (0, .fork (.error .outOfMemory))] →
      ∀ filter ∈ run [killOne] before, filter.Denies 42 := by
  refine ⟨by decide, (denied_iff_tightens (by decide) _).mpr fun before caller call hpre _ => ?_⟩
  have hmem := hpre.subset (List.mem_append_right before List.mem_cons_self)
  simp only [List.mem_cons, Prod.mk.injEq, List.not_mem_nil, or_false] at hmem
  obtain ⟨-, rfl⟩ | ⟨-, rfl⟩ := hmem
  · intro _ header rules hheader hrules
    cases hheader
    cases hrules
    decide
  · simp [Call.Tightens]

/-- A second filter lifts what the first has denied, and so does a fork, for the child. -/
theorem denied_then_allowed : killOne.Denies 42 ∧
      ¬ (∀ filter ∈ run [killOne] [(0, .seccomp (ruleless actionAllow))], filter.Denies 42) ∧
      ¬ ∀ filter ∈ run [killOne] [(0, .fork (.ok ()))], filter.Denies 42 := by
  decide

end Protofire.Seccomp
