import Protofire.Process.Reasons
import Protofire.Process.Waiters

/-!
# Runs of the machine

What a machine can be asked to do, on any of its CPUs and in any order, and what holds after any
run. The end of a process is complete and happens once if no fatal signal finds a thread of its
process running, or a process that is still held back: nobody who waits for it stays parked, and its
reason is that of the first operation that was fatal to it, which a run keeps beside the machine
(`Traced`). Where a signal finds a thread running, the process says that it has ended before its
thread has, and when the thread ends nobody completes the rest.
-/

namespace Protofire.Scheduling

/-- What a machine is asked to do. -/
inductive Op where
  | spawn (c target : ℕ) (priority : ThreadPriority) (policy : ThreadSchedPolicy) (suspended : Bool)
  | spawnThread (c target pid : ℕ) (priority : ThreadPriority) (policy : ThreadSchedPolicy)
  | resume (c pid : ℕ)
  | schedule (c : ℕ) (prepared : Bool)
  | yield (c : ℕ)
  | preempt (c : ℕ)
  | block (c : ℕ) (event : Option EventRef) (deadline : Option ℕ)
  | sleep (c now ticks : ℕ)
  | wake (c : ℕ) (k : ThreadKey)
  | tick (c ticks : ℕ) (allowPreemption : Bool)
  | localTick (c ticks : ℕ) (allowPreemption : Bool)
  | exit (c : ℕ) (reason : Option TerminationReason)
  | kill (c pid signal : ℕ)
  | steal (c victim : ℕ)
  | reap (pid : ℕ)
  | setPolicy (k : ThreadKey) (policy : ThreadSchedPolicy)

section

variable (m : Machine)

/-- What the operation does to the machine. -/
def Op.exec : Op → Machine
  | .spawn c target priority policy suspended => m.spawn c target priority policy suspended
  | .spawnThread c target pid priority policy => m.spawnThread c target pid priority policy
  | .resume c pid => m.resumeSuspendedProcess c pid
  | .schedule c prepared => m.schedule c prepared
  | .yield c => m.yieldCurrentThread c
  | .preempt c => m.preemptCurrentThreadFromInterrupt c
  | .block c event deadline => m.blockCurrentThread c event deadline
  | .sleep c now ticks => m.sleepCurrentThread c now ticks
  | .wake c k => m.wakeThread c k
  | .tick c ticks allowPreemption => m.handleTimerTick c ticks allowPreemption
  | .localTick c ticks allowPreemption => m.handleLocalTimerTick c ticks allowPreemption
  | .exit c reason => m.terminateCurrentThread c reason
  | .kill c pid signal => m.applyFatalSignal c pid signal
  | .steal c victim => m.tryStealWork c victim
  | .reap pid => (m.reap pid).getD m
  | .setPolicy k policy => m.modifyThread k fun thread => { thread with schedPolicy := policy }

/-- The CPU that does it is online. Where threads switch for real the dispatcher runs with nobody on
the CPU, and a thread is started in a process that has not ended. -/
def Op.Enabled : Op → Prop
  | .spawn c _ _ _ _ | .resume c _ | .yield c | .preempt c | .block c _ _ | .sleep c _ _ | .wake c _
  | .tick c _ _ | .localTick c _ _ | .exit c _ | .kill c _ _ | .steal c _ => c < m.cpuCount
  | .spawnThread c _ pid _ _ => c < m.cpuCount ∧ (m.processes pid).any (·.state ≠ .terminated) =
    true
  | .schedule c _ => c < m.cpuCount ∧ (m.contextSwitch = true → (m.cpus c).current = none)
  | .reap _ | .setPolicy _ _ => True

instance (m : Machine) : (op : Op) → Decidable (op.Enabled m)
  | .spawn c _ _ _ _ | .resume c _ | .yield c | .preempt c | .block c _ _ | .sleep c _ _ | .wake c _
  | .tick c _ _ | .localTick c _ _ | .exit c _ | .kill c _ _ | .steal c _ =>
    inferInstanceAs (Decidable (c < m.cpuCount))
  | .spawnThread c _ pid _ _ => inferInstanceAs
    (Decidable (c < m.cpuCount ∧ (m.processes pid).any (·.state ≠ .terminated) = true))
  | .schedule c _ => inferInstanceAs
    (Decidable (c < m.cpuCount ∧ (m.contextSwitch = true → (m.cpus c).current = none)))
  | .reap _ | .setPolicy _ _ => inferInstanceAs (Decidable True)

/-- A fatal signal finds no thread of its process running. -/
def Op.Spares : Op → Prop
  | .kill _ pid _ => ∀ cpu, m.runsOn pid cpu = false
  | _ => True

/-- A fatal signal finds no process that is held back. -/
def Op.Released : Op → Prop
  | .kill _ pid _ => ∀ process, m.processes pid = some process → process.suspendedThread = none
  | _ => True

/-- A fatal signal finds its process with no thread running and none held back. -/
def Op.Clean (op : Op) : Prop := op.Spares m ∧ op.Released m

/-- The reason that an operation hands in: that of the signal, or the one a thread exits with, if it
has not ended before. -/
def Op.reason : Op → Option TerminationReason
  | .kill _ _ signal => some (.exit (128 + signal))
  | .exit c reason =>
    if (m.cpus c).current.any fun k => (m.threads k).any (·.state ≠ .terminated) then reason
    else none
  | _ => none

/-- The last thread of a process ends. -/
def Machine.lastEnds (m m' : Machine) (pid : ℕ) : Bool :=
  (m.processes pid).any (·.threads ≠ []) && (m'.processes pid).any (·.threads = [])

/-- The default action of a fatal signal is applied to a process that has not ended. -/
def Op.strikes (pid : ℕ) : Op → Bool
  | .kill _ pid' _ => pid' = pid && (m.processes pid).any (·.state ≠ .terminated)
  | _ => false

/-- **An operation is fatal to a process** if it is the default action of a fatal signal and the
process has not ended, or if the last thread of the process ends in it. -/
def Op.fatal (pid : ℕ) (op : Op) : Bool := op.strikes m pid || m.lastEnds (op.exec m) pid

end

/-- A machine at its start. -/
def boot (cpuCount : ℕ) (contextSwitch : Bool) : Machine :=
  { cpuCount := cpuCount, contextSwitch := contextSwitch }

/-- What a run leads to, if each of its steps meets a condition. -/
def Reaches (good : Machine → Op → Prop) (m m' : Machine) : Prop :=
  Relation.ReflTransGen (fun m m' => ∃ op : Op, op.Enabled m ∧ good m op ∧ m' = op.exec m) m m'

/-- **What any run keeps**, from what each step keeps. -/
theorem Reaches.invariant {good : Machine → Op → Prop} {I : Machine → Prop} {m m' : Machine}
    (hrun : Reaches good m m') (hm : I m)
    (hsp : ∀ m (op : Op), I m → op.Enabled m → good m op → I (op.exec m)) : I m' := by
  induction hrun with
  | refl => exact hm
  | tail _ hop ih =>
    obtain ⟨op, hen, hgd, rfl⟩ := hop
    exact hsp _ op ih hen hgd

/-- **A run with the causes of its ends**: for each process, what the first operation that was fatal
to it has handed in. -/
inductive Traced (good : Machine → Op → Prop) (m₀ : Machine) :
    Machine → (ℕ → Option (Option TerminationReason)) → Prop
  | start : Traced good m₀ m₀ fun _ => none
  | step {m : Machine} {cause : ℕ → Option (Option TerminationReason)}
      (hrun : Traced good m₀ m cause) (op : Op) (hen : op.Enabled m) (hgood : good m op) :
      Traced good m₀ (op.exec m) fun pid =>
        (cause pid).or (if op.fatal m pid then some (op.reason m) else none)

/-- The operations can be done one after the other, and each meets a condition. -/
def Allowed (good : Machine → Op → Prop) : Machine → List Op → Prop
  | _, [] => True
  | m, op :: ops => op.Enabled m ∧ good m op ∧ Allowed good (op.exec m) ops

theorem Allowed.reaches {good : Machine → Op → Prop} {m : Machine} {ops : List Op}
    (h : Allowed good m ops) : Reaches good m (ops.foldl Op.exec m) := by
  induction ops generalizing m with
  | nil => exact .refl
  | cons op ops ih => exact .head ⟨op, h.1, h.2.1, rfl⟩ (ih h.2.2)

section Runs

variable {m : Machine}

theorem sound_boot (n : ℕ) (switch : Bool) : (boot n switch).Sound := by
  refine ⟨fun k => .absent rfl (fun _ _ => rfl) (fun _ => rfl) (fun _ => nofun) ?_, nofun, ?_⟩
  · rintro ⟨process, hp, -⟩
    cases hp
  · exact ⟨nofun, nofun, nofun, nofun⟩

/-- **Every step leaves the machine sound.** -/
theorem step_exec (hm : m.Sound) (op : Op) (hen : op.Enabled m)
    (hop : ∀ c pid signal, op ≠ .kill c pid signal) : Step m (op.exec m) := by
  cases op with
  | spawn c target priority policy suspended => exact step_spawn hm hen ..
  | spawnThread c target pid priority policy =>
    obtain ⟨process, hp, hst⟩ := (Option.any_eq_true _ _).mp hen.2
    exact step_spawnThread hm hen.1 ⟨process, hp, by simpa using hst⟩ ..
  | resume c pid => exact step_resumeSuspendedProcess hm hen pid
  | schedule c prepared => exact step_schedule hm hen.1 hen.2 prepared
  | yield c | preempt c => exact (settles_yieldCurrentThread hm.placed hen).step hm
  | block c event deadline | sleep c now ticks =>
    exact (settles_blockCurrentThread hm.placed hen ..).step hm
  | wake c k =>
    have hgen := gentle_wakeThread hm.noStop hen k
    have hset : Settles m (m.wakeThread c k) :=
      ⟨hgen.calm, fun k => hgen.placed k (hm.placed k)⟩
    exact hset.step hm
  | tick c ticks allow => exact (settles_handleTimerTick hm.noStop hm.placed hen ..).step hm
  | localTick c ticks allow =>
    exact (settles_handleLocalTimerTick hm.noStop hm.placed hen ..).step hm
  | exit c reason => exact step_terminateCurrentThread hm hen reason
  | kill c pid signal => exact absurd rfl (hop c pid signal)
  | steal c victim => exact (settles_tryStealWork hm.placed hen victim).step hm
  | reap pid =>
    show Step m ((m.reap pid).getD m)
    cases h : m.reap pid with
    | none => exact .refl hm
    | some m' => exact step_reap hm h
  | setPolicy k policy =>
    have hqt : Quiet m (Op.exec m (.setPolicy k policy)) := quiet_modifyThread fun _ => rfl
    exact (hqt.settles hm.placed).step hm

theorem sound_exec (hm : m.Sound) (op : Op) (hen : op.Enabled m) (hspar : op.Spares m) :
    (op.exec m).Sound ∧ (op.exec m).cpuCount = m.cpuCount ∧
      (op.exec m).contextSwitch = m.contextSwitch := by
  by_cases hkill : ∃ c pid signal, op = .kill c pid signal
  · obtain ⟨c, pid, signal, rfl⟩ := hkill
    have hkil := kills_requestTermination hm hen hspar (.exit (128 + signal))
    exact ⟨hkil.sound, hkil.cpuCount, hkil.contextSwitch⟩
  · have hsp := step_exec hm op hen fun c pid signal h => hkill ⟨c, pid, signal, h⟩
    exact ⟨hsp.sound, hsp.cpuCount, hsp.contextSwitch⟩

/-- A machine is sound, and each of its processes is open or closed. -/
structure Machine.Orderly (m : Machine) : Prop where
  sound : m.Sound
  heard : m.Heard
  life : ∀ pid, m.LifeAt pid

theorem orderly_boot (n : ℕ) (switch : Bool) : (boot n switch).Orderly :=
  ⟨sound_boot n switch, nofun, fun _ => rfl⟩

theorem orderly_exec (hm : m.Orderly) (op : Op) (hen : op.Enabled m) (hspar : op.Spares m)
    (hrel : op.Released m) : (op.exec m).Orderly := by
  by_cases hkill : ∃ c pid signal, op = .kill c pid signal
  · obtain ⟨c, pid, signal, rfl⟩ := hkill
    have hkil := kills_requestTermination hm.sound hen hspar (.exit (128 + signal))
    refine ⟨hkil.sound, hkil.heard hm.heard, fun pid' => ?_⟩
    by_cases hpid : pid' = pid
    · rw [hpid]
      exact hkil.life hrel (hm.life pid)
    · exact hkil.others pid' hpid (hm.life pid')
  · have hsp := step_exec hm.sound op hen fun c pid signal h => hkill ⟨c, pid, signal, h⟩
    exact ⟨hsp.sound, hsp.lasts.heard hm.heard, fun pid => hsp.lasts.life pid (hm.life pid)⟩

/-- A signal that is fatal to a process has ended it. -/
theorem not_alive_of_kill {c pid signal : ℕ} (hm : m.Orderly)
    (hen : (Op.kill c pid signal).Enabled m) (hclean : (Op.kill c pid signal).Clean m)
    (halive : m.alive pid) :
    ¬((Op.kill c pid signal).exec m).alive pid := by
  have hkills := kills_requestTermination hm.sound hen hclean.1 (.exit (128 + signal))
  have hreason := hkills.reason halive
  have hlife := hkills.life hclean.2 (hm.life pid)
  rintro ⟨process, hp, hstate⟩
  have hp : (m.requestTermination c pid (.exit (128 + signal))).processes pid = some process := hp
  rw [Machine.LifeAt, hp] at hlife
  rw [hp, Option.bind_some] at hreason
  rcases hlife with hopen | hclosed
  · cases hopen.reason.symm.trans hreason
  · exact hstate hclosed.state

/-! ### Waiting for an end -/

section Waiting

variable {k : ThreadKey} {e : EventRef}

end Waiting

/-! ### The cause of an end -/

section Cause

variable {pid : ℕ} {cause : ℕ → Option (Option TerminationReason)}

/-- **What an operation ends ends for the reason that it hands in.** -/
theorem ascribes_exec (hm : m.Orderly) (op : Op) (hen : op.Enabled m) (hspares : op.Spares m) :
    Ascribes pid (op.reason m) m (op.exec m) := by
  have hsound := hm.sound
  cases op with
  | spawn c target priority policy suspended => exact ascribes_spawn hsound.book ..
  | spawnThread c target pid priority policy =>
    obtain ⟨process, hp, hst⟩ := (Option.any_eq_true _ _).mp hen.2
    exact ascribes_spawnThread ⟨process, hp, by simpa using hst⟩ ..
  | resume c pid => exact ascribes_resumeSuspendedProcess ..
  | schedule c prepared => exact ascribes_schedule hsound hm.life hen.1 hen.2 prepared
  | yield c | preempt c => exact (settles_yieldCurrentThread hsound.placed hen).calm.ascribes
  | block c event deadline | sleep c now ticks =>
    exact (settles_blockCurrentThread hsound.placed hen ..).calm.ascribes
  | wake c k => exact (gentle_wakeThread hsound.noStop hen k).calm.ascribes
  | tick c ticks allow =>
    exact (settles_handleTimerTick hsound.noStop hsound.placed hen ..).calm.ascribes
  | localTick c ticks allow =>
    exact (settles_handleLocalTimerTick hsound.noStop hsound.placed hen ..).calm.ascribes
  | exit c reason => exact ascribes_terminateCurrentThread hsound hm.life hen reason
  | kill c pid' signal =>
    refine (kills_requestTermination hsound hen hspares (.exit (128 + signal))).ascribes
      fun hdead => if_neg fun hany => hdead ?_
    obtain ⟨process, hp, hst⟩ := (Option.any_eq_true _ _).mp hany
    exact ⟨process, hp, by simpa using hst⟩
  | steal c victim => exact (settles_tryStealWork hsound.placed hen victim).calm.ascribes
  | reap pid' =>
    show Ascribes pid _ m ((m.reap pid').getD m)
    cases h : m.reap pid' with
    | none => exact (Calm.refl m).ascribes
    | some m' => exact ascribes_reap h
  | setPolicy k policy =>
    have hquiet : Quiet m (Op.exec m (.setPolicy k policy)) := quiet_modifyThread fun _ => rfl
    exact hquiet.calm.ascribes

/-- The cause of an end is noted: a process that has ended has the reason that came first, and one
that has not has no cause. -/
def Noted (m : Machine) (cause : Option (Option TerminationReason)) (pid : ℕ) : Prop :=
  match m.processes pid with
  | none => cause = none
  | some process =>
    if process.state = .terminated then ∃ reason, cause = some reason ∧
      (process.terminationReaped = false → process.terminationReason = reason)
    else cause = none

section Noted

variable {why : Option (Option TerminationReason)} {process : Process}

theorem noted_of_absent (hp : m.processes pid = none) : Noted m why pid ↔ why = none := by
  rw [Noted, hp]

theorem noted_of_alive (hp : m.processes pid = some process)
    (hstate : process.state ≠ .terminated) :
    Noted m why pid ↔ why = none := by
  rw [Noted, hp]
  exact iff_of_eq (if_neg hstate)

theorem noted_of_ended (hp : m.processes pid = some process)
    (hstate : process.state = .terminated) :
    Noted m why pid ↔ ∃ reason, why = some reason ∧
      (process.terminationReaped = false → process.terminationReason = reason) := by
  rw [Noted, hp]
  exact iff_of_eq (if_pos hstate)

end Noted

/-- **An operation is fatal to a process exactly if it ends it.** -/
theorem fatal_iff (hm : m.Orderly) (op : Op) (hen : op.Enabled m) (hclean : op.Clean m)
    {process' : Process} (hp' : (op.exec m).processes pid = some process') :
    op.fatal m pid = true ↔ m.alive pid ∧ process'.state = .terminated := by
  have hlife' := (orderly_exec hm op hen hclean.1 hclean.2).life pid
  rw [Machine.LifeAt, hp'] at hlife'
  have hlast : m.lastEnds (op.exec m) pid = true ↔ m.alive pid ∧ process'.state = .terminated := by
    have hlife := hm.life pid
    rw [Machine.lastEnds, hp', Bool.and_eq_true, Option.any_some, decide_eq_true_iff]
    refine and_congr ?_ ?_
    · rw [Machine.LifeAt] at hlife
      rw [Machine.alive]
      cases hp : m.processes pid with
      | none => simp
      | some process =>
        rw [hp] at hlife
        rcases hlife with hopen | hclosed
        · simp [hopen.threads, hopen.state]
        · simp [hclosed.threads, hclosed.state]
    · rcases hlife' with hopen | hclosed
      · exact iff_of_false hopen.threads hopen.state
      · exact iff_of_true hclosed.threads hclosed.state
  rw [Op.fatal, Bool.or_eq_true, hlast]
  refine or_iff_right_of_imp fun hkill => ?_
  cases op with
  | kill c pid' signal =>
    rw [Op.strikes, Bool.and_eq_true, decide_eq_true_iff] at hkill
    obtain ⟨rfl, hany⟩ := hkill
    obtain ⟨process, hp, hst⟩ := (Option.any_eq_true _ _).mp hany
    have halive : m.alive pid' := ⟨process, hp, of_decide_eq_true hst⟩
    exact ⟨halive, not_not.mp fun h => not_alive_of_kill hm hen hclean halive ⟨_, hp', h⟩⟩
  | _ => cases hkill

theorem noted_exec (hm : m.Orderly) (op : Op) (hen : op.Enabled m) (hclean : op.Clean m)
    (h : Noted m (cause pid) pid) : Noted (op.exec m)
      ((cause pid).or (if op.fatal m pid then some (op.reason m) else none)) pid := by
  have hascribes : Ascribes pid (op.reason m) m (op.exec m) := ascribes_exec hm op hen hclean.1
  cases hp' : (op.exec m).processes pid with
  | none =>
    have hp : m.processes pid = none := by
      by_contra hne
      obtain ⟨process, hp⟩ := Option.ne_none_iff_exists'.mp hne
      obtain ⟨process', hp'', -⟩ := hascribes.lasts process hp
      cases hp'.symm.trans hp''
    have hfatal : op.fatal m pid = false := by
      rw [Op.fatal, Machine.lastEnds, hp']
      cases op <;> simp [Op.strikes, hp]
    rw [noted_of_absent hp', (noted_of_absent hp).mp h, hfatal]
    rfl
  | some process' =>
    have hfatal := fatal_iff hm op hen hclean hp'
    by_cases hstate' : process'.state = .terminated
    · rw [noted_of_ended hp' hstate']
      obtain ⟨process, hp, hreason⟩ := hascribes.reason process' hp' hstate'
      by_cases hstate : process.state = .terminated
      · -- it had ended before, and the operation is not fatal to it
        rw [if_pos hstate] at hreason
        obtain ⟨reason, hcause, hkept⟩ := (noted_of_ended hp hstate).mp h
        refine ⟨reason, by rw [hcause]; rfl, fun hreaped => ?_⟩
        rw [(hreason hreaped).2]
        exact hkept (hreason hreaped).1
      · rw [if_neg hstate] at hreason
        refine ⟨op.reason m, ?_, hreason⟩
        rw [(noted_of_alive hp hstate).mp h, hfatal.mpr ⟨⟨process, hp, hstate⟩, hstate'⟩]
        rfl
    · -- a process that is alive was alive, or has come
      have hnone : cause pid = none := by
        cases hp : m.processes pid with
        | none => exact (noted_of_absent hp).mp h
        | some process =>
          refine (noted_of_alive hp fun hstate => ?_).mp h
          obtain ⟨process₁, hp₁, hdead⟩ := hascribes.lasts process hp
          cases hp'.symm.trans hp₁
          exact hstate' (hdead hstate)
      rw [noted_of_alive hp' hstate', hnone,
        Bool.eq_false_iff.mpr fun hf => hstate' (hfatal.mp hf).2]
      rfl

/-- **A traced run is a run, and the causes are those of the ends.** -/
theorem Traced.noted {n : ℕ} {switch : Bool}
    (h : Traced (fun m op => op.Clean m) (boot n switch) m cause) :
    m.Orderly ∧ ∀ pid, Noted m (cause pid) pid := by
  induction h with
  | start => exact ⟨orderly_boot n switch, fun _ => rfl⟩
  | step hrun op hen hgood ih =>
    exact ⟨orderly_exec ih.1 op hen hgood.1 hgood.2,
      fun pid => noted_exec ih.1 op hen hgood (ih.2 pid)⟩

end Cause

/-- A process has no thread left. -/
def Machine.finished (m : Machine) (pid : ℕ) : Prop := ∀ tid, ¬m.live ⟨pid, tid⟩

end Runs

end Protofire.Scheduling
