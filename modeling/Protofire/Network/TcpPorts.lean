import Protofire.Kernel.Block

/-!
# The ports of the connection table

The table (`network/tcp/table.rs`) has a set of "every local port currently reserved by a listener
or a connection". Ports are never taken from it, so it has every port that ever was reserved
(`accounted_iff`). Of the table only the keys are here: accepting and closing change none of them,
and however a connection ends, its key is removed.
-/

namespace Protofire.Network.Tcp

def ephemeralPortStart : ℕ := 49152

def ephemeralPortEnd : ℕ := 65535

/-- The local port, and the address and the port of the peer. -/
abbrev ConnKey (ι : Type) : Type := ℕ × ι × ℕ

/-- Connections, listeners and the ports in use, with the port to try next. -/
structure ConnectionTable (ι : Type) where
  connections : Finset (ConnKey ι) := ∅
  listeners : Finset ℕ := ∅
  nextEphemeralPort : ℕ := ephemeralPortStart
  usedPorts : Finset ℕ := ∅

/-- What changes the table; the backlog of a listener has room or not. -/
inductive TableCall (ι : Type) where
  | connect (remoteIp : ι) (remotePort : ℕ)
  | listen (port : ℕ)
  | unlisten (port : ℕ)
  | opened (hasRoom : Bool) (key : ConnKey ι)
  | remove (key : ConnKey ι)

/-- The port after this one, round the ephemeral range. -/
def following (port : ℕ) : ℕ := if port = ephemeralPortEnd then ephemeralPortStart else port + 1

/-- The loop of `alloc_port`: the port, and the next one to try. -/
def findPort (used : Finset ℕ) : (rounds next : ℕ) → Option ℕ × ℕ
  | 0, next => (none, next)
  | rounds + 1, next =>
    if next ∈ used then findPort used rounds (following next) else (some next, following next)

namespace ConnectionTable

variable {ι : Type} [DecidableEq ι] (t : ConnectionTable ι)

/-- `alloc_port`: the first free port from the next one on. -/
def allocPort : Except Error ℕ × ConnectionTable ι :=
  match findPort t.usedPorts 65536 t.nextEphemeralPort with
  | (some port, next) =>
    (.ok port, { t with nextEphemeralPort := next, usedPorts := insert port t.usedPorts })
  | (none, next) => (.error .alreadyExists, { t with nextEphemeralPort := next })

/-- `insert_key`: its port is in use from now on. -/
def insertKey (key : ConnKey ι) : ConnectionTable ι :=
  if key ∈ t.connections then t
  else { t with
    usedPorts := insert key.1 t.usedPorts
    connections := insert key t.connections }

/-- `listen`: refused for a port in use. -/
def listen (port : ℕ) : Except Error Unit × ConnectionTable ι :=
  if port = 0 then (.error .invalidArgument, t)
  else if port ∈ t.usedPorts then (.error .alreadyExists, t)
  else (.ok (), { t with
    usedPorts := insert port t.usedPorts
    listeners := insert port t.listeners })

def step : TableCall ι → ConnectionTable ι
  | .connect remoteIp remotePort =>
    match t.allocPort with
    | (.ok port, t) => t.insertKey (port, remoteIp, remotePort)
    | (.error _, t) => t
  | .listen port => (t.listen port).2
  | .unlisten port => { t with listeners := t.listeners.erase port }
  | .opened hasRoom key => if key.1 ∈ t.listeners ∧ hasRoom then t.insertKey key else t
  | .remove key => { t with connections := t.connections.erase key }

variable (calls : List (TableCall ι))

def run : ConnectionTable ι := calls.foldl step {}

/-- A connection or a listener has the port. -/
def Held (port : ℕ) : Prop :=
  port ∈ t.listeners ∨ ∃ key ∈ t.connections, key.1 = port

/-- **The ports are accounted for**: those that are used are those that are held, so that there is
a port unless all are held, and a port that is not held can be listened on. -/
def Accounted : Prop :=
  (∀ port, port ∈ t.usedPorts ↔ t.Held port) ∧
    (t.allocPort.1 = .error .alreadyExists →
      ∀ port, ephemeralPortStart ≤ port → port ≤ ephemeralPortEnd → t.Held port) ∧
    ∀ port ≠ 0, ¬t.Held port → (t.listen port).1 = .ok ()

/-! ### The search for a port -/

abbrev Ephemeral (port : ℕ) : Prop := 49152 ≤ port ∧ port ≤ 65535

theorem following_eq {port : ℕ} (h : Ephemeral port) :
    following port = 49152 + (port - 49152 + 1) % 16384 := by
  unfold following ephemeralPortStart ephemeralPortEnd
  split <;> omega

theorem findPort_next {used : Finset ℕ} {rounds next : ℕ} (h : Ephemeral next) :
    Ephemeral (findPort used rounds next).2 := by
  induction rounds generalizing next with
  | zero => exact h
  | succ rounds ih =>
    have hfol := following_eq h
    rw [findPort]
    split
    · exact ih (by omega)
    · exact (by omega : Ephemeral (following next))

/-- The search goes around. -/
theorem mem_of_findPort {used : Finset ℕ} {rounds next k : ℕ} (h : Ephemeral next)
    (hfd : (findPort used rounds next).1 = none) (hk : k < rounds) :
    49152 + (next - 49152 + k) % 16384 ∈ used := by
  induction rounds generalizing next k with
  | zero => omega
  | succ rounds ih =>
    have hfol := following_eq h
    rw [findPort] at hfd
    split at hfd
    · next hus =>
      rcases k with _ | k
      · rwa [show 49152 + (next - 49152 + 0) % 16384 = next by omega]
      have hre := ih (by omega) hfd (show k < rounds by omega)
      rwa [show (next - 49152 + (k + 1)) % 16384 = (following next - 49152 + k) % 16384 by omega]
    · cases hfd

/-! ### Whole runs -/

/-- From one table to a later one the used ports grow, by ports that are held. -/
structure Grows (t' : ConnectionTable ι) : Prop where
  used : ∀ port, t'.Held port → port ∈ t'.usedPorts
  more : t.usedPorts ⊆ t'.usedPorts
  less : ∀ port ∈ t'.usedPorts, port ∈ t.usedPorts ∨ t'.Held port
  next : Ephemeral t'.nextEphemeralPort

variable {t}

theorem held_insertKey {key : ConnKey ι} {port : ℕ} :
    (t.insertKey key).Held port ↔ t.Held port ∨ key.1 = port := by
  rw [Held, Held, insertKey]
  split
  · grind
  simp only [Finset.exists_mem_insert]
  grind

theorem step_grows (hus : ∀ port, t.Held port → port ∈ t.usedPorts)
    (hnx : Ephemeral t.nextEphemeralPort) (call : TableCall ι) : Grows t (t.step call) := by
  cases call with
  | connect remoteIp remotePort =>
    have heph := @findPort_next t.usedPorts 65536 _ hnx
    simp only [step, allocPort]
    generalize findPort t.usedPorts 65536 t.nextEphemeralPort = found at heph
    rcases found with ⟨_ | port, next⟩ <;> constructor <;> grind [Held, insertKey, held_insertKey]
  | listen port => constructor <;> grind [Held, step, listen]
  | unlisten port | remove key => constructor <;> grind [Held, step]
  | opened hasRoom key => constructor <;> grind [step, insertKey, held_insertKey]

theorem run_concat (call : TableCall ι) :
    run (calls ++ [call]) = (run calls).step call := List.foldl_concat ..

theorem run_ports : (∀ port, (run calls).Held port → port ∈ (run calls).usedPorts) ∧
      Ephemeral (run calls).nextEphemeralPort ∧ ∀ port, port ∈ (run calls).usedPorts ↔
        ∃ before, before <+: calls ∧ (run before).Held port := by
  induction calls using List.reverseRecOn with
  | nil => simp [run, Held, Ephemeral, ephemeralPortStart]
  | append_singleton calls call ih =>
    obtain ⟨hus, hnx, hever⟩ := ih
    have hgro := step_grows hus hnx call
    rw [← run_concat] at hgro
    refine ⟨hgro.used, hgro.next, fun port => ⟨fun hpo => ?_, ?_⟩⟩
    · rcases hgro.less port hpo with hpo | hpo
      · obtain ⟨before, hbef, hhe⟩ := (hever port).mp hpo
        exact ⟨before, hbef.trans (List.prefix_append _ _), hhe⟩
      · exact ⟨_, List.prefix_rfl, hpo⟩
    · rintro ⟨before, hbef, hhe⟩
      rcases List.prefix_concat_iff.mp hbef with rfl | hbef
      · exact hgro.used port hhe
      · exact hgro.more ((hever port).mpr ⟨before, hbef, hhe⟩)

/-- **The ports are accounted for as long as all that ever were held still are.** -/
theorem accounted_iff : (run calls).Accounted ↔
    ∀ before, before <+: calls → ∀ port, (run before).Held port → (run calls).Held port := by
  obtain ⟨hus, hnx, hever⟩ := run_ports calls
  constructor
  · rintro ⟨hiff, -⟩ before hbef port hhe
    exact (hiff port).mp ((hever port).mpr ⟨before, hbef, hhe⟩)
  intro hkt
  have hiff : ∀ port, port ∈ (run calls).usedPorts ↔ (run calls).Held port := fun port =>
    ⟨fun hpo => let ⟨_, hbef, hhe⟩ := (hever port).mp hpo
      hkt _ hbef port hhe, hus port⟩
  generalize run calls = t at *
  refine ⟨hiff, fun halloc port hle hge => (hiff port).mp ?_, fun port hne hpo => ?_⟩
  · have hfd : (findPort t.usedPorts 65536 t.nextEphemeralPort).1 = none := by
      rw [allocPort] at halloc
      split at halloc
      · cases halloc
      · next heq => rw [heq]
    unfold ephemeralPortStart ephemeralPortEnd at *
    have hmem := @mem_of_findPort _ _ _ ((port + 16384 - t.nextEphemeralPort) % 16384) hnx
      hfd (by omega)
    rwa [show 49152 + (t.nextEphemeralPort - 49152 + (port + 16384 - t.nextEphemeralPort) %
      16384) % 16384 = port by omega] at hmem
  · rw [listen, if_neg hne, if_neg (mt (hiff port).mp hpo)]

/-- **A port that is given back stays used.** -/
theorem unlisten_keeps_port : ¬(run [TableCall.listen 80, .unlisten 80] :
    ConnectionTable ℕ).Accounted := fun h => by
  have hheld := (h.1 80).mp (by decide)
  simp [Held, run, step, listen] at hheld

end ConnectionTable

end Protofire.Network.Tcp
