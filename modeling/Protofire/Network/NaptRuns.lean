import Protofire.Network.Napt

/-!
# The way out and the way back

In every run of the table of address translation the map of the ports is the inverse of the map of
the flows, and the ports in use are its keys (`Inverse`). So the way back is open as long as a flow
lives: what is sent to the port of a flow comes to the host that the flow is from.

Four things are not as they should be. An ICMP flow is given a port like any other, but what comes
back is looked up under port 0, where there is no flow. A segment that ends before its checksum is
dropped only after the table has been changed for it. Whoever sends to the port of a flow is let
in, with any protocol; and so is what comes for a flow whose time is over, until it is swept
(`admitsOnlyReplies_iff`).
-/

namespace Protofire.Network.Napt

open AList List NatTable Option Table

/-! ### The three maps -/

/-- **The maps fit**: the ports lead back to the flows, the ports in use are those that do, and an
entry has the source of its flow. -/
structure Inverse (t : NatTable) : Prop where
  toKey : ∀ key entry, t.entries.lookup key = some entry →
    t.xlateToKey.lookup entry.xlatePort = some key
  toEntry : ∀ port key, t.xlateToKey.lookup port = some key →
    ∃ entry, t.entries.lookup key = some entry ∧ entry.xlatePort = port
  allocated : ∀ port, t.allocatedPorts.lookup port ≠ none ↔ t.xlateToKey.lookup port ≠ none
  source : ∀ key entry, t.entries.lookup key = some entry →
    entry.srcIp = key.srcIp ∧ entry.srcPort = key.srcPort

namespace Inverse

variable {t : NatTable} {key : NatKey} {entry entry' : NatEntry}

/-- Distinct flows have distinct ports. -/
theorem key_eq {key' : NatKey} (h : Inverse t) (hkey : t.entries.lookup key = some entry)
    (hkey' : t.entries.lookup key' = some entry') (hpo : entry.xlatePort = entry'.xlatePort) :
    key = key' := by
  have hto := h.toKey key entry hkey
  rw [hpo, h.toKey key' entry' hkey'] at hto
  exact (Option.some.inj hto).symm

theorem empty (ip : Ipv4Addr) : Inverse (new.enable ip) :=
  ⟨nofun, nofun, fun _ => iff_of_false (fun h => h rfl) (fun h => h rfl), nofun⟩

/-- An entry is brought up to date. -/
theorem update (h : Inverse t) (hkey : t.entries.lookup key = some entry)
    (hpo : entry'.xlatePort = entry.xlatePort) (hip : entry'.srcIp = entry.srcIp)
    (hsrc : entry'.srcPort = entry.srcPort) :
    Inverse { t with entries := t.entries.insert key entry' } := by
  refine ⟨fun k e he => ?_, fun port k hk => ?_, h.allocated, fun k e he => ?_⟩
  · rcases lookup_insert_eq_some.mp he with ⟨rfl, rfl⟩ | ⟨-, he⟩
    · exact hpo ▸ h.toKey k entry hkey
    · exact h.toKey k e he
  · obtain ⟨e, he, hep⟩ := h.toEntry port k hk
    by_cases hk' : k = key
    · subst hk'
      rw [hkey] at he
      cases he
      exact ⟨entry', lookup_insert _, hpo.trans hep⟩
    · exact ⟨e, (lookup_insert_ne hk').trans he, hep⟩
  · rcases lookup_insert_eq_some.mp he with ⟨rfl, rfl⟩ | ⟨-, he⟩
    · rw [hip, hsrc]
      exact h.source k entry hkey
    · exact h.source k e he

/-- A new flow under a port that is not in use. -/
theorem insert (h : Inverse t) (hkey : t.entries.lookup key = none)
    (hpo : t.allocatedPorts.lookup entry.xlatePort = none) (hip : entry.srcIp = key.srcIp)
    (hsrc : entry.srcPort = key.srcPort) : Inverse { t with
      entries := t.entries.insert key entry
      xlateToKey := t.xlateToKey.insert entry.xlatePort key
      allocatedPorts := t.allocatedPorts.insert entry.xlatePort () } := by
  have hfr : t.xlateToKey.lookup entry.xlatePort = none := by
    by_contra hus
    exact (h.allocated _).mpr hus hpo
  refine ⟨fun k e he => ?_, fun port k hk => ?_, fun port => ?_, fun k e he => ?_⟩
  · rcases lookup_insert_eq_some.mp he with ⟨rfl, rfl⟩ | ⟨-, he⟩
    · exact lookup_insert _
    have hto := h.toKey k e he
    have hne : e.xlatePort ≠ entry.xlatePort := by
      intro heq
      rw [heq, hfr] at hto
      cases hto
    exact (lookup_insert_ne hne).trans hto
  · rcases lookup_insert_eq_some.mp hk with ⟨rfl, rfl⟩ | ⟨-, hk⟩
    · exact ⟨entry, lookup_insert _, rfl⟩
    obtain ⟨e, he, hep⟩ := h.toEntry port k hk
    have hne : k ≠ key := by
      rintro rfl
      rw [hkey] at he
      cases he
    exact ⟨e, (lookup_insert_ne hne).trans he, hep⟩
  · by_cases hp : port = entry.xlatePort
    · subst hp
      simp
    · rw [lookup_insert_ne hp, lookup_insert_ne hp]
      exact h.allocated port
  · rcases lookup_insert_eq_some.mp he with ⟨rfl, rfl⟩ | ⟨-, he⟩
    · exact ⟨hip, hsrc⟩
    · exact h.source k e he

/-- A flow is forgotten. -/
theorem removeFlow (h : Inverse t) (key : NatKey) : Inverse (t.removeFlow key) := by
  rw [NatTable.removeFlow]
  split
  · exact h
  rename_i entry hkey
  refine ⟨fun k e he => ?_, fun port k hk => ?_, fun port => ?_, fun k e he => ?_⟩
  · have hk : k ≠ key := by
      rintro rfl
      rw [lookup_erase] at he
      cases he
    rw [lookup_erase_ne hk] at he
    have hne : e.xlatePort ≠ entry.xlatePort := fun heq => hk (h.key_eq he hkey heq)
    exact (lookup_erase_ne hne).trans (h.toKey k e he)
  · have hp : port ≠ entry.xlatePort := by
      rintro rfl
      rw [lookup_erase] at hk
      cases hk
    rw [lookup_erase_ne hp] at hk
    obtain ⟨e, he, hep⟩ := h.toEntry port k hk
    have hne : k ≠ key := by
      rintro rfl
      rw [hkey] at he
      cases he
      exact hp hep.symm
    exact ⟨e, (lookup_erase_ne hne).trans he, hep⟩
  · by_cases hp : port = entry.xlatePort
    · subst hp
      simp
    · rw [lookup_erase_ne hp, lookup_erase_ne hp]
      exact h.allocated port
  · have hk : k ≠ key := by
      rintro rfl
      rw [lookup_erase] at he
      cases he
    rw [lookup_erase_ne hk] at he
    exact h.source k e he

end Inverse

/-! ### What a call does -/

section Calls

variable {t t' : NatTable} {packet : List UInt8} {tick : UInt64} {key : NatKey}

/-- **The table goes on**: every flow keeps its port, the maps go on to fit, and the external
address stays. -/
structure GoesOn (t t' : NatTable) : Prop where
  externalIp : t'.externalIp = t.externalIp
  enabled : t'.enabled = t.enabled
  inverse : Inverse t → Inverse t'
  flows : ∀ key entry, t.entries.lookup key = some entry →
    ∃ entry', t'.entries.lookup key = some entry' ∧ entry'.xlatePort = entry.xlatePort

theorem GoesOn.refl (t : NatTable) : GoesOn t t :=
  ⟨rfl, rfl, id, fun _ entry h => ⟨entry, h, rfl⟩⟩

theorem goesOn_update {entry entry' : NatEntry} (hkey : t.entries.lookup key = some entry)
    (hpo : entry'.xlatePort = entry.xlatePort) (hip : entry'.srcIp = entry.srcIp)
    (hsrc : entry'.srcPort = entry.srcPort) :
    GoesOn t { t with entries := t.entries.insert key entry' } := by
  refine ⟨rfl, rfl, fun h => h.update hkey hpo hip hsrc, fun k e he => ?_⟩
  by_cases hk : k = key
  · subst hk
    rw [hkey] at he
    cases he
    exact ⟨entry', lookup_insert _, hpo⟩
  · exact ⟨e, (lookup_insert_ne hk).trans he, rfl⟩

/-- **A flow is given its port**, which is the one under which it is found. -/
theorem translate_goesOn {port : UInt16} (h : t.translate key tick = some (port, t')) :
    GoesOn t t' ∧ ∃ entry, t'.entries.lookup key = some entry ∧ entry.xlatePort = port := by
  rw [NatTable.translate] at h
  split at h
  · rename_i entry hkey
    cases Option.some.inj h
    exact ⟨goesOn_update hkey rfl rfl rfl, _, lookup_insert _, rfl⟩
  rename_i hkey
  obtain ⟨⟨port', t₁⟩, halloc, heq⟩ := map_eq_some_iff.mp h
  cases heq
  rw [allocXlatePort] at halloc
  split at halloc
  · cases halloc
  obtain ⟨port, hfd, heq⟩ := map_eq_some_iff.mp halloc
  cases heq
  have hfr : t.allocatedPorts.lookup port = none := by
    simpa using find?_some hfd
  refine ⟨⟨rfl, rfl, fun h => h.insert hkey hfr rfl rfl, fun k e he => ?_⟩, _,
    lookup_insert _, rfl⟩
  have hne : k ≠ key := by
    rintro rfl
    rw [hkey] at he
    cases he
  exact ⟨e, (lookup_insert_ne hne).trans he, rfl⟩

variable (t : NatTable) (packet : List UInt8) (tick : UInt64)

/-- **A packet that leaves** changes nothing, or its flow is given a port and it is rewritten. -/
theorem snatIpv4_cases : t.snatIpv4 packet tick = (none, t) ∨
      ∃ header headerLen key port t', t.enabled = true ∧
        parseIpv4Header packet = some (header, headerLen) ∧
        natKey packet header headerLen = some key ∧ t.translate key tick = some (port, t') ∧
        t.snatIpv4 packet tick =
          (rewriteSource packet headerLen key.protocol key.srcIp t'.externalIp port, t') := by
  rw [snatIpv4]
  split
  · exact Or.inl rfl
  rename_i hen
  split
  · exact Or.inl rfl
  rename_i header headerLen hprs
  split
  · exact Or.inl rfl
  split
  · exact Or.inl rfl
  rename_i key hkey
  split
  · exact Or.inl rfl
  rename_i port t' htr
  exact Or.inr ⟨header, headerLen, key, port, t', by simpa using hen, hprs, hkey, htr, rfl⟩

/-- **A packet that comes back** changes nothing, or its flow is touched and it is rewritten. -/
theorem dnatIpv4_cases : t.dnatIpv4 packet tick = (none, t) ∨
      ∃ header headerLen incoming key entry, parseIpv4Header packet = some (header, headerLen) ∧
        natKey packet header headerLen = some incoming ∧ t.entries.lookup key = some entry ∧
        (t.enabled = true ∧ header.destination = t.externalIp ∧
          t.xlateToKey.lookup incoming.dstPort = some key) ∧ t.dnatIpv4 packet tick =
          (rewriteDestination packet headerLen incoming.protocol incoming.dstIp entry.srcIp
              entry.srcPort, { t with entries := t.entries.insert key (touched entry tick) }) := by
  rw [dnatIpv4]
  split
  · exact Or.inl rfl
  rename_i hen
  split
  · exact Or.inl rfl
  rename_i header headerLen hprs
  split
  · exact Or.inl rfl
  rename_i hip
  split
  · exact Or.inl rfl
  rename_i incoming hinc
  split
  · exact Or.inl rfl
  rename_i key hkey
  split
  · exact Or.inl rfl
  rename_i entry hent
  exact Or.inr ⟨header, headerLen, incoming, key, entry, hprs, hinc, hent,
    ⟨by simpa using hen, by simpa using hip, hkey⟩, rfl⟩

theorem snatIpv4_goesOn : GoesOn t (t.snatIpv4 packet tick).2 := by
  rcases snatIpv4_cases t packet tick with heq | ⟨_, _, key, port, t', -, -, -, htr, heq⟩
  · rw [heq]
    exact .refl t
  · rw [heq]
    exact (translate_goesOn htr).1

theorem dnatIpv4_goesOn : GoesOn t (t.dnatIpv4 packet tick).2 := by
  rcases dnatIpv4_cases t packet tick with heq | ⟨_, _, _, key, entry, -, -, hkey, -, heq⟩
  · rw [heq]
    exact .refl t
  · rw [heq]
    exact goesOn_update hkey rfl rfl rfl

theorem setState_goesOn (key : NatKey) (state : NatConnState → NatConnState) :
    GoesOn t (t.setState key state) := by
  rw [setState]
  split
  · exact .refl t
  rename_i entry hkey
  exact goesOn_update hkey rfl rfl rfl

/-- Flows are forgotten one after the other; the others keep their entries. -/
theorem foldl_removeFlow (keys : List NatKey) (t : NatTable) :
    (keys.foldl removeFlow t).externalIp = t.externalIp ∧
      (keys.foldl removeFlow t).enabled = t.enabled ∧
      (Inverse t → Inverse (keys.foldl removeFlow t)) ∧ ∀ key, key ∉ keys →
        (keys.foldl removeFlow t).entries.lookup key = t.entries.lookup key := by
  induction keys generalizing t with
  | nil => exact ⟨rfl, rfl, id, fun _ _ => rfl⟩
  | cons k keys ih =>
    obtain ⟨hip, hen, hinv, hflows⟩ := ih (t.removeFlow k)
    have hone : (t.removeFlow k).externalIp = t.externalIp ∧
        (t.removeFlow k).enabled = t.enabled ∧
        ∀ key, key ≠ k → (t.removeFlow k).entries.lookup key = t.entries.lookup key := by
      rw [removeFlow]
      split
      · exact ⟨rfl, rfl, fun _ _ => rfl⟩
      · exact ⟨rfl, rfl, fun key hne => lookup_erase_ne hne⟩
    refine ⟨hip.trans hone.1, hen.trans hone.2.1, fun h => hinv (h.removeFlow k),
      fun key hkey => ?_⟩
    rw [mem_cons, not_or] at hkey
    exact (hflows key hkey.2).trans (hone.2.2 key hkey.1)

/-- **A sweep** keeps the flows that have not expired. -/
theorem sweepExpired_spec : (t.sweepExpired tick).externalIp = t.externalIp ∧
      (t.sweepExpired tick).enabled = t.enabled ∧ (Inverse t → Inverse (t.sweepExpired tick)) ∧
      ∀ key entry, t.entries.lookup key = some entry → entry.isExpired tick = false →
        (t.sweepExpired tick).entries.lookup key = some entry := by
  rw [sweepExpired]
  split
  · exact ⟨rfl, rfl, id, fun _ _ h _ => h⟩
  obtain ⟨hip, hen, hinv, hflows⟩ := foldl_removeFlow
    ((t.entries.entries.filter fun e => e.2.isExpired tick).map Sigma.fst)
    { t with lastSweep := tick }
  refine ⟨hip, hen, fun h => hinv ⟨h.toKey, h.toEntry, h.allocated, h.source⟩,
    fun key entry hent hlv => (hflows key fun hmem => ?_).trans hent⟩
  obtain ⟨⟨key', entry'⟩, hfil, rfl⟩ := mem_map.mp hmem
  obtain ⟨hent', hxp⟩ := mem_filter.mp hfil
  have hsm := mem_lookup_iff.mpr hent'
  rw [hent] at hsm
  cases hsm
  rw [hlv] at hxp
  cases hxp

end Calls

/-! ### Runs -/

/-- What reaches the table. -/
inductive Action where
  | snat (packet : List UInt8) (tick : UInt64)
  | dnat (packet : List UInt8) (tick : UInt64)
  | sweep (tick : UInt64)
  | promote (srcIp : Ipv4Addr) (srcPort : UInt16) (dstIp : Ipv4Addr) (dstPort : UInt16)
  | markClosing (srcIp : Ipv4Addr) (srcPort : UInt16) (dstIp : Ipv4Addr) (dstPort : UInt16)

def step (t : NatTable) : Action → NatTable
  | .snat packet tick => (t.snatIpv4 packet tick).2
  | .dnat packet tick => (t.dnatIpv4 packet tick).2
  | .sweep tick => t.sweepExpired tick
  | .promote srcIp srcPort dstIp dstPort => t.promoteTcpToEstablished srcIp srcPort dstIp dstPort
  | .markClosing srcIp srcPort dstIp dstPort => t.markTcpClosing srcIp srcPort dstIp dstPort

/-- **The tables of an external address**: what calls make of a table that was enabled. -/
inductive Reachable (ip : Ipv4Addr) : NatTable → Prop
  | enable : Reachable ip (NatTable.new.enable ip)
  | step {t : NatTable} (h : Reachable ip t) (action : Action) : Reachable ip (step t action)

/-- A flow does not expire at a call: it is not expired when a sweep looks at it. -/
def Keeps (key : NatKey) (t : NatTable) : Action → Prop
  | .sweep tick => ∀ entry, t.entries.lookup key = some entry → entry.isExpired tick = false
  | _ => True

/-- **A flow lives** from one table to another. -/
inductive Lives (key : NatKey) (t : NatTable) : NatTable → Prop
  | refl : Lives key t t
  | step {t' : NatTable} (h : Lives key t t') (action : Action) (hkeeps : Keeps key t' action) :
      Lives key t (step t' action)

section Runs

variable {ip : Ipv4Addr} {t t' : NatTable} {key : NatKey}

/-- What is the same after every call. -/
theorem step_spec (t : NatTable) (action : Action) :
    (step t action).externalIp = t.externalIp ∧ (step t action).enabled = t.enabled ∧
      (Inverse t → Inverse (step t action)) ∧
      ∀ key entry, Keeps key t action → t.entries.lookup key = some entry →
        ∃ entry', (step t action).entries.lookup key = some entry' ∧
          entry'.xlatePort = entry.xlatePort := by
  have hgoes : ∀ {t'}, GoesOn t t' → t'.externalIp = t.externalIp ∧ t'.enabled = t.enabled ∧
      (Inverse t → Inverse t') ∧ ∀ key entry, Keeps key t action →
        t.entries.lookup key = some entry →
        ∃ entry', t'.entries.lookup key = some entry' ∧ entry'.xlatePort = entry.xlatePort :=
    fun h => ⟨h.externalIp, h.enabled, h.inverse, fun key entry _ => h.flows key entry⟩
  cases action with
  | snat packet tick => exact hgoes (snatIpv4_goesOn t packet tick)
  | dnat packet tick => exact hgoes (dnatIpv4_goesOn t packet tick)
  | promote srcIp srcPort dstIp dstPort =>
    exact hgoes (show GoesOn t (t.promoteTcpToEstablished srcIp srcPort dstIp dstPort) from
      setState_goesOn t _ _)
  | markClosing srcIp srcPort dstIp dstPort =>
    exact hgoes (show GoesOn t (t.markTcpClosing srcIp srcPort dstIp dstPort) from
      setState_goesOn t _ _)
  | sweep tick =>
    obtain ⟨hip, hen, hinv, hflows⟩ := sweepExpired_spec t tick
    exact ⟨hip, hen, hinv, fun key entry hkp hent =>
      ⟨entry, hflows key entry hent (hkp entry hent), rfl⟩⟩

/-- **In every table of a run the maps fit.** -/
theorem Reachable.inverse (h : Reachable ip t) :
    Inverse t ∧ t.externalIp = ip ∧ t.enabled = true := by
  induction h with
  | enable => exact ⟨.empty ip, rfl, rfl⟩
  | @step t _ action ih =>
    obtain ⟨hip, hen, hinv, -⟩ := step_spec t action
    exact ⟨hinv ih.1, hip.trans ih.2.1, hen.trans ih.2.2⟩

/-- **A flow that lives keeps its port.** -/
theorem Lives.port (h : Lives key t t') {entry : NatEntry}
    (hent : t.entries.lookup key = some entry) :
    t'.externalIp = t.externalIp ∧ t'.enabled = t.enabled ∧ (Inverse t → Inverse t') ∧
      ∃ entry', t'.entries.lookup key = some entry' ∧ entry'.xlatePort = entry.xlatePort := by
  induction h with
  | refl => exact ⟨rfl, rfl, id, entry, hent, rfl⟩
  | @step t' _ action hkp ih =>
    obtain ⟨hip, hen, hinv, entry', hent', hpo⟩ := ih
    obtain ⟨hip', hen', hinv', hflows⟩ := step_spec t' action
    obtain ⟨entry'', hent'', hpo'⟩ := hflows key entry' hkp hent'
    exact ⟨hip'.trans hip, hen'.trans hen, fun h => hinv' (hinv h), entry'',
      hent'', hpo'.trans hpo⟩

end Runs

/-! ### The way out and the way back -/

/-- **A TCP or UDP segment reaches its checksum.** -/
def Reaches (packet : List UInt8) : Prop :=
  ∀ header headerLen, parseIpv4Header packet = some (header, headerLen) →
    header.protocol.toU8 = 6 ∨ header.protocol.toU8 = 17 →
    headerLen + csumOffset header.protocol.toU8 + 2 ≤ packet.length

/-- A packet that comes back for another: addresses and ports are exchanged. -/
def IsReply (q reply : List UInt8) : Prop :=
  ∃ key, flowKey q = some key ∧ flowKey reply = some key.reverse

section Replies

variable {t t' : NatTable} {packet reply q : List UInt8} {tick : UInt64} {key incoming : NatKey}

variable {header : Ipv4Header} {headerLen : ℕ}

theorem natKey_header (h : natKey packet header headerLen = some key) :
    key.protocol = header.protocol.toU8 ∧ key.dstIp = header.destination := by
  rw [natKey] at h
  split at h
  · obtain ⟨ports, -, rfl⟩ := map_eq_some_iff.mp h
    exact ⟨rfl, rfl⟩
  split at h
  · cases h
    exact ⟨rfl, rfl⟩
  · cases h

/-- A segment that reaches its checksum is rewritten. -/
theorem Reaches.rewriteSource {srcIp externalIp : Ipv4Addr} {port : UInt16} (h : Reaches packet)
    (hprs : parseIpv4Header packet = some (header, headerLen))
    (hkey : natKey packet header headerLen = some key) :
    rewriteSource packet headerLen key.protocol srcIp externalIp port ≠ none := by
  simp only [Napt.rewriteSource]
  split
  · rename_i hpro
    rw [(natKey_header hkey).1] at hpro ⊢
    have hlen := h header headerLen hprs hpro
    rw [if_neg (by omega)]
    exact some_ne_none _
  · exact some_ne_none _

theorem Reaches.rewriteDestination {dstIp originalIp : Ipv4Addr} {port : UInt16}
    (h : Reaches packet) (hprs : parseIpv4Header packet = some (header, headerLen))
    (hkey : natKey packet header headerLen = some key) :
    rewriteDestination packet headerLen key.protocol dstIp originalIp port ≠ none := by
  simp only [Napt.rewriteDestination]
  split
  · rename_i hpro
    rw [(natKey_header hkey).1] at hpro ⊢
    have hlen := h header headerLen hprs hpro
    rw [if_neg (by omega)]
    split <;> exact some_ne_none _
  · exact some_ne_none _

/-- **A packet that is not translated changes nothing**, if it reaches its checksum. -/
theorem snatIpv4_none (h : Reaches packet) (hno : (t.snatIpv4 packet tick).1 = none) :
    (t.snatIpv4 packet tick).2 = t := by
  rcases snatIpv4_cases t packet tick with
    heq | ⟨header, headerLen, key, port, t', -, hprs, hkey, -, heq⟩
  · rw [heq]
  rw [heq] at hno
  exact absurd hno (h.rewriteSource hprs hkey)

theorem dnatIpv4_none (h : Reaches packet) (hno : (t.dnatIpv4 packet tick).1 = none) :
    (t.dnatIpv4 packet tick).2 = t := by
  rcases dnatIpv4_cases t packet tick with
    heq | ⟨header, headerLen, incoming, key, entry, hprs, hinc, -, -, heq⟩
  · rw [heq]
  rw [heq] at hno
  exact absurd hno (h.rewriteDestination hprs hinc)

/-- **The way out**: a translated packet is one of its flow with the external address and the port
of the flow as its source. -/
theorem snatIpv4_some (h : t.snatIpv4 packet tick = (some q, t')) (hkey : flowKey packet = some key)
    (hicmp : key.protocol ≠ 1) : GoesOn t t' ∧ ∃ entry, t'.entries.lookup key = some entry ∧
      flowKey q = some { key with srcIp := t'.externalIp, srcPort := entry.xlatePort } := by
  rcases snatIpv4_cases t packet tick with
    heq | ⟨header, headerLen, key', port, t₁, -, hprs, hkey', htr, heq⟩
  · rw [h] at heq
    cases heq
  have hsm : key' = key := by
    rw [flowKey, hprs] at hkey
    exact Option.some.inj (hkey'.symm.trans hkey)
  subst hsm
  rw [h] at heq
  obtain ⟨hq, rfl⟩ := Prod.mk.inj heq
  obtain ⟨hgoes, entry, hent, rfl⟩ := translate_goesOn htr
  obtain ⟨hseg, hkea⟩ := segment_of_natKey hprs hkey' hicmp
  have hpro : key'.protocol = byteAt packet 9 := by rw [hkea]; rfl
  rw [hpro] at hq
  rw [flowKey_rewriteSource hseg hq.symm, ← hkea]
  exact ⟨hgoes, entry, hent, rfl⟩

/-- What comes to the port of a flow is for the flow, whatever it is. -/
theorem dnatIpv4_of_port {entry : NatEntry} (hen : t.enabled = true)
    (hprs : parseIpv4Header packet = some (header, headerLen))
    (hnat : natKey packet header headerLen = some incoming) (hip : incoming.dstIp = t.externalIp)
    (hpo : t.xlateToKey.lookup incoming.dstPort = some key)
    (hent : t.entries.lookup key = some entry) : t.dnatIpv4 packet tick =
      (rewriteDestination packet headerLen incoming.protocol t.externalIp entry.srcIp entry.srcPort,
        { t with entries := t.entries.insert key (touched entry tick) }) := by
  rw [dnatIpv4, if_neg (by simp [hen])]
  simp only [hprs]
  rw [if_neg (not_not_intro ((natKey_header hnat).2.symm.trans hip))]
  simp only [hnat, hpo, hent, hip]

/-- **The way back**: a reply to the port of a flow is brought to the source of the flow. -/
theorem dnatIpv4_some {entry : NatEntry} (hinv : Inverse t) (hen : t.enabled = true)
    (hent : t.entries.lookup key = some entry) (hicmp : key.protocol ≠ 1) (hrep : flowKey reply =
      some ⟨key.dstIp, key.dstPort, t.externalIp, entry.xlatePort, key.protocol⟩)
    (hrea : Reaches reply) :
    ∃ r, (t.dnatIpv4 reply tick).1 = some r ∧ flowKey r = some key.reverse := by
  rw [flowKey, bind_eq_some_iff] at hrep
  obtain ⟨⟨header, headerLen⟩, hprs, hnat⟩ := hrep
  obtain ⟨hseg, hkea⟩ := segment_of_natKey hprs hnat hicmp
  obtain ⟨hip, hpo⟩ := hinv.source key entry hent
  have hne : rewriteDestination reply headerLen key.protocol t.externalIp entry.srcIp
      entry.srcPort ≠ none := fun hno => hrea.rewriteDestination hprs hnat hno
  obtain ⟨r, hr⟩ := ne_none_iff_exists'.mp hne
  refine ⟨r, ?_, ?_⟩
  · rw [dnatIpv4_of_port hen hprs hnat rfl (hinv.toKey key entry hent) hent]
    exact hr
  have hpro : key.protocol = byteAt reply 9 := congrArg NatKey.protocol hkea
  rw [hpro] at hr
  rw [flowKey_rewriteDestination hseg hr, ← hkea, hip, hpo]
  rfl

end Replies

/-- **The translation is invertible.** In every table of a run distinct flows have distinct ports,
the ports lead back to the flows, and the ports in use are those that do. A packet that reaches its
checksum and is not translated changes nothing. And a TCP or UDP packet that is translated can be
answered: as long as its flow lives, a reply that reaches its checksum is brought to the address and
the port that the packet came from. -/
theorem nat_invertible {ip : Ipv4Addr} {t : NatTable} (h : Reachable ip t) :
    (∀ key key' entry entry', t.entries.lookup key = some entry →
      t.entries.lookup key' = some entry' → key ≠ key' → entry.xlatePort ≠ entry'.xlatePort) ∧
    (∀ port key, t.xlateToKey.lookup port = some key ↔
      ∃ entry, t.entries.lookup key = some entry ∧ entry.xlatePort = port) ∧
    (∀ port, port ∈ t.allocatedPorts ↔ port ∈ t.xlateToKey) ∧ (∀ packet tick, Reaches packet →
      ((t.snatIpv4 packet tick).1 = none → (t.snatIpv4 packet tick).2 = t) ∧
      ((t.dnatIpv4 packet tick).1 = none → (t.dnatIpv4 packet tick).2 = t)) ∧
    ∀ p key tick q t', flowKey p = some key → key.protocol ≠ 1 →
      t.snatIpv4 p tick = (some q, t') → ∀ t'', Lives key t' t'' →
      ∀ reply tick', IsReply q reply → Reaches reply →
        ∃ r answer, (t''.dnatIpv4 reply tick').1 = some r ∧ flowKey r = some answer ∧
          answer.dstIp = key.srcIp ∧ answer.dstPort = key.srcPort := by
  obtain ⟨hinv, hip, hen⟩ := h.inverse
  refine ⟨fun key key' entry entry' he he' hne hpo => hne (hinv.key_eq he he' hpo),
    fun port key => ⟨hinv.toEntry port key, ?_⟩, fun port => ?_,
    fun packet tick hrea => ⟨snatIpv4_none hrea, dnatIpv4_none hrea⟩, ?_⟩
  · rintro ⟨entry, hent, rfl⟩
    exact hinv.toKey key entry hent
  · rw [← lookup_isSome, ← lookup_isSome, isSome_iff_ne_none, isSome_iff_ne_none]
    exact hinv.allocated port
  intro p key tick q t' hkey hicmp hsnat t'' hliv reply tick' hrep hrea
  obtain ⟨hgoes, entry, hent, hq⟩ := snatIpv4_some hsnat hkey hicmp
  obtain ⟨hip', hen', hinv', entry', hent', hpo⟩ := hliv.port hent
  obtain ⟨key', hkey', hrep⟩ := hrep
  rw [hq] at hkey'
  cases hkey'
  obtain ⟨r, hr, hfl⟩ := dnatIpv4_some (hinv' (hgoes.inverse hinv))
    (hen'.trans (hgoes.enabled.trans hen)) hent' hicmp
    (by rw [hrep, hip', hpo]; rfl) hrea
  exact ⟨r, key.reverse, hr, hfl, rfl, rfl⟩

variable (src dst : Ipv4Addr)

/-- A UDP datagram without data. -/
def udpPacket (srcPort dstPort : UInt16) : List UInt8 :=
  [0x45, 0, 0, 28, 0, 0, 0, 0, 64, 17, 0, 0] ++ src.bytes ++ dst.bytes ++ beBytes srcPort ++
    beBytes dstPort ++ [0, 8, 0, 0]

/-- A header and no more. -/
def icmpPacket : List UInt8 :=
  [0x45, 0, 0, 20, 0, 0, 0, 0, 64, 1, 0, 0] ++ src.bytes ++ dst.bytes

/-- A query of a host and the answer to it. -/
theorem nat_invertible_query : ∃ r answer, (((NatTable.new.enable ⟨10, 0, 0, 1⟩).snatIpv4
        (udpPacket ⟨192, 168, 1, 100⟩ ⟨8, 8, 8, 8⟩ 45678 53) 0).2.dnatIpv4
        (udpPacket ⟨8, 8, 8, 8⟩ ⟨10, 0, 0, 1⟩ 53 32768) 100).1 = some r ∧
      flowKey r = some answer ∧ answer.dstIp = ⟨192, 168, 1, 100⟩ ∧ answer.dstPort = 45678 := by
  refine (nat_invertible Reachable.enable).2.2.2.2
    (udpPacket ⟨192, 168, 1, 100⟩ ⟨8, 8, 8, 8⟩ 45678 53)
    ⟨⟨192, 168, 1, 100⟩, 45678, ⟨8, 8, 8, 8⟩, 53, 17⟩ 0
    (((new.enable ⟨10, 0, 0, 1⟩).snatIpv4
      (udpPacket ⟨192, 168, 1, 100⟩ ⟨8, 8, 8, 8⟩ 45678 53) 0).1.getD []) _
    (by decide +kernel) (by decide) (Prod.ext (by decide +kernel) rfl) _ .refl _ _
    ⟨⟨⟨10, 0, 0, 1⟩, 32768, ⟨8, 8, 8, 8⟩, 53, 17⟩, by decide +kernel, by decide +kernel⟩ ?_
  intro header headerLen hprs _
  obtain ⟨-, rfl, -, -, rfl⟩ := parseIpv4Header_eq_some.mp hprs
  decide +kernel

/-- **What is lost.** The answer to an ICMP packet that was translated is not brought back. And a
TCP segment of four bytes is not translated, but the table has a flow for it. -/
theorem icmp_reply_dropped : (∃ p key q t' reply, flowKey p = some key ∧
      (NatTable.new.enable ⟨10, 0, 0, 1⟩).snatIpv4 p 0 = (some q, t') ∧ Lives key t' t' ∧
      IsReply q reply ∧ Reaches reply ∧ (t'.dnatIpv4 reply 1).1 = none) ∧
    ∃ packet, ((NatTable.new.enable ⟨10, 0, 0, 1⟩).snatIpv4 packet 0).1 = none ∧
      ((NatTable.new.enable ⟨10, 0, 0, 1⟩).snatIpv4 packet 0).2 ≠
        NatTable.new.enable ⟨10, 0, 0, 1⟩ := by
  refine ⟨⟨icmpPacket ⟨192, 168, 1, 100⟩ ⟨8, 8, 8, 8⟩, ⟨⟨192, 168, 1, 100⟩, 0, ⟨8, 8, 8, 8⟩, 0, 1⟩,
    ((new.enable ⟨10, 0, 0, 1⟩).snatIpv4
      (icmpPacket ⟨192, 168, 1, 100⟩ ⟨8, 8, 8, 8⟩) 0).1.getD [], _,
    icmpPacket ⟨8, 8, 8, 8⟩ ⟨10, 0, 0, 1⟩, by decide +kernel, Prod.ext (by decide +kernel) rfl,
    .refl, ⟨⟨⟨10, 0, 0, 1⟩, 0, ⟨8, 8, 8, 8⟩, 0, 1⟩, by decide +kernel, by decide +kernel⟩, ?_,
    by decide +kernel⟩, ?_⟩
  · intro header headerLen hprs hpro
    obtain ⟨-, -, -, -, rfl⟩ := parseIpv4Header_eq_some.mp hprs
    exact absurd hpro (by decide +kernel)
  refine ⟨[0x45, 0, 0, 24, 0, 0, 0, 0, 64, 6, 0, 0, 192, 168, 1, 100, 8, 8, 8, 8, 0, 80, 0, 80],
    by decide +kernel, fun h => ?_⟩
  have hsz := congrArg (fun t => size t.entries) h
  revert hsz
  decide +kernel

/-! ### Who may come in -/

variable (t : NatTable) (incoming key : NatKey)

/-- The port that a packet is for leads to a flow and its entry. -/
def LeadsTo (entry : NatEntry) : Prop :=
  t.xlateToKey.lookup incoming.dstPort = some key ∧ t.entries.lookup key = some entry

/-- A live flow of the table owns the port that a packet is for: one whose time is not over. -/
def Owns (tick : UInt64) : Prop :=
  ∃ entry, LeadsTo t incoming key entry ∧ entry.isExpired tick = false

/-- A packet is of the protocol of a flow and, for TCP, from the host the flow is with. -/
def AnswersTo : Prop :=
  incoming.protocol = key.protocol ∧ (incoming.protocol = 6 → incoming.srcIp = key.dstIp)

variable (packet : List UInt8) (tick : UInt64)

/-- **Only replies come in**: a packet answers to the live flow that owns its port, or it is dropped
and changes no flow. -/
def AdmitsOnlyReplies : Prop :=
  (∃ incoming key, flowKey packet = some incoming ∧ Owns t incoming key tick ∧
    AnswersTo incoming key) ∨
    (t.dnatIpv4 packet tick).1 = none ∧
      ∀ key, (t.dnatIpv4 packet tick).2.entries.lookup key = t.entries.lookup key

/-- A packet that ends before its checksum is dropped. -/
theorem rewriteDestination_eq_none {header : Ipv4Header} {headerLen : ℕ} {packet : List UInt8}
    {key : NatKey} {dstIp originalIp : Ipv4Addr} {port : UInt16} (h : ¬Reaches packet)
    (hparse : parseIpv4Header packet = some (header, headerLen))
    (hkey : natKey packet header headerLen = some key) :
    rewriteDestination packet headerLen key.protocol dstIp originalIp port = none := by
  simp only [Reaches, not_forall] at h
  obtain ⟨header', headerLen', hparse', hprotocol, hshort⟩ := h
  cases hparse.symm.trans hparse'
  rw [← (natKey_header hkey).1] at hprotocol hshort
  rw [rewriteDestination, if_pos hprotocol, if_pos (by omega)]

theorem touched_ne_iff {entry : NatEntry} :
    touched entry tick ≠ entry ↔ entry.lastSeen ≠ tick ∨ entry.state = .tcpNew := by
  obtain ⟨_, _, _, state, lastSeen⟩ := entry
  simp only [touched, ne_eq, NatEntry.mk.injEq, true_and]
  by_cases hnew : state = .tcpNew
  · simp [hnew]
  · simp [hnew, eq_comm]

/-- **When only replies come in**: always, unless the packet is for the external address and a port
that leads to a flow whose time is over or that it does not answer to. The port is all that is
looked up, and the flow is let in or seen again: only a segment without its checksum, in the tick in
which an opened flow was seen last, leaves no trace. -/
theorem admitsOnlyReplies_iff : AdmitsOnlyReplies t packet tick ↔
    ¬∃ incoming key entry, t.enabled = true ∧ flowKey packet = some incoming ∧
      incoming.dstIp = t.externalIp ∧ LeadsTo t incoming key entry ∧
      (entry.isExpired tick = true ∨ ¬AnswersTo incoming key) ∧
      (Reaches packet ∨ entry.lastSeen ≠ tick ∨ entry.state = .tcpNew) := by
  constructor
  · rintro h ⟨incoming, key, entry, henabled, hflow, hip, ⟨hport, hentry⟩, hstranger, hseen⟩
    obtain ⟨⟨header, headerLen⟩, hparse, hnat⟩ := bind_eq_some_iff.mp hflow
    rcases h with ⟨incoming', key', hflow', ⟨entry', ⟨hport', hentry'⟩, hlive⟩, hanswers⟩ |
      ⟨hdropped, hsame⟩
    · cases hflow.symm.trans hflow'
      cases hport.symm.trans hport'
      cases hentry.symm.trans hentry'
      exact hstranger.elim (by simp [hlive]) fun hnot => hnot hanswers
    -- the packet is let in, or the flow has been seen again
    rw [dnatIpv4_of_port henabled hparse hnat hip hport hentry] at hdropped hsame
    rcases hseen with hreaches | hseen
    · exact hreaches.rewriteDestination hparse hnat hdropped
    · refine (touched_ne_iff tick).mpr hseen (Option.some.inj ?_)
      rw [← hentry, ← hsame key, lookup_insert]
  · intro h
    rcases dnatIpv4_cases t packet tick with
      heq | ⟨header, headerLen, incoming, key, entry, hparse, hnat, hentry, hreach, heq⟩
    · exact Or.inr ⟨by rw [heq], fun key => by rw [heq]⟩
    have hflow : flowKey packet = some incoming := bind_eq_some_iff.mpr ⟨_, hparse, hnat⟩
    have hleads : LeadsTo t incoming key entry := ⟨hreach.2.2, hentry⟩
    by_cases hreply : entry.isExpired tick = false ∧ AnswersTo incoming key
    · exact Or.inl ⟨incoming, key, hflow, ⟨entry, hleads, hreply.1⟩, hreply.2⟩
    have hquiet : ¬(Reaches packet ∨ entry.lastSeen ≠ tick ∨ entry.state = .tcpNew) := fun hseen =>
      h ⟨incoming, key, entry, hreach.1, hflow, (natKey_header hnat).2.trans hreach.2.1, hleads,
        by rw [← Bool.not_eq_false]; tauto, hseen⟩
    rw [not_or, ← touched_ne_iff, not_not] at hquiet
    refine Or.inr ⟨?_, fun key' => ?_⟩
    · rw [heq]
      exact rewriteDestination_eq_none hquiet.1 hparse hnat
    · simp only [heq, hquiet.2]
      by_cases hkey : key' = key
      · rw [hkey, lookup_insert, hentry]
      · rw [lookup_insert_ne hkey]

/-- **A stranger comes in.** A host sends a query by UDP, and what another host sends by TCP to the
port of the query is brought to it. -/
theorem dnatIpv4_admits_stranger : ¬AdmitsOnlyReplies
    ((NatTable.new.enable ⟨10, 0, 0, 1⟩).snatIpv4
      (udpPacket ⟨192, 168, 1, 100⟩ ⟨8, 8, 8, 8⟩ 45678 53) 0).2
    ([0x45, 0, 0, 40, 0, 0, 0, 0, 64, 6, 0, 0, 6, 6, 6, 6, 10, 0, 0, 1, 0, 80, 128, 0] ++
      List.replicate 16 0) 1 := by
  rintro (⟨incoming, key, hfl, ⟨_, ⟨hpo, -⟩, -⟩, hpro, -⟩ | ⟨hno, -⟩)
  · obtain rfl : (⟨⟨6, 6, 6, 6⟩, 80, ⟨10, 0, 0, 1⟩, 32768, 6⟩ : NatKey) = incoming :=
      Option.some.inj (Eq.trans (by decide +kernel) hfl)
    obtain rfl : (⟨⟨192, 168, 1, 100⟩, 45678, ⟨8, 8, 8, 8⟩, 53, 17⟩ : NatKey) = key :=
      Option.some.inj (Eq.trans (by decide +kernel) hpo)
    exact absurd hpro (by decide)
  · revert hno
    decide +kernel

end Protofire.Network.Napt
