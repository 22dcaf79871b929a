import Protofire.Kernel.Block
import Protofire.Lib.Table
import Protofire.Network.Ipv4

/-!
# The packet filter

The filter (`network/filter/mod.rs`) is an ordered list of rules with a table of the flows that
stateful rules have admitted. What it is *for* is said once, over the history of the flows and
without the table (`verdict`): a packet passes if it belongs to an admitted flow that was seen
within the timeout of its protocol, and otherwise the first rule that matches it decides, or the
default.

`check_packet` takes three shortcuts that this does not have. A TCP or UDP segment too short for
its ports is given the default action and no rule is asked; a flow that is in the table is
admitted whether it has timed out or not, until a sweep removes it; and a flow that finds the
table full is not remembered. `Careful` says that a packet meets none of the three, and
`check_eq_verdict` that in every run of such packets the filter answers the verdict.

The counters of the filter and of its rules are written and never read, and are left out.
-/

namespace Protofire.Network.Filter

open AList Table

/-- The packets a rule is for. -/
inductive FilterDirection where
  | both | inbound | outbound
deriving DecidableEq

/-- What a matching rule does with it. -/
inductive FilterAction where
  | allow | deny
deriving DecidableEq

def maxFilterRules : ℕ := 256

def maxFilterFlows : ℕ := 4096

def tcpFlowTimeout : ℕ := 8640000

def udpFlowTimeout : ℕ := 30000

def defaultFlowTimeout : ℕ := 6000

def sweepInterval : ℕ := 3000

/-- The difference of two ticks of the 64-bit clock. -/
def elapsed (now since : ℕ) : ℕ := (now + 2 ^ 64 - since) % 2 ^ 64

/-! ### Matching -/

/-- The first `prefixLen` bits of two addresses agree. -/
def cidrMatch (addr prefixAddr : Ipv4Addr) (prefixLen : ℕ) : Bool :=
  if prefixLen = 0 then true
  else addr.toNat >>> (32 - prefixLen) == prefixAddr.toNat >>> (32 - prefixLen)

/-- The port lies in the rule's range; a range from zero is any port. -/
def portMatch (port : UInt16) (start stop : ℕ) : Bool :=
  if start = 0 then true
  else
    let stop := if stop = 0 then start else stop
    start ≤ port.toNat && port.toNat ≤ stop

/-- The ports of a TCP or UDP segment, if it has them. -/
def extractPorts : List UInt8 → Option (UInt16 × UInt16)
  | a :: b :: c :: d :: _ => some (be16 a b, be16 c d)
  | _ => none

/-- One rule: a direction, an action and what a packet must show. -/
structure FilterRule where
  id : ℕ
  action : FilterAction
  /-- The protocol number, or zero for any. -/
  protocol : ℕ
  srcAddr : Ipv4Addr
  srcPrefix : ℕ
  dstAddr : Ipv4Addr
  dstPrefix : ℕ
  srcPortStart : ℕ
  srcPortEnd : ℕ
  dstPortStart : ℕ
  dstPortEnd : ℕ
  direction : FilterDirection
  stateful : Bool

/-- Whether a header is one of a protocol with ports. -/
def hasPorts (header : Ipv4Header) : Bool :=
  header.protocol == .tcp || header.protocol == .udp

namespace FilterRule

/-- `rule_matches`: every criterion of the rule is met. -/
def ruleMatches (direction : FilterDirection) (header : Ipv4Header) (payload : List UInt8)
    (rule : FilterRule) : Bool :=
  if rule.direction ≠ .both ∧ rule.direction ≠ direction then false
  else if rule.protocol ≠ 0 ∧ header.protocol.toU8.toNat ≠ rule.protocol then false
  else if !cidrMatch header.source rule.srcAddr rule.srcPrefix then false
  else if !cidrMatch header.destination rule.dstAddr rule.dstPrefix then false
  else if (rule.protocol = 0 ∨ rule.protocol = 6 ∨ rule.protocol = 17) ∧ hasPorts header then
    match extractPorts payload with
    -- a segment without ports passes the port checks
    | none => true
    | some (srcPort, dstPort) =>
      portMatch srcPort rule.srcPortStart rule.srcPortEnd &&
        portMatch dstPort rule.dstPortStart rule.dstPortEnd
  else true

end FilterRule

/-! ### Flows -/

/-- The addresses, the ports and the protocol of a segment. -/
structure FlowKey where
  srcIp : Ipv4Addr
  dstIp : Ipv4Addr
  srcPort : UInt16
  dstPort : UInt16
  protocol : UInt8
deriving DecidableEq

/-- When a flow was last seen, and its protocol. -/
structure FlowEntry where
  lastSeen : ℕ
  protocol : UInt8
deriving DecidableEq

/-- How long a flow of a protocol may be silent. -/
def timeoutTicks (protocol : UInt8) : ℕ :=
  if protocol = 6 then tcpFlowTimeout
  else if protocol = 17 then udpFlowTimeout
  else defaultFlowTimeout

/-- `is_expired`: silent for as long as its protocol may be. -/
def FlowEntry.isExpired (entry : FlowEntry) (tick : ℕ) : Bool :=
  timeoutTicks entry.protocol ≤ elapsed tick entry.lastSeen

namespace FlowKey

variable (key : FlowKey)

/-- The segments of the other direction. -/
def reverse : FlowKey where
  srcIp := key.dstIp
  dstIp := key.srcIp
  srcPort := key.dstPort
  dstPort := key.srcPort
  protocol := key.protocol

/-- The source is the lower of the two ends. -/
def SourceLower : Prop :=
  key.srcIp.toNat < key.dstIp.toNat ∨
    key.srcIp.toNat = key.dstIp.toNat ∧ key.srcPort.toNat < key.dstPort.toNat

instance (key : FlowKey) : Decidable key.SourceLower := inferInstanceAs (Decidable (_ ∨ _))

/-- The key under which a flow is kept: that of the direction whose source is lower. -/
def normal : FlowKey := if key.SourceLower then key else key.reverse

@[simp] theorem reverse_reverse : key.reverse.reverse = key := rfl

theorem not_sourceLower_reverse {key : FlowKey} (h : key.SourceLower) :
    ¬key.reverse.SourceLower := by
  simp only [SourceLower, reverse] at h ⊢
  omega

/-- A flow with itself, from a port to that port. -/
theorem reverse_eq_self {key : FlowKey} (h : ¬key.SourceLower) (h' : ¬key.reverse.SourceLower) :
    key.reverse = key := by
  simp only [SourceLower, reverse] at h h'
  have hip : key.dstIp = key.srcIp := Ipv4Addr.toNat_injective (by omega)
  have hpo : key.dstPort = key.srcPort := UInt16.toNat_inj.mp (by omega)
  cases key
  cases hip
  cases hpo
  rfl

theorem normal_reverse : key.reverse.normal = key.normal := by
  rw [normal, normal, reverse_reverse]
  by_cases h : key.SourceLower
  · rw [if_pos h, if_neg (not_sourceLower_reverse h)]
  by_cases h' : key.reverse.SourceLower
  · rw [if_neg h, if_pos h']
  · rw [if_neg h, if_neg h', reverse_eq_self h h']

/-- **The two directions of a flow have one key**, and no other flow has it. -/
theorem normal_eq_iff {k l : FlowKey} : k.normal = l.normal ↔ k = l ∨ k = l.reverse := by
  have hse : ∀ k : FlowKey, k.normal = k ∨ k.normal = k.reverse := by
    intro k
    rw [normal]
    split
    · exact Or.inl rfl
    · exact Or.inr rfl
  constructor
  · intro h
    rcases hse k with hk | hk <;> rcases hse l with hl | hl <;> rw [hk, hl] at h
    · exact Or.inl h
    · exact Or.inr h
    · exact Or.inr (by rw [← h, reverse_reverse])
    · exact Or.inl (by rw [← reverse_reverse k, h, reverse_reverse])
  · rintro (rfl | rfl)
    · rfl
    · exact normal_reverse l

@[simp] theorem protocol_normal : key.normal.protocol = key.protocol := by
  rw [normal]
  split <;> rfl

end FlowKey

/-- The flow a packet is of, if it is a segment with ports. -/
def flowOf (header : Ipv4Header) (payload : List UInt8) : Option FlowKey :=
  if hasPorts header then
    (extractPorts payload).map fun ports =>
      ⟨header.source, header.destination, ports.1, ports.2, header.protocol.toU8⟩
  else none

/-! ### The filter -/

/-- The rules in order, and the flows they let through. -/
structure PacketFilter where
  rules : List FilterRule
  nextRuleId : ℕ
  flows : AList fun _ : FlowKey => FlowEntry
  defaultAction : FilterAction
  enabled : Bool
  lastSweep : ℕ

namespace PacketFilter

def new : PacketFilter where
  rules := []
  nextRuleId := 1
  flows := ∅
  defaultAction := .allow
  enabled := false
  lastSweep := 0

variable (f : PacketFilter)

/-- The table with a flow, if it has room. -/
def track (key : FlowKey) (tick : ℕ) : PacketFilter :=
  if size f.flows < maxFilterFlows ∧ f.flows.lookup key = none then
    { f with flows := f.flows.insert key ⟨tick, key.protocol⟩ }
  else f

/-- Walk the rules in order. -/
def walkRules (f : PacketFilter) (direction : FilterDirection) (header : Ipv4Header)
    (payload : List UInt8) (tick : ℕ) : List FilterRule → Bool × PacketFilter
  | [] => (f.defaultAction == .allow, f)
  | rule :: rules =>
    if rule.ruleMatches direction header payload then
      match rule.action with
      | .deny => (false, f)
      | .allow =>
        if rule.stateful && hasPorts header then
          match flowOf header payload with
          | none => (true, f)
          | some key => (true, f.track key.normal tick)
        else (true, f)
    else walkRules f direction header payload tick rules

variable (direction : FilterDirection) (header : Ipv4Header) (payload : List UInt8) (tick : ℕ)

/-- `check_packet`: a known flow passes; otherwise the first matching rule decides. -/
def checkPacket : Bool × PacketFilter :=
  if hasPorts header then
    match flowOf header payload with
    | none => (f.defaultAction == .allow, f)
    | some key =>
      match f.flows.lookup key.normal with
      | some entry =>
        (true, { f with flows := f.flows.insert key.normal { entry with lastSeen := tick } })
      | none => f.walkRules direction header payload tick f.rules
  else f.walkRules direction header payload tick f.rules

/-- Check a packet that arrives or leaves. -/
def check : Bool × PacketFilter :=
  if f.enabled then f.checkPacket direction header payload tick else (true, f)

/-- `sweep_expired`: at most once in `sweepInterval`. -/
def sweepExpired : PacketFilter :=
  if !f.enabled then f
  else if elapsed tick f.lastSweep < sweepInterval then f
  else { f with
    lastSweep := tick
    flows := retain (fun _ entry => !entry.isExpired tick) f.flows }

/-- Add a rule. Its number is the filter's to give. -/
def addRule (rule : FilterRule) : Except Error (ℕ × PacketFilter) :=
  if maxFilterRules ≤ f.rules.length then .error .busy
  else if 32 < rule.srcPrefix ∨ 32 < rule.dstPrefix then .error .invalidArgument
  else .ok (f.nextRuleId, { f with
    nextRuleId := f.nextRuleId + 1
    rules := f.rules ++ [{ rule with id := f.nextRuleId }] })

/-- `remove_rule`. -/
def removeRule (id : ℕ) : PacketFilter :=
  { f with rules := f.rules.filter (·.id ≠ id) }

/-- `disable`: nothing is filtered and no flow is remembered. -/
def disable : PacketFilter := { f with enabled := false, flows := ∅ }

def clear : PacketFilter := { f with rules := [], flows := ∅ }

end PacketFilter

/-! ### What the filter is for -/

/-- When a flow was last seen, of the flows that were admitted. -/
abbrev History := FlowKey → Option ℕ

namespace History

/-- The history with a packet of a flow. Its two directions are one flow. -/
def seen (h : History) (key : FlowKey) (tick : ℕ) : History := fun k =>
  if k = key ∨ k = key.reverse then some tick else h k

/-- A flow was admitted and has not been silent for its timeout. -/
def Fresh (h : History) (key : FlowKey) (tick : ℕ) : Prop :=
  ∃ last, h key = some last ∧ tick - last < timeoutTicks key.protocol

end History

section

variable (f : PacketFilter) (direction : FilterDirection) (header : Ipv4Header)

variable (payload : List UInt8)

/-- The first rule that matches a packet. -/
def PacketFilter.firstMatch : Option FilterRule :=
  f.rules.find? (FilterRule.ruleMatches direction header payload)

/-- What the rules say of a packet. -/
def PacketFilter.ruleAction : FilterAction :=
  match f.firstMatch direction header payload with
  | some rule => rule.action
  | none => f.defaultAction

/-- **The packet passes**: it is of an admitted flow that is not timed out, or the rules allow
it. -/
def Passes (h : History) (direction : FilterDirection) (header : Ipv4Header)
    (payload : List UInt8) (tick : ℕ) : Prop :=
  (∃ key, flowOf header payload = some key ∧ h.Fresh key tick) ∨
    f.ruleAction direction header payload = .allow

open Classical in
/-- **The history after a packet**: a flow is seen if it passed as one of an admitted flow, or if
a stateful rule admits it. -/
noncomputable def noted (h : History) (direction : FilterDirection)
    (header : Ipv4Header) (payload : List UInt8) (tick : ℕ) : History :=
  match flowOf header payload with
  | none => h
  | some key =>
    if h.Fresh key tick ∨ ∃ rule, f.firstMatch direction header payload = some rule ∧
        rule.action = .allow ∧ rule.stateful then h.seen key tick
    else h

end

/-- **A careful packet**: if it is a TCP or UDP segment it has its ports, its flow is not in the
table beyond its timeout, and the table has room if the flow is not in it. -/
structure Careful (f : PacketFilter) (header : Ipv4Header) (payload : List UInt8) (tick : ℕ) :
    Prop where
  ports : hasPorts header → 4 ≤ payload.length
  notExpired : ∀ key entry, flowOf header payload = some key →
    f.flows.lookup key.normal = some entry → entry.isExpired tick = false
  room : ∀ key, flowOf header payload = some key → f.flows.lookup key.normal = none →
    size f.flows < maxFilterFlows

/-- **The runs of a filter**, with the history of its flows and the clock. The rules may change
at any time; a filter that is cleared or disabled forgets its flows. -/
inductive Run : PacketFilter → History → ℕ → Prop
  | new : Run PacketFilter.new (fun _ => none) 0
  | check {f h clock} (direction : FilterDirection) {header : Ipv4Header} {payload : List UInt8}
      {tick : ℕ} : Run f h clock → f.enabled → clock ≤ tick → tick < 2 ^ 64 →
      Careful f header payload tick →
      Run (f.check direction header payload tick).2 (noted f h direction header payload tick) tick
  | sweep {f h clock tick} : Run f h clock → clock ≤ tick → tick < 2 ^ 64 →
      Run (f.sweepExpired tick) h tick
  | addRule {f h clock rule id f'} : Run f h clock → f.addRule rule = .ok (id, f') → Run f' h clock
  | removeRule {f h clock} (id : ℕ) : Run f h clock → Run (f.removeRule id) h clock
  | setDefaultAction {f h clock} (action : FilterAction) : Run f h clock →
      Run { f with defaultAction := action } h clock
  | enable {f h clock} : Run f h clock → Run { f with enabled := true } h clock
  | disable {f h clock} : Run f h clock → Run f.disable (fun _ => none) clock
  | clear {f h clock} : Run f h clock → Run f.clear (fun _ => none) clock

/-! ### The table and the history -/

/-- **The table has the flows of the history** that are not timed out. -/
structure Tracks (flows : AList fun _ : FlowKey => FlowEntry) (h : History) (clock : ℕ) :
    Prop where
  tracked : ∀ key entry, flows.lookup key.normal = some entry →
    h key = some entry.lastSeen ∧ entry.protocol = key.protocol
  timedOut : ∀ key last, h key = some last → flows.lookup key.normal = none →
    timeoutTicks key.protocol ≤ clock - last
  past : ∀ key last, h key = some last → last ≤ clock

section Tracking

variable {flows : AList fun _ : FlowKey => FlowEntry} {h : History} {clock tick : ℕ}
  {key : FlowKey} {entry : FlowEntry}

theorem elapsed_eq {now since : ℕ} (hle : since ≤ now) (hlt : now < 2 ^ 64) :
    elapsed now since = now - since := by
  rw [elapsed, show now + 2 ^ 64 - since = (now - since) + 2 ^ 64 by omega, Nat.add_mod_right,
    Nat.mod_eq_of_lt (by omega)]

theorem tracks_empty (clock : ℕ) : Tracks ∅ (fun _ => none) clock :=
  ⟨fun _ _ he => (nomatch he), fun _ _ hk => (nomatch hk), fun _ _ hk => (nomatch hk)⟩

section Tracking

variable (ht : Tracks flows h clock)

include ht

theorem Tracks.later (hle : clock ≤ tick) : Tracks flows h tick :=
  ⟨ht.tracked, fun key last hk hnone => by have := ht.timedOut key last hk hnone; omega,
    fun key last hk => le_trans (ht.past key last hk) hle⟩

/-- A flow of the table that is not expired is fresh. -/
theorem Tracks.fresh (hlk : flows.lookup key.normal = some entry)
    (hle : clock ≤ tick) (hlt : tick < 2 ^ 64) (hlv : entry.isExpired tick = false) :
    h.Fresh key tick := by
  obtain ⟨hsn, hpro⟩ := ht.tracked key entry hlk
  have hpast := ht.past key _ hsn
  refine ⟨entry.lastSeen, hsn, ?_⟩
  rw [FlowEntry.isExpired, elapsed_eq (by omega) hlt, hpro] at hlv
  simpa using hlv

/-- A flow that is not in the table is not fresh. -/
theorem Tracks.not_fresh (hlk : flows.lookup key.normal = none)
    (hle : clock ≤ tick) : ¬h.Fresh key tick := by
  rintro ⟨last, hsn, hlt⟩
  have := ht.timedOut key last hsn hlk
  omega

/-- **A flow that is seen is in the table and in the history.** -/
theorem Tracks.seen (hle : clock ≤ tick) :
    Tracks (flows.insert key.normal ⟨tick, key.protocol⟩) (h.seen key tick) tick := by
  have hnorm : ∀ k : FlowKey, k = key ∨ k = key.reverse ↔ k.normal = key.normal := fun k =>
    FlowKey.normal_eq_iff.symm
  have hpro : ∀ k : FlowKey, k.normal = key.normal → k.protocol = key.protocol := by
    intro k hk
    rw [← FlowKey.protocol_normal, hk, FlowKey.protocol_normal]
  refine ⟨fun k entry hlk => ?_, fun k last hk hnone => ?_, fun k last hk => ?_⟩
  · by_cases hk : k.normal = key.normal
    · rw [hk, lookup_insert] at hlk
      cases hlk
      exact ⟨if_pos ((hnorm k).mpr hk), (hpro k hk).symm⟩
    · rw [lookup_insert_ne hk] at hlk
      obtain ⟨hsn, hsm⟩ := ht.tracked k entry hlk
      exact ⟨(if_neg fun h => hk ((hnorm k).mp h)).trans hsn, hsm⟩
  · by_cases hkey : k.normal = key.normal
    · rw [hkey, lookup_insert] at hnone
      cases hnone
    rw [lookup_insert_ne hkey] at hnone
    rw [History.seen, if_neg fun h => hkey ((hnorm k).mp h)] at hk
    have := ht.timedOut k last hk hnone
    omega
  · by_cases hkey : k.normal = key.normal
    · rw [History.seen, if_pos ((hnorm k).mpr hkey)] at hk
      cases hk
      exact le_refl _
    · rw [History.seen, if_neg fun h => hkey ((hnorm k).mp h)] at hk
      exact le_trans (ht.past k last hk) hle

/-- **A sweep removes what is timed out.** -/
theorem Tracks.sweep (hle : clock ≤ tick) (hlt : tick < 2 ^ 64) :
    Tracks (retain (fun _ entry => !entry.isExpired tick) flows) h tick := by
  refine ⟨fun k entry hlk => ?_, fun k last hk hnone => ?_,
    fun k last hk => le_trans (ht.past k last hk) hle⟩
  · rw [lookup_retain, Option.filter_eq_some_iff] at hlk
    exact ht.tracked k entry hlk.1
  rw [lookup_retain] at hnone
  rcases hent : flows.lookup k.normal with _ | entry
  · have := ht.timedOut k last hk hent
    omega
  obtain ⟨hsn, hpro⟩ := ht.tracked k entry hent
  obtain rfl : last = entry.lastSeen := Option.some.inj (hk.symm.trans hsn)
  have hxp : entry.isExpired tick = true := by
    rw [hent] at hnone
    simpa using hnone
  rw [FlowEntry.isExpired, elapsed_eq (le_trans (ht.past k _ hk) hle) hlt, hpro] at hxp
  simpa using hxp

end Tracking

end Tracking

/-! ### The verdict -/

section Verdict

variable {f : PacketFilter} {h : History} {clock tick : ℕ} {direction : FilterDirection}
  {header : Ipv4Header} {payload : List UInt8}

/-- **The walk answers the first rule that matches**, and keeps a flow that it admits. -/
theorem walkRules_eq (rules : List FilterRule) : f.walkRules direction header payload tick rules =
      match rules.find? (FilterRule.ruleMatches direction header payload) with
      | none => (f.defaultAction == .allow, f)
      | some rule => (rule.action == .allow, match flowOf header payload with
        | none => f
        | some key =>
          if rule.action = .allow ∧ rule.stateful then f.track key.normal tick else f) := by
  induction rules with
  | nil => rfl
  | cons rule rules ih =>
    rw [PacketFilter.walkRules, List.find?_cons]
    rcases hmat : rule.ruleMatches direction header payload with _ | _
    · simpa using ih
    simp only [if_true]
    have hpor : ∀ key, flowOf header payload = some key → hasPorts header := by
      intro key hkey
      by_contra hno
      rw [flowOf, if_neg hno] at hkey
      cases hkey
    rcases hfl : flowOf header payload with _ | key
    · rcases hact : rule.action with _ | _
      · simp only
        split <;> rfl
      · rfl
    · rcases hact : rule.action with _ | _
      · rw [hpor key hfl]
        rcases hst : rule.stateful with _ | _ <;> simp
      · simp

/-- Where no flow is in the table the rules decide. -/
theorem walkRules_fst : (f.walkRules direction header payload tick f.rules).1 = true ↔
    f.ruleAction direction header payload = .allow := by
  rw [walkRules_eq, PacketFilter.ruleAction, PacketFilter.firstMatch]
  rcases f.rules.find? (FilterRule.ruleMatches direction header payload) with _ | rule
  · exact beq_iff_eq
  · exact beq_iff_eq

/-- A segment with its ports is of a flow. -/
theorem flowOf_of_ports (hpor : hasPorts header = true) (hlen : 4 ≤ payload.length) :
    ∃ key, flowOf header payload = some key := by
  match payload, hlen with
  | a :: b :: c :: d :: rest, _ =>
    exact ⟨⟨header.source, header.destination, be16 a b, be16 c d, header.protocol.toU8⟩, by
      rw [flowOf, if_pos hpor]
      rfl⟩

theorem flowOf_of_not_ports (hpor : ¬hasPorts header = true) :
    flowOf header payload = none := if_neg hpor

/-- **The filter answers the verdict** for a careful packet. -/
theorem checkPacket_fst (ht : Tracks f.flows h clock) (hle : clock ≤ tick) (hlt : tick < 2 ^ 64)
    (hcar : Careful f header payload tick) :
    (f.checkPacket direction header payload tick).1 = true ↔
      Passes f h direction header payload tick := by
  rw [PacketFilter.checkPacket]
  by_cases hpor : hasPorts header = true
  · obtain ⟨key, hfl⟩ := flowOf_of_ports hpor (hcar.ports hpor)
    rw [if_pos hpor, hfl]
    simp only
    rcases hlk : f.flows.lookup key.normal with _ | entry
    · rw [walkRules_fst]
      refine ⟨Or.inr, ?_⟩
      rintro (⟨key', hfl', hfresh⟩ | hallow)
      · cases hfl.symm.trans hfl'
        exact absurd hfresh (ht.not_fresh hlk hle)
      · exact hallow
    · exact iff_of_true rfl (Or.inl ⟨key, hfl,
        ht.fresh hlk hle hlt (hcar.notExpired key entry hfl hlk)⟩)
  · rw [if_neg hpor, walkRules_fst]
    refine ⟨Or.inr, ?_⟩
    rintro (⟨key, hfl, -⟩ | hallow)
    · rw [flowOf_of_not_ports hpor] at hfl
      cases hfl
    · exact hallow

/-- **The table follows the history** over a careful packet. -/
theorem checkPacket_tracks (ht : Tracks f.flows h clock) (hle : clock ≤ tick)
    (hlt : tick < 2 ^ 64) (hcar : Careful f header payload tick) :
    Tracks (f.checkPacket direction header payload tick).2.flows
      (noted f h direction header payload tick) tick := by
  rw [PacketFilter.checkPacket]
  by_cases hpor : hasPorts header = true
  · obtain ⟨key, hfl⟩ := flowOf_of_ports hpor (hcar.ports hpor)
    rw [if_pos hpor, noted, hfl]
    simp only
    rcases hlk : f.flows.lookup key.normal with _ | entry
    · have hstl := ht.not_fresh hlk hle
      have htrack : (f.track key.normal tick).flows =
          f.flows.insert key.normal ⟨tick, key.protocol⟩ := by
        rw [PacketFilter.track, if_pos ⟨hcar.room key hfl hlk, hlk⟩, FlowKey.protocol_normal]
      simp only [hstl, PacketFilter.firstMatch, walkRules_eq, hfl]
      rcases f.rules.find? (FilterRule.ruleMatches direction header payload) with _ | rule
      · simpa using ht.later hle
      by_cases hadm : rule.action = .allow ∧ rule.stateful = true
      · simp only [Option.some.injEq, exists_eq_left', hadm, and_self, if_true]
        rw [htrack]
        exact ht.seen hle
      · simp only [Option.some.injEq, exists_eq_left', hadm]
        exact ht.later hle
    · have hfresh := ht.fresh hlk hle hlt (hcar.notExpired key entry hfl hlk)
      have hpro := (ht.tracked key entry hlk).2
      simp only [hfresh, true_or]
      rw [hpro]
      exact ht.seen hle
  · rw [if_neg hpor, noted, walkRules_eq, flowOf_of_not_ports hpor]
    rcases f.rules.find? (FilterRule.ruleMatches direction header payload) with _ | rule
    · exact ht.later hle
    · exact ht.later hle

end Verdict

theorem Run.tracks {f : PacketFilter} {h : History} {clock : ℕ} (hrun : Run f h clock) :
    Tracks f.flows h clock := by
  induction hrun with
  | new => exact tracks_empty 0
  | check direction _ hen hle hlt hcar ih =>
    rw [PacketFilter.check, if_pos hen]
    exact checkPacket_tracks ih hle hlt hcar
  | @sweep f h clock tick _ hle hlt ih =>
    rw [PacketFilter.sweepExpired]
    split
    · exact ih.later hle
    split
    · exact ih.later hle
    · exact ih.sweep hle hlt
  | addRule _ hadd ih =>
    rw [PacketFilter.addRule] at hadd
    split at hadd
    · cases hadd
    split at hadd
    · cases hadd
    cases hadd
    exact ih
  | removeRule _ _ ih => exact ih
  | setDefaultAction _ _ ih => exact ih
  | enable _ ih => exact ih
  | disable _ _ | clear _ _ => exact tracks_empty _

/-- **The filter answers the verdict**: in every run of careful packets a packet passes exactly
if it is of an admitted flow that is not timed out, or the first rule that matches it allows it,
or none matches and the default does. -/
theorem check_eq_verdict {f : PacketFilter} {h : History} {clock : ℕ} (hrun : Run f h clock)
    (henabled : f.enabled = true) (direction : FilterDirection) {header : Ipv4Header}
    {payload : List UInt8} {tick : ℕ} (hle : clock ≤ tick) (hlt : tick < 2 ^ 64)
    (hcareful : Careful f header payload tick) : (f.check direction header payload tick).1 = true ↔
      Passes f h direction header payload tick := by
  rw [PacketFilter.check, if_pos henabled]
  exact checkPacket_fst hrun.tracks hle hlt hcareful

/-! ### Three packets -/

/-- A header of a protocol between two hosts. -/
def headerOf (protocol : IpProtocol) : Ipv4Header where
  totalLength := 24
  identification := 0
  flagsFragmentOffset := 0
  ttl := 64
  protocol := protocol
  headerChecksum := 0
  source := ⟨10, 0, 0, 1⟩
  destination := ⟨10, 0, 0, 2⟩

/-- A rule for every packet. -/
def ruleForAll (action : FilterAction) (stateful : Bool) : FilterRule where
  id := 1
  action := action
  protocol := 0
  srcAddr := ⟨0, 0, 0, 0⟩
  srcPrefix := 0
  dstAddr := ⟨0, 0, 0, 0⟩
  dstPrefix := 0
  srcPortStart := 0
  srcPortEnd := 0
  dstPortStart := 0
  dstPortEnd := 0
  direction := .both
  stateful := stateful

/-- An enabled filter with one rule. -/
def filterWith (rule : FilterRule) : PacketFilter :=
  { PacketFilter.new with enabled := true, nextRuleId := 2, rules := [{ rule with id := 1 }] }

theorem run_filterWith (rule : FilterRule) (hsrc : rule.srcPrefix ≤ 32)
    (hdst : rule.dstPrefix ≤ 32) : Run (filterWith rule) (fun _ => none) 0 := by
  have hadd : PacketFilter.new.addRule rule = .ok (1, { PacketFilter.new with
      nextRuleId := 2, rules := [{ rule with id := 1 }] }) := by
    rw [PacketFilter.addRule, if_neg (by decide), if_neg (by omega)]
    rfl
  exact Run.enable (Run.addRule Run.new hadd)

theorem check_eq_verdict_deny :
    ((filterWith (ruleForAll .deny false)).check .inbound (headerOf .tcp) [0, 80, 0, 81] 5).1 =
        true ↔ Passes (filterWith (ruleForAll .deny false)) (fun _ => none) .inbound (headerOf .tcp)
        [0, 80, 0, 81] 5 :=
  check_eq_verdict (run_filterWith _ (by decide) (by decide)) rfl .inbound (by decide)
    (by decide) ⟨fun _ => by decide, fun _ _ _ h => (nomatch h), fun _ _ _ => by decide⟩

/-- A filter that has admitted a flow at the first tick and admits no other packet. -/
def admittedOnce : PacketFilter :=
  { (((filterWith (ruleForAll .allow true)).check .outbound (headerOf .udp) [0, 53, 0, 53] 1).2
    ).removeRule 1 with defaultAction := .deny }

/-- **The filter lets pass what the rules deny.** A TCP segment of no bytes passes a filter whose
one rule denies every packet, and a datagram passes as one of a flow that has been silent for its
timeout and that no rule admits any more. -/
theorem check_ne_verdict : (∃ f h clock, Run f h clock ∧ f.enabled = true ∧ clock ≤ 5 ∧
      (f.check .inbound (headerOf .tcp) [] 5).1 = true ∧
      ¬Passes f h .inbound (headerOf .tcp) [] 5) ∧
    ∃ f h clock, Run f h clock ∧ f.enabled = true ∧ clock ≤ 30001 ∧
      (f.check .inbound (headerOf .udp) [0, 53, 0, 53] 30001).1 = true ∧
      ¬Passes f h .inbound (headerOf .udp) [0, 53, 0, 53] 30001 := by
  constructor
  · refine ⟨_, _, _, run_filterWith (ruleForAll .deny false) (by decide) (by decide), rfl,
      by decide, by decide, ?_⟩
    rintro (⟨key, hfl, -⟩ | hallow)
    · cases hfl
    · exact absurd hallow (by decide)
  have hrun : Run admittedOnce _ 1 := Run.setDefaultAction .deny (Run.removeRule 1
    (Run.check .outbound (run_filterWith (ruleForAll .allow true) (by decide) (by decide))
      rfl (by decide) (by decide)
      ⟨fun _ => by decide, fun _ _ _ h => (nomatch h), fun _ _ _ => by decide⟩))
  refine ⟨_, _, _, hrun, rfl, by decide, by decide, ?_⟩
  rintro (⟨key, hfl, last, hsn, hlt⟩ | hallow)
  · obtain rfl : _ = key := Option.some.inj hfl
    have hlk : admittedOnce.flows.lookup
        (FlowKey.normal ⟨⟨10, 0, 0, 1⟩, ⟨10, 0, 0, 2⟩, 53, 53, 17⟩) = some ⟨1, 17⟩ := by
      decide +kernel
    obtain ⟨hfirst, -⟩ := hrun.tracks.tracked _ _ hlk
    obtain rfl : last = 1 := Option.some.inj (hsn.symm.trans hfirst)
    exact absurd hlt (by decide)
  · exact absurd hallow (by decide)

end Protofire.Network.Filter
