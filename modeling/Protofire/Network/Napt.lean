import Protofire.Lib.Table
import Protofire.Network.Ipv4

/-!
# The translation of addresses

The table (`network/internet/nat.rs`) gives every flow that leaves a port of the external address,
and brings what comes back to that port to the host the flow is from. The flows are in one map, by
addresses and ports; the ports in a second one, which leads back to the flows; and the ports in use
in a third.

The packets are bytes, and the flow of a packet is read from them (`flowKey`). The rest of this file
says what the rewriting of a packet does to its flow: the source or the destination is another one,
and nothing else is.
-/

namespace Protofire.Network.Napt

open Splice

def natPortStart : ℕ := 32768

def natPortEnd : ℕ := 60999

def sweepInterval : UInt64 := 3000

def maxNatEntries : ℕ := 1024

/-- What a translated flow is, and how far it has come. -/
inductive NatConnState where
  | tcpNew | tcpEstablished | tcpClosing | udpActive | icmpActive | other
deriving DecidableEq

namespace NatConnState

/-- How long a flow may be silent. -/
def timeoutTicks : NatConnState → UInt64
  | tcpNew => 6000
  | tcpEstablished => 8640000
  | tcpClosing => 12000
  | udpActive => 30000
  | icmpActive => 3000
  | other => 6000

end NatConnState

/-- The addresses, the ports and the protocol of a flow. -/
structure NatKey where
  srcIp : Ipv4Addr
  srcPort : UInt16
  dstIp : Ipv4Addr
  dstPort : UInt16
  protocol : UInt8
deriving DecidableEq

/-- What comes back: the addresses and the ports exchanged. -/
def NatKey.reverse (key : NatKey) : NatKey :=
  ⟨key.dstIp, key.dstPort, key.srcIp, key.srcPort, key.protocol⟩

/-- A translation: who the flow is from, its outside port and its age. -/
structure NatEntry where
  srcIp : Ipv4Addr
  srcPort : UInt16
  xlatePort : UInt16
  state : NatConnState
  lastSeen : UInt64
deriving DecidableEq

/-- The ticks are those of a 64-bit clock, and their difference wraps. -/
def NatEntry.isExpired (entry : NatEntry) (tick : UInt64) : Bool :=
  entry.state.timeoutTicks ≤ tick - entry.lastSeen

/-! ### Packets -/

section

variable (packet : List UInt8) (headerLen : ℕ)

/-- `extract_tcp_udp_ports`. -/
def extractTcpUdpPorts : Option (UInt16 × UInt16) :=
  if packet.length < headerLen + 4 then none
  else some (be16At packet headerLen, be16At packet (headerLen + 2))

/-- The flow of a packet with a header. ICMP has no ports. -/
def natKey (header : Ipv4Header) (headerLen : ℕ) : Option NatKey :=
  let protocol := header.protocol.toU8
  if protocol = 6 ∨ protocol = 17 then
    (extractTcpUdpPorts packet headerLen).map fun ports =>
      ⟨header.source, ports.1, header.destination, ports.2, protocol⟩
  else if protocol = 1 then some ⟨header.source, 0, header.destination, 0, protocol⟩
  else none

/-- The flow of a packet. -/
def flowKey : Option NatKey :=
  (parseIpv4Header packet).bind fun parsed => natKey packet parsed.1 parsed.2

/-- Fold the carries of a sum: `while csum > 0xFFFF`. -/
def foldCarries : ℕ → ℕ → ℕ
  | 0, csum => csum
  | fuel + 1, csum =>
    if 0xFFFF < csum then foldCarries fuel (csum % 2 ^ 16 + csum / 2 ^ 16) else csum

/-- `incremental_checksum_update` by one word. -/
def incrementalChecksumUpdate (oldCsum oldVal newVal : UInt16) : UInt16 :=
  ~~~UInt16.ofNat (foldCarries 2 ((~~~oldCsum).toNat + (~~~oldVal).toNat + newVal.toNat))

/-- The update for an address, two bytes after the other two. -/
def updateIpChecksumAfterSrcChange (oldCsum : UInt16) (oldSrc newSrc : Ipv4Addr) : UInt16 :=
  let csum := incrementalChecksumUpdate oldCsum (be16 oldSrc.a oldSrc.b) (be16 newSrc.a newSrc.b)
  incrementalChecksumUpdate csum (be16 oldSrc.c oldSrc.d) (be16 newSrc.c newSrc.d)

/-- `update_transport_checksum_after_nat`: the address, then the port. -/
def updateTransportChecksumAfterNat (oldCsum oldPort newPort : UInt16) (oldIp newIp : Ipv4Addr) :
    UInt16 :=
  let csum := incrementalChecksumUpdate oldCsum (be16 oldIp.a oldIp.b) (be16 newIp.a newIp.b)
  let csum := incrementalChecksumUpdate csum (be16 oldIp.c oldIp.d) (be16 newIp.c newIp.d)
  incrementalChecksumUpdate csum oldPort newPort

variable (protocol : UInt8)

/-- Where the checksum is in a segment. -/
def csumOffset : ℕ := if protocol = 6 then 16 else 6

/-- A packet with another address, and the checksum of the header brought up to date. -/
def rewriteAddress (off : ℕ) (oldIp newIp : Ipv4Addr) : List UInt8 :=
  let newPacket := splice packet off newIp.bytes
  splice newPacket 10 (beBytes (updateIpChecksumAfterSrcChange (be16At newPacket 10) oldIp newIp))

/-- A packet from the external address. -/
def rewriteSource (srcIp externalIp : Ipv4Addr) (xlatePort : UInt16) : Option (List UInt8) :=
  let newPacket := rewriteAddress packet 12 srcIp externalIp
  if protocol = 6 ∨ protocol = 17 then
    let csumAt := headerLen + csumOffset protocol
    if packet.length < csumAt + 2 then none
    else
      let newPacket := splice newPacket headerLen (beBytes xlatePort)
      some (splice newPacket csumAt (beBytes (updateTransportChecksumAfterNat
        (be16At newPacket csumAt) (be16At packet headerLen) xlatePort srcIp externalIp)))
  else some newPacket

/-- A packet to the host a flow is from. -/
def rewriteDestination
    (dstIp originalIp : Ipv4Addr) (originalPort : UInt16) : Option (List UInt8) :=
  let newPacket := rewriteAddress packet 16 dstIp originalIp
  if protocol = 6 ∨ protocol = 17 then
    let csumAt := headerLen + csumOffset protocol
    if packet.length < csumAt + 2 then none
    else
      let newPacket := splice newPacket (headerLen + 2) (beBytes originalPort)
      -- a datagram without a checksum stays without one
      if be16At newPacket csumAt = 0 then some newPacket
      else some (splice newPacket csumAt (beBytes (updateTransportChecksumAfterNat
        (be16At newPacket csumAt) (be16At packet (headerLen + 2)) originalPort dstIp originalIp)))
  else some newPacket

end

/-! ### The table -/

/-- The translations, by flow and by outside port, and the ports in use. -/
structure NatTable where
  entries : AList fun _ : NatKey => NatEntry
  xlateToKey : AList fun _ : UInt16 => NatKey
  allocatedPorts : AList fun _ : UInt16 => Unit
  externalIp : Ipv4Addr
  lastSweep : UInt64
  enabled : Bool

namespace NatTable

def new : NatTable where
  entries := ∅
  xlateToKey := ∅
  allocatedPorts := ∅
  externalIp := ⟨0, 0, 0, 0⟩
  lastSweep := 0
  enabled := false

variable (t : NatTable)

/-- `enable`. -/
def enable (externalIp : Ipv4Addr) : NatTable :=
  { t with externalIp := externalIp, enabled := true }

/-- The first port of the range that is not in use. -/
def allocXlatePort : Option (UInt16 × NatTable) :=
  if maxNatEntries ≤ Table.size t.entries then none
  else
    (((List.range' natPortStart (natPortEnd + 1 - natPortStart)).map UInt16.ofNat).find?
      fun port => t.allocatedPorts.lookup port = none).map fun port =>
        (port, { t with allocatedPorts := t.allocatedPorts.insert port () })

variable (key : NatKey)

/-- The port of a flow, which is given one if it is new. -/
def translate (tick : UInt64) : Option (UInt16 × NatTable) :=
  match t.entries.lookup key with
  | some entry =>
    some (entry.xlatePort, { t with
      entries := t.entries.insert key { entry with lastSeen := tick } })
  | none =>
    t.allocXlatePort.map fun (port, t) => (port, { t with
      entries := t.entries.insert key {
        srcIp := key.srcIp
        srcPort := key.srcPort
        xlatePort := port
        state := if key.protocol = 6 then .tcpNew
          else if key.protocol = 17 then .udpActive else .icmpActive
        lastSeen := tick }
      xlateToKey := t.xlateToKey.insert port key })

variable (packet : List UInt8) (tick : UInt64)

/-- `snat_ipv4`: a packet on its way out. -/
def snatIpv4 : Option (List UInt8) × NatTable :=
  if !t.enabled then (none, t)
  else
    match parseIpv4Header packet with
    | none => (none, t)
    | some (header, headerLen) =>
      if header.totalLength.toNat ≠ packet.length then (none, t)
      else
        match natKey packet header headerLen with
        | none => (none, t)
        | some key =>
          match t.translate key tick with
          | none => (none, t)
          | some (xlatePort, t) =>
            (rewriteSource packet headerLen key.protocol key.srcIp t.externalIp xlatePort, t)

/-- The entry of a flow that something came back for. -/
def touched (entry : NatEntry) (tick : UInt64) : NatEntry :=
  { entry with
    lastSeen := tick
    state := if entry.state = .tcpNew then .tcpEstablished else entry.state }

/-- `dnat_ipv4`: a packet on its way in, by the outside port. -/
def dnatIpv4 : Option (List UInt8) × NatTable :=
  if !t.enabled then (none, t)
  else
    match parseIpv4Header packet with
    | none => (none, t)
    | some (header, headerLen) =>
      if header.destination ≠ t.externalIp then (none, t)
      else
        match natKey packet header headerLen with
        | none => (none, t)
        | some incoming =>
          match t.xlateToKey.lookup incoming.dstPort with
          | none => (none, t)
          | some key =>
            match t.entries.lookup key with
            | none => (none, t)
            | some entry =>
              (rewriteDestination packet headerLen incoming.protocol incoming.dstIp entry.srcIp
                  entry.srcPort,
                { t with entries := t.entries.insert key (touched entry tick) })

/-- Forget a flow and give its port back. -/
def removeFlow : NatTable :=
  match t.entries.lookup key with
  | none => t
  | some entry => { t with
      entries := t.entries.erase key
      xlateToKey := t.xlateToKey.erase entry.xlatePort
      allocatedPorts := t.allocatedPorts.erase entry.xlatePort }

/-- `sweep_expired`: at most once in `sweepInterval`. -/
def sweepExpired : NatTable :=
  if tick - t.lastSweep < sweepInterval then t
  else
    let expired := (t.entries.entries.filter fun e => e.2.isExpired tick).map Sigma.fst
    expired.foldl removeFlow { t with lastSweep := tick }

/-- Change the state of a TCP flow. -/
def setState (state : NatConnState → NatConnState) : NatTable :=
  match t.entries.lookup key with
  | none => t
  | some entry => { t with
      entries := t.entries.insert key { entry with state := state entry.state } }

/-- `promote_tcp_to_established`. -/
def promoteTcpToEstablished (srcIp : Ipv4Addr) (srcPort : UInt16) (dstIp : Ipv4Addr)
    (dstPort : UInt16) : NatTable :=
  t.setState ⟨srcIp, srcPort, dstIp, dstPort, 6⟩ fun state =>
    if state = .tcpNew then .tcpEstablished else state

/-- `mark_tcp_closing`. -/
def markTcpClosing (srcIp : Ipv4Addr) (srcPort : UInt16) (dstIp : Ipv4Addr)
    (dstPort : UInt16) : NatTable :=
  t.setState ⟨srcIp, srcPort, dstIp, dstPort, 6⟩ fun _ => .tcpClosing

end NatTable

/-! ### What a rewritten packet is -/

/-- A TCP or UDP segment with its ports behind a header. -/
structure Segment (data : List UInt8) (headerLen : ℕ) : Prop where
  version : (byteAt data 0).toNat / 16 = 4
  length : headerLen = (byteAt data 0).toNat % 16 * 4
  min : 20 ≤ headerLen
  fits : headerLen + 4 ≤ data.length
  protocol : byteAt data 9 = 6 ∨ byteAt data 9 = 17

/-- The flow of a segment, byte by byte. -/
def keyAt (data : List UInt8) (headerLen : ℕ) : NatKey :=
  ⟨addrAt data 12, be16At data headerLen, addrAt data 16, be16At data (headerLen + 2),
    byteAt data 9⟩

section Segment

variable {data data' : List UInt8} {headerLen : ℕ} {key : NatKey}

theorem Segment.flowKey (h : Segment data headerLen) :
    flowKey data = some (keyAt data headerLen) := by
  have hprs := parseIpv4Header_eq_some.mpr
    ⟨h.version, h.length, h.min, le_trans (Nat.le_add_right _ _) h.fits, rfl⟩
  rw [Napt.flowKey, hprs, Option.bind_some, natKey]
  simp only [IpProtocol.toU8_fromU8]
  rw [if_pos h.protocol, extractTcpUdpPorts, if_neg (not_lt.mpr h.fits)]
  rfl

/-- The flow of a packet is one of a segment, but for ICMP. -/
theorem segment_of_natKey {header : Ipv4Header}
    (hprs : parseIpv4Header data = some (header, headerLen))
    (hkey : natKey data header headerLen = some key) (hicmp : key.protocol ≠ 1) :
    Segment data headerLen ∧ key = keyAt data headerLen := by
  obtain ⟨hver, hln, hmin, -, rfl⟩ := parseIpv4Header_eq_some.mp hprs
  rw [natKey] at hkey
  simp only [IpProtocol.toU8_fromU8] at hkey
  split at hkey
  · rename_i hpro
    rw [extractTcpUdpPorts] at hkey
    split at hkey
    · cases hkey
    rename_i hft
    cases hkey
    exact ⟨⟨hver, hln, hmin, Nat.le_of_not_lt hft, hpro⟩, rfl⟩
  · split at hkey
    · rename_i hone
      cases hkey
      exact absurd hone hicmp
    · cases hkey

theorem Segment.congr (h : Segment data headerLen) (hlen : data'.length = data.length)
    (hzero : byteAt data' 0 = byteAt data 0) (hnine : byteAt data' 9 = byteAt data 9) :
    Segment data' headerLen := by
  obtain ⟨hver, hln, hmin, hft, hpro⟩ := h
  exact ⟨by rwa [hzero], by rwa [hzero], hmin, by rwa [hlen], by rwa [hnine]⟩

end Segment

section Rewrite

variable {packet new : List UInt8} {off headerLen : ℕ} {oldIp newIp : Ipv4Addr} {port : UInt16}

section Rewriting

variable (hlen : 20 ≤ packet.length)

include hlen

section Off

variable (hoff : off + 4 ≤ 20)
include hoff

theorem length_rewriteAddress : (rewriteAddress packet off oldIp newIp).length = packet.length := by
  have hfirst : (splice packet off newIp.bytes).length = packet.length :=
    length_splice (show off + 4 ≤ _ by omega)
  rw [rewriteAddress, length_splice (by rw [hfirst]; exact le_trans (by decide : 12 ≤ 20) hlen),
    hfirst]

/-- A byte that is neither in the address nor in the checksum. -/
theorem byteAt_rewriteAddress {i : ℕ} (hi : (i < off ∨ off + 4 ≤ i) ∧ (i < 10 ∨ 12 ≤ i)) :
    byteAt (rewriteAddress packet off oldIp newIp) i = byteAt packet i := by
  have hwr : off + newIp.bytes.length ≤ packet.length := show off + 4 ≤ _ by omega
  rw [rewriteAddress, byteAt_splice_of_apart _ hi.2, byteAt_splice_of_apart hwr hi.1]
  rw [length_splice hwr]
  exact le_trans (by decide : 12 ≤ 20) hlen

theorem be16At_rewriteAddress {i : ℕ} (hi : 20 ≤ i) : be16At (rewriteAddress packet off oldIp
    newIp) i = be16At packet i := by
  rw [be16At, byteAt_rewriteAddress hlen hoff (by omega),
    byteAt_rewriteAddress hlen hoff (by omega), be16At]

theorem addrAt_rewriteAddress_of_apart {i : ℕ} (hi : (i + 4 ≤ off ∨ off + 4 ≤ i) ∧ 12 ≤ i) :
    addrAt (rewriteAddress packet off oldIp newIp) i = addrAt packet i := by
  simp (disch := omega) only [addrAt, byteAt_rewriteAddress hlen hoff]

theorem addrAt_rewriteAddress_self (hoff' : 12 ≤ off) : addrAt (rewriteAddress packet off oldIp
    newIp) off = newIp := by
  have hwr : off + newIp.bytes.length ≤ packet.length := show off + 4 ≤ _ by omega
  rw [rewriteAddress, addrAt_splice_of_apart _ (Or.inr hoff'), addrAt_splice_self (by omega)]
  rw [length_splice hwr]
  exact le_trans (by decide : 12 ≤ 20) hlen

end Off

end Rewriting

section Rewritten

variable (h : Segment packet headerLen)

include h

theorem Segment.length_le : 20 ≤ packet.length :=
  le_trans h.min (le_trans (Nat.le_add_right _ _) h.fits)

theorem Segment.rewriteAddress (hoff : off + 4 ≤ 20)
    (hoff' : 12 ≤ off) : Segment (rewriteAddress packet off oldIp newIp) headerLen := by
  have hlen := h.length_le
  exact h.congr (length_rewriteAddress hlen hoff) (byteAt_rewriteAddress hlen hoff (by omega))
    (byteAt_rewriteAddress hlen hoff (by omega))

/-- Another source. -/
theorem keyAt_rewriteAddress_source : keyAt (rewriteAddress packet 12 oldIp newIp) headerLen =
      { keyAt packet headerLen with srcIp := newIp } := by
  have hmin := h.min
  have hlen := h.length_le
  simp (disch := omega) only [keyAt, addrAt_rewriteAddress_self hlen,
    addrAt_rewriteAddress_of_apart hlen, be16At_rewriteAddress hlen, byteAt_rewriteAddress hlen]

/-- Another destination. -/
theorem keyAt_rewriteAddress_destination : keyAt (rewriteAddress packet 16 oldIp newIp) headerLen =
      { keyAt packet headerLen with dstIp := newIp } := by
  have hmin := h.min
  have hlen := h.length_le
  simp (disch := omega) only [keyAt, addrAt_rewriteAddress_self hlen,
    addrAt_rewriteAddress_of_apart hlen, be16At_rewriteAddress hlen, byteAt_rewriteAddress hlen]

theorem Segment.splice (hoff : headerLen ≤ off) (hft : off + 2 ≤ packet.length) :
    Segment (splice packet off (beBytes port)) headerLen := by
  have hwr : off + (beBytes port).length ≤ packet.length := hft
  have hmin := h.min
  exact h.congr (length_splice hwr) (byteAt_splice_of_apart hwr (by omega))
    (byteAt_splice_of_apart hwr (by omega))

/-- Another source port. -/
theorem keyAt_splice_source : keyAt (splice packet headerLen (beBytes port)) headerLen =
      { keyAt packet headerLen with srcPort := port } := by
  have hft := h.fits
  have hmin := h.min
  have hwr : headerLen + (beBytes port).length ≤ packet.length :=
    show headerLen + 2 ≤ _ by omega
  have hlen : (beBytes port).length = 2 := rfl
  simp (disch := omega) only [keyAt, be16At_splice_self, be16At_splice_of_apart hwr,
    addrAt_splice_of_apart hwr, byteAt_splice_of_apart hwr]

/-- Another destination port. -/
theorem keyAt_splice_destination : keyAt (splice packet (headerLen + 2) (beBytes port)) headerLen =
      { keyAt packet headerLen with dstPort := port } := by
  have hft := h.fits
  have hmin := h.min
  have hwr : headerLen + 2 + (beBytes port).length ≤ packet.length :=
    show headerLen + 2 + 2 ≤ _ by omega
  simp (disch := omega) only [keyAt, be16At_splice_self, be16At_splice_of_apart hwr,
    addrAt_splice_of_apart hwr, byteAt_splice_of_apart hwr]

/-- Two bytes behind the ports. -/
theorem keyAt_splice_of_le (hoff : headerLen + 4 ≤ off) (hft : off + 2 ≤ packet.length) :
    keyAt (splice packet off (beBytes port)) headerLen = keyAt packet headerLen := by
  have hmin := h.min
  have hwr : off + (beBytes port).length ≤ packet.length := hft
  simp (disch := omega) only [keyAt, be16At_splice_of_apart hwr,
    addrAt_splice_of_apart hwr, byteAt_splice_of_apart hwr]

end Rewritten

/-- The checksum is behind the ports. -/
theorem six_le_csumOffset (protocol : UInt8) : 6 ≤ csumOffset protocol := by
  rw [csumOffset]
  split <;> decide

/-- **A packet from the external address** is one of the flow with that source. -/
theorem flowKey_rewriteSource {q : List UInt8} (h : Segment packet headerLen)
    (hq : rewriteSource packet headerLen (byteAt packet 9) oldIp newIp port = some q) :
    flowKey q = some { keyAt packet headerLen with srcIp := newIp, srcPort := port } := by
  have haddr : Segment (rewriteAddress packet 12 oldIp newIp) headerLen :=
    h.rewriteAddress (by omega) (by omega)
  have hln : (Napt.rewriteAddress packet 12 oldIp newIp).length = packet.length :=
    length_rewriteAddress h.length_le (by omega)
  have hcsum := six_le_csumOffset (byteAt packet 9)
  simp only [rewriteSource] at hq
  rw [if_pos h.protocol] at hq
  split at hq
  · cases hq
  cases hq
  have hpo : Segment (splice (rewriteAddress packet 12 oldIp newIp) headerLen
      (beBytes port)) headerLen := haddr.splice (le_refl _) (by omega)
  have hln' : (splice (rewriteAddress packet 12 oldIp newIp) headerLen
      (beBytes port)).length = packet.length := by
    rw [length_splice (show headerLen + 2 ≤ _ by omega), hln]
  rw [(hpo.splice (by omega) (by omega)).flowKey,
    keyAt_splice_of_le hpo (by omega) (by omega), keyAt_splice_source haddr,
    keyAt_rewriteAddress_source h]

/-- **A packet to the host of a flow** is one with that destination. -/
theorem flowKey_rewriteDestination {r : List UInt8} (h : Segment packet headerLen)
    (hr : rewriteDestination packet headerLen (byteAt packet 9) oldIp newIp port = some r) :
    flowKey r = some { keyAt packet headerLen with dstIp := newIp, dstPort := port } := by
  have haddr : Segment (rewriteAddress packet 16 oldIp newIp) headerLen :=
    h.rewriteAddress (by omega) (by omega)
  have hln : (Napt.rewriteAddress packet 16 oldIp newIp).length = packet.length :=
    length_rewriteAddress h.length_le (by omega)
  have hcsum := six_le_csumOffset (byteAt packet 9)
  simp only [rewriteDestination] at hr
  rw [if_pos h.protocol] at hr
  split at hr
  · cases hr
  have hpo : Segment (splice (rewriteAddress packet 16 oldIp newIp) (headerLen + 2)
      (beBytes port)) headerLen := haddr.splice (Nat.le_add_right _ _) (by omega)
  have hkey : keyAt (splice (rewriteAddress packet 16 oldIp newIp) (headerLen + 2)
      (beBytes port)) headerLen =
        { keyAt packet headerLen with dstIp := newIp, dstPort := port } := by
    rw [keyAt_splice_destination haddr, keyAt_rewriteAddress_destination h]
  have hln' : (splice (rewriteAddress packet 16 oldIp newIp) (headerLen + 2)
      (beBytes port)).length = packet.length := by
    rw [length_splice (show headerLen + 2 + 2 ≤ _ by omega), hln]
  split at hr <;> cases hr
  · rw [hpo.flowKey, hkey]
  rw [(hpo.splice (by omega) (by omega)).flowKey,
    keyAt_splice_of_le hpo (by omega) (by omega), hkey]

end Rewrite

end Protofire.Network.Napt
