import Protofire.Lib.Splice

/-!
# The header of an IPv4 packet

The addresses, the protocols and the fields of the header (`network/internet/ipv4.rs`) that the
packet filter, the address translation and the reassembly of fragments look at.
-/

namespace Protofire.Network

/-- An address, in the order its bytes are sent. -/
structure Ipv4Addr where
  a : UInt8
  b : UInt8
  c : UInt8
  d : UInt8
deriving DecidableEq

namespace Ipv4Addr

/-- The address as a number. -/
def toNat (x : Ipv4Addr) : ℕ :=
  ((x.a.toNat * 256 + x.b.toNat) * 256 + x.c.toNat) * 256 + x.d.toNat

theorem toNat_injective {x y : Ipv4Addr} (h : x.toNat = y.toNat) : x = y := by
  have hb := x.b.toNat_lt
  have hc := x.c.toNat_lt
  have hd := x.d.toNat_lt
  have hb' := y.b.toNat_lt
  have hc' := y.c.toNat_lt
  have hd' := y.d.toNat_lt
  simp only [toNat] at h
  cases x
  congr 1 <;> apply UInt8.toNat_inj.mp <;> simp only at * <;> omega

end Ipv4Addr

/-- Transport protocols the stack knows by name. -/
inductive IpProtocol where
  | icmp | igmp | tcp | udp | dccp | esp | ah | sctp
  | unknown (value : UInt8)
deriving DecidableEq

namespace IpProtocol

/-- `from_u8`: every other number is kept as it is. -/
def fromU8 (value : UInt8) : IpProtocol :=
  match value.toNat with
  | 1 => icmp
  | 2 => igmp
  | 6 => tcp
  | 17 => udp
  | 33 => dccp
  | 50 => esp
  | 51 => ah
  | 132 => sctp
  | _ => unknown value

/-- `to_u8`. -/
def toU8 : IpProtocol → UInt8
  | icmp => 1
  | igmp => 2
  | tcp => 6
  | udp => 17
  | dccp => 33
  | esp => 50
  | ah => 51
  | sctp => 132
  | unknown value => value

theorem toU8_fromU8 (value : UInt8) : (fromU8 value).toU8 = value := by
  rw [fromU8]
  split <;> rename_i h <;> first | rfl | exact UInt8.toNat_inj.mp h.symm

end IpProtocol

/-- The fields of a header, in the order they go over the wire. -/
structure Ipv4Header where
  totalLength : UInt16
  identification : UInt16
  flagsFragmentOffset : UInt16
  ttl : UInt8
  protocol : IpProtocol
  headerChecksum : UInt16
  source : Ipv4Addr
  destination : Ipv4Addr
deriving DecidableEq

/-- Two bytes as they are sent. -/
def be16 (high low : UInt8) : UInt16 := UInt16.ofNat (high.toNat * 256 + low.toNat)

/-! ### Headers as bytes -/

open Splice

/-- A header without options. -/
def ipv4MinHeaderSize : ℕ := 20

section

variable (data : List UInt8)

/-- The byte at a place. -/
def byteAt (i : ℕ) : UInt8 := data[i]?.getD 0

/-- The two bytes at a place. -/
def be16At (i : ℕ) : UInt16 := be16 (byteAt data i) (byteAt data (i + 1))

/-- The address at a place. -/
def addrAt (i : ℕ) : Ipv4Addr :=
  ⟨byteAt data i, byteAt data (i + 1), byteAt data (i + 2), byteAt data (i + 3)⟩

/-- A number as two bytes. -/
def beBytes (value : UInt16) : List UInt8 :=
  [UInt8.ofNat (value.toNat / 256), UInt8.ofNat (value.toNat % 256)]

/-- An address as four bytes. -/
def Ipv4Addr.bytes (x : Ipv4Addr) : List UInt8 := [x.a, x.b, x.c, x.d]

/-- The header alone, with its length; neither its checksum nor the length of the packet is
looked at. -/
def parseIpv4Header : Option (Ipv4Header × ℕ) :=
  if data.length < ipv4MinHeaderSize then none
  else if (byteAt data 0).toNat / 16 ≠ 4 then none
  else
    let headerLen := (byteAt data 0).toNat % 16 * 4
    if headerLen < ipv4MinHeaderSize ∨ data.length < headerLen then none
    else some ({
      totalLength := be16At data 2
      identification := be16At data 4
      flagsFragmentOffset := be16At data 6
      ttl := byteAt data 8
      protocol := .fromU8 (byteAt data 9)
      headerChecksum := be16At data 10
      source := addrAt data 12
      destination := addrAt data 16 }, headerLen)

end

section Bytes

variable {data new : List UInt8} {off i : ℕ}

section Spliced

variable (h : off + new.length ≤ data.length)

include h

theorem byteAt_splice : byteAt (splice data off new) i =
    if off ≤ i ∧ i < off + new.length then byteAt new (i - off) else byteAt data i := by
  rw [byteAt, getElem?_splice h]
  split <;> rfl

/-- A byte beside what is written. -/
theorem byteAt_splice_of_apart (hi : i < off ∨ off + new.length ≤ i) : byteAt (splice data off new)
    i = byteAt data i := by
  rw [byteAt_splice h, if_neg (by omega)]

theorem be16At_splice_of_apart (hi : i + 2 ≤ off ∨ off + new.length ≤ i) :
    be16At (splice data off new) i = be16At data i := by
  rw [be16At, byteAt_splice_of_apart h (by omega), byteAt_splice_of_apart h (by omega), be16At]

theorem addrAt_splice_of_apart (hi : i + 4 ≤ off ∨ off + new.length ≤ i) :
    addrAt (splice data off new) i = addrAt data i := by
  simp (disch := omega) only [addrAt, byteAt_splice_of_apart h]

end Spliced

theorem be16At_beBytes (value : UInt16) : be16At (beBytes value) 0 = value := by
  have hlt := value.toNat_lt
  have hhigh : (UInt8.ofNat (value.toNat / 256)).toNat = value.toNat / 256 := by
    rw [UInt8.toNat_ofNat']
    omega
  have hlow : (UInt8.ofNat (value.toNat % 256)).toNat = value.toNat % 256 := by
    rw [UInt8.toNat_ofNat']
    omega
  show be16 (UInt8.ofNat (value.toNat / 256)) (UInt8.ofNat (value.toNat % 256)) = value
  rw [be16, hhigh, hlow, Nat.div_add_mod', UInt16.ofNat_toNat]

/-- What is written is what is there. -/
theorem be16At_splice_self {value : UInt16} (h : off + 2 ≤ data.length) :
    be16At (splice data off (beBytes value)) off = value := by
  have h' : off + (beBytes value).length ≤ data.length := h
  have hlen : (beBytes value).length = 2 := rfl
  rw [be16At, byteAt_splice h', byteAt_splice h', if_pos (by omega), if_pos (by omega),
    Nat.sub_self, Nat.add_sub_cancel_left]
  exact be16At_beBytes value

theorem addrAt_splice_self {x : Ipv4Addr} (h : off + 4 ≤ data.length) :
    addrAt (splice data off x.bytes) off = x := by
  have h' : off + x.bytes.length ≤ data.length := h
  have hlen : x.bytes.length = 4 := rfl
  simp (disch := omega) only [addrAt, byteAt_splice h', if_pos, Nat.sub_self,
    Nat.add_sub_cancel_left]
  rfl

/-- **When a header is read**, and what it says. -/
theorem parseIpv4Header_eq_some {header : Ipv4Header} {headerLen : ℕ} :
    parseIpv4Header data = some (header, headerLen) ↔
      (byteAt data 0).toNat / 16 = 4 ∧ headerLen = (byteAt data 0).toNat % 16 * 4 ∧
      ipv4MinHeaderSize ≤ headerLen ∧ headerLen ≤ data.length ∧
      header = ⟨be16At data 2, be16At data 4, be16At data 6, byteAt data 8,
        .fromU8 (byteAt data 9), be16At data 10, addrAt data 12, addrAt data 16⟩ := by
  simp only [parseIpv4Header]
  constructor
  · intro h
    split at h
    · cases h
    split at h
    · cases h
    split at h
    · cases h
    cases Option.some.inj h
    exact ⟨by omega, rfl, by omega, by omega, rfl⟩
  · rintro ⟨hver, rfl, hmin, hlen, rfl⟩
    rw [if_neg (by omega), if_neg (by omega), if_neg (by omega)]

end Bytes

end Protofire.Network
