import Protofire.Kernel.Block
import Protofire.Lib.Bitmap
import Protofire.Lib.Bytes
import Protofire.Network.Ipv4

/-!
# The sequence numbers of ESP

What `network/ipsec` does with the packets of one association for ESP. A packet that leaves takes
the next number, and its payload is encrypted under a nonce made of the number (`esp.rs`). One that
arrives is opened first, and then its number is looked up in the window of those seen. The ciphers
are parameters, and the headers around a payload are left out.
-/

namespace Protofire.Network.Ipsec

open List

/-- The ciphers a security association may name. -/
inductive AeadAlgo where
  | aes128Gcm | chaCha20Poly1305

inductive IpsecMode where
  | transport | tunnel

/-- A security association: its keys, its counter and its replay window. -/
structure IpsecSa where
  spi : ℕ
  mode : IpsecMode
  aead : Option AeadAlgo
  encKey : List UInt8
  salt : List UInt8
  seqCounter : ℕ := 0
  replayWindow : BitVec 64 := 0
  replayLast : ℕ := 0
  packetsIn : ℕ := 0
  bytesIn : ℕ := 0

/-- `next_seq`. -/
def IpsecSa.nextSeq (sa : IpsecSa) : IpsecSa :=
  { sa with seqCounter := (sa.seqCounter + 1) % 2 ^ 64 }

/-- `u32::from_be_bytes` of the four bytes at a place. -/
def be32At (data : List UInt8) (i : ℕ) : ℕ :=
  (be16At data i).toNat * 2 ^ 16 + (be16At data (i + 2)).toNat

/-- `to_be_bytes` of a number as `u32`. -/
def be32Bytes (n : ℕ) : List UInt8 := [3, 2, 1, 0].map (Bytes.leByte n)

theorem be32Bytes_inj {n m : ℕ} : be32Bytes n = be32Bytes m ↔ n % 2 ^ 32 = m % 2 ^ 32 := by
  simp [be32Bytes, ← UInt8.toNat_inj, Bytes.toNat_leByte]
  omega

/-- `key_len`. -/
def AeadAlgo.keyLen : AeadAlgo → ℕ
  | aes128Gcm => 16
  | chaCha20Poly1305 => 32

/-- The word between the salt and the number. -/
def AeadAlgo.word : AeadAlgo → ℕ
  | aes128Gcm => 0
  | chaCha20Poly1305 => 1

/-- `build_nonce`: four bytes of salt, the word of the algorithm and the number. -/
def buildNonce (salt : List UInt8) (algo : AeadAlgo) (seq : ℕ) : Option (List UInt8) :=
  if salt.length < 4 then none else some (salt.take 4 ++ be32Bytes algo.word ++ be32Bytes seq)

variable (encrypt : AeadAlgo → (key nonce aad plaintext : List UInt8) → List UInt8 × List UInt8)

/-- The payload, with the nonce it is encrypted under; every failure is `InvalidArgument`. -/
def buildEspPayload (sa : IpsecSa) (seq : ℕ) (inner : List UInt8) (nextHeader : UInt8) :
    Option (List UInt8 × List UInt8) :=
  sa.aead.bind fun algo => (buildNonce sa.salt algo seq).bind fun nonce =>
    if sa.encKey.length ≠ algo.keyLen then none
    else
      let padLen := (4 - (inner.length + 2) % 4) % 4
      let plaintext := inner ++ replicate padLen 0 ++ [UInt8.ofNat padLen, nextHeader]
      let aad := be32Bytes sa.spi ++ be32Bytes seq
      let (ciphertext, tag) := encrypt algo sa.encKey nonce aad plaintext
      some (nonce, aad ++ ciphertext ++ tag)

/-! ### Packets that leave -/

/-- A datagram handed to the output path. -/
structure Outgoing where
  v6 : Bool
  protocol : UInt8
  payload : List UInt8
  rawIp : List UInt8
  mtu : ℕ

/-- `process_outbound_v4` and `process_outbound_v6` once the association is found. A packet that is
too long is dropped, and one whose payload cannot be built is sent with none. -/
def processOutbound (sa : IpsecSa) (p : Outgoing) :
    Option (Option (List UInt8 × List UInt8)) × IpsecSa :=
  let sa := sa.nextSeq
  if p.mtu < p.rawIp.length + (8 + 16 + 16) then (none, sa)
  else (some (match sa.mode with
    | .transport => buildEspPayload encrypt sa sa.seqCounter p.payload p.protocol
    | .tunnel => buildEspPayload encrypt sa sa.seqCounter p.rawIp (if p.v6 then 41 else 4)), sa)

/-- The association after some packets. -/
def after (sa : IpsecSa) (ps : List Outgoing) : IpsecSa :=
  ps.foldl (fun sa p => (processOutbound encrypt sa p).2) sa

/-- A packet takes one number, whether it is sent or not. -/
theorem after_eq {sa : IpsecSa} (hlt : sa.seqCounter < 2 ^ 64) (ps : List Outgoing) :
    after encrypt sa ps = { sa with seqCounter := (sa.seqCounter + ps.length) % 2 ^ 64 } := by
  induction ps generalizing sa with
  | nil => rw [length_nil, Nat.add_zero, Nat.mod_eq_of_lt hlt]; rfl
  | cons p ps ih =>
    have hst : (processOutbound encrypt sa p).2 = sa.nextSeq := by
      rw [processOutbound]
      split_ifs <;> rfl
    have hnx : sa.nextSeq.seqCounter < 2 ^ 64 := Nat.mod_lt _ (by decide)
    have hseq : (sa.nextSeq.seqCounter + ps.length) % 2 ^ 64 =
        (sa.seqCounter + (p :: ps).length) % 2 ^ 64 := by
      simp only [IpsecSa.nextSeq, length_cons]
      omega
    rw [after, foldl_cons, hst, ← hseq]
    exact ih hnx

variable {encrypt}

/-- What a payload is encrypted under, and the number it carries. -/
theorem of_processOutbound {sa : IpsecSa} {p : Outgoing} {x payload : List UInt8}
    (hsent : (processOutbound encrypt sa p).1 = some (some (x, payload))) :
    ∃ algo, sa.aead = some algo ∧
      x = sa.salt.take 4 ++ be32Bytes algo.word ++ be32Bytes sa.nextSeq.seqCounter ∧
      (payload.drop 4).take 4 = be32Bytes sa.nextSeq.seqCounter := by
  have hbuilt : ∃ inner nextHeader, buildEspPayload encrypt sa.nextSeq sa.nextSeq.seqCounter inner
      nextHeader = some (x, payload) := by
    rw [processOutbound] at hsent
    split at hsent
    · cases hsent
    simp only [Option.some.injEq] at hsent
    split at hsent <;> exact ⟨_, _, hsent⟩
  obtain ⟨inner, nextHeader, hbuilt⟩ := hbuilt
  simp only [buildEspPayload, buildNonce, Option.bind_eq_some_iff] at hbuilt
  obtain ⟨algo, haead, nonce, hnonce, hpayload⟩ := hbuilt
  split_ifs at hnonce hpayload
  cases hnonce
  cases hpayload
  exact ⟨algo, haead, rfl, rfl⟩

/-- **Nonces and numbers come again after 2³² packets**, and not before. -/
theorem nonce_eq_iff {sa : IpsecSa} {ps qs : List Outgoing} {p q : Outgoing}
    {x y payload payload' : List UInt8} (hfresh : sa.seqCounter = 0)
    (hp : (processOutbound encrypt (after encrypt sa ps) p).1 = some (some (x, payload)))
    (hq : (processOutbound encrypt (after encrypt sa (ps ++ p :: qs)) q).1 =
      some (some (y, payload'))) : (x = y ↔ 2 ^ 32 ∣ qs.length + 1) ∧
      ((payload.drop 4).take 4 = be32Bytes 0 ↔ 2 ^ 32 ∣ ps.length + 1) := by
  have hlt : sa.seqCounter < 2 ^ 64 := by omega
  rw [after_eq _ hlt] at hp hq
  obtain ⟨algo, haead, rfl, hwire⟩ := of_processOutbound hp
  obtain ⟨algo', haead', rfl, -⟩ := of_processOutbound hq
  cases haead.symm.trans haead'
  rw [append_cancel_left_eq, hwire, be32Bytes_inj, be32Bytes_inj]
  simp only [IpsecSa.nextSeq, hfresh, length_append, length_cons]
  omega

/-- A cipher that leaves the bytes as they are. -/
def plain (_ : AeadAlgo) (_ _ _ plaintext : List UInt8) : List UInt8 × List UInt8 :=
  (plaintext, replicate 16 0)

def exampleSa : IpsecSa where
  spi := 256
  mode := .transport
  aead := some .aes128Gcm
  encKey := replicate 16 0
  salt := replicate 4 0

def datagram : Outgoing := ⟨false, 17, [], [], 1500⟩

theorem sends_datagram (k : ℕ) : ∃ payload, (payload.drop 4).take 4 = be32Bytes (k + 1) ∧
    (processOutbound plain (after plain exampleSa (replicate k datagram)) datagram).1 =
      some (some (replicate 8 0 ++ be32Bytes (k + 1), payload)) := by
  have hbytes : be32Bytes ((k % 2 ^ 64 + 1) % 2 ^ 64) = be32Bytes (k + 1) := by
    rw [be32Bytes_inj]
    omega
  rw [after_eq _ (by decide), length_replicate, exampleSa, Nat.zero_add, ← hbytes]
  exact ⟨_, rfl, rfl⟩

theorem nonce_eq_iff_two : ∃ payload : List UInt8,
    (replicate 8 0 ++ be32Bytes 1 = replicate 8 0 ++ be32Bytes 2 ↔ 2 ^ 32 ∣ 0 + 1) ∧
      ((payload.drop 4).take 4 = be32Bytes 0 ↔ 2 ^ 32 ∣ 0 + 1) := by
  obtain ⟨payload, -, hp⟩ := sends_datagram 0
  obtain ⟨_, -, hq⟩ := sends_datagram 1
  exact ⟨payload, nonce_eq_iff rfl hp hq⟩

/-- Packet 2³² carries the number 0, and the next one has the nonce of the first. -/
theorem nonce_again : ∃ nonce payload zero payload',
    (processOutbound plain exampleSa datagram).1 = some (some (nonce, payload)) ∧
    (∃ x, (processOutbound plain (after plain exampleSa (replicate (2 ^ 32 - 1) datagram))
      datagram).1 = some (some (x, zero))) ∧ (zero.drop 4).take 4 = be32Bytes 0 ∧
    (processOutbound plain (after plain exampleSa (replicate (2 ^ 32) datagram)) datagram).1 =
      some (some (nonce, payload')) := by
  obtain ⟨payload, -, hfirst⟩ := sends_datagram 0
  obtain ⟨zero, hzero, hla⟩ := sends_datagram (2 ^ 32 - 1)
  obtain ⟨payload', -, hagain⟩ := sends_datagram (2 ^ 32)
  have hnonce : be32Bytes (2 ^ 32 + 1) = be32Bytes (0 + 1) := be32Bytes_inj.mpr (by decide)
  have hwrap : be32Bytes (2 ^ 32 - 1 + 1) = be32Bytes 0 := be32Bytes_inj.mpr (by decide)
  rw [hnonce] at hagain
  exact ⟨_, payload, zero, payload', hfirst, ⟨_, hla⟩, hzero.trans hwrap, hagain⟩

/-! ### Packets that arrive -/

/-- The window moved up, with the bit of the highest number set. -/
def advance (window : BitVec 64) (diff : ℕ) : BitVec 64 :=
  (if 64 ≤ diff then 0 else window <<< diff) ||| 1

/-- The association after a number was received, if the number is accepted. -/
def checkReplay (sa : IpsecSa) (seq : ℕ) : Option IpsecSa :=
  let seq := seq % 2 ^ 32
  if seq = 0 then none
  else if sa.replayLast < seq then
    some { sa with
      replayWindow := advance sa.replayWindow (seq - sa.replayLast), replayLast := seq }
  else
    let diff := sa.replayLast - seq
    if 64 ≤ diff then none
    else if sa.replayWindow &&& 1#64 <<< diff ≠ 0 then none
    else some { sa with replayWindow := sa.replayWindow ||| 1#64 <<< diff }

section

variable (decrypt : AeadAlgo → (key nonce aad ciphertext tag : List UInt8) →
  Except Error (List UInt8))

/-- `parse_esp_payload`: what is left without the padding and the trailer. -/
def parseEspPayload (sa : IpsecSa) (data : List UInt8) : Except Error (List UInt8 × UInt8) :=
  match sa.aead.bind fun algo => (buildNonce sa.salt algo (be32At data 4)).map (algo, ·) with
  | none => .error .invalidArgument
  | some (algo, nonce) =>
    let body := data.length - 16
    if data.length < 8 + 16 ∨ sa.encKey.length ≠ algo.keyLen then .error .invalidArgument
    else match decrypt algo sa.encKey nonce (data.take 8) ((data.take body).drop 8)
        (data.drop body) with
      | .error e => .error (if e = .invalidCredential then .permissionDenied else e)
      | .ok plaintext =>
        let n := plaintext.length
        let padLen := (byteAt plaintext (n - 2)).toNat
        if n < 2 ∨ n < padLen + 2 then .error .invalidArgument
        else .ok (plaintext.take (n - 2 - padLen), byteAt plaintext (n - 1))

/-- The number of a received packet, zero in one too short to have it. -/
def inboundSeq (payload : List UInt8) : ℕ :=
  if 8 ≤ payload.length then be32At payload 4 else 0

/-- `process_inbound_v4` and `process_inbound_v6` on a packet for the association: what is passed
on, if the packet is not consumed. -/
def processInbound (sa : IpsecSa) (v6 : Bool) (payload : List UInt8) :
    Except Error (Option (List UInt8 × UInt8)) × IpsecSa :=
  if payload.length < if v6 then 8 else 4 then (.ok none, sa)
  else match parseEspPayload decrypt sa payload with
    | .error e => (.error e, sa)
    | .ok inner =>
      match checkReplay sa (inboundSeq payload) with
      | none => (.ok none, sa)
      | some sa => (.ok (some inner),
          { sa with packetsIn := sa.packetsIn + 1, bytesIn := sa.bytesIn + payload.length })

/-- The answer carries a payload. -/
def accepted (answer : Except Error (Option (List UInt8 × UInt8))) : Bool :=
  answer.toOption.join.isSome

/-- One packet, with the numbers accepted so far. -/
def receive (s : IpsecSa × List ℕ) (p : Bool × List UInt8) : IpsecSa × List ℕ :=
  let (answer, sa) := processInbound decrypt s.1 p.1 p.2
  (sa, if accepted answer then inboundSeq p.2 :: s.2 else s.2)

end

/-- **What the window stands for**: bit `d` is for the number `d` below the highest one. -/
structure Window (window : BitVec 64) (last : ℕ) (seen : List ℕ) : Prop where
  pos : 0 ∉ seen
  nodup : seen.Nodup
  last_eq : last = seen.foldr max 0
  bit : ∀ d < 64, window.getLsbD d = true ↔ last - d ∈ seen

variable {seen : List ℕ} {n : ℕ}

theorem le_foldr_max (h : n ∈ seen) : n ≤ seen.foldr max 0 := by
  induction h with
  | head => exact Nat.le_max_left ..
  | tail _ _ ih => exact Nat.le_trans ih (Nat.le_max_right ..)

theorem getLsbD_advance {window : BitVec 64} {diff d : ℕ} (hd : d < 64) :
    (advance window diff).getLsbD d = true ↔
      d = 0 ∨ diff ≤ d ∧ window.getLsbD (d - diff) = true := by
  have hsh : (if 64 ≤ diff then 0 else window <<< diff) = window <<< diff := by
    split_ifs with h
    · exact (BitVec.shiftLeft_eq_zero h).symm
    · rfl
  rw [advance, hsh, BitVec.getLsbD_or, BitVec.getLsbD_shiftLeft]
  simp [hd, or_comm, -BitVec.getLsbD_eq_getElem]

namespace Window

variable {window : BitVec 64} {last : ℕ} (h : Window window last seen)
include h

theorem cons {window' : BitVec 64} {last' : ℕ} (hla : last' = max n last) (hpos : n ≠ 0)
    (hnot : n ∉ seen) (hbit : ∀ d < 64, window'.getLsbD d = true ↔ last' - d ∈ n :: seen) :
    Window window' last' (n :: seen) where
  pos := by simp [h.pos, hpos.symm]
  nodup := nodup_cons.mpr ⟨hnot, h.nodup⟩
  last_eq := by rw [hla, foldr_cons, h.last_eq]
  bit := hbit

/-- A number above the highest one moves the window. -/
theorem advance (hlt : last < n) : Window (advance window (n - last)) n (n :: seen) := by
  have hle {m : ℕ} (hm : m ∈ seen) : m ≤ last := h.last_eq ▸ le_foldr_max hm
  have hnot : n ∉ seen := fun hm => absurd (hle hm) (by omega)
  refine h.cons (by omega) (by omega) hnot fun d hd => ?_
  rw [getLsbD_advance hd, mem_cons]
  refine or_congr (by omega) ⟨fun ⟨hge, hw⟩ => ?_, fun hm => ?_⟩
  · rw [h.bit _ (by omega)] at hw
    rwa [show n - d = last - (d - (n - last)) by omega]
  have := hle hm
  refine ⟨by omega, (h.bit _ (by omega)).mpr ?_⟩
  rwa [show last - (d - (n - last)) = n - d by omega]

/-- The bit of a number the window reaches. -/
theorem bit_sub (hle : n ≤ last) (hd : last - n < 64) :
    window &&& 1#64 <<< (last - n) ≠ 0 ↔ n ∈ seen := by
  rw [Bitmap.and_one_shiftLeft_ne_zero _ hd, h.bit _ hd, Nat.sub_sub_self hle]

theorem mark (hpos : n ≠ 0) (hle : n ≤ last) (hd : last - n < 64) (hnot : n ∉ seen) :
    Window (window ||| 1#64 <<< (last - n)) last (n :: seen) := by
  refine h.cons (by omega) hpos hnot fun d hd' => ?_
  rw [Bitmap.getLsbD_or_one_shiftLeft _ _ hd, Bool.or_eq_true, h.bit d hd', mem_cons, or_comm]
  exact or_congr_left (by simp; omega)

end Window

section

variable {sa : IpsecSa} (h : Window sa.replayWindow sa.replayLast seen) (hn : n < 2 ^ 32)
include h hn

/-- A number that was not accepted before is accepted if the window reaches it. -/
theorem isSome_checkReplay_iff (hpos : n ≠ 0) (hnot : n ∉ seen) :
    (checkReplay sa n).isSome ↔ seen.foldr max 0 < n + 64 := by
  simp only [checkReplay, Nat.mod_eq_of_lt hn, ← h.last_eq, if_neg hpos]
  split_ifs with hlt hfar hbit
  · simp only [Option.isSome_some, true_iff]
    omega
  · simp only [Option.isSome_none, Bool.false_eq_true, false_iff]
    omega
  · exact absurd ((h.bit_sub (by omega) (by omega)).mp hbit) hnot
  · simp only [Option.isSome_some, true_iff]
    omega

theorem window_checkReplay {sa' : IpsecSa} (hc : checkReplay sa n = some sa') :
    Window sa'.replayWindow sa'.replayLast (n :: seen) := by
  simp only [checkReplay, Nat.mod_eq_of_lt hn] at hc
  split_ifs at hc with hzero hlt hfar hbit <;> cases hc
  · exact h.advance hlt
  · have hd : sa.replayLast - n < 64 := by omega
    exact h.mark hzero (by omega) hd ((h.bit_sub (by omega) hd).not.mp hbit)

end

theorem inboundSeq_lt (payload : List UInt8) : inboundSeq payload < 2 ^ 32 := by
  rw [inboundSeq, be32At]
  have hhigh := (be16At payload 4).toNat_lt
  have hlow := (be16At payload (4 + 2)).toNat_lt
  split_ifs <;> omega

variable {decrypt : AeadAlgo → (key nonce aad ciphertext tag : List UInt8) →
  Except Error (List UInt8)} {sa : IpsecSa} {payload : List UInt8} (v6 : Bool)

/-- A packet that cannot be opened leaves the association as it is. -/
theorem processInbound_of_error {e : Error} (he : parseEspPayload decrypt sa payload = .error e) :
    accepted (processInbound decrypt sa v6 payload).1 = false ∧
      (processInbound decrypt sa v6 payload).2 = sa := by
  rw [processInbound, he]
  split_ifs <;> exact ⟨rfl, rfl⟩

/-- One that can be opened is accepted if its number is. -/
theorem processInbound_of_ok {r : List UInt8 × UInt8}
    (hr : parseEspPayload decrypt sa payload = .ok r) :
    accepted (processInbound decrypt sa v6 payload).1 =
        (checkReplay sa (inboundSeq payload)).isSome ∧ (processInbound decrypt sa v6 payload).2 =
        ((checkReplay sa (inboundSeq payload)).map fun sa =>
          { sa with packetsIn := sa.packetsIn + 1, bytesIn := sa.bytesIn + payload.length }).getD
            sa := by
  have hlen : 24 ≤ payload.length := by
    rw [parseEspPayload] at hr
    split at hr
    · cases hr
    split_ifs at hr with hshort
    omega
  rw [processInbound, hr, if_neg (by cases v6 <;> simp <;> omega)]
  cases checkReplay sa (inboundSeq payload) with
  | none | some => exact ⟨rfl, rfl⟩

theorem window_receive {s : IpsecSa × List ℕ} (h : Window s.1.replayWindow s.1.replayLast s.2)
    (p : Bool × List UInt8) : Window (receive decrypt s p).1.replayWindow
      (receive decrypt s p).1.replayLast (receive decrypt s p).2 := by
  rw [receive]
  cases hr : parseEspPayload decrypt s.1 p.2 with
  | error e =>
    obtain ⟨hacc, hsa⟩ := processInbound_of_error p.1 hr
    simp only [hacc, hsa]
    exact h
  | ok r =>
    obtain ⟨hacc, hsa⟩ := processInbound_of_ok p.1 hr
    simp only [hacc, hsa]
    cases hc : checkReplay s.1 (inboundSeq p.2) with
    | none => exact h
    | some sa' =>
      have hw := window_checkReplay h (inboundSeq_lt p.2) hc
      exact hw

theorem window_run {s : IpsecSa × List ℕ} (h : Window s.1.replayWindow s.1.replayLast s.2)
    (ps : List (Bool × List UInt8)) : Window (ps.foldl (receive decrypt) s).1.replayWindow
      (ps.foldl (receive decrypt) s).1.replayLast (ps.foldl (receive decrypt) s).2 := by
  induction ps generalizing s with
  | nil => exact h
  | cons p ps ih => exact ih (window_receive h p)

/-- **A number is accepted once, and while the window reaches it.** -/
theorem accepted_once (spi : ℕ) (mode : IpsecMode) (aead : Option AeadAlgo)
    (encKey salt : List UInt8) (ps : List (Bool × List UInt8)) (payload : List UInt8) :
    let s := ps.foldl (receive decrypt) ({ spi, mode, aead, encKey, salt }, [])
    let answer := processInbound decrypt s.1 v6 payload
    let seq := inboundSeq payload
    s.2.Nodup ∧ 0 ∉ s.2 ∧
      (∀ e, parseEspPayload decrypt s.1 payload = .error e → answer.2 = s.1) ∧
      ∀ r, parseEspPayload decrypt s.1 payload = .ok r → seq ≠ 0 → seq ∉ s.2 →
        (accepted answer.1 ↔ s.2.foldr max 0 < seq + 64) := by
  intro s answer seq
  have h : Window s.1.replayWindow s.1.replayLast s.2 :=
    window_run ⟨by simp, nodup_nil, rfl, by simp⟩ ps
  refine ⟨h.nodup, h.pos, fun e he => (processInbound_of_error v6 he).2, ?_⟩
  intro r hr hpos hnot
  rw [(processInbound_of_ok v6 hr).1]
  exact isSome_checkReplay_iff h (inboundSeq_lt payload) hpos hnot

/-- A cipher that leaves the bytes as they are accepts a tag of zeros. -/
def plainDecrypt (_ : AeadAlgo) (_ _ _ ciphertext tag : List UInt8) : Except Error (List UInt8) :=
  if tag = replicate 16 0 then .ok ciphertext else .error .invalidCredential

/-- A payload of number 1 with nothing in it but the tag. -/
def onlyTag : List UInt8 := be32Bytes 256 ++ be32Bytes 1 ++ replicate 16 0

/-- Its tag is right, and it is not accepted: it has no trailer. -/
theorem authentic_not_accepted :
    plainDecrypt .aes128Gcm exampleSa.encKey (replicate 8 0 ++ be32Bytes 1) (onlyTag.take 8) []
        (onlyTag.drop 8) = .ok [] ∧
      inboundSeq onlyTag = 1 ∧ accepted (processInbound plainDecrypt exampleSa false onlyTag).1 =
        false :=
  ⟨rfl, rfl, rfl⟩

section

variable {peer : IpsecSa} {nonce : List UInt8}
  (henc : ∀ algo key x aad text c tag, encrypt algo key x aad text = (c, tag) →
    tag.length = 16 ∧ decrypt algo key x aad c tag = .ok text)
  (hpeer : peer.aead = sa.aead ∧ peer.encKey = sa.encKey ∧ peer.salt = sa.salt)
include henc hpeer

theorem processInbound_of_build {seq : ℕ} {inner : List UInt8} {nextHeader : UInt8}
    (h : buildEspPayload encrypt sa seq inner nextHeader = some (nonce, payload)) :
    (processInbound decrypt peer v6 payload).1 =
      .ok ((checkReplay peer seq).map fun _ => (inner, nextHeader)) := by
  simp only [buildEspPayload, buildNonce, Option.bind_eq_some_iff] at h
  obtain ⟨algo, haead, x, hx, h⟩ := h
  split_ifs at hx h with hsalt hkey
  cases hx
  obtain ⟨htag, hdec⟩ := henc algo sa.encKey _ _ _ _ _ rfl
  generalize encrypt algo _ _ _ _ = sealed at *
  obtain ⟨c, tag⟩ := sealed
  have hpay : payload = be32Bytes sa.spi ++ be32Bytes seq ++ c ++ tag := by
    cases h
    rfl
  have hlen : payload.length = (be32Bytes sa.spi ++ be32Bytes seq ++ c).length + 16 := by
    rw [hpay, length_append, htag]
  have hpos : 24 ≤ payload.length := by simp [hlen, be32Bytes]
  have hseq : be32At payload 4 = seq % 2 ^ 32 := by
    simp [hpay, be32At, be16At, be16, byteAt, be32Bytes, Bytes.toNat_leByte]
    omega
  have hparse : parseEspPayload decrypt peer payload = .ok (inner, nextHeader) := by
    have hb : be32Bytes (seq % 2 ^ 32) = be32Bytes seq := be32Bytes_inj.mpr (Nat.mod_mod ..)
    have hp : (4 - (inner.length + 2) % 4) % 4 < 256 := by omega
    rw [parseEspPayload, hpeer.1, hpeer.2.1, hpeer.2.2, haead, hseq]
    simp only [buildNonce, if_neg hsalt, hb, Option.bind_some, Option.map_some]
    rw [if_neg (by omega), hlen, Nat.add_sub_cancel, hpay, take_left, drop_left,
      show decrypt _ _ _ (take 8 _) (drop 8 _) _ = _ from hdec]
    generalize (4 - (inner.length + 2) % 4) % 4 = pad at *
    simp [byteAt, Nat.mod_eq_of_lt hp, -append_assoc]
    rw [append_assoc, take_left]
  rw [processInbound, hparse, if_neg (by cases v6 <;> simp <;> omega), inboundSeq,
    if_pos (by omega), hseq, checkReplay, Nat.mod_mod, ← checkReplay]
  cases checkReplay peer seq <;> rfl

/-- **What is sent arrives**: the peer opens it to what it was made of, and passes it on if the
window has room for its number. -/
theorem processInbound_sent {p : Outgoing}
    (hsent : (processOutbound encrypt sa p).1 = some (some (nonce, payload))) :
    (processInbound decrypt peer v6 payload).1 =
      .ok ((checkReplay peer sa.nextSeq.seqCounter).map fun _ => match sa.mode with
        | .transport => (p.payload, p.protocol)
        | .tunnel => (p.rawIp, if p.v6 then 41 else 4)) := by
  rw [processOutbound] at hsent
  split at hsent
  · cases hsent
  have h := Option.some.inj hsent
  rw [show sa.nextSeq.mode = sa.mode from rfl] at h
  cases hm : sa.mode <;> rw [hm] at h <;> exact processInbound_of_build v6 henc hpeer h

end

/-- Three bytes, which are padded by three more. -/
theorem processInbound_sent_padded : ∃ nonce payload,
    (processOutbound plain exampleSa ⟨false, 17, [1, 2, 3], [], 1500⟩).1 =
      some (some (nonce, payload)) ∧ payload.length = 32 ∧
    (processInbound plainDecrypt exampleSa false payload).1 = .ok (some ([1, 2, 3], 17)) := by
  refine ⟨_, _, rfl, rfl, processInbound_sent false ?_ ⟨rfl, rfl, rfl⟩
    (show (processOutbound plain exampleSa ⟨false, 17, [1, 2, 3], [], 1500⟩).1 = _ from rfl)⟩
  rintro _ _ _ _ _ _ _ ⟨⟩
  exact ⟨rfl, rfl⟩

end Protofire.Network.Ipsec
