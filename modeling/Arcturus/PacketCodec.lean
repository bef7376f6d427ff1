import Arcturus.TunnelPacket

/-!
The writer and the parser of the tunnel packet against one byte format. A
packet under construction holds the encodings of the accepted sub-packets
between the header and the write position; parsing the serialized bytes gives
the header fields and the same sub-packets back.
-/

namespace Arcturus.PacketCodec

open Bytes TunnelPacket Packet

/-- The bytes of one sub-packet. -/
def encodeSub (s : SubPacket) : List UInt8 :=
  putUint 4 s.userID.toNat ++ putUint 2 s.data.length ++ s.data

def encode (subs : List SubPacket) : List UInt8 := subs.flatMap encodeSub

@[simp] theorem length_encodeSub (s : SubPacket) : (encodeSub s).length = 6 + s.data.length := by
  simp only [encodeSub, List.length_append, length_putUint]

@[simp] theorem encode_nil : encode [] = [] := rfl

@[simp] theorem encode_cons (s : SubPacket) (subs : List SubPacket) :
    encode (s :: subs) = encodeSub s ++ encode subs := rfl

theorem encode_append (subs more : List SubPacket) :
    encode (subs ++ more) = encode subs ++ encode more := List.flatMap_append

theorem readSubPackets_encodeSub {s : SubPacket} (hne : s.data ≠ [])
    (hlen : s.data.length < 65536) (fuel : ℕ) (rest : List UInt8) :
    readSubPackets (fuel + 1) (encodeSub s ++ rest) = s :: readSubPackets fuel rest := by
  have hid : (encodeSub s ++ rest).take 4 = putUint 4 s.userID.toNat := by
    simp [encodeSub]
  have hsub : ((encodeSub s ++ rest).drop 4).take 2 = putUint 2 s.data.length := by
    simp [encodeSub]
  have hdrop : (encodeSub s ++ rest).drop 6 = s.data ++ rest := by
    rw [← List.drop_drop (i := 2) (j := 4)]
    simp [encodeSub]
  have hcount : getUint (putUint 2 s.data.length) = s.data.length := by
    rw [getUint_putUint]
    exact Nat.mod_eq_of_lt hlen
  have huser : UInt32.ofNat (getUint (putUint 4 s.userID.toNat)) = s.userID := by
    rw [getUint_putUint, Nat.mod_eq_of_lt (by simpa using s.userID.toNat_lt)]
    simp
  have hcopy : copyFresh s.data.length (s.data ++ rest) = s.data := by
    simp [copyFresh]
  have hlong : ¬ (encodeSub s ++ rest).length < 7 := by
    have hpos := List.length_pos_of_ne_nil hne
    rw [List.length_append, length_encodeSub]
    omega
  rw [readSubPackets_succ, if_neg hlong, hid, huser, hsub, hcount, hdrop, hcopy, List.drop_left]

theorem readSubPackets_encode {subs : List SubPacket} (hne : ∀ s ∈ subs, s.data ≠ [])
    (hlen : ∀ s ∈ subs, s.data.length < 65536) {fuel : ℕ} (hfuel : (encode subs).length ≤ fuel) :
    readSubPackets fuel (encode subs) = subs := by
  induction subs generalizing fuel with
  | nil => cases fuel <;> simp [readSubPackets]
  | cons s subs ih =>
    rw [encode_cons, List.length_append, length_encodeSub] at hfuel
    obtain ⟨fuel, rfl⟩ : ∃ m, fuel = m + 1 := ⟨fuel - 1, by omega⟩
    rw [encode_cons, readSubPackets_encodeSub (hne s (List.mem_cons_self ..))
      (hlen s (List.mem_cons_self ..)),
      ih (fun t ht => hne t (List.mem_cons_of_mem _ ht))
        (fun t ht => hlen t (List.mem_cons_of_mem _ ht)) (by omega)]

/-- The three writes of `AppendUserPacket` are one. -/
theorem appendUserPacket_eq (p : Packet) (userID : UInt32) (data : List UInt8)
    (h : p.wp ≤ p.buf.length) :
    p.appendUserPacket userID data =
      if p.wp + (6 + data.length) > p.buffSize then (p, false)
      else
        ({ p with
          buf := splice p.buf p.wp (encodeSub ⟨userID, data⟩)
          wp := p.wp + (6 + data.length)
          payloadLen := UInt16.ofNat (p.wp + (6 + data.length) - headerSize) }, true) := by
  have hbuf : splice (splice (splice p.buf p.wp (putUint 4 userID.toNat)) (p.wp + 4)
      (putUint 2 data.length)) (p.wp + 4 + 2) data =
      splice p.buf p.wp (encodeSub ⟨userID, data⟩) := by
    have h1 := splice_splice (putUint 4 userID.toNat) (putUint 2 data.length) h
    have h2 := splice_splice (putUint 4 userID.toNat ++ putUint 2 data.length) data h
    simp only [length_putUint, List.length_append] at h1 h2
    rw [h1, Nat.add_assoc, h2]
    rfl
  have hwp : p.wp + 4 + 2 + data.length = p.wp + (6 + data.length) := by omega
  simp only [appendUserPacket, hbuf, hwp]

/-- The packet holds exactly the encodings of `subs` behind its header. -/
structure Holds (p : Packet) (subs : List SubPacket) : Prop where
  size : p.buf.length = p.buffSize
  wp : p.wp = headerSize + (encode subs).length
  fits : p.wp ≤ p.buffSize
  body : (p.buf.take p.wp).drop headerSize = encode subs
  nonempty : ∀ s ∈ subs, s.data ≠ []

theorem holds_newPacket {B : ℕ} (h : headerSize ≤ B) : Holds (newPacket B) [] := by
  refine ⟨by simp [newPacket], rfl, h, ?_, by simp⟩
  rw [encode_nil, List.drop_eq_nil_iff]
  exact List.length_take_le ..

/-- Header fields do not matter for what a packet holds. -/
theorem Holds.congr {p q : Packet} {subs : List SubPacket} (h : Holds p subs)
    (hbuf : q.buf = p.buf) (hsize : q.buffSize = p.buffSize) (hwp : q.wp = p.wp) :
    Holds q subs := by
  refine ⟨?_, ?_, ?_, ?_, h.nonempty⟩
  · rw [hbuf, hsize, h.size]
  · rw [hwp, h.wp]
  · rw [hwp, hsize]
    exact h.fits
  · rw [hbuf, hwp, h.body]

theorem Holds.append_eq {p : Packet} {subs : List SubPacket} (h : Holds p subs) (userID : UInt32)
    (data : List UInt8) :
    p.appendUserPacket userID data =
      if p.wp + (6 + data.length) > p.buffSize then (p, false)
      else
        ({ p with
          buf := splice p.buf p.wp (encodeSub ⟨userID, data⟩)
          wp := p.wp + (6 + data.length)
          payloadLen := UInt16.ofNat (p.wp + (6 + data.length) - headerSize) }, true) :=
  appendUserPacket_eq p userID data (h.size.symm ▸ h.fits)

/-- An accepted call adds the sub-packet at the end. -/
theorem Holds.append {p q : Packet} {subs : List SubPacket} {userID : UInt32} {data : List UInt8}
    (h : Holds p subs) (hne : data ≠ []) (hq : p.appendUserPacket userID data = (q, true)) :
    Holds q (subs ++ [⟨userID, data⟩]) ∧ q.payloadLen = UInt16.ofNat (q.wp - headerSize) := by
  rw [h.append_eq] at hq
  split at hq
  · simp at hq
  · rename_i hroom
    rw [Prod.mk.injEq] at hq
    obtain ⟨rfl, -⟩ := hq
    have hfits := h.fits
    have hwp := h.wp
    have hsize := h.size
    have hlen : (encodeSub ⟨userID, data⟩).length = 6 + data.length := length_encodeSub _
    refine ⟨⟨?_, ?_, ?_, ?_, ?_⟩, rfl⟩
    · change (splice p.buf p.wp _).length = p.buffSize
      rw [length_splice (by omega), hsize]
    · change p.wp + (6 + data.length) = _
      rw [encode_append, List.length_append, encode_cons, encode_nil, List.append_nil, hlen]
      omega
    · change p.wp + (6 + data.length) ≤ p.buffSize
      omega
    · change ((splice p.buf p.wp _).take (p.wp + (6 + data.length))).drop headerSize = _
      rw [← hlen, take_splice_end (by omega), List.drop_append, h.body, encode_append,
        List.length_take, Nat.min_eq_left (by omega), Nat.sub_eq_zero_of_le (by omega)]
      simp
    · intro s hs
      rcases List.mem_append.mp hs with hs | hs
      · exact h.nonempty s hs
      · rw [List.mem_singleton] at hs
        subst hs
        exact hne

@[simp] theorem length_headBytes (p : Packet) : p.headBytes.length = 22 := by
  simp [headBytes]

/-- The packets agree on what the header carries. -/
structure SameHeader (p q : Packet) : Prop where
  hopPos : p.hopPos = q.hopPos
  hopIP : p.hopIP = q.hopIP
  payloadLen : p.payloadLen = q.payloadLen
  port : p.port = q.port
  protocol : p.protocol = q.protocol

theorem ofNat_field32 {b : List UInt8} {i j : ℕ} {w : UInt32}
    (h : (b.take j).drop i = putUint 4 w.toNat) : UInt32.ofNat (field b i j) = w := by
  unfold field
  rw [h, getUint_putUint, Nat.mod_eq_of_lt (by simpa using w.toNat_lt)]
  simp

theorem ofNat_field16 {b : List UInt8} {i j : ℕ} {w : UInt16}
    (h : (b.take j).drop i = putUint 2 w.toNat) : UInt16.ofNat (field b i j) = w := by
  unfold field
  rw [h, getUint_putUint, Nat.mod_eq_of_lt (by simpa using w.toNat_lt)]
  simp

theorem readHeader_headBytes (p q : Packet) (rest : List UInt8) :
    SameHeader (readHeader (p.headBytes ++ rest) q) p where
  hopPos := by
    simp only [readHeader, headBytes, List.append_assoc, List.cons_append, List.headD_cons]
  hopIP := vector_eq (ofNat_field32 rfl) (ofNat_field32 rfl) (ofNat_field32 rfl)
    (ofNat_field32 rfl)
  payloadLen := ofNat_field16 rfl
  port := ofNat_field16 rfl
  protocol := by
    have h : ((p.headBytes ++ rest).take 22).drop 21 = [p.protocol] := rfl
    have hone : UInt8.ofNat (getUint [p.protocol]) = p.protocol := by simp [getUint]
    simp only [readHeader, field, h, hone]

/-- What the writer leaves in the buffer: the header, two padding bytes, the body. -/
theorem serializeHead_take {p q : Packet} (hq : p.serializeHead = .ok q) {n : ℕ}
    (hn : headerSize ≤ n) :
    ∃ pad, pad.length = 2 ∧
      q.buf.take n = p.headBytes ++ pad ++ (p.buf.take n).drop headerSize := by
  unfold serializeHead at hq
  split at hq
  · simp at hq
  · rename_i hlen
    rw [Except.ok.injEq] at hq
    subst hq
    refine ⟨(p.buf.take headerSize).drop 22, ?_, ?_⟩
    · simp only [List.length_drop, List.length_take]
      simp only [headerSize] at hlen ⊢
      omega
    · rw [splice, List.take_zero, List.nil_append, Nat.zero_add, length_headBytes,
        List.take_append, length_headBytes,
        List.take_of_length_le (by simp [headerSize] at hn ⊢; omega), List.append_assoc]
      congr 1
      simp only [headerSize] at hn ⊢
      have hsum : n - 22 = 2 + (n - 24) := by omega
      rw [List.drop_take, List.drop_take, hsum, List.take_add, List.drop_drop]

theorem serializeHead_ok {p : Packet} {subs : List SubPacket} (h : Holds p subs) :
    p.serializeHead = .ok { p with buf := splice p.buf 0 p.headBytes } := by
  have hwp := h.wp
  have hfits := h.fits
  unfold serializeHead
  rw [if_neg]
  rw [h.size]
  omega

/-- The payload length is exact as long as it fits into sixteen bits. -/
def Counted (p : Packet) : Prop := p.payloadLen.toNat = p.wp - headerSize

theorem counted_of_small {p : Packet} (h : p.payloadLen = UInt16.ofNat (p.wp - headerSize))
    (hsmall : p.wp - headerSize < 65536) : Counted p := by
  unfold Counted
  rw [h, UInt16.toNat_ofNat']
  exact Nat.mod_eq_of_lt hsmall

theorem counted_newPacket (B : ℕ) : Counted (newPacket B) := by simp [Counted, newPacket]

theorem Counted.totalBytes {p : Packet} {subs : List SubPacket} (h : Counted p)
    (hp : Holds p subs) : p.totalBytes = p.wp := by
  rw [Packet.totalBytes, h, hp.wp]
  omega

/-- The bytes handed to the tunnel: header, padding and the sub-packets. -/
theorem serialized_eq {p q : Packet} {subs : List SubPacket} (hp : Holds p subs) (hc : Counted p)
    (hq : p.serializeHead = .ok q) :
    ∃ pad, pad.length = 2 ∧ q.buf.take q.totalBytes = p.headBytes ++ pad ++ encode subs := by
  have htotal : q.totalBytes = p.wp := by
    rw [← hc.totalBytes hp]
    rw [serializeHead_ok hp, Except.ok.injEq] at hq
    rw [← hq]
    rfl
  have hwp := hp.wp
  obtain ⟨pad, hpad, htake⟩ := serializeHead_take hq (n := p.wp) (by omega)
  exact ⟨pad, hpad, by rw [htotal, htake, hp.body]⟩

theorem length_data_le {subs : List SubPacket} {s : SubPacket} (h : s ∈ subs) :
    s.data.length + 6 ≤ (encode subs).length := by
  induction subs with
  | nil => exact absurd h List.not_mem_nil
  | cons t subs ih =>
    rw [encode_cons, List.length_append, length_encodeSub]
    rcases List.mem_cons.mp h with rfl | h
    · omega
    · have := ih h
      omega

/-- Parsing bytes of the format gives the header and the sub-packets back. -/
theorem parse_encoded {p : Packet} {pad : List UInt8} {subs : List SubPacket} {bufferSize : ℕ}
    (hpad : pad.length = 2) (hc : p.payloadLen.toNat = (encode subs).length)
    (hne : ∀ s ∈ subs, s.data ≠ [])
    (hsize : headerSize + (encode subs).length ≤ bufferSize) :
    ∃ p', parse (p.headBytes ++ pad ++ encode subs) bufferSize = .ok (p', subs) ∧
      SameHeader p' p := by
  have hraw : (p.headBytes ++ pad ++ encode subs).length = headerSize + (encode subs).length := by
    simp only [List.length_append, length_headBytes, hpad, headerSize]
  generalize hzeros :
    List.replicate (bufferSize - (headerSize + (encode subs).length)) (0 : UInt8) = zeros
  have hbuf : copyFresh bufferSize (p.headBytes ++ pad ++ encode subs) =
      p.headBytes ++ (pad ++ encode subs ++ zeros) := by
    unfold copyFresh
    rw [List.take_of_length_le (by omega), hraw, hzeros]
    simp only [List.append_assoc]
  have hlen : (p.headBytes ++ (pad ++ encode subs ++ zeros)).length = bufferSize := by
    simp only [List.length_append, length_headBytes, hpad, ← hzeros, List.length_replicate]
    simp only [headerSize] at hsize ⊢
    omega
  have hsame := readHeader_headBytes p { newPacket bufferSize with
    buf := p.headBytes ++ (pad ++ encode subs ++ zeros) } (pad ++ encode subs ++ zeros)
  have hpayload : ((p.headBytes ++ (pad ++ encode subs ++ zeros)).take
      (headerSize + (encode subs).length)).drop headerSize = encode subs := by
    have hfront : (p.headBytes ++ pad).length = headerSize := by
      simp [hpad, headerSize]
    have hassoc : p.headBytes ++ (pad ++ encode subs ++ zeros) =
        p.headBytes ++ pad ++ (encode subs ++ zeros) := by simp only [List.append_assoc]
    rw [hassoc, List.drop_take, ← hfront, List.drop_left, Nat.add_sub_cancel_left, List.take_left]
  refine ⟨_, ?_, hsame⟩
  unfold parse
  rw [if_neg (by omega), hbuf]
  simp only [hlen]
  rw [if_neg (by omega)]
  simp only [hsame.payloadLen, hc, hraw]
  rw [if_neg (by omega), hpayload, readSubPackets_encode hne ?_ (Nat.le_refl _)]
  intro s hs
  have hdata := length_data_le hs
  have hbound := p.payloadLen.toNat_lt
  omega

theorem parseHeader_encoded (p : Packet) {pad rest : List UInt8} (hpad : pad.length = 2) :
    ∃ p', parseHeader (p.headBytes ++ pad ++ rest) = .ok p' ∧ SameHeader p' p := by
  have hlen : (p.headBytes ++ pad).length = headerSize := by simp [hpad, headerSize]
  unfold parseHeader
  rw [if_neg (by rw [List.length_append]; omega), ← hlen, List.take_left]
  exact ⟨_, rfl, readHeader_headBytes p _ pad⟩

/-- The packets agree on everything that appending leaves alone. -/
structure SameRoute (p q : Packet) : Prop where
  hopPos : p.hopPos = q.hopPos
  hopIP : p.hopIP = q.hopIP
  port : p.port = q.port
  protocol : p.protocol = q.protocol
  buffSize : p.buffSize = q.buffSize

theorem SameRoute.refl (p : Packet) : SameRoute p p := ⟨rfl, rfl, rfl, rfl, rfl⟩

theorem SameRoute.trans {p q r : Packet} (h : SameRoute p q) (k : SameRoute q r) :
    SameRoute p r :=
  ⟨h.hopPos.trans k.hopPos, h.hopIP.trans k.hopIP, h.port.trans k.port,
    h.protocol.trans k.protocol, h.buffSize.trans k.buffSize⟩

theorem appendUserPacket_sameRoute (p : Packet) (userID : UInt32) (data : List UInt8) :
    SameRoute (p.appendUserPacket userID data).1 p := by
  rw [appendUserPacket]
  split <;> exact ⟨rfl, rfl, rfl, rfl, rfl⟩

/-- A refused call changes nothing. -/
theorem appendUserPacket_refused {p : Packet} {userID : UInt32} {data : List UInt8}
    (h : (p.appendUserPacket userID data).2 = false) : (p.appendUserPacket userID data).1 = p := by
  rw [appendUserPacket] at h ⊢
  split at h
  · rw [if_pos ‹_›]
  · simp at h

/-- A sequence of append calls: the packet at the end and the accepted sub-packets. -/
def appendAll (p : Packet) : List (UInt32 × List UInt8) → Packet × List SubPacket
  | [] => (p, [])
  | (userID, data) :: calls =>
    let r := p.appendUserPacket userID data
    let final := appendAll r.1 calls
    (final.1, if r.2 then ⟨userID, data⟩ :: final.2 else final.2)

theorem appendAll_holds {p : Packet} {subs : List SubPacket} (h : Holds p subs) (hc : Counted p)
    (hsmall : p.buffSize ≤ headerSize + 65535) {calls : List (UInt32 × List UInt8)}
    (hne : ∀ c ∈ calls, c.2 ≠ []) :
    Holds (appendAll p calls).1 (subs ++ (appendAll p calls).2) ∧
      Counted (appendAll p calls).1 ∧ SameRoute (appendAll p calls).1 p := by
  induction calls generalizing p subs with
  | nil => exact ⟨by simpa [appendAll] using h, hc, SameRoute.refl p⟩
  | cons c calls ih =>
    obtain ⟨userID, data⟩ := c
    have hrest : ∀ c ∈ calls, c.2 ≠ [] := fun c hmem => hne c (List.mem_cons_of_mem _ hmem)
    have hroute := appendUserPacket_sameRoute p userID data
    cases hr : p.appendUserPacket userID data with
    | mk q accepted =>
      rw [hr] at hroute
      simp only [appendAll, hr]
      cases accepted with
      | false =>
        have hq :=
          appendUserPacket_refused (by rw [hr] : (p.appendUserPacket userID data).2 = false)
        rw [hr] at hq
        subst hq
        exact ih h hc hsmall hrest
      | true =>
        obtain ⟨hq, hlen⟩ := h.append (hne _ (List.mem_cons_self ..)) hr
        have hfits := hq.fits
        rw [hroute.buffSize] at hfits
        have hcount : Counted q := counted_of_small hlen (by omega)
        obtain ⟨h1, h2, h3⟩ := ih hq hcount (by rw [hroute.buffSize]; exact hsmall) hrest
        exact ⟨by simpa using h1, h2, h3.trans hroute⟩

/-- What is appended and serialized is what the parser returns. -/
theorem packet_round_trip (B : ℕ) (hlow : headerSize ≤ B) (hhigh : B ≤ headerSize + 65535)
    (hopPos : UInt8) (hopIP : Vector UInt32 4) (port : UInt16) (protocol : UInt8)
    (calls : List (UInt32 × List UInt8)) (hne : ∀ c ∈ calls, c.2 ≠ []) :
    ∃ q, (appendAll { newPacket B with hopPos, hopIP, port, protocol } calls).1.serializeHead =
        .ok q ∧
      q.totalBytes = q.wp ∧
      (∃ h, parseHeader (q.buf.take q.totalBytes) = .ok h ∧
        h.hopPos = hopPos ∧ h.hopIP = hopIP ∧ h.port = port ∧ h.protocol = protocol) ∧
      (∀ bufferSize, q.totalBytes ≤ bufferSize →
        ∃ h, parse (q.buf.take q.totalBytes) bufferSize =
            .ok (h, (appendAll { newPacket B with hopPos, hopIP, port, protocol } calls).2) ∧
          h.hopPos = hopPos ∧ h.hopIP = hopIP ∧ h.port = port ∧ h.protocol = protocol) ∧
      ∀ (p : Packet) (userID : UInt32) (data : List UInt8),
        (p.appendUserPacket userID data).2 = false → (p.appendUserPacket userID data).1 = p := by
  have hstart : Holds { newPacket B with hopPos, hopIP, port, protocol } [] :=
    (holds_newPacket hlow).congr rfl rfl rfl
  obtain ⟨hp, hc, hroute⟩ := appendAll_holds hstart (counted_newPacket B) hhigh hne
  generalize appendAll { newPacket B with hopPos, hopIP, port, protocol } calls = final at *
  obtain ⟨p, acc⟩ := final
  rw [List.nil_append] at hp
  have hok := serializeHead_ok hp
  have htotal := hc.totalBytes hp
  obtain ⟨pad, hpad, hbytes⟩ := serialized_eq hp hc hok
  refine ⟨_, hok, htotal, ?_, ?_, fun p userID data h => appendUserPacket_refused h⟩
  · rw [hbytes]
    obtain ⟨h, hparse, hsame⟩ := parseHeader_encoded p hpad
    exact ⟨h, hparse, hsame.hopPos.trans hroute.hopPos, hsame.hopIP.trans hroute.hopIP,
      hsame.port.trans hroute.port, hsame.protocol.trans hroute.protocol⟩
  · intro bufferSize hsize
    rw [hbytes]
    have hcount : p.payloadLen.toNat = (encode acc).length := by
      rw [hc, hp.wp, Nat.add_sub_cancel_left]
    have hroom : headerSize + (encode acc).length ≤ bufferSize := by
      rw [← hcount]
      exact hsize
    obtain ⟨h, hparse, hsame⟩ := parse_encoded hpad hcount hp.nonempty hroom
    exact ⟨h, hparse, hsame.hopPos.trans hroute.hopPos, hsame.hopIP.trans hroute.hopIP,
      hsame.port.trans hroute.port, hsame.protocol.trans hroute.protocol⟩

theorem packet_round_trip_two : ∃ q,
    (appendAll { newPacket 40 with hopPos := 1, hopIP := #v[1, 2, 3, 0], port := 80, protocol := 6 }
      [(7, [1, 2, 3]), (8, [9])]).1.serializeHead = .ok q ∧ q.totalBytes = q.wp := by
  obtain ⟨q, hok, htotal, -⟩ := packet_round_trip 40 (by decide) (by decide) 1 #v[1, 2, 3, 0] 80 6
    [(7, [1, 2, 3]), (8, [9])] (by decide)
  exact ⟨q, hok, htotal⟩

end Arcturus.PacketCodec
