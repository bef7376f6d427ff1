import Arcturus.Routes

/-!
The packet of a batch over its life: made for a message, filled with sub-packets
and sent. Sending moves the write position back and leaves the rest as it is, the
payload length included, so that the length is right again only after the next
append. What is sent is well formed as long as the payload length fits into its
sixteen bits, and not otherwise.
-/

namespace Arcturus.BatchPacket

open Bytes TunnelPacket TunnelHandler PacketCodec TunnelSafety Overlay Routes

/-- The packet was made for the message and holds these sub-packets since it was last
sent. Nothing empty is batched: requests end in a newline, empty answers are dropped. -/
inductive Filled (msg : AggregatorMsg) : List SubPacket → Packet → Prop
  | new (buffSize : ℕ) : Filled msg [] (newBatchPacket buffSize msg)
  | append {subs : List SubPacket} {p q : Packet} {userID : UInt32} {data : List UInt8} :
      Filled msg subs p → data ≠ [] → p.appendUserPacket userID data = (q, true) →
      Filled msg (subs ++ [⟨userID, data⟩]) q
  | sent {subs : List SubPacket} {p q : Packet} :
      Filled msg subs p → p.serializeHead = .ok q → Filled msg [] { q with wp := headerSize }

section Filled
variable {msg : AggregatorMsg} {subs : List SubPacket} {p : Packet}

theorem serializeHead_eq {p q : Packet} (h : p.serializeHead = .ok q) :
    headerSize ≤ p.buf.length ∧ q = { p with buf := splice p.buf 0 p.headBytes } := by
  rw [Packet.serializeHead] at h
  split at h
  · simp at h
  · rename_i hlen
    rw [Except.ok.injEq] at h
    exact ⟨by omega, h.symm⟩

theorem headerSize_le_serialized {p q : Packet} (h : p.serializeHead = .ok q) :
    headerSize ≤ (q.buf.take q.totalBytes).length := by
  obtain ⟨hlen, rfl⟩ := serializeHead_eq h
  rw [List.length_take]
  change headerSize ≤ min (headerSize + p.payloadLen.toNat) (splice p.buf 0 p.headBytes).length
  rw [length_splice (by rw [length_headBytes]; simp only [headerSize] at hlen; omega)]
  omega

/-- An accepted call had room and moved the write position. -/
theorem append_accepted {p q : Packet} {userID : UInt32} {data : List UInt8}
    (h : p.appendUserPacket userID data = (q, true)) :
    SameRoute q p ∧ q.wp = p.wp + (6 + data.length) ∧ q.wp ≤ p.buffSize := by
  have hroute := appendUserPacket_sameRoute p userID data
  rw [h] at hroute
  refine ⟨hroute, ?_⟩
  rw [Packet.appendUserPacket] at h
  split at h
  · simp at h
  · rename_i hroom
    rw [Prod.mk.injEq] at h
    rw [← h.1]
    simp only
    omega

theorem append_payloadLen {p q : Packet} {userID : UInt32} {data : List UInt8}
    (h : p.appendUserPacket userID data = (q, true)) :
    q.payloadLen = UInt16.ofNat (q.wp - headerSize) := by
  rw [Packet.appendUserPacket] at h
  split at h
  · simp at h
  · rw [Prod.mk.injEq] at h
    rw [← h.1]

theorem Filled.sameRoute (h : Filled msg subs p) :
    SameRoute p (newBatchPacket p.buffSize msg) := by
  induction h with
  | new buffSize =>
    rw [newBatchPacket_buffSize]
    exact SameRoute.refl _
  | append _ _ happ ih =>
    obtain ⟨hroute, -⟩ := append_accepted happ
    rw [hroute.buffSize]
    exact hroute.trans ih
  | sent _ hq ih =>
    obtain ⟨-, rfl⟩ := serializeHead_eq hq
    exact ⟨ih.hopPos, ih.hopIP, ih.port, ih.protocol, ih.buffSize⟩

theorem Filled.low (h : Filled msg subs p) : headerSize ≤ p.wp := by
  induction h with
  | new buffSize =>
    rw [newBatchPacket_wp]
  | append _ _ happ ih =>
    obtain ⟨-, hwp, -⟩ := append_accepted happ
    omega
  | sent => exact le_rfl

/-- A buffer with room for the header holds what was appended. -/
theorem Filled.holds (h : Filled msg subs p) (hsize : headerSize ≤ p.buffSize) :
    Holds p subs := by
  induction h with
  | new buffSize =>
    rw [newBatchPacket_buffSize] at hsize
    exact (newBatchPacket_holds hsize msg).1
  | append _ hne happ ih =>
    obtain ⟨hroute, -⟩ := append_accepted happ
    rw [hroute.buffSize] at hsize
    exact ((ih hsize).append hne happ).1
  | sent _ hq ih =>
    obtain ⟨hlen, rfl⟩ := serializeHead_eq hq
    have hp := ih hsize
    refine ⟨?_, by simp, hsize, ?_, by simp⟩
    · change (splice _ 0 _).length = _
      rw [length_splice (by rw [length_headBytes]; simp only [headerSize] at hlen; omega), hp.size]
    · rw [encode_nil, List.drop_eq_nil_iff]
      exact List.length_take_le ..

/-- Whoever has appended something has the length of the payload, modulo its width. -/
theorem Filled.payloadLen (h : Filled msg subs p) (hne : subs ≠ []) :
    Holds p subs ∧ p.payloadLen.toNat = (encode subs).length % 65536 := by
  have hsize : headerSize ≤ p.buffSize ∧ p.payloadLen = UInt16.ofNat (p.wp - headerSize) := by
    cases h with
    | new => exact absurd rfl hne
    | sent => exact absurd rfl hne
    | append hf hdata happ =>
      obtain ⟨hroute, hwp, hroom⟩ := append_accepted happ
      have hlow := hf.low
      rw [hroute.buffSize]
      exact ⟨by omega, ((hf.holds (by omega)).append hdata happ).2⟩
  have hp := h.holds hsize.1
  refine ⟨hp, ?_⟩
  rw [hsize.2, hp.wp, Nat.add_sub_cancel_left, UInt16.toNat_ofNat']

/-- A batch is sent with the bytes that its payload length counts. -/
theorem Filled.sent_bytes (h : Filled msg subs p) (hne : subs ≠ []) :
    ∃ q, p.serializeHead = .ok q ∧ TunnelBytes msg (q.buf.take q.totalBytes) ∧
      SameHeader (header (q.buf.take q.totalBytes)) p ∧
      (q.buf.take q.totalBytes).length = headerSize + p.payloadLen.toNat := by
  obtain ⟨hp, hlen⟩ := h.payloadLen hne
  have hok := serializeHead_ok hp
  refine ⟨_, hok, ⟨p, _, h.sameRoute, hok, rfl⟩, header_serialized hok, ?_⟩
  have hwp := hp.wp
  have hfits := hp.fits
  have hsize := hp.size
  have hmod := Nat.mod_le (encode subs).length 65536
  change ((splice p.buf 0 p.headBytes).take (headerSize + p.payloadLen.toNat)).length = _
  have hhead : 0 + p.headBytes.length ≤ p.buf.length := by
    rw [length_headBytes]
    simp only [headerSize] at hwp
    omega
  rw [List.length_take, length_splice hhead]
  omega

theorem Filled.wellFormed (h : Filled msg subs p) (hne : subs ≠ [])
    (hsmall : (encode subs).length ≤ 65535) :
    ∃ q, p.serializeHead = .ok q ∧ TunnelBytes msg (q.buf.take q.totalBytes) ∧
      WellFormed (q.buf.take q.totalBytes) subs := by
  obtain ⟨hp, hlen⟩ := h.payloadLen hne
  have hcount : Counted p := by
    unfold Counted
    rw [hlen, hp.wp, Nat.add_sub_cancel_left]
    exact Nat.mod_eq_of_lt (by omega)
  exact tunnelBytes_of_holds h.sameRoute hp hcount hne

/-- Batches of any size exist, given the buffer for it. -/
theorem exists_filled (msg : AggregatorMsg) {buffSize : ℕ} (subs : List SubPacket)
    (hdata : ∀ s ∈ subs, s.data ≠ []) (hsize : headerSize + (encode subs).length ≤ buffSize) :
    ∃ p, Filled msg subs p ∧ p.buffSize = buffSize := by
  induction subs using List.reverseRecOn with
  | nil =>
    exact ⟨_, .new buffSize, newBatchPacket_buffSize buffSize msg⟩
  | append_singleton subs s ih =>
    rw [encode_append, List.length_append, encode_cons, encode_nil, List.append_nil,
      length_encodeSub] at hsize
    obtain ⟨p, hp, hbuf⟩ := ih (fun t ht => hdata t (List.mem_append_left _ ht)) (by omega)
    have hholds := hp.holds (by omega)
    have hwp := hholds.wp
    have happ := hholds.append_eq s.userID s.data
    rw [if_neg (by omega)] at happ
    exact ⟨_, .append hp (hdata s (by simp)) happ, hbuf⟩

end Filled

/-- The reader cannot return more than its input and one padded sub-packet. -/
theorem length_encode_readSubPackets (fuel : ℕ) (r : List UInt8)
    (hne : readSubPackets fuel r ≠ []) :
    7 ≤ r.length ∧ (encode (readSubPackets fuel r)).length ≤ r.length + 65534 := by
  induction fuel generalizing r with
  | zero => exact absurd rfl hne
  | succ fuel ih =>
    rw [readSubPackets_succ] at hne ⊢
    split at hne
    · exact absurd rfl hne
    · rename_i h7
      rw [if_neg h7]
      have hsub : getUint ((r.drop 4).take 2) < 65536 := by
        have hlt := getUint_lt ((r.drop 4).take 2)
        have hlen : ((r.drop 4).take 2).length = 2 := by
          rw [List.length_take, List.length_drop]
          omega
        rw [hlen] at hlt
        exact hlt
      generalize getUint ((r.drop 4).take 2) = subLen at hsub
      rw [encode_cons, List.length_append, length_encodeSub, length_copyFresh]
      refine ⟨by omega, ?_⟩
      by_cases hlast : readSubPackets fuel ((r.drop 6).drop subLen) = []
      · rw [hlast, encode_nil, List.length_nil]
        omega
      · obtain ⟨hrest, hle⟩ := ih _ hlast
        rw [List.length_drop, List.length_drop] at hrest hle
        omega

/-- The sub-packets that the parser returns for some bytes. -/
def decode (buf : List UInt8) : List SubPacket :=
  match parse buf buf.length with
  | .ok (_, subs) => subs
  | .error _ => []

/-- The sub-packets that stand between the header and the write position. -/
def pending (p : Packet) : List SubPacket :=
  readSubPackets p.wp ((p.buf.take p.wp).drop headerSize)

theorem decode_of_wellFormed {buf : List UInt8} {subs : List SubPacket} (h : WellFormed buf subs) :
    decode buf = subs := by
  obtain ⟨hlen, hdata⟩ := h.hasData_self
  rcases parse_cases hlen with ⟨-, -, p, hparse⟩ | ⟨hno, -⟩
  · unfold decode
    rw [hparse]
    exact h.subPackets_eq
  · exact absurd hdata hno

/-- No sub-packet fits into less than seven bytes. -/
theorem decode_of_short {buf : List UInt8} (hlen : headerSize ≤ buf.length)
    (hshort : (header buf).payloadLen.toNat < 7) : decode buf = [] := by
  rcases parse_cases hlen with ⟨hdata, -⟩ | ⟨-, ⟨p, hparse⟩ | ⟨msg, hparse⟩⟩
  · exact absurd hdata.1 (by omega)
  · unfold decode
    rw [hparse]
  · unfold decode
    rw [hparse]

/-- The parser cannot return more than the payload and one padded sub-packet. -/
theorem length_encode_decode {buf : List UInt8} (hlen : headerSize ≤ buf.length)
    (hne : decode buf ≠ []) :
    (encode (decode buf)).length ≤ (header buf).payloadLen.toNat + 65534 := by
  unfold decode at hne ⊢
  rcases parse_cases hlen with ⟨hdata, hsubs, p, hparse⟩ | ⟨-, ⟨p, hparse⟩ | ⟨msg, hparse⟩⟩
  · rw [hparse]
    refine (length_encode_readSubPackets _ _ hsubs).2.trans_eq ?_
    rw [length_payload hdata.2]
  · rw [hparse] at hne
    exact absurd rfl hne
  · rw [hparse] at hne
    exact absurd rfl hne

section Buffers
variable {msg : AggregatorMsg} {subs : List SubPacket} {p : Packet}

/-- Whatever the order, all that a batch holds is only found if it fits into the payload
length. -/
theorem Filled.encode_le_of_perm (h : Filled msg subs p) (hne : subs ≠ []) {q : Packet}
    (hq : p.serializeHead = .ok q) (hperm : (decode (q.buf.take q.totalBytes)).Perm subs) :
    (encode subs).length ≤ 65535 := by
  have hnonempty : decode (q.buf.take q.totalBytes) ≠ [] := by
    intro hnil
    rw [hnil] at hperm
    exact hne hperm.nil_eq.symm
  have hbound := length_encode_decode (headerSize_le_serialized hq) hnonempty
  rw [encode, (hperm.flatMap_right encodeSub).length_eq, ← encode,
    (header_serialized hq).payloadLen, (h.payloadLen hne).2] at hbound
  omega

/-- A batch is decoded to what it holds exactly if that fits into the payload length. -/
theorem Filled.decode_eq_iff (h : Filled msg subs p) (hne : subs ≠ []) {q : Packet}
    (hq : p.serializeHead = .ok q) :
    decode (q.buf.take q.totalBytes) = subs ↔ (encode subs).length ≤ 65535 := by
  constructor
  · intro heq
    exact h.encode_le_of_perm hne hq (List.Perm.of_eq heq)
  · intro hsmall
    obtain ⟨q', hq', -, hw⟩ := h.wellFormed hne hsmall
    rw [hq, Except.ok.injEq] at hq'
    exact hq' ▸ decode_of_wellFormed hw

/-- The batch holds something, or nothing has ever been counted in it. -/
def Loaded (p : Packet) (subs : List SubPacket) : Prop := subs ≠ [] ∨ p.payloadLen = 0

theorem Filled.encode_le (h : Filled msg subs p) (hsize : p.buffSize ≤ headerSize + 65535)
    (hne : subs ≠ []) : (encode subs).length ≤ 65535 := by
  obtain ⟨hp, -⟩ := h.payloadLen hne
  have hwp := hp.wp
  have hfits := hp.fits
  omega

theorem Filled.decode_of_le (h : Filled msg subs p) (hsmall : (encode subs).length ≤ 65535)
    (hload : Loaded p subs) {q : Packet} (hq : p.serializeHead = .ok q) :
    decode (q.buf.take q.totalBytes) = subs := by
  by_cases hne : subs = []
  · have hzero := hload.resolve_left (not_not.mpr hne)
    rw [hne]
    apply decode_of_short (headerSize_le_serialized hq)
    rw [(header_serialized hq).payloadLen, hzero]
    decide
  · exact (h.decode_eq_iff hne hq).mpr hsmall

/-- The bytes of a batch that is sent are decoded to what it holds. -/
theorem Filled.decode_sent (h : Filled msg subs p) (hsize : p.buffSize ≤ headerSize + 65535)
    (hload : Loaded p subs) {q : Packet} (hq : p.serializeHead = .ok q) :
    TunnelBytes msg (q.buf.take q.totalBytes) ∧ decode (q.buf.take q.totalBytes) = subs := by
  refine ⟨⟨p, q, h.sameRoute, hq, rfl⟩, h.decode_of_le ?_ hload hq⟩
  by_cases hne : subs = []
  · rw [hne]
    exact Nat.zero_le _
  · exact h.encode_le hsize hne

/-- The parser takes an empty message at the end for the end of the payload. -/
theorem decode_empty {buffSize : ℕ} {userID : UInt32} {q : Packet}
    (happ : (newBatchPacket buffSize msg).appendUserPacket userID [] = (p, true))
    (hq : p.serializeHead = .ok q) : decode (q.buf.take q.totalBytes) = [] := by
  obtain ⟨-, hwp, -⟩ := append_accepted happ
  apply decode_of_short (headerSize_le_serialized hq)
  rw [(header_serialized hq).payloadLen, append_payloadLen happ, hwp, newBatchPacket_wp]
  decide

theorem Filled.wp_of_nil (h : Filled msg [] p) : p.wp = headerSize := by
  generalize hs : ([] : List SubPacket) = subs at h
  cases h with
  | new buffSize => exact newBatchPacket_wp buffSize msg
  | append => simp at hs
  | sent => rfl

theorem Filled.pending_eq (h : Filled msg subs p) (hsize : p.buffSize ≤ headerSize + 65535) :
    pending p = subs := by
  by_cases hne : subs = []
  · subst hne
    have hnil : (p.buf.take headerSize).drop headerSize = [] := by
      rw [List.drop_eq_nil_iff]
      exact List.length_take_le ..
    unfold pending
    rw [h.wp_of_nil, hnil]
    rfl
  · have hsmall := h.encode_le hsize hne
    obtain ⟨hp, -⟩ := h.payloadLen hne
    have hwp := hp.wp
    unfold pending
    rw [hp.body]
    refine readSubPackets_encode hp.nonempty ?_ (by omega)
    intro s hs
    have := length_data_le hs
    omega

/-- A new packet takes every message that leaves room for the header. -/
theorem append_new (msg : AggregatorMsg) {buffSize : ℕ} (userID : UInt32) {data : List UInt8}
    (h : data.length + 30 ≤ buffSize) :
    ∃ q, (newBatchPacket buffSize msg).appendUserPacket userID data = (q, true) := by
  have hlow : headerSize ≤ buffSize := by
    simp only [headerSize]
    omega
  obtain ⟨hp, -⟩ := newBatchPacket_holds hlow msg
  have happ := hp.append_eq userID data
  have hwp := newBatchPacket_wp buffSize msg
  have hsize := newBatchPacket_buffSize buffSize msg
  rw [if_neg (by rw [hwp, hsize]; simp only [headerSize]; omega)] at happ
  exact ⟨_, happ⟩

end Buffers

/-- A packet whose buffer has kept its size. -/
structure Sized (size : ℕ) (p : Packet) : Prop where
  buffSize : p.buffSize = size
  length : p.buf.length = size
  low : headerSize ≤ p.wp
  high : p.wp = headerSize ∨ p.wp ≤ size

/-- The payload length is that of what has been written, in sixteen bits. -/
def LengthNoted (p : Packet) : Prop := p.payloadLen = UInt16.ofNat (p.wp - headerSize)

section Packets
variable {size : ℕ} {p q : Packet}

theorem sized_newBatchPacket (size : ℕ) (msg : AggregatorMsg) :
    Sized size (newBatchPacket size msg) := by
  refine ⟨newBatchPacket_buffSize size msg, ?_, (newBatchPacket_wp size msg).ge,
    Or.inl (newBatchPacket_wp size msg)⟩
  rw [newBatchPacket_eq]
  exact List.length_replicate

theorem lengthNoted_newBatchPacket (size : ℕ) (msg : AggregatorMsg) :
    LengthNoted (newBatchPacket size msg) := by
  unfold LengthNoted
  rw [newBatchPacket_payloadLen, newBatchPacket_wp]
  rfl

theorem Sized.append (h : Sized size p) {userID : UInt32} {data : List UInt8}
    (happ : p.appendUserPacket userID data = (q, true)) : Sized size q := by
  obtain ⟨hroute, hwp, hroom⟩ := append_accepted happ
  have hbuff := h.buffSize
  have hlen := h.length
  have hlow := h.low
  refine ⟨hroute.buffSize.trans hbuff, ?_, by omega, Or.inr (by omega)⟩
  rw [appendUserPacket_eq p userID data (by omega), if_neg (by omega), Prod.mk.injEq] at happ
  rw [← happ.1]
  change (splice p.buf p.wp (encodeSub ⟨userID, data⟩)).length = size
  rw [length_splice (by rw [length_encodeSub]; simp only; omega), hlen]

/-- A packet that refuses the data stays as it is. -/
theorem sized_appendUserPacket (h : Sized size p) (hnoted : LengthNoted p) (userID : UInt32)
    (data : List UInt8) :
    Sized size (p.appendUserPacket userID data).1 ∧
      LengthNoted (p.appendUserPacket userID data).1 := by
  cases happ : p.appendUserPacket userID data with
  | mk q accepted =>
    cases accepted with
    | true => exact ⟨h.append happ, append_payloadLen happ⟩
    | false =>
      have hsame := appendUserPacket_refused (p := p) (by rw [happ])
      rw [happ] at hsame
      exact hsame ▸ ⟨h, hnoted⟩

theorem Sized.serialized (h : Sized size p) (hq : p.serializeHead = .ok q) : Sized size q := by
  obtain ⟨hlen, rfl⟩ := serializeHead_eq hq
  refine ⟨h.buffSize, ?_, h.low, h.high⟩
  change (splice p.buf 0 p.headBytes).length = size
  rw [length_splice (by rw [length_headBytes]; simp only [headerSize] at hlen; omega), h.length]

theorem Sized.reset (h : Sized size p) : Sized size { p with wp := headerSize } :=
  ⟨h.buffSize, h.length, le_rfl, Or.inl rfl⟩

theorem LengthNoted.serialized (h : LengthNoted p) (hq : p.serializeHead = .ok q) :
    LengthNoted q := by
  obtain ⟨-, rfl⟩ := serializeHead_eq hq
  exact h

end Packets

end Arcturus.BatchPacket
