import Arcturus.TruncatedStreams

/-!
Which bytes the parser reports. A sub-packet that announces more bytes than the payload has
left is returned all the same, with zeros for what is missing. So what is returned can be
found in the payload exactly when the payload is a sequence of whole sub-packets with at
most six bytes behind them.
-/

namespace Arcturus.ParsedBytes

open Bytes TunnelPacket PacketCodec TunnelSafety TruncatedStreams

/-- The bytes between the header and the end that the parsed payload length gives. -/
def payloadBytes (raw : List UInt8) (p : Packet) : List UInt8 :=
  (raw.take (headerSize + p.payloadLen.toNat)).drop headerSize

/-- The encodings of the sub-packets are the first bytes of the payload, and all their data
is in it. -/
def Reported (payload : List UInt8) (subs : List SubPacket) : Prop :=
  encode subs <+: payload ∧ ∀ s ∈ subs, s.data <:+: payload

/-- Whole sub-packets, and no more than six bytes behind them. -/
def WholeItems (payload : List UInt8) : Prop :=
  ∃ items tail, payload = encode items ++ tail ∧ tail.length < 7 ∧
    ∀ s ∈ items, s.data.length < 65536

theorem data_infix_encode {subs : List SubPacket} {s : SubPacket} (h : s ∈ subs) :
    s.data <:+: encode subs := by
  obtain ⟨front, back, rfl⟩ := List.append_of_mem h
  refine ⟨encode front ++ (putUint 4 s.userID.toNat ++ putUint 2 s.data.length), encode back, ?_⟩
  rw [encode_append, encode_cons, encodeSub]
  simp only [List.append_assoc]

theorem reported_iff {payload : List UInt8} {subs : List SubPacket} :
    Reported payload subs ↔ encode subs <+: payload := by
  refine ⟨And.left, fun h => ⟨h, fun s hs => ?_⟩⟩
  exact (data_infix_encode hs).trans h.isInfix

theorem firstSub_length_lt (r : List UInt8) : (firstSub r).data.length < 65536 := by
  unfold firstSub
  rw [length_copyFresh]
  have hlt := getUint_lt ((r.drop 4).take 2)
  exact hlt.trans_le (Nat.pow_le_pow_right (by decide) (List.length_take_le ..))

/-- The parser only stops where no further sub-packet can begin. -/
theorem wholeItems_of_encode_isPrefix {fuel : ℕ} {r : List UInt8} (hfuel : r.length ≤ fuel)
    (h : encode (readSubPackets fuel r) <+: r) : WholeItems r := by
  induction fuel generalizing r with
  | zero => exact ⟨[], r, rfl, by omega, by simp⟩
  | succ fuel ih =>
    by_cases hlong : 7 ≤ r.length
    · rw [readSubPackets_firstSub fuel hlong, encode_cons, append_prefix_iff,
        length_encodeSub] at h
      obtain ⟨hfirst, hrest⟩ := h
      obtain ⟨items, tail, hitems, htail, hlen⟩ := ih (by rw [List.length_drop]; omega) hrest
      refine ⟨firstSub r :: items, tail, ?_, htail, ?_⟩
      · have hcut := List.prefix_iff_eq_append.mp hfirst
        rw [length_encodeSub, hitems] at hcut
        rw [encode_cons, List.append_assoc, hcut]
      · intro s hs
        rcases List.mem_cons.mp hs with rfl | hs
        · exact firstSub_length_lt r
        · exact hlen s hs
    · exact ⟨[], r, rfl, by omega, by simp⟩

/-- Whole sub-packets are read back one by one, up to where too few bytes are left. -/
theorem readSubPackets_isPrefix {items : List SubPacket} {tail : List UInt8} (fuel : ℕ)
    (htail : tail.length < 7) (hlen : ∀ s ∈ items, s.data.length < 65536) :
    readSubPackets fuel (encode items ++ tail) <+: items := by
  induction items generalizing fuel with
  | nil =>
    cases fuel with
    | zero => exact List.nil_prefix
    | succ fuel =>
      rw [encode_nil, List.nil_append, readSubPackets_succ, if_pos htail]
  | cons s items ih =>
    cases fuel with
    | zero => exact List.nil_prefix
    | succ fuel =>
      rw [encode_cons, List.append_assoc]
      by_cases hlong : 7 ≤ (encodeSub s ++ (encode items ++ tail)).length
      · have hroom : 6 + s.data.length ≤ (encodeSub s ++ (encode items ++ tail)).length := by
          rw [List.length_append, length_encodeSub]
          omega
        have hfirst : firstSub (encodeSub s ++ (encode items ++ tail)) = s :=
          (firstSub_eq_iff (hlen s List.mem_cons_self) hroom).mpr (List.prefix_append ..)
        rw [readSubPackets_firstSub fuel hlong, hfirst, ← length_encodeSub, List.drop_left,
          List.cons_prefix_cons]
        exact ⟨rfl, ih fuel fun t ht => hlen t (List.mem_cons_of_mem _ ht)⟩
      · rw [readSubPackets_succ, if_pos (by omega)]
        exact List.nil_prefix

theorem encode_prefix_iff_wholeItems (r : List UInt8) :
    encode (readSubPackets r.length r) <+: r ↔ WholeItems r := by
  refine ⟨wholeItems_of_encode_isPrefix (Nat.le_refl _), ?_⟩
  rintro ⟨items, tail, rfl, htail, hlen⟩
  obtain ⟨rest, hrest⟩ := readSubPackets_isPrefix (encode items ++ tail).length htail hlen
  refine List.IsPrefix.trans ?_ (List.prefix_append (encode items) tail)
  refine ⟨encode rest, ?_⟩
  rw [← encode_append, hrest]

/-- A successful parse reads the sub-packets from the payload, whatever the size of its
buffer. -/
theorem parse_subs {raw : List UInt8} {bufferSize : ℕ} {p : Packet} {subs : List SubPacket}
    (h : parse raw bufferSize = .ok (p, subs)) :
    subs = readSubPackets (payloadBytes raw p).length (payloadBytes raw p) := by
  unfold parse at h
  split at h
  · cases h
  dsimp only at h
  split at h
  · cases h
  split at h
  · cases h
  rename_i hend
  rw [not_or, not_lt, not_lt] at hend
  cases h
  have hcopy : ∀ n ≤ raw.length, n ≤ bufferSize →
      (copyFresh bufferSize raw).take n = raw.take n := by
    intro n hraw hsize
    unfold copyFresh
    rw [List.take_append_of_le_length (by rw [List.length_take]; omega), List.take_take,
      Nat.min_eq_left hsize]
  unfold payloadBytes
  rw [hcopy _ hend.1 hend.2]

/-- The parser reports only bytes that are there exactly when the payload consists of whole
sub-packets. -/
theorem parse_reported_iff {raw : List UInt8} {bufferSize : ℕ} {p : Packet}
    {subs : List SubPacket} (h : parse raw bufferSize = .ok (p, subs)) :
    Reported (payloadBytes raw p) subs ↔ WholeItems (payloadBytes raw p) := by
  rw [reported_iff, parse_subs h]
  exact encode_prefix_iff_wholeItems _

/-- A packet of sixteen payload bytes: three of user 2 and one of user 1. -/
def twoUsers : List UInt8 :=
  [1, 0, 0, 0, 0, 0, 0, 0, 0, 0, 0, 0, 0, 0, 0, 0, 0, 0, 16, 0, 80, 6, 0, 0] ++
    [0, 0, 0, 2, 0, 3, 7, 7, 7, 0, 0, 0, 1, 0, 1, 9]

theorem twoUsers_reported : ∃ p, parse twoUsers 40 = .ok (p, [⟨2, [7, 7, 7]⟩, ⟨1, [9]⟩]) ∧
    Reported (payloadBytes twoUsers p) [⟨2, [7, 7, 7]⟩, ⟨1, [9]⟩] := by
  have hparse : ∃ p, parse twoUsers 40 = .ok (p, [⟨2, [7, 7, 7]⟩, ⟨1, [9]⟩]) := ⟨_, rfl⟩
  obtain ⟨p, hp⟩ := hparse
  refine ⟨p, hp, (parse_reported_iff hp).mpr
    ⟨[⟨2, [7, 7, 7]⟩, ⟨1, [9]⟩], [], ?_, by decide, by decide⟩⟩
  cases hp
  decide

/-- A header that announces seven bytes, and a sub-packet of user 1 with this length. -/
def oneByteLeft (announced : UInt8) : List UInt8 :=
  [1, 0, 0, 0, 0, 0, 0, 0, 0, 0, 0, 0, 0, 0, 0, 0, 0, 0, 7, 0, 80, 6, 0, 0] ++
    [0, 0, 0, 1, 0, announced, 9]

/-- Five bytes are announced and one is there: four zeros are returned with it. -/
theorem missing_bytes_invented : ∃ p, parse (oneByteLeft 5) 31 = .ok (p, [⟨1, [9, 0, 0, 0, 0]⟩]) ∧
    ¬ Reported (payloadBytes (oneByteLeft 5) p) [⟨1, [9, 0, 0, 0, 0]⟩] := by
  refine ⟨_, rfl, ?_⟩
  rw [reported_iff]
  decide

end Arcturus.ParsedBytes
