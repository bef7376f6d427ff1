import Arcturus.Overlay
import Mathlib.Data.List.Infix

/-!
Streams that end too early. The listener fills the missing part of the announced
payload with zeros and goes on, so that the parser reads sub-packets from bytes
that were never sent. What is handed on is a prefix of what was sent only if the
bytes that are missing were zeros anyway.
-/

namespace Arcturus.TruncatedStreams

open Bytes TunnelPacket TunnelHandler PacketCodec TunnelSafety Overlay

/-- A packet as it is sent: a header and the sub-packets it announces. -/
structure WirePacket where
  head : List UInt8
  subs : List SubPacket
  head_length : head.length = headerSize
  announced : (header head).payloadLen.toNat = (encode subs).length

def WirePacket.bytes (p : WirePacket) : List UInt8 := p.head ++ encode p.subs

/-- The sub-packet that a call hands to the back-sourcer or to a waiter. -/
def keptSub : Effect → Option SubPacket
  | .submit _ task => some ⟨task.userID, task.reqData⟩
  | .send _ _ => none
  | .deliver userID data => some ⟨userID, data⟩

def keptSubs : Except Failure (List Effect) → List SubPacket
  | .ok effects => effects.filterMap keptSub
  | .error _ => []

/-- The sub-packets that a node hands on for a stream that ends after these bytes. -/
def delivered (stream : List UInt8) : List SubPacket :=
  match receive stream with
  | none => []
  | some pkt => keptSubs (handleQUICPacket pkt)

/-- The node hands the sub-packets of a packet with this header on. A request whose
origin slot is empty is dropped. -/
def Arrives (h : Packet) : Prop :=
  if h.port ≠ 0 then RequestEnds h ∧ ¬ SlotEmpty h (h.hopPos.toNat + 1) else ResponseEnds h

instance (h : Packet) : Decidable (Arrives h) := by
  unfold Arrives
  infer_instance

/-- The sub-packets that can be read back: the last one needs a byte of data. -/
def visible : List SubPacket → List SubPacket
  | [] => []
  | s :: subs => if subs = [] ∧ s.data = [] then [] else s :: visible subs

theorem visible_isPrefix (subs : List SubPacket) : visible subs <+: subs := by
  induction subs with
  | nil => exact List.prefix_rfl
  | cons s subs ih =>
    unfold visible
    split
    · exact List.nil_prefix
    · exact (List.cons_prefix_cons).mpr ⟨rfl, ih⟩

section Lists
variable {α : Type*}

theorem append_prefix_iff {a b r : List α} :
    a ++ b <+: r ↔ a <+: r ∧ b <+: r.drop a.length := by
  constructor
  · rintro ⟨t, rfl⟩
    refine ⟨⟨b ++ t, (List.append_assoc ..).symm⟩, t, ?_⟩
    rw [List.append_assoc, List.drop_left]
  · rintro ⟨⟨t, rfl⟩, u, hu⟩
    rw [List.drop_left] at hu
    exact ⟨u, by rw [List.append_assoc, hu]⟩

theorem prefix_replicate_iff {l : List α} {n : ℕ} {a : α} (hlen : l.length ≤ n) :
    l <+: List.replicate n a ↔ ∀ b ∈ l, b = a := by
  constructor
  · intro h b hb
    exact List.eq_of_mem_replicate (h.subset hb)
  · intro h
    refine ⟨List.replicate (n - l.length) a, ?_⟩
    nth_rewrite 1 [List.eq_replicate_of_mem h]
    rw [List.replicate_append_replicate, Nat.add_sub_cancel' hlen]

end Lists

/-- A prefix of some bytes is still a prefix after a cut at `j` that is filled up with
zeros iff it had only zeros behind the cut. -/
theorem prefix_copyFresh_take_iff {e bytes : List UInt8} (h : e <+: bytes) (j : ℕ) :
    e <+: copyFresh bytes.length (bytes.take j) ↔ ∀ b ∈ e.drop j, b = 0 := by
  have hle := h.length_le
  have htake : (bytes.take j).take bytes.length = bytes.take j :=
    List.take_of_length_le (List.length_take_le' ..)
  unfold copyFresh
  rw [htake, List.length_take]
  by_cases hj : e.length ≤ j
  · rw [List.drop_eq_nil_of_le hj]
    refine iff_of_true ?_ (by simp)
    exact (List.prefix_take_iff.mpr ⟨h, hj⟩).trans (List.prefix_append ..)
  · have hcut : e.take j = bytes.take j := by
      obtain ⟨t, rfl⟩ := h
      rw [List.take_append_of_le_length (by omega)]
    rw [Nat.min_eq_left (by omega), ← hcut]
    nth_rewrite 1 [← List.take_append_drop j e]
    rw [List.prefix_append_right_inj]
    exact prefix_replicate_iff (by rw [List.length_drop]; omega)

/-- The first sub-packet that the parser reads. -/
def firstSub (r : List UInt8) : SubPacket where
  userID := UInt32.ofNat (getUint (r.take 4))
  data := copyFresh (getUint ((r.drop 4).take 2)) (r.drop 6)

theorem readSubPackets_firstSub (fuel : ℕ) {r : List UInt8} (h : 7 ≤ r.length) :
    readSubPackets (fuel + 1) r =
      firstSub r :: readSubPackets fuel (r.drop (6 + (firstSub r).data.length)) := by
  rw [readSubPackets_succ, if_neg (by omega), List.drop_drop, firstSub, length_copyFresh]

/-- The first sub-packet read is the one sent iff its bytes are there unchanged. -/
theorem firstSub_eq_iff {s : SubPacket} {r : List UInt8} (hlen : s.data.length < 65536)
    (hroom : 6 + s.data.length ≤ r.length) : firstSub r = s ↔ encodeSub s <+: r := by
  have hdrop : (r.drop 4).drop 2 = r.drop 6 := List.drop_drop
  have hid : putUint 4 s.userID.toNat <+: r ↔ UInt32.ofNat (getUint (r.take 4)) = s.userID := by
    rw [putUint_prefix_iff (by simpa using s.userID.toNat_lt) (by omega), ← UInt32.toNat_inj,
      UInt32.toNat_ofNat', Nat.mod_eq_of_lt]
    exact (getUint_lt _).trans_le (Nat.pow_le_pow_right (by decide) (List.length_take_le ..))
  have hcount : putUint 2 s.data.length <+: r.drop 4 ↔
      getUint ((r.drop 4).take 2) = s.data.length :=
    putUint_prefix_iff hlen (by rw [List.length_drop]; omega)
  have hdata : s.data <+: r.drop 6 ↔ copyFresh s.data.length (r.drop 6) = s.data := by
    have hpad : s.data.length - (r.drop 6).length = 0 := by
      rw [List.length_drop]
      omega
    rw [List.prefix_iff_eq_take, copyFresh, hpad, List.replicate_zero, List.append_nil, eq_comm]
  rw [encodeSub, append_prefix_iff, append_prefix_iff, List.length_append, length_putUint,
    length_putUint, hid, hcount, hdata]
  constructor
  · rintro rfl
    refine ⟨⟨rfl, ?_⟩, ?_⟩
    · exact (length_copyFresh ..).symm
    · unfold firstSub
      rw [length_copyFresh]
  · rintro ⟨⟨huser, hnum⟩, hcopy⟩
    unfold firstSub
    rw [huser, hnum, hcopy]

/-- What the parser reads from as many bytes as were sent is a prefix of what was sent
iff the bytes of the visible sub-packets are there unchanged. -/
theorem readSubPackets_prefix_iff {subs : List SubPacket} {r : List UInt8} {fuel : ℕ}
    (hlen : ∀ s ∈ subs, s.data.length < 65536) (hr : r.length = (encode subs).length)
    (hfuel : r.length ≤ fuel) :
    readSubPackets fuel r <+: subs ↔ encode (visible subs) <+: r := by
  induction subs generalizing r fuel with
  | nil =>
    have hnil : r = [] := List.length_eq_zero_iff.mp hr
    subst hnil
    refine iff_of_true ?_ List.nil_prefix
    cases fuel <;> simp [readSubPackets]
  | cons s subs ih =>
    rw [encode_cons, List.length_append, length_encodeSub] at hr
    obtain ⟨fuel, rfl⟩ : ∃ m, fuel = m + 1 := ⟨fuel - 1, by omega⟩
    by_cases hlast : subs = [] ∧ s.data = []
    · have hshort : r.length < 7 := by
        rw [hlast.1, hlast.2] at hr
        simp at hr
        omega
      rw [readSubPackets_succ, if_pos hshort, visible, if_pos hlast]
      exact iff_of_true List.nil_prefix List.nil_prefix
    · have hlong : 7 ≤ r.length := by
        by_cases hsubs : subs = []
        · have := List.length_pos_of_ne_nil fun hd => hlast ⟨hsubs, hd⟩
          omega
        · obtain ⟨t, rest, rfl⟩ := List.exists_cons_of_ne_nil hsubs
          rw [encode_cons, List.length_append, length_encodeSub] at hr
          omega
      have hfirst := firstSub_eq_iff (hlen s (List.mem_cons_self ..)) (by omega : _ ≤ r.length)
      rw [readSubPackets_firstSub fuel hlong, visible, if_neg hlast, List.cons_prefix_cons,
        encode_cons, append_prefix_iff, hfirst, length_encodeSub]
      refine and_congr_right fun hs => ?_
      rw [hfirst.mpr hs]
      exact ih (fun t ht => hlen t (List.mem_cons_of_mem _ ht))
        (by rw [List.length_drop]; omega) (by rw [List.length_drop]; omega)

theorem keptSubs_forward (h : Packet) (pkt : List UInt8) : keptSubs (forward h pkt) = [] := by
  rw [forward_eq]
  split
  · rfl
  · split <;> rfl

theorem keptSubs_map {f : SubPacket → Effect} (hf : ∀ sub, keptSub (f sub) = some sub)
    (subs : List SubPacket) : keptSubs (.ok (subs.map f)) = subs := by
  have hcomp : keptSub ∘ f = some := funext hf
  rw [keptSubs, List.filterMap_map, hcomp, List.filterMap_some]

section Arrived
variable {pkt : List UInt8} (hfit : pkt.length = headerSize + (header pkt).payloadLen.toNat)
include hfit

theorem subPackets_eq_nil (h : ¬ HasData pkt) : subPackets pkt = [] := by
  refine (readSubPackets_eq_nil_iff _).mpr ?_
  rw [length_payload (by omega)]
  by_contra h7
  exact h ⟨by omega, by omega⟩

theorem keptSubs_submitAll (hend : RequestEnds (header pkt)) :
    keptSubs (submitAll (header pkt) pkt) =
      if SlotEmpty (header pkt) ((header pkt).hopPos.toNat + 1) then [] else subPackets pkt := by
  have hpos : (header pkt).hopPos.toNat + 1 < 4 := by
    have := hend.pos_le
    omega
  rw [submitAll_eq (by omega) hpos]
  by_cases hslot : SlotEmpty (header pkt) ((header pkt).hopPos.toNat + 1)
  · rw [if_pos hslot, if_neg fun h => h.2 ((slotEmpty_iff hpos).mp hslot)]
    rfl
  · have hip := fun h => hslot ((slotEmpty_iff hpos).mpr h)
    rw [if_neg hslot]
    by_cases hdata : HasData pkt
    · rw [if_pos ⟨hdata, hip⟩]
      exact keptSubs_map (fun _ => rfl) _
    · rw [if_neg fun h => hdata h.1, subPackets_eq_nil hfit hdata]
      rfl

theorem keptSubs_deliverAll : keptSubs (deliverAll pkt) = subPackets pkt := by
  rw [deliverAll_eq (by omega)]
  by_cases hdata : HasData pkt
  · rw [if_pos hdata]
    exact keptSubs_map (fun _ => rfl) _
  · rw [if_neg hdata, subPackets_eq_nil hfit hdata]
    rfl

/-- A node hands on what it reads, if the packet has arrived there. -/
theorem keptSubs_handleQUICPacket :
    keptSubs (handleQUICPacket pkt) = if Arrives (header pkt) then subPackets pkt else [] := by
  rw [handleQUICPacket_eq (by omega)]
  by_cases hport : (header pkt).port ≠ 0
  · have harrives : Arrives (header pkt) ↔ RequestEnds (header pkt) ∧
        ¬ SlotEmpty (header pkt) ((header pkt).hopPos.toNat + 1) := by rw [Arrives, if_pos hport]
    simp only [if_pos hport, harrives]
    by_cases hend : RequestEnds (header pkt)
    · rw [if_pos hend, keptSubs_submitAll hfit hend]
      simp only [hend, true_and, ite_not]
    · rw [if_neg hend, if_neg fun h => hend h.1, keptSubs_forward]
  · have harrives : Arrives (header pkt) ↔ ResponseEnds (header pkt) := by
      rw [Arrives, if_neg hport]
    simp only [if_neg hport, harrives]
    split
    · exact keptSubs_deliverAll hfit
    · exact keptSubs_forward ..

end Arrived

section Cut
variable (p : WirePacket)

theorem WirePacket.length_bytes : p.bytes.length = headerSize + (encode p.subs).length := by
  rw [WirePacket.bytes, List.length_append, p.head_length]

theorem WirePacket.length_data {s : SubPacket} (h : s ∈ p.subs) : s.data.length < 65536 := by
  have hdata := length_data_le h
  have hbound := (header p.head).payloadLen.toNat_lt
  have hann := p.announced
  omega

theorem WirePacket.take_bytes (j : ℕ) :
    p.bytes.take (headerSize + j) = p.head ++ (encode p.subs).take j := by
  rw [WirePacket.bytes, ← p.head_length, List.take_length_add_append]

theorem header_append {head : List UInt8} (hlen : head.length = headerSize) (rest : List UInt8) :
    header (head ++ rest) = header head := by
  refine header_congr ?_
  rw [← hlen, List.take_left, List.take_length]

/-- A cut behind the header is filled up with zeros to the announced length. -/
theorem receive_cut {j : ℕ} (hj : 0 < j) (hlt : j < (encode p.subs).length) :
    receive (p.bytes.take (headerSize + j)) =
      some (p.head ++ copyFresh (encode p.subs).length ((encode p.subs).take j)) := by
  have hlen : ((encode p.subs).take j).length = j := by
    rw [List.length_take]
    omega
  rw [p.take_bytes, receive_eq_some_iff, header_append p.head_length, p.announced,
    List.length_append, p.head_length, hlen]
  refine ⟨by omega, Or.inr (by omega), ?_⟩
  rw [← p.head_length, List.take_left, List.drop_left]

theorem receive_header {k : ℕ} (hk : k ≤ headerSize) (hlt : k < p.bytes.length) :
    receive (p.bytes.take k) = none := by
  have hlen := p.length_bytes
  refine Option.eq_none_iff_forall_ne_some.mpr fun pkt h => ?_
  obtain ⟨hlong, hrest, -⟩ := receive_eq_some_iff.mp h
  rw [List.length_take] at hlong hrest
  obtain rfl : k = headerSize := by omega
  have hpay : (header (p.bytes.take headerSize)).payloadLen = (header p.head).payloadLen := by
    rw [← Nat.add_zero headerSize, p.take_bytes, header_append p.head_length]
  rw [hpay, ← UInt16.toNat_inj, p.announced, UInt16.toNat_zero] at hrest
  omega

theorem subPackets_cut (j : ℕ) :
    subPackets (p.head ++ copyFresh (encode p.subs).length ((encode p.subs).take j)) <+: p.subs ↔
      ∀ b ∈ (encode (visible p.subs)).drop j, b = 0 := by
  have hpayload : payload
      (p.head ++ copyFresh (encode p.subs).length ((encode p.subs).take j)) =
        copyFresh (encode p.subs).length ((encode p.subs).take j) := by
    unfold payload
    rw [header_append p.head_length, p.announced, ← p.head_length, List.take_length_add_append,
      List.drop_left, List.take_of_length_le (length_copyFresh ..).le]
  unfold subPackets
  rw [hpayload, readSubPackets_prefix_iff (fun s => p.length_data) (length_copyFresh ..) le_rfl]
  exact prefix_copyFresh_take_iff ((visible_isPrefix _).flatMap _) j

end Cut

/-- What a node hands on for a stream that ends too early is a prefix of what was sent
iff it got no more than the header, the packet goes on to another node, or the missing
bytes of the sub-packets are zeros. -/
theorem truncated_prefix_iff (p : WirePacket) (k : Fin p.bytes.length) :
    delivered (p.bytes.take k) <+: p.subs ↔
      k.val ≤ headerSize ∨ ¬ Arrives (header p.head) ∨
        ∀ b ∈ (encode (visible p.subs)).drop (k.val - headerSize), b = 0 := by
  have hlen := p.length_bytes
  obtain ⟨k, hk⟩ := k
  by_cases hhead : k ≤ headerSize
  · refine iff_of_true ?_ (Or.inl hhead)
    unfold delivered
    rw [receive_header p hhead hk]
    exact List.nil_prefix
  · obtain ⟨j, rfl⟩ : ∃ j, k = headerSize + j := ⟨k - headerSize, by omega⟩
    have hreceive := receive_cut p (by omega : 0 < j) (by omega)
    have hfit := receive_length hreceive
    have hheader : header (p.head ++ copyFresh (encode p.subs).length ((encode p.subs).take j)) =
        header p.head := header_append p.head_length _
    unfold delivered
    rw [hreceive]
    simp only
    rw [keptSubs_handleQUICPacket hfit, hheader, Nat.add_sub_cancel_left, ← subPackets_cut p j]
    by_cases harrives : Arrives (header p.head)
    · simp only [harrives, if_true, hhead, not_true, false_or]
    · simp only [harrives, if_false, not_false_eq_true, true_or, or_true, iff_true]
      exact List.nil_prefix

/-- A request at its last node with two sub-packets. -/
def twoRequests : WirePacket where
  head := [2, 10, 0, 0, 1, 10, 0, 0, 2, 10, 0, 0, 3, 10, 0, 0, 4, 0, 15, 31, 145, 6, 0, 0]
  subs := [⟨7, [1, 2]⟩, ⟨9, [5]⟩]
  head_length := rfl
  announced := by decide +kernel

/-- Without its last eight bytes the first request reaches the origin with a changed
byte; one byte more, and it is followed by an empty request of user 0. -/
theorem cut_request_changed :
    32 < twoRequests.bytes.length ∧
      delivered (twoRequests.bytes.take 31) = [⟨7, [1, 0]⟩, ⟨0, []⟩] ∧
      delivered (twoRequests.bytes.take 32) = [⟨7, [1, 2]⟩, ⟨0, []⟩] ∧
      ¬ delivered (twoRequests.bytes.take 31) <+: twoRequests.subs ∧
      ¬ delivered (twoRequests.bytes.take 32) <+: twoRequests.subs := by
  decide +kernel

end Arcturus.TruncatedStreams
