import Arcturus.TunnelHandler

/-!
When the packet handler and the origin request stay inside their arrays. The
next-hop position is a byte that comes from the network and the handler does not
check it; the origin request takes the second address of a list that can be too
short. One lemma for each function says what it does in terms of the header.
-/

namespace Arcturus.TunnelSafety

open Bytes TunnelPacket Addresses TunnelHandler

/-- The header of a packet that is long enough. -/
def header (pkt : List UInt8) : Packet :=
  readHeader (pkt.take headerSize) { newPacket 0 with buf := pkt.take headerSize, wp := 0 }

theorem parseHeader_eq {pkt : List UInt8} (h : headerSize ≤ pkt.length) :
    parseHeader pkt = .ok (header pkt) := by
  unfold parseHeader
  rw [if_neg (by omega)]
  rfl

theorem field_take {pkt : List UInt8} {i j n : ℕ} (h : j ≤ n) :
    field (pkt.take n) i j = field pkt i j := by
  rw [field, List.take_take, Nat.min_eq_left h, field]

/-- The payload that the header announces. -/
def payload (pkt : List UInt8) : List UInt8 :=
  (pkt.take (headerSize + (header pkt).payloadLen.toNat)).drop headerSize

/-- Parsing a whole packet fails only on a payload length beyond its end. -/
theorem parse_self {pkt : List UInt8} (h : headerSize ≤ pkt.length) :
    (pkt.length < headerSize + (header pkt).payloadLen.toNat ∧
      parse pkt pkt.length = .error (.error "invalid payload length")) ∨
    (headerSize + (header pkt).payloadLen.toNat ≤ pkt.length ∧
      ∃ p, parse pkt pkt.length =
        .ok (p, readSubPackets (payload pkt).length (payload pkt))) := by
  have hcopy : copyFresh pkt.length pkt = pkt := by simp [copyFresh]
  have hlen : ∀ p, (readHeader pkt p).payloadLen = (header pkt).payloadLen := by
    intro p
    simp only [header, readHeader, field_take (by decide : 19 ≤ headerSize)]
  unfold parse
  rw [if_neg (by omega), hcopy, if_neg (by omega)]
  simp only [hlen]
  by_cases hfit : headerSize + (header pkt).payloadLen.toNat ≤ pkt.length
  · rw [if_neg (by omega)]
    exact Or.inr ⟨hfit, _, rfl⟩
  · rw [if_pos (Or.inl (by omega))]
    exact Or.inl ⟨by omega, rfl⟩

theorem readSubPackets_eq_nil_iff (r : List UInt8) :
    readSubPackets r.length r = [] ↔ r.length < 7 := by
  cases hr : r.length with
  | zero => simp [readSubPackets]
  | succ fuel =>
    rw [readSubPackets_succ]
    split
    · simp only [true_iff]
      omega
    · simp only [reduceCtorEq, false_iff]
      omega

theorem hopAt_ok {h : Packet} {i : ℕ} (hi : i < 4) : hopAt h i = .ok h.hopIP[i] := by
  simp [hopAt, hi]

theorem hopAt_panic {h : Packet} {i : ℕ} (hi : 4 ≤ i) : hopAt h i = .error .panic := by
  have hnone : h.hopIP[i]? = none := by simpa using hi
  unfold hopAt
  rw [hnone]

/-- The slot with this index is empty; there is no slot beyond the fourth. -/
def SlotEmpty (h : Packet) (i : ℕ) : Prop := h.hopIP[i]? = some 0

instance (h : Packet) (i : ℕ) : Decidable (SlotEmpty h i) :=
  inferInstanceAs (Decidable (h.hopIP[i]? = some 0))

theorem slotEmpty_iff {h : Packet} {i : ℕ} (hi : i < 4) : SlotEmpty h i ↔ h.hopIP[i] = 0 := by
  simp [SlotEmpty, hi]

/-- The node that finds this header treats the packet as arrived. -/
def EndsHere (h : Packet) (offset last : UInt8) : Prop :=
  h.hopPos = last ∨ h.hopPos.toNat + offset.toNat < 4 ∧ SlotEmpty h (h.hopPos.toNat + offset.toNat)

instance (h : Packet) (offset last : UInt8) : Decidable (EndsHere h offset last) :=
  inferInstanceAs (Decidable (_ ∨ _ ∧ _))

def RequestEnds (h : Packet) : Prop := EndsHere h 2 2

def ResponseEnds (h : Packet) : Prop := EndsHere h 1 3

instance (h : Packet) : Decidable (RequestEnds h) := inferInstanceAs (Decidable (EndsHere h 2 2))

instance (h : Packet) : Decidable (ResponseEnds h) := inferInstanceAs (Decidable (EndsHere h 1 3))

theorem isLastHop_eq (h : Packet) (offset last : UInt8) :
    isLastHop h offset last = .ok (decide (EndsHere h offset last)) := by
  unfold isLastHop
  by_cases hlt : h.hopPos.toNat + offset.toNat < maxHops
  · have hindex : (h.hopPos + offset).toNat = h.hopPos.toNat + offset.toNat := by
      rw [UInt8.toNat_add]
      simp only [maxHops] at hlt
      exact Nat.mod_eq_of_lt (by omega)
    rw [if_pos hlt, hindex, hopAt_ok hlt]
    change Except.ok _ = _
    rw [Except.ok.injEq, Bool.eq_iff_iff, Bool.or_eq_true, beq_iff_eq, beq_iff_eq,
      decide_eq_true_iff, EndsHere, slotEmpty_iff hlt, or_comm]
    exact or_congr_right (iff_and_self.mpr fun _ => hlt)
  · rw [if_neg hlt]
    change Except.ok _ = _
    rw [Except.ok.injEq, Bool.eq_iff_iff, beq_iff_eq, decide_eq_true_iff, EndsHere]
    exact (or_iff_left fun hand => hlt hand.1).symm

/-- Forwarding uses the slot after the position, where position 255 wraps to the first. -/
theorem forward_eq (h : Packet) (pkt : List UInt8) :
    forward h pkt =
      if hlt : h.hopPos.toNat < 3 then .ok [.send h.hopIP[h.hopPos.toNat + 1] (advanceRawHop pkt)]
      else if h.hopPos.toNat = 255 then .ok [.send h.hopIP[0] (advanceRawHop pkt)]
      else .error .panic := by
  have hpos := h.hopPos.toNat_lt
  have hsum : (h.hopPos + 1).toNat = (h.hopPos.toNat + 1) % 256 := UInt8.toNat_add ..
  unfold forward
  split
  · rename_i hlt
    rw [hsum, Nat.mod_eq_of_lt (by omega), hopAt_ok (by omega)]
    rfl
  · split
    · rename_i h255
      rw [hsum, h255]
      change (hopAt h 0 >>= _) = _
      rw [hopAt_ok (by decide)]
      rfl
    · rw [hsum, Nat.mod_eq_of_lt (by omega), hopAt_panic (by omega)]
      rfl

theorem handleQUICPacket_eq {pkt : List UInt8} (h : headerSize ≤ pkt.length) :
    handleQUICPacket pkt =
      if (header pkt).port ≠ 0 then
        if RequestEnds (header pkt) then submitAll (header pkt) pkt else forward (header pkt) pkt
      else
        if ResponseEnds (header pkt) then deliverAll pkt else forward (header pkt) pkt := by
  have hreq : isLastHopRequest (header pkt) = .ok (decide (RequestEnds (header pkt))) :=
    isLastHop_eq ..
  have hres : isLastHopResponse (header pkt) = .ok (decide (ResponseEnds (header pkt))) :=
    isLastHop_eq ..
  unfold handleQUICPacket
  rw [if_neg (by omega), parseHeader_eq h]
  simp only [hreq, hres]
  split
  · by_cases hend : RequestEnds (header pkt)
    · rw [if_pos hend, decide_eq_true hend]
      rfl
    · rw [if_neg hend, decide_eq_false hend]
      rfl
  · by_cases hend : ResponseEnds (header pkt)
    · rw [if_pos hend, decide_eq_true hend]
      rfl
    · rw [if_neg hend, decide_eq_false hend]
      rfl

theorem length_payload {pkt : List UInt8}
    (h : headerSize + (header pkt).payloadLen.toNat ≤ pkt.length) :
    (payload pkt).length = (header pkt).payloadLen.toNat := by
  unfold payload
  rw [List.length_drop, List.length_take, Nat.min_eq_left h, Nat.add_sub_cancel_left]

/-- The sub-packets that a node reads from a packet. -/
def subPackets (pkt : List UInt8) : List SubPacket :=
  readSubPackets (payload pkt).length (payload pkt)

/-- The packet has room for the payload it announces, and that holds some data. -/
def HasData (pkt : List UInt8) : Prop :=
  7 ≤ (header pkt).payloadLen.toNat ∧ headerSize + (header pkt).payloadLen.toNat ≤ pkt.length

instance (pkt : List UInt8) : Decidable (HasData pkt) := inferInstanceAs (Decidable (_ ∧ _))

theorem parse_cases {pkt : List UInt8} (h : headerSize ≤ pkt.length) :
    (HasData pkt ∧ subPackets pkt ≠ [] ∧ ∃ p, parse pkt pkt.length = .ok (p, subPackets pkt)) ∨
    (¬ HasData pkt ∧ ((∃ p, parse pkt pkt.length = .ok (p, [])) ∨
      ∃ msg, parse pkt pkt.length = .error (.error msg))) := by
  rcases parse_self h with ⟨hshort, hparse⟩ | ⟨hfit, p, hparse⟩
  · exact Or.inr ⟨fun hd => absurd hd.2 (by omega), Or.inr ⟨_, hparse⟩⟩
  · have hlen := length_payload hfit
    have hnil := readSubPackets_eq_nil_iff (payload pkt)
    by_cases h7 : 7 ≤ (header pkt).payloadLen.toNat
    · refine Or.inl ⟨⟨h7, hfit⟩, ?_, p, hparse⟩
      exact fun he => absurd (hnil.mp he) (by omega)
    · refine Or.inr ⟨fun hd => h7 hd.1, Or.inl ⟨p, ?_⟩⟩
      rw [hparse, hnil.mpr (by omega)]

/-- The task for one sub-packet of a request. -/
def originTask (h : Packet) (originIP : UInt32) (sub : SubPacket) : BackSourceTask where
  hopIP := h.hopIP
  port := h.port
  userID := sub.userID
  originAddr := joinHostPort (ipString originIP) (toString h.port.toNat)
  reqData := sub.data

theorem submitAll_eq {pkt : List UInt8} (h : headerSize ≤ pkt.length)
    (hpos : (header pkt).hopPos.toNat + 1 < 4) :
    submitAll (header pkt) pkt =
      if HasData pkt ∧ (header pkt).hopIP[(header pkt).hopPos.toNat + 1] ≠ 0 then
        .ok ((subPackets pkt).map fun sub => .submit (protocolName (header pkt))
          (originTask (header pkt) (header pkt).hopIP[(header pkt).hopPos.toNat + 1] sub))
      else .ok [] := by
  unfold submitAll
  rcases parse_cases h with ⟨hd, hne, p, hparse⟩ | ⟨hnd, ⟨p, hparse⟩ | ⟨msg, hparse⟩⟩
  · have hlen : ¬ (subPackets pkt).length = 0 := fun he => hne (List.length_eq_zero_iff.mp he)
    rw [hparse]
    simp only [hlen, if_false, hopAt_ok hpos]
    change (if _ then _ else _) = _
    by_cases hz : (header pkt).hopIP[(header pkt).hopPos.toNat + 1] = 0
    · rw [if_pos (ipString_eq_zero_iff.mpr hz), if_neg fun hand => hand.2 hz]
      rfl
    · rw [if_neg fun he => hz (ipString_eq_zero_iff.mp he), if_pos ⟨hd, hz⟩]
      rfl
  · rw [hparse, if_neg fun hand => hnd hand.1]
    rfl
  · rw [hparse, if_neg fun hand => hnd hand.1]

theorem deliverAll_eq {pkt : List UInt8} (h : headerSize ≤ pkt.length) :
    deliverAll pkt =
      if HasData pkt then .ok ((subPackets pkt).map fun sub => .deliver sub.userID sub.data)
      else .ok [] := by
  unfold deliverAll
  rcases parse_cases h with ⟨hd, -, p, hparse⟩ | ⟨hnd, ⟨p, hparse⟩ | ⟨msg, hparse⟩⟩
  · rw [hparse, if_pos hd]
  · rw [hparse, if_neg hnd]
    rfl
  · rw [hparse, if_neg hnd]

/-- The number of addresses in a header. -/
def filledSlots (h : Packet) : ℕ := h.hopIP.toList.countP (· ≠ 0)

theorem length_reversedHops (h : Packet) : (reversedHops h.hopIP).length = filledSlots h := by
  unfold reversedHops
  rw [← List.countP_eq_length_filter, List.countP_reverse]
  rfl

/-- The origin request needs two addresses besides the origin. -/
theorem doOriginRequest_panics_iff {task : BackSourceTask} {resp : List UInt8} (hne : resp ≠ []) :
    doOriginRequest task (some resp) = .error .panic ↔ (reversedHops task.hopIP).length ≤ 2 := by
  have hlen : ¬ resp.length = 0 := fun he => hne (List.length_eq_zero_iff.mp he)
  have hcount : (responseHops task.hopIP).length ≤ 1 ↔ (reversedHops task.hopIP).length ≤ 2 := by
    rw [responseHops]
    split
    · rw [List.length_drop]
      omega
    · omega
  simp only [doOriginRequest, hlen, if_false]
  rw [← hcount]
  split
  · rename_i hget
    exact iff_of_true rfl (List.getElem?_eq_none_iff.mp hget)
  · rename_i next hget
    obtain ⟨hlt, -⟩ := List.getElem?_eq_some_iff.mp hget
    exact iff_of_false (by simp) (by omega)

/-- This is not a panic, and no task among the effects panics on an answer. -/
def CrashFree (result : Except Failure (List Effect)) : Prop :=
  result ≠ .error .panic ∧
    ∀ effects, result = .ok effects → ∀ protocol task, .submit protocol task ∈ effects →
      ∀ resp, resp ≠ [] → doOriginRequest task (some resp) ≠ .error .panic

/-- Neither the handler nor the origin request of a task it submits panics. -/
def NoCrash (pkt : List UInt8) : Prop := CrashFree (handleQUICPacket pkt)

theorem crashFree_ok_iff {effects : List Effect} :
    CrashFree (.ok effects) ↔ ∀ protocol task, .submit protocol task ∈ effects →
      ∀ resp, resp ≠ [] → doOriginRequest task (some resp) ≠ .error .panic := by
  simp [CrashFree]

/-- The position of a request is at most two, that of a response at most three, or
255 in both cases; and a request that is handed to an origin names two more nodes. -/
def SafeHeader (pkt : List UInt8) : Prop :=
  pkt.length < headerSize ∨
  (header pkt).port ≠ 0 ∧
    ((header pkt).hopPos.toNat ≤ 2 ∨ (header pkt).hopPos.toNat = 255) ∧
    (RequestEnds (header pkt) → HasData pkt →
      ¬ SlotEmpty (header pkt) ((header pkt).hopPos.toNat + 1) → 3 ≤ filledSlots (header pkt)) ∨
  (header pkt).port = 0 ∧ ((header pkt).hopPos.toNat ≤ 3 ∨ (header pkt).hopPos.toNat = 255)

theorem RequestEnds.pos_le {h : Packet} (hend : RequestEnds h) : h.hopPos.toNat ≤ 2 := by
  rcases hend with h2 | ⟨hlt, -⟩
  · rw [h2]
    decide
  · change _ + 2 < 4 at hlt
    omega

theorem ResponseEnds.pos_le {h : Packet} (hend : ResponseEnds h) : h.hopPos.toNat ≤ 3 := by
  rcases hend with h3 | ⟨hlt, -⟩
  · rw [h3]
    decide
  · omega

/-- Forwarding panics for every position from three to 254. -/
theorem forward_ok_iff (h : Packet) (pkt : List UInt8) :
    forward h pkt ≠ .error .panic ↔ h.hopPos.toNat ≤ 2 ∨ h.hopPos.toNat = 255 := by
  rw [forward_eq]
  split
  · rename_i hlt
    simp only [ne_eq, reduceCtorEq, not_false_eq_true, true_iff]
    omega
  · split
    · simp_all
    · rename_i hlt h255
      simp only [ne_eq, not_true_eq_false, false_iff]
      omega

theorem forward_no_submit {h : Packet} {pkt : List UInt8} {effects : List Effect}
    (hf : forward h pkt = .ok effects) (protocol : String) (task : BackSourceTask) :
    .submit protocol task ∉ effects := by
  rw [forward_eq] at hf
  split at hf
  · rw [Except.ok.injEq] at hf
    simp [← hf]
  · split at hf
    · rw [Except.ok.injEq] at hf
      simp [← hf]
    · simp at hf

/-- The tasks that a request hands to an origin all have the slots of the header. -/
theorem crashFree_submitAll {pkt : List UInt8} (h : headerSize ≤ pkt.length)
    (hpos : (header pkt).hopPos.toNat ≤ 2) :
    CrashFree (submitAll (header pkt) pkt) ↔
      (HasData pkt → ¬ SlotEmpty (header pkt) ((header pkt).hopPos.toNat + 1) →
        3 ≤ filledSlots (header pkt)) := by
  have hlt : (header pkt).hopPos.toNat + 1 < 4 := by omega
  have hcount := length_reversedHops (header pkt)
  have htask : ∀ ip sub resp, resp ≠ [] →
      (doOriginRequest (originTask (header pkt) ip sub) (some resp) ≠ .error .panic ↔
        3 ≤ filledSlots (header pkt)) := by
    intro ip sub resp hresp
    rw [ne_eq, doOriginRequest_panics_iff hresp]
    change ¬ (reversedHops (header pkt).hopIP).length ≤ 2 ↔ _
    omega
  rw [submitAll_eq h hlt, slotEmpty_iff hlt]
  split
  · rename_i hd
    obtain ⟨sub, hsub⟩ : ∃ sub, sub ∈ subPackets pkt := by
      rcases parse_cases h with ⟨-, hne, -⟩ | ⟨hnd, -⟩
      · exact List.exists_mem_of_ne_nil _ hne
      · exact absurd hd.1 hnd
    rw [crashFree_ok_iff]
    constructor
    · intro hall _ _
      exact (htask _ _ [0] (by simp)).mp (hall _ _ (List.mem_map_of_mem hsub) [0] (by simp))
    · intro hfilled protocol task hmem resp hresp
      obtain ⟨sub', -, heq⟩ := List.mem_map.mp hmem
      obtain ⟨-, rfl⟩ := Effect.submit.inj heq
      exact (htask _ _ _ hresp).mpr (hfilled hd.1 hd.2)
  · rename_i hd
    exact iff_of_true (crashFree_ok_iff.mpr fun _ _ hmem => absurd hmem List.not_mem_nil)
      fun h1 h2 => absurd ⟨h1, h2⟩ hd

/-- A forwarded packet makes no task, so only the position matters. -/
theorem crashFree_forward (h : Packet) (pkt : List UInt8) :
    CrashFree (forward h pkt) ↔ h.hopPos.toNat ≤ 2 ∨ h.hopPos.toNat = 255 := by
  unfold CrashFree
  rw [forward_ok_iff, and_iff_left_iff_imp]
  intro _ effects hf protocol task hmem
  exact absurd hmem (forward_no_submit hf protocol task)

theorem crashFree_deliverAll {pkt : List UInt8} (h : headerSize ≤ pkt.length) :
    CrashFree (deliverAll pkt) := by
  rw [deliverAll_eq h]
  split
  · exact crashFree_ok_iff.mpr fun _ _ hmem => by simp at hmem
  · exact crashFree_ok_iff.mpr fun _ _ hmem => absurd hmem List.not_mem_nil

/-- Exactly the packets with a safe header cannot crash the proxy. -/
theorem noCrash_iff (pkt : List UInt8) : NoCrash pkt ↔ SafeHeader pkt := by
  unfold NoCrash
  rw [SafeHeader]
  by_cases hshort : pkt.length < headerSize
  · have hnil : handleQUICPacket pkt = .ok [] := by rw [handleQUICPacket, if_pos hshort]
    rw [hnil, crashFree_ok_iff]
    exact iff_of_true (fun _ _ hmem => absurd hmem List.not_mem_nil) (Or.inl hshort)
  have hlen : headerSize ≤ pkt.length := by omega
  rw [handleQUICPacket_eq hlen]
  by_cases hport : (header pkt).port = 0
  · rw [if_neg (not_not.mpr hport)]
    by_cases hend : ResponseEnds (header pkt)
    · rw [if_pos hend]
      exact iff_of_true (crashFree_deliverAll hlen) (Or.inr (Or.inr ⟨hport, Or.inl hend.pos_le⟩))
    · rw [if_neg hend, crashFree_forward]
      have hthree : (header pkt).hopPos.toNat ≠ 3 := fun h3 =>
        hend (Or.inl (UInt8.toNat_inj.mp h3))
      simp only [hport, ne_eq, not_true_eq_false, false_and, true_and, false_or]
      omega
  · rw [if_pos hport]
    by_cases hend : RequestEnds (header pkt)
    · have hpos := hend.pos_le
      rw [if_pos hend, crashFree_submitAll hlen hpos]
      simp only [hshort, hport, hpos, hend, ne_eq, not_false_eq_true, true_and, true_or,
        true_implies, false_and, false_or, or_false]
    · rw [if_neg hend, crashFree_forward]
      simp only [hshort, hport, hend, ne_eq, not_false_eq_true, true_and, false_implies,
        and_true, false_and, false_or, or_false]

/-- A request of twenty-four bytes with position three reads a fifth slot. -/
theorem position_three_crashes :
    ¬ NoCrash ([3] ++ List.replicate 19 0 ++ [80, 6, 0, 0]) := by
  intro h
  exact h.1 (by decide +kernel)

end Arcturus.TunnelSafety
