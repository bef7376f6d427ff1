import Arcturus.PacketCodec
import Arcturus.TunnelSafety
import Mathlib.Data.List.Chain
import Mathlib.Data.Set.Basic

/-!
Packets on their way through the overlay. A node reads the header and the
announced number of bytes from a stream and hands them to the packet handler,
which may send the packet on. The position in the header bounds the number of
times that can happen, except for position 255, which is not advanced and whose
successor wraps to the first slot.
-/

namespace Arcturus.Overlay

open TunnelPacket TunnelHandler PacketCodec TunnelSafety

/-- What the listener hands to the handler for the bytes of one stream. A payload cut
short is filled with zeros; a stream that ends right after the header is dropped. -/
def receive (stream : List UInt8) : Option (List UInt8) :=
  if stream.length < headerSize then none
  else
    let headerBuf := stream.take headerSize
    let payloadLen := UInt16.ofNat (field headerBuf 17 19)
    let content := stream.drop headerSize
    if 0 < payloadLen.toNat ∧ content = [] then none
    else some (headerBuf ++ copyFresh payloadLen.toNat content)

/-- A packet at the node that handles it. -/
structure Arrival where
  node : UInt32
  pkt : List UInt8

/-- The first node sends its packet on and the second one handles what it reads of it;
the connection may break at any byte. -/
def Hop (net : Set UInt32) (a b : Arrival) : Prop :=
  b.node ∈ net ∧ ∃ out stream, handleQUICPacket a.pkt = .ok [.send b.node out] ∧
    stream <+: out ∧ receive stream = some b.pkt

/-- The nodes that a packet visits, the first being the one where it is injected. -/
structure Journey (net : Set UInt32) (pkt : List UInt8) (visits : List Arrival) : Prop where
  start : visits.head?.map Arrival.pkt = some pkt
  nodes : ∀ a ∈ visits, a.node ∈ net
  hops : visits.IsChain (Hop net)

/-- What holds of the injected packet and is kept by every hop holds at every node. -/
theorem Journey.forall {net : Set UInt32} {pkt : List UInt8} {visits : List Arrival}
    {P : List UInt8 → Prop} (h : Journey net pkt visits)
    (hstep : ∀ a b, Hop net a b → P a.pkt → P b.pkt) (hpkt : P pkt) : ∀ v ∈ visits, P v.pkt := by
  refine h.hops.induction (fun v => P v.pkt) _ (fun a b hab ha => hstep a b hab ha) ?_
  intro hne
  have hstart := h.start
  rw [List.head?_eq_some_head hne, Option.map_some, Option.some.injEq] at hstart
  exact hstart ▸ hpkt

/-- The handler passes the packet to `SendPacket`. -/
def sendsOn (pkt : List UInt8) : Bool :=
  match handleQUICPacket pkt with
  | .ok [.send _ _] => true
  | _ => false

/-- The number of calls of `SendPacket` for a packet. -/
def sendCount (visits : List Arrival) : ℕ := visits.countP fun a => sendsOn a.pkt

/-- No journey sends the packet on more often than there are slots to go to, and none
goes on for ever. -/
structure LoopFree (pkt : List UInt8) : Prop where
  bounded : ∀ net visits, Journey net pkt visits → sendCount visits ≤ maxHops - 1
  finite : ∀ net (run : ℕ → Arrival), (run 0).pkt = pkt → ¬ ∀ i, Hop net (run i) (run (i + 1))

/-- In addition no node on the way panics, so the last one has kept or dropped the packet. -/
def Settles (pkt : List UInt8) : Prop :=
  LoopFree pkt ∧ ∀ net visits, Journey net pkt visits →
    ∀ a ∈ visits, handleQUICPacket a.pkt ≠ .error .panic

theorem header_congr {a b : List UInt8} (h : a.take headerSize = b.take headerSize) :
    header a = header b := by
  simp only [header, h]

theorem header_payloadLen (pkt : List UInt8) :
    (header pkt).payloadLen = UInt16.ofNat (field (pkt.take headerSize) 17 19) := rfl

/-- The header is read whole, and the length of the packet is the announced one. -/
theorem receive_eq_some_iff {stream pkt : List UInt8} :
    receive stream = some pkt ↔ headerSize ≤ stream.length ∧
      ((header stream).payloadLen = 0 ∨ headerSize < stream.length) ∧
      pkt = stream.take headerSize ++
        copyFresh (header stream).payloadLen.toNat (stream.drop headerSize) := by
  have hzero : (header stream).payloadLen = 0 ↔ ¬ 0 < (header stream).payloadLen.toNat := by
    rw [← UInt16.toNat_inj, UInt16.toNat_zero]
    omega
  unfold receive
  by_cases hlen : stream.length < headerSize
  · rw [if_pos hlen]
    simp only [reduceCtorEq, false_iff]
    omega
  · simp only [if_neg hlen, ← header_payloadLen, List.drop_eq_nil_iff, hzero]
    split
    · simp only [reduceCtorEq, false_iff]
      omega
    · rw [Option.some.injEq, eq_comm]
      constructor
      · intro h
        exact ⟨by omega, by omega, h⟩
      · exact fun h => h.2.2

theorem receive_take {stream pkt : List UInt8} (h : receive stream = some pkt) :
    pkt.take headerSize = stream.take headerSize := by
  obtain ⟨hlen, -, rfl⟩ := receive_eq_some_iff.mp h
  rw [List.take_append_of_le_length (by simp [hlen]), List.take_take, Nat.min_self]

theorem receive_length {stream pkt : List UInt8} (h : receive stream = some pkt) :
    pkt.length = headerSize + (header pkt).payloadLen.toNat := by
  rw [header_congr (receive_take h)]
  obtain ⟨hlen, -, rfl⟩ := receive_eq_some_iff.mp h
  rw [List.length_append, length_copyFresh, List.length_take, Nat.min_eq_left hlen]

/-- A packet of the announced length is received as it is. -/
theorem receive_self {pkt : List UInt8}
    (h : pkt.length = headerSize + (header pkt).payloadLen.toNat) : receive pkt = some pkt := by
  have hrest : (pkt.drop headerSize).length = (header pkt).payloadLen.toNat := by
    rw [List.length_drop]
    omega
  refine receive_eq_some_iff.mpr ⟨by omega, ?_, ?_⟩
  · rw [← UInt16.toNat_inj, UInt16.toNat_zero]
    omega
  · have htake : (pkt.drop headerSize).take (header pkt).payloadLen.toNat =
        pkt.drop headerSize := List.take_of_length_le (by omega)
    rw [copyFresh, hrest, htake, Nat.sub_self, List.replicate_zero, List.append_nil,
      List.take_append_drop]

theorem header_cons (b : UInt8) (rest : List UInt8) : (header (b :: rest)).hopPos = b := rfl

theorem header_cons_cons (b c : UInt8) (rest : List UInt8) :
    SameHeader (header (b :: rest)) { header (c :: rest) with hopPos := b } :=
  ⟨rfl, rfl, rfl, rfl, rfl⟩

/-- Relays change the position only, and not beyond the last slot. -/
theorem advanceRawHop_eq {pkt : List UInt8} (h : headerSize ≤ pkt.length) :
    advanceRawHop pkt =
      if (header pkt).hopPos.toNat < 3 then ((header pkt).hopPos + 1) :: pkt.tail else pkt := by
  cases pkt with
  | nil => exact absurd h (by decide)
  | cons b rest =>
    simp only [advanceRawHop, header_cons, h, true_and, List.tail_cons]
    rfl

theorem header_advanceRawHop {pkt : List UInt8} (h : headerSize ≤ pkt.length)
    (hpos : (header pkt).hopPos.toNat < 3) :
    SameHeader (header (advanceRawHop pkt))
      { header pkt with hopPos := (header pkt).hopPos + 1 } := by
  rw [advanceRawHop_eq h, if_pos hpos]
  cases pkt with
  | nil => exact absurd h (by decide)
  | cons b rest => exact header_cons_cons _ _ _

/-- The packet has arrived, seen from its header. -/
def Ends (h : Packet) : Prop := if h.port ≠ 0 then RequestEnds h else ResponseEnds h

theorem effects_ne_send {α : Type*} {f : α → Effect} (hf : ∀ a ip out, f a ≠ .send ip out)
    {l : List α} {ip : UInt32} {out : List UInt8} : l.map f ≠ [.send ip out] := by
  intro h
  have hmem : Effect.send ip out ∈ l.map f := h ▸ List.mem_cons_self ..
  obtain ⟨a, -, ha⟩ := List.mem_map.mp hmem
  exact hf a ip out ha

theorem forward_eq_ok_iff {h : Packet} {pkt out : List UInt8} {ip : UInt32} :
    forward h pkt = .ok [.send ip out] ↔
      h.hopIP[(h.hopPos + 1).toNat]? = some ip ∧ out = advanceRawHop pkt := by
  unfold forward
  rw [hopAt]
  cases h.hopIP[(h.hopPos + 1).toNat]? with
  | none => simp [bind, Except.bind]
  | some ip' => simp [bind, Except.bind, pure, Except.pure, eq_comm]

/-- The handler sends a packet on exactly when it has not arrived and there is a next slot. -/
theorem handle_eq_send_iff {pkt out : List UInt8} {ip : UInt32} :
    handleQUICPacket pkt = .ok [.send ip out] ↔ headerSize ≤ pkt.length ∧ ¬ Ends (header pkt) ∧
      (header pkt).hopIP[((header pkt).hopPos + 1).toNat]? = some ip ∧
      out = advanceRawHop pkt := by
  by_cases hlen : headerSize ≤ pkt.length
  · rw [handleQUICPacket_eq hlen, Ends, ← forward_eq_ok_iff]
    split
    · split
      · rename_i hend
        rw [submitAll_eq hlen (by have := hend.pos_le; omega)]
        refine iff_of_false ?_ fun h => h.2.1 hend
        split
        · rw [Except.ok.injEq]
          exact effects_ne_send (by simp)
        · simp
      · rename_i hend
        simp [hlen, hend]
    · split
      · rename_i hend
        rw [deliverAll_eq hlen]
        refine iff_of_false ?_ fun h => h.2.1 hend
        split
        · rw [Except.ok.injEq]
          exact effects_ne_send (by simp)
        · simp
      · rename_i hend
        simp [hlen, hend]
  · unfold handleQUICPacket
    rw [if_pos (by omega)]
    simp [hlen]

/-- A task comes from a request that has arrived, one for each of its sub-packets. -/
theorem submit_mem {pkt : List UInt8} {effects : List Effect} {protocol : String}
    {task : BackSourceTask} (h : handleQUICPacket pkt = .ok effects)
    (hmem : .submit protocol task ∈ effects) :
    (header pkt).port ≠ 0 ∧ RequestEnds (header pkt) ∧
      ∃ ip, (header pkt).hopIP[(header pkt).hopPos.toNat + 1]? = some ip ∧ ip ≠ 0 ∧
        ∃ sub ∈ subPackets pkt, task = originTask (header pkt) ip sub := by
  by_cases hlen : headerSize ≤ pkt.length
  · rw [handleQUICPacket_eq hlen] at h
    split at h
    · rename_i hport
      split at h
      · rename_i hend
        have hpos : (header pkt).hopPos.toNat + 1 < 4 := by
          have := hend.pos_le
          omega
        rw [submitAll_eq hlen hpos] at h
        split at h
        · rename_i hdata
          rw [Except.ok.injEq] at h
          subst h
          obtain ⟨sub, hsub, heq⟩ := List.mem_map.mp hmem
          obtain ⟨-, rfl⟩ := Effect.submit.inj heq
          exact ⟨hport, hend, _, Vector.getElem?_eq_getElem hpos, hdata.2, sub, hsub, rfl⟩
        · rw [Except.ok.injEq] at h
          exact absurd (h ▸ hmem) List.not_mem_nil
      · exact absurd hmem (forward_no_submit h protocol task)
    · split at h
      · rw [deliverAll_eq hlen] at h
        split at h
        · rw [Except.ok.injEq] at h
          subst h
          simp at hmem
        · rw [Except.ok.injEq] at h
          exact absurd (h ▸ hmem) List.not_mem_nil
      · exact absurd hmem (forward_no_submit h protocol task)
  · unfold handleQUICPacket at h
    rw [if_pos (by omega), Except.ok.injEq] at h
    exact absurd (h ▸ hmem) List.not_mem_nil

theorem next_slot_pos {h : Packet} {ip : UInt32}
    (hip : h.hopIP[(h.hopPos + 1).toNat]? = some ip) : h.hopPos.toNat < 3 ∨ h.hopPos = 255 := by
  have hpos := h.hopPos.toNat_lt
  have hsum : (h.hopPos + 1).toNat = (h.hopPos.toNat + 1) % 256 := UInt8.toNat_add ..
  obtain ⟨hlt, -⟩ := Vector.getElem?_eq_some_iff.mp hip
  rw [hsum] at hlt
  rw [← UInt8.toNat_inj]
  change _ ∨ h.hopPos.toNat = 255
  omega

/-- A hop moves the position one slot on, or leaves the header as it is at position 255. -/
theorem hop_spec {net : Set UInt32} {a b : Arrival} (h : Hop net a b) :
    (header a.pkt).hopPos.toNat < 3 ∧
      SameHeader (header b.pkt) { header a.pkt with hopPos := (header a.pkt).hopPos + 1 } ∨
    (header a.pkt).hopPos = 255 ∧ header b.pkt = header a.pkt ∧
      ((header a.pkt).payloadLen = 0 ∨ headerSize < a.pkt.length) := by
  obtain ⟨-, out, stream, hsend, hcut, hread⟩ := h
  obtain ⟨hlen, -, hip, rfl⟩ := handle_eq_send_iff.mp hsend
  obtain ⟨hhead, hcontent, -⟩ := receive_eq_some_iff.mp hread
  have htake : stream.take headerSize = (advanceRawHop a.pkt).take headerSize := by
    obtain ⟨rest, hrest⟩ := hcut
    rw [← hrest, List.take_append_of_le_length hhead]
  have hheader : header stream = header (advanceRawHop a.pkt) := header_congr htake
  rcases next_slot_pos hip with hpos | hpos
  · refine Or.inl ⟨hpos, ?_⟩
    rw [header_congr (receive_take hread), hheader]
    exact header_advanceRawHop hlen hpos
  · have hsame : advanceRawHop a.pkt = a.pkt := by
      rw [advanceRawHop_eq hlen, if_neg (by rw [hpos]; decide)]
    rw [hheader, hsame] at hcontent
    have hshort := hcut.length_le
    rw [hsame] at hshort
    refine Or.inr ⟨hpos, ?_, hcontent.imp_right fun hlt => by omega⟩
    rw [header_congr (receive_take hread), hheader, hsame]

/-- The packet comes back to the first slot with the header it had. -/
def Circulates (pkt : List UInt8) : Prop :=
  headerSize ≤ pkt.length ∧ (header pkt).hopPos = 255 ∧
    ((header pkt).payloadLen = 0 ∨ headerSize < pkt.length)

instance (pkt : List UInt8) : Decidable (Circulates pkt) := inferInstanceAs (Decidable (_ ∧ _))

/-- How often a packet that does not circulate can still be sent on. -/
def hopsLeft (pkt : List UInt8) : ℕ :=
  if (header pkt).hopPos = 255 then 1 else maxHops - 1 - (header pkt).hopPos.toNat

theorem hopsLeft_le (pkt : List UInt8) : hopsLeft pkt ≤ maxHops - 1 := by
  unfold hopsLeft
  split
  · decide
  · omega

theorem sendsOn_iff {pkt : List UInt8} :
    sendsOn pkt = true ↔ ∃ ip out, handleQUICPacket pkt = .ok [.send ip out] := by
  unfold sendsOn
  split
  · rename_i ip out hsend
    exact iff_of_true rfl ⟨ip, out, hsend⟩
  · rename_i hnone
    exact iff_of_false (by simp) fun ⟨ip, out, hsend⟩ => hnone ip out hsend

theorem hopsLeft_pos {pkt : List UInt8} (h : sendsOn pkt = true) : 0 < hopsLeft pkt := by
  obtain ⟨ip, out, hsend⟩ := sendsOn_iff.mp h
  obtain ⟨-, -, hip, -⟩ := handle_eq_send_iff.mp hsend
  unfold hopsLeft
  split
  · decide
  · rename_i hpos
    have := (next_slot_pos hip).resolve_right hpos
    simp only [maxHops]
    omega

theorem Hop.sendsOn {net : Set UInt32} {a b : Arrival} (h : Hop net a b) :
    sendsOn a.pkt = true := by
  obtain ⟨-, out, stream, hsend, -⟩ := h
  exact sendsOn_iff.mpr ⟨_, _, hsend⟩

/-- One hop uses up one of the hops left. -/
theorem hop_hopsLeft {net : Set UInt32} {a b : Arrival} (h : Hop net a b)
    (ha : ¬ Circulates a.pkt) : ¬ Circulates b.pkt ∧ hopsLeft b.pkt < hopsLeft a.pkt := by
  obtain ⟨-, out, stream, hsend, -⟩ := id h
  obtain ⟨hlen, -⟩ := handle_eq_send_iff.mp hsend
  rcases hop_spec h with ⟨hpos, hsame⟩ | ⟨hpos, -, hcontent⟩
  · have hnext : (header b.pkt).hopPos.toNat = (header a.pkt).hopPos.toNat + 1 := by
      rw [hsame.hopPos]
      change ((header a.pkt).hopPos + 1).toNat = _
      rw [UInt8.toNat_add]
      change ((header a.pkt).hopPos.toNat + 1) % 256 = _
      omega
    have hne : ∀ {h : Packet}, h.hopPos.toNat ≤ 3 → h.hopPos ≠ 255 := by
      intro h hle heq
      rw [heq] at hle
      exact absurd hle (by decide)
    refine ⟨fun hc => hne (by omega) hc.2.1, ?_⟩
    rw [hopsLeft, hopsLeft, if_neg (hne (by omega)), if_neg (hne (by omega)), hnext]
    simp only [maxHops]
    omega
  · exact absurd ⟨hlen, hpos, hcontent⟩ ha

theorem sendCount_le {net : Set UInt32} {a : Arrival} {visits : List Arrival}
    (h : (a :: visits).IsChain (Hop net)) (ha : ¬ Circulates a.pkt) :
    sendCount (a :: visits) ≤ hopsLeft a.pkt := by
  induction visits generalizing a with
  | nil =>
    simp only [sendCount, List.countP_cons, List.countP_nil]
    split
    · have := hopsLeft_pos ‹_›
      omega
    · omega
  | cons b visits ih =>
    obtain ⟨hab, hrest⟩ := List.isChain_cons_cons.mp h
    obtain ⟨hb, hlt⟩ := hop_hopsLeft hab ha
    have hcount := ih hrest hb
    simp only [sendCount, List.countP_cons, hab.sendsOn, if_true] at hcount ⊢
    omega

/-- Four steps of a run that goes on are a journey with four sends. -/
theorem run_sends (net : Set UInt32) {run : ℕ → Arrival} (h : ∀ i, Hop net (run i) (run (i + 1)))
    (hnode : (run 0).node ∈ net) :
    Journey net (run 0).pkt [run 0, run 1, run 2, run 3] ∧
      sendCount [run 0, run 1, run 2, run 3] = 4 := by
  have hsends : ∀ i, sendsOn (run i).pkt = true := fun i => (h i).sendsOn
  refine ⟨⟨rfl, ?_, ?_⟩, ?_⟩
  · intro a ha
    simp only [List.mem_cons, List.not_mem_nil, or_false] at ha
    rcases ha with rfl | rfl | rfl | rfl
    · exact hnode
    · exact (h 0).1
    · exact (h 1).1
    · exact (h 2).1
  · simp only [List.isChain_cons_cons]
    exact ⟨h 0, h 1, h 2, .singleton _⟩
  · simp [sendCount, hsends]

/-- At position 255 the next node is the first slot and the packet is not changed. -/
theorem handle_position_255 {pkt : List UInt8} (hlen : headerSize ≤ pkt.length)
    (hpos : (header pkt).hopPos = 255) :
    handleQUICPacket pkt = .ok [.send (header pkt).hopIP[0] pkt] := by
  have hend : ¬ Ends (header pkt) := by
    unfold Ends
    split
    · intro h
      exact absurd h.pos_le (by rw [hpos]; decide)
    · intro h
      exact absurd h.pos_le (by rw [hpos]; decide)
  refine handle_eq_send_iff.mpr ⟨hlen, hend, ?_, ?_⟩
  · rw [hpos]
    exact Vector.getElem?_eq_getElem (by decide)
  · rw [advanceRawHop_eq hlen, if_neg (by rw [hpos]; decide)]

theorem Circulates.run {pkt : List UInt8} (h : Circulates pkt) :
    ∃ (node : UInt32) (run : ℕ → Arrival), (run 0).pkt = pkt ∧
      ∀ i, Hop {node} (run i) (run (i + 1)) := by
  obtain ⟨hlen, hpos, hcontent⟩ := h
  obtain ⟨read, hread⟩ : ∃ read, receive pkt = some read :=
    ⟨_, receive_eq_some_iff.mpr ⟨hlen, hcontent, rfl⟩⟩
  have hheader : header read = header pkt := header_congr (receive_take hread)
  have hexact := receive_length hread
  have hstep : ∀ p, header p = header pkt → headerSize ≤ p.length → receive p = some read →
      Hop { (header pkt).hopIP[0] } ⟨(header pkt).hopIP[0], p⟩ ⟨(header pkt).hopIP[0], read⟩ := by
    intro p hp hl hr
    refine ⟨rfl, p, p, ?_, List.prefix_refl p, hr⟩
    rw [handle_position_255 hl (hp ▸ hpos), hp]
  refine ⟨(header pkt).hopIP[0],
    fun i => ⟨(header pkt).hopIP[0], if i = 0 then pkt else read⟩, rfl, ?_⟩
  intro i
  cases i with
  | zero => exact hstep pkt rfl hlen hread
  | succ i => exact hstep read hheader (by omega) (receive_self hexact)

/-- Only position 255 lets a packet circulate. -/
theorem loopFree_iff (pkt : List UInt8) : LoopFree pkt ↔ ¬ Circulates pkt := by
  constructor
  · intro h hc
    obtain ⟨node, run, hpkt, hrun⟩ := hc.run
    exact h.finite _ run hpkt hrun
  · intro hc
    refine ⟨?_, ?_⟩
    · intro net visits hjourney
      obtain ⟨hstart, -, hhops⟩ := hjourney
      cases visits with
      | nil => simp at hstart
      | cons a visits =>
        rw [List.head?_cons, Option.map_some, Option.some.injEq] at hstart
        subst hstart
        exact (sendCount_le hhops hc).trans (hopsLeft_le _)
    · intro net run hpkt hrun
      obtain ⟨hjourney, hcount⟩ := run_sends Set.univ
        (fun i => ⟨trivial, (hrun i).2⟩) trivial
      have hle := sendCount_le hjourney.hops (hpkt ▸ hc)
      have hleft := hopsLeft_le (run 0).pkt
      simp only [maxHops] at hleft
      omega

/-- The position is one from which the packet can be handled: at most two for a
request, at most three for a response, or 255. -/
def InRange (pkt : List UInt8) : Prop :=
  pkt.length < headerSize ∨ (header pkt).hopPos.toNat ≤ 2 ∨ (header pkt).hopPos = 255 ∨
    (header pkt).port = 0 ∧ (header pkt).hopPos.toNat = 3

/-- The handler itself panics on the other positions, and only there. -/
theorem handle_panics_iff (pkt : List UInt8) :
    handleQUICPacket pkt = .error .panic ↔ ¬ InRange pkt := by
  have hsafe : handleQUICPacket pkt ≠ .error .panic ↔ InRange pkt := by
    unfold InRange
    rw [← UInt8.toNat_inj]
    change _ ↔ _ ∨ _ ∨ (header pkt).hopPos.toNat = 255 ∨ _
    by_cases hshort : pkt.length < headerSize
    · unfold handleQUICPacket
      rw [if_pos hshort]
      simp [hshort]
    have hlen : headerSize ≤ pkt.length := by omega
    rw [handleQUICPacket_eq hlen]
    by_cases hport : (header pkt).port = 0
    · rw [if_neg (not_not.mpr hport)]
      by_cases hend : ResponseEnds (header pkt)
      · have hpos := hend.pos_le
        rw [if_pos hend, deliverAll_eq hlen]
        refine iff_of_true (by split <;> simp) (Or.inr ?_)
        simp only [hport, true_and]
        omega
      · have hthree : (header pkt).hopPos.toNat ≠ 3 := fun h3 =>
          hend (Or.inl (UInt8.toNat_inj.mp h3))
        rw [if_neg hend, forward_ok_iff]
        simp only [hshort, hport, true_and, false_or]
        omega
    · rw [if_pos hport]
      by_cases hend : RequestEnds (header pkt)
      · have hpos := hend.pos_le
        rw [if_pos hend, submitAll_eq hlen (by omega)]
        exact iff_of_true (by split <;> simp) (Or.inr (Or.inl hpos))
      · rw [if_neg hend, forward_ok_iff]
        simp only [hshort, hport, false_and, or_false, false_or]
  rw [← hsafe, ne_eq, not_not]

/-- Whatever a node sends on can be handled by the next one. -/
theorem hop_inRange {net : Set UInt32} {a b : Arrival} (h : Hop net a b) : InRange b.pkt := by
  obtain ⟨-, out, stream, hsend, -⟩ := id h
  obtain ⟨-, hend, -⟩ := handle_eq_send_iff.mp hsend
  rcases hop_spec h with ⟨hpos, hsame⟩ | ⟨hpos, hsame, -⟩
  · have hnext : (header b.pkt).hopPos.toNat = ((header a.pkt).hopPos.toNat + 1) % 256 := by
      rw [hsame.hopPos]
      exact UInt8.toNat_add ..
    by_cases htwo : (header a.pkt).hopPos.toNat = 2
    · have hport : (header a.pkt).port = 0 := by
        by_contra hport
        unfold Ends at hend
        rw [if_pos hport] at hend
        exact hend (Or.inl (UInt8.toNat_inj.mp htwo))
      exact Or.inr (Or.inr (Or.inr ⟨hsame.port.trans hport, by omega⟩))
    · exact Or.inr (Or.inl (by omega))
  · exact Or.inr (Or.inr (Or.inl (hsame ▸ hpos)))

theorem settles_iff (pkt : List UInt8) : Settles pkt ↔ ¬ Circulates pkt ∧ InRange pkt := by
  unfold Settles
  rw [loopFree_iff]
  refine and_congr_right fun hc => ?_
  constructor
  · intro h
    have hsafe := h Set.univ [⟨0, pkt⟩] ⟨rfl, fun _ _ => trivial, .singleton _⟩ ⟨0, pkt⟩
      (List.mem_singleton.mpr rfl)
    rwa [ne_eq, handle_panics_iff, not_not] at hsafe
  · intro h net visits hj v hv
    rw [ne_eq, handle_panics_iff, not_not]
    exact hj.forall (fun _ _ hab _ => hop_inRange hab) h v hv

/-- A packet is sent on at most three times, and not for ever, unless its position is
255; and it is kept or dropped in the end exactly if its position is in range too. -/
theorem forwarding_bounded_iff (pkt : List UInt8) :
    (LoopFree pkt ↔ ¬ Circulates pkt) ∧ (Settles pkt ↔ ¬ Circulates pkt ∧ InRange pkt) :=
  ⟨loopFree_iff pkt, settles_iff pkt⟩

/-- A header with position 255 and 10.0.0.1 in the first slot keeps coming back to 10.0.0.1. -/
theorem position_255_not_loopFree :
    ¬ LoopFree ([255, 10, 0, 0, 1] ++ List.replicate 19 0) := by
  rw [loopFree_iff, not_not]
  decide +kernel

end Arcturus.Overlay
