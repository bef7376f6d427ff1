import Mathlib.Data.List.Basic
import Arcturus.Bytes

/-!
The tunnel packet: a header of twenty-four bytes followed by user sub-packets,
each with a user id, a length and its data. The writer fills a buffer in place
at a moving write position; the parser copies the raw bytes and reads them as a
stream until the first error. Log records are left out.
-/

namespace Arcturus.TunnelPacket

open Bytes

def headerSize : ℕ := 24

def maxHops : ℕ := 4

/-- How a call can fail: with an error value, or by a run-time panic. -/
inductive Failure where
  | error (msg : String)
  | panic
  deriving DecidableEq, Repr

structure Packet where
  buf : List UInt8
  buffSize : ℕ
  hopPos : UInt8
  hopIP : Vector UInt32 4
  payloadLen : UInt16
  port : UInt16
  protocol : UInt8
  wp : ℕ
  deriving DecidableEq, Repr

structure SubPacket where
  userID : UInt32
  data : List UInt8
  deriving DecidableEq, Repr

def newPacket (buffSizes : ℕ) : Packet where
  buf := List.replicate buffSizes 0
  buffSize := buffSizes
  hopPos := 0
  hopIP := Vector.replicate 4 0
  payloadLen := 0
  port := 0
  protocol := 0
  wp := headerSize

namespace Packet

/-- An address that is not IPv4, or an index outside the four slots, is ignored. -/
def setHopIP (p : Packet) (hopIdx : ℕ) (ip : Option UInt32) : Packet :=
  match ip with
  | none => p
  | some ip4 => { p with hopIP := p.hopIP.setIfInBounds hopIdx ip4 }

def setHopPos (p : Packet) (pos : UInt8) : Packet :=
  if pos.toNat < maxHops then { p with hopPos := pos } else p

def setPort (p : Packet) (port : UInt16) : Packet := { p with port }

def setProtocol (p : Packet) (protocol : String) : Packet :=
  if protocol = "tcp" then { p with protocol := 6 } else { p with protocol := 17 }

/-- Write one sub-packet at the write position, or refuse when it does not fit. -/
def appendUserPacket (p : Packet) (userID : UInt32) (data : List UInt8) : Packet × Bool :=
  let subSize := 4 + 2 + data.length
  if p.wp + subSize > p.buffSize then (p, false)
  else
    let buf := splice p.buf p.wp (putUint 4 userID.toNat)
    let wp := p.wp + 4
    let buf := splice buf wp (putUint 2 data.length)
    let wp := wp + 2
    let buf := splice buf wp data
    let wp := wp + data.length
    ({ p with buf, wp, payloadLen := UInt16.ofNat (wp - headerSize) }, true)

/-- The twenty-two header bytes that are written; the padding stays as it is. -/
def headBytes (p : Packet) : List UInt8 :=
  [p.hopPos] ++ putUint 4 p.hopIP[0].toNat ++ putUint 4 p.hopIP[1].toNat ++
    putUint 4 p.hopIP[2].toNat ++ putUint 4 p.hopIP[3].toNat ++
    putUint 2 p.payloadLen.toNat ++ putUint 2 p.port.toNat ++ [p.protocol]

/-- A buffer shorter than the header makes the slice expression panic. -/
def serializeHead (p : Packet) : Except Failure Packet :=
  if p.buf.length < headerSize then .error .panic
  else .ok { p with buf := splice p.buf 0 p.headBytes }

def totalBytes (p : Packet) : ℕ := headerSize + p.payloadLen.toNat

end Packet

theorem vector_eq {a b c d : UInt32} {v : Vector UInt32 4} (h0 : a = v[0]) (h1 : b = v[1])
    (h2 : c = v[2]) (h3 : d = v[3]) : #v[a, b, c, d] = v := by
  subst h0 h1 h2 h3
  apply Vector.ext
  intro i hi
  match i, hi with
  | 0, _ | 1, _ | 2, _ | 3, _ => rfl

/-- Read the big-endian number in `b[i:j]`. -/
def field (b : List UInt8) (i j : ℕ) : ℕ := getUint ((b.take j).drop i)

/-- The header fields of a packet, taken from the first twenty-four bytes. -/
def readHeader (b : List UInt8) (p : Packet) : Packet :=
  { p with
    hopPos := b.headD 0
    hopIP := #v[UInt32.ofNat (field b 1 5), UInt32.ofNat (field b 5 9),
      UInt32.ofNat (field b 9 13), UInt32.ofNat (field b 13 17)]
    payloadLen := UInt16.ofNat (field b 17 19)
    port := UInt16.ofNat (field b 19 21)
    protocol := UInt8.ofNat (field b 21 22) }

def errInvalidHeader : Failure := .error "invalid packet header: length too short"

def parseHeader (raw : List UInt8) : Except Failure Packet :=
  if raw.length < headerSize then .error errInvalidHeader
  else
    let buf := raw.take headerSize
    .ok (readHeader buf { newPacket 0 with buf, wp := 0 })

/-- The stream loop of `Parse`: it stops at the first read error, and a short read
of the data leaves the rest of the slice zero. -/
def readSubPackets : ℕ → List UInt8 → List SubPacket
  | 0, _ => []
  | fuel + 1, r =>
    if r.length < 4 then []
    else
      let userID := UInt32.ofNat (getUint (r.take 4))
      let r := r.drop 4
      if r.length < 2 then []
      else
        let subLen := getUint (r.take 2)
        let r := r.drop 2
        -- A reader at its end reports EOF even for an empty slice.
        if r = [] then []
        else
          let data := r.take subLen
          { userID, data := data ++ List.replicate (subLen - data.length) 0 } ::
            readSubPackets fuel (r.drop subLen)

/-- Go's `copy` into a fresh slice of the given size. -/
def copyFresh (size : ℕ) (raw : List UInt8) : List UInt8 :=
  raw.take size ++ List.replicate (size - raw.length) 0

theorem length_copyFresh (size : ℕ) (raw : List UInt8) : (copyFresh size raw).length = size := by
  simp only [copyFresh, List.length_append, List.length_take, List.length_replicate]
  omega

/-- The loop goes on as long as there is a byte behind the fields of a sub-packet. -/
theorem readSubPackets_succ (fuel : ℕ) (r : List UInt8) :
    readSubPackets (fuel + 1) r =
      if r.length < 7 then []
      else
        { userID := UInt32.ofNat (getUint (r.take 4))
          data := copyFresh (getUint ((r.drop 4).take 2)) (r.drop 6) } ::
          readSubPackets fuel ((r.drop 6).drop (getUint ((r.drop 4).take 2))) := by
  have hdrop : (r.drop 4).drop 2 = r.drop 6 := List.drop_drop
  rw [readSubPackets]
  simp only [hdrop, List.drop_eq_nil_iff, List.length_drop]
  by_cases h7 : r.length < 7
  · rw [if_pos h7]
    split
    · rfl
    · split
      · rfl
      · rw [if_pos (by omega)]
  · rw [if_neg h7, if_neg (by omega), if_neg (by omega), if_neg (by omega), copyFresh]
    congr 4
    rw [List.length_take]
    omega

def parse (raw : List UInt8) (bufferSize : ℕ) : Except Failure (Packet × List SubPacket) :=
  if raw.length < headerSize then .error (.error "raw data too short")
  else
    let buf := copyFresh bufferSize raw
    if buf.length < headerSize then .error .panic
    else
      let p := readHeader buf { newPacket bufferSize with buf }
      let payloadEnd := headerSize + p.payloadLen.toNat
      if payloadEnd > raw.length ∨ payloadEnd > bufferSize then
        .error (.error "invalid payload length")
      else
        let payload := (buf.take payloadEnd).drop headerSize
        .ok (p, readSubPackets payload.length payload)

/-- Relays add one to the first byte, but not beyond the last slot. -/
def advanceRawHop (pkt : List UInt8) : List UInt8 :=
  match pkt with
  | [] => []
  | b :: rest =>
    if headerSize ≤ pkt.length ∧ b.toNat < maxHops - 1 then (b + 1) :: rest else pkt

end Arcturus.TunnelPacket
