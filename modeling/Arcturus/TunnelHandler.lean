import Arcturus.TunnelPacket
import Arcturus.Addresses

/-!
What a node does with a packet from the tunnel, and with the task of asking an
origin. Both return the calls they make on other components; an index outside an
array or slice is a panic. Log records are left out.
-/

namespace Arcturus.TunnelHandler

open GoStrings TunnelPacket Addresses

structure BackSourceTask where
  hopIP : Vector UInt32 4
  port : UInt16
  userID : UInt32
  originAddr : String
  reqData : List UInt8
  deriving DecidableEq, Repr

/-- The message of `AddToBatch`. -/
structure AggregatorMsg where
  emerge : Bool
  routingKey : String
  protocol : String
  port : UInt16
  hops : List String
  nextHop : Option UInt32
  userID : UInt32
  data : List UInt8
  deriving DecidableEq, Repr

/-- The calls of the handler on other components. -/
inductive Effect where
  | submit (protocol : String) (task : BackSourceTask)
  | send (remoteIP : UInt32) (pkt : List UInt8)
  | deliver (userID : UInt32) (data : List UInt8)
  deriving DecidableEq, Repr

/-- Array access with Go's bounds check. -/
def hopAt (header : Packet) (i : ℕ) : Except Failure UInt32 :=
  match header.hopIP[i]? with
  | some ip => .ok ip
  | none => .error .panic

/-- A packet ends at position `last`, or where the slot `offset` further on is empty. -/
def isLastHop (header : Packet) (offset last : UInt8) : Except Failure Bool :=
  if header.hopPos.toNat + offset.toNat < maxHops then do
    let ip ← hopAt header (header.hopPos + offset).toNat
    return ip == 0 || header.hopPos == last
  else return header.hopPos == last

def isLastHopRequest (header : Packet) : Except Failure Bool := isLastHop header 2 2

def isLastHopResponse (header : Packet) : Except Failure Bool := isLastHop header 1 3

/-- The position of the next hop is a byte, so that its successor can wrap. -/
def forward (header : Packet) (pkt : List UInt8) : Except Failure (List Effect) := do
  let nextIP ← hopAt header (header.hopPos + 1).toNat
  return [.send nextIP (advanceRawHop pkt)]

def protocolName (header : Packet) : String := if header.protocol = 17 then "udp" else "tcp"

def submitAll (header : Packet) (pkt : List UInt8) : Except Failure (List Effect) :=
  match parse pkt pkt.length with
  | .error .panic => .error .panic
  | .error (.error _) => .ok []
  | .ok (_, subs) =>
    if subs.length = 0 then .ok []
    else do
      let originIP ← hopAt header (header.hopPos.toNat + 1)
      if ipString originIP = "0.0.0.0" then return []
      let originAddr := joinHostPort (ipString originIP) (toString header.port.toNat)
      return subs.map fun sub => .submit (protocolName header)
        { hopIP := header.hopIP, port := header.port, userID := sub.userID, originAddr,
          reqData := sub.data }

def deliverAll (pkt : List UInt8) : Except Failure (List Effect) :=
  match parse pkt pkt.length with
  | .error .panic => .error .panic
  | .error (.error _) => .ok []
  | .ok (_, subs) => .ok (subs.map fun sub => .deliver sub.userID sub.data)

def handleQUICPacket (pkt : List UInt8) : Except Failure (List Effect) :=
  if pkt.length < headerSize then .ok []
  else
    match parseHeader pkt with
    | .error .panic => .error .panic
    | .error (.error _) => .ok []
    | .ok header =>
      if header.port ≠ 0 then do
        if ← isLastHopRequest header then submitAll header pkt else forward header pkt
      else do
        if ← isLastHopResponse header then deliverAll pkt else forward header pkt

/-- The addresses in the header from the last slot to the first, empty ones skipped. -/
def reversedHops (hopIP : Vector UInt32 4) : List UInt32 := hopIP.toList.reverse.filter (· ≠ 0)

/-- Without the first of several: the origin itself is not on the way back. -/
def responseHops (hopIP : Vector UInt32 4) : List UInt32 :=
  let hops := reversedHops hopIP
  if hops.length > 1 then hops.drop 1 else hops

/-- Ask the origin and hand its answer to the response aggregator. The parameter is
what the origin answers; `none` stands for an error. -/
def doOriginRequest (task : BackSourceTask) (resp : Option (List UInt8)) :
    Except Failure (Option AggregatorMsg) :=
  match resp with
  | none => .ok none
  | some resp =>
    if resp.length = 0 then .ok none
    else
      let hops := responseHops task.hopIP
      let hopStrs := hops.map ipString
      match hops[1]? with
      | none => .error .panic
      | some nextHop =>
        .ok (some { emerge := false, routingKey := join hopStrs ",", protocol := "", port := 0,
                    hops := hopStrs, nextHop := some nextHop, userID := task.userID,
                    data := resp })

end Arcturus.TunnelHandler
