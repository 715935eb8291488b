import RoomServer.Room

/-! `PacketHandler`: which request a packet is, and what its handler does. `rand` is what
`rand()` returns in the `ENTER` handler. -/
namespace RoomServer

inductive ClientPacket where
  | echo (text : List Byte)
  | broadcast (text : List Byte)
  | enter (rand : Nat)
  | leave
  | move (posX posY : Room.Coordinate)
  deriving DecidableEq

/-- A `float` of the packet: its four bytes, little endian. -/
def readFloat (b0 b1 b2 b3 : Byte) : Room.Coordinate :=
  let bits : Nat := b0.toNat + 256 * (b1.toNat + 256 * (b2.toNat + 256 * b3.toNat))
  let fraction : Nat := bits % 2 ^ 23
  let exponent : Nat := bits / 2 ^ 23 % 2 ^ 8
  if exponent = 255 then .notFinite
  else
    let magnitude : ℚ :=
      if exponent = 0 then fraction / 2 ^ 149
      else (2 ^ 23 + fraction) * 2 ^ exponent / 2 ^ 150
    .finite (if bits / 2 ^ 31 = 0 then magnitude else -magnitude)

namespace PacketHandler

def HANDLE_CLIENT_ECHO (body : List Byte) : Option ClientPacket :=
  if body.length = 64 then some (.echo body) else none

def HANDLE_CLIENT_BROADCAST (body : List Byte) : Option ClientPacket :=
  if body.length = 64 then some (.broadcast body) else none

/-- The body is not looked at. -/
def HANDLE_CLIENT_ENTER (rand : Nat) (_ : List Byte) : Option ClientPacket := some (.enter rand)

/-- The body is not looked at. -/
def HANDLE_CLIENT_LEAVE (_ : List Byte) : Option ClientPacket := some .leave

def HANDLE_CLIENT_MOVE : List Byte → Option ClientPacket
  | [x0, x1, x2, x3, y0, y1, y2, y3] =>
    some (.move (readFloat x0 x1 x2 x3) (readFloat y0 y1 y2 y3))
  | _ => none

/-- `none` where `Dispatch` returns false: the type has no handler or the handler
refuses the body. -/
def dispatch (rand : Nat) (packet : Packet) : Option ClientPacket :=
  if PacketType.CLIENT_END ≤ packet.type then none
  else if packet.type = PacketType.CLIENT_ECHO then HANDLE_CLIENT_ECHO packet.body
  else if packet.type = PacketType.CLIENT_BROADCAST then HANDLE_CLIENT_BROADCAST packet.body
  else if packet.type = PacketType.CLIENT_ENTER then HANDLE_CLIENT_ENTER rand packet.body
  else if packet.type = PacketType.CLIENT_LEAVE then HANDLE_CLIENT_LEAVE packet.body
  else if packet.type = PacketType.CLIENT_MOVE then HANDLE_CLIENT_MOVE packet.body
  else none

end PacketHandler

/-- What a handler does with a request: answer it, or push a job to a room. -/
inductive Handled where
  | reply (sendChunk : ServerPacket ℚ)
  | push (job : Job) (index : Int)

/-- `roomID` is what `GetRoomID` reads. -/
def ClientPacket.handled (session : Nat) (roomID : Int) : ClientPacket → Handled
  | .echo text => .reply (.echo text)
  | .broadcast text => .push ⟨.broadcast text, session⟩ roomID
  | .enter rand => .push ⟨.enter, session⟩ (rand % 5 : Nat)
  | .leave => .push ⟨.leave, session⟩ roomID
  | .move posX posY => .push ⟨.move posX posY, session⟩ roomID

theorem ClientPacket.push_session {packet : ClientPacket} {s : Nat} {roomID index : Int} {job : Job}
    (h : packet.handled s roomID = .push job index) : job.session = s := by
  cases packet with
  | echo text => contradiction
  | _ => cases h; rfl

end RoomServer
