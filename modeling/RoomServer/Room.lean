import Mathlib.Data.Rat.Floor
import RoomServer.Library.OrderedMap
import RoomServer.PacketStruct

/-! A room's jobs, in exact arithmetic. A job reads the room and its session's
flags and answers with the room it leaves and with what it does to sessions, in
order. Sessions are numbers here; what their objects are is for the modules that
run the jobs. `mk n` tells whether the `n`-th `MakeSendPacket` of a job finds a
send buffer. -/
namespace RoomServer
open Library

def MaxX : ℚ := 10000
def MaxY : ℚ := 10000
def MoveSpeed : ℚ := 1
def MinMoveTick : Nat := 100

/-- `a - b` in `uint64`. -/
def uint64Sub (a b : Nat) : Nat := (a + 2 ^ 64 - b) % 2 ^ 64

structure RoomUser where
  session : Nat
  posX : ℚ
  posY : ℚ
  seqID : Nat
  isMove : Bool
  destPosX : ℚ
  destPosY : ℚ
  startMoveTick : Nat
  endMoveTick : Nat
  deriving DecidableEq

/-- A default `RoomUser` after `Set`. -/
def RoomUser.enter (session : Nat) (posX posY : ℚ) (seqID : Nat) : RoomUser :=
  ⟨session, posX, posY, seqID, false, 0, 0, 0, 0⟩

def RoomUser.data (user : RoomUser) : SpawnData ℚ := ⟨user.seqID, user.posX, user.posY⟩

/-- What a job does to sessions. -/
inductive Effect where
  | connect (session : Nat)
  | disConnected (session : Nat)
  | setRoomID (session : Nat) (roomID : Int)
  | insertSendQueue (session : Nat) (sendChunk : ServerPacket ℚ)
  | closeSession (session : Nat)
  deriving DecidableEq

def Effect.session : Effect → Nat
  | .connect session | .disConnected session | .setRoomID session _
  | .insertSendQueue session _ | .closeSession session => session

structure Room where
  roomUser : OrderedMap Nat RoomUser
  roomID : Int
  seqIDs : List Nat
  lastTick : Nat
  deriving DecidableEq

def Room.new (roomID : Int) : Room := ⟨.empty, roomID, List.range MaxRoomUserCount, 0⟩

/-- `before` is done while `m_roomUser` still is what the job found, `after`
when it is what `room` says. -/
structure Outcome where
  before : List Effect
  room : Room
  after : List Effect

def Outcome.effects (o : Outcome) : List Effect := o.before ++ o.after

def Outcome.idle (room : Room) : Outcome := ⟨[], room, []⟩

namespace Room

def spawnUsers (session : Nat) (sendBroadCast : ServerPacket ℚ) (mk : Nat → Bool) :
    List RoomUser → Server_Spawn ℚ → Nat → List Effect
  | [], enterSpawn, calls =>
    if 0 < enterSpawn.count then
      if mk calls then [.insertSendQueue session (.spawn enterSpawn)] else []
    else []
  | user :: users, enterSpawn, calls =>
    if user.session = session then spawnUsers session sendBroadCast mk users enterSpawn calls
    else
      .insertSendQueue user.session sendBroadCast ::
        if (enterSpawn.add user.data).2 then
          spawnUsers session sendBroadCast mk users (enterSpawn.add user.data).1 calls
        else if mk calls then
          .insertSendQueue session (.spawn enterSpawn) ::
            spawnUsers session sendBroadCast mk users
              ((DataList.empty : Server_Spawn ℚ).add user.data).1 (calls + 1)
        else
          -- the batch is kept full, and this user is in none
          spawnUsers session sendBroadCast mk users enterSpawn (calls + 1)

def enter (room : Room) (session socket : Nat) (isConnected : Bool) (mk : Nat → Bool) : Outcome :=
  if isConnected then .idle room
  else
    match room.seqIDs with
    | [] => ⟨[], room, if mk 0 then [.insertSendQueue session (.enter (-1) 0)] else []⟩
    | seqID :: seqIDs =>
      let roomUser := RoomUser.enter session 0 0 seqID
      let spawnPacket := ((DataList.empty : Server_Spawn ℚ).add roomUser.data).1
      let inserted := room.roomUser.insert socket roomUser
      if mk 0 && mk 1 && inserted.2 then
        ⟨[], { room with roomUser := inserted.1, seqIDs := seqIDs },
          .connect session :: .setRoomID session room.roomID ::
            .insertSendQueue session (.enter room.roomID seqID) ::
              spawnUsers session (.spawn spawnPacket) mk inserted.1.values .empty 2⟩
      else .idle { room with seqIDs := seqIDs ++ [seqID] }

def sendOthers (room : Room) (session : Nat) (sendChunk : ServerPacket ℚ) : List Effect :=
  (room.roomUser.values.filter fun user => user.session ≠ session).map fun user =>
    .insertSendQueue user.session sendChunk

def leave (room : Room) (session socket : Nat) (isConnected : Bool) (mk : Nat → Bool) : Outcome :=
  if isConnected = false then .idle room
  else
    let flags := [.disConnected session, .setRoomID session (-1)]
    let erased := room.roomUser.erase socket
    match room.roomUser.find socket with
    | none => ⟨flags, room, [.closeSession session]⟩
    | some user =>
      if mk 0 then
        ⟨flags ++ room.sendOthers session (.leave user.seqID),
          { room with roomUser := erased, seqIDs := room.seqIDs ++ [user.seqID] },
          [.closeSession session]⟩
      else
        -- the ID is not given back
        ⟨flags, { room with roomUser := erased }, [.closeSession session]⟩

def broadCast (room : Room) (session : Nat) (text : List Byte) (mk : Nat → Bool) : Outcome :=
  ⟨[], room, if mk 0 then room.sendOthers session (.broadcast text) else []⟩

def movePosition (user : RoomUser) (nowTick : Nat) : RoomUser :=
  if user.isMove = false then user
  else if user.endMoveTick ≤ nowTick then
    { user with
      posX := user.destPosX, posY := user.destPosY, startMoveTick := nowTick, isMove := false }
  else if user.endMoveTick < user.startMoveTick then { user with isMove := false }
  else
    let totalTick := uint64Sub user.endMoveTick user.startMoveTick
    if totalTick = 0 then { user with isMove := false }
    else
      let ratio : ℚ := uint64Sub nowTick user.startMoveTick / totalTick
      { user with
        posX := user.posX + (user.destPosX - user.posX) * ratio
        posY := user.posY + (user.destPosY - user.posY) * ratio
        startMoveTick := nowTick }

/-- A `float` of a request; `isfinite` is all that is asked of the others. -/
inductive Coordinate where
  | finite (value : ℚ)
  | notFinite
  deriving DecidableEq

/-- `( dist / MoveSpeed ) * 1000` of the distance whose square is `dist2`, cut to whole ticks. -/
def travelTick (dist2 : ℚ) : Nat := Nat.sqrt ⌊dist2 / MoveSpeed ^ 2 * 1000 ^ 2⌋₊

def move (room : Room) (socket : Nat) (isConnected : Bool) (posX posY : Coordinate)
    (nowTick : Nat) : Outcome :=
  match posX, posY with
  | .finite posX, .finite posY =>
    if isConnected = false ∨ posX < 0 ∨ MaxX ≤ posX ∨ posY < 0 ∨ MaxY ≤ posY then .idle room
    else
      match room.roomUser.find socket with
      | none => .idle room
      | some user =>
        let user := movePosition user nowTick
        let dx := posX - user.posX
        let dy := posY - user.posY
        let dist2 := dx * dx + dy * dy
        if dist2 ≤ 0 then .idle { room with roomUser := room.roomUser.set socket user }
        else
          let user := { user with
            isMove := true, destPosX := posX, destPosY := posY
            startMoveTick := nowTick, endMoveTick := nowTick + travelTick dist2 }
          .idle { room with roomUser := room.roomUser.set socket user }
  | _, _ => .idle room

def sendMoveData (users : List RoomUser) (movePacket : Server_Move_Ack ℚ) (made : Bool) :
    List Effect :=
  if made then users.map fun user => .insertSendQueue user.session (.move movePacket) else []

/-- The loop of `MoveCheckUsers`; `users` is the whole map, for `SendMoveData`. -/
def moveUsers (users : List RoomUser) (nowTick : Nat) (mk : Nat → Bool) :
    List RoomUser → Server_Move_Ack ℚ → Nat → List Effect
  | [], packet, calls => if 0 < packet.count then sendMoveData users packet (mk calls) else []
  | user :: rest, packet, calls =>
    if user.isMove = false then moveUsers users nowTick mk rest packet calls
    else
      let data := (movePosition user nowTick).data
      if (packet.add data).2 then moveUsers users nowTick mk rest (packet.add data).1 calls
      else
        sendMoveData users packet (mk calls) ++
          moveUsers users nowTick mk rest ((DataList.empty : Server_Move_Ack ℚ).add data).1
            (calls + 1)

def moveCheckUsers (room : Room) (nowTick : Nat) (mk : Nat → Bool) : Outcome :=
  ⟨[], { room with roomUser := room.roomUser.mapValues fun _ user => movePosition user nowTick },
    moveUsers room.roomUser.values nowTick mk room.roomUser.values .empty 0⟩

/-- The end of `StartJob`. -/
def tick (room : Room) (nowTick : Nat) (mk : Nat → Bool) : Outcome :=
  if room.lastTick + MinMoveTick ≤ nowTick then
    moveCheckUsers { room with lastTick := nowTick } nowTick mk
  else .idle room

end Room

/-! ### Jobs -/

inductive JobKind where
  | enter
  | leave
  | broadcast (text : List Byte)
  | move (posX posY : Room.Coordinate)
  deriving DecidableEq

structure Job where
  kind : JobKind
  session : Nat
  deriving DecidableEq

def Job.dispatch (job : Job) (room : Room) (socket : Nat) (isConnected : Bool)
    (mk : Nat → Bool) (nowTick : Nat) : Outcome :=
  match job.kind with
  | .enter => room.enter job.session socket isConnected mk
  | .leave => room.leave job.session socket isConnected mk
  | .broadcast text => room.broadCast job.session text mk
  | .move posX posY => room.move socket isConnected posX posY nowTick

end RoomServer
