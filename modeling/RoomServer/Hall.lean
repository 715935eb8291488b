import RoomServer.Library.Threads
import RoomServer.Library.Transition
import RoomServer.PacketHandler
import RoomServer.RoomMembers

/-! The rooms of the server and the sessions between them. A job runs in one
step; the workers and the room threads are interleaved at every other point, in
particular between reading a session's room and pushing the job there. A session
here is one connection: its number is never given out again, the number of its
socket is. -/
namespace RoomServer
open Library.Transition Library.Threads

structure Connection where
  socket : Nat
  roomID : Int
  connected : Bool

def Connection.reset : Connection := ⟨0, -1, false⟩

structure RoomThread where
  room : Room
  jobQueue : List Job

/-- A worker inside `PushJobByRooms`: before the test of the index, or past it. -/
inductive Push where
  | pushJobByRooms (job : Job) (index : Int)
  | pushJob (job : Job) (i : Nat)

def Push.job : Push → Job
  | .pushJobByRooms job _ | .pushJob job _ => job

structure Hall where
  roomCount : Nat
  rooms : Nat → RoomThread
  /-- `RoomManager::m_Stop`. -/
  stop : Bool
  sessions : Nat → Connection
  /-- The sessions accepted so far are those below. -/
  accepted : Nat
  /-- The socket numbers in use. -/
  sockets : List Nat
  pushes : List Push
  /-- History: the sessions on which `CloseSession` was executed. -/
  closed : Nat → Bool
  /-- History: the chunks given to each session's `InsertSendQueue`, in order. -/
  enqueued : Nat → List (ServerPacket ℚ)

def Hall.start (roomCount : Nat) : Hall :=
  ⟨roomCount, fun i => ⟨.new i, []⟩, false, fun _ => .reset, 0, [], [], fun _ => false, fun _ => []⟩

namespace Hall

def setSession (h : Hall) (session : Nat) (c : Connection) : Hall :=
  { h with sessions := Function.update h.sessions session c }

def setRoom (h : Hall) (i : Nat) (room : Room) (jobQueue : List Job) : Hall :=
  { h with rooms := Function.update h.rooms i ⟨room, jobQueue⟩ }

/-- The socket's number is free again, and stays in the session. -/
def closeSession (h : Hall) (session : Nat) : Hall :=
  { h with
    sockets := h.sockets.erase (h.sessions session).socket
    closed := Function.update h.closed session true }

def apply (h : Hall) : Effect → Hall
  | .connect session => h.setSession session { h.sessions session with connected := true }
  | .disConnected session => h.setSession session { h.sessions session with connected := false }
  | .setRoomID session roomID => h.setSession session { h.sessions session with roomID := roomID }
  | .insertSendQueue session sendChunk =>
    { h with
      enqueued := Function.update h.enqueued session (h.enqueued session ++ [sendChunk]) }
  | .closeSession session => h.closeSession session

/-- Room `i` becomes what its job leaves, and the job's effects are done. -/
def finish (h : Hall) (i : Nat) (o : Outcome) (jobQueue : List Job) : Hall :=
  o.effects.foldl apply (h.setRoom i o.room jobQueue)

def outOfRange (h : Hall) (index : Int) : Bool :=
  h.stop || index < 0 || h.roomCount ≤ index

def advance (h : Hall) (k : Nat) : Push → Hall
  | .pushJobByRooms job index =>
    if h.outOfRange index then { h with pushes := splice h.pushes k [] }.closeSession job.session
    else { h with pushes := splice h.pushes k [.pushJob job index.toNat] }
  | .pushJob job i =>
    { h with pushes := splice h.pushes k [] }.setRoom i (h.rooms i).room
      ((h.rooms i).jobQueue ++ [job])

def pushLeave (h : Hall) (session : Nat) : Hall :=
  { h with
    pushes := h.pushes ++ [.pushJobByRooms ⟨.leave, session⟩ (h.sessions session).roomID] }

/-- `made` tells whether `MakeSendPacket` finds a send buffer for a reply. -/
def handle (h : Hall) (session : Nat) (made : Bool) (request : ClientPacket) : Hall :=
  match request.handled session (h.sessions session).roomID with
  | .reply sendChunk => if made then h.apply (.insertSendQueue session sendChunk) else h
  | .push job index => { h with pushes := h.pushes ++ [.pushJobByRooms job index] }

end Hall

inductive HallAct where
  /-- A connection is accepted under a number that is not in use. -/
  | accept (socket : Nat)
  /-- A worker hands a packet of the session to `PacketHandler::Dispatch`. -/
  | packet (session rand : Nat) (made : Bool) (packet : Packet)
  /-- A receive or a send of the session ends, by a disconnect or an error. -/
  | fail (session : Nat)
  /-- The worker at place `k` of `pushes` goes on. -/
  | push (k : Nat)
  /-- The thread of room `i` dispatches its next job. -/
  | run (i : Nat) (mk : Nat → Bool) (nowTick : Nat)
  | tick (i : Nat) (mk : Nat → Bool) (nowTick : Nat)
  /-- `RoomManager::Join` raises `m_Stop`. -/
  | stop

def hallStep : Step Hall HallAct
  | h, .accept socket =>
    if socket ∈ h.sockets then none
    else
      some { h.setSession h.accepted { Connection.reset with socket := socket } with
        accepted := h.accepted + 1
        sockets := socket :: h.sockets }
  | h, .packet session rand made packet =>
    if session < h.accepted then
      match PacketHandler.dispatch rand packet with
      | none => some (h.pushLeave session)
      | some request => some (h.handle session made request)
    else none
  | h, .fail session => if session < h.accepted then some (h.pushLeave session) else none
  | h, .push k => h.pushes[k]?.map (h.advance k)
  | h, .run i mk nowTick =>
    if i < h.roomCount then
      match (h.rooms i).jobQueue with
      | [] => none
      | job :: jobQueue =>
        let c := h.sessions job.session
        some (h.finish i (job.dispatch (h.rooms i).room c.socket c.connected mk nowTick) jobQueue)
    else none
  | h, .tick i mk nowTick =>
    if i < h.roomCount then
      some (h.finish i ((h.rooms i).room.tick nowTick mk) (h.rooms i).jobQueue)
    else none
  | h, .stop => some { h with stop := true }

end RoomServer
