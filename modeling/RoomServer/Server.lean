import RoomServer.Library.Threads
import RoomServer.Library.Transition
import RoomServer.ObjectPool
import RoomServer.PacketHandler
import RoomServer.SendProtocol

/-! The whole server: its threads, the sessions of the pool, what is posted to
the kernel and which socket numbers are in use. A thread is the list of what it
still has to do; one entry is one access to something shared. A `SessionDataRef`
that a thread keeps in a local variable is the `drop` at the end of its scope,
and a session whose last reference goes away is returned to the pool by the
thread that let it go, before anything else that thread does.

Any number of completions may be handled at once. The bytes of a receive buffer
are not here: a completed receive brings the packets that `Recv` finds. -/
namespace RoomServer
open Library Library.Transition

def INVALID_SOCKET : Nat := 2 ^ 64 - 1

structure Chunk where
  packet : ServerPacket ℚ
  /-- History: which connection of its session it was queued for. -/
  connection : Nat
  deriving DecidableEq

structure Session where
  socket : Nat
  /-- Whether `m_Recv.m_Session` is set; it is the session itself or null. -/
  recvSession : Bool
  /-- Whether `m_Send.m_Session` is set. -/
  sendSession : Bool
  send : SendState Chunk
  roomID : Int
  connected : Bool

def Session.new : Session := ⟨INVALID_SOCKET, false, false, .empty, -1, false⟩

/-- `Reset`: of the send side it restores the flag. -/
def Session.reset (session : Session) : Session :=
  { session with
    socket := INVALID_SOCKET
    send := { session.send with sendFlag := false }
    roomID := -1
    connected := false }

/-- What a completed receive brings: the packets in the buffer, each with what
`rand` and `MakeSendPacket` would answer to its handler. -/
structure Request where
  packet : Packet
  rand : Nat
  made : Bool

inductive Completion where
  | failed
  | zero
  | data (requests : List Request)

/-- A call of `RecvStart`, by `Recv` or by the failure branch of `Worker`. -/
inductive Caller where
  | recv
  | worker

inductive Instr where
  -- references
  | drop (s : Nat)
  | pushSession (s : Nat)
  | poolPush (s : Nat)
  -- `ReWaiting`: the stop test, the first test of the queue, `PopSession`, the second test
  | reWaiting
  | reTest
  | rePop
  | reTake (s : Nat)
  -- `ListenManager::Accept`, from the stop test to `AcceptEx`
  | accept (a : Nat) (popSession execute : Bool)
  | acceptPop (a : Nat)
  | insertWait (a : Nat)
  | makeSocket (a s : Nat)
  | acceptEx (a s : Nat)
  -- `ListenManager::Error`
  | error (a : Nat)
  | errorClear (a : Nat)
  | errorAccept (a : Nat)
  -- `AcceptObject::Execute`
  | acceptExecute (a : Nat)
  | acceptInsert (a s : Nat)
  | acceptRecvStart (a s : Nat)
  | acceptClear (a : Nat)
  -- a dequeued receive
  | recvExecute (s : Nat) (completion : Completion)
  | recv (s : Nat) (requests : List Request)
  | recvStart (s : Nat) (caller : Caller)
  | releaseSession (s : Nat)
  -- `PushJobByRooms` and `CloseSession`
  | pushLeave (s : Nat)
  | pushJobByRooms (job : Job) (index : Int)
  | pushJob (job : Job) (i : Nat)
  | closesocket (s : Nat)
  | eraseUserSession (s : Nat)
  -- a dequeued send, and the sections of the send side
  | sendExecute (s : Nat) (transferred : Bool)
  | sending (s : Nat) (pc : SendPc Chunk)
  -- the room threads
  | startJob (i : Nat)
  | dispatch (i : Nat) (jobs : List Job) (stop : Bool)
  | store (i : Nat) (room : Room)
  | effect (e : Effect)
  | tick (i : Nat) (stop : Bool)
  -- `Shutdown`
  | listenShutdown
  | clearWaitQueue
  | roomsJoin
  | stopRoom (i : Nat)
  | snapshot

/-- The references to `s` that an entry stands for. -/
def Instr.refs (s : Nat) : Instr → Nat
  | .drop s' => if s' = s then 1 else 0
  | .dispatch _ jobs _ => jobs.countP fun job => job.session = s
  | _ => 0

inductive Posted where
  | accept (a s : Nat)
  | recv (s : Nat)
  | send (s : Nat)
  deriving DecidableEq

/-- History: where a session stands between two stays in the pool. -/
inductive Phase where
  | pooled
  | fresh
  | registered
  deriving DecidableEq

/-- History: a call for a session with the number it used, and what stood behind
the number then: the session the open socket was made for, or the entry found. -/
inductive Call where
  | closesocket (s : Nat) (owner : Option Nat)
  | erase (s : Nat) (entry : Option Nat)
  | wsaRecv (s : Nat) (owner : Option Nat)
  | wsaSend (s : Nat) (owner : Option Nat) (connection : Nat) (chunks : List Chunk)
  deriving DecidableEq

structure JobQueue where
  jobs : List Job
  stop : Bool

structure Server where
  roomCount : Nat
  pool : ObjectPool
  sessions : Nat → Session
  /-- `m_AcceptObjects`, each with its `m_Session`. -/
  acceptObjects : List (Option Nat)
  waitQueue : List Nat
  userSession : OrderedMap Nat Nat
  rooms : Nat → Room
  jobQueues : Nat → JobQueue
  /-- `ListenManager::m_Stop`. -/
  listenStop : Bool
  /-- `RoomManager::m_Stop`. -/
  roomStop : Bool
  posted : List Posted
  /-- The open sockets, each with the session it was made for. -/
  sockets : Nat → Option Nat
  threads : List (List Instr)
  /-- History: how often the session was returned to the pool. -/
  connection : Nat → Nat
  phase : Nat → Phase
  /-- History: whether the socket of the present connection was closed. -/
  closed : Nat → Bool
  log : List Call

/-- The room threads, then the main thread with the accepts of `Initialize`. -/
def Server.start (roomCount poolSize acceptCount : Nat) : Server where
  roomCount := roomCount
  pool := .init poolSize
  sessions _ := .new
  acceptObjects := List.replicate acceptCount none
  waitQueue := []
  userSession := .empty
  rooms i := .new i
  jobQueues _ := ⟨[], false⟩
  listenStop := false
  roomStop := false
  posted := []
  sockets _ := none
  threads := (List.range roomCount).map (fun i => [.startJob i]) ++
    [(List.range acceptCount).map fun a => .accept a true false]
  connection _ := 0
  phase _ := .pooled
  closed _ := false
  log := []

/-- What the environment decides for one entry: whether a call is accepted, the
number of a new socket, `MakeSendPacket`, the clock. -/
structure Choice where
  ok : Bool
  socket : Nat
  made : Nat → Bool
  nowTick : Nat

/-- `m_Send.m_Session` after a section: `Clear()` drops it, `Send` sets it for `WSASend`. -/
def SendPc.keeps (sendSession : Bool) : SendPc γ → Bool
  | .send | .refused | .execute | .failed => false
  | .post => true
  | _ => sendSession

def SendPc.posts : SendPc γ → Bool → Bool
  | .post, accepted => accepted
  | _, _ => false

namespace Server

def setSession (st : Server) (s : Nat) (session : Session) : Server :=
  { st with sessions := Function.update st.sessions s session }

def setAccept (st : Server) (a : Nat) (session : Option Nat) : Server :=
  { st with acceptObjects := st.acceptObjects.set a session }

def accepting (st : Server) (a : Nat) : Option Nat := st.acceptObjects.getD a none

def popSession (st : Server) : Server × Option Nat :=
  let popped := st.pool.pop
  match popped.2 with
  | none => ({ st with pool := popped.1 }, none)
  | some s =>
    ({ st with
      pool := popped.1
      phase := Function.update st.phase s .fresh
      closed := Function.update st.closed s false }, some s)

/-- A call on a number that is not open fails. -/
def accepted (st : Server) (c : Choice) (s : Nat) : Bool :=
  c.ok && (st.sockets (st.sessions s).socket).isSome

/-- `RecvStart`; the flag is its result. A refused call takes `m_Recv.m_Session` back. -/
def recvStart (st : Server) (c : Choice) (s : Nat) : Server × Bool :=
  let accepted := st.accepted c s
  let call := Call.wsaRecv s (st.sockets (st.sessions s).socket)
  ({ st.setSession s { st.sessions s with recvSession := accepted } with
    posted := if accepted then st.posted ++ [.recv s] else st.posted
    log := if accepted then st.log ++ [call] else st.log }, accepted)

def sending (st : Server) (c : Choice) (s : Nat) (pc : SendPc Chunk) :
    Server × List (SendPc Chunk) :=
  let session := st.sessions s
  let next := pc.next session.send (st.accepted c s)
  let posts := pc.posts (st.accepted c s)
  let call := Call.wsaSend s (st.sockets session.socket) (st.connection s) session.send.sendChunks
  ({ st.setSession s { session with
      send := next.1, sendSession := pc.keeps session.sendSession } with
    posted := if posts then st.posted ++ [.send s] else st.posted
    log := if posts then st.log ++ [call] else st.log }, next.2)

/-- Where `PushJobByRooms` closes the session instead of pushing. -/
def outOfRange (st : Server) (index : Int) : Bool :=
  st.roomStop || index < 0 || st.roomCount ≤ index

/-- The effects of a room's job or tick, with the room's fields stored in their place. -/
def ofOutcome (i : Nat) (o : Outcome) : List Instr :=
  o.before.map .effect ++ .store i o.room :: o.after.map .effect

def recv (st : Server) (s : Nat) : List Request → List Instr
  | [] => [.recvStart s .recv]
  | request :: requests =>
    match PacketHandler.dispatch request.rand request.packet with
    | none => [.pushLeave s, .releaseSession s]
    | some packet =>
      match packet.handled s (st.sessions s).roomID with
      | .reply sendChunk =>
        if request.made then [.effect (.insertSendQueue s sendChunk), .recv s requests]
        else [.recv s requests]
      | .push job index => [.pushJobByRooms job index, .recv s requests]

def dispatch (st : Server) (c : Choice) (i : Nat) (stop : Bool) : List Job → List Instr
  | [] => [.tick i stop]
  | job :: jobs =>
    let session := st.sessions job.session
    ofOutcome i (job.dispatch (st.rooms i) session.socket session.connected c.made c.nowTick) ++
      [.drop job.session, .dispatch i jobs stop]

def applyEffect (st : Server) : Effect → Server × List Instr
  | .connect s => (st.setSession s { st.sessions s with connected := true }, [])
  | .disConnected s => (st.setSession s { st.sessions s with connected := false }, [])
  | .setRoomID s roomID => (st.setSession s { st.sessions s with roomID := roomID }, [])
  | .insertSendQueue s packet =>
    (st, [.sending s (.insertSendQueue ⟨packet, st.connection s⟩)])
  | .closeSession s => (st, [.closesocket s])

/-- One entry: the state it leaves and what the thread has to do first now. -/
def exec (c : Choice) (st : Server) : Instr → Server × List Instr
  | .drop _ => (st, [])
  | .pushSession s =>
    ({ st.setSession s (st.sessions s).reset with
      connection := Function.update st.connection s (st.connection s + 1)
      phase := Function.update st.phase s .pooled }, [.poolPush s, .reWaiting])
  | .poolPush s =>
    let pushed := st.pool.push s
    let session := st.sessions s
    ({ st.setSession s (if pushed.2 then session.reset else session) with pool := pushed.1 }, [])
  | .reWaiting => (st, if st.listenStop then [] else [.reTest])
  | .reTest => (st, if st.waitQueue.isEmpty then [] else [.rePop])
  | .rePop =>
    let popped := st.popSession
    match popped.2 with
    | none => (popped.1, [])
    | some s => (popped.1, [.reTake s, .drop s])
  | .reTake s =>
    match st.waitQueue with
    | [] => (st, [])
    | a :: waitQueue =>
      ({ st.setAccept a (some s) with waitQueue := waitQueue }, [.accept a false false])
  | .accept a popSession execute =>
    if st.listenStop then
      (st.setAccept a none, if execute then [.error a] else [])
    else if popSession then (st, [.acceptPop a])
    else
      match st.accepting a with
      | none => (st, [.insertWait a])
      | some s => (st, [.makeSocket a s, .drop s])
  | .acceptPop a =>
    let popped := st.popSession
    match popped.2 with
    | none => (popped.1.setAccept a none, [.insertWait a])
    | some s => (popped.1.setAccept a (some s), [.makeSocket a s, .drop s])
  | .insertWait a => ({ st with waitQueue := st.waitQueue ++ [a] }, [.reWaiting])
  | .makeSocket a s =>
    let made := c.socket < INVALID_SOCKET && (st.sockets c.socket).isNone
    let socket := if made then c.socket else INVALID_SOCKET
    ({ st.setSession s { st.sessions s with socket := socket } with
      sockets := if made then Function.update st.sockets socket (some s) else st.sockets },
      [.acceptEx a s])
  | .acceptEx a s =>
    ({ st with
      posted := if st.accepted c s then st.posted ++ [.accept a s] else st.posted }, [])
  | .error a =>
    match st.accepting a with
    | none => (st, [.errorClear a])
    | some s =>
      ({ st with
        sockets := Function.update st.sockets (st.sessions s).socket none
        phase := Function.update st.phase s .pooled
        closed := Function.update st.closed s true }, [.errorClear a])
  | .errorClear a => (st.setAccept a none, [.errorAccept a])
  | .errorAccept a => (st, if st.listenStop then [] else [.accept a true false])
  | .acceptExecute a =>
    match st.accepting a with
    | none => (st, [])
    | some s => (st, if c.ok then [.acceptInsert a s] else [.error a])
  | .acceptInsert a s =>
    ({ st with
      userSession := (st.userSession.insert (st.sessions s).socket s).1
      phase := Function.update st.phase s .registered }, [.acceptRecvStart a s])
  | .acceptRecvStart a s => ((st.recvStart c s).1, [.acceptClear a])
  | .acceptClear a => (st.setAccept a none, [.accept a true true])
  | .recvExecute s completion =>
    if (st.sessions s).recvSession = false then (st, [])
    else
      match completion with
      | .failed =>
        (st.setSession s { st.sessions s with recvSession := false },
          [.recvStart s .worker, .drop s])
      | .zero => (st, [.pushLeave s, .releaseSession s, .drop s])
      | .data requests => (st, [.recv s requests, .drop s])
  | .recv s requests => (st, st.recv s requests)
  | .recvStart s caller =>
    let started := st.recvStart c s
    (started.1,
      if started.2 then []
      else
        match caller with
        | .recv => [.pushLeave s, .releaseSession s]
        | .worker => [.pushLeave s])
  | .releaseSession s => (st.setSession s { st.sessions s with recvSession := false }, [])
  | .pushLeave s => (st, [.pushJobByRooms ⟨.leave, s⟩ (st.sessions s).roomID])
  | .pushJobByRooms job index =>
    (st, if st.outOfRange index then [.closesocket job.session] else [.pushJob job index.toNat])
  | .pushJob job i =>
    ({ st with
      jobQueues := Function.update st.jobQueues i
        { st.jobQueues i with jobs := (st.jobQueues i).jobs ++ [job] } }, [])
  | .closesocket s =>
    ({ st with
      sockets := Function.update st.sockets (st.sessions s).socket none
      closed := Function.update st.closed s true
      log := st.log ++ [.closesocket s (st.sockets (st.sessions s).socket)] },
      [.eraseUserSession s])
  | .eraseUserSession s =>
    ({ st with
      userSession := st.userSession.erase (st.sessions s).socket
      log := st.log ++ [.erase s (st.userSession.find (st.sessions s).socket)] }, [])
  | .sendExecute s transferred =>
    (st,
      if (st.sessions s).sendSession = false then [.sending s .failed]
      else if transferred then [.sending s .execute, .drop s]
      else [.sending s .failed, .pushLeave s, .drop s])
  | .sending s pc =>
    let sent := st.sending c s pc
    (sent.1, sent.2.map (.sending s))
  | .startJob i =>
    ({ st with
      jobQueues := Function.update st.jobQueues i { st.jobQueues i with jobs := [] } },
      [.dispatch i (st.jobQueues i).jobs (st.jobQueues i).stop])
  | .dispatch i jobs stop => (st, st.dispatch c i stop jobs)
  | .store i room => ({ st with rooms := Function.update st.rooms i room }, [])
  | .effect e => st.applyEffect e
  | .tick i stop =>
    (st, ofOutcome i ((st.rooms i).tick c.nowTick c.made) ++ if stop then [] else [.startJob i])
  | .listenShutdown => ({ st with listenStop := true }, [])
  | .clearWaitQueue =>
    ({ st with
      acceptObjects := st.waitQueue.foldl (fun objects a => objects.set a none) st.acceptObjects
      waitQueue := [] }, [])
  | .roomsJoin => ({ st with roomStop := true }, [])
  | .stopRoom i =>
    ({ st with jobQueues := Function.update st.jobQueues i { st.jobQueues i with stop := true } },
      [])
  | .snapshot =>
    (st, st.userSession.values.map .closesocket ++ st.userSession.values.map .drop)

/-- The reference count of a session. A reference inside the scope of another one of the
same thread is not counted. -/
def useCount (st : Server) (s : Nat) : Nat :=
  (st.sessions s).recvSession.toNat + (st.sessions s).sendSession.toNat +
    st.acceptObjects.count (some s) + st.userSession.values.count s +
    ((List.range st.roomCount).map fun i =>
      (st.rooms i).roomUser.values.countP (fun user => user.session = s) +
        (st.jobQueues i).jobs.countP (fun job => job.session = s)).sum +
    Threads.weigh (Instr.refs s) st.threads

/-- What the references that an entry dropped set going: `PushSession` of each
session that had one before and has none after. -/
def released (before after : Server) : List Instr :=
  ((List.range before.pool.maxSize).filter fun s =>
    0 < before.useCount s && after.useCount s == 0).map .pushSession

def advance (st : Server) (t : Nat) (c : Choice) (instr : Instr) (rest : List Instr) : Server :=
  let r := st.exec c instr
  let after := { r.1 with threads := st.threads.set t (r.2 ++ rest) }
  { after with threads := st.threads.set t (released st after ++ (r.2 ++ rest)) }

end Server

def Posted.handler (completion : Completion) : Posted → Instr
  | .accept a _ =>
    match completion with
    | .failed => .error a
    | _ => .acceptExecute a
  | .recv s => .recvExecute s completion
  | .send s =>
    match completion with
    | .data _ => .sendExecute s true
    | _ => .sendExecute s false

inductive ServerAct where
  /-- Thread `t` goes on. -/
  | advance (t : Nat) (c : Choice)
  /-- A worker dequeues the completion of the `k`-th posted call. -/
  | complete (k : Nat) (completion : Completion)
  /-- The main thread is asked to shut down. -/
  | shutdown

def serverStep : Step Server ServerAct
  | st, .advance t c =>
    match st.threads[t]? with
    | some (instr :: rest) => some (st.advance t c instr rest)
    | _ => none
  | st, .complete k completion =>
    st.posted[k]?.map fun op =>
      { st with
        posted := st.posted.eraseIdx k
        threads := st.threads ++ [[op.handler completion]] }
  | st, .shutdown =>
    some { st with
      threads := st.threads ++
        [.listenShutdown :: .clearWaitQueue :: .roomsJoin ::
          ((List.range st.roomCount).map .stopRoom ++ [.snapshot])] }

end RoomServer
