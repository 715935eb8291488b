import RoomServer.PacketHandler
import RoomServer.Segmentation
import RoomServer.SendChunks
import RoomServer.SendGuarantees

/-! A session whose client asks for echoes: `Recv` on the worker of each receive, its
`MakeSendPacket` among the calls of all other threads, and its sends with their
completions. `Recv` goes on when its chunk is in the queue; the `Send` that it may have
to make first runs beside it, which only adds interleavings. -/
namespace RoomServer
open Library.Framing Library.Transition Library.Threads

/-- Where `Recv` stands, on thread `t`. -/
inductive RecvPc where
  /-- `WSARecv` is posted. -/
  | waiting
  /-- `DivideBuffer( divideByte )` is next. -/
  | divideBuffer (t divideByte : Nat)
  /-- In the handler, inside `MakeSendPacket`. -/
  | makeSendPacket (t : Nat)
  /-- In the handler, inside `InsertSendQueue`. -/
  | insertSendQueue (t : Nat)
  /-- `Dispatch` has returned; `SetReadPos` is next. -/
  | setReadPos (t : Nat)
  /-- `Dispatch` has refused a packet. -/
  | rejected
  deriving DecidableEq

def RecvPc.worker : RecvPc → Option Nat
  | .waiting | .rejected => none
  | .divideBuffer t _ | .makeSendPacket t | .insertSendQueue t | .setReadPos t => some t

structure EchoRun where
  /-- The send buffers and all threads that call `MakeSendPacket`. -/
  world : ChunkRun
  send : SendRun SendChunk
  buffer : RecvBuffer
  recv : RecvPc
  /-- What the client has sent and the server has not received. -/
  wire : List Byte
  /-- History: the packets handed to `Dispatch`. -/
  dispatched : List Packet
  /-- History: the bytes of the accepted `WSASend`s, as they were at the call. -/
  posted : List Byte

def EchoRun.start (poolSize : Nat) (stream : List Byte) : EchoRun :=
  ⟨.start poolSize, .start, .fresh, .waiting, stream, [], []⟩

inductive EchoAct where
  /-- The receive completes with the next `n` bytes, on thread `t`. -/
  | receive (t n : Nat)
  /-- `Recv` takes its next step. -/
  | recv
  /-- A thread in `Send`, or in the handler of a completion, takes its next step. -/
  | advance (i : Nat) (accepted : Bool)
  | complete (i : Nat) (success : Bool)
  /-- Anything else that happens with the send buffers. -/
  | other (act : ChunkAct)

def ChunkAct.thread? : ChunkAct → Option Nat
  | .makeSendPacket t _ | .advance t | .exit t => some t
  | _ => none

def echoCall (text : List Byte) : SendRequest := ⟨.SERVER_ECHO, text, 64⟩

/-! ### The references of the session -/

def SendPc.inserting : SendPc γ → Option γ
  | .insertSendQueue sendChunk => some sendChunk
  | _ => none

section
variable [DecidableEq γ]

def SendPc.holds (c : γ) (pc : SendPc γ) : Nat := pc.inserting.toList.count c

def SendRun.holds (st : SendRun γ) (c : γ) : Nat :=
  total (SendPc.holds c) st.threads + st.session.sendQueue.count c +
    st.session.sendChunks.count c

end

def ChunkRun.returned (st : ChunkRun) (t : Nat) : Option SendChunk :=
  match st.threads[t]? with
  | some ⟨_, .returned result⟩ => result
  | _ => none

namespace EchoRun

def made (st : EchoRun) : Option SendChunk :=
  match st.recv with
  | .makeSendPacket t => st.world.returned t
  | _ => none

def holds (st : EchoRun) (c : SendChunk) : Nat := st.send.holds c + st.made.toList.count c

/-- Other threads have their own calls, and drop only references of their own. -/
def leaves (st : EchoRun) : ChunkAct → Bool
  | .dropChunk k =>
    st.world.chunks[k]?.all fun c => decide (st.holds c < st.world.chunks.count c)
  | act => act.thread?.all fun t => st.recv.worker != some t

/-! ### Steps -/

/-- The echo handler, or the refusal of the packet. Other requests are for the rooms. -/
def dispatch (st : EchoRun) (t : Nat) (packet : Packet) : Option EchoRun :=
  match PacketHandler.dispatch 0 packet with
  | none => some { st with recv := .rejected }
  | some (.echo text) =>
    (chunkStep st.world (.makeSendPacket t (echoCall text))).map fun world =>
      { st with world := world, recv := .makeSendPacket t }
  | some _ => none

def recvStep (st : EchoRun) : Option EchoRun :=
  match st.recv with
  | .waiting | .rejected => none
  | .divideBuffer t divideByte =>
    let divided := st.buffer.divideBuffer divideByte
    let b := divided.1
    if divided.2 then
      let packet : Packet := ⟨b.packetHeader.type, b.getReadData b.packetHeader.size.toNat⟩
      { st with buffer := b, dispatched := st.dispatched ++ [packet] }.dispatch t packet
    else some { st with buffer := b, recv := .waiting }
  | .makeSendPacket t =>
    st.world.threads[t]?.bind fun thread =>
      match thread.pc with
      | .returned (some chunk) =>
        (sendStep st.send (.call chunk)).map fun send =>
          { st with send := send, recv := .insertSendQueue t }
      | .returned none => some { st with recv := .setReadPos t }
      | _ => (chunkStep st.world (.advance t)).map fun world => { st with world := world }
  | .insertSendQueue t =>
    if st.send.threads.any (·.inserting.isSome) then none
    else some { st with recv := .setReadPos t }
  | .setReadPos t =>
    let size := st.buffer.packetHeader.size.toNat + PacketID_SIZE
    some { st with buffer := st.buffer.setReadPos size, recv := .divideBuffer t 0 }

def postedBy (st : EchoRun) : SendAct SendChunk → List Byte
  | .advance i true =>
    if st.send.threads[i]? = some .post then
      st.send.session.sendChunks.flatMap (·.bytes st.world.buffers)
    else []
  | _ => []

def sendBy (st : EchoRun) (act : SendAct SendChunk) : Option EchoRun :=
  (sendStep st.send act).map fun send =>
    { st with send := send, posted := st.posted ++ st.postedBy act }

end EchoRun

def echoStep : Step EchoRun EchoAct
  | st, .receive t n =>
    if st.recv = .waiting ∧ (st.world.threads[t]?.any fun thread => thread.pc.request.isNone) ∧
        1 ≤ n ∧ n ≤ st.wire.length ∧ n ≤ st.buffer.getWriteBufferSize then
      some { st with
        buffer := st.buffer.fill (st.wire.take n)
        wire := st.wire.drop n
        recv := .divideBuffer t n }
    else none
  | st, .recv => st.recvStep
  | st, .advance i accepted => st.sendBy (.advance i accepted)
  | st, .complete i success => st.sendBy (.complete i success)
  | st, .other act =>
    if st.leaves act then (chunkStep st.world act).map fun world => { st with world := world }
    else none

/-- No `MakeSendPacket` of the session fails, no `WSASend` is refused or fails. -/
def unfailing (st : EchoRun) : EchoAct → Bool
  | .recv =>
    match st.recv with
    | .makeSendPacket t =>
      st.world.threads[t]?.all fun thread => decide (thread.pc ≠ .returned none)
    | _ => true
  | .advance _ accepted => accepted
  | .complete _ success => success
  | _ => true

/-! ### What a step of one thread leaves alone -/

def MakeThread.Ready (thread : MakeThread) : Prop :=
  ∀ request retry, thread.pc = .copyBuffer request retry → thread.lSendBuffer.isSome = true

namespace ChunkRun

theorem advance_moves {st st' : ChunkRun} {t : Nat} {thread : MakeThread}
    (hstep : st.advance t thread = some st') :
    ∃ moved : MakeThread, st'.threads = st.threads.set t moved ∧ moved.Ready := by
  cases hpc : thread.pc with
  | returned result =>
    simp only [advance, hpc] at hstep
    cases hstep
  | testBuffer request =>
    simp only [advance, hpc] at hstep
    cases hstep
    refine ⟨_, rfl, fun called retry hcopy => ?_⟩
    cases hbuffer : thread.lSendBuffer with
    | none => simp [hbuffer] at hcopy
    | some b => rfl
  | getSendBuffer request retry =>
    simp only [advance, hpc] at hstep
    cases hstep
    refine ⟨_, rfl, fun called again hcopy => ?_⟩
    cases hcopy
  | assign request retry sendBuffer =>
    simp only [advance, hpc] at hstep
    cases hstep
    rw [dropped_threads]
    refine ⟨_, rfl, fun called again hcopy => ?_⟩
    cases sendBuffer with
    | none => cases hcopy
    | some b => rfl
  | copyBuffer request retry =>
    simp only [advance, hpc] at hstep
    obtain ⟨b, _, hstep⟩ := Option.bind_eq_some_iff.mp hstep
    obtain ⟨⟨copied, result⟩, hcopy, hstep⟩ := Option.bind_eq_some_iff.mp hstep
    cases hstep
    rw [move, copy_threads hcopy]
    refine ⟨_, rfl, fun called again hcopy => ?_⟩
    cases result <;> cases retry <;> cases hcopy

theorem push_threads (st : ChunkRun) (b : Nat) : (st.push b).threads = st.threads := by
  unfold push
  dsimp only
  split <;> rfl

theorem push_chunks (st : ChunkRun) (b : Nat) : (st.push b).chunks = st.chunks := by
  unfold push
  dsimp only
  split <;> rfl

theorem thread_stays {st st' : ChunkRun} {act : ChunkAct} (hstep : chunkStep st act = some st')
    {t : Nat} {thread : MakeThread} (ht : st.threads[t]? = some thread)
    (hother : act.thread? ≠ some t) : st'.threads[t]? = some thread := by
  cases act with
  | thread =>
    cases hstep
    have hlt := (List.getElem?_eq_some_iff.mp ht).1
    rw [List.getElem?_append_left hlt]
    exact ht
  | makeSendPacket other request =>
    obtain ⟨found, _, rfl⟩ := makeSendPacket_cases hstep
    have hne : other ≠ t := fun heq => hother (congrArg some heq)
    exact (List.getElem?_set_ne hne).trans ht
  | advance other =>
    obtain ⟨found, _, hstep⟩ := Option.bind_eq_some_iff.mp hstep
    obtain ⟨moved, hthreads, _⟩ := advance_moves hstep
    have hne : other ≠ t := fun heq => hother (congrArg some heq)
    rw [hthreads]
    exact (List.getElem?_set_ne hne).trans ht
  | copyChunk k =>
    obtain ⟨chunk, _, rfl⟩ := Option.map_eq_some_iff.mp hstep
    exact ht
  | dropChunk k =>
    obtain ⟨chunk, _, rfl⟩ := Option.map_eq_some_iff.mp hstep
    rw [dropped_threads]
    exact ht
  | push k =>
    obtain ⟨b, _, rfl⟩ := Option.map_eq_some_iff.mp hstep
    rw [push_threads]
    exact ht
  | exit other =>
    obtain ⟨found, _, rfl⟩ := exit_cases hstep
    rw [dropped_threads]
    have hne : other ≠ t := fun heq => hother (congrArg some heq)
    exact (List.getElem?_set_ne hne).trans ht

theorem count_step {st st' : ChunkRun} {act : ChunkAct} (hstep : chunkStep st act = some st')
    (hkept : ∀ k, act ≠ .dropChunk k) (c : SendChunk) :
    st.chunks.count c ≤ st'.chunks.count c := by
  cases act with
  | thread =>
    cases hstep
    exact Nat.le_refl _
  | makeSendPacket t request =>
    obtain ⟨found, _, rfl⟩ := makeSendPacket_cases hstep
    exact Nat.le_refl _
  | advance t =>
    obtain ⟨thread, ht, hstep⟩ := Option.bind_eq_some_iff.mp hstep
    cases hrequest : thread.pc.request with
    | none =>
      obtain ⟨lSendBuffer, pc⟩ := thread
      cases pc <;> cases hrequest
      cases hstep
    | some request =>
      cases callStep_of_advance ht hrequest hstep with
      | continues moved place call rank chunks => rw [chunks]
      | fails lSendBuffer place chunks => rw [chunks]
      | returns lSendBuffer chunk place call chunks =>
        rw [chunks]
        exact List.count_le_count_cons
  | copyChunk k =>
    obtain ⟨chunk, _, rfl⟩ := Option.map_eq_some_iff.mp hstep
    exact List.count_le_count_cons
  | dropChunk k => exact absurd rfl (hkept k)
  | push k =>
    obtain ⟨b, _, rfl⟩ := Option.map_eq_some_iff.mp hstep
    rw [push_chunks]
  | exit t =>
    obtain ⟨found, _, rfl⟩ := exit_cases hstep
    rw [dropped_chunks]
    exact Nat.le_refl _

end ChunkRun
end RoomServer
