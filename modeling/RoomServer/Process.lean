import RoomServer.Library.WorkerPool
import RoomServer.ServerInvariant

/-! The process around the server: `main`, the workers of the two completion ports and the
monitor. A completion is handled by a worker that dequeued it, `main` runs the accepts of
`Initialize` and the body of `Shutdown` itself, and it waits where the source waits. -/
namespace RoomServer
open Library Library.Transition Library.WorkerPool

inductive Port where
  | service
  | listen
  deriving DecidableEq

def Posted.port : Posted → Port
  | .accept _ _ => .listen
  | .recv _ | .send _ => .service

inductive MainStep where
  /-- The loop of `ListenManager::Accept` over its AcceptObjects has ended. -/
  | accepted
  /-- `IOCP::Start`. -/
  | start (p : Port)
  | startRooms
  | startMonitor
  | waitShutdown
  | shutdown
  /-- The loop of `Shutdown` over `CloseSession` has ended. -/
  | closed
  /-- `IOCP::Stop`: the flag, then a completion without an object for each worker. -/
  | stop (p : Port)
  | post (p : Port)
  | join (p : Port) (w : Nat)
  | closeHandle (p : Port)
  -- `StopMonitor`
  | setEvent
  | joinMonitor
  | closeEvent
  /-- `Shutdown` returns, and its vector of sessions goes. -/
  | returned
  | release
  deriving DecidableEq

/-- Where `MonitorLoop` is: in its wait, before it reads `m_UserSession`, before it prints. -/
inductive MonitorPc where
  | wait
  | count (signalled : Bool)
  | print (signalled : Bool) (connCount : Nat)
  | ended
  deriving DecidableEq

/-- A line of the monitor, without the load of the machine and the chunks. -/
structure Report where
  connCount : Nat
  session : Int
  sessionMax : Nat
  deriving DecidableEq

structure Process where
  server : Server
  /-- `m_iThreadCount`. -/
  threadCount : Port → Nat
  pools : Port → Pool Nat
  /-- Whether `m_IOCPHandle` is open. -/
  handle : Port → Bool
  main : List MainStep
  /-- `g_ShutdownEvent`. -/
  shutdownEvent : Bool
  /-- The thread of the server that stands for `main` in `Shutdown`. -/
  closing : Option Nat
  /-- `m_MonitorStop`: null, or whether the event is set. -/
  monitorStop : Option Bool
  monitor : Option MonitorPc
  reports : List Report

inductive ProcessAct where
  /-- `ConsoleHandler`. -/
  | signal
  /-- `main` goes on; whether `CreateEvent` succeeds. -/
  | main (ok : Bool)
  /-- A thread of the server goes on. -/
  | run (t : Nat) (c : Choice)
  -- a worker tests `m_Stop`, or its `GetQueuedCompletionStatus` returns, or `Execute` does
  | test (p : Port) (w : Nat)
  | take (p : Port) (w k : Nat) (completion : Completion)
  | takeNull (p : Port) (w : Nat)
  | finish (p : Port) (w : Nat)
  | monitor (timedOut : Bool)

def Server.done (st : Server) (t : Nat) : Bool :=
  match st.threads[t]? with
  | some [] => true
  | _ => false

def Server.roomsDone (st : Server) : Bool := (List.range st.roomCount).all st.done

/-- `CloseSession` follows the joins of `RoomManager::Join`. -/
def Instr.afterJoin : Instr → Bool
  | .snapshot => true
  | _ => false

def Instr.isDrop : Instr → Bool
  | .drop _ => true
  | _ => false

def Server.letsGo (st : Server) (t : Nat) : Bool :=
  match st.threads[t]? with
  | some thread => thread.all Instr.isDrop
  | none => false

namespace Process

def opening : List MainStep :=
  [.accepted, .start .listen, .startRooms, .start .service, .startMonitor, .waitShutdown,
    .shutdown, .closed]

def stopping (threadCount : Port → Nat) (p : Port) : List MainStep :=
  .stop p :: List.replicate (threadCount p) (.post p)

def joining (threadCount : Port → Nat) (p : Port) : List MainStep :=
  (List.range (threadCount p)).map (.join p) ++ [.closeHandle p]

/-- `main`, `Shutdown` and what they call, where `Listen` has succeeded. -/
def program (threadCount : Port → Nat) : List MainStep :=
  opening ++ (stopping threadCount .service ++ (stopping threadCount .listen ++
    (joining threadCount .service ++ (joining threadCount .listen ++
      [.setEvent, .joinMonitor, .closeEvent, .returned, .release]))))

def start (roomCount poolSize acceptCount : Nat) (threadCount : Port → Nat) : Process where
  server := .start roomCount poolSize acceptCount
  threadCount := threadCount
  pools _ := .start 0
  handle _ := true
  main := program threadCount
  shutdownEvent := false
  closing := none
  monitorStop := none
  monitor := none
  reports := []

def setPool (st : Process) (p : Port) (pool : Pool Nat) : Process :=
  { st with pools := Function.update st.pools p pool }

def poolAct (st : Process) (p : Port) (act : WorkerAct Nat) : Option Process :=
  (poolStep (st.pools p) act).map (st.setPool p)

/-- One step of `main`; `none` where it waits. -/
def mainStep (st : Process) (ok : Bool) : MainStep → Option Process
  | .accepted => if st.server.done st.server.roomCount then some st else none
  | .start p => some (st.setPool p (.start (st.threadCount p)))
  | .startRooms => some st
  | .startMonitor =>
    some (if ok then { st with monitorStop := some false, monitor := some .wait } else st)
  | .waitShutdown => if st.shutdownEvent then some st else none
  | .shutdown =>
    (serverStep st.server .shutdown).map fun server =>
      { st with server := server, closing := some st.server.threads.length }
  | .closed => if st.closing.any st.server.letsGo then some st else none
  | .stop p => st.poolAct p .halt
  | .post p => st.poolAct p .post
  | .join p w => if (st.pools p).places[w]? = some .ended then some st else none
  | .closeHandle p => some { st with handle := Function.update st.handle p false }
  -- `StopMonitor` returns at once where there is no event
  | .setEvent => some { st with monitorStop := st.monitorStop.map fun _ => true }
  | .joinMonitor =>
    if st.monitorStop = none || st.monitor = some .ended then some st else none
  | .closeEvent => some { st with monitorStop := none }
  | .returned => if st.closing.any st.server.done then some st else none
  | .release => some st

/-- The vector that `CloseSession` is called for lives until `Shutdown` returns. -/
def keepsVector (st : Process) (t : Nat) : Bool :=
  st.closing = some t && st.server.letsGo t && st.main.head? != some .returned

/-- The room threads exist once `RoomManager::Initialize` has started them. -/
def mayRun (st : Process) (t : Nat) : Bool :=
  (decide (st.server.roomCount ≤ t) || !st.main.contains .startRooms) &&
    (st.server.roomsDone || !((st.server.threads[t]?.bind List.head?).any Instr.afterJoin)) &&
    !st.keepsVector t

def report (st : Process) (connCount : Nat) : Report :=
  ⟨connCount, st.server.pool.maxSize - st.server.pool.freeCount, st.server.pool.maxSize⟩

def monitorStep (st : Process) (timedOut : Bool) : MonitorPc → Option Process
  | .wait =>
    match st.monitorStop with
    | some true => some { st with monitor := some (.count true) }
    | some false => if timedOut then some { st with monitor := some (.count false) } else none
    | none => some { st with monitor := some (.count false) }
  | .count signalled =>
    some { st with monitor := some (.print signalled st.server.userSession.values.length) }
  | .print signalled connCount =>
    some { st with
      monitor := some (if signalled then .ended else .wait)
      reports := st.reports ++ [st.report connCount] }
  | .ended => none

end Process

def processStep : Step Process ProcessAct
  | st, .signal => some { st with shutdownEvent := true }
  | st, .main ok =>
    match st.main with
    | [] => none
    | step :: main => (st.mainStep ok step).map fun st => { st with main := main }
  | st, .run t c =>
    if st.mayRun t then
      (serverStep st.server (.advance t c)).map fun server => { st with server := server }
    else none
  | st, .test p w => st.poolAct p (.test w)
  | st, .take p w k completion =>
    if st.handle p && st.server.posted[k]?.any (fun op => op.port = p) then
      (serverStep st.server (.complete k completion)).bind fun server =>
        (st.poolAct p (.take w st.server.threads.length)).map fun st => { st with server := server }
    else none
  | st, .takeNull p w => if st.handle p then st.poolAct p (.takePill w) else none
  | st, .finish p w =>
    match (st.pools p).places[w]? with
    | some (.work t) => if st.server.done t then st.poolAct p (.finish w) else none
    | _ => none
  | st, .monitor timedOut => st.monitor.bind (st.monitorStep timedOut)

/-! ### What a step can do -/

/-- One case for `main`, for each kind of thread, and for the handler of the console. -/
inductive ProcessSpec (st : Process) : ProcessAct → Process → Prop where
  | signal : ProcessSpec st .signal { st with shutdownEvent := true }
  | main (ok : Bool) {step : MainStep} {main : List MainStep} {st' : Process}
      (hmain : st.main = step :: main) (h : st.mainStep ok step = some st') :
      ProcessSpec st (.main ok) { st' with main := main }
  | run (t : Nat) (c : Choice) {server : Server} (hrun : st.mayRun t = true)
      (h : serverStep st.server (.advance t c) = some server) :
      ProcessSpec st (.run t c) { st with server := server }
  | test (p : Port) (w : Nat) {pool : Pool Nat} (h : poolStep (st.pools p) (.test w) = some pool) :
      ProcessSpec st (.test p w) (st.setPool p pool)
  | take (p : Port) (w k : Nat) (completion : Completion) {server : Server} {pool : Pool Nat}
      (hhandle : st.handle p = true)
      (hport : st.server.posted[k]?.any (fun op => op.port = p) = true)
      (hserver : serverStep st.server (.complete k completion) = some server)
      (h : poolStep (st.pools p) (.take w st.server.threads.length) = some pool) :
      ProcessSpec st (.take p w k completion) { st.setPool p pool with server := server }
  | takeNull (p : Port) (w : Nat) {pool : Pool Nat} (hhandle : st.handle p = true)
      (h : poolStep (st.pools p) (.takePill w) = some pool) :
      ProcessSpec st (.takeNull p w) (st.setPool p pool)
  | finish (p : Port) (w : Nat) {t : Nat} {pool : Pool Nat}
      (hwork : (st.pools p).places[w]? = some (.work t)) (hdone : st.server.done t = true)
      (h : poolStep (st.pools p) (.finish w) = some pool) :
      ProcessSpec st (.finish p w) (st.setPool p pool)
  | monitor (timedOut : Bool) {pc : MonitorPc} {st' : Process} (hpc : st.monitor = some pc)
      (h : st.monitorStep timedOut pc = some st') : ProcessSpec st (.monitor timedOut) st'

theorem process_cases {st st' : Process} {act : ProcessAct} (h : processStep st act = some st') :
    ProcessSpec st act st' := by
  cases act with
  | signal =>
    cases h
    exact .signal
  | main ok =>
    simp only [processStep] at h
    split at h
    case h_1 => contradiction
    case h_2 step main hmain =>
      obtain ⟨st', hstep, rfl⟩ := Option.map_eq_some_iff.mp h
      exact .main ok hmain hstep
  | run t c =>
    simp only [processStep] at h
    split at h
    case isFalse => contradiction
    case isTrue hrun =>
      obtain ⟨server, hserver, rfl⟩ := Option.map_eq_some_iff.mp h
      exact .run t c hrun hserver
  | test p w =>
    obtain ⟨pool, hpool, rfl⟩ := Option.map_eq_some_iff.mp h
    exact .test p w hpool
  | take p w k completion =>
    simp only [processStep] at h
    split at h
    case isFalse => contradiction
    case isTrue htake =>
      rw [Bool.and_eq_true] at htake
      obtain ⟨server, hserver, h⟩ := Option.bind_eq_some_iff.mp h
      obtain ⟨_, hact, rfl⟩ := Option.map_eq_some_iff.mp h
      obtain ⟨pool, hpool, rfl⟩ := Option.map_eq_some_iff.mp hact
      exact .take p w k completion htake.1 htake.2 hserver hpool
  | takeNull p w =>
    simp only [processStep] at h
    split at h
    case isFalse => contradiction
    case isTrue hhandle =>
      obtain ⟨pool, hpool, rfl⟩ := Option.map_eq_some_iff.mp h
      exact .takeNull p w hhandle hpool
  | finish p w =>
    simp only [processStep] at h
    split at h
    case h_2 => contradiction
    case h_1 t hwork =>
      split at h
      case isFalse => contradiction
      case isTrue hdone =>
        obtain ⟨pool, hpool, rfl⟩ := Option.map_eq_some_iff.mp h
        exact .finish p w hwork hdone hpool
  | monitor timedOut =>
    obtain ⟨pc, hpc, hstep⟩ := Option.bind_eq_some_iff.mp h
    exact .monitor timedOut hpc hstep

theorem main_server {st st' : Process} {ok : Bool} {step : MainStep}
    (h : st.mainStep ok step = some st') : st'.server = st.server ∨
      serverStep st.server .shutdown = some st'.server := by
  cases step with
  | shutdown =>
    simp only [Process.mainStep] at h
    obtain ⟨server, hserver, rfl⟩ := Option.map_eq_some_iff.mp h
    exact .inr hserver
  | stop p | post p =>
    simp only [Process.mainStep, Process.poolAct] at h
    obtain ⟨pool, _, rfl⟩ := Option.map_eq_some_iff.mp h
    exact .inl rfl
  | accepted | waitShutdown | closed | join | joinMonitor | returned =>
    simp only [Process.mainStep] at h
    split at h
    · cases h
      exact .inl rfl
    · contradiction
  | startMonitor =>
    cases h
    left
    split <;> rfl
  | _ =>
    cases h
    exact .inl rfl

/-- What the process does to the server, the server can do. -/
theorem process_server {st st' : Process} {act : ProcessAct} (h : processStep st act = some st') :
    st'.server = st.server ∨ ∃ serverAct, serverStep st.server serverAct = some st'.server := by
  cases process_cases h with
  | signal | test | takeNull | finish => exact .inl rfl
  | main ok hmain hstep =>
    rcases main_server hstep with hsame | hshutdown
    · exact .inl hsame
    · exact .inr ⟨.shutdown, hshutdown⟩
  | run t c _ hserver => exact .inr ⟨.advance t c, hserver⟩
  | take p w k completion _ _ hserver _ => exact .inr ⟨.complete k completion, hserver⟩
  | monitor timedOut _ hstep =>
    left
    rename_i pc _
    cases pc with
    | wait =>
      simp only [Process.monitorStep] at hstep
      split at hstep
      · cases hstep
        rfl
      · split at hstep
        · cases hstep
          rfl
        · contradiction
      · cases hstep
        rfl
    | count | print =>
      cases hstep
      rfl
    | ended => contradiction

theorem process_reaches {st : Process} {roomCount poolSize acceptCount : Nat}
    {threadCount : Port → Nat} {ok : Process → ProcessAct → Prop}
    (h : Reaches processStep ok (.start roomCount poolSize acceptCount threadCount) st) :
    Reaches serverStep always (.start roomCount poolSize acceptCount) st.server := by
  apply h.invariant (I := fun st =>
    Reaches serverStep always (.start roomCount poolSize acceptCount) st.server) .start
  intro st act st' _ hreaches _ hstep
  rcases process_server hstep with hsame | ⟨serverAct, hserver⟩
  · rw [hsame]
    exact hreaches
  · exact .next serverAct hreaches trivial hserver

end RoomServer
