import RoomServer.RoomMembers
import RoomServer.ServerFields

/-! The control flow of the threads: what may come next after which entry, and on
what condition. -/
namespace RoomServer
open Library

/-- What a thread may have to do next after an entry. -/
inductive Next (c : Choice) (st : Server) : Instr → Instr → Prop where
  | poolPush (s : Nat) : Next c st (.pushSession s) (.poolPush s)
  | pushReWaiting (s : Nat) : Next c st (.pushSession s) .reWaiting
  | reTest : Next c st .reWaiting .reTest
  | rePop : Next c st .reTest .rePop
  | reTake {s : Nat} (h : st.Pops s .rePop) : Next c st .rePop (.reTake s)
  | reDrop {s : Nat} (h : st.Pops s .rePop) : Next c st .rePop (.drop s)
  | reAccept (s : Nat) {a : Nat} {waitQueue : List Nat} (h : st.waitQueue = a :: waitQueue) :
      Next c st (.reTake s) (.accept a false false)
  | acceptStopped (a : Nat) (popSession execute : Bool) (h : st.listenStop = true) :
      Next c st (.accept a popSession execute) (.error a)
  | acceptPop (a : Nat) (execute : Bool) : Next c st (.accept a true execute) (.acceptPop a)
  | acceptWait (a : Nat) (execute : Bool) : Next c st (.accept a false execute) (.insertWait a)
  | acceptGiven {a s : Nat} (execute : Bool) (hrun : st.listenStop = false)
      (h : st.accepting a = some s) : Next c st (.accept a false execute) (.makeSocket a s)
  | acceptDrop {a s : Nat} (execute : Bool) (h : st.accepting a = some s) :
      Next c st (.accept a false execute) (.drop s)
  | popWait (a : Nat) : Next c st (.acceptPop a) (.insertWait a)
  | popMakeSocket {a s : Nat} (h : st.Pops s (.acceptPop a)) :
      Next c st (.acceptPop a) (.makeSocket a s)
  | popDrop {a s : Nat} (h : st.Pops s (.acceptPop a)) : Next c st (.acceptPop a) (.drop s)
  | waitReWaiting (a : Nat) : Next c st (.insertWait a) .reWaiting
  | acceptEx (a s : Nat) : Next c st (.makeSocket a s) (.acceptEx a s)
  | errorClear (a : Nat) : Next c st (.error a) (.errorClear a)
  | errorAccept (a : Nat) : Next c st (.errorClear a) (.errorAccept a)
  | errorAgain (a : Nat) : Next c st (.errorAccept a) (.accept a true false)
  | acceptInsert {a s : Nat} (h : st.accepting a = some s) :
      Next c st (.acceptExecute a) (.acceptInsert a s)
  | executeError (a : Nat) : Next c st (.acceptExecute a) (.error a)
  | acceptRecvStart (a s : Nat) : Next c st (.acceptInsert a s) (.acceptRecvStart a s)
  | acceptClear (a s : Nat) : Next c st (.acceptRecvStart a s) (.acceptClear a)
  | acceptAgain (a : Nat) : Next c st (.acceptClear a) (.accept a true true)
  | recvWorker (s : Nat) : Next c st (.recvExecute s .failed) (.recvStart s .worker)
  | zeroLeave (s : Nat) : Next c st (.recvExecute s .zero) (.pushLeave s)
  | zeroRelease (s : Nat) : Next c st (.recvExecute s .zero) (.releaseSession s)
  | recv (s : Nat) (requests : List Request) :
      Next c st (.recvExecute s (.data requests)) (.recv s requests)
  | recvDrop {s : Nat} (completion : Completion) (h : (st.sessions s).recvSession = true) :
      Next c st (.recvExecute s completion) (.drop s)
  | recvStart (s : Nat) : Next c st (.recv s []) (.recvStart s .recv)
  | rejectLeave (s : Nat) (requests : List Request) : Next c st (.recv s requests) (.pushLeave s)
  | rejectRelease (s : Nat) (requests : List Request) :
      Next c st (.recv s requests) (.releaseSession s)
  | reply (s : Nat) (requests : List Request) (sendChunk : ServerPacket ℚ) :
      Next c st (.recv s requests) (.effect (.insertSendQueue s sendChunk))
  | request (s : Nat) (requests : List Request) {job : Job} (index : Int) (h : job.session = s) :
      Next c st (.recv s requests) (.pushJobByRooms job index)
  | recvRest (s : Nat) (requests rest : List Request) :
      Next c st (.recv s requests) (.recv s rest)
  | startLeave (s : Nat) (caller : Caller) (h : st.accepted c s = false) :
      Next c st (.recvStart s caller) (.pushLeave s)
  | startRelease (s : Nat) (h : st.accepted c s = false) :
      Next c st (.recvStart s .recv) (.releaseSession s)
  | leaveJob (s : Nat) :
      Next c st (.pushLeave s) (.pushJobByRooms ⟨.leave, s⟩ (st.sessions s).roomID)
  | outOfRange {job : Job} {index : Int} (h : st.outOfRange index = true) :
      Next c st (.pushJobByRooms job index) (.closesocket job.session)
  | pushJob {job : Job} {index : Int} (h : st.outOfRange index = false) :
      Next c st (.pushJobByRooms job index) (.pushJob job index.toNat)
  | eraseUserSession (s : Nat) : Next c st (.closesocket s) (.eraseUserSession s)
  | sendFailed (s : Nat) (transferred : Bool) :
      Next c st (.sendExecute s transferred) (.sending s .failed)
  | sendExecute (s : Nat) : Next c st (.sendExecute s true) (.sending s .execute)
  | sendLeave (s : Nat) : Next c st (.sendExecute s false) (.pushLeave s)
  | sendDrop {s : Nat} (transferred : Bool) (h : (st.sessions s).sendSession = true) :
      Next c st (.sendExecute s transferred) (.drop s)
  | sending {s : Nat} {pc pc' : SendPc Chunk}
      (h : pc' ∈ (pc.next (st.sessions s).send (st.accepted c s)).2) :
      Next c st (.sending s pc) (.sending s pc')
  | dispatch (i : Nat) :
      Next c st (.startJob i) (.dispatch i (st.jobQueues i).jobs (st.jobQueues i).stop)
  | jobEffect {i : Nat} {job : Job} {jobs : List Job} {stop : Bool} {o : Outcome}
      (ho : JobSpec (st.rooms i) job (st.sessions job.session).socket
        (st.sessions job.session).connected o)
      {e : Effect} (h : e ∈ o.effects) : Next c st (.dispatch i (job :: jobs) stop) (.effect e)
  | jobStore {i : Nat} {job : Job} {jobs : List Job} {stop : Bool} {o : Outcome}
      (ho : JobSpec (st.rooms i) job (st.sessions job.session).socket
        (st.sessions job.session).connected o) :
      Next c st (.dispatch i (job :: jobs) stop) (.store i o.room)
  | jobDrop (i : Nat) (job : Job) (jobs : List Job) (stop : Bool) :
      Next c st (.dispatch i (job :: jobs) stop) (.drop job.session)
  | dispatchRest (i : Nat) (job : Job) (jobs : List Job) (stop : Bool) :
      Next c st (.dispatch i (job :: jobs) stop) (.dispatch i jobs stop)
  | tick (i : Nat) (stop : Bool) : Next c st (.dispatch i [] stop) (.tick i stop)
  | tickEffect {i : Nat} {stop : Bool} {o : Outcome} (ho : Room.TickSpec (st.rooms i) o)
      {e : Effect} (h : e ∈ o.effects) : Next c st (.tick i stop) (.effect e)
  | tickStore {i : Nat} {stop : Bool} {o : Outcome} (ho : Room.TickSpec (st.rooms i) o) :
      Next c st (.tick i stop) (.store i o.room)
  | startJob (i : Nat) : Next c st (.tick i false) (.startJob i)
  | insertSendQueue (s : Nat) (sendChunk : ServerPacket ℚ) :
      Next c st (.effect (.insertSendQueue s sendChunk))
        (.sending s (.insertSendQueue ⟨sendChunk, st.connection s⟩))
  | closeSession (s : Nat) : Next c st (.effect (.closeSession s)) (.closesocket s)
  | snapshotClose {n s : Nat} (h : st.userSession.find n = some s) :
      Next c st .snapshot (.closesocket s)
  | snapshotDrop {n s : Nat} (h : st.userSession.find n = some s) : Next c st .snapshot (.drop s)

section
variable {c : Choice} {st : Server} {instr x : Instr} {s : Nat}

theorem mem_outcome {i : Nat} {o : Outcome} (hx : x ∈ Server.ofOutcome i o) :
    (∃ e ∈ o.effects, x = .effect e) ∨ x = .store i o.room := by
  simp only [Server.ofOutcome, List.mem_append, List.mem_cons, List.mem_map] at hx
  rcases hx with ⟨e, he, rfl⟩ | rfl | ⟨e, he, rfl⟩
  · exact .inl ⟨e, List.mem_append_left _ he, rfl⟩
  · exact .inr rfl
  · exact .inl ⟨e, List.mem_append_right _ he, rfl⟩

theorem recv_next {requests : List Request} (hx : x ∈ st.recv s requests) :
    Next c st (.recv s requests) x := by
  cases requests with
  | nil =>
    cases List.mem_singleton.mp hx
    exact .recvStart s
  | cons request requests =>
    rw [Server.recv] at hx
    split at hx
    case h_1 =>
      simp only [List.mem_cons, List.not_mem_nil, or_false] at hx
      rcases hx with rfl | rfl
      · exact .rejectLeave s _
      · exact .rejectRelease s _
    case h_2 packet _ =>
      split at hx
      case h_1 sendChunk _ =>
        split at hx <;> simp only [List.mem_cons, List.not_mem_nil, or_false] at hx
        · rcases hx with rfl | rfl
          · exact .reply s _ sendChunk
          · exact .recvRest s _ _
        · subst hx
          exact .recvRest s _ _
      case h_2 job index hhandled =>
        simp only [List.mem_cons, List.not_mem_nil, or_false] at hx
        rcases hx with rfl | rfl
        · exact .request s _ index (ClientPacket.push_session hhandled)
        · exact .recvRest s _ _

theorem exec_next (hx : x ∈ (st.exec c instr).2) : Next c st instr x := by
  cases instr with
  | rePop =>
    rcases popSession_cases st with hpop | ⟨s, pool, hpop, _⟩ <;>
      simp only [Server.exec, hpop, List.mem_cons, List.not_mem_nil, or_false] at hx
    have hpops : st.Pops s .rePop := by rw [Server.Pops, hpop]
    rcases hx with rfl | rfl
    · exact .reTake hpops
    · exact .reDrop hpops
  | acceptPop a =>
    rcases popSession_cases st with hpop | ⟨s, pool, hpop, _⟩ <;>
      simp only [Server.exec, hpop, List.mem_cons, List.not_mem_nil, or_false] at hx
    · subst hx
      exact .popWait a
    · have hpops : st.Pops s (.acceptPop a) := by rw [Server.Pops, hpop]
      rcases hx with rfl | rfl
      · exact .popMakeSocket hpops
      · exact .popDrop hpops
  | dispatch i jobs stop =>
    cases jobs with
    | nil =>
      cases List.mem_singleton.mp hx
      exact .tick i stop
    | cons job jobs =>
      simp only [Server.exec, Server.dispatch, List.mem_append, List.mem_cons, List.not_mem_nil,
        or_false] at hx
      have hspec := dispatch_spec job (st.rooms i) (st.sessions job.session).socket
        (st.sessions job.session).connected c.made c.nowTick
      rcases hx with hx | rfl | rfl
      · rcases mem_outcome hx with ⟨e, he, rfl⟩ | rfl
        · exact .jobEffect hspec he
        · exact .jobStore hspec
      · exact .jobDrop i job jobs stop
      · exact .dispatchRest i job jobs stop
  | tick i stop =>
    simp only [Server.exec, List.mem_append] at hx
    have hspec := (st.rooms i).tick_spec c.nowTick c.made
    rcases hx with hx | hx
    · rcases mem_outcome hx with ⟨e, he, rfl⟩ | rfl
      · exact .tickEffect hspec he
      · exact .tickStore hspec
    · cases stop with
      | true => contradiction
      | false =>
        cases List.mem_singleton.mp hx
        exact .startJob i
  | snapshot =>
    simp only [Server.exec, List.mem_append, List.mem_map] at hx
    rcases hx with ⟨s, hs, rfl⟩ | ⟨s, hs, rfl⟩
    · obtain ⟨n, hn⟩ := OrderedMap.mem_values.mp hs
      exact .snapshotClose hn
    · obtain ⟨n, hn⟩ := OrderedMap.mem_values.mp hs
      exact .snapshotDrop hn
  | recv s requests => exact recv_next hx
  | sending s pc =>
    obtain ⟨pc', hpc', rfl⟩ := List.mem_map.mp hx
    exact .sending hpc'
  | accept a popSession execute =>
    simp only [Server.exec] at hx
    split at hx
    case isTrue hstop =>
      split at hx
      · cases List.mem_singleton.mp hx
        exact .acceptStopped a _ _ hstop
      · contradiction
    case isFalse hstop =>
      have hrun := Bool.not_eq_true _ ▸ hstop
      cases popSession with
      | true =>
        cases List.mem_singleton.mp hx
        exact .acceptPop a execute
      | false =>
        simp only [Bool.false_eq_true, if_false] at hx
        split at hx <;> simp only [List.mem_cons, List.not_mem_nil, or_false] at hx
        · subst hx
          exact .acceptWait a execute
        · rename_i s haccepting
          rcases hx with rfl | rfl
          · exact .acceptGiven execute hrun haccepting
          · exact .acceptDrop execute haccepting
  | recvExecute s completion =>
    simp only [Server.exec] at hx
    split at hx
    · contradiction
    · rename_i hrecv
      have hrecv := Bool.not_eq_false _ ▸ hrecv
      cases completion with
      | failed =>
        simp only [List.mem_cons, List.not_mem_nil, or_false] at hx
        rcases hx with rfl | rfl
        · exact .recvWorker s
        · exact .recvDrop _ hrecv
      | zero =>
        simp only [List.mem_cons, List.not_mem_nil, or_false] at hx
        rcases hx with rfl | rfl | rfl
        · exact .zeroLeave s
        · exact .zeroRelease s
        · exact .recvDrop _ hrecv
      | data requests =>
        simp only [List.mem_cons, List.not_mem_nil, or_false] at hx
        rcases hx with rfl | rfl
        · exact .recv s requests
        · exact .recvDrop _ hrecv
  | recvStart s caller =>
    cases haccepted : st.accepted c s <;> cases caller <;>
      simp only [Server.exec, Server.recvStart, haccepted, Bool.false_eq_true, if_true, if_false,
        List.mem_cons, List.not_mem_nil, or_false] at hx
    · rcases hx with rfl | rfl
      · exact .startLeave s _ haccepted
      · exact .startRelease s haccepted
    · subst hx
      exact .startLeave s _ haccepted
  | sendExecute s transferred =>
    simp only [Server.exec] at hx
    split at hx
    · cases List.mem_singleton.mp hx
      exact .sendFailed s transferred
    · rename_i hsend
      have hsend := Bool.not_eq_false _ ▸ hsend
      cases transferred <;> simp only [Bool.false_eq_true, if_true, if_false, List.mem_cons,
        List.not_mem_nil, or_false] at hx
      · rcases hx with rfl | rfl | rfl
        · exact .sendFailed s false
        · exact .sendLeave s
        · exact .sendDrop _ hsend
      · rcases hx with rfl | rfl
        · exact .sendExecute s
        · exact .sendDrop _ hsend
  | effect e =>
    cases e <;> simp only [Server.exec, Server.applyEffect, List.mem_cons, List.not_mem_nil,
      or_false] at hx <;> subst hx
    · exact .insertSendQueue ..
    · exact .closeSession _
  | pushSession s =>
    simp only [Server.exec, List.mem_cons, List.not_mem_nil, or_false] at hx
    rcases hx with rfl | rfl
    · exact .poolPush s
    · exact .pushReWaiting s
  | reWaiting =>
    simp only [Server.exec] at hx
    split at hx
    · contradiction
    · cases List.mem_singleton.mp hx
      exact .reTest
  | reTest =>
    simp only [Server.exec] at hx
    split at hx
    · contradiction
    · cases List.mem_singleton.mp hx
      exact .rePop
  | reTake s =>
    simp only [Server.exec] at hx
    split at hx
    · contradiction
    · rename_i hqueue
      cases List.mem_singleton.mp hx
      exact .reAccept s hqueue
  | acceptExecute a =>
    simp only [Server.exec] at hx
    split at hx
    · contradiction
    · rename_i s haccepting
      split at hx <;> cases List.mem_singleton.mp hx
      · exact .acceptInsert haccepting
      · exact .executeError a
  | error a =>
    simp only [Server.exec] at hx
    split at hx <;> cases List.mem_singleton.mp hx <;> exact .errorClear a
  | errorAccept a =>
    simp only [Server.exec] at hx
    split at hx
    · contradiction
    · cases List.mem_singleton.mp hx
      exact .errorAgain a
  | pushJobByRooms job index =>
    simp only [Server.exec] at hx
    split at hx <;> rename_i hrange <;> cases List.mem_singleton.mp hx
    · exact .outOfRange hrange
    · exact .pushJob (Bool.not_eq_true _ ▸ hrange)
  | insertWait a =>
    cases List.mem_singleton.mp hx
    exact .waitReWaiting a
  | makeSocket a s =>
    cases List.mem_singleton.mp hx
    exact .acceptEx a s
  | errorClear a =>
    cases List.mem_singleton.mp hx
    exact .errorAccept a
  | acceptInsert a s =>
    cases List.mem_singleton.mp hx
    exact .acceptRecvStart a s
  | acceptRecvStart a s =>
    cases List.mem_singleton.mp hx
    exact .acceptClear a s
  | acceptClear a =>
    cases List.mem_singleton.mp hx
    exact .acceptAgain a
  | pushLeave s =>
    cases List.mem_singleton.mp hx
    exact .leaveJob s
  | closesocket s =>
    cases List.mem_singleton.mp hx
    exact .eraseUserSession s
  | startJob i =>
    cases List.mem_singleton.mp hx
    exact .dispatch i
  | _ => contradiction

/-- The entries of a thread that a completion or the shutdown starts. -/
inductive Spawned (st : Server) : Instr → Prop where
  | handler {op : Posted} (h : op ∈ st.posted) (completion : Completion) :
      Spawned st (op.handler completion)
  | listenShutdown : Spawned st .listenShutdown
  | clearWaitQueue : Spawned st .clearWaitQueue
  | roomsJoin : Spawned st .roomsJoin
  | stopRoom (i : Nat) : Spawned st (.stopRoom i)
  | snapshot : Spawned st .snapshot

theorem shutdown_spawned {st : Server} {x : Instr}
    (hx : x ∈ .listenShutdown :: .clearWaitQueue :: .roomsJoin ::
      ((List.range st.roomCount).map Instr.stopRoom ++ [.snapshot])) : Spawned st x := by
  simp only [List.mem_cons, List.mem_append, List.mem_map, List.not_mem_nil, or_false] at hx
  rcases hx with rfl | rfl | rfl | ⟨i, _, rfl⟩ | rfl
  · exact .listenShutdown
  · exact .clearWaitQueue
  · exact .roomsJoin
  · exact .stopRoom i
  · exact .snapshot

inductive Steps (st : Server) : ServerAct → Server → Prop where
  | advance {t : Nat} {instr : Instr} {rest : List Instr} (c : Choice)
      (h : st.threads[t]? = some (instr :: rest)) :
      Steps st (.advance t c) (st.advance t c instr rest)
  | spawn (act : ServerAct) {posted : List Posted} {thread : List Instr}
      (hposted : ∀ op ∈ posted, op ∈ st.posted) (hthread : ∀ x ∈ thread, Spawned st x) :
      Steps st act { st with posted := posted, threads := st.threads ++ [thread] }

theorem steps_of_step {act : ServerAct} {st' : Server} (h : serverStep st act = some st') :
    Steps st act st' := by
  cases act with
  | advance t c =>
    simp only [serverStep] at h
    split at h
    · rename_i instr rest hthread
      cases h
      exact .advance c hthread
    · contradiction
  | complete k completion =>
    obtain ⟨op, hop, rfl⟩ := Option.map_eq_some_iff.mp h
    apply Steps.spawn
    · intro op' hop'
      exact List.mem_of_mem_eraseIdx hop'
    · intro x hx
      cases List.mem_singleton.mp hx
      exact .handler (List.mem_of_getElem? hop) completion
  | shutdown =>
    cases h
    exact .spawn _ (fun _ => id) fun _ => shutdown_spawned

end
end RoomServer
