import RoomServer.Server

/-! What one entry does to each field of the server. Whatever is proved about
steps rests on these lemmas; `exec` itself is taken apart here and, for what the
entries hand on, in the ledgers. -/
namespace RoomServer
open Library

def Server.Pops (st : Server) (s : Nat) : Instr → Prop
  | .rePop | .acceptPop _ => st.popSession.2 = some s
  | _ => False

inductive SessionStep (c : Choice) (st : Server) (s : Nat) : Instr → Session → Prop where
  | same (instr : Instr) : SessionStep c st s instr (st.sessions s)
  | pushSession : SessionStep c st s (.pushSession s) (st.sessions s).reset
  | poolPush : SessionStep c st s (.poolPush s) (st.sessions s).reset
  | makeSocket (a socket : Nat) :
      SessionStep c st s (.makeSocket a s) { st.sessions s with socket := socket }
  | recvStart (caller : Caller) :
      SessionStep c st s (.recvStart s caller)
        { st.sessions s with recvSession := st.accepted c s }
  | acceptRecvStart (a : Nat) :
      SessionStep c st s (.acceptRecvStart a s)
        { st.sessions s with recvSession := st.accepted c s }
  | recvFailed :
      SessionStep c st s (.recvExecute s .failed) { st.sessions s with recvSession := false }
  | releaseSession :
      SessionStep c st s (.releaseSession s) { st.sessions s with recvSession := false }
  | sending (pc : SendPc Chunk) :
      SessionStep c st s (.sending s pc)
        { st.sessions s with
          send := (pc.next (st.sessions s).send (st.accepted c s)).1
          sendSession := pc.keeps (st.sessions s).sendSession }
  | effect (e : Effect) (connected : Bool) (roomID : Int) (h : e.session = s) :
      SessionStep c st s (.effect e)
        { st.sessions s with connected := connected, roomID := roomID }

def Server.Closes (st : Server) (s : Nat) : Instr → Prop
  | .closesocket s' => s' = s
  | .error a => st.accepting a = some s
  | _ => False

inductive NumberStep (c : Choice) (st : Server) :
    Instr → (Nat → Option Nat) → (Nat → Bool) → Prop where
  | same (instr : Instr) : NumberStep c st instr st.sockets st.closed
  | popped {instr : Instr} {s : Nat} (h : st.Pops s instr) :
      NumberStep c st instr st.sockets (Function.update st.closed s false)
  | made (a s : Nat) (hvalid : c.socket < INVALID_SOCKET) (hfree : st.sockets c.socket = none) :
      NumberStep c st (.makeSocket a s) (Function.update st.sockets c.socket (some s)) st.closed
  | closes {instr : Instr} {s : Nat} (h : st.Closes s instr) :
      NumberStep c st instr (Function.update st.sockets (st.sessions s).socket none)
        (Function.update st.closed s true)

section
variable {c : Choice} {st : Server} {instr : Instr} {a i s : Nat}

theorem setSession_cases {P : Session → Prop} (s' : Nat) (session : Session)
    (hsame : P (st.sessions s)) (hset : s' = s → P session) :
    P ((st.setSession s' session).sessions s) := by
  simp only [Server.setSession, Function.update_apply]
  split
  case isTrue h => exact hset h.symm
  case isFalse => exact hsame

theorem popSession_cases (st : Server) : st.popSession = (st, none) ∨
    ∃ s pool, st.popSession =
        ({ st with
          pool := pool
          phase := Function.update st.phase s .fresh
          closed := Function.update st.closed s false }, some s) ∧
      st.pool.pools = s :: pool.pools ∧ pool.maxSize = st.pool.maxSize := by
  unfold Server.popSession
  rcases hpop : st.pool.pop with ⟨pool, popped⟩
  cases popped with
  | none =>
    left
    rw [ObjectPool.pop_none hpop]
  | some s =>
    right
    exact ⟨s, pool, rfl, ObjectPool.pop_some hpop⟩

theorem popSession_sessions : st.popSession.1.sessions = st.sessions := by
  rcases popSession_cases st with hpop | ⟨s, pool, hpop, _⟩ <;> rw [hpop]

theorem exec_session (c : Choice) (st : Server) (instr : Instr) (s : Nat) :
    SessionStep c st s instr ((st.exec c instr).1.sessions s) := by
  have hsame : SessionStep c st s instr (st.sessions s) := .same instr
  cases instr with
  | pushSession s' =>
    apply setSession_cases (P := SessionStep c st s _) s' _ hsame
    rintro rfl
    exact .pushSession
  | poolPush s' =>
    apply setSession_cases (P := SessionStep c st s _) s' _ hsame
    rintro rfl
    split
    · exact .poolPush
    · exact hsame
  | makeSocket a s' =>
    apply setSession_cases (P := SessionStep c st s _) s' _ hsame
    rintro rfl
    exact .makeSocket a _
  | recvStart s' caller =>
    apply setSession_cases (P := SessionStep c st s _) s' _ hsame
    rintro rfl
    exact .recvStart caller
  | acceptRecvStart a s' =>
    apply setSession_cases (P := SessionStep c st s _) s' _ hsame
    rintro rfl
    exact .acceptRecvStart a
  | recvExecute s' completion =>
    simp only [Server.exec]
    split
    · exact hsame
    · cases completion with
      | failed =>
        apply setSession_cases (P := SessionStep c st s _) s' _ hsame
        rintro rfl
        exact .recvFailed
      | zero => exact hsame
      | data requests => exact hsame
  | releaseSession s' =>
    apply setSession_cases (P := SessionStep c st s _) s' _ hsame
    rintro rfl
    exact .releaseSession
  | sending s' pc =>
    apply setSession_cases (P := SessionStep c st s _) s' _ hsame
    rintro rfl
    exact .sending pc
  | effect e =>
    cases e with
    | insertSendQueue => exact hsame
    | closeSession => exact hsame
    | _ =>
      apply setSession_cases (P := SessionStep c st s _) _ _ hsame
      rintro rfl
      exact .effect _ _ _ rfl
  | _ =>
    simp only [Server.exec]
    repeat' split
    all_goals first
      | exact hsame
      | (simp only [Server.setAccept, popSession_sessions]; exact hsame)

inductive PhaseStep (st : Server) (s : Nat) : Instr → Phase → Prop where
  | same (instr : Instr) : PhaseStep st s instr (st.phase s)
  | pushSession : PhaseStep st s (.pushSession s) .pooled
  | popped {instr : Instr} (h : st.Pops s instr) : PhaseStep st s instr .fresh
  | error {a : Nat} (h : st.accepting a = some s) : PhaseStep st s (.error a) .pooled
  | acceptInsert (a : Nat) : PhaseStep st s (.acceptInsert a s) .registered

theorem setPhase_cases {P : Phase → Prop} (s' : Nat) (phase : Phase) (hsame : P (st.phase s))
    (hset : s' = s → P phase) : P (Function.update st.phase s' phase s) := by
  rw [Function.update_apply]
  split
  case isTrue h => exact hset h.symm
  case isFalse => exact hsame

theorem exec_phase (c : Choice) (st : Server) (instr : Instr) (s : Nat) :
    PhaseStep st s instr ((st.exec c instr).1.phase s) := by
  have hsame : PhaseStep st s instr (st.phase s) := .same instr
  cases instr with
  | pushSession s' =>
    apply setPhase_cases s' _ hsame
    rintro rfl
    exact .pushSession
  | rePop | acceptPop a =>
    rcases popSession_cases st with hpop | ⟨s', pool, hpop, _⟩
    · simp only [Server.exec, hpop]
      exact hsame
    · simp only [Server.exec, hpop]
      apply setPhase_cases s' _ hsame
      rintro rfl
      exact .popped (by rw [Server.Pops, hpop])
  | error a =>
    simp only [Server.exec]
    split
    · exact hsame
    · rename_i s' haccepting
      apply setPhase_cases s' _ hsame
      rintro rfl
      exact .error haccepting
  | acceptInsert a s' =>
    apply setPhase_cases s' _ hsame
    rintro rfl
    exact .acceptInsert a
  | effect e => cases e <;> exact hsame
  | _ =>
    simp only [Server.exec]
    repeat' split
    all_goals exact hsame

inductive Posts (c : Choice) (st : Server) : Instr → Posted → Prop where
  | acceptEx (a s : Nat) : Posts c st (.acceptEx a s) (.accept a s)
  | recvStart {s : Nat} (caller : Caller) (h : st.accepted c s = true) :
      Posts c st (.recvStart s caller) (.recv s)
  | acceptRecvStart (a : Nat) {s : Nat} (h : st.accepted c s = true) :
      Posts c st (.acceptRecvStart a s) (.recv s)
  | send {s : Nat} (h : st.accepted c s = true) : Posts c st (.sending s .post) (.send s)

theorem mem_accepted {P : α → Prop} {x new : α} {xs : List α} {accepted : Bool}
    (h : x ∈ if accepted = true then xs ++ [new] else xs)
    (hnew : accepted = true → P new) : x ∈ xs ∨ P x := by
  split at h
  case isTrue haccepted =>
    rcases List.mem_append.mp h with h | h
    · exact .inl h
    · cases List.mem_singleton.mp h
      exact .inr (hnew haccepted)
  case isFalse => exact .inl h

theorem exec_posted {op : Posted} (h : op ∈ (st.exec c instr).1.posted) :
    op ∈ st.posted ∨ Posts c st instr op := by
  cases instr with
  | acceptEx a s => exact mem_accepted (P := Posts c st _) h fun _ => .acceptEx a s
  | recvStart s caller => exact mem_accepted (P := Posts c st _) h fun h => .recvStart caller h
  | acceptRecvStart a s => exact mem_accepted (P := Posts c st _) h fun h => .acceptRecvStart a h
  | sending s pc =>
    cases pc with
    | post => exact mem_accepted (P := Posts c st _) h fun h => .send h
    | _ => exact .inl h
  | rePop | acceptPop a =>
    rcases popSession_cases st with hpop | ⟨s', pool, hpop, _⟩ <;>
      simp only [Server.exec, hpop] at h <;> exact .inl h
  | effect e => cases e <;> exact .inl h
  | _ =>
    simp only [Server.exec] at h
    (repeat' split at h) <;> exact .inl h

theorem exec_userSession {n : Nat} (h : (st.exec c instr).1.userSession.find n = some s) :
    st.userSession.find n = some s ∨
      ∃ a, instr = .acceptInsert a s ∧ n = (st.sessions s).socket ∧ st.userSession.find n = none := by
  cases instr with
  | acceptInsert a s' =>
    simp only [Server.exec] at h
    cases hinsert : (st.userSession.insert (st.sessions s').socket s').2 with
    | false =>
      rw [OrderedMap.insert_present hinsert] at h
      exact .inl h
    | true =>
      rw [OrderedMap.find_insert hinsert] at h
      split at h
      case isTrue hn =>
        cases h
        exact .inr ⟨a, rfl, hn, by rw [hn]; exact OrderedMap.find_of_insert hinsert⟩
      case isFalse => exact .inl h
  | eraseUserSession s' =>
    simp only [Server.exec, OrderedMap.find_erase] at h
    split at h
    · contradiction
    · exact .inl h
  | rePop | acceptPop a =>
    rcases popSession_cases st with hpop | ⟨s', pool, hpop, _⟩ <;>
      simp only [Server.exec, hpop] at h <;> exact .inl h
  | effect e => cases e <;> exact .inl h
  | _ =>
    simp only [Server.exec] at h
    (repeat' split at h) <;> exact .inl h

theorem exec_rooms (hstore : ∀ room, instr ≠ .store i room) :
    (st.exec c instr).1.rooms i = st.rooms i := by
  cases instr with
  | store i' room =>
    have hi : i ≠ i' := fun h => hstore room (h ▸ rfl)
    exact Function.update_of_ne hi _ _
  | rePop | acceptPop a =>
    rcases popSession_cases st with hpop | ⟨s', pool, hpop, _⟩ <;>
      simp only [Server.exec, hpop] <;> rfl
  | effect e => cases e <;> rfl
  | _ =>
    simp only [Server.exec] <;> (repeat' split) <;> rfl

theorem exec_jobs {job : Job} (h : job ∈ ((st.exec c instr).1.jobQueues i).jobs) :
    job ∈ (st.jobQueues i).jobs ∨ instr = .pushJob job i := by
  cases instr with
  | pushJob job' i' =>
    simp only [Server.exec, Function.update_apply] at h
    split at h
    case isTrue hi =>
      subst hi
      rcases List.mem_append.mp h with h | h
      · exact .inl h
      · cases List.mem_singleton.mp h
        exact .inr rfl
    case isFalse => exact .inl h
  | startJob i' =>
    simp only [Server.exec, Function.update_apply] at h
    split at h
    · contradiction
    · exact .inl h
  | stopRoom i' =>
    simp only [Server.exec, Function.update_apply] at h
    split at h
    case isTrue hi => exact .inl (hi ▸ h)
    case isFalse => exact .inl h
  | rePop | acceptPop a =>
    rcases popSession_cases st with hpop | ⟨s', pool, hpop, _⟩ <;>
      simp only [Server.exec, hpop] at h <;> exact .inl h
  | effect e => cases e <;> exact .inl h
  | _ =>
    simp only [Server.exec] at h
    (repeat' split at h) <;> exact .inl h

theorem exec_connection (c : Choice) (st : Server) (h : instr ≠ .pushSession s) :
    (st.exec c instr).1.connection s = st.connection s := by
  cases instr with
  | pushSession s' =>
    have hs : s ≠ s' := fun hs => h (hs ▸ rfl)
    exact Function.update_of_ne hs _ _
  | rePop | acceptPop a =>
    rcases popSession_cases st with hpop | ⟨s', pool, hpop, _⟩ <;>
      simp only [Server.exec, hpop] <;> rfl
  | effect e => cases e <;> rfl
  | _ =>
    simp only [Server.exec] <;> (repeat' split) <;> rfl

inductive Logs (c : Choice) (st : Server) : Instr → Call → Prop where
  | recvStart {s : Nat} (caller : Caller) (h : st.accepted c s = true) :
      Logs c st (.recvStart s caller) (.wsaRecv s (st.sockets (st.sessions s).socket))
  | acceptRecvStart (a : Nat) {s : Nat} (h : st.accepted c s = true) :
      Logs c st (.acceptRecvStart a s) (.wsaRecv s (st.sockets (st.sessions s).socket))
  | send {s : Nat} (h : st.accepted c s = true) :
      Logs c st (.sending s .post) (.wsaSend s (st.sockets (st.sessions s).socket)
        (st.connection s) (st.sessions s).send.sendChunks)
  | closesocket (s : Nat) :
      Logs c st (.closesocket s) (.closesocket s (st.sockets (st.sessions s).socket))
  | erase (s : Nat) :
      Logs c st (.eraseUserSession s) (.erase s (st.userSession.find (st.sessions s).socket))

theorem exec_log {call : Call} (h : call ∈ (st.exec c instr).1.log) :
    call ∈ st.log ∨ Logs c st instr call := by
  cases instr with
  | recvStart s caller => exact mem_accepted (P := Logs c st _) h fun h => .recvStart caller h
  | acceptRecvStart a s => exact mem_accepted (P := Logs c st _) h fun h => .acceptRecvStart a h
  | sending s pc =>
    cases pc with
    | post => exact mem_accepted (P := Logs c st _) h fun h => .send h
    | _ => exact .inl h
  | closesocket s =>
    rcases List.mem_append.mp h with h | h
    · exact .inl h
    · cases List.mem_singleton.mp h
      exact .inr (.closesocket s)
  | eraseUserSession s =>
    rcases List.mem_append.mp h with h | h
    · exact .inl h
    · cases List.mem_singleton.mp h
      exact .inr (.erase s)
  | rePop | acceptPop a =>
    rcases popSession_cases st with hpop | ⟨s', pool, hpop, _⟩ <;>
      simp only [Server.exec, hpop] at h <;> exact .inl h
  | effect e => cases e <;> exact .inl h
  | _ =>
    simp only [Server.exec] at h
    (repeat' split at h) <;> exact .inl h

theorem exec_sizes : (st.exec c instr).1.roomCount = st.roomCount ∧
    (st.exec c instr).1.acceptObjects.length = st.acceptObjects.length ∧
    (st.exec c instr).1.threads = st.threads := by
  cases instr with
  | clearWaitQueue =>
    refine ⟨rfl, ?_, rfl⟩
    simp only [Server.exec]
    generalize st.acceptObjects = objects
    induction st.waitQueue generalizing objects with
    | nil => rfl
    | cons a queue ih => rw [List.foldl_cons, ih, List.length_set]
  | rePop | acceptPop a =>
    rcases popSession_cases st with hpop | ⟨s', pool, hpop, _⟩ <;>
      simp [Server.exec, hpop, Server.setAccept]
  | effect e => cases e <;> exact ⟨rfl, rfl, rfl⟩
  | _ =>
    simp only [Server.exec]
    (repeat' split) <;> simp [Server.setAccept, Server.setSession, Server.recvStart, Server.sending]

theorem exec_send (hpush : instr ≠ .pushSession s) (hpool : instr ≠ .poolPush s)
    (hsending : ∀ pc, instr ≠ .sending s pc) :
    ((st.exec c instr).1.sessions s).send = (st.sessions s).send := by
  have hstep := exec_session c st instr s
  generalize (st.exec c instr).1.sessions s = session at hstep
  cases hstep with
  | pushSession => contradiction
  | poolPush => contradiction
  | sending pc => exact absurd rfl (hsending pc)
  | _ => rfl

theorem exec_queue (c : Choice) (st : Server) (hsending : ∀ pc, instr ≠ .sending s pc) :
    ((st.exec c instr).1.sessions s).send.sendQueue = (st.sessions s).send.sendQueue ∧
      ((st.exec c instr).1.sessions s).send.sendChunks = (st.sessions s).send.sendChunks := by
  have hstep := exec_session c st instr s
  generalize (st.exec c instr).1.sessions s = session at hstep
  cases hstep with
  | sending pc => exact absurd rfl (hsending pc)
  | _ => exact ⟨rfl, rfl⟩

theorem exec_numbers (c : Choice) (st : Server) (instr : Instr) :
    NumberStep c st instr (st.exec c instr).1.sockets (st.exec c instr).1.closed := by
  cases instr with
  | makeSocket a s =>
    simp only [Server.exec]
    split
    · rename_i hmade
      simp only [Bool.and_eq_true, decide_eq_true_eq, Option.isNone_iff_eq_none] at hmade
      exact .made a s hmade.1 hmade.2
    · exact .same _
  | closesocket s => exact .closes (s := s) rfl
  | error a =>
    simp only [Server.exec]
    split
    · exact .same _
    · rename_i s haccepting
      exact .closes (s := s) haccepting
  | rePop | acceptPop a =>
    rcases popSession_cases st with hpop | ⟨s, pool, hpop, _⟩ <;> simp only [Server.exec, hpop]
    · exact .same _
    · exact .popped (by rw [Server.Pops, hpop])
  | effect e => cases e <;> exact .same _
  | _ =>
    simp only [Server.exec]
    (repeat' split) <;> exact .same _

theorem exec_socket (c : Choice) (st : Server) (h : ∀ a, instr ≠ .makeSocket a s) :
    ((st.exec c instr).1.sessions s).socket = (st.sessions s).socket ∨
      (instr = .pushSession s ∨ instr = .poolPush s) ∧
        ((st.exec c instr).1.sessions s).socket = INVALID_SOCKET := by
  have hstep := exec_session c st instr s
  generalize (st.exec c instr).1.sessions s = session at hstep
  cases hstep with
  | makeSocket a => exact absurd rfl (h a)
  | pushSession => exact .inr ⟨.inl rfl, rfl⟩
  | poolPush => exact .inr ⟨.inr rfl, rfl⟩
  | _ => exact .inl rfl

theorem exec_maxSize (c : Choice) (st : Server) (instr : Instr) :
    (st.exec c instr).1.pool.maxSize = st.pool.maxSize := by
  cases instr with
  | poolPush s => simp [Server.exec]
  | rePop =>
    rcases popSession_cases st with hpop | ⟨s, pool, hpop, _, hsize⟩ <;>
      simp only [Server.exec, hpop]
    exact hsize
  | acceptPop a =>
    rcases popSession_cases st with hpop | ⟨s, pool, hpop, _, hsize⟩ <;>
      simp only [Server.exec, hpop]
    · rfl
    · exact hsize
  | effect e => cases e <;> rfl
  | _ =>
    simp only [Server.exec] <;> (repeat' split) <;> rfl

/-- An object comes into the pool by `Push` only, inside the storage and after a `Reset`. -/
theorem exec_pool (h : s ∈ (st.exec c instr).1.pool.pools) :
    s ∈ st.pool.pools ∨ instr = .poolPush s ∧ s < st.pool.maxSize ∧
      ((st.exec c instr).1.sessions s).socket = INVALID_SOCKET := by
  cases instr with
  | poolPush s' =>
    rcases st.pool.push_pools s' with ⟨hpools, hpushed, hlt⟩ | ⟨hpool, hpushed⟩
    · simp only [Server.exec, hpools] at h
      rcases List.mem_cons.mp h with rfl | h
      · refine .inr ⟨rfl, hlt, ?_⟩
        simp [Server.exec, hpushed, Server.setSession, Session.reset]
      · exact .inl h
    · simp only [Server.exec, hpool] at h
      exact .inl h
  | rePop | acceptPop a =>
    rcases popSession_cases st with hpop | ⟨s', pool, hpop, hpools, _⟩ <;>
      simp only [Server.exec, hpop] at h
    · exact .inl h
    · rw [hpools]
      exact .inl (List.mem_cons_of_mem _ h)
  | effect e => cases e <;> exact .inl h
  | _ =>
    simp only [Server.exec] at h
    (repeat' split at h) <;> exact .inl h

end
end RoomServer
