import RoomServer.AcceptWaits
import RoomServer.Library.Descent

/-! What the threads still do once the listener takes nothing and no room is left: an
entry makes place only for entries closer to the end, so that they all come to it. -/
namespace RoomServer
open Library Library.Threads Library.Descent

def SendPc.rank : SendPc γ → Nat
  | .releaseFlag | .failed => 2
  | .refused => 3
  | .post => 4
  | .testEmpty => 5
  | .drain => 6
  | .send => 7
  | .checkSendComplete | .insertSendQueue _ => 8
  | .execute => 9

/-- How far an entry is from the end of what it sets going. The return of a session stands
below everything that can let one go. -/
def Instr.rank : Instr → Nat
  | .poolPush _ | .reWaiting => 0
  | .pushSession _ => 1
  | .drop _ | .insertWait _ | .acceptEx _ _ | .errorAccept _ | .releaseSession _ | .pushJob _ _ => 2
  | .eraseUserSession _ | .listenShutdown | .clearWaitQueue | .roomsJoin | .stopRoom _ => 2
  | .makeSocket _ _ | .errorClear _ | .closesocket _ => 3
  | .acceptPop _ | .error _ | .pushJobByRooms _ _ | .snapshot => 4
  | .accept _ _ _ | .pushLeave _ => 5
  | .reTake _ | .acceptClear _ | .recvStart _ _ => 6
  | .rePop | .acceptRecvStart _ _ => 7
  | .reTest | .acceptInsert _ _ => 8
  | .acceptExecute _ | .effect _ => 9
  | .sendExecute _ _ => 10
  | .recv _ requests => 10 + requests.length
  | .recvExecute _ (.data requests) => 11 + requests.length
  | .recvExecute _ _ => 11
  | .sending _ pc => pc.rank
  -- only a room's thread comes here
  | .startJob _ | .dispatch _ _ _ | .store _ _ | .tick _ _ => 0

structure Server.Settling (st : Server) : Prop where
  listenStop : st.listenStop = true
  noRoom : ∀ x, Entry st.threads x → x.room? = none

section
variable {c : Choice} {st : Server} {instr x : Instr} {s t : Nat} {rest : List Instr}

theorem next_rank {pc pc' : SendPc γ} {session : SendState γ} {accepted : Bool}
    (h : pc' ∈ (pc.next session accepted).2) : pc'.rank < pc.rank := by
  cases pc <;> simp only [SendPc.next] at h
  case insertSendQueue | testEmpty | post | checkSendComplete =>
    split at h <;> simp only [List.mem_singleton, List.not_mem_nil] at h
    rw [h]
    simp [SendPc.rank]
  case releaseFlag | failed => exact absurd h List.not_mem_nil
  all_goals
    rw [List.mem_singleton.mp h]
    simp [SendPc.rank]

theorem recv_rank {requests : List Request} (h : x ∈ st.recv s requests) :
    x.rank < 10 + requests.length := by
  cases requests with
  | nil =>
    rw [List.mem_singleton.mp h]
    simp [Instr.rank]
  | cons request requests =>
    rw [Server.recv] at h
    split at h
    · simp only [List.mem_cons, List.not_mem_nil, or_false] at h
      rcases h with rfl | rfl <;> simp only [Instr.rank] <;> omega
    · split at h
      · split at h <;> simp only [List.mem_cons, List.not_mem_nil, or_false] at h
        · rcases h with rfl | rfl <;> simp only [Instr.rank, List.length_cons] <;> omega
        · subst h
          simp only [Instr.rank, List.length_cons]
          omega
      · simp only [List.mem_cons, List.not_mem_nil, or_false] at h
        rcases h with rfl | rfl <;> simp only [Instr.rank, List.length_cons] <;> omega

/-- Since the listener re-arms nothing, what comes next is closer to its end. -/
theorem exec_rank (hstop : st.listenStop = true) (hroom : instr.room? = none)
    (hx : x ∈ (st.exec c instr).2) : x.rank < instr.rank := by
  have hmem {xs : List Instr} {r : Nat} (hall : ∀ y ∈ xs, y.rank < r) (hx : x ∈ xs) :
      x.rank < r := hall x hx
  cases instr with
  | recv s requests => exact recv_rank hx
  | sending s pc =>
    obtain ⟨pc', hpc', rfl⟩ := List.mem_map.mp hx
    exact next_rank hpc'
  | snapshot =>
    rcases List.mem_append.mp hx with hx | hx <;>
      obtain ⟨s, _, rfl⟩ := List.mem_map.mp hx <;> simp [Instr.rank]
  | recvExecute s completion =>
    simp only [Server.exec] at hx
    split at hx
    · exact absurd hx List.not_mem_nil
    · cases completion <;> simp only [List.mem_cons, List.not_mem_nil, or_false] at hx
      · rcases hx with rfl | rfl <;> simp [Instr.rank]
      · rcases hx with rfl | rfl | rfl <;> simp [Instr.rank]
      · rcases hx with rfl | rfl <;> simp only [Instr.rank] <;> omega
  | effect e =>
    cases e with
    | insertSendQueue s packet =>
      rw [List.mem_singleton.mp hx]
      simp [Instr.rank, SendPc.rank]
    | closeSession s =>
      rw [List.mem_singleton.mp hx]
      simp [Instr.rank]
    | _ => exact absurd hx List.not_mem_nil
  | startJob | dispatch | store | tick => contradiction
  | _ =>
    revert hx
    apply hmem
    simp only [Server.exec, hstop, if_true]
    (repeat' split) <;> simp [Instr.rank, SendPc.rank]

theorem stop_stays (h : st.listenStop = true) : (st.exec c instr).1.listenStop = true := by
  cases hshuts : instr.shuts with
  | false => exact (exec_listenStop c st hshuts).trans h
  | true =>
    cases instr with
    | listenShutdown => rfl
    | clearWaitQueue => exact h
    | _ => contradiction

/-- A session on its way back is not held, and its return lets no other one go. -/
theorem released_low (hlow : instr.rank < 2) (hroom : instr.room? = none)
    (h : st.threads[t]? = some (instr :: rest)) (hx : x ∈ Server.released st
      { (st.exec c instr).1 with threads := st.threads.set t ((st.exec c instr).2 ++ rest) }) :
    False := by
  obtain ⟨s, hs, rfl⟩ := List.mem_map.mp hx
  obtain ⟨_, hs⟩ := List.mem_filter.mp hs
  simp only [Bool.and_eq_true, decide_eq_true_eq, beq_iff_eq] at hs
  have hset (next : List Instr) := weigh_set (Instr.refs s) next h
  have hsame : ({ (st.exec c instr).1 with
      threads := st.threads.set t ((st.exec c instr).2 ++ rest) } : Server).useCount s =
        st.useCount s := by
    cases instr with
    | pushSession s' =>
      have hweigh := hset [.poolPush s', .reWaiting]
      simp only [Instr.refs, total_cons, total_nil, Nat.add_zero] at hweigh
      by_cases hs' : s = s'
      · subst hs'
        simp [Server.useCount, Server.exec, Server.setSession, Session.reset]
        exact hweigh
      · simp [Server.useCount, Server.exec, Server.setSession, hs']
        exact hweigh
    | poolPush s' =>
      have hweigh := hset []
      simp only [Instr.refs, total_nil, Nat.add_zero] at hweigh
      by_cases hs' : s = s'
      · subst hs'
        simp only [Server.useCount, Server.exec, Server.setSession, Function.update_self]
        rw [hweigh]
        split <;> rfl
      · simp only [Server.useCount, Server.exec, Server.setSession, Function.update_of_ne hs']
        rw [hweigh]
    | reWaiting =>
      have hweigh := hset (st.exec c .reWaiting).2
      have hzero : total (Instr.refs s) (st.exec c .reWaiting).2 = 0 := by
        simp only [Server.exec]
        split <;> rfl
      simp only [Instr.refs, hzero, Nat.add_zero] at hweigh
      simp only [Server.useCount]
      rw [hweigh]
      rfl
    | sending s' pc => cases pc <;> simp [Instr.rank, SendPc.rank] at hlow
    | recv s' requests => simp only [Instr.rank] at hlow; omega
    | recvExecute s' completion =>
      cases completion <;> simp only [Instr.rank] at hlow <;> omega
    | startJob | dispatch | store | tick => contradiction
    | _ => simp [Instr.rank] at hlow
  have hzero : st.useCount s = 0 := hsame.symm.trans hs.2
  omega

/-- What a thread does lowers the ranks of all that is left to do. -/
theorem advance_lower (hsettling : st.Settling) (h : st.threads[t]? = some (instr :: rest)) :
    (ranks Instr.rank (st.advance t c instr rest).threads).IsDershowitzMannaLT
      (ranks Instr.rank st.threads) := by
  have hroom := hsettling.noRoom instr (entry_head h)
  unfold Server.advance
  dsimp only
  rw [← List.append_assoc]
  apply ranks_lower h
  intro y hy
  rcases List.mem_append.mp hy with hy | hy
  · by_cases hlow : instr.rank < 2
    · exact (released_low hlow hroom h hy).elim
    · obtain ⟨s, _, rfl⟩ := List.mem_map.mp hy
      exact Nat.lt_of_not_le fun hle => hlow (Nat.lt_succ_of_le hle)
  · exact exec_rank hsettling.listenStop hroom hy

end
end RoomServer
