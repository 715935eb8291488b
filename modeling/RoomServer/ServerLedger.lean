import RoomServer.Library.Threads
import RoomServer.ServerNext

/-! Five things that are handed from entry to entry and never doubled: an
AcceptObject, the duty to post the next receive of a session, the token of its
send side, a session on its way into an AcceptObject, and one on its way back
to the pool. Each has its weight, and one entry never adds to the sum. -/
namespace RoomServer
open Library Library.Threads

/-- Who has to hand an AcceptObject on. -/
def Instr.slot (a : Nat) : Instr → Nat
  | .accept a' _ _ | .acceptPop a' | .insertWait a' | .makeSocket a' _ | .acceptEx a' _ | .error a'
  | .errorClear a' | .errorAccept a' | .acceptExecute a' | .acceptInsert a' _
  | .acceptRecvStart a' _ | .acceptClear a' => if a' = a then 1 else 0
  | _ => 0

/-- Who has to post the next receive of a session, or take `m_Recv.m_Session` back. -/
def Instr.receive (s : Nat) : Instr → Nat
  | .recvExecute s' _ | .recv s' _ | .recvStart s' _ | .releaseSession s'
  | .acceptRecvStart _ s' => if s' = s then 1 else 0
  | _ => 0

/-- Who has the token of the send side. -/
def Instr.token (s : Nat) : Instr → Nat
  | .sendExecute s' _ => if s' = s then 1 else 0
  | .sending s' pc => if s' = s then pc.token else 0
  | _ => 0

/-- Who has popped a session for an AcceptObject it has not chosen yet. -/
def Instr.given (s : Nat) : Instr → Nat
  | .reTake s' => if s' = s then 1 else 0
  | _ => 0

/-- Who has to return a session to the pool. -/
def Instr.returning (s : Nat) : Instr → Nat
  | .pushSession s' | .poolPush s' => if s' = s then 1 else 0
  | _ => 0

def Posted.slot (a : Nat) : Posted → Nat
  | .accept a' _ => if a' = a then 1 else 0
  | _ => 0

def Posted.receive (s : Nat) : Posted → Nat
  | .recv s' => if s' = s then 1 else 0
  | _ => 0

def Posted.token (s : Nat) : Posted → Nat
  | .send s' => if s' = s then 1 else 0
  | _ => 0

section
variable {c : Choice} {st : Server} {instr : Instr} {a i s : Nat}

theorem total_next_zero (weight : Instr → Nat) (c : Choice) (st : Server) (instr : Instr)
    (h : ∀ x, Next c st instr x → weight x = 0) : total weight (st.exec c instr).2 = 0 :=
  total_of_forall weight fun x hx => h x (exec_next hx)

theorem total_recv (st : Server) (s s' : Nat) (requests : List Request) :
    total (Instr.receive s) (st.recv s' requests) = (Instr.recv s' requests).receive s := by
  cases requests with
  | nil => simp [Server.recv, Instr.receive]
  | cons request requests =>
    rw [Server.recv]
    repeat' split
    all_goals simp [Instr.receive]

/-! ### AcceptObjects -/

theorem accepting_set_ne {a a' : Nat} {session : Option Nat} (h : a' ≠ a) :
    (st.setAccept a' session).accepting a = st.accepting a := by
  simp [Server.accepting, Server.setAccept, List.getElem?_set_ne h]

theorem accepting_clear {queue : List Nat} (objects : List (Option Nat)) (h : a ∉ queue) :
    (queue.foldl (fun objects a => objects.set a none) objects).getD a none =
      objects.getD a none := by
  induction queue generalizing objects with
  | nil => rfl
  | cons a' queue ih =>
    rw [List.mem_cons, not_or] at h
    rw [List.foldl_cons, ih _ h.2]
    simp [List.getElem?_set_ne (Ne.symm h.1)]

theorem exec_accepting_other (hslot : instr.slot a = 0) (hclear : instr ≠ .clearWaitQueue)
    (htake : ∀ s, instr ≠ .reTake s) : (st.exec c instr).1.accepting a = st.accepting a := by
  cases instr with
  | clearWaitQueue => exact absurd rfl hclear
  | reTake s => exact absurd rfl (htake s)
  | rePop =>
    rcases popSession_cases st with hpop | ⟨s', pool, hpop, _⟩
    · simp only [Server.exec, hpop]
    · simp only [Server.exec, hpop]
      rfl
  | acceptPop a' =>
    have ha : a' ≠ a := by simpa [Instr.slot] using hslot
    rcases popSession_cases st with hpop | ⟨s', pool, hpop, _⟩ <;>
      simp only [Server.exec, hpop] <;> exact accepting_set_ne ha
  | accept a' popSession execute =>
    have ha : a' ≠ a := by simpa [Instr.slot] using hslot
    simp only [Server.exec]
    repeat' split
    all_goals first
      | exact accepting_set_ne ha
      | rfl
  | errorClear a' => exact accepting_set_ne (by simpa [Instr.slot] using hslot)
  | acceptClear a' => exact accepting_set_ne (by simpa [Instr.slot] using hslot)
  | effect e => cases e <;> rfl
  | _ =>
    simp only [Server.exec] <;> (repeat' split) <;> rfl

theorem exec_reTake_accepting {s : Nat} (h : st.waitQueue.head? ≠ some a) :
    (st.exec c (.reTake s)).1.accepting a = st.accepting a := by
  simp only [Server.exec]
  split
  case h_1 => rfl
  case h_2 a' waitQueue hwait =>
    have hne : a' ≠ a := by
      rintro rfl
      rw [hwait] at h
      exact h rfl
    exact accepting_set_ne hne

theorem exec_accepting (hslot : instr.slot a = 0) (hqueue : a ∉ st.waitQueue) :
    (st.exec c instr).1.accepting a = st.accepting a := by
  cases instr with
  | clearWaitQueue => exact accepting_clear st.acceptObjects hqueue
  | reTake s => exact exec_reTake_accepting fun hhead => hqueue (List.mem_of_mem_head? hhead)
  | _ =>
    apply exec_accepting_other hslot
    · simp
    · simp

theorem exec_slot (c : Choice) (st : Server) (instr : Instr) (a : Nat) :
    (st.exec c instr).1.waitQueue.count a +
      total (Posted.slot a) (st.exec c instr).1.posted + total (Instr.slot a) (st.exec c instr).2 ≤
    st.waitQueue.count a + total (Posted.slot a) st.posted + instr.slot a := by
  have hnext := total_next_zero (Instr.slot a) c st instr
  cases instr with
  | recv _ _ | dispatch _ _ _ | tick _ _ | snapshot =>
    rw [hnext fun x hx => by cases hx <;> rfl]
    exact Nat.le_refl _
  | sending s pc =>
    rw [hnext fun x hx => by cases hx; rfl]
    simp only [Server.exec, Server.sending, Server.setSession]
    split <;> simp [Instr.slot, Posted.slot]
  | effect e => cases e <;> simp [Server.exec, Server.applyEffect, Server.setSession, Instr.slot]
  | recvStart s caller =>
    cases haccepted : st.accepted c s <;> cases caller <;>
      simp [Server.exec, Server.recvStart, Server.setSession, haccepted, Instr.slot, Posted.slot]
  | acceptRecvStart a s =>
    simp only [Server.exec, Server.recvStart, Server.setSession]
    split <;> simp [Instr.slot, Posted.slot]
  | _ =>
    simp only [Server.exec, Server.popSession, Server.setSession, Server.setAccept]
    (repeat' split) <;> simp [*, Instr.slot, Posted.slot, List.count_cons] <;> grind

/-- A session that is fresh from the pool has its first receive still to come. -/
def Phase.receive : Phase → Nat
  | .fresh => 1
  | _ => 0

theorem exec_receive (hpops : ¬ st.Pops s instr)
    (hinsert : ∀ a, instr = .acceptInsert a s → st.phase s = .fresh) :
    total (Posted.receive s) (st.exec c instr).1.posted +
        total (Instr.receive s) (st.exec c instr).2 + ((st.exec c instr).1.phase s).receive ≤
      total (Posted.receive s) st.posted + instr.receive s + (st.phase s).receive := by
  have hnext := total_next_zero (Instr.receive s) c st instr
  cases instr with
  | dispatch _ _ _ | tick _ _ | snapshot =>
    rw [hnext fun x hx => by cases hx <;> rfl]
    exact Nat.le_refl _
  | recv s' requests => exact le_of_eq (by simp [Server.exec, total_recv])
  | sending s' pc =>
    rw [hnext fun x hx => by cases hx; rfl]
    simp only [Server.exec, Server.sending, Server.setSession]
    split <;> simp [Instr.receive, Posted.receive]
  | effect e =>
    cases e <;> simp [Server.exec, Server.applyEffect, Server.setSession, Instr.receive]
  | recvStart s' caller =>
    cases haccepted : st.accepted c s' <;> cases caller <;>
      simp [Server.exec, Server.recvStart, Server.setSession, haccepted, Instr.receive,
        Posted.receive]
  | acceptRecvStart a s' =>
    simp only [Server.exec, Server.recvStart, Server.setSession]
    split <;> simp [Instr.receive, Posted.receive]
  | acceptInsert a s' =>
    simp only [Server.exec, Instr.receive, total_cons, total_nil]
    by_cases hs : s' = s
    · subst hs
      simp [hinsert a rfl, Phase.receive]
    · simp [hs, Ne.symm hs]
  | _ =>
    simp only [Server.exec, Server.popSession, Server.setSession, Server.setAccept,
      Server.Pops] at hpops ⊢
    (repeat' split) <;> simp [*, Instr.receive, Posted.receive, Function.update_apply] <;>
      grind [Phase.receive]

theorem token_next (pc : SendPc Chunk) (send : SendState Chunk) (accepted : Bool) :
    total SendPc.token (pc.next send accepted).2 + (pc.posts accepted).toNat +
        send.sendFlag.toNat ≤
      (pc.next send accepted).1.sendFlag.toNat + pc.token := by
  cases pc with
  | insertSendQueue sendChunk =>
    cases hflag : send.sendFlag <;>
      simp [SendPc.next, SendPc.token, SendPc.posts, hflag, SendState.insertSendQueue]
  | testEmpty =>
    cases hflag : send.sendFlag <;> by_cases hchunks : send.sendChunks = [] <;>
      simp [SendPc.next, SendPc.token, SendPc.posts, hflag, hchunks, SendState.testEmpty]
  | checkSendComplete =>
    cases hflag : send.sendFlag <;> by_cases hqueue : send.sendQueue = [] <;>
      simp [SendPc.next, SendPc.token, SendPc.posts, hflag, hqueue, SendState.checkSendComplete]
  | post => cases accepted <;> simp [SendPc.next, SendPc.token, SendPc.posts, Nat.add_comm]
  | releaseFlag =>
    cases hflag : send.sendFlag <;>
      simp [SendPc.next, SendPc.token, SendPc.posts, SendState.releaseFlag]
  | _ => simp [SendPc.next, SendPc.token, SendPc.posts, SendState.clear, Nat.add_comm]

theorem total_sending (s s' : Nat) (pcs : List (SendPc Chunk)) :
    total (Instr.token s) (pcs.map (.sending s')) =
      if s' = s then total SendPc.token pcs else 0 := by
  induction pcs with
  | nil => simp
  | cons pc pcs ih =>
    rw [List.map_cons, total_cons, ih, total_cons, Instr.token]
    split <;> rfl

theorem exec_token (c : Choice) (st : Server) (hpush : instr ≠ .pushSession s)
    (hpool : instr ≠ .poolPush s) :
    total (Posted.token s) (st.exec c instr).1.posted +
        total (Instr.token s) (st.exec c instr).2 + (st.sessions s).send.sendFlag.toNat ≤
      total (Posted.token s) st.posted + instr.token s +
        ((st.exec c instr).1.sessions s).send.sendFlag.toNat := by
  by_cases hsending : ∃ pc, instr = .sending s pc
  · obtain ⟨pc, rfl⟩ := hsending
    have hnext := token_next pc (st.sessions s).send (st.accepted c s)
    simp only [Server.exec, Server.sending, Server.setSession, total_sending, Instr.token,
      Function.update_self, if_true]
    cases hposts : pc.posts (st.accepted c s) <;>
      simp only [hposts, Bool.toNat_true, Bool.toNat_false] at hnext <;>
      simp [Posted.token] <;> omega
  · have hsending : ∀ pc, instr ≠ .sending s pc := fun pc h => hsending ⟨pc, h⟩
    rw [exec_send hpush hpool hsending]
    have hnext := total_next_zero (Instr.token s) c st instr
    cases instr with
    | recv _ _ | dispatch _ _ _ | tick _ _ | snapshot =>
      rw [hnext fun x hx => by cases hx <;> rfl]
      exact Nat.le_refl _
    | effect e =>
      cases e <;>
        simp [Server.exec, Server.applyEffect, Instr.token, SendPc.token, Server.setSession]
    | sending s' pc =>
      have hs : s' ≠ s := fun h => hsending pc (h ▸ rfl)
      simp only [Server.exec, Server.sending, Server.setSession, total_sending, Instr.token]
      split <;> simp [Posted.token, hs]
    | recvStart s' caller =>
      cases haccepted : st.accepted c s' <;> cases caller <;>
        simp [Server.exec, Server.recvStart, Server.setSession, haccepted, Instr.token,
          Posted.token]
    | acceptRecvStart a s' =>
      simp only [Server.exec, Server.recvStart, Server.setSession]
      split <;> simp [Instr.token, Posted.token]
    | _ =>
      simp only [Server.exec, Server.popSession, Server.setSession, Server.setAccept]
      (repeat' split) <;> simp [*, Instr.token, Posted.token, SendPc.token]

theorem count_set_le (objects : List (Option Nat)) (a : Nat) (x y : Option Nat) :
    (objects.set a x).count y ≤ objects.count y + if x = y then 1 else 0 := by
  by_cases ha : a < objects.length
  · rw [List.count_set ha]
    simp only [beq_iff_eq]
    omega
  · rw [List.set_eq_of_length_le (by omega)]
    omega

theorem count_clear_le (queue : List Nat) (objects : List (Option Nat)) (s : Nat) :
    (queue.foldl (fun objects a => objects.set a none) objects).count (some s) ≤
      objects.count (some s) := by
  induction queue generalizing objects with
  | nil => exact Nat.le_refl _
  | cons a queue ih =>
    have hset := count_set_le objects a none (some s)
    have hrest := ih (objects.set a none)
    simp only [reduceCtorEq, if_false] at hset
    exact Nat.le_trans hrest hset

theorem exec_given (hpops : ¬ st.Pops s instr) :
    (st.exec c instr).1.acceptObjects.count (some s) +
        total (Instr.given s) (st.exec c instr).2 ≤
      st.acceptObjects.count (some s) + instr.given s := by
  have hnext := total_next_zero (Instr.given s) c st instr
  cases instr with
  | recv _ _ | dispatch _ _ _ | tick _ _ | snapshot | sending _ _ =>
    rw [hnext fun x hx => by cases hx <;> rfl]
    exact Nat.le_refl _
  | effect e => cases e <;> simp [Server.exec, Server.applyEffect, Instr.given, Server.setSession]
  | recvStart s' caller =>
    cases haccepted : st.accepted c s' <;> cases caller <;>
      simp [Server.exec, Server.recvStart, Server.setSession, haccepted, Instr.given]
  | clearWaitQueue =>
    simp [Server.exec, Instr.given, count_clear_le]
  | reTake s' =>
    simp only [Server.exec, Server.setAccept]
    split
    · simp
    · rename_i a waitQueue hqueue
      have hset := count_set_le st.acceptObjects a (some s') (some s)
      simp only [Option.some.injEq] at hset
      simpa [Instr.given] using hset
  | acceptPop a =>
    simp only [Server.exec, Server.setAccept, Server.Pops] at hpops ⊢
    rcases popSession_cases st with hpop | ⟨s', pool, hpop, _⟩
    · have hset := count_set_le st.acceptObjects a none (some s)
      simpa [hpop, Instr.given] using hset
    · have hset := count_set_le st.acceptObjects a (some s') (some s)
      simp only [hpop, Option.some.injEq] at hpops
      simpa [hpop, Instr.given, hpops] using hset
  | accept a popSession execute =>
    have hset := count_set_le st.acceptObjects a none (some s)
    simp only [reduceCtorEq, if_false, Nat.add_zero] at hset
    simp only [Server.exec, Server.setAccept]
    (repeat' split) <;> simp [Instr.given, hset]
  | errorClear a =>
    have hset := count_set_le st.acceptObjects a none (some s)
    simpa [Server.exec, Server.setAccept, Instr.given] using hset
  | acceptClear a =>
    have hset := count_set_le st.acceptObjects a none (some s)
    simpa [Server.exec, Server.setAccept, Instr.given] using hset
  | rePop =>
    simp only [Server.exec, Server.Pops] at hpops ⊢
    rcases popSession_cases st with hpop | ⟨s', pool, hpop, _⟩
    · simp [hpop]
    · simp only [hpop, Option.some.injEq] at hpops
      simp [hpop, Instr.given, hpops]
  | _ =>
    simp only [Server.exec, Server.recvStart, Server.setSession]
    (repeat' split) <;> simp [Instr.given]

/-- An object is in the pool, on its way there, or popped by the entry. -/
theorem exec_returning (c : Choice) (st : Server) (instr : Instr) (s : Nat) {popped : Nat}
    (hle : popped ≤ 1) (hpops : 0 < popped → st.Pops s instr) :
    (st.exec c instr).1.pool.pools.count s + total (Instr.returning s) (st.exec c instr).2 +
        popped ≤
      st.pool.pools.count s + instr.returning s := by
  by_cases hpop : instr = .rePop ∨ ∃ a, instr = .acceptPop a
  · have hpops : 0 < popped → st.popSession.2 = some s := by
      rcases hpop with rfl | ⟨a, rfl⟩ <;> exact hpops
    have hexec : (st.exec c instr).1.pool = st.popSession.1.pool ∧
        total (Instr.returning s) (st.exec c instr).2 = 0 := by
      rcases hpop with rfl | ⟨a, rfl⟩ <;> simp only [Server.exec] <;> split <;>
        simp [Instr.returning, Server.setAccept]
    rw [hexec.1, hexec.2]
    rcases popSession_cases st with hpop | ⟨s', pool, hpop, hpools, _⟩
    · simp only [hpop, reduceCtorEq, imp_false] at hpops
      simp only [hpop]
      omega
    · simp only [hpop, Option.some.injEq] at hpops
      simp only [hpop, hpools, List.count_cons, beq_iff_eq]
      split <;> omega
  · have hpopped : popped = 0 := by
      by_contra hne
      have := hpops (by omega)
      cases instr with
      | rePop => simp at hpop
      | acceptPop a => simp at hpop
      | _ => contradiction
    subst hpopped
    have hnext := total_next_zero (Instr.returning s) c st instr
    cases instr with
    | rePop => simp at hpop
    | acceptPop a => simp at hpop
    | recv _ _ | dispatch _ _ _ | tick _ _ | snapshot | sending _ _ =>
      rw [hnext fun x hx => by cases hx <;> rfl]
      exact Nat.le_refl _
    | effect e =>
      cases e <;> simp [Server.exec, Server.applyEffect, Instr.returning, Server.setSession]
    | recvStart s' caller =>
      cases haccepted : st.accepted c s' <;> cases caller <;>
        simp [Server.exec, Server.recvStart, Server.setSession, haccepted, Instr.returning]
    | pushSession s' => simp [Server.exec, Server.setSession, Instr.returning]
    | poolPush s' =>
      rcases st.pool.push_pools s' with ⟨hpools, hpushed⟩ | ⟨hpool, hpushed⟩
      · simp [Server.exec, Server.setSession, Instr.returning, hpools, List.count_cons]
      · simp [Server.exec, Server.setSession, Instr.returning, hpool]
    | _ =>
      simp only [Server.exec, Server.recvStart, Server.setSession]
      (repeat' split) <;> simp [Instr.returning, Server.setAccept]

end
end RoomServer
