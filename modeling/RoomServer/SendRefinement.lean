import RoomServer.Crossing
import RoomServer.SendGuarantees

/-! The send side of every session of the server is a run of the send protocol: what
the threads have to do for the session are the protocol's threads, and its posted
calls are the outstanding ones. Returning the session to the pool is no step of the
protocol, since nothing is under way then. -/
namespace RoomServer
open Library Library.Threads Library.Transition

def Instr.sendPc (s : Nat) : Instr → Option (SendPc Chunk)
  | .sending s' pc => if s' = s then some pc else none
  | .sendExecute s' transferred =>
    if s' = s then some (if transferred then .execute else .failed) else none
  | _ => none

def Instr.enters (s : Nat) : Instr → List Chunk
  | .sending s' (.insertSendQueue chunk) => if s' = s then [chunk] else []
  | _ => []

def Call.chunks (s : Nat) : Call → List Chunk
  | .wsaSend s' _ _ chunks => if s' = s then chunks else []
  | _ => []

/-- A run of the protocol that the send side of `s` stands for. -/
structure SendView (s : Nat) (st : Server) (sent : SendRun Chunk) : Prop where
  reached : Reaches sendStep accepting .start sent
  session : sent.session = (st.sessions s).send
  threads : sent.threads.Perm (gather (Instr.sendPc s) st.threads)
  outstanding : sent.outstanding.length = st.posted.count (.send s)
  posted : sent.posted = st.log.flatMap (Call.chunks s)

/-- The step is not a `WSASend` that is refused, nor a completion that `Worker` takes for
a failed one. -/
def sendsSucceed (st : Server) : ServerAct → Bool
  | .advance t c =>
    match st.threads[t]? with
    | some (.sending s .post :: _) => st.accepted c s
    | _ => true
  | .complete k completion =>
    match st.posted[k]?, completion with
    | some (.send _), .data _ => true
    | some (.send _), _ => false
    | _, _ => true
  | .shutdown => true

section
variable {c : Choice} {st : Server} {instr x : Instr} {s t : Nat} {rest : List Instr}
  {sent : SendRun Chunk}

/-! ### What one entry does to the send side -/

theorem filterMap_none {f : α → Option β} {xs : List α} (h : ∀ x ∈ xs, f x = none) :
    xs.filterMap f = [] :=
  List.filterMap_eq_nil_iff.mpr h

/-- `WSASend` is the only call whose answer matters to a section. -/
theorem next_accepted {pc : SendPc γ} (h : pc ≠ .post) (send : SendState γ)
    (accepted accepted' : Bool) : pc.next send accepted = pc.next send accepted' := by
  cases pc with
  | post => contradiction
  | _ => rfl

theorem sendPc_sending (s : Nat) (pcs : List (SendPc Chunk)) :
    (pcs.map (Instr.sending s)).filterMap (Instr.sendPc s) = pcs := by
  rw [List.filterMap_map]
  have hself : Instr.sendPc s ∘ Instr.sending s = some := by
    funext pc
    simp [Instr.sendPc]
  rw [hself, List.filterMap_some]

theorem sendPc_sending_other {s' : Nat} (h : s' ≠ s) (pcs : List (SendPc Chunk)) :
    (pcs.map (Instr.sending s')).filterMap (Instr.sendPc s) = [] := by
  apply filterMap_none
  intro x hx
  obtain ⟨pc, _, rfl⟩ := List.mem_map.mp hx
  exact if_neg h

/-- Beside the sections and the calls of `InsertSendQueue` nothing moves. -/
theorem exec_sendPc (hserver : ServerInv st) (hentry : Entry st.threads instr)
    (hsending : ∀ pc, instr ≠ .sending s pc)
    (hcall : ∀ packet, instr ≠ .effect (.insertSendQueue s packet)) :
    (st.exec c instr).2.filterMap (Instr.sendPc s) = (instr.sendPc s).toList := by
  have hnone : instr.sendPc s = none → (∀ x, Next c st instr x → x.sendPc s = none) →
      (st.exec c instr).2.filterMap (Instr.sendPc s) = (instr.sendPc s).toList := by
    intro hinstr hnext
    rw [hinstr, filterMap_none fun x hx => hnext x (exec_next hx)]
    rfl
  cases instr with
  | sending s' pc =>
    have hs : s' ≠ s := fun hs => hsending pc (hs ▸ rfl)
    simp only [Server.exec, Server.sending, sendPc_sending_other hs]
    simp [Instr.sendPc, hs]
  | sendExecute s' transferred =>
    have hfact : (st.sessions s').sendSession = true := hserver.facts _ hentry
    simp only [Server.exec, hfact, Bool.true_eq_false, if_false]
    by_cases hs : s' = s <;> cases transferred <;> simp [Instr.sendPc, hs]
  | effect e =>
    apply hnone rfl
    intro x hx
    cases hx with
    | insertSendQueue s' packet =>
      have hs : s' ≠ s := fun hs => hcall packet (hs ▸ rfl)
      simp [Instr.sendPc, hs]
    | _ => rfl
  | _ =>
    apply hnone rfl
    intro x hx
    cases hx <;> rfl

theorem exec_sends (c : Choice) (st : Server) (hsending : ∀ pc, instr ≠ .sending s pc) :
    (st.exec c instr).1.posted.count (.send s) = st.posted.count (.send s) ∧
      (st.exec c instr).1.log.flatMap (Call.chunks s) = st.log.flatMap (Call.chunks s) := by
  cases instr with
  | acceptEx a s' =>
    simp only [Server.exec]
    split <;> simp
  | recvStart s' caller =>
    simp only [Server.exec, Server.recvStart]
    split <;> simp [Call.chunks]
  | acceptRecvStart a s' =>
    simp only [Server.exec, Server.recvStart]
    split <;> simp [Call.chunks]
  | sending s' pc =>
    have hs : s' ≠ s := fun hs => hsending pc (hs ▸ rfl)
    simp only [Server.exec, Server.sending]
    split <;> simp [Call.chunks, hs]
  | closesocket s' => simp [Server.exec, Call.chunks]
  | eraseUserSession s' => simp [Server.exec, Call.chunks]
  | rePop | acceptPop a =>
    rcases popSession_cases st with hpop | ⟨s', pool, hpop, _⟩ <;>
      simp only [Server.exec, hpop, Server.setAccept, and_self]
  | effect e => cases e <;> exact ⟨rfl, rfl⟩
  | _ =>
    simp only [Server.exec]
    (repeat' split) <;> first | exact ⟨rfl, rfl⟩ | exact ⟨trivial, trivial⟩

/-! ### One step of a thread -/

theorem released_sendPc {released : List Instr} (h : ∀ x ∈ released, ∃ s, x = .pushSession s) :
    released.filterMap (Instr.sendPc s) = [] := by
  apply filterMap_none
  intro x hx
  obtain ⟨s', rfl⟩ := h x hx
  rfl

theorem gather_advance (c : Choice) (h : st.threads[t]? = some (instr :: rest)) :
    ((instr.sendPc s).toList ++
        gather (Instr.sendPc s) (st.advance t c instr rest).threads).Perm
      ((st.exec c instr).2.filterMap (Instr.sendPc s) ++ gather (Instr.sendPc s) st.threads) := by
  obtain ⟨released, hthreads, hreleased⟩ := advance_threads st t c instr rest
  have hset := gather_set (Instr.sendPc s) (released ++ (st.exec c instr).2) h
  rwa [List.filterMap_append, released_sendPc hreleased, List.nil_append, ← hthreads] at hset

theorem sendFlag_of_free (hserver : ServerInv st) (hview : SendView s st sent)
    (hfree : ¬ Holds st s) : (st.sessions s).send.sendFlag = false := by
  have hidle := (idle_of_free hserver hfree).2.1
  have htoken := (sendLive_reaches hview.reached).token
  have hweigh : total SendPc.token sent.threads = weigh (Instr.token s) st.threads := by
    rw [total_perm _ hview.threads, total_gather]
    congr 1
    funext x
    cases x with
    | sending s' pc =>
      by_cases hs : s' = s <;> simp [Instr.sendPc, Instr.token, hs]
    | sendExecute s' transferred =>
      by_cases hs : s' = s <;> cases transferred <;>
        simp [Instr.sendPc, Instr.token, hs, SendPc.token]
    | _ => rfl
  rw [SendRun.tokens, hview.session, hview.outstanding, hweigh, ← total_token] at htoken
  cases hflag : (st.sessions s).send.sendFlag with
  | false => rfl
  | true =>
    rw [hflag, Bool.toNat_true] at htoken
    omega

/-- In runs without failures `Reset` finds the queue empty. -/
theorem sendQueue_of_free (hserver : ServerInv st) (hview : SendView s st sent)
    (hfree : ¬ Holds st s) : (st.sessions s).send.sendQueue = [] := by
  have hflag := sendFlag_of_free hserver hview hfree
  rw [← hview.session] at hflag ⊢
  exact (sendLive_reaches hview.reached).idle hflag

theorem exec_send_stays (hserver : ServerInv st) (hview : SendView s st sent)
    (hentry : Entry st.threads instr) (hsending : ∀ pc, instr ≠ .sending s pc) :
    ((st.exec c instr).1.sessions s).send = (st.sessions s).send := by
  by_cases hreset : instr = .pushSession s ∨ instr = .poolPush s
  · have hreturning : 0 < instr.returning s := by
      rcases hreset with rfl | rfl <;> simp [Instr.returning]
    have hflag := sendFlag_of_free hserver hview (free_of_entry hserver hentry hreturning)
    have hstep := exec_session c st instr s
    generalize (st.exec c instr).1.sessions s = session at hstep
    cases hstep with
    | sending pc => exact absurd rfl (hsending pc)
    | pushSession => simp [Session.reset, ← hflag]
    | poolPush => simp [Session.reset, ← hflag]
    | _ => rfl
  · rw [not_or] at hreset
    exact exec_send hreset.1 hreset.2 hsending

theorem sendView_stays (hserver : ServerInv st) (hview : SendView s st sent)
    (h : st.threads[t]? = some (instr :: rest)) (hsending : ∀ pc, instr ≠ .sending s pc)
    (hcall : ∀ packet, instr ≠ .effect (.insertSendQueue s packet)) :
    SendView s (st.advance t c instr rest) sent := by
  have hentry := entry_head h
  have hsends := exec_sends c st hsending
  have hgather := gather_advance (s := s) c h
  rw [exec_sendPc hserver hentry hsending hcall, List.perm_append_left_iff] at hgather
  exact ⟨hview.reached, hview.session.trans (exec_send_stays hserver hview hentry hsending).symm,
    hview.threads.trans hgather.symm, hview.outstanding.trans hsends.1.symm,
    hview.posted.trans hsends.2.symm⟩

/-! ### The protocol's own steps -/

theorem mem_sendPc (hview : SendView s st sent) {pc : SendPc Chunk}
    (hentry : Entry st.threads instr) (hpc : instr.sendPc s = some pc) : pc ∈ sent.threads :=
  hview.threads.mem_iff.mpr (mem_gather.mpr ⟨instr, hentry, hpc⟩)

theorem sendView_call (hview : SendView s st sent) {packet : ServerPacket ℚ}
    (h : st.threads[t]? = some (.effect (.insertSendQueue s packet) :: rest)) :
    ∃ sent', SendView s (st.advance t c (.effect (.insertSendQueue s packet)) rest) sent' ∧
      sent'.enqueued = sent.enqueued := by
  have hgather := gather_advance (s := s) c h
  have hcall : Reaches sendStep accepting .start { sent with
      threads := sent.threads ++ [.insertSendQueue ⟨packet, st.connection s⟩] } :=
    .next (.call _) hview.reached trivial rfl
  refine ⟨_, ⟨hcall, hview.session, ?_, hview.outstanding, hview.posted⟩, rfl⟩
  have hnext : (st.exec c (.effect (.insertSendQueue s packet))).2.filterMap (Instr.sendPc s) =
      [.insertSendQueue ⟨packet, st.connection s⟩] := by
    simp [Server.exec, Server.applyEffect, Instr.sendPc]
  rw [hnext] at hgather
  exact (hview.threads.append_right _).trans (List.perm_append_comm.trans hgather.symm)

theorem advance_fields (sent : SendRun Chunk) (i : Nat) (pc : SendPc Chunk) :
    (sent.advance i true pc).session = (pc.next sent.session true).1 ∧
      (sent.advance i true pc).threads = splice sent.threads i (pc.next sent.session true).2 ∧
      (sent.advance i true pc).outstanding.length =
        sent.outstanding.length + (pc.posts true).toNat ∧
      (sent.advance i true pc).posted =
        sent.posted ++ (if pc.posts true then sent.session.sendChunks else []) ∧
      (sent.advance i true pc).enqueued =
        sent.enqueued ++ (Instr.sending s pc).enters s := by
  cases pc <;> simp [SendRun.advance, SendPc.next, SendPc.posts, Instr.enters]

theorem sendView_sending (hview : SendView s st sent) {pc : SendPc Chunk}
    (h : st.threads[t]? = some (.sending s pc :: rest))
    (haccept : pc = .post → st.accepted c s = true) :
    ∃ sent', SendView s (st.advance t c (.sending s pc) rest) sent' ∧
      sent'.enqueued = sent.enqueued ++ (Instr.sending s pc).enters s := by
  have hpc : Instr.sendPc s (.sending s pc) = some pc := by simp [Instr.sendPc]
  obtain ⟨i, hi⟩ := List.mem_iff_getElem?.mp (mem_sendPc hview (entry_head h) hpc)
  -- the protocol's section is the server's
  have hnext : pc.next (st.sessions s).send (st.accepted c s) = pc.next sent.session true := by
    rw [hview.session]
    by_cases hpost : pc = .post
    · rw [haccept hpost]
    · exact next_accepted hpost _ _ _
  have hposts : pc.posts (st.accepted c s) = pc.posts true := by
    cases pc with
    | post => rw [haccept rfl]
    | _ => rfl
  obtain ⟨hsession, hthreads, houtstanding, hposted, henqueued⟩ :=
    advance_fields (s := s) sent i pc
  have hstep : sendStep sent (.advance i true) = some (sent.advance i true pc) := by
    simp [sendStep, hi]
  refine ⟨sent.advance i true pc, ⟨.next (.advance i true) hview.reached rfl hstep, ?_, ?_, ?_,
    ?_⟩, henqueued⟩
  · rw [hsession, ← hnext]
    exact (sending_send c st s pc).symm
  · have hgather := gather_advance (s := s) c h
    have hsections : (st.exec c (.sending s pc)).2.filterMap (Instr.sendPc s) =
        (pc.next sent.session true).2 := by
      rw [← hnext]
      exact sendPc_sending s _
    rw [hpc, hsections] at hgather
    rw [hthreads]
    apply List.Perm.cons_inv (a := pc)
    exact (perm_splice _ hi).trans ((hview.threads.append_left _).trans hgather.symm)
  · rw [houtstanding, hview.outstanding, ← hposts]
    change _ = (st.exec c (.sending s pc)).1.posted.count (.send s)
    simp only [Server.exec, Server.sending]
    split <;> rename_i hposts <;> simp [hposts]
  · rw [hposted, hview.posted, hview.session, ← hposts]
    change _ = (st.exec c (.sending s pc)).1.log.flatMap (Call.chunks s)
    simp only [Server.exec, Server.sending]
    split <;> simp [Call.chunks]

/-! ### Every step, and runs -/

theorem sendView_advance (hserver : ServerInv st) (hview : SendView s st sent)
    (h : st.threads[t]? = some (instr :: rest)) (haccept : instr = .sending s .post →
      st.accepted c s = true) :
    ∃ sent', SendView s (st.advance t c instr rest) sent' ∧
      sent'.enqueued = sent.enqueued ++ instr.enters s := by
  by_cases hsending : ∃ pc, instr = .sending s pc
  · obtain ⟨pc, rfl⟩ := hsending
    apply sendView_sending hview h
    rintro rfl
    exact haccept rfl
  · by_cases hcall : ∃ packet, instr = .effect (.insertSendQueue s packet)
    · obtain ⟨packet, rfl⟩ := hcall
      obtain ⟨sent', hview', henqueued⟩ := sendView_call (c := c) hview h
      exact ⟨sent', hview', henqueued.trans (List.append_nil _).symm⟩
    · refine ⟨sent, sendView_stays hserver hview h (fun pc hpc => hsending ⟨pc, hpc⟩)
        fun packet hpacket => hcall ⟨packet, hpacket⟩, ?_⟩
      have hnone : instr.enters s = [] := by
        cases instr with
        | sending s' pc =>
          cases pc with
          | insertSendQueue chunk => exact if_neg fun hs => hsending ⟨_, by rw [hs]⟩
          | _ => rfl
        | _ => rfl
      rw [hnone, List.append_nil]

theorem sendView_spawn (hview : SendView s st sent) {thread : List Instr} {posted : List Posted}
    (hthread : thread.filterMap (Instr.sendPc s) = [])
    (hposted : posted.count (.send s) = st.posted.count (.send s)) :
    SendView s { st with posted := posted, threads := st.threads ++ [thread] } sent := by
  refine ⟨hview.reached, hview.session, ?_, hview.outstanding.trans hposted.symm, hview.posted⟩
  simpa [hthread] using hview.threads

theorem sendView_complete (hview : SendView s st sent) {k : Nat} {requests : List Request}
    (h : st.posted[k]? = some (.send s)) :
    ∃ sent', SendView s { st with
        posted := st.posted.eraseIdx k
        threads := st.threads ++ [[(Posted.send s).handler (.data requests)]] } sent' ∧
      sent'.enqueued = sent.enqueued := by
  have hcount : (st.posted.eraseIdx k).count (.send s) + 1 = st.posted.count (.send s) := by
    obtain ⟨hk, hop⟩ := List.getElem?_eq_some_iff.mp h
    have hperm := (List.getElem_cons_eraseIdx_perm hk).count_eq (.send s)
    rwa [hop, List.count_cons_self] at hperm
  have hpos : 0 < sent.outstanding.length := by
    rw [hview.outstanding]
    omega
  have hstep : sendStep sent (.complete 0 true) = some { sent with
      outstanding := sent.outstanding.eraseIdx 0, threads := sent.threads ++ [.execute] } := by
    simp [sendStep, hpos]
  have hnew : [(Posted.send s).handler (.data requests)].filterMap (Instr.sendPc s) =
      [.execute] := by
    simp [Posted.handler, Instr.sendPc]
  refine ⟨_, ⟨.next (.complete 0 true) hview.reached rfl hstep, hview.session, ?_, ?_,
    hview.posted⟩, rfl⟩
  · rw [gather_append, gather_singleton, hnew]
    exact hview.threads.append_right _
  · have houtstanding := hview.outstanding
    simp only [List.length_eraseIdx_of_lt hpos]
    omega

def Server.enters (st : Server) (s : Nat) : ServerAct → List Chunk
  | .advance t _ =>
    match st.threads[t]? with
    | some (instr :: _) => instr.enters s
    | _ => []
  | _ => []

theorem sendView_step {act : ServerAct} {st' : Server} (hserver : ServerInv st)
    (hview : SendView s st sent) (hok : sendsSucceed st act = true)
    (h : serverStep st act = some st') :
    ∃ sent', SendView s st' sent' ∧ sent'.enqueued = sent.enqueued ++ st.enters s act := by
  cases act with
  | advance t c =>
    simp only [serverStep] at h
    split at h
    case h_1 instr rest hthread =>
      cases h
      simp only [Server.enters, hthread]
      apply sendView_advance hserver hview hthread
      rintro rfl
      simpa only [sendsSucceed, hthread] using hok
    case h_2 => contradiction
  | complete k completion =>
    obtain ⟨op, hop, rfl⟩ := Option.map_eq_some_iff.mp h
    simp only [Server.enters, List.append_nil]
    by_cases hs : op = .send s
    · subst hs
      cases completion with
      | data requests => exact sendView_complete hview hop
      | _ => simp [sendsSucceed, hop] at hok
    · refine ⟨sent, sendView_spawn hview ?_ ?_, rfl⟩
      · cases op with
        | send s' =>
          have hne : s' ≠ s := fun heq => hs (heq ▸ rfl)
          cases completion <;> simp [Posted.handler, Instr.sendPc, hne]
        | accept a s' => cases completion <;> rfl
        | recv s' => rfl
      · obtain ⟨hk, hop⟩ := List.getElem?_eq_some_iff.mp hop
        have hperm := (List.getElem_cons_eraseIdx_perm hk).count_eq (.send s)
        rwa [hop, List.count_cons_of_ne hs] at hperm
  | shutdown =>
    cases h
    refine ⟨sent, sendView_spawn hview ?_ rfl, (List.append_nil _).symm⟩
    apply filterMap_none
    intro x hx
    simp only [List.mem_cons, List.mem_append, List.mem_map, List.not_mem_nil, or_false] at hx
    rcases hx with rfl | rfl | rfl | ⟨i, _, rfl⟩ | rfl <;> rfl

theorem sendView_start (roomCount poolSize acceptCount : Nat) (s : Nat) :
    SendView s (.start roomCount poolSize acceptCount) .start := by
  refine ⟨.start, rfl, ?_, rfl, rfl⟩
  have hnone : gather (Instr.sendPc s) (Server.start roomCount poolSize acceptCount).threads =
      [] := by
    apply filterMap_none
    intro x hx
    rcases start_entry (List.mem_flatten.mp hx) with ⟨i, rfl⟩ | ⟨a, rfl⟩ <;> rfl
  rw [hnone]
  exact .refl _

end
end RoomServer
