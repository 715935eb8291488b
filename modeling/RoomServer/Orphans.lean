import RoomServer.Leaving

/-! Whether a session in `m_UserSession` can be left without anything that would ever
close it. Every end of its chain of receives hands it to a Leave job or to
`CloseSession`, and a Leave job that is dispatched finds its session in a room or
already closing; only the first receive, in `AcceptObject::Execute`, may fail unnoticed. -/
namespace RoomServer
open Library Library.Threads Library.Transition

/-- What the entry does for `s` ends in the next receive or in `CloseSession`. -/
def Instr.attends (s : Nat) : Instr → Bool
  | .acceptRecvStart _ s' | .recvExecute s' _ | .recv s' _ | .recvStart s' _ | .pushLeave s'
  | .effect (.closeSession s') | .closesocket s' | .eraseUserSession s' => s' == s
  | .pushJobByRooms job _ | .pushJob job _ => job == ⟨.leave, s⟩
  | .dispatch _ jobs _ => jobs.contains ⟨.leave, s⟩
  | _ => false

def Instr.loops (i : Nat) : Instr → Bool
  | .startJob i' => i' == i
  | .dispatch i' _ stop | .tick i' stop => i' == i && !stop
  | _ => false

structure Server.RoomRuns (st : Server) (i : Nat) : Prop where
  inRange : i < st.roomCount
  running : (st.jobQueues i).stop = false
  loops : ∃ x, Entry st.threads x ∧ x.loops i = true

/-- Something remains that goes on with `s`: a receive, a thread, or a Leave job. -/
inductive Server.Attended (st : Server) (s : Nat) : Prop where
  | outstanding (h : .recv s ∈ st.posted)
  | processed {x : Instr} (h : Entry st.threads x) (hx : x.attends s = true)
  | queued {i : Nat} (hi : st.RoomRuns i) (h : ⟨.leave, s⟩ ∈ (st.jobQueues i).jobs)

def Server.NoOrphan (st : Server) : Prop :=
  ∀ n s, st.userSession.find n = some s → st.Attended s

def beforeShutdown : ServerAct → Bool
  | .shutdown => false
  | _ => true

/-- The `WSARecv` of `AcceptObject::Execute` is not refused, or the session did not get
into `m_UserSession`. -/
def firstReceive (st : Server) : ServerAct → Bool
  | .advance t c =>
    match st.threads[t]? with
    | some (.acceptRecvStart _ s :: _) =>
      st.accepted c s || st.userSession.find (st.sessions s).socket != some s
    | _ => true
  | _ => true

section
variable {c : Choice} {st : Server} {instr x : Instr} {n s t : Nat} {rest : List Instr}

/-! ### The rooms run -/

def Instr.halts : Instr → Bool
  | .stopRoom _ => true
  | .dispatch _ _ stop | .tick _ stop => stop
  | _ => false

structure RunningInv (st : Server) : Prop where
  running : ∀ i, (st.jobQueues i).stop = false
  entries : ∀ x, Entry st.threads x → x.halts = false
  loops : ∀ i < st.roomCount, ∃ x, Entry st.threads x ∧ x.loops i = true

theorem RunningInv.runs (hinv : RunningInv st) {i : Nat} (hi : i < st.roomCount) : st.RoomRuns i :=
  ⟨hi, hinv.running i, hinv.loops i hi⟩

theorem exec_stop (c : Choice) (st : Server) (hstop : ∀ i, instr ≠ .stopRoom i) (i : Nat) :
    ((st.exec c instr).1.jobQueues i).stop = (st.jobQueues i).stop := by
  cases instr with
  | stopRoom j => exact absurd rfl (hstop j)
  | pushJob job j | startJob j =>
    simp only [Server.exec, Function.update_apply]
    split
    · rename_i hij
      rw [hij]
    · rfl
  | rePop | acceptPop a =>
    rcases popSession_cases st with hpop | ⟨s', pool, hpop, _⟩ <;>
      simp only [Server.exec, hpop] <;> rfl
  | effect e => cases e <;> rfl
  | _ =>
    simp only [Server.exec] <;> (repeat' split) <;> rfl

theorem next_halts (hinv : RunningInv st) (hinstr : instr.halts = false) (h : Next c st instr x) :
    x.halts = false := by
  cases h with
  | dispatch i => exact hinv.running i
  | dispatchRest | tick => exact hinstr
  | _ => rfl

theorem exec_loops {i : Nat} (hinv : RunningInv st) (h : instr.loops i = true) :
    ∃ x ∈ (st.exec c instr).2, x.loops i = true := by
  cases instr with
  | startJob j =>
    refine ⟨_, List.mem_singleton_self _, ?_⟩
    simp only [Instr.loops, hinv.running, Bool.not_false, Bool.and_true] at h ⊢
    exact h
  | dispatch j jobs stop =>
    cases jobs with
    | nil => exact ⟨.tick j stop, List.mem_singleton_self _, h⟩
    | cons job jobs =>
      refine ⟨.dispatch j jobs stop, ?_, h⟩
      simp [Server.exec, Server.dispatch]
  | tick j stop =>
    simp only [Instr.loops, Bool.and_eq_true, beq_iff_eq, Bool.not_eq_true'] at h
    obtain ⟨rfl, rfl⟩ := h
    exact ⟨.startJob j, by simp [Server.exec], by simp [Instr.loops]⟩
  | _ => contradiction

theorem runningInv_advance (hinv : RunningInv st) (h : st.threads[t]? = some (instr :: rest)) :
    RunningInv (st.advance t c instr rest) := by
  have hinstr := hinv.entries instr (entry_head h)
  refine ⟨?_, ?_, ?_⟩
  · intro i
    rw [advance_jobQueues, exec_stop c st _ i, hinv.running]
    rintro j rfl
    contradiction
  · intro x hx
    rcases advance_entry h hx with ⟨s, rfl⟩ | hx | hx
    · rfl
    · exact next_halts hinv hinstr (exec_next hx)
    · exact hinv.entries x hx.entry
  · intro i hi
    rw [advance_roomCount, exec_sizes.1] at hi
    obtain ⟨x, hx, hloops⟩ := hinv.loops i hi
    rcases entry_advance c h hx with rfl | hx
    · obtain ⟨y, hy, hloops⟩ := exec_loops (c := c) hinv hloops
      exact ⟨y, next_advance h hy, hloops⟩
    · exact ⟨x, hx, hloops⟩

theorem runningInv_complete (hinv : RunningInv st) {k : Nat} {op : Posted} (completion : Completion) :
    RunningInv { st with
      posted := st.posted.eraseIdx k
      threads := st.threads ++ [[op.handler completion]] } := by
  refine ⟨hinv.running, ?_, ?_⟩
  · intro x hx
    rcases entry_spawn hx with hx | hx
    · exact hinv.entries x hx
    · cases List.mem_singleton.mp hx
      cases op <;> cases completion <;> rfl
  · intro i hi
    obtain ⟨x, hx, hloops⟩ := hinv.loops i hi
    exact ⟨x, entry_append _ hx, hloops⟩

theorem runningInv_start (roomCount poolSize acceptCount : Nat) :
    RunningInv (.start roomCount poolSize acceptCount) := by
  refine ⟨fun _ => rfl, ?_, ?_⟩
  · intro x hx
    rcases start_entry hx with ⟨i, rfl⟩ | ⟨a, rfl⟩ <;> rfl
  · intro i hi
    refine ⟨.startJob i, ⟨[.startJob i], ?_, List.mem_singleton_self _⟩, beq_self_eq_true i⟩
    exact List.mem_append_left _ (List.mem_map.mpr ⟨i, List.mem_range.mpr hi, rfl⟩)

/-! ### Nobody is left behind -/

theorem closes_attends (h : x.closes s = true) : x.attends s = true := by
  cases x with
  | effect e =>
    cases e with
    | closeSession s' => exact h
    | _ => contradiction
  | closesocket s' | eraseUserSession s' => exact h
  | _ => contradiction

/-- What an entry for `s` is followed by. -/
inductive HandedOn (c : Choice) (st : Server) (s : Nat) (instr : Instr) : Prop where
  | posts (h : .recv s ∈ (st.exec c instr).1.posted)
  | next {x : Instr} (h : x ∈ (st.exec c instr).2) (hx : x.attends s = true)
  | queues {i : Nat} (hi : i < st.roomCount)
      (h : ⟨.leave, s⟩ ∈ ((st.exec c instr).1.jobQueues i).jobs)
  | beside {x : Instr} (h : Entry st.threads x) (hne : x ≠ instr) (hx : x.attends s = true)

theorem recv_handedOn (requests : List Request) : HandedOn c st s (.recv s requests) := by
  have hself : (s == s) = true := beq_self_eq_true s
  cases requests with
  | nil => exact .next (List.mem_singleton_self _) hself
  | cons request requests =>
    have hexec : (st.exec c (.recv s (request :: requests))).2 =
        st.recv s (request :: requests) := rfl
    rw [Server.recv] at hexec
    split at hexec
    · exact .next (x := .pushLeave s) (by rw [hexec]; exact List.mem_cons_self) hself
    · apply HandedOn.next (x := .recv s requests) _ hself
      rw [hexec]
      split
      · split <;> simp
      · simp

theorem recvStart_handedOn (caller : Caller) : HandedOn c st s (.recvStart s caller) := by
  cases haccepted : st.accepted c s with
  | true =>
    apply HandedOn.posts
    simp [Server.exec, Server.recvStart, haccepted]
  | false =>
    apply HandedOn.next (x := .pushLeave s) _ (beq_self_eq_true s)
    cases caller <;> simp [Server.exec, Server.recvStart, haccepted]

/-- A Leave job that is dispatched closes its session, unless somebody does already. -/
theorem leave_handedOn (hopened : st.Opened s) (i : Nat) (jobs : List Job) (stop : Bool) :
    HandedOn c st s (.dispatch i (⟨.leave, s⟩ :: jobs) stop) := by
  rcases hopened with hconnected | ⟨x, hx, hcloses⟩
  · apply HandedOn.next (x := .effect (.closeSession s)) _ (beq_self_eq_true s)
    simp only [Server.exec, Server.dispatch, Job.dispatch, hconnected]
    apply List.mem_append_left
    unfold Room.leave
    simp only [Bool.true_eq_false, if_false]
    split
    · simp [Server.ofOutcome]
    · split <;> simp [Server.ofOutcome]
  · apply HandedOn.beside hx _ (closes_attends hcloses)
    rintro rfl
    contradiction

theorem exec_handedOn (hserver : ServerInv st) (htouch : TouchInv st) (hleave : LeaveInv st)
    (hentry : Entry st.threads instr) (hfind : st.userSession.find n = some s)
    (hfirst : ∀ a, instr = .acceptRecvStart a s → st.accepted c s = true)
    (herase : instr ≠ .eraseUserSession s) (hattends : instr.attends s = true) :
    HandedOn c st s instr := by
  have hself : (s == s) = true := beq_self_eq_true s
  have hfact := hserver.facts instr hentry
  cases instr with
  | acceptRecvStart a s' =>
    cases beq_iff_eq.mp hattends
    apply HandedOn.posts
    simp [Server.exec, Server.recvStart, hfirst a rfl]
  | recvExecute s' completion =>
    cases beq_iff_eq.mp hattends
    have hrecv : (st.sessions s).recvSession = true := hfact
    cases completion with
    | failed => exact .next (x := .recvStart s .worker) (by simp [Server.exec, hrecv]) hself
    | zero => exact .next (x := .pushLeave s) (by simp [Server.exec, hrecv]) hself
    | data requests => exact .next (x := .recv s requests) (by simp [Server.exec, hrecv]) hself
  | recv s' requests =>
    cases beq_iff_eq.mp hattends
    exact recv_handedOn requests
  | recvStart s' caller =>
    cases beq_iff_eq.mp hattends
    exact recvStart_handedOn caller
  | pushLeave s' =>
    cases beq_iff_eq.mp hattends
    exact .next (List.mem_singleton_self _) (beq_self_eq_true _)
  | pushJobByRooms job index =>
    cases beq_iff_eq.mp hattends
    cases hrange : st.outOfRange index with
    | true => exact .next (x := .closesocket s) (by simp [Server.exec, hrange]) hself
    | false =>
      exact .next (x := .pushJob ⟨.leave, s⟩ index.toNat) (by simp [Server.exec, hrange])
        (beq_self_eq_true _)
  | pushJob job i =>
    cases beq_iff_eq.mp hattends
    exact .queues (htouch.places _ i hentry) (by simp [Server.exec])
  | dispatch i jobs stop =>
    rw [Instr.attends, List.contains_iff_mem] at hattends
    have hopened := hleave.entries _ s hentry (show (Instr.dispatch i jobs stop).Leaves s from
      hattends) n hfind
    cases jobs with
    | nil => contradiction
    | cons job jobs =>
      rcases List.mem_cons.mp hattends with rfl | hmem
      · exact leave_handedOn hopened i jobs stop
      · apply HandedOn.next (x := .dispatch i jobs stop)
        · simp [Server.exec, Server.dispatch]
        · rw [Instr.attends, List.contains_iff_mem]
          exact hmem
  | effect e =>
    cases e with
    | closeSession s' => exact .next (List.mem_singleton_self _) hattends
    | _ => contradiction
  | closesocket s' => exact .next (List.mem_singleton_self _) hattends
  | eraseUserSession s' => exact absurd (congrArg _ (beq_iff_eq.mp hattends)) herase
  | _ => contradiction

theorem exec_keeps_posted {op : Posted} (h : op ∈ st.posted) : op ∈ (st.exec c instr).1.posted := by
  cases instr with
  | acceptEx a s | recvStart s caller | acceptRecvStart a s =>
    simp only [Server.exec, Server.recvStart]
    split
    · exact List.mem_append_left _ h
    · exact h
  | sending s pc =>
    simp only [Server.exec, Server.sending]
    split
    · exact List.mem_append_left _ h
    · exact h
  | rePop | acceptPop a =>
    rcases popSession_cases st with hpop | ⟨s', pool, hpop, _⟩
    · simp only [Server.exec, hpop]
      exact h
    · simp only [Server.exec, hpop]
      exact h
  | effect e => cases e <;> exact h
  | _ =>
    simp only [Server.exec]
    (repeat' split) <;> exact h

/-- A queued job stays queued until the room's thread takes it. -/
theorem exec_keeps_jobs (c : Choice) (st : Server) (instr : Instr) {i : Nat} {job : Job}
    (h : job ∈ (st.jobQueues i).jobs) :
    job ∈ ((st.exec c instr).1.jobQueues i).jobs ∨ instr = .startJob i := by
  cases instr with
  | pushJob job' j =>
    left
    simp only [Server.exec, Function.update_apply]
    split
    · rename_i hij
      subst hij
      exact List.mem_append_left _ h
    · exact h
  | startJob j =>
    by_cases hij : i = j
    · exact .inr (hij ▸ rfl)
    · left
      simp only [Server.exec, Function.update_of_ne hij]
      exact h
  | stopRoom j =>
    left
    simp only [Server.exec, Function.update_apply]
    split
    · rename_i hij
      exact hij ▸ h
    · exact h
  | rePop | acceptPop a =>
    left
    rcases popSession_cases st with hpop | ⟨s', pool, hpop, _⟩
    · simp only [Server.exec, hpop]
      exact h
    · simp only [Server.exec, hpop]
      exact h
  | effect e => cases e <;> exact .inl h
  | _ =>
    left
    simp only [Server.exec]
    (repeat' split) <;> exact h

theorem HandedOn.attended (hrunning : RunningInv st) (h : st.threads[t]? = some (instr :: rest))
    (hhanded : HandedOn c st s instr) : (st.advance t c instr rest).Attended s := by
  cases hhanded with
  | posts hposted => exact .outstanding hposted
  | next hx hattends => exact .processed (next_advance h hx) hattends
  | queues hi hjob =>
    have hruns := runningInv_advance (c := c) hrunning h
    exact .queued (hruns.runs (by rw [advance_roomCount, exec_sizes.1]; exact hi)) hjob
  | beside hx hne hattends =>
    exact .processed ((entry_advance c h hx).resolve_left hne) hattends

theorem attended_advance (hserver : ServerInv st) (hentries : EntryInv st) (htouch : TouchInv st)
    (hleave : LeaveInv st) (hrunning : RunningInv st) (h : st.threads[t]? = some (instr :: rest))
    (hfind : st.userSession.find n = some s)
    (hfind' : (st.advance t c instr rest).userSession.find n = some s)
    (hfirst : ∀ a, instr = .acceptRecvStart a s → st.accepted c s = true)
    (hattended : st.Attended s) : (st.advance t c instr rest).Attended s := by
  have hentry := entry_head h
  cases hattended with
  | outstanding hposted => exact .outstanding (exec_keeps_posted hposted)
  | @processed x hx hattends =>
    rcases entry_advance c h hx with rfl | hx
    · apply HandedOn.attended hrunning h
      apply exec_handedOn hserver htouch hleave hentry hfind hfirst _ hattends
      rintro rfl
      rw [advance_userSession, erased_find hentries hfind] at hfind'
      contradiction
    · exact .processed hx hattends
  | @queued i hi hjob =>
    rcases exec_keeps_jobs c st instr hjob with hstays | rfl
    · have hruns := runningInv_advance (c := c) hrunning h
      exact .queued (hruns.runs (by rw [advance_roomCount, exec_sizes.1]; exact hi.inRange)) hstays
    · apply Server.Attended.processed (x := .dispatch i (st.jobQueues i).jobs (st.jobQueues i).stop)
      · exact next_advance h (List.mem_singleton_self _)
      · rw [Instr.attends, List.contains_iff_mem]
        exact hjob

theorem noOrphan_advance (hserver : ServerInv st) (hentries : EntryInv st) (htouch : TouchInv st)
    (hleave : LeaveInv st) (hrunning : RunningInv st) (hinv : st.NoOrphan)
    (h : st.threads[t]? = some (instr :: rest))
    (hok : firstReceive st (.advance t c) = true) : (st.advance t c instr rest).NoOrphan := by
  intro n s hfind'
  rcases exec_userSession hfind' with hfind | ⟨a, rfl, _⟩
  · apply attended_advance hserver hentries htouch hleave hrunning h hfind hfind' _ (hinv n s hfind)
    rintro a rfl
    have hnumber := (hentries.user n s hfind).1
    simpa [firstReceive, h, hnumber, hfind] using hok
  · exact .processed (next_advance h (List.mem_singleton_self _)) (beq_self_eq_true s)

theorem noOrphan_complete (hinv : st.NoOrphan) (hrunning : RunningInv st) {k : Nat} {op : Posted}
    (h : st.posted[k]? = some op) (completion : Completion) :
    Server.NoOrphan { st with
      posted := st.posted.eraseIdx k
      threads := st.threads ++ [[op.handler completion]] } := by
  intro n s hfind
  cases hinv n s hfind with
  | outstanding hposted =>
    obtain ⟨j, hj⟩ := List.mem_iff_getElem?.mp hposted
    by_cases hjk : j = k
    · subst hjk
      cases Option.some.inj (h.symm.trans hj)
      apply Server.Attended.processed (x := .recvExecute s completion) _ (beq_self_eq_true s)
      exact ⟨[.recvExecute s completion], List.mem_append_right _ (List.mem_singleton_self _),
        List.mem_singleton_self _⟩
    · apply Server.Attended.outstanding
      exact List.mem_eraseIdx_iff_getElem?.mpr ⟨j, hjk, hj⟩
  | processed hx hattends => exact .processed (entry_append _ hx) hattends
  | queued hi hjob =>
    exact .queued ((runningInv_complete hrunning completion).runs hi.inRange) hjob

end

/-- Before the shutdown, when no first receive is refused. -/
theorem no_session_orphaned {st : Server} {roomCount poolSize acceptCount : Nat}
    (h : Reaches serverStep (fun st act => beforeShutdown act = true ∧ firstReceive st act = true)
      (.start roomCount poolSize acceptCount) st) : st.NoOrphan := by
  have hinv : RunningInv st ∧ st.NoOrphan := by
    apply h.invariant (I := fun st => RunningInv st ∧ st.NoOrphan)
      ⟨runningInv_start roomCount poolSize acceptCount, nofun⟩
    intro st act st' hr ⟨hrunning, hinv⟩ hok hstep
    cases act with
    | advance t c =>
      simp only [serverStep] at hstep
      split at hstep
      · rename_i instr rest hthread
        cases hstep
        exact ⟨runningInv_advance hrunning hthread,
          noOrphan_advance (serverInv_reaches hr) (entryInv_reaches hr) (touchInv_reaches hr)
            (leaveInv_reaches hr) hrunning hinv hthread hok.2⟩
      · contradiction
    | complete k completion =>
      obtain ⟨op, hop, rfl⟩ := Option.map_eq_some_iff.mp hstep
      exact ⟨runningInv_complete hrunning completion, noOrphan_complete hinv hrunning hop completion⟩
    | shutdown => exact absurd hok.1 Bool.false_ne_true
  exact hinv.2

/-- A client is accepted and its first receive is posted. -/
def acceptOne : List ServerAct := advances 1 5 ++ [.complete 0 (.data [])] ++ advances 2 3

theorem no_session_orphaned_one :
    ∃ st, run serverStep (.start 1 1 1) acceptOne = some st ∧
      st.userSession.find 100 = some 0 ∧ st.NoOrphan := by
  have h : (run (guarded serverStep fun st act =>
      beforeShutdown act = true ∧ firstReceive st act = true) (.start 1 1 1) acceptOne).any
      (fun st => decide (st.userSession.find 100 = some 0)) = true := by decide +kernel
  obtain ⟨st, hrun, hst⟩ := (Option.any_eq_true _ _).mp h
  exact ⟨st, run_of_guarded _ hrun, of_decide_eq_true hst,
    no_session_orphaned (reaches_of_run _ .start hrun)⟩

/-- The client is accepted, and `WSARecv` refuses the first receive. -/
def refuseFirst : List ServerAct :=
  advances 1 5 ++ [.complete 0 (.data [])] ++ advances 2 2 ++
    [.advance 2 ⟨false, 100, fun _ => true, 0⟩] ++ advances 2 4

theorem refused_first_receive_orphans :
    ∃ st, run serverStep (.start 1 1 1) refuseFirst = some st ∧ ¬ st.NoOrphan := by
  have h : (run serverStep (.start 1 1 1) refuseFirst).any (fun st => decide
      (st.roomCount = 1 ∧ st.userSession.find 100 = some 0 ∧ st.posted.all (· != .recv 0) = true ∧
        st.threads.all (fun thread => thread.all fun x => !x.attends 0) = true ∧
        (st.jobQueues 0).jobs = [])) = true := by decide +kernel
  obtain ⟨st, hrun, hst⟩ := (Option.any_eq_true _ _).mp h
  obtain ⟨hcount, hfind, hposted, hthreads, hjobs⟩ := of_decide_eq_true hst
  refine ⟨st, hrun, ?_⟩
  intro hinv
  cases hinv 100 0 hfind with
  | outstanding hmem =>
    have hne := List.all_eq_true.mp hposted _ hmem
    simp at hne
  | @processed x hx hattends =>
    obtain ⟨thread, hthread, hx⟩ := hx
    have hnone := List.all_eq_true.mp (List.all_eq_true.mp hthreads thread hthread) x hx
    rw [hattends] at hnone
    exact absurd hnone Bool.false_ne_true
  | @queued i hi hjob =>
    have hzero : i = 0 := by
      have hlt := hi.inRange
      omega
    rw [hzero, hjobs] at hjob
    exact absurd hjob List.not_mem_nil

end RoomServer
