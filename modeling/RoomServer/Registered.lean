import RoomServer.SocketNumbers

/-! Nothing is under way for a session before it is in `m_UserSession`. What is
posted, queued or still to be done for a session, and every place in a room, is
one of a session that was accepted and has not gone back to the pool. -/
namespace RoomServer
open Library Library.Threads Library.Transition

/-- The entry is about `s` as a client's session. -/
def Instr.Touches (s : Nat) : Instr → Prop
  | .acceptRecvStart _ s' | .recvExecute s' _ | .recv s' _ | .recvStart s' _ | .releaseSession s'
  | .pushLeave s' | .closesocket s' | .eraseUserSession s' | .sendExecute s' _
  | .sending s' _ => s' = s
  | .pushJobByRooms job _ | .pushJob job _ => job.session = s
  | .dispatch _ jobs _ => ∃ job ∈ jobs, job.session = s
  | .effect e => e.session = s
  | .store _ room => room.Has s
  | _ => False

structure TouchInv (st : Server) : Prop where
  entries : ∀ x s, Entry st.threads x → x.Touches s → st.phase s = .registered
  posted : ∀ s, .recv s ∈ st.posted ∨ .send s ∈ st.posted → st.phase s = .registered
  jobs : ∀ i < st.roomCount, ∀ job ∈ (st.jobQueues i).jobs, st.phase job.session = .registered
  members : ∀ i < st.roomCount, ∀ s, (st.rooms i).Has s → st.phase s = .registered
  places : ∀ job i, Entry st.threads (.pushJob job i) → i < st.roomCount
  pooled : ∀ s, s ∈ st.pool.pools ∨ Entry st.threads (.poolPush s) → st.phase s ≠ .registered
  idle : ∀ s, st.phase s ≠ .registered →
    (st.sessions s).roomID = -1 ∧ (st.sessions s).connected = false

section
variable {c : Choice} {st : Server} {instr x : Instr} {s t : Nat} {rest : List Instr}

theorem touches_holds (hserver : ServerInv st) (h : Entry st.threads x) (hx : x.Touches s) :
    Holds st s := by
  have hfact := hserver.facts x h
  have hneeds : x.Needs s → Holds st s := needs_holds hserver h
  cases x with
  | acceptRecvStart a s' =>
    cases hx
    exact accepting_holds hfact.1
  | recvExecute s' completion =>
    cases hx
    exact .recv hfact
  | sendExecute s' transferred =>
    cases hx
    exact .send hfact
  | dispatch i jobs stop =>
    obtain ⟨job, hjob, hs⟩ := hx
    exact .entry h (List.countP_pos_iff.mpr ⟨job, hjob, decide_eq_true hs⟩)
  | recv | recvStart | releaseSession | pushLeave | closesocket | eraseUserSession | sending
  | pushJobByRooms | pushJob | effect | store => exact hneeds hx
  | _ => contradiction

/-- What comes next is about sessions that were registered, or it is the start of one. -/
theorem next_touches (hserver : ServerInv st) (hentries : EntryInv st) (hinv : TouchInv st)
    (hentry : Entry st.threads instr)
    (hroom : ∀ i, instr.room? = some i → i < st.roomCount) (h : Next c st instr x)
    (hx : x.Touches s) :
    Holds st s ∧ st.phase s = .registered ∨ ∃ a, instr = .acceptInsert a s := by
  have hsame : instr.Touches s → Holds st s ∧ st.phase s = .registered ∨
      ∃ a, instr = .acceptInsert a s :=
    fun hs => .inl ⟨touches_holds hserver hentry hs, hinv.entries _ s hentry hs⟩
  have hmember : ∀ i, instr.room? = some i → (st.rooms i).Has s →
      Holds st s ∧ st.phase s = .registered ∨ ∃ a, instr = .acceptInsert a s := fun i hi hhas =>
    .inl ⟨.member (hroom i hi) hhas, hinv.members i (hroom i hi) s hhas⟩
  cases h with
  | acceptRecvStart a s' => exact .inr ⟨a, hx ▸ rfl⟩
  | recvWorker | zeroLeave | zeroRelease | recv | recvStart | rejectLeave | rejectRelease | reply
  | recvRest | startLeave | startRelease | leaveJob | outOfRange | pushJob | eraseUserSession
  | sendFailed | sendExecute | sendLeave | sending | insertSendQueue | closeSession =>
    exact hsame hx
  | request s' requests index hsession => exact hsame (hsession.symm.trans hx)
  | dispatch i =>
    obtain ⟨job, hjob, rfl⟩ := hx
    exact .inl ⟨.job (hroom i rfl) hjob rfl, hinv.jobs i (hroom i rfl) job hjob⟩
  | @jobEffect i job jobs stop o ho e he =>
    have hjob : job.session = s → Holds st s ∧ st.phase s = .registered ∨
        ∃ a, Instr.dispatch i (job :: jobs) stop = .acceptInsert a s :=
      fun hs => hsame ⟨job, List.mem_cons_self, hs⟩
    cases hx
    rcases List.mem_append.mp he with he | he
    · rcases ho.before_session he with hs | hs
      · exact hjob hs.symm
      · exact hmember i rfl hs
    · rcases ho.after_session he with hs | hs
      · exact hjob hs.symm
      · rcases ho.has hs with hs | hs
        · exact hjob hs.symm
        · exact hmember i rfl hs
  | @jobStore i job jobs stop o ho =>
    rcases ho.has hx with rfl | hs
    · exact hsame ⟨job, List.mem_cons_self, rfl⟩
    · exact hmember i rfl hs
  | dispatchRest i job jobs stop =>
    obtain ⟨job', hjob', hs⟩ := hx
    exact hsame ⟨job', List.mem_cons_of_mem _ hjob', hs⟩
  | @tickEffect i stop o ho e he =>
    cases hx
    rcases List.mem_append.mp he with he | he
    · rw [ho.before] at he
      contradiction
    · exact hmember i rfl (ho.after.session he)
  | @tickStore i stop o ho =>
    apply hmember i rfl
    rwa [Instr.Touches, Room.Has, ho.members] at hx
  | snapshotClose hfind =>
    cases hx
    exact .inl ⟨.user hfind, (hentries.user _ s hfind).2⟩
  | _ => contradiction

theorem registered_held (hserver : ServerInv st) (hentry : Entry st.threads instr)
    (h : Holds st s ∧ st.phase s = .registered) : (st.exec c instr).1.phase s = .registered :=
  (registered_stays hserver hentry h.1 h.2).2

theorem acceptInsert_phase (a : Nat) : (st.exec c (.acceptInsert a s)).1.phase s = .registered :=
  Function.update_self ..

theorem touchInv_entries (hserver : ServerInv st) (hentries : EntryInv st) (hinv : TouchInv st)
    (h : st.threads[t]? = some (instr :: rest)) (x : Instr) (s : Nat)
    (hx : Entry (st.advance t c instr rest).threads x) (htouch : x.Touches s) :
    (st.advance t c instr rest).phase s = .registered := by
  have hentry := entry_head h
  rcases advance_entry h hx with ⟨s', rfl⟩ | hx | hx
  · contradiction
  · rcases next_touches hserver hentries hinv hentry (hserver.room_lt h) (exec_next hx)
      htouch with hs | ⟨a, rfl⟩
    · exact registered_held hserver hentry hs
    · exact acceptInsert_phase (c := c) a
  · exact registered_held hserver hentry
      ⟨touches_holds hserver hx.entry htouch, hinv.entries x s hx.entry htouch⟩

theorem touchInv_posted (hserver : ServerInv st) (hinv : TouchInv st)
    (hentry : Entry st.threads instr) (s : Nat)
    (h : .recv s ∈ (st.exec c instr).1.posted ∨ .send s ∈ (st.exec c instr).1.posted) :
    (st.exec c instr).1.phase s = .registered := by
  have htouch : instr.Touches s → (st.exec c instr).1.phase s = .registered := fun hs =>
    registered_held hserver hentry
      ⟨touches_holds hserver hentry hs, hinv.entries instr s hentry hs⟩
  rcases h with h | h
  · rcases exec_posted h with hop | hposts
    · exact registered_held hserver hentry ⟨.recv (hserver.posted _ hop), hinv.posted s (.inl hop)⟩
    · cases hposts with
      | recvStart => exact htouch rfl
      | acceptRecvStart => exact htouch rfl
  · rcases exec_posted h with hop | hposts
    · exact registered_held hserver hentry ⟨.send (hserver.posted _ hop), hinv.posted s (.inr hop)⟩
    · cases hposts with
      | send => exact htouch rfl

theorem touchInv_pooled (hserver : ServerInv st) (hinv : TouchInv st)
    (hentry : Entry st.threads instr)
    (hs : s ∈ st.pool.pools ∨ Entry st.threads (.poolPush s)) :
    (st.exec c instr).1.phase s ≠ .registered := by
  have hfree : ¬ Holds st s := by
    rcases hs with hmem | hpush
    · exact mem_free hserver hmem
    · exact free_of_entry hserver hpush (by simp [Instr.returning])
  have hstep := exec_phase c st instr s
  generalize (st.exec c instr).1.phase s = phase at hstep
  cases hstep with
  | same => exact hinv.pooled s hs
  | acceptInsert a =>
    have hfact := hserver.facts _ hentry
    exact absurd (accepting_holds hfact.1) hfree
  | _ => simp

theorem touchInv_idle (hserver : ServerInv st) (hinv : TouchInv st)
    (hentry : Entry st.threads instr) (s : Nat) (h : (st.exec c instr).1.phase s ≠ .registered) :
    ((st.exec c instr).1.sessions s).roomID = -1 ∧
      ((st.exec c instr).1.sessions s).connected = false := by
  by_cases hphase : st.phase s = .registered
  · -- only `PushSession` takes a session out, and it resets it
    have hstep := exec_phase c st instr s
    generalize hnext : (st.exec c instr).1.phase s = phase at h hstep
    cases hstep with
    | same => contradiction
    | pushSession =>
      simp [Server.exec, Server.setSession, Session.reset]
    | popped hpops => exact absurd hphase (hinv.pooled s (.inl (pops_mem hpops)))
    | error haccepting =>
      have hfact := hserver.facts _ hentry s haccepting
      rw [hphase] at hfact
      contradiction
    | acceptInsert => contradiction
  · have hidle := hinv.idle s hphase
    have hstep := exec_session c st instr s
    generalize (st.exec c instr).1.sessions s = session at hstep
    cases hstep with
    | pushSession => exact ⟨rfl, rfl⟩
    | poolPush => exact ⟨rfl, rfl⟩
    | effect e connected roomID he => exact absurd (hinv.entries _ s hentry he) hphase
    | _ => exact hidle

theorem touchInv_advance (hserver : ServerInv st) (hentries : EntryInv st) (hinv : TouchInv st)
    (h : st.threads[t]? = some (instr :: rest)) : TouchInv (st.advance t c instr rest) := by
  have hentry := entry_head h
  have htouch : ∀ s, instr.Touches s → (st.exec c instr).1.phase s = .registered := fun s hs =>
    registered_held hserver hentry
      ⟨touches_holds hserver hentry hs, hinv.entries instr s hentry hs⟩
  refine ⟨touchInv_entries hserver hentries hinv h, touchInv_posted hserver hinv hentry, ?_, ?_, ?_,
    ?_, touchInv_idle hserver hinv hentry⟩
  · intro i hi job hjob
    rw [advance_roomCount, exec_sizes.1] at hi
    rcases exec_jobs hjob with hold | rfl
    · exact registered_held hserver hentry ⟨.job hi hold rfl, hinv.jobs i hi job hold⟩
    · exact htouch _ rfl
  · intro i hi s hs
    rw [advance_roomCount, exec_sizes.1] at hi
    rw [advance_rooms] at hs
    by_cases hstore : ∃ room, instr = .store i room
    · obtain ⟨room, rfl⟩ := hstore
      simp only [Server.exec, Function.update_self] at hs
      exact htouch s hs
    · rw [exec_rooms fun room hroom => hstore ⟨room, hroom⟩] at hs
      exact registered_held hserver hentry ⟨.member hi hs, hinv.members i hi s hs⟩
  · intro job i hx
    rw [advance_roomCount, exec_sizes.1]
    rcases advance_entry h hx with ⟨s, hs⟩ | hx | hx
    · contradiction
    · cases exec_next hx with
      | @pushJob _ index hrange =>
        simp only [Server.outOfRange, Bool.or_eq_false_iff, decide_eq_false_iff_not] at hrange
        omega
    · exact hinv.places job i hx.entry
  · intro s hs
    rcases hs with hmem | hx
    · rcases exec_pool hmem with hmem | ⟨rfl, _⟩
      · exact touchInv_pooled hserver hinv hentry (.inl hmem)
      · exact touchInv_pooled (c := c) hserver hinv hentry (.inr hentry)
    · rcases advance_entry h hx with ⟨s', hs'⟩ | hx | hx
      · contradiction
      · cases exec_next hx with
        | poolPush =>
          have hphase : (st.exec c (.pushSession s)).1.phase s = .pooled := Function.update_self ..
          rw [advance_phase, hphase]
          simp
      · exact touchInv_pooled hserver hinv hentry (.inr hx.entry)

theorem Spawned.touches (hinv : TouchInv st) (h : Spawned st x) (hx : x.Touches s) :
    st.phase s = .registered := by
  cases h with
  | @handler op hop completion =>
    cases op with
    | accept a s' => cases completion <;> contradiction
    | recv s' =>
      cases hx
      exact hinv.posted s (.inl hop)
    | send s' =>
      cases completion <;> cases hx <;> exact hinv.posted s (.inr hop)
  | _ => contradiction

theorem Spawned.plain (h : Spawned st x) :
    (∀ job i, x ≠ .pushJob job i) ∧ ∀ s, x ≠ .poolPush s := by
  cases h with
  | @handler op hop completion =>
    cases op <;> cases completion <;> exact ⟨fun _ _ => nofun, fun _ => nofun⟩
  | _ => exact ⟨fun _ _ => nofun, fun _ => nofun⟩

theorem entry_spawn {threads : List (List Instr)} {thread : List Instr}
    (h : Entry (threads ++ [thread]) x) : Entry threads x ∨ x ∈ thread := by
  obtain ⟨thread', hthread', hx⟩ := h
  rcases List.mem_append.mp hthread' with hthread' | hthread'
  · exact .inl ⟨thread', hthread', hx⟩
  · cases List.mem_singleton.mp hthread'
    exact .inr hx

theorem touchInv_spawn (hinv : TouchInv st) {posted : List Posted} {thread : List Instr}
    (hposted : ∀ op ∈ posted, op ∈ st.posted) (hthread : ∀ x ∈ thread, Spawned st x) :
    TouchInv { st with posted := posted, threads := st.threads ++ [thread] } := by
  refine ⟨?_, ?_, hinv.jobs, hinv.members, ?_, ?_, hinv.idle⟩
  · intro x s hx htouch
    rcases entry_spawn hx with hx | hx
    · exact hinv.entries x s hx htouch
    · have hphase : st.phase s = .registered := (hthread x hx).touches hinv htouch
      exact hphase
  · intro s hs
    exact hinv.posted s (hs.imp (hposted _) (hposted _))
  · intro job i hx
    rcases entry_spawn hx with hx | hx
    · exact hinv.places job i hx
    · exact absurd rfl ((hthread _ hx).plain.1 job i)
  · intro s hs
    apply hinv.pooled s
    apply hs.imp_right
    intro hx
    rcases entry_spawn hx with hx | hx
    · exact hx
    · exact absurd rfl ((hthread _ hx).plain.2 s)

theorem touchInv_step {act : ServerAct} {st' : Server} (hserver : ServerInv st)
    (hentries : EntryInv st) (hinv : TouchInv st) (h : serverStep st act = some st') :
    TouchInv st' := by
  cases steps_of_step h with
  | advance c hthread => exact touchInv_advance hserver hentries hinv hthread
  | spawn act hposted hthread => exact touchInv_spawn hinv hposted hthread

theorem touchInv_start (roomCount poolSize acceptCount : Nat) :
    TouchInv (.start roomCount poolSize acceptCount) := by
  refine ⟨?_, ?_, ?_, ?_, ?_, fun _ _ => nofun, fun _ _ => ⟨rfl, rfl⟩⟩
  · intro x s hx htouch
    rcases start_entry hx with ⟨i, rfl⟩ | ⟨a, rfl⟩ <;> contradiction
  · intro s hs
    rcases hs with hs | hs <;> contradiction
  · intro i _ job hjob
    contradiction
  · rintro i _ s ⟨n, hn⟩
    contradiction
  · intro job i hx
    rcases start_entry hx with ⟨j, hj⟩ | ⟨a, ha⟩ <;> contradiction

theorem entryInv_reaches {ok : Server → ServerAct → Prop} {roomCount poolSize acceptCount : Nat}
    (h : Reaches serverStep ok (.start roomCount poolSize acceptCount) st) : EntryInv st := by
  apply h.invariant (entryInv_start roomCount poolSize acceptCount)
  intro st act st' hr hinv _ hstep
  exact entryInv_step (serverInv_reaches hr) hinv hstep

theorem touchInv_reaches {ok : Server → ServerAct → Prop} {roomCount poolSize acceptCount : Nat}
    (h : Reaches serverStep ok (.start roomCount poolSize acceptCount) st) : TouchInv st := by
  apply h.invariant (touchInv_start roomCount poolSize acceptCount)
  intro st act st' hr hinv _ hstep
  exact touchInv_step (serverInv_reaches hr) (entryInv_reaches hr) hinv hstep

end
end RoomServer
