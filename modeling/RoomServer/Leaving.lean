import RoomServer.Registered

/-! What a Leave job finds. A worker that reads a room's index for its Leave job reads it
from a session that the room's thread has let in, and the flags of a session in
`m_UserSession` are taken back only by a job that goes on to `CloseSession`. -/
namespace RoomServer
open Library Library.Threads Library.Transition

def Instr.closes (s : Nat) : Instr → Bool
  | .effect (.closeSession s') | .closesocket s' | .eraseUserSession s' => s' == s
  | _ => false

def Server.Opened (st : Server) (s : Nat) : Prop :=
  (st.sessions s).connected = true ∨ ∃ x, Entry st.threads x ∧ x.closes s = true

def Server.OpenIf (st : Server) (s : Nat) : Prop :=
  ∀ n, st.userSession.find n = some s → st.Opened s

def Instr.Leaves (s : Nat) : Instr → Prop
  | .pushJobByRooms job index => job = ⟨.leave, s⟩ ∧ 0 ≤ index
  | .pushJob job _ => job = ⟨.leave, s⟩
  | .dispatch _ jobs _ => ⟨.leave, s⟩ ∈ jobs
  | _ => False

/-- A room's index is set for sessions in `opened` only, and for those connected before. -/
def Lets (opened : Nat → Prop) : List Instr → Prop
  | [] => True
  | instr :: rest =>
    (∀ s roomID, instr = .effect (.setRoomID s roomID) → 0 ≤ roomID → opened s) ∧
      Lets (fun s => opened s ∨ instr = .effect (.connect s)) rest

structure LeaveInv (st : Server) : Prop where
  flags : ∀ s, 0 ≤ (st.sessions s).roomID → st.OpenIf s
  entries : ∀ x s, Entry st.threads x → x.Leaves s → st.OpenIf s
  queued : ∀ i < st.roomCount, ∀ s, ⟨.leave, s⟩ ∈ (st.jobQueues i).jobs → st.OpenIf s
  ends : ∀ s, Entry st.threads (.effect (.disConnected s)) → ∀ n,
    st.userSession.find n = some s → ∃ x, Entry st.threads x ∧ x.closes s = true
  sets : ∀ thread ∈ st.threads, Lets st.OpenIf thread

section
variable {c : Choice} {st : Server} {instr x : Instr} {n s t : Nat} {rest : List Instr}

theorem entry_advance (c : Choice) (h : st.threads[t]? = some (instr :: rest))
    (hx : Entry st.threads x) : x = instr ∨ Entry (st.advance t c instr rest).threads x := by
  obtain ⟨released, hthreads, _⟩ := advance_threads st t c instr rest
  rw [hthreads]
  exact entry_stays _ h hx

theorem next_advance (h : st.threads[t]? = some (instr :: rest)) (hx : x ∈ (st.exec c instr).2) :
    Entry (st.advance t c instr rest).threads x := by
  obtain ⟨released, hthreads, _⟩ := advance_threads st t c instr rest
  rw [hthreads]
  exact entry_next h (List.mem_append_right _ hx)

/-! ### Rooms' indices -/

theorem Lets.weaken {opened opened' : Nat → Prop} {thread : List Instr} (h : Lets opened thread)
    (hweak : ∀ s roomID, .effect (.setRoomID s roomID) ∈ thread → opened s → opened' s) :
    Lets opened' thread := by
  induction thread generalizing opened opened' with
  | nil => trivial
  | cons instr thread ih =>
    constructor
    · intro s roomID hinstr hroomID
      exact hweak s roomID (hinstr ▸ List.mem_cons_self) (h.1 s roomID hinstr hroomID)
    · apply ih h.2
      intro s roomID hmem
      exact Or.imp_left (hweak s roomID (List.mem_cons_of_mem _ hmem))

theorem lets_nil (opened : Nat → Prop) : Lets opened [] := trivial

theorem Lets.cons {opened : Nat → Prop} {instr : Instr} {thread : List Instr}
    (hother : ∀ s roomID, instr ≠ .effect (.setRoomID s roomID))
    (h : Lets (fun s => opened s ∨ instr = .effect (.connect s)) thread) :
    Lets opened (instr :: thread) :=
  ⟨fun s roomID heq => absurd heq (hother s roomID), h⟩

theorem Lets.prepend {opened : Nat → Prop} {next thread : List Instr} (h : Lets opened thread)
    (hnext : ∀ s roomID, .effect (.setRoomID s roomID) ∈ next → roomID < 0) :
    Lets opened (next ++ thread) := by
  induction next generalizing opened with
  | nil => exact h
  | cons instr next ih =>
    constructor
    · intro s roomID hinstr hroomID
      have hneg := hnext s roomID (hinstr ▸ List.mem_cons_self)
      omega
    · apply ih
      · exact h.weaken fun _ _ _ => Or.inl
      · intro s roomID hmem
        exact hnext s roomID (List.mem_cons_of_mem _ hmem)

theorem sendsTo_setRoomID {p : Nat → Prop} {effects : List Effect} (h : SendsTo p effects) {s : Nat}
    {roomID : Int} (hmem : Instr.effect (.setRoomID s roomID) ∈ effects.map Instr.effect) : False := by
  obtain ⟨e, he, heq⟩ := List.mem_map.mp hmem
  cases heq
  obtain ⟨session, sendChunk, hsend, _⟩ := h _ he
  contradiction

theorem Lets.outcome {opened : Nat → Prop} {i : Nat} {job : Job} {o : Outcome} {socket : Nat}
    {isConnected : Bool} {room : Room} {thread : List Instr}
    (ho : JobSpec room job socket isConnected o) (h : Lets opened thread) :
    Lets opened (Server.ofOutcome i o ++ thread) := by
  rw [Server.ofOutcome, List.append_assoc, List.cons_append]
  cases ho with
  | stays members before after =>
    rw [before]
    apply Lets.cons (by simp)
    apply Lets.prepend
    · exact h.weaken fun _ _ _ => Or.inl
    · intro s roomID hmem
      exact (sendsTo_setRoomID after hmem).elim
  | @enters kind fresh absent members before sends after sends_to =>
    rw [before, after]
    apply Lets.cons (by simp)
    apply Lets.cons (by simp)
    constructor
    · intro s roomID heq _
      cases heq
      exact .inr rfl
    · apply Lets.prepend
      · exact h.weaken fun _ _ _ hs => .inl (.inl (.inl hs))
      · intro s roomID hmem
        exact (sendsTo_setRoomID sends_to hmem).elim
  | @leaves kind connected members sends before sends_to after =>
    rw [before, after]
    apply Lets.prepend
    · apply Lets.cons (by simp)
      apply Lets.cons (by simp)
      exact h.weaken fun _ _ _ hs => .inl (.inl hs)
    · intro s roomID hmem
      simp only [List.map_cons, List.mem_cons] at hmem
      rcases hmem with hmem | hmem | hmem
      · cases Instr.effect.inj hmem
      · cases hmem
        omega
      · exact (sendsTo_setRoomID sends_to hmem).elim

theorem exec_lets {opened : Nat → Prop} (h : Lets opened rest) :
    Lets opened ((st.exec c instr).2 ++ rest) := by
  by_cases hjob : ∃ i job jobs stop, instr = .dispatch i (job :: jobs) stop
  · obtain ⟨i, job, jobs, stop, rfl⟩ := hjob
    have hspec := dispatch_spec job (st.rooms i) (st.sessions job.session).socket
      (st.sessions job.session).connected c.made c.nowTick
    simp only [Server.exec, Server.dispatch, List.append_assoc]
    apply Lets.outcome hspec
    apply Lets.cons (by simp)
    apply Lets.cons (by simp)
    exact (h.weaken fun _ _ _ => Or.inl).weaken fun _ _ _ => Or.inl
  · apply h.prepend
    intro s roomID hmem
    exfalso
    cases exec_next hmem with
    | jobEffect => exact hjob ⟨_, _, _, _, rfl⟩
    | tickEffect ho he =>
      rcases List.mem_append.mp he with he | he
      · rw [ho.before] at he
        contradiction
      · obtain ⟨session, sendChunk, hsend, _⟩ := ho.after _ he
        contradiction

/-! ### Sessions that are in a room, or closing -/

theorem closes_next (c : Choice) (st : Server) (h : instr.closes s = true) :
    (∃ x ∈ (st.exec c instr).2, x.closes s = true) ∨ instr = .eraseUserSession s := by
  cases instr with
  | effect e =>
    cases e with
    | closeSession s' =>
      left
      exact ⟨.closesocket s', List.mem_singleton_self _, h⟩
    | _ => contradiction
  | closesocket s' =>
    left
    exact ⟨.eraseUserSession s', List.mem_singleton_self _, h⟩
  | eraseUserSession s' => exact .inr (congrArg _ (beq_iff_eq.mp h))
  | _ => contradiction

theorem erased_find (hentries : EntryInv st) (hfind : st.userSession.find n = some s) :
    (st.exec c (.eraseUserSession s)).1.userSession.find n = none := by
  rw [← (hentries.user n s hfind).1]
  simp [Server.exec, OrderedMap.find_erase]

theorem closing_advance (hentries : EntryInv st) (h : st.threads[t]? = some (instr :: rest))
    (hfind : st.userSession.find n = some s)
    (hfind' : (st.advance t c instr rest).userSession.find n = some s)
    (hclosing : ∃ x, Entry st.threads x ∧ x.closes s = true) :
    ∃ x, Entry (st.advance t c instr rest).threads x ∧ x.closes s = true := by
  obtain ⟨x, hx, hcloses⟩ := hclosing
  rcases entry_advance c h hx with rfl | hx
  · rcases closes_next c st hcloses with ⟨y, hy, hcloses⟩ | rfl
    · exact ⟨y, next_advance h hy, hcloses⟩
    · rw [advance_userSession, erased_find hentries hfind] at hfind'
      contradiction
  · exact ⟨x, hx, hcloses⟩

theorem exec_connected (hserver : ServerInv st) (hentry : Entry st.threads instr)
    (hholds : Holds st s) (hleaver : instr ≠ .effect (.disConnected s))
    (h : (st.sessions s).connected = true) : ((st.exec c instr).1.sessions s).connected = true := by
  have hfree : 0 < instr.returning s → False := fun hpos =>
    free_of_entry hserver hentry hpos hholds
  by_cases heffect : ∃ e, instr = .effect e
  · obtain ⟨e, rfl⟩ := heffect
    cases e with
    | connect s' | disConnected s' | setRoomID s' roomID =>
      simp only [Server.exec, Server.applyEffect, Server.setSession, Function.update_apply]
      split
      · rename_i hs
        subst hs
        first
          | rfl
          | exact h
          | exact absurd rfl hleaver
      · exact h
    | _ => exact h
  · have hstep := exec_session c st instr s
    generalize (st.exec c instr).1.sessions s = session at hstep
    cases hstep with
    | pushSession => exact (hfree (by simp [Instr.returning])).elim
    | poolPush => exact (hfree (by simp [Instr.returning])).elim
    | effect e => exact absurd ⟨e, rfl⟩ heffect
    | _ => exact h

theorem Server.OpenIf.advance (hserver : ServerInv st) (hentries : EntryInv st)
    (hinv : LeaveInv st) (h : st.threads[t]? = some (instr :: rest))
    (hphase : st.phase s = .registered) (hopen : st.OpenIf s) :
    (st.advance t c instr rest).OpenIf s := by
  intro n hfind'
  have hentry := entry_head h
  have hfind : st.userSession.find n = some s := by
    rcases exec_userSession hfind' with hfind | ⟨a, rfl, _⟩
    · exact hfind
    · have hfact := hserver.facts _ hentry
      cases hfact.2.symm.trans hphase
  rcases hopen n hfind with hconnected | hclosing
  · by_cases hleaver : instr = .effect (.disConnected s)
    · subst hleaver
      exact .inr (closing_advance hentries h hfind hfind' (hinv.ends s hentry n hfind))
    · exact .inl (exec_connected hserver hentry (.user hfind) hleaver hconnected)
  · exact .inr (closing_advance hentries h hfind hfind' hclosing)

theorem Instr.Leaves.touches (h : x.Leaves s) : x.Touches s := by
  cases x with
  | pushJobByRooms job index => exact congrArg Job.session h.1
  | pushJob job i => exact congrArg Job.session h
  | dispatch i jobs stop => exact ⟨⟨.leave, s⟩, h, rfl⟩
  | _ => contradiction

theorem recv_leave {requests : List Request} {index : Int}
    (h : .pushJobByRooms ⟨.leave, s⟩ index ∈ st.recv n requests) :
    n = s ∧ index = (st.sessions s).roomID := by
  cases requests with
  | nil => cases List.mem_singleton.mp h
  | cons request requests =>
    rw [Server.recv] at h
    split at h
    · simp at h
    · rename_i packet _
      cases packet with
      | echo text =>
        simp only [ClientPacket.handled] at h
        split at h <;> simp at h
      | leave =>
        simp only [ClientPacket.handled, List.mem_cons, Instr.pushJobByRooms.injEq, Job.mk.injEq,
          reduceCtorEq, List.not_mem_nil, or_false, true_and] at h
        obtain ⟨rfl, rfl⟩ := h
        exact ⟨rfl, rfl⟩
      | _ => simp [ClientPacket.handled] at h

theorem next_leaves (hinv : LeaveInv st) (hentry : Entry st.threads instr)
    (hroom : ∀ i, instr.room? = some i → i < st.roomCount) (hx : x ∈ (st.exec c instr).2)
    (hleaves : x.Leaves s) : instr.Touches s ∧ st.OpenIf s ∨ ∃ i < st.roomCount,
      instr = .startJob i ∧ ⟨.leave, s⟩ ∈ (st.jobQueues i).jobs := by
  cases exec_next hx with
  | @request s' requests job index hsession =>
    obtain ⟨rfl, hindex⟩ := hleaves
    obtain ⟨rfl, rfl⟩ := recv_leave hx
    exact .inl ⟨rfl, hinv.flags _ hindex⟩
  | leaveJob s' =>
    obtain ⟨heq, hindex⟩ := hleaves
    cases heq
    exact .inl ⟨rfl, hinv.flags _ hindex⟩
  | @pushJob job index hrange =>
    have hindex : 0 ≤ index := by
      simp only [Server.outOfRange, Bool.or_eq_false_iff, decide_eq_false_iff_not] at hrange
      omega
    have hold : (Instr.pushJobByRooms job index).Leaves s := ⟨hleaves, hindex⟩
    exact .inl ⟨hold.touches, hinv.entries _ s hentry hold⟩
  | dispatch i => exact .inr ⟨i, hroom i rfl, rfl, hleaves⟩
  | dispatchRest i job jobs stop =>
    have hold : (Instr.dispatch i (job :: jobs) stop).Leaves s := List.mem_cons_of_mem _ hleaves
    exact .inl ⟨hold.touches, hinv.entries _ s hentry hold⟩
  | _ => contradiction

theorem exec_roomID (c : Choice) (st : Server) (instr : Instr) (s : Nat) :
    ((st.exec c instr).1.sessions s).roomID = (st.sessions s).roomID ∨
      ((st.exec c instr).1.sessions s).roomID = -1 ∨
      instr = .effect (.setRoomID s ((st.exec c instr).1.sessions s).roomID) := by
  by_cases heffect : ∃ e, instr = .effect e
  · obtain ⟨e, rfl⟩ := heffect
    cases e with
    | connect s' | disConnected s' | setRoomID s' roomID =>
      simp only [Server.exec, Server.applyEffect, Server.setSession, Function.update_apply]
      split
      · rename_i hs
        subst hs
        first
          | exact .inl rfl
          | exact .inr (.inr rfl)
      · exact .inl rfl
    | _ => exact .inl rfl
  · have hstep := exec_session c st instr s
    generalize (st.exec c instr).1.sessions s = session at hstep
    cases hstep with
    | pushSession => exact .inr (.inl rfl)
    | poolPush => exact .inr (.inl rfl)
    | effect e => exact absurd ⟨e, rfl⟩ heffect
    | _ => exact .inl rfl

/-- A job that takes its session's flags back goes on to `CloseSession`. -/
theorem next_ends (hx : .effect (.disConnected s) ∈ (st.exec c instr).2) :
    .effect (.closeSession s) ∈ (st.exec c instr).2 := by
  by_cases hjob : ∃ i job jobs stop, instr = .dispatch i (job :: jobs) stop
  · obtain ⟨i, job, jobs, stop, rfl⟩ := hjob
    have hspec := dispatch_spec job (st.rooms i) (st.sessions job.session).socket
      (st.sessions job.session).connected c.made c.nowTick
    simp only [Server.exec, Server.dispatch] at hx ⊢
    generalize job.dispatch (st.rooms i) (st.sessions job.session).socket
      (st.sessions job.session).connected c.made c.nowTick = o at hx hspec
    have hmem : Effect.disConnected s ∈ o.effects := by
      rcases List.mem_append.mp hx with hx | hx
      · rcases mem_outcome hx with ⟨e, he, heq⟩ | heq
        · cases heq
          exact he
        · contradiction
      · simp at hx
    have hsends {p : Nat → Prop} {effects : List Effect} (h : SendsTo p effects) :
        Effect.disConnected s ∉ effects := by
      intro he
      obtain ⟨session, sendChunk, heq, _⟩ := h _ he
      contradiction
    rw [Outcome.effects] at hmem
    cases hspec with
    | stays members before after =>
      rw [before, List.nil_append] at hmem
      exact absurd hmem (hsends after)
    | enters kind fresh absent members before after sends_to =>
      rw [before, after] at hmem
      simp only [List.nil_append, List.mem_cons, reduceCtorEq, false_or] at hmem
      exact absurd hmem (hsends sends_to)
    | leaves kind connected members before sends_to after =>
      rw [before, after] at hmem
      simp only [List.cons_append, List.mem_cons, List.mem_append, reduceCtorEq, List.not_mem_nil,
        or_false, false_or, Effect.disConnected.injEq] at hmem
      rcases hmem with rfl | hmem
      · simp [Server.ofOutcome, after]
      · exact absurd hmem (hsends sends_to)
  · exfalso
    cases exec_next hx with
    | jobEffect => exact hjob ⟨_, _, _, _, rfl⟩
    | tickEffect ho he =>
      rcases List.mem_append.mp he with he | he
      · rw [ho.before] at he
        contradiction
      · obtain ⟨session, sendChunk, hsend, _⟩ := ho.after _ he
        contradiction

theorem leaveInv_advance (hserver : ServerInv st) (hentries : EntryInv st) (htouch : TouchInv st)
    (hinv : LeaveInv st) (h : st.threads[t]? = some (instr :: rest)) :
    LeaveInv (st.advance t c instr rest) := by
  have hentry := entry_head h
  have hthread := List.mem_of_getElem? h
  have hstays {x : Instr} {s : Nat} (hx : Entry st.threads x) (hs : x.Touches s)
      (hopen : st.OpenIf s) : (st.advance t c instr rest).OpenIf s :=
    hopen.advance hserver hentries hinv h (htouch.entries x s hx hs)
  refine ⟨?_, ?_, ?_, ?_, ?_⟩
  · intro s hroomID
    rw [advance_sessions] at hroomID
    rcases exec_roomID c st instr s with hsame | hnone | hset
    · rw [hsame] at hroomID
      have hphase : st.phase s = .registered := by
        by_contra hne
        have hidle := (htouch.idle s hne).1
        omega
      exact (hinv.flags s hroomID).advance hserver hentries hinv h hphase
    · omega
    · apply hstays hentry (s := s)
      · rw [hset]
        rfl
      · exact (hinv.sets _ hthread).1 s _ hset hroomID
  · intro x s hx hleaves
    rcases advance_entry h hx with ⟨s', rfl⟩ | hnew | hx
    · contradiction
    · rcases next_leaves hinv hentry (hserver.room_lt h) hnew hleaves with ⟨hs, hopen⟩ | ⟨i, hi, rfl, hjob⟩
      · exact hstays hentry hs hopen
      · exact (hinv.queued i hi s hjob).advance hserver hentries hinv h (htouch.jobs i hi _ hjob)
    · exact hstays hx.entry hleaves.touches (hinv.entries x s hx.entry hleaves)
  · intro i hi s hjob
    rw [advance_roomCount, exec_sizes.1] at hi
    rcases exec_jobs hjob with hold | rfl
    · exact (hinv.queued i hi s hold).advance hserver hentries hinv h (htouch.jobs i hi _ hold)
    · exact hstays hentry rfl (hinv.entries _ s hentry rfl)
  · intro s hx n hfind'
    have hold : Entry st.threads (.effect (.disConnected s)) →
        ∃ x, Entry (st.advance t c instr rest).threads x ∧ x.closes s = true := by
      intro hx
      have hphase := htouch.entries _ s hx rfl
      rcases exec_userSession hfind' with hfind | ⟨a, rfl, _⟩
      · exact closing_advance hentries h hfind hfind' (hinv.ends s hx n hfind)
      · have hfact := hserver.facts _ hentry
        cases hfact.2.symm.trans hphase
    rcases advance_entry h hx with ⟨s', hs'⟩ | hx | hx
    · contradiction
    · exact ⟨_, next_advance h (next_ends hx), beq_self_eq_true s⟩
    · exact hold hx.entry
  · intro thread hmem
    obtain ⟨released, hthreads, hreleased⟩ := advance_threads st t c instr rest
    rw [hthreads] at hmem
    rcases List.mem_or_eq_of_mem_set hmem with hmem | rfl
    · apply (hinv.sets thread hmem).weaken
      intro s roomID hset hopen
      exact hstays ⟨thread, hmem, hset⟩ rfl hopen
    · rw [List.append_assoc]
      apply Lets.prepend
      · apply exec_lets
        apply (hinv.sets _ hthread).2.weaken
        intro s roomID hset hopen
        rcases hopen with hopen | rfl
        · exact hstays ⟨_, hthread, List.mem_cons_of_mem _ hset⟩ rfl hopen
        · -- the Enter job has just connected the session
          intro n _
          left
          simp [Server.exec, Server.applyEffect, Server.setSession]
      · intro s roomID hset
        obtain ⟨s', hs'⟩ := hreleased _ hset
        contradiction

theorem Spawned.outside (h : Spawned st x) :
    (∀ s, ¬ x.Leaves s) ∧ ∀ e, x ≠ .effect e := by
  cases h with
  | @handler op hop completion => cases op <;> cases completion <;> exact ⟨fun _ => id, fun _ => nofun⟩
  | _ => exact ⟨fun _ => id, fun _ => nofun⟩

theorem entry_append {threads : List (List Instr)} (thread : List Instr) (h : Entry threads x) :
    Entry (threads ++ [thread]) x := by
  obtain ⟨thread', hthread', hx⟩ := h
  exact ⟨thread', List.mem_append_left _ hthread', hx⟩

theorem leaveInv_spawn (hinv : LeaveInv st) {posted : List Posted} {thread : List Instr}
    (hthread : ∀ x ∈ thread, Spawned st x) :
    LeaveInv { st with posted := posted, threads := st.threads ++ [thread] } := by
  have hstays {s : Nat} (hopen : st.OpenIf s) :
      Server.OpenIf { st with posted := posted, threads := st.threads ++ [thread] } s := by
    intro n hfind
    apply (hopen n hfind).imp_right
    rintro ⟨x, hx, hcloses⟩
    exact ⟨x, entry_append thread hx, hcloses⟩
  refine ⟨fun s hroomID => hstays (hinv.flags s hroomID), ?_,
    fun i hi s hjob => hstays (hinv.queued i hi s hjob), ?_, ?_⟩
  · intro x s hx hleaves
    rcases entry_spawn hx with hx | hx
    · exact hstays (hinv.entries x s hx hleaves)
    · exact absurd hleaves ((hthread x hx).outside.1 s)
  · intro s hx n hfind
    rcases entry_spawn hx with hx | hx
    · obtain ⟨y, hy, hcloses⟩ := hinv.ends s hx n hfind
      exact ⟨y, entry_append thread hy, hcloses⟩
    · exact absurd rfl ((hthread _ hx).outside.2 _)
  · intro thread' hmem
    rcases List.mem_append.mp hmem with hmem | hmem
    · exact (hinv.sets thread' hmem).weaken fun s _ _ => hstays
    · cases List.mem_singleton.mp hmem
      rw [← List.append_nil thread]
      apply (lets_nil _).prepend
      intro s roomID hset
      exact absurd rfl ((hthread _ hset).outside.2 _)

theorem leaveInv_start (roomCount poolSize acceptCount : Nat) :
    LeaveInv (.start roomCount poolSize acceptCount) := by
  refine ⟨?_, ?_, ?_, ?_, ?_⟩
  · intro s hroomID n hfind
    contradiction
  · intro x s hx hleaves n hfind
    contradiction
  · intro i _ s hjob
    contradiction
  · intro s hx n hfind
    contradiction
  · intro thread hthread
    rw [← List.append_nil thread]
    apply (lets_nil _).prepend
    intro s roomID hset
    rcases start_entry ⟨thread, hthread, hset⟩ with ⟨i, hi⟩ | ⟨a, ha⟩ <;> contradiction

theorem leaveInv_reaches {ok : Server → ServerAct → Prop} {roomCount poolSize acceptCount : Nat}
    (h : Reaches serverStep ok (.start roomCount poolSize acceptCount) st) : LeaveInv st := by
  apply h.invariant (leaveInv_start roomCount poolSize acceptCount)
  intro st act st' hr hinv _ hstep
  cases steps_of_step hstep with
  | advance c hthread =>
    exact leaveInv_advance (serverInv_reaches hr) (entryInv_reaches hr) (touchInv_reaches hr) hinv
      hthread
  | spawn act hposted hthread => exact leaveInv_spawn hinv hthread

end
end RoomServer
