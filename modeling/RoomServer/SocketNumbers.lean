import RoomServer.Crossing

/-! Whose socket a number stands for. `CloseSession` leaves `m_Socket` as it is, and
the number may be given to the next `MakeSocket` while late completions, jobs and
members still have the old session. As long as nothing is called on a number that
was closed and given out again, each number stands for the session that got it. -/
namespace RoomServer
open Library Library.Threads Library.Transition

/-- The socket of `s` was closed, and its number is open again. -/
def Server.reused (st : Server) (s : Nat) : Bool :=
  st.closed s && (st.sockets (st.sessions s).socket).isSome

/-- `CloseSession` and `Error` do not call `closesocket` on a number given out again. -/
def noReusedClose (st : Server) : ServerAct → Bool
  | .advance t _ =>
    match st.threads[t]? with
    | some (.closesocket s :: _) => !st.reused s
    | some (.error a :: _) => (st.accepting a).all fun s => !st.reused s
    | _ => true
  | _ => true

structure NumberInv (st : Server) : Prop where
  invalid : st.sockets INVALID_SOCKET = none
  free : ∀ s ∈ st.pool.pools, (st.sessions s).socket = INVALID_SOCKET
  own : ∀ s, st.closed s = false → (st.sessions s).socket ≠ INVALID_SOCKET →
    st.sockets (st.sessions s).socket = some s

section
variable {c : Choice} {st : Server} {instr : Instr} {s t : Nat} {rest : List Instr}

theorem pops_mem (h : st.Pops s instr) : s ∈ st.pool.pools := by
  obtain ⟨_, pool, _, hpools⟩ := pops_cases h
  rw [hpools]
  exact List.mem_cons_self

theorem mem_free (hserver : ServerInv st) (h : s ∈ st.pool.pools) : ¬ Holds st s := by
  have hpos := List.count_pos_iff.mpr h
  exact free_of_returning hserver (by omega)

/-- Whoever closes a number closes its own, or one that is not open. -/
theorem closes_own (hinv : NumberInv st) (hreused : st.reused s = false) :
    st.sockets (st.sessions s).socket = none ∨ st.sockets (st.sessions s).socket = some s := by
  cases hclosed : st.closed s with
  | true =>
    left
    simpa [Server.reused, hclosed] using hreused
  | false =>
    by_cases hsocket : (st.sessions s).socket = INVALID_SOCKET
    · rw [hsocket]
      exact .inl hinv.invalid
    · exact .inr (hinv.own s hclosed hsocket)

theorem numberInv_free (hserver : ServerInv st) (hinv : NumberInv st)
    (hentry : Entry st.threads instr) (h : s ∈ (st.exec c instr).1.pool.pools) :
    ((st.exec c instr).1.sessions s).socket = INVALID_SOCKET := by
  rcases exec_pool h with hmem | ⟨_, _, hsocket⟩
  · have hmake : ∀ a, instr ≠ .makeSocket a s := by
      rintro a rfl
      exact mem_free hserver hmem (needs_holds hserver hentry rfl)
    rcases exec_socket c st hmake with hsame | ⟨_, hsocket⟩
    · rw [hsame]
      exact hinv.free s hmem
    · exact hsocket
  · exact hsocket

theorem numberInv_makeSocket (hinv : NumberInv st) (c : Choice) (a s : Nat) :
    (st.exec c (.makeSocket a s)).1.sockets INVALID_SOCKET = none ∧
      ∀ u, (st.exec c (.makeSocket a s)).1.closed u = false →
        ((st.exec c (.makeSocket a s)).1.sessions u).socket ≠ INVALID_SOCKET →
        (st.exec c (.makeSocket a s)).1.sockets
          ((st.exec c (.makeSocket a s)).1.sessions u).socket = some u := by
  simp only [Server.exec, Server.setSession]
  cases hmade : decide (c.socket < INVALID_SOCKET) && (st.sockets c.socket).isNone with
  | false =>
    simp only [Bool.false_eq_true, if_false]
    refine ⟨hinv.invalid, ?_⟩
    intro u hclosed
    by_cases hu : u = s
    · subst hu
      simp
    · rw [Function.update_of_ne hu]
      exact hinv.own u hclosed
  | true =>
    simp only [Bool.and_eq_true, decide_eq_true_eq, Option.isNone_iff_eq_none] at hmade
    simp only [if_true]
    constructor
    · rw [Function.update_of_ne (Nat.ne_of_gt hmade.1)]
      exact hinv.invalid
    · intro u hclosed
      by_cases hu : u = s
      · subst hu
        simp
      · rw [Function.update_of_ne hu]
        intro hne
        have hown := hinv.own u hclosed hne
        rw [Function.update_of_ne]
        · exact hown
        · intro hnumber
          rw [hnumber, hmade.2] at hown
          contradiction

theorem numberInv_exec (hinv : NumberInv st)
    (hok : ∀ s, st.Closes s instr → st.reused s = false) :
    (st.exec c instr).1.sockets INVALID_SOCKET = none ∧
      ∀ s, (st.exec c instr).1.closed s = false →
        ((st.exec c instr).1.sessions s).socket ≠ INVALID_SOCKET →
        (st.exec c instr).1.sockets ((st.exec c instr).1.sessions s).socket = some s := by
  by_cases hmake : ∃ a s, instr = .makeSocket a s
  · obtain ⟨a, s, rfl⟩ := hmake
    exact numberInv_makeSocket hinv c a s
  · have hsocket : ∀ s, ((st.exec c instr).1.sessions s).socket ≠ INVALID_SOCKET →
        ((st.exec c instr).1.sessions s).socket = (st.sessions s).socket := by
      intro s hne
      rcases exec_socket c st (s := s) (fun a h => hmake ⟨a, s, h⟩) with hsame | ⟨_, hreset⟩
      · exact hsame
      · exact absurd hreset hne
    have hnumbers := exec_numbers c st instr
    generalize (st.exec c instr).1.sockets = sockets at *
    generalize (st.exec c instr).1.closed = closed at *
    cases hnumbers with
    | same =>
      refine ⟨hinv.invalid, ?_⟩
      intro s hclosed hne
      have hsame := hsocket s hne
      rw [hsame] at hne ⊢
      exact hinv.own s hclosed hne
    | @popped _ s' hpops =>
      refine ⟨hinv.invalid, ?_⟩
      intro s hclosed hne
      have hsame := hsocket s hne
      rw [hsame] at hne ⊢
      rw [Function.update_apply] at hclosed
      split at hclosed
      · rename_i hs
        exact absurd (hinv.free s (hs ▸ pops_mem hpops)) hne
      · exact hinv.own s hclosed hne
    | made a s => exact absurd ⟨a, s, rfl⟩ hmake
    | @closes _ s' hcloses =>
      constructor
      · rw [Function.update_apply]
        split
        · rfl
        · exact hinv.invalid
      intro s hclosed hne
      have hsame := hsocket s hne
      rw [hsame] at hne ⊢
      rw [Function.update_apply] at hclosed
      split at hclosed
      · contradiction
      · rename_i hs
        have hown := hinv.own s hclosed hne
        rw [Function.update_of_ne]
        · exact hown
        · intro hnumber
          rw [hnumber] at hown
          rcases closes_own hinv (hok s' hcloses) with hnone | hsome
          · rw [hown] at hnone
            contradiction
          · rw [hown] at hsome
            exact hs (Option.some.inj hsome)

theorem numberInv_step {act : ServerAct} {st' : Server} (hserver : ServerInv st)
    (hinv : NumberInv st) (hok : noReusedClose st act = true) (h : serverStep st act = some st') :
    NumberInv st' := by
  cases steps_of_step h with
  | @advance t instr rest c hthread =>
    have hentry := entry_head hthread
    have hcloses : ∀ s, st.Closes s instr → st.reused s = false := by
      intro s hcloses
      cases instr with
      | closesocket s' =>
        cases hcloses
        simpa [noReusedClose, hthread] using hok
      | error a =>
        have haccepting : st.accepting a = some s := hcloses
        simpa [noReusedClose, hthread, haccepting] using hok
      | _ => contradiction
    obtain ⟨hinvalid, hown⟩ := numberInv_exec (c := c) hinv hcloses
    exact ⟨hinvalid, fun s hs => numberInv_free hserver hinv hentry hs, hown⟩
  | spawn act hposted hthread => exact ⟨hinv.invalid, hinv.free, hinv.own⟩

theorem numberInv_start (roomCount poolSize acceptCount : Nat) :
    NumberInv (.start roomCount poolSize acceptCount) :=
  ⟨rfl, fun _ _ => rfl, fun _ _ h => absurd rfl h⟩

theorem numberInv_reaches {ok : Server → ServerAct → Prop} {roomCount poolSize acceptCount : Nat}
    (hok : ∀ st act, ok st act → noReusedClose st act = true)
    (h : Reaches serverStep ok (.start roomCount poolSize acceptCount) st) : NumberInv st := by
  apply h.invariant (numberInv_start roomCount poolSize acceptCount)
  intro st act st' hr hinv hact hstep
  exact numberInv_step (serverInv_reaches hr) hinv (hok st act hact) hstep

/-! ### Sends and receives -/

/-- Every receive and every send was posted on the session's own socket. -/
def Server.PostsOwn (st : Server) : Prop :=
  (∀ s owner, .wsaRecv s owner ∈ st.log → owner = some s) ∧
    ∀ s owner connection chunks, .wsaSend s owner connection chunks ∈ st.log → owner = some s

/-- Nor is a receive or a send accepted for a session whose socket was closed. -/
def noLatePost (st : Server) (act : ServerAct) : Bool :=
  noReusedClose st act &&
    match act with
    | .advance t c =>
      match st.threads[t]? with
      | some (.recvStart s _ :: _) | some (.acceptRecvStart _ s :: _)
      | some (.sending s .post :: _) => !(st.closed s && st.accepted c s)
      | _ => true
    | _ => true

theorem accepted_own (hinv : NumberInv st) (haccepted : st.accepted c s = true)
    (hopen : st.closed s = false) : st.sockets (st.sessions s).socket = some s := by
  apply hinv.own s hopen
  intro hsocket
  simp [Server.accepted, hsocket, hinv.invalid] at haccepted

theorem postsOwn_step {act : ServerAct} {st' : Server} (hnumbers : NumberInv st)
    (hinv : st.PostsOwn) (hok : noLatePost st act = true) (h : serverStep st act = some st') :
    st'.PostsOwn := by
  cases steps_of_step h with
  | @advance t instr rest c hthread =>
    have hpost : ∀ s, st.accepted c s = true →
        (instr = .sending s .post ∨ (∃ a, instr = .acceptRecvStart a s) ∨
          ∃ caller, instr = .recvStart s caller) →
        st.sockets (st.sessions s).socket = some s := by
      intro s haccepted hinstr
      apply accepted_own hnumbers haccepted
      rcases hinstr with rfl | ⟨a, rfl⟩ | ⟨caller, rfl⟩ <;>
        simp [noLatePost, hthread, haccepted] at hok <;> exact hok.2
    constructor
    · intro s owner hcall
      rcases exec_log hcall with hcall | hcall
      · exact hinv.1 s owner hcall
      · cases hcall with
        | recvStart caller haccepted => exact hpost s haccepted (.inr (.inr ⟨caller, rfl⟩))
        | acceptRecvStart a haccepted => exact hpost s haccepted (.inr (.inl ⟨a, rfl⟩))
    · intro s owner connection chunks hcall
      rcases exec_log hcall with hcall | hcall
      · exact hinv.2 s owner connection chunks hcall
      · cases hcall with
        | send haccepted => exact hpost s haccepted (.inl rfl)
  | spawn act hposted hthread => exact hinv

end

/-- In every run that neither posts for a closed session nor closes a number given out
again, everything is posted on its own connection. -/
theorem noLatePost_postsOwn {st : Server} {roomCount poolSize acceptCount : Nat}
    (h : Reaches serverStep (fun st act => noLatePost st act = true)
      (.start roomCount poolSize acceptCount) st) : st.PostsOwn := by
  apply h.invariant ⟨nofun, nofun⟩
  intro st act st' hr hinv hok hstep
  have hnumbers := numberInv_reaches
    (fun st act (hact : noLatePost st act = true) => (Bool.and_eq_true_iff.mp hact).1) hr
  exact postsOwn_step hnumbers hinv hok hstep

theorem noLatePost_postsOwn_answered :
    ∃ st : Server, .wsaSend 0 (some 0) 1 [echoed 1] ∈ st.log ∧ st.PostsOwn := by
  have h : (run (guarded serverStep fun st act => noLatePost st act = true) (.start 1 1 1)
      answeredThenReused).any
      (fun st => decide (.wsaSend 0 (some 0) 1 [echoed 1] ∈ st.log)) = true := by decide +kernel
  obtain ⟨st, hrun, hst⟩ := (Option.any_eq_true _ _).mp h
  exact ⟨st, of_decide_eq_true hst, noLatePost_postsOwn (reaches_of_run _ .start hrun)⟩

/-- A client's socket is closed after the send of its answer failed. The next client gets
the number and is accepted; then the receive of the first session fails, and `RecvStart`
posts the next one on the second client's socket. -/
def closedThenRecvFails : List ServerAct :=
  advances 1 5 ++ [.complete 0 (.data [])] ++ advances 2 3 ++
    [.complete 0 (.data [echoRequest])] ++ advances 3 11 ++ [.complete 0 .failed] ++
    advances 4 7 ++ advances 2 6 ++ [.complete 1 (.data [])] ++ advances 5 3 ++
    [.complete 0 .failed] ++ advances 6 2

theorem late_receive_crosses :
    ∃ st, run serverStep (.start 1 2 1) closedThenRecvFails = some st ∧
      .wsaRecv 1 (some 0) ∈ st.log ∧ ¬ st.PostsOwn := by
  have h : (run serverStep (.start 1 2 1) closedThenRecvFails).any
      (fun st => decide (.wsaRecv 1 (some 0) ∈ st.log)) = true := by decide +kernel
  obtain ⟨st, hrun, hst⟩ := (Option.any_eq_true _ _).mp h
  have hrecv := of_decide_eq_true hst
  refine ⟨st, hrun, hrecv, ?_⟩
  intro hposts
  exact Nat.zero_ne_one (Option.some.inj (hposts.1 1 (some 0) hrecv))

/-! ### Closing -/

/-- `CloseSession` closes its own session's socket, and takes out its own session's entry. -/
def Server.ClosesOwn (st : Server) : Prop :=
  (∀ s owner, .closesocket s owner ∈ st.log → owner = none ∨ owner = some s) ∧
    ∀ s entry, .erase s entry ∈ st.log → entry = none ∨ entry = some s

/-- Another session that is still held has the number of `s` in its `m_Socket`. -/
def Server.shared (st : Server) (s : Nat) : Bool :=
  (List.range st.pool.maxSize).any fun u =>
    u ≠ s && 0 < st.useCount u && (st.sessions u).socket = (st.sessions s).socket

/-- Nor does `EraseUserSession` run while another session has the number. -/
def noLateClose (st : Server) (act : ServerAct) : Bool :=
  noReusedClose st act &&
    match act with
    | .advance t _ =>
      match st.threads[t]? with
      | some (.eraseUserSession s :: _) => !st.shared s
      | _ => true
    | _ => true

structure EntryInv (st : Server) : Prop where
  size : ∀ s, Holds st s ∨ s ∈ st.pool.pools → s < st.pool.maxSize
  user : ∀ n u, st.userSession.find n = some u →
    (st.sessions u).socket = n ∧ st.phase u = .registered

section
variable {c : Choice} {st : Server} {instr : Instr} {s t : Nat} {rest : List Instr}

theorem size_advance (hserver : ServerInv st) (hinv : EntryInv st)
    (h : st.threads[t]? = some (instr :: rest))
    (hs : Holds (st.advance t c instr rest) s ∨ s ∈ (st.advance t c instr rest).pool.pools) :
    s < (st.advance t c instr rest).pool.maxSize := by
  rw [advance_pool, exec_maxSize]
  rcases hs with hholds | hmem
  · rcases advance_holds hserver h hholds with hholds | hpops
    · exact hinv.size s (.inl hholds)
    · exact hinv.size s (.inr (pops_mem hpops))
  · rcases exec_pool hmem with hmem | ⟨_, hlt, _⟩
    · exact hinv.size s (.inr hmem)
    · exact hlt

theorem registered_stays (hserver : ServerInv st) (hentry : Entry st.threads instr)
    (hholds : Holds st s) (hphase : st.phase s = .registered) :
    ((st.exec c instr).1.sessions s).socket = (st.sessions s).socket ∧
      (st.exec c instr).1.phase s = .registered := by
  have hfact := hserver.facts instr hentry
  have hfree : 0 < instr.returning s → False := fun hpos =>
    free_of_entry hserver hentry hpos hholds
  constructor
  · have hmake : ∀ a, instr ≠ .makeSocket a s := by
      rintro a rfl
      cases hfact.2.symm.trans hphase
    rcases exec_socket c st hmake with hsame | ⟨rfl | rfl, _⟩
    · exact hsame
    · exact (hfree (by simp [Instr.returning])).elim
    · exact (hfree (by simp [Instr.returning])).elim
  · have hstep := exec_phase c st instr s
    generalize (st.exec c instr).1.phase s = phase at hstep
    cases hstep with
    | same => exact hphase
    | pushSession => exact (hfree (by simp [Instr.returning])).elim
    | popped hpops => exact absurd hholds (free_of_pops hserver hpops)
    | error haccepting => cases (hfact s haccepting).symm.trans hphase
    | acceptInsert a => rfl

theorem user_exec (hserver : ServerInv st) (hinv : EntryInv st) (hentry : Entry st.threads instr)
    (n u : Nat) (h : (st.exec c instr).1.userSession.find n = some u) :
    ((st.exec c instr).1.sessions u).socket = n ∧ (st.exec c instr).1.phase u = .registered := by
  rcases exec_userSession h with hfind | ⟨a, rfl, rfl, _⟩
  · obtain ⟨hsocket, hphase⟩ := hinv.user n u hfind
    rw [← hsocket]
    exact registered_stays hserver hentry (.user hfind) hphase
  · exact ⟨rfl, Function.update_self ..⟩

theorem spawn_holds {posted : List Posted} {thread : List Instr}
    (hthread : ∀ x ∈ thread, Spawned st x)
    (h : Holds { st with posted := posted, threads := st.threads ++ [thread] } s) :
    Holds st s := by
  cases h with
  | recv h => exact .recv h
  | send h => exact .send h
  | accept h => exact .accept h
  | user h => exact .user h
  | member hi h => exact .member hi h
  | job hi h hs => exact .job hi h hs
  | @entry x h hx =>
    obtain ⟨thread', hthread', hmem⟩ := h
    rcases List.mem_append.mp hthread' with hthread' | hthread'
    · exact .entry ⟨thread', hthread', hmem⟩ hx
    · cases List.mem_singleton.mp hthread'
      rw [((hthread x hmem).idle s).2.2.1] at hx
      contradiction

theorem entryInv_step {act : ServerAct} {st' : Server} (hserver : ServerInv st)
    (hinv : EntryInv st) (h : serverStep st act = some st') :
    EntryInv st' := by
  cases steps_of_step h with
  | advance c hthread =>
    exact ⟨fun s => size_advance hserver hinv hthread, user_exec hserver hinv (entry_head hthread)⟩
  | spawn act hposted hthread =>
    refine ⟨?_, hinv.user⟩
    intro s hs
    exact hinv.size s (hs.imp (spawn_holds hthread) id)

theorem entryInv_start (roomCount poolSize acceptCount : Nat) :
    EntryInv (.start roomCount poolSize acceptCount) := by
  refine ⟨?_, nofun⟩
  intro s hs
  rcases hs with hholds | hmem
  · exact absurd hholds start_free
  · exact List.mem_range.mp (List.mem_reverse.mp hmem)

theorem closesOwn_step {act : ServerAct} {st' : Server} (hnumbers : NumberInv st)
    (hentries : EntryInv st) (hinv : st.ClosesOwn) (hok : noLateClose st act = true)
    (h : serverStep st act = some st') : st'.ClosesOwn := by
  cases steps_of_step h with
  | @advance t instr rest c hthread =>
    constructor
    · intro s owner hcall
      rcases exec_log hcall with hcall | hcall
      · exact hinv.1 s owner hcall
      · cases hcall with
        | closesocket =>
          apply closes_own hnumbers
          simpa [noLateClose, noReusedClose, hthread] using hok
    · intro s entry hcall
      rcases exec_log hcall with hcall | hcall
      · exact hinv.2 s entry hcall
      · cases hcall with
        | erase =>
          cases hfind : st.userSession.find (st.sessions s).socket with
          | none => exact .inl rfl
          | some u =>
            right
            obtain ⟨hsocket, _⟩ := hentries.user _ u hfind
            have hholds : Holds st u := .user hfind
            by_contra hne
            have hu : u ≠ s := fun hu => hne (congrArg some hu)
            have hshared : st.shared s = true := by
              rw [Server.shared, List.any_eq_true]
              refine ⟨u, List.mem_range.mpr (hentries.size u (.inl hholds)), ?_⟩
              simp [hu, Holds.iff.mpr hholds, hsocket]
            simp [noLateClose, hthread, hshared] at hok
  | spawn act hposted hthread => exact hinv

end

/-- In every run that closes nothing under a number given out again, every close is of its
own session. -/
theorem noLateClose_closesOwn {st : Server} {roomCount poolSize acceptCount : Nat}
    (h : Reaches serverStep (fun st act => noLateClose st act = true)
      (.start roomCount poolSize acceptCount) st) : st.ClosesOwn := by
  have hinv : EntryInv st ∧ st.ClosesOwn := by
    apply h.invariant (I := fun st => EntryInv st ∧ st.ClosesOwn)
      ⟨entryInv_start roomCount poolSize acceptCount, nofun, nofun⟩
    intro st act st' hr hinv hok hstep
    have hserver := serverInv_reaches hr
    have hnumbers := numberInv_reaches
      (fun st act (hact : noLateClose st act = true) => (Bool.and_eq_true_iff.mp hact).1) hr
    exact ⟨entryInv_step hserver hinv.1 hstep,
      closesOwn_step hnumbers hinv.1 hinv.2 hok hstep⟩
  exact hinv.2

theorem noLateClose_closesOwn_answered :
    ∃ st : Server, .closesocket 0 (some 0) ∈ st.log ∧ .erase 0 (some 0) ∈ st.log ∧
      st.ClosesOwn := by
  have h : (run (guarded serverStep fun st act => noLateClose st act = true) (.start 1 1 1)
      answeredThenReused).any (fun st => decide
        (.closesocket 0 (some 0) ∈ st.log ∧ .erase 0 (some 0) ∈ st.log)) = true := by
    decide +kernel
  obtain ⟨st, hrun, hst⟩ := (Option.any_eq_true _ _).mp h
  obtain ⟨hclose, herase⟩ := of_decide_eq_true hst
  exact ⟨st, hclose, herase, noLateClose_closesOwn (reaches_of_run _ .start hrun)⟩

/-- A client's socket is closed, by the receive of zero bytes, while the answer to it is
still with the kernel. The next client gets the number; then the send fails, and
`CloseSession` of the first session closes the second one's socket. -/
def closedThenSendFails : List ServerAct :=
  advances 1 5 ++ [.complete 0 (.data [])] ++ advances 2 3 ++
    [.complete 0 (.data [echoRequest])] ++ advances 3 11 ++ [.complete 1 .zero] ++
    advances 4 7 ++ advances 2 6 ++ [.complete 1 (.data [])] ++ advances 5 3 ++
    [.complete 0 .failed] ++ advances 6 6

theorem late_close_harms :
    ∃ st, run serverStep (.start 1 2 1) closedThenSendFails = some st ∧
      .closesocket 1 (some 0) ∈ st.log ∧ .erase 1 (some 0) ∈ st.log ∧ ¬ st.ClosesOwn := by
  have h : (run serverStep (.start 1 2 1) closedThenSendFails).any (fun st => decide
      (.closesocket 1 (some 0) ∈ st.log ∧ .erase 1 (some 0) ∈ st.log)) = true := by
    decide +kernel
  obtain ⟨st, hrun, hst⟩ := (Option.any_eq_true _ _).mp h
  obtain ⟨hclose, herase⟩ := of_decide_eq_true hst
  refine ⟨st, hrun, hclose, herase, ?_⟩
  intro hcloses
  have hown := (hcloses.1 1 (some 0) hclose).resolve_left (Option.some_ne_none 0)
  exact Nat.zero_ne_one (Option.some.inj hown)

end RoomServer
