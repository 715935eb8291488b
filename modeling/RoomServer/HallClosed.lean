import RoomServer.HallMembers

/-! Closed sessions and rooms. The rooms stay free of closed sessions in every
run in which no Enter job outlives its connection and no session is closed over
the head of the room it is in. -/
namespace RoomServer
open Library.Transition Library.Threads

def NoClosedMember (h : Hall) : Prop :=
  ∀ i n s, (h.rooms i).room.member n = some s → h.closed s = false

/-- An Enter job runs for a session on which `CloseSession` was not executed, and
`PushJobByRooms` closes only sessions that are in no room. -/
def keepsClosedOut (h : Hall) : HallAct → Bool
  | .run i _ _ =>
    match (h.rooms i).jobQueue with
    | ⟨.enter, session⟩ :: _ => !h.closed session
    | _ => true
  | .push k =>
    match h.pushes[k]? with
    | some (.pushJobByRooms job index) =>
      !(h.outOfRange index && (h.sessions job.session).connected)
    | _ => true
  | _ => true

/-- What a Leave job for room `index` still finds: its session there, or closed. -/
def Owed (h : Hall) (s : Nat) (index : Int) : Prop :=
  (h.sessions s).connected = true ∧ (h.sessions s).roomID = index ∨ h.closed s = true

structure ClosedInv (h : Hall) : Prop where
  closed : ∀ s, h.closed s = true → (h.sessions s).connected = false
  jobs : ∀ i s, ⟨.leave, s⟩ ∈ (h.rooms i).jobQueue → Owed h s i
  passed : ∀ s (i : Nat), .pushJob ⟨.leave, s⟩ i ∈ h.pushes → Owed h s i
  calls : ∀ s index, .pushJobByRooms ⟨.leave, s⟩ index ∈ h.pushes → 0 ≤ index → Owed h s index

theorem ClosedInv.shrink {h h' : Hall} (hinv : ClosedInv h)
    (hclosed : ∀ s, h'.closed s = true → (h'.sessions s).connected = false)
    (howed : ∀ s index, Owed h s index → Owed h' s index)
    (hjobs : ∀ i job, job ∈ (h'.rooms i).jobQueue → job ∈ (h.rooms i).jobQueue)
    (hpushes : ∀ p, p ∈ h'.pushes → p ∈ h.pushes) : ClosedInv h' := by
  refine ⟨hclosed, ?_, ?_, ?_⟩
  · intro i s hs
    exact howed s i (hinv.jobs i s (hjobs i _ hs))
  · intro s i hs
    exact howed s i (hinv.passed s i (hpushes _ hs))
  · intro s index hs hindex
    exact howed s index (hinv.calls s index (hpushes _ hs) hindex)

theorem owed_close {h : Hall} {s session : Nat} {index : Int} (howed : Owed h s index) :
    Owed (h.closeSession session) s index := by
  rcases howed with howed | hclosed
  · exact .inl howed
  · by_cases hs : s = session
    · subst hs
      exact .inr (Function.update_self ..)
    · exact .inr (by simp only [Hall.closeSession, Function.update_of_ne hs, hclosed])

theorem closed_close {h : Hall} (hinv : ClosedInv h) {session : Nat}
    (hout : (h.sessions session).connected = false) (s : Nat)
    (hs : (h.closeSession session).closed s = true) : (h.sessions s).connected = false := by
  by_cases hne : s = session
  · subst hne
    exact hout
  · simp only [Hall.closeSession, Function.update_of_ne hne] at hs
    exact hinv.closed s hs

theorem mem_pushes_splice {h : Hall} {k : Nat} {next : List Push} {p : Push}
    (hp : p ∈ splice h.pushes k next) (hnext : p ∉ next) : p ∈ h.pushes :=
  (mem_splice hp).resolve_left hnext

theorem closedInv_moves {h h' : Hall} {act : HallAct} (hflags : FlagsInv h) (hinv : ClosedInv h)
    (hok : keepsClosedOut h act = true) (hmove : Moves h act h') : ClosedInv h' := by
  cases hmove with
  | accepts =>
    apply hinv.shrink
    · intro s hs
      by_cases hne : s = h.accepted
      · subst hne
        simp [Hall.setSession, Connection.reset]
      · simp only [Hall.setSession, Function.update_of_ne hne]
        exact hinv.closed s hs
    · intro s index howed
      rcases howed with ⟨hconnected, hroom⟩ | hclosed
      · have hne : s ≠ h.accepted := by
          have := (hflags.has s hconnected).1
          omega
        exact .inl (by simp only [Hall.setSession, Function.update_of_ne hne, hconnected, hroom,
          and_self])
      · exact .inr hclosed
    · exact fun _ _ hjob => hjob
    · exact fun _ hp => hp
  | @calls act job index known own =>
    refine ⟨hinv.closed, hinv.jobs, ?_, ?_⟩
    · intro s i hs
      exact hinv.passed s i (by simpa using hs)
    · intro s index' hs hindex
      rcases List.mem_append.mp hs with hs | hs
      · exact hinv.calls s index' hs hindex
      · cases List.mem_singleton.mp hs
        have hroom := own rfl
        cases hconnected : (h.sessions s).connected with
        | true => exact .inl ⟨hconnected, hroom.symm⟩
        | false =>
          rw [hroom, hflags.idle s hconnected] at hindex
          contradiction
  | replies | stops => exact ⟨hinv.closed, hinv.jobs, hinv.passed, hinv.calls⟩
  | closes place out =>
    simp only [keepsClosedOut, place, out, Bool.true_and, Bool.not_eq_true'] at hok
    apply hinv.shrink
    · exact closed_close hinv hok
    · exact fun _ _ => owed_close
    · exact fun _ _ hjob => hjob
    · exact fun _ hp => mem_pushes_splice hp List.not_mem_nil
  | @passes k job index place out =>
    have hindex : 0 ≤ index := by
      simp only [Hall.outOfRange, Bool.or_eq_false_iff, decide_eq_false_iff_not] at out
      omega
    refine ⟨hinv.closed, hinv.jobs, ?_, ?_⟩
    · intro s i hs
      rcases mem_splice hs with hs | hs
      · cases List.mem_singleton.mp hs
        rw [Int.toNat_of_nonneg hindex]
        exact hinv.calls s index (List.mem_of_getElem? place) hindex
      · exact hinv.passed s i hs
    · intro s index' hs hindex'
      exact hinv.calls s index' (mem_pushes_splice hs (by simp)) hindex'
  | @queues k job i place =>
    refine ⟨hinv.closed, ?_, ?_, ?_⟩
    · intro j s hs
      exact (queued_jobs _ place j _ hs).elim (hinv.jobs j s) (hinv.passed s j)
    · intro s j hs
      exact hinv.passed s j (mem_pushes_splice hs List.not_mem_nil)
    · intro s index hs hindex
      exact hinv.calls s index (mem_pushes_splice hs List.not_mem_nil) hindex
  | stays same jobs =>
    apply hinv.shrink
    · exact hinv.closed
    · exact fun _ _ howed => howed
    · exact setRoom_jobs _ jobs
    · exact fun _ hp => hp
  | @enters mk nowTick enqueued i session room jobQueue inRange jobs fresh absent same =>
    have hopen : h.closed session = false := by simpa [keepsClosedOut, jobs] using hok
    apply hinv.shrink
    · intro s hs
      by_cases hne : s = session
      · subst hne
        rw [show h.closed s = true from hs] at hopen
        contradiction
      · simp only [Hall.setSession, Hall.setRoom, Function.update_of_ne hne]
        exact hinv.closed s hs
    · intro s index howed
      -- nothing is owed to a session that is neither in a room nor closed
      have hne : s ≠ session := by
        rintro rfl
        rcases howed with ⟨hconnected, _⟩ | hclosed
        · rw [fresh] at hconnected
          contradiction
        · rw [hopen] at hclosed
          contradiction
      simp only [Owed, Hall.setSession, Hall.setRoom, Function.update_of_ne hne]
      exact howed
    · exact setRoom_jobs _ (mem_of_tail jobs)
    · exact fun _ hp => hp
  | @leaves mk nowTick enqueued i session room jobQueue jobs connected same =>
    apply hinv.shrink
    · intro s hs
      by_cases hne : s = session
      · subst hne
        simp [Hall.closeSession, Hall.setSession]
      · simp only [Hall.closeSession, Hall.setSession, Hall.setRoom,
          Function.update_of_ne hne] at hs ⊢
        exact hinv.closed s hs
    · intro s index howed
      by_cases hne : s = session
      · subst hne
        exact .inr (Function.update_self ..)
      · simp only [Owed, Hall.closeSession, Hall.setSession, Hall.setRoom,
          Function.update_of_ne hne]
        exact howed
    · exact setRoom_jobs _ (mem_of_tail jobs)
    · exact fun _ hp => hp

theorem leavesOwnRoom_of_closedInv {h : Hall} (hinv : ClosedInv h) (act : HallAct) :
    leavesOwnRoom h act = true := by
  cases act with
  | run i mk nowTick =>
    rw [leavesOwnRoom]
    split
    · rename_i session rest hjobs
      rcases hinv.jobs i session (by simp [hjobs]) with ⟨_, hroom⟩ | hclosed
      · simp [hroom]
      · simp [hinv.closed session hclosed]
    · rfl
  | _ => rfl

theorem closed_out_inv {roomCount : Nat} {h : Hall}
    (hr : Reaches hallStep (fun h act => keepsClosedOut h act = true) (.start roomCount) h) :
    FlagsInv h ∧ ClosedInv h := by
  apply hr.invariant (I := fun h => FlagsInv h ∧ ClosedInv h)
  · exact ⟨flagsInv_start roomCount, nofun, nofun, nofun, nofun⟩
  · intro h act h' hr hinv hok hstep
    have hmove := moves_of_step hstep
    have hown := leavesOwnRoom_of_closedInv hinv.2 act
    exact ⟨flagsInv_moves (knownInv_reaches hr) hinv.1 hown hmove,
      closedInv_moves hinv.1 hinv.2 hok hmove⟩

theorem no_closed_member {roomCount : Nat} {h : Hall}
    (hr : Reaches hallStep (fun h act => keepsClosedOut h act = true) (.start roomCount) h) :
    NoClosedMember h := by
  have hinv := closed_out_inv hr
  intro i n s hs
  cases hclosed : h.closed s with
  | false => rfl
  | true =>
    have hconnected := hinv.2.closed s hclosed
    rw [(hinv.1.member i n s hs).2] at hconnected
    contradiction

/-- A session enters, leaves and is closed; its number enters again. -/
def reenter : List HallAct :=
  .accept 100 :: request 0 PacketType.CLIENT_ENTER ++ dispatches 0 ::
    request 0 PacketType.CLIENT_LEAVE ++ [dispatches 0, .accept 100] ++
    [.packet 1 0 true (bare PacketType.CLIENT_ENTER), .push 0, .push 0, dispatches 0]

theorem no_closed_member_reenter :
    ∃ h, run hallStep (.start 5) reenter = some h ∧ h.closed 0 = true ∧
      (h.rooms 0).room.member 100 = some 1 ∧ NoClosedMember h := by
  have hrun : (run (guarded hallStep fun h act => keepsClosedOut h act = true) (.start 5)
      reenter).any (fun h => decide (h.closed 0 = true ∧
        (h.rooms 0).room.member 100 = some 1)) = true := by decide +kernel
  obtain ⟨h, hrun, hfinal⟩ := (Option.any_eq_true _ _).mp hrun
  obtain ⟨hclosed, hmember⟩ := of_decide_eq_true hfinal
  exact ⟨h, run_of_guarded _ hrun, hclosed, hmember,
    no_closed_member (reaches_of_run _ .start hrun)⟩

/-- The connection goes down while its ENTER waits: with no room to push to, the
session is closed at once, and enters afterwards. -/
def lateEnter : List HallAct :=
  .accept 100 :: request 0 PacketType.CLIENT_ENTER ++ [.fail 0, .push 0, dispatches 0]

theorem closed_session_enters :
    ∃ h, run hallStep (.start 5) lateEnter = some h ∧ ¬NoClosedMember h := by
  have hrun : (run hallStep (.start 5) lateEnter).any (fun h =>
      decide (h.closed 0 = true ∧ (h.rooms 0).room.member 100 = some 0)) = true := by
    decide +kernel
  obtain ⟨h, hrun, hfinal⟩ := (Option.any_eq_true _ _).mp hrun
  obtain ⟨hclosed, hmember⟩ := of_decide_eq_true hfinal
  refine ⟨h, hrun, ?_⟩
  intro hnone
  have hopen := hnone 0 100 0 hmember
  exact Bool.false_ne_true (hopen.symm.trans hclosed)

end RoomServer
