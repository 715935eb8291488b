import RoomServer.Hall

/-! Members and flags over whole runs. `Moves` says once what a step can do to
them; the invariants are then about its cases alone. -/
namespace RoomServer
open Library.Transition Library.Threads

theorem sends_apply {p : Nat → Prop} {effects : List Effect} (h : Hall) (hsends : SendsTo p effects) :
    ∃ enqueued, effects.foldl Hall.apply h = { h with enqueued := enqueued } := by
  induction effects generalizing h with
  | nil => exact ⟨h.enqueued, rfl⟩
  | cons e effects ih =>
    obtain ⟨session, sendChunk, rfl, _⟩ := hsends e List.mem_cons_self
    exact ih _ fun e he => hsends e (List.mem_cons_of_mem _ he)

structure SameRoom (h : Hall) (i : Nat) (room : Room) (member : Nat → Option Nat) : Prop where
  member : room.member = member
  roomID : room.roomID = (h.rooms i).room.roomID

inductive Moves (h : Hall) : HallAct → Hall → Prop where
  | accepts {socket : Nat} :
    Moves h (.accept socket)
      { h.setSession h.accepted { Connection.reset with socket := socket } with
        accepted := h.accepted + 1, sockets := socket :: h.sockets }
  | calls {act : HallAct} {job : Job} {index : Int} (known : job.session < h.accepted)
      (own : job.kind = .leave → index = (h.sessions job.session).roomID) :
    Moves h act { h with pushes := h.pushes ++ [.pushJobByRooms job index] }
  | replies {act : HallAct} {enqueued : Nat → List (ServerPacket ℚ)} :
    Moves h act { h with enqueued := enqueued }
  | closes {k : Nat} {job : Job} {index : Int}
      (place : h.pushes[k]? = some (.pushJobByRooms job index)) (out : h.outOfRange index = true) :
    Moves h (.push k) ({ h with pushes := splice h.pushes k [] }.closeSession job.session)
  | passes {k : Nat} {job : Job} {index : Int}
      (place : h.pushes[k]? = some (.pushJobByRooms job index)) (out : h.outOfRange index = false) :
    Moves h (.push k) { h with pushes := splice h.pushes k [.pushJob job index.toNat] }
  | queues {k : Nat} {job : Job} {i : Nat} (place : h.pushes[k]? = some (.pushJob job i)) :
    Moves h (.push k) ({ h with pushes := splice h.pushes k [] }.setRoom i (h.rooms i).room
      ((h.rooms i).jobQueue ++ [job]))
  | stays {act : HallAct} {i : Nat} {room : Room} {jobQueue : List Job}
      {enqueued : Nat → List (ServerPacket ℚ)}
      (same : SameRoom h i room (h.rooms i).room.member)
      (jobs : ∀ job ∈ jobQueue, job ∈ (h.rooms i).jobQueue) :
    Moves h act { h.setRoom i room jobQueue with enqueued := enqueued }
  | enters (mk : Nat → Bool) (nowTick : Nat) (enqueued : Nat → List (ServerPacket ℚ)) {i : Nat}
      {session : Nat} {room : Room} {jobQueue : List Job} (inRange : i < h.roomCount)
      (jobs : (h.rooms i).jobQueue = ⟨.enter, session⟩ :: jobQueue)
      (fresh : (h.sessions session).connected = false)
      (absent : (h.rooms i).room.member (h.sessions session).socket = none)
      (same : SameRoom h i room (Function.update (h.rooms i).room.member
        (h.sessions session).socket (some session))) :
    Moves h (.run i mk nowTick)
      { (h.setRoom i room jobQueue).setSession session
        ⟨(h.sessions session).socket, (h.rooms i).room.roomID, true⟩ with enqueued := enqueued }
  | leaves (mk : Nat → Bool) (nowTick : Nat) (enqueued : Nat → List (ServerPacket ℚ)) {i : Nat}
      {session : Nat} {room : Room} {jobQueue : List Job}
      (jobs : (h.rooms i).jobQueue = ⟨.leave, session⟩ :: jobQueue)
      (connected : (h.sessions session).connected = true)
      (same : SameRoom h i room (Function.update (h.rooms i).room.member
        (h.sessions session).socket none)) :
    Moves h (.run i mk nowTick)
      ({ (h.setRoom i room jobQueue).setSession session ⟨(h.sessions session).socket, -1, false⟩
        with enqueued := enqueued }.closeSession session)
  | stops : Moves h .stop { h with stop := true }

theorem moves_run {h : Hall} {i : Nat} {job : Job} {jobQueue : List Job} (mk : Nat → Bool)
    (nowTick : Nat) (hi : i < h.roomCount) (hjobs : (h.rooms i).jobQueue = job :: jobQueue)
    {o : Outcome} (hroomID : o.room.roomID = (h.rooms i).room.roomID)
    (hspec : JobSpec (h.rooms i).room job (h.sessions job.session).socket
      (h.sessions job.session).connected o) :
    Moves h (.run i mk nowTick) (h.finish i o jobQueue) := by
  unfold Hall.finish Outcome.effects
  obtain ⟨kind, session⟩ := job
  cases hspec with
  | stays members before after =>
    rw [before, List.nil_append]
    obtain ⟨enqueued, happly⟩ := sends_apply (h.setRoom i o.room jobQueue) after
    rw [happly]
    apply Moves.stays ⟨members, hroomID⟩
    intro job hjob
    rw [hjobs]
    exact List.mem_cons_of_mem _ hjob
  | enters kind fresh absent members before after sends_to =>
    cases kind
    rw [before, after, List.nil_append, List.foldl_cons, List.foldl_cons]
    obtain ⟨enqueued, happly⟩ := sends_apply (((h.setRoom i o.room jobQueue).apply
      (.connect session)).apply (.setRoomID session (h.rooms i).room.roomID)) sends_to
    rw [happly]
    have hmove := Moves.enters mk nowTick enqueued hi hjobs fresh absent ⟨members, hroomID⟩
    simpa [Hall.apply, Hall.setSession, Hall.setRoom] using hmove
  | leaves kind connected members before sends_to after =>
    cases kind
    rw [before, after, List.cons_append, List.cons_append, List.foldl_cons, List.foldl_cons,
      List.foldl_append, List.foldl_cons, List.foldl_nil]
    obtain ⟨enqueued, happly⟩ := sends_apply (((h.setRoom i o.room jobQueue).apply
      (.disConnected session)).apply (.setRoomID session (-1))) sends_to
    rw [happly]
    have hmove := Moves.leaves mk nowTick enqueued hjobs connected ⟨members, hroomID⟩
    simpa [Hall.apply, Hall.setSession, Hall.setRoom] using hmove

theorem moves_pushLeave {h : Hall} {session : Nat} (act : HallAct) (hknown : session < h.accepted) :
    Moves h act (h.pushLeave session) :=
  .calls hknown fun _ => rfl

theorem moves_handle {h : Hall} {session : Nat} (act : HallAct) (hknown : session < h.accepted)
    (made : Bool) (request : ClientPacket) : Moves h act (h.handle session made request) := by
  unfold Hall.handle
  cases request with
  | echo text =>
    dsimp only [ClientPacket.handled]
    split
    · exact .replies
    · exact .replies
  | broadcast text => exact .calls hknown nofun
  | enter rand => exact .calls hknown nofun
  | leave => exact .calls hknown fun _ => rfl
  | move posX posY => exact .calls hknown nofun

theorem moves_of_step {h h' : Hall} {act : HallAct} (hstep : hallStep h act = some h') :
    Moves h act h' := by
  cases act with
  | accept socket =>
    simp only [hallStep, Option.ite_none_left_eq_some] at hstep
    cases hstep.2
    exact .accepts
  | packet session rand made packet =>
    simp only [hallStep, Option.ite_none_right_eq_some] at hstep
    obtain ⟨hknown, hstep⟩ := hstep
    split at hstep
    · cases hstep
      exact moves_pushLeave _ hknown
    · cases hstep
      exact moves_handle _ hknown made _
  | fail session =>
    simp only [hallStep, Option.ite_none_right_eq_some] at hstep
    cases hstep.2
    exact moves_pushLeave _ hstep.1
  | push k =>
    obtain ⟨push, hplace, rfl⟩ := Option.map_eq_some_iff.mp hstep
    cases push with
    | pushJobByRooms job index =>
      cases hout : h.outOfRange index with
      | true => simpa [Hall.advance, hout] using Moves.closes hplace hout
      | false => simpa [Hall.advance, hout] using Moves.passes hplace hout
    | pushJob job i => exact .queues hplace
  | run i mk nowTick =>
    simp only [hallStep, Option.ite_none_right_eq_some] at hstep
    obtain ⟨hi, hstep⟩ := hstep
    split at hstep
    · contradiction
    · rename_i job jobQueue hjobs
      cases hstep
      apply moves_run mk nowTick hi hjobs
      · exact Room.dispatch_roomID job _ _ _ mk nowTick
      · exact dispatch_spec job _ _ _ mk nowTick
  | tick i mk nowTick =>
    simp only [hallStep, Option.ite_none_right_eq_some] at hstep
    cases hstep.2
    have hspec := (h.rooms i).room.tick_spec nowTick mk
    unfold Hall.finish Outcome.effects
    rw [hspec.before, List.nil_append]
    obtain ⟨enqueued, happly⟩ := sends_apply
      (h.setRoom i ((h.rooms i).room.tick nowTick mk).room (h.rooms i).jobQueue) hspec.after
    rw [happly]
    exact .stays ⟨hspec.members, hspec.roomID⟩ fun _ hjob => hjob
  | stop =>
    cases hstep
    exact .stops

/-! ### Writing one room -/

theorem setRoom_ids {h : Hall} (hids : ∀ i, (h.rooms i).room.roomID = i) {i : Nat} {room : Room}
    (hroom : room.roomID = (h.rooms i).room.roomID) (jobQueue : List Job) (j : Nat) :
    ((h.setRoom i room jobQueue).rooms j).room.roomID = j := by
  by_cases hj : j = i
  · subst hj
    simp only [Hall.setRoom, Function.update_self, hroom, hids]
  · simp only [Hall.setRoom, Function.update_of_ne hj, hids]

theorem setRoom_jobs {h : Hall} {i : Nat} {jobQueue : List Job} (room : Room)
    (hjobs : ∀ job ∈ jobQueue, job ∈ (h.rooms i).jobQueue) (j : Nat) (job : Job)
    (hjob : job ∈ ((h.setRoom i room jobQueue).rooms j).jobQueue) :
    job ∈ (h.rooms j).jobQueue := by
  by_cases hj : j = i
  · subst hj
    simp only [Hall.setRoom, Function.update_self] at hjob
    exact hjobs job hjob
  · simp only [Hall.setRoom, Function.update_of_ne hj] at hjob
    exact hjob

theorem mem_of_tail {queue rest : List Job} {head : Job} (h : queue = head :: rest) :
    ∀ job ∈ rest, job ∈ queue := by
  intro job hjob
  rw [h]
  exact List.mem_cons_of_mem _ hjob

theorem queued_jobs {h : Hall} {k i : Nat} {job : Job} (pushes : List Push)
    (place : h.pushes[k]? = some (.pushJob job i)) (j : Nat) (other : Job)
    (hother : other ∈ (({ h with pushes := pushes }.setRoom i (h.rooms i).room
      ((h.rooms i).jobQueue ++ [job])).rooms j).jobQueue) :
    other ∈ (h.rooms j).jobQueue ∨ .pushJob other j ∈ h.pushes := by
  by_cases hj : j = i
  · subst hj
    simp only [Hall.setRoom, Function.update_self] at hother
    rcases List.mem_append.mp hother with hother | hother
    · exact .inl hother
    · cases List.mem_singleton.mp hother
      exact .inr (List.mem_of_getElem? place)
  · simp only [Hall.setRoom, Function.update_of_ne hj] at hother
    exact .inl hother

/-! ### Flags agree with membership -/

/-- A Leave job of a connected session runs only in the session's own room. -/
def leavesOwnRoom (h : Hall) : HallAct → Bool
  | .run i _ _ =>
    match (h.rooms i).jobQueue with
    | ⟨.leave, session⟩ :: _ =>
      !(h.sessions session).connected || (h.sessions session).roomID == i
    | _ => true
  | _ => true

structure KnownInv (h : Hall) : Prop where
  jobs : ∀ i, ∀ job ∈ (h.rooms i).jobQueue, job.session < h.accepted
  pushes : ∀ p ∈ h.pushes, p.job.session < h.accepted

structure FlagsInv (h : Hall) : Prop where
  ids : ∀ i, (h.rooms i).room.roomID = i
  member : ∀ i n s, (h.rooms i).room.member n = some s →
    i < h.roomCount ∧ h.sessions s = ⟨n, i, true⟩
  has : ∀ s, (h.sessions s).connected = true →
    s < h.accepted ∧ ∃ i n, (h.rooms i).room.member n = some s
  idle : ∀ s, (h.sessions s).connected = false → (h.sessions s).roomID = -1

theorem knownInv_moves {h h' : Hall} {act : HallAct} (hinv : KnownInv h) (hmove : Moves h act h') :
    KnownInv h' := by
  cases hmove with
  | accepts =>
    constructor
    · intro i job hjob
      exact Nat.lt_succ_of_lt (hinv.jobs i job hjob)
    · intro p hp
      exact Nat.lt_succ_of_lt (hinv.pushes p hp)
  | calls known own =>
    refine ⟨hinv.jobs, ?_⟩
    intro p hp
    rcases List.mem_append.mp hp with hp | hp
    · exact hinv.pushes p hp
    · cases List.mem_singleton.mp hp
      exact known
  | replies | stops => exact ⟨hinv.jobs, hinv.pushes⟩
  | closes place out =>
    refine ⟨hinv.jobs, ?_⟩
    intro p hp
    rcases mem_splice hp with hp | hp
    · contradiction
    · exact hinv.pushes p hp
  | passes place out =>
    have hknown := hinv.pushes _ (List.mem_of_getElem? place)
    refine ⟨hinv.jobs, ?_⟩
    intro p hp
    rcases mem_splice hp with hp | hp
    · cases List.mem_singleton.mp hp
      exact hknown
    · exact hinv.pushes p hp
  | @queues k job i place =>
    constructor
    · intro j other hother
      exact (queued_jobs _ place j other hother).elim (hinv.jobs j other) (hinv.pushes _)
    · intro p hp
      rcases mem_splice hp with hp | hp
      · contradiction
      · exact hinv.pushes p hp
  | stays same jobs =>
    exact ⟨fun j job hjob => hinv.jobs j job (setRoom_jobs _ jobs j job hjob), hinv.pushes⟩
  | enters mk nowTick enqueued inRange jobs =>
    refine ⟨fun j job hjob => ?_, hinv.pushes⟩
    exact hinv.jobs j job (setRoom_jobs _ (mem_of_tail jobs) j job hjob)
  | leaves mk nowTick enqueued jobs =>
    refine ⟨fun j job hjob => ?_, hinv.pushes⟩
    exact hinv.jobs j job (setRoom_jobs _ (mem_of_tail jobs) j job hjob)

theorem flagsInv_start (roomCount : Nat) : FlagsInv (.start roomCount) :=
  ⟨fun _ => rfl, nofun, nofun, fun _ _ => rfl⟩

theorem flagsInv_stays {h : Hall} (hinv : FlagsInv h) {i : Nat} {room : Room}
    (hsame : SameRoom h i room (h.rooms i).room.member) (jobQueue : List Job) :
    FlagsInv (h.setRoom i room jobQueue) := by
  have hmember (j : Nat) :
      ((h.setRoom i room jobQueue).rooms j).room.member = (h.rooms j).room.member := by
    by_cases hj : j = i
    · subst hj
      simp only [Hall.setRoom, Function.update_self, hsame.member]
    · simp only [Hall.setRoom, Function.update_of_ne hj]
  refine ⟨setRoom_ids hinv.ids hsame.roomID jobQueue, ?_, ?_, hinv.idle⟩
  · intro j n s hs
    rw [hmember] at hs
    exact hinv.member j n s hs
  · intro s hs
    obtain ⟨hknown, j, n, hmem⟩ := hinv.has s hs
    exact ⟨hknown, j, n, by rw [hmember]; exact hmem⟩

theorem flagsInv_accepts {h : Hall} (hinv : FlagsInv h) (socket : Nat) :
    FlagsInv { h.setSession h.accepted { Connection.reset with socket := socket } with
      accepted := h.accepted + 1, sockets := socket :: h.sockets } := by
  have hother (s : Nat) (hs : (h.sessions s).connected = true) : s ≠ h.accepted := by
    have := (hinv.has s hs).1
    omega
  refine ⟨hinv.ids, ?_, ?_, ?_⟩
  · intro i n s hs
    obtain ⟨hi, hsession⟩ := hinv.member i n s hs
    have hne := hother s (by rw [hsession])
    exact ⟨hi, by simp only [Hall.setSession, Function.update_of_ne hne, hsession]⟩
  · intro s hs
    by_cases hne : s = h.accepted
    · subst hne
      simp [Hall.setSession, Connection.reset] at hs
    · simp only [Hall.setSession, Function.update_of_ne hne] at hs
      obtain ⟨hknown, hmem⟩ := hinv.has s hs
      exact ⟨Nat.lt_succ_of_lt hknown, hmem⟩
  · intro s hs
    by_cases hne : s = h.accepted
    · subst hne
      simp [Hall.setSession, Connection.reset]
    · simp only [Hall.setSession, Function.update_of_ne hne] at hs ⊢
      exact hinv.idle s hs

theorem flagsInv_enters {h : Hall} (hinv : FlagsInv h) {i session : Nat} {room : Room}
    (hi : i < h.roomCount) (hknown : session < h.accepted)
    (hfresh : (h.sessions session).connected = false)
    (habsent : (h.rooms i).room.member (h.sessions session).socket = none)
    (hsame : SameRoom h i room (Function.update (h.rooms i).room.member
      (h.sessions session).socket (some session)))
    (jobQueue : List Job) :
    FlagsInv ((h.setRoom i room jobQueue).setSession session
      ⟨(h.sessions session).socket, (h.rooms i).room.roomID, true⟩) := by
  have hnowhere (j n s : Nat) (hs : (h.rooms j).room.member n = some s) : s ≠ session := by
    rintro rfl
    rw [(hinv.member j n s hs).2] at hfresh
    contradiction
  refine ⟨setRoom_ids hinv.ids hsame.roomID jobQueue, ?_, ?_, ?_⟩
  · intro j n s hs
    have hold (hs : (h.rooms j).room.member n = some s) :
        j < h.roomCount ∧ Function.update h.sessions session
          ⟨(h.sessions session).socket, (h.rooms i).room.roomID, true⟩ s = ⟨n, j, true⟩ := by
      rw [Function.update_of_ne (hnowhere j n s hs)]
      exact hinv.member j n s hs
    by_cases hj : j = i
    · subst hj
      simp only [Hall.setSession, Hall.setRoom, Function.update_self, hsame.member,
        Function.update_apply] at hs
      split at hs
      · rename_i hn
        cases hs
        exact ⟨hi, by simp [Hall.setSession, hn, hinv.ids]⟩
      · exact hold hs
    · simp only [Hall.setSession, Hall.setRoom, Function.update_of_ne hj] at hs
      exact hold hs
  · intro s hs
    by_cases hne : s = session
    · subst hne
      exact ⟨hknown, i, (h.sessions s).socket,
        by simp [Hall.setSession, Hall.setRoom, hsame.member]⟩
    · simp only [Hall.setSession, Hall.setRoom, Function.update_of_ne hne] at hs
      obtain ⟨hbelow, j, n, hmem⟩ := hinv.has s hs
      refine ⟨hbelow, j, n, ?_⟩
      by_cases hj : j = i
      · subst hj
        have hn : n ≠ (h.sessions session).socket := by
          rintro rfl
          rw [habsent] at hmem
          contradiction
        simp only [Hall.setSession, Hall.setRoom, Function.update_self, hsame.member,
          Function.update_of_ne hn, hmem]
      · simp only [Hall.setSession, Hall.setRoom, Function.update_of_ne hj, hmem]
  · intro s hs
    by_cases hne : s = session
    · subst hne
      simp [Hall.setSession] at hs
    · simp only [Hall.setSession, Hall.setRoom, Function.update_of_ne hne] at hs ⊢
      exact hinv.idle s hs

theorem flagsInv_leaves {h : Hall} (hinv : FlagsInv h) {i session : Nat} {room : Room}
    (hconnected : (h.sessions session).connected = true) (hown : (h.sessions session).roomID = i)
    (hsame : SameRoom h i room (Function.update (h.rooms i).room.member
      (h.sessions session).socket none))
    (jobQueue : List Job) :
    FlagsInv ((h.setRoom i room jobQueue).setSession session
      ⟨(h.sessions session).socket, -1, false⟩) := by
  have hremains (j n s : Nat)
      (hs : ((h.setRoom i room jobQueue).rooms j).room.member n = some s) :
      (h.rooms j).room.member n = some s ∧ s ≠ session := by
    by_cases hj : j = i
    · subst hj
      simp only [Hall.setRoom, Function.update_self, hsame.member, Function.update_apply] at hs
      split at hs
      · contradiction
      · rename_i hn
        refine ⟨hs, ?_⟩
        rintro rfl
        rw [(hinv.member j n s hs).2] at hn
        exact hn rfl
    · simp only [Hall.setRoom, Function.update_of_ne hj] at hs
      refine ⟨hs, ?_⟩
      rintro rfl
      rw [(hinv.member j n s hs).2] at hown
      exact hj (Int.ofNat.inj hown)
  refine ⟨setRoom_ids hinv.ids hsame.roomID jobQueue, ?_, ?_, ?_⟩
  · intro j n s hs
    obtain ⟨hs, hne⟩ := hremains j n s hs
    simp only [Hall.setSession, Hall.setRoom, Function.update_of_ne hne]
    exact hinv.member j n s hs
  · intro s hs
    by_cases hne : s = session
    · subst hne
      simp [Hall.setSession] at hs
    · simp only [Hall.setSession, Hall.setRoom, Function.update_of_ne hne] at hs
      obtain ⟨hbelow, j, n, hmem⟩ := hinv.has s hs
      refine ⟨hbelow, j, n, ?_⟩
      by_cases hj : j = i
      · subst hj
        -- the number that is erased was the leaver's own
        have hn : n ≠ (h.sessions session).socket := by
          rintro rfl
          obtain ⟨_, j', n', hmem'⟩ := hinv.has session hconnected
          have hsession := (hinv.member j' n' session hmem').2
          rw [hsession] at hown hmem
          cases Int.ofNat.inj hown
          rw [hmem'] at hmem
          exact hne (Option.some.inj hmem).symm
        simp only [Hall.setSession, Hall.setRoom, Function.update_self, hsame.member,
          Function.update_of_ne hn, hmem]
      · simp only [Hall.setSession, Hall.setRoom, Function.update_of_ne hj, hmem]
  · intro s hs
    by_cases hne : s = session
    · subst hne
      simp [Hall.setSession]
    · simp only [Hall.setSession, Hall.setRoom, Function.update_of_ne hne] at hs ⊢
      exact hinv.idle s hs

theorem flagsInv_moves {h h' : Hall} {act : HallAct} (hknown : KnownInv h) (hinv : FlagsInv h)
    (hown : leavesOwnRoom h act = true) (hmove : Moves h act h') : FlagsInv h' := by
  cases hmove with
  | accepts => exact flagsInv_accepts hinv _
  | calls | replies | closes | passes | stops =>
    exact ⟨hinv.ids, hinv.member, hinv.has, hinv.idle⟩
  | @queues k job i place =>
    have hstays := flagsInv_stays hinv (i := i) ⟨rfl, rfl⟩ ((h.rooms i).jobQueue ++ [job])
    exact ⟨hstays.ids, hstays.member, hstays.has, hstays.idle⟩
  | @stays act i room jobQueue enqueued same jobs =>
    have hstays := flagsInv_stays hinv same jobQueue
    exact ⟨hstays.ids, hstays.member, hstays.has, hstays.idle⟩
  | @enters mk nowTick enqueued i session room jobQueue inRange jobs fresh absent same =>
    have hbelow := hknown.jobs i ⟨.enter, session⟩ (by simp [jobs])
    have henters := flagsInv_enters hinv inRange hbelow fresh absent same jobQueue
    exact ⟨henters.ids, henters.member, henters.has, henters.idle⟩
  | @leaves mk nowTick enqueued i session room jobQueue jobs connected same =>
    have hroom : (h.sessions session).roomID = i := by
      simpa [leavesOwnRoom, jobs, connected] using hown
    have hleaves := flagsInv_leaves hinv connected hroom same jobQueue
    exact ⟨hleaves.ids, hleaves.member, hleaves.has, hleaves.idle⟩

/-- The flags of a session say which room it is in. -/
structure FlagsAgree (h : Hall) : Prop where
  agree : ∀ i < h.roomCount, ∀ s, (h.rooms i).room.Has s ↔
    (h.sessions s).connected = true ∧ (h.sessions s).roomID = i
  one_room : ∀ i j s, (h.rooms i).room.Has s → (h.rooms j).room.Has s → i = j

theorem flagsAgree_of_inv {h : Hall} (hinv : FlagsInv h) : FlagsAgree h := by
  constructor
  · intro i hi s
    constructor
    · rintro ⟨n, hn⟩
      rw [(hinv.member i n s hn).2]
      exact ⟨rfl, rfl⟩
    · rintro ⟨hconnected, hroom⟩
      obtain ⟨_, j, n, hn⟩ := hinv.has s hconnected
      rw [(hinv.member j n s hn).2] at hroom
      cases Int.ofNat.inj hroom
      exact ⟨n, hn⟩
  · rintro i j s ⟨n, hn⟩ ⟨m, hm⟩
    have hsame := (hinv.member i n s hn).2.symm.trans (hinv.member j m s hm).2
    exact Int.ofNat.inj (congrArg Connection.roomID hsame)

theorem knownInv_reaches {ok : Hall → HallAct → Prop} {roomCount : Nat} {h : Hall}
    (hr : Reaches hallStep ok (.start roomCount) h) : KnownInv h :=
  hr.invariant ⟨nofun, nofun⟩ fun _ _ _ _ hinv _ hstep =>
    knownInv_moves hinv (moves_of_step hstep)

theorem flags_agree {roomCount : Nat} {h : Hall}
    (hr : Reaches hallStep (fun h act => leavesOwnRoom h act = true) (.start roomCount) h) :
    FlagsAgree h := by
  apply flagsAgree_of_inv
  apply hr.invariant (flagsInv_start roomCount)
  intro h act h' hr hinv hok hstep
  exact flagsInv_moves (knownInv_reaches hr) hinv hok (moves_of_step hstep)

def bare (type : PacketType) : Packet := ⟨type, []⟩

def request (rand : Nat) (type : PacketType) : List HallAct :=
  [.packet 0 rand true (bare type), .push 0, .push 0]

def dispatches (i : Nat) : HallAct := .run i (fun _ => true) 0

theorem flags_agree_in_room :
    ∃ h, run hallStep (.start 5)
        (.accept 100 :: request 3 PacketType.CLIENT_ENTER ++ [dispatches 3]) = some h ∧
      (h.rooms 3).room.member 100 = some 0 ∧ FlagsAgree h := by
  have hrun : (run (guarded hallStep fun h act => leavesOwnRoom h act = true) (.start 5)
      (.accept 100 :: request 3 PacketType.CLIENT_ENTER ++ [dispatches 3])).any
        (fun h => decide ((h.rooms 3).room.member 100 = some 0)) = true := by decide +kernel
  obtain ⟨h, hrun, hmember⟩ := (Option.any_eq_true _ _).mp hrun
  exact ⟨h, run_of_guarded _ hrun, of_decide_eq_true hmember,
    flags_agree (reaches_of_run _ .start hrun)⟩

/-- The second of two Leave jobs for room 0 runs when the session is in room 1. -/
def staleLeave : List HallAct :=
  .accept 100 :: request 0 PacketType.CLIENT_ENTER ++ dispatches 0 ::
    request 0 PacketType.CLIENT_LEAVE ++ request 0 PacketType.CLIENT_LEAVE ++
    request 1 PacketType.CLIENT_ENTER ++ [dispatches 0, dispatches 1, dispatches 0]

theorem stale_leave_disagrees :
    ∃ h, run hallStep (.start 5) staleLeave = some h ∧ ¬FlagsAgree h := by
  have hrun : (run hallStep (.start 5) staleLeave).any (fun h =>
      decide (h.roomCount = 5 ∧ (h.rooms 1).room.member 100 = some 0 ∧
        (h.sessions 0).connected = false)) = true := by decide +kernel
  obtain ⟨h, hrun, hfinal⟩ := (Option.any_eq_true _ _).mp hrun
  obtain ⟨hcount, hmember, hconnected⟩ := of_decide_eq_true hfinal
  refine ⟨h, hrun, ?_⟩
  intro hagree
  have hflags := (hagree.agree 1 (by omega) 0).mp ⟨100, hmember⟩
  rw [hconnected] at hflags
  exact absurd hflags.1 Bool.false_ne_true

end RoomServer
