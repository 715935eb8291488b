import RoomServer.HallMembers

/-! Whose broadcasts a room sends. A Broadcast job is pushed to the room that
`GetRoomID` names when its packet is handled; `BroadCast` does not ask again whether
its session is still there. -/
namespace RoomServer
open Library Library.Transition Library.Threads

/-! ### What a step does to the pushes -/

def HallAct.caller : HallAct → Option Nat
  | .packet session _ _ _ | .fail session => some session
  | .accept _ | .push _ | .run _ _ _ | .tick _ _ _ | .stop => none

inductive StepPushes (h : Hall) : HallAct → Hall → Prop where
  | same {act : HallAct} {h' : Hall} (pushes : h'.pushes = h.pushes) : StepPushes h act h'
  | calls {act : HallAct} {h' : Hall} {job : Job} {index : Int}
      (caller : act.caller = some job.session)
      (own : job.kind ≠ .enter → index = (h.sessions job.session).roomID)
      (pushes : h'.pushes = h.pushes ++ [.pushJobByRooms job index]) : StepPushes h act h'
  | advances {k : Nat} {p : Push} (place : h.pushes[k]? = some p) :
    StepPushes h (.push k) (h.advance k p)

theorem foldl_apply_pushes (effects : List Effect) (h : Hall) :
    (effects.foldl Hall.apply h).pushes = h.pushes := by
  induction effects generalizing h with
  | nil => rfl
  | cons e rest ih =>
    rw [List.foldl_cons, ih]
    cases e <;> rfl

theorem stepPushes_handle {h : Hall} {session rand : Nat} {made : Bool} {packet : Packet}
    (request : ClientPacket) :
    StepPushes h (.packet session rand made packet) (h.handle session made request) := by
  unfold Hall.handle
  cases request with
  | echo text =>
    dsimp only [ClientPacket.handled]
    split <;> exact .same rfl
  | broadcast text => exact .calls rfl (fun _ => rfl) rfl
  | enter rand => exact .calls rfl (fun hkind => absurd rfl hkind) rfl
  | leave => exact .calls rfl (fun _ => rfl) rfl
  | move posX posY => exact .calls rfl (fun _ => rfl) rfl

theorem stepPushes_leave {h : Hall} {act : HallAct} {session : Nat}
    (hcaller : act.caller = some session) : StepPushes h act (h.pushLeave session) := by
  have hown : (⟨.leave, session⟩ : Job).kind ≠ .enter →
      (h.sessions session).roomID = (h.sessions session).roomID := fun _ => rfl
  exact @StepPushes.calls h act _ ⟨.leave, session⟩ _ hcaller hown rfl

theorem stepPushes_of_step {h h' : Hall} {act : HallAct} (hstep : hallStep h act = some h') :
    StepPushes h act h' := by
  cases act with
  | accept socket =>
    simp only [hallStep, Option.ite_none_left_eq_some] at hstep
    cases hstep.2
    exact .same rfl
  | packet session rand made packet =>
    simp only [hallStep, Option.ite_none_right_eq_some] at hstep
    obtain ⟨_, hstep⟩ := hstep
    split at hstep
    · cases hstep
      exact stepPushes_leave rfl
    · cases hstep
      exact stepPushes_handle _
  | fail session =>
    simp only [hallStep, Option.ite_none_right_eq_some] at hstep
    cases hstep.2
    exact stepPushes_leave rfl
  | push k =>
    obtain ⟨p, hplace, rfl⟩ := Option.map_eq_some_iff.mp hstep
    exact .advances hplace
  | run i mk nowTick =>
    simp only [hallStep, Option.ite_none_right_eq_some] at hstep
    obtain ⟨_, hstep⟩ := hstep
    split at hstep
    · contradiction
    · cases hstep
      exact .same (foldl_apply_pushes _ _)
  | tick i mk nowTick =>
    simp only [hallStep, Option.ite_none_right_eq_some] at hstep
    cases hstep.2
    exact .same (foldl_apply_pushes _ _)
  | stop =>
    cases hstep
    exact .same rfl

/-! ### Senders -/

/-- Every broadcast that a room sends to somebody comes from a session that is in the
room when it is sent. -/
def BroadcastsFromMembers (h : Hall) : Prop :=
  ∀ i < h.roomCount, ∀ text s rest, (h.rooms i).jobQueue = ⟨.broadcast text, s⟩ :: rest →
    ∀ mk, ((h.rooms i).room.broadCast s text mk).effects ≠ [] → (h.rooms i).room.Has s

def Job.broadcastOf (job : Job) (s : Nat) : Bool :=
  match job.kind with
  | .broadcast _ => job.session == s
  | _ => false

def Push.index : Push → Int
  | .pushJobByRooms _ index => index
  | .pushJob _ i => i

/-- A broadcast of `s` is on its way to room `i`, behind the job that is dispatched. -/
def broadcastPending (h : Hall) (i : Nat) (rest : List Job) (s : Nat) : Bool :=
  rest.any (fun job => job.broadcastOf s) ||
    h.pushes.any fun p => p.job.broadcastOf s && p.index == i

/-- A Leave job of a connected session, which takes an entry out of its room, leaves no
broadcast of that entry's session behind and no flag that names the room. -/
def leavesNoSender (h : Hall) : HallAct → Bool
  | .run i _ _ =>
    match (h.rooms i).jobQueue with
    | ⟨.leave, session⟩ :: rest =>
      !(h.sessions session).connected ||
        ((h.rooms i).room.member (h.sessions session).socket).all fun s =>
          !broadcastPending h i rest s && (s == session || (h.sessions s).roomID != i)
    | _ => true
  | _ => true

structure SenderInv (h : Hall) : Prop where
  ids : ∀ i, (h.rooms i).room.roomID = i
  rooms : ∀ s (i : Nat), (h.sessions s).roomID = i → (h.rooms i).room.Has s
  jobs : ∀ i s, ∀ job ∈ (h.rooms i).jobQueue, job.broadcastOf s = true → (h.rooms i).room.Has s
  pushes : ∀ (i : Nat) s, ∀ p ∈ h.pushes, p.job.broadcastOf s = true → p.index = i →
    (h.rooms i).room.Has s

theorem broadcastOf_session {job : Job} {s : Nat} (h : job.broadcastOf s = true) :
    s = job.session ∧ job.kind ≠ .enter := by
  obtain ⟨kind, session⟩ := job
  cases kind with
  | broadcast text => exact ⟨(beq_iff_eq.mp h).symm, nofun⟩
  | _ => contradiction

theorem senderInv_start (roomCount : Nat) : SenderInv (.start roomCount) :=
  ⟨fun _ => rfl, fun _ _ h => absurd h (by simp [Hall.start, Connection.reset]), nofun, nofun⟩

theorem SenderInv.pushes_step {h h' : Hall} {act : HallAct} (hinv : SenderInv h)
    (hstep : StepPushes h act h') (i : Nat) (s : Nat) (p : Push) (hp : p ∈ h'.pushes)
    (hof : p.job.broadcastOf s = true) (hindex : p.index = i) : (h.rooms i).room.Has s := by
  cases hstep with
  | same pushes => exact hinv.pushes i s p (pushes ▸ hp) hof hindex
  | calls caller own pushes =>
    rw [pushes] at hp
    rcases List.mem_append.mp hp with hp | hp
    · exact hinv.pushes i s p hp hof hindex
    · cases List.mem_singleton.mp hp
      obtain ⟨rfl, hkind⟩ := broadcastOf_session hof
      exact hinv.rooms _ i ((own hkind).symm.trans hindex)
  | @advances k q place =>
    have hq := List.mem_of_getElem? place
    cases q with
    | pushJobByRooms job index =>
      simp only [Hall.advance] at hp
      split at hp
      · exact hinv.pushes i s p ((mem_splice hp).resolve_left List.not_mem_nil) hof hindex
      · rename_i hrange
        rcases mem_splice hp with hp | hp
        · cases List.mem_singleton.mp hp
          apply hinv.pushes i s _ hq hof
          simp only [Hall.outOfRange, Bool.or_eq_true, decide_eq_true_eq, not_or] at hrange
          simp only [Push.index] at hindex ⊢
          omega
        · exact hinv.pushes i s p hp hof hindex
    | pushJob job j =>
      exact hinv.pushes i s p ((mem_splice hp).resolve_left List.not_mem_nil) hof hindex

/-- Members only come, and the flags and the queues name no new room. -/
theorem SenderInv.grows {h h' : Hall} {act : HallAct} (hinv : SenderInv h)
    (hstep : StepPushes h act h') (hids : ∀ i, (h'.rooms i).room.roomID = i)
    (hkeep : ∀ i s, (h.rooms i).room.Has s → (h'.rooms i).room.Has s)
    (hrooms : ∀ s (i : Nat), (h'.sessions s).roomID = i →
      (h.sessions s).roomID = i ∨ (h'.rooms i).room.Has s)
    (hjobs : ∀ i, ∀ job ∈ (h'.rooms i).jobQueue, job ∈ (h.rooms i).jobQueue ∨
      .pushJob job i ∈ h.pushes) : SenderInv h' where
  ids := hids
  rooms s i hs := (hrooms s i hs).elim (fun hs => hkeep i s (hinv.rooms s i hs)) id
  jobs i s job hjob hof := hkeep i s <|
    (hjobs i job hjob).elim (fun hjob => hinv.jobs i s job hjob hof)
      fun hpush => hinv.pushes i s _ hpush hof rfl
  pushes i s p hp hof hindex := hkeep i s (hinv.pushes_step hstep i s p hp hof hindex)

theorem setRoom_has {h : Hall} {i : Nat} {room : Room}
    (hkeep : ∀ s, (h.rooms i).room.Has s → room.Has s) (jobQueue : List Job) (j s : Nat)
    (hs : (h.rooms j).room.Has s) : ((h.setRoom i room jobQueue).rooms j).room.Has s := by
  by_cases hj : j = i
  · subst hj
    simp only [Hall.setRoom, Function.update_self]
    exact hkeep s hs
  · simp only [Hall.setRoom, Function.update_of_ne hj]
    exact hs

theorem senderInv_moves {h h' : Hall} {act : HallAct} (hinv : SenderInv h)
    (hok : leavesNoSender h act = true) (hstep : StepPushes h act h') (hmove : Moves h act h') :
    SenderInv h' := by
  cases hmove with
  | accepts =>
    apply hinv.grows hstep hinv.ids (fun _ _ hs => hs) ?_ fun _ _ hjob => .inl hjob
    intro s i hs
    by_cases hne : s = h.accepted
    · subst hne
      simp [Hall.setSession, Connection.reset] at hs
    · simp only [Hall.setSession, Function.update_of_ne hne] at hs
      exact .inl hs
  | calls | replies | closes | passes | stops =>
    exact hinv.grows hstep hinv.ids (fun _ _ hs => hs) (fun _ _ hs => .inl hs)
      fun _ _ hjob => .inl hjob
  | @queues k job i place =>
    exact hinv.grows hstep (setRoom_ids (h := { h with pushes := _ }) hinv.ids rfl _)
      (setRoom_has (h := { h with pushes := _ }) (fun _ hs => hs) _) (fun _ _ hs => .inl hs)
      (queued_jobs _ place)
  | @stays act i room jobQueue enqueued same jobs =>
    have hkeep : ∀ s, (h.rooms i).room.Has s → room.Has s := by
      rintro s ⟨n, hn⟩
      exact ⟨n, by rw [same.member, hn]⟩
    exact hinv.grows hstep (setRoom_ids hinv.ids same.roomID _) (setRoom_has hkeep _)
      (fun _ _ hs => .inl hs) fun j other hother => .inl (setRoom_jobs room jobs j other hother)
  | @enters mk nowTick enqueued i session room jobQueue inRange jobs fresh absent same =>
    have hkeep : ∀ s, (h.rooms i).room.Has s → room.Has s := by
      rintro s ⟨n, hn⟩
      have hne : n ≠ (h.sessions session).socket := by
        rintro rfl
        rw [absent] at hn
        contradiction
      exact ⟨n, by rw [same.member, Function.update_of_ne hne, hn]⟩
    apply hinv.grows hstep (setRoom_ids hinv.ids same.roomID _) (setRoom_has hkeep _) ?_ ?_
    · intro s j hs
      by_cases hne : s = session
      · subst hne
        simp only [Hall.setSession, Hall.setRoom, Function.update_self, hinv.ids] at hs
        cases Int.ofNat.inj hs
        right
        refine ⟨(h.sessions s).socket, ?_⟩
        simp only [Hall.setSession, Hall.setRoom, Function.update_self, same.member]
      · simp only [Hall.setSession, Hall.setRoom, Function.update_of_ne hne] at hs
        exact .inl hs
    · exact fun j other hother => .inl (setRoom_jobs room (mem_of_tail jobs) j other hother)
  | @leaves mk nowTick enqueued i session room jobQueue jobs connected same =>
    simp only [leavesNoSender, jobs, connected, Bool.not_true, Bool.false_or] at hok
    -- everybody stays, but for the entry that is erased
    have hremains (j s : Nat) (hs : (h.rooms j).room.Has s) :
        ((h.setRoom i room jobQueue).rooms j).room.Has s ∨
          j = i ∧ (h.rooms i).room.member (h.sessions session).socket = some s := by
      obtain ⟨n, hn⟩ := hs
      by_cases hj : j = i
      · subst hj
        by_cases hkey : n = (h.sessions session).socket
        · exact .inr ⟨rfl, hkey ▸ hn⟩
        · left
          refine ⟨n, ?_⟩
          simp only [Hall.setRoom, Function.update_self, same.member, Function.update_of_ne hkey, hn]
      · left
        refine ⟨n, ?_⟩
        simp only [Hall.setRoom, Function.update_of_ne hj, hn]
    have hclear {s : Nat} (hs : (h.rooms i).room.member (h.sessions session).socket = some s) :
        broadcastPending h i jobQueue s = false ∧
          (s = session ∨ (h.sessions s).roomID ≠ i) := by
      rw [hs] at hok
      simpa [Bool.not_eq_true'] using hok
    refine ⟨setRoom_ids hinv.ids same.roomID jobQueue, fun s j hs => ?_, fun j s job hjob hof => ?_,
      fun j s p hp hof hindex => ?_⟩
    · by_cases hne : s = session
      · subst hne
        simp [Hall.closeSession, Hall.setSession] at hs
      · simp only [Hall.closeSession, Hall.setSession, Hall.setRoom,
          Function.update_of_ne hne] at hs
        apply (hremains j s (hinv.rooms s j hs)).resolve_right
        rintro ⟨rfl, herased⟩
        exact (hclear herased).2.elim hne fun hroom => hroom hs
    · have hold : job ∈ (h.rooms j).jobQueue ∧ (j = i → job ∈ jobQueue) := by
        by_cases hj : j = i
        · subst hj
          simp only [Hall.closeSession, Hall.setSession, Hall.setRoom, Function.update_self] at hjob
          exact ⟨jobs ▸ List.mem_cons_of_mem _ hjob, fun _ => hjob⟩
        · simp only [Hall.closeSession, Hall.setSession, Hall.setRoom,
            Function.update_of_ne hj] at hjob
          exact ⟨hjob, fun heq => absurd heq hj⟩
      apply (hremains j s (hinv.jobs j s job hold.1 hof)).resolve_right
      rintro ⟨rfl, herased⟩
      have hnone := (Bool.or_eq_false_iff.mp (hclear herased).1).1
      rw [List.any_eq_false] at hnone
      exact hnone job (hold.2 rfl) hof
    · apply (hremains j s (hinv.pushes j s p hp hof hindex)).resolve_right
      rintro ⟨rfl, herased⟩
      have hnone := (Bool.or_eq_false_iff.mp (hclear herased).1).2
      rw [List.any_eq_false] at hnone
      apply hnone p hp
      simp [hof, hindex]

theorem broadcasts_from_members {roomCount : Nat} {h : Hall}
    (hr : Reaches hallStep (fun h act => leavesNoSender h act = true) (.start roomCount) h) :
    BroadcastsFromMembers h := by
  have hinv : SenderInv h := by
    apply hr.invariant (senderInv_start roomCount)
    intro h act h' _ hinv hok hstep
    exact senderInv_moves hinv hok (stepPushes_of_step hstep) (moves_of_step hstep)
  intro i _ text s rest hjobs mk _
  apply hinv.jobs i s ⟨.broadcast text, s⟩
  · rw [hjobs]
    exact List.mem_cons_self
  · exact beq_self_eq_true s

def pushed (session : Nat) (packet : Packet) : List HallAct :=
  [.packet session 0 true packet, .push 0, .push 0]

def twoMembers : List HallAct :=
  .accept 100 :: .accept 101 :: pushed 1 (bare PacketType.CLIENT_ENTER) ++ dispatches 0 ::
    pushed 0 (bare PacketType.CLIENT_ENTER) ++ [dispatches 0]

def chat : Packet := ⟨PacketType.CLIENT_BROADCAST, List.replicate 64 0⟩

def broadcastNext (h : Hall) : Bool :=
  h.roomCount == 5 && match (h.rooms 0).jobQueue with
    | ⟨.broadcast text, 0⟩ :: _ =>
      !((h.rooms 0).room.broadCast 0 text fun _ => true).effects.isEmpty
    | _ => false

theorem broadcasts_from_members_two :
    ∃ h, run hallStep (.start 5) (twoMembers ++ pushed 0 chat) = some h ∧
      broadcastNext h = true ∧ BroadcastsFromMembers h := by
  have hrun : (run (guarded hallStep fun h act => leavesNoSender h act = true) (.start 5)
      (twoMembers ++ pushed 0 chat)).any broadcastNext = true := by decide +kernel
  obtain ⟨h, hrun, hnext⟩ := (Option.any_eq_true _ _).mp hrun
  exact ⟨h, run_of_guarded _ hrun, hnext, broadcasts_from_members (reaches_of_run _ .start hrun)⟩

def leaveThenChat : List HallAct :=
  twoMembers ++ pushed 0 (bare PacketType.CLIENT_LEAVE) ++ pushed 0 chat ++ [dispatches 0]

theorem Room.session_of_has {room : Room} {s : Nat} (h : room.Has s) :
    ∃ user ∈ room.roomUser.values, user.session = s := by
  obtain ⟨socket, hsocket⟩ := h
  obtain ⟨user, hfind, hsession⟩ := Option.map_eq_some_iff.mp hsocket
  exact ⟨user, OrderedMap.mem_values.mpr ⟨socket, hfind⟩, hsession⟩

theorem leaver_broadcasts :
    ∃ h, run hallStep (.start 5) leaveThenChat = some h ∧ ¬BroadcastsFromMembers h := by
  have hrun : (run hallStep (.start 5) leaveThenChat).any (fun h =>
      broadcastNext h && (h.rooms 0).room.roomUser.values.all fun user => user.session != 0) =
        true := by decide +kernel
  obtain ⟨h, hrun, hfinal⟩ := (Option.any_eq_true _ _).mp hrun
  obtain ⟨hnext, hgone⟩ := Bool.and_eq_true_iff.mp hfinal
  refine ⟨h, hrun, ?_⟩
  intro hmembers
  obtain ⟨hcount, hnext⟩ := Bool.and_eq_true_iff.mp hnext
  split at hnext
  · rename_i text rest hjobs
    have hhas := hmembers 0 (by rw [beq_iff_eq.mp hcount]; decide) text 0 rest hjobs
      (fun _ => true) (by simpa using hnext)
    obtain ⟨user, huser, hsession⟩ := Room.session_of_has hhas
    have hother := List.all_eq_true.mp hgone user huser
    rw [hsession] at hother
    exact absurd hother Bool.false_ne_true
  · exact absurd hnext Bool.false_ne_true

end RoomServer
