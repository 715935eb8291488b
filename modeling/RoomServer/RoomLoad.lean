import RoomServer.MemberLog
import RoomServer.Pipelining

/-! The rooms under the room load test. First everybody enters and nobody does anything
else; then the members send BROADCASTs and nothing else. -/
namespace RoomServer
open Library Library.Transition Library.Threads

/-- `CLIENT_ENTER` packets and what follows from them; every packet is made. -/
def HallAct.Enters : HallAct → Prop
  | .accept _ | .push _ => True
  | .packet _ _ _ p => p.type = PacketType.CLIENT_ENTER
  | .run _ mk _ | .tick _ mk _ => ∀ n, mk n = true
  | .fail _ | .stop => False

/-- `CLIENT_BROADCAST` packets of those who are in a room, and what follows from them. -/
def HallAct.Chats (h : Hall) : HallAct → Prop
  | .packet session _ _ p => (h.sessions session).connected = true ∧ ValidBroadcast p
  | .push _ => True
  | .run _ mk _ | .tick _ mk _ => ∀ n, mk n = true
  | .accept _ | .fail _ | .stop => False

structure Hall.Quiet (h : Hall) : Prop where
  pushes : h.pushes = []
  jobs : ∀ i, (h.rooms i).jobQueue = []

theorem foldl_enqueued (effects : List Effect) (h : Hall) (a : Nat) :
    (effects.foldl Hall.apply h).enqueued a = h.enqueued a ++ sentTo a effects := by
  induction effects generalizing h with
  | nil => exact (List.append_nil _).symm
  | cons e rest ih =>
    rw [List.foldl_cons, ih]
    cases e with
    | insertSendQueue session sendChunk =>
      by_cases ha : session = a
      · subst ha
        simp [Hall.apply, sentTo_self]
      · simp [Hall.apply, sentTo_other ha, Function.update_of_ne (Ne.symm ha)]
    | connect session => rfl
    | disConnected session => rfl
    | setRoomID session roomID => rfl
    | closeSession session => rfl

theorem sends_enqueued {p : Nat → Prop} {effects : List Effect} (h : Hall)
    (hsends : SendsTo p effects) :
    effects.foldl Hall.apply h =
      { h with enqueued := fun a => h.enqueued a ++ sentTo a effects } := by
  obtain ⟨enqueued, happly⟩ := sends_apply h hsends
  rw [happly]
  congr 1
  funext a
  rw [← foldl_enqueued effects h a, happly]

/-! ### Nobody moves -/

namespace Room

def AtRest (room : Room) : Prop := ∀ user ∈ room.roomUser.values, user.isMove = false

theorem atRest_new (roomID : Int) : (Room.new roomID).AtRest := by
  intro user huser
  obtain ⟨k, hk⟩ := OrderedMap.mem_values.mp huser
  change (OrderedMap.empty : OrderedMap Nat RoomUser).find k = some user at hk
  rw [OrderedMap.find_empty] at hk
  contradiction

theorem AtRest.find {room : Room} (h : room.AtRest) {k : Nat} {user : RoomUser}
    (hfind : room.roomUser.find k = some user) : user.isMove = false :=
  h user (mem_values_of_find hfind)

theorem moveUsers_rest (users : List RoomUser) (nowTick : Nat) (mk : Nat → Bool)
    {rest : List RoomUser} (h : ∀ user ∈ rest, user.isMove = false) (calls : Nat) :
    moveUsers users nowTick mk rest .empty calls = [] := by
  induction rest with
  | nil => rfl
  | cons user rest ih =>
    rw [List.forall_mem_cons] at h
    rw [moveUsers, if_pos h.1]
    exact ih h.2

theorem AtRest.tick {room : Room} (h : room.AtRest) (nowTick : Nat) (mk : Nat → Bool) :
    (room.tick nowTick mk).effects = [] ∧ (room.tick nowTick mk).room.AtRest ∧
      (room.tick nowTick mk).room.sessions = room.sessions := by
  unfold Room.tick
  split
  case isFalse => exact ⟨rfl, h, rfl⟩
  case isTrue =>
    refine ⟨?_, fun user huser => ?_, ?_⟩
    · rw [Outcome.effects]
      exact moveUsers_rest _ nowTick mk h 0
    · obtain ⟨k, hk⟩ := OrderedMap.mem_values.mp huser
      change (room.roomUser.mapValues fun _ user => movePosition user nowTick).find k =
        some user at hk
      rw [OrderedMap.find_mapValues, Option.map_eq_some_iff] at hk
      obtain ⟨before, hbefore, rfl⟩ := hk
      rw [movePosition_rest (h.find hbefore)]
      exact h.find hbefore
    · exact OrderedMap.map_values_mapValues (fun _ user => movePosition_session user nowTick) _

end Room

/-! ### Entering -/

def ServerPacket.admits : ServerPacket ι → Option Int
  | .enter roomID _ => if roomID = -1 then none else some roomID
  | _ => none

/-- What `Enter` does, when every packet is made, to the rest of the users and to those who
read acknowledgements. -/
inductive Admission (room : Room) (session socket : Nat) (isConnected : Bool) (o : Outcome) :
    Prop where
  | refused (roomUser : o.room.roomUser = room.roomUser) (sends : SendsTo (fun _ => True) o.effects)
      (silent : ∀ a, (sentTo a o.effects).filterMap ServerPacket.admits = [])
  | admitted {id : Nat} {sends : List Effect} (fresh : isConnected = false)
      (inserted : (room.roomUser.insert socket (.enter session 0 0 id)).2 = true)
      (roomUser : o.room.roomUser = (room.roomUser.insert socket (.enter session 0 0 id)).1)
      (effects : o.effects =
        .connect session :: .setRoomID session room.roomID :: sends)
      (sends_to : SendsTo (fun _ => True) sends)
      (told : ∀ a, (sentTo a sends).filterMap ServerPacket.admits =
        if a = session then room.roomID :: [] else [])

theorem admits_batches (batches : List (Server_Spawn ℚ)) :
    (batches.map ServerPacket.spawn).filterMap ServerPacket.admits = [] := by
  rw [List.filterMap_map, List.filterMap_eq_nil_iff]
  exact fun _ _ => rfl

theorem Room.enter_admission {room : Room} {mk : Nat → Bool} (hmade : ∀ n, mk n = true)
    (hroomID : 0 ≤ room.roomID) (session socket : Nat) (isConnected : Bool) :
    Admission room session socket isConnected (room.enter session socket isConnected mk) := by
  unfold enter
  split
  case isTrue => exact .refused rfl (sendsTo_nil _) fun _ => rfl
  case isFalse hfresh =>
    split
    case h_1 hfull =>
      rw [if_pos (hmade 0)]
      refine .refused rfl (sendsTo_cons trivial _ (sendsTo_nil _)) fun a => ?_
      by_cases ha : session = a
      · subst ha
        rw [Outcome.effects, List.nil_append, sentTo_self]
        rfl
      · rw [Outcome.effects, List.nil_append, sentTo_other ha]
        rfl
    case h_2 seqID seqIDs hfree =>
      simp only [hmade, Bool.true_and]
      split
      case isFalse => exact .refused rfl (sendsTo_nil _) fun _ => rfl
      case isTrue hinserted =>
        refine .admitted (Bool.not_eq_true _ ▸ hfresh) hinserted rfl rfl
          (sendsTo_cons trivial _ (spawnUsers_sendsTo trivial _ mk _ (fun _ _ => trivial) _ 2))
          fun a => ?_
        split
        case isTrue ha =>
          subst ha
          obtain ⟨batches, hsent, _⟩ := spawnUsers_batches a
            (.spawn ((DataList.empty : Server_Spawn ℚ).add (RoomUser.enter a 0 0 seqID).data).1)
            mk (room.roomUser.insert socket (.enter a 0 0 seqID)).1.values .empty 2
          have hroom : room.roomID ≠ -1 := by omega
          rw [sentTo_self, hsent, List.filterMap_cons, admits_batches]
          simp [ServerPacket.admits, hroom]
        case isFalse ha =>
          rw [sentTo_other (Ne.symm ha), sentTo_spawnUsers ha, List.filterMap_eq_nil_iff]
          intro packet hpacket
          rw [List.eq_of_mem_replicate hpacket]
          rfl

theorem Room.AtRest.insert {room room' : Room} (h : room.AtRest) {socket session id : Nat}
    (hinserted : (room.roomUser.insert socket (.enter session 0 0 id)).2 = true)
    (hroom : room'.roomUser = (room.roomUser.insert socket (.enter session 0 0 id)).1) :
    room'.AtRest := by
  intro user huser
  obtain ⟨k, hk⟩ := OrderedMap.mem_values.mp huser
  rw [hroom, OrderedMap.find_insert hinserted] at hk
  split at hk
  · cases hk
    rfl
  · exact h.find hk

/-- The rooms while everybody enters. -/
structure EnterInv (h : Hall) : Prop where
  flags : FlagsInv h
  running : h.stop = false
  pushes : ∀ p ∈ h.pushes, p.job.kind = .enter
  jobs : ∀ i, ∀ job ∈ (h.rooms i).jobQueue, job.kind = .enter
  rests : ∀ i, (h.rooms i).room.AtRest
  acks : ∀ s, (h.enqueued s).filterMap ServerPacket.admits =
    if (h.sessions s).connected then [(h.sessions s).roomID] else []

section Enter
variable {h h' : Hall} {act : HallAct} {i : Nat}

theorem EnterInv.leavesOwnRoom (hinv : EnterInv h) (act : HallAct) :
    leavesOwnRoom h act = true := by
  cases act with
  | run i mk nowTick =>
    rw [RoomServer.leavesOwnRoom]
    split
    case h_1 session rest hjobs =>
      have hkind := hinv.jobs i ⟨.leave, session⟩ (hjobs ▸ List.mem_cons_self)
      contradiction
    case h_2 => rfl
  | _ => rfl

theorem setRoom_rests (hrests : ∀ j, (h.rooms j).room.AtRest) {room : Room} (hroom : room.AtRest)
    (jobQueue : List Job) (j : Nat) : ((h.setRoom i room jobQueue).rooms j).room.AtRest := by
  by_cases hj : j = i
  · subst hj
    simpa only [Hall.setRoom, Function.update_self] using hroom
  · simpa only [Hall.setRoom, Function.update_of_ne hj] using hrests j

theorem EnterInv.run (hinv : EnterInv h) {mk : Nat → Bool} (hmade : ∀ n, mk n = true)
    (nowTick : Nat) {job : Job} {rest : List Job} (hjobs : (h.rooms i).jobQueue = job :: rest)
    (hflags : FlagsInv (h.finish i (job.dispatch (h.rooms i).room (h.sessions job.session).socket
      (h.sessions job.session).connected mk nowTick) rest)) :
    EnterInv (h.finish i (job.dispatch (h.rooms i).room (h.sessions job.session).socket
      (h.sessions job.session).connected mk nowTick) rest) := by
  have hqueued (room : Room) (j : Nat) (other : Job)
      (hother : other ∈ ((h.setRoom i room rest).rooms j).jobQueue) : other.kind = .enter :=
    hinv.jobs j other (setRoom_jobs room (mem_of_tail hjobs) j other hother)
  have hroomID : 0 ≤ (h.rooms i).room.roomID := hinv.flags.ids i ▸ Int.natCast_nonneg i
  have hkind := hinv.jobs i job (hjobs ▸ List.mem_cons_self)
  obtain ⟨kind, session⟩ := job
  cases hkind
  have hadmission := Room.enter_admission hmade hroomID session (h.sessions session).socket
    (h.sessions session).connected
  change FlagsInv (h.finish i ((h.rooms i).room.enter session (h.sessions session).socket
    (h.sessions session).connected mk) rest) at hflags
  change EnterInv (h.finish i ((h.rooms i).room.enter session (h.sessions session).socket
    (h.sessions session).connected mk) rest)
  unfold Hall.finish at hflags ⊢
  cases hadmission with
  | refused roomUser sends silent =>
    rw [sends_enqueued _ sends] at hflags ⊢
    refine ⟨hflags, hinv.running, hinv.pushes, hqueued _, ?_, fun s => ?_⟩
    · apply setRoom_rests hinv.rests
      rw [Room.AtRest, roomUser]
      exact hinv.rests i
    · change (h.enqueued s ++ sentTo s _).filterMap ServerPacket.admits = _
      rw [List.filterMap_append, silent, List.append_nil]
      exact hinv.acks s
  | admitted fresh inserted roomUser effects sends_to told =>
    rw [effects, List.foldl_cons, List.foldl_cons, sends_enqueued _ sends_to] at hflags ⊢
    refine ⟨hflags, hinv.running, hinv.pushes, hqueued _, ?_, fun s => ?_⟩
    · exact setRoom_rests hinv.rests ((hinv.rests i).insert inserted roomUser) rest
    · change (h.enqueued s ++ sentTo s _).filterMap ServerPacket.admits = _
      rw [List.filterMap_append, told, hinv.acks s]
      by_cases hs : s = session
      · subst hs
        simp [Hall.apply, Hall.setSession, Hall.setRoom, fresh]
      · simp [Hall.apply, Hall.setSession, Hall.setRoom, hs]

theorem EnterInv.step (hinv : EnterInv h) (hknown : KnownInv h) (henters : act.Enters)
    (hstep : hallStep h act = some h') : EnterInv h' := by
  have hflags := flagsInv_moves hknown hinv.flags (hinv.leavesOwnRoom act) (moves_of_step hstep)
  cases act with
  | fail session => exact henters.elim
  | stop => exact henters.elim
  | accept socket =>
    obtain ⟨_, heq⟩ := Option.ite_none_left_eq_some.mp hstep
    cases heq
    refine ⟨hflags, hinv.running, hinv.pushes, hinv.jobs, hinv.rests, fun s => ?_⟩
    by_cases hs : s = h.accepted
    · subst hs
      have hfresh : (h.sessions h.accepted).connected = false := by
        by_contra hconnected
        rw [Bool.not_eq_false] at hconnected
        exact absurd (hinv.flags.has _ hconnected).1 (Nat.lt_irrefl _)
      have hacks := hinv.acks h.accepted
      simpa [Hall.setSession, hfresh, Connection.reset] using hacks
    · simpa [Hall.setSession, hs] using hinv.acks s
  | packet session rand made p =>
    have hsession := (Option.ite_none_right_eq_some.mp hstep).1
    rw [(handled_enter hsession henters rand made).2] at hstep
    cases hstep
    refine ⟨hflags, hinv.running, fun push hpush => ?_, hinv.jobs, hinv.rests, hinv.acks⟩
    rcases List.mem_append.mp hpush with hpush | hpush
    · exact hinv.pushes push hpush
    · cases List.mem_singleton.mp hpush
      rfl
  | push k =>
    obtain ⟨push, hplace, rfl⟩ := Option.map_eq_some_iff.mp hstep
    have hkind := hinv.pushes push (List.mem_of_getElem? hplace)
    have hothers : ∀ p ∈ splice h.pushes k [], p.job.kind = .enter := fun p hp =>
      hinv.pushes p ((mem_splice hp).resolve_left List.not_mem_nil)
    cases push with
    | pushJobByRooms job index =>
      rw [Hall.advance] at hflags ⊢
      split at hflags
      · rename_i hout
        rw [if_pos hout]
        exact ⟨hflags, hinv.running, hothers, hinv.jobs, hinv.rests, hinv.acks⟩
      · rename_i hout
        rw [if_neg hout]
        refine ⟨hflags, hinv.running, fun p hp => ?_, hinv.jobs, hinv.rests, hinv.acks⟩
        rcases mem_splice hp with hp | hp
        · cases List.mem_singleton.mp hp
          exact hkind
        · exact hinv.pushes p hp
    | pushJob job j =>
      refine ⟨hflags, hinv.running, hothers, fun j' other hother => ?_,
        setRoom_rests hinv.rests (hinv.rests j) _, hinv.acks⟩
      rcases queued_jobs _ hplace j' other hother with hqueued | hpushed
      · exact hinv.jobs j' other hqueued
      · exact hinv.pushes _ hpushed
  | run i mk nowTick =>
    obtain ⟨_, hrun⟩ := Option.ite_none_right_eq_some.mp hstep
    split at hrun
    · contradiction
    · rename_i job rest hjobs
      cases hrun
      exact hinv.run henters nowTick hjobs hflags
  | tick i mk nowTick =>
    obtain ⟨_, htick⟩ := Option.ite_none_right_eq_some.mp hstep
    cases htick
    obtain ⟨heffects, hrests, _⟩ := (hinv.rests i).tick nowTick mk
    rw [Hall.finish, heffects] at hflags ⊢
    exact ⟨hflags, hinv.running, hinv.pushes, fun j other hother => hinv.jobs j other
      (setRoom_jobs _ (fun _ => id) j other hother), setRoom_rests hinv.rests hrests _, hinv.acks⟩

end Enter

theorem enterInv_reaches {roomCount : Nat} {h : Hall}
    (hr : Reaches hallStep (fun _ act => act.Enters) (.start roomCount) h) : EnterInv h := by
  have hstart : EnterInv (.start roomCount) :=
    ⟨flagsInv_start roomCount, rfl, nofun, nofun, fun i => Room.atRest_new i, fun _ => rfl⟩
  apply hr.invariant hstart
  intro h act h' hreaches hinv henters hstep
  exact hinv.step (knownInv_reaches hreaches) henters hstep

/-! ### Chatting -/

def Job.text (job : Job) : List Byte :=
  match job.kind with
  | .broadcast text => text
  | _ => []

structure Hall.Says (h : Hall) (i : Nat) (job : Job) : Prop where
  kind : job.kind = .broadcast job.text
  inRange : i < h.roomCount
  member : job.session ∈ (h.rooms i).room.sessions

/-- The jobs for room `i` that workers have not yet pushed. -/
def bound (i : Nat) (pushes : List Push) : List Job :=
  (pushes.filter fun p => p.target.1 = i).map Push.job

def Hall.pending (h : Hall) (i : Nat) : List Job := (h.rooms i).jobQueue ++ bound i h.pushes

/-- The BROADCASTs that members of room `i` have sent. -/
def sentIn (h : Hall) (i : Nat) (acts : List HallAct) : List Job :=
  acts.filterMap fun
    | .packet session _ _ p =>
      if (h.sessions session).roomID = i then some ⟨.broadcast p.body, session⟩ else none
    | _ => none

theorem bound_append (i : Nat) (first second : List Push) :
    bound i (first ++ second) = bound i first ++ bound i second := by
  rw [bound, List.filter_append, List.map_append]
  rfl

theorem bound_singleton (i : Nat) (p : Push) :
    bound i [p] = if p.target.1 = i then [p.job] else [] := by
  by_cases hi : p.target.1 = i <;> simp [bound, hi]

theorem bound_splice {pushes : List Push} {k : Nat} {p : Push} (next : List Push)
    (hplace : pushes[k]? = some p) (i : Nat) :
    (bound i [p] ++ bound i (splice pushes k next)).Perm (bound i next ++ bound i pushes) := by
  rw [← bound_append, ← bound_append]
  exact ((perm_splice next hplace).filter _).map _

section Members
variable {base : Hall} {i : Nat} {s : Nat}

theorem has_iff_sessions {room : Room} : room.Has s ↔ s ∈ room.sessions := by
  constructor
  · rintro ⟨n, hn⟩
    obtain ⟨user, hfind, rfl⟩ := Option.map_eq_some_iff.mp hn
    exact List.mem_map_of_mem (mem_values_of_find hfind)
  · intro hmem
    obtain ⟨user, huser, rfl⟩ := List.mem_map.mp hmem
    exact Room.session_of_values huser

theorem FlagsInv.sessions_nodup (h : FlagsInv base) (i : Nat) :
    (base.rooms i).room.sessions.Nodup := by
  apply OrderedMap.nodup_of_key fun s => (base.sessions s).socket
  intro n user hfind
  have hmember : (base.rooms i).room.member n = some user.session := by
    rw [Room.member, hfind]
    rfl
  rw [(h.member i n user.session hmember).2]

theorem FlagsInv.member_room (h : FlagsInv base) (hs : s ∈ (base.rooms i).room.sessions) :
    i < base.roomCount ∧ (base.sessions s).connected = true ∧ (base.sessions s).roomID = i := by
  obtain ⟨n, hn⟩ := has_iff_sessions.mpr hs
  obtain ⟨hi, hsession⟩ := h.member i n s hn
  rw [hsession]
  exact ⟨hi, rfl, rfl⟩

theorem FlagsInv.room_of_connected (h : FlagsInv base)
    (hs : (base.sessions s).connected = true) :
    s < base.accepted ∧ ∃ i < base.roomCount, (base.sessions s).roomID = i ∧
      s ∈ (base.rooms i).room.sessions := by
  obtain ⟨hlt, i, n, hn⟩ := h.has s hs
  obtain ⟨hi, hsession⟩ := h.member i n s hn
  refine ⟨hlt, i, hi, ?_, has_iff_sessions.mp ⟨n, hn⟩⟩
  rw [hsession]

end Members

theorem sendOthers_nodup {room : Room} (hnodup : room.sessions.Nodup) (session a : Nat)
    (sendChunk : ServerPacket ℚ) :
    sentTo a (room.sendOthers session sendChunk) =
      if a ∈ room.sessions ∧ a ≠ session then [sendChunk] else [] := by
  by_cases ha : a = session
  · subst ha
    rw [Room.sentTo_sendOthers_self, if_neg fun h => h.2 rfl]
  · rw [room.sentTo_sendOthers session sendChunk ha]
    by_cases hmem : a ∈ room.sessions
    · rw [List.count_eq_one_of_mem hnodup hmem, if_pos ⟨hmem, ha⟩]
      rfl
    · rw [List.count_eq_zero.mpr hmem, if_neg fun h => hmem h.1]
      rfl

/-- The rooms while the members of `base` chat: who said what so far, and in which order
each room has passed it on. -/
structure Chatting (base : Hall) (sent done : Nat → List Job) (h : Hall) : Prop where
  sessions : h.sessions = base.sessions
  roomCount : h.roomCount = base.roomCount
  accepted : h.accepted = base.accepted
  running : h.stop = false
  rests : ∀ i, (h.rooms i).room.AtRest
  members : ∀ i, (h.rooms i).room.sessions = (base.rooms i).room.sessions
  pushes : ∀ p ∈ h.pushes, ∃ (i : Nat) (job : Job), base.Says i job ∧
    (p = .pushJobByRooms job i ∨ p = .pushJob job i)
  jobs : ∀ i, ∀ job ∈ (h.rooms i).jobQueue, base.Says i job
  balance : ∀ i, (done i ++ h.pending i).Perm (sent i)
  heard : ∀ i, ∀ s ∈ (base.rooms i).room.sessions, h.enqueued s = base.enqueued s ++
    ((done i).filter (·.session ≠ s)).map (.broadcast ·.text)
  others : ∀ s, (base.sessions s).connected = false → h.enqueued s = base.enqueued s

section Chat
variable {base h h' : Hall} {act : HallAct} {sent done : Nat → List Job} {i : Nat}

theorem Chatting.start (hbase : EnterInv base) (hquiet : base.Quiet) :
    Chatting base (fun _ => []) (fun _ => []) base where
  sessions := rfl
  roomCount := rfl
  accepted := rfl
  running := hbase.running
  rests := hbase.rests
  members _ := rfl
  pushes p hp := absurd hp (hquiet.pushes ▸ List.not_mem_nil)
  jobs i job hjob := absurd hjob (hquiet.jobs i ▸ List.not_mem_nil)
  balance i := by
    rw [Hall.pending, hquiet.jobs, hquiet.pushes]
    exact .nil
  heard i s _ := (List.append_nil _).symm
  others s _ := rfl

theorem Chatting.packet (hchat : Chatting base sent done h) (hflags : FlagsInv base)
    {session rand : Nat} {made : Bool} {p : Packet}
    (hchats : (HallAct.packet session rand made p).Chats base)
    (hstep : hallStep h (.packet session rand made p) = some h') :
    Chatting base (fun i => sent i ++ sentIn base i [.packet session rand made p]) done h' := by
  obtain ⟨hconnected, hvalid⟩ := hchats
  obtain ⟨hlt, i, hi, hroomID, hmem⟩ := hflags.room_of_connected hconnected
  have hknown : session < h.accepted := hchat.accepted ▸ hlt
  have hnext : h' = { h with
      pushes := h.pushes ++ [.pushJobByRooms ⟨.broadcast p.body, session⟩ i] } := by
    rw [hallStep, if_pos hknown, dispatch_broadcast hvalid] at hstep
    rw [← Option.some.inj hstep, ← hroomID, ← hchat.sessions]
    rfl
  subst hnext
  refine { hchat with pushes := fun push hpush => ?_, balance := fun j => ?_ }
  · rcases List.mem_append.mp hpush with hpush | hpush
    · exact hchat.pushes push hpush
    · exact ⟨i, _, ⟨rfl, hi, hmem⟩, .inl (List.mem_singleton.mp hpush)⟩
  · have hsent : sentIn base j [.packet session rand made p] =
        bound j [.pushJobByRooms ⟨.broadcast p.body, session⟩ i] := by
      rw [bound_singleton]
      by_cases hj : i = j <;> simp [sentIn, hroomID, Push.target, Push.index, Push.job, hj]
    rw [Hall.pending, bound_append, hsent, ← List.append_assoc, ← List.append_assoc]
    exact (List.append_assoc _ _ _ ▸ hchat.balance j).append_right _

theorem Chatting.push (hchat : Chatting base sent done h) {k : Nat}
    (hstep : hallStep h (.push k) = some h') : Chatting base sent done h' := by
  obtain ⟨push, hplace, rfl⟩ := Option.map_eq_some_iff.mp hstep
  obtain ⟨i, job, hsaid, hpush⟩ := hchat.pushes push (List.mem_of_getElem? hplace)
  rcases hpush with rfl | rfl
  · have hout : h.outOfRange i = false := by
      have hi := hchat.roomCount ▸ hsaid.inRange
      simp [Hall.outOfRange, hchat.running, hi]
    rw [Hall.advance, hout, if_neg Bool.false_ne_true]
    refine { hchat with pushes := fun p hp => ?_, balance := fun j => ?_ }
    · rcases mem_splice hp with hp | hp
      · exact ⟨i, job, hsaid, .inr (List.mem_singleton.mp hp)⟩
      · exact hchat.pushes p hp
    · have hsplice := bound_splice [.pushJob job i] hplace j
      have hsame : bound j [.pushJob job i] = bound j [.pushJobByRooms job i] := by
        rw [bound_singleton, bound_singleton]
        rfl
      rw [hsame, List.perm_append_left_iff] at hsplice
      exact ((hsplice.append_left _).append_left _).trans (hchat.balance j)
  · rw [Hall.advance]
    refine { hchat with
      rests := setRoom_rests hchat.rests (hchat.rests i) _
      members := fun j => ?_, pushes := fun p hp => ?_, jobs := fun j other hother => ?_
      balance := fun j => ?_ }
    · by_cases hj : j = i
      · subst hj
        simpa only [Hall.setRoom, Function.update_self] using hchat.members j
      · simpa only [Hall.setRoom, Function.update_of_ne hj] using hchat.members j
    · exact hchat.pushes p ((mem_splice hp).resolve_left List.not_mem_nil)
    · by_cases hj : j = i
      · subst hj
        simp only [Hall.setRoom, Function.update_self] at hother
        rcases List.mem_append.mp hother with hother | hother
        · exact hchat.jobs j other hother
        · exact List.mem_singleton.mp hother ▸ hsaid
      · simp only [Hall.setRoom, Function.update_of_ne hj] at hother
        exact hchat.jobs j other hother
    · have hsplice := bound_splice [] hplace j
      have htarget : (Push.pushJob job i).target = (i, job) := rfl
      rw [bound_singleton, htarget] at hsplice
      refine List.Perm.trans (List.Perm.append_left _ ?_) (hchat.balance j)
      by_cases hj : j = i
      · subst hj
        rw [if_pos rfl] at hsplice
        simp only [Hall.pending, Hall.setRoom, Function.update_self, List.append_assoc]
        exact hsplice.append_left _
      · rw [if_neg fun heq => hj heq.symm] at hsplice
        simp only [Hall.pending, Hall.setRoom, Function.update_of_ne hj]
        exact hsplice.append_left _

theorem Chatting.run (hchat : Chatting base sent done h) (hflags : FlagsInv base) {mk : Nat → Bool}
    (hmade : ∀ n, mk n = true) {nowTick : Nat} (hstep : hallStep h (.run i mk nowTick) = some h') :
    ∃ done', Chatting base sent done' h' := by
  obtain ⟨_, hrun⟩ := Option.ite_none_right_eq_some.mp hstep
  split at hrun
  · contradiction
  rename_i job rest hjobs
  have hsaid := hchat.jobs i job (hjobs ▸ List.mem_cons_self)
  have hnodup : (h.rooms i).room.sessions.Nodup := hchat.members i ▸ hflags.sessions_nodup i
  have hsent (a : Nat) : sentTo a ((h.rooms i).room.sendOthers job.session (.broadcast job.text)) =
      if a ∈ (base.rooms i).room.sessions ∧ a ≠ job.session then [.broadcast job.text] else [] := by
    rw [sendOthers_nodup hnodup, hchat.members]
  have hnext : h' = { h.setRoom i (h.rooms i).room rest with
      enqueued := fun a => h.enqueued a ++
        sentTo a ((h.rooms i).room.sendOthers job.session (.broadcast job.text)) } := by
    have hdispatch : job.dispatch (h.rooms i).room (h.sessions job.session).socket
        (h.sessions job.session).connected mk nowTick =
          ⟨[], (h.rooms i).room, (h.rooms i).room.sendOthers job.session (.broadcast job.text)⟩ := by
      rw [Job.dispatch, hsaid.kind]
      dsimp only
      rw [Room.broadCast, if_pos (hmade 0)]
    dsimp only at hrun
    rw [hdispatch, Hall.finish, Outcome.effects, List.nil_append,
      sends_enqueued _ ((h.rooms i).room.sendOthers_sendsTo job.session _)] at hrun
    exact (Option.some.inj hrun).symm
  subst hnext
  refine ⟨Function.update done i (done i ++ [job]), { hchat with
    rests := setRoom_rests hchat.rests (hchat.rests i) rest
    members := fun j => ?_, jobs := fun j other hother => ?_, balance := fun j => ?_
    heard := fun j s hs => ?_, others := fun s hs => ?_ }⟩
  · by_cases hj : j = i
    · subst hj
      simpa only [Hall.setRoom, Function.update_self] using hchat.members j
    · simpa only [Hall.setRoom, Function.update_of_ne hj] using hchat.members j
  · exact hchat.jobs j other (setRoom_jobs _ (mem_of_tail hjobs) j other hother)
  · have hbalance := hchat.balance j
    by_cases hj : j = i
    · subst hj
      rw [Hall.pending, hjobs] at hbalance
      simpa only [Hall.pending, Hall.setRoom, Function.update_self, List.append_assoc,
        List.cons_append, List.nil_append] using hbalance
    · simpa only [Hall.pending, Hall.setRoom, Function.update_of_ne hj] using hbalance
  · change h.enqueued s ++ _ = _
    rw [hsent, hchat.heard j s hs]
    by_cases hj : j = i
    · subst hj
      by_cases hself : job.session = s
      · rw [if_neg fun hother => hother.2 hself.symm]
        simp [hself]
      · rw [if_pos ⟨hs, Ne.symm hself⟩]
        simp [hself]
    · have hroom := (hflags.member_room hs).2.2
      rw [if_neg, Function.update_of_ne hj, List.append_nil]
      rintro ⟨hmem, _⟩
      have hother := (hflags.member_room hmem).2.2
      exact hj (Int.ofNat_inj.mp (hroom.symm.trans hother))
  · change h.enqueued s ++ _ = _
    rw [hsent, if_neg, List.append_nil, hchat.others s hs]
    rintro ⟨hmem, _⟩
    have hconnected := (hflags.member_room hmem).2.1
    rw [hs] at hconnected
    contradiction

theorem Chatting.tick (hchat : Chatting base sent done h) {mk : Nat → Bool} {nowTick : Nat}
    (hstep : hallStep h (.tick i mk nowTick) = some h') : Chatting base sent done h' := by
  obtain ⟨_, htick⟩ := Option.ite_none_right_eq_some.mp hstep
  cases htick
  obtain ⟨heffects, hrests, hmembers⟩ := (hchat.rests i).tick nowTick mk
  rw [Hall.finish, heffects]
  refine { hchat with
    rests := setRoom_rests hchat.rests hrests _, members := fun j => ?_
    jobs := fun j other hother => ?_, balance := fun j => ?_ }
  · by_cases hj : j = i
    · subst hj
      simpa only [List.foldl_nil, Hall.setRoom, Function.update_self, hmembers]
        using hchat.members j
    · simpa only [List.foldl_nil, Hall.setRoom, Function.update_of_ne hj] using hchat.members j
  · exact hchat.jobs j other (setRoom_jobs _ (fun _ => id) j other hother)
  · have hbalance := hchat.balance j
    by_cases hj : j = i
    · subst hj
      simpa only [List.foldl_nil, Hall.pending, Hall.setRoom, Function.update_self] using hbalance
    · simpa only [List.foldl_nil, Hall.pending, Hall.setRoom, Function.update_of_ne hj]
        using hbalance

theorem Chatting.step (hchat : Chatting base sent done h) (hflags : FlagsInv base)
    (hchats : act.Chats base) (hstep : hallStep h act = some h') :
    ∃ done', Chatting base (fun i => sent i ++ sentIn base i [act]) done' h' := by
  have hquiet {done' : Nat → List Job} (hnone : ∀ i, sentIn base i [act] = [])
      (h : Chatting base sent done' h') :
      ∃ done', Chatting base (fun i => sent i ++ sentIn base i [act]) done' h' := by
    refine ⟨done', ?_⟩
    simpa only [hnone, List.append_nil] using h
  cases act with
  | accept socket => exact hchats.elim
  | fail session => exact hchats.elim
  | stop => exact hchats.elim
  | packet session rand made p => exact ⟨done, hchat.packet hflags hchats hstep⟩
  | push k => exact hquiet (fun _ => rfl) (hchat.push hstep)
  | run i mk nowTick =>
    obtain ⟨done', hnext⟩ := hchat.run hflags hchats hstep
    exact hquiet (fun _ => rfl) hnext
  | tick i mk nowTick => exact hquiet (fun _ => rfl) (hchat.tick hstep)

theorem sentIn_cons (base : Hall) (i : Nat) (act : HallAct) (acts : List HallAct) :
    sentIn base i (act :: acts) = sentIn base i [act] ++ sentIn base i acts := by
  rw [sentIn, ← List.singleton_append, List.filterMap_append]
  rfl

theorem Chatting.steps (hchat : Chatting base sent done h) (hflags : FlagsInv base)
    {acts : List HallAct} (hchats : ∀ act ∈ acts, act.Chats base)
    (hrun : Transition.run hallStep h acts = some h') :
    ∃ done', Chatting base (fun i => sent i ++ sentIn base i acts) done' h' := by
  induction acts generalizing h sent done with
  | nil =>
    cases hrun
    refine ⟨done, ?_⟩
    simpa only [sentIn, List.filterMap_nil, List.append_nil] using hchat
  | cons act acts ih =>
    rw [List.forall_mem_cons] at hchats
    obtain ⟨middle, hmiddle, hrest⟩ := Option.bind_eq_some_iff.mp hrun
    obtain ⟨done', hnext⟩ := hchat.step hflags hchats.1 hmiddle
    obtain ⟨done'', hend⟩ := ih hnext hchats.2 hrest
    refine ⟨done'', ?_⟩
    simpa only [List.append_assoc, ← sentIn_cons] using hend

end Chat
end RoomServer
