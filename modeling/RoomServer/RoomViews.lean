import RoomServer.Library.Replay
import RoomServer.RoomIDs
import RoomServer.OneRoom

/-! What a client makes of the SPAWN and LEAVE packets it is sent, against who is in
the room and which IDs are free. -/
namespace RoomServer
open Library Library.Transition Library.Replay

/-! ### The changes a packet announces -/

def ServerPacket.changes : ServerPacket ℚ → List (Change Nat)
  | .spawn packet => packet.data.map fun data => .add data.seqID
  | .leave seqID => [.remove seqID]
  | .echo _ | .broadcast _ | .enter _ _ | .move _ => []

def changes (log : List (ServerPacket ℚ)) : List (Change Nat) := log.flatMap ServerPacket.changes

def view (log : List (ServerPacket ℚ)) : Finset Nat := replay (changes log)

@[simp] theorem changes_nil : changes [] = [] := rfl

@[simp] theorem changes_cons (packet : ServerPacket ℚ) (log : List (ServerPacket ℚ)) :
    changes (packet :: log) = packet.changes ++ changes log := List.flatMap_cons

@[simp] theorem changes_append (first second : List (ServerPacket ℚ)) :
    changes (first ++ second) = changes first ++ changes second := List.flatMap_append

def Quiet (effects : List Effect) : Prop :=
  ∀ session sendChunk, .insertSendQueue session sendChunk ∈ effects → sendChunk.changes = []

theorem Quiet.changes {effects : List Effect} (h : Quiet effects) (a : Nat) :
    changes (sentTo a effects) = [] := by
  apply List.flatMap_eq_nil_iff.mpr
  intro packet hpacket
  obtain ⟨e, he, hsent⟩ := List.mem_filterMap.mp hpacket
  cases e with
  | insertSendQueue session sendChunk =>
    simp only [Option.ite_none_right_eq_some, Option.some.injEq] at hsent
    exact hsent.2 ▸ h session sendChunk he
  | _ => contradiction

theorem quiet_nil : Quiet [] := nofun

theorem quiet_cons {s : Nat} {sendChunk : ServerPacket ℚ} {effects : List Effect}
    (hquiet : sendChunk.changes = []) (h : Quiet effects) :
    Quiet (.insertSendQueue s sendChunk :: effects) := by
  intro session sendChunk' hmem
  cases hmem with
  | head => exact hquiet
  | tail _ hmem => exact h session sendChunk' hmem

theorem quiet_append {first second : List Effect} (hfirst : Quiet first) (hsecond : Quiet second) :
    Quiet (first ++ second) := fun session sendChunk hmem =>
  (List.mem_append.mp hmem).elim (hfirst session sendChunk) (hsecond session sendChunk)

theorem quiet_map {users : List RoomUser} {sendChunk : ServerPacket ℚ}
    (hquiet : sendChunk.changes = []) :
    Quiet (users.map fun user => .insertSendQueue user.session sendChunk) := by
  intro session sendChunk' hmem
  obtain ⟨user, _, heq⟩ := List.mem_map.mp hmem
  cases heq
  exact hquiet

/-! ### Who is in the room, and what each of them is sent -/

namespace Room

def roster (room : Room) : List (Nat × Nat) :=
  room.roomUser.values.map fun user => (user.session, user.seqID)

def sessions (room : Room) : List Nat := room.roomUser.values.map RoomUser.session

def others (room : Room) (session : Nat) : List Nat :=
  (room.roomUser.values.filter fun user => user.session ≠ session).map RoomUser.seqID

theorem roster_sessions (room : Room) : room.roster.map Prod.fst = room.sessions :=
  List.map_map

theorem roster_memberIDs (room : Room) : room.roster.map Prod.snd = room.memberIDs :=
  List.map_map

theorem mem_others {room : Room} {session id : Nat} :
    id ∈ room.others session ↔ ∃ s, (s, id) ∈ room.roster ∧ s ≠ session := by
  simp only [others, roster, List.mem_map, List.mem_filter, decide_eq_true_eq, Prod.mk.injEq]
  constructor
  · rintro ⟨user, ⟨huser, hother⟩, rfl⟩
    exact ⟨user.session, ⟨user, huser, rfl, rfl⟩, hother⟩
  · rintro ⟨_, ⟨user, huser, rfl, rfl⟩, hother⟩
    exact ⟨user, ⟨huser, hother⟩, rfl⟩

theorem others_sublist (room : Room) (session : Nat) :
    (room.others session).Sublist room.memberIDs := List.filter_sublist.map _

theorem count_insert {room : Room} {socket : Nat} {user : RoomUser}
    (h : (room.roomUser.insert socket user).2 = true) {a : Nat} (ha : a ≠ user.session) :
    ((room.roomUser.insert socket user).1.values.map RoomUser.session).count a =
      room.sessions.count a := by
  have hcount := ((OrderedMap.values_insert h).map RoomUser.session).count_eq a
  rwa [List.map_cons, List.count_cons_of_ne ha.symm] at hcount

theorem sentTo_sendOthers (room : Room) (session : Nat) (sendChunk : ServerPacket ℚ) {a : Nat}
    (h : a ≠ session) :
    sentTo a (room.sendOthers session sendChunk) =
      List.replicate (room.sessions.count a) sendChunk := by
  have hcount : (room.sessions.filter fun s => s ≠ session).count a = room.sessions.count a :=
    List.count_filter (by simpa using h)
  rw [sendOthers, sentTo_map, ← hcount, sessions, List.filter_map]
  rfl

theorem sentTo_spawnUsers {session a : Nat} (h : a ≠ session) (sendBroadCast : ServerPacket ℚ)
    (mk : Nat → Bool) (users : List RoomUser) (enterSpawn : Server_Spawn ℚ) (calls : Nat) :
    sentTo a (spawnUsers session sendBroadCast mk users enterSpawn calls) =
      List.replicate ((users.map RoomUser.session).count a) sendBroadCast := by
  induction users generalizing enterSpawn calls with
  | nil =>
    rw [spawnUsers]
    split
    · split
      · exact sentTo_other h.symm _ _
      · rfl
    · rfl
  | cons user users ih =>
    rw [spawnUsers, List.map_cons]
    split
    case isTrue hself =>
      rw [ih, List.count_cons_of_ne (hself.trans_ne h.symm)]
    case isFalse =>
      have hrest : sentTo a (if (enterSpawn.add user.data).2 = true then
            spawnUsers session sendBroadCast mk users (enterSpawn.add user.data).1 calls
          else if mk calls = true then
            .insertSendQueue session (.spawn enterSpawn) ::
              spawnUsers session sendBroadCast mk users
                ((DataList.empty : Server_Spawn ℚ).add user.data).1 (calls + 1)
          else spawnUsers session sendBroadCast mk users enterSpawn (calls + 1)) =
          List.replicate ((users.map RoomUser.session).count a) sendBroadCast := by
        split
        · exact ih _ _
        · split
          · rw [sentTo_other h.symm]
            exact ih _ _
          · exact ih _ _
      by_cases ha : user.session = a
      · subst ha
        rw [sentTo_self, hrest, List.count_cons_self, List.replicate_succ]
      · rw [sentTo_other ha, hrest, List.count_cons_of_ne ha]

theorem data_add {list : DataList ℚ limit} {data : SpawnData ℚ} (h : (list.add data).2 = true) :
    (list.add data).1.data = list.data ++ [data] := by
  unfold DataList.add at h ⊢
  split at h
  case isTrue hroom => simp [hroom]
  case isFalse => contradiction

theorem data_empty {list : DataList ℚ limit} (h : ¬0 < list.count) : list.data = [] :=
  List.length_eq_zero_iff.mp (Nat.eq_zero_of_not_pos h)

/-- The entrant is sent the others in the order of the map, in batches; one that could
not be built leaves out somebody, but nobody is in two. -/
theorem spawnUsers_batches (session : Nat) (sendBroadCast : ServerPacket ℚ) (mk : Nat → Bool)
    (users : List RoomUser) (enterSpawn : Server_Spawn ℚ) (calls : Nat) :
    ∃ batches : List (Server_Spawn ℚ),
      sentTo session (spawnUsers session sendBroadCast mk users enterSpawn calls) =
        batches.map .spawn ∧
      (batches.flatMap DataList.data).Sublist (enterSpawn.data ++
        (users.filter fun user => user.session ≠ session).map RoomUser.data) ∧
      ((∀ n, mk n = true) → batches.flatMap DataList.data = enterSpawn.data ++
        (users.filter fun user => user.session ≠ session).map RoomUser.data) := by
  induction users generalizing enterSpawn calls with
  | nil =>
    rw [spawnUsers, List.filter_nil, List.map_nil, List.append_nil]
    split
    case isTrue =>
      split
      case isTrue =>
        refine ⟨[enterSpawn], ?_, ?_, fun _ => List.append_nil _⟩
        · rw [sentTo_self]
          rfl
        · exact (List.append_nil enterSpawn.data).symm ▸ .refl _
      case isFalse hfailed =>
        exact ⟨[], rfl, List.nil_sublist _, fun hmade => absurd (hmade calls) hfailed⟩
    case isFalse hempty =>
      exact ⟨[], rfl, List.nil_sublist _, fun _ => (data_empty hempty).symm⟩
  | cons user users ih =>
    rw [spawnUsers]
    split
    case isTrue hself =>
      rw [List.filter_cons_of_neg (by simpa using hself)]
      exact ih enterSpawn calls
    case isFalse hother =>
      rw [List.filter_cons_of_pos (by simpa using hother), List.map_cons, sentTo_other hother]
      split
      case isTrue hadded =>
        have h := ih (enterSpawn.add user.data).1 calls
        rwa [data_add hadded, List.append_assoc] at h
      case isFalse =>
        split
        case isTrue =>
          -- the full batch goes out, and a new one begins with this user
          obtain ⟨batches, hsent, hsub, hall⟩ :=
            ih ((DataList.empty : Server_Spawn ℚ).add user.data).1 (calls + 1)
          refine ⟨enterSpawn :: batches, ?_, hsub.append_left _, fun hmade => ?_⟩
          · rw [sentTo_self, hsent, List.map_cons]
          · rw [List.flatMap_cons, hall hmade]
            rfl
        case isFalse hfailed =>
          obtain ⟨batches, hsent, hsub, _⟩ := ih enterSpawn (calls + 1)
          refine ⟨batches, hsent, hsub.trans ?_, fun hmade => absurd (hmade calls) hfailed⟩
          exact (List.sublist_cons_self _ _).append_left _

theorem changes_spawns (batches : List (Server_Spawn ℚ)) :
    changes (batches.map .spawn) =
      ((batches.flatMap DataList.data).map SpawnData.seqID).map .add := by
  induction batches with
  | nil => rfl
  | cons batch rest ih =>
    have hbatch : (ServerPacket.spawn batch).changes =
        (batch.data.map SpawnData.seqID).map .add := List.map_map.symm
    rw [List.map_cons, changes_cons, ih, hbatch, List.flatMap_cons, List.map_append,
      List.map_append]

theorem changes_spawnUsers (session : Nat) (sendBroadCast : ServerPacket ℚ) (mk : Nat → Bool)
    (users : List RoomUser) (calls : Nat) :
    ∃ xs, changes (sentTo session
        (spawnUsers session sendBroadCast mk users .empty calls)) = xs.map .add ∧
      xs.Sublist ((users.filter fun user => user.session ≠ session).map RoomUser.seqID) ∧
      ((∀ n, mk n = true) →
        xs = (users.filter fun user => user.session ≠ session).map RoomUser.seqID) := by
  obtain ⟨batches, hsent, hsub, hall⟩ :=
    spawnUsers_batches session sendBroadCast mk users .empty calls
  have hids : (users.filter fun user => user.session ≠ session).map RoomUser.seqID =
      ((DataList.empty : Server_Spawn ℚ).data ++
        (users.filter fun user => user.session ≠ session).map RoomUser.data).map
          SpawnData.seqID := by
    rw [show (DataList.empty : Server_Spawn ℚ).data = [] from rfl, List.nil_append, List.map_map]
    rfl
  refine ⟨(batches.flatMap DataList.data).map SpawnData.seqID, ?_, ?_, fun hmade => ?_⟩
  · rw [hsent, changes_spawns]
  · rw [hids]
    exact hsub.map _
  · rw [hids, hall hmade]

theorem quiet_sendMoveData (users : List RoomUser) (movePacket : Server_Move_Ack ℚ) (made : Bool) :
    Quiet (sendMoveData users movePacket made) := by
  unfold sendMoveData
  split
  · exact quiet_map rfl
  · exact quiet_nil

theorem quiet_moveUsers (users : List RoomUser) (nowTick : Nat) (mk : Nat → Bool)
    (rest : List RoomUser) (packet : Server_Move_Ack ℚ) (calls : Nat) :
    Quiet (moveUsers users nowTick mk rest packet calls) := by
  induction rest generalizing packet calls with
  | nil =>
    rw [moveUsers]
    split
    · exact quiet_sendMoveData users packet (mk calls)
    · exact quiet_nil
  | cons user rest ih =>
    rw [moveUsers]
    dsimp only
    split
    · exact ih packet calls
    · split
      · exact ih _ calls
      · exact quiet_append (quiet_sendMoveData users packet (mk calls)) (ih _ _)

end Room

/-! ### What a job announces -/

structure StaySpec (room : Room) (o : Outcome) : Prop where
  members : o.room.member = room.member
  roster : o.room.roster = room.roster
  free : o.room.seqIDs.Perm room.seqIDs
  before : o.before = []
  sends_to : SendsTo (fun _ => True) o.after
  quiet : Quiet o.after

/-- A job announces what it does to the roster, to everybody but its session. -/
inductive ViewSpec (room : Room) (session socket : Nat) (isConnected : Bool) (mk : Nat → Bool)
    (o : Outcome) : Prop where
  | stays (stay : StaySpec room o)
  | enters {id : Nat} {sends : List Effect} (fresh : isConnected = false)
      (absent : room.member socket = none)
      (members : o.room.member = Function.update room.member socket (some session))
      (roster : o.room.roster.Perm ((session, id) :: room.roster))
      (free : room.seqIDs = id :: o.room.seqIDs) (before : o.before = [])
      (after : o.after = .connect session :: .setRoomID session room.roomID :: sends)
      (sends_to : SendsTo (fun _ => True) sends)
      (told : ∀ a, a ≠ session →
        changes (sentTo a sends) = List.replicate (room.sessions.count a) (.add id))
      (tells : ∃ xs, changes (sentTo session sends) = xs.map .add ∧
        xs.Sublist (o.room.others session) ∧ ((∀ n, mk n = true) → xs = o.room.others session))
  | leaves {user id : Nat} {sends : List Effect} (connected : isConnected = true)
      (found : room.member socket = some user)
      (members : o.room.member = Function.update room.member socket none)
      (roster : room.roster.Perm ((user, id) :: o.room.roster))
      (before : o.before = .disConnected session :: .setRoomID session (-1) :: sends)
      (sends_to : SendsTo (fun _ => True) sends) (after : o.after = [.closeSession session])
      (announced : (o.room.seqIDs = room.seqIDs ++ [id] ∧ ∀ a, a ≠ session →
          changes (sentTo a sends) = List.replicate (room.sessions.count a) (.remove id)) ∨
        (o.room.seqIDs = room.seqIDs ∧ sends = [] ∧ ¬∀ n, mk n = true))
  | absent (connected : isConnected = true) (found : room.member socket = none)

namespace Room

theorem idle_view {room room' : Room} (members : room'.member = room.member)
    (roster : room'.roster = room.roster) (free : room'.seqIDs.Perm room.seqIDs) :
    StaySpec room (.idle room') :=
  ⟨members, roster, free, rfl, sendsTo_nil _, quiet_nil⟩

theorem changes_replicate (n : Nat) (packet : ServerPacket ℚ) {change : Change Nat}
    (h : packet.changes = [change]) :
    changes (List.replicate n packet) = List.replicate n change := by
  induction n with
  | zero => rfl
  | succ n ih => rw [List.replicate_succ, changes_cons, h, ih, List.replicate_succ]; rfl

theorem enter_view (room : Room) (session socket : Nat) (isConnected : Bool) (mk : Nat → Bool) :
    ViewSpec room session socket isConnected mk
      (room.enter session socket isConnected mk) := by
  unfold enter
  split
  case isTrue => exact .stays (idle_view rfl rfl (.refl _))
  case isFalse hconnected =>
    split
    case h_1 =>
      refine .stays ⟨rfl, rfl, .refl _, rfl, ?_, ?_⟩
      · split
        · exact sendsTo_cons trivial _ (sendsTo_nil _)
        · exact sendsTo_nil _
      · split
        · exact quiet_cons rfl quiet_nil
        · exact quiet_nil
    case h_2 seqID seqIDs hfree =>
      dsimp only
      split
      case isFalse =>
        refine .stays (idle_view rfl rfl ?_)
        rw [hfree]
        exact List.perm_append_singleton seqID seqIDs
      case isTrue hmade =>
        have hinserted := (Bool.and_eq_true_iff.mp hmade).2
        have hvalues := OrderedMap.values_insert hinserted
        have habsent : room.member socket = none := by
          rw [member, OrderedMap.find_of_insert hinserted]
          rfl
        refine .enters (by simpa using hconnected) habsent (member_insert hinserted seqIDs)
          (hvalues.map _) hfree rfl rfl ?_ (fun a ha => ?_) ?_
        · apply sendsTo_cons trivial
          exact spawnUsers_sendsTo trivial _ mk _ (fun _ _ => trivial) _ _
        · rw [sentTo_other ha.symm, sentTo_spawnUsers ha, changes_replicate _ _ rfl,
            count_insert hinserted ha]
          rfl
        · rw [sentTo_self, changes_cons]
          exact changes_spawnUsers session _ mk _ 2

theorem leave_view (room : Room) (session socket : Nat) (isConnected : Bool) (mk : Nat → Bool) :
    ViewSpec room session socket isConnected mk
      (room.leave session socket isConnected mk) := by
  unfold leave
  split
  case isTrue => exact .stays (idle_view rfl rfl (.refl _))
  case isFalse hconnected =>
    have hconnected : isConnected = true := by simpa using hconnected
    dsimp only
    split
    case h_1 hfind =>
      exact .absent hconnected (by simp [member, hfind])
    case h_2 user hfind =>
      have hfound : room.member socket = some user.session := by simp [member, hfind]
      have hroster := (OrderedMap.values_erase hfind).map
        fun user : RoomUser => (user.session, user.seqID)
      split
      case isTrue =>
        refine .leaves hconnected hfound (room.member_erase socket _) hroster rfl
          ((sendOthers_sendsTo room session _).weaken fun _ _ => trivial) rfl
          (.inl ⟨rfl, fun a ha => ?_⟩)
        have hsent := room.sentTo_sendOthers session (.leave user.seqID) ha
        exact (congrArg changes hsent).trans (changes_replicate _ _ rfl)
      case isFalse hfailed =>
        exact .leaves hconnected hfound (room.member_erase socket _) hroster rfl
          (sendsTo_nil _) rfl (.inr ⟨rfl, rfl, fun hmade => hfailed (hmade 0)⟩)

theorem roster_set {room : Room} {socket : Nat} {user user' : RoomUser}
    (hfind : room.roomUser.find socket = some user) (hsession : user'.session = user.session)
    (hseqID : user'.seqID = user.seqID) :
    ({ room with roomUser := room.roomUser.set socket user' } : Room).roster = room.roster :=
  OrderedMap.map_values_set hfind (by rw [hsession, hseqID])

theorem move_view (room : Room) (socket : Nat) (isConnected : Bool) (posX posY : Coordinate)
    (nowTick : Nat) : StaySpec room (room.move socket isConnected posX posY nowTick) := by
  unfold move
  split
  case h_1 =>
    split
    · exact idle_view rfl rfl (.refl _)
    · split
      case h_1 => exact idle_view rfl rfl (.refl _)
      case h_2 user hfind =>
        have hsession := movePosition_session user nowTick
        have hseqID := movePosition_seqID user nowTick
        dsimp only
        split
        · exact idle_view (member_set hfind hsession) (roster_set hfind hsession hseqID) (.refl _)
        · exact idle_view (member_set hfind hsession) (roster_set hfind hsession hseqID) (.refl _)
  case h_2 => exact idle_view rfl rfl (.refl _)

theorem moveCheckUsers_view (room : Room) (nowTick : Nat) (mk : Nat → Bool) :
    StaySpec room (room.moveCheckUsers nowTick mk) := by
  refine ⟨?_, ?_, .refl _, rfl, ?_, quiet_moveUsers _ nowTick mk _ _ _⟩
  · funext k
    simp [moveCheckUsers, member, OrderedMap.find_mapValues, Function.comp_def]
  · exact OrderedMap.map_values_mapValues (fun _ user => by simp) _
  · exact moveUsers_sendsTo (fun _ _ => trivial) nowTick mk _ _ _

theorem tick_view (room : Room) (nowTick : Nat) (mk : Nat → Bool) :
    StaySpec room (room.tick nowTick mk) := by
  unfold tick
  split
  · have h := moveCheckUsers_view { room with lastTick := nowTick } nowTick mk
    exact ⟨h.members, h.roster, h.free, h.before, h.sends_to, h.quiet⟩
  · exact idle_view rfl rfl (.refl _)

theorem broadCast_view (room : Room) (session : Nat) (text : List Byte) (mk : Nat → Bool) :
    StaySpec room (room.broadCast session text mk) := by
  unfold broadCast
  refine ⟨rfl, rfl, .refl _, rfl, ?_, ?_⟩
  · split
    · exact (sendOthers_sendsTo room session _).weaken fun _ _ => trivial
    · exact sendsTo_nil _
  · split
    · exact quiet_map rfl
    · exact quiet_nil

end Room

theorem dispatch_view (job : Job) (room : Room) (socket : Nat) (isConnected : Bool)
    (mk : Nat → Bool) (nowTick : Nat) :
    ViewSpec room job.session socket isConnected mk
      (job.dispatch room socket isConnected mk nowTick) := by
  obtain ⟨kind, session⟩ := job
  cases kind with
  | enter => exact room.enter_view session socket isConnected mk
  | leave => exact room.leave_view session socket isConnected mk
  | broadcast text => exact .stays (room.broadCast_view session text mk)
  | move posX posY => exact .stays (room.move_view socket isConnected posX posY nowTick)

/-! ### One turn of the room -/

/-- What a turn does to flags, roster and logs, when a session that is connected is
in the room. -/
inductive Turn (socketOf : Nat → Nat) (st st' : OneRoom) (made : Nat → Bool) : Prop where
  | stays (members : st'.room.member = st.room.member) (roster : st'.room.roster = st.room.roster)
      (free : st'.room.seqIDs.Perm st.room.seqIDs) (connected : st'.connected = st.connected)
      (heard : ∀ a, changes (st'.heard a) = changes (st.heard a))
  | enters {s id : Nat} (fresh : st.connected s = false)
      (absent : st.room.member (socketOf s) = none)
      (members : st'.room.member = Function.update st.room.member (socketOf s) (some s))
      (roster : st'.room.roster.Perm ((s, id) :: st.room.roster))
      (free : st.room.seqIDs = id :: st'.room.seqIDs)
      (connected : st'.connected = Function.update st.connected s true)
      (told : ∀ a, a ≠ s → changes (st'.heard a) =
        changes (st.heard a) ++ List.replicate (st.room.sessions.count a) (.add id))
      (tells : ∃ xs, changes (st'.heard s) = xs.map .add ∧ xs.Sublist (st'.room.others s) ∧
        ((∀ n, made n = true) → xs = st'.room.others s))
  | leaves {s id : Nat}
      (members : st'.room.member = Function.update st.room.member (socketOf s) none)
      (roster : st.room.roster.Perm ((s, id) :: st'.room.roster))
      (connected : st'.connected = Function.update st.connected s false)
      (announced : (st'.room.seqIDs = st.room.seqIDs ++ [id] ∧ ∀ a, a ≠ s →
          changes (st'.heard a) =
            changes (st.heard a) ++ List.replicate (st.room.sessions.count a) (.remove id)) ∨
        (st'.room.seqIDs = st.room.seqIDs ∧ (∀ a, a ≠ s → st'.heard a = st.heard a) ∧
          ¬∀ n, made n = true))

theorem StaySpec.turn {socketOf : Nat → Nat} {st : OneRoom} {o : Outcome}
    (h : StaySpec st.room o) (nowTick : Nat) (made : Nat → Bool) :
    Turn socketOf st (st.finish o nowTick) made := by
  obtain ⟨hconnected, hheard⟩ := foldl_sends h.sends_to st
  have heffects : o.effects = o.after := by rw [Outcome.effects, h.before, List.nil_append]
  refine .stays h.members h.roster h.free ?_ fun a => ?_
  · rw [OneRoom.finish, heffects]
    exact hconnected
  · rw [OneRoom.finish, heffects]
    simp only [hheard a, changes_append, h.quiet.changes a, List.append_nil]

theorem ViewSpec.turn {socketOf : Nat → Nat} {st : OneRoom} {s : Nat} {made : Nat → Bool}
    {o : Outcome} (hflags : st.connected s = true → st.room.member (socketOf s) = some s)
    (h : ViewSpec st.room s (socketOf s) (st.connected s) made o) (nowTick : Nat) :
    Turn socketOf st (st.finish o nowTick) made := by
  cases h with
  | stays stay => exact stay.turn nowTick made
  | @enters id sends fresh absent members roster free before after sends_to told tells =>
    obtain ⟨hconnected, hheard⟩ :=
      foldl_sends sends_to ((st.apply (.connect s)).apply (.setRoomID s st.room.roomID))
    have heffects : o.effects = .connect s :: .setRoomID s st.room.roomID :: sends := by
      rw [Outcome.effects, before, after, List.nil_append]
    have hlog : ∀ a, (st.finish o nowTick).heard a =
        ((st.apply (.connect s)).apply (.setRoomID s st.room.roomID)).heard a ++ sentTo a sends := by
      intro a
      rw [OneRoom.finish, heffects]
      exact hheard a
    refine .enters fresh absent members roster free ?_ (fun a ha => ?_) ?_
    · rw [OneRoom.finish, heffects]
      exact hconnected
    · rw [hlog a, changes_append, told a ha]
      exact congrArg (changes · ++ _) (Function.update_of_ne ha _ _)
    · rw [hlog s]
      have hempty : ((st.apply (.connect s)).apply (.setRoomID s st.room.roomID)).heard s = [] :=
        Function.update_self _ _ _
      rw [hempty, List.nil_append]
      exact tells
  | @leaves user id sends connected found members roster before sends_to after announced =>
    have hsession := hflags connected
    rw [found] at hsession
    cases hsession
    obtain ⟨hconnected, hheard⟩ :=
      foldl_sends sends_to ((st.apply (.disConnected s)).apply (.setRoomID s (-1)))
    have happly : o.effects.foldl OneRoom.apply st =
        sends.foldl OneRoom.apply ((st.apply (.disConnected s)).apply (.setRoomID s (-1))) := by
      rw [Outcome.effects, before, after, List.foldl_append]
      rfl
    have hlog : ∀ a, (st.finish o nowTick).heard a = st.heard a ++ sentTo a sends := by
      intro a
      rw [OneRoom.finish, happly]
      exact hheard a
    refine .leaves members roster ?_ (announced.imp ?_ ?_)
    · rw [OneRoom.finish, happly]
      exact hconnected
    · rintro ⟨hfree, htold⟩
      refine ⟨hfree, fun a ha => ?_⟩
      rw [hlog a, changes_append, htold a ha]
    · rintro ⟨hfree, hnone, hfailed⟩
      refine ⟨hfree, fun a _ => ?_, hfailed⟩
      rw [hlog a, hnone, sentTo_nil, List.append_nil]
  | absent connected found =>
    rw [hflags connected] at found
    contradiction

theorem turn_of_step {socketOf : Nat → Nat} {st st' : OneRoom} {act : OneRoomAct}
    (hflags : ∀ s, st.connected s = true → st.room.member (socketOf s) = some s)
    (h : oneRoomStep socketOf st act = some st') : Turn socketOf st st' act.made := by
  cases h
  cases act with
  | job job made nowTick => exact (dispatch_view job st.room _ _ made nowTick).turn (hflags _) nowTick
  | tick nowTick made => exact (st.room.tick_view nowTick made).turn nowTick made
  | moveCheckUsers nowTick made => exact (st.room.moveCheckUsers_view nowTick made).turn nowTick made

theorem step_ids_nodup {socketOf : Nat → Nat} {st st' : OneRoom} {act : OneRoomAct}
    (hids : st.room.ids.Nodup) (h : oneRoomStep socketOf st act = some st') :
    st'.room.ids.Nodup := by
  cases h
  cases act with
  | job job made nowTick =>
    have hperm := dispatch_ids job st.room (socketOf job.session) (st.connected job.session) made
      nowTick
    exact (List.nodup_append.mp (hperm.nodup_iff.mpr hids)).1
  | tick nowTick made => exact (st.room.tick_ids nowTick made).symm ▸ hids
  | moveCheckUsers nowTick made => exact (st.room.moveCheckUsers_ids nowTick made).symm ▸ hids

/-! ### The invariant -/

structure ViewInv (socketOf : Nat → Nat) (st : OneRoom) : Prop where
  flags : ∀ s, st.connected s = true → st.room.member (socketOf s) = some s
  members : ∀ s id, (s, id) ∈ st.room.roster → st.connected s = true
  sessions : st.room.sessions.Nodup
  ids : st.room.ids.Nodup
  unused : ∀ s id, (s, id) ∈ st.room.roster → ∀ free ∈ st.room.seqIDs, free ∉ view (st.heard s)
  clean : ∀ s id, (s, id) ∈ st.room.roster → Clean (changes (st.heard s))
  own : ∀ s id, (s, id) ∈ st.room.roster → .add id ∉ changes (st.heard s)

section ViewInv
variable {socketOf : Nat → Nat} {st st' : OneRoom} {act : OneRoomAct}

theorem viewInv_new (roomID : Int) : ViewInv socketOf (.new roomID) := by
  refine ⟨nofun, nofun, .nil, ?_, nofun, nofun, nofun⟩
  exact (Room.ids_new roomID).symm ▸ List.nodup_range

theorem ViewInv.not_free (h : ViewInv socketOf st) {s id : Nat} (hmem : (s, id) ∈ st.room.roster) :
    id ∉ st.room.seqIDs := by
  intro hfree
  have hid : id ∈ st.room.memberIDs := st.room.roster_memberIDs ▸ List.mem_map_of_mem hmem
  exact (List.nodup_append'.mp h.ids).2.2 hfree hid

theorem ViewInv.count (h : ViewInv socketOf st) {s id : Nat} (hmem : (s, id) ∈ st.room.roster) :
    st.room.sessions.count s = 1 := by
  apply List.count_eq_one_of_mem h.sessions
  rw [← Room.roster_sessions]
  exact List.mem_map_of_mem hmem

theorem sessions_perm {room room' : Room} {s id : Nat}
    (h : room.roster.Perm ((s, id) :: room'.roster)) :
    room.sessions.Perm (s :: room'.sessions) := by
  rw [← Room.roster_sessions, ← Room.roster_sessions]
  exact h.map Prod.fst

theorem memberIDs_perm {room room' : Room} {s id : Nat}
    (h : room.roster.Perm ((s, id) :: room'.roster)) :
    room.memberIDs.Perm (id :: room'.memberIDs) := by
  rw [← Room.roster_memberIDs, ← Room.roster_memberIDs]
  exact h.map Prod.snd

theorem mem_sessions {room : Room} {s id : Nat} (h : (s, id) ∈ room.roster) :
    s ∈ room.sessions := by
  rw [← Room.roster_sessions]
  exact List.mem_map_of_mem h

theorem view_told {log log' : List (ServerPacket ℚ)} {change : Change Nat}
    (h : changes log' = changes log ++ [change]) : view log' = change.apply (view log) := by
  rw [view, h, replay_snoc]
  rfl

theorem mem_roster_of_enter {room room' : Room} {s id a i : Nat}
    (h : room'.roster.Perm ((s, id) :: room.roster)) (ha : a ≠ s) (hmem : (a, i) ∈ room'.roster) :
    (a, i) ∈ room.roster :=
  (List.mem_cons.mp (h.mem_iff.mp hmem)).resolve_left fun heq => ha (congrArg Prod.fst heq)

theorem ViewInv.left (h : ViewInv socketOf st) {room' : Room} {s id a i : Nat}
    (hroster : st.room.roster.Perm ((s, id) :: room'.roster)) (hmem : (a, i) ∈ room'.roster) :
    a ≠ s ∧ (a, i) ∈ st.room.roster := by
  refine ⟨?_, hroster.mem_iff.mpr (List.mem_cons_of_mem _ hmem)⟩
  rintro rfl
  have hsessions := (sessions_perm hroster).nodup_iff.mp h.sessions
  exact (List.nodup_cons.mp hsessions).1 (mem_sessions hmem)

theorem ViewInv.once (h : ViewInv socketOf st) {s id : Nat} (hmem : (s, id) ∈ st.room.roster)
    {log : List (ServerPacket ℚ)} {change : Change Nat}
    (htold : changes log =
      changes (st.heard s) ++ List.replicate (st.room.sessions.count s) change) :
    changes log = changes (st.heard s) ++ [change] := by
  rw [htold, h.count hmem, List.replicate_one]

theorem ViewInv.turn (h : ViewInv socketOf st) {made : Nat → Bool}
    (hturn : Turn socketOf st st' made) (hids : st'.room.ids.Nodup) : ViewInv socketOf st' := by
  cases hturn with
  | stays members roster free connected heard =>
    have hview (a : Nat) : view (st'.heard a) = view (st.heard a) := congrArg replay (heard a)
    refine ⟨?_, ?_, ?_, hids, ?_, ?_, ?_⟩
    · rw [connected, members]
      exact h.flags
    · rw [connected, roster]
      exact h.members
    · rw [← Room.roster_sessions, roster, Room.roster_sessions]
      exact h.sessions
    · intro s id hmem x hx
      rw [hview]
      exact h.unused s id (roster ▸ hmem) x (free.mem_iff.mp hx)
    · intro s id hmem
      rw [heard]
      exact h.clean s id (roster ▸ hmem)
    · intro s id hmem
      rw [heard]
      exact h.own s id (roster ▸ hmem)
  | @enters s id fresh absent members roster free connected told tells =>
    obtain ⟨xs, hxs, hsub, _⟩ := tells
    have hnew : id ∈ st.room.seqIDs := free ▸ List.mem_cons_self
    have hstranger (i : Nat) : (s, i) ∉ st.room.roster := by
      intro hmem
      rw [h.members s i hmem] at fresh
      contradiction
    have hold {a i : Nat} (ha : a ≠ s) (hmem : (a, i) ∈ st'.room.roster) :
        (a, i) ∈ st.room.roster := mem_roster_of_enter roster ha hmem
    have hentrant {i : Nat} (hmem : (s, i) ∈ st'.room.roster) : i = id :=
      (List.mem_cons.mp (roster.mem_iff.mp hmem)).elim (fun heq => congrArg Prod.snd heq)
        fun hmem => absurd hmem (hstranger i)
    have htold {a i : Nat} (ha : a ≠ s) (hmem : (a, i) ∈ st.room.roster) :
        changes (st'.heard a) = changes (st.heard a) ++ [.add id] := h.once hmem (told a ha)
    have hmemberIDs {x : Nat} (hx : x ∈ xs) : x ∈ st'.room.memberIDs :=
      (st'.room.others_sublist s).subset (hsub.subset hx)
    refine ⟨fun a => ?_, fun a i hmem => ?_, ?_, hids, fun a i hmem x hx => ?_,
      fun a i hmem => ?_, fun a i hmem => ?_⟩
    · rw [connected, members]
      by_cases ha : a = s
      · rw [ha]
        exact fun _ => Function.update_self _ _ _
      · rw [Function.update_of_ne ha]
        intro hconnected
        have hmember := h.flags a hconnected
        rw [Function.update_of_ne fun hsocket => by rw [hsocket, absent] at hmember; contradiction]
        exact hmember
    · rw [connected]
      by_cases ha : a = s
      · rw [ha, Function.update_self]
      · rw [Function.update_of_ne ha]
        exact h.members a i (hold ha hmem)
    · rw [(sessions_perm roster).nodup_iff, List.nodup_cons]
      refine ⟨fun hs => ?_, h.sessions⟩
      rw [← Room.roster_sessions] at hs
      obtain ⟨⟨_, i⟩, hmem, rfl⟩ := List.mem_map.mp hs
      exact hstranger i hmem
    · by_cases ha : a = s
      · subst ha
        rw [view, hxs]
        intro hview
        have hmem := ((mem_replay_adds [] xs x).mp hview).resolve_left (Finset.notMem_empty x)
        exact (List.nodup_append'.mp hids).2.2 hx (hmemberIDs hmem)
      · rw [view_told (htold ha (hold ha hmem))]
        intro hview
        have hfree := (List.nodup_append.mp h.ids).1
        rw [free] at hfree
        rcases Finset.mem_insert.mp hview with rfl | hview
        · exact (List.nodup_cons.mp hfree).1 hx
        · exact h.unused a i (hold ha hmem) x (free ▸ List.mem_cons_of_mem _ hx) hview
    · by_cases ha : a = s
      · subst ha
        rw [hxs]
        have hnodup : xs.Nodup :=
          ((List.nodup_append.mp hids).2.1.sublist (st'.room.others_sublist a)).sublist hsub
        exact clean_adds clean_nil hnodup fun x _ => Finset.notMem_empty x
      · rw [htold ha (hold ha hmem)]
        apply clean_snoc (h.clean a i (hold ha hmem))
        rintro _ ⟨⟩
        exact h.unused a i (hold ha hmem) id hnew
    · by_cases ha : a = s
      · subst ha
        rw [hxs, hentrant hmem, List.mem_map]
        rintro ⟨x, hx, heq⟩
        cases heq
        obtain ⟨a', hmem', hother⟩ := Room.mem_others.mp (hsub.subset hx)
        exact h.not_free (hold hother hmem') hnew
      · rw [htold ha (hold ha hmem), List.mem_append, List.mem_singleton]
        rintro (hadd | heq)
        · exact h.own a i (hold ha hmem) hadd
        · cases heq
          exact h.not_free (hold ha hmem) hnew
  | @leaves s id members roster connected announced =>
    have hmemLeaver : (s, id) ∈ st.room.roster := roster.mem_iff.mpr List.mem_cons_self
    have hsession : st.room.member (socketOf s) = some s := h.flags s (h.members s id hmemLeaver)
    have hsessions := (sessions_perm roster).nodup_iff.mp h.sessions
    have hold {a i : Nat} (hmem : (a, i) ∈ st'.room.roster) : (a, i) ∈ st.room.roster :=
      (h.left roster hmem).2
    have hother {a i : Nat} (hmem : (a, i) ∈ st'.room.roster) : a ≠ s := (h.left roster hmem).1
    refine ⟨fun a => ?_, fun a i hmem => ?_, (List.nodup_cons.mp hsessions).2, hids, ?_, ?_, ?_⟩
    · rw [connected, members]
      by_cases ha : a = s
      · rw [ha, Function.update_self]
        exact nofun
      · rw [Function.update_of_ne ha]
        intro hconnected
        have hmember := h.flags a hconnected
        rw [Function.update_of_ne fun hsocket => ha ?_]
        · exact hmember
        · rw [hsocket, hsession] at hmember
          exact (Option.some.inj hmember).symm
    · rw [connected, Function.update_of_ne (hother hmem)]
      exact h.members a i (hold hmem)
    all_goals
      intro a i hmem
      rcases announced with ⟨hfree, htold⟩ | ⟨hfree, hsame, _⟩
    · have hlog := h.once (hold hmem) (htold a (hother hmem))
      intro x hx
      rw [view_told hlog]
      intro hview
      obtain ⟨hne, hview⟩ := Finset.mem_erase.mp hview
      rw [hfree, List.mem_append, List.mem_singleton] at hx
      exact h.unused a i (hold hmem) x (hx.resolve_right hne) hview
    · rw [hsame a (hother hmem), hfree]
      exact h.unused a i (hold hmem)
    · have hlog := h.once (hold hmem) (htold a (hother hmem))
      rw [hlog]
      exact clean_snoc (h.clean a i (hold hmem)) nofun
    · rw [hsame a (hother hmem)]
      exact h.clean a i (hold hmem)
    · rw [htold a (hother hmem), List.mem_append]
      rintro (hadd | hremove)
      · exact h.own a i (hold hmem) hadd
      · cases List.eq_of_mem_replicate hremove
    · rw [hsame a (hother hmem)]
      exact h.own a i (hold hmem)

/-- With every packet made, each client knows exactly the others. -/
def Exact (st : OneRoom) : Prop :=
  ∀ s id, (s, id) ∈ st.room.roster → ∀ x, x ∈ view (st.heard s) ↔ x ∈ st.room.others s

theorem Exact.turn (hexact : Exact st) (h : ViewInv socketOf st) {made : Nat → Bool}
    (hmade : ∀ n, made n = true) (hturn : Turn socketOf st st' made) : Exact st' := by
  intro a i hmem x
  cases hturn with
  | stays members roster free connected heard =>
    have hothers : x ∈ st'.room.others a ↔ x ∈ st.room.others a := by
      rw [Room.mem_others, Room.mem_others, roster]
    rw [view, heard, hothers]
    exact hexact a i (roster ▸ hmem) x
  | @enters s id fresh absent members roster free connected told tells =>
    obtain ⟨xs, hxs, _, hall⟩ := tells
    by_cases ha : a = s
    · subst ha
      rw [view, hxs, ← hall hmade]
      exact (mem_replay_adds [] xs x).trans (or_iff_right (Finset.notMem_empty x))
    · have hold := mem_roster_of_enter roster ha hmem
      have htold := h.once hold (told a ha)
      have hothers : x ∈ st'.room.others a ↔ x = id ∨ x ∈ st.room.others a := by
        simp only [Room.mem_others, roster.mem_iff, List.mem_cons, Prod.mk.injEq]
        constructor
        · rintro ⟨b, ⟨rfl, rfl⟩ | hb, hother⟩
          · exact .inl rfl
          · exact .inr ⟨b, hb, hother⟩
        · rintro (rfl | ⟨b, hb, hother⟩)
          · exact ⟨s, .inl ⟨rfl, rfl⟩, Ne.symm ha⟩
          · exact ⟨b, .inr hb, hother⟩
      rw [view_told htold, hothers, ← hexact a i hold x]
      exact Finset.mem_insert
  | @leaves s id members roster connected announced =>
    rcases announced with ⟨_, htold⟩ | ⟨_, _, hfailed⟩
    case inr => exact absurd hmade hfailed
    case inl =>
      have hids := (memberIDs_perm roster).nodup_iff.mp (List.nodup_append.mp h.ids).2.1
      obtain ⟨ha, hold⟩ := h.left roster hmem
      have hlog := h.once hold (htold a ha)
      have hothers : x ∈ st'.room.others a ↔ x ≠ id ∧ x ∈ st.room.others a := by
        simp only [Room.mem_others, roster.mem_iff, List.mem_cons, Prod.mk.injEq]
        constructor
        · rintro ⟨b, hb, hother⟩
          refine ⟨?_, b, .inr hb, hother⟩
          rintro rfl
          apply (List.nodup_cons.mp hids).1
          rw [← Room.roster_memberIDs]
          exact List.mem_map_of_mem hb
        · rintro ⟨hne, b, ⟨rfl, rfl⟩ | hb, hother⟩
          · exact absurd rfl hne
          · exact ⟨b, hb, hother⟩
      rw [view_told hlog, hothers, ← hexact a i hold x]
      exact Finset.mem_erase

end ViewInv

theorem viewInv_reaches {socketOf : Nat → Nat} {roomID : Int} {st : OneRoom}
    (h : Reaches (oneRoomStep socketOf) always (.new roomID) st) : ViewInv socketOf st := by
  apply h.invariant (viewInv_new roomID)
  intro st act st' _ hinv _ hstep
  exact hinv.turn (turn_of_step hinv.flags hstep) (step_ids_nodup hinv.ids hstep)

theorem mem_roster {room : Room} {user : RoomUser} (h : user ∈ room.roomUser.values) :
    (user.session, user.seqID) ∈ room.roster :=
  List.mem_map_of_mem (f := fun user : RoomUser => (user.session, user.seqID)) h

/-- Whatever packets could not be built: no member still believes in a free ID, and
none was ever sent a SPAWN of an ID it believed in. -/
theorem free_ids_unseen {socketOf : Nat → Nat} {roomID : Int} {st : OneRoom}
    (h : Reaches (oneRoomStep socketOf) always (.new roomID) st) :
    ∀ user ∈ st.room.roomUser.values,
      (∀ id ∈ st.room.seqIDs, id ∉ view (st.heard user.session)) ∧
        Clean (changes (st.heard user.session)) := by
  intro user huser
  have hinv := viewInv_reaches h
  exact ⟨hinv.unused _ _ (mem_roster huser), hinv.clean _ _ (mem_roster huser)⟩

def allMade (_ : Nat) : Bool := true

/-- The LEAVE of session 0 cannot be built, so that its ID 0 stays in the view of
session 1 and is not given to session 2. -/
theorem free_ids_unseen_withheld :
    ∃ st, Reaches (oneRoomStep id) always (.new 0) st ∧ 0 ∈ view (st.heard 1) ∧
      ∀ id ∈ st.room.seqIDs, id ∉ view (st.heard 1) := by
  let acts : List OneRoomAct := [.job ⟨.enter, 0⟩ allMade 0, .job ⟨.enter, 1⟩ allMade 0,
    .job ⟨.leave, 0⟩ (fun _ => false) 0, .job ⟨.enter, 2⟩ allMade 0]
  have hrun : (run (guarded (oneRoomStep id) always) (.new 0) acts).any (fun st => decide
      (1 ∈ st.room.sessions ∧ 0 ∈ view (st.heard 1))) = true := by decide +kernel
  obtain ⟨st, hst, hends⟩ := (Option.any_eq_true _ _).mp hrun
  obtain ⟨hmember, hview⟩ := of_decide_eq_true hends
  obtain ⟨user, huser, hsession⟩ := List.mem_map.mp hmember
  have hreaches := reaches_of_run acts .start hst
  have h := (free_ids_unseen hreaches user huser).1
  rw [hsession] at h
  exact ⟨st, hreaches, hview, h⟩

/-- When every packet is built, each member knows exactly the others. -/
theorem views_exact {socketOf : Nat → Nat} {roomID : Int} {st : OneRoom}
    (h : Reaches (oneRoomStep socketOf) (fun _ act => act.AllMade) (.new roomID) st) :
    ∀ user ∈ st.room.roomUser.values,
      view (st.heard user.session) = (st.room.others user.session).toFinset ∧
        Clean (changes (st.heard user.session)) ∧
        .add user.seqID ∉ changes (st.heard user.session) := by
  intro user huser
  have hinv := viewInv_reaches h.any
  have hexact : Exact st := by
    apply h.invariant (I := Exact) nofun
    intro st act st' hreaches hexact hmade hstep
    have hinv := viewInv_reaches hreaches.any
    exact hexact.turn hinv hmade (turn_of_step hinv.flags hstep)
  refine ⟨?_, hinv.clean _ _ (mem_roster huser), hinv.own _ _ (mem_roster huser)⟩
  ext x
  rw [List.mem_toFinset]
  exact hexact _ _ (mem_roster huser) x

/-- Two members, one of whom came back under a new ID. -/
theorem views_exact_reenter :
    ∃ st, Reaches (oneRoomStep id) (fun _ act => act.AllMade) (.new 0) st ∧
      st.room.others 1 = [2] ∧ view (st.heard 1) = {2} := by
  let acts : List OneRoomAct := [.job ⟨.enter, 0⟩ allMade 0, .job ⟨.enter, 1⟩ allMade 0,
    .job ⟨.leave, 0⟩ allMade 0, .job ⟨.enter, 0⟩ allMade 0]
  have hrun : (run (guarded (oneRoomStep id) always) (.new 0) acts).any (fun st => decide
      (1 ∈ st.room.sessions ∧ st.room.others 1 = [2])) = true := by decide +kernel
  obtain ⟨st, hst, hends⟩ := (Option.any_eq_true _ _).mp hrun
  obtain ⟨hmember, hothers⟩ := of_decide_eq_true hends
  obtain ⟨user, huser, hsession⟩ := List.mem_map.mp hmember
  have hmade : ∀ act ∈ acts, act.AllMade := by
    simp [acts, OneRoomAct.AllMade, OneRoomAct.made, allMade]
  have hreaches := reaches_of_acts (fun _ _ _ hmade => hmade) acts hmade .start hst
  have h := (views_exact hreaches user huser).1
  rw [hsession, hothers] at h
  exact ⟨st, hreaches, hothers, h⟩

end RoomServer
