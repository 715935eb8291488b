import RoomServer.MoveReports
import RoomServer.RoomPositions

/-! What one member of a room is sent, from its ENTER on, as a protocol: which packets may
follow which. Every packet is made. -/
namespace RoomServer
open Library Library.Transition Library.Replay

/-! ### The protocol -/

def ServerPacket.Follows (id : Nat) (log : List (ServerPacket ℚ)) : ServerPacket ℚ → Prop
  | .echo _ | .enter _ _ => False
  | .broadcast text => text.length = 64
  | .spawn packet => (packet.data.map SpawnData.seqID).Nodup ∧ ∀ data ∈ packet.data,
      data.seqID < MaxRoomUserCount ∧ data.seqID ≠ id ∧ data.seqID ∉ view log
  | .leave gone => gone ∈ view log
  | .move packet => ∀ data ∈ packet.data, data.seqID = id ∨ data.seqID ∈ view log

/-- What a member may have been sent. -/
inductive Record (roomID : Int) (id : Nat) : List (ServerPacket ℚ) → Prop where
  | enter : Record roomID id [.enter roomID id]
  | next {log : List (ServerPacket ℚ)} {packet : ServerPacket ℚ} (record : Record roomID id log)
      (follows : packet.Follows id log) : Record roomID id (log ++ [packet])

section Record
variable {roomID : Int} {id : Nat} {log : List (ServerPacket ℚ)}

theorem view_snoc (log : List (ServerPacket ℚ)) (packet : ServerPacket ℚ) :
    view (log ++ [packet]) = replay (changes log ++ packet.changes) := by
  rw [view, changes_append, changes_cons, changes_nil, List.append_nil]

theorem view_quiet {packet : ServerPacket ℚ} (h : packet.changes = []) :
    view (log ++ [packet]) = view log := by
  rw [view_snoc, h, List.append_nil]
  rfl

theorem mem_view_spawn (packet : Server_Spawn ℚ) (x : Nat) :
    x ∈ view (log ++ [.spawn packet]) ↔
      x ∈ view log ∨ x ∈ packet.data.map SpawnData.seqID := by
  have hchanges : (ServerPacket.spawn packet).changes =
      (packet.data.map SpawnData.seqID).map .add := List.map_map.symm
  rw [view_snoc, hchanges]
  exact mem_replay_adds _ _ x

theorem view_leave (gone : Nat) : view (log ++ [.leave gone]) = (view log).erase gone := by
  rw [view_snoc]
  exact replay_snoc _ _

theorem Record.view_proper (h : Record roomID id log) :
    ∀ x ∈ view log, x < MaxRoomUserCount ∧ x ≠ id := by
  induction h with
  | enter => exact fun x hx => absurd hx (Finset.notMem_empty x)
  | @next log packet _ follows ih =>
    intro x hx
    cases packet with
    | echo | enter => exact follows.elim
    | broadcast | move =>
      rw [view_quiet rfl] at hx
      exact ih x hx
    | leave gone =>
      rw [view_leave] at hx
      exact ih x (Finset.mem_of_mem_erase hx)
    | spawn packet =>
      rcases (mem_view_spawn packet x).mp hx with hx | hx
      · exact ih x hx
      · obtain ⟨data, hdata, rfl⟩ := List.mem_map.mp hx
        exact ⟨(follows.2 data hdata).1, (follows.2 data hdata).2.1⟩

theorem Record.moves (h : Record roomID id log) {batches : List (Server_Move_Ack ℚ)}
    (hknown : ∀ data ∈ batches.flatMap DataList.data, data.seqID = id ∨ data.seqID ∈ view log) :
    Record roomID id (log ++ batches.map .move) := by
  induction batches generalizing log with
  | nil => simpa using h
  | cons batch batches ih =>
    rw [List.flatMap_cons, List.forall_mem_append] at hknown
    have hnext : Record roomID id (log ++ [.move batch]) := h.next hknown.1
    have hview : view (log ++ [.move batch]) = view log := view_quiet rfl
    have hall := ih hnext (hview.symm ▸ hknown.2)
    rwa [List.append_assoc] at hall

/-- An entrant is told of everybody in as many batches as it takes. -/
theorem record_entrant {batches : List (Server_Spawn ℚ)}
    (hnodup : ((batches.flatMap DataList.data).map SpawnData.seqID).Nodup)
    (hproper : ∀ data ∈ batches.flatMap DataList.data,
      data.seqID < MaxRoomUserCount ∧ data.seqID ≠ id) :
    Record roomID id (.enter roomID id :: batches.map .spawn) ∧
      ∀ x, x ∈ view (.enter roomID id :: batches.map .spawn) ↔
        x ∈ (batches.flatMap DataList.data).map SpawnData.seqID := by
  induction batches using List.reverseRecOn with
  | nil => exact ⟨.enter, fun x => by simp [view, ServerPacket.changes]⟩
  | append_singleton batches batch ih =>
    rw [List.flatMap_append, List.flatMap_singleton] at hproper
    rw [List.flatMap_append, List.flatMap_singleton, List.map_append, List.nodup_append'] at hnodup
    obtain ⟨hbefore, hbatch, hdisjoint⟩ := hnodup
    rw [List.forall_mem_append] at hproper
    obtain ⟨hrecord, hview⟩ := ih hbefore hproper.1
    rw [List.map_append, List.map_singleton, ← List.cons_append]
    refine ⟨hrecord.next ⟨hbatch, fun data hdata => ?_⟩, fun x => ?_⟩
    · refine ⟨(hproper.2 data hdata).1, (hproper.2 data hdata).2, ?_⟩
      rw [hview]
      exact fun hmem => hdisjoint hmem (List.mem_map_of_mem hdata)
    · rw [mem_view_spawn, hview, List.flatMap_append, List.flatMap_singleton, List.map_append,
        List.mem_append]

end Record

/-! ### What a step tells a member -/

/-- The packets of one step for one member. -/
inductive Telling (room : Room) (a : Nat) : List (ServerPacket ℚ) → Prop where
  | nothing : Telling room a []
  | entrant {id : Nat} (free : id ∈ room.seqIDs) :
      Telling room a [.spawn ((DataList.empty : Server_Spawn ℚ).add ⟨id, 0, 0⟩).1]
  | leaver {id : Nat} (other : id ∈ room.others a) : Telling room a [.leave id]
  | broadcast {text : List Byte} (length : text.length = 64) : Telling room a [.broadcast text]
  | movers {batches : List (Server_Move_Ack ℚ)}
      (members : ∀ data ∈ batches.flatMap DataList.data, data.seqID ∈ room.memberIDs) :
      Telling room a (batches.map .move)

/-- A member hears more, or it is let in and hears who is there. -/
inductive Told (st st' : OneRoom) (a id : Nat) : Prop where
  | more {packets : List (ServerPacket ℚ)} (member : (a, id) ∈ st.room.roster)
      (telling : Telling st.room a packets) (heard : st'.heard a = st.heard a ++ packets)
  | first {batches : List (Server_Spawn ℚ)} (free : id ∈ st.room.seqIDs)
      (heard : st'.heard a = .enter st.room.roomID id :: batches.map .spawn)
      (others : (batches.flatMap DataList.data).map SpawnData.seqID = st'.room.others a)

def OneRoomAct.WellSized : OneRoomAct → Prop
  | .job ⟨.broadcast text, _⟩ _ _ => text.length = 64
  | _ => True

theorem connect_enter {job : Job} {room : Room} {socket : Nat} {isConnected : Bool}
    {mk : Nat → Bool} {nowTick a : Nat}
    (h : .connect a ∈ (job.dispatch room socket isConnected mk nowTick).effects) :
    job.kind = .enter ∧ a = job.session := by
  have hspec := dispatch_spec job room socket isConnected mk nowTick
  rw [Outcome.effects] at h
  cases hspec with
  | stays members before after =>
    rw [before] at h
    exact absurd h (Room.no_connect after a)
  | enters kind fresh absent members before after sends_to =>
    rw [before, after] at h
    have hnone := Room.no_connect sends_to a
    simp only [List.nil_append, List.mem_cons, Effect.connect.injEq, reduceCtorEq, hnone,
      or_false] at h
    exact ⟨kind, h⟩
  | leaves kind connected members before sends_to after =>
    rw [before, after] at h
    have hnone := Room.no_connect sends_to a
    simp [hnone] at h

/-- A session that is in is told nothing by its own jobs. -/
theorem own_silent (job : Job) (room : Room) (socket : Nat) (mk : Nat → Bool) (nowTick : Nat) :
    sentTo job.session (job.dispatch room socket true mk nowTick).effects = [] := by
  obtain ⟨kind, session⟩ := job
  cases kind with
  | enter => rfl
  | leave =>
    simp only [Job.dispatch, Room.leave, Bool.true_eq_false, ↓reduceIte]
    split
    · rfl
    · split
      · simp only [Outcome.effects, sentTo_append, Room.sentTo_sendOthers_self]
        rfl
      · rfl
  | broadcast text =>
    simp only [Job.dispatch, Room.broadCast, Outcome.effects, List.nil_append]
    split
    · exact room.sentTo_sendOthers_self session _
    · rfl
  | move posX posY =>
    simp only [Job.dispatch, Room.move]
    split
    · split
      · rfl
      · split
        · rfl
        · split <;> rfl
    · rfl

theorem Room.enter_sent {room : Room} {session socket : Nat} {isConnected : Bool}
    {mk : Nat → Bool} (hmade : ∀ n, mk n = true)
    (hentered : .connect session ∈ (room.enter session socket isConnected mk).effects) :
    ∃ (id : Nat) (batches : List (Server_Spawn ℚ)), id ∈ room.seqIDs.head? ∧
      sentTo session (room.enter session socket isConnected mk).effects =
        .enter room.roomID id :: batches.map .spawn ∧
      (batches.flatMap DataList.data).map SpawnData.seqID =
        (room.enter session socket isConnected mk).room.others session := by
  unfold Room.enter at hentered ⊢
  split at hentered
  case isTrue => exact absurd hentered List.not_mem_nil
  case isFalse hfresh =>
    rw [if_neg hfresh]
    split at hentered
    case h_1 =>
      rw [if_pos (hmade 0)] at hentered
      simp [Outcome.effects] at hentered
    case h_2 seqID seqIDs hfree =>
      dsimp only at hentered ⊢
      split at hentered
      case isFalse => exact absurd hentered List.not_mem_nil
      case isTrue hall =>
        obtain ⟨batches, hsent, _, hdata⟩ := spawnUsers_batches session
          (.spawn ((DataList.empty : Server_Spawn ℚ).add (RoomUser.enter session 0 0 seqID).data).1)
          mk (room.roomUser.insert socket (.enter session 0 0 seqID)).1.values .empty 2
        rw [if_pos hall, Outcome.effects, List.nil_append]
        refine ⟨seqID, batches, by rw [hfree]; rfl, ?_, ?_⟩
        · change sentTo session (.insertSendQueue session _ :: _) = _
          rw [sentTo_self, hsent]
        · rw [hdata hmade]
          simp [DataList.empty, Room.others, RoomUser.data, Function.comp_def]

section Step
variable {socketOf : Nat → Nat} {roomID : Int} {st st' : OneRoom} {act : OneRoomAct} {a id : Nat}

theorem telling_others (hinv : ViewInv socketOf st) {job : Job} {mk : Nat → Bool}
    (hmade : ∀ n, mk n = true) {nowTick : Nat}
    (hsized : (OneRoomAct.job job mk nowTick).WellSized) (hmem : (a, id) ∈ st.room.roster)
    (ha : a ≠ job.session) :
    Telling st.room a (sentTo a (job.dispatch st.room (socketOf job.session)
      (st.connected job.session) mk nowTick).effects) := by
  have hspec := dispatch_roomWide hmade job st.room (socketOf job.session)
    (st.connected job.session) nowTick
  rw [hspec.others a ha, hinv.count hmem]
  obtain ⟨kind, session⟩ := job
  cases kind with
  | enter =>
    simp only [Job.roomWide]
    split
    · exact .nothing
    · cases hfree : st.room.seqIDs with
      | nil => exact .nothing
      | cons seqID seqIDs => exact .entrant (hfree ▸ List.mem_cons_self)
  | leave =>
    simp only [Job.roomWide]
    split
    case isFalse => exact .nothing
    case isTrue hconnected =>
      cases hfind : st.room.roomUser.find (socketOf session) with
      | none => exact .nothing
      | some user =>
        have hsession := hinv.flags session hconnected
        rw [Room.member, hfind, Option.map_some] at hsession
        have hother : user.session ≠ a := (Option.some.inj hsession).trans_ne (Ne.symm ha)
        apply Telling.leaver
        apply List.mem_map_of_mem
        exact List.mem_filter.mpr ⟨mem_values_of_find hfind, by simpa using hother⟩
  | broadcast text => exact .broadcast hsized
  | move posX posY => exact .nothing

theorem told_job (hinv : ViewInv socketOf st) {job : Job} {mk : Nat → Bool}
    (hmade : ∀ n, mk n = true) {nowTick : Nat}
    (hsized : (OneRoomAct.job job mk nowTick).WellSized)
    (hstep : oneRoomStep socketOf st (.job job mk nowTick) = some st')
    (hmem : (a, id) ∈ st'.room.roster) : Told st st' a id := by
  cases hstep
  have hheard {b : Nat} (hb : b ≠ job.session) :
      (st.finish (st.outcome socketOf (.job job mk nowTick)) nowTick).heard b =
        st.heard b ++ sentTo b (st.outcome socketOf (.job job mk nowTick)).effects :=
    heard_finish (fun hconnect => hb (connect_enter hconnect).2) nowTick
  have hothers (hold : (a, id) ∈ st.room.roster) (ha : a ≠ job.session) :=
    Told.more hold (telling_others hinv hmade hsized hold ha) (hheard ha)
  have hview := dispatch_view job st.room (socketOf job.session) (st.connected job.session) mk nowTick
  cases hview with
  | stays stay =>
    have hold : (a, id) ∈ st.room.roster := stay.roster ▸ hmem
    by_cases ha : a = job.session
    case neg => exact hothers hold ha
    case pos =>
      -- a member's own job has nothing for it
      subst ha
      have hconnected := hinv.members _ _ hold
      have hnone : Effect.connect job.session ∉
          (st.outcome socketOf (.job job mk nowTick)).effects := by
        change _ ∉ (job.dispatch st.room _ _ mk nowTick).effects
        rw [Outcome.effects, stay.before]
        exact Room.no_connect stay.sends_to _
      refine .more hold .nothing ?_
      change (st.finish (st.outcome socketOf (.job job mk nowTick)) nowTick).heard job.session = _
      rw [heard_finish hnone, OneRoom.outcome, hconnected, own_silent]
  | @enters seqID sends fresh absent members roster free before after sends_to told tells =>
    by_cases ha : a = job.session
    case neg => exact hothers (mem_roster_of_enter roster ha hmem) ha
    case pos =>
      subst ha
      have heffects : (st.outcome socketOf (.job job mk nowTick)).effects =
          .connect job.session :: .setRoomID job.session st.room.roomID :: sends := by
        change (job.dispatch st.room _ _ mk nowTick).effects = _
        rw [Outcome.effects, before, after, List.nil_append]
      have hconnect : Effect.connect job.session ∈
          (st.outcome socketOf (.job job mk nowTick)).effects := by
        rw [heffects]
        exact List.mem_cons_self
      have hkind := (connect_enter hconnect).1
      obtain ⟨kind, session⟩ := job
      cases hkind
      have hstranger : (session, id) ∉ st.room.roster := fun hold => by
        have hconnected := hinv.members _ _ hold
        rw [fresh] at hconnected
        contradiction
      obtain ⟨seqID', batches, hhead, hsent, hdata⟩ := Room.enter_sent hmade hconnect
      have hid : id = seqID := congrArg Prod.snd
        ((List.mem_cons.mp (roster.mem_iff.mp hmem)).resolve_right hstranger)
      rw [free] at hhead
      obtain rfl : seqID = seqID' := Option.some.inj hhead
      rw [hid]
      refine .first (free ▸ List.mem_cons_self) ?_ hdata
      rw [← hsent]
      change (st.finish (st.outcome socketOf (.job ⟨.enter, session⟩ mk nowTick)) nowTick).heard
        session = sentTo session (st.outcome socketOf (.job ⟨.enter, session⟩ mk nowTick)).effects
      have hrest : ∀ b, Effect.connect b ∉ Effect.setRoomID session st.room.roomID :: sends := by
        intro b hb
        exact Room.no_connect sends_to b (by simpa using hb)
      rw [heard_entrant heffects hrest, heffects]
      rfl
  | leaves connected found members roster before sends_to after announced =>
    have hsession := hinv.flags _ connected
    rw [found] at hsession
    obtain rfl := Option.some.inj hsession
    obtain ⟨ha, hold⟩ := hinv.left roster hmem
    exact hothers hold ha
  | absent connected found =>
    rw [hinv.flags _ connected] at found
    contradiction

theorem told_tick (hinv : ViewInv socketOf st) {mk : Nat → Bool} (hmade : ∀ n, mk n = true)
    (room : Room) (hroom : room.roomUser = st.room.roomUser) {nowTick clock : Nat}
    (hmem : (a, id) ∈ (room.moveCheckUsers nowTick mk).room.roster) :
    Told st (st.finish (room.moveCheckUsers nowTick mk) clock) a id := by
  have hsame : room.roster = st.room.roster := by rw [Room.roster, hroom, Room.roster]
  have hview := room.moveCheckUsers_view nowTick mk
  have hold : (a, id) ∈ st.room.roster := hsame ▸ hview.roster ▸ hmem
  obtain ⟨packets, hreported⟩ := Room.moveCheckUsers_reported hmade room nowTick
  have hcount : room.sessions.count a = 1 := by
    rw [Room.sessions, hroom]
    exact hinv.count hold
  have hnone : Effect.connect a ∉ (room.moveCheckUsers nowTick mk).effects := by
    rw [Outcome.effects, hview.before]
    exact Room.no_connect hview.sends_to a
  have hmembers : ∀ data ∈ packets.flatMap DataList.data, data.seqID ∈ st.room.memberIDs := by
    intro data hdata
    rw [hreported.entries] at hdata
    obtain ⟨user, huser, rfl⟩ := List.mem_map.mp hdata
    rw [RoomUser.data, Room.movePosition_seqID, Room.memberIDs, ← hroom]
    exact List.mem_map_of_mem (List.mem_filter.mp huser).1
  refine .more hold (.movers hmembers) ?_
  rw [heard_finish hnone, hreported.received a hcount]

theorem told_step (hinv : ViewInv socketOf st) {act : OneRoomAct} (hmade : act.AllMade)
    (hsized : act.WellSized) (hstep : oneRoomStep socketOf st act = some st')
    (hmem : (a, id) ∈ st'.room.roster) : Told st st' a id := by
  cases act with
  | job job mk nowTick => exact told_job hinv hmade hsized hstep hmem
  | moveCheckUsers nowTick mk =>
    cases hstep
    exact told_tick hinv hmade st.room rfl hmem
  | tick nowTick mk =>
    cases hstep
    change (a, id) ∈ (st.room.tick nowTick mk).room.roster at hmem
    change Told st (st.finish (st.room.tick nowTick mk) nowTick) a id
    unfold Room.tick at hmem ⊢
    split at hmem
    case isTrue hdue =>
      rw [if_pos hdue]
      exact told_tick hinv hmade { st.room with lastTick := nowTick } rfl hmem
    case isFalse hearly =>
      rw [if_neg hearly]
      exact .more hmem .nothing (heard_finish List.not_mem_nil nowTick)

/-! ### The log of a member -/

theorem ViewInv.same (hinv : ViewInv socketOf st) {id' : Nat} (h : (a, id) ∈ st.room.roster)
    (h' : (a, id') ∈ st.room.roster) : id = id' := by
  have hnodup : (st.room.roster.map Prod.fst).Nodup := by
    rw [Room.roster_sessions]
    exact hinv.sessions
  exact congrArg Prod.snd (List.inj_on_of_nodup_map hnodup h h' rfl)

theorem known_of_member (hinv : ViewInv socketOf st) (hexact : Exact st)
    (hmem : (a, id) ∈ st.room.roster) {x : Nat} (hx : x ∈ st.room.memberIDs) :
    x = id ∨ x ∈ view (st.heard a) := by
  rw [← Room.roster_memberIDs] at hx
  obtain ⟨⟨b, x⟩, hb, rfl⟩ := List.mem_map.mp hx
  by_cases hba : b = a
  · subst hba
    exact .inl (hinv.same hb hmem)
  · exact .inr ((hexact a id hmem x).mpr (Room.mem_others.mpr ⟨b, hb, hba⟩))

structure LogInv (socketOf : Nat → Nat) (roomID : Int) (st : OneRoom) : Prop where
  view : ViewInv socketOf st
  exact : Exact st
  ids : ∀ id ∈ st.room.ids, id < MaxRoomUserCount
  number : st.room.roomID = roomID
  record : ∀ a id, (a, id) ∈ st.room.roster → Record roomID id (st.heard a)

theorem ids_step {x : Nat} (hstep : oneRoomStep socketOf st act = some st')
    (hx : x ∈ st'.room.ids) : x ∈ st.room.ids := by
  cases hstep
  cases act with
  | job job mk nowTick =>
    exact (dispatch_ids job st.room _ _ mk nowTick).subset (List.mem_append_left _ hx)
  | tick nowTick mk => exact st.room.tick_ids nowTick mk ▸ hx
  | moveCheckUsers nowTick mk => exact st.room.moveCheckUsers_ids nowTick mk ▸ hx

theorem roomID_step (hstep : oneRoomStep socketOf st act = some st') :
    st'.room.roomID = st.room.roomID := by
  cases hstep
  cases act with
  | job job mk nowTick => exact Room.dispatch_roomID job st.room _ _ mk nowTick
  | tick nowTick mk =>
    change (st.room.tick nowTick mk).room.roomID = _
    unfold Room.tick
    split <;> rfl
  | moveCheckUsers nowTick mk => rfl

theorem LogInv.telling (h : LogInv socketOf roomID st) (hmem : (a, id) ∈ st.room.roster)
    {packets : List (ServerPacket ℚ)} (htelling : Telling st.room a packets) :
    Record roomID id (st.heard a ++ packets) := by
  have hrecord := h.record a id hmem
  cases htelling with
  | nothing => rwa [List.append_nil]
  | @entrant x free =>
    refine hrecord.next (And.intro (List.nodup_singleton _) fun data hdata => ?_)
    rw [List.mem_singleton.mp hdata]
    refine ⟨h.ids x (List.mem_append_left _ free), fun heq => ?_, h.view.unused a id hmem x free⟩
    exact h.view.not_free hmem (heq ▸ free)
  | leaver other => exact hrecord.next ((h.exact a id hmem _).mpr other)
  | broadcast length => exact hrecord.next length
  | movers members =>
    exact hrecord.moves fun data hdata => known_of_member h.view h.exact hmem (members data hdata)

theorem LogInv.step (h : LogInv socketOf roomID st) (hmade : act.AllMade) (hsized : act.WellSized)
    (hstep : oneRoomStep socketOf st act = some st') : LogInv socketOf roomID st' := by
  have hturn := turn_of_step h.view.flags hstep
  have hview := h.view.turn hturn (step_ids_nodup h.view.ids hstep)
  have hids : ∀ x ∈ st'.room.ids, x < MaxRoomUserCount := fun x hx =>
    h.ids x (ids_step hstep hx)
  refine ⟨hview, h.exact.turn h.view hmade hturn, hids, (roomID_step hstep).trans h.number, ?_⟩
  intro a id hmem
  cases told_step h.view hmade hsized hstep hmem with
  | more member telling heard =>
    rw [heard]
    exact h.telling member telling
  | @first batches free heard others =>
    have hmemberIDs : ∀ data ∈ batches.flatMap DataList.data,
        data.seqID ∈ st'.room.others a := fun data hdata => others ▸ List.mem_map_of_mem hdata
    rw [heard, h.number]
    refine (record_entrant ?_ fun data hdata => ?_).1
    · rw [others]
      exact (List.nodup_append.mp hview.ids).2.1.sublist (st'.room.others_sublist a)
    · have hother := hmemberIDs data hdata
      have hmember := (st'.room.others_sublist a).subset hother
      refine ⟨hids _ (List.mem_append_right _ hmember), fun heq => ?_⟩
      obtain ⟨b, hb, hne⟩ := Room.mem_others.mp hother
      rw [heq] at hb
      have hnodup : (st'.room.roster.map Prod.snd).Nodup := by
        rw [Room.roster_memberIDs]
        exact (List.nodup_append.mp hview.ids).2.1
      exact hne (congrArg Prod.fst (List.inj_on_of_nodup_map hnodup hb hmem rfl))

end Step

theorem logInv_reaches {socketOf : Nat → Nat} {roomID : Int} {st : OneRoom}
    (h : Reaches (oneRoomStep socketOf) (fun _ act => act.AllMade ∧ act.WellSized) (.new roomID)
      st) : LogInv socketOf roomID st := by
  apply h.invariant
  · refine ⟨viewInv_new roomID, nofun, fun x hx => ?_, rfl, nofun⟩
    change x ∈ (Room.new roomID).ids at hx
    rw [Room.ids_new] at hx
    exact List.mem_range.mp hx
  · intro st act st' _ hinv hok hstep
    exact hinv.step hok.1 hok.2 hstep

end RoomServer
