import RoomServer.ClientRoom

/-! Positions in the test client: after a tick its last sample of a member, itself included, is
where the member is. -/
namespace RoomServer
open Library Library.Transition Library.Replay

/-- Nobody is announced to itself, so what it heard of itself are its MOVEs. -/
theorem Record.own_move {roomID : Int} {id : Nat} {log : List (ServerPacket ℚ)}
    (h : Record roomID id log) : lastOf (log.flatMap ServerPacket.moves) id = lastHeard log id := by
  induction h with
  | enter => rfl
  | @next log packet record follows ih =>
    rw [List.flatMap_append, List.flatMap_singleton, lastOf_append, lastHeard_append, sightings,
      List.flatMap_singleton, ih]
    cases packet with
    | echo | enter => exact follows.elim
    | broadcast | leave | move => rfl
    | spawn packet =>
      have hspawn : lastOf (ServerPacket.spawn packet).sightings id = none :=
        lastOf_other fun data hdata => (follows.2 data hdata).2.1
      rw [hspawn]
      rfl

/-! ### What a member hears of itself -/

/-- Where a member takes itself to be: at the origin until it hears otherwise. -/
def OwnKnown (st : OneRoom) (user : RoomUser) : Prop :=
  (lastHeard (st.heard user.session) user.seqID).getD (0, 0) = (user.posX, user.posY)

def OwnTold (st : OneRoom) : Prop :=
  ∀ k user, st.room.roomUser.find k = some user → user.isMove = true ∨ OwnKnown st user

section Step
variable {socketOf : Nat → Nat} {st st' : OneRoom} {act : OneRoomAct}

theorem OwnKnown.silent {user user' : RoomUser} {sent : List (ServerPacket ℚ)}
    (h : OwnKnown st user)
    (hlog : st'.heard user.session = st.heard user.session ++ sent)
    (hsilent : lastOf (sightings sent) user.seqID = none)
    (hsession : user'.session = user.session) (hseqID : user'.seqID = user.seqID)
    (hpos : (user'.posX, user'.posY) = (user.posX, user.posY)) : OwnKnown st' user' := by
  rw [OwnKnown, hsession, hseqID, hlog, lastHeard_append, hsilent, hpos]
  exact h

theorem OwnTold.fewer (h : OwnTold st) {o : Outcome} {nowTick : Nat}
    (hfind : ∀ k user, o.room.roomUser.find k = some user → st.room.roomUser.find k = some user)
    (hsilent : ∀ a, sightings (sentTo a o.effects) = [])
    (hothers : ∀ a, .connect a ∉ o.effects) : OwnTold (st.finish o nowTick) := by
  intro k user hk
  apply (h k user (hfind k user hk)).imp_right
  intro hknown
  refine hknown.silent (heard_finish (hothers user.session) nowTick) ?_ rfl rfl rfl
  rw [hsilent]
  rfl

theorem OwnTold.enters (h : OwnTold st) (hview : ViewInv socketOf st) {o : Outcome}
    {nowTick socket s id : Nat} {sends : List Effect} (hids : o.room.ids.Nodup)
    (fresh : st.connected s = false) (free : id ∈ st.room.seqIDs)
    (inserted : (st.room.roomUser.insert socket (.enter s 0 0 id)).2 = true)
    (roomUser : o.room.roomUser = (st.room.roomUser.insert socket (.enter s 0 0 id)).1)
    (effects : o.effects = .connect s :: sends) (others : ∀ a, .connect a ∉ sends)
    (told : ∀ a, a ≠ s →
      sightings (sentTo a sends) = List.replicate (st.room.sessions.count a) ⟨id, 0, 0⟩)
    (tells : sightings (sentTo s sends) =
      (o.room.roomUser.values.filter fun user => user.session ≠ s).map RoomUser.data) :
    OwnTold (st.finish o nowTick) := by
  intro k user hk
  have hfind := OrderedMap.find_insert inserted
  rw [← roomUser] at hfind
  change o.room.roomUser.find k = some user at hk
  have huser := mem_values_of_find hk
  rw [hfind] at hk
  split at hk
  case isTrue =>
    -- the entrant is told of the others only
    cases hk
    right
    change (lastHeard ((st.finish o nowTick).heard s) id).getD (0, 0) = (0, 0)
    rw [heard_entrant effects others, lastHeard, tells, lastOf_other]
    · rfl
    · rintro data hdata heq
      obtain ⟨other, hother, rfl⟩ := List.mem_map.mp hdata
      obtain ⟨hvalue, hne⟩ := List.mem_filter.mp hother
      have hnodup : (o.room.roomUser.values.map RoomUser.seqID).Nodup :=
        (List.nodup_append.mp hids).2.1
      have hsame := List.inj_on_of_nodup_map hnodup hvalue huser heq
      rw [hsame] at hne
      simp [RoomUser.enter] at hne
  case isFalse =>
    have hroster := mem_roster (mem_values_of_find hk)
    have hold : user.session ≠ s := by
      intro heq
      have hconnected := hview.members _ _ hroster
      rw [heq, fresh] at hconnected
      contradiction
    apply (h k user hk).imp_right
    intro hknown
    refine hknown.silent (heard_stays effects others hold nowTick) ?_ rfl rfl rfl
    rw [told _ hold, hview.count hroster]
    apply lastOf_other
    intro data hdata heq
    rw [List.eq_of_mem_replicate hdata] at heq
    exact hview.not_free hroster (heq ▸ free)

theorem OwnTold.moves (h : OwnTold st) {nowTick s : Nat} {user : RoomUser} {x y : ℚ}
    (hplaced : user.Placed st.clock) (hclock : st.clock ≤ nowTick)
    (found : st.room.roomUser.find (socketOf s) = some user)
    (harrival : ¬(user.isMove = true ∧ user.endMoveTick ≤ nowTick ∧ user.destPosX = x ∧
      user.destPosY = y)) :
    OwnTold (st.finish (.idle { st.room with
      roomUser := st.room.roomUser.set (socketOf s)
        (Room.moveTo (Room.movePosition user nowTick) x y nowTick) }) nowTick) := by
  intro k other hk
  change (st.room.roomUser.set _ _).find k = some other at hk
  rw [OrderedMap.find_set, found] at hk
  split at hk
  case isFalse => exact h k other hk
  case isTrue =>
    have hmoved := Option.some.inj hk
    by_cases hmove : (Room.moveTo (Room.movePosition user nowTick) x y nowTick).isMove = true
    · exact .inl (hmoved ▸ hmove)
    · rw [Room.moveTo_stays hplaced hclock harrival (Bool.eq_false_iff.mpr hmove)] at hmoved
      exact hmoved ▸ h _ user found

theorem OwnTold.ticks (h : OwnTold st) (hview : ViewInv socketOf st) (room : Room)
    (hroom : room.roomUser = st.room.roomUser) {nowTick : Nat} {mk : Nat → Bool}
    (hmade : ∀ n, mk n = true) (clock k : Nat) (user : RoomUser)
    (hk : (room.moveCheckUsers nowTick mk).room.roomUser.find k = some user) :
    OwnKnown (st.finish (room.moveCheckUsers nowTick mk) clock) user := by
  change (room.roomUser.mapValues fun _ user => Room.movePosition user nowTick).find k =
    some user at hk
  rw [OrderedMap.find_mapValues, hroom] at hk
  obtain ⟨before, hbefore, rfl⟩ := Option.map_eq_some_iff.mp hk
  have hvalue := mem_values_of_find hbefore
  obtain ⟨packets, hreported⟩ := Room.moveCheckUsers_reported hmade room nowTick
  have hcount : room.sessions.count before.session = 1 := by
    rw [Room.sessions, hroom]
    exact hview.count (mem_roster hvalue)
  have hnone : Effect.connect before.session ∉ (room.moveCheckUsers nowTick mk).effects := by
    have hspec := room.moveCheckUsers_view nowTick mk
    rw [Outcome.effects, hspec.before]
    exact Room.no_connect hspec.sends_to _
  have hsightings : sightings (packets.map .move) =
      (st.room.roomUser.values.filter RoomUser.isMove).map fun user =>
        (Room.movePosition user nowTick).data := by
    rw [sightings_batches packets .move fun _ => rfl, hreported.entries, hroom]
  have hnodup : (st.room.roomUser.values.map RoomUser.seqID).Nodup :=
    (List.nodup_append.mp hview.ids).2.1
  rw [OwnKnown, Room.movePosition_session, Room.movePosition_seqID, heard_finish hnone,
    hreported.received _ hcount, lastHeard_append, hsightings]
  cases hmove : before.isMove with
  | true =>
    have hnames : (((st.room.roomUser.values.filter RoomUser.isMove).map fun user =>
        (Room.movePosition user nowTick).data).map SpawnData.seqID).Nodup := by
      have hsame : ((st.room.roomUser.values.filter RoomUser.isMove).map fun user =>
          (Room.movePosition user nowTick).data).map SpawnData.seqID =
            (st.room.roomUser.values.filter RoomUser.isMove).map RoomUser.seqID := by
        rw [List.map_map]
        exact List.map_congr_left fun user _ => Room.movePosition_seqID user nowTick
      rw [hsame]
      exact hnodup.sublist (List.filter_sublist.map _)
    have hlast := lastOf_mem hnames
      (List.mem_map.mpr ⟨before, List.mem_filter.mpr ⟨hvalue, hmove⟩, rfl⟩)
    rw [RoomUser.data, Room.movePosition_seqID] at hlast
    rw [hlast]
    rfl
  | false =>
    have htold := (h k before hbefore).resolve_left (by rw [hmove]; exact Bool.false_ne_true)
    rw [lastOf_other, Room.movePosition_rest hmove]
    · exact htold
    · intro data hdata heq
      obtain ⟨mover, hmover, rfl⟩ := List.mem_map.mp hdata
      obtain ⟨hmember, hmoves⟩ := List.mem_filter.mp hmover
      rw [RoomUser.data, Room.movePosition_seqID] at heq
      rw [List.inj_on_of_nodup_map hnodup hmember hvalue heq, hmove] at hmoves
      contradiction

theorem OwnTold.step (h : OwnTold st) (hpos : PositionInv st) (hview : ViewInv socketOf st)
    (hok : Orderly socketOf st act) (hstep : oneRoomStep socketOf st act = some st') :
    OwnTold st' := by
  have hids := step_ids_nodup hview.ids hstep
  cases hstep
  cases act with
  | job job made nowTick =>
    have hmade : ∀ n, made n = true := hok.made
    have hspec := dispatch_position job st.room (socketOf job.session) (st.connected job.session)
      hmade nowTick
    cases hspec with
    | same roomUser silent others => exact h.fewer (fun k user hk => roomUser ▸ hk) silent others
    | enters fresh free inserted roomUser effects others told tells =>
      exact h.enters hview hids fresh free inserted roomUser effects others told tells
    | leaves roomUser silent others =>
      refine h.fewer (fun k user hk => ?_) silent others
      change (st.outcome socketOf _).room.roomUser.find k = some user at hk
      rw [OneRoom.outcome, roomUser, OrderedMap.find_erase] at hk
      split at hk
      · contradiction
      · exact hk
    | @moves posX posY kind spec =>
      cases spec with
      | idle outcome =>
        rw [OneRoom.outcome, outcome]
        exact h.fewer (fun _ _ hk => hk) (fun _ => rfl) fun _ => List.not_mem_nil
      | @moves user x y connected reqX reqY inMap found outcome =>
        rw [OneRoom.outcome, outcome]
        apply h.moves (hpos.placed _ user found) hok.clock found
        intro harrived
        apply hok.arrival
        obtain ⟨kind', session⟩ := job
        cases kind
        rw [reqX, reqY]
        exact ⟨connected, user, found, harrived⟩
  | tick nowTick made =>
    rw [OneRoom.outcome, Room.tick]
    split
    · exact fun k user hk => .inr (h.ticks hview _ rfl hok.made nowTick k user hk)
    · exact h.fewer (fun _ _ hk => hk) (fun _ => rfl) fun _ => List.not_mem_nil
  | moveCheckUsers nowTick made =>
    exact fun k user hk => .inr (h.ticks hview st.room rfl hok.made nowTick k user hk)

theorem ownTold_reaches {roomID : Int}
    (h : Reaches (oneRoomStep socketOf) (Orderly socketOf) (.new roomID) st) : OwnTold st := by
  apply h.invariant
  · intro k user hk
    have hempty : (OneRoom.new roomID).room.roomUser.find k = none := OrderedMap.find_empty k
    rw [hempty] at hk
    contradiction
  · intro st act st' hreaches hinv hok hstep
    exact hinv.step (positionInv_reaches hreaches) (viewInv_reaches hreaches.any) hok hstep

structure ToldAll (st : OneRoom) : Prop where
  settled : Settled st
  own : ∀ k user, st.room.roomUser.find k = some user → OwnKnown st user

theorem toldAll_of_tick {roomID : Int}
    (h : Reaches (oneRoomStep socketOf) (Orderly socketOf) (.new roomID) st)
    (hok : Orderly socketOf st act) (htick : act.Ticks st)
    (hstep : oneRoomStep socketOf st act = some st') : ToldAll st' := by
  have hpos := positionInv_reaches h
  have hown := ownTold_reaches h
  have hview := viewInv_reaches h.any
  cases hstep
  cases act with
  | job job made nowTick => exact htick.elim
  | tick nowTick made =>
    have hdue : st.room.lastTick + MinMoveTick ≤ nowTick := htick
    rw [OneRoom.outcome, Room.tick, if_pos hdue]
    exact ⟨(hpos.ticks hview nowTick hok.clock hok.made).2, hown.ticks hview _ rfl hok.made nowTick⟩
  | moveCheckUsers nowTick made =>
    exact ⟨(hpos.ticks hview st.room.lastTick hok.clock hok.made).2,
      hown.ticks hview st.room rfl hok.made nowTick⟩

end Step

/-! ### The client -/

namespace Client
variable {τ : Type} {socketOf : Nat → Nat} {roomID : Int} {st st' : OneRoom} {user : RoomUser}

structure Sees (c : Client τ) (float : ℚ → UInt32) (st : OneRoom) (user : RoomUser) : Prop where
  others : ∀ mover ∈ st.room.roomUser.values, mover.session ≠ user.session →
    c.spawns.count mover.seqID ≤ 1 → ∀ sample, c.lastMove mover.seqID = some sample →
      (sample.x, sample.y) = (float mover.posX, float mover.posY)
  own : ∀ sample, c.lastMove user.seqID = some sample →
    (sample.x, sample.y) = (float user.posX, float user.posY)
  unmoved : c.lastMove user.seqID = none → (user.posX, user.posY) = (0, 0)

theorem sees_of_decoded {c : Client τ} (h : LogInv socketOf roomID st) (htold : ToldAll st)
    {float : ℚ → UInt32} {k : Nat} (hfind : st.room.roomUser.find k = some user) {refused : Nat}
    (hc : c.Decoded (streamOf refused float (st.heard user.session))) : c.Sees float st user := by
  have hmem : (user.session, user.seqID) ∈ st.room.roster := mem_roster (mem_values_of_find hfind)
  have hrecord := h.record _ _ hmem
  have hmoves := hc.moves.trans (stream_moves _ _ _)
  have hspawns := hc.spawns.trans (stream_spawnIDs _ _ _)
  have hown := htold.own k user hfind
  rw [OwnKnown, ← hrecord.own_move] at hown
  have hlast := lastMove_decoded hmoves user.seqID
  refine ⟨?_, ?_, ?_⟩
  · intro mover hmover hne honce sample hsample
    obtain ⟨k', hmover⟩ := OrderedMap.mem_values.mp hmover
    have hkeys : k' ≠ k := by
      rintro rfl
      rw [hfind] at hmover
      cases hmover
      exact hne rfl
    have hannounced := htold.settled k' mover k user hmover hfind hkeys
    have hother : mover.seqID ≠ user.seqID := by
      intro heq
      have hroster := mem_roster (mem_values_of_find hmover)
      rw [heq] at hroster
      exact hkeys (OrderedMap.key_eq_of_nodup (List.nodup_append.mp h.view.ids).2.1 hmover hfind heq)
    have hlast := lastMove_decoded hmoves mover.seqID
    rw [hsample, Option.map_some] at hlast
    rw [hspawns] at honce
    rw [hrecord.last_move hother honce fun hnone => ?_, hannounced] at hlast
    · exact Option.some.inj hlast
    · rw [hnone] at hlast
      contradiction
  · intro sample hsample
    rw [hsample, Option.map_some] at hlast
    cases hheard : lastOf ((st.heard user.session).flatMap ServerPacket.moves) user.seqID with
    | none =>
      rw [hheard] at hlast
      contradiction
    | some position =>
      rw [hheard] at hlast hown
      obtain rfl : position = (user.posX, user.posY) := hown
      exact Option.some.inj hlast
  · intro hnone
    rw [hnone, Option.map_none] at hlast
    cases hheard : lastOf ((st.heard user.session).flatMap ServerPacket.moves) user.seqID with
    | none =>
      rw [hheard] at hown
      exact hown.symm
    | some position =>
      rw [hheard] at hlast
      contradiction

/-- Immediately after every tick, whoever has read what it was sent has as its last sample of
everybody the place where that member is. -/
theorem client_sees_positions
    (h : Reaches (oneRoomStep socketOf) (fun st act => Orderly socketOf st act ∧ act.WellSized)
      (.new roomID) st) {act : OneRoomAct} (hok : Orderly socketOf st act)
    (hsized : act.WellSized) (htick : act.Ticks st)
    (hstep : oneRoomStep socketOf st act = some st') (hroomID : 0 ≤ roomID)
    (hhigh : roomID < 2147483648) (huser : user ∈ st'.room.roomUser.values) (nowSec : Nat → τ)
    (float : ℚ → UInt32) (refused : Nat) {frames receives : List (List Byte)}
    (hframed : List.Forall₂ ServerPacket.Framed
      (streamOf refused float (st'.heard user.session)) frames)
    (hcut : receives.flatten = frames.flatten) :
    ∃ c : Client τ, receives.foldlM (receive nowSec) new = some c ∧ c.Sees float st' user := by
  have hinv := logInv_reaches (h.weaken fun st act hok => ⟨hok.1.made, hok.2⟩)
  have hinv' := hinv.step hok.made hsized hstep
  have htold := toldAll_of_tick (h.weaken fun st act hok => hok.1) hok htick hstep
  obtain ⟨k, hfind⟩ := OrderedMap.mem_values.mp huser
  obtain ⟨c, hc, _, hdecoded⟩ :=
    decodes_stream nowSec hinv' hroomID hhigh float huser refused hframed hcut
  exact ⟨c, hc, sees_of_decoded hinv' htold hfind hdecoded⟩

/-- The second member after the tick at 1150, when the first has arrived at (1, 0). -/
theorem client_sees_positions_walk :
    ∃ (st' : OneRoom) (user : RoomUser) (receives : List (List Byte)) (c : Client Nat),
      st'.room.roomUser.find 1 = some user ∧
      (st'.room.roomUser.find 0).map (fun mover => (mover.posX, mover.posY)) = some (1, 0) ∧
      receives.foldlM (receive id) new = some c ∧ c.Sees walkFloat st' user := by
  have hrun : (run (guarded (oneRoomStep id) fun st act =>
      st.clock ≤ act.nowTick ∧ ¬ReachesAgain id st act) (.new 0) walk).any (fun st => decide
        (st.clock ≤ 1150 ∧ st.room.lastTick + MinMoveTick ≤ 1150 ∧
          (oneRoomStep id st (.tick 1150 allMade)).any fun st' => decide
            ((st'.room.roomUser.find 1).isSome = true ∧ (st'.room.roomUser.find 0).map
              (fun mover => (mover.posX, mover.posY)) = some (1, 0)))) = true := by
    decide +kernel
  obtain ⟨st, hst, hends⟩ := (Option.any_eq_true _ _).mp hrun
  obtain ⟨hclock, hdue, htick⟩ := of_decide_eq_true hends
  obtain ⟨st', hst', hlast⟩ := (Option.any_eq_true _ _).mp htick
  obtain ⟨hsome, harrived⟩ := of_decide_eq_true hlast
  obtain ⟨user, hfind⟩ := Option.isSome_iff_exists.mp hsome
  have hreaches : Reaches (oneRoomStep id) (fun st act => Orderly id st act ∧ act.WellSized)
      (.new 0) st :=
    reaches_of_acts (fun _ _ htested hallowed => ⟨⟨htested.1, hallowed.1, htested.2⟩, hallowed.2⟩)
      walk (fun act hact => And.intro (walk_made act hact) (walk_wellSized act hact)) .start hst
  have horderly : Orderly id st (.tick 1150 allMade) := ⟨hclock, fun _ => rfl, nofun⟩
  have hmem := mem_values_of_find hfind
  have hinv := (logInv_reaches (hreaches.weaken fun _ _ hok => ⟨hok.1.made, hok.2⟩)).step
    horderly.made trivial hst'
  have hframed := stream_framed hinv (Int.le_refl 0) (by decide) walkFloat hmem 0
  obtain ⟨c, hc, hsees⟩ := client_sees_positions hreaches horderly trivial hdue hst'
    (Int.le_refl 0) (by decide) hmem id walkFloat 0 hframed rfl
  exact ⟨st', user, _, c, hfind, harrived, hc, hsees⟩

end Client
end RoomServer
