import RoomServer.MemberLog
import RoomServer.ParseClient

/-! The room in the test client: what `ParseClient` has made of the bytes for a member, against
who is in the room and where. -/
namespace RoomServer
open Library Library.Transition Library.Replay

def ServerPacket.encode (float : ℚ → UInt32) : ServerPacket ℚ → ServerPacket UInt32
  | .echo text => .echo text
  | .broadcast text => .broadcast text
  | .enter roomID seqID => .enter roomID seqID
  | .spawn packet => .spawn (packet.mapCoordinates float)
  | .leave seqID => .leave seqID
  | .move packet => .move (packet.mapCoordinates float)

section Encode
variable (float : ℚ → UInt32) (packet : ServerPacket ℚ) (log : List (ServerPacket ℚ))

theorem spawnIDs_encode : (log.map (.encode float)).flatMap ServerPacket.spawnIDs =
    log.flatMap ServerPacket.spawnIDs := by
  rw [List.flatMap_map]
  apply List.flatMap_congr
  intro packet _
  cases packet <;> simp [ServerPacket.encode, ServerPacket.spawnIDs, DataList.mapCoordinates]

theorem moves_encode : (log.map (.encode float)).flatMap ServerPacket.moves =
    (log.flatMap ServerPacket.moves).map fun data =>
      ⟨data.seqID, float data.posX, float data.posY⟩ := by
  rw [List.flatMap_map, List.map_flatMap]
  apply List.flatMap_congr
  intro packet _
  cases packet <;> rfl

theorem leaves_encode : (log.map (.encode float)).countP ServerPacket.isLeave =
    log.countP ServerPacket.isLeave := by
  rw [List.countP_map]
  congr 1
  funext packet
  cases packet <;> rfl

theorem enterAck_encode : (log.map (.encode float)).filterMap ServerPacket.enterAck =
    log.filterMap ServerPacket.enterAck := by
  rw [List.filterMap_map]
  congr 1
  funext packet
  cases packet <;> rfl

end Encode

/-! ### What a log comes to -/

section Record
variable {roomID : Int} {id : Nat} {log : List (ServerPacket ℚ)}

theorem Record.typed (h : Record roomID id log) (hlow : -2147483648 ≤ roomID)
    (hhigh : roomID < 2147483648) (hid : id < MaxRoomUserCount) (float : ℚ → UInt32) :
    ∀ packet ∈ log, (packet.encode float).Typed := by
  have hsmall {x : Nat} (hx : x < MaxRoomUserCount) : x < 4294967296 :=
    Nat.lt_trans hx (by decide)
  induction h with
  | enter =>
    intro packet hpacket
    rw [List.mem_singleton.mp hpacket]
    exact ⟨hlow, hhigh, hsmall hid⟩
  | @next log packet record follows ih =>
    refine List.forall_mem_append.mpr ⟨ih, List.forall_mem_singleton.mpr ?_⟩
    cases packet with
    | echo | enter => exact follows.elim
    | broadcast text => exact follows
    | leave gone => exact hsmall (record.view_proper gone follows).1
    | spawn packet =>
      intro data hdata
      obtain ⟨entry, hentry, rfl⟩ := List.mem_map.mp hdata
      exact hsmall (follows.2 entry hentry).1
    | move packet =>
      intro data hdata
      obtain ⟨entry, hentry, rfl⟩ := List.mem_map.mp hdata
      rcases follows entry hentry with hown | hview
      · exact hsmall (hown ▸ hid)
      · exact hsmall (record.view_proper _ hview).1

theorem Record.ack (h : Record roomID id log) :
    log.filterMap ServerPacket.enterAck = [(roomID, id)] := by
  induction h with
  | enter => rfl
  | @next log packet record follows ih =>
    rw [List.filterMap_append, ih]
    cases packet with
    | echo | enter => exact follows.elim
    | broadcast | leave | spawn | move => rfl

theorem Record.count (h : Record roomID id log) :
    (view log).card + log.countP ServerPacket.isLeave =
      (log.flatMap ServerPacket.spawnIDs).length := by
  induction h with
  | enter => rfl
  | @next log packet record follows ih =>
    rw [List.countP_append, List.flatMap_append, List.length_append, ← ih]
    cases packet with
    | echo | enter => exact follows.elim
    | broadcast | move =>
      rw [view_quiet rfl]
      rfl
    | leave gone =>
      have hcard := Finset.card_erase_add_one follows
      rw [view_leave]
      simp only [List.countP_singleton, ServerPacket.isLeave, ↓reduceIte, List.flatMap_singleton,
        ServerPacket.spawnIDs, List.length_nil]
      omega
    | spawn packet =>
      have hview : view (log ++ [.spawn packet]) =
          view log ∪ (packet.data.map SpawnData.seqID).toFinset := by
        ext x
        rw [mem_view_spawn, Finset.mem_union, List.mem_toFinset]
      have hdisjoint : Disjoint (view log) (packet.data.map SpawnData.seqID).toFinset := by
        rw [Finset.disjoint_left]
        intro x hx hnew
        obtain ⟨data, hdata, rfl⟩ := List.mem_map.mp (List.mem_toFinset.mp hnew)
        exact (follows.2 data hdata).2.2 hx
      rw [hview, Finset.card_union_of_disjoint hdisjoint, List.toFinset_card_of_nodup follows.1]
      simp only [List.countP_singleton, ServerPacket.isLeave, Bool.false_eq_true, ↓reduceIte,
        List.flatMap_singleton, ServerPacket.spawnIDs, List.length_map]
      omega

/-- Whom a client hears of was announced to it before. -/
structure Record.Announces (id : Nat) (log : List (ServerPacket ℚ)) : Prop where
  view : ∀ x ∈ view log, x ∈ log.flatMap ServerPacket.spawnIDs
  others : ∀ x ∈ log.flatMap ServerPacket.spawnIDs, x ≠ id
  moves : ∀ data ∈ log.flatMap ServerPacket.moves,
    data.seqID = id ∨ data.seqID ∈ log.flatMap ServerPacket.spawnIDs

theorem Record.announces (h : Record roomID id log) : Record.Announces id log := by
  induction h with
  | enter => exact ⟨fun x hx => absurd hx (Finset.notMem_empty x), nofun, nofun⟩
  | @next log packet record follows ih =>
    have hmoves (hnone : packet.moves = []) : ∀ data ∈ (log ++ [packet]).flatMap ServerPacket.moves,
        data.seqID = id ∨ data.seqID ∈ (log ++ [packet]).flatMap ServerPacket.spawnIDs := by
      intro data hdata
      rw [List.flatMap_append, List.flatMap_singleton, hnone, List.append_nil] at hdata
      rw [List.flatMap_append]
      exact (ih.moves data hdata).imp_right (List.mem_append_left _)
    cases packet with
    | echo | enter => exact follows.elim
    | broadcast text =>
      refine ⟨?_, ?_, hmoves rfl⟩ <;> rw [List.flatMap_append]
      · rw [view_quiet rfl]
        exact fun x hx => List.mem_append_left _ (ih.view x hx)
      · exact List.forall_mem_append.mpr ⟨ih.others, nofun⟩
    | leave gone =>
      refine ⟨?_, ?_, hmoves rfl⟩ <;> rw [List.flatMap_append]
      · rw [view_leave]
        exact fun x hx => List.mem_append_left _ (ih.view x (Finset.mem_of_mem_erase hx))
      · exact List.forall_mem_append.mpr ⟨ih.others, nofun⟩
    | spawn packet =>
      refine ⟨?_, ?_, hmoves rfl⟩ <;> rw [List.flatMap_append, List.flatMap_singleton]
      · intro x hx
        exact List.mem_append.mpr (((mem_view_spawn packet x).mp hx).imp_left (ih.view x))
      · refine List.forall_mem_append.mpr ⟨ih.others, fun x hx => ?_⟩
        obtain ⟨data, hdata, rfl⟩ := List.mem_map.mp hx
        exact (follows.2 data hdata).2.1
    | move packet =>
      refine ⟨?_, ?_, ?_⟩ <;> rw [List.flatMap_append, List.flatMap_singleton]
      · rw [view_quiet rfl]
        exact fun x hx => List.mem_append_left _ (ih.view x hx)
      · exact List.forall_mem_append.mpr ⟨ih.others, nofun⟩
      · rw [List.flatMap_append]
        refine List.forall_mem_append.mpr ⟨fun data hdata => ?_, fun data hdata => ?_⟩
        · exact (ih.moves data hdata).imp_right (List.mem_append_left _)
        · exact (follows data hdata).imp_right fun hview =>
            List.mem_append_left _ (ih.view _ hview)

theorem lastOf_none {seen : List (SpawnData ℚ)} {x : Nat} :
    lastOf seen x = none ↔ ∀ data ∈ seen, data.seqID ≠ x := by
  simp [lastOf]

/-- When an ID was announced once, its last MOVE is the last that was heard of it. -/
theorem Record.last_move (h : Record roomID id log) {x : Nat} (hother : x ≠ id)
    (honce : (log.flatMap ServerPacket.spawnIDs).count x ≤ 1)
    (hmoved : lastOf (log.flatMap ServerPacket.moves) x ≠ none) :
    lastOf (log.flatMap ServerPacket.moves) x = lastHeard log x := by
  induction h with
  | enter => exact absurd rfl hmoved
  | @next log packet record follows ih =>
    rw [List.flatMap_append, List.flatMap_singleton, List.count_append] at honce
    rw [List.flatMap_append, List.flatMap_singleton] at hmoved ⊢
    rw [lastHeard_append, sightings, List.flatMap_singleton]
    have hbefore := ih (Nat.le_trans (Nat.le_add_right _ _) honce)
    cases packet with
    | echo | enter => exact follows.elim
    | broadcast text =>
      have hnone : (ServerPacket.broadcast text : ServerPacket ℚ).moves = [] := rfl
      rw [hnone, List.append_nil] at hmoved ⊢
      exact hbefore hmoved
    | leave gone =>
      have hnone : (ServerPacket.leave gone : ServerPacket ℚ).moves = [] := rfl
      rw [hnone, List.append_nil] at hmoved ⊢
      exact hbefore hmoved
    | spawn packet =>
      have hnone : (ServerPacket.spawn packet).moves = [] := rfl
      have hseen : (ServerPacket.spawn packet).sightings = packet.data := rfl
      rw [hnone, List.append_nil] at hmoved ⊢
      rw [hseen]
      have hnew : x ∉ packet.data.map SpawnData.seqID := fun hnew => by
        -- it would have moved before it came
        have hcount : 0 < (ServerPacket.spawn packet).spawnIDs.count x :=
          List.count_pos_iff.mpr hnew
        apply hmoved
        rw [lastOf_none]
        rintro data hdata rfl
        have hcame := (record.announces.moves data hdata).resolve_left hother
        have hpos := List.count_pos_iff.mpr hcame
        omega
      rw [lastOf_other fun data hdata heq => hnew (List.mem_map.mpr ⟨data, hdata, heq⟩)]
      exact hbefore hmoved
    | move packet =>
      have hdata : (ServerPacket.move packet).moves = packet.data := rfl
      have hseen : (ServerPacket.move packet).sightings = packet.data := rfl
      rw [hdata, lastOf_append] at hmoved ⊢
      rw [hseen]
      cases hlast : lastOf packet.data x with
      | some position => rfl
      | none =>
        rw [hlast] at hmoved
        exact hbefore hmoved

end Record

/-! ### The client -/

namespace Client
variable {τ : Type}

def lastMove (c : Client τ) (seqID : Nat) : Option (MoveSample τ) :=
  c.moves.foldl (fun out m => if m.seqID = seqID then some m else out) none

theorem foldl_last {p : α → Prop} [DecidablePred p] (xs : List α) :
    xs.foldl (fun out x => if p x then some x else out) none =
      xs.reverse.find? fun x => decide (p x) := by
  induction xs using List.reverseRecOn with
  | nil => rfl
  | append_singleton xs x ih =>
    rw [List.foldl_concat, List.reverse_append, List.reverse_singleton, List.singleton_append,
      List.find?_cons, ih]
    by_cases hx : p x <;> simp [hx]

theorem lastMove_decoded {c : Client τ} {log : List (ServerPacket ℚ)} {float : ℚ → UInt32}
    (h : c.moves.map (fun sample => (⟨sample.seqID, sample.x, sample.y⟩ : MoveData UInt32)) =
      (log.flatMap ServerPacket.moves).map fun data =>
        ⟨data.seqID, float data.posX, float data.posY⟩) (x : Nat) :
    (c.lastMove x).map (fun sample => (sample.x, sample.y)) =
      (lastOf (log.flatMap ServerPacket.moves) x).map fun position =>
        (float position.1, float position.2) := by
  have hfind := congrArg (fun seen : List (MoveData UInt32) =>
    (seen.reverse.find? fun data => data.seqID = x).map fun data => (data.posX, data.posY)) h
  rw [← List.map_reverse, ← List.map_reverse, List.find?_map, List.find?_map, Option.map_map,
    Option.map_map] at hfind
  rw [lastMove, foldl_last, lastOf, Option.map_map]
  exact hfind

structure Knows (c : Client τ) (room : Room) (user : RoomUser) : Prop where
  entered : c.entered = true
  roomID : c.roomID = room.roomID
  seqID : c.seqID = user.seqID
  others : ∀ other ∈ room.roomUser.values, other.session ≠ user.session →
    other.seqID ∈ c.spawns
  /-- Everybody who came and has not gone is there. -/
  count : c.spawns.length = c.leaves + (room.others user.session).length
  stranger : c.seqID ∉ c.spawns
  moves : ∀ sample ∈ c.moves, sample.seqID = c.seqID ∨ sample.seqID ∈ c.spawns

/-- What a connection is sent that was refused a number of times and is in at last. -/
def streamOf (refused : Nat) (float : ℚ → UInt32) (heard : List (ServerPacket ℚ)) :
    List (ServerPacket UInt32) :=
  List.replicate refused (.enter (-1) 0) ++ heard.map (.encode float)

section Stream
variable (refused : Nat) (float : ℚ → UInt32) (heard : List (ServerPacket ℚ))

theorem stream_spawnIDs : (streamOf refused float heard).flatMap ServerPacket.spawnIDs =
    heard.flatMap ServerPacket.spawnIDs := by
  rw [streamOf, List.flatMap_append, spawnIDs_encode, List.append_left_eq_self,
    List.flatMap_eq_nil_iff]
  intro packet hpacket
  rw [List.eq_of_mem_replicate hpacket]
  rfl

theorem stream_moves : (streamOf refused float heard).flatMap ServerPacket.moves =
    (heard.flatMap ServerPacket.moves).map fun data =>
      ⟨data.seqID, float data.posX, float data.posY⟩ := by
  rw [streamOf, List.flatMap_append, moves_encode, List.append_left_eq_self,
    List.flatMap_eq_nil_iff]
  intro packet hpacket
  rw [List.eq_of_mem_replicate hpacket]
  rfl

theorem stream_leaves : (streamOf refused float heard).countP ServerPacket.isLeave =
    heard.countP ServerPacket.isLeave := by
  rw [streamOf, List.countP_append, leaves_encode, List.countP_replicate]
  exact Nat.zero_add _

theorem stream_ack {roomID : Int} {id : Nat} (h : Record roomID id heard) :
    ((streamOf refused float heard).filterMap ServerPacket.enterAck).getLast? =
      some (roomID, id) := by
  rw [streamOf, List.filterMap_append, enterAck_encode, h.ack, List.getLast?_append]
  rfl

end Stream

section
variable {socketOf : Nat → Nat} {roomID : Int} {st : OneRoom} {user : RoomUser}

theorem stream_typed (h : LogInv socketOf roomID st) (hroomID : 0 ≤ roomID)
    (hhigh : roomID < 2147483648) (float : ℚ → UInt32) (huser : user ∈ st.room.roomUser.values)
    (refused : Nat) : ∀ packet ∈ streamOf refused float (st.heard user.session), packet.Typed := by
  refine List.forall_mem_append.mpr ⟨fun packet hpacket => ?_, List.forall_mem_map.mpr ?_⟩
  · rw [List.eq_of_mem_replicate hpacket]
    exact ⟨by decide, by decide, by decide⟩
  · have hmem : (user.session, user.seqID) ∈ st.room.roster := List.mem_map_of_mem huser
    have hid : user.seqID ∈ st.room.memberIDs := List.mem_map_of_mem huser
    have hsmall := h.ids _ (List.mem_append_right _ hid)
    exact (h.record _ _ hmem).typed (by omega) hhigh hsmall float

theorem decodes_stream (nowSec : Nat → τ) (h : LogInv socketOf roomID st) (hroomID : 0 ≤ roomID)
    (hhigh : roomID < 2147483648) (float : ℚ → UInt32)
    (huser : user ∈ st.room.roomUser.values) (refused : Nat) {frames receives : List (List Byte)}
    (hframed : List.Forall₂ ServerPacket.Framed
      (streamOf refused float (st.heard user.session)) frames)
    (hcut : receives.flatten = frames.flatten) :
    ∃ c : Client τ, receives.foldlM (receive nowSec) new = some c ∧ c.input = [] ∧
      c.Decoded (streamOf refused float (st.heard user.session)) := by
  have hnew : (new : Client τ).Decoded [] := ⟨rfl, rfl, rfl, rfl, rfl, rfl⟩
  have hincomplete : packetFormat.Incomplete (new : Client τ).input :=
    .inl packetFormat.headerLength_pos
  obtain ⟨hpackets, hrest⟩ :=
    ServerPacket.packets_stream (streamOf refused float (st.heard user.session))
  obtain ⟨c, hc, hdecoded⟩ := decoded_packets nowSec
    (streamOf refused float (st.heard user.session))
    (stream_typed h hroomID hhigh float huser refused) hnew
  refine ⟨c.withInput [], ?_, rfl, hdecoded.spawns, hdecoded.moves, hdecoded.leaves, hdecoded.ack⟩
  have hinput (bytes : List Byte) : (new : Client τ).input ++ bytes = bytes := List.nil_append bytes
  rw [receives_eq nowSec receives new hincomplete, hinput, hcut,
    ServerPacket.framed_stream hframed, hpackets, hrest, hc]
  rfl

theorem knows_of_decoded {c : Client τ} (h : LogInv socketOf roomID st) (hroomID : 0 ≤ roomID)
    {float : ℚ → UInt32} (huser : user ∈ st.room.roomUser.values) {refused : Nat}
    (hc : c.Decoded (streamOf refused float (st.heard user.session))) : c.Knows st.room user := by
  have hmem : (user.session, user.seqID) ∈ st.room.roster := List.mem_map_of_mem huser
  have hrecord := h.record _ _ hmem
  have hannounces := hrecord.announces
  have hexact := h.exact _ _ hmem
  have hack := hc.ack
  rw [stream_ack _ _ _ hrecord] at hack
  have hspawns := hc.spawns.trans (stream_spawnIDs _ _ _)
  have hleaves := hc.leaves.trans (stream_leaves _ _ _)
  have hseqID : c.seqID = user.seqID := hack.2.1
  refine ⟨hack.2.2.trans (decide_eq_true hroomID), hack.1.trans h.number.symm, hseqID, ?_, ?_,
    ?_, ?_⟩
  · intro other hother hne
    rw [hspawns]
    apply hannounces.view
    rw [hexact, Room.mem_others]
    exact ⟨other.session, List.mem_map_of_mem hother, hne⟩
  · have hview : view (st.heard user.session) = (st.room.others user.session).toFinset := by
      ext x
      rw [hexact, List.mem_toFinset]
    have hnodup : (st.room.others user.session).Nodup :=
      (List.nodup_append.mp h.view.ids).2.1.sublist (st.room.others_sublist user.session)
    rw [hspawns, hleaves, ← hrecord.count, hview, List.toFinset_card_of_nodup hnodup, Nat.add_comm]
  · rw [hspawns, hseqID]
    exact fun hown => hannounces.others _ hown rfl
  · intro sample hsample
    have hdecoded : (⟨sample.seqID, sample.x, sample.y⟩ : MoveData UInt32) ∈
        (st.heard user.session |>.flatMap ServerPacket.moves).map fun data =>
          (⟨data.seqID, float data.posX, float data.posY⟩ : MoveData UInt32) := by
      rw [← stream_moves refused, ← hc.moves]
      exact List.mem_map_of_mem hsample
    obtain ⟨data, hdata, heq⟩ := List.mem_map.mp hdecoded
    have hsame : data.seqID = sample.seqID := congrArg SpawnData.seqID heq
    rw [hspawns, hseqID, ← hsame]
    exact hannounces.moves data hdata

/-- Whoever has read what it was sent knows who it is, in which room, and that everybody else
who is there has been announced to it, at any moment of any run. -/
theorem client_knows_room
    (h : Reaches (oneRoomStep socketOf) (fun _ act => act.AllMade ∧ act.WellSized) (.new roomID)
      st) (hroomID : 0 ≤ roomID) (hhigh : roomID < 2147483648)
    (huser : user ∈ st.room.roomUser.values) (nowSec : Nat → τ) (float : ℚ → UInt32)
    (refused : Nat) {frames receives : List (List Byte)}
    (hframed : List.Forall₂ ServerPacket.Framed
      (streamOf refused float (st.heard user.session)) frames)
    (hcut : receives.flatten = frames.flatten) :
    ∃ c : Client τ, receives.foldlM (receive nowSec) new = some c ∧ c.input = [] ∧
      c.Knows st.room user := by
  have hinv := logInv_reaches h
  obtain ⟨c, hc, hinput, hdecoded⟩ :=
    decodes_stream nowSec hinv hroomID hhigh float huser refused hframed hcut
  exact ⟨c, hc, hinput, knows_of_decoded hinv hroomID huser hdecoded⟩

def walkFloat (x : ℚ) : UInt32 :=
  if x = 1 then 0x3f800000 else if x = 19 / 20 then 0x3f733333 else 0

theorem stream_framed (h : LogInv socketOf roomID st) (hroomID : 0 ≤ roomID)
    (hhigh : roomID < 2147483648) (float : ℚ → UInt32) (huser : user ∈ st.room.roomUser.values)
    (refused : Nat) :
    List.Forall₂ ServerPacket.Framed (streamOf refused float (st.heard user.session))
      ((streamOf refused float (st.heard user.session)).map fun packet =>
        packetBytes packet.packetType packet.body) := by
  rw [List.forall₂_map_right_iff, List.forall₂_same]
  exact fun packet hpacket => (stream_typed h hroomID hhigh float huser refused packet hpacket).framed

theorem walk_wellSized : ∀ act ∈ walk, act.WellSized := by
  simp [walk, OneRoomAct.WellSized]

/-- The second member during the walk, after it was refused once; its bytes are cut within a
header. -/
theorem client_knows_room_walk :
    ∃ (st : OneRoom) (user : RoomUser) (receives : List (List Byte)) (c : Client Nat),
      Reaches (oneRoomStep id) (fun _ act => act.AllMade ∧ act.WellSized) (.new 0) st ∧
      st.room.roomUser.find 1 = some user ∧ receives.foldlM (receive id) new = some c ∧
      receives.map List.length = [14, 50] ∧ c.Knows st.room user := by
  have hrun : (run (guarded (oneRoomStep id) fun _ _ => True) (.new 0) walk).any (fun st =>
      (st.room.roomUser.find 1).any fun user =>
        decide ((((streamOf 1 walkFloat (st.heard user.session)).map fun packet =>
          packetBytes packet.packetType packet.body).flatten).length = 64)) = true := by
    decide +kernel
  obtain ⟨st, hst, huser⟩ := (Option.any_eq_true _ _).mp hrun
  obtain ⟨user, hfind, hlength⟩ := (Option.any_eq_true _ _).mp huser
  have hreaches : Reaches (oneRoomStep id) (fun _ act => act.AllMade ∧ act.WellSized) (.new 0) st :=
    reaches_of_acts (fun _ _ _ hallowed => hallowed) walk
      (fun act hact => ⟨walk_made act hact, walk_wellSized act hact⟩) .start hst
  have hmem := mem_values_of_find hfind
  have hframed := stream_framed (logInv_reaches hreaches) (Int.le_refl 0) (by decide) walkFloat hmem 1
  have hbytes := of_decide_eq_true hlength
  obtain ⟨c, hc, _, hknows⟩ := client_knows_room hreaches (Int.le_refl 0) (by decide) hmem id
    walkFloat 1 hframed (by rw [List.flatten_cons, List.flatten_singleton, List.take_append_drop 14])
  refine ⟨st, user, _, c, hreaches, hfind, hc, ?_, hknows⟩
  simp only [List.map_cons, List.map_nil, List.length_take, List.length_drop, hbytes]
  decide

end
end Client
end RoomServer
