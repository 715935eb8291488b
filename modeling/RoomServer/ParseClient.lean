import Mathlib.Data.List.Forall2
import RoomServer.Segmentation
import RoomServer.Wire

/-! The test client's `ParseClient`: what it makes of the bytes of the server,
however they were cut into receives. -/
namespace RoomServer
open Library.LittleEndian Library.Framing

structure MoveSample (τ : Type) where
  t : τ
  seqID : Nat
  x : UInt32
  y : UInt32
  deriving DecidableEq

structure Client (τ : Type) where
  roomID : Int
  seqID : Nat
  entered : Bool
  /-- `in`, the bytes not yet consumed. -/
  input : List Byte
  moves : List (MoveSample τ)
  spawns : List Nat
  leaves : Nat
  deriving DecidableEq

namespace Client

def new : Client τ := ⟨-1, 0, false, [], [], [], 0⟩

def overlay (structSize : Nat) (body : List Byte) : List Byte :=
  body ++ List.replicate (structSize - body.length) 0

def getCount (image : List Byte) : Int := readInt image

/-- `GetSpawnData` and `GetMoveData`: a null pointer from the count on. A count beyond the
array makes it read outside, which is undefined. -/
def getData (limit : Nat) (image : List Byte) (index : Nat) :
    Option (Option (SpawnData UInt32)) :=
  if (index : Int) < getCount image then
    if index < limit then some (some (.read (image.drop (4 + SpawnData.size * index)))) else none
  else some none

/-- The loop over the entries: the ones that are not null, `remaining` rounds from `index` on. -/
def collect (get : Nat → Option (Option α)) (index : Nat) : Nat → Option (List α)
  | 0 => some []
  | remaining + 1 => do
    let data ← get index
    let rest ← collect get (index + 1) remaining
    some (data.toList ++ rest)

def entries (limit : Nat) (image : List Byte) : Option (List (SpawnData UInt32)) :=
  collect (getData limit image) 0 (getCount image).toNat

/-! The cases of the `switch`, on the body of a packet. -/

def enter (c : Client τ) (body : List Byte) : Client τ :=
  if body.length = 8 then
    let roomID := readInt body
    { c with
      roomID := roomID
      seqID := readUInt (body.drop 4)
      entered := 0 ≤ roomID }
  else c

def spawn (c : Client τ) (body : List Byte) : Option (Client τ) :=
  let size := DataList.structSize MaxSendSpawnCount
  if 0 < body.length ∧ body.length ≤ size then
    (entries MaxSendSpawnCount (overlay size body)).map fun datas =>
      { c with spawns := c.spawns ++ datas.map (·.seqID) }
  else some c

/-- The clock is given by how many samples there are when it is read. -/
def move (nowSec : Nat → τ) (c : Client τ) (body : List Byte) : Option (Client τ) :=
  let size := DataList.structSize MaxSendMoveCount
  if 0 < body.length ∧ body.length ≤ size then
    let now := nowSec c.moves.length
    (entries MaxSendMoveCount (overlay size body)).map fun datas =>
      { c with moves := c.moves ++ datas.map fun data => ⟨now, data.seqID, data.posX, data.posY⟩ }
  else some c

def packet (nowSec : Nat → τ) (c : Client τ) (packet : Packet) : Option (Client τ) :=
  if packet.type = PacketType.SERVER_ENTER then some (c.enter packet.body)
  else if packet.type = PacketType.SERVER_SPAWN then c.spawn packet.body
  else if packet.type = PacketType.SERVER_MOVE then c.move nowSec packet.body
  else if packet.type = PacketType.SERVER_LEAVE then some { c with leaves := c.leaves + 1 }
  else some c

/-- The `while` loop, with the offset it ends at; `none` also when the fuel did not suffice. -/
def parseLoop (nowSec : Nat → τ) : Nat → Client τ → Nat → Option (Client τ × Nat)
  | 0, _, _ => none
  | fuel + 1, c, offset =>
    if c.input.length - offset < PacketID_SIZE then some (c, offset)
    else
      let header := PacketID.read (c.input.drop offset)
      let total := PacketID_SIZE + header.size.toNat
      if c.input.length - offset < total then some (c, offset)
      else
        let body := (c.input.drop (offset + PacketID_SIZE)).take header.size.toNat
        (c.packet nowSec ⟨header.type, body⟩).bind fun c =>
          parseLoop nowSec fuel c (offset + total)

/-- A round consumes a header at least, which bounds their number. -/
def parseClient (nowSec : Nat → τ) (c : Client τ) : Option (Client τ) :=
  (parseLoop nowSec (c.input.length + 1) c 0).map fun parsed =>
    if 0 < parsed.2 then { parsed.1 with input := parsed.1.input.drop parsed.2 } else parsed.1

def receive (nowSec : Nat → τ) (c : Client τ) (bytes : List Byte) : Option (Client τ) :=
  parseClient nowSec { c with input := c.input ++ bytes }

/-! ### The loop as the deframer -/

def withInput (input : List Byte) (c : Client τ) : Client τ := { c with input := input }

theorem packet_withInput (nowSec : Nat → τ) (c : Client τ) (p : Packet) (input : List Byte) :
    (c.withInput input).packet nowSec p = (c.packet nowSec p).map (withInput input) := by
  have henter : (c.withInput input).enter p.body = (c.enter p.body).withInput input := by
    unfold enter
    split <;> rfl
  have hspawn : (c.withInput input).spawn p.body = (c.spawn p.body).map (withInput input) := by
    unfold spawn
    simp only
    split
    · rw [Option.map_map]
      rfl
    · rfl
  have hmove : (c.withInput input).move nowSec p.body =
      (c.move nowSec p.body).map (withInput input) := by
    unfold move
    simp only
    split
    · rw [Option.map_map]
      rfl
    · rfl
  unfold packet
  rw [henter, hspawn, hmove]
  split_ifs <;> rfl

def packetsIn (nowSec : Nat → τ) (c : Client τ) (ps : List Packet) : Option (Client τ) :=
  ps.foldlM (packet nowSec) c

theorem packetsIn_withInput (nowSec : Nat → τ) (c : Client τ) (ps : List Packet)
    (input : List Byte) :
    (c.withInput input).packetsIn nowSec ps = (c.packetsIn nowSec ps).map (withInput input) := by
  induction ps generalizing c with
  | nil => rfl
  | cons p ps ih =>
    rw [packetsIn, packetsIn, List.foldlM_cons, List.foldlM_cons, packet_withInput]
    cases c.packet nowSec p with
    | none => rfl
    | some c' => exact ih c'

theorem packet_input {nowSec : Nat → τ} {c c' : Client τ} {p : Packet}
    (h : c.packet nowSec p = some c') : c'.input = c.input := by
  have hself := packet_withInput nowSec c p c.input
  have hsame : c.withInput c.input = c := rfl
  rw [hsame, h, Option.map_some] at hself
  have heq : c' = c'.withInput c.input := Option.some.inj hself
  rw [heq]
  rfl

theorem packetsIn_input {nowSec : Nat → τ} {c c' : Client τ} {ps : List Packet}
    (h : c.packetsIn nowSec ps = some c') : c'.input = c.input := by
  induction ps generalizing c with
  | nil =>
    cases h
    rfl
  | cons p ps ih =>
    rw [packetsIn, List.foldlM_cons] at h
    obtain ⟨middle, hp, h⟩ := Option.bind_eq_some_iff.mp h
    rw [ih h, packet_input hp]

theorem parseLoop_incomplete (nowSec : Nat → τ) (fuel : Nat) {c : Client τ} {offset : Nat}
    (h : packetFormat.Incomplete (c.input.drop offset)) :
    parseLoop nowSec (fuel + 1) c offset = some (c, offset) := by
  rw [format_incomplete, List.length_drop] at h
  rw [parseLoop]
  by_cases hheader : c.input.length - offset < PacketID_SIZE
  · rw [if_pos hheader]
  · rw [if_neg hheader]
    exact if_pos (by omega)

theorem parseLoop_complete (nowSec : Nat → τ) (fuel : Nat) {c : Client τ} {offset : Nat}
    (h : ¬packetFormat.Incomplete (c.input.drop offset)) :
    parseLoop nowSec (fuel + 1) c offset =
      (c.packet nowSec (packetOf (packetFormat.first (c.input.drop offset)))).bind fun c' =>
        parseLoop nowSec fuel c' (offset + packetFormat.frameLength (c.input.drop offset)) := by
  rw [format_incomplete, List.length_drop] at h
  have hread : PacketID.read ((c.input.drop offset).take PacketID_SIZE) =
      PacketID.read (c.input.drop offset) :=
    PacketID.read_take (by rw [List.length_drop]; omega)
  have htotal : packetFormat.frameLength (c.input.drop offset) =
      PacketID_SIZE + (PacketID.read (c.input.drop offset)).size.toNat := by
    rw [← hread]
    rfl
  have hfirst : packetOf (packetFormat.first (c.input.drop offset)) =
      ⟨(PacketID.read (c.input.drop offset)).type,
        (c.input.drop (offset + PacketID_SIZE)).take
          (PacketID.read (c.input.drop offset)).size.toNat⟩ := by
    rw [← List.drop_drop, ← hread]
    rfl
  have hbody : ¬c.input.length - offset <
      PacketID_SIZE + (PacketID.read (c.input.drop offset)).size.toNat := by omega
  rw [parseLoop, if_neg (by omega), hfirst, htotal]
  exact if_neg hbody

theorem parseLoop_eq (nowSec : Nat → τ) (fuel : Nat) (c : Client τ) (offset : Nat)
    (hfuel : c.input.length - offset < fuel) (hoffset : offset ≤ c.input.length) :
    parseLoop nowSec fuel c offset =
      (c.packetsIn nowSec (packets (c.input.drop offset))).map fun c' =>
        (c', c.input.length - (packetFormat.rest (c.input.drop offset)).length) := by
  induction fuel generalizing c offset with
  | zero => exact absurd hfuel (Nat.not_lt_zero _)
  | succ fuel ih =>
    have hlength : (c.input.drop offset).length = c.input.length - offset := List.length_drop
    by_cases hincomplete : packetFormat.Incomplete (c.input.drop offset)
    · rw [parseLoop_incomplete nowSec fuel hincomplete, packets,
        packetFormat.frames_incomplete hincomplete, packetFormat.rest_incomplete hincomplete, hlength]
      change some (c, offset) = some (c, _)
      rw [Nat.sub_sub_self hoffset]
    · have hpos := packetFormat.frameLength_pos (c.input.drop offset)
      have hle := packetFormat.frameLength_le hincomplete
      rw [parseLoop_complete nowSec fuel hincomplete, packets,
        packetFormat.frames_complete hincomplete, packetFormat.rest_complete hincomplete,
        List.map_cons, packetsIn, List.foldlM_cons]
      cases hp : c.packet nowSec (packetOf (packetFormat.first (c.input.drop offset))) with
      | none => rfl
      | some c' =>
        have hinput := packet_input hp
        have hnext := ih c' (offset + packetFormat.frameLength (c.input.drop offset))
          (by rw [hinput]; omega) (by rw [hinput]; omega)
        rw [hinput] at hnext
        rw [List.drop_drop]
        exact hnext

theorem parseClient_eq (nowSec : Nat → τ) (c : Client τ) :
    parseClient nowSec c =
      (c.packetsIn nowSec (packets c.input)).map (withInput (packetFormat.rest c.input)) := by
  unfold parseClient
  rw [parseLoop_eq nowSec _ c 0 (by omega) (Nat.zero_le _), List.drop_zero, Option.map_map]
  cases hps : c.packetsIn nowSec (packets c.input) with
  | none => rfl
  | some c' =>
    have hinput := packetsIn_input hps
    have hsuffix := List.suffix_iff_eq_drop.mp (packetFormat.rest_suffix c.input)
    rw [Option.map_some, Option.map_some, Function.comp_apply]
    simp only
    split
    case isTrue =>
      rw [hinput, ← hsuffix]
      rfl
    case isFalse hzero =>
      have hwhole : packetFormat.rest c.input = c'.input := by
        rw [hsuffix, Nat.eq_zero_of_not_pos hzero, hinput]
        rfl
      rw [hwhole]
      rfl

theorem packetsIn_append (nowSec : Nat → τ) (c : Client τ) (first second : List Packet) :
    c.packetsIn nowSec (first ++ second) =
      (c.packetsIn nowSec first).bind fun c => c.packetsIn nowSec second :=
  List.foldlM_append

theorem receives_eq (nowSec : Nat → τ) (receives : List (List Byte)) (c : Client τ)
    (hc : packetFormat.Incomplete c.input) :
    receives.foldlM (receive nowSec) c =
      (c.packetsIn nowSec (packets (c.input ++ receives.flatten))).map
        (withInput (packetFormat.rest (c.input ++ receives.flatten))) := by
  induction receives generalizing c with
  | nil =>
    have hnone : packets c.input = [] := by
      rw [packets, packetFormat.frames_incomplete hc]
      rfl
    rw [List.flatten_nil, List.append_nil, hnone, packetFormat.rest_incomplete hc]
    rfl
  | cons bytes receives ih =>
    have hreceive : receive nowSec c bytes = (c.packetsIn nowSec (packets (c.input ++ bytes))).map
        (withInput (packetFormat.rest (c.input ++ bytes))) := by
      change parseClient nowSec (c.withInput (c.input ++ bytes)) = _
      rw [parseClient_eq, packetsIn_withInput, Option.map_map]
      rfl
    rw [List.foldlM_cons, hreceive, List.flatten_cons, ← List.append_assoc,
      packets_append (c.input ++ bytes), packetFormat.rest_append (c.input ++ bytes),
      packetsIn_append]
    cases c.packetsIn nowSec (packets (c.input ++ bytes)) with
    | none => rfl
    | some c' =>
      have hnext := ih (c'.withInput (packetFormat.rest (c.input ++ bytes)))
        (packetFormat.incomplete_rest _)
      rw [packetsIn_withInput, Option.map_map] at hnext
      exact hnext

/-! ### One packet of the server -/

theorem collect_eq {get : Nat → Option (Option α)} {xs : List α} {index : Nat}
    (h : ∀ i (hi : i < xs.length), get (index + i) = some (some xs[i])) :
    collect get index xs.length = some xs := by
  induction xs generalizing index with
  | nil => rfl
  | cons x xs ih =>
    have hfirst : get index = some (some x) := h 0 (Nat.zero_lt_succ _)
    have hrest : collect get (index + 1) xs.length = some xs := by
      apply ih
      intro i hi
      rw [Nat.add_assoc, Nat.add_comm 1 i]
      exact h (i + 1) (Nat.succ_lt_succ hi)
    rw [List.length_cons, collect, hfirst, hrest]
    rfl

/-- The client reads back every entry, although only the used part of the array was sent. -/
theorem entries_image {limit : Nat} (hlimit : limit < 2147483648) (list : DataList UInt32 limit)
    (htyped : ∀ data ∈ list.data, data.seqID < 4294967296) (zeros : List Byte) :
    entries limit (list.image.take list.getSize ++ zeros) = some list.data := by
  have hbounded : list.data.length ≤ limit := list.bounded
  rw [list.take_image, List.append_assoc]
  have hcount : getCount (intBytes list.count ++
      (list.data.flatMap SpawnData.bytes ++ zeros)) = list.data.length :=
    readInt_append (by unfold DataList.count; omega) (by unfold DataList.count; omega) _
  unfold entries
  rw [hcount, Int.toNat_natCast]
  apply collect_eq
  intro i hi
  have hcell : (intBytes list.count ++ (list.data.flatMap SpawnData.bytes ++ zeros)).drop
      (4 + SpawnData.size * i) = list.data[i].bytes ++
        ((list.data.drop (i + 1)).flatMap SpawnData.bytes ++ zeros) := by
    rw [← List.drop_drop, List.drop_left' (length_intBytes _),
      drop_cells SpawnData.length_bytes _ _ hi]
  rw [Nat.zero_add, getData, hcount, if_pos (Int.ofNat_lt.mpr hi), if_pos (by omega), hcell,
    SpawnData.read_append (htyped _ (List.getElem_mem hi))]

end Client

namespace ServerPacket

/-! What there is for a client in a packet. -/

def spawnIDs : ServerPacket ι → List Nat
  | .spawn packet => packet.data.map (·.seqID)
  | _ => []

def moves : ServerPacket ι → List (MoveData ι)
  | .move packet => packet.data
  | _ => []

def isLeave : ServerPacket ι → Bool
  | .leave _ => true
  | _ => false

def enterAck : ServerPacket ι → Option (Int × Nat)
  | .enter roomID seqID => some (roomID, seqID)
  | _ => none

end ServerPacket

namespace Client

/-- What a client has entered with: the room and the ID of the last acknowledgement, or what
it was constructed with. -/
def HasAck (c : Client τ) : Option (Int × Nat) → Prop
  | none => c.roomID = -1 ∧ c.seqID = 0 ∧ c.entered = false
  | some (roomID, seqID) => c.roomID = roomID ∧ c.seqID = seqID ∧ c.entered = decide (0 ≤ roomID)

structure Decoded (c : Client τ) (sent : List (ServerPacket UInt32)) : Prop where
  spawns : c.spawns = sent.flatMap ServerPacket.spawnIDs
  moves : c.moves.map (fun sample => ⟨sample.seqID, sample.x, sample.y⟩) =
    sent.flatMap ServerPacket.moves
  leaves : c.leaves = sent.countP ServerPacket.isLeave
  ack : c.HasAck (sent.filterMap ServerPacket.enterAck).getLast?

theorem Decoded.append {c c' : Client τ} {sent : List (ServerPacket UInt32)} (h : c.Decoded sent)
    (packet : ServerPacket UInt32) (hspawns : c'.spawns = c.spawns ++ packet.spawnIDs)
    (hmoves : c'.moves.map (fun sample => (⟨sample.seqID, sample.x, sample.y⟩ : MoveData UInt32)) =
      c.moves.map (fun sample => ⟨sample.seqID, sample.x, sample.y⟩) ++ packet.moves)
    (hleaves : c'.leaves = c.leaves + packet.isLeave.toNat)
    (hack : ∀ last, c.HasAck last → c'.HasAck (packet.enterAck.or last)) :
    c'.Decoded (sent ++ [packet]) := by
  refine ⟨?_, ?_, ?_, ?_⟩
  · rw [hspawns, h.spawns, List.flatMap_append, List.flatMap_singleton]
  · rw [hmoves, h.moves, List.flatMap_append, List.flatMap_singleton]
  · rw [hleaves, h.leaves, List.countP_append, List.countP_singleton]
    cases packet.isLeave <;> rfl
  · have hlast : ((sent ++ [packet]).filterMap ServerPacket.enterAck).getLast? =
        packet.enterAck.or (sent.filterMap ServerPacket.enterAck).getLast? := by
      rw [List.filterMap_append, List.getLast?_append]
      cases hsome : packet.enterAck <;> simp [hsome]
    rw [hlast]
    exact hack _ h.ack

theorem body_fits (list : DataList UInt32 limit) :
    0 < (list.image.take list.getSize).length ∧
      (list.image.take list.getSize).length ≤ DataList.structSize limit := by
  have hle := list.getSize_le
  have hpos : 0 < list.getSize := Nat.lt_of_lt_of_le (Nat.succ_pos 3) (Nat.le_add_right 4 _)
  rw [List.length_take, list.length_image, Nat.min_eq_left hle]
  exact ⟨hpos, hle⟩

theorem decoded_packet (nowSec : Nat → τ) {c : Client τ} {sent : List (ServerPacket UInt32)}
    (h : c.Decoded sent) {packet : ServerPacket UInt32} (htyped : packet.Typed) :
    ∃ c', c.packet nowSec ⟨packet.packetType, packet.body⟩ = some c' ∧
      c'.Decoded (sent ++ [packet]) := by
  cases packet with
  | echo text =>
    exact ⟨c, rfl, h.append _ (List.append_nil _).symm (List.append_nil _).symm rfl fun _ hack => hack⟩
  | broadcast text =>
    exact ⟨c, rfl, h.append _ (List.append_nil _).symm (List.append_nil _).symm rfl fun _ hack => hack⟩
  | enter roomID seqID =>
    obtain ⟨hlow, hhigh, hseqID⟩ := htyped
    have hbody : (ServerPacket.enter roomID seqID : ServerPacket UInt32).body =
        intBytes roomID ++ uintBytes seqID := by
      apply List.take_of_length_le
      rw [ServerPacket.image, List.length_append, length_intBytes, length_uintBytes]
      rfl
    have hroomID := readInt_append hlow hhigh (uintBytes seqID)
    have hread := readUInt_append hseqID []
    rw [List.append_nil] at hread
    refine ⟨{ c with roomID := roomID, seqID := seqID, entered := decide (0 ≤ roomID) }, ?_, ?_⟩
    · change some (c.enter _) = _
      rw [hbody, enter, if_pos (by rw [List.length_append, length_intBytes, length_uintBytes]),
        hroomID, List.drop_left' (length_intBytes roomID), hread]
    · exact h.append _ (List.append_nil _).symm (List.append_nil _).symm rfl fun _ _ =>
        ⟨rfl, rfl, rfl⟩
  | spawn packet =>
    have hentries := entries_image (by decide) packet htyped
      (List.replicate (DataList.structSize MaxSendSpawnCount -
        (packet.image.take packet.getSize).length) 0)
    refine ⟨{ c with spawns := c.spawns ++ packet.data.map (·.seqID) }, ?_, ?_⟩
    · change c.spawn (packet.image.take packet.getSize) = _
      unfold spawn
      rw [if_pos (body_fits packet), overlay, hentries]
      rfl
    · exact h.append _ rfl (List.append_nil _).symm rfl fun _ hack => hack
  | leave seqID =>
    exact ⟨{ c with leaves := c.leaves + 1 }, rfl, h.append _ (List.append_nil _).symm
      (List.append_nil _).symm rfl fun _ hack => hack⟩
  | move packet =>
    have hentries := entries_image (by decide) packet htyped
      (List.replicate (DataList.structSize MaxSendMoveCount -
        (packet.image.take packet.getSize).length) 0)
    refine ⟨{ c with moves := c.moves ++ packet.data.map fun data =>
      ⟨nowSec c.moves.length, data.seqID, data.posX, data.posY⟩ }, ?_, ?_⟩
    · change c.move nowSec (packet.image.take packet.getSize) = _
      unfold move
      rw [if_pos (body_fits packet), overlay, hentries]
      rfl
    · refine h.append _ (List.append_nil _).symm ?_ rfl fun _ hack => hack
      rw [List.map_append, List.map_map]
      congr 1
      exact List.map_id _

theorem decoded_packets (nowSec : Nat → τ) (more : List (ServerPacket UInt32))
    (htyped : ∀ packet ∈ more, packet.Typed) {c : Client τ} {sent : List (ServerPacket UInt32)}
    (h : c.Decoded sent) :
    ∃ c', c.packetsIn nowSec (more.map fun packet => ⟨packet.packetType, packet.body⟩) = some c' ∧
      c'.Decoded (sent ++ more) := by
  induction more generalizing c sent with
  | nil => exact ⟨c, rfl, (List.append_nil sent).symm ▸ h⟩
  | cons packet more ih =>
    rw [List.forall_mem_cons] at htyped
    obtain ⟨middle, hpacket, hdecoded⟩ := decoded_packet nowSec h htyped.1
    obtain ⟨c', hmore, hc'⟩ := ih htyped.2 hdecoded
    refine ⟨c', ?_, ?_⟩
    · rw [List.map_cons, packetsIn, List.foldlM_cons, hpacket]
      exact hmore
    · rwa [List.append_assoc, List.singleton_append] at hc'

/-- Whatever is sent and however it is cut, the client ends up with it. -/
theorem client_decodes (nowSec : Nat → τ) {sent : List (ServerPacket UInt32)}
    {frames receives : List (List Byte)} (htyped : ∀ packet ∈ sent, packet.Typed)
    (hframed : List.Forall₂ ServerPacket.Framed sent frames)
    (hcut : receives.flatten = frames.flatten) :
    ∃ c, receives.foldlM (receive nowSec) new = some c ∧ c.Decoded sent ∧ c.input = [] := by
  have hnew : (new : Client τ).Decoded [] := ⟨rfl, rfl, rfl, rfl, rfl, rfl⟩
  obtain ⟨hpackets, hrest⟩ := ServerPacket.packets_stream sent
  obtain ⟨c, hc, hdecoded⟩ := decoded_packets nowSec sent htyped hnew
  refine ⟨c.withInput [], ?_, ⟨hdecoded.spawns, hdecoded.moves, hdecoded.leaves, ?_⟩, rfl⟩
  · have hincomplete : packetFormat.Incomplete (new : Client τ).input :=
      .inl packetFormat.headerLength_pos
    rw [receives_eq nowSec receives new hincomplete, hcut, ServerPacket.framed_stream hframed]
    change ((new : Client τ).packetsIn nowSec (packets (encode _))).map
      (withInput (packetFormat.rest (encode _))) = _
    rw [hpackets, hrest, hc]
    rfl
  · exact hdecoded.ack

def aSession : List (ServerPacket UInt32) :=
  [.enter 0 7, .spawn ((DataList.empty.add ⟨7, 5, 6⟩).1.add ⟨3, 1, 2⟩).1,
    .move (DataList.empty.add ⟨3, 0x3f800000, 4⟩).1, .leave 3]

theorem client_decodes_session :
    let stream := aSession.flatMap fun packet => packetBytes packet.packetType packet.body
    ∃ c, [stream.take 2, (stream.take 55).drop 2, stream.drop 55].foldlM (receive id) new =
        some c ∧
      c.Decoded aSession ∧ c.input = [] ∧ c.spawns = [7, 3] ∧ c.leaves = 1 := by
  intro stream
  have htyped : ∀ packet ∈ aSession, packet.Typed := by
    simp [aSession, ServerPacket.Typed, DataList.add, DataList.empty, DataList.count,
      MaxSendSpawnCount, MaxSendMoveCount]
  have hframed : List.Forall₂ ServerPacket.Framed aSession
      (aSession.map fun packet => packetBytes packet.packetType packet.body) := by
    rw [List.forall₂_map_right_iff, List.forall₂_same]
    exact fun packet hmem => (htyped packet hmem).framed
  have hcut : [stream.take 2, (stream.take 55).drop 2, stream.drop 55].flatten =
      (aSession.map fun packet => packetBytes packet.packetType packet.body).flatten := by
    decide +kernel
  obtain ⟨c, hc, hdecoded, hinput⟩ := client_decodes id htyped hframed hcut
  exact ⟨c, hc, hdecoded, hinput, hdecoded.spawns.trans (by decide),
    hdecoded.leaves.trans (by decide)⟩

end Client
end RoomServer
