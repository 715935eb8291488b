import RoomServer.Echo

/-! The load client of `LoadTestFast.cpp` in a closed loop with the server: it keeps
`window` echo requests on their way, writes the time of its sending into each, and sends
a new one for every reply. One connection; the other connections of its worker share the
`Result`. -/
namespace RoomServer
open Library.Framing Library.LittleEndian Library.Transition

def MAX_SAMPLES : Nat := 50000
def IN_CAP : Nat := 262144
def ECHO_BODY_SIZE : Nat := 64

/-! ### The client -/

structure Result where
  roundTrips : Nat
  broke : Nat
  rtts : List Int64

structure Conn where
  /-- The first `inUsed` bytes of `in`. -/
  input : List Byte
  out : List Byte
  outOff : Nat
  dead : Bool

structure Sample where
  roundTrip : Nat
  sentAt : Int64
  now : Int64

structure LoopClient where
  conn : Conn
  result : Result
  /-- What the calls of `NowNanos` are going to return, in turn. -/
  nowNanos : Nat → Int64
  /-- History: the times that `AppendPacket` wrote. -/
  stamps : List Int64
  /-- History: the round trips of this connection. -/
  answered : Nat
  /-- History: the round trips of this connection that were measured. -/
  samples : List Sample

def int64Bytes (value : Int64) : List Byte := toBytes 8 value.toBitVec.toNat

def readInt64 (bytes : List Byte) : Int64 := .ofBitVec (.ofNat 64 (ofBytes (bytes.take 8)))

theorem readInt64_append (value : Int64) (rest : List Byte) :
    readInt64 (int64Bytes value ++ rest) = value := by
  rw [readInt64, int64Bytes, List.take_left' (length_toBytes 8 _),
    ofBytes_toBytes_of_lt value.toBitVec.isLt, BitVec.ofNat_toNat, BitVec.setWidth_eq,
    Int64.ofBitVec_toBitVec]

def stampBody (now : Int64) : List Byte :=
  int64Bytes now ++ List.replicate (ECHO_BODY_SIZE - 8) 0x78

@[simp] theorem length_stampBody (now : Int64) : (stampBody now).length = 64 := by
  rw [stampBody, int64Bytes, List.length_append, length_toBytes, List.length_replicate]
  rfl

namespace LoopClient

def tick (c : LoopClient) : LoopClient := { c with nowNanos := fun i => c.nowNanos (i + 1) }

def appendPacket (c : LoopClient) : LoopClient :=
  { c.tick with
    conn.out := c.conn.out ++ packetBytes .CLIENT_ECHO (stampBody (c.nowNanos 0))
    stamps := c.stamps ++ [c.nowNanos 0] }

/-- Nothing is measured any more when there are samples enough. -/
def measure (c : LoopClient) (sentAt : Int64) : LoopClient :=
  if c.result.rtts.length < MAX_SAMPLES then
    { c.tick with
      result.rtts := c.result.rtts ++ [c.nowNanos 0 - sentAt]
      samples := c.samples ++ [⟨c.answered, sentAt, c.nowNanos 0⟩] }
  else c

/-- A reply of `total` bytes stands at the front of the buffer. -/
def roundTrip (c : LoopClient) (total : Nat) : LoopClient :=
  let measured := c.measure (readInt64 (c.conn.input.drop PacketID_SIZE))
  appendPacket { measured with
    conn.input := c.conn.input.drop total
    result.roundTrips := measured.result.roundTrips + 1
    answered := c.answered + 1 }

def fail (c : LoopClient) : LoopClient :=
  { c with conn.dead := true, result.broke := c.result.broke + 1 }

/-- Each round takes a header at least, so the length is fuel enough. -/
def parse : Nat → LoopClient → LoopClient
  | 0, c => c
  | fuel + 1, c =>
    if c.conn.input.length < PacketID_SIZE then c
    else
      let h := PacketID.read c.conn.input
      if h.size ≠ UInt16.ofNat ECHO_BODY_SIZE ∨ h.type ≠ .SERVER_ECHO then c.fail
      else
        let total := PacketID_SIZE + h.size.toNat
        if c.conn.input.length < total then c else parse fuel (c.roundTrip total)

end LoopClient

inductive SocketResult where
  | bytes (n : Nat)
  | wouldBlock
  | error
  deriving DecidableEq

namespace LoopClient

def send (c : LoopClient) : SocketResult → LoopClient
  | .wouldBlock => c
  | .error | .bytes 0 => c.fail
  | .bytes n =>
    if c.conn.outOff + n = c.conn.out.length then { c with conn.out := [], conn.outOff := 0 }
    else { c with conn.outOff := c.conn.outOff + n }

def recv (c : LoopClient) (incoming : List Byte) : SocketResult → LoopClient
  | .wouldBlock => c
  | .error | .bytes 0 => c.fail
  | .bytes n =>
    let input := c.conn.input ++ incoming.take n
    parse input.length { c with conn.input := input }

def unsent (c : LoopClient) : List Byte := c.conn.out.drop c.conn.outOff

def texts (c : LoopClient) : List (List Byte) := c.stamps.map stampBody

def fresh (nowNanos : Nat → Int64) : LoopClient :=
  ⟨⟨[], [], 0, false⟩, ⟨0, 0, []⟩, nowNanos, [], 0, []⟩

def fillWindow (nowNanos : Nat → Int64) : Nat → LoopClient
  | 0 => fresh nowNanos
  | window + 1 => (fillWindow nowNanos window).appendPacket

end LoopClient

/-! ### The loop -/

structure LoopRun where
  server : EchoRun
  client : LoopClient
  /-- How much of what the server has posted the client has received. -/
  consumed : Nat

inductive LoopAct where
  | server (act : EchoAct)
  | send (result : SocketResult)
  | recv (result : SocketResult)
  /-- `POLLERR`, `POLLHUP` or `POLLNVAL`. -/
  | hangUp
  /-- The other connections of the worker. -/
  | others (roundTrips broke : Nat) (rtts : List Int64)

namespace LoopRun

def start (poolSize window : Nat) (nowNanos : Nat → Int64) : LoopRun :=
  ⟨.start poolSize [], .fillWindow nowNanos window, 0⟩

def incoming (st : LoopRun) : List Byte := st.server.posted.drop st.consumed

end LoopRun

def SocketResult.count : SocketResult → Nat
  | .bytes n => n
  | .wouldBlock | .error => 0

/-- A dead connection is not polled any more, and `POLLWRNORM` is asked for only while
something is to be sent. -/
def loopStep : Step LoopRun LoopAct
  | st, .server act => (echoStep st.server act).map fun server => { st with server := server }
  | st, .send result =>
    if st.client.conn.dead = false ∧ st.client.conn.outOff < st.client.conn.out.length ∧
        result.count ≤ st.client.unsent.length then
      some { st with
        client := st.client.send result
        server.wire := st.server.wire ++ st.client.unsent.take result.count }
    else none
  | st, .recv result =>
    if st.client.conn.dead = false ∧ result.count ≤ st.incoming.length ∧
        result.count ≤ IN_CAP - st.client.conn.input.length then
      some { st with
        client := st.client.recv st.incoming result
        consumed := st.consumed + result.count }
    else none
  | st, .hangUp =>
    if st.client.conn.dead then none else some { st with client := st.client.fail }
  | st, .others roundTrips broke rtts =>
    let result := st.client.result
    if rtts = [] ∨ (result.rtts ++ rtts).length ≤ MAX_SAMPLES then
      some { st with client.result :=
        ⟨result.roundTrips + roundTrips, result.broke + broke, result.rtts ++ rtts⟩ }
    else none

/-- The server meets no failure, the connection holds and nobody closes it. -/
def faultless (st : LoopRun) : LoopAct → Bool
  | .server act => unfailing st.server act
  | .send result | .recv result => decide (result ≠ .error ∧ result ≠ .bytes 0)
  | .hangUp => false
  | .others _ _ _ => true

def LoopAct.own : LoopAct → Bool
  | .server act => act.own
  | .send result | .recv result => decide (result ≠ .wouldBlock)
  | .hangUp | .others _ _ _ => false

/-! ### More on the wire -/

section
variable {poolSize : Nat} {texts : List (List Byte)} {st st' : EchoRun}

theorem recvStep_apart (st : EchoRun) (wire posted : List Byte) :
    EchoRun.recvStep { st with wire := wire, posted := posted } =
      st.recvStep.map fun next => { next with wire := wire, posted := posted } := by
  cases hrecv : st.recv with
  | waiting | rejected | setReadPos t =>
    simp only [EchoRun.recvStep, hrecv]
    rfl
  | insertSendQueue t =>
    simp only [EchoRun.recvStep, hrecv]
    split <;> rfl
  | divideBuffer t n =>
    simp only [EchoRun.recvStep, hrecv, EchoRun.dispatch]
    split
    · split
      · rfl
      · rw [Option.map_map]
        rfl
      · rfl
    · rfl
  | makeSendPacket t =>
    simp only [EchoRun.recvStep, hrecv]
    cases st.world.threads[t]? with
    | none => rfl
    | some thread =>
      rw [Option.bind_some, Option.bind_some]
      split
      · rw [Option.map_map]
        rfl
      · rfl
      · rw [Option.map_map]
        rfl

theorem recvStep_keeps (hstep : st.recvStep = some st') :
    st'.wire = st.wire ∧ st'.posted = st.posted := by
  have hsame := recvStep_apart st st.wire st.posted
  rw [hstep] at hsame
  exact ⟨Option.some.inj (congrArg (Option.map EchoRun.wire) hsame),
    Option.some.inj (congrArg (Option.map EchoRun.posted) hsame)⟩

/-- What the server does now it can also do with more on the wire. -/
theorem echoStep_more {act : EchoAct} (hstep : echoStep st act = some st') (more : List Byte) :
    echoStep { st with wire := st.wire ++ more } act =
      some { st' with wire := st'.wire ++ more } := by
  cases act with
  | receive t n =>
    simp only [echoStep] at hstep ⊢
    split at hstep
    case isFalse => cases hstep
    case isTrue henabled =>
      cases hstep
      obtain ⟨hrecv, hthread, hpos, hwire, hroom⟩ := henabled
      rw [if_pos ⟨hrecv, hthread, hpos, by rw [List.length_append]; omega, hroom⟩,
        List.take_append_of_le_length hwire, List.drop_append_of_le_length hwire]
  | recv =>
    simp only [echoStep] at hstep ⊢
    rw [recvStep_apart st _ st.posted, hstep, Option.map_some, (recvStep_keeps hstep).1,
      ← (recvStep_keeps hstep).2]
  | advance i accepted | complete i success =>
    obtain ⟨send, hsend, rfl⟩ := Option.map_eq_some_iff.mp hstep
    simp only [echoStep, EchoRun.sendBy, hsend]
    rfl
  | other act =>
    simp only [echoStep] at hstep ⊢
    split at hstep
    case isFalse => cases hstep
    case isTrue hleaves =>
      obtain ⟨world, hworld, rfl⟩ := Option.map_eq_some_iff.mp hstep
      rw [if_pos (by exact hleaves), hworld]
      rfl

theorem Unread.more {buffer : RecvBuffer} {wire : List Byte} {incoming : Nat}
    {done rest : List (List Byte)} {pending : List Byte}
    (h : Unread texts buffer wire incoming done rest pending) (text : List Byte) :
    Unread (texts ++ [text]) buffer (wire ++ packetBytes .CLIENT_ECHO text) incoming done
      (rest ++ [text]) pending where
  texts := by rw [h.texts, List.append_assoc]
  window := h.window
  stream := by
    rw [← List.append_assoc, h.stream, requests, requests, List.flatMap_append,
      List.flatMap_singleton]

theorem echoInv_more (h : EchoInv poolSize texts st) (text : List Byte) :
    EchoInv poolSize (texts ++ [text])
      { st with wire := st.wire ++ packetBytes .CLIENT_ECHO text } := by
  refine ⟨h.world, h.send, ?_, h.asked, h.held, h.worker, h.posted⟩
  have hreading := h.reading
  cases hrecv : st.recv with
  | waiting =>
    simp only [EchoRun.Reading, hrecv] at hreading ⊢
    obtain ⟨done, rest, pending, hunread, hrest⟩ := hreading
    exact ⟨done, _, pending, hunread.more text, hrest⟩
  | divideBuffer t n =>
    simp only [EchoRun.Reading, hrecv] at hreading ⊢
    obtain ⟨done, rest, pending, hunread, hrest⟩ := hreading
    exact ⟨done, _, pending, hunread.more text, hrest⟩
  | makeSendPacket t | insertSendQueue t | setReadPos t =>
    simp only [EchoRun.Reading, hrecv] at hreading ⊢
    obtain ⟨done, asked, rest, pending, hunread, hrest⟩ := hreading
    exact ⟨done, asked, _, pending, hunread.more text, hrest⟩
  | rejected =>
    simp only [EchoRun.Reading, hrecv] at hreading

theorem posted_grows {act : EchoAct} (hstep : echoStep st act = some st') :
    ∃ more, st'.posted = st.posted ++ more := by
  cases act with
  | receive t n =>
    simp only [echoStep] at hstep
    split at hstep <;> cases hstep
    exact ⟨[], (List.append_nil _).symm⟩
  | recv =>
    exact ⟨[], (recvStep_keeps hstep).2.trans (List.append_nil _).symm⟩
  | advance i accepted | complete i success =>
    obtain ⟨send, _, rfl⟩ := Option.map_eq_some_iff.mp hstep
    exact ⟨_, rfl⟩
  | other act =>
    simp only [echoStep] at hstep
    split at hstep
    · obtain ⟨world, _, rfl⟩ := Option.map_eq_some_iff.mp hstep
      exact ⟨[], (List.append_nil _).symm⟩
    · cases hstep

/-- One more request makes 176 more units of work. -/
theorem work_more (h : EchoInv poolSize texts st) {text : List Byte} (hlength : text.length = 64) :
    EchoRun.work (texts.length + 1)
        { st with wire := st.wire ++ packetBytes .CLIENT_ECHO text } =
      st.work texts.length + 176 := by
  have hle := dispatched_le h
  have hwork : EchoRun.recvWork { st with wire := st.wire ++ packetBytes .CLIENT_ECHO text } =
      st.recvWork := rfl
  simp only [EchoRun.work, hwork, List.length_append, length_packetBytes, hlength, PacketID_SIZE]
  omega

end

/-! ### The replies -/

section
variable {texts rest : List (List Byte)} {text input : List Byte}

theorem replies_append (first second : List (List Byte)) :
    replies (first ++ second) = replies first ++ replies second := List.flatMap_append

theorem replies_split (texts : List (List Byte)) (n : Nat) :
    replies texts = replies (texts.take n) ++ replies (texts.drop n) := by
  rw [← replies_append, List.take_append_drop]

theorem length_replies (htexts : ∀ text ∈ texts, text.length = 64) :
    (replies texts).length = 68 * texts.length := by
  induction texts with
  | nil => rfl
  | cons text rest ih =>
    rw [List.forall_mem_cons] at htexts
    have hcons : replies (text :: rest) = packetBytes .SERVER_ECHO text ++ replies rest := rfl
    rw [hcons, List.length_append, length_packetBytes, htexts.1, ih htexts.2, List.length_cons,
      PacketID_SIZE]
    omega

theorem reply_header (hlength : text.length = 64) (h : input <+: replies (text :: rest))
    (hheader : PacketID_SIZE ≤ input.length) :
    PacketID.read input = ⟨.SERVER_ECHO, UInt16.ofNat ECHO_BODY_SIZE⟩ := by
  have hread := header_arrived h hheader
  rw [hread, hlength]
  rfl

theorem reply_packet (hlength : text.length = 64) (h : input <+: replies (text :: rest))
    (hpacket : 68 ≤ input.length) : input = packetBytes .SERVER_ECHO text ++ input.drop 68 := by
  have hwhole := packet_arrived h (by rw [hlength]; exact hpacket)
  rw [hlength] at hwhole
  exact hwhole

end

/-! ### What one round trip does -/

namespace LoopClient
variable (c : LoopClient) (sentAt : Int64)

@[simp] theorem measure_conn : (c.measure sentAt).conn = c.conn := by
  unfold measure
  split <;> rfl

@[simp] theorem measure_stamps : (c.measure sentAt).stamps = c.stamps := by
  unfold measure
  split <;> rfl

@[simp] theorem measure_answered : (c.measure sentAt).answered = c.answered := by
  unfold measure
  split <;> rfl

theorem length_texts : ∀ text ∈ c.texts, text.length = 64 := by
  intro text hmem
  obtain ⟨stamp, _, rfl⟩ := List.mem_map.mp hmem
  exact length_stampBody stamp

structure Forward : Prop where
  clock : ∀ i, c.nowNanos i ≤ c.nowNanos (i + 1)
  stamps : ∀ stamp ∈ c.stamps, stamp ≤ c.nowNanos 0
  samples : ∀ sample ∈ c.samples, sample.sentAt ≤ sample.now

/-- Every sample is the time of a request and its own reply. -/
structure Measured : Prop where
  matched : ∀ sample ∈ c.samples,
    sample.roundTrip < c.answered ∧ c.stamps[sample.roundTrip]? = some sample.sentAt
  recorded : (c.samples.map fun sample => sample.now - sample.sentAt).Sublist c.result.rtts

variable {c} {sentAt}

theorem Forward.appendPacket (h : c.Forward) : c.appendPacket.Forward where
  clock i := h.clock (i + 1)
  stamps := by
    intro stamp hmem
    rcases List.mem_append.mp hmem with hmem | hmem
    · exact Int64.le_trans (h.stamps stamp hmem) (h.clock 0)
    · rw [List.mem_singleton.mp hmem]
      exact h.clock 0
  samples := h.samples

theorem Forward.measure (h : c.Forward) (hsent : sentAt ∈ c.stamps) : (c.measure sentAt).Forward := by
  unfold LoopClient.measure
  split
  · refine ⟨fun i => h.clock (i + 1), fun stamp hmem => ?_, fun sample hmem => ?_⟩
    · exact Int64.le_trans (h.stamps stamp hmem) (h.clock 0)
    · rcases List.mem_append.mp hmem with hmem | hmem
      · exact h.samples sample hmem
      · rw [List.mem_singleton.mp hmem]
        exact h.stamps sentAt hsent
  · exact h

theorem Forward.roundTrip (h : c.Forward) {total : Nat}
    (hsent : readInt64 (c.conn.input.drop PacketID_SIZE) ∈ c.stamps) :
    (c.roundTrip total).Forward := by
  have hmeasured := h.measure hsent
  exact Forward.appendPacket ⟨hmeasured.clock, hmeasured.stamps, hmeasured.samples⟩

theorem Measured.measure (h : c.Measured) (hsent : c.stamps[c.answered]? = some sentAt) :
    Measured { c.measure sentAt with answered := c.answered + 1 } := by
  unfold LoopClient.measure
  split
  · refine ⟨fun sample hmem => ?_, ?_⟩
    · rcases List.mem_append.mp hmem with hmem | hmem
      · exact ⟨Nat.lt_succ_of_lt (h.matched sample hmem).1, (h.matched sample hmem).2⟩
      · rw [List.mem_singleton.mp hmem]
        exact ⟨Nat.lt_succ_self _, hsent⟩
    · dsimp only
      rw [List.map_append]
      exact h.recorded.append (List.Sublist.refl _)
  · exact ⟨fun sample hmem => ⟨Nat.lt_succ_of_lt (h.matched sample hmem).1,
      (h.matched sample hmem).2⟩, h.recorded⟩

theorem Measured.appendPacket (h : c.Measured) : c.appendPacket.Measured where
  matched sample hmem := by
    obtain ⟨hlt, hstamp⟩ := h.matched sample hmem
    have hbound := (List.getElem?_eq_some_iff.mp hstamp).1
    exact ⟨hlt, (List.getElem?_append_left hbound).trans hstamp⟩
  recorded := h.recorded

theorem Measured.roundTrip (h : c.Measured) {total : Nat}
    (hsent : c.stamps[c.answered]? = some (readInt64 (c.conn.input.drop PacketID_SIZE))) :
    (c.roundTrip total).Measured := by
  have hmeasured := h.measure hsent
  exact Measured.appendPacket ⟨hmeasured.matched, hmeasured.recorded⟩

end LoopClient

/-! ### The invariant -/

def LoopRun.sent (st : LoopRun) : EchoRun :=
  { st.server with wire := st.server.wire ++ st.client.unsent }

structure LoopInv (poolSize window : Nat) (st : LoopRun) : Prop where
  server : EchoInv poolSize st.client.texts st.sent
  alive : st.client.conn.dead = false
  window : st.client.stamps.length = st.client.answered + window
  order : st.server.posted.take st.consumed =
    replies (st.client.texts.take st.client.answered) ++ st.client.conn.input
  received : st.consumed ≤ st.server.posted.length
  offset : st.client.conn.outOff ≤ st.client.conn.out.length
  measured : st.client.Measured

/-- What there is to do: for the server, for the sender, and to receive. -/
def LoopRun.work (st : LoopRun) : Nat :=
  st.sent.work st.client.stamps.length + st.client.unsent.length +
    (68 * st.client.stamps.length - st.consumed)

section
variable {poolSize window : Nat} {st st' : LoopRun}

theorem posted_initial (h : LoopInv poolSize window st) :
    st.server.posted <+: replies st.client.texts := by
  obtain ⟨n, hposted⟩ := posted_in_order st.client.length_texts h.server
  have hsame : st.server.posted = replies (st.client.texts.take n) := hposted
  rw [hsame, replies_split st.client.texts n]
  exact List.prefix_append _ _

theorem input_prefix (h : LoopInv poolSize window st) :
    st.client.conn.input <+: replies (st.client.texts.drop st.client.answered) := by
  have hwhole := (List.take_prefix st.consumed st.server.posted).trans (posted_initial h)
  rw [h.order, replies_split st.client.texts st.client.answered] at hwhole
  exact (List.prefix_append_right_inj _).mp hwhole

theorem consumed_eq (h : LoopInv poolSize window st) :
    st.consumed = 68 * st.client.answered + st.client.conn.input.length := by
  have hlength := congrArg List.length h.order
  have hcount : st.client.texts.length = st.client.answered + window := by
    rw [LoopClient.texts, List.length_map, h.window]
  have htake : (st.client.texts.take st.client.answered).length = st.client.answered := by
    rw [List.length_take]
    omega
  rw [List.length_take, Nat.min_eq_left h.received, List.length_append,
    length_replies fun text hmem => st.client.length_texts text (List.mem_of_mem_take hmem),
    htake] at hlength
  exact hlength

theorem consumed_le (h : LoopInv poolSize window st) :
    st.consumed ≤ 68 * st.client.stamps.length := by
  have hle := (posted_initial h).length_le
  rw [length_replies st.client.length_texts, LoopClient.texts, List.length_map] at hle
  exact Nat.le_trans h.received hle

/-- With a header of input, a request is still to be answered, and the header is its reply's. -/
theorem next_reply (h : LoopInv poolSize window st)
    (hheader : PacketID_SIZE ≤ st.client.conn.input.length) :
    ∃ stamp, st.client.stamps[st.client.answered]? = some stamp ∧
      st.client.conn.input <+: replies (stampBody stamp :: st.client.texts.drop (st.client.answered + 1)) ∧
      PacketID.read st.client.conn.input = ⟨.SERVER_ECHO, UInt16.ofNat ECHO_BODY_SIZE⟩ := by
  have hinput := input_prefix h
  have hlt : st.client.answered < st.client.stamps.length := by
    by_contra hge
    have hnil : st.client.texts.drop st.client.answered = [] := by
      rw [LoopClient.texts, List.drop_eq_nil_iff, List.length_map]
      omega
    rw [hnil] at hinput
    have hempty := hinput.length_le
    simp only [replies, List.flatMap_nil, List.length_nil] at hempty
    rw [PacketID_SIZE] at hheader
    omega
  have hdrop : st.client.texts.drop st.client.answered =
      stampBody st.client.stamps[st.client.answered] ::
        st.client.texts.drop (st.client.answered + 1) := by
    rw [LoopClient.texts, List.drop_eq_getElem_cons (by rwa [List.length_map]), List.getElem_map]
  rw [hdrop] at hinput
  exact ⟨_, List.getElem?_eq_getElem hlt, hinput, reply_header (length_stampBody _) hinput hheader⟩

theorem loopInv_roundTrip (h : LoopInv poolSize window st)
    (hpacket : 68 ≤ st.client.conn.input.length) :
    st.client.stamps[st.client.answered]? =
        some (readInt64 (st.client.conn.input.drop PacketID_SIZE)) ∧
      LoopInv poolSize window { st with client := st.client.roundTrip 68 } ∧
      LoopRun.work { st with client := st.client.roundTrip 68 } = st.work + 312 := by
  obtain ⟨stamp, hstamp, hinput, -⟩ := next_reply h (by rw [PacketID_SIZE]; omega)
  have hfront := reply_packet (length_stampBody stamp) hinput hpacket
  have hread : readInt64 (st.client.conn.input.drop PacketID_SIZE) = stamp := by
    rw [hfront, List.drop_append_of_le_length (by rw [length_packetBytes]; omega), drop_packetBytes,
      stampBody, List.append_assoc, readInt64_append]
  have hsent : st.client.stamps[st.client.answered]? =
      some (readInt64 (st.client.conn.input.drop PacketID_SIZE)) := by rw [hread, hstamp]
  obtain ⟨now, hstamps⟩ : ∃ now, (st.client.roundTrip 68).stamps = st.client.stamps ++ [now] ∧
      (st.client.roundTrip 68).unsent =
        st.client.unsent ++ packetBytes .CLIENT_ECHO (stampBody now) := by
    refine ⟨(st.client.measure (readInt64 (st.client.conn.input.drop PacketID_SIZE))).nowNanos 0,
      by simp [LoopClient.roundTrip, LoopClient.appendPacket, LoopClient.tick], ?_⟩
    simp only [LoopClient.unsent, LoopClient.roundTrip, LoopClient.appendPacket,
      LoopClient.measure_conn]
    exact List.drop_append_of_le_length h.offset
  obtain ⟨hstamps, hunsent⟩ := hstamps
  have hanswered : (st.client.roundTrip 68).answered = st.client.answered + 1 := rfl
  have hrest : (st.client.roundTrip 68).conn.input = st.client.conn.input.drop 68 := rfl
  have htexts : (st.client.roundTrip 68).texts = st.client.texts ++ [stampBody now] := by
    rw [LoopClient.texts, hstamps, List.map_append]
    rfl
  have hwhole : LoopRun.sent { st with client := st.client.roundTrip 68 } =
      { st.sent with
        wire := st.sent.wire ++ packetBytes .CLIENT_ECHO (stampBody now) } := by
    simp only [LoopRun.sent, hunsent, List.append_assoc]
  have hlt := (List.getElem?_eq_some_iff.mp hstamp).1
  have hcount : st.client.texts.length = st.client.stamps.length := by
    rw [LoopClient.texts, List.length_map]
  refine ⟨hsent, ⟨?_, ?_, ?_, ?_, h.received, ?_, h.measured.roundTrip hsent⟩, ?_⟩
  · rw [hwhole, htexts]
    exact echoInv_more h.server _
  · simpa [LoopClient.roundTrip, LoopClient.appendPacket, LoopClient.tick] using h.alive
  · rw [hstamps, hanswered, List.length_append, h.window, List.length_singleton]
    omega
  · have htake : (st.client.texts ++ [stampBody now]).take (st.client.answered + 1) =
        st.client.texts.take st.client.answered ++ [stampBody stamp] := by
      rw [List.take_append_of_le_length (by omega), List.take_add_one]
      simp [LoopClient.texts, hstamp]
    rw [h.order, htexts, hanswered, hrest, htake, replies_append, List.append_assoc]
    exact congrArg _ hfront
  · simp only [LoopClient.roundTrip, LoopClient.appendPacket, LoopClient.measure_conn,
      List.length_append]
    exact Nat.le_trans h.offset (Nat.le_add_right _ _)
  · have hwork := work_more h.server (length_stampBody now)
    have hle := consumed_le h
    rw [hcount] at hwork
    simp only [LoopRun.work, hwhole, hstamps, hunsent, List.length_append, List.length_singleton,
      length_packetBytes, length_stampBody, PacketID_SIZE]
    rw [hwork]
    omega

theorem loopInv_parse (fuel : Nat) (h : LoopInv poolSize window st)
    (hfuel : st.client.conn.input.length ≤ fuel) :
    LoopInv poolSize window { st with client := st.client.parse fuel } ∧
      (st.client.parse fuel).conn.input.length < 68 ∧
      (st.client.Forward → (st.client.parse fuel).Forward) ∧
      LoopRun.work { st with client := st.client.parse fuel } + 312 * st.client.answered =
        st.work + 312 * (st.client.parse fuel).answered := by
  induction fuel generalizing st with
  | zero => exact ⟨h, by rw [LoopClient.parse]; omega, id, rfl⟩
  | succ fuel ih =>
    by_cases hheader : st.client.conn.input.length < PacketID_SIZE
    · have hdone : st.client.parse (fuel + 1) = st.client := by rw [LoopClient.parse, if_pos hheader]
      rw [PacketID_SIZE] at hheader
      rw [hdone]
      exact ⟨h, by omega, id, rfl⟩
    · obtain ⟨_, _, _, hread⟩ := next_reply h (Nat.le_of_not_lt hheader)
      have hsize : (UInt16.ofNat ECHO_BODY_SIZE).toNat = 64 := rfl
      have hround : st.client.parse (fuel + 1) =
          if st.client.conn.input.length < 68 then st.client
          else (st.client.roundTrip 68).parse fuel := by
        rw [LoopClient.parse, if_neg hheader]
        simp only [hread, hsize, PacketID_SIZE, ne_eq, not_true_eq_false, or_self, ↓reduceIte]
      by_cases hpacket : st.client.conn.input.length < 68
      · rw [hround, if_pos hpacket]
        exact ⟨h, hpacket, id, rfl⟩
      · rw [hround, if_neg hpacket]
        obtain ⟨hsent, hinv, hwork⟩ := loopInv_roundTrip h (Nat.le_of_not_lt hpacket)
        have hrest : (st.client.roundTrip 68).conn.input = st.client.conn.input.drop 68 := rfl
        have hanswered : (st.client.roundTrip 68).answered = st.client.answered + 1 := rfl
        obtain ⟨hparsed, hshort, hforward, hmore⟩ := ih hinv (by
          rw [hrest, List.length_drop]
          omega)
        refine ⟨hparsed, hshort, fun hclock => hforward ?_, ?_⟩
        · exact hclock.roundTrip (List.mem_of_getElem? hsent)
        · dsimp only at hmore
          rw [hanswered, hwork] at hmore
          omega

/-! ### Steps -/

theorem loopInv_server {act : EchoAct} (h : LoopInv poolSize window st)
    (hok : unfailing st.server act = true) (hstep : loopStep st (.server act) = some st') :
    LoopInv poolSize window st' ∧ st'.client = st.client ∧
      st'.work + (if act.own then 1 else 0) ≤ st.work := by
  obtain ⟨server, hserver, rfl⟩ := Option.map_eq_some_iff.mp hstep
  have hsent := echoStep_more hserver st.client.unsent
  have hallowed : unfailing st.sent act = true := hok
  have hinv := echoInv_step st.client.length_texts h.server hallowed hsent
  have hwork := work_step h.server hinv hallowed hsent
  have hcount : st.client.texts.length = st.client.stamps.length := by
    rw [LoopClient.texts, List.length_map]
  rw [hcount] at hwork
  obtain ⟨more, hposted⟩ := posted_grows hserver
  refine ⟨⟨hinv, h.alive, h.window, ?_, ?_, h.offset, h.measured⟩, rfl, ?_⟩
  · rw [hposted, List.take_append_of_le_length h.received]
    exact h.order
  · rw [hposted, List.length_append]
    exact Nat.le_trans h.received (Nat.le_add_right _ _)
  · simp only [LoopRun.work, LoopRun.sent] at hwork ⊢
    omega

theorem wouldBlock_stays (hstep : loopStep st (.send .wouldBlock) = some st' ∨
    loopStep st (.recv .wouldBlock) = some st') : st' = st := by
  rcases hstep with hstep | hstep
  · cases (Option.ite_none_right_eq_some.mp hstep).2
    simp [LoopClient.send, SocketResult.count]
  · cases (Option.ite_none_right_eq_some.mp hstep).2
    simp [LoopClient.recv, SocketResult.count]

theorem send_cases {n : Nat} (hpos : n ≠ 0) (hstep : loopStep st (.send (.bytes n)) = some st') :
    ∃ out outOff, n ≤ st.client.unsent.length ∧ out.drop outOff = st.client.unsent.drop n ∧
      outOff ≤ out.length ∧ st' = { st with
        client := { st.client with conn.out := out, conn.outOff := outOff }
        server.wire := st.server.wire ++ st.client.unsent.take n } := by
  obtain ⟨⟨_, hpending, hn⟩, hsome⟩ := Option.ite_none_right_eq_some.mp hstep
  cases hsome
  rw [SocketResult.count] at hn ⊢
  have hlength : st.client.unsent.length = st.client.conn.out.length - st.client.conn.outOff :=
    List.length_drop
  have hsend : st.client.send (.bytes n) =
      if st.client.conn.outOff + n = st.client.conn.out.length then
        { st.client with conn.out := [], conn.outOff := 0 }
      else { st.client with conn.outOff := st.client.conn.outOff + n } := by
    cases n with
    | zero => exact absurd rfl hpos
    | succ n => rfl
  rw [hsend]
  split
  · have hall : st.client.unsent.drop n = [] := List.drop_of_length_le (by omega)
    exact ⟨[], 0, hn, hall.symm, Nat.le_refl 0, rfl⟩
  · refine ⟨st.client.conn.out, st.client.conn.outOff + n, hn, ?_, by omega, rfl⟩
    rw [LoopClient.unsent, List.drop_drop]

theorem loopInv_send {n : Nat} (h : LoopInv poolSize window st) (hpos : n ≠ 0)
    (hstep : loopStep st (.send (.bytes n)) = some st') :
    LoopInv poolSize window st' ∧ st'.client.conn.input = st.client.conn.input ∧
      (st.client.Forward → st'.client.Forward) ∧ st'.client.answered = st.client.answered ∧
      st'.work + 1 ≤ st.work := by
  obtain ⟨out, outOff, hn, hunsent, hoffset, rfl⟩ := send_cases hpos hstep
  have hrest : LoopClient.unsent { st.client with conn.out := out, conn.outOff := outOff } =
      st.client.unsent.drop n := hunsent
  have hsame : LoopRun.sent { st with
      client := { st.client with conn.out := out, conn.outOff := outOff }
      server.wire := st.server.wire ++ st.client.unsent.take n } = st.sent := by
    simp only [LoopRun.sent, hrest, List.append_assoc, List.take_append_drop]
  refine ⟨⟨?_, h.alive, h.window, h.order, h.received, hoffset, ⟨h.measured.matched,
    h.measured.recorded⟩⟩, rfl, fun hclock => ⟨hclock.clock, hclock.stamps, hclock.samples⟩,
    rfl, ?_⟩
  · rw [hsame]
    exact h.server
  · simp only [LoopRun.work, hsame, hrest, List.length_drop]
    omega

theorem loopInv_recv {n : Nat} (h : LoopInv poolSize window st) (hpos : n ≠ 0)
    (hstep : loopStep st (.recv (.bytes n)) = some st') :
    LoopInv poolSize window st' ∧ st'.client.conn.input.length < 68 ∧
      (st.client.Forward → st'.client.Forward) ∧
      st'.work + 1 + 312 * st.client.answered ≤ st.work + 312 * st'.client.answered := by
  obtain ⟨⟨_, hn, _⟩, hsome⟩ := Option.ite_none_right_eq_some.mp hstep
  cases hsome
  rw [SocketResult.count] at hn ⊢
  have hlength : st.incoming.length = st.server.posted.length - st.consumed := List.length_drop
  let filled : LoopRun := { st with
    client.conn.input := st.client.conn.input ++ st.incoming.take n
    consumed := st.consumed + n }
  have hfilled : LoopInv poolSize window filled := by
    refine ⟨h.server, h.alive, h.window, ?_, ?_, h.offset, ⟨h.measured.matched,
      h.measured.recorded⟩⟩
    · have htake : st.server.posted.take (st.consumed + n) =
          st.server.posted.take st.consumed ++ st.incoming.take n := by
        rw [List.take_add]
        rfl
      rw [htake, h.order, List.append_assoc]
      rfl
    · have hreceived := h.received
      change st.consumed + n ≤ st.server.posted.length
      omega
  have hrecv : st.client.recv st.incoming (.bytes n) =
      filled.client.parse filled.client.conn.input.length := by
    cases n with
    | zero => exact absurd rfl hpos
    | succ n => rfl
  have hwork : filled.work + n = st.work := by
    have hle := consumed_le hfilled
    have hsame : filled.sent.work filled.client.stamps.length =
        st.sent.work st.client.stamps.length := rfl
    have hunsent : filled.client.unsent = st.client.unsent := rfl
    have hbound : st.consumed + n ≤ 68 * st.client.stamps.length := hle
    have hrest : 68 * filled.client.stamps.length - filled.consumed =
        68 * st.client.stamps.length - (st.consumed + n) := rfl
    rw [LoopRun.work, LoopRun.work, hsame, hunsent, hrest]
    omega
  obtain ⟨hparsed, hshort, hforward, hmore⟩ := loopInv_parse _ hfilled (Nat.le_refl _)
  rw [hrecv]
  refine ⟨hparsed, hshort, fun hclock => hforward ⟨hclock.clock, hclock.stamps, hclock.samples⟩, ?_⟩
  have hanswered : filled.client.answered = st.client.answered := rfl
  have hwhole : LoopRun.work { filled with
      client := filled.client.parse filled.client.conn.input.length } + 312 * st.client.answered =
        filled.work + 312 * (filled.client.parse filled.client.conn.input.length).answered := by
    rw [← hanswered]
    exact hmore
  have hleast : LoopRun.work { filled with
      client := filled.client.parse filled.client.conn.input.length } + 1 +
        312 * st.client.answered ≤
      st.work + 312 * (filled.client.parse filled.client.conn.input.length).answered := by
    omega
  exact hleast

structure LoopKept (poolSize window : Nat) (forward : Prop) (st : LoopRun) : Prop where
  inv : LoopInv poolSize window st
  short : st.client.conn.input.length < 68
  clock : forward → st.client.Forward

theorem loopKept_step {forward : Prop} {act : LoopAct} (h : LoopKept poolSize window forward st)
    (hok : faultless st act = true) (hstep : loopStep st act = some st') :
    LoopKept poolSize window forward st' ∧
      st'.work + (if act.own then 1 else 0) + 312 * st.client.answered ≤
        st.work + 312 * st'.client.answered := by
  cases act with
  | server act =>
    obtain ⟨hinv, hclient, hwork⟩ := loopInv_server h.inv hok hstep
    rw [hclient]
    refine ⟨⟨hinv, hclient ▸ h.short, fun hf => hclient ▸ h.clock hf⟩, ?_⟩
    exact Nat.add_le_add_right hwork _
  | send result =>
    cases result with
    | wouldBlock =>
      obtain rfl := wouldBlock_stays (.inl hstep)
      exact ⟨h, Nat.le_refl _⟩
    | error => simp [faultless] at hok
    | bytes n =>
      have hpos : n ≠ 0 := by simpa [faultless] using hok
      obtain ⟨hinv, hinput, hclock, hanswered, hwork⟩ := loopInv_send h.inv hpos hstep
      refine ⟨⟨hinv, hinput ▸ h.short, fun hf => hclock (h.clock hf)⟩, ?_⟩
      have hown : (LoopAct.send (.bytes n)).own = true := rfl
      rw [hanswered, hown, if_pos rfl]
      omega
  | recv result =>
    cases result with
    | wouldBlock =>
      obtain rfl := wouldBlock_stays (.inr hstep)
      exact ⟨h, Nat.le_refl _⟩
    | error => simp [faultless] at hok
    | bytes n =>
      have hpos : n ≠ 0 := by simpa [faultless] using hok
      obtain ⟨hinv, hshort, hclock, hwork⟩ := loopInv_recv h.inv hpos hstep
      refine ⟨⟨hinv, hshort, fun hf => hclock (h.clock hf)⟩, ?_⟩
      have hown : (LoopAct.recv (.bytes n)).own = true := rfl
      rw [hown, if_pos rfl]
      exact hwork
  | hangUp => cases hok
  | others roundTrips broke rtts =>
    obtain ⟨_, hsome⟩ := Option.ite_none_right_eq_some.mp hstep
    cases hsome
    obtain ⟨hinv, hshort, hclock⟩ := h
    have hmeasured := hinv.measured
    refine ⟨⟨⟨hinv.server, hinv.alive, hinv.window, hinv.order, hinv.received, hinv.offset,
      ⟨hmeasured.matched, ?_⟩⟩, hshort, fun hf => ?_⟩, Nat.le_refl _⟩
    · exact hmeasured.recorded.trans (List.sublist_append_left _ _)
    · exact ⟨(hclock hf).clock, (hclock hf).stamps, (hclock hf).samples⟩

theorem loopKept_run {forward : Prop} (h : LoopKept poolSize window forward st)
    {acts : List LoopAct}
    (hrun : run (guarded loopStep fun st act => faultless st act = true) st acts = some st') :
    LoopKept poolSize window forward st' ∧
      st'.work + acts.countP LoopAct.own + 312 * st.client.answered ≤
        st.work + 312 * st'.client.answered := by
  induction acts generalizing st with
  | nil =>
    cases hrun
    exact ⟨h, Nat.le_refl _⟩
  | cons act rest ih =>
    obtain ⟨middle, hguarded, hrest⟩ := Option.bind_eq_some_iff.mp hrun
    obtain ⟨hok, hstep⟩ := guarded_eq_some hguarded
    obtain ⟨hmiddle, hwork⟩ := loopKept_step h hok hstep
    obtain ⟨hend, hbound⟩ := ih hmiddle hrest
    refine ⟨hend, ?_⟩
    rw [List.countP_cons]
    omega

/-! ### The start -/

structure LoopClient.Filled (window : Nat) (c : LoopClient) : Prop where
  input : c.conn.input = []
  outOff : c.conn.outOff = 0
  alive : c.conn.dead = false
  answered : c.answered = 0
  samples : c.samples = []
  stamps : c.stamps.length = window
  out : c.conn.out = requests c.texts

theorem filled_fillWindow (nowNanos : Nat → Int64) (window : Nat) :
    (LoopClient.fillWindow nowNanos window).Filled window := by
  induction window with
  | zero => exact ⟨rfl, rfl, rfl, rfl, rfl, rfl, rfl⟩
  | succ window ih =>
    refine ⟨ih.input, ih.outOff, ih.alive, ih.answered, ih.samples, ?_, ?_⟩
    · simp [LoopClient.fillWindow, LoopClient.appendPacket, ih.stamps]
    · simp [LoopClient.fillWindow, LoopClient.appendPacket, LoopClient.texts, ih.out, requests]

theorem forward_fillWindow {nowNanos : Nat → Int64} (h : ∀ i, nowNanos i ≤ nowNanos (i + 1))
    (window : Nat) : (LoopClient.fillWindow nowNanos window).Forward := by
  induction window with
  | zero => exact ⟨h, nofun, nofun⟩
  | succ window ih => exact ih.appendPacket

theorem loopKept_start (poolSize window : Nat) (nowNanos : Nat → Int64) :
    LoopKept poolSize window (∀ i, nowNanos i ≤ nowNanos (i + 1))
        (.start poolSize window nowNanos) ∧
      (LoopRun.start poolSize window nowNanos).work = 312 * window := by
  have hfilled := filled_fillWindow nowNanos window
  have hunsent : (LoopClient.fillWindow nowNanos window).unsent =
      requests (LoopClient.fillWindow nowNanos window).texts := by
    rw [LoopClient.unsent, hfilled.outOff, hfilled.out, List.drop_zero]
  have hsent : (LoopRun.start poolSize window nowNanos).sent =
      .start poolSize (requests (LoopClient.fillWindow nowNanos window).texts) := by
    simp only [LoopRun.sent, LoopRun.start, hunsent, EchoRun.start, List.nil_append]
  have hlength : (requests (LoopClient.fillWindow nowNanos window).texts).length = 68 * window := by
    have hwidth : ∀ now, (packetBytes .CLIENT_ECHO (stampBody now)).length = 68 := fun now => by
      rw [length_packetBytes, length_stampBody]
      rfl
    rw [requests, LoopClient.texts, List.flatMap_map, length_cells hwidth, hfilled.stamps]
  refine ⟨⟨⟨?_, hfilled.alive, ?_, ?_, Nat.le_refl 0, ?_, ⟨?_, ?_⟩⟩, ?_, fun h =>
    forward_fillWindow h window⟩, ?_⟩
  · rw [hsent]
    exact echoInv_start poolSize _
  · exact hfilled.stamps.trans (by rw [LoopRun.start, hfilled.answered, Nat.zero_add])
  · simp only [LoopRun.start, hfilled.answered, hfilled.input]
    rfl
  · exact hfilled.outOff ▸ Nat.zero_le _
  · exact hfilled.samples ▸ nofun
  · rw [LoopRun.start, hfilled.samples]
    exact List.nil_sublist _
  · rw [LoopRun.start, hfilled.input]
    exact Nat.succ_pos 67
  · have hstamps : (LoopRun.start poolSize window nowNanos).client.stamps.length = window :=
      hfilled.stamps
    have hrest : (LoopRun.start poolSize window nowNanos).client.unsent.length = 68 * window :=
      (congrArg List.length hunsent).trans hlength
    have hserver : EchoRun.work window
        (.start poolSize (requests (LoopClient.fillWindow nowNanos window).texts)) =
          2 * (requests (LoopClient.fillWindow nowNanos window).texts).length + 40 * window := rfl
    have hnone : (LoopRun.start poolSize window nowNanos).consumed = 0 := rfl
    rw [LoopRun.work, hsent, hstamps, hrest, hserver, hlength, hnone]
    omega

/-! ### The loop goes on -/

theorem loop_goes_on {forward : Prop} (h : LoopKept poolSize window forward st)
    (hwindow : 0 < window) (hok : unfailing st.server .recv = true) :
    st.server.Starved ∨ ∃ act st', act.own = true ∧ faultless st act = true ∧
      loopStep st act = some st' := by
  have hinv := h.inv
  by_cases hunsent : st.client.unsent = []
  case neg =>
    have hsome := List.length_pos_iff.mpr hunsent
    have hpending : st.client.conn.outOff < st.client.conn.out.length := by
      rw [LoopClient.unsent, List.length_drop] at hsome
      omega
    exact .inr ⟨.send (.bytes 1), _, rfl, rfl, if_pos ⟨hinv.alive, hpending, hsome⟩⟩
  case pos =>
    have hsent : st.sent = st.server := by rw [LoopRun.sent, hunsent, List.append_nil]
    have hserver := hsent ▸ hinv.server
    rcases session_goes_on st.client.length_texts hserver hok with
      hdone | hstarved | ⟨act, server, hown, hact, hstep⟩
    · have hposted := congrArg List.length (posted_all st.client.length_texts hserver hdone)
      have hconsumed := consumed_eq hinv
      have hshort := h.short
      have hcount := hinv.window
      rw [length_replies st.client.length_texts, LoopClient.texts, List.length_map] at hposted
      have hsome : 1 ≤ st.incoming.length := by
        rw [LoopRun.incoming, List.length_drop]
        omega
      have hroom : 1 ≤ IN_CAP - st.client.conn.input.length := by
        rw [IN_CAP]
        omega
      exact .inr ⟨.recv (.bytes 1), _, rfl, rfl, if_pos ⟨hinv.alive, hsome, hroom⟩⟩
    · exact .inl hstarved
    · exact .inr ⟨.server act, { st with server := server }, hown, hact,
        congrArg (Option.map _) hstep⟩

end

structure LoopRun.Loops (window : Nat) (nowNanos : Nat → Int64) (st : LoopRun) : Prop where
  alive : st.client.conn.dead = false
  on_their_way : st.client.stamps.length = st.client.answered + window
  in_order : st.server.posted.take st.consumed =
    replies (st.client.texts.take st.client.answered) ++ st.client.conn.input
  short : st.client.conn.input.length < 68
  measured : st.client.Measured
  forward : (∀ i, nowNanos i ≤ nowNanos (i + 1)) →
    ∀ sample ∈ st.client.samples, sample.sentAt ≤ sample.now
  goes_on : 0 < window → unfailing st.server .recv = true → st.server.Starved ∨
    ∃ act st', act.own = true ∧ faultless st act = true ∧ loopStep st act = some st'

/-- For each 312 of its steps the loop has a round trip behind it, but for the window. -/
theorem window_kept {poolSize window : Nat} {nowNanos : Nat → Int64} {acts : List LoopAct}
    {st : LoopRun} (hrun : run (guarded loopStep fun st act => faultless st act = true)
      (.start poolSize window nowNanos) acts = some st) :
    st.Loops window nowNanos ∧
      acts.countP LoopAct.own ≤ 312 * (window + st.client.answered) := by
  obtain ⟨hstart, hwork⟩ := loopKept_start poolSize window nowNanos
  obtain ⟨hkept, hbound⟩ := loopKept_run hstart hrun
  have hinv := hkept.inv
  refine ⟨⟨hinv.alive, hinv.window, hinv.order, hkept.short, hinv.measured,
    fun hclock => (hkept.clock hclock).samples, loop_goes_on hkept⟩, ?_⟩
  have hnone : (LoopRun.start poolSize window nowNanos).client.answered = 0 :=
    (filled_fillWindow nowNanos window).answered
  rw [hwork, hnone] at hbound
  omega

def ticking (i : Nat) : Int64 := .ofBitVec (.ofNat 64 (1000 * i))

def answering : List EchoAct :=
  [.other .thread, .receive 0 100] ++ List.replicate 6 .recv ++ [.advance 0 true] ++
    List.replicate 3 .recv ++ [.receive 0 36] ++ List.replicate 4 .recv ++ [.advance 1 true] ++
    List.replicate 4 (.advance 0 true)

/-- Both requests go out at once and come back in one send; the first reply arrives with half
of the second. -/
theorem window_kept_two :
    ∃ acts st, run (guarded loopStep fun st act => faultless st act = true)
        (.start 1 2 ticking) acts = some st ∧ st.Loops 2 ticking ∧
      st.client.answered = 2 ∧ st.client.result.rtts = [2000, 3000] := by
  have hrun : (run (guarded loopStep fun st act => faultless st act = true) (.start 1 2 ticking)
      ([.send (.bytes 136)] ++ answering.map .server ++
        [.recv (.bytes 100), .recv (.bytes 36)])).any (fun st => decide (
          st.client.answered = 2 ∧ st.client.result.rtts = [2000, 3000])) = true := by
    decide +kernel
  obtain ⟨st, hst, hends⟩ := (Option.any_eq_true _ _).mp hrun
  obtain ⟨hanswered, hrtts⟩ := of_decide_eq_true hends
  exact ⟨_, st, hst, (window_kept hst).1, hanswered, hrtts⟩

end RoomServer
