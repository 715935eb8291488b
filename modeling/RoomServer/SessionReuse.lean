import RoomServer.Segmentation

/-! A pooled session keeps its receive offsets. `SessionData::Reset` reaches the
buffer only through `RecvBuffer::Initialize`, which resizes the storage; whether
the next connection notices is decided by the write position left behind. -/
namespace RoomServer
open Library.Framing Library.Transition

/-- The receive part of `SessionData::Reset`: `m_Recv.Initialize()`. -/
def RecvBuffer.reset (b : RecvBuffer) : RecvBuffer := b.initializeTo PACKET_SIZE

def Receiver.over (app : σ) (b : RecvBuffer) : Receiver σ := ⟨app, b, [], false⟩

/-- The receive buffer of a `SessionData` between two connections: never used, or
left behind by receives of any bytes under any handlers, whenever they ended. -/
inductive Leftover : RecvBuffer → Prop where
  | new : Leftover .fresh
  | connection {b : RecvBuffer} {σ : Type} (dispatch : Dispatch σ) (app : σ)
      (cuts : List (List Byte)) {s : Receiver σ} : Leftover b →
      run (receive dispatch) (.over app b.reset) cuts = some s → Leftover s.buffer

/-- What a connection shows outside: the length of every posted `WSARecv` and the
packets dispatched. -/
structure Trace where
  posted : List Nat
  dispatched : List Packet
  deriving DecidableEq

def observe (dispatch : Dispatch σ) : Receiver σ → List (List Byte) → Option Trace
  | s, [] => some ⟨if s.rejected then [] else [s.buffer.getWriteBufferSize], s.dispatched⟩
  | s, data :: rest =>
    (receive dispatch s data).bind fun s' => (observe dispatch s' rest).map fun trace =>
      { trace with posted := s.buffer.getWriteBufferSize :: trace.posted }

def Deframer.observe (dispatch : Dispatch σ) : Deframer σ → List (List Byte) → Option Trace
  | s, [] => some ⟨if s.rejected then [] else [PACKET_SIZE - s.pending.length], s.dispatched⟩
  | s, data :: rest =>
    (deframe dispatch s data).bind fun s' => (Deframer.observe dispatch s' rest).map fun trace =>
      { trace with posted := (PACKET_SIZE - s.pending.length) :: trace.posted }

theorem observe_refines (dispatch : Dispatch σ) {c : Receiver σ} {a : Deframer σ}
    (h : Refines c a) (cuts : List (List Byte)) :
    observe dispatch c cuts = a.observe dispatch cuts := by
  induction cuts generalizing c a with
  | nil =>
    unfold observe Deframer.observe
    rw [← h.rejected_eq, ← h.dispatched_eq]
    cases hrejected : c.rejected with
    | true => rfl
    | false => rw [(h.window hrejected).getWriteBufferSize]
  | cons data rest ih =>
    unfold observe Deframer.observe
    have hstep := receive_refines dispatch c a data h
    cases hc : receive dispatch c data with
    | none =>
      cases ha : deframe dispatch a data with
      | none => rfl
      | some a' => rw [hc, ha] at hstep; contradiction
    | some c' =>
      cases ha : deframe dispatch a data with
      | none => rw [hc, ha] at hstep; contradiction
      | some a' =>
        rw [hc, ha] at hstep
        obtain ⟨hnext⟩ := hstep
        have hlive : c.rejected = false := by
          unfold receive at hc
          split at hc
          case isTrue henabled => exact henabled.1
          case isFalse => contradiction
        rw [(h.window hlive).getWriteBufferSize, Option.bind_some, Option.bind_some, ih hnext]

/-! ### What a history leaves -/

theorem reset_eq {b : RecvBuffer} (h : b.buffer.length = PACKET_SIZE) : b.reset = b := by
  unfold RecvBuffer.reset RecvBuffer.initializeTo
  rw [← h, List.take_length, Nat.sub_self, List.replicate_zero, List.append_nil]

theorem refines_over (app : σ) {b : RecvBuffer} {pending : List Byte} (h : Window b 0 pending) :
    Refines (.over app b) ⟨app, pending, [], false⟩ :=
  ⟨rfl, rfl, rfl, fun _ => h, nofun⟩

theorem refines_window {c : Receiver σ} {a : Deframer σ} (h : Refines c a) :
    ∃ pending, Window c.buffer 0 pending := by
  cases hrejected : c.rejected with
  | true =>
    obtain ⟨pending, hwindow, _⟩ := h.left hrejected
    exact ⟨pending, hwindow⟩
  | false => exact ⟨a.pending, h.window hrejected⟩

theorem Leftover.window {b : RecvBuffer} (h : Leftover b) : ∃ pending, Window b 0 pending := by
  induction h with
  | new => exact ⟨[], window_fresh⟩
  | @connection b σ dispatch app cuts s _ hrun ih =>
    obtain ⟨pending, hwindow⟩ := ih
    rw [reset_eq hwindow.size] at hrun
    have hrel := (receive_refines dispatch).run (refines_over app hwindow) cuts
    rw [hrun] at hrel
    cases ha : run (deframe dispatch) ⟨app, pending, [], false⟩ cuts with
    | none => rw [ha] at hrel; contradiction
    | some a =>
      rw [ha] at hrel
      obtain ⟨hrefines⟩ := hrel
      exact refines_window hrefines

/-- The next connection cannot be told from one on a never-used session. -/
def ReusedAsNew (b : RecvBuffer) : Prop :=
  ∀ (σ : Type) (dispatch : Dispatch σ) (app : σ) (cuts : List (List Byte)),
    observe dispatch (.over app b.reset) cuts = observe dispatch (.fresh app) cuts

/-- A reused session behaves as a new one exactly when the previous connections
left no received byte in its buffer. -/
theorem reusedAsNew_iff (b : RecvBuffer) (h : Leftover b) :
    ReusedAsNew b ↔ b.writePos = 0 := by
  obtain ⟨pending, hwindow⟩ := h.window
  have hpos : b.writePos = pending.length := hwindow.writePos
  have hle := hwindow.length_le
  rw [ReusedAsNew, reset_eq hwindow.size, hpos]
  constructor
  · intro hsame
    have hfirst := hsame Unit (fun app _ => (app, true)) () []
    rw [observe_refines _ (refines_over () hwindow), observe_refines _ (refines_fresh ())] at hfirst
    have hposted := congrArg (Option.map Trace.posted) hfirst
    simp only [Deframer.observe, Option.map_some, Bool.false_eq_true, ↓reduceIte, List.length_nil,
      Option.some.injEq, List.cons.injEq, and_true] at hposted
    unfold PACKET_SIZE at hposted hle
    omega
  · intro hempty σ dispatch app cuts
    have hnil : pending = [] := List.length_eq_zero_iff.mp hempty
    subst hnil
    rw [observe_refines dispatch (refines_over app hwindow),
      observe_refines dispatch (refines_fresh app)]

/-- A connection that sends one byte and goes away: the ENTER of the next one on
the same session is read one byte off, and the receives posted for it are short. -/
theorem reused_after_one_byte :
    ∃ s, run (receive acceptAll) (.fresh ()) [[1]] = some s ∧
      observe acceptAll (.over () s.buffer.reset) [[3, 0, 0, 0]] =
        some ⟨[4095, 4095], [⟨769, []⟩]⟩ ∧
      observe acceptAll (.fresh ()) [[3, 0, 0, 0]] =
        some ⟨[4096, 4096], [⟨PacketType.CLIENT_ENTER, []⟩]⟩ ∧
      ¬ReusedAsNew s.buffer := by
  have hreused : (run (receive acceptAll) (.fresh ()) [[1]]).bind (fun s =>
      observe acceptAll (.over () s.buffer.reset) [[3, 0, 0, 0]]) =
        some ⟨[4095, 4095], [⟨769, []⟩]⟩ := by decide +kernel
  have hfresh : observe acceptAll (.fresh ()) [[3, 0, 0, 0]] =
      some ⟨[4096, 4096], [⟨PacketType.CLIENT_ENTER, []⟩]⟩ := by decide +kernel
  obtain ⟨s, hrun, hobserve⟩ := Option.bind_eq_some_iff.mp hreused
  refine ⟨s, hrun, hobserve, hfresh, fun hsame => ?_⟩
  have htraces := hsame Unit acceptAll () [[3, 0, 0, 0]]
  rw [hobserve, hfresh] at htraces
  exact absurd htraces (by decide)

/-- The same history, through the characterization. -/
theorem reusedAsNew_iff_one_byte :
    ∃ b, Leftover b ∧ (ReusedAsNew b ↔ b.writePos = 0) ∧ b.writePos = 1 := by
  have hpos : (run (receive acceptAll) (.fresh ()) [[1]]).map (fun s => s.buffer.writePos) =
      some 1 := by decide +kernel
  obtain ⟨s, hrun, hone⟩ := Option.map_eq_some_iff.mp hpos
  have hleft : Leftover s.buffer := by
    apply Leftover.connection acceptAll () [[1]] .new
    rw [reset_eq window_fresh.size]
    exact hrun
  exact ⟨s.buffer, hleft, reusedAsNew_iff s.buffer hleft, hone⟩

end RoomServer
