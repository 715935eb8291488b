import RoomServer.Library.Transition
import RoomServer.RoomMembers

/-! One room and the sessions whose jobs all go to it. Each session keeps its socket
number; its flag is what the room's own jobs made it, and everything queued for it
since it was let in is remembered. -/
namespace RoomServer
open Library Library.Transition

structure OneRoom where
  room : Room
  connected : Nat → Bool
  heard : Nat → List (ServerPacket ℚ)
  /-- The last `GetTickCount64` that was read. -/
  clock : Nat

inductive OneRoomAct where
  | job (job : Job) (mk : Nat → Bool) (nowTick : Nat)
  | tick (nowTick : Nat) (mk : Nat → Bool)
  /-- A tick without the test for `MinMoveTick`. -/
  | moveCheckUsers (nowTick : Nat) (mk : Nat → Bool)

namespace OneRoom

def new (roomID : Int) : OneRoom := ⟨.new roomID, fun _ => false, fun _ => [], 0⟩

def apply (st : OneRoom) : Effect → OneRoom
  | .connect session =>
    { st with
      connected := Function.update st.connected session true
      heard := Function.update st.heard session [] }
  | .disConnected session => { st with connected := Function.update st.connected session false }
  | .insertSendQueue session sendChunk =>
    { st with heard := Function.update st.heard session (st.heard session ++ [sendChunk]) }
  | .setRoomID _ _ | .closeSession _ => st

def finish (st : OneRoom) (o : Outcome) (nowTick : Nat) : OneRoom :=
  { o.effects.foldl apply st with room := o.room, clock := nowTick }

def outcome (socketOf : Nat → Nat) (st : OneRoom) : OneRoomAct → Outcome
  | .job job made nowTick =>
    job.dispatch st.room (socketOf job.session) (st.connected job.session) made nowTick
  | .tick nowTick made => st.room.tick nowTick made
  | .moveCheckUsers nowTick made => st.room.moveCheckUsers nowTick made

end OneRoom

def OneRoomAct.nowTick : OneRoomAct → Nat
  | .job _ _ nowTick | .tick nowTick _ | .moveCheckUsers nowTick _ => nowTick

def OneRoomAct.made : OneRoomAct → Nat → Bool
  | .job _ made _ | .tick _ made | .moveCheckUsers _ made => made

def OneRoomAct.AllMade (act : OneRoomAct) : Prop := ∀ n, act.made n = true

def oneRoomStep (socketOf : Nat → Nat) : Step OneRoom OneRoomAct := fun st act =>
  some (st.finish (st.outcome socketOf act) act.nowTick)

/-! ### What a session is sent -/

def sentTo (session : Nat) (effects : List Effect) : List (ServerPacket ℚ) :=
  effects.filterMap fun
    | .insertSendQueue session' sendChunk => if session' = session then some sendChunk else none
    | _ => none

section SentTo
variable (a : Nat)

@[simp] theorem sentTo_nil : sentTo a [] = [] := rfl

@[simp] theorem sentTo_append (first second : List Effect) :
    sentTo a (first ++ second) = sentTo a first ++ sentTo a second :=
  List.filterMap_append

theorem sentTo_self (sendChunk : ServerPacket ℚ) (effects : List Effect) :
    sentTo a (.insertSendQueue a sendChunk :: effects) = sendChunk :: sentTo a effects := by
  simp [sentTo]

theorem sentTo_other {a s : Nat} (h : s ≠ a) (sendChunk : ServerPacket ℚ) (effects : List Effect) :
    sentTo a (.insertSendQueue s sendChunk :: effects) = sentTo a effects := by
  simp [sentTo, h]

theorem sentTo_setRoomID (session : Nat) (roomID : Int) (effects : List Effect) :
    sentTo a (.setRoomID session roomID :: effects) = sentTo a effects := rfl

theorem sentTo_map (users : List RoomUser) (sendChunk : ServerPacket ℚ) :
    sentTo a (users.map fun user => .insertSendQueue user.session sendChunk) =
      List.replicate ((users.map RoomUser.session).count a) sendChunk := by
  induction users with
  | nil => rfl
  | cons user users ih =>
    rw [List.map_cons, List.map_cons]
    by_cases h : user.session = a
    · subst h
      rw [sentTo_self, ih, List.count_cons_self, List.replicate_succ]
    · rw [sentTo_other h, ih, List.count_cons_of_ne h]

end SentTo

theorem foldl_sends {p : Nat → Prop} {effects : List Effect} (h : SendsTo p effects)
    (st : OneRoom) : (effects.foldl OneRoom.apply st).connected = st.connected ∧
      ∀ a, (effects.foldl OneRoom.apply st).heard a = st.heard a ++ sentTo a effects := by
  induction effects generalizing st with
  | nil => exact ⟨rfl, fun a => (List.append_nil _).symm⟩
  | cons e rest ih =>
    obtain ⟨session, sendChunk, rfl, _⟩ := h e List.mem_cons_self
    obtain ⟨hconnected, hheard⟩ := ih (fun e he => h e (List.mem_cons_of_mem _ he))
      (st.apply (.insertSendQueue session sendChunk))
    refine ⟨hconnected, fun a => ?_⟩
    rw [List.foldl_cons, hheard a]
    by_cases ha : session = a
    · subst ha
      simp [OneRoom.apply, sentTo_self]
    · simp [OneRoom.apply, sentTo_other ha, Function.update_of_ne (Ne.symm ha)]

theorem foldl_heard {a : Nat} {effects : List Effect} (h : .connect a ∉ effects) (st : OneRoom) :
    (effects.foldl OneRoom.apply st).heard a = st.heard a ++ sentTo a effects := by
  induction effects generalizing st with
  | nil => exact (List.append_nil _).symm
  | cons e rest ih =>
    rw [List.foldl_cons, ih fun he => h (List.mem_cons_of_mem _ he)]
    cases e with
    | connect session =>
      have hne : a ≠ session := fun heq => h (heq ▸ List.mem_cons_self)
      exact congrArg (· ++ _) (Function.update_of_ne hne _ _)
    | insertSendQueue session sendChunk =>
      by_cases ha : session = a
      · subst ha
        simp [OneRoom.apply, sentTo_self]
      · simp [OneRoom.apply, sentTo_other ha, Function.update_of_ne (Ne.symm ha)]
    | disConnected session => rfl
    | setRoomID session roomID => rfl
    | closeSession session => rfl

end RoomServer
