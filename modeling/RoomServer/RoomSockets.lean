import RoomServer.Leaving
import RoomServer.RoomViews

/-! Every place in a room is under the socket number of the session that has it, and
a registered session keeps its number; so no session has two places in a room, and
nobody is sent a packet for the room twice. -/
namespace RoomServer
open Library Library.Threads Library.Transition

def Server.Numbered (st : Server) (room : Room) : Prop :=
  ∀ n s, room.member n = some s → (st.sessions s).socket = n

/-- Of the rooms, and of those that are about to be stored. -/
structure PlaceInv (st : Server) : Prop where
  rooms : ∀ i < st.roomCount, st.Numbered (st.rooms i)
  stores : ∀ i room, Entry st.threads (.store i room) → st.Numbered room

section
variable {c : Choice} {st : Server} {instr : Instr} {i s t : Nat} {rest : List Instr}

theorem Server.Numbered.nodup {room : Room} (h : st.Numbered room) : room.sessions.Nodup := by
  apply OrderedMap.nodup_of_key fun s => (st.sessions s).socket
  intro n user hfind
  apply h
  rw [Room.member, hfind]
  rfl

theorem JobSpec.numbered {room : Room} {job : Job} {isConnected : Bool} {o : Outcome}
    (h : JobSpec room job (st.sessions job.session).socket isConnected o)
    (hroom : st.Numbered room) : st.Numbered o.room := by
  intro n s hs
  cases h with
  | stays members before after =>
    rw [members] at hs
    exact hroom n s hs
  | enters kind fresh absent members before after sends_to =>
    rw [members, Function.update_apply] at hs
    split at hs
    case isTrue hn =>
      cases hs
      exact hn.symm
    case isFalse => exact hroom n s hs
  | leaves kind connected members before sends_to after =>
    rw [members, Function.update_apply] at hs
    split at hs
    · contradiction
    · exact hroom n s hs

/-- While somebody holds its sessions, a room stays numbered. -/
theorem numbered_stays (hserver : ServerInv st) (hentry : Entry st.threads instr) {room : Room}
    (hholds : ∀ s, room.Has s → Holds st s ∧ st.phase s = .registered)
    (h : st.Numbered room) : (st.exec c instr).1.Numbered room := by
  intro n s hs
  obtain ⟨hheld, hphase⟩ := hholds s ⟨n, hs⟩
  exact (registered_stays hserver hentry hheld hphase).1.trans (h n s hs)

theorem placeInv_advance (hserver : ServerInv st) (htouch : TouchInv st) (hinv : PlaceInv st)
    (h : st.threads[t]? = some (instr :: rest)) : PlaceInv (st.advance t c instr rest) := by
  have hentry := entry_head h
  have hroom : ∀ i < st.roomCount, (st.exec c instr).1.Numbered (st.rooms i) := by
    intro i hi
    apply numbered_stays hserver hentry _ (hinv.rooms i hi)
    intro s hs
    exact ⟨.member hi hs, htouch.members i hi s hs⟩
  have hstored : ∀ i room, Entry st.threads (.store i room) →
      (st.exec c instr).1.Numbered room := by
    intro i room hx
    apply numbered_stays hserver hentry _ (hinv.stores i room hx)
    intro s hs
    exact ⟨touches_holds hserver hx hs, htouch.entries _ s hx hs⟩
  have hhome := hserver.room_lt h
  constructor
  · intro i hi
    rw [advance_roomCount, exec_sizes.1] at hi
    change (st.exec c instr).1.Numbered ((st.exec c instr).1.rooms i)
    by_cases hstore : ∃ room, instr = .store i room
    · obtain ⟨room, rfl⟩ := hstore
      simp only [Server.exec, Function.update_self]
      exact hstored i room hentry
    · rw [exec_rooms fun room hroom => hstore ⟨room, hroom⟩]
      exact hroom i hi
  · intro i room hx
    rcases advance_entry h hx with ⟨s, hs⟩ | hx | hx
    · contradiction
    · cases exec_next hx with
      | jobStore ho => exact ho.numbered (hinv.rooms i (hhome i rfl))
      | tickStore ho =>
        intro n s hs
        rw [ho.members] at hs
        exact hinv.rooms i (hhome i rfl) n s hs
    · exact hstored i room hx.entry

theorem placeInv_step {act : ServerAct} {st' : Server} (hserver : ServerInv st)
    (htouch : TouchInv st) (hinv : PlaceInv st) (h : serverStep st act = some st') :
    PlaceInv st' := by
  cases steps_of_step h with
  | advance c hthread => exact placeInv_advance hserver htouch hinv hthread
  | spawn act hposted hthread =>
    refine ⟨hinv.rooms, ?_⟩
    intro i room hx
    rcases entry_spawn hx with hx | hx
    · exact hinv.stores i room hx
    · have hroom := ((hthread _ hx).idle 0).2.2.2.1
      contradiction

theorem placeInv_start (roomCount poolSize acceptCount : Nat) :
    PlaceInv (.start roomCount poolSize acceptCount) := by
  constructor
  · intro i _ n s hs
    contradiction
  · intro i room hx
    rcases start_entry hx with ⟨j, hj⟩ | ⟨a, ha⟩ <;> contradiction

theorem placeInv_reaches {ok : Server → ServerAct → Prop} {roomCount poolSize acceptCount : Nat}
    (h : Reaches serverStep ok (.start roomCount poolSize acceptCount) st) : PlaceInv st := by
  apply h.invariant (placeInv_start roomCount poolSize acceptCount)
  intro st act st' hr hinv _ hstep
  exact placeInv_step (serverInv_reaches hr) (touchInv_reaches hr) hinv hstep

end
end RoomServer
