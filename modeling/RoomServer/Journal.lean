import RoomServer.Library.Broadcast
import RoomServer.RoomSockets
import RoomServer.RoomWide
import RoomServer.SendRefinement

/-! A record kept beside the server: what each room has made for everybody in it, what
each thread has still to hand to which session, and what went through the sections of
`InsertSendQueue`. A packet that is made for everybody carries the number it has among
those of its room. -/
namespace RoomServer
open Library Library.Broadcast Library.Threads Library.Transition

/-- A packet to hand to a session; `label` is the room and the number of what was made
for everybody, and a session's own packets have none. -/
structure Handing where
  session : Nat
  packet : ServerPacket ℚ
  label : Option (Nat × Nat)

/-- A session is told apart from its next client by the connection. -/
structure Journal where
  server : Server
  produced : Nat → List (Production (ServerPacket ℚ) (Nat × Nat))
  pending : Nat → List Handing
  entered : Nat → List (Chunk × Option (Nat × Nat))

def Journal.start (roomCount poolSize acceptCount : Nat) : Journal :=
  ⟨.start roomCount poolSize acceptCount, fun _ => [], fun _ => [], fun _ => []⟩

def Effect.sent : Effect → Option (Nat × ServerPacket ℚ)
  | .insertSendQueue session sendChunk => some (session, sendChunk)
  | _ => none

def Instr.handing : Instr → Option (Nat × ServerPacket ℚ)
  | .effect e => e.sent
  | .sending s (.insertSendQueue chunk) => some (s, chunk.packet)
  | _ => none

def Instr.inserts : Instr → Bool
  | .sending _ (.insertSendQueue _) => true
  | _ => false

namespace Server

def recipients (st : Server) (i : Nat) : List (Nat × Nat) :=
  (st.rooms i).sessions.map fun s => (s, st.connection s)

def produces (st : Server) (c : Choice) (i : Nat) :
    Instr → List (Production (ServerPacket ℚ) (Nat × Nat))
  | .dispatch i' (job :: _) _ =>
    if i' = i then
      let session := st.sessions job.session
      (job.roomWide (st.rooms i) session.socket session.connected).toList.map fun packet =>
        ⟨packet, (st.recipients i).filter fun r => r.1 ≠ job.session⟩
    else []
  | .tick i' _ =>
    if i' = i then
      ((st.rooms i).snapshots c.nowTick).map fun batch => ⟨.move batch, st.recipients i⟩
    else []
  | _ => []

/-- What the entry gives its thread to hand over. A job hands its packet to the others, a
tick hands one batch after the other to everybody; `made i` is how many room `i` has made. -/
def hands (st : Server) (c : Choice) (made : Nat → Nat) : Instr → List Handing
  | .dispatch i (job :: _) _ =>
    let session := st.sessions job.session
    let o := job.dispatch (st.rooms i) session.socket session.connected c.made c.nowTick
    (o.effects.filterMap Effect.sent).map fun r =>
      ⟨r.1, r.2, if r.1 = job.session then none else some (i, made i)⟩
  | .tick i _ =>
    (((st.rooms i).snapshots c.nowTick).zipIdx (made i)).flatMap fun batch =>
      (st.rooms i).sessions.map fun s => ⟨s, .move batch.1, some (i, batch.2)⟩
  | .recv s requests =>
    ((st.recv s requests).filterMap Instr.handing).map fun r => ⟨r.1, r.2, none⟩
  | _ => []

end Server

def Journal.record (j : Journal) (t : Nat) (c : Choice) (instr : Instr) : Journal :=
  { j with
    produced := fun i => j.produced i ++ j.server.produces c i instr
    pending := Function.update j.pending t
      (j.server.hands c (fun i => (j.produced i).length) instr ++
        if instr.inserts then (j.pending t).tail else j.pending t)
    entered := fun s => j.entered s ++
      (instr.enters s).map fun chunk => (chunk, (j.pending t).head?.bind Handing.label) }

def Journal.advance (j : Journal) (t : Nat) (c : Choice) (instr : Instr) (rest : List Instr) :
    Journal :=
  { j.record t c instr with server := j.server.advance t c instr rest }

theorem Journal.record_self (j : Journal) (t : Nat) (c : Choice) (instr : Instr) :
    (j.record t c instr).pending t =
      j.server.hands c (fun i => (j.produced i).length) instr ++
        if instr.inserts then (j.pending t).tail else j.pending t :=
  Function.update_self ..

theorem Journal.record_other {t u : Nat} (h : u ≠ t) (j : Journal) (c : Choice) (instr : Instr) :
    (j.record t c instr).pending u = j.pending u :=
  Function.update_of_ne h _ _

def journalStep : Step Journal ServerAct
  | j, .advance t c =>
    match j.server.threads[t]? with
    | some (instr :: rest) => some (j.advance t c instr rest)
    | _ => none
  | j, act => (serverStep j.server act).map fun server => { j with server := server }

def ServerAct.AllMade : ServerAct → Prop
  | .advance _ c => ∀ n, c.made n = true
  | _ => True

/-- `MakeSendPacket` does not fail, and `WSASend` neither is refused nor fails later. -/
def undisturbed (j : Journal) (act : ServerAct) : Prop :=
  act.AllMade ∧ sendsSucceed j.server act = true

inductive JournalMove (j : Journal) : ServerAct → Journal → Prop where
  | advance {t : Nat} {c : Choice} {instr : Instr} {rest : List Instr}
      (h : j.server.threads[t]? = some (instr :: rest)) :
      JournalMove j (.advance t c) (j.advance t c instr rest)
  | spawn (act : ServerAct) {posted : List Posted} {thread : List Instr}
      (hposted : ∀ op ∈ posted, op ∈ j.server.posted)
      (hthread : ∀ x ∈ thread, Spawned j.server x) :
      JournalMove j act
        { j with server := { j.server with
            posted := posted, threads := j.server.threads ++ [thread] } }

theorem journalMove_of_step {j j' : Journal} {act : ServerAct}
    (h : journalStep j act = some j') : JournalMove j act j' := by
  have hspawn : ∀ act, (∀ t c, act ≠ .advance t c) →
      (serverStep j.server act).map (fun server => { j with server := server }) = some j' →
      JournalMove j act j' := by
    intro act hother h
    obtain ⟨server, hserver, rfl⟩ := Option.map_eq_some_iff.mp h
    cases steps_of_step hserver with
    | advance c hthread => exact absurd rfl (hother _ c)
    | spawn act hposted hthread => exact .spawn act hposted hthread
  cases act with
  | advance t c =>
    simp only [journalStep] at h
    split at h
    case h_1 instr rest hthread =>
      cases h
      exact .advance hthread
    case h_2 => contradiction
  | complete k completion => exact hspawn _ (fun t c => by simp) h
  | shutdown => exact hspawn _ (fun t c => by simp) h

theorem server_of_journalStep {j j' : Journal} {act : ServerAct}
    (h : journalStep j act = some j') : serverStep j.server act = some j'.server := by
  cases act with
  | advance t c =>
    simp only [journalStep] at h
    split at h
    case h_1 instr rest hthread =>
      cases h
      have hstep : serverStep j.server (.advance t c) =
          some (j.server.advance t c instr rest) := by
        simp only [serverStep, hthread]
      exact hstep
    case h_2 => contradiction
  | complete k completion =>
    obtain ⟨server, hserver, rfl⟩ := Option.map_eq_some_iff.mp h
    exact hserver
  | shutdown =>
    cases h
    rfl

theorem server_reaches {ok : Journal → ServerAct → Prop} {roomCount poolSize acceptCount : Nat}
    {j : Journal} (h : Reaches journalStep ok (.start roomCount poolSize acceptCount) j) :
    Reaches serverStep always (.start roomCount poolSize acceptCount) j.server := by
  induction h with
  | start => exact .start
  | next act _ _ hstep ih => exact .next act ih trivial (server_of_journalStep hstep)

end RoomServer
