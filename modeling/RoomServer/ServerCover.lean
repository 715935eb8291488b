import RoomServer.RoomMembers
import RoomServer.ServerLedger

/-! Who keeps a session alive while a thread works on it. An entry that takes no
reference itself runs under one of two: a local `SessionDataRef`, which is a
`drop` further on in the thread, or the reference in `m_roomUser` of the room
whose thread it is. -/
namespace RoomServer
open Library Library.Threads

/-- The entry works on `s` under a reference that something else keeps. -/
def Instr.Needs (s : Nat) : Instr → Prop
  | .makeSocket _ s' | .acceptEx _ s' | .reTake s' | .recv s' _ | .recvStart s' _
  | .releaseSession s' | .pushLeave s' | .closesocket s' | .eraseUserSession s'
  | .sending s' _ => s' = s
  | .pushJobByRooms job _ | .pushJob job _ => job.session = s
  | .effect e => e.session = s
  | .store _ room => room.Has s
  | _ => False

/-- The room whose thread the entry is for. -/
def Instr.room? : Instr → Option Nat
  | .startJob i | .dispatch i _ _ | .store i _ | .tick i _ => some i
  | _ => none

/-- The members of the thread's room once the entry is done. -/
def Instr.leaves (m : Nat → Prop) : Instr → Nat → Prop
  | .store _ room => room.Has
  | _ => m

/-- What of them the rest of the thread may rely on; the jobs still to be taken
may change them. -/
def Instr.keeps (m : Nat → Prop) : Instr → Nat → Prop
  | .store _ room => room.Has
  | .startJob _ | .dispatch .. | .tick .. => fun _ => False
  | _ => m

/-- Each entry finds its reference: a local one that is dropped later, or the
reference of a member of the thread's own room. -/
def Covered (m : Nat → Prop) : List Instr → Prop
  | [] => True
  | instr :: rest =>
    (∀ s, instr.Needs s → .drop s ∈ rest ∨ m s) ∧ Covered (instr.keeps m) rest

theorem keeps_weaken {m m' : Nat → Prop} (h : ∀ s, m s → m' s) (instr : Instr) (s : Nat)
    (hs : instr.keeps m s) : instr.keeps m' s := by
  cases instr with
  | store i room | startJob i | dispatch i jobs stop | tick i stop => exact hs
  | _ => exact h s hs

theorem Covered.weaken {m m' : Nat → Prop} {thread : List Instr} (h : Covered m thread)
    (hm : ∀ s, m s → m' s) : Covered m' thread := by
  induction thread generalizing m m' with
  | nil => trivial
  | cons instr rest ih =>
    constructor
    · intro s hs
      exact (h.1 s hs).imp id (hm s)
    · exact ih h.2 (keeps_weaken hm instr)

theorem keeps_leaves {m : Nat → Prop} (instr : Instr) (s : Nat) (h : instr.keeps m s) :
    instr.leaves m s := by
  cases instr with
  | startJob i | dispatch i jobs stop | tick i stop => contradiction
  | _ => exact h

/-- The reference is there from the start. -/
theorem Covered.finds {m : Nat → Prop} {thread : List Instr} (h : Covered m thread) {instr : Instr}
    (hmem : instr ∈ thread) {s : Nat} (hs : instr.Needs s) : .drop s ∈ thread ∨ m s := by
  induction thread generalizing m with
  | nil => contradiction
  | cons first rest ih =>
    have hfirst : first.Needs s → .drop s ∈ first :: rest ∨ m s := fun hs =>
      (h.1 s hs).imp (List.mem_cons_of_mem _) id
    rcases List.mem_cons.mp hmem with rfl | hmem
    · exact hfirst hs
    · rcases ih h.2 hmem with hdrop | hkeeps
      · exact .inl (List.mem_cons_of_mem _ hdrop)
      · cases first with
        | store i room => exact hfirst hkeeps
        | startJob i | dispatch i jobs stop | tick i stop => contradiction
        | _ => exact .inr hkeeps

theorem Covered.append {m : Nat → Prop} {next rest : List Instr} (hrest : Covered m rest)
    (hroom : ∀ instr ∈ next, instr.room? = none)
    (hneeds : ∀ instr ∈ next, ∀ s, instr.Needs s → .drop s ∈ rest ∨ m s) :
    Covered m (next ++ rest) := by
  induction next with
  | nil => exact hrest
  | cons instr next ih =>
    constructor
    · intro s hs
      exact (hneeds instr List.mem_cons_self s hs).imp (List.mem_append_right _) id
    · have hkeeps : instr.keeps m = m := by
        have hnone := hroom instr List.mem_cons_self
        cases instr with
        | store i room | startJob i | dispatch i jobs stop | tick i stop => contradiction
        | _ => rfl
      rw [hkeeps]
      exact ih (fun x hx => hroom x (List.mem_cons_of_mem _ hx))
        fun x hx => hneeds x (List.mem_cons_of_mem _ hx)

theorem Covered.under {m : Nat → Prop} {next rest : List Instr} {s : Nat} (hrest : Covered m rest)
    (hs : .drop s ∈ rest ∨ m s) (hroom : ∀ instr ∈ next, instr.room? = none)
    (hneeds : ∀ instr ∈ next, ∀ s', instr.Needs s' → s = s') : Covered m (next ++ rest) := by
  apply hrest.append hroom
  intro instr hinstr s' hs'
  exact hneeds instr hinstr s' hs' ▸ hs

theorem Covered.before_drop {m : Nat → Prop} {rest : List Instr} {s : Nat}
    (hrest : Covered m rest) (next : List Instr) (hroom : ∀ instr ∈ next, instr.room? = none)
    (hneeds : ∀ instr ∈ next, ∀ s', instr.Needs s' → s = s') :
    Covered m (next ++ .drop s :: rest) := by
  have hdrop : Covered m (.drop s :: rest) := ⟨fun _ hs => hs.elim, hrest⟩
  exact hdrop.under (.inl List.mem_cons_self) hroom hneeds

theorem Covered.outcome {m : Nat → Prop} {i : Nat} {o : Outcome} {rest : List Instr}
    (hrest : Covered o.room.Has rest)
    (hbefore : ∀ e ∈ o.before, .drop e.session ∈ rest ∨ m e.session)
    (hroom : ∀ s, o.room.Has s → .drop s ∈ rest ∨ m s)
    (hafter : ∀ e ∈ o.after, .drop e.session ∈ rest ∨ o.room.Has e.session) :
    Covered m (Server.ofOutcome i o ++ rest) := by
  have hmap : ∀ (effects : List Effect) instr, instr ∈ effects.map Instr.effect →
      ∃ e ∈ effects, instr = .effect e := by
    intro effects instr h
    obtain ⟨e, he, heq⟩ := List.mem_map.mp h
    exact ⟨e, he, heq.symm⟩
  have hstored : Covered o.room.Has (o.after.map .effect ++ rest) := by
    apply hrest.append
    · intro instr h
      obtain ⟨e, he, rfl⟩ := hmap _ _ h
      rfl
    · intro instr h s hs
      obtain ⟨e, he, rfl⟩ := hmap _ _ h
      exact hs ▸ hafter e he
  have hstore : Covered m (.store i o.room :: (o.after.map .effect ++ rest)) := by
    constructor
    · intro s hs
      exact (hroom s hs).imp (List.mem_append_right _) id
    · exact hstored
  rw [Server.ofOutcome, List.append_assoc, List.cons_append]
  apply hstore.append
  · intro instr h
    obtain ⟨e, he, rfl⟩ := hmap _ _ h
    rfl
  · intro instr h s hs
    obtain ⟨e, he, rfl⟩ := hmap _ _ h
    rw [← show e.session = s from hs]
    apply (hbefore e he).imp _ id
    intro h
    exact List.mem_cons_of_mem _ (List.mem_append_right _ h)

section
variable {c : Choice} {st : Server} {instr : Instr} {m : Nat → Prop} {rest : List Instr} {s : Nat}

theorem recv_needs {requests : List Request} {x : Instr} (h : x ∈ st.recv s requests) :
    x.room? = none ∧ ∀ s', x.Needs s' → s = s' := by
  cases requests with
  | nil =>
    cases List.mem_singleton.mp h
    exact ⟨rfl, fun _ hs => hs⟩
  | cons request requests =>
    rw [Server.recv] at h
    (repeat' split at h) <;> simp only [List.mem_cons, List.not_mem_nil, or_false] at h <;>
      grind [Instr.room?, Instr.Needs, Effect.session, ClientPacket.push_session]

theorem Covered.dispatch {i : Nat} {stop : Bool} {jobs : List Job}
    (hrest : Covered (fun _ => False) rest) (hroom : ∀ s, (st.rooms i).Has s → m s) :
    Covered m (st.dispatch c i stop jobs ++ rest) := by
  cases jobs with
  | nil =>
    refine ⟨?_, hrest⟩
    intro s hs
    contradiction
  | cons job jobs =>
    simp only [Server.dispatch, List.append_assoc]
    have hspec := dispatch_spec job (st.rooms i) (st.sessions job.session).socket
      (st.sessions job.session).connected c.made c.nowTick
    generalize job.dispatch (st.rooms i) (st.sessions job.session).socket
      (st.sessions job.session).connected c.made c.nowTick = o at hspec ⊢
    have hdrop : ∀ {s : Nat}, s = job.session →
        Instr.drop s ∈ [.drop job.session, .dispatch i jobs stop] ++ rest := by
      rintro s rfl
      exact List.mem_cons_self
    apply Covered.outcome
    · refine ⟨fun _ hs => hs.elim, fun _ hs => hs.elim, hrest⟩
    · intro e he
      exact (hspec.before_session he).imp hdrop (hroom _)
    · intro s hs
      exact (hspec.has hs).imp hdrop (hroom _)
    · intro e he
      exact (hspec.after_session he).imp hdrop id

theorem Covered.tick {i : Nat} {stop : Bool} (nowTick : Nat) (mk : Nat → Bool)
    (hrest : Covered (fun _ => False) rest) (hroom : ∀ s, (st.rooms i).Has s → m s) :
    Covered m ((Server.ofOutcome i ((st.rooms i).tick nowTick mk) ++
      if stop then [] else [.startJob i]) ++ rest) := by
  have hspec := (st.rooms i).tick_spec nowTick mk
  generalize (st.rooms i).tick nowTick mk = o at hspec ⊢
  have hhas : ∀ s, o.room.Has s → (st.rooms i).Has s := by
    intro s hs
    rwa [Room.Has, hspec.members] at hs
  rw [List.append_assoc]
  apply Covered.outcome
  · split
    · exact hrest.weaken fun _ => False.elim
    · exact ⟨fun _ hs => hs.elim, hrest⟩
  · intro e he
    rw [hspec.before] at he
    contradiction
  · intro s hs
    exact .inr (hroom s (hhas s hs))
  · intro e he
    right
    rw [Room.Has, hspec.members]
    exact hspec.after.session he

/-- What a thread has to do next is covered again. -/
theorem exec_covered (hcov : Covered m (instr :: rest))
    (hsend : ∀ s transferred, instr = .sendExecute s transferred →
      (st.sessions s).sendSession = true)
    (hroom : ∀ i, instr.room? = some i → ∀ s, (st.rooms i).Has s → m s) :
    Covered (instr.leaves m) ((st.exec c instr).2 ++ rest) := by
  have hrest : Covered (instr.leaves m) rest := hcov.2.weaken (keeps_leaves instr)
  cases instr with
  | dispatch i jobs stop => exact Covered.dispatch hcov.2 (hroom i rfl)
  | tick i stop => exact Covered.tick _ _ hcov.2 (hroom i rfl)
  | startJob i => exact ⟨fun _ hs => hs.elim, hcov.2⟩
  | recv s requests =>
    apply hrest.append
    · intro x hx
      exact (recv_needs hx).1
    · intro x hx s' hs'
      exact hcov.1 s' ((recv_needs hx).2 s' hs')
  | effect e =>
    cases e with
    | insertSendQueue s sendChunk => exact ⟨fun s' hs' => hcov.1 s' hs', hrest⟩
    | closeSession s => exact ⟨fun s' hs' => hcov.1 s' hs', hrest⟩
    | _ => exact hrest
  | sending s pc =>
    apply hrest.append
    · intro x hx
      obtain ⟨pc', hpc', rfl⟩ := List.mem_map.mp hx
      rfl
    · intro x hx s' hs'
      obtain ⟨pc', hpc', rfl⟩ := List.mem_map.mp hx
      exact hcov.1 s' hs'
  | snapshot =>
    simp only [Server.exec, List.append_assoc]
    have hdrops : Covered m (st.userSession.values.map .drop ++ rest) := by
      apply hrest.append
      · intro x hx
        obtain ⟨s, hs, rfl⟩ := List.mem_map.mp hx
        rfl
      · intro x hx s' hs'
        obtain ⟨s, hs, rfl⟩ := List.mem_map.mp hx
        contradiction
    apply hdrops.append
    · intro x hx
      obtain ⟨s, hs, rfl⟩ := List.mem_map.mp hx
      rfl
    · intro x hx s' hs'
      obtain ⟨s, hs, rfl⟩ := List.mem_map.mp hx
      cases hs'
      exact .inl (List.mem_append_left _ (List.mem_map_of_mem hs))
  | sendExecute s transferred =>
    simp only [Server.exec, hsend s transferred rfl, Bool.true_eq_false, if_false]
    split
    · apply hrest.before_drop [_] <;> simp [Instr.room?, Instr.Needs]
    · apply hrest.before_drop [_, _] <;> simp [Instr.room?, Instr.Needs]
  | recvExecute s completion =>
    simp only [Server.exec]
    split
    · exact hrest
    · cases completion with
      | failed => apply hrest.before_drop [_] <;> simp [Instr.room?, Instr.Needs]
      | zero => apply hrest.before_drop [_, _] <;> simp [Instr.room?, Instr.Needs]
      | data requests =>
        apply hrest.before_drop [_] <;> simp [Instr.room?, Instr.Needs]
  | recvStart s caller =>
    have hs := hcov.1 s rfl
    cases haccepted : st.accepted c s <;> cases caller <;>
      simp only [Server.exec, Server.recvStart, haccepted] <;> apply hrest.under hs <;>
      simp [Instr.room?, Instr.Needs]
  | rePop =>
    rcases popSession_cases st with hpop | ⟨s, pool, hpop, _⟩
    · simp only [Server.exec, hpop]
      exact hrest
    · simp only [Server.exec, hpop]
      apply hrest.before_drop [_] <;> simp [Instr.room?, Instr.Needs]
  | acceptPop a =>
    rcases popSession_cases st with hpop | ⟨s, pool, hpop, _⟩
    · simp only [Server.exec, hpop]
      exact ⟨fun _ hs => hs.elim, hrest⟩
    · simp only [Server.exec, hpop]
      apply hrest.before_drop [_] <;> simp [Instr.room?, Instr.Needs]
  | accept a popSession execute =>
    simp only [Server.exec]
    (repeat' split) <;> first
      | exact hrest
      | exact ⟨fun _ hs => hs.elim, hrest⟩
      | (apply hrest.before_drop [_] <;> simp [Instr.room?, Instr.Needs])
  | pushJobByRooms job index =>
    have hs := hcov.1 job.session rfl
    simp only [Server.exec]
    split <;> exact ⟨fun s' hs' => hs' ▸ hs, hrest⟩
  | pushSession s => exact ⟨fun _ hs => hs.elim, fun _ hs => hs.elim, hrest⟩
  | _ =>
    simp only [Server.exec]
    (repeat' split) <;> first
      | exact hrest
      | exact ⟨fun s' hs' => hcov.1 s' hs', hrest⟩
      | exact ⟨fun _ hs => hs.elim, hrest⟩

end
end RoomServer
