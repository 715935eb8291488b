import RoomServer.Journal

/-! The record against the threads: what a thread has to hand over is what its entries
say, in their order. A room's thread makes something new only when it has handed over
everything it made before. -/
namespace RoomServer
open Library Library.Broadcast Library.Threads Library.Transition

/-! ### Where a room's thread comes round -/

def Instr.comesRound : Instr → Bool
  | .startJob _ | .dispatch _ _ _ | .tick _ _ => true
  | _ => false

/-- Nothing is left behind the entry a room's thread comes back to. -/
def Tidy : List Instr → Prop
  | [] => True
  | instr :: rest => (instr.comesRound = true → rest = []) ∧ Tidy rest

section
variable {c : Choice} {st : Server} {instr x : Instr} {i t : Nat} {rest : List Instr}

theorem Tidy.prepend {next : List Instr} (h : Tidy rest)
    (hnext : ∀ x ∈ next, x.comesRound = false) : Tidy (next ++ rest) := by
  induction next with
  | nil => exact h
  | cons x next ih =>
    rw [List.forall_mem_cons] at hnext
    refine ⟨fun hround => ?_, ih hnext.2⟩
    rw [hnext.1] at hround
    contradiction

theorem tidy_of_forall {thread : List Instr} (h : ∀ x ∈ thread, x.comesRound = false) :
    Tidy thread := by
  have hnil : Tidy [] := trivial
  have hthread := hnil.prepend h
  rwa [List.append_nil] at hthread

theorem tidy_singleton (x : Instr) : Tidy [x] := ⟨fun _ => rfl, trivial⟩

theorem ofOutcome_comesRound {o : Outcome} (hx : x ∈ Server.ofOutcome i o) :
    x.comesRound = false := by
  rcases mem_outcome hx with ⟨e, _, rfl⟩ | rfl <;> rfl

theorem next_comesRound (hinstr : instr.comesRound = false) (h : Next c st instr x) :
    x.comesRound = false := by
  cases h <;> first | rfl | contradiction

theorem exec_tidy (h : Tidy (instr :: rest)) : Tidy ((st.exec c instr).2 ++ rest) := by
  by_cases hround : instr.comesRound = true
  · rw [h.1 hround, List.append_nil]
    cases instr with
    | startJob i => exact tidy_singleton _
    | dispatch i jobs stop =>
      cases jobs with
      | nil => exact tidy_singleton _
      | cons job jobs =>
        apply Tidy.prepend _ fun x => ofOutcome_comesRound
        exact (tidy_singleton _).prepend (List.forall_mem_singleton.mpr rfl)
    | tick i stop =>
      apply Tidy.prepend _ fun x => ofOutcome_comesRound
      cases stop with
      | true => trivial
      | false => exact tidy_singleton _
    | _ => contradiction
  · apply h.2.prepend
    intro x hx
    exact next_comesRound (Bool.eq_false_iff.mpr hround) (exec_next hx)

theorem tidy_step {act : ServerAct} {st' : Server} (hinv : ∀ thread ∈ st.threads, Tidy thread)
    (h : serverStep st act = some st') : ∀ thread ∈ st'.threads, Tidy thread := by
  cases steps_of_step h with
  | @advance t instr rest c hthread =>
    obtain ⟨released, hthreads, hreleased⟩ := advance_threads st t c instr rest
    rw [hthreads]
    intro thread hmem
    rcases List.mem_or_eq_of_mem_set hmem with hmem | rfl
    · exact hinv thread hmem
    · rw [List.append_assoc]
      apply (exec_tidy (hinv _ (List.mem_of_getElem? hthread))).prepend
      intro x hx
      obtain ⟨s, rfl⟩ := hreleased x hx
      rfl
  | @spawn act posted thread' hposted hthread =>
    intro thread hmem
    rcases List.mem_append.mp hmem with hmem | hmem
    · exact hinv thread hmem
    · cases List.mem_singleton.mp hmem
      apply tidy_of_forall
      intro x hx
      have hroom := ((hthread x hx).idle 0).2.2.2.1
      cases x <;> first | rfl | contradiction

theorem tidy_start (roomCount poolSize acceptCount : Nat) :
    ∀ thread ∈ (Server.start roomCount poolSize acceptCount).threads, Tidy thread := by
  intro thread hmem
  rcases List.mem_append.mp hmem with hmem | hmem
  · obtain ⟨i, _, rfl⟩ := List.mem_map.mp hmem
    exact tidy_singleton _
  · cases List.mem_singleton.mp hmem
    apply tidy_of_forall
    intro x hx
    obtain ⟨a, _, rfl⟩ := List.mem_map.mp hx
    rfl

theorem tidy_reaches {ok : Server → ServerAct → Prop} {roomCount poolSize acceptCount : Nat}
    (h : Reaches serverStep ok (.start roomCount poolSize acceptCount) st) :
    ∀ thread ∈ st.threads, Tidy thread :=
  h.invariant (tidy_start roomCount poolSize acceptCount) fun _ _ _ _ hinv _ hstep =>
    tidy_step hinv hstep

/-! ### What the entries hand over -/

def Handing.content (h : Handing) : Nat × ServerPacket ℚ := (h.session, h.packet)

theorem handing_outcome (i : Nat) (o : Outcome) :
    (Server.ofOutcome i o).filterMap Instr.handing = o.effects.filterMap Effect.sent := by
  simp [Server.ofOutcome, Outcome.effects, List.filterMap_map, List.filterMap_cons,
    Function.comp_def, Instr.handing]

theorem sent_sends (sessions : List Nat) (packet : ServerPacket ℚ) :
    (sessions.map fun s => Effect.insertSendQueue s packet).filterMap Effect.sent =
      sessions.map fun s => (s, packet) := by
  rw [List.filterMap_map, ← List.filterMap_eq_map]
  rfl

theorem next_ne_insert {pc pc' : SendPc γ} {send : SendState γ} {accepted : Bool}
    (h : pc' ∈ (pc.next send accepted).2) (chunk : γ) : pc' ≠ .insertSendQueue chunk := by
  rintro rfl
  cases pc <;> simp [SendPc.next] at h

theorem exec_handing (hmade : ∀ n, c.made n = true) (made : Nat → Nat) :
    (st.exec c instr).2.filterMap Instr.handing =
      (st.hands c made instr).map Handing.content ++
        if instr.inserts then [] else instr.handing.toList := by
  have hnone : st.hands c made instr = [] →
      (if instr.inserts then [] else instr.handing.toList) = [] →
      (∀ x, Next c st instr x → x.handing = none) →
      (st.exec c instr).2.filterMap Instr.handing =
        (st.hands c made instr).map Handing.content ++
          if instr.inserts then [] else instr.handing.toList := by
    intro hhands hinstr hnext
    rw [hhands, hinstr, filterMap_none fun x hx => hnext x (exec_next hx)]
    rfl
  cases instr with
  | dispatch i jobs stop =>
    cases jobs with
    | nil => rfl
    | cons job jobs =>
      simp only [Server.exec, Server.dispatch, Server.hands, List.filterMap_append,
        handing_outcome, List.map_map]
      simp [Function.comp_def, Handing.content, Instr.handing, Instr.inserts]
  | tick i stop =>
    have hbatches : ∀ (batches : List (Server_Move_Ack ℚ)) (n : Nat),
        (batches.flatMap fun batch => (st.rooms i).sessions.map fun s =>
          Effect.insertSendQueue s (.move batch)).filterMap Effect.sent =
        ((batches.zipIdx n).flatMap fun batch => (st.rooms i).sessions.map fun s =>
          (⟨s, .move batch.1, some (i, batch.2)⟩ : Handing)).map Handing.content := by
      intro batches
      induction batches with
      | nil => exact fun _ => rfl
      | cons batch batches ih =>
        intro n
        rw [List.zipIdx_cons, List.flatMap_cons, List.flatMap_cons, List.filterMap_append,
          List.map_append, ih (n + 1), sent_sends, List.map_map]
        rfl
    have hstart : (if stop then [] else [Instr.startJob i]).filterMap Instr.handing = [] := by
      cases stop <;> rfl
    simp only [Server.exec, Server.hands, List.filterMap_append, handing_outcome, hstart,
      Room.tick_effects hmade, hbatches _ (made i), List.append_nil]
    exact (List.append_nil _).symm
  | recv s requests =>
    simp only [Server.exec, Server.hands, List.map_map]
    simp [Function.comp_def, Handing.content, Instr.handing, Instr.inserts]
  | effect e =>
    cases e with
    | insertSendQueue s packet => rfl
    | _ =>
      apply hnone rfl rfl
      intro x hx
      cases hx <;> rfl
  | sending s pc =>
    apply hnone rfl
    · cases pc <;> rfl
    · intro x hx
      cases hx with
      | @sending s pc pc' hpc' =>
        have hsection := next_ne_insert hpc'
        cases pc' with
        | insertSendQueue chunk => exact absurd rfl (hsection chunk)
        | _ => rfl
  | _ =>
    apply hnone rfl rfl
    intro x hx
    cases hx <;> rfl

/-! ### What the record says of them -/

/-- The record has what the entries of each thread say, and only a room's own thread has
packets of the room. -/
structure HandInv (j : Journal) : Prop where
  sync : ∀ t, (j.server.threads[t]?.getD []).filterMap Instr.handing =
    (j.pending t).map Handing.content
  placed : ∀ t, ∀ h ∈ j.pending t, ∀ i n, h.label = some (i, n) → i = t

theorem hands_room {made : Nat → Nat} {h : Handing} (hmem : h ∈ st.hands c made instr) {n : Nat}
    (hlabel : h.label = some (i, n)) : instr.room? = some i := by
  cases instr with
  | dispatch i' jobs stop =>
    cases jobs with
    | nil => contradiction
    | cons job jobs =>
      obtain ⟨r, _, rfl⟩ := List.mem_map.mp hmem
      simp only [Option.ite_none_left_eq_some, Option.some.injEq, Prod.mk.injEq] at hlabel
      rw [← hlabel.2.1]
      rfl
  | tick i' stop =>
    obtain ⟨batch, _, hbatch⟩ := List.mem_flatMap.mp hmem
    obtain ⟨s, _, rfl⟩ := List.mem_map.mp hbatch
    cases hlabel
    rfl
  | recv s requests =>
    obtain ⟨r, _, rfl⟩ := List.mem_map.mp hmem
    contradiction
  | _ => contradiction

theorem Spawned.handing (h : Spawned st x) : x.handing = none := by
  cases h with
  | @handler op _ completion => cases op <;> cases completion <;> rfl
  | _ => rfl

theorem mem_pending {j : Journal} {h : Handing} (hmem : h ∈ (j.record t c instr).pending t) :
    h ∈ j.server.hands c (fun i => (j.produced i).length) instr ∨ h ∈ j.pending t := by
  rw [Journal.record_self] at hmem
  rcases List.mem_append.mp hmem with hmem | hmem
  · exact .inl hmem
  · right
    split at hmem
    · exact List.mem_of_mem_tail hmem
    · exact hmem

theorem record_sync {j : Journal} (hinv : HandInv j) (hmade : ∀ n, c.made n = true)
    (h : j.server.threads[t]? = some (instr :: rest)) :
    (j.server.exec c instr).2.filterMap Instr.handing ++ rest.filterMap Instr.handing =
      ((j.record t c instr).pending t).map Handing.content := by
  have hsync := hinv.sync t
  rw [h, Option.getD_some, List.filterMap_cons] at hsync
  rw [exec_handing hmade fun i => (j.produced i).length, Journal.record_self, List.map_append,
    List.append_assoc]
  congr 1
  cases instr with
  | sending s pc =>
    cases pc with
    | insertSendQueue chunk =>
      simp only [Instr.handing, Instr.inserts, if_true, List.nil_append] at hsync ⊢
      rw [List.map_tail, ← hsync, List.tail_cons]
    | _ => exact hsync
  | effect e =>
    cases e with
    | insertSendQueue s packet => exact hsync
    | _ => exact hsync
  | _ => exact hsync

theorem handInv_step {j j' : Journal} {act : ServerAct} (hserver : ServerInv j.server)
    (hinv : HandInv j) (hmade : act.AllMade) (h : JournalMove j act j') : HandInv j' := by
  cases h with
  | @advance t c instr rest hthread =>
    obtain ⟨released, hthreads, hreleased⟩ := advance_threads j.server t c instr rest
    obtain ⟨ht, _⟩ := List.getElem?_eq_some_iff.mp hthread
    have hfree : released.filterMap Instr.handing = [] := by
      apply filterMap_none
      intro x hx
      obtain ⟨s, rfl⟩ := hreleased x hx
      rfl
    constructor
    · intro u
      change ((j.server.advance t c instr rest).threads[u]?.getD []).filterMap Instr.handing =
        ((j.record t c instr).pending u).map Handing.content
      rw [hthreads]
      by_cases hu : u = t
      · subst hu
        rw [List.getElem?_set_self ht, Option.getD_some, List.filterMap_append,
          List.filterMap_append, hfree, List.nil_append]
        exact record_sync hinv hmade hthread
      · rw [List.getElem?_set_ne (Ne.symm hu), Journal.record_other hu]
        exact hinv.sync u
    · intro u h hmem i n hlabel
      change h ∈ (j.record t c instr).pending u at hmem
      by_cases hu : u = t
      · subst hu
        rcases mem_pending hmem with hmem | hmem
        · have hroom := hands_room hmem hlabel
          exact (hserver.home u _ hthread instr List.mem_cons_self i hroom).1
        · exact hinv.placed u h hmem i n hlabel
      · rw [Journal.record_other hu] at hmem
        exact hinv.placed u h hmem i n hlabel
  | @spawn act posted thread hposted hthread =>
    refine ⟨?_, hinv.placed⟩
    intro u
    have hsync := hinv.sync u
    rw [← hsync]
    dsimp only
    rw [List.getElem?_append]
    split
    · rfl
    · rename_i hlen
      rw [List.getElem?_eq_none (Nat.le_of_not_lt hlen)]
      rcases u - j.server.threads.length with _ | m
      · exact filterMap_none fun x hx => (hthread x hx).handing
      · rfl

theorem handInv_start (roomCount poolSize acceptCount : Nat) :
    HandInv (.start roomCount poolSize acceptCount) := by
  refine ⟨?_, nofun⟩
  intro t
  apply filterMap_none
  intro x hx
  rcases start_entry (entry_of_getD hx) with ⟨i, rfl⟩ | ⟨a, rfl⟩ <;> rfl

theorem handInv_reaches {roomCount poolSize acceptCount : Nat} {j : Journal}
    (h : Reaches journalStep undisturbed (.start roomCount poolSize acceptCount) j) :
    HandInv j := by
  apply h.invariant (handInv_start roomCount poolSize acceptCount)
  intro j act j' hr hinv hok hstep
  exact handInv_step (serverInv_reaches (server_reaches hr)) hinv hok.1
    (journalMove_of_step hstep)

theorem head_pending {j : Journal} (hinv : HandInv j) {s : Nat} {chunk : Chunk}
    (h : j.server.threads[t]? = some (.sending s (.insertSendQueue chunk) :: rest)) :
    ∃ head tail, j.pending t = head :: tail ∧ head.session = s ∧ head.packet = chunk.packet := by
  have hsync := hinv.sync t
  rw [h, Option.getD_some, List.filterMap_cons] at hsync
  simp only [Instr.handing] at hsync
  obtain ⟨head, tail, hpending, hhead, _⟩ := List.map_eq_cons_iff.mp hsync.symm
  exact ⟨head, tail, hpending, congrArg Prod.fst hhead, congrArg Prod.snd hhead⟩

theorem pending_nil {j : Journal} (hinv : HandInv j)
    (htidy : ∀ thread ∈ j.server.threads, Tidy thread)
    (h : j.server.threads[t]? = some (instr :: rest)) (hround : instr.comesRound = true) :
    rest = [] ∧ j.pending t = [] := by
  have hrest := (htidy _ (List.mem_of_getElem? h)).1 hround
  have hsync := hinv.sync t
  rw [h, hrest, Option.getD_some] at hsync
  refine ⟨hrest, List.map_eq_nil_iff.mp (hsync.symm.trans ?_)⟩
  cases instr <;> first | rfl | contradiction

end
end RoomServer
