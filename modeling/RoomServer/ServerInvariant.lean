import RoomServer.ServerAdvance

/-! The facts of the invariant after one step of a thread, the other steps, and
every run. -/
namespace RoomServer
open Library Library.Threads Library.Transition

section
variable {c : Choice} {st : Server} {instr x : Instr} {a s t : Nat} {rest thread : List Instr}

/-! ### What a step of a thread leaves of the facts -/

/-- Only the AcceptObject that has a held session moves its phase. -/
theorem phase_stays_held (hinv : ServerInv st) (hentry : Entry st.threads instr)
    (hholds : Holds st s) (hother : ∀ a, 0 < instr.slot a → st.accepting a ≠ some s) :
    (st.exec c instr).1.phase s = st.phase s := by
  have hfact := hinv.facts instr hentry
  have hstep := exec_phase c st instr s
  generalize (st.exec c instr).1.phase s = phase at hstep
  cases hstep with
  | same => rfl
  | pushSession => exact absurd hholds (free_of_entry hinv hentry (by simp [Instr.returning]))
  | popped hpops => exact absurd hholds (free_of_pops hinv hpops)
  | @error a haccepting => exact absurd haccepting (hother a (by simp [Instr.slot]))
  | acceptInsert a => exact absurd hfact.1 (hother a (by simp [Instr.slot]))

theorem phase_stays (hinv : ServerInv st) (hentry : Entry st.threads instr)
    (hslot : instr.slot a = 0) (haccepting : st.accepting a = some s) :
    (st.exec c instr).1.phase s = st.phase s := by
  apply phase_stays_held hinv hentry (accepting_holds haccepting)
  intro a' hpos haccepting'
  have hne : a ≠ a' := by
    rintro rfl
    omega
  have htwice := accepting_twice haccepting haccepting' hne
  have hgivens := hinv.givens s
  omega

theorem phase_stays_given (hinv : ServerInv st) (hentry : Entry st.threads instr)
    (hreTake : Beside st.threads instr (.reTake s)) :
    (st.exec c instr).1.phase s = st.phase s := by
  apply phase_stays_held hinv hentry (needs_holds hinv hreTake.entry rfl)
  intro a _ haccepting
  have hcount := List.count_pos_iff.mpr (List.mem_of_getElem? (accepting_mem haccepting))
  have hle := le_weigh (Instr.given s) hreTake.entry
  simp only [Instr.given, if_true] at hle
  have hgivens := hinv.givens s
  omega

theorem recvSession_stays (h : (st.sessions s).recvSession = true) (hzero : instr.receive s = 0) :
    ((st.exec c instr).1.sessions s).recvSession = true := by
  have hstep := exec_session c st instr s
  generalize (st.exec c instr).1.sessions s = session at hstep
  cases hstep with
  | recvStart caller => simp [Instr.receive] at hzero
  | acceptRecvStart a => simp [Instr.receive] at hzero
  | recvFailed => simp [Instr.receive] at hzero
  | releaseSession => simp [Instr.receive] at hzero
  | _ => exact h

theorem sendSession_stays (h : (st.sessions s).sendSession = true) (hzero : instr.token s = 0) :
    ((st.exec c instr).1.sessions s).sendSession = true := by
  have hstep := exec_session c st instr s
  generalize (st.exec c instr).1.sessions s = session at hstep
  cases hstep with
  | sending pc =>
    cases pc with
    | insertSendQueue sendChunk => exact h
    | _ => simp [Instr.token, SendPc.token] at hzero
  | _ => exact h

theorem slot_stays (c : Choice) (instr : Instr) (a : Nat) (hinv : ServerInv st) {n : Nat} (hn : 0 < n)
    (hle : n + instr.slot a ≤
      total (Posted.slot a) st.posted + weigh (Instr.slot a) st.threads) :
    instr.slot a = 0 ∧ (st.exec c instr).1.accepting a = st.accepting a := by
  have hslots := hinv.slots a
  have hone : (if a < st.acceptObjects.length then 1 else 0) ≤ 1 := by split <;> omega
  have hslot : instr.slot a = 0 := by omega
  have hqueue : a ∉ st.waitQueue := List.count_eq_zero.mp (by omega)
  exact ⟨hslot, exec_accepting hslot hqueue⟩

theorem place_stays (hinv : ServerInv st) (hentry : Entry st.threads instr) {phase : Phase}
    (hstays : instr.slot a = 0 ∧ (st.exec c instr).1.accepting a = st.accepting a)
    (h : st.accepting a = some s ∧ st.phase s = phase) :
    (st.exec c instr).1.accepting a = some s ∧ (st.exec c instr).1.phase s = phase := by
  rw [hstays.2, phase_stays hinv hentry hstays.1 h.1]
  exact h

theorem fact_stays (hinv : ServerInv st) (hentry : Entry st.threads instr)
    (hbeside : Beside st.threads instr x) (hfact : x.Fact st) : x.Fact (st.exec c instr).1 := by
  have hslot : ∀ a, 0 < x.slot a →
      instr.slot a = 0 ∧ (st.exec c instr).1.accepting a = st.accepting a := by
    intro a hpos
    have hle := hbeside.weight (Instr.slot a)
    exact slot_stays c instr a hinv hpos (by omega)
  have hfresh : ∀ a, 0 < x.slot a → (∀ s, st.accepting a = some s → st.phase s = .fresh) →
      ∀ s, (st.exec c instr).1.accepting a = some s → (st.exec c instr).1.phase s = .fresh := by
    intro a hpos hfresh s haccepting
    have hstays := hslot a hpos
    rw [hstays.2] at haccepting
    exact (place_stays hinv hentry hstays ⟨haccepting, hfresh s haccepting⟩).2
  cases x with
  | accept a popSession execute =>
    cases popSession with
    | true => trivial
    | false => exact hfresh a (by simp [Instr.slot]) hfact
  | error a => exact hfresh a (by simp [Instr.slot]) hfact
  | acceptExecute a => exact hfresh a (by simp [Instr.slot]) hfact
  | makeSocket a s => exact place_stays hinv hentry (hslot a (by simp [Instr.slot])) hfact
  | acceptEx a s => exact place_stays hinv hentry (hslot a (by simp [Instr.slot])) hfact
  | acceptInsert a s => exact place_stays hinv hentry (hslot a (by simp [Instr.slot])) hfact
  | acceptRecvStart a s => exact place_stays hinv hentry (hslot a (by simp [Instr.slot])) hfact
  | reTake s => exact (phase_stays_given hinv hentry hbeside).trans hfact
  | recvExecute s completion =>
    apply recvSession_stays hfact
    have hle := hbeside.weight (Instr.receive s)
    have hreceives := hinv.receives s
    simp only [Instr.receive, if_true] at hle ⊢
    omega
  | sendExecute s transferred =>
    apply sendSession_stays hfact
    have hle := hbeside.weight (Instr.token s)
    have htokens := hinv.tokens s
    have hflag := Bool.toNat_lt (st.sessions s).send.sendFlag
    simp only [Instr.token, if_true] at hle ⊢
    omega
  | _ => trivial

theorem posted_stays (hinv : ServerInv st) (hentry : Entry st.threads instr) {op : Posted}
    (hop : op ∈ st.posted) : op.Fact (st.exec c instr).1 := by
  have hfact := hinv.posted op hop
  cases op with
  | accept a s =>
    have hle := le_total (Posted.slot a) hop
    have hle' := le_weigh (Instr.slot a) hentry
    have hstays := slot_stays c instr a hinv Nat.one_pos (by
      simp only [Posted.slot, if_true] at hle
      omega)
    exact place_stays hinv hentry hstays hfact
  | recv s =>
    apply recvSession_stays hfact
    have hle := le_total (Posted.receive s) hop
    have hle' := le_weigh (Instr.receive s) hentry
    have hreceives := hinv.receives s
    simp only [Posted.receive, if_true] at hle
    omega
  | send s =>
    apply sendSession_stays hfact
    have hle := le_total (Posted.token s) hop
    have hle' := le_weigh (Instr.token s) hentry
    have htokens := hinv.tokens s
    have hflag := Bool.toNat_lt (st.sessions s).send.sendFlag
    simp only [Posted.token, if_true] at hle
    omega

theorem slot_lt (hinv : ServerInv st) {n : Nat} (hn : 0 < n)
    (hle : n ≤ st.waitQueue.count a + weigh (Instr.slot a) st.threads) :
    a < st.acceptObjects.length := by
  have hslots := hinv.slots a
  split at hslots <;> omega

theorem setAccept_self (h : a < st.acceptObjects.length) (session : Option Nat) :
    (st.setAccept a session).accepting a = session := by
  simp [Server.accepting, Server.setAccept, h]

/-- What comes next may rely on its facts. -/
theorem next_facts (hinv : ServerInv st) (hentry : Entry st.threads instr)
    (h : Next c st instr x) : x.Fact (st.exec c instr).1 := by
  have hfact := hinv.facts instr hentry
  have hlt : ∀ a, 0 < instr.slot a → a < st.acceptObjects.length := by
    intro a hpos
    have hle := le_weigh (Instr.slot a) hentry
    exact slot_lt hinv hpos (by omega)
  cases h with
  | reTake hpops => exact pops_phase hpops
  | @reAccept s a waitQueue hqueue =>
    have ha := slot_lt hinv (a := a) Nat.one_pos (by rw [hqueue, List.count_cons_self]; omega)
    intro s' haccepting
    simp only [Server.exec, hqueue] at haccepting ⊢
    cases Option.some.inj ((setAccept_self ha (some s)).symm.trans haccepting)
    exact hfact
  | acceptStopped a popSession execute hstop =>
    intro s haccepting
    simp only [Server.exec, hstop, if_true] at haccepting
    cases (setAccept_self (hlt a (by simp [Instr.slot])) none).symm.trans haccepting
  | acceptGiven execute hrun haccepting =>
    simp only [Server.exec, hrun, haccepting, Bool.false_eq_true, if_false]
    exact ⟨haccepting, hfact _ haccepting⟩
  | @popMakeSocket a s hpops =>
    obtain ⟨_, pool, hpop, _⟩ := pops_cases hpops
    refine ⟨?_, pops_phase hpops⟩
    simp only [Server.exec, hpop]
    exact setAccept_self (hlt a (by simp [Instr.slot])) (some s)
  | acceptEx a s => exact hfact
  | acceptInsert haccepting =>
    simp only [Server.exec, haccepting]
    exact ⟨haccepting, hfact _ haccepting⟩
  | executeError a =>
    simp only [Server.exec]
    split <;> exact hfact
  | acceptRecvStart a s => exact ⟨hfact.1, Function.update_self ..⟩
  | _ => trivial

theorem posts_fact (hfact : instr.Fact st) {op : Posted} (h : Posts c st instr op) :
    op.Fact (st.exec c instr).1 := by
  cases h with
  | acceptEx a s => exact hfact
  | recvStart caller haccepted =>
    simp [Posted.Fact, Server.exec, Server.recvStart, Server.setSession, haccepted]
  | acceptRecvStart a haccepted =>
    simp [Posted.Fact, Server.exec, Server.recvStart, Server.setSession, haccepted]
  | send haccepted =>
    simp [Posted.Fact, Server.exec, Server.sending, Server.setSession, SendPc.keeps]

theorem fact_advance (st : Server) (t : Nat) (c : Choice) (instr : Instr) (rest : List Instr) :
    x.Fact (st.advance t c instr rest) = x.Fact (st.exec c instr).1 := rfl

theorem posted_advance (st : Server) (t : Nat) (c : Choice) (instr : Instr) (rest : List Instr)
    (op : Posted) : op.Fact (st.advance t c instr rest) = op.Fact (st.exec c instr).1 := rfl

theorem serverInv_advance (hinv : ServerInv st) (h : st.threads[t]? = some (instr :: rest)) :
    ServerInv (st.advance t c instr rest) where
  slots := advance_slots hinv h
  receives := advance_receives hinv h
  tokens := advance_tokens hinv h
  givens := advance_givens hinv h
  returns := advance_returns hinv h
  home u _ hu := advance_home hinv h u hu
  covered u _ hu := advance_covered hinv h u hu
  facts := by
    intro x hx
    have hentry := entry_head h
    rw [fact_advance]
    rcases advance_entry h hx with ⟨s, rfl⟩ | hx | hx
    · trivial
    · exact next_facts hinv hentry (exec_next hx)
    · exact fact_stays hinv hentry hx (hinv.facts x hx.entry)
  posted := by
    intro op hop
    have hentry := entry_head h
    rw [posted_advance]
    rcases exec_posted hop with hop | hop
    · exact posted_stays hinv hentry hop
    · exact posts_fact (hinv.facts instr hentry) hop

/-! ### The other steps, and runs -/

theorem Spawned.idle (h : Spawned st x) (s : Nat) :
    x.given s = 0 ∧ x.returning s = 0 ∧ x.refs s = 0 ∧ x.room? = none ∧ ¬ x.Needs s := by
  cases h with
  | @handler op _ completion =>
    cases op <;> cases completion <;> exact ⟨rfl, rfl, rfl, rfl, id⟩
  | _ => exact ⟨rfl, rfl, rfl, rfl, id⟩

theorem Spawned.fact (hinv : ServerInv st) (h : Spawned st x) : x.Fact st := by
  cases h with
  | @handler op hop completion =>
    have hfact := hinv.posted op hop
    cases op with
    | accept a s =>
      have hfresh : ∀ s', st.accepting a = some s' → st.phase s' = .fresh := by
        intro s' haccepting
        cases hfact.1.symm.trans haccepting
        exact hfact.2
      cases completion <;> exact hfresh
    | recv s => exact hfact
    | send s => cases completion <;> exact hfact
  | _ => trivial

theorem serverInv_spawn (hinv : ServerInv st) {posted : List Posted}
    (hposted : ∀ op ∈ posted, op ∈ st.posted) (hthread : ∀ x ∈ thread, Spawned st x)
    (hslot : ∀ a, total (Posted.slot a) posted + total (Instr.slot a) thread ≤
      total (Posted.slot a) st.posted)
    (hreceive : ∀ s, total (Posted.receive s) posted + total (Instr.receive s) thread ≤
      total (Posted.receive s) st.posted)
    (htoken : ∀ s, total (Posted.token s) posted + total (Instr.token s) thread ≤
      total (Posted.token s) st.posted) :
    ServerInv { st with posted := posted, threads := st.threads ++ [thread] } := by
  have hgiven : ∀ s, total (Instr.given s) thread = 0 := fun s =>
    total_of_forall _ fun x hx => ((hthread x hx).idle s).1
  have hreturning : ∀ s, total (Instr.returning s) thread = 0 := fun s =>
    total_of_forall _ fun x hx => ((hthread x hx).idle s).2.1
  have hrefs : ∀ s, total (Instr.refs s) thread = 0 := fun s =>
    total_of_forall _ fun x hx => ((hthread x hx).idle s).2.2.1
  have hroom : ∀ x ∈ thread, x.room? = none := fun x hx => ((hthread x hx).idle 0).2.2.2.1
  have huse : ∀ s, ({ st with posted := posted, threads := st.threads ++ [thread] } :
      Server).useCount s = st.useCount s := by
    intro s
    simp [Server.useCount, hrefs]
  have hnew : ∀ (u : Nat) (thread' : List Instr), (st.threads ++ [thread])[u]? = some thread' →
      st.threads[u]? = some thread' ∨ thread' = thread := by
    intro u thread' hu
    rw [List.getElem?_append] at hu
    split at hu
    · exact .inl hu
    · exact .inr (List.mem_singleton.mp (List.mem_of_getElem? hu))
  constructor
  · intro a
    have hslots := hinv.slots a
    have hle := hslot a
    simp only [weigh_append, weigh_cons, weigh_nil] at hslots ⊢
    split at hslots
    · rename_i ha
      rw [if_pos ha]
      omega
    · rename_i ha
      rw [if_neg ha]
      omega
  · intro s
    have hreceives := hinv.receives s
    have hle := hreceive s
    simp only [weigh_append, weigh_cons, weigh_nil]
    omega
  · intro s
    have htokens := hinv.tokens s
    have hle := htoken s
    simp only [weigh_append, weigh_cons, weigh_nil]
    omega
  · intro s
    simpa [hgiven] using hinv.givens s
  · intro s
    simp only [huse]
    simpa [hreturning] using hinv.returns s
  · intro u thread' hu x hx i hi
    rcases hnew u thread' hu with hu | rfl
    · exact hinv.home u thread' hu x hx i hi
    · rw [hroom x hx] at hi
      contradiction
  · intro u thread' hu
    rcases hnew u thread' hu with hu | rfl
    · exact hinv.covered u thread' hu
    · have hnil : Covered (st.roomHas u) [] := trivial
      rw [← List.append_nil thread']
      apply hnil.append hroom
      intro x hx s hs
      exact absurd hs ((hthread x hx).idle s).2.2.2.2
  · rintro x ⟨thread', hthread', hx⟩
    rcases List.mem_append.mp hthread' with hthread' | hthread'
    · exact hinv.facts x ⟨thread', hthread', hx⟩
    · cases List.mem_singleton.mp hthread'
      have hfact : x.Fact st := (hthread x hx).fact hinv
      exact hfact
  · intro op hop
    exact hinv.posted op (hposted op hop)

theorem serverInv_complete (hinv : ServerInv st) {k : Nat} {op : Posted}
    (h : st.posted[k]? = some op) (completion : Completion) :
    ServerInv { st with
      posted := st.posted.eraseIdx k
      threads := st.threads ++ [[op.handler completion]] } := by
  apply serverInv_spawn hinv
  · intro op' hop'
    exact List.mem_of_mem_eraseIdx hop'
  · intro x hx
    cases List.mem_singleton.mp hx
    exact .handler (List.mem_of_getElem? h) completion
  · intro a
    have herase := total_eraseIdx (Posted.slot a) h
    cases op <;> cases completion <;>
      simp [Posted.handler, Instr.slot, Posted.slot] at herase ⊢ <;> omega
  · intro s
    have herase := total_eraseIdx (Posted.receive s) h
    cases op <;> cases completion <;>
      simp [Posted.handler, Instr.receive, Posted.receive] at herase ⊢ <;> omega
  · intro s
    have herase := total_eraseIdx (Posted.token s) h
    cases op <;> cases completion <;>
      simp [Posted.handler, Instr.token, Posted.token] at herase ⊢ <;> omega

theorem serverInv_shutdown (hinv : ServerInv st) :
    ServerInv { st with
      threads := st.threads ++
        [.listenShutdown :: .clearWaitQueue :: .roomsJoin ::
          ((List.range st.roomCount).map .stopRoom ++ [.snapshot])] } := by
  have hzero : ∀ weight : Instr → Nat, weight .listenShutdown = 0 → weight .clearWaitQueue = 0 →
      weight .roomsJoin = 0 → (∀ i, weight (.stopRoom i) = 0) → weight .snapshot = 0 →
      total weight (.listenShutdown :: .clearWaitQueue :: .roomsJoin ::
          ((List.range st.roomCount).map .stopRoom ++ [.snapshot])) = 0 := by
    intro weight hlisten hclear hjoin hstop hsnapshot
    simp [hlisten, hclear, hjoin, hsnapshot, total_map_zero weight _ _ hstop]
  apply serverInv_spawn hinv (fun _ => id) (fun _ => shutdown_spawned)
  · intro a
    rw [hzero _ rfl rfl rfl (fun _ => rfl) rfl, Nat.add_zero]
  · intro s
    rw [hzero _ rfl rfl rfl (fun _ => rfl) rfl, Nat.add_zero]
  · intro s
    rw [hzero _ rfl rfl rfl (fun _ => rfl) rfl, Nat.add_zero]

theorem serverInv_step {act : ServerAct} {st' : Server} (hinv : ServerInv st)
    (h : serverStep st act = some st') : ServerInv st' := by
  cases act with
  | advance t c =>
    simp only [serverStep] at h
    split at h
    · rename_i instr rest hthread
      cases h
      exact serverInv_advance hinv hthread
    · contradiction
  | complete k completion =>
    obtain ⟨op, hop, rfl⟩ := Option.map_eq_some_iff.mp h
    exact serverInv_complete hinv hop completion
  | shutdown =>
    cases h
    exact serverInv_shutdown hinv

theorem start_thread {roomCount poolSize acceptCount t : Nat}
    (h : (Server.start roomCount poolSize acceptCount).threads[t]? = some thread) :
    t < roomCount ∧ thread = [.startJob t] ∨
      thread = (List.range acceptCount).map fun a => .accept a true false := by
  simp only [Server.start, List.getElem?_append, List.length_map, List.length_range] at h
  split at h
  case isTrue ht =>
    left
    simp only [List.getElem?_map, List.getElem?_range ht, Option.map_some] at h
    exact ⟨ht, (Option.some.inj h).symm⟩
  case isFalse => exact .inr (List.mem_singleton.mp (List.mem_of_getElem? h))

theorem start_entry {roomCount poolSize acceptCount : Nat}
    (h : Entry (Server.start roomCount poolSize acceptCount).threads x) :
    (∃ i, x = .startJob i) ∨ ∃ a, x = .accept a true false := by
  obtain ⟨thread, hthread, hx⟩ := h
  obtain ⟨t, ht⟩ := List.mem_iff_getElem?.mp hthread
  rcases start_thread ht with ⟨_, rfl⟩ | rfl
  · exact .inl ⟨t, List.mem_singleton.mp hx⟩
  · obtain ⟨a, _, rfl⟩ := List.mem_map.mp hx
    exact .inr ⟨a, rfl⟩

theorem start_free {roomCount poolSize acceptCount : Nat} :
    ¬ Holds (.start roomCount poolSize acceptCount) s := by
  intro h
  cases h with
  | recv h => contradiction
  | send h => contradiction
  | accept h => simp [Server.start] at h
  | user h => contradiction
  | member hi h =>
    obtain ⟨socket, h⟩ := h
    contradiction
  | job hi h => contradiction
  | entry h hx =>
    rcases start_entry h with ⟨i, rfl⟩ | ⟨a, rfl⟩ <;> contradiction

theorem serverInv_start (roomCount poolSize acceptCount : Nat) :
    ServerInv (.start roomCount poolSize acceptCount) := by
  have hzero : ∀ weight : Instr → Nat, (∀ i, weight (.startJob i) = 0) →
      (∀ a, weight (.accept a true false) = 0) →
      weigh weight (Server.start roomCount poolSize acceptCount).threads = 0 := by
    intro weight hstart haccept
    apply weigh_zero
    intro x hx hpos
    rcases start_entry hx with ⟨i, rfl⟩ | ⟨a, rfl⟩
    · exact Nat.ne_of_gt hpos (hstart i)
    · exact Nat.ne_of_gt hpos (haccept a)
  constructor
  · intro a
    have hslot : ∀ xs : List Nat, total (Instr.slot a) (xs.map fun a => .accept a true false) =
        xs.count a := by
      intro xs
      induction xs with
      | nil => rfl
      | cons x xs ih =>
        rw [List.map_cons, total_cons, ih, List.count_cons, Instr.slot, Nat.add_comm]
        simp
    have hrooms : weigh (Instr.slot a) ((List.range roomCount).map fun i => [.startJob i]) = 0 := by
      exact total_map_zero (total (Instr.slot a)) _ _ fun _ => rfl
    simp [Server.start, hslot, hrooms, List.count_range]
  · intro s
    rw [hzero _ (fun _ => rfl) (fun _ => rfl)]
    exact Nat.zero_le 1
  · intro s
    rw [hzero _ (fun _ => rfl) (fun _ => rfl)]
    exact Nat.zero_le _
  · intro s
    rw [hzero _ (fun _ => rfl) (fun _ => rfl)]
    simp [Server.start, List.count_replicate]
  · intro s
    rw [hzero _ (fun _ => rfl) (fun _ => rfl)]
    rw [if_neg fun hpos => start_free (Holds.iff.mp hpos)]
    simp only [Server.start, ObjectPool.init, List.count_reverse, List.count_range]
    split <;> omega
  · intro t thread h x hx i hi
    rcases start_thread h with ⟨ht, rfl⟩ | rfl
    · cases List.mem_singleton.mp hx
      cases hi
      exact ⟨rfl, ht⟩
    · obtain ⟨a, _, rfl⟩ := List.mem_map.mp hx
      contradiction
  · intro t thread h
    rcases start_thread h with ⟨ht, rfl⟩ | rfl
    · exact ⟨fun _ => False.elim, trivial⟩
    · have hnil : Covered ((Server.start roomCount poolSize acceptCount).roomHas t) [] := trivial
      rw [← List.append_nil (List.map _ _)]
      apply hnil.append
      · intro x hx
        obtain ⟨a, _, rfl⟩ := List.mem_map.mp hx
        rfl
      · intro x hx s hs
        obtain ⟨a, _, rfl⟩ := List.mem_map.mp hx
        contradiction
  · intro x hx
    rcases start_entry hx with ⟨i, rfl⟩ | ⟨a, rfl⟩ <;> trivial
  · intro op hop
    contradiction

theorem serverInv_reaches {ok : Server → ServerAct → Prop} {roomCount poolSize acceptCount : Nat}
    (h : Reaches serverStep ok (.start roomCount poolSize acceptCount) st) : ServerInv st := by
  apply h.invariant (serverInv_start roomCount poolSize acceptCount)
  intro s act s' _ hinv _ hstep
  exact serverInv_step hinv hstep

end
end RoomServer
