import RoomServer.ServerReferences

/-! One step of a thread, for the sums and the covers of the invariant. -/
namespace RoomServer
open Library Library.Threads

section
variable {c : Choice} {st : Server} {instr x : Instr} {a s t : Nat} {rest thread : List Instr}

/-! ### What a step of a thread does -/

section
variable (st : Server) (t : Nat) (c : Choice) (instr : Instr) (rest : List Instr)

@[simp] theorem advance_pool : (st.advance t c instr rest).pool = (st.exec c instr).1.pool := rfl
@[simp] theorem advance_sessions :
    (st.advance t c instr rest).sessions = (st.exec c instr).1.sessions := rfl
@[simp] theorem advance_acceptObjects :
    (st.advance t c instr rest).acceptObjects = (st.exec c instr).1.acceptObjects := rfl
@[simp] theorem advance_waitQueue :
    (st.advance t c instr rest).waitQueue = (st.exec c instr).1.waitQueue := rfl
@[simp] theorem advance_userSession :
    (st.advance t c instr rest).userSession = (st.exec c instr).1.userSession := rfl
@[simp] theorem advance_rooms : (st.advance t c instr rest).rooms = (st.exec c instr).1.rooms := rfl
@[simp] theorem advance_roomCount :
    (st.advance t c instr rest).roomCount = (st.exec c instr).1.roomCount := rfl
@[simp] theorem advance_jobQueues :
    (st.advance t c instr rest).jobQueues = (st.exec c instr).1.jobQueues := rfl
@[simp] theorem advance_posted :
    (st.advance t c instr rest).posted = (st.exec c instr).1.posted := rfl
@[simp] theorem advance_sockets :
    (st.advance t c instr rest).sockets = (st.exec c instr).1.sockets := rfl
@[simp] theorem advance_phase : (st.advance t c instr rest).phase = (st.exec c instr).1.phase := rfl
@[simp] theorem advance_connection :
    (st.advance t c instr rest).connection = (st.exec c instr).1.connection := rfl
@[simp] theorem advance_closed :
    (st.advance t c instr rest).closed = (st.exec c instr).1.closed := rfl
@[simp] theorem advance_log : (st.advance t c instr rest).log = (st.exec c instr).1.log := rfl

end

theorem advance_threads (st : Server) (t : Nat) (c : Choice) (instr : Instr) (rest : List Instr) :
    ∃ released : List Instr, (st.advance t c instr rest).threads =
        st.threads.set t ((released ++ (st.exec c instr).2) ++ rest) ∧
      (∀ x ∈ released, ∃ s, x = .pushSession s) := by
  refine ⟨_, congrArg _ (List.append_assoc _ _ _).symm, ?_⟩
  intro x hx
  obtain ⟨s, _, rfl⟩ := List.mem_map.mp hx
  exact ⟨s, rfl⟩

theorem ServerInv.room_lt (hinv : ServerInv st) (h : st.threads[t]? = some (instr :: rest)) (i : Nat)
    (hi : instr.room? = some i) : i < st.roomCount := by
  obtain ⟨rfl, hlt⟩ := hinv.home t _ h instr List.mem_cons_self i hi
  exact hlt

/-- An entry after the step returns a session, is begun by the instruction, or stood beside it. -/
theorem advance_entry (h : st.threads[t]? = some (instr :: rest))
    (hx : Entry (st.advance t c instr rest).threads x) :
    (∃ s, x = .pushSession s) ∨ x ∈ (st.exec c instr).2 ∨ Beside st.threads instr x := by
  obtain ⟨released, hthreads, hreleased⟩ := advance_threads st t c instr rest
  rw [hthreads] at hx
  rcases entry_set h hx with hx | hx
  · rcases List.mem_append.mp hx with hx | hx
    · exact .inl (hreleased x hx)
    · exact .inr (.inl hx)
  · exact .inr (.inr hx)

theorem advance_holds (hinv : ServerInv st) (h : st.threads[t]? = some (instr :: rest))
    (hs : Holds (st.advance t c instr rest) s) : Holds st s ∨ st.Pops s instr := by
  have hentry := entry_head h
  have hfact := hinv.facts instr hentry
  have hneeds : instr.Needs s → Holds st s ∨ st.Pops s instr := fun hx =>
    .inl (needs_holds hinv hentry hx)
  cases hs with
  | recv hs =>
    have hstep := exec_session c st instr s
    change ((st.exec c instr).1.sessions s).recvSession = true at hs
    generalize (st.exec c instr).1.sessions s = session at hs hstep
    cases hstep with
    | recvStart caller => exact hneeds rfl
    | acceptRecvStart a => exact .inl (accepting_holds hfact.1)
    | recvFailed => contradiction
    | releaseSession => contradiction
    | _ => exact .inl (.recv hs)
  | send hs =>
    have hstep := exec_session c st instr s
    change ((st.exec c instr).1.sessions s).sendSession = true at hs
    generalize (st.exec c instr).1.sessions s = session at hs hstep
    cases hstep with
    | sending pc => exact hneeds rfl
    | _ => exact .inl (.send hs)
  | accept hs =>
    by_cases hpops : st.Pops s instr
    · exact .inr hpops
    · left
      have hgiven := exec_given (c := c) hpops
      have hcount := List.count_pos_iff.mpr hs
      change 0 < (st.exec c instr).1.acceptObjects.count (some s) at hcount
      by_cases hpos : 0 < instr.given s
      · exact given_holds hinv hentry hpos
      · exact .accept (List.count_pos_iff.mp (by omega))
  | user hs =>
    left
    rcases exec_userSession hs with hs | ⟨a, rfl, _⟩
    · exact .user hs
    · exact accepting_holds hfact.1
  | @member i hi hs =>
    change i < (st.exec c instr).1.roomCount at hi
    change ((st.exec c instr).1.rooms i).Has s at hs
    rw [exec_sizes.1] at hi
    by_cases hstore : ∃ room, instr = .store i room
    · obtain ⟨room, rfl⟩ := hstore
      simp only [Server.exec, Function.update_self] at hs
      exact hneeds hs
    · rw [exec_rooms fun room hroom => hstore ⟨room, hroom⟩] at hs
      exact .inl (.member hi hs)
  | @job i job hi hjob hs =>
    change i < (st.exec c instr).1.roomCount at hi
    rw [exec_sizes.1] at hi
    rcases exec_jobs hjob with hjob | rfl
    · exact .inl (.job hi hjob hs)
    · exact hneeds hs
  | @entry x hx hpos =>
    rcases advance_entry h hx with ⟨s', rfl⟩ | hx | hx
    · contradiction
    · rcases next_refs (hinv.room_lt h) (exec_next hx) hpos with hs | hs | hs
      · exact .inl hs
      · exact .inl (.entry hentry hs)
      · exact .inr hs
    · exact .inl (.entry hx.entry hpos)

/-! ### What a step of a thread does to the sums -/

theorem advance_weigh (weight : Instr → Nat) (hpush : ∀ s, weight (.pushSession s) = 0)
    (h : st.threads[t]? = some (instr :: rest)) :
    weigh weight (st.advance t c instr rest).threads + weight instr =
      weigh weight st.threads + total weight (st.exec c instr).2 := by
  obtain ⟨released, hthreads, hreleased⟩ := advance_threads st t c instr rest
  have hzero : total weight released = 0 := by
    apply total_of_forall
    intro x hx
    obtain ⟨s, rfl⟩ := hreleased x hx
    exact hpush s
  rw [hthreads, weigh_set weight _ h, total_append, hzero, Nat.zero_add]

theorem total_pushSession (s : Nat) (xs : List Nat) :
    total (Instr.returning s) (xs.map .pushSession) = xs.count s := by
  induction xs with
  | nil => rfl
  | cons x xs ih =>
    rw [List.map_cons, total_cons, ih, List.count_cons, Instr.returning, Nat.add_comm]
    simp

theorem released_zero {weight : Instr → Nat} (hpush : ∀ s, weight (.pushSession s) = 0)
    (before after : Server) : total weight (Server.released before after) = 0 :=
  total_map_zero weight _ _ hpush

theorem released_returning (before after : Server) (s : Nat) :
    total (Instr.returning s) (Server.released before after) ≤
      if 0 < before.useCount s ∧ after.useCount s = 0 then 1 else 0 := by
  rw [Server.released, total_pushSession]
  split
  · apply Nat.le_trans (List.Sublist.count_le s List.filter_sublist)
    rw [List.count_range]
    split <;> omega
  · rename_i hnot
    rw [Nat.le_zero, List.count_eq_zero]
    intro hmem
    have hs := (List.mem_filter.mp hmem).2
    simp only [Bool.and_eq_true, decide_eq_true_eq, beq_iff_eq] at hs
    exact hnot hs

theorem advance_useCount (st : Server) (t : Nat) (c : Choice) (instr : Instr) (rest : List Instr)
    (s : Nat) :
    (st.advance t c instr rest).useCount s =
      ({ (st.exec c instr).1 with
        threads := st.threads.set t ((st.exec c instr).2 ++ rest) } : Server).useCount s := by
  have hrefs : ∀ released : List Instr, total (Instr.refs s) released = 0 → ∀ next,
      weigh (Instr.refs s) (st.threads.set t (released ++ next)) =
        weigh (Instr.refs s) (st.threads.set t next) := by
    intro released hzero next
    apply total_set_congr
    rw [total_append, hzero, Nat.zero_add]
  unfold Server.advance Server.useCount
  dsimp only
  rw [hrefs _ (released_zero (fun _ => rfl) _ _)]

/-- The thread that let the last reference go returns the session, and nobody else does. -/
theorem advance_returning (h : st.threads[t]? = some (instr :: rest)) :
    weigh (Instr.returning s) (st.advance t c instr rest).threads + instr.returning s ≤
      weigh (Instr.returning s) st.threads + total (Instr.returning s) (st.exec c instr).2 +
        if 0 < st.useCount s ∧ (st.advance t c instr rest).useCount s = 0 then 1 else 0 := by
  rw [advance_useCount]
  unfold Server.advance
  dsimp only
  rw [← List.append_assoc]
  generalize hafter : ({ (st.exec c instr).1 with
    threads := st.threads.set t ((st.exec c instr).2 ++ rest) } : Server) = after
  have hreleased := released_returning st after s
  have hset := weigh_set (Instr.returning s)
    (Server.released st after ++ (st.exec c instr).2) h
  rw [total_append] at hset
  omega

theorem advance_slots (hinv : ServerInv st) (h : st.threads[t]? = some (instr :: rest)) (a : Nat) :
    (st.advance t c instr rest).waitQueue.count a +
        total (Posted.slot a) (st.advance t c instr rest).posted +
        weigh (Instr.slot a) (st.advance t c instr rest).threads ≤
      if a < (st.advance t c instr rest).acceptObjects.length then 1 else 0 := by
  have hslots := hinv.slots a
  have hexec := exec_slot c st instr a
  have hweigh := advance_weigh (c := c) (Instr.slot a) (fun _ => rfl) h
  simp only [advance_waitQueue, advance_posted, advance_acceptObjects, exec_sizes.2.1]
  omega

theorem exec_pops (hpops : st.Pops s instr) :
    (st.exec c instr).1.posted = st.posted ∧ total (Instr.receive s) (st.exec c instr).2 = 0 ∧
      (st.exec c instr).1.acceptObjects.count (some s) +
        total (Instr.given s) (st.exec c instr).2 ≤ st.acceptObjects.count (some s) + 1 := by
  obtain ⟨rfl | ⟨a, rfl⟩, pool, hpop, _⟩ := pops_cases hpops
  · simp [Server.exec, hpop, Instr.receive, Instr.given]
  · have hset := count_set_le st.acceptObjects a (some s) (some s)
    simpa [Server.exec, hpop, Instr.receive, Instr.given, Server.setAccept] using hset

theorem advance_receives (hinv : ServerInv st) (h : st.threads[t]? = some (instr :: rest))
    (s : Nat) :
    total (Posted.receive s) (st.advance t c instr rest).posted +
        weigh (Instr.receive s) (st.advance t c instr rest).threads +
        ((st.advance t c instr rest).phase s).receive ≤ 1 := by
  have hweigh := advance_weigh (c := c) (Instr.receive s) (fun _ => rfl) h
  by_cases hpops : st.Pops s instr
  · have hidle := (idle_of_free hinv (free_of_pops hinv hpops)).1
    have hexec := exec_pops (c := c) hpops
    simp only [advance_posted, advance_phase, hexec.1, pops_phase hpops, Phase.receive]
    omega
  · have hreceives := hinv.receives s
    have hfact := hinv.facts instr (entry_head h)
    have hexec := exec_receive (c := c) hpops (by
      rintro a rfl
      exact hfact.2)
    simp only [advance_posted, advance_phase]
    omega

theorem advance_tokens (hinv : ServerInv st) (h : st.threads[t]? = some (instr :: rest))
    (s : Nat) :
    total (Posted.token s) (st.advance t c instr rest).posted +
        weigh (Instr.token s) (st.advance t c instr rest).threads ≤
      ((st.advance t c instr rest).sessions s).send.sendFlag.toNat := by
  have hweigh := advance_weigh (c := c) (Instr.token s) (fun _ => rfl) h
  have htokens := hinv.tokens s
  by_cases hreset : instr = .pushSession s ∨ instr = .poolPush s
  · have hreturning : 0 < instr.returning s := by
      rcases hreset with rfl | rfl <;> simp [Instr.returning]
    have hidle := (idle_of_free hinv (free_of_entry hinv (entry_head h) hreturning)).2.1
    have hposted : (st.exec c instr).1.posted = st.posted ∧
        total (Instr.token s) (st.exec c instr).2 = 0 := by
      rcases hreset with rfl | rfl <;> exact ⟨rfl, rfl⟩
    simp only [advance_posted, hposted.1]
    omega
  · rw [not_or] at hreset
    have hexec := exec_token c st hreset.1 hreset.2
    simp only [advance_posted, advance_sessions]
    omega

theorem advance_givens (hinv : ServerInv st) (h : st.threads[t]? = some (instr :: rest))
    (s : Nat) :
    (st.advance t c instr rest).acceptObjects.count (some s) +
      weigh (Instr.given s) (st.advance t c instr rest).threads ≤ 1 := by
  have hweigh := advance_weigh (c := c) (Instr.given s) (fun _ => rfl) h
  by_cases hpops : st.Pops s instr
  · have hidle := (idle_of_free hinv (free_of_pops hinv hpops)).2.2
    have hexec := (exec_pops (c := c) hpops).2.2
    simp only [advance_acceptObjects]
    omega
  · have hgivens := hinv.givens s
    have hexec := exec_given (c := c) hpops
    simp only [advance_acceptObjects]
    omega

theorem advance_returns (hinv : ServerInv st) (h : st.threads[t]? = some (instr :: rest))
    (s : Nat) :
    (st.advance t c instr rest).pool.pools.count s +
        weigh (Instr.returning s) (st.advance t c instr rest).threads +
        (if 0 < (st.advance t c instr rest).useCount s then 1 else 0) ≤ 1 := by
  have hreturns := hinv.returns s
  have hweigh := advance_returning (c := c) (s := s) h
  have hholds : 0 < (st.advance t c instr rest).useCount s →
      0 < st.useCount s ∨ st.Pops s instr := by
    intro hpos
    exact (advance_holds hinv h (Holds.iff.mp hpos)).imp Holds.iff.mpr id
  simp only [advance_pool]
  by_cases hpops : st.Pops s instr
  · have hfree : ¬ 0 < st.useCount s := fun hpos => free_of_pops hinv hpops (Holds.iff.mp hpos)
    have hexec := exec_returning c st instr s (Nat.le_refl 1) (fun _ => hpops)
    rw [if_neg (by omega)] at hreturns hweigh
    split <;> omega
  · have hexec := exec_returning c st instr s (Nat.zero_le 1) (by omega)
    have hholds : 0 < (st.advance t c instr rest).useCount s → 0 < st.useCount s := fun hpos =>
      (hholds hpos).resolve_right hpops
    generalize (st.advance t c instr rest).useCount s = after at *
    split at hweigh <;> split <;> split at hreturns <;> omega

/-! ### What a step of a thread does to the threads -/

theorem mem_set_threads {threads : List (List Instr)} {u : Nat} {next : List Instr}
    (h : (threads.set t next)[u]? = some thread) :
    u = t ∧ thread = next ∨ u ≠ t ∧ threads[u]? = some thread := by
  rw [List.getElem?_set] at h
  split at h
  case isTrue hu =>
    split at h
    · cases h
      exact .inl ⟨hu.symm, rfl⟩
    · contradiction
  case isFalse hu => exact .inr ⟨Ne.symm hu, h⟩

theorem next_room {j : Nat} (h : Next c st instr x) (hroom : x.room? = some j) :
    instr.room? = some j := by
  cases h with
  | dispatch i => exact hroom
  | jobStore ho => exact hroom
  | dispatchRest i job jobs stop => exact hroom
  | tick i stop => exact hroom
  | tickStore ho => exact hroom
  | startJob i => exact hroom
  | _ => contradiction

theorem advance_home (hinv : ServerInv st) (h : st.threads[t]? = some (instr :: rest)) (u : Nat)
    (hu : (st.advance t c instr rest).threads[u]? = some thread) :
    ∀ x ∈ thread, ∀ i, x.room? = some i →
      i = u ∧ u < (st.advance t c instr rest).roomCount := by
  rw [advance_roomCount, exec_sizes.1]
  obtain ⟨released, hthreads, hreleased⟩ := advance_threads st t c instr rest
  rw [hthreads] at hu
  rcases mem_set_threads hu with ⟨rfl, rfl⟩ | ⟨_, hu⟩
  · intro x hx i hi
    rcases List.mem_append.mp hx with hx | hx
    · rcases List.mem_append.mp hx with hx | hx
      · obtain ⟨s, rfl⟩ := hreleased x hx
        contradiction
      · exact hinv.home u _ h instr List.mem_cons_self i (next_room (exec_next hx) hi)
    · exact hinv.home u _ h x (List.mem_cons_of_mem _ hx) i hi
  · exact hinv.home u thread hu

theorem advance_covered (hinv : ServerInv st) (h : st.threads[t]? = some (instr :: rest)) (u : Nat)
    (hu : (st.advance t c instr rest).threads[u]? = some thread) :
    Covered ((st.advance t c instr rest).roomHas u) thread := by
  have hhome : ∀ i, instr.room? = some i → i = t ∧ t < st.roomCount :=
    hinv.home t _ h instr List.mem_cons_self
  have hothers : u ≠ t → (st.exec c instr).1.rooms u = st.rooms u := by
    intro hne
    apply exec_rooms
    rintro room rfl
    exact hne (hhome u rfl).1
  obtain ⟨released, hthreads, hreleased⟩ := advance_threads st t c instr rest
  rw [hthreads] at hu
  rcases mem_set_threads hu with ⟨rfl, rfl⟩ | ⟨hne, hu⟩
  · have hexec := exec_covered (c := c) (hinv.covered u _ h)
      (by
        rintro s transferred rfl
        exact hinv.facts _ (entry_head h))
      (by
        intro i hi s hs
        obtain ⟨rfl, hlt⟩ := hhome i hi
        exact ⟨hlt, hs⟩)
    have hleaves : ∀ s, instr.leaves (st.roomHas u) s →
        (st.advance u c instr rest).roomHas u s := by
      intro s hs
      unfold Server.roomHas
      rw [advance_roomCount, exec_sizes.1, advance_rooms]
      by_cases hstore : ∃ room, instr = .store u room
      · obtain ⟨room, rfl⟩ := hstore
        refine ⟨(hhome u rfl).2, ?_⟩
        simp only [Server.exec, Function.update_self]
        exact hs
      · rw [exec_rooms fun room hroom => hstore ⟨room, hroom⟩]
        cases instr with
        | store i room =>
          have hi := (hhome i rfl).1
          exact absurd ⟨room, by rw [hi]⟩ hstore
        | _ => exact hs
    rw [List.append_assoc]
    apply (hexec.weaken hleaves).append
    · intro x hx
      obtain ⟨s, rfl⟩ := hreleased x hx
      rfl
    · intro x hx s hs
      obtain ⟨s, rfl⟩ := hreleased x hx
      contradiction
  · apply (hinv.covered u thread hu).weaken
    intro s hs
    unfold Server.roomHas
    rw [advance_roomCount, exec_sizes.1, advance_rooms, hothers hne]
    exact hs

end
end RoomServer
