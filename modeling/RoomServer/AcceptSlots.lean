import RoomServer.AcceptWaits

/-! Where the AcceptObjects are. Before the shutdown each is with the kernel, in the queue
or handled by one thread, as long as no `AcceptEx` is refused: `Accept` does not look at
what `MakeSocket` and `AcceptEx` answer, and an AcceptObject that the kernel did not take
is nowhere. -/
namespace RoomServer
open Library Library.Threads Library.Transition

def Instr.handles (p : Nat → Bool) : Instr → Nat
  | .accept a _ _ | .acceptPop a | .insertWait a | .makeSocket a _ | .acceptEx a _ | .error a
  | .errorClear a | .errorAccept a | .acceptExecute a | .acceptInsert a _ | .acceptRecvStart a _
  | .acceptClear a => if p a = true then 1 else 0
  | _ => 0

def Posted.accepts (p : Nat → Bool) : Posted → Nat
  | .accept a _ => if p a = true then 1 else 0
  | _ => 0

/-- An `AcceptEx` that is called is not refused. -/
def acceptTaken (st : Server) : ServerAct → Bool
  | .advance t c =>
    match st.threads[t]? with
    | some (.acceptEx _ s :: _) => st.accepted c s
    | _ => true
  | _ => true

section
variable {c : Choice} {st : Server} {instr x : Instr} {a s t : Nat} {rest : List Instr}
variable {p : Nat → Bool}

theorem handles_eq (a : Nat) (instr : Instr) : instr.handles (· == a) = instr.slot a := by
  cases instr <;> simp [Instr.handles, Instr.slot]

theorem exec_handles (hrunning : st.listenStop = false) (hshuts : instr.shuts = false)
    (hexecute : ∀ a, instr = .acceptExecute a → (st.accepting a).isSome = true)
    (htaken : ∀ a s, instr = .acceptEx a s → st.accepted c s = true) :
    (st.exec c instr).1.waitQueue.countP p + total (Posted.accepts p) (st.exec c instr).1.posted +
        total (Instr.handles p) (st.exec c instr).2 =
      st.waitQueue.countP p + total (Posted.accepts p) st.posted + instr.handles p := by
  have hnext := total_next_zero (Instr.handles p) c st instr
  cases instr with
  | listenShutdown | clearWaitQueue => contradiction
  | recv _ _ | dispatch _ _ _ | tick _ _ | snapshot =>
    rw [hnext fun x hx => by cases hx <;> rfl]
    rfl
  | sending s pc =>
    rw [hnext fun x hx => by cases hx; rfl]
    simp only [Server.exec, Server.sending, Server.setSession]
    split <;> simp [Instr.handles, Posted.accepts]
  | effect e =>
    cases e <;> simp [Server.exec, Server.applyEffect, Server.setSession, Instr.handles]
  | recvStart s caller =>
    cases haccepted : st.accepted c s <;> cases caller <;>
      simp [Server.exec, Server.recvStart, Server.setSession, haccepted, Instr.handles,
        Posted.accepts]
  | acceptRecvStart a s =>
    simp only [Server.exec, Server.recvStart, Server.setSession]
    split <;> simp [Instr.handles, Posted.accepts]
  | acceptExecute a =>
    obtain ⟨s, hs⟩ := Option.isSome_iff_exists.mp (hexecute a rfl)
    simp only [Server.exec, hs]
    split <;> simp [Instr.handles]
  | acceptEx a s => simp [Server.exec, htaken a s rfl, Instr.handles, Posted.accepts, Nat.add_assoc]
  | _ =>
    simp only [Server.exec, Server.popSession, Server.setSession, Server.setAccept, hrunning]
    (repeat' split) <;> simp [*, Instr.handles, List.countP_cons] <;> grind

/-! ### Where the sessions of the AcceptObjects are -/

structure SlotInv (acceptCount : Nat) (st : Server) : Prop where
  opened : OpenInv st
  kept : ∀ p, st.waitQueue.countP p + total (Posted.accepts p) st.posted +
    weigh (Instr.handles p) st.threads = (List.range acceptCount).countP p
  executes : ∀ a, Entry st.threads (.acceptExecute a) → (st.accepting a).isSome = true
  inserts : ∀ a, Entry st.threads (.insertWait a) → st.accepting a = none
  waits : ∀ a ∈ st.waitQueue, st.accepting a = none

theorem next_insertWait (hserver : ServerInv st) (hentry : Entry st.threads instr)
    (hx : .insertWait a ∈ (st.exec c instr).2) : (st.exec c instr).1.accepting a = none := by
  cases exec_next hx with
  | acceptWait _ execute =>
    simp only [Server.exec, Bool.false_eq_true, if_false] at hx ⊢
    split at hx
    · split at hx <;> simp at hx
    · rename_i hrunning
      rw [if_neg hrunning]
      cases haccepting : st.accepting a with
      | none => exact haccepting
      | some s => simp [haccepting] at hx
  | popWait _ =>
    have hle := le_weigh (Instr.slot a) hentry
    have hone : (Instr.acceptPop a).slot a = 1 := by simp [Instr.slot]
    have ha := slot_lt hserver (a := a) Nat.one_pos (by omega)
    rcases popSession_cases st with hpop | ⟨s, pool, hpop, _⟩
    · simp only [Server.exec, hpop]
      exact setAccept_self ha none
    · simp [Server.exec, hpop] at hx

theorem exec_waiting (hserver : ServerInv st) (hentry : Entry st.threads instr)
    (hshuts : instr.shuts = false) (hold : a ∈ st.waitQueue)
    (hnew : a ∈ (st.exec c instr).1.waitQueue) :
    (st.exec c instr).1.accepting a = st.accepting a := by
  have hslots := hserver.slots a
  have hcount := List.count_pos_iff.mpr hold
  have hle := le_weigh (Instr.slot a) hentry
  have hone : st.waitQueue.count a ≤ 1 ∧ instr.slot a = 0 := by
    split at hslots <;> omega
  by_cases htake : ∃ s, instr = .reTake s
  · obtain ⟨s, rfl⟩ := htake
    apply exec_reTake_accepting
    intro hhead
    obtain ⟨waitQueue, hqueue⟩ := List.head?_eq_some_iff.mp hhead
    simp only [Server.exec, hqueue] at hnew
    have hagain := List.count_pos_iff.mpr hnew
    rw [hqueue, List.count_cons_self] at hone
    change 0 < waitQueue.count a at hagain
    omega
  · apply exec_accepting_other hone.2
    · rintro rfl
      contradiction
    · exact fun s hs => htake ⟨s, hs⟩

theorem mem_exec_waitQueue (h : a ∈ (st.exec c instr).1.waitQueue) :
    a ∈ st.waitQueue ∨ instr = .insertWait a := by
  have hsame : instr.waits = false → _ := exec_waits c st
  cases instr with
  | insertWait a' =>
    rcases List.mem_append.mp h with h | h
    · exact .inl h
    · exact .inr (by rw [List.mem_singleton.mp h])
  | reTake s =>
    left
    simp only [Server.exec] at h
    split at h
    · exact h
    · rename_i a' waitQueue hqueue
      rw [hqueue]
      exact List.mem_cons_of_mem _ h
  | clearWaitQueue => contradiction
  | rePop | acceptPop a' =>
    left
    rcases popSession_cases st with hpop | ⟨s', pool, hpop, _⟩ <;>
      simp only [Server.exec, hpop] at h <;> exact h
  | poolPush s => exact .inl h
  | _ => exact .inl ((hsame rfl).2 ▸ h)

theorem slotInv_advance {acceptCount : Nat} (hserver : ServerInv st)
    (hinv : SlotInv acceptCount st) (h : st.threads[t]? = some (instr :: rest))
    (htaken : acceptTaken st (.advance t c) = true) :
    SlotInv acceptCount (st.advance t c instr rest) := by
  have hentry := entry_head h
  have hshuts := hinv.opened.entries instr hentry
  have hbeside {x : Instr} (hx : Beside st.threads instr x) {a : Nat} (hslot : x.slot a = 1) :
      (st.exec c instr).1.accepting a = st.accepting a := by
    have hle := hx.weight (Instr.slot a)
    exact (slot_stays c instr a hserver Nat.one_pos (by omega)).2
  refine ⟨openInv_advance hinv.opened h, ?_, ?_, ?_, ?_⟩
  · intro p
    have hkept := hinv.kept p
    have hweigh := advance_weigh (c := c) (Instr.handles p) (fun _ => rfl) h
    have hexec := exec_handles (c := c) (p := p) hinv.opened.running hshuts
      (by
        rintro a rfl
        exact hinv.executes a hentry)
      (by
        rintro a s rfl
        simpa [acceptTaken, h] using htaken)
    rw [advance_waitQueue, advance_posted]
    omega
  · intro a hx
    change ((st.exec c instr).1.accepting a).isSome = true
    rcases advance_entry h hx with ⟨s, hs⟩ | hx | hx
    · contradiction
    · cases exec_next hx
    · rw [hbeside hx (by simp [Instr.slot])]
      exact hinv.executes a hx.entry
  · intro a hx
    change (st.exec c instr).1.accepting a = none
    rcases advance_entry h hx with ⟨s, hs⟩ | hx | hx
    · contradiction
    · exact next_insertWait hserver hentry hx
    · rw [hbeside hx (by simp [Instr.slot])]
      exact hinv.inserts a hx.entry
  · intro a ha
    change (st.exec c instr).1.accepting a = none
    rcases mem_exec_waitQueue ha with hold | rfl
    · rw [exec_waiting hserver hentry hshuts hold ha]
      exact hinv.waits a hold
    · exact hinv.inserts a hentry

theorem slotInv_complete {acceptCount : Nat} (hserver : ServerInv st)
    (hinv : SlotInv acceptCount st) {k : Nat} {op : Posted} (h : st.posted[k]? = some op)
    (completion : Completion) :
    SlotInv acceptCount { st with
      posted := st.posted.eraseIdx k
      threads := st.threads ++ [[op.handler completion]] } := by
  refine ⟨openInv_complete hinv.opened completion, ?_, ?_, ?_, hinv.waits⟩
  · intro p
    have hkept := hinv.kept p
    have herase := total_eraseIdx (Posted.accepts p) h
    have hhandler : (op.handler completion).handles p = op.accepts p := by
      cases op <;> cases completion <;> rfl
    simp only [weigh_append, weigh_cons, weigh_nil, total_cons, total_nil, hhandler]
    omega
  · intro a hx
    rcases entry_spawn hx with hx | hx
    · exact hinv.executes a hx
    · have hop := hserver.posted op (List.mem_of_getElem? h)
      have hx := List.mem_singleton.mp hx
      cases op with
      | accept a' s =>
        have haccepting : st.accepting a' = some s := hop.1
        cases completion <;> cases hx <;> exact Option.isSome_iff_exists.mpr ⟨s, haccepting⟩
      | recv s => contradiction
      | send s => cases completion <;> contradiction
  · intro a hx
    rcases entry_spawn hx with hx | hx
    · exact hinv.inserts a hx
    · have hx := List.mem_singleton.mp hx
      cases op <;> cases completion <;> contradiction

theorem slotInv_start (roomCount poolSize acceptCount : Nat) :
    SlotInv acceptCount (.start roomCount poolSize acceptCount) := by
  refine ⟨openInv_start roomCount poolSize acceptCount, ?_, ?_, ?_, nofun⟩
  · intro p
    have haccepts (xs : List Nat) :
        total (Instr.handles p) (xs.map fun a => .accept a true false) = xs.countP p := by
      induction xs with
      | nil => rfl
      | cons x xs ih =>
        rw [List.map_cons, total_cons, ih, List.countP_cons, Nat.add_comm]
        rfl
    have hrooms : weigh (Instr.handles p) ((List.range roomCount).map fun i => [.startJob i]) = 0 :=
      total_map_zero (total (Instr.handles p)) _ _ fun _ => rfl
    simp [Server.start, haccepts, hrooms]
  · intro a hx
    rcases start_entry hx with ⟨i, hi⟩ | ⟨a, ha⟩ <;> contradiction
  · intro a hx
    rcases start_entry hx with ⟨i, hi⟩ | ⟨a, ha⟩ <;> contradiction

end

theorem slotInv_reaches {st : Server} {roomCount poolSize acceptCount : Nat}
    (h : Reaches serverStep (fun st act => beforeShutdown act = true ∧ acceptTaken st act = true)
      (.start roomCount poolSize acceptCount) st) : SlotInv acceptCount st := by
  apply h.invariant (slotInv_start roomCount poolSize acceptCount)
  intro st act st' hr hinv hok hstep
  rcases step_before_shutdown hok.1 hstep with ⟨t, c, instr, rest, rfl, hthread, rfl⟩ |
    ⟨k, op, completion, rfl, hop, rfl⟩
  · exact slotInv_advance (serverInv_reaches hr) hinv hthread hok.2
  · exact slotInv_complete (serverInv_reaches hr) hinv hop completion

/-! ### The slots -/

def Posted.isAccept : Posted → Bool
  | .accept _ _ => true
  | _ => false

/-- An AcceptObject that no thread handles is with the kernel and has a session, or it waits
and has none; together they are all that there are. -/
def Server.SlotsKept (acceptCount : Nat) (st : Server) : Prop :=
  (∀ a < acceptCount, (∀ x, Entry st.threads x → x.slot a = 0) →
    ((∃ s, .accept a s ∈ st.posted ∧ st.accepting a = some s) ∧ a ∉ st.waitQueue ∨
      (∀ s, .accept a s ∉ st.posted) ∧ st.accepting a = none ∧ a ∈ st.waitQueue)) ∧
  ((∀ a x, Entry st.threads x → x.slot a = 0) →
    st.posted.countP Posted.isAccept + st.waitQueue.length = acceptCount)

theorem total_accepts (posted : List Posted) :
    total (Posted.accepts fun _ => true) posted = posted.countP Posted.isAccept := by
  induction posted with
  | nil => rfl
  | cons op posted ih =>
    rw [total_cons, ih, List.countP_cons, Nat.add_comm]
    cases op <;> rfl

theorem not_posted {posted : List Posted} {a : Nat} (h : total (Posted.accepts (· == a)) posted = 0)
    (s : Nat) : .accept a s ∉ posted := by
  intro hmem
  have hzero := total_eq_zero _ h hmem
  simp [Posted.accepts] at hzero

theorem handles_zero {p : Nat → Bool} {x : Instr} (h : ∀ a, x.slot a = 0) : x.handles p = 0 := by
  cases x with
  | accept a | acceptPop a | insertWait a | makeSocket a | acceptEx a | error a | errorClear a
  | errorAccept a | acceptExecute a | acceptInsert a | acceptRecvStart a | acceptClear a =>
    have ha := h a
    simp [Instr.slot] at ha
  | _ => rfl

/-- In every run before the shutdown in which no `AcceptEx` is refused. -/
theorem accept_slots_kept {st : Server} {roomCount poolSize acceptCount : Nat}
    (h : Reaches serverStep (fun st act => beforeShutdown act = true ∧ acceptTaken st act = true)
      (.start roomCount poolSize acceptCount) st) : st.SlotsKept acceptCount := by
  have hserver := serverInv_reaches h
  have hinv := slotInv_reaches h
  refine ⟨fun a ha hidle => ?_, fun hidle => ?_⟩
  · have hkept := hinv.kept (· == a)
    have hzero : weigh (Instr.handles (· == a)) st.threads = 0 := by
      apply weigh_zero
      intro x hx hpos
      rw [handles_eq, hidle x hx] at hpos
      exact Nat.lt_irrefl 0 hpos
    have hone : (List.range acceptCount).countP (· == a) = 1 := by
      change (List.range acceptCount).count a = 1
      rw [List.count_range, if_pos ha]
    rw [hzero, hone, Nat.add_zero] at hkept
    by_cases hposted : 0 < total (Posted.accepts (· == a)) st.posted
    · left
      obtain ⟨op, hop, hpos⟩ := exists_of_total hposted
      cases op with
      | accept a' s =>
        have heq : a' = a := by
          by_contra hne
          simp [Posted.accepts, hne] at hpos
        rw [heq] at hop
        refine ⟨⟨s, hop, (hserver.posted _ hop).1⟩, ?_⟩
        apply List.count_eq_zero.mp
        change st.waitQueue.countP (· == a) = 0
        omega
      | recv s => contradiction
      | send s => contradiction
    · right
      have hwaits : a ∈ st.waitQueue := by
        apply List.count_pos_iff.mp
        change 0 < st.waitQueue.countP (· == a)
        omega
      exact ⟨not_posted (by omega), hinv.waits a hwaits, hwaits⟩
  · have hkept := hinv.kept fun _ => true
    have hzero : weigh (Instr.handles fun _ => true) st.threads = 0 := by
      apply weigh_zero
      intro x hx hpos
      rw [handles_zero fun a => hidle a x hx] at hpos
      exact Nat.lt_irrefl 0 hpos
    rw [hzero, total_accepts, List.countP_true, List.length_range] at hkept
    omega

/-- One AcceptObject is posted, the other waits for a session. -/
theorem accept_slots_kept_two :
    ∃ st, run serverStep (.start 0 1 2) (advances 0 11) = some st ∧
      st.posted = [.accept 0 0] ∧ st.waitQueue = [1] ∧ st.SlotsKept 2 := by
  have hrun : (run (guarded serverStep fun st act =>
      beforeShutdown act = true ∧ acceptTaken st act = true) (.start 0 1 2) (advances 0 11)).any
      (fun st => decide (st.posted = [.accept 0 0] ∧ st.waitQueue = [1])) = true := by
    decide +kernel
  obtain ⟨st, hst, hends⟩ := (Option.any_eq_true _ _).mp hrun
  obtain ⟨hposted, hqueue⟩ := of_decide_eq_true hends
  exact ⟨st, run_of_guarded _ hst, hposted, hqueue, accept_slots_kept (reaches_of_run _ .start hst)⟩

/-- `AcceptEx` refuses at once, and nobody has the AcceptObject any more. -/
def refuseAcceptEx : List ServerAct :=
  advances 0 3 ++ [.advance 0 ⟨false, 100, fun _ => true, 0⟩] ++ advances 0 1

theorem refused_acceptEx_loses :
    ∃ st, Reaches serverStep (fun _ act => beforeShutdown act = true) (.start 0 1 1) st ∧
      ¬st.SlotsKept 1 := by
  have hrun : (run (guarded serverStep fun _ act => beforeShutdown act = true) (.start 0 1 1)
      refuseAcceptEx).any (fun st => decide (st.posted = [] ∧ st.waitQueue = [] ∧
        st.threads.all List.isEmpty = true)) = true := by decide +kernel
  obtain ⟨st, hst, hends⟩ := (Option.any_eq_true _ _).mp hrun
  obtain ⟨hposted, hqueue, hthreads⟩ := of_decide_eq_true hends
  refine ⟨st, reaches_of_run _ .start hst, fun hkept => ?_⟩
  have hcount := hkept.2 fun a x ⟨thread, hthread, hx⟩ => by
    have hempty := List.isEmpty_iff.mp (List.all_eq_true.mp hthreads thread hthread)
    rw [hempty] at hx
    exact absurd hx List.not_mem_nil
  rw [hposted, hqueue] at hcount
  exact absurd hcount (by decide)

end RoomServer
