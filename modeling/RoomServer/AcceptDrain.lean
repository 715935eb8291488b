import RoomServer.AcceptSlots
import RoomServer.Conservation

/-! The AcceptObjects across a shutdown. One that keeps a session is posted or in the
hands of a thread; so once all is quiet none has one, and nothing but what is still
registered, in a room or in an abandoned job keeps a session out of the pool. -/
namespace RoomServer
open Library Library.Threads Library.Transition

def Instr.emptyHanded (a : Nat) : Instr → Prop
  | .insertWait a' | .errorAccept a' => a' = a
  | _ => False

structure AcceptDue (st : Server) : Prop where
  held : ∀ a s, st.accepting a = some s →
    0 < total (Posted.slot a) st.posted + weigh (Instr.slot a) st.threads
  empty : ∀ a x, Entry st.threads x → x.emptyHanded a → st.accepting a = none

section
variable {c : Choice} {st : Server} {instr x : Instr} {a s t : Nat} {rest : List Instr}

theorem setAccept_none (st : Server) (a : Nat) : (st.setAccept a none).accepting a = none := by
  unfold Server.accepting Server.setAccept
  rw [List.getD_eq_getElem?_getD, List.getElem?_set]
  split
  · split <;> rfl
  · contradiction

theorem accepting_cleared {queue : List Nat} {objects : List (Option Nat)}
    (h : (queue.foldl (fun objects a => objects.set a none) objects).getD a none = some s) :
    objects.getD a none = some s := by
  by_cases hmem : a ∈ queue
  · exfalso
    induction queue generalizing objects with
    | nil => exact absurd hmem List.not_mem_nil
    | cons a' queue ih =>
      rw [List.foldl_cons] at h
      by_cases hqueue : a ∈ queue
      · exact ih h hqueue
      · obtain rfl := (List.mem_cons.mp hmem).resolve_right hqueue
        rw [accepting_clear _ hqueue, List.getD_eq_getElem?_getD, List.getElem?_set] at h
        split at h
        · split at h <;> contradiction
        · contradiction
  · rwa [accepting_clear _ hmem] at h

theorem exec_slot_due (hempty : instr.emptyHanded a → st.accepting a = none)
    (htaken : ∀ a s, instr = .acceptEx a s → st.accepted c s = true) (hslot : 0 < instr.slot a)
    (h : (st.exec c instr).1.accepting a = some s) :
    0 < total (Posted.slot a) (st.exec c instr).1.posted +
      total (Instr.slot a) (st.exec c instr).2 := by
  have hself : ∀ {a' : Nat}, (0 < if a' = a then 1 else 0) → a' = a := eq_of_pos
  cases instr with
  | accept a' popSession execute =>
    obtain rfl := hself hslot
    simp only [Server.exec] at h ⊢
    split at h
    · rw [setAccept_none] at h
      contradiction
    · rename_i hrunning
      rw [if_neg hrunning]
      cases popSession with
      | true => simp [Instr.slot]
      | false =>
        simp only [Bool.false_eq_true, if_false]
        split <;> simp [Instr.slot]
  | acceptPop a' =>
    obtain rfl := hself hslot
    simp only [Server.exec]
    split <;> simp [Instr.slot]
  | insertWait a' =>
    obtain rfl := hself hslot
    have hnone := hempty rfl
    exact absurd (hnone.symm.trans h) (by simp)
  | makeSocket a' s' =>
    obtain rfl := hself hslot
    simp [Server.exec, Instr.slot]
  | acceptEx a' s' =>
    obtain rfl := hself hslot
    simp [Server.exec, htaken a' s' rfl, Posted.slot]
  | error a' =>
    obtain rfl := hself hslot
    simp only [Server.exec]
    split <;> simp [Instr.slot]
  | errorClear a' =>
    obtain rfl := hself hslot
    simp [Server.exec, Instr.slot]
  | errorAccept a' =>
    obtain rfl := hself hslot
    have hnone := hempty rfl
    exact absurd (hnone.symm.trans h) (by simp)
  | acceptExecute a' =>
    obtain rfl := hself hslot
    simp only [Server.exec] at h ⊢
    split
    · rename_i hnone
      rw [hnone] at h
      exact absurd (hnone.symm.trans h) (by simp)
    · split <;> simp [Instr.slot]
  | acceptInsert a' s' =>
    obtain rfl := hself hslot
    simp [Server.exec, Instr.slot]
  | acceptRecvStart a' s' =>
    obtain rfl := hself hslot
    simp [Server.exec, Instr.slot]
  | acceptClear a' =>
    obtain rfl := hself hslot
    simp [Server.exec, Instr.slot]
  | _ => exact absurd hslot (Nat.lt_irrefl 0)

theorem exec_accepting_due (hslot : instr.slot a = 0)
    (h : (st.exec c instr).1.accepting a = some s) :
    st.accepting a = some s ∨ 0 < total (Instr.slot a) (st.exec c instr).2 := by
  cases instr with
  | clearWaitQueue => exact .inl (accepting_cleared h)
  | reTake s' =>
    simp only [Server.exec] at h ⊢
    split at h
    · exact .inl h
    · rename_i a' waitQueue hqueue
      by_cases ha : a' = a
      · right
        simp [ha, Instr.slot]
      · left
        change (st.setAccept a' (some s')).accepting a = some s at h
        rwa [accepting_set_ne ha] at h
  | _ =>
    left
    rwa [exec_accepting_other hslot (by simp) (by simp)] at h

theorem acceptDue_advance (hinv : ServerInv st) (hdue : AcceptDue st)
    (h : st.threads[t]? = some (instr :: rest))
    (htaken : ∀ a s, instr = .acceptEx a s → st.accepted c s = true) :
    AcceptDue (st.advance t c instr rest) := by
  have hentry := entry_head h
  obtain ⟨more, hposted⟩ := exec_posted_append c st instr
  refine ⟨fun a s hs => ?_, fun a x hx hhand => ?_⟩
  · change (st.exec c instr).1.accepting a = some s at hs
    have hweigh := advance_weigh (c := c) (Instr.slot a) (fun _ => rfl) h
    have hle := le_weigh (Instr.slot a) hentry
    rw [advance_posted]
    by_cases hslot : 0 < instr.slot a
    · have hnow := exec_slot_due (hdue.empty a instr hentry) htaken hslot hs
      omega
    · rcases exec_accepting_due (Nat.eq_zero_of_not_pos hslot) hs with hbefore | hnow
      · have hwas := hdue.held a s hbefore
        rw [hposted, total_append]
        omega
      · omega
  · change (st.exec c instr).1.accepting a = none
    rcases advance_entry h hx with ⟨s, rfl⟩ | hx | hbeside
    · exact hhand.elim
    · cases x with
      | insertWait a' =>
        obtain rfl : a' = a := hhand
        exact next_insertWait hinv hentry hx
      | errorAccept a' =>
        obtain rfl : a' = a := hhand
        cases exec_next hx with
        | errorAccept => exact setAccept_none st a'
      | _ => exact hhand.elim
    · have hpos : 0 < x.slot a := by
        cases x with
        | insertWait a' | errorAccept a' =>
          obtain rfl : a' = a := hhand
          simp [Instr.slot]
        | _ => exact hhand.elim
      have hweight := hbeside.weight (Instr.slot a)
      rw [(slot_stays c instr a hinv hpos (by omega)).2]
      exact hdue.empty a x hbeside.entry hhand

theorem acceptDue_step {act : ServerAct} {st' : Server} (hinv : ServerInv st)
    (hdue : AcceptDue st) (htaken : acceptTaken st act = true)
    (h : serverStep st act = some st') : AcceptDue st' := by
  cases act with
  | advance t c =>
    simp only [serverStep] at h
    split at h
    · rename_i instr rest hthread
      cases h
      apply acceptDue_advance hinv hdue hthread
      rintro a s rfl
      simpa only [acceptTaken, hthread] using htaken
    · contradiction
  | complete k completion =>
    obtain ⟨op, hop, rfl⟩ := Option.map_eq_some_iff.mp h
    have hslot : ∀ a, op.slot a = (op.handler completion).slot a := by
      intro a
      cases op <;> cases completion <;> rfl
    refine ⟨fun a s hs => ?_, fun a x hx hhand => ?_⟩
    · have hwas := hdue.held a s hs
      have herase := total_eraseIdx (Posted.slot a) hop
      have hsame := hslot a
      simp only [weigh_append, weigh_cons, weigh_nil, total_cons, total_nil]
      omega
    · obtain ⟨thread, hthread, hx⟩ := hx
      rcases List.mem_append.mp hthread with hthread | hthread
      · exact hdue.empty a x ⟨thread, hthread, hx⟩ hhand
      · cases List.mem_singleton.mp hthread
        cases List.mem_singleton.mp hx
        cases op <;> cases completion <;> exact hhand.elim
  | shutdown =>
    cases h
    refine ⟨fun a s hs => ?_, fun a x hx hhand => ?_⟩
    · have hwas := hdue.held a s hs
      simp only [weigh_append]
      omega
    · obtain ⟨thread, hthread, hx⟩ := hx
      rcases List.mem_append.mp hthread with hthread | hthread
      · exact hdue.empty a x ⟨thread, hthread, hx⟩ hhand
      · cases List.mem_singleton.mp hthread
        cases shutdown_spawned hx with
        | @handler op _ completion => cases op <;> cases completion <;> exact hhand.elim
        | _ => exact hhand.elim

theorem acceptDue_reaches {roomCount poolSize acceptCount : Nat}
    (h : Reaches serverStep (fun st act => acceptTaken st act = true)
      (.start roomCount poolSize acceptCount) st) : AcceptDue st := by
  apply h.invariant (I := AcceptDue)
  · refine ⟨fun a s hs => ?_, fun a x hx hhand => ?_⟩
    · exact absurd (accepting_holds hs) start_free
    · rcases start_entry hx with ⟨i, rfl⟩ | ⟨a', rfl⟩ <;> exact hhand.elim
  · intro st act st' hreaches hdue htaken hstep
    exact acceptDue_step (serverInv_reaches hreaches) hdue htaken hstep

/-- No `AcceptEx` is refused: once all is quiet the AcceptObjects are empty, and a server
that nobody is registered in and whose rooms are empty has all its sessions back. -/
theorem accepts_drained {roomCount poolSize acceptCount : Nat}
    (h : Reaches serverStep (fun st act => acceptTaken st act = true)
      (.start roomCount poolSize acceptCount) st) (hquiet : st.Quiet) :
    (∀ a, st.accepting a = none) ∧
      ((∀ n, st.userSession.find n = none) →
        (∀ i < st.roomCount, (st.jobQueues i).jobs = [] ∧ ∀ s, ¬(st.rooms i).Has s) →
        st.pool.freeCount = poolSize ∧ ∀ s < poolSize, s ∈ st.pool.pools) := by
  have hdue := acceptDue_reaches h
  have hempty : ∀ a, st.accepting a = none := by
    intro a
    cases haccepting : st.accepting a with
    | none => rfl
    | some s =>
      have hpos := hdue.held a s haccepting
      rw [hquiet.posted, quiet_weigh hquiet _ fun _ => rfl] at hpos
      exact absurd hpos (Nat.lt_irrefl 0)
  refine ⟨hempty, fun husers hrooms => ?_⟩
  have hsize := maxSize_reaches h
  have hfree : ∀ s < poolSize, ¬ st.InUse s := by
    intro s _ huse
    cases huse with
    | registered hfind => simp [husers] at hfind
    | member hi hhas => exact (hrooms _ hi).2 s hhas
    | job hi hjob _ => simp [(hrooms _ hi).1] at hjob
    | accept hmem =>
      obtain ⟨a, ha⟩ := List.mem_iff_getElem?.mp hmem
      have haccepting : st.accepting a = some s := by
        rw [Server.accepting, List.getD_eq_getElem?_getD, ha]
        rfl
      exact absurd (haccepting.symm.trans (hempty a)) (by simp)
  have hpools : ∀ s < poolSize, s ∈ st.pool.pools := by
    intro s hlt
    by_contra hout
    exact hfree s hlt ((quiet_out h.any hquiet hlt).mp hout)
  have hpool := (kept_reaches h).pool
  have hmissing := hpool.sound.missing hpool.count (fun _ => false) (by
    intro s hlt
    simp [hpools s (hsize ▸ hlt)])
  rw [List.countP_false, Function.const_apply, hsize] at hmissing
  exact ⟨by omega, hpools⟩

end

/-- The two posted calls fail and are handled; the room's thread ends. -/
def drained : List ServerAct :=
  [.complete 0 .failed, .complete 0 .failed] ++ advancesOn 4 10 0 ++ advancesOn 5 6 0 ++
    advancesOn 0 4 0

/-- The same shutdown, in which the kernel takes every AcceptObject. -/
theorem accepts_drained_shutDown :
    ∃ st, Reaches serverStep (fun st act => acceptTaken st act = true) (.start 1 2 1) st ∧
      st.listenStop = true ∧ ∀ a, st.accepting a = none := by
  have hrun : (run (guarded serverStep fun st act => acceptTaken st act = true) (.start 1 2 1)
      (servedThenShutDown ++ drained)).any (fun st => decide (st.posted = [] ∧
        st.threads.all List.isEmpty = true ∧ st.listenStop = true)) = true := by decide +kernel
  obtain ⟨st, hst, hends⟩ := (Option.any_eq_true _ _).mp hrun
  obtain ⟨hposted, hthreads, hstop⟩ := of_decide_eq_true hends
  have hreaches : Reaches serverStep (fun st act => acceptTaken st act = true) (.start 1 2 1) st :=
    reaches_of_run _ .start hst
  have hquiet : st.Quiet := by
    refine ⟨hposted, fun thread hthread => .inl ?_⟩
    exact List.isEmpty_iff.mp (List.all_eq_true.mp hthreads thread hthread)
  exact ⟨st, hreaches, hstop, (accepts_drained hreaches hquiet).1⟩

end RoomServer
