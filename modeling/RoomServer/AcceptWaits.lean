import RoomServer.Orphans

/-! AcceptObjects that wait for a session beside sessions that wait in the pool. Whoever
puts one of either there still has to look at both; the debt is counted over the threads. -/
namespace RoomServer
open Library Library.Threads Library.Transition

def Instr.pushing : Instr → Nat
  | .poolPush _ => 1
  | _ => 0

def Instr.taking : Instr → Nat
  | .reTake _ => 1
  | _ => 0

def Instr.again : Instr → Nat
  | .reWaiting => 1
  | _ => 0

def Instr.looking : Instr → Nat
  | .reTest | .rePop => 1
  | _ => 0

def Instr.shuts : Instr → Bool
  | .listenShutdown | .clearWaitQueue => true
  | _ => false

def Instr.returns : Instr → Bool
  | .poolPush _ | .reWaiting | .reTest | .rePop | .reTake _ => true
  | _ => false

def Instr.inAccept : Instr → Bool
  | .pushSession _ | .poolPush _ | .reWaiting | .reTest | .rePop | .reTake _ | .accept _ _ _
  | .acceptPop _ | .insertWait _ | .makeSocket _ _ | .acceptEx _ _ => true
  | _ => false

theorem weights_zero {x : Instr} (h : x.returns = false) :
    x.pushing = 0 ∧ x.taking = 0 ∧ x.again = 0 ∧ x.looking = 0 := by
  cases x with
  | poolPush | reWaiting | reTest | rePop | reTake => contradiction
  | _ => exact ⟨rfl, rfl, rfl, rfl⟩

section
variable {c : Choice} {st : Server} {instr x : Instr} {t : Nat} {rest thread next : List Instr}

/-! ### The listener stays open -/

structure OpenInv (st : Server) : Prop where
  running : st.listenStop = false
  entries : ∀ x, Entry st.threads x → x.shuts = false

theorem exec_listenStop (c : Choice) (st : Server) (h : instr.shuts = false) :
    (st.exec c instr).1.listenStop = st.listenStop := by
  cases instr with
  | listenShutdown => contradiction
  | rePop | acceptPop a =>
    rcases popSession_cases st with hpop | ⟨s', pool, hpop, _⟩ <;>
      simp only [Server.exec, hpop] <;> rfl
  | effect e => cases e <;> rfl
  | _ =>
    simp only [Server.exec] <;> (repeat' split) <;> rfl

theorem openInv_advance (hinv : OpenInv st) (h : st.threads[t]? = some (instr :: rest)) :
    OpenInv (st.advance t c instr rest) := by
  refine ⟨(exec_listenStop c st (hinv.entries instr (entry_head h))).trans hinv.running, ?_⟩
  intro x hx
  rcases advance_entry h hx with ⟨s, rfl⟩ | hx | hx
  · rfl
  · cases exec_next hx <;> rfl
  · exact hinv.entries x hx.entry

theorem openInv_complete (hinv : OpenInv st) {k : Nat} {op : Posted} (completion : Completion) :
    OpenInv { st with
      posted := st.posted.eraseIdx k
      threads := st.threads ++ [[op.handler completion]] } := by
  refine ⟨hinv.running, fun x hx => ?_⟩
  rcases entry_spawn hx with hx | hx
  · exact hinv.entries x hx
  · cases List.mem_singleton.mp hx
    cases op <;> cases completion <;> rfl

theorem openInv_start (roomCount poolSize acceptCount : Nat) :
    OpenInv (.start roomCount poolSize acceptCount) := by
  refine ⟨rfl, fun x hx => ?_⟩
  rcases start_entry hx with ⟨i, rfl⟩ | ⟨a, rfl⟩ <;> rfl

theorem step_before_shutdown {act : ServerAct} {st' : Server} (hact : beforeShutdown act = true)
    (hstep : serverStep st act = some st') :
    (∃ t c instr rest, act = .advance t c ∧ st.threads[t]? = some (instr :: rest) ∧
      st' = st.advance t c instr rest) ∨
    ∃ k op completion, act = .complete k completion ∧ st.posted[k]? = some op ∧ st' =
      { st with
        posted := st.posted.eraseIdx k
        threads := st.threads ++ [[op.handler completion]] } := by
  cases act with
  | advance t c =>
    simp only [serverStep] at hstep
    split at hstep
    · rename_i instr rest hthread
      cases hstep
      exact .inl ⟨t, c, instr, rest, rfl, hthread, rfl⟩
    · contradiction
  | complete k completion =>
    obtain ⟨op, hop, rfl⟩ := Option.map_eq_some_iff.mp hstep
    exact .inr ⟨k, op, completion, rfl, hop, rfl⟩
  | shutdown => exact absurd hact Bool.false_ne_true

/-! ### After every push `ReWaiting` -/

/-- Whoever is about to push a session has `ReWaiting` right behind. -/
def Paired : List Instr → Prop
  | [] => True
  | instr :: rest => (0 < instr.pushing → rest.head? = some .reWaiting) ∧ Paired rest

theorem Paired.append (hnext : Paired next) (hrest : Paired rest) : Paired (next ++ rest) := by
  induction next with
  | nil => exact hrest
  | cons x next ih =>
    refine ⟨fun hx => ?_, ih hnext.2⟩
    have hhead := hnext.1 hx
    cases next with
    | nil => contradiction
    | cons y next => exact hhead

theorem paired_of_forall (h : ∀ x ∈ next, x.pushing = 0) : Paired next := by
  induction next with
  | nil => trivial
  | cons x next ih =>
    rw [List.forall_mem_cons] at h
    exact ⟨fun hx => absurd hx (by omega), ih h.2⟩

/-- A thread that begins with `ReWaiting` has one more of it than it needs. -/
theorem Paired.total_le (h : Paired thread) :
    total Instr.pushing thread + total Instr.again (thread.take 1) ≤ total Instr.again thread := by
  induction thread with
  | nil => exact Nat.le_refl 0
  | cons x rest ih =>
    have hrest := ih h.2
    simp only [List.take_succ_cons, List.take_zero, total_cons, total_nil]
    cases x with
    | poolPush s =>
      obtain ⟨rest', rfl⟩ := List.head?_eq_some_iff.mp (h.1 Nat.one_pos)
      simp only [List.take_succ_cons, List.take_zero, total_cons, total_nil, Instr.pushing,
        Instr.again] at hrest ⊢
      omega
    | _ =>
      simp only [Instr.pushing, Instr.again]
      omega

theorem weigh_pushing_le {threads : List (List Instr)} (h : ∀ thread ∈ threads, Paired thread) :
    weigh Instr.pushing threads ≤ weigh Instr.again threads := by
  induction threads with
  | nil => exact Nat.le_refl 0
  | cons thread threads ih =>
    rw [List.forall_mem_cons] at h
    have hthread := h.1.total_le
    have hthreads := ih h.2
    rw [weigh_cons, weigh_cons]
    omega

theorem exec_paired (c : Choice) (st : Server) (instr : Instr) : Paired (st.exec c instr).2 := by
  by_cases hpush : ∃ s, instr = .pushSession s
  · obtain ⟨s, rfl⟩ := hpush
    exact ⟨fun _ => rfl, nofun, trivial⟩
  · apply paired_of_forall
    intro x hx
    cases exec_next hx with
    | poolPush s => exact absurd ⟨s, rfl⟩ hpush
    | _ => rfl

theorem paired_advance (hinv : ∀ thread ∈ st.threads, Paired thread)
    (h : st.threads[t]? = some (instr :: rest)) :
    ∀ thread ∈ (st.advance t c instr rest).threads, Paired thread := by
  obtain ⟨released, hthreads, hreleased⟩ := advance_threads st t c instr rest
  have hrest : Paired rest := (hinv _ (List.mem_of_getElem? h)).2
  have hpushes : Paired released := by
    apply paired_of_forall
    intro x hx
    obtain ⟨s, rfl⟩ := hreleased x hx
    rfl
  rw [hthreads]
  intro thread hthread
  rcases List.mem_or_eq_of_mem_set hthread with hold | rfl
  · exact hinv thread hold
  · exact (hpushes.append (exec_paired c st instr)).append hrest

/-! ### Somebody still looks -/

/-- A session in the pool beside a free place in the queue, and a session on its way
there: for each of them somebody will look. -/
structure WaitInv (st : Server) : Prop where
  opened : OpenInv st
  sound : st.pool.Sound
  paired : ∀ thread ∈ st.threads, Paired thread
  due : min st.pool.pools.length (st.waitQueue.length - weigh Instr.taking st.threads) +
      weigh Instr.pushing st.threads ≤
    weigh Instr.again st.threads + weigh Instr.looking st.threads

def Instr.waits : Instr → Bool
  | .poolPush _ | .rePop | .reTake _ | .acceptPop _ | .insertWait _ | .clearWaitQueue => true
  | _ => false

theorem exec_waits (c : Choice) (st : Server) {instr : Instr} (h : instr.waits = false) :
    (st.exec c instr).1.pool = st.pool ∧ (st.exec c instr).1.waitQueue = st.waitQueue := by
  cases instr with
  | poolPush | rePop | reTake | acceptPop | insertWait | clearWaitQueue => contradiction
  | effect e => cases e <;> exact ⟨rfl, rfl⟩
  | _ =>
    refine ⟨?_, ?_⟩ <;> simp only [Server.exec] <;> (repeat' split) <;> rfl

theorem exec_sound (hsound : st.pool.Sound) (c : Choice) (instr : Instr) :
    (st.exec c instr).1.pool.Sound := by
  cases hwaits : instr.waits with
  | false =>
    rw [(exec_waits c st hwaits).1]
    exact hsound
  | true =>
    have hpopped : st.popSession.1.pool = st.pool.pop.1 := by
      unfold Server.popSession
      dsimp only
      split <;> rfl
    have hpop := ObjectPool.pop_sound hsound
    rw [← hpopped] at hpop
    cases instr with
    | poolPush s => exact ObjectPool.push_sound hsound s
    | rePop =>
      simp only [Server.exec]
      split <;> exact hpop
    | acceptPop a =>
      simp only [Server.exec]
      split <;> exact hpop
    | reTake s =>
      simp only [Server.exec]
      split <;> exact hsound
    | insertWait a => exact hsound
    | clearWaitQueue => exact hsound
    | _ => contradiction

theorem total_quiet (c : Choice) (st : Server) (instr : Instr)
    (h : ∀ x, Next c st instr x → x.returns = false) :
    total Instr.pushing (st.exec c instr).2 = 0 ∧ total Instr.taking (st.exec c instr).2 = 0 ∧
      total Instr.again (st.exec c instr).2 = 0 ∧ total Instr.looking (st.exec c instr).2 = 0 :=
  ⟨total_next_zero _ c st instr fun x hx => (weights_zero (h x hx)).1,
    total_next_zero _ c st instr fun x hx => (weights_zero (h x hx)).2.1,
    total_next_zero _ c st instr fun x hx => (weights_zero (h x hx)).2.2.1,
    total_next_zero _ c st instr fun x hx => (weights_zero (h x hx)).2.2.2⟩

/-- `P`, `T`, `A` and `L` are what the other entries weigh. -/
theorem exec_due (hopen : OpenInv st) (hsound : st.pool.Sound) (hshuts : instr.shuts = false)
    {P T A L : Nat} (hpaired : P + instr.pushing ≤ A + instr.again)
    (hdue : min st.pool.pools.length (st.waitQueue.length - (T + instr.taking)) +
      (P + instr.pushing) ≤ A + instr.again + (L + instr.looking)) :
    min (st.exec c instr).1.pool.pools.length
        ((st.exec c instr).1.waitQueue.length - (T + total Instr.taking (st.exec c instr).2)) +
      (P + total Instr.pushing (st.exec c instr).2) ≤
    A + total Instr.again (st.exec c instr).2 + (L + total Instr.looking (st.exec c instr).2) := by
  have hrunning := hopen.running
  have hsame : instr.waits = false → _ := exec_waits c st
  have hquiet := total_quiet c st instr
  cases instr with
  | listenShutdown | clearWaitQueue => contradiction
  | pushSession s =>
    simp [Server.exec, Server.setSession, Instr.pushing, Instr.taking, Instr.again,
      Instr.looking] at hdue ⊢
    omega
  | poolPush s =>
    simp only [Instr.pushing, Instr.taking, Instr.again, Instr.looking] at hpaired hdue
    rcases st.pool.push_pools s with ⟨hpools, hpushed, _⟩ | ⟨hpool, hpushed⟩
    · simp [Server.exec, Server.setSession, hpools]
      omega
    · simp [Server.exec, Server.setSession, hpool]
      omega
  | reTest =>
    simp only [Instr.pushing, Instr.taking, Instr.again, Instr.looking] at hpaired hdue
    cases hqueue : st.waitQueue with
    | nil =>
      simp [Server.exec, hqueue]
      omega
    | cons a waitQueue =>
      rw [hqueue] at hdue
      simpa [Server.exec, hqueue, Instr.pushing, Instr.taking, Instr.again, Instr.looking]
        using hdue
  | rePop =>
    simp only [Instr.pushing, Instr.taking, Instr.again, Instr.looking] at hpaired hdue
    rcases hsound.pop_cases with ⟨hpools, hpop⟩ | ⟨s, pools, hpools, hpop⟩
    · simp [Server.exec, Server.popSession, hpop, hpools]
      omega
    · simp [Server.exec, Server.popSession, hpop, Instr.pushing, Instr.taking, Instr.again,
        Instr.looking]
      simp only [hpools, List.length_cons] at hdue
      omega
  | acceptPop a =>
    simp only [Instr.pushing, Instr.taking, Instr.again, Instr.looking] at hdue
    rcases hsound.pop_cases with ⟨hpools, hpop⟩ | ⟨s, pools, hpools, hpop⟩
    · simp [Server.exec, Server.popSession, Server.setAccept, hpop, hpools, Instr.pushing,
        Instr.taking, Instr.again, Instr.looking]
      omega
    · simp [Server.exec, Server.popSession, Server.setAccept, hpop, Instr.pushing,
        Instr.taking, Instr.again, Instr.looking]
      simp only [hpools, List.length_cons] at hdue
      omega
  | insertWait a =>
    simp [Server.exec, Instr.pushing, Instr.taking, Instr.again, Instr.looking] at hdue ⊢
    omega
  | reTake s =>
    simp only [Instr.pushing, Instr.taking, Instr.again, Instr.looking] at hdue
    cases hqueue : st.waitQueue with
    | nil =>
      simp [Server.exec, hqueue]
      omega
    | cons a waitQueue =>
      rw [hqueue, List.length_cons] at hdue
      simp [Server.exec, Server.setAccept, hqueue, Instr.pushing, Instr.taking, Instr.again,
        Instr.looking]
      omega
  | reWaiting =>
    simp [Server.exec, hrunning, Instr.pushing, Instr.taking, Instr.again, Instr.looking] at hdue ⊢
    omega
  | _ =>
    obtain ⟨hpool, hqueue⟩ := hsame rfl
    obtain ⟨hpushing, htaking, hagain, hlooking⟩ := hquiet fun x hx => by cases hx <;> rfl
    rw [hpool, hqueue, hpushing, htaking, hagain, hlooking]
    simp only [Instr.pushing, Instr.taking, Instr.again, Instr.looking] at hdue
    omega

theorem waitInv_advance (hinv : WaitInv st) (h : st.threads[t]? = some (instr :: rest)) :
    WaitInv (st.advance t c instr rest) := by
  have hpushing := advance_weigh (c := c) Instr.pushing (fun _ => rfl) h
  have htaking := advance_weigh (c := c) Instr.taking (fun _ => rfl) h
  have hagain := advance_weigh (c := c) Instr.again (fun _ => rfl) h
  have hlooking := advance_weigh (c := c) Instr.looking (fun _ => rfl) h
  have hentry := entry_head h
  have hpaired := weigh_pushing_le hinv.paired
  have hle := le_weigh Instr.pushing hentry
  have hle' := le_weigh Instr.taking hentry
  have hle'' := le_weigh Instr.again hentry
  have hle''' := le_weigh Instr.looking hentry
  have hdue := hinv.due
  refine ⟨openInv_advance hinv.opened h, exec_sound hinv.sound c instr,
    paired_advance hinv.paired h, ?_⟩
  have hexec := exec_due (c := c) hinv.opened hinv.sound (hinv.opened.entries instr hentry)
    (P := weigh Instr.pushing st.threads - instr.pushing)
    (T := weigh Instr.taking st.threads - instr.taking)
    (A := weigh Instr.again st.threads - instr.again)
    (L := weigh Instr.looking st.threads - instr.looking) (by omega)
    (by rw [Nat.sub_add_cancel hle']; omega)
  rw [advance_pool, advance_waitQueue]
  have hT : weigh Instr.taking (st.advance t c instr rest).threads =
      weigh Instr.taking st.threads - instr.taking + total Instr.taking (st.exec c instr).2 := by
    omega
  rw [hT]
  omega

theorem waitInv_complete (hinv : WaitInv st) {k : Nat} {op : Posted} (completion : Completion) :
    WaitInv { st with
      posted := st.posted.eraseIdx k
      threads := st.threads ++ [[op.handler completion]] } := by
  have hhandler : (op.handler completion).returns = false := by
    cases op <;> cases completion <;> rfl
  have hzero := weights_zero hhandler
  refine ⟨openInv_complete hinv.opened completion, hinv.sound, ?_, ?_⟩
  · intro thread hthread
    rcases List.mem_append.mp hthread with hold | hnew
    · exact hinv.paired thread hold
    · cases List.mem_singleton.mp hnew
      apply paired_of_forall
      intro x hx
      cases List.mem_singleton.mp hx
      cases op <;> cases completion <;> rfl
  · simpa [hzero] using hinv.due

theorem waitInv_start (roomCount poolSize acceptCount : Nat) :
    WaitInv (.start roomCount poolSize acceptCount) := by
  have hzero (weight : Instr → Nat) (hstart : ∀ i, weight (.startJob i) = 0)
      (haccept : ∀ a, weight (.accept a true false) = 0) :
      weigh weight (Server.start roomCount poolSize acceptCount).threads = 0 := by
    apply weigh_zero
    intro x hx hpos
    rcases start_entry hx with ⟨i, rfl⟩ | ⟨a, rfl⟩
    · exact Nat.ne_of_gt hpos (hstart i)
    · exact Nat.ne_of_gt hpos (haccept a)
  refine ⟨openInv_start roomCount poolSize acceptCount, ObjectPool.init_sound poolSize, ?_, ?_⟩
  · intro thread hthread
    apply paired_of_forall
    intro x hx
    rcases start_entry ⟨thread, hthread, hx⟩ with ⟨i, rfl⟩ | ⟨a, rfl⟩ <;> rfl
  · rw [hzero Instr.pushing (fun _ => rfl) fun _ => rfl]
    simp [Server.start]

end

theorem waitInv_reaches {st : Server} {roomCount poolSize acceptCount : Nat}
    (h : Reaches serverStep (fun _ act => beforeShutdown act = true)
      (.start roomCount poolSize acceptCount) st) : WaitInv st := by
  apply h.invariant (waitInv_start roomCount poolSize acceptCount)
  intro st act st' _ hinv hok hstep
  rcases step_before_shutdown hok hstep with ⟨t, c, instr, rest, _, hthread, rfl⟩ |
    ⟨k, op, completion, _, _, rfl⟩
  · exact waitInv_advance hinv hthread
  · exact waitInv_complete hinv completion

/-- Whenever nobody is inside `Accept`, `PushSession` or `ReWaiting`, no AcceptObject waits
while a session is in the pool. -/
theorem no_lost_wakeup {st : Server} {roomCount poolSize acceptCount : Nat}
    (h : Reaches serverStep (fun _ act => beforeShutdown act = true)
      (.start roomCount poolSize acceptCount) st) :
    ((∀ x, Entry st.threads x → x.inAccept = false) →
      st.waitQueue = [] ∨ st.pool.pools = []) ∧
    (∀ a, st.waitQueue.count a ≤ 1) ∧ ∀ s, st.acceptObjects.count (some s) ≤ 1 := by
  have hserver := serverInv_reaches h
  refine ⟨fun hidle => ?_, fun a => ?_, fun s => ?_⟩
  · have hdue := (waitInv_reaches h).due
    have hzero (weight : Instr → Nat) (hweight : ∀ x, x.returns = false → weight x = 0) :
        weigh weight st.threads = 0 := by
      apply weigh_zero
      intro x hx hpos
      have hout := hidle x hx
      refine Nat.ne_of_gt hpos (hweight x ?_)
      cases x with
      | poolPush | reWaiting | reTest | rePop | reTake => contradiction
      | _ => rfl
    rw [hzero _ fun x hx => (weights_zero hx).1, hzero _ fun x hx => (weights_zero hx).2.1,
      hzero _ fun x hx => (weights_zero hx).2.2.1, hzero _ fun x hx => (weights_zero hx).2.2.2]
      at hdue
    cases hqueue : st.waitQueue with
    | nil => exact .inl rfl
    | cons a waitQueue =>
      right
      rw [hqueue, List.length_cons] at hdue
      exact List.eq_nil_of_length_eq_zero (by omega)
  · have hslots := hserver.slots a
    split at hslots <;> omega
  · have hgivens := hserver.givens s
    omega

/-- One session for two AcceptObjects: the second has to wait. -/
theorem no_lost_wakeup_waiting :
    ∃ st, Reaches serverStep (fun _ act => beforeShutdown act = true) (.start 0 1 2) st ∧
      st.waitQueue = [1] ∧ (st.waitQueue = [] ∨ st.pool.pools = []) := by
  have hrun : (run (guarded serverStep fun _ act => beforeShutdown act = true) (.start 0 1 2)
      (advances 0 11)).any (fun st => decide (st.waitQueue = [1] ∧
        st.threads.all (fun thread => thread.all fun x => !x.inAccept) = true)) = true := by
    decide +kernel
  obtain ⟨st, hst, hends⟩ := (Option.any_eq_true _ _).mp hrun
  obtain ⟨hqueue, hthreads⟩ := of_decide_eq_true hends
  have hreaches : Reaches serverStep (fun _ act => beforeShutdown act = true) (.start 0 1 2) st :=
    reaches_of_run _ .start hst
  refine ⟨st, hreaches, hqueue, (no_lost_wakeup hreaches).1 ?_⟩
  rintro x ⟨thread, hthread, hx⟩
  have hnone := List.all_eq_true.mp (List.all_eq_true.mp hthreads thread hthread) x hx
  simpa using hnone

end RoomServer
