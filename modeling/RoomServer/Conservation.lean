import RoomServer.AcceptWaits
import RoomServer.SocketNumbers

/-! Where the sessions of the pool are. The ledgers say that nothing is doubled; here
nothing is lost either, so that each session is in the pool, on its way back to it, or
held by somebody, and once all is quiet the missing ones are those still in use. -/
namespace RoomServer
open Library Library.Threads Library.Transition

section
variable {c : Choice} {st : Server} {instr x : Instr} {a s t : Nat} {rest thread : List Instr}

/-! ### The pool -/

/-- The stack of the pool holds whatever is not in use, and the counter counts it. -/
structure PoolExact (st : Server) : Prop where
  sound : st.pool.Sound
  complete : ∀ s < st.pool.maxSize, st.pool.isUse s = false → s ∈ st.pool.pools
  count : st.pool.freeCount = st.pool.pools.length

theorem exec_poolExact (h : PoolExact st) (c : Choice) (instr : Instr) :
    PoolExact (st.exec c instr).1 := by
  have hsound := exec_sound h.sound c instr
  have hpopped : st.popSession.1.pool = st.pool.pop.1 := by
    unfold Server.popSession
    dsimp only
    split <;> rfl
  have hpop : (st.exec c instr).1.pool = st.pool.pop.1 → PoolExact (st.exec c instr).1 := by
    intro hpool
    rcases h.sound.pop_cases with ⟨_, hpop⟩ | ⟨object, pools, hpools, hpop⟩
    · rw [hpop] at hpool
      exact ⟨hsound, hpool ▸ h.complete, hpool ▸ h.count⟩
    · rw [hpop] at hpool
      have hcount := h.count
      rw [hpools, List.length_cons] at hcount
      refine ⟨hsound, fun s hlt huse => ?_, ?_⟩
      · rw [hpool] at hlt huse ⊢
        have hne : s ≠ object := by
          rintro rfl
          simp at huse
        have hmem := h.complete s hlt (by simpa [Function.update_of_ne hne] using huse)
        rw [hpools] at hmem
        exact (List.mem_cons.mp hmem).resolve_left hne
      · rw [hpool]
        dsimp only
        omega
  cases hwaits : instr.waits with
  | false =>
    have hpool := (exec_waits c st hwaits).1
    exact ⟨hsound, hpool ▸ h.complete, hpool ▸ h.count⟩
  | true =>
    cases instr with
    | poolPush s =>
      have hpool : (st.exec c (.poolPush s)).1.pool = (st.pool.push s).1 := rfl
      have hcount := h.count
      refine ⟨hsound, fun s' hlt huse => ?_, ?_⟩ <;> rw [hpool] at * <;> unfold ObjectPool.push at *
      · split at huse
        case isTrue hused =>
          rw [if_pos hused] at hlt ⊢
          by_cases hs : s' = s
          · exact hs ▸ List.mem_cons_self
          · exact List.mem_cons_of_mem _ (h.complete s' hlt
              (by simpa [Function.update_of_ne hs] using huse))
        case isFalse hused =>
          rw [if_neg hused] at hlt ⊢
          exact h.complete s' hlt huse
      · split
        · simp only [List.length_cons, hcount]
          omega
        · exact hcount
    | rePop | acceptPop a =>
      apply hpop
      rw [← hpopped]
      simp only [Server.exec]
      split <;> rfl
    | reTake s =>
      have hpool : (st.exec c (.reTake s)).1.pool = st.pool := by
        simp only [Server.exec]
        split <;> rfl
      exact ⟨hsound, hpool ▸ h.complete, hpool ▸ h.count⟩
    | insertWait a | clearWaitQueue => exact ⟨hsound, h.complete, h.count⟩
    | _ => contradiction

theorem PoolExact.push (h : PoolExact st) (hlt : s < st.pool.maxSize)
    (hout : s ∉ st.pool.pools) : (st.pool.push s).1.pools = s :: st.pool.pools := by
  have huse : st.pool.isUse s = true := by
    by_contra hfree
    exact hout (h.complete s hlt (by simpa using hfree))
  unfold ObjectPool.push
  rw [if_pos (by simp [hlt, huse])]

/-! ### No session is lost -/

structure Kept (st : Server) : Prop where
  pool : PoolExact st
  kept : ∀ s < st.pool.maxSize, 1 ≤ st.pool.pools.count s +
    weigh (Instr.returning s) st.threads + if 0 < st.useCount s then 1 else 0

/-- The last reference that goes sends the session back. -/
theorem released_mem {before after : Server} (hlt : s < before.pool.maxSize)
    (hbefore : 0 < before.useCount s) (hafter : after.useCount s = 0) :
    .pushSession s ∈ Server.released before after := by
  apply List.mem_map_of_mem
  rw [List.mem_filter]
  refine ⟨List.mem_range.mpr hlt, ?_⟩
  simp [hbefore, hafter]

theorem advance_released (h : st.threads[t]? = some (instr :: rest)) (hlt : s < st.pool.maxSize)
    (hbefore : 0 < st.useCount s) (hafter : (st.advance t c instr rest).useCount s = 0) :
    0 < weigh (Instr.returning s) (st.advance t c instr rest).threads := by
  rw [advance_useCount] at hafter
  have hmem := released_mem hlt hbefore hafter
  obtain ⟨ht, _⟩ := List.getElem?_eq_some_iff.mp h
  have hentry : Entry (st.advance t c instr rest).threads (.pushSession s) :=
    ⟨_, List.mem_set ht _, List.mem_append_left _ hmem⟩
  have hle := le_weigh (Instr.returning s) hentry
  simp only [Instr.returning, if_true] at hle
  exact hle

/-- What is in the pool, or on its way there, stays so unless it is popped. -/
theorem exec_kept (hpool : PoolExact st) (hlt : s < st.pool.maxSize)
    (hout : 0 < instr.returning s → s ∉ st.pool.pools) (hpops : ¬ st.Pops s instr) :
    st.pool.pools.count s + instr.returning s ≤
      (st.exec c instr).1.pool.pools.count s + total (Instr.returning s) (st.exec c instr).2 := by
  cases instr with
  | pushSession s' => simp [Server.exec, Server.setSession, Instr.returning]
  | poolPush s' =>
    by_cases hs : s' = s
    · subst hs
      have hpush := hpool.push hlt (hout (by simp [Instr.returning]))
      simp [Server.exec, Server.setSession, Instr.returning, hpush]
    · rcases st.pool.push_pools s' with ⟨hpools, _⟩ | ⟨hsame, _⟩
      · simp [Server.exec, Server.setSession, Instr.returning, hpools, hs]
      · simp [Server.exec, Server.setSession, Instr.returning, hsame, hs]
  | rePop | acceptPop a =>
    simp only [Server.Pops] at hpops
    rcases popSession_cases st with hpop | ⟨s', pool, hpop, hpools, _⟩
    · simp [Server.exec, Server.setAccept, hpop, Instr.returning]
    · simp only [hpop, Option.some.injEq] at hpops
      simp [Server.exec, Server.setAccept, hpop, hpools, hpops, Instr.returning]
  | reTake s' =>
    have hsame : (st.exec c (.reTake s')).1.pool = st.pool := by
      simp only [Server.exec]
      split <;> rfl
    simp [hsame, Instr.returning]
  | insertWait a => simp [Server.exec, Instr.returning]
  | clearWaitQueue => simp [Server.exec, Instr.returning]
  | _ =>
    rw [(exec_waits c st rfl).1]
    exact Nat.le_add_right _ _

theorem pops_useCount (h : st.threads[t]? = some (instr :: rest)) (hpops : st.Pops s instr) :
    0 < (st.advance t c instr rest).useCount s := by
  obtain ⟨hinstr, pool, hpop, _⟩ := pops_cases hpops
  have hdrop : .drop s ∈ (st.exec c instr).2 := by
    rcases hinstr with rfl | ⟨a, rfl⟩ <;> simp [Server.exec, hpop]
  obtain ⟨released, hthreads, _⟩ := advance_threads st t c instr rest
  apply Holds.iff.mpr
  apply Holds.entry (x := .drop s)
  · rw [hthreads]
    exact entry_next h (List.mem_append_right released hdrop)
  · simp [Instr.refs]

theorem kept_advance (hinv : ServerInv st) (hkept : Kept st)
    (h : st.threads[t]? = some (instr :: rest)) : Kept (st.advance t c instr rest) := by
  refine ⟨?_, fun s hlt => ?_⟩
  · have hpool := exec_poolExact hkept.pool c instr
    exact ⟨hpool.sound, hpool.complete, hpool.count⟩
  · rw [advance_pool, exec_maxSize] at hlt
    by_cases hafter : 0 < (st.advance t c instr rest).useCount s
    · rw [if_pos hafter]
      exact Nat.le_add_left 1 _
    · rw [if_neg hafter, Nat.add_zero]
      have hzero : (st.advance t c instr rest).useCount s = 0 := Nat.eq_zero_of_not_pos hafter
      by_cases hbefore : 0 < st.useCount s
      · have hreturning := advance_released (c := c) h hlt hbefore hzero
        omega
      · have hpops : ¬ st.Pops s instr := fun hpops => hafter (pops_useCount h hpops)
        have hsomewhere := hkept.kept s hlt
        rw [if_neg hbefore, Nat.add_zero] at hsomewhere
        have hreturns := hinv.returns s
        have hexec := exec_kept (c := c) hkept.pool hlt (fun hpos hmem => by
          have hle := le_weigh (Instr.returning s) (entry_head h)
          have hcount := List.count_pos_iff.mpr hmem
          omega) hpops
        obtain ⟨released, hthreads, _⟩ := advance_threads st t c instr rest
        have hweigh := weigh_set (Instr.returning s) (released ++ (st.exec c instr).2) h
        rw [total_append] at hweigh
        rw [advance_pool, hthreads]
        omega

theorem kept_spawn (hkept : Kept st) (posted : List Posted) (thread : List Instr) :
    Kept { st with posted := posted, threads := st.threads ++ [thread] } := by
  refine ⟨⟨hkept.pool.sound, hkept.pool.complete, hkept.pool.count⟩, fun s hlt => ?_⟩
  have hsomewhere := hkept.kept s hlt
  have huse : st.useCount s ≤
      ({ st with posted := posted, threads := st.threads ++ [thread] } : Server).useCount s := by
    simp only [Server.useCount, weigh_append]
    omega
  simp only [weigh_append]
  split at hsomewhere <;> split <;> omega

theorem kept_step {act : ServerAct} {st' : Server} (hinv : ServerInv st) (hkept : Kept st)
    (h : serverStep st act = some st') : Kept st' := by
  cases act with
  | advance t c =>
    simp only [serverStep] at h
    split at h
    · rename_i instr rest hthread
      cases h
      exact kept_advance hinv hkept hthread
    · contradiction
  | complete k completion =>
    obtain ⟨op, _, rfl⟩ := Option.map_eq_some_iff.mp h
    exact kept_spawn hkept _ _
  | shutdown =>
    cases h
    exact kept_spawn hkept st.posted _

theorem kept_start (roomCount poolSize acceptCount : Nat) :
    Kept (.start roomCount poolSize acceptCount) := by
  have hin : ∀ s < poolSize, s ∈ (ObjectPool.init poolSize).pools := fun s hlt =>
    List.mem_reverse.mpr (List.mem_range.mpr hlt)
  refine ⟨⟨ObjectPool.init_sound poolSize, fun s hlt _ => hin s hlt, ?_⟩, fun s hlt => ?_⟩
  · simp [Server.start, ObjectPool.init]
  · have hcount := List.count_pos_iff.mpr (hin s hlt)
    change 1 ≤ (ObjectPool.init poolSize).pools.count s + _ + _
    omega

theorem kept_reaches {ok : Server → ServerAct → Prop} {roomCount poolSize acceptCount : Nat}
    (h : Reaches serverStep ok (.start roomCount poolSize acceptCount) st) : Kept st := by
  apply h.invariant (kept_start roomCount poolSize acceptCount)
  intro s act s' hreaches hkept _ hstep
  exact kept_step (serverInv_reaches hreaches) hkept hstep

/-! ### What a receive or a send still has to do -/

theorem exec_posted_append (c : Choice) (st : Server) (instr : Instr) :
    ∃ more, (st.exec c instr).1.posted = st.posted ++ more := by
  have hsame : (st.exec c instr).1.posted = st.posted →
      ∃ more, (st.exec c instr).1.posted = st.posted ++ more := fun h =>
    ⟨[], by rw [h, List.append_nil]⟩
  have haccepted : ∀ (b : Bool) (op : Posted), (st.exec c instr).1.posted =
      (if b = true then st.posted ++ [op] else st.posted) →
      ∃ more, (st.exec c instr).1.posted = st.posted ++ more := by
    intro b op h
    cases b with
    | true => exact ⟨[op], h⟩
    | false => exact hsame h
  cases instr with
  | acceptEx a s => exact haccepted _ _ rfl
  | recvStart s caller => exact haccepted _ _ rfl
  | acceptRecvStart a s => exact haccepted _ _ rfl
  | sending s pc => exact haccepted _ _ rfl
  | rePop | acceptPop a =>
    apply hsame
    rcases popSession_cases st with hpop | ⟨s', pool, hpop, _⟩ <;> simp only [Server.exec, hpop] <;>
      rfl
  | effect e => cases e <;> exact hsame rfl
  | _ =>
    apply hsame
    simp only [Server.exec] <;> (repeat' split) <;> rfl

/-- Between the `Clear()` of `m_Send` and the `WSASend` it holds no session. -/
def SendPc.off : SendPc γ → Bool
  | .drain | .testEmpty | .post | .releaseFlag | .checkSendComplete => true
  | _ => false

structure Due (st : Server) : Prop where
  off : ∀ s pc, Entry st.threads (.sending s pc) → pc.off = true →
    (st.sessions s).sendSession = false
  receives : ∀ s, (st.sessions s).recvSession = true →
    0 < total (Posted.receive s) st.posted + weigh (Instr.receive s) st.threads
  sends : ∀ s, (st.sessions s).sendSession = true →
    0 < total (Posted.token s) st.posted + weigh (Instr.token s) st.threads

theorem next_off {pc : SendPc Chunk} (hoff : ∀ pc, instr = .sending s pc → pc.off = true →
    (st.sessions s).sendSession = false) (h : Next c st instr (.sending s pc))
    (hpc : pc.off = true) : ((st.exec c instr).1.sessions s).sendSession = false := by
  cases h with
  | sendFailed | sendExecute | insertSendQueue => contradiction
  | @sending _ before _ hnext =>
    have hbefore := hoff before rfl
    simp only [Server.exec, Server.sending, Server.setSession, Function.update_self]
    cases before with
    | insertSendQueue sendChunk =>
      simp only [SendPc.next] at hnext
      split at hnext <;> simp at hnext
      subst hnext
      contradiction
    | send => rfl
    | drain => exact hbefore rfl
    | testEmpty => exact hbefore rfl
    | post =>
      simp only [SendPc.next] at hnext
      split at hnext <;> simp at hnext
      subst hnext
      contradiction
    | refused => rfl
    | releaseFlag => exact hbefore rfl
    | execute => rfl
    | checkSendComplete => exact hbefore rfl
    | failed => rfl

theorem sendSession_off (h : (st.sessions s).sendSession = false) (hzero : instr.token s = 0) :
    ((st.exec c instr).1.sessions s).sendSession = false := by
  have hstep := exec_session c st instr s
  generalize (st.exec c instr).1.sessions s = session at hstep
  cases hstep with
  | sending pc =>
    cases pc with
    | insertSendQueue sendChunk => exact h
    | _ => simp [Instr.token, SendPc.token] at hzero
  | _ => exact h

/-- A receive that is not posted again is still to be gone on with, or is let go. -/
theorem exec_receive_due (h : ((st.exec c instr).1.sessions s).recvSession = true) :
    0 < total (Posted.receive s) (st.exec c instr).1.posted +
        total (Instr.receive s) (st.exec c instr).2 ∨
      (st.sessions s).recvSession = true ∧ instr.receive s = 0 := by
  have hzero : instr.receive s = 0 → (∀ a, instr ≠ .acceptRecvStart a s) →
      (∀ caller, instr ≠ .recvStart s caller) → (st.sessions s).recvSession = true := by
    intro hzero haccept hstart
    have hstep := exec_session c st instr s
    generalize (st.exec c instr).1.sessions s = session at h hstep
    cases hstep with
    | recvStart caller => exact absurd rfl (hstart caller)
    | acceptRecvStart a => exact absurd rfl (haccept a)
    | recvFailed => contradiction
    | releaseSession => contradiction
    | _ => exact h
  by_cases hs : instr.receive s = 0
  · refine .inr ⟨hzero hs ?_ ?_, hs⟩ <;> rintro _ rfl <;> simp [Instr.receive] at hs
  · left
    cases instr with
    | recvExecute s' completion =>
      obtain rfl : s' = s := by simpa [Instr.receive] using hs
      have hset : (st.sessions s').recvSession = true := by
        have hstep := exec_session c st (.recvExecute s' completion) s'
        generalize (st.exec c (.recvExecute s' completion)).1.sessions s' = session at h hstep
        cases hstep with
        | same => exact h
        | recvFailed => contradiction
      simp only [Server.exec, hset]
      cases completion <;> simp [Instr.receive]
    | recv s' requests =>
      obtain rfl : s' = s := by simpa [Instr.receive] using hs
      simp only [Server.exec, total_recv, Instr.receive, if_true]
      omega
    | recvStart s' caller =>
      obtain rfl : s' = s := by simpa [Instr.receive] using hs
      have haccepted : st.accepted c s' = true := by
        simpa [Server.exec, Server.recvStart, Server.setSession] using h
      simp [Server.exec, Server.recvStart, haccepted, Posted.receive]
    | releaseSession s' =>
      obtain rfl : s' = s := by simpa [Instr.receive] using hs
      simp [Server.exec, Server.setSession] at h
    | acceptRecvStart a s' =>
      obtain rfl : s' = s := by simpa [Instr.receive] using hs
      have haccepted : st.accepted c s' = true := by
        simpa [Server.exec, Server.recvStart, Server.setSession] using h
      simp [Server.exec, Server.recvStart, haccepted, Posted.receive]
    | _ => simp [Instr.receive] at hs

/-- The token goes on where `m_Send` keeps its session. -/
theorem exec_send_due (hoff : ∀ pc, instr = .sending s pc → pc.off = true →
    (st.sessions s).sendSession = false) (h : ((st.exec c instr).1.sessions s).sendSession = true) :
    0 < total (Posted.token s) (st.exec c instr).1.posted +
        total (Instr.token s) (st.exec c instr).2 ∨
      (st.sessions s).sendSession = true ∧ instr.token s = 0 := by
  by_cases hs : instr.token s = 0
  · refine .inr ⟨?_, hs⟩
    by_contra hnot
    rw [sendSession_off (by simpa using hnot) hs] at h
    contradiction
  · left
    cases instr with
    | sendExecute s' transferred =>
      obtain rfl : s' = s := by simpa [Instr.token] using hs
      have hset : (st.sessions s').sendSession = true := h
      simp only [Server.exec, hset]
      cases transferred <;> simp [Instr.token, SendPc.token]
    | sending s' pc =>
      have hs' : s' = s := by
        by_contra hne
        simp [Instr.token, hne] at hs
      subst hs'
      have hbefore := hoff pc rfl
      simp only [Server.exec, Server.sending, Server.setSession, Function.update_self] at h
      cases pc with
      | insertSendQueue sendChunk => simp [Instr.token, SendPc.token] at hs
      | post =>
        cases haccepted : st.accepted c s' <;>
          simp [Server.exec, Server.sending, SendPc.posts, SendPc.next, haccepted, Posted.token,
            Instr.token, SendPc.token]
      | send | refused | execute | failed => contradiction
      | drain | testEmpty | releaseFlag | checkSendComplete =>
        change (st.sessions s').sendSession = true at h
        rw [hbefore rfl] at h
        contradiction
    | _ => simp [Instr.token] at hs

theorem due_advance (hinv : ServerInv st) (hdue : Due st)
    (h : st.threads[t]? = some (instr :: rest)) : Due (st.advance t c instr rest) := by
  have hentry := entry_head h
  have hoff : ∀ s pc, instr = .sending s pc → pc.off = true →
      (st.sessions s).sendSession = false := by
    rintro s pc rfl
    exact hdue.off s pc hentry
  obtain ⟨more, hposted⟩ := exec_posted_append c st instr
  refine ⟨fun s pc hx hpc => ?_, fun s hs => ?_, fun s hs => ?_⟩
  · rcases advance_entry h hx with ⟨s', hpush⟩ | hx | hbeside
    · contradiction
    · exact next_off (hoff s) (exec_next hx) hpc
    · have hle := hbeside.weight (Instr.token s)
      have htokens := hinv.tokens s
      have hflag := Bool.toNat_lt (st.sessions s).send.sendFlag
      have hone : (Instr.sending s pc).token s = 1 := by
        cases pc with
        | insertSendQueue sendChunk => contradiction
        | _ => simp [Instr.token, SendPc.token]
      exact sendSession_off (hdue.off s pc hbeside.entry hpc) (by omega)
  · have hweigh := advance_weigh (c := c) (Instr.receive s) (fun _ => rfl) h
    rw [advance_posted]
    rcases exec_receive_due hs with hnow | ⟨hbefore, hzero⟩
    · have hle := le_weigh (Instr.receive s) hentry
      omega
    · have hwas := hdue.receives s hbefore
      rw [hposted, total_append]
      omega
  · have hweigh := advance_weigh (c := c) (Instr.token s) (fun _ => rfl) h
    rw [advance_posted]
    rcases exec_send_due (hoff s) hs with hnow | ⟨hbefore, hzero⟩
    · have hle := le_weigh (Instr.token s) hentry
      omega
    · have hwas := hdue.sends s hbefore
      rw [hposted, total_append]
      omega

theorem due_complete (hdue : Due st) {k : Nat} {op : Posted} (h : st.posted[k]? = some op)
    (completion : Completion) :
    Due { st with
      posted := st.posted.eraseIdx k
      threads := st.threads ++ [[op.handler completion]] } := by
  have hreceive : ∀ s, op.receive s = (op.handler completion).receive s := by
    intro s
    cases op <;> cases completion <;> rfl
  have htoken : ∀ s, op.token s = (op.handler completion).token s := by
    intro s
    cases op <;> cases completion <;> rfl
  refine ⟨fun s pc hx hpc => ?_, fun s hs => ?_, fun s hs => ?_⟩
  · obtain ⟨thread, hthread, hx⟩ := hx
    rcases List.mem_append.mp hthread with hthread | hthread
    · exact hdue.off s pc ⟨thread, hthread, hx⟩ hpc
    · cases List.mem_singleton.mp hthread
      cases op <;> cases completion <;> cases List.mem_singleton.mp hx
  · have hwas := hdue.receives s hs
    have herase := total_eraseIdx (Posted.receive s) h
    have hsame := hreceive s
    simp only [weigh_append, weigh_cons, weigh_nil, total_cons, total_nil]
    omega
  · have hwas := hdue.sends s hs
    have herase := total_eraseIdx (Posted.token s) h
    have hsame := htoken s
    simp only [weigh_append, weigh_cons, weigh_nil, total_cons, total_nil]
    omega

theorem due_step {act : ServerAct} {st' : Server} (hinv : ServerInv st) (hdue : Due st)
    (h : serverStep st act = some st') : Due st' := by
  cases act with
  | advance t c =>
    simp only [serverStep] at h
    split at h
    · rename_i instr rest hthread
      cases h
      exact due_advance hinv hdue hthread
    · contradiction
  | complete k completion =>
    obtain ⟨op, hop, rfl⟩ := Option.map_eq_some_iff.mp h
    exact due_complete hdue hop completion
  | shutdown =>
    cases h
    refine ⟨fun s pc hx hpc => ?_, fun s hs => ?_, fun s hs => ?_⟩
    · obtain ⟨thread, hthread, hx⟩ := hx
      rcases List.mem_append.mp hthread with hthread | hthread
      · exact hdue.off s pc ⟨thread, hthread, hx⟩ hpc
      · cases List.mem_singleton.mp hthread
        exact absurd rfl ((shutdown_spawned hx).idle s).2.2.2.2
    · have hwas := hdue.receives s hs
      simp only [weigh_append]
      omega
    · have hwas := hdue.sends s hs
      simp only [weigh_append]
      omega

theorem due_reaches {ok : Server → ServerAct → Prop} {roomCount poolSize acceptCount : Nat}
    (h : Reaches serverStep ok (.start roomCount poolSize acceptCount) st) : Due st := by
  apply h.invariant (I := Due)
  · refine ⟨fun s pc hx _ => ?_, fun s hs => ?_, fun s hs => ?_⟩
    · rcases start_entry hx with ⟨i, heq⟩ | ⟨a, heq⟩ <;> cases heq
    · contradiction
    · contradiction
  · intro s act s' hreaches hdue _ hstep
    exact due_step (serverInv_reaches hreaches) hdue hstep

theorem maxSize_reaches {ok : Server → ServerAct → Prop} {roomCount poolSize acceptCount : Nat}
    (h : Reaches serverStep ok (.start roomCount poolSize acceptCount) st) :
    st.pool.maxSize = poolSize := by
  apply h.invariant (I := fun st => st.pool.maxSize = poolSize) rfl
  intro st act st' _ hsize _ hstep
  cases act with
  | advance t c =>
    simp only [serverStep] at hstep
    split at hstep
    · cases hstep
      rw [advance_pool, exec_maxSize, hsize]
    · contradiction
  | complete k completion =>
    obtain ⟨op, _, rfl⟩ := Option.map_eq_some_iff.mp hstep
    exact hsize
  | shutdown =>
    cases hstep
    exact hsize

/-! ### What the monitor shows -/

/-- Every session is in one place: in the pool, in the hands of one thread that returns it, or
referenced. The monitor counts the last two. -/
structure Server.Conserved (st : Server) (poolSize : Nat) : Prop where
  one_place : ∀ s < poolSize, st.pool.pools.count s + weigh (Instr.returning s) st.threads +
    (if 0 < st.useCount s then 1 else 0) = 1
  monitor : (poolSize : Int) - st.pool.freeCount = (List.range poolSize).countP fun s =>
    0 < st.useCount s || 0 < weigh (Instr.returning s) st.threads

theorem sessions_conserved {roomCount poolSize acceptCount : Nat}
    (h : Reaches serverStep always (.start roomCount poolSize acceptCount) st) :
    st.Conserved poolSize := by
  have hinv := serverInv_reaches h
  have hkept := kept_reaches h
  have hsize := maxSize_reaches h
  have hone : ∀ s < poolSize, st.pool.pools.count s + weigh (Instr.returning s) st.threads +
      (if 0 < st.useCount s then 1 else 0) = 1 := by
    intro s hlt
    have hle := hinv.returns s
    have hge := hkept.kept s (hsize ▸ hlt)
    omega
  refine ⟨hone, ?_⟩
  rw [← hsize]
  apply hkept.pool.sound.missing hkept.pool.count fun s =>
    0 < st.useCount s || 0 < weigh (Instr.returning s) st.threads
  intro s hlt
  have hplace := hone s (hsize ▸ hlt)
  rw [← List.count_eq_zero]
  simp only [Bool.or_eq_true, decide_eq_true_eq]
  split at hplace <;> omega

def advancesOn (t n socket : Nat) : List ServerAct :=
  List.replicate n (.advance t ⟨true, socket, fun _ => true, 0⟩)

/-- The first client is let in and the second AcceptObject's session is posted; then the
server is shut down, which closes the client's socket. -/
def servedThenShutDown : List ServerAct :=
  advancesOn 1 5 100 ++ [.complete 0 (.data [])] ++ advancesOn 2 9 101 ++ [.shutdown] ++
    advancesOn 3 8 0

theorem sessions_conserved_shutDown :
    ∃ st, Reaches serverStep always (.start 1 2 1) st ∧ st.roomStop = true ∧ st.Conserved 2 := by
  have hrun : (run (guarded serverStep always) (.start 1 2 1) servedThenShutDown).any
      (fun st => st.roomStop) = true := by decide +kernel
  obtain ⟨st, hst, hstop⟩ := (Option.any_eq_true _ _).mp hrun
  have hreaches : Reaches serverStep always (.start 1 2 1) st := reaches_of_run _ .start hst
  exact ⟨st, hreaches, hstop, sessions_conserved hreaches⟩

/-! ### When all is quiet -/

/-- Nothing is posted, and no thread is in anything but the wait of its room. -/
structure Server.Quiet (st : Server) : Prop where
  posted : st.posted = []
  threads : ∀ thread ∈ st.threads, thread = [] ∨ ∃ i, thread = [.startJob i]

/-- It is registered, in a room, in a job that nobody has taken, or in an AcceptObject. -/
inductive Server.InUse (st : Server) (s : Nat) : Prop where
  | registered {n : Nat} (h : st.userSession.find n = some s)
  | member {i : Nat} (hi : i < st.roomCount) (h : (st.rooms i).Has s)
  | job {i : Nat} {job : Job} (hi : i < st.roomCount) (h : job ∈ (st.jobQueues i).jobs)
      (hs : job.session = s)
  | accept (h : some s ∈ st.acceptObjects)

theorem quiet_weigh (hquiet : st.Quiet) (weight : Instr → Nat)
    (hstart : ∀ i, weight (.startJob i) = 0) : weigh weight st.threads = 0 := by
  apply weigh_zero
  rintro x ⟨thread, hthread, hx⟩ hpos
  rcases hquiet.threads thread hthread with rfl | ⟨i, rfl⟩
  · exact absurd hx List.not_mem_nil
  · rw [List.mem_singleton.mp hx, hstart] at hpos
    exact Nat.lt_irrefl 0 hpos

theorem quiet_holds (hdue : Due st) (hquiet : st.Quiet) : Holds st s ↔ st.InUse s := by
  constructor
  · intro h
    cases h with
    | recv h =>
      have hpos := hdue.receives s h
      rw [hquiet.posted, quiet_weigh hquiet _ fun _ => rfl] at hpos
      exact absurd hpos (Nat.lt_irrefl 0)
    | send h =>
      have hpos := hdue.sends s h
      rw [hquiet.posted, quiet_weigh hquiet _ fun _ => rfl] at hpos
      exact absurd hpos (Nat.lt_irrefl 0)
    | accept h => exact .accept h
    | user h => exact .registered h
    | member hi h => exact .member hi h
    | job hi h hs => exact .job hi h hs
    | entry hx hpos =>
      have hle := le_weigh (Instr.refs s) hx
      rw [quiet_weigh hquiet _ fun _ => rfl] at hle
      omega
  · intro h
    cases h with
    | registered h => exact .user h
    | member hi h => exact .member hi h
    | job hi h hs => exact .job hi h hs
    | accept h => exact .accept h

theorem quiet_out {roomCount poolSize acceptCount : Nat}
    (h : Reaches serverStep always (.start roomCount poolSize acceptCount) st)
    (hquiet : st.Quiet) (hlt : s < poolSize) : s ∉ st.pool.pools ↔ st.InUse s := by
  have hle := (serverInv_reaches h).returns s
  have hge := (kept_reaches h).kept s (maxSize_reaches h ▸ hlt)
  rw [quiet_weigh hquiet _ fun _ => rfl] at hle hge
  rw [← quiet_holds (due_reaches h) hquiet, ← Holds.iff, ← List.count_eq_zero]
  by_cases huse : 0 < st.useCount s
  · rw [if_pos huse] at hle
    omega
  · rw [if_neg huse] at hge
    omega

open Classical in
/-- What is missing from the pool when all is quiet is exactly what somebody still has, before as
after a shutdown. -/
theorem quiet_missing {roomCount poolSize acceptCount : Nat}
    (h : Reaches serverStep always (.start roomCount poolSize acceptCount) st)
    (hquiet : st.Quiet) :
    (∀ s < poolSize, s ∉ st.pool.pools ↔ st.InUse s) ∧
      (poolSize : Int) - st.pool.freeCount =
        (List.range poolSize).countP fun s => decide (st.InUse s) := by
  have hsize := maxSize_reaches h
  refine ⟨fun s hlt => quiet_out h hquiet hlt, ?_⟩
  rw [← hsize]
  have hpool := (kept_reaches h).pool
  apply hpool.sound.missing hpool.count fun s => decide (st.InUse s)
  intro s hlt
  rw [decide_eq_true_eq]
  exact quiet_out h hquiet (hsize ▸ hlt)

/-- The first receive of a client is refused, and there is no session for another one. -/
def refusedFirst : List ServerAct :=
  advancesOn 1 5 100 ++ [.complete 0 (.data [])] ++ advancesOn 2 2 0 ++
    [.advance 2 ⟨false, 0, fun _ => true, 0⟩] ++ advancesOn 2 7 0

def Instr.starts : Instr → Bool
  | .startJob _ => true
  | _ => false

theorem idle_of_starts (hlength : thread.length ≤ 1) (hstarts : thread.all Instr.starts = true) :
    thread = [] ∨ ∃ i, thread = [.startJob i] := by
  rcases thread with _ | ⟨instr, _ | ⟨second, rest⟩⟩
  · exact .inl rfl
  · cases instr with
    | startJob i => exact .inr ⟨i, rfl⟩
    | _ => contradiction
  · simp at hlength

theorem quiet_missing_refused :
    ∃ st, Reaches serverStep always (.start 1 1 1) st ∧ st.Quiet ∧ st.InUse 0 ∧
      ((1 : Nat) : Int) - st.pool.freeCount = 1 := by
  have hrun : (run (guarded serverStep always) (.start 1 1 1) refusedFirst).any
      (fun st => decide (st.posted = [] ∧ 0 ∉ st.pool.pools ∧ ∀ thread ∈ st.threads,
        thread.length ≤ 1 ∧ thread.all Instr.starts = true)) = true := by decide +kernel
  obtain ⟨st, hst, hends⟩ := (Option.any_eq_true _ _).mp hrun
  obtain ⟨hposted, hout, hthreads⟩ := of_decide_eq_true hends
  have hreaches : Reaches serverStep always (.start 1 1 1) st := reaches_of_run _ .start hst
  have hquiet : st.Quiet := by
    refine ⟨hposted, fun thread hthread => ?_⟩
    obtain ⟨hlength, hstarts⟩ := hthreads thread hthread
    exact idle_of_starts hlength hstarts
  obtain ⟨hmissing, hcount⟩ := quiet_missing hreaches hquiet
  have huse : st.InUse 0 := (hmissing 0 Nat.one_pos).mp hout
  refine ⟨st, hreaches, hquiet, huse, hcount.trans ?_⟩
  simp [huse]

end
end RoomServer
