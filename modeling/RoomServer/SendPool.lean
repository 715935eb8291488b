import Mathlib.Data.List.Perm.Subperm
import RoomServer.ObjectPoolRuns
import RoomServer.SendChunks
import RoomServer.Wire

/-! Where the send buffers are. None is lost: each is in the pool, on its way back or referred
to. So `MakeSendPacket` fails only when all of them are out. -/
namespace RoomServer
open Library.Transition Library.Threads

namespace ChunkRun

def PoolRight (poolSize : Nat) (st : ChunkRun) : Prop :=
  ∃ handedOut, UsedPool.Agrees poolSize ⟨st.pool, handedOut⟩

theorem PoolRight.pop {poolSize : Nat} {st st' : ChunkRun} (h : st.PoolRight poolSize)
    (hpool : st'.pool = st.pool.pop.1) : st'.PoolRight poolSize := by
  obtain ⟨handedOut, hagrees⟩ := h
  have hstep := UsedPool.agrees_pop hagrees
  rw [PoolRight, hpool]
  cases hpop : st.pool.pop with
  | mk pool popped =>
    simp only [UsedPool.step, hpop] at hstep
    cases popped <;> exact ⟨_, hstep⟩

theorem PoolRight.push {poolSize : Nat} {st st' : ChunkRun} (h : st.PoolRight poolSize) {b : Nat}
    (hpool : st'.pool = (st.pool.push b).1) : st'.PoolRight poolSize := by
  obtain ⟨handedOut, hagrees⟩ := h
  have hstep := UsedPool.agrees_push hagrees b
  rw [PoolRight, hpool]
  simp only [UsedPool.step, ObjectPool.pushPointer_natCast] at hstep
  cases hpush : st.pool.push b with
  | mk pool accepted =>
    rw [hpush] at hstep
    cases accepted <;> exact ⟨_, hstep⟩

/-! ### No buffer is lost -/

/-- In how many places the buffer is, with one for each reference. -/
def presence (st : ChunkRun) (b : Nat) : Nat :=
  among b st.pool.pools + among b st.deleting + st.references b

theorem references_move {st : ChunkRun} {t : Nat} {thread : MakeThread}
    (ht : st.threads[t]? = some thread) (thread' : MakeThread) (b : Nat) :
    (st.move t thread').references b + thread.refers b =
      st.references b + thread'.refers b := by
  have howners := owners_move ht thread' b
  have hholders : (st.move t thread').holders b = st.holders b := rfl
  unfold references
  omega

theorem presence_stays {st st' : ChunkRun} {b : Nat} (h : 1 ≤ st.presence b)
    (hpool : st'.pool = st.pool) (hdeleting : st'.deleting = st.deleting)
    (hreferences : st.references b ≤ st'.references b) : 1 ≤ st'.presence b := by
  rw [presence, hpool, hdeleting]
  unfold presence at h
  omega

theorem presence_move {st : ChunkRun} {b : Nat} (h : 1 ≤ st.presence b) {t : Nat}
    {thread thread' : MakeThread} (ht : st.threads[t]? = some thread)
    (hrefers : thread'.refers b = thread.refers b) : 1 ≤ (st.move t thread').presence b := by
  have hreferences := references_move ht thread' b
  exact presence_stays h rfl rfl (by omega)

theorem presence_dropped {st : ChunkRun} {b : Nat} (sendBuffer : Option Nat)
    (h : 1 ≤ st.presence b + refersTo b sendBuffer) : 1 ≤ (st.dropped sendBuffer).presence b := by
  cases sendBuffer with
  | none =>
    have hnone : refersTo b none = 0 := if_neg nofun
    rw [hnone] at h
    exact h
  | some gone =>
    rw [dropped]
    split
    case isTrue =>
      have hdeleting : among b (st.deleting ++ [gone]) =
          among b st.deleting + refersTo b (some gone) := by
        rw [among, total_append, total_cons, total_nil, Nat.add_zero, ← among]
      change 1 ≤ among b st.pool.pools + among b (st.deleting ++ [gone]) + st.references b
      unfold presence at h
      omega
    case isFalse hreferred =>
      by_cases heq : gone = b
      · subst heq
        unfold presence
        omega
      · have hnone : refersTo b (some gone) = 0 := if_neg (by simpa using heq)
        omega

theorem presence_assign {st : ChunkRun} {b : Nat} (h : 1 ≤ st.presence b) {t : Nat}
    {thread thread' : MakeThread} (ht : st.threads[t]? = some thread)
    (hrefers : thread.refers b = thread'.refers b + refersTo b thread.lSendBuffer) :
    1 ≤ ((st.move t thread').dropped thread.lSendBuffer).presence b := by
  apply presence_dropped
  have hreferences := references_move ht thread' b
  change 1 ≤ among b st.pool.pools + among b st.deleting + (st.move t thread').references b + _
  unfold presence at h
  omega

theorem presence_pop {st : ChunkRun} {b : Nat} (h : 1 ≤ st.presence b) {t : Nat}
    {thread : MakeThread} {request : SendRequest} {retry : Bool}
    (ht : st.threads[t]? = some thread) (hpc : thread.pc = .getSendBuffer request retry) :
    1 ≤ ({ st with pool := st.pool.pop.1 }.move t
      { thread with pc := .assign request retry st.pool.pop.2 }).presence b := by
  have hreferences := @references_move { st with pool := st.pool.pop.1 } t thread ht
    { thread with pc := .assign request retry st.pool.pop.2 } b
  simp only [MakeThread.refers, hpc, MakePc.refers] at hreferences
  have hpools : among b st.pool.pools = among b st.pool.pop.1.pools + refersTo b st.pool.pop.2 := by
    cases hpop : st.pool.pop with
    | mk pool popped =>
      cases popped with
      | none =>
        obtain rfl := ObjectPool.pop_none hpop
        rfl
      | some object =>
        rw [(ObjectPool.pop_some hpop).1]
        exact Nat.add_comm _ _
  have hsame : ({ st with pool := st.pool.pop.1 } : ChunkRun).references b = st.references b := rfl
  change 1 ≤ among b st.pool.pop.1.pools + among b st.deleting + ChunkRun.references _ b
  unfold presence at h
  omega

theorem presence_advance {st st' : ChunkRun} {b : Nat} (h : 1 ≤ st.presence b) {t : Nat}
    {thread : MakeThread} (ht : st.threads[t]? = some thread)
    (hstep : st.advance t thread = some st') : 1 ≤ st'.presence b := by
  cases hpc : thread.pc with
  | returned result => simp only [advance, hpc] at hstep; cases hstep
  | testBuffer request =>
    simp only [advance, hpc] at hstep
    cases hstep
    apply presence_move h ht
    split <;> simp [MakeThread.refers, hpc, MakePc.refers]
  | getSendBuffer request retry =>
    simp only [advance, hpc] at hstep
    cases hstep
    exact presence_pop h ht hpc
  | assign request retry sendBuffer =>
    simp only [advance, hpc] at hstep
    cases hstep
    apply presence_assign h ht
    cases sendBuffer <;> simp [MakeThread.refers, hpc, MakePc.refers, refersTo, Nat.add_comm]
  | copyBuffer request retry =>
    simp only [advance, hpc] at hstep
    obtain ⟨owner, howner, hstep⟩ := Option.bind_eq_some_iff.mp hstep
    obtain ⟨⟨copied, result⟩, hcopy, hstep⟩ := Option.bind_eq_some_iff.mp hstep
    cases hstep
    have hrefers : MakeThread.refers b { thread with pc := .copied request retry result } =
        thread.refers b := by
      rw [MakeThread.refers, MakeThread.refers, MakePc.refers_copied, hpc]
      rfl
    rcases copy_cases hcopy with ⟨_, rfl⟩ | ⟨chunk, _, _, _, hcopied, hpool, hdeleting, hthreads⟩
    · exact presence_move h ht hrefers
    · refine presence_move (presence_stays h hpool hdeleting ?_) (hthreads ▸ ht) hrefers
      rw [references, references, owners, owners, holders, holders, hthreads, hcopied.chunks,
        total_cons]
      omega

theorem push_keeps (st : ChunkRun) (object : Nat) :
    (st.push object).pool = (st.pool.push object).1 ∧ (st.push object).deleting = st.deleting ∧
      ∀ b, (st.push object).references b = st.references b := by
  unfold push
  dsimp only
  split <;> exact ⟨rfl, rfl, fun _ => rfl⟩

theorem presence_push {poolSize : Nat} {st : ChunkRun} {b : Nat} (hplaces : st.Places b)
    (hright : st.PoolRight poolSize) (hlt : b < poolSize) (h : 1 ≤ st.presence b) {k object : Nat}
    (hk : st.deleting[k]? = some object) :
    1 ≤ ({ st with deleting := st.deleting.eraseIdx k }.push object).presence b := by
  have hdeleting : among b (st.deleting.eraseIdx k) + refersTo b (some object) =
      among b st.deleting := total_eraseIdx (fun object => refersTo b (some object)) hk
  obtain ⟨hpool, hdel, hreferences⟩ :=
    push_keeps { st with deleting := st.deleting.eraseIdx k } object
  rw [presence, hpool, hdel, hreferences]
  change 1 ≤ among b (st.pool.push object).1.pools + among b (st.deleting.eraseIdx k) +
    st.references b
  have honce := hplaces.once
  unfold presence at h
  rcases ObjectPool.push_pools st.pool object with ⟨hpools, _, _⟩ | ⟨hsame, hrefused⟩
  · have hamong : among b (st.pool.push object).1.pools =
        refersTo b (some object) + among b st.pool.pools := by
      rw [hpools]
      rfl
    omega
  · rw [hsame]
    by_cases heq : object = b
    · -- a refused push would have found the buffer in the pool
      exfalso
      obtain ⟨handedOut, hagrees⟩ := hright
      have hone : refersTo b (some object) = 1 := if_pos (congrArg some heq)
      have huse : st.pool.isUse b = true := by
        by_contra hfree
        have hle := among_le (hagrees.complete b hlt (Bool.eq_false_iff.mpr hfree))
        dsimp only at hle
        omega
      have hlt' : b < st.pool.maxSize := hagrees.size.symm ▸ hlt
      rw [heq, ObjectPool.push, if_pos (by simp [hlt', huse])] at hrefused
      cases hrefused
    · have hnone : refersTo b (some object) = 0 := if_neg (by simpa using heq)
      omega

theorem presence_step {poolSize : Nat} {st st' : ChunkRun} {act : ChunkAct} {b : Nat}
    (hplaces : st.Places b) (hright : st.PoolRight poolSize) (hlt : b < poolSize)
    (h : 1 ≤ st.presence b) (hstep : chunkStep st act = some st') : 1 ≤ st'.presence b := by
  cases act with
  | thread =>
    cases hstep
    refine presence_stays h rfl rfl ?_
    simp [references, owners, holders, MakeThread.refers, MakePc.refers, refersTo]
  | makeSendPacket t request =>
    obtain ⟨thread, ht, hstep⟩ := Option.bind_eq_some_iff.mp hstep
    split at hstep
    case isTrue hidle =>
      cases hstep
      apply presence_move h ht
      cases hpc : thread.pc with
      | returned result => simp [MakeThread.refers, hpc, MakePc.refers]
      | testBuffer | getSendBuffer | assign | copyBuffer =>
        rw [hpc] at hidle
        cases hidle
    case isFalse => cases hstep
  | advance t =>
    obtain ⟨thread, ht, hstep⟩ := Option.bind_eq_some_iff.mp hstep
    exact presence_advance h ht hstep
  | copyChunk k =>
    obtain ⟨chunk, hk, rfl⟩ := Option.map_eq_some_iff.mp hstep
    refine presence_stays h rfl rfl ?_
    simp only [references, owners, holders, total_cons]
    omega
  | dropChunk k =>
    obtain ⟨chunk, hk, rfl⟩ := Option.map_eq_some_iff.mp hstep
    apply presence_dropped
    have herase := total_eraseIdx (SendChunk.refers b) hk
    have hrefers : chunk.refers b = refersTo b (some chunk.sendBuffer) := rfl
    simp only [presence, references, owners, holders] at h ⊢
    omega
  | push k =>
    obtain ⟨object, hk, rfl⟩ := Option.map_eq_some_iff.mp hstep
    exact presence_push hplaces hright hlt h hk
  | exit t =>
    obtain ⟨thread, ht, hstep⟩ := Option.bind_eq_some_iff.mp hstep
    split at hstep
    case isTrue hidle =>
      cases hstep
      apply presence_assign h ht
      cases hpc : thread.pc with
      | returned result => simp [MakeThread.refers, hpc, MakePc.refers, refersTo]
      | testBuffer | getSendBuffer | assign | copyBuffer =>
        rw [hpc] at hidle
        cases hidle
    case isFalse => cases hstep

theorem poolRight_step {poolSize : Nat} {st st' : ChunkRun} {act : ChunkAct}
    (h : st.PoolRight poolSize) (hstep : chunkStep st act = some st') : st'.PoolRight poolSize := by
  have hdropped (st : ChunkRun) (sendBuffer : Option Nat) (h : st.PoolRight poolSize) :
      (st.dropped sendBuffer).PoolRight poolSize := by
    cases sendBuffer with
    | none => exact h
    | some b =>
      rw [dropped]
      split <;> exact h
  cases act with
  | thread =>
    cases hstep
    exact h
  | makeSendPacket t request =>
    obtain ⟨thread, _, rfl⟩ := makeSendPacket_cases hstep
    exact h
  | advance t =>
    obtain ⟨thread, ht, hstep⟩ := Option.bind_eq_some_iff.mp hstep
    cases hpc : thread.pc with
    | returned result => simp only [advance, hpc] at hstep; cases hstep
    | testBuffer request =>
      simp only [advance, hpc] at hstep
      cases hstep
      exact h
    | getSendBuffer request retry =>
      simp only [advance, hpc] at hstep
      cases hstep
      exact h.pop rfl
    | assign request retry sendBuffer =>
      simp only [advance, hpc] at hstep
      cases hstep
      exact hdropped _ _ h
    | copyBuffer request retry =>
      simp only [advance, hpc] at hstep
      obtain ⟨owner, howner, hstep⟩ := Option.bind_eq_some_iff.mp hstep
      obtain ⟨⟨copied, result⟩, hcopy, hstep⟩ := Option.bind_eq_some_iff.mp hstep
      cases hstep
      rcases copy_cases hcopy with ⟨_, rfl⟩ | ⟨_, _, _, _, _, hpool, _, _⟩
      · exact h
      · change ∃ handedOut, UsedPool.Agrees poolSize ⟨copied.pool, handedOut⟩
        rw [hpool]
        exact h
  | copyChunk k =>
    obtain ⟨chunk, _, rfl⟩ := Option.map_eq_some_iff.mp hstep
    exact h
  | dropChunk k =>
    obtain ⟨chunk, _, rfl⟩ := Option.map_eq_some_iff.mp hstep
    exact hdropped _ _ h
  | push k =>
    obtain ⟨object, _, rfl⟩ := Option.map_eq_some_iff.mp hstep
    exact h.push (push_keeps { st with deleting := st.deleting.eraseIdx k } object).1
  | exit t =>
    obtain ⟨thread, _, rfl⟩ := exit_cases hstep
    exact hdropped _ _ h

/-! ### A buffer from the pool is empty -/

end ChunkRun

def MakeThread.popped : MakeThread → Option Nat
  | ⟨_, .assign _ _ sendBuffer⟩ => sendBuffer
  | ⟨lSendBuffer, .copyBuffer _ true⟩ => lSendBuffer
  | _ => none

theorem MakeThread.refers_popped {thread : MakeThread} {b : Nat} (h : thread.popped = some b) :
    0 < thread.refers b := by
  have hone : refersTo b (some b) = 1 := if_pos rfl
  obtain ⟨lSendBuffer, pc⟩ := thread
  cases pc with
  | returned | testBuffer | getSendBuffer => cases h
  | assign request retry sendBuffer =>
    obtain rfl : sendBuffer = some b := h
    change 0 < refersTo b lSendBuffer + refersTo b (some b)
    omega
  | copyBuffer request retry =>
    cases retry with
    | false => cases h
    | true =>
      obtain rfl : lSendBuffer = some b := h
      change 0 < refersTo b (some b) + 0
      omega

namespace ChunkRun

structure Unwritten (st : ChunkRun) : Prop where
  pooled : ∀ b ∈ st.pool.pools, (st.buffers b).pointer = 0
  popped : ∀ (t : Nat) (thread : MakeThread) (b : Nat), st.threads[t]? = some thread →
    thread.popped = some b →
    (st.buffers b).pointer = 0

theorem Places.owner_alone {st : ChunkRun} {b : Nat} (h : st.Places b) {t u : Nat}
    {thread other : MakeThread} (ht : st.threads[t]? = some thread)
    (hu : st.threads[u]? = some other) (hthread : 0 < thread.refers b)
    (hother : 0 < other.refers b) : t = u := by
  by_contra hne
  have howners := owners_move ht ⟨none, .returned none⟩ b
  have hnone : MakeThread.refers b ⟨none, .returned none⟩ = 0 := by
    simp [MakeThread.refers, MakePc.refers, refersTo]
  have hu' : (st.move t ⟨none, .returned none⟩).threads[u]? = some other := by
    rw [move, List.getElem?_set_ne hne]
    exact hu
  have hle : other.refers b ≤ (st.move t ⟨none, .returned none⟩).owners b :=
    le_total (MakeThread.refers b) (List.mem_of_getElem? hu')
  have honce := h.once
  omega

theorem Unwritten.move {st st' : ChunkRun} (h : st.Unwritten) {t : Nat} {thread' : MakeThread}
    (hthreads : st'.threads = st.threads.set t thread') (hbuffers : st'.buffers = st.buffers)
    (hpools : ∀ b ∈ st'.pool.pools, b ∈ st.pool.pools)
    (hpopped : ∀ b, thread'.popped = some b → (st.buffers b).pointer = 0) : st'.Unwritten := by
  refine ⟨fun b hb => ?_, fun u thread b hu hb => ?_⟩ <;> rw [hbuffers]
  · exact h.pooled b (hpools b hb)
  · rw [hthreads] at hu
    by_cases heq : t = u
    · subst heq
      have hlt := (List.getElem?_eq_some_iff.mp hu).1
      rw [List.length_set] at hlt
      rw [List.getElem?_set_self hlt] at hu
      cases hu
      exact hpopped b hb
    · rw [List.getElem?_set_ne heq] at hu
      exact h.popped u thread b hu hb

theorem dropped_pool (st : ChunkRun) (sendBuffer : Option Nat) :
    (st.dropped sendBuffer).pool = st.pool := by
  cases sendBuffer with
  | none => rfl
  | some b =>
    rw [dropped]
    split <;> rfl

theorem Unwritten.advance {st st' : ChunkRun} (h : st.Unwritten) (hplaces : ∀ b, st.Places b)
    {t : Nat} {thread : MakeThread} (ht : st.threads[t]? = some thread)
    (hstep : st.advance t thread = some st') : st'.Unwritten := by
  cases hpc : thread.pc with
  | returned result => simp only [ChunkRun.advance, hpc] at hstep; cases hstep
  | testBuffer request =>
    simp only [ChunkRun.advance, hpc] at hstep
    cases hstep
    refine h.move rfl rfl (fun _ hb => hb) fun b hb => ?_
    split at hb <;> cases hb
  | getSendBuffer request retry =>
    simp only [ChunkRun.advance, hpc] at hstep
    cases hstep
    cases hpop : st.pool.pop with
    | mk pool popped =>
      cases popped with
      | none =>
        obtain rfl := ObjectPool.pop_none hpop
        refine h.move rfl rfl (fun _ hb => hb) fun b hb => ?_
        cases hb
      | some object =>
        have hpools := (ObjectPool.pop_some hpop).1
        refine h.move rfl rfl (fun b hb => hpools ▸ List.mem_cons_of_mem _ hb) ?_
        intro b hb
        obtain rfl : object = b := Option.some.inj hb
        exact h.pooled object (hpools ▸ List.mem_cons_self)
  | assign request retry sendBuffer =>
    simp only [ChunkRun.advance, hpc] at hstep
    cases hstep
    have hpool := dropped_pool (st.move t ⟨sendBuffer,
      if sendBuffer = none then .returned none else .copyBuffer request retry⟩) thread.lSendBuffer
    refine h.move (dropped_threads _ _) (dropped_buffers _ _) (fun b hb => hpool ▸ hb)
      fun b hb => ?_
    apply h.popped t thread b ht
    obtain ⟨lSendBuffer, pc⟩ := thread
    cases hpc
    cases sendBuffer with
    | none => cases hb
    | some got =>
      cases retry with
      | false => cases hb
      | true => exact hb
  | copyBuffer request retry =>
    simp only [ChunkRun.advance, hpc] at hstep
    obtain ⟨owner, howner, hstep⟩ := Option.bind_eq_some_iff.mp hstep
    obtain ⟨⟨copied, result⟩, hcopy, hstep⟩ := Option.bind_eq_some_iff.mp hstep
    cases hstep
    have hdone : MakeThread.popped { thread with pc := .copied request retry result } = none := by
      cases result with
      | none => cases retry <;> rfl
      | some chunk => rfl
    rcases copy_cases hcopy with ⟨_, rfl⟩ | ⟨chunk, _, howns, _, hcopied, hpool, _, hthreads⟩
    · refine h.move rfl rfl (fun _ hb => hb) fun b hb => ?_
      rw [hdone] at hb
      cases hb
    · have hone : refersTo owner thread.lSendBuffer = 1 := if_pos howner
      have hrefers : 0 < thread.refers owner := by
        unfold MakeThread.refers
        omega
      have hother {b : Nat} (hb : b ≠ owner) : copied.buffers b = st.buffers b := by
        rw [hcopied.buffers, howns, Function.update_of_ne hb]
      constructor
      · intro b hb
        change b ∈ copied.pool.pools at hb
        rw [hpool] at hb
        change (copied.buffers b).pointer = 0
        rw [hother]
        · exact h.pooled b hb
        · rintro rfl
          have hzero := (hplaces b).owned ht hrefers
          have hle := among_le hb
          omega
      · intro u other b hu hb
        change (copied.threads.set t _)[u]? = some other at hu
        rw [hthreads] at hu
        change (copied.buffers b).pointer = 0
        by_cases heq : t = u
        · subst heq
          have hlt := (List.getElem?_eq_some_iff.mp ht).1
          rw [List.getElem?_set_self hlt] at hu
          cases hu
          rw [hdone] at hb
          cases hb
        · rw [List.getElem?_set_ne heq] at hu
          rw [hother]
          · exact h.popped u other b hu hb
          · rintro rfl
            exact heq ((hplaces b).owner_alone ht hu hrefers (MakeThread.refers_popped hb))

theorem Unwritten.step {st st' : ChunkRun} {act : ChunkAct} (h : st.Unwritten)
    (hplaces : ∀ b, st.Places b) (hstep : chunkStep st act = some st') : st'.Unwritten := by
  cases act with
  | thread =>
    cases hstep
    refine ⟨h.pooled, fun t thread b ht hb => ?_⟩
    rcases List.mem_append.mp (List.mem_of_getElem? ht) with hold | hnew
    · obtain ⟨u, hu⟩ := List.mem_iff_getElem?.mp hold
      exact h.popped u thread b hu hb
    · rw [List.mem_singleton.mp hnew] at hb
      cases hb
  | makeSendPacket t request =>
    obtain ⟨thread, _, rfl⟩ := makeSendPacket_cases hstep
    exact h.move rfl rfl (fun _ hb => hb) nofun
  | advance t =>
    obtain ⟨thread, ht, hstep⟩ := Option.bind_eq_some_iff.mp hstep
    exact h.advance hplaces ht hstep
  | copyChunk k =>
    obtain ⟨chunk, _, rfl⟩ := Option.map_eq_some_iff.mp hstep
    exact ⟨h.pooled, h.popped⟩
  | dropChunk k =>
    obtain ⟨chunk, _, rfl⟩ := Option.map_eq_some_iff.mp hstep
    constructor
    · rw [dropped_pool, dropped_buffers]
      exact h.pooled
    · rw [dropped_threads, dropped_buffers]
      exact h.popped
  | push k =>
    obtain ⟨object, _, rfl⟩ := Option.map_eq_some_iff.mp hstep
    unfold push
    dsimp only
    rcases ObjectPool.push_pools st.pool object with ⟨hpools, htrue, _⟩ | ⟨hsame, hfalse⟩
    · rw [htrue, if_pos rfl]
      have hreset {b : Nat} (hb : (st.buffers b).pointer = 0) :
          (Function.update st.buffers object (st.buffers object).reset b).pointer = 0 := by
        by_cases heq : b = object
        · rw [heq, Function.update_self]
          rfl
        · rw [Function.update_of_ne heq]
          exact hb
      refine ⟨fun b hb => ?_, fun t thread b ht hb => hreset (h.popped t thread b ht hb)⟩
      change b ∈ (st.pool.push object).1.pools at hb
      rw [hpools] at hb
      rcases List.mem_cons.mp hb with rfl | hb
      · change (Function.update st.buffers b (st.buffers b).reset b).pointer = 0
        rw [Function.update_self]
        rfl
      · exact hreset (h.pooled b hb)
    · rw [hfalse, hsame]
      exact ⟨h.pooled, h.popped⟩
  | exit t =>
    obtain ⟨thread, _, rfl⟩ := exit_cases hstep
    have hpool := dropped_pool (st.move t ⟨none, .returned none⟩) thread.lSendBuffer
    exact h.move (dropped_threads _ _) (dropped_buffers _ _) (fun b hb => hpool ▸ hb) nofun

end ChunkRun

/-! ### Why a call fails -/

/-- An empty buffer has room for the packet. -/
structure SendRequest.Fits (request : SendRequest) : Prop where
  nonneg : 0 ≤ request.sendSize
  data : request.sendSize ≤ request.sendData.length
  room : PacketID_SIZE + request.sendSize ≤ SendBuffer.getChunkSize

def ServerPacket.request (packet : ServerPacket UInt32) : SendRequest :=
  ⟨packet.packetType, packet.image, packet.sendSize⟩

theorem ServerPacket.Typed.fits {packet : ServerPacket UInt32} (h : packet.Typed) :
    packet.request.Fits := by
  obtain ⟨b, b', pointer, total, hcopy, _⟩ := h.framed
  rcases SendBuffer.copyBuffer_cases hcopy with ⟨hnone, _⟩ | ⟨size, hsize, hdata, hroom, _⟩
  · cases hnone
  · have hrequest : packet.request.sendSize = size := hsize
    refine ⟨?_, ?_, ?_⟩ <;> rw [hrequest]
    · exact Int.natCast_nonneg size
    · exact Int.ofNat_le.mpr hdata
    · omega

namespace ChunkRun

/-- The copy into a buffer fresh from the pool does not fail. -/
theorem fails_of_advance {st st' : ChunkRun} (h : st.Unwritten) {t : Nat}
    {thread thread' : MakeThread} {request : SendRequest} (hfits : request.Fits)
    (ht : st.threads[t]? = some thread) (hrequest : thread.pc.request = some request)
    (hstep : st.advance t thread = some st') (ht' : st'.threads[t]? = some thread')
    (hfail : thread'.pc = .returned none) : ∃ retry, thread.pc = .assign request retry none := by
  cases hpc : thread.pc with
  | returned result => simp only [advance, hpc] at hstep; cases hstep
  | testBuffer called =>
    simp only [advance, hpc] at hstep
    cases hstep
    rw [move_self ht] at ht'
    cases ht'
    dsimp only at hfail
    split at hfail <;> cases hfail
  | getSendBuffer called retry =>
    simp only [advance, hpc] at hstep
    cases hstep
    rw [@move_self { st with pool := st.pool.pop.1 } t _ ht] at ht'
    cases ht'
    cases hfail
  | assign called retry sendBuffer =>
    rw [hpc] at hrequest
    cases hrequest
    simp only [advance, hpc] at hstep
    cases hstep
    rw [dropped_threads, move_self ht] at ht'
    cases ht'
    cases sendBuffer with
    | none => exact ⟨retry, rfl⟩
    | some b => cases hfail
  | copyBuffer called retry =>
    exfalso
    rw [hpc] at hrequest
    cases hrequest
    simp only [advance, hpc] at hstep
    obtain ⟨owner, howner, hstep⟩ := Option.bind_eq_some_iff.mp hstep
    obtain ⟨⟨copied, result⟩, hcopy, hstep⟩ := Option.bind_eq_some_iff.mp hstep
    cases hstep
    rw [move_self (copy_threads hcopy ▸ ht)] at ht'
    cases ht'
    cases result with
    | some chunk => cases hfail
    | none =>
      cases retry with
      | false => cases hfail
      | true =>
        have hpopped : thread.popped = some owner := by
          obtain ⟨lSendBuffer, pc⟩ := thread
          cases hpc
          exact howner
        have hempty := h.popped t thread owner ht hpopped
        obtain ⟨size, hsize⟩ := Int.eq_ofNat_of_zero_le hfits.nonneg
        have hdata := hfits.data
        have hroom := hfits.room
        rw [hsize] at hdata hroom
        obtain ⟨b', pointer, total, hfit⟩ := SendBuffer.copyBuffer_fits request.packetType
          (b := st.buffers owner) (Int.ofNat_le.mp hdata) (by omega)
        rw [copy, hsize, hfit] at hcopy
        cases hcopy

/-! ### The pool -/

theorem among_eq_count (b : Nat) (objects : List Nat) : among b objects = objects.count b := by
  induction objects with
  | nil => rfl
  | cons object objects ih =>
    rw [among, total_cons, ← among, ih, List.count_cons, Nat.add_comm]
    simp [refersTo]

def MakePc.assigned : MakePc → Option Nat
  | .assign _ _ sendBuffer => sendBuffer
  | _ => none

theorem mem_of_owners {st : ChunkRun} {b : Nat} (h : 0 < st.owners b) :
    b ∈ st.threads.filterMap MakeThread.lSendBuffer ++
      st.threads.filterMap fun thread => MakePc.assigned thread.pc := by
  obtain ⟨thread, hthread, hrefers⟩ := exists_of_total h
  rw [List.mem_append, List.mem_filterMap, List.mem_filterMap]
  by_cases hl : thread.lSendBuffer = some b
  · exact .inl ⟨thread, hthread, hl⟩
  · refine .inr ⟨thread, hthread, ?_⟩
    have hnone : refersTo b thread.lSendBuffer = 0 := if_neg hl
    rw [MakeThread.refers, hnone, Nat.zero_add] at hrefers
    cases hpc : thread.pc with
    | assign request retry sendBuffer =>
      rw [hpc] at hrefers
      by_contra hne
      have hzero : refersTo b sendBuffer = 0 := if_neg hne
      rw [MakePc.refers, hzero] at hrefers
      exact Nat.lt_irrefl 0 hrefers
    | returned | testBuffer | getSendBuffer | copyBuffer =>
      rw [hpc] at hrefers
      exact absurd hrefers (Nat.lt_irrefl 0)

/-- Every buffer is in one place, and a call for a packet that fits fails only where `Pop` has
found the pool empty, which takes that many chunks and threads. -/
structure BuffersKept (st : ChunkRun) (poolSize : Nat) : Prop where
  one_place : ∀ b < poolSize, st.pool.pools.count b + st.deleting.count b +
    (if 0 < st.references b then 1 else 0) = 1
  monitor : (poolSize : Int) - st.pool.freeCount = (List.range poolSize).countP fun b =>
    0 < st.references b || 0 < st.deleting.count b
  fails : ∀ (t : Nat) (thread thread' : MakeThread) (request : SendRequest) (st' : ChunkRun),
    request.Fits → st.threads[t]? = some thread → thread.pc.request = some request →
    chunkStep st (.advance t) = some st' → st'.threads[t]? = some thread' →
    thread'.pc = .returned none → ∃ retry, thread.pc = .assign request retry none
  exhausted : st.pool.pop.2 = none →
    poolSize ≤ 2 * st.threads.length + st.chunks.length + st.deleting.length

structure SendPoolInv (st : ChunkRun) (poolSize : Nat) : Prop where
  right : st.PoolRight poolSize
  unwritten : st.Unwritten
  present : ∀ b < poolSize, 1 ≤ st.presence b

theorem sendPoolInv_reaches {poolSize : Nat} {st : ChunkRun}
    (h : Reaches chunkStep always (start poolSize) st) : st.SendPoolInv poolSize := by
  apply h.invariant
  · refine ⟨⟨[], UsedPool.agrees_init poolSize⟩, ⟨fun _ _ => rfl, nofun⟩, fun b hlt => ?_⟩
    have hpooled : b ∈ (start poolSize).pool.pools :=
      List.mem_reverse.mpr (List.mem_range.mpr hlt)
    exact Nat.le_trans (among_le hpooled)
      (Nat.le_trans (Nat.le_add_right _ _) (Nat.le_add_right _ _))
  · intro st act st' hreaches hinv _ hstep
    have hplaces := places_reaches hreaches
    exact ⟨poolRight_step hinv.right hstep, hinv.unwritten.step hplaces hstep, fun b hlt =>
      presence_step (hplaces b) hinv.right hlt (hinv.present b hlt) hstep⟩

theorem buffersKept_reaches {poolSize : Nat} {st : ChunkRun}
    (h : Reaches chunkStep always (start poolSize) st) : st.BuffersKept poolSize := by
  have hinv := sendPoolInv_reaches h
  obtain ⟨handedOut, hagrees⟩ := hinv.right
  have hone : ∀ b < poolSize, st.pool.pools.count b + st.deleting.count b +
      (if 0 < st.references b then 1 else 0) = 1 := by
    intro b hlt
    have hpresent := hinv.present b hlt
    have honce := (places_reaches h b).once
    have hheld := (places_reaches h b).held
    rw [presence, references] at hpresent
    rw [← among_eq_count, ← among_eq_count, references]
    split <;> omega
  refine ⟨hone, ?_, ?_, ?_⟩
  · have hsize : st.pool.maxSize = poolSize := hagrees.size
    rw [← hsize]
    apply hagrees.sound.missing hagrees.count fun b => 0 < st.references b || 0 < st.deleting.count b
    intro b hlt
    have hplace := hone b (hsize ▸ hlt)
    dsimp only
    rw [← List.count_eq_zero]
    simp only [Bool.or_eq_true, decide_eq_true_eq]
    split at hplace <;> omega
  · intro t thread thread' request st' hfits ht hrequest hstep ht' hfail
    obtain ⟨found, hfound, hadvance⟩ := Option.bind_eq_some_iff.mp hstep
    cases ht.symm.trans hfound
    exact fails_of_advance hinv.unwritten hfits ht hrequest hadvance ht' hfail
  · intro hempty
    rcases hagrees.sound.pop_cases with ⟨hnil, _⟩ | ⟨object, pools, _, hpop⟩
    · have hsub : List.range poolSize ⊆ (st.threads.filterMap MakeThread.lSendBuffer ++
          st.threads.filterMap fun thread => MakePc.assigned thread.pc) ++
            st.chunks.map SendChunk.sendBuffer ++ st.deleting := by
        intro b hb
        have hpresent := hinv.present b (List.mem_range.mp hb)
        have hpools : st.pool.pools = [] := hnil
        have hnone : among b [] = 0 := rfl
        rw [presence, hpools, hnone, references] at hpresent
        rw [List.mem_append, List.mem_append]
        by_cases howned : 0 < st.owners b
        · exact .inl (.inl (mem_of_owners howned))
        · by_cases hheld : 0 < st.holders b
          · obtain ⟨chunk, hchunk, hrefers⟩ := exists_of_total hheld
            refine .inl (.inr (List.mem_map.mpr ⟨chunk, hchunk, ?_⟩))
            by_contra hne
            have hother : chunk.refers b = 0 := if_neg (by simpa using hne)
            omega
          · right
            rw [← List.count_pos_iff, ← among_eq_count]
            omega
      have hlength := (List.subperm_of_subset List.nodup_range hsub).length_le
      have hfirst := List.length_filterMap_le MakeThread.lSendBuffer st.threads
      have hsecond := List.length_filterMap_le (fun thread => MakePc.assigned thread.pc) st.threads
      simp only [List.length_range, List.length_append, List.length_map] at hlength
      omega
    · rw [hpop] at hempty
      cases hempty

/-- No buffer is lost, and the packets of the server all fit an empty one. -/
theorem buffers_kept {poolSize : Nat} {st : ChunkRun}
    (h : Reaches chunkStep always (start poolSize) st) :
    st.BuffersKept poolSize ∧
      ∀ packet : ServerPacket UInt32, packet.Typed → packet.request.Fits :=
  ⟨buffersKept_reaches h, fun _ => ServerPacket.Typed.fits⟩

/-- Of two buffers one is held by a chunk and the other by a thread; a third call fails. -/
theorem buffers_kept_exhausted :
    ∃ st, Reaches chunkStep always (start 2) st ∧ st.BuffersKept 2 ∧ st.pool.pop.2 = none ∧
      st.threads.map MakeThread.pc =
        [.returned (some ⟨1, 0, 5, ⟨.SERVER_ECHO, [1], 1⟩⟩), .returned none, .returned none] := by
  have hrun : (run (guarded chunkStep always) (start 2)
      (.thread :: makeEcho 0 [1] ++ [.thread] ++ makeEcho 1 [7, 8] ++ [.exit 1, .thread,
        .makeSendPacket 2 ⟨.SERVER_ECHO, [], 0⟩, .advance 2, .advance 2, .advance 2])).any
        (fun st => decide (st.pool.pop.2 = none ∧ st.threads.map MakeThread.pc =
          [.returned (some ⟨1, 0, 5, ⟨.SERVER_ECHO, [1], 1⟩⟩), .returned none,
            .returned none])) = true := by
    decide +kernel
  obtain ⟨st, hst, hends⟩ := (Option.any_eq_true _ _).mp hrun
  obtain ⟨hempty, hthreads⟩ := of_decide_eq_true hends
  have hreaches := reaches_of_run _ .start hst
  exact ⟨st, hreaches, (buffers_kept hreaches).1, hempty, hthreads⟩

end ChunkRun
end RoomServer
