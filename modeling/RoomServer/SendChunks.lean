import RoomServer.Library.Transition
import RoomServer.Library.Threads
import RoomServer.ObjectPool
import RoomServer.SendBuffer

/-! `MakeSendPacket` on any number of threads, each with its own `LSendBuffer`,
over the pool of `SendBuffer`s. The threads interleave at `Pop`, at `Push` and at
every change of a reference; a reference count is the number of references there
are, and the last one to go starts the deleter of `GetSendBuffer`. -/
namespace RoomServer
open Library.Transition Library.Threads Library.Memory

structure SendRequest where
  packetType : PacketType
  sendData : List Byte
  sendSize : Int
  deriving DecidableEq

structure SendChunk where
  /-- `m_sendBuffer`, as its index in the pool. -/
  sendBuffer : Nat
  /-- `m_buffer`, as its offset in the chunk of the buffer. -/
  buffer : Nat
  size : Nat
  /-- History: the call that made it. -/
  request : SendRequest
  deriving DecidableEq

inductive MakePc where
  /-- Outside `MakeSendPacket`; the last call has returned this, or failed. -/
  | returned (result : Option SendChunk)
  /-- `MakeSendPacket` was entered; the test of `LSendBuffer` is next. -/
  | testBuffer (request : SendRequest)
  /-- The `Pop` of `GetSendBuffer` is next; `retry` after a `CopyBuffer` without room. -/
  | getSendBuffer (request : SendRequest) (retry : Bool)
  /-- `GetSendBuffer` has returned; the assignment to `LSendBuffer` is next. -/
  | assign (request : SendRequest) (retry : Bool) (sendBuffer : Option Nat)
  | copyBuffer (request : SendRequest) (retry : Bool)
  deriving DecidableEq

def MakePc.request : MakePc → Option SendRequest
  | .returned _ => none
  | .testBuffer request | .getSendBuffer request _ | .assign request _ _ | .copyBuffer request _ =>
    some request

def MakePc.rank : MakePc → Nat
  | .returned _ => 0
  | .testBuffer _ => 7
  | .getSendBuffer _ retry => if retry then 3 else 6
  | .assign _ retry _ => if retry then 2 else 5
  | .copyBuffer _ retry => if retry then 1 else 4

def MakePc.copied (request : SendRequest) (retry : Bool) : Option SendChunk → MakePc
  | none => if retry then .returned none else .getSendBuffer request true
  | some chunk => .returned (some chunk)

structure MakeThread where
  lSendBuffer : Option Nat
  pc : MakePc
  deriving DecidableEq

structure ChunkRun where
  /-- `m_SendBuffer`. -/
  pool : ObjectPool
  buffers : Nat → SendBuffer
  threads : List MakeThread
  /-- The `SendChunk`s alive, each as often as it was copied. -/
  chunks : List SendChunk
  /-- Buffers whose last reference is gone and whose `Push` is to come. -/
  deleting : List Nat
  /-- History: what was taken from a buffer since it was last reset, the newest first. -/
  taken : Nat → List SendChunk

def ChunkRun.start (poolSize : Nat) : ChunkRun :=
  ⟨.init poolSize, fun _ => .new, [], [], [], fun _ => []⟩

/-! ### References -/

def refersTo (b : Nat) (sendBuffer : Option Nat) : Nat := if sendBuffer = some b then 1 else 0

/-- The result of `GetSendBuffer` counts as long as it is not assigned. -/
def MakePc.refers (b : Nat) : MakePc → Nat
  | .assign _ _ sendBuffer => refersTo b sendBuffer
  | _ => 0

@[simp] theorem MakePc.refers_copied (b : Nat) (request : SendRequest) (retry : Bool)
    (chunk : Option SendChunk) : (MakePc.copied request retry chunk).refers b = 0 := by
  cases chunk <;> cases retry <;> rfl

def MakeThread.refers (b : Nat) (thread : MakeThread) : Nat :=
  refersTo b thread.lSendBuffer + thread.pc.refers b

def SendChunk.refers (b : Nat) (chunk : SendChunk) : Nat := refersTo b (some chunk.sendBuffer)

namespace ChunkRun

def owners (st : ChunkRun) (b : Nat) : Nat := total (MakeThread.refers b) st.threads

def holders (st : ChunkRun) (b : Nat) : Nat := total (SendChunk.refers b) st.chunks

def references (st : ChunkRun) (b : Nat) : Nat := st.owners b + st.holders b

/-- A reference has just gone. -/
def dropped (st : ChunkRun) : Option Nat → ChunkRun
  | none => st
  | some b => if st.references b = 0 then { st with deleting := st.deleting ++ [b] } else st

def move (st : ChunkRun) (t : Nat) (thread : MakeThread) : ChunkRun :=
  { st with threads := st.threads.set t thread }

def copy (st : ChunkRun) (b : Nat) (request : SendRequest) :
    Option (ChunkRun × Option SendChunk) :=
  (st.buffers b).copyBuffer request.packetType request.sendData request.sendSize |>.map fun tp =>
    let st := { st with buffers := Function.update st.buffers b tp.1 }
    match tp.2 with
    | none => (st, none)
    | some (bufferPointer, totalSize) =>
      let chunk : SendChunk := ⟨b, bufferPointer, totalSize, request⟩
      ({ st with
        chunks := chunk :: st.chunks
        taken := Function.update st.taken b (chunk :: st.taken b) }, some chunk)

def advance (st : ChunkRun) (t : Nat) (thread : MakeThread) : Option ChunkRun :=
  match thread.pc with
  | .returned _ => none
  | .testBuffer request =>
    let pc := if thread.lSendBuffer = none then .getSendBuffer request false
      else .copyBuffer request false
    some (st.move t { thread with pc := pc })
  | .getSendBuffer request retry =>
    let popped := st.pool.pop
    some ({ st with pool := popped.1 }.move t { thread with pc := .assign request retry popped.2 })
  | .assign request retry sendBuffer =>
    let pc := if sendBuffer = none then .returned none else .copyBuffer request retry
    some ((st.move t ⟨sendBuffer, pc⟩).dropped thread.lSendBuffer)
  | .copyBuffer request retry => do
    let b ← thread.lSendBuffer
    let (st, chunk) ← st.copy b request
    some (st.move t { thread with pc := .copied request retry chunk })

/-- The deleter's `Push`, which resets what it accepts. -/
def push (st : ChunkRun) (b : Nat) : ChunkRun :=
  let pushed := st.pool.push b
  let st := { st with pool := pushed.1 }
  if pushed.2 then
    { st with
      buffers := Function.update st.buffers b (st.buffers b).reset
      taken := Function.update st.taken b [] }
  else st

end ChunkRun

inductive ChunkAct where
  /-- A thread starts. -/
  | thread
  | makeSendPacket (t : Nat) (request : SendRequest)
  | advance (t : Nat)
  | copyChunk (k : Nat)
  | dropChunk (k : Nat)
  /-- A deleter takes the pool's lock. -/
  | push (k : Nat)
  /-- A thread ends, and its `LSendBuffer` with it. -/
  | exit (t : Nat)
  deriving DecidableEq

def chunkStep : Step ChunkRun ChunkAct
  | st, .thread => some { st with threads := st.threads ++ [⟨none, .returned none⟩] }
  | st, .makeSendPacket t request => do
    let thread ← st.threads[t]?
    if thread.pc.request = none then some (st.move t { thread with pc := .testBuffer request })
    else none
  | st, .advance t => do
    let thread ← st.threads[t]?
    st.advance t thread
  | st, .copyChunk k => st.chunks[k]?.map fun chunk => { st with chunks := chunk :: st.chunks }
  | st, .dropChunk k => st.chunks[k]?.map fun chunk =>
    { st with chunks := st.chunks.eraseIdx k }.dropped (some chunk.sendBuffer)
  | st, .push k => st.deleting[k]?.map fun b => { st with deleting := st.deleting.eraseIdx k }.push b
  | st, .exit t => do
    let thread ← st.threads[t]?
    if thread.pc.request = none then
      some ((st.move t ⟨none, .returned none⟩).dropped thread.lSendBuffer)
    else none

theorem makeSendPacket_cases {st st' : ChunkRun} {t : Nat} {request : SendRequest}
    (hstep : chunkStep st (.makeSendPacket t request) = some st') :
    ∃ thread, st.threads[t]? = some thread ∧
      st' = st.move t { thread with pc := .testBuffer request } := by
  obtain ⟨thread, ht, hstep⟩ := Option.bind_eq_some_iff.mp hstep
  split at hstep
  · exact ⟨thread, ht, (Option.some.inj hstep).symm⟩
  · cases hstep

theorem exit_cases {st st' : ChunkRun} {t : Nat} (hstep : chunkStep st (.exit t) = some st') :
    ∃ thread, st.threads[t]? = some thread ∧
      st' = (st.move t ⟨none, .returned none⟩).dropped thread.lSendBuffer := by
  obtain ⟨thread, ht, hstep⟩ := Option.bind_eq_some_iff.mp hstep
  split at hstep
  · exact ⟨thread, ht, (Option.some.inj hstep).symm⟩
  · cases hstep

/-! ### What a chunk holds -/

namespace SendChunk

def body (chunk : SendChunk) : List Byte :=
  chunk.request.sendData.take chunk.request.sendSize.toNat

def bytes (chunk : SendChunk) (buffers : Nat → SendBuffer) : List Byte :=
  read (buffers chunk.sendBuffer).chunk chunk.buffer chunk.size

structure Exact (chunk : SendChunk) (buffers : Nat → SendBuffer) : Prop where
  counted : chunk.request.sendSize = chunk.body.length
  size : chunk.size = PacketID_SIZE + chunk.body.length
  inside : chunk.buffer + chunk.size ≤ SendBuffer.getChunkSize
  bytes : chunk.bytes buffers = packetBytes chunk.request.packetType chunk.body

theorem Exact.of_bytes {chunk : SendChunk} {buffers buffers' : Nat → SendBuffer}
    (h : chunk.Exact buffers) (hbytes : chunk.bytes buffers' = chunk.bytes buffers) :
    chunk.Exact buffers' :=
  ⟨h.counted, h.size, h.inside, hbytes.trans h.bytes⟩

end SendChunk

/-- The newest chunk first, each one before the next newer, and all below `bound`. -/
def Stacked : Nat → List SendChunk → Prop
  | _, [] => True
  | bound, chunk :: older => chunk.buffer + chunk.size ≤ bound ∧ Stacked chunk.buffer older

theorem Stacked.below {bound : Nat} {taken : List SendChunk} (h : Stacked bound taken)
    {chunk : SendChunk} (hmem : chunk ∈ taken) : chunk.buffer + chunk.size ≤ bound := by
  induction taken generalizing bound with
  | nil => contradiction
  | cons newest older ih =>
    rcases List.mem_cons.mp hmem with heq | hmem
    · rw [heq]
      exact h.1
    · have hle := ih h.2 hmem
      have hnewest := h.1
      omega

def SendChunk.Disjoint (chunk other : SendChunk) : Prop :=
  Apart chunk.buffer chunk.size other.buffer other.size

theorem Stacked.pairwise {bound : Nat} {taken : List SendChunk} (h : Stacked bound taken) :
    taken.Pairwise SendChunk.Disjoint := by
  induction taken generalizing bound with
  | nil => exact .nil
  | cons newest older ih =>
    refine .cons (fun chunk hmem => ?_) (ih h.2)
    exact .inr (h.2.below hmem)

namespace ChunkRun

structure Copied (st : ChunkRun) (chunk : SendChunk) (st' : ChunkRun) : Prop where
  pointer : chunk.buffer = (st.buffers chunk.sendBuffer).pointer
  counted : chunk.request.sendSize = chunk.body.length
  size : chunk.size = PacketID_SIZE + chunk.body.length
  inside : chunk.buffer + chunk.size ≤ SendBuffer.getChunkSize
  buffers : st'.buffers = Function.update st.buffers chunk.sendBuffer
    ⟨write (st.buffers chunk.sendBuffer).chunk chunk.buffer
      (packetBytes chunk.request.packetType chunk.body), chunk.buffer + chunk.size⟩
  taken : st'.taken =
    Function.update st.taken chunk.sendBuffer (chunk :: st.taken chunk.sendBuffer)
  chunks : st'.chunks = chunk :: st.chunks

theorem copy_cases {st st' : ChunkRun} {b : Nat} {request : SendRequest}
    {result : Option SendChunk} (h : st.copy b request = some (st', result)) :
    result = none ∧ st' = st ∨
    ∃ chunk, result = some chunk ∧ chunk.sendBuffer = b ∧ chunk.request = request ∧
      st.Copied chunk st' ∧
      st'.pool = st.pool ∧ st'.deleting = st.deleting ∧ st'.threads = st.threads := by
  obtain ⟨⟨buffer, tp⟩, hcopy, heq⟩ := Option.map_eq_some_iff.mp h
  rcases SendBuffer.copyBuffer_cases hcopy with
    ⟨rfl, rfl, _⟩ | ⟨size, hsize, hdata, hfits, rfl, rfl⟩
  · cases heq
    exact .inl ⟨rfl, by rw [Function.update_eq_self]⟩
  · cases heq
    right
    have hbody : (request.sendData.take request.sendSize.toNat).length = size := by
      rw [hsize, Int.toNat_natCast, List.length_take_of_le hdata]
    refine ⟨_, rfl, rfl, rfl, ⟨rfl, ?_, ?_, ?_, ?_, rfl, rfl⟩, rfl, rfl, rfl⟩
    · change request.sendSize = (request.sendData.take request.sendSize.toNat).length
      rw [hbody, hsize]
    · change size + PacketID_SIZE = PacketID_SIZE + (request.sendData.take _).length
      rw [hbody, Nat.add_comm]
    · change (st.buffers b).pointer + (size + PacketID_SIZE) ≤ _
      rw [Nat.add_comm size]
      exact hfits
    · simp only [SendChunk.body, hsize, Int.toNat_natCast, Nat.add_comm size]

theorem copy_threads {st st' : ChunkRun} {b : Nat} {request : SendRequest}
    {result : Option SendChunk} (h : st.copy b request = some (st', result)) :
    st'.threads = st.threads := by
  rcases copy_cases h with ⟨_, rfl⟩ | ⟨_, _, _, _, _, _, _, hthreads⟩
  · rfl
  · exact hthreads

/-- What a step can do to the buffers and to what was taken from them. -/
inductive LedgerChange (st st' : ChunkRun) : Prop where
  | same (buffers : st'.buffers = st.buffers) (taken : st'.taken = st.taken)
      (chunks : ∀ chunk ∈ st'.chunks, chunk ∈ st.chunks)
  | copied (chunk : SendChunk) (copied : st.Copied chunk st')
  | reset (b : Nat) (deleting : b ∈ st.deleting)
      (buffers : st'.buffers = Function.update st.buffers b (st.buffers b).reset)
      (taken : st'.taken = Function.update st.taken b []) (chunks : st'.chunks = st.chunks)

@[simp] theorem dropped_buffers (st : ChunkRun) (sendBuffer : Option Nat) :
    (st.dropped sendBuffer).buffers = st.buffers := by
  unfold dropped
  split
  · rfl
  · split <;> rfl

@[simp] theorem dropped_taken (st : ChunkRun) (sendBuffer : Option Nat) :
    (st.dropped sendBuffer).taken = st.taken := by
  unfold dropped
  split
  · rfl
  · split <;> rfl

@[simp] theorem dropped_chunks (st : ChunkRun) (sendBuffer : Option Nat) :
    (st.dropped sendBuffer).chunks = st.chunks := by
  unfold dropped
  split
  · rfl
  · split <;> rfl

@[simp] theorem dropped_threads (st : ChunkRun) (sendBuffer : Option Nat) :
    (st.dropped sendBuffer).threads = st.threads := by
  unfold dropped
  split
  · rfl
  · split <;> rfl

theorem ledger_dropped {st st' : ChunkRun} (h : LedgerChange st st') (sendBuffer : Option Nat) :
    LedgerChange st (st'.dropped sendBuffer) := by
  cases h with
  | same buffers taken chunks =>
    exact .same (by rw [dropped_buffers, buffers]) (by rw [dropped_taken, taken])
      (by rw [dropped_chunks]; exact chunks)
  | copied chunk copied =>
    refine .copied chunk ⟨copied.pointer, copied.counted, copied.size, copied.inside, ?_, ?_, ?_⟩
    · rw [dropped_buffers, copied.buffers]
    · rw [dropped_taken, copied.taken]
    · rw [dropped_chunks, copied.chunks]
  | reset b deleting buffers taken chunks =>
    exact .reset b deleting (by rw [dropped_buffers, buffers]) (by rw [dropped_taken, taken])
      (by rw [dropped_chunks, chunks])

theorem ledger_advance {st st' : ChunkRun} {t : Nat} {thread : MakeThread}
    (h : st.advance t thread = some st') : LedgerChange st st' := by
  obtain ⟨lSendBuffer, pc⟩ := thread
  cases pc with
  | returned result => cases h
  | testBuffer request =>
    cases h
    exact .same rfl rfl fun _ hmem => hmem
  | getSendBuffer request retry =>
    cases h
    exact .same rfl rfl fun _ hmem => hmem
  | assign request retry sendBuffer =>
    cases h
    refine ledger_dropped ?_ _
    exact .same rfl rfl fun _ hmem => hmem
  | copyBuffer request retry =>
    obtain ⟨b, hb, h⟩ := Option.bind_eq_some_iff.mp h
    obtain ⟨⟨copied, result⟩, hcopy, h⟩ := Option.bind_eq_some_iff.mp h
    cases h
    rcases copy_cases hcopy with ⟨_, rfl⟩ | ⟨chunk, _, _, _, hcopied, _⟩
    · exact .same rfl rfl fun _ hmem => hmem
    · exact .copied chunk ⟨hcopied.pointer, hcopied.counted, hcopied.size, hcopied.inside,
        hcopied.buffers, hcopied.taken, hcopied.chunks⟩

theorem ledger_push (st : ChunkRun) {b : Nat} (hb : b ∈ st.deleting) (deleting : List Nat) :
    LedgerChange st ({ st with deleting := deleting }.push b) := by
  unfold push
  dsimp only
  split
  · exact .reset b hb rfl rfl rfl
  · exact .same rfl rfl fun _ hmem => hmem

theorem ledger_step {st st' : ChunkRun} {act : ChunkAct} (h : chunkStep st act = some st') :
    LedgerChange st st' := by
  cases act with
  | thread =>
    cases h
    exact .same rfl rfl fun _ hmem => hmem
  | makeSendPacket t request =>
    obtain ⟨thread, _, rfl⟩ := makeSendPacket_cases h
    exact .same rfl rfl fun _ hmem => hmem
  | advance t =>
    obtain ⟨thread, _, h⟩ := Option.bind_eq_some_iff.mp h
    exact ledger_advance h
  | copyChunk k =>
    obtain ⟨chunk, hk, rfl⟩ := Option.map_eq_some_iff.mp h
    refine .same rfl rfl fun other hmem => ?_
    rcases List.mem_cons.mp hmem with rfl | hmem
    · exact List.mem_of_getElem? hk
    · exact hmem
  | dropChunk k =>
    obtain ⟨chunk, _, rfl⟩ := Option.map_eq_some_iff.mp h
    refine ledger_dropped ?_ _
    exact .same rfl rfl fun _ hmem => List.mem_of_mem_eraseIdx hmem
  | push k =>
    obtain ⟨b, hk, rfl⟩ := Option.map_eq_some_iff.mp h
    exact ledger_push st (List.mem_of_getElem? hk) _
  | exit t =>
    obtain ⟨thread, _, rfl⟩ := exit_cases h
    refine ledger_dropped ?_ _
    exact .same rfl rfl fun _ hmem => hmem

/-! ### Where a buffer is -/

def among (b : Nat) (objects : List Nat) : Nat := total (fun object => refersTo b (some object)) objects

/-- A buffer is in the pool, on its way there or some thread's, and in one place only;
with a chunk alive it is neither of the first two. -/
structure Places (st : ChunkRun) (b : Nat) : Prop where
  once : among b st.pool.pools + among b st.deleting + st.owners b ≤ 1
  held : 0 < st.holders b → among b st.pool.pools + among b st.deleting = 0

theorem among_le {b : Nat} {objects : List Nat} (h : b ∈ objects) : 1 ≤ among b objects := by
  have hle := le_total (fun object => refersTo b (some object)) h
  have hone : refersTo b (some b) = 1 := if_pos rfl
  rw [hone] at hle
  exact hle

theorem owners_move {st : ChunkRun} {t : Nat} {thread : MakeThread}
    (h : st.threads[t]? = some thread) (thread' : MakeThread) (b : Nat) :
    (st.move t thread').owners b + thread.refers b = st.owners b + thread'.refers b :=
  total_set (MakeThread.refers b) thread' h

theorem Places.owned {st : ChunkRun} {b : Nat} (h : st.Places b) {t : Nat} {thread : MakeThread}
    (ht : st.threads[t]? = some thread) (hrefers : 0 < thread.refers b) :
    among b st.pool.pools + among b st.deleting = 0 := by
  have hle : thread.refers b ≤ st.owners b :=
    le_total (MakeThread.refers b) (List.mem_of_getElem? ht)
  have honce := h.once
  omega

theorem places_dropped {st : ChunkRun} {b : Nat} (h : st.Places b) (sendBuffer : Option Nat)
    (hfree : sendBuffer = some b → among b st.pool.pools + among b st.deleting = 0) :
    (st.dropped sendBuffer).Places b := by
  cases sendBuffer with
  | none => exact h
  | some gone =>
    by_cases hreferences : st.references gone = 0
    · rw [dropped, if_pos hreferences]
      have hdeleting : among b (st.deleting ++ [gone]) = among b st.deleting + refersTo b (some gone) := by
        rw [among, total_append, total_cons, total_nil, Nat.add_zero, ← among]
      by_cases heq : gone = b
      · subst heq
        have hzero := hfree rfl
        have hone : refersTo gone (some gone) = 1 := if_pos rfl
        unfold references at hreferences
        refine ⟨?_, fun hheld => ?_⟩
        · change among gone st.pool.pools + among gone (st.deleting ++ [gone]) + st.owners gone ≤ 1
          omega
        · change 0 < st.holders gone at hheld
          omega
      · have hnone : refersTo b (some gone) = 0 := if_neg (by simpa using heq)
        refine ⟨?_, fun hheld => ?_⟩
        · change among b st.pool.pools + among b (st.deleting ++ [gone]) + st.owners b ≤ 1
          have honce := h.once
          omega
        · change among b st.pool.pools + among b (st.deleting ++ [gone]) = 0
          have hheld := h.held hheld
          omega
    · rw [dropped, if_neg hreferences]
      exact h

theorem places_move {st : ChunkRun} {b : Nat} (h : st.Places b) {t : Nat}
    {thread thread' : MakeThread} (ht : st.threads[t]? = some thread)
    (hrefers : thread'.refers b ≤ thread.refers b) : (st.move t thread').Places b := by
  have howners := owners_move ht thread' b
  have honce := h.once
  refine ⟨?_, h.held⟩
  change among b st.pool.pools + among b st.deleting + (st.move t thread').owners b ≤ 1
  omega

/-- A thread lets its `LSendBuffer` go and takes what it already refers to instead. -/
theorem places_assign {st : ChunkRun} {b : Nat} (h : st.Places b) {t : Nat}
    {thread thread' : MakeThread} (ht : st.threads[t]? = some thread)
    (hrefers : thread'.refers b ≤ thread.refers b) :
    ((st.move t thread').dropped thread.lSendBuffer).Places b := by
  apply places_dropped (places_move h ht hrefers)
  intro hl
  apply h.owned ht
  have hone : refersTo b thread.lSendBuffer = 1 := if_pos hl
  unfold MakeThread.refers
  omega

theorem places_pop {st : ChunkRun} {b : Nat} (h : st.Places b) {t : Nat} {thread : MakeThread}
    {request : SendRequest} {retry : Bool} (ht : st.threads[t]? = some thread)
    (hpc : thread.pc = .getSendBuffer request retry) :
    ({ st with pool := st.pool.pop.1 }.move t
      { thread with pc := .assign request retry st.pool.pop.2 }).Places b := by
  have howners := owners_move ht { thread with pc := .assign request retry st.pool.pop.2 } b
  simp only [MakeThread.refers, hpc, MakePc.refers] at howners
  have honce := h.once
  cases hpop : st.pool.pop with
  | mk pool popped =>
    rw [hpop] at howners
    cases popped with
    | none =>
      have hnone : refersTo b none = 0 := if_neg nofun
      obtain rfl := ObjectPool.pop_none hpop
      refine ⟨?_, h.held⟩
      change among b st.pool.pools + among b st.deleting +
        (st.move t { thread with pc := .assign request retry none }).owners b ≤ 1
      dsimp only at howners
      omega
    | some object =>
      have hpools : among b st.pool.pools = refersTo b (some object) + among b pool.pools := by
        rw [(ObjectPool.pop_some hpop).1]
        rfl
      dsimp only at howners
      refine ⟨?_, fun hheld => ?_⟩
      · change among b pool.pools + among b st.deleting +
          (st.move t { thread with pc := .assign request retry (some object) }).owners b ≤ 1
        omega
      · have hzero := h.held hheld
        change among b pool.pools + among b st.deleting = 0
        omega

theorem places_chunk {st st' : ChunkRun} {b : Nat} (h : st.Places b) (chunk : SendChunk)
    (hpool : st'.pool = st.pool) (hdeleting : st'.deleting = st.deleting)
    (hthreads : st'.threads = st.threads) (hchunks : st'.chunks = chunk :: st.chunks)
    (hfree : chunk.sendBuffer = b → among b st.pool.pools + among b st.deleting = 0) :
    st'.Places b := by
  have hholders : st'.holders b = chunk.refers b + st.holders b := by
    rw [holders, hchunks]
    rfl
  refine ⟨?_, fun hheld => ?_⟩
  · rw [hpool, hdeleting, owners, hthreads]
    exact h.once
  · rw [hpool, hdeleting]
    by_cases heq : chunk.sendBuffer = b
    · exact hfree heq
    · have hnone : chunk.refers b = 0 := if_neg (by simpa using heq)
      exact h.held (by omega)

theorem places_advance {st st' : ChunkRun} {b : Nat} (h : st.Places b) {t : Nat}
    {thread : MakeThread} (ht : st.threads[t]? = some thread)
    (hstep : st.advance t thread = some st') : st'.Places b := by
  cases hpc : thread.pc with
  | returned result => simp only [advance, hpc] at hstep; cases hstep
  | testBuffer request =>
    simp only [advance, hpc] at hstep
    cases hstep
    apply places_move h ht
    split <;> simp [MakeThread.refers, MakePc.refers]
  | getSendBuffer request retry =>
    simp only [advance, hpc] at hstep
    cases hstep
    exact places_pop h ht hpc
  | assign request retry sendBuffer =>
    simp only [advance, hpc] at hstep
    cases hstep
    apply places_assign h ht
    cases sendBuffer <;> simp [MakeThread.refers, hpc, MakePc.refers]
  | copyBuffer request retry =>
    simp only [advance, hpc] at hstep
    obtain ⟨owner, howner, hstep⟩ := Option.bind_eq_some_iff.mp hstep
    obtain ⟨⟨copied, result⟩, hcopy, hstep⟩ := Option.bind_eq_some_iff.mp hstep
    cases hstep
    have hrefers : MakeThread.refers b { thread with pc := .copied request retry result } ≤
        thread.refers b := by
      simp [MakeThread.refers]
    rcases copy_cases hcopy with
      ⟨_, rfl⟩ | ⟨chunk, _, hsendBuffer, _, hcopied, hpool, hdeleting, hthreads⟩
    · exact places_move h ht hrefers
    · refine places_chunk (places_move h ht hrefers) chunk hpool hdeleting
        (congrArg (List.set · t _) hthreads) hcopied.chunks fun heq => ?_
      apply h.owned ht
      have hone : refersTo b thread.lSendBuffer = 1 :=
        if_pos (by rw [howner, ← heq, hsendBuffer])
      unfold MakeThread.refers
      omega

theorem holders_pos {st : ChunkRun} {chunk : SendChunk} (h : chunk ∈ st.chunks) :
    0 < st.holders chunk.sendBuffer := by
  have hle : chunk.refers chunk.sendBuffer ≤ st.holders chunk.sendBuffer :=
    le_total (SendChunk.refers chunk.sendBuffer) h
  have hone : chunk.refers chunk.sendBuffer = 1 := if_pos rfl
  omega

theorem places_drop {st : ChunkRun} {b : Nat} (h : st.Places b) {k : Nat} {chunk : SendChunk}
    (hk : st.chunks[k]? = some chunk) :
    ({ st with chunks := st.chunks.eraseIdx k }.dropped (some chunk.sendBuffer)).Places b := by
  have herase := total_eraseIdx (SendChunk.refers b) hk
  apply places_dropped
  · refine ⟨h.once, fun hheld => h.held ?_⟩
    change 0 < total (SendChunk.refers b) (st.chunks.eraseIdx k) at hheld
    change 0 < total (SendChunk.refers b) st.chunks
    omega
  · intro heq
    cases heq
    exact h.held (holders_pos (List.mem_of_getElem? hk))

theorem places_push {st : ChunkRun} {b : Nat} (h : st.Places b) {k object : Nat}
    (hk : st.deleting[k]? = some object) :
    ({ st with deleting := st.deleting.eraseIdx k }.push object).Places b := by
  have herase := total_eraseIdx (fun object => refersTo b (some object)) hk
  have hdeleting : among b (st.deleting.eraseIdx k) + refersTo b (some object) =
    among b st.deleting := herase
  have honce := h.once
  unfold push
  rcases ObjectPool.push_pools st.pool object with ⟨hpools, htrue, _⟩ | ⟨hsame, hfalse⟩
  · simp only [htrue, if_pos]
    have hamong : among b (st.pool.push object).1.pools =
        refersTo b (some object) + among b st.pool.pools := by
      rw [hpools]
      rfl
    refine ⟨?_, fun hheld => ?_⟩
    · change among b (st.pool.push object).1.pools + among b (st.deleting.eraseIdx k) +
        st.owners b ≤ 1
      omega
    · have hzero := h.held hheld
      change among b (st.pool.push object).1.pools + among b (st.deleting.eraseIdx k) = 0
      omega
  · simp only [hfalse, hsame]
    refine ⟨?_, fun hheld => ?_⟩
    · change among b st.pool.pools + among b (st.deleting.eraseIdx k) + st.owners b ≤ 1
      omega
    · have hzero := h.held hheld
      change among b st.pool.pools + among b (st.deleting.eraseIdx k) = 0
      omega

theorem places_step {st st' : ChunkRun} {act : ChunkAct} {b : Nat} (h : st.Places b)
    (hstep : chunkStep st act = some st') : st'.Places b := by
  cases act with
  | thread =>
    cases hstep
    have honce := h.once
    refine ⟨?_, h.held⟩
    have howners : total (MakeThread.refers b) (st.threads ++ [⟨none, .returned none⟩]) = st.owners b := by
      simp [owners, MakeThread.refers, MakePc.refers, refersTo]
    change among b st.pool.pools + among b st.deleting +
      total (MakeThread.refers b) (st.threads ++ [⟨none, .returned none⟩]) ≤ 1
    omega
  | makeSendPacket t request =>
    obtain ⟨thread, ht, rfl⟩ := makeSendPacket_cases hstep
    apply places_move h ht
    simp [MakeThread.refers, MakePc.refers]
  | advance t =>
    obtain ⟨thread, ht, hstep⟩ := Option.bind_eq_some_iff.mp hstep
    exact places_advance h ht hstep
  | copyChunk k =>
    obtain ⟨chunk, hk, rfl⟩ := Option.map_eq_some_iff.mp hstep
    refine places_chunk h chunk rfl rfl rfl rfl fun heq => ?_
    subst heq
    exact h.held (holders_pos (List.mem_of_getElem? hk))
  | dropChunk k =>
    obtain ⟨chunk, hk, rfl⟩ := Option.map_eq_some_iff.mp hstep
    exact places_drop h hk
  | push k =>
    obtain ⟨object, hk, rfl⟩ := Option.map_eq_some_iff.mp hstep
    exact places_push h hk
  | exit t =>
    obtain ⟨thread, ht, rfl⟩ := exit_cases hstep
    apply places_assign h ht
    simp [MakeThread.refers, MakePc.refers, refersTo]

theorem among_nodup (b : Nat) {objects : List Nat} (h : objects.Nodup) :
    among b objects ≤ 1 := by
  induction objects with
  | nil => exact Nat.zero_le 1
  | cons object objects ih =>
    rw [List.nodup_cons] at h
    have hle := ih h.2
    have hcons : among b (object :: objects) = refersTo b (some object) + among b objects := rfl
    by_cases heq : object = b
    · subst heq
      have hrest : among object objects = 0 := by
        apply total_of_forall
        intro other hother
        refine if_neg fun hsame => h.1 ?_
        rw [← Option.some.inj hsame]
        exact hother
      have hone : refersTo object (some object) = 1 := if_pos rfl
      omega
    · have hnone : refersTo b (some object) = 0 := if_neg (by simpa using heq)
      omega

theorem places_start (poolSize b : Nat) : (start poolSize).Places b := by
  refine ⟨?_, fun hheld => absurd hheld (Nat.lt_irrefl 0)⟩
  exact among_nodup b (ObjectPool.init_sound poolSize).nodup

theorem places_reaches {poolSize : Nat} {ok : ChunkRun → ChunkAct → Prop} {st : ChunkRun}
    (h : Reaches chunkStep ok (start poolSize) st) (b : Nat) : st.Places b :=
  h.invariant (places_start poolSize b) fun _ _ _ _ hplaces _ hstep => places_step hplaces hstep

theorem Places.free {st : ChunkRun} {b : Nat} (h : st.Places b)
    (hfree : b ∈ st.pool.pools ∨ b ∈ st.deleting) : st.references b = 0 := by
  have hone : 1 ≤ among b st.pool.pools + among b st.deleting := by
    rcases hfree with hfree | hfree
    · exact Nat.le_trans (among_le hfree) (Nat.le_add_right _ _)
    · exact Nat.le_trans (among_le hfree) (Nat.le_add_left _ _)
  have honce := h.once
  have hheld := h.held
  unfold references
  omega

/-! ### The chunks taken from a buffer -/

structure Ledger (st : ChunkRun) : Prop where
  bounded : ∀ b, (st.buffers b).pointer ≤ SendBuffer.getChunkSize
  stacked : ∀ b, Stacked (st.buffers b).pointer (st.taken b)
  exact : ∀ b, ∀ chunk ∈ st.taken b, chunk.sendBuffer = b ∧ chunk.Exact st.buffers
  recorded : ∀ chunk ∈ st.chunks, chunk ∈ st.taken chunk.sendBuffer

theorem ledger_start (poolSize : Nat) : (start poolSize).Ledger :=
  ⟨fun _ => Nat.zero_le _, fun _ => trivial, nofun, nofun⟩

theorem bytes_other {chunk : SendChunk} {b : Nat} (h : chunk.sendBuffer ≠ b)
    (buffers : Nat → SendBuffer) (buffer : SendBuffer) :
    chunk.bytes (Function.update buffers b buffer) = chunk.bytes buffers := by
  unfold SendChunk.bytes
  rw [Function.update_of_ne h]

theorem bytes_before {chunk : SendChunk} {b offset pointer : Nat} {buffers : Nat → SendBuffer}
    (h : chunk.sendBuffer = b → chunk.buffer + chunk.size ≤ offset) (values : List Byte) :
    chunk.bytes (Function.update buffers b ⟨write (buffers b).chunk offset values, pointer⟩) =
      chunk.bytes buffers := by
  by_cases heq : chunk.sendBuffer = b
  · unfold SendChunk.bytes
    rw [heq, Function.update_self]
    exact read_write_apart _ (.inr (h heq))
  · exact bytes_other heq _ _

theorem bytes_copied {chunk : SendChunk} {buffers : Nat → SendBuffer} {pointer : Nat}
    {values : List Byte} (h : chunk.size = values.length) :
    chunk.bytes (Function.update buffers chunk.sendBuffer
      ⟨write (buffers chunk.sendBuffer).chunk chunk.buffer values, pointer⟩) = values := by
  unfold SendChunk.bytes
  rw [Function.update_self, h]
  exact read_write _ _ _

theorem Ledger.below {st : ChunkRun} (h : st.Ledger) {b : Nat} {chunk : SendChunk}
    (hmem : chunk ∈ st.taken b) : chunk.buffer + chunk.size ≤ (st.buffers b).pointer :=
  (h.stacked b).below hmem

/-- What was taken from a buffer stays as it is until the buffer is reset. -/
theorem LedgerChange.keeps {st st' : ChunkRun} (hchange : LedgerChange st st') (h : st.Ledger)
    {b : Nat} (hb : b ∉ st.deleting) {chunk : SendChunk} (hmem : chunk ∈ st.taken b) :
    chunk ∈ st'.taken b ∧ chunk.bytes st'.buffers = chunk.bytes st.buffers := by
  obtain ⟨hsendBuffer, _⟩ := h.exact b chunk hmem
  cases hchange with
  | same buffers taken _ =>
    rw [buffers, taken]
    exact ⟨hmem, rfl⟩
  | copied new copied =>
    rw [copied.buffers, copied.taken]
    constructor
    · by_cases heq : b = new.sendBuffer
      · rw [heq, Function.update_self, ← heq]
        exact List.mem_cons_of_mem _ hmem
      · rw [Function.update_of_ne heq]
        exact hmem
    · apply bytes_before
      intro heq
      rw [copied.pointer, ← heq, hsendBuffer]
      exact h.below hmem
  | reset gone deleting buffers taken _ =>
    have hne : b ≠ gone := fun heq => hb (heq ▸ deleting)
    rw [buffers, taken, Function.update_of_ne hne]
    exact ⟨hmem, bytes_other (hsendBuffer ▸ hne) _ _⟩

theorem ledger_copied {st st' : ChunkRun} (h : st.Ledger) {new : SendChunk}
    (hcopied : st.Copied new st') : st'.Ledger := by
  obtain ⟨pointer, counted, size, inside, buffers, taken, chunks⟩ := hcopied
  have hbytes : ∀ chunk ∈ st.taken new.sendBuffer,
      chunk.buffer + chunk.size ≤ new.buffer := fun chunk hmem => pointer ▸ h.below hmem
  refine ⟨fun b => ?_, fun b => ?_, fun b chunk hmem => ?_, fun chunk hmem => ?_⟩
  · rw [buffers]
    by_cases heq : b = new.sendBuffer
    · rw [heq, Function.update_self]
      exact inside
    · rw [Function.update_of_ne heq]
      exact h.bounded b
  · rw [buffers, taken]
    by_cases heq : b = new.sendBuffer
    · rw [heq, Function.update_self, Function.update_self]
      refine ⟨Nat.le_refl _, ?_⟩
      rw [pointer]
      exact h.stacked _
    · rw [Function.update_of_ne heq, Function.update_of_ne heq]
      exact h.stacked b
  · have hold : chunk ∈ st.taken b → chunk.sendBuffer = b ∧ chunk.Exact st'.buffers := by
      intro hmem
      obtain ⟨hsendBuffer, hexact⟩ := h.exact b chunk hmem
      refine ⟨hsendBuffer, hexact.of_bytes ?_⟩
      rw [buffers]
      apply bytes_before
      intro hsame
      exact hbytes chunk (by rw [← hsame, hsendBuffer]; exact hmem)
    rw [taken] at hmem
    by_cases heq : b = new.sendBuffer
    · rw [heq, Function.update_self] at hmem
      rcases List.mem_cons.mp hmem with rfl | hmem
      · refine ⟨heq.symm, counted, size, inside, ?_⟩
        rw [buffers]
        exact bytes_copied (by rw [length_packetBytes, size])
      · exact hold (heq ▸ hmem)
    · rw [Function.update_of_ne heq] at hmem
      exact hold hmem
  · rw [taken]
    rw [chunks] at hmem
    rcases List.mem_cons.mp hmem with rfl | hmem
    · rw [Function.update_self]
      exact List.mem_cons_self
    · have hrecorded := h.recorded chunk hmem
      by_cases heq : chunk.sendBuffer = new.sendBuffer
      · rw [heq, Function.update_self, ← heq]
        exact List.mem_cons_of_mem _ hrecorded
      · rw [Function.update_of_ne heq]
        exact hrecorded

theorem ledger_reset {st st' : ChunkRun} (h : st.Ledger) {b : Nat} (hfree : st.references b = 0)
    (buffers : st'.buffers = Function.update st.buffers b (st.buffers b).reset)
    (taken : st'.taken = Function.update st.taken b []) (chunks : st'.chunks = st.chunks) :
    st'.Ledger := by
  refine ⟨fun other => ?_, fun other => ?_, fun other chunk hmem => ?_, fun chunk hmem => ?_⟩
  · rw [buffers]
    by_cases heq : other = b
    · rw [heq, Function.update_self]
      exact Nat.zero_le _
    · rw [Function.update_of_ne heq]
      exact h.bounded other
  · rw [buffers, taken]
    by_cases heq : other = b
    · rw [heq, Function.update_self, Function.update_self]
      trivial
    · rw [Function.update_of_ne heq, Function.update_of_ne heq]
      exact h.stacked other
  · rw [taken] at hmem
    by_cases heq : other = b
    · rw [heq, Function.update_self] at hmem
      contradiction
    · rw [Function.update_of_ne heq] at hmem
      obtain ⟨hsendBuffer, hexact⟩ := h.exact other chunk hmem
      refine ⟨hsendBuffer, hexact.of_bytes ?_⟩
      rw [buffers]
      exact bytes_other (hsendBuffer ▸ heq) _ _
  · rw [chunks] at hmem
    have hpos := holders_pos hmem
    have hne : chunk.sendBuffer ≠ b := by
      intro heq
      rw [heq] at hpos
      unfold references at hfree
      omega
    rw [taken, Function.update_of_ne hne]
    exact h.recorded chunk hmem

theorem ledger_next {st st' : ChunkRun} (hplaces : ∀ b, st.Places b) (h : st.Ledger)
    (hchange : LedgerChange st st') : st'.Ledger := by
  cases hchange with
  | same buffers taken chunks =>
    refine ⟨?_, ?_, ?_, ?_⟩
    · rw [buffers]
      exact h.bounded
    · rw [buffers, taken]
      exact h.stacked
    · rw [buffers, taken]
      exact h.exact
    · rw [taken]
      exact fun chunk hmem => h.recorded chunk (chunks chunk hmem)
  | copied new copied => exact ledger_copied h copied
  | reset b deleting buffers taken chunks =>
    exact ledger_reset h ((hplaces b).free (.inr deleting)) buffers taken chunks

theorem ledger_reaches {poolSize : Nat} {ok : ChunkRun → ChunkAct → Prop} {st : ChunkRun}
    (h : Reaches chunkStep ok (start poolSize) st) : st.Ledger :=
  h.invariant (ledger_start poolSize) fun _ _ _ hr hledger _ hstep =>
    ledger_next (places_reaches hr) hledger (ledger_step hstep)

theorem kept_while_referred {poolSize : Nat} {st st' : ChunkRun}
    (hst : Reaches chunkStep always (start poolSize) st) {b : Nat} {chunk : SendChunk}
    (hmem : chunk ∈ st.taken b)
    (h : Reaches chunkStep (fun s _ => 0 < s.references b) st st') :
    chunk ∈ st'.taken b ∧ chunk.bytes st'.buffers = chunk.bytes st.buffers := by
  suffices hkept : Reaches chunkStep always (start poolSize) st' ∧
      chunk ∈ st'.taken b ∧ chunk.bytes st'.buffers = chunk.bytes st.buffers from hkept.2
  refine h.invariant (I := fun s => Reaches chunkStep always (start poolSize) s ∧
    chunk ∈ s.taken b ∧ chunk.bytes s.buffers = chunk.bytes st.buffers) ⟨hst, hmem, rfl⟩ ?_
  rintro s act s' - ⟨hs, hmem, hbytes⟩ hreferred hstep
  have hdeleting : b ∉ s.deleting := by
    intro hb
    have hzero := (places_reaches hs b).free (.inr hb)
    omega
  have hkeeps := (ledger_step hstep).keeps (ledger_reaches hs) hdeleting hmem
  exact ⟨.next act hs trivial hstep, hkeeps.1, hkeeps.2.trans hbytes⟩

/-- What becomes of a call with a step of its thread: it goes on, fails, or returns the
newest chunk. -/
inductive CallStep (st : ChunkRun) (t : Nat) (pc : MakePc) (request : SendRequest)
    (st' : ChunkRun) : Prop where
  | continues (thread : MakeThread) (place : st'.threads[t]? = some thread)
      (call : thread.pc.request = some request) (rank : thread.pc.rank < pc.rank)
      (chunks : st'.chunks = st.chunks)
  | fails (lSendBuffer : Option Nat)
      (place : st'.threads[t]? = some ⟨lSendBuffer, .returned none⟩)
      (chunks : st'.chunks = st.chunks)
  | returns (lSendBuffer : Option Nat) (chunk : SendChunk)
      (place : st'.threads[t]? = some ⟨lSendBuffer, .returned (some chunk)⟩)
      (call : chunk.request = request) (chunks : st'.chunks = chunk :: st.chunks)

theorem move_self {st : ChunkRun} {t : Nat} {thread : MakeThread}
    (ht : st.threads[t]? = some thread) (moved : MakeThread) :
    (st.move t moved).threads[t]? = some moved :=
  List.getElem?_set_self (List.getElem?_eq_some_iff.mp ht).1

theorem callStep_of_advance {st st' : ChunkRun} {t : Nat} {thread : MakeThread}
    {request : SendRequest} (ht : st.threads[t]? = some thread)
    (hrequest : thread.pc.request = some request) (hstep : st.advance t thread = some st') :
    st.CallStep t thread.pc request st' := by
  cases hpc : thread.pc with
  | returned result =>
    rw [hpc] at hrequest
    cases hrequest
  | testBuffer called =>
    rw [hpc] at hrequest
    cases hrequest
    simp only [advance, hpc] at hstep
    cases hstep
    refine .continues _ (move_self ht _) ?_ ?_ rfl
    · dsimp only
      split <;> rfl
    · dsimp only
      split <;> simp [MakePc.rank]
  | getSendBuffer called retry =>
    rw [hpc] at hrequest
    cases hrequest
    simp only [advance, hpc] at hstep
    cases hstep
    refine .continues _ (move_self ht _) rfl ?_ rfl
    cases retry <;> simp [MakePc.rank]
  | assign called retry sendBuffer =>
    rw [hpc] at hrequest
    cases hrequest
    simp only [advance, hpc] at hstep
    cases hstep
    cases sendBuffer with
    | none =>
      refine .fails none ?_ (dropped_chunks _ _)
      rw [dropped_threads]
      exact move_self ht _
    | some b =>
      refine .continues ⟨some b, .copyBuffer request retry⟩ ?_ rfl ?_ (dropped_chunks _ _)
      · rw [dropped_threads]
        exact move_self ht _
      · cases retry <;> simp [MakePc.rank]
  | copyBuffer called retry =>
    rw [hpc] at hrequest
    cases hrequest
    simp only [advance, hpc] at hstep
    obtain ⟨b, _, hstep⟩ := Option.bind_eq_some_iff.mp hstep
    obtain ⟨⟨copied, result⟩, hcopy, hstep⟩ := Option.bind_eq_some_iff.mp hstep
    cases hstep
    rcases copy_cases hcopy with
      ⟨rfl, rfl⟩ | ⟨chunk, rfl, _, hcall, hcopied, _, _, hthreads⟩
    · cases retry with
      | true => exact .fails _ (move_self ht _) rfl
      | false =>
        refine .continues _ (move_self ht _) rfl ?_ rfl
        simp [MakePc.rank, MakePc.copied]
    · refine .returns thread.lSendBuffer chunk ?_ hcall hcopied.chunks
      exact move_self (hthreads ▸ ht) _

theorem advance_returns {st st' : ChunkRun} {t : Nat} {thread thread' : MakeThread}
    {request : SendRequest} {chunk : SendChunk} (ht : st.threads[t]? = some thread)
    (hrequest : thread.pc.request = some request) (hstep : st.advance t thread = some st')
    (ht' : st'.threads[t]? = some thread') (hpc' : thread'.pc = .returned (some chunk)) :
    chunk.request = request ∧ chunk ∈ st'.chunks := by
  cases callStep_of_advance ht hrequest hstep with
  | continues moved place call rank chunks =>
    cases place.symm.trans ht'
    rw [hpc'] at call
    cases call
  | fails lSendBuffer place chunks =>
    cases place.symm.trans ht'
    cases hpc'
  | returns lSendBuffer new place call chunks =>
    cases place.symm.trans ht'
    cases hpc'
    exact ⟨call, chunks ▸ List.mem_cons_self⟩

end ChunkRun

/-- What the caller of `MakeSendPacket` relies on. -/
structure SendChunk.Carries (chunk : SendChunk) (request : SendRequest)
    (buffers : Nat → SendBuffer) : Prop where
  nonneg : 0 ≤ request.sendSize
  size : (chunk.size : Int) = request.sendSize + PacketID_SIZE
  type : (PacketID.read (chunk.bytes buffers)).type = request.packetType
  /-- The size field is not truncated. -/
  sizeField : ((PacketID.read (chunk.bytes buffers)).size.toNat : Int) = request.sendSize
  data : (chunk.bytes buffers).drop PacketID_SIZE =
    request.sendData.take request.sendSize.toNat
  allData : request.sendSize ≤ request.sendData.length
  inside : chunk.buffer + chunk.size ≤ SendBuffer.getChunkSize

theorem SendChunk.Exact.carries {chunk : SendChunk} {buffers : Nat → SendBuffer}
    (h : chunk.Exact buffers) : chunk.Carries chunk.request buffers := by
  have hsize := h.size
  have hinside := h.inside
  have hlength : chunk.body.length < 65536 := by
    have hchunk : SendBuffer.getChunkSize < 65536 := by decide
    omega
  have hbody : chunk.body = chunk.request.sendData.take chunk.request.sendSize.toNat := rfl
  refine ⟨?_, ?_, ?_, ?_, ?_, ?_, hinside⟩
  · rw [h.counted]
    exact Int.natCast_nonneg _
  · rw [h.counted]
    omega
  · rw [h.bytes, read_packetBytes]
  · rw [h.bytes, read_packetBytes, UInt16.toNat_ofNat_of_lt' hlength, h.counted]
  · rw [h.bytes, drop_packetBytes, hbody]
  · rw [h.counted, hbody, List.length_take]
    omega

namespace ChunkRun

def Resets (st : ChunkRun) (act : ChunkAct) (b : Nat) : Prop :=
  ∃ k, act = .push k ∧ st.deleting[k]? = some b

def Issues (st : ChunkRun) (act : ChunkAct) (b : Nat) : Prop :=
  ∃ t lSendBuffer request retry, act = .advance t ∧
    st.threads[t]? = some ⟨lSendBuffer, .getSendBuffer request retry⟩ ∧ st.pool.pop.2 = some b

structure ChunksSafe (st : ChunkRun) : Prop where
  exact : ∀ b, ∀ chunk ∈ st.taken b,
    chunk.sendBuffer = b ∧ chunk.Carries chunk.request st.buffers
  disjoint : ∀ b, (st.taken b).Pairwise SendChunk.Disjoint
  live : ∀ chunk ∈ st.chunks, chunk ∈ st.taken chunk.sendBuffer
  one_thread : ∀ b, st.owners b ≤ 1
  /-- A call that succeeds returns the chunk that it was called for. -/
  returns : ∀ t thread thread' request chunk st', st.threads[t]? = some thread →
    thread.pc.request = some request → chunkStep st (.advance t) = some st' →
    st'.threads[t]? = some thread' → thread'.pc = .returned (some chunk) →
    chunk ∈ st'.chunks ∧ chunk ∈ st'.taken chunk.sendBuffer ∧
      chunk.Carries request st'.buffers
  immutable : ∀ b, ∀ chunk ∈ st.taken b, ∀ st',
    Reaches chunkStep (fun s _ => 0 < s.references b) st st' →
      chunk ∈ st'.taken b ∧ chunk.bytes st'.buffers = chunk.bytes st.buffers
  recycled : ∀ act st' b, chunkStep st act = some st' → st.Resets act b ∨ st.Issues act b →
    st.references b = 0

theorem send_chunks_safe {poolSize : Nat} {st : ChunkRun}
    (h : Reaches chunkStep always (start poolSize) st) : st.ChunksSafe := by
  have hplaces := places_reaches h
  have hledger := ledger_reaches h
  refine ⟨?_, ?_, hledger.recorded, ?_, ?_, ?_, ?_⟩
  · intro b chunk hmem
    obtain ⟨hsendBuffer, hexact⟩ := hledger.exact b chunk hmem
    exact ⟨hsendBuffer, hexact.carries⟩
  · intro b
    exact (hledger.stacked b).pairwise
  · intro b
    have honce := (hplaces b).once
    omega
  · intro t thread thread' request chunk st' ht hrequest hstep ht' hpc'
    have hledger' := ledger_reaches (.next (.advance t) h trivial hstep)
    obtain ⟨found, hfound, hadvance⟩ := Option.bind_eq_some_iff.mp hstep
    cases ht.symm.trans hfound
    obtain ⟨rfl, hmem⟩ := advance_returns ht hrequest hadvance ht' hpc'
    have htaken := hledger'.recorded chunk hmem
    exact ⟨hmem, htaken, (hledger'.exact _ chunk htaken).2.carries⟩
  · intro b chunk hmem st' hkept
    exact kept_while_referred h hmem hkept
  · rintro act st' b - (⟨k, _, hk⟩ | ⟨t, lSendBuffer, request, retry, _, _, hpop⟩)
    · exact (hplaces b).free (.inr (List.mem_of_getElem? hk))
    · have hpools := (ObjectPool.pop_some (Prod.ext rfl hpop)).1
      exact (hplaces b).free (.inl (hpools ▸ List.mem_cons_self))

end ChunkRun

def makeEcho (t : Nat) (text : List Byte) : List ChunkAct :=
  .makeSendPacket t ⟨.SERVER_ECHO, text, text.length⟩ :: List.replicate 4 (.advance t)

namespace ChunkRun

/-- The only buffer is given back and issued again, and another thread finds the pool empty. -/
theorem send_chunks_safe_again :
    ∃ st, Reaches chunkStep always (start 1) st ∧ st.ChunksSafe ∧
      st.chunks.map (·.bytes st.buffers) = [[100, 0, 2, 0, 7, 8]] ∧ (st.taken 0).length = 1 := by
  have hrun : (run (guarded chunkStep always) (start 1)
      (.thread :: makeEcho 0 [1] ++ [.copyChunk 0, .exit 0, .dropChunk 1, .dropChunk 0, .push 0,
        .thread] ++ makeEcho 1 [7, 8] ++ [.makeSendPacket 0 ⟨.SERVER_ECHO, [], 0⟩, .advance 0,
        .advance 0, .advance 0])).any (fun st => decide (
          st.chunks.map (·.bytes st.buffers) = [[100, 0, 2, 0, 7, 8]] ∧
          (st.taken 0).length = 1)) = true := by
    decide +kernel
  obtain ⟨st, hst, hends⟩ := (Option.any_eq_true _ _).mp hrun
  obtain ⟨hbytes, hlength⟩ := of_decide_eq_true hends
  have hreaches := reaches_of_run _ .start hst
  exact ⟨st, hreaches, send_chunks_safe hreaches, hbytes, hlength⟩

end ChunkRun
end RoomServer
