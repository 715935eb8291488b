/-! The send side of `SessionData`: one definition for each critical section of
`m_SendLock` and for each call between them. Chunks are a parameter. -/
namespace RoomServer

structure SendState (γ : Type) where
  sendQueue : List γ
  /-- `m_Send.m_SendChunks`, with the `WSABUF` list that is built alongside. -/
  sendChunks : List γ
  sendFlag : Bool
  deriving DecidableEq

namespace SendState

def empty : SendState γ := ⟨[], [], false⟩

/-- The section of `InsertSendQueue`; `true` when the caller must call `Send`. -/
def insertSendQueue (s : SendState γ) (sendChunk : γ) : SendState γ × Bool :=
  let s := { s with sendQueue := s.sendQueue ++ [sendChunk] }
  if s.sendFlag = false then ({ s with sendFlag := true }, true) else (s, false)

def clear (s : SendState γ) : SendState γ := { s with sendChunks := [] }

def moveAll : List γ → List γ → List γ × List γ
  | chunks, [] => (chunks, [])
  | chunks, front :: queue => moveAll (chunks ++ [front]) queue

def drain (s : SendState γ) : SendState γ :=
  let moved := moveAll s.sendChunks s.sendQueue
  { s with sendChunks := moved.1, sendQueue := moved.2 }

/-- The second section of `Send`; `true` when it returns there. -/
def testEmpty (s : SendState γ) : SendState γ × Bool :=
  if s.sendChunks.isEmpty then ({ s with sendFlag := false }, true) else (s, false)

def releaseFlag (s : SendState γ) : SendState γ := { s with sendFlag := false }

/-- The section of `CheckSendComplete`; `true` when the caller must call `Send`. -/
def checkSendComplete (s : SendState γ) : SendState γ × Bool :=
  if s.sendQueue.isEmpty then ({ s with sendFlag := false }, false) else (s, true)

theorem moveAll_eq (chunks queue : List γ) : moveAll chunks queue = (chunks ++ queue, []) := by
  induction queue generalizing chunks with
  | nil => simp [moveAll]
  | cons front queue ih => rw [moveAll, ih, List.append_assoc, List.singleton_append]

@[simp] theorem drain_eq (s : SendState γ) :
    s.drain = { s with sendChunks := s.sendChunks ++ s.sendQueue, sendQueue := [] } := by
  unfold drain
  rw [moveAll_eq]

theorem insertSendQueue_busy {s : SendState γ} (h : s.sendFlag = true) (sendChunk : γ) :
    s.insertSendQueue sendChunk = ({ s with sendQueue := s.sendQueue ++ [sendChunk] }, false) := by
  simp [insertSendQueue, h]

theorem insertSendQueue_idle {s : SendState γ} (h : s.sendFlag = false) (sendChunk : γ) :
    s.insertSendQueue sendChunk = (⟨s.sendQueue ++ [sendChunk], s.sendChunks, true⟩, true) := by
  simp [insertSendQueue, h]

theorem testEmpty_full {s : SendState γ} (h : s.sendChunks ≠ []) : s.testEmpty = (s, false) := by
  simp [testEmpty, h]

theorem checkSendComplete_empty {s : SendState γ} (h : s.sendQueue = []) :
    s.checkSendComplete = ({ s with sendFlag := false }, false) := by
  simp [checkSendComplete, h]

theorem checkSendComplete_full {s : SendState γ} (h : s.sendQueue ≠ []) :
    s.checkSendComplete = (s, true) := by
  simp [checkSendComplete, h]

end SendState
end RoomServer
