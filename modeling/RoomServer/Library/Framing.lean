import Mathlib.Data.List.Basic
import Mathlib.Tactic.Common

/-! Length-prefixed frames in a stream: a header of fixed length declares how
many elements of body follow it. `split` cuts a stream into its complete frames
and the unfinished rest; `split_append` says that this does not depend on where
the stream was cut before. -/
namespace Library.Framing

structure Format (β : Type) where
  headerLength : Nat
  bodyLength : List β → Nat
  headerLength_pos : 0 < headerLength

structure Frame (β : Type) where
  header : List β
  body : List β

def Frame.bytes (frame : Frame β) : List β := frame.header ++ frame.body

variable (format : Format β)

def Format.frameLength (stream : List β) : Nat :=
  format.headerLength + format.bodyLength (stream.take format.headerLength)

def Format.Incomplete (stream : List β) : Prop :=
  stream.length < format.headerLength ∨ stream.length < format.frameLength stream

instance (stream : List β) : Decidable (format.Incomplete stream) :=
  inferInstanceAs (Decidable (_ ∨ _))

def Format.first (stream : List β) : Frame β where
  header := stream.take format.headerLength
  body := (stream.drop format.headerLength).take
    (format.bodyLength (stream.take format.headerLength))

/-- Each round consumes a header at least, so the stream's length is fuel enough. -/
def Format.splitFuel : Nat → List β → List (Frame β) × List β
  | 0, stream => ([], stream)
  | fuel + 1, stream =>
    if format.Incomplete stream then ([], stream)
    else
      let tail := Format.splitFuel fuel (stream.drop (format.frameLength stream))
      (format.first stream :: tail.1, tail.2)

def Format.split (stream : List β) : List (Frame β) × List β :=
  format.splitFuel stream.length stream

def Format.frames (stream : List β) : List (Frame β) := (format.split stream).1
def Format.rest (stream : List β) : List β := (format.split stream).2

theorem Format.frameLength_pos (stream : List β) : 0 < format.frameLength stream :=
  Nat.lt_of_lt_of_le format.headerLength_pos (Nat.le_add_right _ _)

theorem Format.frameLength_le {stream : List β} (h : ¬format.Incomplete stream) :
    format.frameLength stream ≤ stream.length := by
  unfold Format.Incomplete at h
  omega

theorem Format.drop_length_lt {stream : List β} (h : ¬format.Incomplete stream) :
    (stream.drop (format.frameLength stream)).length < stream.length := by
  have hpos := format.frameLength_pos stream
  have hle := format.frameLength_le h
  rw [List.length_drop]
  omega

theorem Format.splitFuel_enough (fuel : Nat) (stream : List β) (h : stream.length ≤ fuel) :
    format.splitFuel fuel stream = format.split stream := by
  induction fuel using Nat.strongRecOn generalizing stream with
  | ind fuel ih =>
    unfold Format.split
    cases hs : stream.length with
    | zero =>
      have hnil : stream = [] := List.length_eq_zero_iff.mp hs
      subst hnil
      cases fuel with
      | zero => rfl
      | succ fuel =>
        have hinc : format.Incomplete ([] : List β) := .inl format.headerLength_pos
        simp [Format.splitFuel, hinc]
    | succ n =>
      obtain ⟨fuel, rfl⟩ : ∃ k, fuel = k + 1 := ⟨fuel - 1, by omega⟩
      by_cases hinc : format.Incomplete stream
      · simp [Format.splitFuel, hinc]
      · have hlt := format.drop_length_lt hinc
        simp only [Format.splitFuel, hinc, ↓reduceIte]
        rw [ih fuel (by omega) _ (by omega)]
        by_cases hfuel : n < fuel + 1
        · rw [ih n hfuel _ (by omega)]
        · omega

theorem Format.split_incomplete {stream : List β} (h : format.Incomplete stream) :
    format.split stream = ([], stream) := by
  unfold Format.split
  cases hs : stream.length with
  | zero => rfl
  | succ n => simp [Format.splitFuel, h]

theorem Format.split_complete {stream : List β} (h : ¬format.Incomplete stream) :
    format.split stream =
      (format.first stream :: format.frames (stream.drop (format.frameLength stream)),
        format.rest (stream.drop (format.frameLength stream))) := by
  have hlt := format.drop_length_lt h
  rw [Format.split]
  obtain ⟨n, hn⟩ : ∃ n, stream.length = n + 1 := ⟨stream.length - 1, by omega⟩
  rw [hn, Format.splitFuel, if_neg h, format.splitFuel_enough n _ (by omega)]
  rfl

@[simp] theorem Format.frames_incomplete {stream : List β} (h : format.Incomplete stream) :
    format.frames stream = [] := by
  rw [Format.frames, format.split_incomplete h]

@[simp] theorem Format.rest_incomplete {stream : List β} (h : format.Incomplete stream) :
    format.rest stream = stream := by
  rw [Format.rest, format.split_incomplete h]

theorem Format.frames_complete {stream : List β} (h : ¬format.Incomplete stream) :
    format.frames stream =
      format.first stream :: format.frames (stream.drop (format.frameLength stream)) := by
  rw [Format.frames, format.split_complete h]

theorem Format.rest_complete {stream : List β} (h : ¬format.Incomplete stream) :
    format.rest stream = format.rest (stream.drop (format.frameLength stream)) := by
  rw [Format.rest, format.split_complete h]

/-- Induction along the frames of a stream. -/
theorem Format.split_induction {P : List β → Prop}
    (incomplete : ∀ stream, format.Incomplete stream → P stream)
    (complete : ∀ stream, ¬format.Incomplete stream →
      P (stream.drop (format.frameLength stream)) → P stream)
    (stream : List β) : P stream := by
  induction hn : stream.length using Nat.strongRecOn generalizing stream with
  | ind n ih =>
    by_cases h : format.Incomplete stream
    · exact incomplete stream h
    · exact complete stream h (ih _ (hn ▸ format.drop_length_lt h) _ rfl)

theorem Format.incomplete_rest (stream : List β) : format.Incomplete (format.rest stream) := by
  induction stream using format.split_induction with
  | incomplete stream h =>
    rw [format.rest_incomplete h]
    exact h
  | complete stream h ih =>
    rw [format.rest_complete h]
    exact ih

theorem Format.rest_suffix (stream : List β) : format.rest stream <:+ stream := by
  induction stream using format.split_induction with
  | incomplete stream h => exact (format.rest_incomplete h).symm ▸ List.suffix_rfl
  | complete stream h ih =>
    rw [format.rest_complete h]
    exact ih.trans (List.drop_suffix _ _)

/-- A frame that is complete stays the first frame when more arrives. -/
theorem Format.append_complete {stream : List β} (more : List β)
    (h : ¬format.Incomplete stream) :
    ¬format.Incomplete (stream ++ more) ∧
      format.first (stream ++ more) = format.first stream ∧
      format.frameLength (stream ++ more) = format.frameLength stream := by
  have hle := format.frameLength_le h
  have hheader : format.headerLength ≤ stream.length := by
    unfold Format.Incomplete at h
    omega
  have htake : (stream ++ more).take format.headerLength = stream.take format.headerLength :=
    List.take_append_of_le_length hheader
  have hlength : format.frameLength (stream ++ more) = format.frameLength stream := by
    rw [Format.frameLength, htake, Format.frameLength]
  refine ⟨?_, ?_, hlength⟩
  · unfold Format.Incomplete
    rw [hlength, List.length_append]
    omega
  · unfold Format.first
    rw [htake, List.drop_append_of_le_length hheader, List.take_append_of_le_length]
    rw [List.length_drop]
    unfold Format.frameLength at hle
    omega

/-- Cutting a stream anywhere and carrying the unfinished rest over finds the
same frames and leaves the same rest. -/
theorem Format.split_append (stream more : List β) :
    format.split (stream ++ more) =
      (format.frames stream ++ format.frames (format.rest stream ++ more),
        format.rest (format.rest stream ++ more)) := by
  induction stream using format.split_induction with
  | incomplete stream h =>
    rw [format.frames_incomplete h, format.rest_incomplete h]
    rfl
  | complete stream h ih =>
    obtain ⟨hmore, hfirst, hlength⟩ := format.append_complete more h
    have hdrop : (stream ++ more).drop (format.frameLength stream) =
        stream.drop (format.frameLength stream) ++ more :=
      List.drop_append_of_le_length (format.frameLength_le h)
    rw [format.split_complete hmore, hfirst, hlength, hdrop, format.frames_complete h,
      format.rest_complete h, Format.frames, Format.rest, ih]
    rfl

theorem Format.frames_append (stream more : List β) :
    format.frames (stream ++ more) =
      format.frames stream ++ format.frames (format.rest stream ++ more) := by
  rw [Format.frames, format.split_append]

theorem Format.rest_append (stream more : List β) :
    format.rest (stream ++ more) = format.rest (format.rest stream ++ more) := by
  rw [Format.rest, format.split_append]

def encode (frames : List (Frame β)) : List β := frames.flatMap Frame.bytes

theorem encode_append (first second : List (Frame β)) :
    encode (first ++ second) = encode first ++ encode second := List.flatMap_append

/-- A frame whose header declares its body's length. -/
structure Format.Valid (frame : Frame β) : Prop where
  header_length : frame.header.length = format.headerLength
  body_length : frame.body.length = format.bodyLength frame.header

theorem Format.split_cons {frame : Frame β} (h : format.Valid frame) (stream : List β) :
    format.split (frame.bytes ++ stream) =
      (frame :: format.frames stream, format.rest stream) := by
  have hheader := h.header_length
  have hbody := h.body_length
  have htake : (frame.bytes ++ stream).take format.headerLength = frame.header := by
    rw [Frame.bytes, List.append_assoc, ← hheader, List.take_left']
    rfl
  have hlength : format.frameLength (frame.bytes ++ stream) = frame.bytes.length := by
    rw [Format.frameLength, htake, Frame.bytes, List.length_append]
    omega
  have hcomplete : ¬format.Incomplete (frame.bytes ++ stream) := by
    unfold Format.Incomplete
    rw [hlength, List.length_append, Frame.bytes, List.length_append]
    omega
  have hfirst : format.first (frame.bytes ++ stream) = frame := by
    cases frame with
    | mk header body =>
      unfold Format.first
      rw [htake]
      congr 1
      rw [Frame.bytes, List.append_assoc, ← hheader, List.drop_left', List.take_left']
      · exact hbody
      · rfl
  rw [format.split_complete hcomplete, hfirst, hlength, List.drop_left' rfl]

/-- What was encoded frame by frame is found again, whatever unfinished part
follows it. -/
theorem Format.split_encode {frames : List (Frame β)} (h : ∀ frame ∈ frames, format.Valid frame)
    {tail : List β} (htail : format.Incomplete tail) :
    format.split (encode frames ++ tail) = (frames, tail) := by
  induction frames with
  | nil => exact format.split_incomplete htail
  | cons frame others ih =>
    have hothers := ih fun other hother => h other (List.mem_cons_of_mem _ hother)
    rw [encode, List.flatMap_cons, List.append_assoc,
      format.split_cons (h frame List.mem_cons_self)]
    rw [encode] at hothers
    rw [Format.frames, Format.rest, hothers]

def Format.Bounded (limit : Nat) (stream : List β) : Prop :=
  (∀ frame ∈ format.frames stream, format.bodyLength frame.header ≤ limit) ∧
    (format.headerLength ≤ (format.rest stream).length →
      format.bodyLength ((format.rest stream).take format.headerLength) ≤ limit)

theorem Format.Bounded.left {limit : Nat} {stream more : List β}
    (h : format.Bounded limit (stream ++ more)) : format.Bounded limit stream := by
  obtain ⟨hframes, hrest⟩ := h
  rw [format.frames_append] at hframes
  rw [format.rest_append] at hrest
  refine ⟨fun frame hframe => hframes frame (List.mem_append_left _ hframe), fun hheader => ?_⟩
  have htake : (format.rest stream ++ more).take format.headerLength =
      (format.rest stream).take format.headerLength := List.take_append_of_le_length hheader
  by_cases hinc : format.Incomplete (format.rest stream ++ more)
  · rw [format.rest_incomplete hinc, htake, List.length_append] at hrest
    exact hrest (by omega)
  · have hfirst := hframes (format.first (format.rest stream ++ more))
      (by rw [format.frames_complete hinc]; simp)
    simpa only [Format.first, htake] using hfirst

theorem Format.Bounded.rest_append {limit : Nat} {stream more : List β}
    (h : format.Bounded limit (stream ++ more)) :
    format.Bounded limit (format.rest stream ++ more) := by
  obtain ⟨hframes, hrest⟩ := h
  rw [format.frames_append] at hframes
  rw [format.rest_append] at hrest
  exact ⟨fun frame hframe => hframes frame (List.mem_append_right _ hframe), hrest⟩

end Library.Framing
