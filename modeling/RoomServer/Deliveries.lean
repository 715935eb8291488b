import RoomServer.JournalThreads

/-! What of the record reaches a session. A packet that a room makes for everybody is
handed to each session that was in the room then, but for the session whose job made it,
once, and in the order in which the room made them; and a label stands for the packet it
was given to. -/
namespace RoomServer
open Library Library.Broadcast Library.Threads Library.Transition

def numbersOf (i : Nat) (labels : List (Option (Nat × Nat))) : List Nat :=
  labels.filterMap fun label => label.bind fun r => if r.1 = i then some r.2 else none

namespace Journal

/-- The chunks for connection `k` of `s`, each with its label. -/
def labelled (j : Journal) (s k : Nat) : List (Chunk × Option (Nat × Nat)) :=
  (j.entered s).filter fun e => e.1.connection = k

def numbers (j : Journal) (i s k : Nat) : List Nat :=
  numbersOf i ((j.labelled s k).map Prod.snd)

def awaited (j : Journal) (i s k : Nat) : List Nat :=
  if j.server.connection s = k then
    numbersOf i (((j.pending i).filter fun h => h.session = s).map Handing.label)
  else []

/-- A labelled packet is the one that was made under the number, and one without a label
is an answer to the session itself. -/
def Carried (j : Journal) (packet : ServerPacket ℚ) : Option (Nat × Nat) → Prop
  | some (i, n) => ∃ p, (j.produced i)[n]? = some p ∧ p.packet = packet
  | none => packet.own = true

end Journal

section
variable {c : Choice} {st : Server} {instr x : Instr} {i k s t : Nat} {rest : List Instr}

theorem numbersOf_append (i : Nat) (first second : List (Option (Nat × Nat))) :
    numbersOf i (first ++ second) = numbersOf i first ++ numbersOf i second :=
  List.filterMap_append

theorem numbersOf_replicate (i n count : Nat) :
    numbersOf i (List.replicate count (some (i, n))) = List.replicate count n := by
  induction count with
  | zero => rfl
  | succ count ih =>
    rw [List.replicate_succ, List.replicate_succ, ← ih]
    simp [numbersOf]

theorem numbersOf_none {labels : List (Option (Nat × Nat))}
    (h : ∀ n, some (i, n) ∉ labels) : numbersOf i labels = [] := by
  apply filterMap_none
  intro label hlabel
  cases label with
  | none => rfl
  | some r =>
    obtain ⟨i', n⟩ := r
    have hi : i' ≠ i := by
      rintro rfl
      exact h n hlabel
    simp [hi]

/-! ### What a room makes, and what its thread is given to hand over -/

theorem mem_recipients {r : Nat × Nat} :
    r ∈ st.recipients i ↔ r.1 ∈ (st.rooms i).sessions ∧ r.2 = st.connection r.1 := by
  obtain ⟨s, k⟩ := r
  simp only [Server.recipients, List.mem_map, Prod.mk.injEq]
  constructor
  · rintro ⟨s', hs, rfl, rfl⟩
    exact ⟨hs, rfl⟩
  · rintro ⟨hs, hk⟩
    exact ⟨s, hs, rfl, hk.symm⟩

theorem produces_connection {p : Production (ServerPacket ℚ) (Nat × Nat)}
    (hp : p ∈ st.produces c i instr) {r : Nat × Nat} (hr : r ∈ p.recipients) :
    r.2 = st.connection r.1 := by
  cases instr with
  | dispatch i' jobs stop =>
    cases jobs with
    | nil => contradiction
    | cons job jobs =>
      simp only [Server.produces] at hp
      split at hp
      · obtain ⟨packet, _, rfl⟩ := List.mem_map.mp hp
        exact (mem_recipients.mp (List.mem_of_mem_filter hr)).2
      · contradiction
  | tick i' stop =>
    simp only [Server.produces] at hp
    split at hp
    · obtain ⟨batch, _, rfl⟩ := List.mem_map.mp hp
      exact (mem_recipients.mp hr).2
    · contradiction
  | _ => contradiction

theorem sent_filter (effects : List Effect) (s : Nat) :
    (effects.filterMap Effect.sent).filter (fun r => r.1 = s) =
      (sentTo s effects).map fun packet => (s, packet) := by
  induction effects with
  | nil => rfl
  | cons e effects ih =>
    cases e with
    | insertSendQueue s' packet =>
      by_cases hs : s' = s
      · subst hs
        rw [sentTo_self, List.map_cons, ← ih, List.filterMap_cons]
        simp [Effect.sent]
      · rw [sentTo_other hs, ← ih, List.filterMap_cons]
        simp [Effect.sent, hs]
    | _ => exact ih

theorem sent_mem {effects : List Effect} {r : Nat × ServerPacket ℚ}
    (h : r ∈ effects.filterMap Effect.sent) : r.2 ∈ sentTo r.1 effects := by
  have hmem : r ∈ (effects.filterMap Effect.sent).filter (fun r' => r'.1 = r.1) :=
    List.mem_filter.mpr ⟨h, decide_eq_true rfl⟩
  rw [sent_filter] at hmem
  obtain ⟨packet, hpacket, heq⟩ := List.mem_map.mp hmem
  rwa [← heq]

theorem count_of_nodup {sessions : List Nat} (h : sessions.Nodup) (s : Nat) :
    sessions.count s = if s ∈ sessions then 1 else 0 := by
  split
  · exact List.count_eq_one_of_mem h ‹_›
  · exact List.count_eq_zero.mpr ‹_›

theorem dispatch_numbers (hmade : ∀ n, c.made n = true) (hnodup : (st.rooms i).sessions.Nodup)
    (job : Job) (jobs : List Job) (stop : Bool) (made : Nat → Nat) (s : Nat) :
    numbersOf i (((st.hands c made (.dispatch i (job :: jobs) stop)).filter
        fun h => h.session = s).map Handing.label) =
      dueFrom (s, st.connection s) (made i)
        (st.produces c i (.dispatch i (job :: jobs) stop)) := by
  have hspec := dispatch_roomWide hmade job (st.rooms i) (st.sessions job.session).socket
    (st.sessions job.session).connected c.nowTick
  simp only [Server.hands, Server.produces, if_true, List.filter_map, Function.comp_def,
    sent_filter, List.map_map]
  by_cases hself : s = job.session
  · -- what the job's own session is sent has no number
    rw [numbersOf_none, dueFrom_absent]
    · intro p hp
      obtain ⟨packet, _, rfl⟩ := List.mem_map.mp hp
      simp [hself]
    · intro n hn
      obtain ⟨packet, _, hlabel⟩ := List.mem_map.mp hn
      simp [hself] at hlabel
  · rw [hspec.others s hself]
    cases hpacket : job.roomWide (st.rooms i) (st.sessions job.session).socket
        (st.sessions job.session).connected with
    | none => rfl
    | some packet =>
      simp only [Option.elim, List.map_replicate, if_neg hself, numbersOf_replicate,
        Option.toList_some, List.map_cons, List.map_nil, dueFrom_cons, dueFrom_nil,
        List.append_nil, count_of_nodup hnodup]
      have hmem : (s, st.connection s) ∈ (st.recipients i).filter (fun r => r.1 ≠ job.session) ↔
          s ∈ (st.rooms i).sessions := by
        simp [List.mem_filter, mem_recipients, hself]
      by_cases hs : s ∈ (st.rooms i).sessions
      · rw [if_pos hs, if_pos (hmem.mpr hs)]
        rfl
      · rw [if_neg hs, if_neg fun h => hs (hmem.mp h)]
        rfl

theorem batches_numbers (hnodup : (st.rooms i).sessions.Nodup) (s : Nat)
    (batches : List (Server_Move_Ack ℚ)) (n : Nat) :
    numbersOf i ((((batches.zipIdx n).flatMap fun batch => (st.rooms i).sessions.map fun s =>
        (⟨s, .move batch.1, some (i, batch.2)⟩ : Handing)).filter
          fun h => h.session = s).map Handing.label) =
      dueFrom (s, st.connection s) n
        (batches.map fun batch => ⟨ServerPacket.move batch, st.recipients i⟩) := by
  induction batches generalizing n with
  | nil => rfl
  | cons batch batches ih =>
    have hlabels : (((st.rooms i).sessions.map fun s =>
          (⟨s, .move batch, some (i, n)⟩ : Handing)).filter fun h => h.session = s).map
            Handing.label =
        List.replicate ((st.rooms i).sessions.count s) (some (i, n)) := by
      rw [List.filter_map, List.map_map]
      have hfilter : (st.rooms i).sessions.filter (fun s' => s' = s) =
          List.replicate ((st.rooms i).sessions.count s) s := List.filter_eq s
      simp only [Function.comp_def, hfilter, List.map_replicate]
    rw [List.zipIdx_cons, List.flatMap_cons, List.filter_append, List.map_append,
      numbersOf_append, ih (n + 1), hlabels, numbersOf_replicate, List.map_cons, dueFrom_cons,
      count_of_nodup hnodup]
    congr 1
    have hmem : (s, st.connection s) ∈ st.recipients i ↔ s ∈ (st.rooms i).sessions := by
      simp [mem_recipients]
    by_cases hs : s ∈ (st.rooms i).sessions
    · rw [if_pos hs, if_pos (hmem.mpr hs)]
      rfl
    · rw [if_neg hs, if_neg fun h => hs (hmem.mp h)]
      rfl

theorem hands_numbers (hmade : ∀ n, c.made n = true)
    (hnodup : instr.room? = some i → (st.rooms i).sessions.Nodup) (made : Nat → Nat) (s : Nat) :
    numbersOf i (((st.hands c made instr).filter fun h => h.session = s).map Handing.label) =
      dueFrom (s, st.connection s) (made i) (st.produces c i instr) := by
  have hother : instr.room? ≠ some i →
      numbersOf i (((st.hands c made instr).filter fun h => h.session = s).map
        Handing.label) = [] := by
    intro hroom
    apply numbersOf_none
    intro n hn
    obtain ⟨h, hh, hlabel⟩ := List.mem_map.mp hn
    exact hroom (hands_room (List.mem_of_mem_filter hh) hlabel)
  cases instr with
  | dispatch i' jobs stop =>
    cases jobs with
    | nil => rfl
    | cons job jobs =>
      by_cases hi : i' = i
      · subst hi
        exact dispatch_numbers hmade (hnodup rfl) job jobs stop made s
      · rw [hother (by simp [Instr.room?, hi])]
        simp [Server.produces, hi]
  | tick i' stop =>
    by_cases hi : i' = i
    · subst hi
      simp only [Server.hands, Server.produces, if_true]
      exact batches_numbers (hnodup rfl) s _ _
    · rw [hother (by simp [Instr.room?, hi])]
      simp [Server.produces, hi]
  | recv s' requests =>
    rw [hother (by simp [Instr.room?])]
    rfl
  | _ => rfl

theorem produces_room (h : instr.room? ≠ some i) : st.produces c i instr = [] := by
  cases instr with
  | dispatch i' jobs stop =>
    have hi : i' ≠ i := fun hi => h (by simp [Instr.room?, hi])
    cases jobs with
    | nil => rfl
    | cons job jobs => exact if_neg hi
  | tick i' stop => exact if_neg fun hi => h (by simp [Instr.room?, hi])
  | _ => rfl

theorem produces_comesRound (h : instr.comesRound = false) : st.produces c i instr = [] := by
  cases instr <;> first | rfl | contradiction

/-! ### The order in which packets are handed over -/

/-- Nothing is to be handed to a session that nobody holds. -/
theorem pending_free {j : Journal} (hserver : ServerInv j.server) (hinv : HandInv j)
    (hfree : ¬ Holds j.server s) (t : Nat) :
    (j.pending t).filter (fun h => h.session = s) = [] := by
  rw [List.filter_eq_nil_iff]
  intro h hmem hsession
  have hcontent := List.mem_map_of_mem (f := Handing.content) hmem
  rw [← hinv.sync t] at hcontent
  obtain ⟨x, hx, hhanding⟩ := List.mem_filterMap.mp hcontent
  have hentry := entry_of_getD hx
  have hs : h.session = s := of_decide_eq_true hsession
  apply hfree
  rw [← hs]
  apply needs_holds hserver hentry
  cases x with
  | effect e =>
    cases e with
    | insertSendQueue s' packet => exact congrArg Prod.fst (Option.some.inj hhanding)
    | _ => contradiction
  | sending s' pc =>
    cases pc with
    | insertSendQueue chunk => exact congrArg Prod.fst (Option.some.inj hhanding)
    | _ => contradiction
  | _ => contradiction

/-- Everybody has got, or is about to get, what was made for it. -/
def Journal.Delivered (j : Journal) : Prop :=
  ∀ i s k, j.numbers i s k ++ j.awaited i s k = due (s, k) (j.produced i)

theorem awaited_other {j : Journal} (hserver : ServerInv j.server) (hplaces : PlaceInv j.server)
    (htidy : ∀ thread ∈ j.server.threads, Tidy thread) (hinv : HandInv j)
    (hmade : ∀ n, c.made n = true) (h : j.server.threads[t]? = some (instr :: rest))
    (hinserts : instr.inserts = false) (i s k : Nat) :
    (j.advance t c instr rest).awaited i s k =
      j.awaited i s k ++
        dueFrom (s, k) (j.produced i).length (j.server.produces c i instr) := by
  have hhome : ∀ i, instr.room? = some i → i = t ∧ t < j.server.roomCount :=
    hserver.home t _ h instr List.mem_cons_self
  by_cases hpush : instr = .pushSession s
  · -- the session's next connection starts with nothing under way
    subst hpush
    have hfree := free_of_entry hserver (entry_head h) (s := s) (by simp [Instr.returning])
    have hnone : ∀ u, ((j.record t c (.pushSession s)).pending u).filter
        (fun h => h.session = s) = [] := by
      intro u
      by_cases hu : u = t
      · subst hu
        rw [Journal.record_self]
        exact pending_free hserver hinv hfree u
      · rw [Journal.record_other hu]
        exact pending_free hserver hinv hfree u
    have hproduces : j.server.produces c i (.pushSession s) = [] := rfl
    rw [hproduces, dueFrom_nil, List.append_nil]
    unfold Journal.awaited Journal.advance
    dsimp only
    rw [hnone, pending_free hserver hinv hfree]
    split <;> split <;> rfl
  have hconnection : (j.server.advance t c instr rest).connection s = j.server.connection s :=
    exec_connection c j.server hpush
  unfold Journal.awaited Journal.advance
  dsimp only
  rw [hconnection]
  by_cases hk : j.server.connection s = k
  · rw [if_pos hk, if_pos hk]
    subst hk
    by_cases hi : i = t
    · subst hi
      have hnodup : instr.room? = some i → (j.server.rooms i).sessions.Nodup := by
        intro hroom
        exact (hplaces.rooms i (hhome i hroom).2).nodup
      rw [Journal.record_self, hinserts, if_neg Bool.false_ne_true, List.filter_append,
        List.map_append, numbersOf_append, hands_numbers hmade hnodup]
      by_cases hround : instr.comesRound = true
      · rw [(pending_nil hinv htidy h hround).2]
        exact List.append_nil _
      · rw [produces_comesRound (Bool.eq_false_iff.mpr hround), dueFrom_nil, List.append_nil]
        rfl
    · rw [Journal.record_other hi, produces_room fun hroom => hi (hhome i hroom).1, dueFrom_nil,
        List.append_nil]
  · rw [if_neg hk, if_neg hk, dueFrom_absent, List.append_nil]
    intro p hp hmem
    exact hk (produces_connection hp hmem).symm

theorem delivered_other {j : Journal} (hserver : ServerInv j.server) (hplaces : PlaceInv j.server)
    (htidy : ∀ thread ∈ j.server.threads, Tidy thread) (hinv : HandInv j)
    (hdelivered : j.Delivered) (hmade : ∀ n, c.made n = true)
    (h : j.server.threads[t]? = some (instr :: rest)) (hinserts : instr.inserts = false) :
    (j.advance t c instr rest).Delivered := by
  intro i s k
  have henters : instr.enters s = [] := by
    cases instr with
    | sending s' pc => cases pc <;> first | rfl | contradiction
    | _ => rfl
  have hnumbers : (j.advance t c instr rest).numbers i s k = j.numbers i s k := by
    simp [Journal.numbers, Journal.labelled, Journal.advance, Journal.record, henters]
  rw [awaited_other hserver hplaces htidy hinv hmade h hinserts, hnumbers, ← List.append_assoc,
    hdelivered i s k, ← due_append]
  rfl

/-- The packet at the head of the record goes from what is awaited to the stream. -/
theorem delivered_insert {j : Journal} (htags : TagInv j.server) (hinv : HandInv j)
    (hdelivered : j.Delivered) {s₀ : Nat} {chunk : Chunk}
    (h : j.server.threads[t]? = some (.sending s₀ (.insertSendQueue chunk) :: rest)) :
    (j.advance t c (.sending s₀ (.insertSendQueue chunk)) rest).Delivered := by
  have htag : chunk.connection = j.server.connection s₀ := htags.entries s₀ _ (entry_head h)
  obtain ⟨head, tail, hpending, hsession, _⟩ := head_pending hinv h
  have hconnection : (j.server.advance t c (.sending s₀ (.insertSendQueue chunk)) rest).connection =
      j.server.connection := by
    funext s
    have hpush : Instr.sending s₀ (.insertSendQueue chunk) ≠ .pushSession s := by simp
    exact exec_connection c j.server hpush
  intro i s k
  have hold := hdelivered i s k
  have hproduced : (j.advance t c (.sending s₀ (.insertSendQueue chunk)) rest).produced i =
      j.produced i := List.append_nil _
  have hrecord : (j.record t c (.sending s₀ (.insertSendQueue chunk))).pending t = tail := by
    rw [Journal.record_self, hpending]
    rfl
  -- the stream gets the label, and nobody awaits it any more
  have hnumbers : numbersOf i (((((Instr.sending s₀ (.insertSendQueue chunk)).enters s).map
      fun chunk => (chunk, head.label)).filter fun e => e.1.connection = k).map Prod.snd) =
      if s₀ = s ∧ j.server.connection s = k then numbersOf i [head.label] else [] := by
    simp only [Instr.enters]
    by_cases hs : s₀ = s
    · subst hs
      by_cases hk : j.server.connection s₀ = k <;> simp [hk, htag, numbersOf]
    · simp [hs, numbersOf]
  have hawaited : j.awaited i s k =
      (if s₀ = s ∧ j.server.connection s = k then numbersOf i [head.label] else []) ++
        (j.advance t c (.sending s₀ (.insertSendQueue chunk)) rest).awaited i s k := by
    unfold Journal.awaited Journal.advance
    dsimp only
    rw [hconnection]
    by_cases hk : j.server.connection s = k
    · simp only [hk, and_true, if_true]
      by_cases hi : i = t
      · subst hi
        rw [hrecord, hpending, List.filter_cons, hsession]
        by_cases hs : s₀ = s
        · simp only [hs, decide_true, if_true, List.map_cons]
          rw [← List.singleton_append, numbersOf_append]
        · simp [hs]
      · rw [Journal.record_other hi]
        have hnone : numbersOf i [head.label] = [] := by
          apply numbersOf_none
          intro n hn
          have hplaced := hinv.placed t head (hpending ▸ List.mem_cons_self) i n
          exact hi (hplaced (List.mem_singleton.mp hn).symm)
        rw [hnone, ite_self, List.nil_append]
    · simp [hk]
  rw [hproduced, ← hold, hawaited, ← hnumbers, ← List.append_assoc]
  congr 1
  simp only [Journal.numbers, Journal.labelled, Journal.advance, Journal.record, hpending,
    List.filter_append, List.map_append, numbersOf_append, List.head?_cons, Option.bind_some]

theorem delivered_step {j j' : Journal} {act : ServerAct} (hserver : ServerInv j.server)
    (hplaces : PlaceInv j.server) (htidy : ∀ thread ∈ j.server.threads, Tidy thread)
    (htags : TagInv j.server) (hinv : HandInv j) (hdelivered : j.Delivered)
    (hmade : act.AllMade) (h : JournalMove j act j') : j'.Delivered := by
  cases h with
  | @advance t c instr rest hthread =>
    by_cases hinserts : instr.inserts = true
    · cases instr with
      | sending s pc =>
        cases pc with
        | insertSendQueue chunk => exact delivered_insert htags hinv hdelivered hthread
        | _ => contradiction
      | _ => contradiction
    · exact delivered_other hserver hplaces htidy hinv hdelivered hmade hthread
        (Bool.eq_false_iff.mpr hinserts)
  | spawn act hposted hthread => exact hdelivered

/-! ### What the labels stand for -/

theorem Journal.Carried.grows {j j' : Journal} {packet : ServerPacket ℚ}
    {label : Option (Nat × Nat)} (h : j.Carried packet label)
    (hgrows : ∀ i, ∃ more, j'.produced i = j.produced i ++ more) : j'.Carried packet label := by
  cases label with
  | none => exact h
  | some r =>
    obtain ⟨p, hp, hpacket⟩ := h
    obtain ⟨more, hmore⟩ := hgrows r.1
    refine ⟨p, ?_, hpacket⟩
    rw [hmore, List.getElem?_append_left (List.getElem?_eq_some_iff.mp hp).1]
    exact hp

theorem recv_handing (st : Server) {s : Nat} {requests : List Request} {r : Nat × ServerPacket ℚ}
    (h : r ∈ (st.recv s requests).filterMap Instr.handing) : r.2.own = true := by
  cases requests with
  | nil => contradiction
  | cons request requests =>
    rw [Server.recv] at h
    split at h
    · contradiction
    · rename_i packet _
      split at h
      case h_1 sendChunk hhandled =>
        split at h
        · rcases List.mem_singleton.mp h with rfl
          cases packet with
          | echo text =>
            cases hhandled
            rfl
          | _ => contradiction
        · contradiction
      case h_2 => contradiction

/-- What the entry hands over is what it makes, or an answer to the session itself. -/
theorem hands_carried {j : Journal} (t : Nat) (hmade : ∀ n, c.made n = true) {h : Handing}
    (hmem : h ∈ j.server.hands c (fun i => (j.produced i).length) instr) :
    (j.record t c instr).Carried h.packet h.label := by
  cases instr with
  | dispatch i jobs stop =>
    cases jobs with
    | nil => contradiction
    | cons job jobs =>
      obtain ⟨r, hr, rfl⟩ := List.mem_map.mp hmem
      have hspec := dispatch_roomWide hmade job (j.server.rooms i)
        (j.server.sessions job.session).socket (j.server.sessions job.session).connected c.nowTick
      have hsent := sent_mem hr
      by_cases hself : r.1 = job.session
      · rw [hself] at hsent
        simp only [hself, if_true]
        exact hspec.self _ hsent
      · rw [hspec.others r.1 hself] at hsent
        simp only [hself, if_false]
        cases hpacket : job.roomWide (j.server.rooms i) (j.server.sessions job.session).socket
            (j.server.sessions job.session).connected with
        | none =>
          rw [hpacket] at hsent
          contradiction
        | some packet =>
          rw [hpacket] at hsent
          have hsame : r.2 = packet := List.eq_of_mem_replicate hsent
          refine ⟨⟨packet, (j.server.recipients i).filter fun r => r.1 ≠ job.session⟩, ?_,
            hsame.symm⟩
          simp [Journal.record, Server.produces, hpacket]
  | tick i stop =>
    obtain ⟨⟨batch, n⟩, hbatch, hs⟩ := List.mem_flatMap.mp hmem
    obtain ⟨s, _, rfl⟩ := List.mem_map.mp hs
    obtain ⟨hle, hbatch⟩ := List.mk_mem_zipIdx_iff_le_and_getElem?_sub.mp hbatch
    refine ⟨⟨.move batch, j.server.recipients i⟩, ?_, rfl⟩
    simp only [Journal.record, Server.produces, if_true]
    rw [List.getElem?_append_right hle, List.getElem?_map, hbatch]
    rfl
  | recv s requests =>
    obtain ⟨r, hr, rfl⟩ := List.mem_map.mp hmem
    exact recv_handing j.server hr
  | _ => contradiction

structure CarryInv (j : Journal) : Prop where
  pending : ∀ t, ∀ h ∈ j.pending t, j.Carried h.packet h.label
  entered : ∀ s, ∀ e ∈ j.entered s, j.Carried e.1.packet e.2

theorem carryInv_step {j j' : Journal} {act : ServerAct} (hinv : HandInv j) (hcarry : CarryInv j)
    (hmade : act.AllMade) (h : JournalMove j act j') : CarryInv j' := by
  cases h with
  | @advance t c instr rest hthread =>
    have hgrows : ∀ {packet label}, j.Carried packet label →
        (j.record t c instr).Carried packet label :=
      fun hold => hold.grows fun i => ⟨_, rfl⟩
    constructor
    · intro u h hmem
      change h ∈ (j.record t c instr).pending u at hmem
      by_cases hu : u = t
      · subst hu
        rcases mem_pending hmem with hmem | hmem
        · exact hands_carried u hmade hmem
        · exact hgrows (hcarry.pending u h hmem)
      · rw [Journal.record_other hu] at hmem
        exact hgrows (hcarry.pending u h hmem)
    · intro s e hmem
      rcases List.mem_append.mp hmem with hmem | hmem
      · exact hgrows (hcarry.entered s e hmem)
      · obtain ⟨chunk, hchunk, rfl⟩ := List.mem_map.mp hmem
        cases instr with
        | sending s' pc =>
          cases pc with
          | insertSendQueue chunk' =>
            obtain ⟨head, tail, hpending, _, hpacket⟩ := head_pending hinv hthread
            simp only [Instr.enters] at hchunk
            split at hchunk
            · cases List.mem_singleton.mp hchunk
              rw [hpending, List.head?_cons, Option.bind_some]
              dsimp only
              rw [← hpacket]
              exact hgrows (hcarry.pending t head (hpending ▸ List.mem_cons_self))
            · contradiction
          | _ => contradiction
        | _ => contradiction
  | spawn act hposted hthread => exact ⟨hcarry.pending, hcarry.entered⟩

end
end RoomServer
