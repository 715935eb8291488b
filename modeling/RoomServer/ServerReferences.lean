import RoomServer.ServerCover
import RoomServer.ServerNext

/-! Where the references to a session are, and the invariant of every run. It has
three layers: the sums say that what is handed on is never doubled, the covers
that an entry finds its reference, the facts what it may rely on besides. A
session that is back in the pool is then held by nobody, and nothing is under
way for it. -/
namespace RoomServer
open Library Library.Threads

/-- Where a reference to `s` may be. -/
inductive Holds (st : Server) (s : Nat) : Prop where
  | recv (h : (st.sessions s).recvSession = true)
  | send (h : (st.sessions s).sendSession = true)
  | accept (h : some s ∈ st.acceptObjects)
  | user {n : Nat} (h : st.userSession.find n = some s)
  | member {i : Nat} (hi : i < st.roomCount) (h : (st.rooms i).Has s)
  | job {i : Nat} {job : Job} (hi : i < st.roomCount) (h : job ∈ (st.jobQueues i).jobs)
      (hs : job.session = s)
  | entry {x : Instr} (h : Entry st.threads x) (hx : 0 < x.refs s)

theorem Room.has_iff {room : Room} {s : Nat} :
    room.Has s ↔ 0 < room.roomUser.values.countP fun user => user.session = s := by
  simp only [List.countP_pos_iff, decide_eq_true_eq]
  constructor
  · rintro ⟨socket, h⟩
    obtain ⟨user, huser, rfl⟩ := Option.map_eq_some_iff.mp h
    exact ⟨user, OrderedMap.mem_values.mpr ⟨socket, huser⟩, rfl⟩
  · rintro ⟨user, huser, rfl⟩
    exact Room.session_of_values huser

theorem toNat_pos {b : Bool} : 0 < b.toNat ↔ b = true := by cases b <;> simp

theorem Holds.iff {st : Server} {s : Nat} : 0 < st.useCount s ↔ Holds st s := by
  simp only [Server.useCount, Nat.add_pos_iff_pos_or_pos, toNat_pos, List.count_pos_iff,
    List.sum_pos_iff_exists_pos_nat]
  constructor
  · rintro (((((h | h) | h) | h) | h) | h)
    · exact .recv h
    · exact .send h
    · exact .accept h
    · obtain ⟨n, hn⟩ := OrderedMap.mem_values.mp h
      exact .user hn
    · obtain ⟨count, hcount, hpos⟩ := h
      obtain ⟨i, hi, rfl⟩ := List.mem_map.mp hcount
      rcases Nat.add_pos_iff_pos_or_pos.mp hpos with h | h
      · exact .member (List.mem_range.mp hi) (Room.has_iff.mpr h)
      · obtain ⟨job, hjob, hs⟩ := List.countP_pos_iff.mp h
        exact .job (List.mem_range.mp hi) hjob (of_decide_eq_true hs)
    · obtain ⟨x, hx, hpos⟩ := entry_of_weigh h
      exact .entry hx hpos
  · intro h
    cases h with
    | recv h => exact .inl (.inl (.inl (.inl (.inl h))))
    | send h => exact .inl (.inl (.inl (.inl (.inr h))))
    | accept h => exact .inl (.inl (.inl (.inr h)))
    | user h => exact .inl (.inl (.inr (OrderedMap.mem_values.mpr ⟨_, h⟩)))
    | member hi h =>
      refine .inl (.inr ⟨_, List.mem_map_of_mem (List.mem_range.mpr hi), ?_⟩)
      exact Nat.add_pos_left (Room.has_iff.mp h) _
    | job hi h hs =>
      refine .inl (.inr ⟨_, List.mem_map_of_mem (List.mem_range.mpr hi), ?_⟩)
      exact Nat.add_pos_right _ (List.countP_pos_iff.mpr ⟨_, h, decide_eq_true hs⟩)
    | entry h hx => exact .inr (Nat.lt_of_lt_of_le hx (le_weigh _ h))

/-! ### The invariant -/

def Server.roomHas (st : Server) (t s : Nat) : Prop := t < st.roomCount ∧ (st.rooms t).Has s

/-- What an entry may rely on, besides the references. -/
def Instr.Fact (st : Server) : Instr → Prop
  | .accept a false _ | .error a | .acceptExecute a =>
    ∀ s, st.accepting a = some s → st.phase s = .fresh
  | .makeSocket a s | .acceptEx a s | .acceptInsert a s =>
    st.accepting a = some s ∧ st.phase s = .fresh
  | .acceptRecvStart a s => st.accepting a = some s ∧ st.phase s = .registered
  | .reTake s => st.phase s = .fresh
  | .recvExecute s _ => (st.sessions s).recvSession = true
  | .sendExecute s _ => (st.sessions s).sendSession = true
  | _ => True

def Posted.Fact (st : Server) : Posted → Prop
  | .accept a s => st.accepting a = some s ∧ st.phase s = .fresh
  | .recv s => (st.sessions s).recvSession = true
  | .send s => (st.sessions s).sendSession = true

structure ServerInv (st : Server) : Prop where
  slots : ∀ a, st.waitQueue.count a + total (Posted.slot a) st.posted +
    weigh (Instr.slot a) st.threads ≤ if a < st.acceptObjects.length then 1 else 0
  receives : ∀ s, total (Posted.receive s) st.posted + weigh (Instr.receive s) st.threads +
    (st.phase s).receive ≤ 1
  tokens : ∀ s, total (Posted.token s) st.posted + weigh (Instr.token s) st.threads ≤
    (st.sessions s).send.sendFlag.toNat
  givens : ∀ s, st.acceptObjects.count (some s) + weigh (Instr.given s) st.threads ≤ 1
  returns : ∀ s, st.pool.pools.count s + weigh (Instr.returning s) st.threads +
    (if 0 < st.useCount s then 1 else 0) ≤ 1
  home : ∀ t thread, st.threads[t]? = some thread →
    ∀ x ∈ thread, ∀ i, x.room? = some i → i = t ∧ t < st.roomCount
  covered : ∀ t thread, st.threads[t]? = some thread → Covered (st.roomHas t) thread
  facts : ∀ x, Entry st.threads x → x.Fact st
  posted : ∀ op ∈ st.posted, op.Fact st

section
variable {c : Choice} {st : Server} {instr x : Instr} {a s t : Nat} {rest thread : List Instr}

theorem accepting_mem (h : st.accepting a = some s) :
    st.acceptObjects[a]? = some (some s) := by
  unfold Server.accepting at h
  rw [List.getD_eq_getElem?_getD] at h
  cases hget : st.acceptObjects[a]? with
  | none => simp [hget] at h
  | some session => simpa [hget] using h

theorem accepting_holds (h : st.accepting a = some s) : Holds st s :=
  .accept (List.mem_of_getElem? (accepting_mem h))

theorem accepting_twice {a' : Nat} (h : st.accepting a = some s) (h' : st.accepting a' = some s)
    (hne : a ≠ a') : 2 ≤ st.acceptObjects.count (some s) := by
  obtain ⟨ha, hget⟩ := List.getElem?_eq_some_iff.mp (accepting_mem h)
  have hmem : some s ∈ st.acceptObjects.set a none := by
    apply List.mem_of_getElem? (i := a')
    rw [List.getElem?_set_ne hne]
    exact accepting_mem h'
  have hpos := List.count_pos_iff.mpr hmem
  rw [List.count_set ha, hget] at hpos
  simp only [beq_self_eq_true, if_true, reduceCtorEq, beq_iff_eq, if_false] at hpos
  omega

theorem needs_holds (hinv : ServerInv st) (h : Entry st.threads x) (hx : x.Needs s) :
    Holds st s := by
  obtain ⟨thread, hthread, hmem⟩ := h
  obtain ⟨t, ht⟩ := List.mem_iff_getElem?.mp hthread
  rcases (hinv.covered t thread ht).finds hmem hx with hdrop | hroom
  · exact .entry ⟨thread, hthread, hdrop⟩ (by simp [Instr.refs])
  · exact .member hroom.1 hroom.2

theorem eq_of_pos {s' n : Nat} (h : 0 < if s' = s then n else 0) : s' = s := by
  by_contra hs
  simp [hs] at h

theorem receive_holds (hinv : ServerInv st) (h : Entry st.threads x) (hx : 0 < x.receive s) :
    Holds st s := by
  have hfact := hinv.facts x h
  have hneeds : x.Needs s → Holds st s := needs_holds hinv h
  unfold Instr.receive at hx
  split at hx
  case h_6 => contradiction
  all_goals cases eq_of_pos hx
  · exact .recv hfact
  · exact hneeds rfl
  · exact hneeds rfl
  · exact hneeds rfl
  · exact accepting_holds hfact.1

theorem token_holds (hinv : ServerInv st) (h : Entry st.threads x) (hx : 0 < x.token s) :
    Holds st s := by
  have hfact := hinv.facts x h
  have hneeds : x.Needs s → Holds st s := needs_holds hinv h
  unfold Instr.token at hx
  split at hx
  case h_3 => contradiction
  all_goals cases eq_of_pos hx
  · exact .send hfact
  · exact hneeds rfl

theorem given_holds (hinv : ServerInv st) (h : Entry st.threads x) (hx : 0 < x.given s) :
    Holds st s := by
  have hneeds : x.Needs s → Holds st s := needs_holds hinv h
  unfold Instr.given at hx
  split at hx
  case h_2 => contradiction
  cases eq_of_pos hx
  exact hneeds rfl

theorem weigh_zero {weight : Instr → Nat} (h : ∀ x, Entry st.threads x → ¬ 0 < weight x) :
    weigh weight st.threads = 0 := by
  by_contra hne
  obtain ⟨x, hx, hpos⟩ := entry_of_weigh (Nat.pos_of_ne_zero hne)
  exact h x hx hpos

theorem idle_of_free (hinv : ServerInv st) (h : ¬ Holds st s) :
    total (Posted.receive s) st.posted + weigh (Instr.receive s) st.threads = 0 ∧
      total (Posted.token s) st.posted + weigh (Instr.token s) st.threads = 0 ∧
      st.acceptObjects.count (some s) + weigh (Instr.given s) st.threads = 0 := by
  have hrecv : total (Posted.receive s) st.posted = 0 := by
    apply total_of_forall
    intro op hop
    have hfact := hinv.posted op hop
    cases op with
    | recv s' =>
      apply if_neg
      rintro rfl
      exact h (.recv hfact)
    | _ => rfl
  have hsend : total (Posted.token s) st.posted = 0 := by
    apply total_of_forall
    intro op hop
    have hfact := hinv.posted op hop
    cases op with
    | send s' =>
      apply if_neg
      rintro rfl
      exact h (.send hfact)
    | _ => rfl
  have haccept : st.acceptObjects.count (some s) = 0 :=
    List.count_eq_zero.mpr fun hmem => h (.accept hmem)
  rw [hrecv, hsend, haccept, weigh_zero fun x hx hpos => h (receive_holds hinv hx hpos),
    weigh_zero fun x hx hpos => h (token_holds hinv hx hpos),
    weigh_zero fun x hx hpos => h (given_holds hinv hx hpos)]
  exact ⟨rfl, rfl, rfl⟩

theorem free_of_returning (hinv : ServerInv st)
    (h : 0 < st.pool.pools.count s + weigh (Instr.returning s) st.threads) : ¬ Holds st s := by
  intro hholds
  have hreturns := hinv.returns s
  rw [if_pos (Holds.iff.mpr hholds)] at hreturns
  omega

theorem free_of_entry (hinv : ServerInv st) (h : Entry st.threads x) (hx : 0 < x.returning s) :
    ¬ Holds st s := by
  apply free_of_returning hinv
  have hle := le_weigh (Instr.returning s) h
  omega

theorem pops_cases (hpops : st.Pops s instr) :
    (instr = .rePop ∨ ∃ a, instr = .acceptPop a) ∧ ∃ pool, st.popSession =
      ({ st with
        pool := pool
        phase := Function.update st.phase s .fresh
        closed := Function.update st.closed s false }, some s) ∧
      st.pool.pools = s :: pool.pools := by
  have hinstr : (instr = .rePop ∨ ∃ a, instr = .acceptPop a) ∧ st.popSession.2 = some s := by
    cases instr with
    | rePop => exact ⟨.inl rfl, hpops⟩
    | acceptPop a => exact ⟨.inr ⟨a, rfl⟩, hpops⟩
    | _ => contradiction
  refine ⟨hinstr.1, ?_⟩
  rcases popSession_cases st with hnone | ⟨s', pool, hsome, hpools, _⟩
  · cases hnone ▸ hinstr.2
  · cases Option.some.inj ((congrArg Prod.snd hsome).symm.trans hinstr.2)
    exact ⟨pool, hsome, hpools⟩

theorem pops_phase (hpops : st.Pops s instr) : (st.exec c instr).1.phase s = .fresh := by
  obtain ⟨rfl | ⟨a, rfl⟩, pool, hpop, _⟩ := pops_cases hpops
  · simp [Server.exec, hpop]
  · simp [Server.exec, hpop, Server.setAccept]

theorem free_of_pops (hinv : ServerInv st) (h : st.Pops s instr) : ¬ Holds st s := by
  obtain ⟨_, pool, _, hpools⟩ := pops_cases h
  apply free_of_returning hinv
  rw [hpools, List.count_cons_self]
  omega

theorem next_refs (hroom : ∀ i, instr.room? = some i → i < st.roomCount) (h : Next c st instr x)
    (hpos : 0 < x.refs s) : Holds st s ∨ 0 < instr.refs s ∨ st.Pops s instr := by
  cases h with
  | reDrop hpops => exact .inr (.inr (eq_of_pos hpos ▸ hpops))
  | popDrop hpops => exact .inr (.inr (eq_of_pos hpos ▸ hpops))
  | acceptDrop execute haccepting => exact .inl (accepting_holds (eq_of_pos hpos ▸ haccepting))
  | recvDrop completion hrecv => exact .inl (.recv (eq_of_pos hpos ▸ hrecv))
  | sendDrop transferred hsend => exact .inl (.send (eq_of_pos hpos ▸ hsend))
  | dispatch i =>
    obtain ⟨job, hjob, hs⟩ := List.countP_pos_iff.mp hpos
    exact .inl (.job (hroom i rfl) hjob (of_decide_eq_true hs))
  | jobDrop i job jobs stop =>
    right
    left
    simp [Instr.refs, eq_of_pos hpos]
  | dispatchRest i job jobs stop =>
    right
    left
    simp only [Instr.refs, List.countP_cons] at hpos ⊢
    omega
  | snapshotDrop hfind => exact .inl (.user (eq_of_pos hpos ▸ hfind))
  | _ => contradiction

end
end RoomServer
