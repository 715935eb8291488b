import Mathlib.Data.List.Basic
import Mathlib.Tactic.Common

/-! A list of threads in which one moves at a time. `total` adds up what each
thread holds of a resource, and `total_splice` says how a move changes the sum:
a resource of which at most one unit exists is an ownership token. -/
namespace Library.Threads

/-- Thread `i` is replaced by the threads it becomes: none when it has ended. -/
def splice (threads : List τ) (i : Nat) (next : List τ) : List τ :=
  threads.take i ++ next ++ threads.drop (i + 1)

def total (weight : τ → Nat) : List τ → Nat
  | [] => 0
  | t :: threads => weight t + total weight threads

@[simp] theorem total_nil (weight : τ → Nat) : total weight [] = 0 := rfl

@[simp] theorem total_cons (weight : τ → Nat) (t : τ) (threads : List τ) :
    total weight (t :: threads) = weight t + total weight threads := rfl

@[simp] theorem total_append (weight : τ → Nat) (first second : List τ) :
    total weight (first ++ second) = total weight first + total weight second := by
  induction first with
  | nil => simp
  | cons t first ih =>
    rw [List.cons_append, total_cons, total_cons, ih]
    omega

theorem total_of_forall (weight : τ → Nat) {threads : List τ} (h : ∀ t ∈ threads, weight t = 0) :
    total weight threads = 0 := by
  induction threads with
  | nil => rfl
  | cons t threads ih =>
    rw [List.forall_mem_cons] at h
    rw [total_cons, h.1, ih h.2]

theorem total_map_zero (weight : τ → Nat) (f : β → τ) (xs : List β)
    (h : ∀ x, weight (f x) = 0) : total weight (xs.map f) = 0 := by
  apply total_of_forall
  intro t ht
  obtain ⟨x, _, rfl⟩ := List.mem_map.mp ht
  exact h x

theorem split_at {threads : List τ} {i : Nat} {t : τ} (h : threads[i]? = some t) :
    threads = threads.take i ++ t :: threads.drop (i + 1) := by
  obtain ⟨hi, ht⟩ := List.getElem?_eq_some_iff.mp h
  rw [← ht, List.getElem_cons_drop, List.take_append_drop]

theorem total_splice (weight : τ → Nat) {threads : List τ} {i : Nat} {t : τ} (next : List τ)
    (h : threads[i]? = some t) :
    total weight (splice threads i next) + weight t = total weight threads + total weight next := by
  have hsplit := congrArg (total weight) (split_at h)
  rw [splice, hsplit]
  simp only [total_append, total_cons]
  omega

theorem perm_splice {threads : List τ} {i : Nat} {t : τ} (next : List τ)
    (h : threads[i]? = some t) : (t :: splice threads i next).Perm (next ++ threads) := by
  classical
  rw [List.perm_iff_count]
  intro u
  have hsplit := congrArg (List.count u) (split_at h)
  simp only [splice, List.count_cons, List.count_append] at hsplit ⊢
  omega

theorem mem_splice {threads : List τ} {i : Nat} {next : List τ} {t : τ}
    (h : t ∈ splice threads i next) : t ∈ next ∨ t ∈ threads := by
  simp only [splice, List.mem_append] at h
  rcases h with (h | h) | h
  · exact .inr (List.mem_of_mem_take h)
  · exact .inl h
  · exact .inr (List.mem_of_mem_drop h)

theorem le_total (weight : τ → Nat) {threads : List τ} {t : τ} (h : t ∈ threads) :
    weight t ≤ total weight threads := by
  induction threads with
  | nil => contradiction
  | cons u threads ih =>
    rw [total_cons]
    rcases List.mem_cons.mp h with rfl | h
    · omega
    · have := ih h
      omega

theorem total_eq_zero (weight : τ → Nat) {threads : List τ} (h : total weight threads = 0)
    {t : τ} (ht : t ∈ threads) : weight t = 0 := by
  have := le_total weight ht
  omega

/-- Where the moving thread held all there is, every other thread holds nothing. -/
theorem mem_splice_of_holder (weight : τ → Nat) {threads : List τ} {i : Nat} {next : List τ}
    {t u : τ} (h : threads[i]? = some t) (hall : total weight threads ≤ weight t)
    (hu : u ∈ splice threads i next) : u ∈ next ∨ u ∈ threads ∧ weight u = 0 := by
  have hothers : total weight (splice threads i []) = 0 := by
    have := total_splice weight [] h
    simp only [total_nil] at this
    omega
  simp only [splice, List.mem_append] at hu
  rcases hu with (hu | hu) | hu
  · exact .inr ⟨List.mem_of_mem_take hu,
      total_eq_zero weight hothers (by simp [splice, hu])⟩
  · exact .inl hu
  · exact .inr ⟨List.mem_of_mem_drop hu,
      total_eq_zero weight hothers (by simp [splice, hu])⟩

/-- A property of neither the old nor the new threads in a place is not affected there. -/
theorem any_splice {p : τ → Bool} {threads : List τ} {i : Nat} {next : List τ} {t : τ}
    (h : threads[i]? = some t) (ht : p t = false) (hnext : next.any p = false) :
    (splice threads i next).any p = threads.any p := by
  have hsplit := congrArg (List.any · p) (split_at h)
  rw [splice, hsplit]
  simp only [List.any_append, List.any_cons, ht, hnext, Bool.false_or, Bool.or_false]

theorem any_splice_of_holder (weight : τ → Nat) {p : τ → Bool} {threads : List τ} {i : Nat}
    {t : τ} (next : List τ) (h : threads[i]? = some t) (hall : total weight threads ≤ weight t)
    (hp : ∀ u, weight u = 0 → p u = false) :
    (splice threads i next).any p = next.any p := by
  rw [Bool.eq_iff_iff, List.any_eq_true, List.any_eq_true]
  constructor
  · rintro ⟨u, hu, hpu⟩
    rcases mem_splice_of_holder weight h hall hu with hu | ⟨_, hzero⟩
    · exact ⟨u, hu, hpu⟩
    · rw [hp u hzero] at hpu
      contradiction
  · rintro ⟨u, hu, hpu⟩
    exact ⟨u, by simp [splice, hu], hpu⟩

theorem any_of_holder (weight : τ → Nat) {p : τ → Bool} {threads : List τ} {i : Nat}
    {t : τ} (h : threads[i]? = some t) (hall : total weight threads ≤ weight t)
    (hp : ∀ u, weight u = 0 → p u = false) : threads.any p = p t := by
  have hself : splice threads i [t] = threads := by
    rw [splice, List.append_assoc, List.singleton_append]
    exact (split_at h).symm
  have hany := any_splice_of_holder weight [t] h hall hp
  rwa [hself, List.any_cons, List.any_nil, Bool.or_false] at hany

/-! ### Threads as what they have left to do

A thread is a list whose head is its next entry; an entry is replaced by the
entries that come first now. -/

def weigh (weight : α → Nat) (threads : List (List α)) : Nat := total (total weight) threads

def Entry (threads : List (List α)) (x : α) : Prop := ∃ thread ∈ threads, x ∈ thread

theorem total_set (weight : τ → Nat) {threads : List τ} {i : Nat} {t : τ} (t' : τ)
    (h : threads[i]? = some t) :
    total weight (threads.set i t') + weight t = total weight threads + weight t' := by
  obtain ⟨hi, ht⟩ := List.getElem?_eq_some_iff.mp h
  have hsplice : threads.set i t' = splice threads i [t'] := by
    rw [List.set_eq_take_append_cons_drop, if_pos hi, splice, List.append_assoc,
      List.singleton_append]
  rw [hsplice, total_splice weight [t'] h, total_cons, total_nil, Nat.add_zero]

theorem total_eraseIdx (weight : τ → Nat) {threads : List τ} {i : Nat} {t : τ}
    (h : threads[i]? = some t) :
    total weight (threads.eraseIdx i) + weight t = total weight threads := by
  have hsplice := total_splice weight [] h
  rw [splice, List.append_nil, ← List.eraseIdx_eq_take_drop_succ] at hsplice
  exact hsplice

theorem total_set_congr (weight : τ → Nat) (threads : List τ) (i : Nat) {t t' : τ}
    (h : weight t = weight t') :
    total weight (threads.set i t) = total weight (threads.set i t') := by
  induction threads generalizing i with
  | nil => rfl
  | cons u threads ih =>
    cases i with
    | zero => rw [List.set_cons_zero, List.set_cons_zero, total_cons, total_cons, h]
    | succ i => rw [List.set_cons_succ, List.set_cons_succ, total_cons, total_cons, ih]

theorem weigh_set (weight : α → Nat) {threads : List (List α)} {t : Nat} {x : α} {rest : List α}
    (next : List α) (h : threads[t]? = some (x :: rest)) :
    weigh weight (threads.set t (next ++ rest)) + weight x =
      weigh weight threads + total weight next := by
  have hset := total_set (total weight) (next ++ rest) h
  simp only [total_cons, total_append] at hset
  unfold weigh
  omega

@[simp] theorem weigh_nil (weight : α → Nat) : weigh weight [] = 0 := rfl

@[simp] theorem weigh_append (weight : α → Nat) (first second : List (List α)) :
    weigh weight (first ++ second) = weigh weight first + weigh weight second :=
  total_append _ first second

@[simp] theorem weigh_cons (weight : α → Nat) (thread : List α) (threads : List (List α)) :
    weigh weight (thread :: threads) = total weight thread + weigh weight threads :=
  total_cons _ thread threads

theorem le_weigh (weight : α → Nat) {threads : List (List α)} {x : α} (h : Entry threads x) :
    weight x ≤ weigh weight threads := by
  obtain ⟨thread, hthread, hx⟩ := h
  exact Nat.le_trans (le_total weight hx) (le_total (total weight) hthread)

theorem exists_of_total {weight : τ → Nat} {threads : List τ} (h : 0 < total weight threads) :
    ∃ t ∈ threads, 0 < weight t := by
  induction threads with
  | nil => contradiction
  | cons t threads ih =>
    by_cases ht : 0 < weight t
    · exact ⟨t, List.mem_cons_self, ht⟩
    · rw [total_cons] at h
      obtain ⟨u, hu, hpos⟩ := ih (by omega)
      exact ⟨u, List.mem_cons_of_mem _ hu, hpos⟩

theorem entry_of_weigh {weight : α → Nat} {threads : List (List α)}
    (h : 0 < weigh weight threads) : ∃ x, Entry threads x ∧ 0 < weight x := by
  obtain ⟨thread, hthread, hpos⟩ := exists_of_total h
  obtain ⟨x, hx, hpos⟩ := exists_of_total hpos
  exact ⟨x, ⟨thread, hthread, hx⟩, hpos⟩

theorem entry_head {threads : List (List α)} {t : Nat} {x : α} {rest : List α}
    (h : threads[t]? = some (x :: rest)) : Entry threads x :=
  ⟨x :: rest, List.mem_of_getElem? h, List.mem_cons_self⟩

theorem entry_of_getD {threads : List (List α)} {t : Nat} {x : α}
    (h : x ∈ threads[t]?.getD []) : Entry threads x := by
  cases hthread : threads[t]? with
  | none =>
    rw [hthread] at h
    contradiction
  | some thread =>
    rw [hthread] at h
    exact ⟨thread, List.mem_of_getElem? hthread, h⟩

/-- An entry beside the running one: it was there, and it weighs what it weighs on
top of the running one. -/
structure Beside (threads : List (List α)) (x y : α) : Prop where
  entry : Entry threads y
  weight : ∀ weight : α → Nat, weight y + weight x ≤ weigh weight threads

theorem beside_of_rest {threads : List (List α)} {t : Nat} {x y : α} {rest : List α}
    (h : threads[t]? = some (x :: rest)) (hy : Entry (threads.set t rest) y) :
    Beside threads x y := by
  constructor
  · obtain ⟨thread, hthread, hy⟩ := hy
    rcases List.mem_or_eq_of_mem_set hthread with hold | hnew
    · exact ⟨thread, hold, hy⟩
    · subst hnew
      exact ⟨x :: thread, List.mem_of_getElem? h, List.mem_cons_of_mem _ hy⟩
  · intro weight
    have hset := weigh_set weight [] h
    have hle := le_weigh weight hy
    simp only [List.nil_append, total_nil] at hset
    omega

theorem entry_set {threads : List (List α)} {t : Nat} {x y : α} {rest next : List α}
    (h : threads[t]? = some (x :: rest)) (hy : Entry (threads.set t (next ++ rest)) y) :
    y ∈ next ∨ Beside threads x y := by
  obtain ⟨ht, _⟩ := List.getElem?_eq_some_iff.mp h
  obtain ⟨thread, hthread, hy⟩ := hy
  obtain ⟨j, hj⟩ := List.mem_iff_getElem?.mp hthread
  rw [List.getElem?_set] at hj
  split at hj
  case isTrue hjt =>
    cases hj
    rcases List.mem_append.mp hy with hy | hy
    · exact .inl hy
    · right
      apply beside_of_rest h
      exact ⟨rest, List.mem_set ht rest, hy⟩
  case isFalse hjt =>
    right
    apply beside_of_rest h
    refine ⟨thread, List.mem_iff_getElem?.mpr ⟨j, ?_⟩, hy⟩
    rw [List.getElem?_set_ne hjt]
    exact hj

theorem entry_stays {threads : List (List α)} {t : Nat} {x y : α} {rest : List α} (next : List α)
    (h : threads[t]? = some (x :: rest)) (hy : Entry threads y) :
    y = x ∨ Entry (threads.set t (next ++ rest)) y := by
  obtain ⟨ht, _⟩ := List.getElem?_eq_some_iff.mp h
  obtain ⟨thread, hthread, hy⟩ := hy
  obtain ⟨j, hj⟩ := List.mem_iff_getElem?.mp hthread
  by_cases hjt : t = j
  · subst hjt
    cases Option.some.inj (h.symm.trans hj)
    rcases List.mem_cons.mp hy with hy | hy
    · exact .inl hy
    · exact .inr ⟨next ++ rest, List.mem_set ht _, List.mem_append_right _ hy⟩
  · refine .inr ⟨thread, List.mem_iff_getElem?.mpr ⟨j, ?_⟩, hy⟩
    rw [List.getElem?_set_ne hjt]
    exact hj

theorem entry_next {threads : List (List α)} {t : Nat} {x y : α} {rest next : List α}
    (h : threads[t]? = some (x :: rest)) (hy : y ∈ next) :
    Entry (threads.set t (next ++ rest)) y := by
  obtain ⟨ht, _⟩ := List.getElem?_eq_some_iff.mp h
  exact ⟨next ++ rest, List.mem_set ht _, List.mem_append_left _ hy⟩

def gather (f : α → Option β) (threads : List (List α)) : List β := threads.flatten.filterMap f

theorem mem_gather {f : α → Option β} {threads : List (List α)} {y : β} :
    y ∈ gather f threads ↔ ∃ x, Entry threads x ∧ f x = some y := by
  simp only [gather, List.mem_filterMap, List.mem_flatten, Entry]

@[simp] theorem gather_append (f : α → Option β) (first second : List (List α)) :
    gather f (first ++ second) = gather f first ++ gather f second := by
  simp only [gather, List.flatten_append, List.filterMap_append]

@[simp] theorem gather_singleton (f : α → Option β) (thread : List α) :
    gather f [thread] = thread.filterMap f := by
  simp only [gather, List.flatten_singleton]

theorem gather_set (f : α → Option β) {threads : List (List α)} {t : Nat} {x : α}
    {rest : List α} (next : List α) (h : threads[t]? = some (x :: rest)) :
    ((f x).toList ++ gather f (threads.set t (next ++ rest))).Perm
      (next.filterMap f ++ gather f threads) := by
  obtain ⟨ht, _⟩ := List.getElem?_eq_some_iff.mp h
  have hx : [x].filterMap f = (f x).toList := by
    cases hfx : f x <;> simp [hfx]
  have hsplit := congrArg (gather f) (split_at h)
  rw [gather_append, ← List.singleton_append, gather_append, gather_singleton,
    ← List.singleton_append, List.filterMap_append, hx] at hsplit
  rw [List.set_eq_take_append_cons_drop, if_pos ht, gather_append, ← List.singleton_append,
    gather_append, gather_singleton, List.filterMap_append, hsplit]
  classical
  rw [List.perm_iff_count]
  intro y
  simp only [List.count_append]
  omega

theorem total_perm (weight : τ → Nat) {first second : List τ} (h : first.Perm second) :
    total weight first = total weight second := by
  induction h with
  | nil => rfl
  | cons t _ ih => rw [total_cons, total_cons, ih]
  | swap t u rest =>
    simp only [total_cons]
    omega
  | trans _ _ ih ih' => exact ih.trans ih'

/-- A weight of what is found is a weight of the entries. -/
theorem total_gather (weight : β → Nat) (f : α → Option β) (threads : List (List α)) :
    total weight (gather f threads) = weigh (fun x => total weight (f x).toList) threads := by
  have hthread : ∀ thread : List α,
      total weight (thread.filterMap f) = total (fun x => total weight (f x).toList) thread := by
    intro thread
    induction thread with
    | nil => rfl
    | cons x thread ih =>
      rw [List.filterMap_cons, total_cons, ← ih]
      cases f x <;> simp
  induction threads with
  | nil => rfl
  | cons thread threads ih =>
    rw [← List.singleton_append, gather_append, gather_singleton, total_append, hthread, ih,
      weigh_append, weigh_cons, weigh_nil, Nat.add_zero]

end Library.Threads
