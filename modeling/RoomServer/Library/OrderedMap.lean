import Mathlib.Data.List.Sort
import Mathlib.Tactic.Common

/-! A map kept in the order of its keys, as `std::map` is walked: an insertion
under a present key changes nothing and says so. The order is a field, so that
a key has one entry at most. -/
namespace Library

structure OrderedMap (κ α : Type) [LinearOrder κ] where
  entries : List (κ × α)
  sorted : entries.Pairwise fun a b => a.1 < b.1

namespace OrderedMap
variable [LinearOrder κ]

@[ext] theorem ext {m m' : OrderedMap κ α} (h : m.entries = m'.entries) : m = m' := by
  cases m
  cases m'
  cases h
  rfl

instance [DecidableEq α] : DecidableEq (OrderedMap κ α) := fun m m' =>
  decidable_of_iff (m.entries = m'.entries) ⟨ext, congrArg entries⟩

def empty : OrderedMap κ α := ⟨[], .nil⟩

def values (m : OrderedMap κ α) : List α := m.entries.map Prod.snd

def find (m : OrderedMap κ α) (k : κ) : Option α :=
  (m.entries.find? fun e => e.1 = k).map Prod.snd

def place (k : κ) (v : α) : List (κ × α) → List (κ × α)
  | [] => [(k, v)]
  | e :: rest => if k < e.1 then (k, v) :: e :: rest else e :: place k v rest

theorem mem_place {k : κ} {v : α} {entries : List (κ × α)} {e : κ × α} :
    e ∈ place k v entries ↔ e = (k, v) ∨ e ∈ entries := by
  induction entries with
  | nil => simp [place]
  | cons first rest ih =>
    rw [place]
    split
    · simp
    · simp only [List.mem_cons, ih]
      tauto

theorem place_sorted {k : κ} {v : α} {entries : List (κ × α)}
    (h : entries.Pairwise fun a b => a.1 < b.1) (habsent : ∀ e ∈ entries, e.1 ≠ k) :
    (place k v entries).Pairwise fun a b => a.1 < b.1 := by
  induction entries with
  | nil => simp [place]
  | cons first rest ih =>
    have hfirst := List.pairwise_cons.mp h
    rw [place]
    split
    case isTrue hlt =>
      apply List.Pairwise.cons
      · intro e he
        rcases List.mem_cons.mp he with rfl | he
        · exact hlt
        · exact hlt.trans (hfirst.1 e he)
      · exact h
    case isFalse hge =>
      have hne := habsent first List.mem_cons_self
      apply List.Pairwise.cons
      · intro e he
        rcases mem_place.mp he with rfl | he
        · exact lt_of_le_of_ne (not_lt.mp hge) hne
        · exact hfirst.1 e he
      · exact ih hfirst.2 fun e he => habsent e (List.mem_cons_of_mem _ he)

theorem absent {m : OrderedMap κ α} {k : κ} (h : (m.find k).isSome = false) :
    ∀ e ∈ m.entries, e.1 ≠ k := by
  simpa [find] using h

/-- `insert`; the flag says whether the key was new. -/
def insert (m : OrderedMap κ α) (k : κ) (v : α) : OrderedMap κ α × Bool :=
  if h : (m.find k).isSome = false then
    (⟨place k v m.entries, place_sorted m.sorted (absent h)⟩, true)
  else (m, false)

def erase (m : OrderedMap κ α) (k : κ) : OrderedMap κ α :=
  ⟨m.entries.filter fun e => e.1 ≠ k, m.sorted.filter _⟩

def mapValues (f : κ → α → β) (m : OrderedMap κ α) : OrderedMap κ β :=
  ⟨m.entries.map fun e => (e.1, f e.1 e.2), m.sorted.map _ fun _ _ h => h⟩

def set (m : OrderedMap κ α) (k : κ) (v : α) : OrderedMap κ α :=
  m.mapValues fun k' v' => if k' = k then v else v'

theorem find_eq_some {m : OrderedMap κ α} {k : κ} {v : α} :
    m.find k = some v ↔ (k, v) ∈ m.entries := by
  obtain ⟨entries, sorted⟩ := m
  unfold find
  induction entries with
  | nil => simp
  | cons first rest ih =>
    have hfirst := List.pairwise_cons.mp sorted
    rw [List.find?_cons]
    by_cases hkey : first.1 = k
    · subst hkey
      simp only [decide_true, Option.map_some, Option.some.injEq, List.mem_cons]
      constructor
      · rintro rfl
        exact .inl rfl
      · rintro (heq | hmem)
        · exact congrArg Prod.snd heq.symm
        · exact absurd (hfirst.1 _ hmem) (lt_irrefl _)
    · simp only [hkey, decide_false, List.mem_cons]
      rw [ih hfirst.2]
      constructor
      · exact .inr
      · rintro (rfl | hmem)
        · exact absurd rfl hkey
        · exact hmem

theorem mem_values {m : OrderedMap κ α} {v : α} : v ∈ m.values ↔ ∃ k, m.find k = some v := by
  simp only [values, List.mem_map, find_eq_some]
  constructor
  · rintro ⟨e, he, rfl⟩
    exact ⟨e.1, he⟩
  · rintro ⟨k, hk⟩
    exact ⟨(k, v), hk, rfl⟩

@[simp] theorem find_empty (k : κ) : (empty : OrderedMap κ α).find k = none := rfl

/-- Two maps with the same finds agree; here for one key at a time. -/
theorem find_congr {m m' : OrderedMap κ α} {k : κ}
    (h : ∀ v, (k, v) ∈ m.entries ↔ (k, v) ∈ m'.entries) : m.find k = m'.find k := by
  apply Option.ext
  intro v
  rw [find_eq_some, find_eq_some]
  exact h v

theorem insert_present {m : OrderedMap κ α} {k : κ} {v : α} (h : (m.insert k v).2 = false) :
    (m.insert k v).1 = m := by
  unfold insert at h ⊢
  split at h
  · contradiction
  · rename_i hpresent
    rw [dif_neg hpresent]

theorem insert_new (m : OrderedMap κ α) (k : κ) (v : α) :
    (m.insert k v).2 = (m.find k).isNone := by
  rw [insert, apply_dite Prod.snd, dite_eq_ite]
  cases m.find k <;> rfl

theorem find_of_insert {m : OrderedMap κ α} {k : κ} {v : α} (h : (m.insert k v).2 = true) :
    m.find k = none := by
  unfold insert at h
  split at h
  · rename_i habsent
    simpa using habsent
  · contradiction

theorem find_insert {m : OrderedMap κ α} {k : κ} {v : α} (h : (m.insert k v).2 = true) (k' : κ) :
    (m.insert k v).1.find k' = if k' = k then some v else m.find k' := by
  have hnone := find_of_insert h
  have hentries : (m.insert k v).1.entries = place k v m.entries := by
    simp [insert, hnone]
  split
  case isTrue hkey =>
    rw [hkey, find_eq_some, hentries]
    exact mem_place.mpr (.inl rfl)
  case isFalse hkey =>
    apply find_congr
    intro v'
    rw [hentries, mem_place]
    simp [hkey]

theorem find_erase (m : OrderedMap κ α) (k k' : κ) :
    (m.erase k).find k' = if k' = k then none else m.find k' := by
  split
  case isTrue hkey =>
    simp [find, erase, hkey]
  case isFalse hkey =>
    apply find_congr
    intro v
    simp [erase, hkey]

theorem find_mapValues (f : κ → α → β) (m : OrderedMap κ α) (k : κ) :
    (m.mapValues f).find k = (m.find k).map (f k) := by
  apply Option.ext
  intro v
  simp only [find_eq_some, mapValues, List.mem_map, Option.map_eq_some_iff, Prod.mk.injEq]
  constructor
  · rintro ⟨e, he, rfl, rfl⟩
    exact ⟨e.2, he, rfl⟩
  · rintro ⟨v', hv', rfl⟩
    exact ⟨(k, v'), hv', rfl, rfl⟩

theorem find_set (m : OrderedMap κ α) (k : κ) (v : α) (k' : κ) :
    (m.set k v).find k' = if k' = k then (m.find k).map (fun _ => v) else m.find k' := by
  rw [set, find_mapValues]
  split
  case isTrue hkey => rw [hkey]
  case isFalse => simp

/-! ### The values, up to their order -/

theorem place_perm (k : κ) (v : α) (entries : List (κ × α)) :
    (place k v entries).Perm ((k, v) :: entries) := by
  induction entries with
  | nil => exact .refl _
  | cons first rest ih =>
    rw [place]
    split
    · exact .refl _
    · exact (ih.cons first).trans (.swap _ _ _)

theorem values_insert {m : OrderedMap κ α} {k : κ} {v : α} (h : (m.insert k v).2 = true) :
    (m.insert k v).1.values.Perm (v :: m.values) := by
  have hentries : (m.insert k v).1.entries = place k v m.entries := by
    simp [insert, find_of_insert h]
  rw [values, hentries]
  exact (place_perm k v m.entries).map Prod.snd

theorem values_erase {m : OrderedMap κ α} {k : κ} {v : α} (h : m.find k = some v) :
    m.values.Perm (v :: (m.erase k).values) := by
  obtain ⟨entries, sorted⟩ := m
  have hmem := find_eq_some.mp h
  unfold values erase
  dsimp only at hmem ⊢
  clear h
  induction entries with
  | nil => contradiction
  | cons first rest ih =>
    have hfirst := List.pairwise_cons.mp sorted
    rcases List.mem_cons.mp hmem with rfl | hrest
    · -- no other entry has the key
      have hothers : rest.filter (fun e => e.1 ≠ k) = rest := by
        apply List.filter_eq_self.mpr
        intro e he
        exact decide_eq_true (ne_of_gt (hfirst.1 e he))
      rw [List.filter_cons_of_neg (by simp), hothers, List.map_cons]
    · have hkey : first.1 ≠ k := ne_of_lt (hfirst.1 _ hrest)
      rw [List.filter_cons_of_pos (by simpa using hkey), List.map_cons, List.map_cons]
      exact ((ih hfirst.2 hrest).cons first.2).trans (.swap _ _ _)

theorem map_values_mapValues {f : κ → α → β} {g : β → γ} {g' : α → γ}
    (h : ∀ k v, g (f k v) = g' v) (m : OrderedMap κ α) :
    (m.mapValues f).values.map g = m.values.map g' := by
  simp only [values, mapValues, List.map_map]
  apply List.map_congr_left
  intro e _
  exact h e.1 e.2

theorem nodup_of_key {m : OrderedMap κ α} {g : α → γ} (key : γ → κ)
    (h : ∀ k v, m.find k = some v → key (g v) = k) : (m.values.map g).Nodup := by
  have hkeys : (m.values.map g).map key = m.entries.map Prod.fst := by
    rw [values, List.map_map, List.map_map]
    apply List.map_congr_left
    intro e he
    exact h e.1 e.2 (find_eq_some.mpr he)
  apply List.Nodup.of_map key
  rw [hkeys]
  exact m.sorted.map Prod.fst fun _ _ hlt => hlt.ne

theorem key_eq_of_nodup {m : OrderedMap κ α} {g : α → γ} (h : (m.values.map g).Nodup) {k k' : κ}
    {v v' : α} (hk : m.find k = some v) (hk' : m.find k' = some v') (heq : g v = g v') :
    k = k' := by
  rw [values, List.map_map] at h
  have he := List.inj_on_of_nodup_map h (find_eq_some.mp hk) (find_eq_some.mp hk') heq
  exact congrArg Prod.fst he

theorem map_values_set {m : OrderedMap κ α} {k : κ} {v v' : α} {g : α → γ}
    (hfind : m.find k = some v) (h : g v' = g v) :
    (m.set k v').values.map g = m.values.map g := by
  simp only [values, set, mapValues, List.map_map]
  apply List.map_congr_left
  intro e he
  simp only [Function.comp_apply]
  split
  case isTrue hkey =>
    have hsame : m.find k = some e.2 := find_eq_some.mpr (hkey ▸ he)
    rw [hfind] at hsame
    rw [h, Option.some.inj hsame]
  case isFalse => rfl

end OrderedMap
end Library
