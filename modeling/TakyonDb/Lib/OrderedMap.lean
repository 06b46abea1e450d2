import Mathlib.Data.List.Nodup

namespace TakyonDb.Lib

/-- Keys with their values in the order the keys came in. -/
structure OrderedMap (κ α : Type*) where
  entries : List (κ × α)
  nodup : (entries.map Prod.fst).Nodup
deriving DecidableEq

namespace OrderedMap

variable {κ α : Type*}

@[ext] theorem ext {m m' : OrderedMap κ α} (h : m.entries = m'.entries) : m = m' := by
  cases m
  cases m'
  cases h
  rfl

def empty : OrderedMap κ α := ⟨[], List.nodup_nil⟩

def values (m : OrderedMap κ α) : List α := m.entries.map Prod.snd

variable [DecidableEq κ]

def find? (m : OrderedMap κ α) (k : κ) : Option α := m.entries.lookup k

def replace (k : κ) (v : α) (l : List (κ × α)) : List (κ × α) := l.map fun p ↦ if p.1 = k then (k, v) else p

theorem map_fst_replace (k : κ) (v : α) (l : List (κ × α)) : (replace k v l).map Prod.fst = l.map Prod.fst := by
  rw [replace, List.map_map]
  refine List.map_congr_left fun p _ ↦ ?_
  by_cases h : p.1 = k <;> simp [h]

/-- A key that is there keeps its place, a new one comes last. -/
def set (m : OrderedMap κ α) (k : κ) (v : α) : OrderedMap κ α :=
  if h : k ∈ m.entries.map Prod.fst then ⟨replace k v m.entries, (map_fst_replace k v m.entries).symm ▸ m.nodup⟩
  else ⟨m.entries ++ [(k, v)], by
    rw [List.map_append]
    exact m.nodup.append (List.nodup_singleton k) (List.disjoint_singleton.mpr h)⟩

def erase (m : OrderedMap κ α) (k : κ) : OrderedMap κ α :=
  ⟨m.entries.filter (·.1 ≠ k), m.nodup.sublist (List.filter_sublist.map Prod.fst)⟩

/-- Sets the keys one after the other. -/
def setAll (m : OrderedMap κ α) (l : List (κ × α)) : OrderedMap κ α := l.foldl (fun m p ↦ m.set p.1 p.2) m

def ofList (l : List (κ × α)) : OrderedMap κ α := empty.setAll l

omit [DecidableEq κ] in
theorem map_fst_map {β : Type*} (f : κ → α → β) (l : List (κ × α)) :
    (l.map fun p ↦ (p.1, f p.1 p.2)).map Prod.fst = l.map Prod.fst := by
  rw [List.map_map]
  rfl

def mapEntries {β : Type*} (f : κ → α → β) (m : OrderedMap κ α) : OrderedMap κ β :=
  ⟨m.entries.map fun p ↦ (p.1, f p.1 p.2), (map_fst_map f m.entries).symm ▸ m.nodup⟩

def mapValues {β : Type*} (f : α → β) (m : OrderedMap κ α) : OrderedMap κ β := m.mapEntries fun _ ↦ f

variable {m : OrderedMap κ α} {k k' : κ} {v v' : α}

theorem lookup_eq_some {l : List (κ × α)} (hl : (l.map Prod.fst).Nodup) : l.lookup k = some v ↔ (k, v) ∈ l := by
  induction l with
  | nil => simp
  | cons p l ih =>
    obtain ⟨hp, hl⟩ := List.nodup_cons.mp hl
    rw [List.lookup_cons, List.mem_cons]
    by_cases hk : k = p.1
    · have hnot : (k, v) ∉ l := fun h ↦ hp (hk ▸ List.mem_map_of_mem h)
      have hbeq : (k == p.1) = true := by simp [hk]
      rw [hbeq]
      constructor
      · intro h
        left
        rw [hk, ← Option.some.inj h]
      · rintro (h | h)
        · rw [← h]
        · exact absurd h hnot
    · have hbeq : (k == p.1) = false := by simp [hk]
      have hne : (k, v) ≠ p := fun h ↦ hk (congrArg Prod.fst h)
      rw [hbeq, ih hl]
      simp [hne]

theorem find?_eq_some : m.find? k = some v ↔ (k, v) ∈ m.entries := lookup_eq_some m.nodup

theorem find?_eq_none : m.find? k = none ↔ k ∉ m.entries.map Prod.fst := by
  rw [Option.eq_none_iff_forall_ne_some]
  constructor
  · intro h hk
    obtain ⟨p, hp, hpk⟩ := List.mem_map.mp hk
    exact h p.2 (find?_eq_some.mpr (hpk ▸ hp))
  · intro h v hv
    exact h (List.mem_map_of_mem (find?_eq_some.mp hv))

theorem entries_set_of_none (h : m.find? k = none) : (m.set k v).entries = m.entries ++ [(k, v)] := by
  rw [set, dif_neg (find?_eq_none.mp h)]

theorem entries_set_of_some (h : m.find? k = some v') : (m.set k v).entries = replace k v m.entries := by
  have hk : k ∈ m.entries.map Prod.fst := List.mem_map_of_mem (find?_eq_some.mp h)
  rw [set, dif_pos hk]

/-- The entries after a key was set. -/
theorem mem_entries_set {p : κ × α} : p ∈ (m.set k v).entries ↔ p = (k, v) ∨ p.1 ≠ k ∧ p ∈ m.entries := by
  cases h : m.find? k with
  | none =>
    have hk := find?_eq_none.mp h
    rw [entries_set_of_none h, List.mem_append, List.mem_singleton, or_comm]
    refine or_congr_right ⟨fun hp ↦ ⟨?_, hp⟩, fun hp ↦ hp.2⟩
    intro heq
    exact hk (heq ▸ List.mem_map_of_mem hp)
  | some w =>
    rw [entries_set_of_some h, replace, List.mem_map]
    constructor
    · rintro ⟨q, hq, heq⟩
      by_cases hqk : q.1 = k
      · left
        rw [← heq, if_pos hqk]
      · rw [if_neg hqk] at heq
        exact Or.inr ⟨heq ▸ hqk, heq ▸ hq⟩
    · rintro (heq | ⟨hne, hp⟩)
      · exact ⟨(k, w), find?_eq_some.mp h, by rw [if_pos rfl, heq]⟩
      · exact ⟨p, hp, if_neg hne⟩

@[simp] theorem find?_set : (m.set k v).find? k' = if k' = k then some v else m.find? k' := by
  ext w
  rw [find?_eq_some, mem_entries_set]
  by_cases h : k' = k
  · simp [h, eq_comm]
  · simp [h, find?_eq_some]

theorem mem_entries_erase {p : κ × α} : p ∈ (m.erase k).entries ↔ p ∈ m.entries ∧ p.1 ≠ k := by
  rw [erase, List.mem_filter]
  simp

@[simp] theorem find?_erase : (m.erase k).find? k' = if k' = k then none else m.find? k' := by
  ext w
  rw [find?_eq_some, mem_entries_erase]
  by_cases h : k' = k
  · simp [h]
  · simp [h, find?_eq_some]

@[simp] theorem find?_empty : (empty : OrderedMap κ α).find? k = none := rfl

/-- What a key is after it was set again and again: its last value. -/
theorem find?_setAll (l : List (κ × α)) : (m.setAll l).find? k = (l.reverse.lookup k).or (m.find? k) := by
  induction l generalizing m with
  | nil => rfl
  | cons p l ih =>
    have hcons : m.setAll (p :: l) = (m.set p.1 p.2).setAll l := rfl
    rw [hcons, ih, find?_set, List.reverse_cons, List.lookup_append, Option.or_assoc]
    congr 1
    rw [List.lookup_cons]
    by_cases h : k = p.1
    · simp [h]
    · have hbeq : (k == p.1) = false := by simpa using h
      simp [h, hbeq]

/-- Setting the entries of another map: its values, then those that were there. -/
theorem find?_setAll_entries (m' : OrderedMap κ α) : (m.setAll m'.entries).find? k = (m'.find? k).or (m.find? k) := by
  rw [find?_setAll]
  congr 1
  ext w
  have hnodup : (m'.entries.reverse.map Prod.fst).Nodup := by
    rw [List.map_reverse]
    exact List.nodup_reverse.mpr m'.nodup
  rw [lookup_eq_some hnodup, List.mem_reverse, find?_eq_some]

omit [DecidableEq κ] in
theorem mem_entries_mapEntries {β : Type*} {f : κ → α → β} {p : κ × β} :
    p ∈ (m.mapEntries f).entries ↔ ∃ q ∈ m.entries, (q.1, f q.1 q.2) = p := List.mem_map

@[simp] theorem find?_mapEntries {β : Type*} (f : κ → α → β) : (m.mapEntries f).find? k = (m.find? k).map (f k) := by
  ext w
  rw [find?_eq_some, mem_entries_mapEntries, Option.map_eq_some_iff]
  constructor
  · intro ⟨p, hp, hpw⟩
    cases hpw
    exact ⟨p.2, find?_eq_some.mpr hp, rfl⟩
  · intro ⟨v, hv, hvw⟩
    exact ⟨(k, v), find?_eq_some.mp hv, congrArg _ hvw⟩

end OrderedMap

end TakyonDb.Lib
