import TakyonDb.Art.Scan

namespace TakyonDb.Art

open Lib Set Heap Art.Tree

section Entries

variable {path pre tail key : Bytes} {shape : Shape} {kids : UInt8 → Tree} {b c : UInt8} {off : ℕ} {v : UInt32}
  {t root : Tree}
  {takes above : Bytes → Bool}

namespace Shape

theorem mem_sequence : b ∈ shape.sequence ↔ shape.Has b := by
  have hrange : ∀ n, b ∈ (List.range' 0 (n - 0)).filterMap shape.entryAt ↔ ∃ i < n, shape.entryAt i = some b := by
    intro n
    simp [List.mem_filterMap, List.mem_range'_1]
  rw [sequence, after, hrange]
  cases shape with
  | slots kind keys =>
    have hkeys : (∃ i < keys.length, keys[i]? = some b) ↔ b ∈ keys := by
      rw [List.mem_iff_getElem?]
      constructor
      · rintro ⟨i, -, hi⟩
        exact ⟨i, hi⟩
      · rintro ⟨i, hi⟩
        exact ⟨i, (List.getElem?_eq_some_iff.mp hi).1, hi⟩
    cases kind with
    | node4 => exact hkeys
    | node16 => exact hkeys
    | node48 =>
      constructor
      · rintro ⟨i, -, hi⟩
        rw [entryAt] at hi
        split_ifs at hi with hmem
        exact Option.some.inj hi ▸ hmem
      · intro hb
        have hbyte : UInt8.ofNat b.toNat = b := UInt8.ofNat_toNat
        have hmem : UInt8.ofNat b.toNat ∈ keys := by rwa [hbyte]
        exact ⟨b.toNat, b.toNat_lt, by rw [entryAt, if_pos hmem, hbyte]⟩
  | direct count =>
    exact iff_of_true ⟨b.toNat, b.toNat_lt, congrArg some UInt8.ofNat_toNat⟩ trivial

/-- The large nodes run through their bytes in order. -/
theorem sequence_ascending (h : shape.type ≠ .node4 ∧ shape.type ≠ .node16) : shape.sequence.Pairwise (· < ·) := by
  have hrange : ∀ f : ℕ → Option UInt8, (∀ i b, f i = some b → b = UInt8.ofNat i) →
      ((List.range' 0 256).filterMap f).Pairwise (· < ·) := by
    intro f hf
    rw [List.pairwise_filterMap]
    have hsorted : (List.range' 0 256).Pairwise (· < ·) := List.pairwise_lt_range'
    refine List.Pairwise.imp_of_mem ?_ hsorted
    intro i j hi hj hlt b hb c hc
    have hj' : j < 256 := by simpa using (List.mem_range'_1.mp hj).2
    rw [hf i b hb, hf j c hc, UInt8.lt_iff_toNat_lt, toNat_ofNat_slot hj', toNat_ofNat_slot (hlt.trans hj')]
    exact hlt
  cases shape with
  | slots kind keys =>
    cases kind with
    | node4 => exact absurd rfl h.1
    | node16 => exact absurd rfl h.2
    | node48 =>
      refine hrange _ fun i b hb ↦ ?_
      rw [entryAt] at hb
      split_ifs at hb
      exact (Option.some.inj hb).symm
  | direct count => exact hrange _ fun i b hb ↦ (Option.some.inj hb).symm

theorem filterMap_getElem? (keys : List UInt8) (pos : ℕ) :
    (List.range' pos (keys.length - pos)).filterMap (fun i ↦ keys[i]?) = keys.drop pos := by
  obtain ⟨n, hn⟩ : ∃ n, keys.length - pos = n := ⟨_, rfl⟩
  induction n generalizing pos with
  | zero => rw [hn, List.drop_eq_nil_of_le (by omega)]; rfl
  | succ n ih =>
    have hlt : pos < keys.length := by omega
    have hrest := ih (pos + 1) (by omega)
    rw [show keys.length - (pos + 1) = n by omega] at hrest
    rw [hn, List.range'_succ, List.filterMap_cons_some (List.getElem?_eq_getElem hlt), hrest,
      ← List.drop_eq_getElem_cons hlt]

theorem nodup_sequence (h : shape.Sound) : shape.sequence.Nodup := by
  cases shape with
  | slots kind keys =>
    have hkeys := filterMap_getElem? keys 0
    cases kind with
    | node4 =>
      rw [show (slots .node4 keys).sequence = keys from hkeys]
      exact h.1
    | node16 =>
      rw [show (slots .node16 keys).sequence = keys from hkeys]
      exact h.1
    | node48 =>
      exact (sequence_ascending ⟨by simp [type, SlotKind.type],
        by simp [type, SlotKind.type]⟩).imp UInt8.ne_of_lt
  | direct count => exact (sequence_ascending ⟨by simp [type], by simp [type]⟩).imp UInt8.ne_of_lt

end Shape

/-- The keys of a tree and their values, in the order in which a scan meets them. -/
def Tree.entries : Tree → List (Bytes × UInt32)
  | nil => []
  | leaf _ key value => [(key, value)]
  | inner _ shape kids => shape.sequence.flatMap fun b ↦ (kids b).entries

/-- A key below an entry goes on with the byte of the entry. -/
theorem snoc_prefix_iff (hpath : terminator ∉ path) :
    path ++ [b] <+: key ++ [terminator] ↔ path <+: key ++ [terminator] ∧ slotByte key path.length = b := by
  constructor
  · intro h
    have hfront := (List.prefix_append path [b]).trans h
    refine ⟨hfront, ?_⟩
    obtain ⟨r, hr⟩ := h
    rw [List.append_assoc, List.singleton_append] at hr
    have hget : (key ++ [terminator]).getD path.length terminator = b := by
      rw [← hr, List.getD_append_right _ _ _ _ le_rfl, Nat.sub_self]
      rfl
    rw [← hget, slotByte]
    rcases Nat.lt_or_ge path.length key.length with hlt | hge
    · rw [List.getD_append _ _ _ _ hlt]
    · rw [List.getD_eq_default _ _ hge, List.getD_append_right _ _ _ _ hge]
      cases path.length - key.length <;> rfl
  · rintro ⟨hfront, rfl⟩
    have hlen : path.length ≤ key.length := by
      by_contra hlt
      have heq : path = key ++ [terminator] := hfront.eq_of_length (by
        have := hfront.length_le
        rw [List.length_append, List.length_singleton] at this ⊢
        omega)
      exact hpath (heq ▸ by simp)
    have htake : path = key.take path.length := by
      have h := List.prefix_of_prefix_length_le hfront (List.prefix_append key [terminator]) hlen
      exact List.prefix_iff_eq_take.mp h
    have h := take_snoc_prefix hlen
    rwa [← htake] at h

/-- The entries of a tree are the keys that it looks up. -/
theorem mem_entries {t : Tree} {path : Bytes} (hwf : t.WF path) :
    (key, v) ∈ t.entries ↔ path <+: key ++ [terminator] ∧ t.lookup key path.length = some v := by
  induction t generalizing path with
  | nil => simp [entries, lookup]
  | leaf off k value =>
    rw [entries, List.mem_singleton, lookup, Prod.mk.injEq]
    constructor
    · rintro ⟨rfl, rfl⟩
      exact ⟨hwf.2, if_pos rfl⟩
    · rintro ⟨-, h⟩
      split_ifs at h with hk
      exact ⟨hk.symm, (Option.some.inj h).symm⟩
  | inner off shape kids ih =>
    have hlen : ∀ b : UInt8, (path ++ [b]).length = path.length + 1 := fun b ↦ by simp
    rw [entries, List.mem_flatMap, lookup]
    constructor
    · rintro ⟨b, -, hb⟩
      obtain ⟨hfront, hfound⟩ := (ih b (hwf.2.2.2.2 b)).mp hb
      obtain ⟨hpath, rfl⟩ := (snoc_prefix_iff hwf.2.1).mp hfront
      exact ⟨hpath, hlen _ ▸ hfound⟩
    · rintro ⟨hpath, hfound⟩
      refine ⟨slotByte key path.length, Shape.mem_sequence.mpr (has_of_ne_nil hwf fun hnil ↦ ?_), ?_⟩
      · rw [hnil] at hfound
        cases hfound
      · exact (ih _ (hwf.2.2.2.2 _)).mpr ⟨(snoc_prefix_iff hwf.2.1).mpr ⟨hpath, rfl⟩, hlen _ ▸ hfound⟩

theorem entries_valid {t : Tree} {path : Bytes} (hwf : t.WF path) {e : Bytes × UInt32} (he : e ∈ t.entries) :
    ValidKey e.1 ∧ path <+: e.1 ++ [terminator] :=
  ⟨lookup_valid hwf ((mem_entries (v := e.2) hwf).mp he).2, ((mem_entries (v := e.2) hwf).mp he).1⟩

theorem nodup_entries {t : Tree} {path : Bytes} (hwf : t.WF path) : (t.entries.map Prod.fst).Nodup := by
  induction t generalizing path with
  | nil => exact List.nodup_nil
  | leaf off k value => exact List.nodup_singleton _
  | inner off shape kids ih =>
    rw [entries, List.map_flatMap, List.nodup_flatMap]
    refine ⟨fun b _ ↦ ih b (hwf.2.2.2.2 b), (Shape.nodup_sequence hwf.2.2.1).imp fun {b c} hne ↦ ?_⟩
    intro k hb hc
    obtain ⟨e, he, rfl⟩ := List.mem_map.mp hb
    obtain ⟨e', he', hk⟩ := List.mem_map.mp hc
    have hb' := ((snoc_prefix_iff hwf.2.1).mp (entries_valid (hwf.2.2.2.2 b) he).2).2
    have hc' := ((snoc_prefix_iff hwf.2.1).mp (entries_valid (hwf.2.2.2.2 c) he').2).2
    rw [hk] at hc'
    exact hne (hb'.symm.trans hc')

/-- The entries with a prefix are all under the node that the prefix leads to. -/
theorem under_entries : ∀ {pre : Bytes} {t : Tree} {path : Bytes} {e : Bytes × UInt32},
    t.WF path → path ++ pre <+: e.1 →
    (e ∈ (t.under pre).entries ↔ e ∈ t.entries)
  | [], t, path, e, _, _ => by rw [under_nil]
  | b :: pre, .nil, path, e, _, _ => Iff.rfl
  | b :: pre, .leaf off key value, path, e, _, _ => Iff.rfl
  | b :: pre, .inner off shape kids, path, e, hwf, hpre => by
    have hpre' : (path ++ [b]) ++ pre <+: e.1 := by rwa [List.append_assoc]
    have hbyte : slotByte e.1 path.length = b := by
      have hfront : path ++ [b] <+: e.1 ++ [terminator] :=
        ((List.prefix_append _ pre).trans hpre').trans (List.prefix_append _ _)
      exact ((snoc_prefix_iff hwf.2.1).mp hfront).2
    rw [Tree.under, under_entries (hwf.2.2.2.2 b) hpre', entries, List.mem_flatMap]
    constructor
    · intro he
      refine ⟨b, Shape.mem_sequence.mpr (has_of_ne_nil hwf fun hnil ↦ ?_), he⟩
      rw [hnil] at he
      exact absurd he List.not_mem_nil
    · rintro ⟨c, -, he⟩
      have hc := ((snoc_prefix_iff hwf.2.1).mp (entries_valid (hwf.2.2.2.2 c) he).2).2
      rwa [← hbyte, hc]

/-- The node at the end of a prefix, or a leaf on the way there. -/
theorem wf_under : ∀ (pre : Bytes) {t : Tree} {path : Bytes}, t.WF path →
    (t.under pre).WF (path ++ pre) ∨ ∃ off key value, t.under pre = .leaf off key value ∧ ValidKey key
  | [], t, path, hwf => Or.inl (by rwa [under_nil, List.append_nil])
  | b :: pre, .nil, path, _ => Or.inl trivial
  | b :: pre, .leaf off key value, path, hwf => Or.inr ⟨off, key, value, rfl, hwf.1⟩
  | b :: pre, .inner off shape kids, path, hwf => by
    have h := wf_under pre (hwf.2.2.2.2 b)
    rwa [List.append_assoc] at h

/-- What the rounds find is what the rules take of the entries, when nothing that is cut off belongs to it. -/
theorem reduceOption_visits (hcut : ∀ off shape kids tail, (inner off shape kids).WF (pre ++ tail) → above tail = true →
      ∀ e ∈ (inner off shape kids).entries, takes e.1 = false) {t : Tree} {tail : Bytes} (hwf : t.WF (pre ++ tail)) :
    (t.visits takes above tail).reduceOption = (t.entries.filter fun e ↦ takes e.1).map Prod.snd := by
  induction t generalizing tail with
  | nil => rfl
  | leaf off key value =>
    rw [visits, entries]
    cases htakes : takes key <;> simp [htakes, reduceOption_cons]
  | inner off shape kids ih =>
    rw [visits]
    split_ifs with habove
    · have hnone : (inner off shape kids).entries.filter (fun e ↦ takes e.1) = [] := by
        rw [List.filter_eq_nil_iff]
        intro e he
        simp [hcut off shape kids tail hwf habove e he]
      rw [hnone]
      rfl
    · have henter : ∀ b, ((kids b).enter ((kids b).visits takes above (tail ++ [b]))).reduceOption =
          ((kids b).entries.filter fun e ↦ takes e.1).map Prod.snd := by
        intro b
        rw [← ih b (show (kids b).WF (pre ++ (tail ++ [b])) by rw [← List.append_assoc]; exact hwf.2.2.2.2 b)]
        cases kids b <;> simp [enter, visits, reduceOption_cons]
      rw [List.reduceOption_append, entries, List.filter_flatMap, List.map_flatMap,
        ← List.flatMap_congr fun b _ ↦ henter b]
      simp [List.reduceOption, List.filterMap_flatMap]

theorem length_flatMap_le {f g : UInt8 → List (Option UInt32)} (h : ∀ b, (f b).length ≤ (g b).length)
    (bs : List UInt8) :
    (bs.flatMap f).length ≤ (bs.flatMap g).length := by
  induction bs with
  | nil => exact le_rfl
  | cons b bs ih =>
    rw [List.flatMap_cons, List.flatMap_cons, List.length_append, List.length_append]
    exact Nat.add_le_add (h b) ih

/-- A walk that leaves some nodes at once is not longer. -/
theorem length_visits_le (takes takes' above : Bytes → Bool) : ∀ (t : Tree) (tail : Bytes),
    (t.visits takes above tail).length ≤ (t.visits takes' (fun _ ↦ false) tail).length := by
  intro t
  induction t with
  | nil => exact fun _ ↦ le_rfl
  | leaf off key value => exact fun _ ↦ le_rfl
  | inner off shape kids ih =>
    intro tail
    rw [visits, visits, if_neg Bool.false_ne_true]
    split_ifs
    · simp
    · rw [List.length_append, List.length_append]
      refine Nat.add_le_add_right (length_flatMap_le (fun b ↦ ?_) _) _
      have h := ih b (tail ++ [b])
      cases hkid : kids b with
      | nil => exact le_rfl
      | leaf off key value =>
        rw [hkid] at h
        simpa [enter] using h
      | inner off shape kids =>
        rw [hkid] at h
        simpa [enter] using h

end Entries

end TakyonDb.Art
