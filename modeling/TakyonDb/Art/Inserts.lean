import TakyonDb.Art.Heap
import TakyonDb.Art.Tree

namespace TakyonDb.Art

open Lib Set Heap

namespace Tree

/-- The single-child nodes over `top` for the `n` bytes of the key from `start` on. -/
def links (limit : ℕ) (key : Bytes) (start : ℕ) : ℕ → Tree → Heap → Option (Tree × Heap)
  | 0, top, h => some (top, h)
  | n + 1, top, h =>
    match h.alloc limit SlotKind.node4.size with
    | none => none
    | some (off, h) => links limit key start n (node4 off [(slotByte key (start + n), top)]) h

/-- The entries of the node under which two leaves part at position `p`. -/
def forkEntries (existing key : Bytes) (old new : Tree) (p : ℕ) : List (UInt8 × Tree) :=
  if (existing.length ≤ p ∨ key.length ≤ p) ∧ ¬ existing.length < key.length then
    [(slotByte key p, new), (slotByte existing p, old)]
  else [(slotByte existing p, old), (slotByte key p, new)]

/-- The chain that replaces a leaf at depth `start`. -/
def split (limit : ℕ) (existing key : Bytes) (old new : Tree) (start : ℕ) (h : Heap) :
    Option (Tree × Heap) :=
  let p := splitPoint existing key start
  match h.alloc limit SlotKind.node4.size with
  | none => none
  | some (off, h) =>
    links limit key start (p - start) (node4 off (forkEntries existing key old new p)) h

/-- The node has no entry for the byte and takes one. -/
def Vacant (shape : Shape) (kids : UInt8 → Tree) (b : UInt8) : Prop :=
  match shape with
  | .slots _ keys => b ∉ keys
  | .direct _ => kids b = nil

/-- What a completed insert makes of the tree at `depth` and of the heap. -/
inductive Inserts (limit : ℕ) (key : Bytes) (value : UInt32) (new : Tree) :
    ℕ → Heap → Tree → Tree → Heap → Prop
  | overwrite {depth h off v} :
    Inserts limit key value new depth h (leaf off key v) (leaf off key value) h
  | split {depth h off existing v t h'} (hne : existing ≠ key)
    (hsplit : split limit existing key (leaf off existing v) new depth h = some (t, h')) :
    Inserts limit key value new depth h (leaf off existing v) t h'
  | descend {depth h off shape kids t h'} (hhas : shape.Has (slotByte key depth))
    (hins : Inserts limit key value new (depth + 1) h (kids (slotByte key depth)) t h') :
    Inserts limit key value new depth h (inner off shape kids)
      (inner off shape (Function.update kids (slotByte key depth) t)) h'
  | claim {depth h off shape kids} (hvacant : Vacant shape kids (slotByte key depth))
    (hroom : ¬ shape.Full) :
    Inserts limit key value new depth h (inner off shape kids)
      (inner off (shape.add (slotByte key depth)) (Function.update kids (slotByte key depth) new)) h
  | grow {depth h off kind keys kids off' h'} (hvacant : slotByte key depth ∉ keys)
    (hfull : keys.length = kind.capacity)
    (halloc : h.alloc limit (Shape.slots kind keys).grow.size = some (off', h')) :
    Inserts limit key value new depth h (inner off (.slots kind keys) kids)
      (inner off' ((Shape.slots kind keys).grow.add (slotByte key depth))
        (Function.update kids (slotByte key depth) new)) (h'.quarantine off kind.size)

/-- What the descent of an insert takes from the heap, in bytes: a larger
node for a full one, or the chain that replaces a leaf. -/
def demand (key : Bytes) : Tree → ℕ → ℕ
  | nil, _ => 0
  | leaf _ existing _, depth => if existing = key then 0 else 24 * (splitPoint existing key depth - depth + 1)
  | inner _ shape kids, depth =>
    if shape.Has (slotByte key depth) then (kids (slotByte key depth)).demand key (depth + 1)
    else if shape.Full then shape.grow.size
    else 0

end Tree

section Paths

variable {key existing : Bytes} {d i p : ℕ}

theorem slotByte_of_lt (h : i < key.length) : slotByte key i = key[i] := List.getD_eq_getElem _ _ h

theorem slotByte_of_le (h : key.length ≤ i) : slotByte key i = terminator := List.getD_eq_default _ _ h

theorem slotByte_ne_terminator (hv : ValidKey key) (h : i < key.length) : slotByte key i ≠ terminator := by
  rw [slotByte_of_lt h]
  exact fun heq ↦ hv.2.2 (heq ▸ List.getElem_mem h)

/-- The first bytes of the key and the next slot byte are a path of the key. -/
theorem take_snoc_prefix (h : i ≤ key.length) : key.take i ++ [slotByte key i] <+: key ++ [terminator] := by
  rcases h.lt_or_eq with hlt | rfl
  · rw [slotByte_of_lt hlt, List.take_append_getElem hlt]
    exact (List.take_prefix _ _).trans (List.prefix_append _ _)
  · have hall : key.take key.length ++ [slotByte key key.length] = key ++ [terminator] := by
      rw [List.take_length, slotByte_of_le le_rfl]
    exact hall ▸ List.prefix_rfl

/-- Two keys that share a path share the bytes of the path. -/
theorem path_of_two {path : Bytes} (he : ValidKey existing) (hk : ValidKey key) (hne : existing ≠ key)
    (hpe : path <+: existing ++ [terminator]) (hpk : path <+: key ++ [terminator]) :
    path.length ≤ existing.length ∧ path.length ≤ key.length ∧
      existing.take path.length = path ∧ key.take path.length = path := by
  have hshort : ∀ {a b : Bytes}, ValidKey b → a ≠ b → path <+: a ++ [terminator] →
      path <+: b ++ [terminator] → path.length ≤ a.length := by
    intro a b hb hab hpa hpb
    by_contra hlong
    have hlen := hpa.length_le
    rw [List.length_append, List.length_singleton] at hlen
    have hfull : path = a ++ [terminator] := hpa.eq_of_length (by simp; omega)
    rw [hfull] at hpb
    rcases List.prefix_concat_iff.mp hpb with heq | hin
    · exact hab (List.append_cancel_right heq)
    · exact hb.2.2 (hin.subset (List.mem_append_right _ (List.mem_singleton_self _)))
  have htake : ∀ {a : Bytes}, path.length ≤ a.length → path <+: a ++ [terminator] →
      a.take path.length = path := by
    intro a hle hpa
    have heq := List.prefix_iff_eq_take.mp hpa
    rwa [List.take_append_of_le_length hle, eq_comm] at heq
  have h₁ := hshort hk hne hpe hpk
  have h₂ := hshort he hne.symm hpk hpe
  exact ⟨h₁, h₂, htake h₁ hpe, htake h₂ hpk⟩

theorem splitPoint_spec (existing key : Bytes) (p : ℕ) (he : p ≤ existing.length) (hk : p ≤ key.length)
    (hcommon : existing.take p = key.take p) :
    p ≤ splitPoint existing key p ∧ splitPoint existing key p ≤ existing.length ∧
      splitPoint existing key p ≤ key.length ∧
      existing.take (splitPoint existing key p) = key.take (splitPoint existing key p) ∧
      ¬ (splitPoint existing key p < existing.length ∧ splitPoint existing key p < key.length ∧
        existing.getD (splitPoint existing key p) 0 = key.getD (splitPoint existing key p) 0) := by
  fun_induction splitPoint existing key p with
  | case1 p h ih =>
    obtain ⟨hpe, hpk, hbyte⟩ := h
    have hnext : existing.take (p + 1) = key.take (p + 1) := by
      rw [List.getD_eq_getElem _ _ hpe, List.getD_eq_getElem _ _ hpk] at hbyte
      rw [← List.take_append_getElem hpe, ← List.take_append_getElem hpk, hcommon, hbyte]
    obtain ⟨h₁, h₂⟩ := ih hpe hpk hnext
    exact ⟨(Nat.le_succ p).trans h₁, h₂⟩
  | case2 p h => exact ⟨le_rfl, he, hk, hcommon, h⟩

/-- Two different keys part at the split point. -/
theorem splitPoint_parts (he : ValidKey existing) (hk : ValidKey key) (hne : existing ≠ key)
    (hde : d ≤ existing.length) (hdk : d ≤ key.length) (hcommon : existing.take d = key.take d) :
    ∃ p, splitPoint existing key d = p ∧ d ≤ p ∧ p ≤ existing.length ∧ p ≤ key.length ∧
      p < maxKeyLen ∧ existing.take p = key.take p ∧ slotByte existing p ≠ slotByte key p := by
  obtain ⟨h₁, h₂, h₃, h₄, h₅⟩ := splitPoint_spec existing key d hde hdk hcommon
  generalize splitPoint existing key d = p at *
  have hpart : slotByte existing p ≠ slotByte key p := by
    rcases h₂.lt_or_eq with hpe | hpe <;> rcases h₃.lt_or_eq with hpk | hpk
    · exact fun heq ↦ h₅ ⟨hpe, hpk, heq⟩
    · rw [slotByte_of_le hpk.ge]
      exact slotByte_ne_terminator he hpe
    · rw [slotByte_of_le hpe.ge]
      exact (slotByte_ne_terminator hk hpk).symm
    · rw [hpe, List.take_length, ← hpe, hpk, List.take_length] at h₄
      exact absurd h₄ hne
  have hlt : p < maxKeyLen := by
    by_contra hge
    have := he.2.1
    have := hk.2.1
    rw [slotByte_of_le (by omega), slotByte_of_le (by omega)] at hpart
    exact hpart rfl
  exact ⟨p, rfl, h₁, h₂, h₃, hlt, h₄, hpart⟩

end Paths

namespace Tree

variable {limit depth off n start p : ℕ} {key existing k path : Bytes} {value v : UInt32}
  {old new top t t' : Tree} {h h' : Heap} {kids : UInt8 → Tree} {shape : Shape} {b c : UInt8}

theorem wf_leaf (hv : ValidKey key) (hp : p ≤ key.length) :
    (leaf off key value).WF (key.take p ++ [slotByte key p]) := ⟨hv, take_snoc_prefix hp⟩

theorem wf_node4 {entries : List (UInt8 × Tree)} (hlt : path.length < maxKeyLen) (hnul : terminator ∉ path)
    (hnodup : (entries.map Prod.fst).Nodup) (hroom : entries.length ≤ 4)
    (hkids : ∀ e ∈ entries, e.2.WF (path ++ [e.1])) : (node4 off entries).WF path := by
  refine ⟨hlt, hnul, ⟨hnodup, by rwa [List.length_map]⟩, fun b hb ↦ ?_, fun b ↦ ?_⟩ <;>
    rcases kidsOf_mem entries b with hin | ⟨hout, hnil⟩
  · exact absurd (List.mem_map_of_mem hin) hb
  · exact hnil
  · exact hkids _ hin
  · rw [hnil]
    trivial

theorem link_wf {i : ℕ} (hv : ValidKey key) (hi : i < key.length) (htop : top.WF (key.take (i + 1))) :
    (node4 off [(slotByte key i, top)]).WF (key.take i) := by
  refine wf_node4 ?_ (fun hmem ↦ hv.2.2 (List.mem_of_mem_take hmem)) (by simp) (by simp) ?_
  · have := hv.2.1
    rw [List.length_take]
    omega
  · simp only [List.mem_singleton, forall_eq]
    rwa [slotByte_of_lt hi, List.take_append_getElem hi]

theorem links_wf (hv : ValidKey key) (hend : start + n ≤ key.length)
    (htop : top.WF (key.take (start + n))) (hl : links limit key start n top h = some (t, h')) :
    t.WF (key.take start) := by
  induction n generalizing top h with
  | zero =>
    obtain ⟨rfl, -⟩ := Prod.mk.inj (Option.some.inj hl)
    exact htop
  | succ n ih =>
    rw [links] at hl
    split at hl
    · cases hl
    · exact ih (by omega) (link_wf hv (by omega) htop) hl

theorem links_lookup (hl : links limit key start n top h = some (t, h')) (k : Bytes) :
    t.lookup k start = if ∀ i < n, slotByte k (start + i) = slotByte key (start + i) then
      top.lookup k (start + n) else none := by
  induction n generalizing top h with
  | zero =>
    obtain ⟨rfl, -⟩ := Prod.mk.inj (Option.some.inj hl)
    simp
  | succ n ih =>
    rw [links] at hl
    split at hl
    · cases hl
    · rw [ih hl]
      have hsplit : (∀ i < n + 1, slotByte k (start + i) = slotByte key (start + i)) ↔
          (∀ i < n, slotByte k (start + i) = slotByte key (start + i)) ∧
            slotByte k (start + n) = slotByte key (start + n) := by
        refine ⟨fun hall ↦ ⟨fun i hi ↦ hall i (by omega), hall n (by omega)⟩, fun hall i hi ↦ ?_⟩
        rcases Nat.lt_succ_iff_lt_or_eq.mp hi with hlt | rfl
        · exact hall.1 i hlt
        · exact hall.2
      simp only [hsplit, node4, lookup, kidsOf]
      by_cases hn : slotByte k (start + n) = slotByte key (start + n)
      · simp only [hn, and_true, if_true, Nat.add_assoc]
      · simp only [hn, and_false, if_false, lookup, ite_self]

/-- Either order of the two entries gives the same children. -/
theorem fork_kids (hne : slotByte existing p ≠ slotByte key p) (b : UInt8) :
    kidsOf (forkEntries existing key old new p) b =
      if b = slotByte existing p then old else if b = slotByte key p then new else nil := by
  rw [forkEntries]
  split_ifs with h₁ h₂ h₃ h₂ h₃
  · subst h₂
    simp only [kidsOf, if_neg hne, if_true]
  · simp only [kidsOf, h₃, if_true]
  · simp only [kidsOf, h₂, h₃, if_false]
  · simp only [kidsOf, h₂, if_true]
  · simp only [kidsOf, h₃, if_neg hne.symm, if_true]
  · simp only [kidsOf, h₂, h₃, if_false]

theorem fork_mem {e : UInt8 × Tree} (he : e ∈ forkEntries existing key old new p) :
    e = (slotByte existing p, old) ∨ e = (slotByte key p, new) := by
  rw [forkEntries] at he
  split_ifs at he <;> simp only [List.mem_cons, List.not_mem_nil, or_false] at he
  · exact he.symm
  · exact he

theorem fork_keys (old new : Tree) (hne : slotByte existing p ≠ slotByte key p) :
    ((forkEntries existing key old new p).map Prod.fst).Nodup ∧
      (forkEntries existing key old new p).length = 2 := by
  rw [forkEntries]
  split_ifs <;> simp [hne, hne.symm]

theorem take_congr {i : ℕ} (hcommon : existing.take p = key.take p)
    (hi : i < p) : slotByte existing i = slotByte key i := by
  have hget : (existing.take p)[i]? = (key.take p)[i]? := by rw [hcommon]
  rw [List.getElem?_take_of_lt hi, List.getElem?_take_of_lt hi] at hget
  rw [slotByte, slotByte, List.getD_eq_getElem?_getD, List.getD_eq_getElem?_getD, hget]

theorem fork_wf {newOff forkOff : ℕ} (he : ValidKey existing) (hk : ValidKey key) (hpe : p ≤ existing.length)
    (hpk : p ≤ key.length) (hmax : p < maxKeyLen) (hcommon : existing.take p = key.take p)
    (hpart : slotByte existing p ≠ slotByte key p) :
    (node4 forkOff (forkEntries existing key (leaf off existing v) (leaf newOff key value) p)).WF
      (key.take p) := by
  obtain ⟨hnodup, hlen⟩ := fork_keys (leaf off existing v) (leaf newOff key value) hpart
  refine wf_node4 ?_ (fun hmem ↦ hk.2.2 (List.mem_of_mem_take hmem)) hnodup (by omega) fun e hmem ↦ ?_
  · rw [List.length_take]
    omega
  · rcases fork_mem hmem with rfl | rfl
    · exact hcommon ▸ wf_leaf he hpe
    · exact wf_leaf hk hpk

/-- The chain finds the two leaves and nothing else. -/
theorem split_spec {newOff : ℕ} (he : ValidKey existing) (hk : ValidKey key) (hne : existing ≠ key)
    (hpe : path <+: existing ++ [terminator]) (hpk : path <+: key ++ [terminator])
    (hs : split limit existing key (leaf off existing v) (leaf newOff key value) path.length h =
      some (t, h')) :
    t.WF path ∧ ∀ k, t.lookup k path.length =
      if k = key then some value else if existing = k then some v else none := by
  obtain ⟨hde, hdk, htake, htake'⟩ := path_of_two he hk hne hpe hpk
  obtain ⟨p, hp, hdp, hple, hplk, hmax, hcommon, hpart⟩ :=
    splitPoint_parts he hk hne hde hdk (htake.trans htake'.symm)
  simp only [split, hp] at hs
  split at hs
  · cases hs
  rename_i forkOff h₁ _
  have hsub : path.length + (p - path.length) = p := by omega
  refine ⟨?_, fun k ↦ ?_⟩
  · have hchain : t.WF (key.take path.length) := by
      refine links_wf hk (by rwa [hsub]) ?_ hs
      rw [hsub]
      exact fork_wf he hk hple hplk hmax hcommon hpart
    rwa [htake'] at hchain
  · rw [links_lookup hs, hsub]
    simp only [node4, lookup, fork_kids hpart]
    by_cases hkk : k = key
    · subst hkk
      rw [if_pos fun _ _ ↦ rfl, if_neg hpart.symm, if_pos rfl, if_pos rfl]
      simp only [lookup, if_true]
    · rw [if_neg hkk]
      by_cases hke : existing = k
      · subst hke
        rw [if_pos fun i hi ↦ take_congr hcommon (by omega), if_pos rfl, if_pos rfl]
        simp only [lookup, if_true]
      · rw [if_neg hke]
        split_ifs <;> simp [lookup, hke, Ne.symm hkk]

theorem Vacant.nil (hv : Vacant shape kids b) (habsent : ∀ b, ¬ shape.Has b → kids b = nil) :
    kids b = nil := by
  cases shape with
  | slots kind keys => exact habsent b hv
  | direct count => exact hv

theorem add_has : (shape.add b).Has c ↔ shape.Has c ∨ c = b := by
  cases shape with
  | slots kind keys => simp [Shape.add, Shape.Has]
  | direct count => simp [Shape.add, Shape.Has]

theorem add_sound (hs : shape.Sound) (hv : Vacant shape kids b) (hroom : ¬ shape.Full) :
    (shape.add b).Sound := by
  cases shape with
  | slots kind keys =>
    refine ⟨List.nodup_append.mpr ⟨hs.1, by simp, ?_⟩, ?_⟩
    · rintro a ha c hc rfl
      exact hv (List.mem_singleton.mp hc ▸ ha)
    · have := not_le.mp hroom
      rw [List.length_append, List.length_singleton]
      omega
  | direct count => exact Nat.mod_lt _ (by decide)

theorem grow_has {kind : SlotKind} {keys : List UInt8} (hc : (Shape.slots kind keys).Has c) :
    (Shape.slots kind keys).grow.Has c := by
  cases kind with
  | node4 => exact hc
  | node16 => exact hc
  | node48 => trivial

theorem grow_spec {kind : SlotKind} {keys : List UInt8} (hs : (Shape.slots kind keys).Sound)
    (hv : b ∉ keys) (hnil : kids b = nil) :
    (Shape.slots kind keys).grow.Sound ∧ Vacant (Shape.slots kind keys).grow kids b ∧
      ¬ (Shape.slots kind keys).grow.Full := by
  obtain ⟨hnodup, hroom⟩ := hs
  cases kind with
  | node4 => exact ⟨⟨hnodup, hroom.trans (by decide)⟩, hv, not_le.mpr (hroom.trans_lt (by decide))⟩
  | node16 => exact ⟨⟨hnodup, hroom.trans (by decide)⟩, hv, not_le.mpr (hroom.trans_lt (by decide))⟩
  | node48 => exact ⟨hroom.trans_lt (by decide), hnil, not_false⟩

/-- A child that takes the place of another one keeps the tree well formed. -/
theorem wf_update {shape' : Shape} {off' : ℕ} (hwf : (inner off shape kids).WF path) (hs : shape'.Sound)
    (hhas : ∀ c, shape.Has c ∨ c = b → shape'.Has c) (ht : t.WF (path ++ [b])) :
    (inner off' shape' (Function.update kids b t)).WF path := by
  obtain ⟨hlt, hnul, -, habsent, hkids⟩ := hwf
  refine ⟨hlt, hnul, hs, fun c hc ↦ ?_, fun c ↦ ?_⟩
  · have hne : c ≠ b := fun heq ↦ hc (hhas c (.inr heq))
    rw [Function.update_of_ne hne, habsent c fun hin ↦ hc (hhas c (.inl hin))]
  · rcases eq_or_ne c b with rfl | hne
    · rwa [Function.update_self]
    · rw [Function.update_of_ne hne]
      exact hkids c

/-- The same children under another numbering of the entries. -/
theorem wf_reshape {shape' : Shape} {off' : ℕ} (hwf : (inner off shape kids).WF path) (hs : shape'.Sound)
    (hhas : ∀ c, kids c ≠ nil → shape'.Has c) : (inner off' shape' kids).WF path := by
  obtain ⟨hlt, hnul, -, -, hkids⟩ := hwf
  exact ⟨hlt, hnul, hs, fun c hc ↦ by_contra fun hne ↦ hc (hhas c hne), hkids⟩

theorem lookup_update (off off' : ℕ) (shape shape' : Shape) (kids : UInt8 → Tree) (t : Tree)
    (hsame : ∀ k, t.lookup k (depth + 1) =
      if k = key then some value else (kids (slotByte key depth)).lookup k (depth + 1)) (k : Bytes) :
    (inner off' shape' (Function.update kids (slotByte key depth) t)).lookup k depth =
      if k = key then some value else (inner off shape kids).lookup k depth := by
  simp only [lookup]
  by_cases hb : slotByte k depth = slotByte key depth
  · rw [hb, Function.update_self, hsame]
  · rw [Function.update_of_ne hb, if_neg fun hk ↦ hb (congrArg (slotByte · depth) hk)]

theorem path_of_inner (hwf : (inner off shape kids).WF path) (hp : path <+: key ++ [terminator]) :
    path = key.take path.length ∧ path.length ≤ key.length := by
  have hin : path <+: key := by
    refine (List.prefix_concat_iff.mp hp).resolve_left fun heq ↦ hwf.2.1 ?_
    rw [heq]
    exact List.mem_append_right _ (List.mem_singleton_self _)
  exact ⟨List.prefix_iff_eq_take.mp hin, hin.length_le⟩

theorem path_child (hwf : (inner off shape kids).WF path) (hp : path <+: key ++ [terminator]) :
    path ++ [slotByte key path.length] <+: key ++ [terminator] := by
  obtain ⟨htake, hle⟩ := path_of_inner hwf hp
  rw [htake, List.length_take, min_eq_left hle]
  exact take_snoc_prefix hle

/-- An insert binds its key and leaves every other key as it was. -/
theorem Inserts.spec {newOff : ℕ} (hk : ValidKey key)
    (hi : Inserts limit key value (leaf newOff key value) depth h t t' h') :
    ∀ path, path.length = depth → path <+: key ++ [terminator] → t.WF path →
      t'.WF path ∧ ∀ k, t'.lookup k depth = if k = key then some value else t.lookup k depth := by
  induction hi with
  | overwrite =>
    rintro path - hp -
    refine ⟨⟨hk, hp⟩, fun k ↦ ?_⟩
    simp only [lookup]
    by_cases hkk : k = key
    · rw [if_pos hkk.symm, if_pos hkk]
    · rw [if_neg hkk, if_neg (Ne.symm hkk), if_neg (Ne.symm hkk)]
  | split hne hs =>
    rintro path rfl hp ⟨hv, hpe⟩
    exact split_spec hv hk hne hpe hp hs
  | descend hhas _ ih =>
    rintro path rfl hp hwf
    obtain ⟨hwf', hlookup⟩ := ih (path ++ [slotByte key path.length]) (by simp) (path_child hwf hp)
      (hwf.2.2.2.2 _)
    exact ⟨wf_update hwf hwf.2.2.1 (fun c hc ↦ hc.elim id fun heq ↦ heq ▸ hhas) hwf',
      lookup_update _ _ _ _ _ _ hlookup⟩
  | claim hvacant hroom =>
    rintro path rfl hp hwf
    refine ⟨wf_update hwf (add_sound hwf.2.2.1 hvacant hroom) (fun c hc ↦ add_has.mpr hc)
      ⟨hk, path_child hwf hp⟩, lookup_update _ _ _ _ _ _ fun k ↦ ?_⟩
    rw [hvacant.nil hwf.2.2.2.1]
    simp only [lookup, eq_comm]
  | grow hvacant hfull _ =>
    rintro path rfl hp hwf
    have hnil := hwf.2.2.2.1 _ hvacant
    obtain ⟨hs, hv, hroom⟩ := grow_spec hwf.2.2.1 hvacant hnil
    refine ⟨wf_update hwf (add_sound hs hv hroom)
      (fun c hc ↦ add_has.mpr (hc.imp_left grow_has)) ⟨hk, path_child hwf hp⟩,
      lookup_update _ _ _ _ _ _ fun k ↦ ?_⟩
    rw [hnil]
    simp only [lookup, eq_comm]

end Tree

end TakyonDb.Art
