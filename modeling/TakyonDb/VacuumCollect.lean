import Mathlib.Data.List.Nodup
import Mathlib.Data.List.Perm.Subperm
import TakyonDb.Art.Search
import TakyonDb.Vacuum

namespace TakyonDb.Art

open Lib Set

namespace Shape

/-- The bytes of a node in the order in which the collector comes to its children. -/
def order : Shape → List UInt8
  | slots _ keys => keys.reverse
  | direct _ => ((List.range 256).map UInt8.ofNat).reverse

theorem nodup_order {shape : Shape} (hs : shape.Sound) : shape.order.Nodup := by
  cases shape with
  | slots kind keys => exact List.nodup_reverse.mpr hs.1
  | direct count =>
    refine List.nodup_reverse.mpr (List.nodup_range.map_on ?_)
    intro i hi j hj hij
    have hi' := List.mem_range.mp hi
    have hj' := List.mem_range.mp hj
    have hnat := congrArg UInt8.toNat hij
    simp only [UInt8.toNat_ofNat'] at hnat
    omega

end Shape

namespace Tree

/-- The offsets that the leaves bind, in the order of the collector. -/
def values : Tree → List UInt32
  | nil => []
  | leaf _ _ value => [value]
  | inner _ shape kids => shape.order.flatMap fun b ↦ (kids b).values

/-- The addresses of the nodes, in the same order. -/
def nodes : Tree → List ℕ
  | nil => []
  | leaf off _ _ => [off]
  | inner off shape kids => off :: shape.order.flatMap fun b ↦ (kids b).nodes

theorem nodes_foot {limit a : ℕ} : ∀ {t : Tree}, a ∈ t.nodes → t.Laid limit → a ∈ t.foot ∧ a % 8 = 0 ∧ a + 8 ≤ limit
  | .nil, ha, _ => absurd ha List.not_mem_nil
  | .leaf off key value, ha, hl => by
    have hsize := Heap.le_alignSize (leafHeader + key.length)
    have hfit := hl.2
    have hheader : leafHeader = 8 := rfl
    obtain rfl := List.mem_singleton.mp ha
    refine ⟨⟨le_rfl, ?_⟩, hl.1, ?_⟩
    · omega
    · omega
  | .inner off shape kids, ha, ⟨hal, _, hfit, _, _, hlaid⟩ => by
    have hsize := shape.size_pos
    rcases List.mem_cons.mp ha with rfl | hkid
    · refine ⟨.inl ⟨le_rfl, ?_⟩, hal, ?_⟩
      · omega
      · omega
    · obtain ⟨b, _, hb⟩ := List.mem_flatMap.mp hkid
      obtain ⟨hfoot, hrest⟩ := nodes_foot hb (hlaid b)
      exact ⟨.inr (mem_iUnion.mpr ⟨b, hfoot⟩), hrest⟩

theorem nodup_nodes {limit : ℕ} : ∀ {t : Tree} {path : Bytes}, t.WF path → t.Laid limit → t.nodes.Nodup
  | .nil, _, _, _ => List.nodup_nil
  | .leaf _ _ _, _, _, _ => List.nodup_singleton _
  | .inner off shape kids, path, ⟨_, _, hs, _, hwf⟩, ⟨_, _, _, hoff, hkids, hlaid⟩ => by
    have hsize := shape.size_pos
    refine List.nodup_cons.mpr ⟨?_, List.nodup_flatMap.mpr ⟨?_, ?_⟩⟩
    · intro hmem
      obtain ⟨b, _, hb⟩ := List.mem_flatMap.mp hmem
      exact disjoint_left.mp (hoff b) ⟨le_rfl, by omega⟩ (nodes_foot hb (hlaid b)).1
    · intro b _
      exact nodup_nodes (hwf b) (hlaid b)
    · refine (Shape.nodup_order hs).imp ?_
      intro b c hne a hb hc
      exact disjoint_left.mp (hkids b c hne) (nodes_foot hb (hlaid b)).1 (nodes_foot hc (hlaid c)).1

/-- Each node takes eight bytes of the arena for itself. -/
theorem length_nodes_le {limit : ℕ} {t : Tree} {path : Bytes} (hwf : t.WF path) (hl : t.Laid limit) :
    t.nodes.length ≤ limit / 8 := by
  have hnodup : (t.nodes.map (· / 8)).Nodup := by
    refine (nodup_nodes hwf hl).map_on ?_
    intro a ha b hb hab
    have := (nodes_foot ha hl).2.1
    have := (nodes_foot hb hl).2.1
    omega
  have hsub : t.nodes.map (· / 8) ⊆ List.range (limit / 8) := by
    intro i hi
    obtain ⟨a, ha, rfl⟩ := List.mem_map.mp hi
    have := (nodes_foot ha hl).2.2
    exact List.mem_range.mpr (by omega)
  have hle := (List.subperm_of_subset hnodup hsub).length_le
  simpa only [List.length_map, List.length_range] using hle

end Tree

end TakyonDb.Art

namespace TakyonDb.Vacuum

open Lib Art

variable {mem : Bytes}

/-- The words that are pushed for the children of a node. -/
def kidWords (shape : Shape) (kids : UInt8 → Tree) : List ℕ :=
  ((shape.order.reverse.map fun b ↦ (kids b).raw).filter (· ≠ 0))

theorem visitSlots_eq {kind : SlotKind} {off : ℕ} {keys : List UInt8} {kids : UInt8 → Tree}
    (hnode : NodeAt mem off (fun b ↦ (kids b).raw) (.slots kind keys)) (hs : (Shape.slots kind keys).Sound)
    (hfit : off + kind.size ≤ mem.length) : visitSlots mem kind off = kidWords (.slots kind keys) kids := by
  obtain ⟨hcount, _, hchild⟩ := hnode
  obtain ⟨hnodup, hroom⟩ := hs
  have hwords : ((List.range keys.length).map fun i ↦ readU32 mem (kind.child off i)) =
      keys.map fun b ↦ (kids b).raw := by
    apply List.ext_getElem
    · simp only [List.length_map, List.length_range]
    · intro i hi hi'
      have hlt : i < keys.length := by simpa only [List.length_map] using hi'
      have hslot := hchild keys[i] (List.getElem_mem hlt)
      simp only [hnodup.idxOf_getElem] at hslot
      simpa only [List.getElem_map, List.getElem_range] using hslot
  simp only [visitSlots, if_neg (not_lt.mpr hfit), hcount, min_eq_left hroom, hwords, kidWords, Shape.order,
    List.reverse_reverse]

theorem visitDirect_eq {off count : ℕ} {kids : UInt8 → Tree}
    (hnode : NodeAt mem off (fun b ↦ (kids b).raw) (.direct count)) (hfit : off + node256Size ≤ mem.length) :
    visitDirect mem off = kidWords (.direct count) kids := by
  have hwords : ((List.range 256).map fun i ↦ readU32 mem (off + 16 + 4 * i)) =
      ((List.range 256).map UInt8.ofNat).map fun b ↦ (kids b).raw := by
    rw [List.map_map]
    refine List.map_congr_left ?_
    intro i hi
    have hlt := List.mem_range.mp hi
    have hslot := hnode.2 (UInt8.ofNat i)
    simp only [child256, UInt8.toNat_ofNat', Nat.mod_eq_of_lt hlt] at hslot
    exact hslot
  simp only [visitDirect, if_neg (not_lt.mpr hfit), hwords, kidWords, Shape.order, List.reverse_reverse]

theorem visit_leaf {off : ℕ} {key : Bytes} {value : UInt32} (hst : Stored mem (.leaf off key value))
    (hl : (Tree.leaf off key value).Laid mem.length) :
    visit mem (Tree.leaf off key value).raw = some ([value], []) := by
  obtain ⟨_, hvalue, _⟩ := hst
  have hfit := hl.leaf_fits
  have hheader : leafHeader = 8 := rfl
  have hne : off + NodeType.leaf.tag ≠ 0 := by simp only [NodeType.tag]; omega
  have hin : ¬ mem.length ≤ off := by omega
  have hin' : ¬ mem.length < off + leafHeader := by omega
  simp only [visit, Tree.raw, if_neg hne, getOffset_tag hl.1, getType_tag hl.1, if_neg hin, visitLeaf,
    if_neg hin', hvalue, UInt32.ofNat_toNat]

theorem visit_inner {off : ℕ} {shape : Shape} {kids : UInt8 → Tree} {path : Bytes}
    (hst : Stored mem (.inner off shape kids)) (hwf : (Tree.inner off shape kids).WF path)
    (hl : (Tree.inner off shape kids).Laid mem.length) :
    visit mem (Tree.inner off shape kids).raw = some ([], kidWords shape kids) := by
  obtain ⟨hnode, _⟩ := hst
  obtain ⟨_, _, hs, _⟩ := hwf
  have hne := raw_ne_zero hl (nofun)
  obtain ⟨hal, _, hfit, _⟩ := hl
  have hsize := shape.size_pos
  have hin : ¬ mem.length ≤ off := by omega
  simp only [Tree.raw] at hne
  cases shape with
  | direct count =>
    simp only [Shape.type] at hne
    simp only [visit, Tree.raw, Shape.type, if_neg hne, getOffset_tag hal, getType_tag hal, if_neg hin,
      visitDirect_eq hnode hfit]
  | slots kind keys =>
    simp only [Shape.type] at hne
    have hslots := visitSlots_eq hnode hs hfit
    cases kind <;> simp only [SlotKind.type] at hne <;>
      simp only [visit, Tree.raw, Shape.type, SlotKind.type, if_neg hne, getOffset_tag hal, getType_tag hal,
        if_neg hin, hslots]

/-- A tree that waits on the stack of the collector. -/
structure Waits (mem : Bytes) (t : Tree) : Prop where
  stored : Stored mem t
  wf : ∃ path, t.WF path
  laid : t.Laid mem.length
  ne_nil : t ≠ .nil

/-- The children that wait once their parent is visited. -/
def waiting (shape : Shape) (kids : UInt8 → Tree) : List Tree :=
  (shape.order.map kids).filter fun t ↦ t.raw ≠ 0

theorem reverse_kidWords (shape : Shape) (kids : UInt8 → Tree) :
    (kidWords shape kids).reverse = (waiting shape kids).map Tree.raw := by
  simp only [kidWords, waiting, List.filter_map, List.map_map, ← List.filter_reverse, ← List.map_reverse,
    List.reverse_reverse, Function.comp_def]

theorem waiting_waits {off : ℕ} {shape : Shape} {kids : UInt8 → Tree} {t : Tree}
    (hw : Waits mem (.inner off shape kids)) (ht : t ∈ waiting shape kids) : Waits mem t := by
  obtain ⟨⟨_, hst⟩, ⟨path, _, _, _, _, hwf⟩, ⟨_, _, _, _, _, hlaid⟩, _⟩ := hw
  obtain ⟨hmem, hne⟩ := List.mem_filter.mp ht
  obtain ⟨b, _, rfl⟩ := List.mem_map.mp hmem
  refine ⟨hst b, ⟨_, hwf b⟩, hlaid b, ?_⟩
  intro hnil
  simp [hnil, Tree.raw] at hne

/-- What a function that is empty on `nil` collects from the children is what it collects from those that wait. -/
theorem flatMap_waiting {α : Type} {shape : Shape} {kids : UInt8 → Tree} {f : Tree → List α} (hnil : f .nil = [])
    (hl : ∀ b, (kids b).Laid mem.length) :
    (waiting shape kids).flatMap f = shape.order.flatMap fun b ↦ f (kids b) := by
  rw [waiting]
  induction shape.order with
  | nil => rfl
  | cons b bs ih =>
    simp only [List.map_cons, List.filter_cons, List.flatMap_cons, ← ih]
    by_cases hb : kids b = .nil
    · simp [hb, hnil, Tree.raw]
    · have hne := raw_ne_zero (hl b) hb
      simp [hne]

/-- The loop comes to the leaves of all trees on the stack, if its budget covers their nodes. -/
theorem traverseLoop_eq (budget : ℕ) : ∀ (ts : List Tree) (list : List UInt32), (∀ t ∈ ts, Waits mem t) →
    (ts.flatMap Tree.nodes).length ≤ budget →
    traverseLoop mem budget (ts.map Tree.raw) list = some (list ++ ts.flatMap Tree.values) := by
  induction budget with
  | zero =>
    intro ts list hts hbudget
    cases ts with
    | nil => simp [traverseLoop]
    | cons t ts =>
      have ht := hts t List.mem_cons_self
      cases t with
      | nil => exact absurd rfl ht.ne_nil
      | leaf off key value => simp [Tree.nodes] at hbudget
      | inner off shape kids => simp [Tree.nodes] at hbudget
  | succ budget ih =>
    intro ts list hts hbudget
    cases ts with
    | nil => simp [traverseLoop]
    | cons t ts =>
      have ht := hts t List.mem_cons_self
      have hrest : ∀ t ∈ ts, Waits mem t := fun t hmem ↦ hts t (List.mem_cons_of_mem _ hmem)
      cases t with
      | nil => exact absurd rfl ht.ne_nil
      | leaf off key value =>
        have hle : (ts.flatMap Tree.nodes).length ≤ budget := by
          simp only [List.flatMap_cons, Tree.nodes, List.length_append, List.length_singleton] at hbudget
          omega
        simp only [List.map_cons, traverseLoop, visit_leaf ht.stored ht.laid, List.reverse_nil, List.nil_append,
          ih ts _ hrest hle, List.flatMap_cons, Tree.values, List.append_assoc]
      | inner off shape kids =>
        obtain ⟨path, hwf⟩ := ht.wf
        have hlaid : ∀ b, (kids b).Laid mem.length := ht.laid.2.2.2.2.2
        have hwait : ∀ t ∈ waiting shape kids ++ ts, Waits mem t := by
          intro t hmem
          rcases List.mem_append.mp hmem with hkid | htail
          · exact waiting_waits ht hkid
          · exact hrest t htail
        have hle : ((waiting shape kids ++ ts).flatMap Tree.nodes).length ≤ budget := by
          simp only [List.flatMap_cons, Tree.nodes, List.length_append, List.length_cons] at hbudget
          simp only [List.flatMap_append, flatMap_waiting (f := Tree.nodes) rfl hlaid, List.length_append]
          omega
        have hloop := ih _ list hwait hle
        simp only [List.flatMap_append, flatMap_waiting (f := Tree.values) rfl hlaid, List.map_append] at hloop
        simp only [List.map_cons, traverseLoop, visit_inner ht.stored hwf ht.laid, reverse_kidWords,
          List.append_nil, hloop, List.flatMap_cons, Tree.values]

/-- The memory holds an index with the given tree. -/
structure Indexes (mem : Bytes) (ix : ArtIndex) (root : Tree) : Prop where
  stored : Stored mem root
  word : readU32 mem ix.rootPtrOffset = root.raw
  wf : root.WF []
  laid : root.Laid mem.length

theorem Indexes.liveRecords {ix : ArtIndex} {root : Tree} (h : Indexes mem ix root) :
    liveRecords mem ix = some root.values := by
  by_cases hnil : root = .nil
  · simp [Vacuum.liveRecords, h.word, hnil, Tree.raw, Tree.values]
  · have hne := raw_ne_zero h.laid hnil
    have hnodes := Tree.length_nodes_le h.wf h.laid
    have hwait : ∀ t ∈ [root], Waits mem t := by
      intro t ht
      obtain rfl := List.mem_singleton.mp ht
      exact ⟨h.stored, ⟨_, h.wf⟩, h.laid, hnil⟩
    have hloop := traverseLoop_eq (mem.length / 8 + 16) [root] [] hwait (by simpa using by omega)
    simpa [Vacuum.liveRecords, h.word, hne, traverseCollect] using hloop

end TakyonDb.Vacuum
