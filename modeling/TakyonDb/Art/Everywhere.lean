import TakyonDb.Art.InsertCall

namespace TakyonDb.Art

open Lib Set Heap

namespace Tree

variable {limit depth off : ℕ} {key existing : Bytes} {value : UInt32} {new top t t' : Tree} {h h' : Heap}
  {shape : Shape} {kids : UInt8 → Tree} {b : UInt8} {Q : Shape → (UInt8 → Tree) → Prop} {G : Shape → Prop}

/-- Every inner node meets the condition. -/
def Everywhere (Q : Shape → (UInt8 → Tree) → Prop) : Tree → Prop
  | nil => True
  | leaf _ _ _ => True
  | inner _ shape kids => Q shape kids ∧ ∀ b, (kids b).Everywhere Q

/-- The node that takes a new entry for the key, if there is one, meets the condition. -/
def Takes (G : Shape → Prop) (key : Bytes) : Tree → ℕ → Prop
  | nil, _ => True
  | leaf _ _ _, _ => True
  | inner _ shape kids, depth =>
      (Vacant shape kids (slotByte key depth) → G shape) ∧ (kids (slotByte key depth)).Takes G key (depth + 1)

/-- A condition on nodes that inserts keep where the node taking the entry meets the guard. -/
structure Kept (Q : Shape → (UInt8 → Tree) → Prop) (G : Shape → Prop) : Prop where
  node4 : ∀ entries : List (UInt8 × Tree), (∀ e ∈ entries, e.2 ≠ nil) →
    Q (.slots .node4 (entries.map Prod.fst)) (kidsOf entries)
  swap : ∀ shape kids b t, Q shape kids → shape.Has b → kids b ≠ nil → t ≠ nil → Q shape (Function.update kids b t)
  claim : ∀ shape kids b t, Q shape kids → shape.Sound → Vacant shape kids b → G shape → t ≠ nil →
    Q (shape.add b) (Function.update kids b t)
  grow : ∀ kind keys kids b t, Q (.slots kind keys) kids → (Shape.slots kind keys).Sound → b ∉ keys →
    (∀ c ∉ keys, kids c = nil) → t ≠ nil → Q ((Shape.slots kind keys).grow.add b) (Function.update kids b t)

theorem everywhere_leaf (off : ℕ) (key : Bytes) (value : UInt32) : (leaf off key value).Everywhere Q := trivial

theorem everywhere_node4 (hk : Kept Q G) {entries : List (UInt8 × Tree)} (hne : ∀ e ∈ entries, e.2 ≠ nil)
    (hall : ∀ e ∈ entries, e.2.Everywhere Q) : (node4 off entries).Everywhere Q ∧ node4 off entries ≠ nil :=
  ⟨⟨hk.node4 entries hne, kidsOf_spec trivial hall⟩, fun heq ↦ by cases heq⟩

theorem everywhere_update (hkids : ∀ c, (kids c).Everywhere Q) (ht : t.Everywhere Q) (c : UInt8) :
    (Function.update kids b t c).Everywhere Q := by
  rcases eq_or_ne c b with rfl | hne
  · rwa [Function.update_self]
  · rw [Function.update_of_ne hne]
    exact hkids c

theorem links_everywhere (hk : Kept Q G) {start n : ℕ} (htop : top.Everywhere Q) (hne : top ≠ nil)
    (hl : links limit key start n top h = some (t, h')) : t.Everywhere Q ∧ t ≠ nil := by
  induction n generalizing top h with
  | zero =>
    obtain ⟨rfl, -⟩ := Prod.mk.inj (Option.some.inj hl)
    exact ⟨htop, hne⟩
  | succ n ih =>
    rw [links] at hl
    split at hl
    · cases hl
    · have hone : ∀ e ∈ [(slotByte key (start + n), top)], e.2 ≠ nil := by simpa using hne
      obtain ⟨hall, hne'⟩ := everywhere_node4 hk hone (by simpa using htop)
      exact ih hall hne' hl

theorem split_everywhere (hk : Kept Q G) {start : ℕ} {old : Tree} (hold : old.Everywhere Q) (hnew : new.Everywhere Q)
    (hold' : old ≠ nil) (hnew' : new ≠ nil) (hs : split limit existing key old new start h = some (t, h')) :
    t.Everywhere Q ∧ t ≠ nil := by
  rw [split] at hs
  generalize splitPoint existing key start = p at hs
  split at hs
  · cases hs
  · have hne : ∀ e ∈ forkEntries existing key old new p, e.2 ≠ nil := fun e he ↦ by
      rcases fork_mem he with rfl | rfl
      · exact hold'
      · exact hnew'
    have hall : ∀ e ∈ forkEntries existing key old new p, e.2.Everywhere Q := fun e he ↦ by
      rcases fork_mem he with rfl | rfl
      · exact hold
      · exact hnew
    obtain ⟨hfork, hfork'⟩ := everywhere_node4 hk hne hall
    exact links_everywhere hk hfork hfork' hs

/-- What inserts keep at one node they keep in the whole tree. -/
theorem Inserts.everywhere (hk : Kept Q G) (hnew : new.Everywhere Q) (hnew' : new ≠ nil)
    (hi : Inserts limit key value new depth h t t' h') :
    ∀ path, path.length = depth → t.WF path → t.Takes G key depth → t.Everywhere Q → t'.Everywhere Q ∧ t' ≠ nil := by
  induction hi with
  | overwrite => exact fun _ _ _ _ _ ↦ ⟨trivial, fun heq ↦ by cases heq⟩
  | split hne hs =>
    exact fun _ _ _ _ hold ↦ split_everywhere hk hold hnew (fun heq ↦ by cases heq) hnew' hs
  | @descend depth h off shape kids t h' hhas hins ih =>
    rintro path rfl hwf ⟨-, htakes⟩ ⟨hq, hkids⟩
    obtain ⟨ht, hne⟩ := ih (path ++ [slotByte key path.length]) (by simp) (hwf.2.2.2.2 _) htakes (hkids _)
    refine ⟨⟨hk.swap _ _ _ _ hq hhas ?_ hne, everywhere_update hkids ht⟩, fun heq ↦ by cases heq⟩
    rintro hnil
    rw [hnil] at hins
    cases hins
  | claim hvacant hroom =>
    rintro path rfl hwf ⟨hguard, -⟩ ⟨hq, hkids⟩
    exact ⟨⟨hk.claim _ _ _ _ hq hwf.2.2.1 hvacant (hguard hvacant) hnew', everywhere_update hkids hnew⟩,
      fun heq ↦ by cases heq⟩
  | grow hvacant hfull halloc =>
    rintro path rfl hwf - ⟨hq, hkids⟩
    exact ⟨⟨hk.grow _ _ _ _ _ hq hwf.2.2.1 hvacant hwf.2.2.2.1 hnew', everywhere_update hkids hnew⟩,
      fun heq ↦ by cases heq⟩

theorem takes_trivial (key : Bytes) : ∀ (t : Tree) (depth : ℕ), t.Takes (fun _ ↦ True) key depth
  | nil, _ => trivial
  | leaf _ _ _, _ => trivial
  | inner _ _ _, _ => ⟨fun _ ↦ trivial, takes_trivial key _ _⟩

/-- No entry of a node that numbers its children has lost its child. -/
def Bound (shape : Shape) (kids : UInt8 → Tree) : Prop :=
  ∀ b, shape.Has b → shape.type ≠ .node256 → kids b ≠ nil

theorem bound_kept : Kept Bound fun _ ↦ True where
  node4 entries hall b hhas _ := by
    rcases kidsOf_mem entries b with hin | ⟨hout, -⟩
    · exact hall _ hin
    · exact absurd hhas hout
  swap shape kids b t hq _ _ ht c hhas htype := by
    rcases eq_or_ne c b with rfl | hne
    · rwa [Function.update_self]
    · rw [Function.update_of_ne hne]
      exact hq c hhas htype
  claim shape kids b t hq _ _ _ ht c hhas htype := by
    rcases eq_or_ne c b with rfl | hne
    · rwa [Function.update_self]
    · rw [Function.update_of_ne hne]
      refine hq c ((add_has.mp hhas).resolve_right hne) fun htype' ↦ htype ?_
      cases shape with
      | slots kind keys => exact htype'
      | direct count => rfl
  grow kind keys kids b t hq _ _ _ ht c hhas htype := by
    rcases eq_or_ne c b with rfl | hne
    · rwa [Function.update_self]
    · rw [Function.update_of_ne hne]
      cases kind with
      | node48 => exact absurd rfl htype
      | node4 => exact hq c ((add_has.mp hhas).resolve_right hne) (fun htype' ↦ by cases htype')
      | node16 => exact hq c ((add_has.mp hhas).resolve_right hne) (fun htype' ↦ by cases htype')

/-- A descent gets stuck only at an entry that has lost its child. -/
theorem Everywhere.not_stuck (key : Bytes) : ∀ {t : Tree} (depth : ℕ), t.Everywhere Bound → ¬ t.Stuck key depth
  | nil, _, _ => id
  | leaf _ _ _, _, _ => id
  | inner _ _ _, depth, ⟨hq, hkids⟩ => by
    rintro (⟨hhas, htype, hnil⟩ | hstuck)
    · exact hq _ hhas htype hnil
    · exact Everywhere.not_stuck key (depth + 1) (hkids _) hstuck

end Tree

end TakyonDb.Art
