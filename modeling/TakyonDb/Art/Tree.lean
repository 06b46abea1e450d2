import TakyonDb.Art.Heap

namespace TakyonDb.Art

open Lib Set

/-- How an inner node numbers its children: by slots that its keys are
bound to in order, or directly by the byte with a count beside them. -/
inductive Shape
  | slots (kind : SlotKind) (keys : List UInt8)
  | direct (count : ℕ)

namespace Shape

def type : Shape → NodeType
  | slots kind _ => kind.type
  | direct _ => .node256

def size : Shape → ℕ
  | slots kind _ => kind.size
  | direct _ => node256Size

/-- The node has an entry for the byte, whether a child hangs there or not. -/
def Has : Shape → UInt8 → Prop
  | slots _ keys, b => b ∈ keys
  | direct _, _ => True

instance (shape : Shape) (b : UInt8) : Decidable (shape.Has b) :=
  match shape with
  | slots _ keys => inferInstanceAs (Decidable (b ∈ keys))
  | direct _ => inferInstanceAs (Decidable True)

/-- The address of the child word for a byte. -/
def slotOf (off : ℕ) (b : UInt8) : Shape → ℕ
  | slots kind keys => kind.child off (keys.idxOf b)
  | direct _ => child256 off b

def Full : Shape → Prop
  | slots kind keys => kind.capacity ≤ keys.length
  | direct _ => False

instance (shape : Shape) : Decidable shape.Full :=
  match shape with
  | slots kind keys => inferInstanceAs (Decidable (kind.capacity ≤ keys.length))
  | direct _ => inferInstanceAs (Decidable False)

def add (b : UInt8) : Shape → Shape
  | slots kind keys => slots kind (keys ++ [b])
  | direct count => direct ((count + 1) % 2 ^ 16)

def grow : Shape → Shape
  | slots .node4 keys => slots .node16 keys
  | slots .node16 keys => slots .node48 keys
  | slots .node48 keys => direct keys.length
  | direct count => direct count

def Sound : Shape → Prop
  | slots kind keys => keys.Nodup ∧ keys.length ≤ kind.capacity
  | direct count => count < 2 ^ 16

theorem size_pos (shape : Shape) : 24 ≤ shape.size := by
  cases shape with
  | slots kind keys => cases kind <;> simp [size, SlotKind.size]
  | direct count => exact (by decide : 24 ≤ node256Size)

end Shape

/-- The index as a tree, with the addresses of its nodes. -/
inductive Tree
  | nil
  | leaf (off : ℕ) (key : Bytes) (value : UInt32)
  | inner (off : ℕ) (shape : Shape) (kids : UInt8 → Tree)

def ValidKey (key : Bytes) : Prop := key ≠ [] ∧ key.length ≤ maxKeyLen ∧ terminator ∉ key

namespace Tree

def raw : Tree → ℕ
  | nil => 0
  | leaf off _ _ => off + NodeType.leaf.tag
  | inner off shape _ => off + shape.type.tag

def lookup (key : Bytes) : Tree → ℕ → Option UInt32
  | nil, _ => none
  | leaf _ k v, _ => if k = key then some v else none
  | inner _ _ kids, depth => (kids (slotByte key depth)).lookup key (depth + 1)

def IsInner : Tree → Prop
  | inner _ _ _ => True
  | _ => False

/-- The entries are where the path of their keys leads. -/
def WF : Tree → Bytes → Prop
  | nil, _ => True
  | leaf _ key _, path => ValidKey key ∧ path <+: key ++ [terminator]
  | inner _ shape kids, path => path.length < maxKeyLen ∧ terminator ∉ path ∧ shape.Sound ∧
      (∀ b, ¬ shape.Has b → kids b = nil) ∧ ∀ b, (kids b).WF (path ++ [b])

/-- The addresses of the nodes. -/
def foot : Tree → Set ℕ
  | nil => ∅
  | leaf off key _ => Ico off (off + alignSize (leafHeader + key.length))
  | inner off shape kids => Ico off (off + shape.size) ∪ ⋃ b, (kids b).foot

/-- The nodes are aligned, lie inside the arena and share no address. -/
def Laid (limit : ℕ) : Tree → Prop
  | nil => True
  | leaf off key _ => off % 8 = 0 ∧ off + alignSize (leafHeader + key.length) ≤ limit
  | inner off shape kids => off % 8 = 0 ∧ 0 < off ∧ off + shape.size ≤ limit ∧
      (∀ b, Disjoint (Ico off (off + shape.size)) (kids b).foot) ∧
      (∀ b c, b ≠ c → Disjoint (kids b).foot (kids c).foot) ∧ ∀ b, (kids b).Laid limit

def kidsOf : List (UInt8 × Tree) → UInt8 → Tree
  | [], _ => nil
  | (b, t) :: entries, c => if c = b then t else kidsOf entries c

/-- A `Node4` with the given entries. -/
def node4 (off : ℕ) (entries : List (UInt8 × Tree)) : Tree :=
  inner off (.slots .node4 (entries.map Prod.fst)) (kidsOf entries)

theorem kidsOf_mem (entries : List (UInt8 × Tree)) (b : UInt8) :
    (b, kidsOf entries b) ∈ entries ∨ b ∉ entries.map Prod.fst ∧ kidsOf entries b = nil := by
  induction entries with
  | nil => exact .inr ⟨List.not_mem_nil, rfl⟩
  | cons e entries ih =>
    obtain ⟨c, t⟩ := e
    rw [kidsOf]
    split_ifs with hb
    · exact .inl (hb ▸ List.mem_cons_self)
    · rcases ih with hin | ⟨hout, hnil⟩
      · exact .inl (List.mem_cons_of_mem _ hin)
      · exact .inr ⟨by simp only [List.map_cons, List.mem_cons, not_or]; exact ⟨hb, hout⟩, hnil⟩

end Tree

end TakyonDb.Art
