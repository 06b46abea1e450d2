import TakyonDb.Lib.Memory

namespace TakyonDb.Art

open Lib

abbrev maxKeyLen : ℕ := 256
abbrev terminator : UInt8 := 0
abbrev shrink256To48 : ℕ := 32
abbrev shrink48To16 : ℕ := 10
abbrev shrink16To4 : ℕ := 3
abbrev maxDeleteRetries : ℕ := 32
abbrev maxDepth : ℕ := maxKeyLen + 1
abbrev leafHeader : ℕ := 8
abbrev node256Size : ℕ := 1040
abbrev stackCap : ℕ := 1024

inductive ArtError
  | invalidKey | outOfMemory | unsupportedNodeType | lockContention
deriving DecidableEq

/-- Why a call stops without a value: an error of the code, an operation
that the language forbids, or the end of the fuel. -/
inductive Stop
  | error (e : ArtError)
  | illegal
  | outOfFuel
deriving DecidableEq

inductive NodeType
  | node4 | node16 | node48 | node256 | leaf
deriving DecidableEq

def NodeType.tag : NodeType → ℕ
  | .node4 => 0
  | .node16 => 1
  | .node48 => 2
  | .node256 => 3
  | .leaf => 4

/-- The node types that number their children and look a byte up. -/
inductive SlotKind
  | node4 | node16 | node48
deriving DecidableEq

namespace SlotKind

def type : SlotKind → NodeType
  | .node4 => .node4
  | .node16 => .node16
  | .node48 => .node48

def size : SlotKind → ℕ
  | .node4 => 24
  | .node16 => 96
  | .node48 => 464

def capacity : SlotKind → ℕ
  | .node4 => 4
  | .node16 => 16
  | .node48 => 48

/-- Where `keys` starts, or `child_index` in a `Node48`. -/
def keysOffset : SlotKind → ℕ
  | .node4 => 4
  | .node16 => 16
  | .node48 => 16

def childrenOffset : SlotKind → ℕ
  | .node4 => 8
  | .node16 => 32
  | .node48 => 272

/-- The address of a child slot. -/
def child (kind : SlotKind) (off slot : ℕ) : ℕ := off + kind.childrenOffset + 4 * slot

end SlotKind

abbrev child256 (off : ℕ) (b : UInt8) : ℕ := off + 16 + 4 * b.toNat

namespace ArtPtr

def getOffset (raw : ℕ) : ℕ := raw / 8 * 8

def getType (raw : ℕ) : Option NodeType :=
  match raw % 8 with
  | 0 => some .node4
  | 1 => some .node16
  | 2 => some .node48
  | 3 => some .node256
  | 4 => some .leaf
  | _ => none

end ArtPtr

def alignSize (size : ℕ) : ℕ := (size + 7) / 8 * 8

/-- The orphaned nodes by size, the newest first. -/
structure Freelist where
  reuseEnabled : Bool
  stackOf : ℕ → List ℕ

namespace Freelist

def classSizes : List ℕ := [24, 96, 464, 1040]

def quarantine (off size : ℕ) (free : Freelist) : Freelist :=
  if size ∉ classSizes then free
  else if stackCap ≤ (free.stackOf size).length then free
  else { free with stackOf := Function.update free.stackOf size (off :: free.stackOf size) }

def reuse (size : ℕ) (free : Freelist) : Option (ℕ × Freelist) :=
  if ¬ free.reuseEnabled then none
  else if size ∉ classSizes then none
  else
    match free.stackOf size with
    | [] => none
    | off :: rest => some (off, { free with stackOf := Function.update free.stackOf size rest })

end Freelist

structure ArtState where
  mem : Bytes
  free : Freelist

abbrev ArtM := EStateM Stop ArtState

structure ArtIndex where
  rootPtrOffset : ℕ
  bumpAllocOffset : ℕ

def fail {α : Type} (e : ArtError) : ArtM α := throw (.error e)

/-- An error of the code is caught; what it changed before stays. -/
def attempt {α : Type} (x : ArtM α) : ArtM (Option α) := fun s ↦
  match x s with
  | .ok a s => .ok (some a) s
  | .error (.error _) s => .ok none s
  | .error stop s => .error stop s

/-- Runs `f 0`, …, `f (n - 1)` in this order. -/
def loop {α : Type} (f : ℕ → α → ArtM α) : ℕ → α → ArtM α
  | 0, a => pure a
  | n + 1, a => do f n (← loop f n a)

def arenaLen : ArtM ℕ := do return (← get).mem.length

def load (addr : ℕ) : ArtM ℕ := do return readU32 (← get).mem addr

def loadByte (addr : ℕ) : ArtM ℕ := do return (byteAt (← get).mem addr).toNat

def loadU16 (addr : ℕ) : ArtM ℕ := do return readU16 (← get).mem addr

def update (f : Bytes → Bytes) : ArtM Unit := modify fun s ↦ { s with mem := f s.mem }

def store (addr v : ℕ) : ArtM Unit := update fun mem ↦ writeU32 mem addr v

def storeByte (addr v : ℕ) : ArtM Unit := update fun mem ↦ setByte mem addr (UInt8.ofNat v)

def storeU16 (addr v : ℕ) : ArtM Unit := update fun mem ↦ writeU16 mem addr v

def cmpxchg (addr expected new : ℕ) : ArtM Bool := do
  if (← load addr) = expected then
    store addr new
    return true
  else return false

def quarantine (off size : ℕ) : ArtM Unit :=
  modify fun s ↦ { s with free := s.free.quarantine off (alignSize size) }

def newPtr (off : ℕ) (ntype : NodeType) : ArtM ℕ := do
  if off % 8 ≠ 0 then throw .illegal
  return off ||| ntype.tag

def getType (raw : ℕ) : ArtM NodeType :=
  match ArtPtr.getType raw with
  | some ntype => pure ntype
  | none => throw .illegal

def u32Slot (addr : ℕ) : ArtM ℕ := do
  if (← arenaLen) < addr + 4 then fail .outOfMemory
  if addr % 4 ≠ 0 then throw .illegal
  return addr

/-- The checks that come before a node of `size` bytes is read at `off`. -/
def nodeAt (off size : ℕ) : ArtM Unit := do
  if (← arenaLen) < off + size then fail .outOfMemory
  if off % 4 ≠ 0 then throw .illegal

def reuse (size : ℕ) : ArtM (Option ℕ) := do
  match (← get).free.reuse size with
  | none => return none
  | some (off, free) =>
    modify fun s ↦ { s with free }
    return some off

variable (ix : ArtIndex)

def bumpNode (size : ℕ) : ArtM ℕ := do
  let bump ← u32Slot ix.bumpAllocOffset
  let cur ← load bump
  let stop := cur + size
  if (← arenaLen) < stop then fail .outOfMemory
  if 2 ^ 32 ≤ stop then throw .illegal
  store bump stop
  return cur

def allocNode (size : ℕ) : ArtM ℕ := do
  let alignedSize := alignSize size
  match ← reuse alignedSize with
  | none => bumpNode ix alignedSize
  | some off => if off + alignedSize ≤ (← arenaLen) then return off else bumpNode ix alignedSize

def allocZeroed (size : ℕ) : ArtM ℕ := do
  let off ← allocNode ix size
  update fun mem ↦ overwrite mem off (zeros size)
  return off

/-- Checks that the key of a leaf lies inside the arena. -/
def leafKeyBytes (off keyLen : ℕ) : ArtM Bytes := do
  if (← arenaLen) < off + leafHeader + keyLen then fail .outOfMemory
  return slice (← get).mem (off + leafHeader) keyLen

def allocLeaf (key : Bytes) (value : UInt32) : ArtM ℕ := do
  let off ← allocNode ix (leafHeader + key.length)
  nodeAt off leafHeader
  store off key.length
  store (off + 4) value.toNat
  let _ ← leafKeyBytes off key.length
  update fun mem ↦ overwrite mem (off + leafHeader) key
  return off

/-- The key length of a leaf that the code reads without a bounds check. -/
def leafKeyLen (off : ℕ) : ArtM ℕ := do
  if (← arenaLen) < off + leafHeader then throw .illegal
  load off

def leafKeyEql (off : ℕ) (key : Bytes) : ArtM Bool := do
  let keyLen ← leafKeyLen off
  if keyLen ≠ key.length then return false
  return (← leafKeyBytes off keyLen) = key

/-- `findPos` of `Node4` and `Node16`, `findSlot` of `Node48`. -/
def findSlot (kind : SlotKind) (off : ℕ) (b : UInt8) : ArtM (Option ℕ) := do
  let mem := (← get).mem
  let count ← loadByte off
  let matches_ (i : ℕ) := byteAt mem (off + kind.keysOffset + i) == b
  match kind with
  | .node4 =>
    match (List.range (min count 4)).find? matches_ with
    | some pos => return some pos
    | none => if 4 < count then throw .illegal else return none
  | .node16 => return ((List.range 16).find? matches_).filter (· < count)
  | .node48 =>
    let s ← loadByte (off + kind.keysOffset + b.toNat)
    return if s = 0 then none else some (s - 1)

/-- The address of a child slot inside the array. -/
def childSlot (kind : SlotKind) (off slot : ℕ) : ArtM ℕ := do
  if kind.capacity ≤ slot then throw .illegal
  return kind.child off slot

/-- Binds a byte to a slot number. -/
def storeKey (kind : SlotKind) (off slot : ℕ) (b : UInt8) : ArtM Unit :=
  match kind with
  | .node48 => storeByte (off + kind.keysOffset + b.toNat) (slot + 1)
  | _ => storeByte (off + kind.keysOffset + slot) b.toNat

/-- The byte of the key that a node at `depth` branches on. -/
def slotByte (key : Bytes) (depth : ℕ) : UInt8 := key.getD depth terminator

end TakyonDb.Art
