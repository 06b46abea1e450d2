import TakyonDb.Art.Nodes

namespace TakyonDb.Art

open Lib

/-- `ArtIndex.init`: the bump word is claimed when it is still zero. -/
def init (bumpAllocOffset arenaStart : ℕ) (mem : Bytes) : Bytes :=
  if readU32 mem bumpAllocOffset = 0 then writeU32 mem bumpAllocOffset arenaStart else mem

def validateKey (key : Bytes) : ArtM Unit := do
  if key.length = 0 ∨ maxKeyLen < key.length then fail .invalidKey
  if terminator ∈ key then fail .invalidKey

variable (ix : ArtIndex)

/-- Where the existing key and the new one part, from position `p` on. -/
def splitPoint (existing key : Bytes) (p : ℕ) : ℕ :=
  if h : p < existing.length ∧ p < key.length ∧ existing.getD p 0 = key.getD p 0 then
    splitPoint existing key (p + 1)
  else p
termination_by key.length - p

def writeFork (off : ℕ) (b₀ : UInt8) (raw₀ : ℕ) (b₁ : UInt8) (raw₁ : ℕ) : ArtM Unit := do
  storeByte (off + SlotKind.node4.keysOffset) b₀.toNat
  store (SlotKind.node4.child off 0) raw₀
  storeByte (off + SlotKind.node4.keysOffset + 1) b₁.toNat
  store (SlotKind.node4.child off 1) raw₁

/-- The two entries of the node under which the keys part. The shorter key
of a prefix case parks under the terminator. -/
def buildFork (off : ℕ) (existingKey key : Bytes) (existing newLeaf p : ℕ) : ArtM Unit :=
  if existingKey.length ≤ p ∨ key.length ≤ p then
    if existingKey.length < key.length then
      writeFork off terminator existing (key.getD p 0) newLeaf
    else writeFork off terminator newLeaf (existingKey.getD p 0) existing
  else writeFork off (existingKey.getD p 0) existing (key.getD p 0) newLeaf

/-- The single-child nodes over `top` for the `n` bytes of the key that
start at `start`, the last of them first. -/
def buildLinks (key : Bytes) (start : ℕ) : ℕ → ℕ → ArtM ℕ
  | 0, top => pure top
  | n + 1, top => do
    let off ← allocZeroed ix SlotKind.node4.size
    nodeAt off SlotKind.node4.size
    storeByte (off + SlotKind.node4.keysOffset) (key.getD (start + n) 0).toNat
    store (SlotKind.node4.child off 0) top
    storeByte off 1
    buildLinks key start n (← newPtr off .node4)

def buildSplit (existingOff : ℕ) (key : Bytes) (newLeaf depth : ℕ) : ArtM ℕ := do
  let existingKey ← leafKeyBytes existingOff (← leafKeyLen existingOff)
  let p := splitPoint existingKey key (depth + 1)
  if key.length < p ∨ existingKey.length < p then fail .unsupportedNodeType
  let existing ← newPtr existingOff .leaf
  let off ← allocZeroed ix SlotKind.node4.size
  nodeAt off SlotKind.node4.size
  buildFork off existingKey key existing newLeaf p
  storeByte off 2
  buildLinks ix key (depth + 1) (p - (depth + 1)) (← newPtr off .node4)

/-- Where the descent goes after a child slot: nowhere, since the insert
is complete, into an inner node, or back to the root. -/
inductive DescendResult
  | done
  | child (raw : ℕ)
  | lost

def descendOrSplit (slot : ℕ) (key : Bytes) (value : UInt32) (newLeaf depth : ℕ) :
    ArtM DescendResult := do
  let child ← load slot
  if child = 0 then return .lost
  if (← getType child) ≠ .leaf then return .child child
  let off := ArtPtr.getOffset child
  if ← leafKeyEql off key then
    nodeAt off leafHeader
    store (off + 4) value.toNat
    return .done
  let chain ← buildSplit ix off key newLeaf depth
  return if ← cmpxchg slot child chain then .done else .lost

/-- The new node that takes over the entries of a full one. -/
def growNode (kind : SlotKind) (off : ℕ) : ArtM ℕ := do
  nodeAt off kind.size
  let count ← loadByte off
  if kind.capacity < count then fail .unsupportedNodeType
  match kind with
  | .node4 =>
    let dst ← allocZeroed ix SlotKind.node16.size
    nodeAt dst SlotKind.node16.size
    update fun mem ↦ overwrite mem (dst + SlotKind.node16.keysOffset)
      (slice mem (off + SlotKind.node4.keysOffset) count)
    update fun mem ↦ overwrite mem (SlotKind.node16.child dst 0)
      (slice mem (SlotKind.node4.child off 0) (4 * count))
    storeByte dst count
    newPtr dst .node16
  | .node16 =>
    let dst ← allocZeroed ix SlotKind.node48.size
    nodeAt dst SlotKind.node48.size
    loop (fun i _ ↦ do
      let b ← loadByte (off + SlotKind.node16.keysOffset + i)
      storeByte (dst + SlotKind.node48.keysOffset + b) (i + 1)
      store (SlotKind.node48.child dst i) (← load (SlotKind.node16.child off i))) count ()
    storeByte dst count
    newPtr dst .node48
  | .node48 =>
    let dst ← allocZeroed ix node256Size
    nodeAt dst node256Size
    let n ← loop (fun b n ↦ do
      let s ← loadByte (off + SlotKind.node48.keysOffset + b)
      if s = 0 then return n
      store (child256 dst (UInt8.ofNat b)) (← load (← childSlot .node48 off (s - 1)))
      return n + 1) 256 0
    storeU16 dst n
    newPtr dst .node256

/-- A position of the descent: the slot that was followed, what it held,
and the depth of the node there. -/
structure Cursor where
  link : ℕ
  cur : ℕ
  depth : ℕ

inductive Progress
  | done
  | descend (next : Cursor)
  | restart

/-- One round of the inner loop at an occupied child slot. -/
def followSlot (slot : ℕ) (key : Bytes) (value : UInt32) (newLeaf depth : ℕ) : ArtM Progress := do
  match ← descendOrSplit ix slot key value newLeaf depth with
  | .done => return .done
  | .child raw => return .descend ⟨slot, raw, depth + 1⟩
  | .lost => return .restart

/-- One round of the inner loop at a `Node4`, `Node16` or `Node48`. -/
def insertSlotted (kind : SlotKind) (off : ℕ) (b : UInt8) (key : Bytes) (value : UInt32)
    (newLeaf : ℕ) (c : Cursor) : ArtM Progress := do
  nodeAt off kind.size
  match ← findSlot kind off b with
  | some slot => followSlot ix (← childSlot kind off slot) key value newLeaf c.depth
  | none =>
    let count ← loadByte off
    if kind.capacity ≤ count then
      let grown ← growNode ix kind off
      if ← cmpxchg c.link c.cur grown then
        quarantine off kind.size
        return .descend { c with cur := grown }
      return .restart
    storeByte off (count + 1)
    storeKey kind off count b
    store (kind.child off count) newLeaf
    return .done

def insert256 (off : ℕ) (b : UInt8) (key : Bytes) (value : UInt32) (newLeaf : ℕ) (c : Cursor) :
    ArtM Progress := do
  nodeAt off node256Size
  if (← load (child256 off b)) ≠ 0 then
    followSlot ix (child256 off b) key value newLeaf c.depth
  else if ← cmpxchg (child256 off b) 0 newLeaf then
    let count ← loadU16 off
    storeU16 off ((count + 1) % 2 ^ 16)
    return .done
  else return .restart

def insertStep (key : Bytes) (value : UInt32) (newLeaf : ℕ) (c : Cursor) : ArtM Progress := do
  if (← load c.link) ≠ c.cur then return .restart
  let off := ArtPtr.getOffset c.cur
  let b := slotByte key c.depth
  match ← getType c.cur with
  | .leaf =>
    if ← leafKeyEql off key then
      nodeAt off leafHeader
      store (off + 4) value.toNat
      return .done
    let chain ← buildSplit ix off key newLeaf 0
    return if ← cmpxchg c.link c.cur chain then .done else .restart
  | .node4 => insertSlotted ix .node4 off b key value newLeaf c
  | .node16 => insertSlotted ix .node16 off b key value newLeaf c
  | .node48 => insertSlotted ix .node48 off b key value newLeaf c
  | .node256 => insert256 ix off b key value newLeaf c

/-- The restart loop. Without a cursor it stands at the label `restart`. -/
def insertLoop (key : Bytes) (value : UInt32) (newLeaf : ℕ) : ℕ → Option Cursor → ArtM Unit
  | 0, _ => throw .outOfFuel
  | fuel + 1, none => do
    let cur ← load ix.rootPtrOffset
    if cur = 0 then insertLoop key value newLeaf fuel none
    else insertLoop key value newLeaf fuel (some ⟨ix.rootPtrOffset, cur, 0⟩)
  | fuel + 1, some c => do
    match ← insertStep ix key value newLeaf c with
    | .done => return
    | .descend next => insertLoop key value newLeaf fuel (some next)
    | .restart => insertLoop key value newLeaf fuel none

def ensureRoot (rootSlot : ℕ) : ArtM Unit := do
  if (← load rootSlot) = 0 then
    let off ← allocZeroed ix SlotKind.node4.size
    let _ ← cmpxchg rootSlot 0 (← newPtr off .node4)

def insert (key : Bytes) (value : UInt32) (fuel : ℕ) : ArtM Unit := do
  validateKey key
  if (← arenaLen) ≤ value.toNat then fail .invalidKey
  ensureRoot ix (← u32Slot ix.rootPtrOffset)
  let leaf ← allocLeaf ix key value
  insertLoop ix key value (← newPtr leaf .leaf) fuel none

/-- The child of an inner node for a byte, as `search` reads it. -/
def searchChild (mem : Bytes) (ntype : NodeType) (off : ℕ) (b : UInt8) : Option ℕ :=
  let count := (byteAt mem off).toNat
  let matches_ (keysOffset i : ℕ) := byteAt mem (off + keysOffset + i) == b
  match ntype with
  | .leaf => none
  | .node4 =>
    if mem.length < off + SlotKind.node4.size ∨ 4 < count then none
    else ((List.range count).find? (matches_ SlotKind.node4.keysOffset)).map fun pos ↦
      readU32 mem (SlotKind.node4.child off pos)
  | .node16 =>
    if mem.length < off + SlotKind.node16.size ∨ 16 < count then none
    else (((List.range 16).find? (matches_ SlotKind.node16.keysOffset)).filter (· < count)).map
      fun pos ↦ readU32 mem (SlotKind.node16.child off pos)
  | .node48 =>
    let s := (byteAt mem (off + SlotKind.node48.keysOffset + b.toNat)).toNat
    if mem.length < off + SlotKind.node48.size ∨ 48 < count ∨ s = 0 ∨ count < s then none
    else some (readU32 mem (SlotKind.node48.child off (s - 1)))
  | .node256 =>
    if mem.length < off + node256Size then none else some (readU32 mem (child256 off b))

def searchLeaf (mem : Bytes) (off : ℕ) (key : Bytes) : Option UInt32 :=
  if mem.length < off + leafHeader then none
  else if readU32 mem off ≠ key.length then none
  else if mem.length < off + leafHeader + key.length then none
  else if slice mem (off + leafHeader) key.length = key then
    some (UInt32.ofNat (readU32 mem (off + 4)))
  else none

def searchLoop (mem key : Bytes) : ℕ → ℕ → ℕ → Except Stop (Option UInt32)
  | 0, _, _ => .error .outOfFuel
  | fuel + 1, cur, depth =>
    let off := ArtPtr.getOffset cur
    if mem.length ≤ off then .ok none
    else
      match ArtPtr.getType cur with
      | none => .error .illegal
      | some .leaf => .ok (searchLeaf mem off key)
      | some ntype =>
        match searchChild mem ntype off (slotByte key depth) with
        | none | some 0 => .ok none
        | some child => searchLoop mem key fuel child (depth + 1)

def search (key : Bytes) (fuel : ℕ) (mem : Bytes) : Except Stop (Option UInt32) :=
  if key.length = 0 ∨ maxKeyLen < key.length ∨ terminator ∈ key then .ok none
  else if mem.length < ix.rootPtrOffset + 4 then .ok none
  else if readU32 mem ix.rootPtrOffset = 0 then .ok none
  else searchLoop mem key fuel (readU32 mem ix.rootPtrOffset) 0

/-- `deleteChild` on a node that numbers its children: the last entry
moves into the freed slot. -/
def deleteSlotted (kind : SlotKind) (off : ℕ) (b : UInt8) : ArtM Unit := do
  nodeAt off kind.size
  match ← findSlot kind off b with
  | none => fail .outOfMemory
  | some pos =>
    let count ← loadByte off
    if count = 0 then throw .illegal
    let last := count - 1
    match kind with
    | .node48 =>
      if pos ≠ last then
        store (← childSlot kind off pos) (← load (← childSlot kind off last))
        let mem := (← get).mem
        match (List.range 256).find? fun c ↦ (byteAt mem (off + kind.keysOffset + c)).toNat == last + 1 with
        | some c => storeByte (off + kind.keysOffset + c) (pos + 1)
        | none => pure ()
      storeByte (off + kind.keysOffset + b.toNat) 0
    | _ =>
      storeByte (off + kind.keysOffset + pos) (← loadByte (off + kind.keysOffset + last))
      store (← childSlot kind off pos) (← load (← childSlot kind off last))
      storeByte (off + kind.keysOffset + last) 0
      store (kind.child off last) 0
    storeByte off last

def delete256 (off : ℕ) (b : UInt8) : ArtM Unit := do
  nodeAt off node256Size
  store (child256 off b) 0
  let count ← loadU16 off
  if 0 < count then storeU16 off (count - 1)

def deleteChild (ntype : NodeType) (off : ℕ) (b : UInt8) : ArtM Unit :=
  match ntype with
  | .node4 => deleteSlotted .node4 off b
  | .node16 => deleteSlotted .node16 off b
  | .node48 => deleteSlotted .node48 off b
  | .node256 => delete256 off b
  | .leaf => fail .unsupportedNodeType

def shrink256to48 (off : ℕ) : ArtM ℕ := do
  nodeAt off node256Size
  let dst ← allocZeroed ix SlotKind.node48.size
  nodeAt dst SlotKind.node48.size
  let slots ← loop (fun b slot ↦ do
    let child ← load (child256 off (UInt8.ofNat b))
    if child = 0 then return slot
    if 48 ≤ slot then fail .unsupportedNodeType
    storeByte (dst + SlotKind.node48.keysOffset + b) (slot + 1)
    store (SlotKind.node48.child dst slot) child
    return slot + 1) 256 0
  storeByte dst slots
  newPtr dst .node48

def shrink48to16 (off : ℕ) : ArtM ℕ := do
  nodeAt off SlotKind.node48.size
  let dst ← allocZeroed ix SlotKind.node16.size
  nodeAt dst SlotKind.node16.size
  let n ← loop (fun b n ↦ do
    let s ← loadByte (off + SlotKind.node48.keysOffset + b)
    if s = 0 then return n
    if 48 < s then fail .unsupportedNodeType
    let child ← load (SlotKind.node48.child off (s - 1))
    if child = 0 then return n
    if 16 ≤ n then fail .unsupportedNodeType
    storeByte (dst + SlotKind.node16.keysOffset + n) b
    store (SlotKind.node16.child dst n) child
    return n + 1) 256 0
  storeByte dst n
  newPtr dst .node16

def shrink16to4 (off : ℕ) : ArtM ℕ := do
  nodeAt off SlotKind.node16.size
  let count ← loadByte off
  if 4 < count then fail .unsupportedNodeType
  let dst ← allocZeroed ix SlotKind.node4.size
  nodeAt dst SlotKind.node4.size
  loop (fun i _ ↦ do
    storeByte (dst + SlotKind.node4.keysOffset + i) (← loadByte (off + SlotKind.node16.keysOffset + i))
    store (SlotKind.node4.child dst i) (← load (SlotKind.node16.child off i))) count ()
  storeByte dst count
  newPtr dst .node4

/-- A node on the path of a removal: the slot that holds it and its pointer. -/
structure Link where
  slot : ℕ
  raw : ℕ
  ntype : NodeType

/-- The bound below which a node is replaced by a smaller one; a `Node4` has none. -/
def shrinkBound : NodeType → ℕ
  | .node16 => shrink16To4
  | .node48 => shrink48To16
  | .node256 => shrink256To48
  | _ => 0

def nodeSize : NodeType → ℕ
  | .node4 => SlotKind.node4.size
  | .node16 => SlotKind.node16.size
  | .node48 => SlotKind.node48.size
  | .node256 => node256Size
  | .leaf => leafHeader

def loadCount (ntype : NodeType) (off : ℕ) : ArtM ℕ :=
  match ntype with
  | .node256 => loadU16 off
  | _ => loadByte off

def shrinkNode (ntype : NodeType) (off : ℕ) : ArtM ℕ :=
  match ntype with
  | .node256 => shrink256to48 ix off
  | .node48 => shrink48to16 ix off
  | .node16 => shrink16to4 ix off
  | _ => fail .unsupportedNodeType

/-- One round of `collapseEmpty`. It is true when the loop goes on to the parent. -/
def collapseNode (isRoot : Bool) (link : Link) : ArtM Bool := do
  let cur ← load link.slot
  if cur ≠ link.raw then return false
  let ntype ← getType cur
  if ntype ≠ link.ntype ∨ ntype = .leaf then return false
  let off := ArtPtr.getOffset cur
  match ← attempt (nodeAt off (nodeSize ntype)) with
  | none => return false
  | some () =>
    let count ← loadCount ntype off
    if count = 0 then
      if isRoot then return false
      if ← cmpxchg link.slot cur 0 then
        quarantine off (nodeSize ntype)
        return true
      return false
    else if count ≤ shrinkBound ntype then
      match ← attempt (shrinkNode ix ntype off) with
      | none => return false
      | some shrunk =>
        if ← cmpxchg link.slot cur shrunk then
          quarantine off (nodeSize ntype)
          return true
        return false
    else return false

/-- The links stand with the deepest first, so that the root's is the last. -/
def collapseEmpty : List Link → ArtM Unit
  | [] => pure ()
  | link :: links => do
    if ← collapseNode ix links.isEmpty link then collapseEmpty links

def childSlotPtr (ntype : NodeType) (off : ℕ) (b : UInt8) : ArtM ℕ :=
  let slotted (kind : SlotKind) : ArtM ℕ := do
    nodeAt off kind.size
    match ← findSlot kind off b with
    | none => fail .outOfMemory
    | some pos => childSlot kind off pos
  match ntype with
  | .node4 => slotted .node4
  | .node16 => slotted .node16
  | .node48 => slotted .node48
  | .node256 => do
    nodeAt off node256Size
    return child256 off b
  | .leaf => fail .unsupportedNodeType

/-- The child for a byte, as `remove` reads it; `none` when the node has no entry for it. -/
def removeChild (ntype : NodeType) (off : ℕ) (b : UInt8) : ArtM (Option ℕ) :=
  let slotted (kind : SlotKind) : ArtM (Option ℕ) := do
    nodeAt off kind.size
    let count ← loadByte off
    if kind.capacity < count then fail .unsupportedNodeType
    match ← findSlot kind off b with
    | none => return none
    | some pos =>
      if kind = .node48 ∧ count ≤ pos then fail .unsupportedNodeType
      return some (← load (← childSlot kind off pos))
  match ntype with
  | .node4 => slotted .node4
  | .node16 => slotted .node16
  | .node48 => slotted .node48
  | .node256 => do
    nodeAt off node256Size
    return some (← load (child256 off b))
  | .leaf => fail .unsupportedNodeType

/-- The descent of `remove`. `links` holds the nodes above the current one,
the deepest first, and `room` the levels that are left. Without a value it restarts. -/
def removeLoop (key : Bytes) : ℕ → ℕ → List Link → ℕ → ArtM (Option Bool)
  | 0, _, _, _ => fail .invalidKey
  | room + 1, slot, links, cur => do
    if (← load slot) ≠ cur then return none
    let ntype ← getType cur
    if ntype = .leaf then fail .unsupportedNodeType
    let off := ArtPtr.getOffset cur
    if (← arenaLen) ≤ off then fail .outOfMemory
    let b := slotByte key links.length
    match ← removeChild ntype off b with
    | none | some 0 => return some false
    | some child =>
      let links := ⟨slot, cur, ntype⟩ :: links
      if (← getType child) = .leaf then
        if (← attempt (leafKeyEql (ArtPtr.getOffset child) key)) ≠ some true then return some false
        match ← attempt (deleteChild ntype off b) with
        | none => return none
        | some () =>
          collapseEmpty ix links
          return some true
      if room = 0 then fail .invalidKey
      match ← attempt (childSlotPtr ntype off b) with
      | none => return none
      | some next =>
        if (← load next) ≠ child then return none
        removeLoop key room next links child

def removeAttempts (key : Bytes) (rootSlot : ℕ) : ℕ → ArtM Bool
  | 0 => fail .lockContention
  | attempts + 1 => do
    let cur ← load rootSlot
    if cur = 0 then return false
    if (← getType cur) = .leaf then
      if (← attempt (leafKeyEql (ArtPtr.getOffset cur) key)) ≠ some true then return false
      if ← cmpxchg rootSlot cur 0 then return true
      removeAttempts key rootSlot attempts
    else
      match ← removeLoop ix key maxDepth rootSlot [] cur with
      | some removed => return removed
      | none => removeAttempts key rootSlot attempts

def remove (key : Bytes) : ArtM Bool := do
  validateKey key
  removeAttempts ix key (← u32Slot ix.rootPtrOffset) maxDeleteRetries

end TakyonDb.Art
