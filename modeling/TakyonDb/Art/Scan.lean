import TakyonDb.Art.Endings
import TakyonDb.Lib.Walk

namespace TakyonDb.Art

open Lib Set Heap Art.Tree

abbrev maxScanVisits : ℕ := 65536

/-- The child word that the descent of a scan reads, or zero; nothing at a node that cannot be read. -/
def childAt (mem : Bytes) (ntype : NodeType) (off : ℕ) (b : UInt8) : Option ℕ :=
  let count := (byteAt mem off).toNat
  let matches_ (keysOffset i : ℕ) := byteAt mem (off + keysOffset + i) == b
  match ntype with
  | .leaf => none
  | .node4 =>
    if mem.length < off + SlotKind.node4.size ∨ 4 < count then none
    else some (((List.range count).find? (matches_ SlotKind.node4.keysOffset)).elim 0 fun pos ↦
      readU32 mem (SlotKind.node4.child off pos))
  | .node16 =>
    if mem.length < off + SlotKind.node16.size ∨ 16 < count then none
    else some ((((List.range 16).find? (matches_ SlotKind.node16.keysOffset)).filter (· < count)).elim 0 fun pos ↦
      readU32 mem (SlotKind.node16.child off pos))
  | .node48 =>
    let s := (byteAt mem (off + SlotKind.node48.keysOffset + b.toNat)).toNat
    if mem.length < off + SlotKind.node48.size ∨ 48 < count then none
    else if s = 0 ∨ count < s then some 0
    else some (readU32 mem (SlotKind.node48.child off (s - 1)))
  | .node256 => if mem.length < off + node256Size then none else some (readU32 mem (child256 off b))

structure Child where
  raw : ℕ
  byte : UInt8

/-- The first child in the slots from `pos` on, and the slot behind it. -/
def nextSlot (child : ℕ → Option Child) (pos stop : ℕ) : Option (Child × ℕ) :=
  (List.range' pos (stop - pos)).findSome? fun i ↦ (child i).map (·, i + 1)

def nextChild (mem : Bytes) (ntype : NodeType) (off pos : ℕ) : Option (Child × ℕ) :=
  let count := (byteAt mem off).toNat
  let child (addr : ℕ) (b : UInt8) : Option Child :=
    if readU32 mem addr = 0 then none else some ⟨readU32 mem addr, b⟩
  match ntype with
  | .leaf => none
  | .node4 =>
    if mem.length < off + SlotKind.node4.size then none
    else nextSlot (fun i ↦ child (SlotKind.node4.child off i) (byteAt mem (off + SlotKind.node4.keysOffset + i))) pos
      (min count 4)
  | .node16 =>
    if mem.length < off + SlotKind.node16.size then none
    else nextSlot (fun i ↦ child (SlotKind.node16.child off i) (byteAt mem (off + SlotKind.node16.keysOffset + i))) pos
      (min count 16)
  | .node48 =>
    if mem.length < off + SlotKind.node48.size then none
    else nextSlot (fun i ↦
      let s := (byteAt mem (off + SlotKind.node48.keysOffset + i)).toNat
      if s = 0 ∨ 48 < s then none else child (SlotKind.node48.child off (s - 1)) (UInt8.ofNat i)) pos 256
  | .node256 =>
    if mem.length < off + node256Size then none
    else nextSlot (fun i ↦ child (child256 off (UInt8.ofNat i)) (UInt8.ofNat i)) pos 256

def leafStartsWith (mem : Bytes) (off : ℕ) (pre : Bytes) : Bool :=
  let keyLen := readU32 mem off
  if mem.length < off + leafHeader ∨ keyLen < pre.length ∨ mem.length < off + leafHeader + keyLen then false
  else pre.isPrefixOf (slice mem (off + leafHeader) keyLen)

/-- `std.mem.order` on bytes. -/
def order : Bytes → Bytes → Ordering
  | [], [] => .eq
  | [], _ :: _ => .lt
  | _ :: _, [] => .gt
  | a :: as, b :: bs => if a < b then .lt else if b < a then .gt else order as bs

/-- An empty bound leaves its side open. -/
def suffixInBounds (suffix lo hi : Bytes) : Bool :=
  if 0 < lo.length ∧ order suffix lo = .lt then false
  else if 0 < hi.length ∧ order suffix hi = .gt then false
  else true

def leafInRange (mem : Bytes) (off : ℕ) (pre lo hi : Bytes) : Bool :=
  let keyLen := readU32 mem off
  if mem.length < off + leafHeader ∨ keyLen < pre.length ∨ mem.length < off + leafHeader + keyLen then false
  else if ¬ pre.isPrefixOf (slice mem (off + leafHeader) keyLen) then false
  else suffixInBounds ((slice mem (off + leafHeader) keyLen).drop pre.length) lo hi

structure Frame where
  raw : ℕ
  pos : ℕ
  depth : ℕ

/-- The stack with its top first, and the bytes taken on the way to the top. -/
structure ScanState where
  stack : List Frame
  path : Bytes

/-- Where the two scans differ: which leaves they take, which paths they leave at once, and where they find the stack
too deep. -/
structure ScanRules where
  takes : ℕ → Bool
  above : Bytes → ℕ → Bool
  tooDeep : ℕ → ℕ → Bool

/-- The prefix scan keeps neither a path nor a depth, so its rules do not look at them. -/
def prefixRules (mem pre : Bytes) : ScanRules where
  takes off := leafStartsWith mem off pre
  above _ _ := false
  tooDeep sp _ := maxDepth ≤ sp

def rangeRules (mem pre lo hi : Bytes) : ScanRules where
  takes off := leafInRange mem off pre lo hi
  above path depth := 0 < hi.length ∧ pre.length ≤ depth ∧ order (slice path pre.length (depth - pre.length)) hi = .gt
  tooDeep sp childDepth := maxDepth ≤ sp ∨ maxDepth ≤ childDepth

variable (rules : ScanRules)

def scanRound (mem : Bytes) (st : ScanState) : Except Stop (Round ScanState UInt32) :=
  match st.stack with
  | [] => .ok .ended
  | top :: rest =>
    let off := ArtPtr.getOffset top.raw
    match ArtPtr.getType top.raw with
    | none => .error .illegal
    | some .leaf =>
      .ok (.moved (if rules.takes off then some (UInt32.ofNat (readU32 mem (off + 4))) else none) ⟨rest, st.path⟩)
    | some ntype =>
      if rules.above st.path top.depth then .ok (.moved none ⟨rest, st.path⟩)
      else
        match nextChild mem ntype off top.pos with
        | none => .ok (.moved none ⟨rest, st.path⟩)
        | some (c, pos) =>
          let top := { top with pos }
          if c.raw = 0 then .ok (.moved none ⟨top :: rest, st.path⟩)
          else if rules.tooDeep st.stack.length (top.depth + 1) then .ok .ended
          else .ok (.moved none ⟨⟨c.raw, 0, top.depth + 1⟩ :: top :: rest, st.path.set top.depth c.byte⟩)

/-- Where the descent along a prefix ends: at a node, or before it with what is found there. -/
inductive Descent
  | node (raw : ℕ)
  | ended (found : List UInt32)

def scanDescend (mem : Bytes) : Bytes → ℕ → Except Stop Descent
  | [], cur => .ok (.node cur)
  | b :: bs, cur =>
    let off := ArtPtr.getOffset cur
    match ArtPtr.getType cur with
    | none => .error .illegal
    | some .leaf => .ok (.ended (if rules.takes off then [UInt32.ofNat (readU32 mem (off + 4))] else []))
    | some ntype =>
      match childAt mem ntype off b with
      | none | some 0 => .ok (.ended [])
      | some child => scanDescend mem bs child

/-- The offsets that a scan finds, and whether it came to the end of its walk. -/
def scan (ix : ArtIndex) (pre : Bytes) (cap : ℕ) (mem : Bytes) : Except Stop (List UInt32 × Bool) :=
  if cap = 0 then .ok ([], false)
  else if mem.length < ix.rootPtrOffset + 4 ∨ readU32 mem ix.rootPtrOffset = 0 then .ok ([], true)
  else
    match scanDescend rules mem pre (readU32 mem ix.rootPtrOffset) with
    | .error stop => .error stop
    | .ok (.ended found) => .ok (found, true)
    | .ok (.node cur) =>
      match walk (scanRound rules mem) (fun st ↦ st.stack.isEmpty) cap maxScanVisits []
        ⟨[⟨cur, 0, pre.length⟩], zeros maxDepth⟩ with
      | .error stop => .error stop
      | .ok w => .ok (w.found, w.state.stack.isEmpty)

/-- A prefix scan with the way it ended. -/
def prefixWalk (ix : ArtIndex) (pre : Bytes) (cap : ℕ) (mem : Bytes) : Except Stop (List UInt32 × Bool) :=
  if pre.length = 0 ∨ maxKeyLen < pre.length ∨ terminator ∈ pre then .ok ([], true)
  else scan (prefixRules mem pre) ix pre cap mem

def scanPrefix (ix : ArtIndex) (pre : Bytes) (cap : ℕ) (mem : Bytes) : Except Stop (List UInt32) :=
  (prefixWalk ix pre cap mem).map Prod.fst

def scanRange (ix : ArtIndex) (pre lo hi : Bytes) (cap : ℕ) (mem : Bytes) : Except Stop (List UInt32) :=
  if pre.length = 0 ∨ maxKeyLen < pre.length then .ok []
  else if maxKeyLen < lo.length ∨ maxKeyLen < hi.length then .ok []
  else if terminator ∈ pre ∨ terminator ∈ lo ∨ terminator ∈ hi then .ok []
  else if 0 < lo.length ∧ 0 < hi.length ∧ order lo hi = .gt then .ok []
  else (scan (rangeRules mem pre lo hi) ix pre cap mem).map Prod.fst

theorem childAt_getD (mem : Bytes) (ntype : NodeType) (off : ℕ) (b : UInt8) :
    (childAt mem ntype off b).getD 0 = (searchChild mem ntype off b).getD 0 := by
  cases ntype with
  | leaf => rfl
  | node4 =>
    simp only [childAt, searchChild]
    split_ifs
    · rfl
    · cases (List.range _).find? _ <;> rfl
  | node16 =>
    simp only [childAt, searchChild]
    split_ifs
    · rfl
    · cases ((List.range _).find? _).filter _ <;> rfl
  | node48 =>
    simp only [childAt, searchChild]
    split_ifs <;> first | rfl | omega
  | node256 => simp only [childAt, searchChild]

namespace Shape

/-- The byte that a slot stands for. -/
def entryAt : Shape → ℕ → Option UInt8
  | slots .node48 keys, i => if UInt8.ofNat i ∈ keys then some (UInt8.ofNat i) else none
  | slots _ keys, i => keys[i]?
  | direct _, i => some (UInt8.ofNat i)

def slotCount : Shape → ℕ
  | slots .node48 _ => 256
  | slots _ keys => keys.length
  | direct _ => 256

/-- The bytes of a node in the order of its slots, from one slot on. -/
def after (shape : Shape) (pos : ℕ) : List UInt8 := (List.range' pos (shape.slotCount - pos)).filterMap shape.entryAt

def sequence (shape : Shape) : List UInt8 := shape.after 0

end Shape

section Slots

variable {mem : Bytes} {off pos stop : ℕ} {shape : Shape} {raws : UInt8 → ℕ} {child child' : ℕ → Option Child}

theorem nextSlot_of_le (h : stop ≤ pos) : nextSlot child pos stop = none := by
  rw [nextSlot, Nat.sub_eq_zero_of_le h]
  rfl

theorem nextSlot_of_lt (h : pos < stop) :
    nextSlot child pos stop = ((child pos).map (·, pos + 1)).or (nextSlot child (pos + 1) stop) := by
  have hlen : stop - pos = (stop - (pos + 1)) + 1 := by omega
  rw [nextSlot, nextSlot, hlen, List.range'_succ, List.findSome?_cons]
  cases child pos <;> rfl

theorem nextSlot_congr (h : ∀ i < stop, child i = child' i) : nextSlot child pos stop = nextSlot child' pos stop := by
  obtain ⟨n, hn⟩ : ∃ n, stop - pos = n := ⟨_, rfl⟩
  induction n generalizing pos with
  | zero => rw [nextSlot_of_le (by omega), nextSlot_of_le (by omega)]
  | succ n ih =>
    have hlt : pos < stop := by omega
    have hrest : nextSlot child (pos + 1) stop = nextSlot child' (pos + 1) stop := ih (by omega)
    rw [nextSlot_of_lt hlt, hrest, h pos hlt, ← nextSlot_of_lt hlt]

/-- The child that a slot holds, as the shape and the child words tell it. -/
def childOf (raws : UInt8 → ℕ) (shape : Shape) (i : ℕ) : Option Child :=
  (shape.entryAt i).bind fun b ↦ if raws b = 0 then none else some ⟨raws b, b⟩

theorem after_of_le (h : shape.slotCount ≤ pos) : shape.after pos = [] := by
  rw [Shape.after, Nat.sub_eq_zero_of_le h]
  rfl

theorem after_of_lt (h : pos < shape.slotCount) :
    shape.after pos = (shape.entryAt pos).toList ++ shape.after (pos + 1) := by
  have hlen : shape.slotCount - pos = (shape.slotCount - (pos + 1)) + 1 := by omega
  rw [Shape.after, Shape.after, hlen, List.range'_succ, List.filterMap_cons]
  cases shape.entryAt pos <;> rfl

/-- The next child is the first one left whose word is not zero. -/
theorem nextSlot_cases (raws : UInt8 → ℕ) (shape : Shape) (pos : ℕ) :
    (nextSlot (childOf raws shape) pos shape.slotCount = none ∧ ∀ b ∈ shape.after pos, raws b = 0) ∨
      ∃ b pos' bs, nextSlot (childOf raws shape) pos shape.slotCount = some (⟨raws b, b⟩, pos') ∧
        shape.after pos = bs ++ b :: shape.after pos' ∧ (∀ c ∈ bs, raws c = 0) ∧ raws b ≠ 0 := by
  obtain ⟨n, hn⟩ : ∃ n, shape.slotCount - pos = n := ⟨_, rfl⟩
  induction n generalizing pos with
  | zero =>
    have hle : shape.slotCount ≤ pos := by omega
    refine Or.inl ⟨nextSlot_of_le hle, ?_⟩
    simp [after_of_le hle]
  | succ n ih =>
    have hlt : pos < shape.slotCount := by omega
    rw [nextSlot_of_lt hlt, after_of_lt hlt, childOf]
    have hrest := ih (pos + 1) (by omega)
    cases hentry : shape.entryAt pos with
    | none => simpa using hrest
    | some b =>
      by_cases hraw : raws b = 0
      · rcases hrest with ⟨hnone, hzero⟩ | ⟨b', pos', bs, hsome, hafter, hzero, hne⟩
        · refine Or.inl ⟨by simp [hraw, hnone], ?_⟩
          simpa [hraw] using hzero
        · refine Or.inr ⟨b', pos', b :: bs, by simp [hraw, hsome], by simp [hafter], ?_, hne⟩
          simpa [hraw] using hzero
      · exact Or.inr ⟨b, pos + 1, [], by simp [hraw], by simp, by simp, hraw⟩

theorem toNat_ofNat_slot {i : ℕ} (h : i < 256) : (UInt8.ofNat i).toNat = i := UInt8.toNat_ofNat_of_lt' h

/-- The iteration of the code runs through the slots of the shape. -/
theorem nextChild_eq (h : NodeAt mem off raws shape) (hs : shape.Sound) (hfit : off + shape.size ≤ mem.length) :
    nextChild mem shape.type off pos = nextSlot (childOf raws shape) pos shape.slotCount := by
  cases shape with
  | slots kind keys =>
    obtain ⟨hcount, hkeys, hchild⟩ := h
    obtain ⟨hnodup, hroom⟩ := hs
    have hword : ∀ i (hi : i < keys.length), readU32 mem (kind.child off i) = raws keys[i] := by
      intro i hi
      have hread := hchild keys[i] (List.getElem_mem hi)
      rwa [hnodup.idxOf_getElem i hi] at hread
    cases kind with
    | node4 =>
      have hin : ¬ mem.length < off + SlotKind.node4.size := not_lt.mpr hfit
      have hmin : min keys.length 4 = keys.length := min_eq_left hroom
      simp only [nextChild, Shape.type, SlotKind.type, if_neg hin, hcount, hmin]
      refine nextSlot_congr fun i hi ↦ ?_
      have hentry : (Shape.slots .node4 keys).entryAt i = some keys[i] := List.getElem?_eq_getElem hi
      rw [childOf, hentry, hword i hi, hkeys i hi]
      rfl
    | node16 =>
      have hin : ¬ mem.length < off + SlotKind.node16.size := not_lt.mpr hfit
      have hmin : min keys.length 16 = keys.length := min_eq_left hroom
      simp only [nextChild, Shape.type, SlotKind.type, if_neg hin, hcount, hmin]
      refine nextSlot_congr fun i hi ↦ ?_
      have hentry : (Shape.slots .node16 keys).entryAt i = some keys[i] := List.getElem?_eq_getElem hi
      rw [childOf, hentry, hword i hi, hkeys i hi]
      rfl
    | node48 =>
      have hin : ¬ mem.length < off + SlotKind.node48.size := not_lt.mpr hfit
      simp only [nextChild, Shape.type, SlotKind.type, if_neg hin]
      refine nextSlot_congr fun i hi ↦ ?_
      have hbyte := hkeys (UInt8.ofNat i)
      rw [toNat_ofNat_slot hi] at hbyte
      by_cases hb : UInt8.ofNat i ∈ keys
      · have hidx := (List.idxOf_lt_length_of_mem hb).trans_le hroom
        have hcap : SlotKind.node48.capacity = 48 := rfl
        have hslot : ¬ (keys.idxOf (UInt8.ofNat i) + 1 = 0 ∨ 48 < keys.idxOf (UInt8.ofNat i) + 1) := by omega
        have hentry : (Shape.slots .node48 keys).entryAt i = some (UInt8.ofNat i) := if_pos hb
        rw [childOf, hentry, hbyte, if_pos hb, if_neg hslot, Nat.add_sub_cancel, hchild _ hb]
        rfl
      · have hentry : (Shape.slots .node48 keys).entryAt i = none := if_neg hb
        rw [childOf, hentry, hbyte, if_neg hb, if_pos (Or.inl rfl)]
        rfl
  | direct count =>
    have hin : ¬ mem.length < off + node256Size := not_lt.mpr hfit
    simp only [nextChild, Shape.type, if_neg hin]
    refine nextSlot_congr fun i _ ↦ ?_
    rw [childOf, Shape.entryAt, h.2]
    rfl

end Slots

section Visits

variable {mem pre path tail : Bytes} {takes above : Bytes → Bool} {off pos : ℕ} {shape : Shape} {kids : UInt8 → Tree}

/-- One round to enter a child, before the rounds below it. -/
def Tree.enter : Tree → List (Option UInt32) → List (Option UInt32)
  | nil, _ => []
  | _, vs => none :: vs

/-- The rounds of a scan below a node, with what each of them finds: one for every child that is entered, one for every
leaf, and one that leaves every inner node. A node whose path is above the range takes a single round. -/
def Tree.visits (takes above : Bytes → Bool) : Tree → Bytes → List (Option UInt32)
  | nil, _ => []
  | leaf _ key value, _ => [if takes key then some value else none]
  | inner _ shape kids, tail =>
    if above tail then [none]
    else (shape.sequence.flatMap fun b ↦ (kids b).enter ((kids b).visits takes above (tail ++ [b]))) ++ [none]

/-- The rounds below the children that these bytes lead to. -/
def kidVisits (takes above : Bytes → Bool) (kids : UInt8 → Tree) (tail : Bytes)
    (bs : List UInt8) : List (Option UInt32) :=
  bs.flatMap fun b ↦ (kids b).enter ((kids b).visits takes above (tail ++ [b]))

theorem enter_of_ne {t : Tree} {vs : List (Option UInt32)} (h : t ≠ .nil) : t.enter vs = none :: vs := by
  cases t with
  | nil => exact absurd rfl h
  | leaf => rfl
  | inner => rfl

theorem kidVisits_eq_nil {bs : List UInt8} (h : ∀ b ∈ bs, kids b = .nil) : kidVisits takes above kids tail bs = [] := by
  rw [kidVisits, List.flatMap_eq_nil_iff]
  intro b hb
  rw [h b hb]
  rfl

/-- A node of the walk: its tree, the path to it behind the prefix, and the slot that comes next. -/
structure Item where
  tree : Tree
  tail : Bytes
  pos : ℕ

namespace Item

def frame (n : ℕ) (i : Item) : Frame := ⟨i.tree.raw, i.pos, n + i.tail.length⟩

/-- The rounds that are left at a node. -/
def rest (takes above : Bytes → Bool) : Item → List (Option UInt32)
  | ⟨.inner _ shape kids, tail, pos⟩ =>
    if above tail then [none] else kidVisits takes above kids tail (shape.after pos) ++ [none]
  | ⟨t, tail, _⟩ => t.visits takes above tail

theorem rest_start (t : Tree) (tail : Bytes) : rest takes above ⟨t, tail, 0⟩ = t.visits takes above tail := by
  cases t <;> rfl

structure Good (mem pre : Bytes) (i : Item) : Prop where
  ne_nil : i.tree ≠ .nil
  stored : Stored mem i.tree
  laid : i.tree.Laid mem.length
  wf : i.tree.WF (pre ++ i.tail)

theorem Good.rest_ne_nil {i : Item} (hi : i.Good mem pre) : i.rest takes above ≠ [] := by
  obtain ⟨t, tail, pos⟩ := i
  cases t with
  | nil => exact absurd rfl hi.ne_nil
  | leaf off key value => simp [rest, visits]
  | inner off shape kids =>
    rw [rest]
    split_ifs <;> simp

/-- Every node of the stack is one byte deeper than the one under it. -/
def Chain : List Item → Prop
  | [] => True
  | i :: is => i.tail.length = is.length ∧ Chain is

theorem Chain.le {is : List Item} (h : Chain is) : ∀ i ∈ is, i.tail.length < is.length := by
  induction is with
  | nil => exact fun i hi ↦ absurd hi List.not_mem_nil
  | cons j is ih =>
    intro i hi
    rw [List.length_cons]
    rcases List.mem_cons.mp hi with rfl | hi
    · exact h.1 ▸ Nat.lt_succ_self _
    · exact (ih h.2 i hi).trans (Nat.lt_succ_self _)

end Item

/-- The state of a scan stands for the rounds that are left at the nodes of its stack. -/
def StandsFor (mem pre : Bytes) (takes above : Bytes → Bool) (st : ScanState) (vs : List (Option UInt32)) : Prop :=
  ∃ is : List Item, st.stack = is.map (Item.frame pre.length) ∧ (∀ i ∈ is, i.Good mem pre) ∧ Item.Chain is ∧
    (∀ i ∈ is, i.tail <+: st.path.drop pre.length) ∧ st.path.length = maxDepth ∧ vs = is.flatMap (Item.rest takes above)

/-- The rules on the memory are those on keys and paths. -/
structure Agrees (mem pre : Bytes) (rules : ScanRules) (takes above : Bytes → Bool) : Prop where
  takes : ∀ {off key value}, Stored mem (.leaf off key value) → (Tree.leaf off key value).Laid mem.length →
    rules.takes off = takes key
  above : ∀ {path tail}, tail <+: path.drop pre.length → rules.above path (pre.length + tail.length) = above tail
  roomy : ∀ {sp depth}, sp < maxDepth → depth < maxDepth → rules.tooDeep sp depth = false

theorem front_set {l : Bytes} {b : UInt8} (h : tail <+: l) (hlen : tail.length < l.length) :
    tail ++ [b] <+: l.set tail.length b := by
  obtain ⟨r, hr⟩ := h
  subst hr
  rw [List.length_append] at hlen
  cases r with
  | nil => exact absurd hlen (by simp)
  | cons c r =>
    rw [List.set_append_right _ _ le_rfl, Nat.sub_self, List.set_cons_zero]
    exact ⟨r, by simp⟩

theorem front_set_of_le {l : Bytes} {b : UInt8} {n : ℕ} (h : tail <+: l)
    (hn : tail.length ≤ n) : tail <+: l.set n b := by
  obtain ⟨r, hr⟩ := h
  subst hr
  rw [List.set_append_right _ _ hn]
  exact List.prefix_append _ _

/-- A round at an inner node. -/
theorem scanRound_inner {rules : ScanRules} (ha : Agrees mem pre rules takes above) {st : ScanState} {rest : List Frame}
    (hstack : st.stack = ⟨(inner off shape kids).raw, pos, pre.length + tail.length⟩ :: rest)
    (hlaid : (inner off shape kids).Laid mem.length) (htail : tail <+: st.path.drop pre.length) :
    scanRound rules mem st =
      if above tail then .ok (.moved none ⟨rest, st.path⟩)
      else
        match nextChild mem shape.type off pos with
        | none => .ok (.moved none ⟨rest, st.path⟩)
        | some (c, pos') =>
          let top : Frame := ⟨(inner off shape kids).raw, pos', pre.length + tail.length⟩
          if c.raw = 0 then .ok (.moved none ⟨top :: rest, st.path⟩)
          else if rules.tooDeep st.stack.length (pre.length + tail.length + 1) then .ok .ended
          else .ok (.moved none ⟨⟨c.raw, 0, pre.length + tail.length + 1⟩ :: top :: rest,
            st.path.set (pre.length + tail.length) c.byte⟩) := by
  have htype : ArtPtr.getType (inner off shape kids).raw = some shape.type := getType_tag hlaid.1 shape.type
  have hoff : ArtPtr.getOffset (inner off shape kids).raw = off := getOffset_tag hlaid.1 shape.type
  rw [scanRound, hstack]
  simp only [htype, hoff, ha.above htail]
  cases shape with
  | slots kind keys => cases kind <;> rfl
  | direct count => rfl

/-- The rounds of the next child come before those of the children behind it. -/
theorem kidVisits_next {b : UInt8} {bs : List UInt8} {pos' : ℕ} (hafter : shape.after pos = bs ++ b :: shape.after pos')
    (hbs : ∀ c ∈ bs, kids c = .nil) (hkid : kids b ≠ .nil) :
    kidVisits takes above kids tail (shape.after pos) =
      none :: ((kids b).visits takes above (tail ++ [b]) ++ kidVisits takes above kids tail (shape.after pos')) := by
  have hnone : kidVisits takes above kids tail bs = [] := kidVisits_eq_nil hbs
  rw [kidVisits] at hnone ⊢
  rw [hafter, List.flatMap_append, hnone, List.nil_append, List.flatMap_cons, enter_of_ne hkid]
  rfl

/-- Entering a child puts its node on the stack. -/
theorem standsFor_child {st : ScanState} {is : List Item} {b : UInt8} {pos' : ℕ} (hgood : ∀ j ∈ is, j.Good mem pre)
    (hi : Item.Good mem pre ⟨inner off shape kids, tail, pos⟩) (hdepth : tail.length = is.length)
    (hchain : Item.Chain is)
    (htail : tail <+: st.path.drop pre.length) (hpath : ∀ j ∈ is, j.tail <+: st.path.drop pre.length)
    (hlen : st.path.length = maxDepth) (habove : ¬ above tail = true) (hkid : kids b ≠ .nil) :
    StandsFor mem pre takes above
      ⟨⟨(kids b).raw, 0, pre.length + tail.length + 1⟩ ::
        ⟨(inner off shape kids).raw, pos', pre.length + tail.length⟩ :: is.map (Item.frame pre.length),
        st.path.set (pre.length + tail.length) b⟩
      ((kids b).visits takes above (tail ++ [b]) ++ (kidVisits takes above kids tail (shape.after pos') ++ ([none] ++
        is.flatMap (Item.rest takes above)))) := by
  have hshort : (pre ++ tail).length < maxKeyLen := hi.wf.1
  have hmax : maxDepth = maxKeyLen + 1 := rfl
  rw [List.length_append] at hshort
  have hdrop : (st.path.set (pre.length + tail.length) b).drop pre.length =
      (st.path.drop pre.length).set tail.length b := by
    rw [List.drop_set, if_neg (by omega), Nat.add_sub_cancel_left]
  refine ⟨⟨kids b, tail ++ [b], 0⟩ :: ⟨inner off shape kids, tail, pos'⟩ :: is, ?_, ?_, ?_, ?_, ?_, ?_⟩
  · simp only [List.map_cons, Item.frame, List.length_append, List.length_singleton, Nat.add_assoc]
  · intro j hj
    rcases List.mem_cons.mp hj with rfl | hj
    · refine ⟨hkid, hi.stored.2 b, hi.laid.2.2.2.2.2 b, ?_⟩
      rw [← List.append_assoc]
      exact hi.wf.2.2.2.2 b
    · rcases List.mem_cons.mp hj with rfl | hj
      · exact ⟨hi.ne_nil, hi.stored, hi.laid, hi.wf⟩
      · exact hgood j hj
  · refine ⟨?_, hdepth, hchain⟩
    rw [List.length_append, List.length_singleton, List.length_cons, hdepth]
  · intro j hj
    dsimp only
    rw [hdrop]
    rcases List.mem_cons.mp hj with rfl | hj
    · refine front_set htail ?_
      rw [List.length_drop, hlen]
      omega
    · rcases List.mem_cons.mp hj with rfl | hj
      · exact front_set_of_le htail le_rfl
      · exact front_set_of_le (hpath j hj) (hdepth ▸ (hchain.le j hj).le)
  · rw [List.length_set, hlen]
  · rw [List.flatMap_cons, List.flatMap_cons, Item.rest_start, Item.rest, if_neg habove]
    simp only [List.append_assoc]

theorem scanRound_leaf {rules : ScanRules} (ha : Agrees mem pre rules takes above) {st : ScanState} {key : Bytes}
    {value : UInt32} {pos depth : ℕ}
    {rest : List Frame} (hstack : st.stack = ⟨(leaf off key value).raw, pos, depth⟩ :: rest)
    (hst : Stored mem (leaf off key value)) (hlaid : (leaf off key value).Laid mem.length) :
    scanRound rules mem st = .ok (.moved (if takes key then some value else none) ⟨rest, st.path⟩) := by
  have hvalue : UInt32.ofNat (readU32 mem (off + 4)) = value := by rw [hst.2.1, UInt32.ofNat_toNat]
  simp only [scanRound, hstack, Tree.raw, getOffset_tag hlaid.1, getType_tag hlaid.1, ha.takes hst hlaid, hvalue]

/-- A round at a node leaves it or enters the next of its children. -/
theorem moves_inner {rules : ScanRules} (ha : Agrees mem pre rules takes above) {st : ScanState} {is : List Item}
    {v : Option UInt32}
    {vs : List (Option UInt32)} (hi : Item.Good mem pre ⟨inner off shape kids, tail, pos⟩)
    (hstack : st.stack = ⟨(inner off shape kids).raw, pos, pre.length + tail.length⟩ :: is.map (Item.frame pre.length))
    (hgood : ∀ j ∈ is, j.Good mem pre) (hdepth : tail.length = is.length) (hchain : Item.Chain is)
    (htail : tail <+: st.path.drop pre.length) (hpath : ∀ j ∈ is, j.tail <+: st.path.drop pre.length)
    (hlen : st.path.length = maxDepth)
    (hvs : v :: vs = Item.rest takes above ⟨inner off shape kids, tail, pos⟩ ++ is.flatMap (Item.rest takes above)) :
    ∃ st', scanRound rules mem st = .ok (.moved v st') ∧ StandsFor mem pre takes above st' vs := by
  have hst : Stored mem (inner off shape kids) := hi.stored
  have hlaid : (inner off shape kids).Laid mem.length := hi.laid
  have hwf : (inner off shape kids).WF (pre ++ tail) := hi.wf
  have hpop : StandsFor mem pre takes above ⟨is.map (Item.frame pre.length),
      st.path⟩ (is.flatMap (Item.rest takes above)) :=
    ⟨is, rfl, hgood, hchain, hpath, hlen, rfl⟩
  rw [scanRound_inner ha hstack hlaid htail]
  rw [Item.rest] at hvs
  by_cases habove : above tail = true
  · rw [if_pos habove] at hvs ⊢
    rw [List.singleton_append] at hvs
    obtain ⟨rfl, rfl⟩ := List.cons.inj hvs
    exact ⟨_, rfl, hpop⟩
  rw [if_neg habove] at hvs ⊢
  rw [nextChild_eq hst.1 hwf.2.2.1 hlaid.2.2.1]
  have hzero : ∀ b, (kids b).raw = 0 → kids b = .nil := fun b ↦ (raw_zero (hlaid.2.2.2.2.2 b)).mp
  rcases nextSlot_cases (fun b ↦ (kids b).raw) shape pos with ⟨hnone, hall⟩ | ⟨b, pos', bs, hsome, hafter, hall, hne⟩
  · rw [hnone]
    rw [kidVisits_eq_nil fun b hb ↦ hzero b (hall b hb), List.nil_append, List.singleton_append] at hvs
    obtain ⟨rfl, rfl⟩ := List.cons.inj hvs
    exact ⟨_, rfl, hpop⟩
  · have hkid : kids b ≠ .nil := fun h ↦ hne (h ▸ rfl)
    have hshort : (pre ++ tail).length < maxKeyLen := hwf.1
    have hmax : maxDepth = maxKeyLen + 1 := rfl
    rw [List.length_append] at hshort
    have hsp : st.stack.length < maxDepth := by
      rw [hstack, List.length_cons, List.length_map]
      omega
    have hroomy := ha.roomy hsp (show pre.length + tail.length + 1 < maxDepth by omega)
    rw [kidVisits_next hafter (fun c hc ↦ hzero c (hall c hc)) hkid, List.cons_append, List.cons_append,
      List.append_assoc, List.append_assoc] at hvs
    obtain ⟨rfl, rfl⟩ := List.cons.inj hvs
    rw [hsome]
    simp only [if_neg hne, hroomy, Bool.false_eq_true, if_false]
    exact ⟨_, rfl, standsFor_child hgood hi hdepth hchain htail hpath hlen habove hkid⟩

theorem delivers_scan {rules : ScanRules} (ha : Agrees mem pre rules takes above) :
    Delivers (scanRound rules mem) (fun st ↦ st.stack.isEmpty) (StandsFor mem pre takes above) := by
  constructor
  · rintro st vs ⟨is, hstack, hgood, -, -, -, rfl⟩
    rw [List.isEmpty_iff, hstack, List.map_eq_nil_iff]
    constructor
    · rintro rfl
      rfl
    · intro hnil
      cases is with
      | nil => rfl
      | cons i is =>
        rw [List.flatMap_cons, List.append_eq_nil_iff] at hnil
        exact absurd hnil.1 (hgood i List.mem_cons_self).rest_ne_nil
  · rintro st v vs ⟨is, hstack, hgood, hchain, hpath, hlen, hvs⟩
    cases is with
    | nil => cases hvs
    | cons i is =>
      obtain ⟨t, tail, pos⟩ := i
      have hi := hgood _ List.mem_cons_self
      have hgood' : ∀ j ∈ is, j.Good mem pre := fun j hj ↦ hgood j (List.mem_cons_of_mem _ hj)
      have hpath' : ∀ j ∈ is, j.tail <+: st.path.drop pre.length := fun j hj ↦ hpath j (List.mem_cons_of_mem _ hj)
      rw [List.flatMap_cons] at hvs
      cases t with
      | nil => exact absurd rfl hi.ne_nil
      | leaf off key value =>
        have hrest : Item.rest takes above ⟨leaf off key value, tail, pos⟩ =
            [if takes key then some value else none] := rfl
        rw [hrest, List.singleton_append] at hvs
        obtain ⟨rfl, rfl⟩ := List.cons.inj hvs
        exact ⟨_, scanRound_leaf ha hstack hi.stored hi.laid, is, rfl, hgood', hchain.2, hpath', hlen, rfl⟩
      | inner off shape kids =>
        exact moves_inner ha hi hstack hgood' hchain.1 hchain.2 (hpath _ List.mem_cons_self) hpath' hlen hvs

end Visits

section Below

variable {mem pre path bs : Bytes} {takes above : Bytes → Bool} {off : ℕ} {shape : Shape} {kids : UInt8 → Tree}
  {ix : ArtIndex} {root : Tree} {rules : ScanRules}

/-- The node that the descent along a prefix comes to. -/
def Tree.under : Tree → Bytes → Tree
  | t, [] => t
  | nil, _ :: _ => nil
  | leaf off key value, _ :: _ => leaf off key value
  | inner _ _ kids, b :: bs => (kids b).under bs

theorem under_nil (t : Tree) : t.under [] = t := by cases t <;> rfl

theorem nil_under : ∀ bs : Bytes, Tree.nil.under bs = .nil
  | [] => rfl
  | _ :: _ => rfl

theorem childAt_stored {b : UInt8} (hst : Stored mem (inner off shape kids)) (hwf : (inner off shape kids).WF path)
    (hlaid : (inner off shape kids).Laid mem.length) : (childAt mem shape.type off b).getD 0 = (kids b).raw := by
  rw [childAt_getD, searchChild_eq hst.1 hwf.2.2.1 hlaid.2.2.1]
  split_ifs with hhas
  · rfl
  · rw [hwf.2.2.2.1 b hhas]
    rfl

theorem scanDescend_inner {b : UInt8} (hst : Stored mem (inner off shape kids)) (hwf : (inner off shape kids).WF path)
    (hlaid : (inner off shape kids).Laid mem.length) :
    scanDescend rules mem (b :: bs) (inner off shape kids).raw =
      if (kids b).raw = 0 then .ok (.ended []) else scanDescend rules mem bs (kids b).raw := by
  have htype : ArtPtr.getType (inner off shape kids).raw = some shape.type := getType_tag hlaid.1 shape.type
  have hoff : ArtPtr.getOffset (inner off shape kids).raw = off := getOffset_tag hlaid.1 shape.type
  have hchild := @childAt_stored _ _ _ _ _ b hst hwf hlaid
  have hgo : scanDescend rules mem (b :: bs) (inner off shape kids).raw =
      match childAt mem shape.type off b with
      | none | some 0 => .ok (.ended [])
      | some child => scanDescend rules mem bs child := by
    rw [scanDescend]
    simp only [htype, hoff]
    cases shape with
    | slots kind keys => cases kind <;> rfl
    | direct count => rfl
  rw [hgo, ← hchild]
  cases childAt mem shape.type off b with
  | none => rfl
  | some child =>
    cases child with
    | zero => rfl
    | succ n => rfl

/-- Where the descent of a scan ends. -/
inductive Comes (rules : ScanRules) (mem : Bytes) (takes : Bytes → Bool) (path : Bytes) (u : Tree) :
    Except Stop Descent → Prop
  | node (hne : u ≠ .nil) (hst : Stored mem u) (hlaid : u.Laid mem.length) (hwf : u.WF path) :
    Comes rules mem takes path u (.ok (.node u.raw))
  | empty (hnil : u = .nil) : Comes rules mem takes path u (.ok (.ended []))
  | early {off : ℕ} {key : Bytes} {value : UInt32} (hleaf : u = .leaf off key value) :
    Comes rules mem takes path u (.ok (.ended (if takes key then [value] else [])))

theorem comes_scanDescend (ha : Agrees mem pre rules takes above) : ∀ (bs : Bytes) {t : Tree} {path : Bytes}, t ≠ .nil →
    Stored mem t → t.Laid mem.length → t.WF path → Comes rules mem takes (path ++ bs) (t.under bs)
      (scanDescend rules mem bs t.raw)
  | [], t, path, hne, hst, hlaid, hwf => by
    rw [under_nil, List.append_nil]
    exact .node hne hst hlaid hwf
  | b :: bs, .nil, path, hne, _, _, _ => absurd rfl hne
  | b :: bs, .leaf off key value, path, _, hst, hlaid, _ => by
    have htype : ArtPtr.getType (leaf off key value).raw = some .leaf := getType_tag hlaid.1 .leaf
    have hoff : ArtPtr.getOffset (leaf off key value).raw = off := getOffset_tag hlaid.1 .leaf
    have hvalue : UInt32.ofNat (readU32 mem (off + 4)) = value := by rw [hst.2.1, UInt32.ofNat_toNat]
    rw [scanDescend]
    simp only [htype, hoff, hvalue, ha.takes hst hlaid]
    exact .early rfl
  | b :: bs, .inner off shape kids, path, _, hst, hlaid, hwf => by
    rw [scanDescend_inner hst hwf hlaid]
    have hzero := raw_zero (hlaid.2.2.2.2.2 b)
    split_ifs with hraw
    · exact .empty (by rw [Tree.under, hzero.mp hraw, nil_under])
    · have hkid : kids b ≠ .nil := fun h ↦ hraw (hzero.mpr h)
      have hcomes := comes_scanDescend ha bs hkid (hst.2 b) (hlaid.2.2.2.2.2 b) (hwf.2.2.2.2 b)
      rwa [List.append_assoc] at hcomes

theorem standsFor_start {t : Tree} (hne : t ≠ .nil) (hst : Stored mem t) (hlaid : t.Laid mem.length) (hwf : t.WF pre) :
    StandsFor mem pre takes above ⟨[⟨t.raw, 0, pre.length⟩], zeros maxDepth⟩ (t.visits takes above []) := by
  refine ⟨[⟨t, [], 0⟩], rfl, ?_, ⟨rfl, trivial⟩, ?_, length_zeros _, ?_⟩
  · intro i hi
    rw [List.mem_singleton.mp hi]
    exact ⟨hne, hst, hlaid, by rwa [List.append_nil]⟩
  · intro i hi
    rw [List.mem_singleton.mp hi]
    exact List.nil_prefix
  · rw [List.flatMap_singleton, Item.rest_start]

/-- A scan finds what the first rounds below its prefix find, up to its capacity. -/
theorem scan_eq (ha : Agrees mem pre rules takes above) (hst : Stored mem root)
    (hword : readU32 mem ix.rootPtrOffset = root.raw) (hwf : root.WF []) (hlaid : root.Laid mem.length)
    (hfits : ix.rootPtrOffset + 4 ≤ mem.length) (cap : ℕ) :
    ∃ whole, scan rules ix pre cap mem =
        .ok ((((root.under pre).visits takes above []).take maxScanVisits).reduceOption.take cap, whole) ∧
      (whole = true → ((root.under pre).visits takes above []).length ≤ maxScanVisits ∧
        ((root.under pre).visits takes above []).reduceOption.length ≤ cap) := by
  rw [scan, hword]
  split_ifs with hcap hbad
  · exact ⟨false, by rw [hcap, List.take_zero], fun h ↦ by cases h⟩
  · have hnil : root = .nil := (raw_zero hlaid).mp (hbad.resolve_left (not_lt.mpr hfits))
    rw [hnil, nil_under]
    exact ⟨true, by simp [visits], fun _ ↦ by simp [visits]⟩
  · have hne : root ≠ .nil := fun h ↦ (not_or.mp hbad).2 (h ▸ rfl)
    have hcomes := comes_scanDescend ha pre hne hst hlaid hwf
    rw [List.nil_append] at hcomes
    generalize hdescent : scanDescend rules mem pre root.raw = d at hcomes
    generalize root.under pre = u at hcomes ⊢
    cases hcomes with
    | node hne hst hlaid hwf =>
      have hstands : StandsFor mem pre takes above ⟨[⟨u.raw, 0, pre.length⟩],
          zeros maxDepth⟩ (u.visits takes above []) :=
        standsFor_start hne hst hlaid hwf
      obtain ⟨st, hwalk, hwhole⟩ := @Delivers.walk_eq _ _ _ _ _ _ cap _ (delivers_scan ha) maxScanVisits [] _ hstands
      rw [List.length_nil, Nat.sub_zero] at hwalk hwhole
      simp only [hwalk, List.nil_append]
      exact ⟨_, rfl, hwhole⟩
    | empty hnil =>
      rw [hnil]
      exact ⟨true, by simp [visits], fun _ ↦ by simp [visits]⟩
    | @early off key value hleaf =>
      have hlen : ∀ l : List UInt32, l.length ≤ 1 → l.take cap = l := fun l hl ↦ List.take_of_length_le (by omega)
      have hvisits : (leaf off key value).visits takes above [] = [if takes key then some value else none] := rfl
      have htake : ([if takes key then some value else none] : List (Option UInt32)).take maxScanVisits =
          [if takes key then some value else none] := rfl
      have hfound : ([if takes key then some value else none] : List (Option UInt32)).reduceOption =
          if takes key then [value] else [] := by
        split_ifs <;> rfl
      have hone : (if takes key then [value] else []).length ≤ 1 := by split_ifs <;> simp
      rw [hleaf, hvisits, htake, hfound, hlen _ hone]
      exact ⟨true, rfl, fun _ ↦ ⟨by simp, by omega⟩⟩

end Below

end TakyonDb.Art
