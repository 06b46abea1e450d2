import TakyonDb.Art.Nodes
import TakyonDb.Layout

namespace TakyonDb.Vacuum

open Lib Layout Art

abbrev stringArenaStart : ℕ := 10 * 1024 * 1024
abbrev defaultStringDataStart : ℕ := stringArenaStart + 8

inductive VacuumError
  | arenaTooSmall | outOfMemory
deriving DecidableEq

def minArenaForVacuum : ℕ := defaultStringDataStart + 8192

/-- What the collector finds at a node: the offset a leaf binds, and the nonzero child words in the
order of their slots. Nodes that do not lie in the arena are skipped. -/
def visitSlots (mem : Bytes) (kind : SlotKind) (off : ℕ) : List ℕ :=
  if mem.length < off + kind.size then []
  else
    let n := min (byteAt mem off).toNat kind.capacity
    ((List.range n).map fun i ↦ readU32 mem (kind.child off i)).filter (· ≠ 0)

def visitDirect (mem : Bytes) (off : ℕ) : List ℕ :=
  if mem.length < off + node256Size then []
  else ((List.range 256).map fun i ↦ readU32 mem (off + 16 + 4 * i)).filter (· ≠ 0)

def visitLeaf (mem : Bytes) (off : ℕ) : List UInt32 :=
  if mem.length < off + leafHeader then [] else [UInt32.ofNat (readU32 mem (off + 4))]

/-- `none` where the tag of the pointer names no node type. -/
def visit (mem : Bytes) (raw : ℕ) : Option (List UInt32 × List ℕ) :=
  let off := ArtPtr.getOffset raw
  if raw = 0 then some ([], [])
  else if mem.length ≤ off then some ([], [])
  else
    match ArtPtr.getType raw with
    | some .leaf => some (visitLeaf mem off, [])
    | some .node4 => some ([], visitSlots mem .node4 off)
    | some .node16 => some ([], visitSlots mem .node16 off)
    | some .node48 => some ([], visitSlots mem .node48 off)
    | some .node256 => some ([], visitDirect mem off)
    | none => none

/-- The loop of `traverseCollect`, with the top of the stack first. -/
def traverseLoop (mem : Bytes) : ℕ → List ℕ → List UInt32 → Option (List UInt32)
  | _, [], list => some list
  | 0, _ :: _, list => some list
  | budget + 1, raw :: stack, list =>
    match visit mem raw with
    | none => none
    | some (values, words) => traverseLoop mem budget (words.reverse ++ stack) (list ++ values)

def traverseCollect (mem : Bytes) (raw : ℕ) : Option (List UInt32) :=
  traverseLoop mem (mem.length / 8 + 16) [raw] []

structure LiveString where
  fatAddr : ℕ
  offset : ℕ
  len : ℕ

/-- One column of the first pass: the total length and the strings found so far. -/
def gatherColumn (mem : Bytes) (stringFieldOffset : UInt32) :
    List UInt32 → ℕ × List LiveString → ℕ × List LiveString
  | [], found => found
  | recordOffset :: records, (totalLen, live) =>
    let fatAddr := recordOffset.toNat + stringFieldOffset.toNat
    let fatOffset := readU32 mem fatAddr
    let fatLen := readU32 mem (fatAddr + 4)
    if mem.length < fatAddr + 8 then gatherColumn mem stringFieldOffset records (totalLen, live)
    else if fatOffset = 0 ∨ fatLen = 0 then gatherColumn mem stringFieldOffset records (totalLen, live)
    else if mem.length < fatOffset + fatLen then gatherColumn mem stringFieldOffset records (totalLen, live)
    else if mem.length < totalLen + fatLen then (totalLen, live)
    else gatherColumn mem stringFieldOffset records (totalLen + fatLen, live ++ [⟨fatAddr, fatOffset, fatLen⟩])

def gatherLive (mem : Bytes) (records offsets : List UInt32) : ℕ × List LiveString :=
  offsets.foldl (fun found off ↦ gatherColumn mem off records found) (0, [])

def readU64 (mem : Bytes) (off : ℕ) : ℕ := leDecode (slice mem off 8)

def writeU64 (mem : Bytes) (off n : ℕ) : Bytes := overwrite mem off (leEncode 8 n)

/-- The fat pointer swings to the new offset if it still holds the string: by one exchange of eight
bytes where it is aligned, by check and write where it is not. -/
def swizzle (mem : Bytes) (s : LiveString) (newOffset : ℕ) : Option Bytes :=
  if s.fatAddr % 8 = 0 then
    if readU64 mem s.fatAddr = s.len * 2 ^ 32 + s.offset then
      some (writeU64 mem s.fatAddr (s.len * 2 ^ 32 + newOffset))
    else none
  else if readU32 mem s.fatAddr = s.offset ∧ readU32 mem (s.fatAddr + 4) = s.len then
    some (writeU32 mem s.fatAddr newOffset)
  else none

structure Relocated where
  fatAddr : ℕ
  newOffset : ℕ
  len : ℕ

/-- The second pass so far: the arena, the temporary buffer and the pointers that swung. -/
structure Compaction where
  mem : Bytes
  temp : Bytes
  relocated : List Relocated

/-- `none` where the new offset does not fit its word. -/
def relocate (dstBank : ℕ) (c : Compaction) (s : LiveString) : Option Compaction :=
  let newOffset := dstBank + c.temp.length
  let temp := c.temp ++ slice c.mem s.offset s.len
  if 2 ^ 32 ≤ newOffset then none
  else
    match swizzle c.mem s newOffset with
    | some mem => some ⟨mem, temp, c.relocated ++ [⟨s.fatAddr, newOffset, s.len⟩]⟩
    | none => some { c with temp }

/-- How a pass ends. It is aborted where the language forbids the next operation. -/
inductive Pass
  | failed (e : VacuumError) (mem : Bytes)
  | aborted
  | done (mem : Bytes) (relocated : List Relocated)

/-- Copies the buffer to its bank and swings the bump. -/
def publish (r : Regions) (dstBank : ℕ) (c : Compaction) : Pass :=
  if c.mem.length < dstBank + c.temp.length then .aborted
  else if 2 ^ 32 ≤ dstBank + c.temp.length then .aborted
  else .done (writeU32 (overwrite c.mem dstBank c.temp) r.stringStart.toNat (dstBank + c.temp.length)) c.relocated

def compactInto (r : Regions) (mem : Bytes) (live : List LiveString) (dstBank : ℕ) : Pass :=
  match live.foldlM (relocate dstBank) ⟨mem, [], []⟩ with
  | none => .aborted
  | some c => publish r dstBank c

def compact (r : Regions) (mem : Bytes) (totalLen : ℕ) (live : List LiveString) : Pass :=
  let region := r.stringDataStart + r.stringBytes.toNat - r.stringDataStart
  let bankSize := region / 2
  if bankSize = 0 then .failed .arenaTooSmall mem
  else
    let bank0 := r.stringDataStart
    let bank1 := r.stringDataStart + bankSize
    let currentBump := readU32 mem r.stringStart.toNat
    let dstBank := if bank1 ≤ currentBump then bank0 else bank1
    if bankSize < totalLen then .failed .outOfMemory mem
    else compactInto r mem live dstBank

/-- The records that the index binds; the root word may still be zero. -/
def liveRecords (mem : Bytes) (ix : ArtIndex) : Option (List UInt32) :=
  let currentRootRaw := readU32 mem ix.rootPtrOffset
  if currentRootRaw = 0 then some [] else traverseCollect mem currentRootRaw

def runVacuumOnceMulti (ix : ArtIndex) (r : Regions) (offsets : List UInt32) (mem : Bytes) : Pass :=
  if mem.length < minArenaForVacuum then .failed .arenaTooSmall mem
  else if mem.length < r.stringDataStart then .failed .arenaTooSmall mem
  else if mem.length < r.stringEnd then .failed .arenaTooSmall mem
  else
    match liveRecords mem ix with
    | none => .aborted
    | some [] => .done mem []
    | some records =>
      match gatherLive mem records offsets with
      | (_, []) => .done mem []
      | (totalLen, live) => compact r mem totalLen live

end TakyonDb.Vacuum
