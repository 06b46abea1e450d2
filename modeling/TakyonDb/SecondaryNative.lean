import TakyonDb.Lib.Latest
import TakyonDb.Lib.Separated
import TakyonDb.Lib.Utf8

namespace TakyonDb.SecondaryNative

open Lib
open Utf8 (Text)

/-- U+001F, the separator between value and primary key. -/
def secondarySep : Char := Char.ofNat 0x1F

def takyonMaxKey : ℕ := 256

/-- The keys of the engine's index with the offset each holds. -/
abbrev Entries := List (Bytes × UInt32)

def copyKey (s : Text) : Option Bytes :=
  let key := Utf8.encode s
  if key.length = 0 ∨ takyonMaxKey < key.length then none
  else if (0 : UInt8) ∈ key then none
  else some key

/-- Offsets pass the bridge as the low 32 bits of a number. -/
def insertIndex (arenaLen : ℕ) (entries : Entries) (key : Text) (valueOffset : ℕ) : Option Entries := do
  let key ← copyKey key
  let value := UInt32.ofNat valueOffset
  if arenaLen ≤ value.toNat then none
  else some (entries.filter (fun e ↦ e.1 ≠ key) ++ [(key, value)])

structure NativeSecondaryIndex where
  table : Text
  column : Text
  unique : Bool
  table_ne : table ≠ []
  column_ne : column ≠ []

/-- `scanPrefix entries key max` -/
abbrev PrefixScan := Entries → Bytes → ℕ → List UInt32

structure Add where
  value : Text
  pk : Text
  recordOffset : ℕ
deriving DecidableEq

def Add.pair (a : Add) : Text × Text := (a.value, a.pk)

namespace NativeSecondaryIndex

variable (ix : NativeSecondaryIndex)

def keyPrefix : Text := "idx:".toList ++ ix.table ++ ':' :: ix.column ++ [':']

def entryKey (value pk : Text) : Text := ix.keyPrefix ++ value ++ secondarySep :: pk

def valuePrefix (value : Text) : Text := ix.keyPrefix ++ value ++ [secondarySep]

def lookup (scan : PrefixScan) (entries : Entries) (value : Text) : Option (List UInt32) :=
  (copyKey (ix.valuePrefix value)).map fun key ↦ scan entries key 4096

def add (scan : PrefixScan) (arenaLen : ℕ) (entries : Entries) (a : Add) : Option Entries := do
  if ix.unique then
    let found ← ix.lookup scan entries a.value
    if 0 < found.length then none
  insertIndex arenaLen entries (ix.entryKey a.value a.pk) a.recordOffset

def key (a : Add) : Bytes := Utf8.encode (ix.entryKey a.value a.pk)

end NativeSecondaryIndex

def matching (entries : Entries) (key : Bytes) : Entries := entries.filter fun e ↦ key.isPrefixOf e.1

/-- The scan finds the keys that start with its argument, as long as they fit. -/
def PrefixScan.Exact (scan : PrefixScan) : Prop :=
  ∀ entries key max, (matching entries key).length ≤ max →
    (scan entries key max).Perm ((matching entries key).map Prod.snd)

variable {ix : NativeSecondaryIndex} {scan : PrefixScan} {arenaLen : ℕ} {adds : List Add} {entries : Entries}

theorem copyKey_eq_some {s : Text} {k : Bytes} :
    copyKey s = some k ↔ k = Utf8.encode s ∧ 0 < k.length ∧ k.length ≤ takyonMaxKey ∧ (0 : UInt8) ∉ k := by
  rw [copyKey]
  split_ifs with hlen hnul
  · simp only [false_iff]
    intro h
    rw [h.1] at h
    omega
  · simp only [false_iff]
    intro h
    exact h.2.2.2 (h.1 ▸ hnul)
  · rw [Option.some.injEq]
    constructor
    · intro h
      rw [← h]
      exact ⟨rfl, by omega, by omega, hnul⟩
    · intro h
      exact h.1.symm

theorem key_eq (ix : NativeSecondaryIndex) (a : Add) : ix.key a =
    Utf8.encode ix.keyPrefix ++ Separated.join 0x1F (Utf8.encode a.value) (Utf8.encode a.pk) := by
  rw [NativeSecondaryIndex.key, NativeSecondaryIndex.entryKey, Utf8.encode_append, Utf8.encode_append,
    List.append_assoc, Utf8.encode_cons]
  rfl

def Add.entry (ix : NativeSecondaryIndex) (a : Add) : Bytes × UInt32 := (ix.key a, UInt32.ofNat a.recordOffset)

def ageIndex (unique : Bool) : NativeSecondaryIndex :=
  ⟨"users".toList, "age".toList, unique, by decide, by decide⟩

def plainAdds : List Add := [⟨"a".toList, "b".toList, 64⟩, ⟨"b".toList, "b".toList, 128⟩]

end TakyonDb.SecondaryNative
