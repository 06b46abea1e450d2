import Mathlib.Data.List.Basic
import Mathlib.Data.Nat.Basic
import TakyonDb.Lib.Bytes

namespace TakyonDb.Layout

abbrev globalReserved : ℕ := 1024
abbrev headerBytes : ℕ := 48
abbrev ringHeaderBytes : ℕ := 448
abbrev ringOffset : ℕ := 1024
abbrev deltaSize : ℕ := 64
abbrev layoutVersion : ℕ := 4
abbrev arenaMagic : ℕ := 0x54414B59

def ringBytes (capacity : ℕ) : ℕ := ringHeaderBytes + capacity * 64 + capacity * 8

inductive RegionError
  | regionsExceedArena | ringCapacityNotPowerOfTwo | recordStartInsideRing | regionsOverlap
  | artRootMisplaced | stringRegionTooSmall | stringStartMisaligned | headerTooSmall
deriving DecidableEq

/-- One arena's region boundaries, as byte offsets and byte sizes. -/
structure Regions where
  arenaBytes : UInt32
  ringCapacity : UInt32
  recordStart : UInt32
  recordBytes : UInt32
  artRoot : UInt32
  artBytes : UInt32
  stringStart : UInt32
  stringBytes : UInt32
deriving DecidableEq

namespace Regions

variable (r : Regions)

def recordBumpOffset : ℕ := ringOffset + ringBytes r.ringCapacity.toNat

def artStart : ℕ := r.artRoot.toNat + 8

def artBumpOffset : ℕ := r.artRoot.toNat + 4

def stringDataStart : ℕ := r.stringStart.toNat + 8

def recordEnd : ℕ := r.recordStart.toNat + r.recordBytes.toNat

def artEnd : ℕ := r.artRoot.toNat + r.artBytes.toNat

def stringEnd : ℕ := r.stringStart.toNat + r.stringBytes.toNat

end Regions

def isPowerOfTwo (v : UInt32) : Bool := v &&& (v - 1) == 0

def validateRegions (r : Regions) (mappedBytes : ℕ) : Except RegionError Unit :=
  if mappedBytes < headerBytes then .error .headerTooSmall
  else if r.arenaBytes.toNat ≠ mappedBytes then .error .regionsExceedArena
  else if r.ringCapacity.toNat < 16 ∨ ¬ isPowerOfTwo r.ringCapacity then .error .ringCapacityNotPowerOfTwo
  else if r.recordStart.toNat < r.recordBumpOffset + 8 then .error .recordStartInsideRing
  else if r.artRoot.toNat < r.recordEnd then .error .regionsOverlap
  else if r.artRoot.toNat % 8 ≠ 0 then .error .artRootMisplaced
  else if r.stringStart.toNat % 8 ≠ 0 then .error .stringStartMisaligned
  else if r.stringStart.toNat < r.artEnd then .error .regionsOverlap
  else if r.stringBytes.toNat < 8 then .error .stringRegionTooSmall
  else if r.arenaBytes.toNat < r.stringEnd then .error .regionsExceedArena
  else if r.recordStart.toNat < r.recordBumpOffset + 8 then .error .recordStartInsideRing
  else .ok ()

/-- What an accepted table promises about its boundaries. -/
structure Valid (r : Regions) (mappedBytes : ℕ) : Prop where
  header : headerBytes ≤ mappedBytes
  arena : r.arenaBytes.toNat = mappedBytes
  capacity : 16 ≤ r.ringCapacity.toNat
  power : isPowerOfTwo r.ringCapacity = true
  record : r.recordBumpOffset + 8 ≤ r.recordStart.toNat
  recordEnd_le : r.recordEnd ≤ r.artRoot.toNat
  root_aligned : r.artRoot.toNat % 8 = 0
  string_aligned : r.stringStart.toNat % 8 = 0
  artEnd_le : r.artEnd ≤ r.stringStart.toNat
  string_bytes : 8 ≤ r.stringBytes.toNat
  stringEnd_le : r.stringEnd ≤ mappedBytes

theorem valid_iff (r : Regions) (n : ℕ) : validateRegions r n = .ok () ↔ Valid r n := by
  constructor
  · intro h
    unfold validateRegions at h
    split_ifs at h with h₁ h₂ h₃ h₄ h₅ h₆ h₇ h₈ h₉ h₁₀
    push Not at h₁ h₂ h₃ h₄ h₅ h₆ h₇ h₈ h₉ h₁₀
    exact ⟨h₁, h₂, h₃.1, h₃.2, h₄, h₅, h₆, h₇, h₈, h₉, by omega⟩
  · intro h
    have hend := h.stringEnd_le
    rw [← h.arena] at hend
    unfold validateRegions
    rw [if_neg (by have := h.header; omega), if_neg (by simpa using h.arena),
      if_neg (by simpa [h.power] using h.capacity), if_neg (by have := h.record; omega),
      if_neg (by have := h.recordEnd_le; omega), if_neg (by simpa using h.root_aligned),
      if_neg (by simpa using h.string_aligned), if_neg (by have := h.artEnd_le; omega),
      if_neg (by have := h.string_bytes; omega), if_neg (by omega),
      if_neg (by have := h.record; omega)]

/-- A table for an arena of 64 KiB. -/
def smallRegions : Regions := ⟨65536, 16, 4096, 45056, 49152, 8192, 57344, 8192⟩

theorem smallRegions_valid : Valid smallRegions 65536 := (valid_iff _ _).mp (by decide)

end TakyonDb.Layout
