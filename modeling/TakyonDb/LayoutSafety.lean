import TakyonDb.Layout
import TakyonDb.Lib.Extents

namespace TakyonDb.Layout

open Lib

namespace Regions

variable (r : Regions)

/-- The header, the ring, the record bump word, the records, the index with
its two words, and the strings with theirs. -/
def ranges : List Extent :=
  [⟨0, headerBytes⟩, ⟨ringOffset, ringBytes r.ringCapacity.toNat⟩, ⟨r.recordBumpOffset, 4⟩,
    ⟨r.recordStart.toNat, r.recordBytes.toNat⟩, ⟨r.artRoot.toNat, max 8 r.artBytes.toNat⟩,
    ⟨r.stringStart.toNat, r.stringBytes.toNat⟩]

/-- The words that the engine accesses through a cast to a `u32` pointer. -/
def castWords : List ℕ := [r.recordBumpOffset, r.artRoot.toNat, r.artBumpOffset, r.stringStart.toNat]

end Regions

def Apart (e f : Extent) : Prop := ∀ i, ¬ ((e.start ≤ i ∧ i < e.stop) ∧ f.start ≤ i ∧ i < f.stop)

theorem apart_of_le {e f : Extent} (h : e.stop ≤ f.start) : Apart e f := by
  intro i hi
  omega

/-- No two ranges share a byte, all lie in the mapping, and what is accessed
by a cast is aligned for it. -/
structure Safe (r : Regions) (mappedBytes : ℕ) : Prop where
  disjoint : r.ranges.Pairwise Apart
  inside : ∀ e ∈ r.ranges, e.stop ≤ mappedBytes
  words : ∀ word ∈ r.castWords, word % 4 = 0
  records : r.recordStart.toNat % 8 = 0

theorem Safe.index_apart {r : Regions} {n : ℕ} (h : Safe r n) :
    Apart ⟨r.artRoot.toNat, max 8 r.artBytes.toNat⟩ ⟨r.stringStart.toNat, r.stringBytes.toNat⟩ := by
  have hdisjoint := h.disjoint
  simp only [Regions.ranges, List.pairwise_cons] at hdisjoint
  exact hdisjoint.2.2.2.2.1 _ (by simp)

theorem recordBumpOffset_mod (r : Regions) : r.recordBumpOffset % 8 = 0 := by
  rw [Regions.recordBumpOffset, ringBytes]
  simp only [ringOffset, ringHeaderBytes]
  omega

/-- An accepted table is safe exactly when its index region has room for its
root and bump words and its first record is aligned. -/
theorem safe_iff (r : Regions) (mappedBytes : ℕ) (h : validateRegions r mappedBytes = .ok ()) :
    Safe r mappedBytes ↔ r.artStart ≤ r.stringStart.toNat ∧ r.recordStart.toNat % 8 = 0 := by
  have hv := (valid_iff r mappedBytes).mp h
  have hbump := recordBumpOffset_mod r
  have hring : r.recordBumpOffset = ringOffset + ringBytes r.ringCapacity.toNat := rfl
  have hartStart : r.artStart = r.artRoot.toNat + 8 := rfl
  have hartBump : r.artBumpOffset = r.artRoot.toNat + 4 := rfl
  obtain ⟨hheader, harena, -, -, hrecord, hrecordEnd, hroot, hstring, hartEnd, hbytes, hstringEnd⟩ := hv
  rw [Regions.recordEnd] at hrecordEnd
  rw [Regions.artEnd] at hartEnd
  rw [Regions.stringEnd] at hstringEnd
  simp only [ringOffset, headerBytes] at hring hheader
  constructor
  · intro hsafe
    refine ⟨?_, hsafe.records⟩
    by_contra hshort
    refine hsafe.index_apart r.stringStart.toNat ⟨⟨?_, ?_⟩, le_rfl, ?_⟩ <;> simp only [Extent.stop] <;> omega
  · rintro ⟨hroom, hrecords⟩
    refine ⟨?_, ?_, ?_, hrecords⟩
    · simp only [Regions.ranges, List.pairwise_cons, List.forall_mem_cons, List.not_mem_nil, false_implies,
        implies_true, List.Pairwise.nil, and_true]
      refine ⟨⟨?_, ?_, ?_, ?_, ?_⟩, ⟨?_, ?_, ?_, ?_⟩, ⟨?_, ?_, ?_⟩, ⟨?_, ?_⟩, ?_⟩ <;>
        refine apart_of_le ?_ <;> simp only [Extent.stop, ringOffset, headerBytes] <;> omega
    · simp only [Regions.ranges, List.forall_mem_cons, List.not_mem_nil, false_implies, implies_true, and_true,
        Extent.stop, ringOffset, headerBytes]
      omega
    · simp only [Regions.castWords, List.forall_mem_cons, List.not_mem_nil, false_implies, implies_true,
        and_true]
      omega

theorem smallRegions_safe : Safe smallRegions 65536 :=
  (safe_iff smallRegions 65536 ((valid_iff _ _).mpr smallRegions_valid)).mpr ⟨by decide, by decide⟩

/-- An index region of no bytes: its root word is the string bump word. -/
def noIndexRegions : Regions := ⟨65536, 16, 4096, 45056, 49152, 0, 49152, 16384⟩

/-- The first record is at an odd address. -/
def oddRecordRegions : Regions := ⟨65536, 16, 4097, 45055, 49152, 8192, 57344, 8192⟩

theorem accepted_not_safe :
    (validateRegions noIndexRegions 65536 = .ok () ∧ ¬ Safe noIndexRegions 65536) ∧
      validateRegions oddRecordRegions 65536 = .ok () ∧ ¬ Safe oddRecordRegions 65536 := by
  refine ⟨⟨by decide, fun h ↦ ?_⟩, by decide, fun h ↦ ?_⟩
  · exact h.index_apart 49152 (by decide)
  · exact absurd h.records (by decide)

end TakyonDb.Layout
