import TakyonDb.Layout

namespace TakyonDb.ClientLayout

open Layout (Regions globalReserved headerBytes ringOffset)

abbrev ringHeaderBytes : ℕ := 192
abbrev deltaSize : ℕ := 64
abbrev ringSeqBytes : ℕ := 8

def ringBytes (capacity : ℕ) : ℕ := ringHeaderBytes + capacity * (deltaSize + ringSeqBytes)

def recordBumpOffset (regions : Regions) : ℕ := ringOffset + ringBytes regions.ringCapacity.toNat

def artStart (regions : Regions) : ℕ := regions.artRoot.toNat + 8

def artBumpOffset (regions : Regions) : ℕ := regions.artRoot.toNat + 4

def stringDataStart (regions : Regions) : ℕ := regions.stringStart.toNat + 8

/-- Where `getRecordBumpView` puts the view that `allocateRecordOffset` adds to. -/
def recordBumpView (regions : Regions) : ℕ := regions.recordStart.toNat - 8

def validateRegions (regions : Regions) (mappedBytes : ℕ) : Except String Unit :=
  let capacity := regions.ringCapacity
  if mappedBytes < headerBytes then .error "arena too small to hold a header"
  else if regions.arenaBytes.toNat ≠ mappedBytes then
    .error ("region table was built for " ++ toString regions.arenaBytes ++ " bytes but the mapping is " ++
      toString mappedBytes)
  else if capacity.toNat < 16 ∨ capacity &&& (capacity - 1) ≠ 0 then
    .error ("ring capacity " ++ toString capacity ++ " must be a power of two of at least 16")
  else if regions.recordStart.toNat < recordBumpOffset regions + 8 then
    .error ("record region starts at " ++ toString regions.recordStart ++ ", inside the ring")
  else if regions.artRoot.toNat < regions.recordStart.toNat + regions.recordBytes.toNat then
    .error "record region runs into the index"
  else if regions.artRoot.toNat % 8 ≠ 0 then
    .error ("index root " ++ toString regions.artRoot ++ " is not 8-byte aligned")
  else if regions.stringStart.toNat < regions.artRoot.toNat + regions.artBytes.toNat then
    .error "index region runs into the string region"
  else if regions.stringBytes.toNat < 8 then .error "string region leaves no room for its bump word"
  else if regions.arenaBytes.toNat < regions.stringStart.toNat + regions.stringBytes.toNat then
    .error "string region runs past the end of the arena"
  else .ok ()

/-- What a table that the client accepts promises about its boundaries. -/
structure Valid (r : Regions) (mappedBytes : ℕ) : Prop where
  header : headerBytes ≤ mappedBytes
  arena : r.arenaBytes.toNat = mappedBytes
  capacity : 16 ≤ r.ringCapacity.toNat
  power : r.ringCapacity &&& (r.ringCapacity - 1) = 0
  record : recordBumpOffset r + 8 ≤ r.recordStart.toNat
  recordEnd_le : r.recordEnd ≤ r.artRoot.toNat
  root_aligned : r.artRoot.toNat % 8 = 0
  artEnd_le : r.artEnd ≤ r.stringStart.toNat
  string_bytes : 8 ≤ r.stringBytes.toNat
  stringEnd_le : r.stringEnd ≤ mappedBytes

theorem valid_iff (r : Regions) (n : ℕ) : validateRegions r n = .ok () ↔ Valid r n := by
  constructor
  · intro h
    simp only [validateRegions] at h
    split_ifs at h with h₁ h₂ h₃ h₄ h₅ h₆ h₇ h₈ h₉
    push Not at h₁ h₂ h₃ h₄ h₅ h₆ h₇ h₈ h₉
    exact ⟨h₁, h₂, h₃.1, h₃.2, h₄, h₅, h₆, h₇, h₈, h₂ ▸ h₉⟩
  · rintro ⟨hheader, harena, hcapacity, hpower, hrecord, hrecordEnd, hroot, hartEnd, hbytes, hstringEnd⟩
    rw [Regions.recordEnd] at hrecordEnd
    rw [Regions.artEnd] at hartEnd
    rw [Regions.stringEnd] at hstringEnd
    simp only [validateRegions]
    rw [if_neg (Nat.not_lt.mpr hheader), if_neg (by simpa using harena),
      if_neg (by push Not; exact ⟨hcapacity, hpower⟩), if_neg (Nat.not_lt.mpr hrecord),
      if_neg (Nat.not_lt.mpr hrecordEnd), if_neg (by simpa using hroot), if_neg (Nat.not_lt.mpr hartEnd),
      if_neg (Nat.not_lt.mpr hbytes), if_neg (by omega)]

/-- Both sides accept the same tables, and name the same offsets in an
accepted one. -/
structure Agrees (r : Regions) (mappedBytes : ℕ) : Prop where
  accepts : validateRegions r mappedBytes = .ok () ↔ Layout.validateRegions r mappedBytes = .ok ()
  offsets : validateRegions r mappedBytes = .ok () →
    recordBumpOffset r = r.recordBumpOffset ∧ recordBumpView r = r.recordBumpOffset ∧
      artBumpOffset r = r.artBumpOffset ∧ artStart r = r.artStart ∧ stringDataStart r = r.stringDataStart

/-- The client counts 192 bytes for a ring header of 448. -/
theorem recordBumpOffset_add (r : Regions) : recordBumpOffset r + 256 = r.recordBumpOffset := by
  rw [recordBumpOffset, ringBytes, Regions.recordBumpOffset, Layout.ringBytes]
  simp only [ringHeaderBytes, Layout.ringHeaderBytes, deltaSize, ringSeqBytes]
  omega

theorem valid_of_engine {r : Regions} {n : ℕ} (h : Layout.Valid r n) : Valid r n := by
  have hadd := recordBumpOffset_add r
  have hrecord := h.record
  exact ⟨h.header, h.arena, h.capacity, by simpa [Layout.isPowerOfTwo] using h.power, by omega,
    h.recordEnd_le, h.root_aligned, h.artEnd_le, h.string_bytes, h.stringEnd_le⟩

/-- The two sides agree on no table that the client accepts. -/
theorem agrees_iff (r : Regions) (mappedBytes : ℕ) : Agrees r mappedBytes ↔ ¬ Valid r mappedBytes := by
  constructor
  · intro h hvalid
    have hsame := (h.offsets ((valid_iff r mappedBytes).mpr hvalid)).1
    have hadd := recordBumpOffset_add r
    omega
  · intro hnot
    have hclient : validateRegions r mappedBytes ≠ .ok () := fun h ↦ hnot ((valid_iff r mappedBytes).mp h)
    refine ⟨iff_of_false hclient fun h ↦ hnot ?_, fun h ↦ absurd h hclient⟩
    exact valid_of_engine ((Layout.valid_iff r mappedBytes).mp h)

/-- What the two sides do agree on, and where the view that the client uses
meets the engine's word. -/
theorem offsets_of_valid {r : Regions} {n : ℕ} (h : Layout.Valid r n) :
    artBumpOffset r = r.artBumpOffset ∧ artStart r = r.artStart ∧ stringDataStart r = r.stringDataStart ∧
      (recordBumpView r = r.recordBumpOffset ↔ r.recordStart.toNat = r.recordBumpOffset + 8) := by
  have hrecord := h.record
  refine ⟨rfl, rfl, rfl, ?_⟩
  rw [recordBumpView]
  omega

/-- The client accepts exactly the engine's tables and those whose records
start in the last 256 bytes of the ring or whose string word is misaligned. -/
theorem valid_iff_engine {r : Regions} {n : ℕ} : Layout.Valid r n ↔
    Valid r n ∧ r.recordBumpOffset + 8 ≤ r.recordStart.toNat ∧ r.stringStart.toNat % 8 = 0 := by
  constructor
  · exact fun h ↦ ⟨valid_of_engine h, h.record, h.string_aligned⟩
  · rintro ⟨h, hrecord, hstring⟩
    exact ⟨h.header, h.arena, h.capacity, by simpa [Layout.isPowerOfTwo] using h.power, hrecord,
      h.recordEnd_le, h.root_aligned, hstring, h.artEnd_le, h.string_bytes, h.stringEnd_le⟩

/-- A table that starts its records inside the ring of 16 slots. -/
def insideRing : Regions := ⟨65536, 16, 2376, 46776, 49152, 8192, 57344, 8192⟩

theorem client_disagrees :
    (validateRegions insideRing 65536 = .ok () ∧
      Layout.validateRegions insideRing 65536 = .error .recordStartInsideRing) ∧
    Layout.validateRegions Layout.smallRegions 65536 = .ok () ∧
    recordBumpView Layout.smallRegions ≠ Layout.smallRegions.recordBumpOffset ∧
    ¬ Agrees insideRing 65536 ∧ ¬ Agrees Layout.smallRegions 65536 := by
  have hinside : validateRegions insideRing 65536 = .ok () := by decide
  refine ⟨⟨hinside, by decide⟩, by decide, by decide, fun h ↦ ?_, fun h ↦ ?_⟩
  · exact absurd (h.accepts.mp hinside) (by decide)
  · exact absurd (h.offsets (by decide)).1 (by decide)

end TakyonDb.ClientLayout
