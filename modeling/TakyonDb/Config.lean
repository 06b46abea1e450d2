import TakyonDb.DefaultRegions

namespace TakyonDb.Config

open Lib.Checked Layout

/-- The sizes an operator states, in bytes and in ring slots. -/
structure RegionOverrides where
  recordBytes : Option UInt32
  artBytes : Option UInt32
  stringBytes : Option UInt32
  ringCapacity : Option UInt32
deriving DecidableEq

/-- The bytes stated, or the default with the difference where a smaller ring moved the start back. -/
def recordBytesFor (defaults : Regions) (o : RegionOverrides) (recStart : UInt32) : Option UInt32 :=
  match o.recordBytes with
  | some v => alignForward v
  | none =>
    if defaults.recordStart ≤ recStart then some defaults.recordBytes
    else do
      let slack ← sub defaults.recordStart recStart
      add defaults.recordBytes slack

/-- What an arena has behind an offset. -/
def restOf (arena offset : UInt32) : Option UInt32 :=
  if arena ≤ offset then some 0 else sub arena offset

/-- The bytes stated, or the default where half of what remains holds it. -/
def artBytesFor (defaults : Regions) (o : RegionOverrides) (artRoot : UInt32) : Option UInt32 := do
  let remaining ← restOf defaults.arenaBytes artRoot
  match o.artBytes with
  | some v => alignForward v
  | none => alignForward (min defaults.artBytes (max 8 (remaining / 2)))

/-- The table for an operator's sizes, or nothing where the arithmetic traps. -/
def regionsFor (defaults : Regions) : Option RegionOverrides → Option Regions
  | none => some defaults
  | some o => do
    let capacity := o.ringCapacity.getD defaults.ringCapacity
    let ringEnd ← intCast (ringOffset + ringBytes capacity.toNat)
    let recStart ← add ringEnd 8
    let recBytes ← recordBytesFor defaults o recStart
    let recEnd ← add recStart recBytes
    -- never the larger branch: the addition has trapped before the comparison
    let artRoot := if recEnd < recStart then 0xFFFFFFFF else recEnd
    let artBytes ← artBytesFor defaults o artRoot
    let artEnd ← add artRoot artBytes
    let strStart := if defaults.arenaBytes ≤ artEnd then defaults.arenaBytes else artEnd
    let strBytes ← restOf defaults.arenaBytes strStart
    return ⟨defaults.arenaBytes, capacity, recStart, recBytes, artRoot, artBytes, strStart, strBytes⟩

namespace RegionOverrides

variable (o : RegionOverrides)

def noSizes : RegionOverrides := ⟨none, none, none, none⟩

/-- Every size stated is the size in the table; the strings may get more. -/
structure Stated (r : Regions) : Prop where
  records : ∀ v ∈ o.recordBytes, r.recordBytes.toNat = roundUp v.toNat
  index : ∀ v ∈ o.artBytes, r.artBytes.toNat = roundUp v.toNat
  strings : ∀ v ∈ o.stringBytes, roundUp v.toNat ≤ r.stringBytes.toNat
  ring : ∀ v ∈ o.ringCapacity, r.ringCapacity = v

/-- The ring slots asked for, or the default. -/
def slots : ℕ := (o.ringCapacity.getD 4096).toNat

/-- Where the records of a table with this ring start. -/
def recordsFrom : ℕ := 1480 + 72 * o.slots

/-- The bytes asked for, or the default with what a smaller ring frees. -/
def recordRoom : ℕ :=
  match o.recordBytes with
  | some v => roundUp v.toNat
  | none => 1800760 + (296392 - o.recordsFrom)

def indexFrom : ℕ := o.recordsFrom + o.recordRoom

/-- The bytes asked for, or the default where half of what follows the records holds it. -/
def indexRoom (arena : ℕ) : ℕ :=
  match o.artBytes with
  | some v => roundUp v.toNat
  | none => roundUp (min 8388608 (max 8 ((arena - o.indexFrom) / 2)))

def stringsFrom (arena : ℕ) : ℕ := o.indexFrom + o.indexRoom arena

/-- The ring, the records and the index end at an address; the strings fit behind them where the
table is not refused; and an arena for which nothing is stated holds the default index twice. -/
structure Fits (arena : ℕ) : Prop where
  address : o.stringsFrom arena < 2 ^ 32
  strings : ∀ v ∈ o.stringBytes, 16 ≤ o.slots → isPowerOfTwo (o.ringCapacity.getD 4096) = true →
    o.stringsFrom arena + 8 ≤ arena → o.stringsFrom arena + roundUp v.toNat ≤ arena
  default_index : o = noSizes → 18874354 ≤ arena

end RegionOverrides

/-- The default table of an arena the engine accepts. -/
def defaults (arena : ℕ) : Regions :=
  ⟨UInt32.ofNat arena, 4096, recordStartDefault, 1800760, artRootOffset, 8388608, stringArenaStart,
    UInt32.ofNat arena - stringArenaStart⟩

/-- What the table says where the arithmetic does not trap. -/
structure Fitted (arena : ℕ) (o : RegionOverrides) (r : Regions) : Prop where
  arena_eq : r.arenaBytes = UInt32.ofNat arena
  capacity_eq : r.ringCapacity = o.ringCapacity.getD 4096
  recordStart_eq : r.recordStart.toNat = o.recordsFrom
  recordBytes_eq : r.recordBytes.toNat = o.recordRoom
  artRoot_eq : r.artRoot.toNat = o.indexFrom
  artBytes_eq : r.artBytes.toNat = o.indexRoom arena
  stringStart_eq : r.stringStart.toNat = min arena (o.stringsFrom arena)
  stringBytes_eq : r.stringBytes.toNat = arena - o.stringsFrom arena

variable {arena : ℕ} {o : RegionOverrides}

theorem defaults_recordStart : (defaults arena).recordStart.toNat = 296392 := rfl

theorem defaults_recordBytes : (defaults arena).recordBytes.toNat = 1800760 := rfl

theorem defaults_artBytes : (defaults arena).artBytes.toNat = 8388608 := rfl

theorem recordBytesFor_eq_some {recStart u : UInt32} (hstart : recStart.toNat = o.recordsFrom) :
    recordBytesFor (defaults arena) o recStart = some u ↔
      o.recordRoom < 2 ^ 32 ∧ u.toNat = o.recordRoom := by
  have hdefault := @defaults_recordStart arena
  have hbytes := @defaults_recordBytes arena
  cases hstated : o.recordBytes with
  | some v => simp only [recordBytesFor, hstated, alignForward_eq_some, RegionOverrides.recordRoom]
  | none =>
    simp only [recordBytesFor, hstated, RegionOverrides.recordRoom]
    split
    · rename_i hle
      have hle' := UInt32.le_iff_toNat_le.mp hle
      rw [Option.some.injEq, ← UInt32.toNat_inj]
      omega
    · rename_i hlt
      have hlt' := mt UInt32.le_iff_toNat_le.mpr hlt
      simp only [Option.bind_eq_bind, Option.bind_eq_some_iff, add_eq_some]
      constructor
      · intro h
        obtain ⟨slack, hslack, hsum⟩ := h
        have hdiff := (sub_eq_some.mp hslack).2
        omega
      · intro h
        obtain ⟨slack, hslack, hdiff⟩ := sub_of_le (a := (defaults arena).recordStart) (b := recStart) (by omega)
        exact ⟨slack, hslack, by omega⟩

theorem restOf_spec (a offset : UInt32) :
    ∃ u, restOf a offset = some u ∧ u.toNat = a.toNat - offset.toNat := by
  unfold restOf
  split
  · rename_i hle
    have hle' := UInt32.le_iff_toNat_le.mp hle
    have hzero : (0 : UInt32).toNat = 0 := rfl
    exact ⟨0, rfl, by omega⟩
  · rename_i hlt
    have hlt' := mt UInt32.le_iff_toNat_le.mpr hlt
    exact sub_of_le (by omega)

theorem toNat_min (a b : UInt32) : (if a ≤ b then a else b).toNat = min a.toNat b.toNat := by
  rw [Nat.min_def]
  simp only [UInt32.le_iff_toNat_le]
  split <;> rfl

theorem toNat_max (a b : UInt32) : (max a b).toNat = max a.toNat b.toNat := by
  change (if a ≤ b then b else a).toNat = _
  rw [Nat.max_def]
  simp only [UInt32.le_iff_toNat_le]
  split <;> rfl

theorem artBytesFor_eq_some (harena : arena < 2 ^ 32) {artRoot u : UInt32} (hroot : artRoot.toNat = o.indexFrom) :
    artBytesFor (defaults arena) o artRoot = some u ↔
      o.indexRoom arena < 2 ^ 32 ∧ u.toNat = o.indexRoom arena := by
  have hsize : (defaults arena).arenaBytes.toNat = arena := UInt32.toNat_ofNat_of_lt' harena
  obtain ⟨left, hleft, hleft'⟩ := restOf_spec (defaults arena).arenaBytes artRoot
  simp only [artBytesFor, hleft, Option.bind_eq_bind, Option.bind_some]
  cases hstated : o.artBytes with
  | some v => simp only [alignForward_eq_some, RegionOverrides.indexRoom, hstated]
  | none =>
    have hshare : (min (defaults arena).artBytes (max 8 (left / 2))).toNat =
        min 8388608 (max 8 ((arena - o.indexFrom) / 2)) := by
      have hhalf : (left / 2).toNat = left.toNat / 2 := rfl
      have height : (8 : UInt32).toNat = 8 := rfl
      change (if (defaults arena).artBytes ≤ max 8 (left / 2) then _ else _ : UInt32).toNat = _
      rw [toNat_min, toNat_max, defaults_artBytes, hhalf, hleft', hsize, hroot, height]
    simp only [alignForward_eq_some, RegionOverrides.indexRoom, hstated, hshare]

theorem regionsFor_fitted (harena : arena < 2 ^ 32) {r : Regions}
    (h : regionsFor (defaults arena) (some o) = some r) :
    o.stringsFrom arena < 2 ^ 32 ∧ Fitted arena o r := by
  have hsize : (defaults arena).arenaBytes.toNat = arena := UInt32.toNat_ofNat_of_lt' harena
  have hring : ringOffset + ringBytes o.slots + 8 = o.recordsFrom := by
    simp only [RegionOverrides.recordsFrom, ringOffset, ringBytes, ringHeaderBytes]
    omega
  have height : (8 : UInt32).toNat = 8 := rfl
  simp only [regionsFor, Option.bind_eq_bind, Option.bind_eq_some_iff, pure, Option.some.injEq] at h
  obtain ⟨ringEnd, hend, recStart, hstart, recBytes, hrec, recEnd, hrecEnd, artBytes, hart, artEnd, hartEnd,
    strBytes, hstr, rfl⟩ := h
  have hend' := intCast_eq_some.mp hend
  have hstart' := add_eq_some.mp hstart
  have hfrom : recStart.toNat = o.recordsFrom := by
    have hslots : (o.ringCapacity.getD (defaults arena).ringCapacity).toNat = o.slots := rfl
    rw [hslots] at hend'
    omega
  have hrec' := (recordBytesFor_eq_some hfrom).mp hrec
  have hrecEnd' := add_eq_some.mp hrecEnd
  have hnot : ¬ recEnd < recStart := by
    rw [UInt32.lt_iff_toNat_lt]
    omega
  rw [if_neg hnot] at hart hartEnd
  have hindex : recEnd.toNat = o.indexFrom := by
    rw [RegionOverrides.indexFrom]
    omega
  have hart' := (artBytesFor_eq_some harena hindex).mp hart
  have hartEnd' := add_eq_some.mp hartEnd
  have hstrings : artEnd.toNat = o.stringsFrom arena := by
    rw [RegionOverrides.stringsFrom]
    omega
  have hstart_eq : (if (defaults arena).arenaBytes ≤ artEnd then (defaults arena).arenaBytes else artEnd).toNat =
      min arena (o.stringsFrom arena) := by
    rw [toNat_min, hsize, hstrings]
  obtain ⟨rest, hrest, hrest'⟩ := restOf_spec (defaults arena).arenaBytes
    (if (defaults arena).arenaBytes ≤ artEnd then (defaults arena).arenaBytes else artEnd)
  obtain rfl : rest = strBytes := Option.some.inj (hrest.symm.trans hstr)
  refine ⟨by omega, rfl, rfl, hfrom, hrec'.2, ?_, hart'.2, hstart_eq, ?_⟩
  · simp only [if_neg hnot, hindex]
  · simp only [hrest', hstart_eq, hsize]
    omega

theorem regionsFor_of_lt (harena : arena < 2 ^ 32) (h : o.stringsFrom arena < 2 ^ 32) :
    ∃ r, regionsFor (defaults arena) (some o) = some r := by
  have hsize : (defaults arena).arenaBytes.toNat = arena := UInt32.toNat_ofNat_of_lt' harena
  have hring : ringOffset + ringBytes o.slots + 8 = o.recordsFrom := by
    simp only [RegionOverrides.recordsFrom, ringOffset, ringBytes, ringHeaderBytes]
    omega
  have height : (8 : UInt32).toNat = 8 := rfl
  have hslots : (o.ringCapacity.getD (defaults arena).ringCapacity).toNat = o.slots := rfl
  have hfrom : o.stringsFrom arena = o.recordsFrom + o.recordRoom + o.indexRoom arena := rfl
  obtain ⟨ringEnd, hend, hend'⟩ := intCast_of_lt (n := ringOffset + ringBytes o.slots) (by omega)
  obtain ⟨recStart, hstart, hstart'⟩ := add_of_lt (a := ringEnd) (b := 8) (by omega)
  have hroom : (UInt32.ofNat o.recordRoom).toNat = o.recordRoom :=
    UInt32.toNat_ofNat_of_lt' (show _ < 2 ^ 32 by omega)
  have hrec := (@recordBytesFor_eq_some arena _ _ _ (hstart'.trans (by omega))).mpr ⟨by omega, hroom⟩
  obtain ⟨recEnd, hrecEnd, hrecEnd'⟩ := add_of_lt (a := recStart) (b := UInt32.ofNat o.recordRoom) (by omega)
  have hnot : ¬ recEnd < recStart := by
    rw [UInt32.lt_iff_toNat_lt]
    omega
  have hindex : recEnd.toNat = o.indexFrom := by
    rw [RegionOverrides.indexFrom]
    omega
  have hshare : (UInt32.ofNat (o.indexRoom arena)).toNat = o.indexRoom arena :=
    UInt32.toNat_ofNat_of_lt' (show _ < 2 ^ 32 by omega)
  have hart := (artBytesFor_eq_some harena hindex).mpr ⟨by omega, hshare⟩
  obtain ⟨artEnd, hartEnd, -⟩ := add_of_lt (a := recEnd) (b := UInt32.ofNat (o.indexRoom arena)) (by omega)
  obtain ⟨rest, hrest, -⟩ := restOf_spec (defaults arena).arenaBytes
    (if (defaults arena).arenaBytes ≤ artEnd then (defaults arena).arenaBytes else artEnd)
  simp only [regionsFor, hslots, hend, hstart, hrec, hrecEnd, if_neg hnot, hart, hartEnd, hrest,
    Option.bind_eq_bind, Option.bind_some, pure]
  exact ⟨_, rfl⟩

theorem roundUp_mod (n : ℕ) : roundUp n % 8 = 0 := by
  rw [roundUp]
  omega

theorem recordRoom_mod (o : RegionOverrides) : o.recordRoom % 8 = 0 := by
  have hfrom : o.recordsFrom = 1480 + 72 * o.slots := rfl
  unfold RegionOverrides.recordRoom
  split
  · exact roundUp_mod _
  · omega

theorem indexRoom_mod (o : RegionOverrides) (arena : ℕ) : o.indexRoom arena % 8 = 0 := by
  unfold RegionOverrides.indexRoom
  split <;> exact roundUp_mod _

theorem Fitted.valid_iff {r : Regions} (h : Fitted arena o r) (hlt : arena < 2 ^ 32)
    (haddress : o.stringsFrom arena < 2 ^ 32) :
    Valid r arena ↔
      16 ≤ o.slots ∧ isPowerOfTwo (o.ringCapacity.getD 4096) = true ∧ o.stringsFrom arena + 8 ≤ arena := by
  have hslots : (o.ringCapacity.getD 4096).toNat = o.slots := rfl
  constructor
  · intro hvalid
    have hcapacity := hvalid.capacity
    have hpower := hvalid.power
    have hstrings := hvalid.string_bytes
    rw [h.capacity_eq] at hcapacity hpower
    rw [h.stringBytes_eq] at hstrings
    exact ⟨hcapacity, hpower, by omega⟩
  · intro haccept
    obtain ⟨hcapacity, hpower, hroom⟩ := haccept
    have hfrom : o.recordsFrom = 1480 + 72 * o.slots := rfl
    have hindex : o.indexFrom = o.recordsFrom + o.recordRoom := rfl
    have hstrings : o.stringsFrom arena = o.indexFrom + o.indexRoom arena := rfl
    have hrecord := recordRoom_mod o
    have hart := indexRoom_mod o arena
    refine ⟨by rw [headerBytes]; omega, ?_, ?_, ?_, ?_, ?_, ?_, ?_, ?_, ?_, ?_⟩
    · rw [h.arena_eq, UInt32.toNat_ofNat_of_lt' hlt]
    · rwa [h.capacity_eq]
    · rwa [h.capacity_eq]
    · rw [h.recordStart_eq, Regions.recordBumpOffset, h.capacity_eq, hslots, ringOffset, ringBytes, ringHeaderBytes]
      omega
    · rw [Regions.recordEnd, h.recordStart_eq, h.recordBytes_eq, h.artRoot_eq, hindex]
    · rw [h.artRoot_eq]
      omega
    · rw [h.stringStart_eq]
      omega
    · rw [Regions.artEnd, h.artRoot_eq, h.artBytes_eq, h.stringStart_eq]
      omega
    · rw [h.stringBytes_eq]
      omega
    · rw [Regions.stringEnd, h.stringStart_eq, h.stringBytes_eq]
      omega

theorem Fitted.stated_iff {r : Regions} (h : Fitted arena o r) :
    o.Stated r ↔ ∀ v ∈ o.stringBytes, roundUp v.toNat ≤ arena - o.stringsFrom arena := by
  constructor
  · intro hstated v hv
    have hle := hstated.strings v hv
    rwa [h.stringBytes_eq] at hle
  · intro hstrings
    refine ⟨fun v hv ↦ ?_, fun v hv ↦ ?_, fun v hv ↦ ?_, fun v hv ↦ ?_⟩
    · rw [h.recordBytes_eq, RegionOverrides.recordRoom, Option.mem_def.mp hv]
    · rw [h.artBytes_eq, RegionOverrides.indexRoom, Option.mem_def.mp hv]
    · rw [h.stringBytes_eq]
      exact hstrings v hv
    · rw [h.capacity_eq, Option.mem_def.mp hv, Option.getD_some]

/-- With nothing stated the table is the default one where half of what follows the records
rounds up to the default index. -/
theorem Fitted.eq_defaults_iff {r : Regions} (h : Fitted arena .noSizes r) (hmin : minArenaSize ≤ arena)
    (hlt : arena < 2 ^ 32) : r = defaults arena ↔ 18874354 ≤ arena := by
  have hfrom : RegionOverrides.noSizes.indexFrom = 2097152 := rfl
  have hroom : RegionOverrides.noSizes.indexRoom arena =
    roundUp (min 8388608 (max 8 ((arena - 2097152) / 2))) := rfl
  have hstrings : RegionOverrides.noSizes.stringsFrom arena =
    2097152 + RegionOverrides.noSizes.indexRoom arena := rfl
  rw [roundUp] at hroom
  rw [minArenaSize] at hmin
  have hart := h.artBytes_eq
  constructor
  · intro heq
    rw [heq, defaults_artBytes] at hart
    omega
  · intro hlarge
    have hshare : RegionOverrides.noSizes.indexRoom arena = 8388608 := by omega
    have hend : RegionOverrides.noSizes.stringsFrom arena = 10485760 := by omega
    have hmin' : min arena 10485760 = 10485760 := by omega
    have hstart := h.stringStart_eq
    have hbytes := h.stringBytes_eq
    have hsize := UInt32.toNat_ofNat_of_lt' hlt
    have hle : stringArenaStart ≤ UInt32.ofNat arena := by
      rw [UInt32.le_iff_toNat_le, hsize]
      exact le_trans (by decide) hlarge
    have hrest := UInt32.toNat_sub_of_le _ _ hle
    have hstrings' : stringArenaStart.toNat = 10485760 := by decide
    have hindex : (8388608 : UInt32).toNat = 8388608 := by decide
    obtain ⟨size, capacity, recordStart, recordBytes, artRoot, artBytes, stringStart, stringBytes⟩ := r
    simp only [defaults, Regions.mk.injEq, ← UInt32.toNat_inj, hrest, hsize]
    refine ⟨?_, congrArg _ h.capacity_eq, ?_, ?_, ?_, ?_, ?_, ?_⟩
    · exact (congrArg _ h.arena_eq).trans hsize
    · exact h.recordStart_eq.trans (by decide)
    · exact h.recordBytes_eq.trans (by decide)
    · exact h.artRoot_eq.trans (by decide)
    · exact hart.trans (hshare.trans hindex.symm)
    · rw [hend, hmin'] at hstart
      exact hstart.trans hstrings'.symm
    · rw [hend] at hbytes
      exact hbytes.trans (congrArg _ hstrings'.symm)

/-- The overrides are computed without a trap, every size stated is in the table unless it is
refused, and stating nothing gives the default table. -/
def Honoured (arena : ℕ) (overrides : Option RegionOverrides) : Prop :=
  ∃ d r, defaultRegions arena = some d ∧ regionsFor d overrides = some r ∧
    (validateRegions r arena ≠ .ok () ∨ (overrides.getD .noSizes).Stated r) ∧
    (overrides.getD .noSizes = .noSizes → r = d)

theorem honoured_some_iff (hdefault : defaultRegions arena = some (defaults arena)) :
    Honoured arena (some o) ↔ ∃ r, regionsFor (defaults arena) (some o) = some r ∧
      (¬ Valid r arena ∨ o.Stated r) ∧ (o = .noSizes → r = defaults arena) := by
  simp only [Honoured, ne_eq, valid_iff, Option.getD_some]
  constructor
  · intro h
    obtain ⟨d, r, hd, hr⟩ := h
    obtain rfl := Option.some.inj (hdefault.symm.trans hd)
    exact ⟨r, hr⟩
  · intro h
    obtain ⟨r, hr⟩ := h
    exact ⟨_, r, hdefault, hr⟩

theorem honoured_iff (arena : ℕ) (hmin : minArenaSize ≤ arena) (hlt : arena < 2 ^ 32)
    (overrides : Option RegionOverrides) : Honoured arena overrides ↔ ∀ o ∈ overrides, o.Fits arena := by
  have hdefault : defaultRegions arena = some (defaults arena) :=
    defaultRegions_large (le_trans (by decide) hmin) hlt
  cases overrides with
  | none =>
    refine ⟨fun _ o ho ↦ absurd ho (by simp), fun _ ↦ ⟨_, _, hdefault, rfl, .inr ?_, fun _ ↦ rfl⟩⟩
    refine ⟨fun v hv ↦ ?_, fun v hv ↦ ?_, fun v hv ↦ ?_, fun v hv ↦ ?_⟩ <;>
      exact absurd hv (by simp [RegionOverrides.noSizes])
  | some o =>
    simp only [honoured_some_iff hdefault, Option.mem_def, Option.some.injEq, forall_eq']
    constructor
    · intro h
      obtain ⟨r, hr, hsizes, hnone⟩ := h
      obtain ⟨haddress, hfitted⟩ := regionsFor_fitted hlt hr
      rw [hfitted.valid_iff hlt haddress, hfitted.stated_iff] at hsizes
      refine ⟨haddress, fun v hv hcap hpow hroom ↦ ?_, fun ho ↦ ?_⟩
      · have hstrings := hsizes.resolve_left (not_not.mpr ⟨hcap, hpow, hroom⟩) v hv
        omega
      · subst ho
        exact (hfitted.eq_defaults_iff hmin hlt).mp (hnone rfl)
    · intro h
      obtain ⟨r, hr⟩ := regionsFor_of_lt hlt h.address
      obtain ⟨haddress, hfitted⟩ := regionsFor_fitted hlt hr
      refine ⟨r, hr, ?_, fun ho ↦ ?_⟩
      · rw [hfitted.valid_iff hlt haddress, hfitted.stated_iff]
        by_cases haccept : 16 ≤ o.slots ∧ isPowerOfTwo (o.ringCapacity.getD 4096) = true ∧
            o.stringsFrom arena + 8 ≤ arena
        · refine .inr fun v hv ↦ ?_
          have hstrings := h.strings v hv haccept.1 haccept.2.1 haccept.2.2
          omega
        · exact .inl haccept
      · subst ho
        exact (hfitted.eq_defaults_iff hmin hlt).mpr (h.default_index rfl)

/-- Four sizes that fit the smallest arena, one of them no multiple of eight. -/
def fourSizes : RegionOverrides where
  recordBytes := some 1048577
  artBytes := some 4194304
  stringBytes := some 2097152
  ringCapacity := some 1024

theorem honoured_fourSizes : Honoured 16777216 (some fourSizes) := by
  refine (honoured_iff 16777216 (by decide) (by decide) _).mpr fun o ho ↦ ?_
  obtain rfl := Option.some.inj ho
  refine ⟨by decide, fun v hv _ _ _ ↦ ?_, nofun⟩
  obtain rfl := Option.some.inj hv
  decide

/-- An empty struct in the smallest arena gets a smaller index than the default table's. -/
theorem noSizes_not_honoured : ¬ Honoured 16777216 (some .noSizes) := by
  intro h
  obtain ⟨d, r, hd, hr, -, hnone⟩ := h
  obtain rfl : d = defaults 16777216 :=
    Option.some.inj (hd.symm.trans (defaultRegions_large (by decide) (by decide)))
  obtain rfl := hnone rfl
  obtain ⟨-, hfitted⟩ := regionsFor_fitted (by decide) hr
  exact absurd hfitted.artBytes_eq (by decide)

end TakyonDb.Config
