import Mathlib.Tactic.IntervalCases
import TakyonDb.Layout
import TakyonDb.Lib.Checked

namespace TakyonDb.Layout

open Lib.Checked

abbrev ringDefaultCapacity : ℕ := 4096
abbrev recordStartDefault : UInt32 := 296392
abbrev artRootOffset : UInt32 := 2097152
abbrev stringArenaStart : UInt32 := 10485760
abbrev minArenaSize : ℕ := 16 * 1024 * 1024

/-- The ring of an arena that is too small for the default one: doubled from
`cap` while the next size leaves room. -/
def growRing (arena cap : ℕ) (h : 0 < cap) : ℕ :=
  if cap < ringDefaultCapacity then
    if arena < ringOffset + ringBytes (cap * 2) + 64 then cap
    else growRing arena (cap * 2) (by omega)
  else cap
termination_by ringDefaultCapacity - cap

/-- A quarter of what follows the ring for the records, half of the rest for
the index and what is left for the strings. -/
def scaledRegions (arena recStart capacity : UInt32) : Option Regions := do
  let spare ← sub arena recStart
  let recBytes ← alignForward (spare / 4)
  let artRoot ← add recStart recBytes
  let rest ← sub spare recBytes
  let artBytes ← alignForward (rest / 2)
  let strStart ← add artRoot artBytes
  let strBytes ← sub arena strStart
  return ⟨arena, capacity, recStart, recBytes, artRoot, artBytes, strStart, strBytes⟩

def defaultRegions (arenaBytes : ℕ) : Option Regions := do
  let arena ← intCast arenaBytes
  let ringEnd ← intCast (ringOffset + ringBytes ringDefaultCapacity)
  let recStart ← add ringEnd 8
  if stringArenaStart ≤ arena then
    let strBytes ← sub arena stringArenaStart
    return ⟨arena, 4096, recordStartDefault, artRootOffset - recordStartDefault, artRootOffset,
      stringArenaStart - artRootOffset, stringArenaStart, strBytes⟩
  else
    let least ← add ringEnd 64
    if arena < least then
      let cap := growRing arena.toNat 16 (by decide)
      let smallRingEnd ← intCast (ringOffset + ringBytes cap)
      let smallLeast ← add smallRingEnd 64
      if arena < smallLeast then
        return ⟨arena, 16, smallRingEnd, 0, smallRingEnd, 0, smallRingEnd, 0⟩
      else
        let capacity ← intCast cap
        let smallStart ← add smallRingEnd 8
        scaledRegions arena smallStart capacity
    else scaledRegions arena recStart 4096

/-- The sizes the loop can stop at, and that the ring it stops at fits where the smallest does. -/
theorem growRing_spec (arena k : ℕ) (hk : k ≤ 8) (h : 0 < 16 * 2 ^ k)
    (hfits : ringOffset + ringBytes 16 + 64 ≤ arena → ringOffset + ringBytes (16 * 2 ^ k) + 64 ≤ arena) :
    ∃ j ≤ 8, growRing arena (16 * 2 ^ k) h = 16 * 2 ^ j ∧
      (ringOffset + ringBytes 16 + 64 ≤ arena → ringOffset + ringBytes (16 * 2 ^ j) + 64 ≤ arena) := by
  induction hd : 8 - k generalizing k with
  | zero =>
    have hk8 : k = 8 := by omega
    subst hk8
    rw [growRing, if_neg (by decide)]
    exact ⟨8, le_rfl, rfl, hfits⟩
  | succ d ih =>
    have hlt : 16 * 2 ^ k < ringDefaultCapacity := by
      have hpow : 2 ^ k ≤ 2 ^ 7 := Nat.pow_le_pow_right (by decide) (by omega)
      exact (Nat.mul_le_mul_left 16 hpow).trans_lt (by decide)
    rw [growRing, if_pos hlt]
    split
    · exact ⟨k, hk, rfl, hfits⟩
    · rename_i hroom
      have hdouble : 16 * 2 ^ k * 2 = 16 * 2 ^ (k + 1) := by
        rw [pow_succ]
        omega
      simp only [hdouble] at hroom ⊢
      exact ih (k + 1) (by omega) (by omega) (fun _ ↦ by omega) (by omega)

/-- Each region starts where the one before it ends, and the strings end the arena. -/
structure Packed (r : Regions) (arena recStart capacity : UInt32) : Prop where
  arena_eq : r.arenaBytes = arena
  capacity_eq : r.ringCapacity = capacity
  start_eq : r.recordStart = recStart
  recordEnd_eq : r.recordEnd = r.artRoot.toNat
  artEnd_eq : r.artEnd = r.stringStart.toNat
  stringEnd_eq : r.stringEnd = arena.toNat
  root_aligned : r.artRoot.toNat % 8 = 0
  string_aligned : r.stringStart.toNat % 8 = 0

theorem Packed.valid {r : Regions} {arena recStart capacity : UInt32}
    (h : Packed r arena recStart capacity) (hcap : 16 ≤ capacity.toNat)
    (hpow : isPowerOfTwo capacity = true)
    (hring : ringOffset + ringBytes capacity.toNat + 8 ≤ recStart.toNat)
    (hstrings : 8 ≤ r.stringBytes.toNat) : Valid r arena.toNat where
  header := by
    have hfirst := h.stringEnd_eq
    have hart := h.artEnd_eq
    have hrec := h.recordEnd_eq
    have hstart := h.start_eq
    simp only [Regions.stringEnd, Regions.artEnd, Regions.recordEnd, hstart, headerBytes, ringOffset,
      ringBytes] at *
    omega
  arena := by rw [h.arena_eq]
  capacity := by rwa [h.capacity_eq]
  power := by rwa [h.capacity_eq]
  record := by rwa [Regions.recordBumpOffset, h.capacity_eq, h.start_eq]
  recordEnd_le := h.recordEnd_eq.le
  root_aligned := h.root_aligned
  string_aligned := h.string_aligned
  artEnd_le := h.artEnd_eq.le
  string_bytes := hstrings
  stringEnd_le := h.stringEnd_eq.le

/-- With 56 bytes behind the ring the shares fit, and eight bytes are left for the strings. -/
theorem scaledRegions_spec {arena recStart : UInt32} (capacity : UInt32)
    (hroom : recStart.toNat + 56 ≤ arena.toNat) (haligned : recStart.toNat % 8 = 0) :
    ∃ r, scaledRegions arena recStart capacity = some r ∧ Packed r arena recStart capacity ∧
      8 ≤ r.stringBytes.toNat := by
  have harena := arena.toNat_lt
  have hquarter : ∀ u : UInt32, (u / 4).toNat = u.toNat / 4 := fun _ ↦ rfl
  have hhalf : ∀ u : UInt32, (u / 2).toNat = u.toNat / 2 := fun _ ↦ rfl
  obtain ⟨spare, hspare, hspare'⟩ := sub_of_le (a := arena) (b := recStart) (by omega)
  obtain ⟨recBytes, hrec, hrec'⟩ := alignForward_of_lt (v := spare / 4) (by
    rw [roundUp, hquarter]
    omega)
  rw [roundUp, hquarter] at hrec'
  obtain ⟨artRoot, hroot, hroot'⟩ := add_of_lt (a := recStart) (b := recBytes) (by omega)
  obtain ⟨rest, hrest, hrest'⟩ := sub_of_le (a := spare) (b := recBytes) (by omega)
  obtain ⟨artBytes, hart, hart'⟩ := alignForward_of_lt (v := rest / 2) (by
    rw [roundUp, hhalf]
    omega)
  rw [roundUp, hhalf] at hart'
  obtain ⟨strStart, hstr, hstr'⟩ := add_of_lt (a := artRoot) (b := artBytes) (by omega)
  obtain ⟨strBytes, hbytes, hbytes'⟩ := sub_of_le (a := arena) (b := strStart) (by omega)
  refine ⟨⟨arena, capacity, recStart, recBytes, artRoot, artBytes, strStart, strBytes⟩, ?_,
    ⟨rfl, rfl, rfl, ?_, ?_, ?_, ?_, ?_⟩, ?_⟩
  · simp only [scaledRegions, hspare, hrec, hroot, hrest, hart, hstr, hbytes, Option.bind_eq_bind,
      Option.bind_some, pure]
  · exact hroot'.symm
  · exact hstr'.symm
  · simp only [Regions.stringEnd]
    omega
  · simp only
    omega
  · simp only
    omega
  · simp only
    omega

theorem ringEnd_default : intCast (ringOffset + ringBytes ringDefaultCapacity) = some 296384 := by decide

theorem defaultRegions_large {n : ℕ} (hle : stringArenaStart.toNat ≤ n) (hlt : n < 2 ^ 32) :
    defaultRegions n = some ⟨UInt32.ofNat n, 4096, recordStartDefault, 1800760, artRootOffset, 8388608,
      stringArenaStart, UInt32.ofNat n - stringArenaStart⟩ := by
  have hof := UInt32.toNat_ofNat_of_lt' hlt
  have hstart : add 296384 8 = some recordStartDefault := by decide
  have hle' : stringArenaStart ≤ UInt32.ofNat n := by rwa [UInt32.le_iff_toNat_le, hof]
  have hsub : sub (UInt32.ofNat n) stringArenaStart = some (UInt32.ofNat n - stringArenaStart) := if_pos hle'
  have hcast : intCast n = some (UInt32.ofNat n) := if_pos hlt
  simp only [defaultRegions, hcast, ringEnd_default, hstart, Option.bind_eq_bind, Option.bind_some, if_pos hle',
    hsub, pure]
  rfl

theorem largeRegions_valid {arena : UInt32} (hle : stringArenaStart.toNat + 8 ≤ arena.toNat) :
    Valid ⟨arena, 4096, recordStartDefault, 1800760, artRootOffset, 8388608, stringArenaStart,
      arena - stringArenaStart⟩ arena.toNat := by
  have hle' : stringArenaStart ≤ arena := UInt32.le_iff_toNat_le.mpr (by omega)
  have hstrings := UInt32.toNat_sub_of_le _ _ hle'
  have hroot : artRootOffset.toNat % 8 = 0 := by decide
  have hstring : stringArenaStart.toNat % 8 = 0 := by decide
  have hrec : recordStartDefault.toNat + (1800760 : UInt32).toNat = artRootOffset.toNat := by decide
  have hart : artRootOffset.toNat + (8388608 : UInt32).toNat = stringArenaStart.toNat := by decide
  have hpacked : Packed ⟨arena, 4096, recordStartDefault, 1800760, artRootOffset, 8388608, stringArenaStart,
      arena - stringArenaStart⟩ arena recordStartDefault 4096 := by
    refine ⟨rfl, rfl, rfl, hrec, hart, ?_, hroot, hstring⟩
    simp only [Regions.stringEnd, hstrings]
    omega
  refine hpacked.valid (by decide) (by decide) (by decide) ?_
  simp only [hstrings]
  omega

theorem middleRegions_valid {arena : UInt32} (hle : 296448 ≤ arena.toNat) :
    ∃ r, scaledRegions arena recordStartDefault 4096 = some r ∧ Valid r arena.toNat := by
  have hstart : recordStartDefault.toNat = 296392 := rfl
  obtain ⟨r, hr, hpacked, hstrings⟩ :=
    @scaledRegions_spec arena recordStartDefault 4096 (by omega) (by decide)
  exact ⟨r, hr, hpacked.valid (by decide) (by decide) (by decide) hstrings⟩

/-- The sizes the ring of a small arena can have are powers of two. -/
theorem isPowerOfTwo_ring {j : ℕ} (hj : j ≤ 8) : isPowerOfTwo (UInt32.ofNat (16 * 2 ^ j)) = true := by
  interval_cases j <;> decide

theorem smallRegions_spec {arena : UInt32} {j : ℕ} (hj : j ≤ 8)
    (hfits : ringOffset + ringBytes (16 * 2 ^ j) + 64 ≤ arena.toNat) :
    ∃ ringEnd capacity start r, intCast (ringOffset + ringBytes (16 * 2 ^ j)) = some ringEnd ∧
      ringEnd.toNat = ringOffset + ringBytes (16 * 2 ^ j) ∧ intCast (16 * 2 ^ j) = some capacity ∧
      add ringEnd 8 = some start ∧ scaledRegions arena start capacity = some r ∧ Valid r arena.toNat := by
  have harena := arena.toNat_lt
  have height : (8 : UInt32).toNat = 8 := rfl
  have hring : ringOffset + ringBytes (16 * 2 ^ j) = 1472 + 72 * (16 * 2 ^ j) := by
    rw [ringOffset, ringBytes, ringHeaderBytes]
    omega
  obtain ⟨ringEnd, hend, hend'⟩ := intCast_of_lt (n := ringOffset + ringBytes (16 * 2 ^ j)) (by omega)
  obtain ⟨capacity, hcap, hcap'⟩ := intCast_of_lt (n := 16 * 2 ^ j) (by omega)
  obtain ⟨start, hstart, hstart'⟩ := add_of_lt (a := ringEnd) (b := 8) (by omega)
  obtain ⟨r, hr, hpacked, hstrings⟩ :=
    @scaledRegions_spec arena start capacity (by omega) (by omega)
  have hpos : 1 ≤ 2 ^ j := Nat.one_le_two_pow
  have hpow : isPowerOfTwo capacity = true := by
    have hsize : 16 * 2 ^ j < 2 ^ 32 := by omega
    have hof : capacity = UInt32.ofNat (16 * 2 ^ j) := by
      rw [← UInt32.toNat_inj, hcap', UInt32.toNat_ofNat_of_lt' hsize]
    rw [hof]
    exact isPowerOfTwo_ring hj
  exact ⟨ringEnd, capacity, start, r, hend, hend', hcap, hstart, hr,
    hpacked.valid (by omega) hpow (by rw [hcap']; omega) hstrings⟩

/-- The table of an arena too small for the default ring. -/
theorem defaultRegions_small {n : ℕ} (hlt : n < 296448) : ∃ r, defaultRegions n = some r ∧
    (ringOffset + ringBytes 16 + 64 ≤ n → Valid r n) := by
  obtain ⟨arena, harena, harena'⟩ := intCast_of_lt (n := n) (by omega)
  have hstart : add 296384 8 = some recordStartDefault := by decide
  have hleast : add 296384 64 = some 296448 := by decide
  have hlarge : ¬ stringArenaStart ≤ arena := by
    rw [UInt32.le_iff_toNat_le, harena']
    exact fun hle ↦ absurd (hle.trans_lt hlt) (by decide)
  have hsmall : arena < 296448 := by
    rw [UInt32.lt_iff_toNat_lt, harena']
    exact hlt
  obtain ⟨j, hj, hcap, hfits⟩ := growRing_spec arena.toNat 0 (by decide) (by decide) id
  have hgrow : growRing arena.toNat 16 (by decide) = 16 * 2 ^ j := hcap
  have hpow : 2 ^ j ≤ 2 ^ 8 := Nat.pow_le_pow_right (by decide) hj
  have hring : ringOffset + ringBytes (16 * 2 ^ j) = 1472 + 72 * (16 * 2 ^ j) := by
    rw [ringOffset, ringBytes, ringHeaderBytes]
    omega
  have hsixtyfour : (64 : UInt32).toNat = 64 := rfl
  obtain ⟨ringEnd, hend, hend'⟩ := intCast_of_lt (n := ringOffset + ringBytes (16 * 2 ^ j)) (by omega)
  obtain ⟨room, hroom, hroom'⟩ := add_of_lt (a := ringEnd) (b := 64) (by omega)
  simp only [defaultRegions, harena, ringEnd_default, hstart, hleast, Option.bind_eq_bind, Option.bind_some,
    if_neg hlarge, if_pos hsmall, hgrow, hend, hroom]
  by_cases hnone : arena < room
  · -- not even the smallest ring fits
    have hlack := UInt32.lt_iff_toNat_lt.mp hnone
    rw [if_pos hnone]
    refine ⟨_, rfl, fun hle ↦ ?_⟩
    have hhold := hfits (harena' ▸ hle)
    omega
  · have hhold := mt UInt32.lt_iff_toNat_lt.mpr hnone
    obtain ⟨ringEnd', capacity, start, r, hend₂, -, hcapacity, hstart₂, hr, hvalid⟩ :=
      @smallRegions_spec arena j hj (by omega)
    obtain rfl : ringEnd = ringEnd' := Option.some.inj (hend.symm.trans hend₂)
    simp only [if_neg hnone, hcapacity, hstart₂, Option.bind_some, hr]
    exact ⟨r, rfl, fun _ ↦ harena' ▸ hvalid⟩

theorem defaultRegions_middle {n : ℕ} (hle : 296448 ≤ n) (hlt : n < stringArenaStart.toNat) :
    ∃ r, defaultRegions n = some r ∧ Valid r n := by
  have hbound : n < 2 ^ 32 := hlt.trans (by decide)
  obtain ⟨arena, harena, harena'⟩ := intCast_of_lt hbound
  have hstart : add 296384 8 = some recordStartDefault := by decide
  have hleast : add 296384 64 = some 296448 := by decide
  have hlarge : ¬ stringArenaStart ≤ arena := by
    rw [UInt32.le_iff_toNat_le, harena']
    omega
  have hsmall : ¬ arena < 296448 := by
    rw [UInt32.lt_iff_toNat_lt, harena']
    exact not_lt.mpr hle
  obtain ⟨r, hr, hvalid⟩ := middleRegions_valid (harena' ▸ hle)
  simp only [defaultRegions, harena, ringEnd_default, hstart, hleast, Option.bind_eq_bind, Option.bind_some,
    if_neg hlarge, if_neg hsmall, hr]
  exact ⟨r, rfl, harena' ▸ hvalid⟩

/-- The table of an arena that ends with the bump word of its strings is refused. -/
theorem largeRegions_refused {arena : UInt32} (hlt : arena.toNat < stringArenaStart.toNat + 8)
    (hle : stringArenaStart.toNat ≤ arena.toNat) :
    ¬ Valid ⟨arena, 4096, recordStartDefault, 1800760, artRootOffset, 8388608, stringArenaStart,
      arena - stringArenaStart⟩ arena.toNat := by
  intro h
  have hstrings := UInt32.toNat_sub_of_le _ _ (UInt32.le_iff_toNat_le.mpr hle)
  have height := h.string_bytes
  simp only [hstrings] at height
  omega

/-- The default table is computed, and accepted where the arena holds the smallest ring and
64 bytes. -/
def DefaultAccepted (n : ℕ) : Prop :=
  ∃ r, defaultRegions n = some r ∧
    (ringOffset + ringBytes 16 + 64 ≤ n → validateRegions r n = .ok ())

/-- Only the eight sizes at which the strings have no room behind their bump word are refused. -/
theorem defaultAccepted_iff (n : ℕ) (hlt : n < 2 ^ 32) :
    DefaultAccepted n ↔ n < stringArenaStart.toNat ∨ stringArenaStart.toNat + 8 ≤ n := by
  simp only [DefaultAccepted, valid_iff]
  by_cases hlarge : stringArenaStart.toNat ≤ n
  · have hof := UInt32.toNat_ofNat_of_lt' hlt
    have hdefault := defaultRegions_large hlarge hlt
    constructor
    · intro h
      obtain ⟨r, hr, hvalid⟩ := h
      obtain rfl := Option.some.inj (hdefault.symm.trans hr)
      by_contra hseam
      have hroom : ringOffset + ringBytes 16 + 64 ≤ n := le_trans (by decide) hlarge
      refine @largeRegions_refused (UInt32.ofNat n) (by omega) (by omega) ?_
      rw [hof]
      exact hvalid hroom
    · intro h
      refine ⟨_, hdefault, fun _ ↦ ?_⟩
      have hvalid := @largeRegions_valid (UInt32.ofNat n) (by omega)
      rwa [hof] at hvalid
  · refine ⟨fun _ ↦ .inl (not_le.mp hlarge), fun _ ↦ ?_⟩
    by_cases hsmall : n < 296448
    · exact defaultRegions_small hsmall
    · obtain ⟨r, hr, hvalid⟩ := defaultRegions_middle (not_lt.mp hsmall) (not_le.mp hlarge)
      exact ⟨r, hr, fun _ ↦ hvalid⟩

theorem defaultAccepted_least :
    DefaultAccepted 2688 ↔ 2688 < stringArenaStart.toNat ∨ stringArenaStart.toNat + 8 ≤ 2688 :=
  defaultAccepted_iff 2688 (by decide)

theorem tenMebibytes_not_accepted : ¬ DefaultAccepted 10485760 := by
  intro h
  obtain ⟨r, hr, hvalid⟩ := h
  obtain rfl := Option.some.inj ((defaultRegions_large le_rfl (by decide)).symm.trans hr)
  exact absurd (hvalid (by decide)) (by decide)

end TakyonDb.Layout
