import TakyonDb.Exports
import TakyonDb.Lib.Memory

namespace TakyonDb.Exports

open Lib Layout Set Art

variable {r : Regions} {mem mem' : Bytes}

theorem stringEnd_le {r : Regions} {n : ℕ} (h : Layout.Valid r n) :
    r.stringEnd ≤ n ∧ r.stringStart.toNat + 8 ≤ n := by
  have hend := h.stringEnd_le
  have hbytes := h.string_bytes
  refine ⟨hend, ?_⟩
  rw [Regions.stringEnd] at hend
  omega

theorem length_seedString {r : Regions} {arena : Bytes} (h : Layout.Valid r arena.length) :
    (seedString r arena).length = arena.length := by
  have hin := (stringEnd_le h).2
  rw [seedString]
  split_ifs
  · exact length_writeU32 (by omega) _
  · rfl

/-- The word of the string bump with the padding behind it. -/
def bumpSpan (r : Regions) : Set ℕ := Ico r.stringStart.toNat r.stringDataStart

theorem changesOnly_seedString (hr : Valid r mem.length) : ChangesOnly (bumpSpan r) mem (seedString r mem) := by
  have hin := (stringEnd_le hr).2
  have hdata : r.stringDataStart = r.stringStart.toNat + 8 := rfl
  rw [seedString]
  split_ifs
  · have hfit : r.stringStart.toNat + 4 ≤ mem.length := by omega
    exact (changesOnly_writeU32 hfit _).mono (Ico_subset_Ico_right (by omega))
  · exact .rfl'

theorem changesOnly_allocString {key : Bytes} {off : ℕ} (hr : Layout.Valid r mem.length)
    (h : allocString r key mem = (some off, mem')) :
    off = stringBump r mem ∧ off + key.length ≤ r.stringEnd ∧
      ChangesOnly (bumpSpan r ∪ Ico off (off + key.length)) mem mem' ∧ slice mem' off key.length = key := by
  obtain ⟨hstop, hword⟩ := stringEnd_le hr
  have hdata : r.stringDataStart = r.stringStart.toNat + 8 := rfl
  have hseed := changesOnly_seedString hr
  simp only [allocString] at h
  split_ifs at h with hempty hfull
  · cases h
  · cases h
  · obtain ⟨hoff, rfl⟩ := Prod.mk.inj h
    obtain rfl := Option.some.inj hoff
    have hfit : r.stringStart.toNat + 4 ≤ (seedString r mem).length := by
      rw [hseed.length_eq]
      omega
    have hroom : readU32 (seedString r mem) r.stringStart.toNat + key.length ≤ r.stringEnd := by omega
    have hbump := changesOnly_writeU32 hfit
      (readU32 (seedString r mem) r.stringStart.toNat + (key.length + 7) / 8 * 8)
    have hspan : ChangesOnly (bumpSpan r) mem _ :=
      hseed.trans (hbump.mono (Ico_subset_Ico_right (by omega)))
    have hcopy : readU32 (seedString r mem) r.stringStart.toNat + key.length ≤
        (writeU32 (seedString r mem) r.stringStart.toNat
          (readU32 (seedString r mem) r.stringStart.toNat + (key.length + 7) / 8 * 8)).length := by
      rw [hspan.length_eq]
      omega
    refine ⟨rfl, hroom, ?_, slice_overwrite_self hcopy⟩
    exact (hspan.mono subset_union_left).trans ((changesOnly_overwrite hcopy).mono subset_union_right)

theorem changesOnly_allocString_none {key : Bytes} (hr : Layout.Valid r mem.length)
    (h : allocString r key mem = (none, mem')) : ChangesOnly (bumpSpan r) mem mem' := by
  simp only [allocString] at h
  split_ifs at h with hempty hfull
  · obtain ⟨-, rfl⟩ := Prod.mk.inj h
    exact .rfl'
  · obtain ⟨-, rfl⟩ := Prod.mk.inj h
    exact changesOnly_seedString hr
  · cases h

/-- A granted string lies in the string region and holds the bytes copied. -/
theorem allocString_some {r : Regions} {src arena arena' : Bytes} {off : ℕ}
    (hr : Layout.Valid r arena.length) (h : allocString r src arena = (some off, arena')) :
    off + src.length ≤ arena.length ∧ off < 2 ^ 32 ∧ arena'.length = arena.length ∧
      slice arena' off src.length = src := by
  obtain ⟨rfl, hroom, hch, hslice⟩ := changesOnly_allocString hr h
  exact ⟨hroom.trans (stringEnd_le hr).1, readU32_lt _ _, hch.length_eq, hslice⟩

theorem stringBump_of_ne {r : Regions} {arena : Bytes} (h : readU32 arena r.stringStart.toNat ≠ 0) :
    stringBump r arena = readU32 arena r.stringStart.toNat := by
  rw [stringBump, seedString, if_neg h]

theorem stringBump_of_unset {r : Regions} {arena : Bytes} (hr : Layout.Valid r arena.length)
    (h : readU32 arena r.stringStart.toNat = 0) : stringBump r arena = r.stringDataStart := by
  have hin := (stringEnd_le hr).2
  have hlt : arena.length < 2 ^ 32 := hr.arena ▸ r.arenaBytes.toNat_lt
  have hdata : r.stringDataStart = r.stringStart.toNat + 8 := rfl
  rw [stringBump, seedString, if_pos h, readU32_writeU32_self (by omega) (by omega)]

theorem stringBump_frame {t : Set ℕ} (hr : Valid r mem.length) (hch : ChangesOnly t mem mem')
    (ht : Disjoint (bumpSpan r) t) : stringBump r mem' = stringBump r mem := by
  have hdata : r.stringDataStart = r.stringStart.toNat + 8 := rfl
  have hword : readU32 mem' r.stringStart.toNat = readU32 mem r.stringStart.toNat :=
    hch.readU32 (ht.mono_left (Ico_subset_Ico_right (by omega)))
  by_cases hunset : readU32 mem r.stringStart.toNat = 0
  · rw [stringBump_of_unset hr hunset, stringBump_of_unset (hch.length_eq.symm ▸ hr) (hword.trans hunset)]
  · rw [stringBump_of_ne hunset, stringBump_of_ne (by rwa [hword]), hword]

/-- A granted string goes where the bump word points, and moves it behind
itself. What was granted before stays as it is. -/
theorem allocString_bump {r : Regions} {src arena arena' : Bytes} {off : ℕ}
    (hr : Layout.Valid r arena.length) (hbump : r.stringDataStart ≤ stringBump r arena)
    (h : allocString r src arena = (some off, arena')) :
    off = stringBump r arena ∧ stringBump r arena' = off + (src.length + 7) / 8 * 8 ∧
      ∀ o len, r.stringDataStart ≤ o → o + len ≤ off → slice arena' o len = slice arena o len := by
  obtain ⟨hoff, -, hch, -⟩ := changesOnly_allocString hr h
  have hin := stringEnd_le hr
  have hseed := length_seedString hr
  have hn : arena.length < 2 ^ 32 := hr.arena ▸ r.arenaBytes.toNat_lt
  have hword : r.stringDataStart = r.stringStart.toNat + 8 := rfl
  refine ⟨hoff, ?_, fun o len ho hle ↦ hch.slice ?_⟩
  · have hcur : readU32 (seedString r arena) r.stringStart.toNat = stringBump r arena := rfl
    simp only [allocString] at h
    split_ifs at h with h₁ h₂
    · cases h
    · cases h
    · obtain ⟨-, rfl⟩ := Prod.mk.inj h
      subst hoff
      rw [hcur] at h₂ ⊢
      generalize hstop : stringBump r arena + (src.length + 7) / 8 * 8 = stop at h₂ ⊢
      have hlen : (writeU32 (seedString r arena) r.stringStart.toNat stop).length = arena.length :=
        (length_writeU32 (by omega) stop).trans hseed
      have hread : readU32 (overwrite (writeU32 (seedString r arena) r.stringStart.toNat stop)
          (stringBump r arena) src) r.stringStart.toNat = stop := by
        rw [readU32_overwrite_of_disjoint (by omega) (by omega), readU32_writeU32_self (by omega) (by omega)]
      rw [stringBump_of_ne (by omega), hread]
  · exact disjoint_union_right.mpr ⟨disjoint_Ico (.inr ho), disjoint_Ico (.inl hle)⟩

theorem strings_above {off : ℕ} (h : r.stringDataStart ≤ off) (len : ℕ) :
    ∀ i ∈ bumpSpan r ∪ Ico off (off + len), r.stringStart.toNat ≤ i := by
  have hdata : r.stringDataStart = r.stringStart.toNat + 8 := rfl
  rintro i (hi | hi)
  · exact hi.1
  · have := hi.1
    omega

/-- The index region ends where the strings begin. -/
theorem disjoint_artRegion {n : ℕ} (hr : Layout.Valid r n) {t : Set ℕ} (ht : ∀ i ∈ t, r.stringStart.toNat ≤ i) :
    Disjoint (artRegion r) t := by
  refine disjoint_left.mpr fun i hi hit ↦ ?_
  have := (artEnd_le hr).1
  have := ht i hit
  have := hi.2
  omega

theorem insertIndexAlloc_ok {key : Bytes} {valueOffset : UInt32} {e e' : Engine} {off : ℕ} {r : Regions}
    (hr : e.regions = some r) (h : insertIndexAlloc key valueOffset e = (.ok off, e')) :
    1 ≤ key.length ∧ key.length ≤ maxKeyLen ∧ ∃ arena, allocString r key e.arena = (some off, arena) ∧
      e' = { e with arena } := by
  simp only [insertIndexAlloc, hr] at h
  split_ifs at h with h₁ h₂ h₃ h₄
  · cases (Prod.mk.inj h).1
  · cases (Prod.mk.inj h).1
  · cases (Prod.mk.inj h).1
  · cases (Prod.mk.inj h).1
  · rcases halloc : allocString r key e.arena with ⟨_ | off', arena⟩
    · rw [halloc] at h
      cases (Prod.mk.inj h).1
    · rw [halloc] at h
      obtain ⟨hoff, rfl⟩ := Prod.mk.inj h
      cases hoff
      exact ⟨by omega, by omega, arena, rfl, by rw [hr]⟩

/-- A string that the region has room for goes where the bump word points. -/
theorem exists_allocString {r : Regions} {src arena : Bytes} (hpos : 1 ≤ src.length)
    (hbytes : (src.length + 7) / 8 * 8 ≤ r.stringBytes.toNat)
    (hroom : stringBump r arena + (src.length + 7) / 8 * 8 ≤ r.stringEnd) :
    ∃ arena', allocString r src arena = (some (stringBump r arena), arena') := by
  simp only [allocString]
  rw [if_neg (by omega), if_neg (by rw [stringBump] at hroom; omega)]
  exact ⟨_, rfl⟩

/-- With room in the ring and in the string region the key is copied. -/
theorem exists_insertIndexAlloc {e : Engine} {r : Regions} {key : Bytes} {valueOffset : UInt32}
    (hready : e.arenaReady = true ∧ e.ringReady = true) (hr : e.regions = some r)
    (hkey : 1 ≤ key.length ∧ key.length ≤ maxKeyLen) (hvalue : valueOffset.toNat < e.arena.length)
    (hdepth : e.queue.length < e.capacity) (hbytes : (key.length + 7) / 8 * 8 ≤ r.stringBytes.toNat)
    (hroom : stringBump r e.arena + (key.length + 7) / 8 * 8 ≤ r.stringEnd) :
    ∃ arena, insertIndexAlloc key valueOffset e = (.ok (stringBump r e.arena), { e with arena }) := by
  obtain ⟨arena, halloc⟩ := exists_allocString hkey.1 hbytes hroom
  refine ⟨arena, ?_⟩
  rw [insertIndexAlloc, if_neg (by simp [hready]), if_neg (by omega), if_neg (by omega),
    if_neg (by rw [Engine.depth]; omega)]
  simp only [hr, halloc]

end TakyonDb.Exports
