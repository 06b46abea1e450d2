import TakyonDb.Lib.Extents
import TakyonDb.Lib.Transition
import TakyonDb.VacuumSafety

namespace TakyonDb.Vacuum

open Lib Layout Exports Art Proxy Set

variable {mem mem' base : Bytes} {r : Regions} {ix : ArtIndex}

/-- The strings a pass moves, whatever the index holds; none where it gives up. -/
def movedStrings (ix : ArtIndex) (r : Regions) (offsets : List UInt32) (mem : Bytes) : List LiveString :=
  match liveRecords mem ix with
  | none => []
  | some records =>
    let found := gatherLive mem records offsets
    if bankSize r < found.1 then [] else found.2

/-- Where a pass writes beside the bump word. -/
def touched (ix : ArtIndex) (r : Regions) (offsets : List UInt32) (mem : Bytes) : Set ℕ :=
  {i | i ∈ pointers ((movedStrings ix r offsets mem).map LiveString.fatAddr) ∨
    movedStrings ix r offsets mem ≠ [] ∧
      i ∈ Ico (freeBank r mem) (freeBank r mem + totalLen (movedStrings ix r offsets mem))}

/-- What the first pass has found. -/
structure Found (mem : Bytes) (found : ℕ × List LiveString) : Prop where
  total : found.1 = totalLen found.2
  live : ∀ s ∈ found.2, liveAt mem s.fatAddr = some s

theorem Found.column {off : UInt32} : ∀ {records : List UInt32} {found : ℕ × List LiveString}, Found mem found →
    Found mem (gatherColumn mem off records found)
  | [], _, h => h
  | record :: records, (total, live), h => by
    rw [gatherColumn]
    split_ifs with hout hdead hcorrupt hstop
    · exact h.column
    · exact h.column
    · exact h.column
    · exact h
    · refine Found.column ⟨?_, ?_⟩
      · simp only [totalLen_append, ← h.total]
        simp [totalLen]
      · intro s hs
        rcases List.mem_append.mp hs with hold | hnew
        · exact h.live s hold
        · obtain rfl := List.mem_singleton.mp hnew
          refine if_neg ?_
          simp only
          omega

theorem found_gatherLive (mem : Bytes) (records offsets : List UInt32) :
    Found mem (gatherLive mem records offsets) := by
  have hfold : ∀ (offsets : List UInt32) (found : ℕ × List LiveString), Found mem found →
      Found mem (offsets.foldl (fun found off ↦ gatherColumn mem off records found) found) := by
    intro offsets
    induction offsets with
    | nil => exact fun _ h ↦ h
    | cons off offsets ih => exact fun _ h ↦ ih _ h.column
  exact hfold offsets _ ⟨rfl, fun s hs ↦ absurd hs List.not_mem_nil⟩

theorem changesOnly_swizzle {s : LiveString} {new : ℕ} (hfit : s.fatAddr + 8 ≤ mem.length)
    (h : swizzle mem s new = some mem') : ChangesOnly (Ico s.fatAddr (s.fatAddr + 8)) mem mem' := by
  rw [swizzle] at h
  split_ifs at h with hal hword hword
  · obtain rfl := Option.some.inj h
    exact changesOnly_writeU64 hfit _
  · obtain rfl := Option.some.inj h
    have hfit4 : s.fatAddr + 4 ≤ mem.length := by omega
    exact (changesOnly_writeU32 hfit4 new).mono (Ico_subset_Ico_right (by omega))

/-- The second pass writes the pointers of its strings only, and its buffer is no longer than they are. -/
theorem changesOnly_relocate {dstBank : ℕ} : ∀ {live : List LiveString} {c c' : Compaction},
    (∀ s ∈ live, s.fatAddr + 8 ≤ c.mem.length) → live.foldlM (relocate dstBank) c = some c' →
    ChangesOnly (pointers (live.map LiveString.fatAddr)) c.mem c'.mem ∧ c'.temp.length ≤ c.temp.length + totalLen live
  | [], c, c', _, hrun => by
    obtain rfl := Option.some.inj hrun
    exact ⟨.rfl', Nat.le_add_right _ _⟩
  | s :: live, c, c', hfits, hrun => by
    rw [List.foldlM_cons] at hrun
    obtain ⟨c₁, hstep, hrest⟩ := Option.bind_eq_some_iff.mp hrun
    have hsize := length_slice_le c.mem s.offset s.len
    have hfirst : ChangesOnly (Ico s.fatAddr (s.fatAddr + 8)) c.mem c₁.mem ∧
        c₁.temp.length ≤ c.temp.length + s.len := by
      rw [relocate] at hstep
      split_ifs at hstep with hword
      cases hswizzle : swizzle c.mem s (dstBank + c.temp.length) with
      | none =>
        rw [hswizzle] at hstep
        obtain rfl := Option.some.inj hstep
        refine ⟨.rfl', ?_⟩
        simp only [List.length_append]
        omega
      | some m =>
        rw [hswizzle] at hstep
        obtain rfl := Option.some.inj hstep
        refine ⟨changesOnly_swizzle (hfits s List.mem_cons_self) hswizzle, ?_⟩
        simp only [List.length_append]
        omega
    obtain ⟨hch, htemp⟩ := hfirst
    have hfits' : ∀ s' ∈ live, s'.fatAddr + 8 ≤ c₁.mem.length := by
      intro s' hs'
      rw [hch.length_eq]
      exact hfits s' (List.mem_cons_of_mem _ hs')
    obtain ⟨hch', htemp'⟩ := changesOnly_relocate hfits' hrest
    constructor
    · refine (hch.mono ?_).trans (hch'.mono ?_)
      · exact fun i hi ↦ ⟨_, List.mem_map_of_mem List.mem_cons_self, hi⟩
      · intro i hi
        obtain ⟨a, ha, hia⟩ := hi
        exact ⟨a, List.mem_cons_of_mem _ ha, hia⟩
    · simp only [totalLen, List.map_cons, List.sum_cons] at htemp' ⊢
      omega

theorem changesOnly_compactInto {live : List LiveString} {dstBank : ℕ} {relocated : List Relocated}
    (hr : Valid r mem.length) (hlive : ∀ s ∈ live, liveAt mem s.fatAddr = some s)
    (hrun : compactInto r mem live dstBank = .done mem' relocated) :
    ChangesOnly (pointers (live.map LiveString.fatAddr) ∪ bumpSpan r ∪ Ico dstBank (dstBank + totalLen live)) mem mem' := by
  have hin := (stringEnd_le hr).2
  have hdata : r.stringDataStart = r.stringStart.toNat + 8 := rfl
  have hfits : ∀ s ∈ live, s.fatAddr + 8 ≤ mem.length := fun s hs ↦ (liveAt_eq_some.mp (hlive s hs)).2.1
  rw [compactInto] at hrun
  cases hloop : live.foldlM (relocate dstBank) ⟨mem, [], []⟩ with
  | none =>
    rw [hloop] at hrun
    cases hrun
  | some c =>
    rw [hloop] at hrun
    simp only [publish] at hrun
    split_ifs at hrun with hroom hword
    obtain ⟨rfl, rfl⟩ := Pass.done.inj hrun
    obtain ⟨hch, htemp⟩ := changesOnly_relocate (c := ⟨mem, [], []⟩) hfits hloop
    simp only [List.length_nil, Nat.zero_add] at htemp
    have hlength : c.mem.length = mem.length := hch.length_eq
    have hpublish := changesOnly_published (r := r) (c := c) (by omega) (not_lt.mp hroom)
    refine (hch.mono ?_).trans (hpublish.mono ?_)
    · exact subset_union_left.trans subset_union_left
    · refine union_subset ?_ ?_
      · exact subset_union_right.trans subset_union_left
      · exact (Ico_subset_Ico_right (by omega)).trans subset_union_right

/-- A pass that returns writes where it moves strings, and the bump word. -/
theorem changesOnly_pass {offsets : List UInt32} {relocated : List Relocated} (hr : Valid r mem.length)
    (hrun : runVacuumOnceMulti ix r offsets mem = .done mem' relocated) :
    ChangesOnly (touched ix r offsets mem ∪ bumpSpan r) mem mem' := by
  rw [runVacuumOnceMulti] at hrun
  split_ifs at hrun with hsmall hstart hregion
  cases hrecords : liveRecords mem ix with
  | none =>
    rw [hrecords] at hrun
    cases hrun
  | some records =>
    rw [hrecords] at hrun
    cases records with
    | nil =>
      obtain ⟨rfl, rfl⟩ := Pass.done.inj hrun
      exact .rfl'
    | cons record records =>
      have hfound := found_gatherLive mem (record :: records) offsets
      have hmoved : movedStrings ix r offsets mem =
          if bankSize r < (gatherLive mem (record :: records) offsets).1 then []
          else (gatherLive mem (record :: records) offsets).2 := by
        rw [movedStrings, hrecords]
      simp only at hrun
      generalize gatherLive mem (record :: records) offsets = found at hrun hfound hmoved
      obtain ⟨total, live⟩ := found
      cases live with
      | nil =>
        obtain ⟨rfl, rfl⟩ := Pass.done.inj hrun
        exact .rfl'
      | cons s live =>
        simp only at hrun hmoved
        rw [compact_eq r mem total (s :: live) hr.string_bytes] at hrun
        split_ifs at hrun with hbank
        rw [if_neg hbank] at hmoved
        refine (changesOnly_compactInto hr hfound.live hrun).mono ?_
        rw [touched, hmoved]
        refine union_subset (union_subset ?_ ?_) ?_
        · exact fun i hi ↦ .inl (.inl hi)
        · exact subset_union_right
        · exact fun i hi ↦ .inl (.inr ⟨List.cons_ne_nil _ _, hi⟩)

/-- A pass that finds nothing to move moves nothing. -/
theorem relocated_eq_nil {offsets : List UInt32} {relocated : List Relocated} (hr : Valid r mem.length)
    (hrun : runVacuumOnceMulti ix r offsets mem = .done mem' relocated) (hnone : movedStrings ix r offsets mem = []) :
    relocated = [] := by
  rw [runVacuumOnceMulti] at hrun
  split_ifs at hrun with hsmall hstart hregion
  cases hrecords : liveRecords mem ix with
  | none =>
    rw [hrecords] at hrun
    cases hrun
  | some records =>
    rw [hrecords] at hrun
    cases records with
    | nil => exact (Pass.done.inj hrun).2.symm
    | cons record records =>
      rw [movedStrings, hrecords] at hnone
      simp only at hrun hnone
      generalize gatherLive mem (record :: records) offsets = found at hrun hnone
      obtain ⟨total, live⟩ := found
      cases live with
      | nil => exact (Pass.done.inj hrun).2.symm
      | cons s live =>
        simp only at hrun hnone
        rw [compact_eq r mem total (s :: live) hr.string_bytes] at hrun
        split_ifs at hrun hnone with hbank

theorem failed_compactInto {live : List LiveString} {dstBank : ℕ} {e : VacuumError} :
    compactInto r mem live dstBank ≠ .failed e mem' := by
  rw [compactInto]
  intro hfail
  cases hrun : live.foldlM (relocate dstBank) ⟨mem, [], []⟩ with
  | none => simp only [hrun, reduceCtorEq] at hfail
  | some c =>
    simp only [hrun, publish] at hfail
    split_ifs at hfail

/-- A pass that fails leaves the arena as it was. -/
theorem failed_pass {offsets : List UInt32} {e : VacuumError} (hr : Valid r mem.length)
    (hrun : runVacuumOnceMulti ix r offsets mem = .failed e mem') : mem' = mem := by
  rw [runVacuumOnceMulti] at hrun
  split_ifs at hrun with hsmall hstart hregion
  · exact (Pass.failed.inj hrun).2.symm
  · exact (Pass.failed.inj hrun).2.symm
  · exact (Pass.failed.inj hrun).2.symm
  · cases hrecords : liveRecords mem ix with
    | none =>
      rw [hrecords] at hrun
      cases hrun
    | some records =>
      rw [hrecords] at hrun
      cases records with
      | nil => cases hrun
      | cons record records =>
        simp only at hrun
        generalize gatherLive mem (record :: records) offsets = found at hrun
        obtain ⟨total, live⟩ := found
        cases live with
        | nil => cases hrun
        | cons s live =>
          simp only at hrun
          rw [compact_eq r mem total (s :: live) hr.string_bytes] at hrun
          split_ifs at hrun with hbank
          · exact (Pass.failed.inj hrun).2.symm
          · exact absurd hrun failed_compactInto

/-- What shares the arena with the strings of the vacuumed schema: the string fields of the other schemas,
and the ranges of the fields that hold no string and of the catalog payloads. -/
structure Bystanders where
  strings : List ℕ
  fixed : List Extent

namespace Bystanders

variable (b : Bystanders)

/-- The addresses that must keep their bytes. -/
def bytes (mem : Bytes) : Set ℕ :=
  {i | i ∈ pointers b.strings ∨
    (∃ a ∈ b.strings, i ∈ Ico (readU32 mem a) (readU32 mem a + readU32 mem (a + 4))) ∨
    ∃ e : Extent, e ∈ b.fixed ∧ i ∈ Ico e.start (e.start + e.len)}

/-- The fields lie in the record region and the payloads among the strings, and no two share a byte. `own` are
the string fields of the vacuumed schema. -/
structure Placed (r : Regions) (own : List ℕ) : Prop where
  strings : ∀ a ∈ own ++ b.strings, r.recordStart.toNat ≤ a ∧ a + 8 ≤ r.recordEnd
  fixed : ∀ e ∈ b.fixed, e.start + e.len ≤ r.recordEnd ∧ r.recordStart.toNat ≤ e.start ∨
    r.stringDataStart ≤ e.start ∧ e.start + e.len ≤ r.stringEnd
  apart : ∀ a ∈ own ++ b.strings, ∀ c ∈ b.strings, a = c ∨ a + 8 ≤ c ∨ c + 8 ≤ a
  apart_fixed : ∀ a ∈ own ++ b.strings, ∀ e ∈ b.fixed, a + 8 ≤ e.start ∨ e.start + e.len ≤ a

end Bystanders

/-- The arena, with a history variable: what was last assigned to each string field of the other schemas. -/
structure Scene where
  mem : Bytes
  value : ℕ → Option Bytes

inductive Event
  | pass
  | set (abs : ℕ) (value : Bytes)

/-- A vacuum pass that is over, or a string write that came to its field or threw before. -/
inductive Step (ix : ArtIndex) (r : Regions) (off : UInt32) (fields : List ℕ) : Scene → Event → Scene → Prop
  | done {s : Scene} {mem : Bytes} {relocated : List Relocated}
    (h : runVacuumOnceMulti ix r [off] s.mem = .done mem relocated) : Step ix r off fields s .pass { s with mem }
  | failed {s : Scene} {mem : Bytes} {e : VacuumError} (h : runVacuumOnceMulti ix r [off] s.mem = .failed e mem) :
    Step ix r off fields s .pass { s with mem }
  | set {s : Scene} {abs : ℕ} {value mem : Bytes} {announced : Bool} (ha : abs ∈ fields)
    (h : setString r abs value announced s.mem = (true, mem)) :
    Step ix r off fields s (.set abs value) ⟨mem, Function.update s.value abs (some value)⟩
  | thrown {s : Scene} {abs : ℕ} {value mem : Bytes} {announced : Bool} (ha : abs ∈ fields)
    (h : setString r abs value announced s.mem = (false, mem)) :
    Step ix r off fields s (.set abs value) { s with mem }

/-- Neither a pass nor a string write goes over the bytes of a bystander. -/
def Spares (ix : ArtIndex) (r : Regions) (off : UInt32) (b : Bystanders) (s : Scene) : Event → Prop
  | .pass => Disjoint (touched ix r [off] s.mem) (b.bytes s.mem)
  | .set _ value => stringBump r s.mem + value.length ≤ r.stringEnd → r.stringDataStart ≤ stringBump r s.mem ∧
      Disjoint (Ico (stringBump r s.mem) (stringBump r s.mem + value.length)) (b.bytes s.mem)

/-- The bystanders read what was last written to them. -/
structure Holds (r : Regions) (b : Bystanders) (base : Bytes) (s : Scene) : Prop where
  length : s.mem.length = base.length
  reads : ∀ a ∈ b.strings, readString s.mem a = s.value a
  inside : ∀ a ∈ b.strings, readU32 s.mem a = 0 ∧ readU32 s.mem (a + 4) = 0 ∨
    r.stringDataStart ≤ readU32 s.mem a ∧ readU32 s.mem a + readU32 s.mem (a + 4) ≤ r.stringEnd
  fixed : ∀ e ∈ b.fixed, slice s.mem e.start e.len = slice base e.start e.len

section

variable {b : Bystanders} {own : List ℕ} {s s' : Scene} {d : Set ℕ} {off : UInt32}

/-- A change of other bytes than those of the bystanders. -/
theorem Holds.frame (hs : Holds r b base s) (hch : ChangesOnly d s.mem mem) (hd : Disjoint d (b.bytes s.mem)) :
    Holds r b base { s with mem } ∧ b.bytes mem = b.bytes s.mem := by
  have hword : ∀ a ∈ b.strings, readU32 mem a = readU32 s.mem a ∧ readU32 mem (a + 4) = readU32 s.mem (a + 4) := by
    intro a ha
    have hpointer : Disjoint (Ico a (a + 8)) d := by
      refine hd.symm.mono_left ?_
      exact fun i hi ↦ .inl ⟨a, ha, hi⟩
    exact ⟨hch.readU32 (hpointer.mono_left (Ico_subset_Ico_right (by omega))),
      hch.readU32 (hpointer.mono_left (Ico_subset_Ico (by omega) (by omega)))⟩
  refine ⟨⟨hch.length_eq.trans hs.length, ?_, ?_, ?_⟩, ?_⟩
  · intro a ha
    obtain ⟨hoff, hlen⟩ := hword a ha
    have hbytes : Disjoint (Ico (readU32 s.mem a) (readU32 s.mem a + readU32 s.mem (a + 4))) d := by
      refine hd.symm.mono_left ?_
      exact fun i hi ↦ .inr (.inl ⟨a, ha, hi⟩)
    rw [← hs.reads a ha, readString, readString, hoff, hlen, hch.slice hbytes, hch.length_eq]
  · intro a ha
    obtain ⟨hoff, hlen⟩ := hword a ha
    rw [hoff, hlen]
    exact hs.inside a ha
  · intro e he
    have hbytes : Disjoint (Ico e.start (e.start + e.len)) d := by
      refine hd.symm.mono_left ?_
      exact fun i hi ↦ .inr (.inr ⟨e, he, hi⟩)
    rw [hch.slice hbytes, hs.fixed e he]
  · ext i
    refine or_congr_right (or_congr_left ?_)
    refine exists_congr fun a ↦ and_congr_right ?_
    intro ha
    rw [(hword a ha).1, (hword a ha).2]

/-- The bump word is nobody's. -/
theorem Holds.bump_clear (hs : Holds r b base s) (hr : Valid r base.length) (hp : b.Placed r own) :
    Disjoint (bumpSpan r) (b.bytes s.mem) := by
  have hdata : r.stringDataStart = r.stringStart.toNat + 8 := rfl
  have hart : r.artEnd = r.artRoot.toNat + r.artBytes.toNat := rfl
  have hrecord := hr.recordEnd_le
  have hindex := hr.artEnd_le
  refine disjoint_left.mpr ?_
  intro i hi hbytes
  have hlow := hi.1
  have hhigh := hi.2
  rcases hbytes with ⟨a, ha, hia⟩ | ⟨a, ha, hia⟩ | ⟨e, he, hie⟩
  · have hfield := hp.strings a (List.mem_append_right _ ha)
    have hend := hia.2
    omega
  · have hstart := hia.1
    have hend := hia.2
    rcases hs.inside a ha with hunset | hin
    · omega
    · omega
  · have hstart := hie.1
    have hend := hie.2
    rcases hp.fixed e he with hin | hin
    · omega
    · omega

/-- The field that a call came to names its string, and every other is as it was. -/
theorem Holds.point (hs : Holds r b base s) (hr : Valid r base.length) (hp : b.Placed r own) {abs n : ℕ} {value : Bytes}
    (ha : abs ∈ own ++ b.strings) (hlow : r.stringDataStart ≤ n) (hhigh : n + value.length ≤ r.stringEnd)
    (hslice : slice s.mem n value.length = value) :
    Holds r b base ⟨pointString abs n value.length s.mem, Function.update s.value abs (some value)⟩ := by
  have hdata : r.stringDataStart = r.stringStart.toNat + 8 := rfl
  have hart : r.artEnd = r.artRoot.toNat + r.artBytes.toNat := rfl
  have hrecord := hr.recordEnd_le
  have hindex := hr.artEnd_le
  have hstop := hr.stringEnd_le
  have harena := hr.arena
  have hlt := r.arenaBytes.toNat_lt
  have hfield := hp.strings abs ha
  have hlength := hs.length
  have hfit : abs + 8 ≤ s.mem.length := by omega
  have hch := changesOnly_pointString hfit n value.length
  have hoff : n < 2 ^ 32 := by omega
  have hlen : value.length < 2 ^ 32 := by omega
  obtain ⟨hoff, hlen⟩ := readU32_pointString hfit hoff hlen
  have hother : ∀ c ∈ b.strings, c ≠ abs → Disjoint (Ico c (c + 8)) (Ico abs (abs + 8)) := by
    intro c hc hne
    have happart := hp.apart abs ha c hc
    exact disjoint_Ico (by omega)
  have hbytes : ∀ o len, r.stringDataStart ≤ o ∨ len = 0 → Disjoint (Ico o (o + len)) (Ico abs (abs + 8)) := by
    intro o len ho
    refine disjoint_left.mpr ?_
    intro i hi hia
    have := hi.1
    have := hi.2
    have := hia.2
    omega
  refine ⟨hch.length_eq.trans hlength, ?_, ?_, ?_⟩
  · intro c hc
    dsimp only
    by_cases heq : c = abs
    · subst heq
      rw [Function.update_self, readString_eq hoff hlen (by omega) (by rw [hch.length_eq]; omega),
        hch.slice (hbytes n _ (.inl hlow)), hslice]
    · have hclear := hother c hc heq
      have hoff' : readU32 (pointString abs n value.length s.mem) c = readU32 s.mem c :=
        hch.readU32 (hclear.mono_left (Ico_subset_Ico_right (by omega)))
      have hlen' : readU32 (pointString abs n value.length s.mem) (c + 4) = readU32 s.mem (c + 4) :=
        hch.readU32 (hclear.mono_left (Ico_subset_Ico (by omega) (by omega)))
      have hin := hs.inside c hc
      rw [Function.update_of_ne heq, ← hs.reads c hc, readString, readString, hoff', hlen', hch.length_eq,
        hch.slice (hbytes _ _ (by omega))]
  · intro c hc
    dsimp only
    by_cases heq : c = abs
    · subst heq
      rw [hoff, hlen]
      exact .inr ⟨hlow, hhigh⟩
    · have hclear := hother c hc heq
      rw [hch.readU32 (hclear.mono_left (Ico_subset_Ico_right (by omega))),
        hch.readU32 (hclear.mono_left (Ico_subset_Ico (by omega) (by omega)))]
      exact hs.inside c hc
  · intro e he
    rw [hch.slice (disjoint_Ico (by have := hp.apart_fixed abs ha e he; omega)), hs.fixed e he]

theorem Holds.step {a : Event} (hs : Holds r b base s) (hr : Valid r base.length) (hp : b.Placed r own)
    (hok : Spares ix r off b s a) (hstep : Step ix r off (own ++ b.strings) s a s') : Holds r b base s' := by
  have hr' : Valid r s.mem.length := hs.length ▸ hr
  have hclear := hs.bump_clear hr hp
  cases hstep with
  | done h =>
    have hch := changesOnly_pass hr' h
    exact (hs.frame hch (disjoint_union_left.mpr ⟨hok, hclear⟩)).1
  | failed h =>
    rw [failed_pass hr' h]
    exact hs
  | set ha h =>
    rename_i abs value mem announced
    rcases setString_cases hr' abs value announced with ⟨m, hthrown, _⟩ | ⟨m, hset, hroom, hch, hslice⟩
    · rw [hthrown] at h
      cases h
    · rw [hset] at h
      obtain ⟨-, rfl⟩ := Prod.mk.inj h
      obtain ⟨hlow, hspace⟩ := hok hroom
      exact (hs.frame hch (disjoint_union_left.mpr ⟨hclear, hspace⟩)).1.point hr hp ha hlow hroom hslice
  | thrown ha h =>
    rename_i abs value mem announced
    rcases setString_cases hr' abs value announced with ⟨m, hthrown, hch⟩ | ⟨m, hset, _⟩
    · rw [hthrown] at h
      obtain ⟨-, rfl⟩ := Prod.mk.inj h
      rcases hch with hch | ⟨hroom, hch⟩
      · exact (hs.frame hch hclear).1
      · exact (hs.frame hch (disjoint_union_left.mpr ⟨hclear, (hok hroom).2⟩)).1
    · rw [hset] at h
      cases h

end

/-- In a run whose passes and string writes all spare the bystanders, every string field of another schema reads
what was last assigned to it, and every other field and every payload reads as at the start. -/
theorem harmless_of_spares {b : Bystanders} {own : List ℕ} {s₀ s : Scene} {off : UInt32}
    (hr : validateRegions r s₀.mem.length = .ok ()) (hp : b.Placed r own) (hs₀ : Holds r b s₀.mem s₀)
    (hrun : Run (Step ix r off (own ++ b.strings)) (Spares ix r off b) s₀ s) :
    (∀ a ∈ b.strings, readString s.mem a = s.value a) ∧
      ∀ e ∈ b.fixed, slice s.mem e.start e.len = slice s₀.mem e.start e.len := by
  have hr := (valid_iff r s₀.mem.length).mp hr
  have hholds := hrun.invariant (Holds r b s₀.mem) (fun _ _ _ hs hok hstep ↦ hs.step hr hp hok hstep) hs₀
  exact ⟨hholds.reads, hholds.fixed⟩

theorem movedStrings_eq {root : Tree} {offsets : List UInt32} (hix : Indexes mem ix root)
    (htotal : totalLen (liveStrings mem (fields root.values offsets)) ≤ mem.length)
    (hbank : totalLen (liveStrings mem (fields root.values offsets)) ≤ bankSize r) :
    movedStrings ix r offsets mem = liveStrings mem (fields root.values offsets) := by
  rw [movedStrings, hix.liveRecords]
  simp only [gatherLive_eq htotal]
  exact if_neg (not_lt.mpr hbank)

/-- One pass over the arena with one string of five bytes. -/
theorem oneString_pass : ∃ c, Compacted (oneStringArena 5) [4096] 16773128 (liveStrings (oneStringArena 5) [4096]) c ∧
    runVacuumOnceMulti stringIndex stringRegions [0] (oneStringArena 5) =
      .done (published stringRegions 16773128 c) c.relocated ∧
    movedStrings stringIndex stringRegions [0] (oneStringArena 5) = [⟨4096, 16769032, 5⟩] ∧
    freeBank stringRegions (oneStringArena 5) = 16773128 := by
  have hv := (valid_iff _ _).mp (oneString_valid 5)
  have hix := oneString_indexes 5
  have hlive := oneString_live (show 0 < 5 by omega) (by omega)
  have hd := oneString_declared (show 0 < 5 by omega) (by omega)
  have hbump := oneString_bump (show 5 < 8184 by omega)
  have htotal := oneString_totalLen (show 0 < 5 by omega) (by omega)
  have hlength := length_oneStringArena 5
  generalize oneStringArena 5 = m at *
  rw [← oneString_fields] at hd htotal
  have hsize : bankSize stringRegions = 4096 := by decide
  have hmin : minArenaForVacuum ≤ 16777216 := by decide
  have hbank : freeBank stringRegions m = 16773128 := by
    rw [freeBank, hbump]
    decide
  have hend : freeBank stringRegions m + totalLen (liveStrings m (fields oneStringTree.values [0])) <
      stringRegions.stringEnd := by
    rw [hbank, htotal]
    decide
  obtain ⟨c, hc, hrun⟩ := exists_pass hv hix hd (by omega) (by omega) (by omega) (by omega) hend
  have hmoved : movedStrings stringIndex stringRegions [0] m = _ := movedStrings_eq hix (by omega) (by omega)
  rw [oneString_fields, hbank] at hc
  rw [hbank] at hrun
  refine ⟨c, hc, hrun, ?_, hbank⟩
  rw [hmoved, oneString_fields]
  simp [liveStrings, hlive]

theorem untouched_zero {addr : ℕ} (hlow : 4104 ≤ addr) (hhigh : addr + 4 ≤ 49152) :
    readU32 (oneStringArena 5) addr = 0 := by
  have hch := changesOnly_applyWrites (oneString_fits 5)
  have hclear : Disjoint (Ico addr (addr + 4)) (written (oneString 5)) := by
    refine disjoint_left.mpr ?_
    intro i hi hwritten
    obtain ⟨w, hw, hin⟩ := hwritten
    have := hi.1
    have := hi.2
    have := hin.1
    have := hin.2
    simp only [oneString, List.mem_cons, List.not_mem_nil, or_false] at hw
    rcases hw with rfl | rfl | rfl | rfl | rfl | rfl | rfl | rfl | rfl | rfl <;> simp only [length_leEncode] at * <;> omega
  exact (hch.readU32 hclear).trans (readU32_zeros (by omega))

/-- Beside the field of the vacuumed schema: a number, and a string field of another schema. -/
def quietNeighbours : Bystanders := ⟨[4112], [⟨4104, 8⟩]⟩

theorem quietNeighbours_placed : quietNeighbours.Placed stringRegions [4096] where
  strings := by decide
  fixed := by decide
  apart := by decide
  apart_fixed := by decide

theorem quietNeighbours_harmless : ∃ s, Run (Step stringIndex stringRegions 0 ([4096] ++ quietNeighbours.strings))
      (Spares stringIndex stringRegions 0 quietNeighbours) ⟨oneStringArena 5, fun _ ↦ some []⟩ s ∧
    (∀ a ∈ quietNeighbours.strings, readString s.mem a = s.value a) ∧
      ∀ e ∈ quietNeighbours.fixed, slice s.mem e.start e.len = slice (oneStringArena 5) e.start e.len := by
  obtain ⟨c, _, hrun, hmoved, hbank⟩ := oneString_pass
  have hoff := untouched_zero (show 4104 ≤ 4112 by omega) (by omega)
  have hlen := untouched_zero (show 4104 ≤ 4116 by omega) (by omega)
  have hr := oneString_valid 5
  generalize oneStringArena 5 = m at *
  have hspares : Spares stringIndex stringRegions 0 quietNeighbours ⟨m, fun _ ↦ some []⟩ .pass := by
    refine disjoint_left.mpr ?_
    intro i htouched hbytes
    have hin : i < 4104 ∨ 16773128 ≤ i := by
      rw [touched] at htouched
      simp only [hmoved, hbank] at htouched
      rcases htouched with ⟨a, ha, hi⟩ | ⟨_, hi⟩
      · obtain rfl := List.mem_singleton.mp ha
        exact .inl hi.2
      · exact .inr hi.1
    rcases hbytes with ⟨a, ha, hi⟩ | ⟨a, ha, hi⟩ | ⟨e, he, hi⟩
    · obtain rfl := List.mem_singleton.mp ha
      have := hi.1
      have := hi.2
      omega
    · obtain rfl := List.mem_singleton.mp ha
      simp only [hoff, hlen] at hi
      have := hi.2
      have := hi.1
      omega
    · obtain rfl := List.mem_singleton.mp he
      have := hi.1
      have := hi.2
      simp only at *
      omega
  have hholds : Holds stringRegions quietNeighbours m ⟨m, fun _ ↦ some []⟩ := by
    refine ⟨rfl, ?_, ?_, fun _ _ ↦ rfl⟩
    · intro a ha
      obtain rfl := List.mem_singleton.mp ha
      exact readString_unset hoff hlen
    · intro a ha
      obtain rfl := List.mem_singleton.mp ha
      exact .inl ⟨hoff, hlen⟩
  have hstep : Step stringIndex stringRegions 0 ([4096] ++ quietNeighbours.strings) ⟨m, fun _ ↦ some []⟩ .pass
      ⟨published stringRegions 16773128 c, fun _ ↦ some []⟩ := .done hrun
  have hpass := (Run.refl _).tail hspares hstep
  exact ⟨_, hpass, harmless_of_spares hr quietNeighbours_placed hholds hpass⟩

/-- The same bytes as two numbers of a record of another schema. -/
def pointerLike : Bystanders := ⟨[], [⟨4096, 8⟩]⟩

/-- A pass changes two numbers that look like a live pointer. -/
theorem pointerLike_harmed : validateRegions stringRegions (oneStringArena 5).length = .ok () ∧
    pointerLike.Placed stringRegions [] ∧
    ∃ s, Run (Step stringIndex stringRegions 0 pointerLike.strings)
      (fun _ _ ↦ True) ⟨oneStringArena 5, fun _ ↦ none⟩ s ∧
      slice s.mem 4096 8 ≠ slice (oneStringArena 5) 4096 8 := by
  obtain ⟨c, hc, hrun, _, _⟩ := oneString_pass
  have hr := oneString_valid 5
  have hd := oneString_declared (show 0 < 5 by omega) (by omega)
  have hlive := oneString_live (show 0 < 5 by omega) (by omega)
  have htotal := oneString_totalLen (show 0 < 5 by omega) (by omega)
  have hfield := oneString_field (show 5 < 2 ^ 16 by omega)
  have hlength := length_oneStringArena 5
  generalize oneStringArena 5 = m at *
  have htemp : c.temp.length = 5 := hc.length_temp.trans htotal
  have hbank : stringRegions.stringDataStart ≤ 16773128 := by decide
  have hstep : Step stringIndex stringRegions 0 pointerLike.strings ⟨m, fun _ ↦ none⟩ .pass
      ⟨published stringRegions 16773128 c, fun _ ↦ none⟩ := .done hrun
  refine ⟨hr, ⟨by decide, by decide, by decide, by decide⟩, _, (Run.refl _).tail trivial hstep, ?_⟩
  intro hsame
  obtain ⟨_, ⟨hnone, _⟩ | ⟨t, hoff, hroom, _, _⟩⟩ :=
    hc.field ((valid_iff _ _).mp hr) hd hbank (by omega) (List.mem_singleton_self 4096)
  · rw [hlive] at hnone
    cases hnone
  · have hword : readU32 (published stringRegions 16773128 c) 4096 = readU32 m 4096 := by
      have hfirst : ∀ mem : Bytes, slice mem 4096 4 = (slice mem 4096 8).take 4 := by
        intro mem
        simp [slice, List.take_take]
      rw [readU32, hfirst, hsame, ← hfirst, readU32]
    omega

end TakyonDb.Vacuum
