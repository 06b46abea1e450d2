import TakyonDb.Exports
import TakyonDb.Lib.Bump
import TakyonDb.Lib.Transition
import TakyonDb.Recovery

namespace TakyonDb.Allocators

open Lib Layout Snapshot Recovery

def alignUp (size : ℕ) : ℕ := (size + 7) / 8 * 8

/-- The bump word that the SDK moves: the eight bytes in front of the records. -/
def recordBumpView (r : Regions) : ℕ := r.recordStart.toNat - 8

def allocateRecordOffset (r : Regions) (size : ℕ) (arena : Bytes) : Option ℕ × Bytes :=
  if size = 0 ∨ recordBumpView r % 4 ≠ 0 then (none, arena)
  else fetchAdd (recordBumpView r) r.recordStart.toNat r.recordEnd (alignUp size) arena

def allocNode (r : Regions) (size : ℕ) (arena : Bytes) : Option ℕ × Bytes :=
  if arena.length < r.artBumpOffset + 4 then (none, arena)
  else claim r.artBumpOffset arena.length (alignUp size) arena

/-- The allocation and the copy of a string field's bytes. -/
def setString (r : Regions) (bytes arena : Bytes) : Option ℕ × Bytes :=
  if arena.length ≤ r.stringDataStart then (none, arena)
  else
    match fetchAdd r.stringStart.toNat r.stringDataStart r.stringEnd bytes.length arena with
    | (some off, arena) => (some off, overwrite arena off bytes)
    | (none, arena) => (none, arena)

/-- The allocation and the copy of a catalog record, whose limit is the end of the mapping. -/
def saveCatalog (r : Regions) (payload arena : Bytes) : Option ℕ × Bytes :=
  if arena.length < r.stringStart.toNat + 4 ∨ arena.length < r.stringDataStart then (none, arena)
  else
    match fetchAdd r.stringStart.toNat r.stringDataStart arena.length payload.length arena with
    | (some off, arena) => (some off, overwrite arena off payload)
    | (none, arena) => (none, arena)

/-- The arena and what was granted in each of its regions. -/
structure Heap where
  arena : Bytes
  records : List Extent := []
  nodes : List Extent := []
  strings : List Extent := []

inductive Request
  | record (size : ℕ)
  | node (size : ℕ)
  | key (src : Bytes)
  | field (bytes : Bytes)
  | catalog (payload : Bytes)
  | store (off : ℕ) (bytes : Bytes)

/-- A granted or refused request, or a plain store. -/
def Heap.request (r : Regions) (s : Heap) : Request → Heap
  | .record size =>
    let (off, arena) := allocateRecordOffset r size s.arena
    { s with arena, records := grant off (alignUp size) s.records }
  | .node size =>
    let (off, arena) := allocNode r size s.arena
    { s with arena, nodes := grant off (alignUp size) s.nodes }
  | .key src =>
    let (off, arena) := Exports.allocString r src s.arena
    { s with arena, strings := grant off (alignUp src.length) s.strings }
  | .field bytes =>
    let (off, arena) := setString r bytes s.arena
    { s with arena, strings := grant off bytes.length s.strings }
  | .catalog payload =>
    let (off, arena) := saveCatalog r payload s.arena
    { s with arena, strings := grant off payload.length s.strings }
  | .store off bytes => { s with arena := overwrite s.arena off bytes }

/-- The store lies in the arena and off the engine's bump words. -/
def Spares (r : Regions) (arena : Bytes) (off len : ℕ) : Prop :=
  off + len ≤ arena.length ∧ ∀ word ∈ [r.recordBumpOffset, r.artBumpOffset, r.stringStart.toNat],
    word + 4 ≤ off ∨ off + len ≤ word

def Step (r : Regions) (s : Heap) (q : Request) (t : Heap) : Prop :=
  t = s.request r q ∧ ∀ off bytes, q = .store off bytes → Spares r s.arena off bytes.length

/-- The arena of a daemon that started on an empty data directory. -/
def bootArena (r : Regions) (mem : Bytes) : Bytes :=
  finalize r r.recordStart.toNat r.artStart r.stringDataStart (resetIndex r mem)

def boot (r : Regions) (mem : Bytes) : Heap := { arena := bootArena r mem }

def Contained (r : Regions) (s : Heap) : Request → Prop
  | .record size => size = 0 ∨ r.recordStart.toNat = r.recordBumpOffset + 8 ∧
      Holds r.artRoot.toNat s.arena.length (readU32 s.arena (recordBumpView r) + alignUp size) s.records
  | .node size => readU32 s.arena r.artBumpOffset + alignUp size ≤ r.stringStart.toNat ∨
      s.arena.length < readU32 s.arena r.artBumpOffset + alignUp size
  | .field bytes => s.arena.length ≤ r.stringDataStart ∨
      Holds s.arena.length s.arena.length (readU32 s.arena r.stringStart.toNat + bytes.length) s.strings
  | .catalog payload =>
      Holds s.arena.length s.arena.length (readU32 s.arena r.stringStart.toNat + payload.length) s.strings
  | .key _ | .store _ _ => True

/-- The snapshot of the arena is loaded again with everything that was granted. -/
def Publishable (r : Regions) (s : Heap) : Prop :=
  ∀ target : Bytes, target.length = s.arena.length → ∃ snap restored,
    loadSnapshot (some (snapshotFile s.arena r)) r target = (some snap, restored) ∧
    ∀ a ∈ s.records ++ s.nodes ++ s.strings,
      (∃ e ∈ snap.extents, a.Within e) ∧ slice restored a.start a.len = slice s.arena a.start a.len

/-- The extent that the snapshot takes of a region holds all that was granted. -/
theorem bumpExtent_spec {arena : Bytes} {word first limit : ℕ} {granted : List Extent} (start : ℕ)
    (h : BumpInv arena word first limit granted)
    (hword : word + 4 ≤ arena.length) (hstart : start < first) (hfirst : first ≤ limit)
    (hlimit : limit ≤ arena.length) :
    (bumpExtent arena start word first).start = start ∧
    first ≤ (bumpExtent arena start word first).stop ∧
    (bumpExtent arena start word first).stop ≤ limit ∧
    ∀ g ∈ granted, g.Within (bumpExtent arena start word first) := by
  rcases h with ⟨hge, hle, hgranted⟩ | ⟨hbeyond, rfl⟩
  · have hbump : readBump arena word first = readU32 arena word := by
      rw [readBump, if_neg (by omega), if_neg (by omega)]
    rw [bumpExtent, if_neg (by omega), hbump]
    dsimp only
    rw [if_neg (by omega)]
    refine ⟨rfl, ?_, ?_, fun g hg ↦ ?_⟩
    · rw [Extent.stop]
      dsimp only
      omega
    · rw [Extent.stop]
      dsimp only
      omega
    · obtain ⟨hfrom, hto⟩ := hgranted g hg
      refine ⟨by dsimp only; omega, ?_⟩
      rw [Extent.stop, Extent.stop] at *
      dsimp only
      omega
  · have hbump : readBump arena word first = first := by
      rw [readBump, if_neg (by omega), if_pos hbeyond]
    rw [bumpExtent, if_neg (by omega), hbump]
    dsimp only
    rw [if_neg (by omega)]
    refine ⟨rfl, ?_, ?_, by simp⟩
    · rw [Extent.stop]
      dsimp only
      omega
    · rw [Extent.stop]
      dsimp only
      omega

/-- Each region's bump word is where the snapshot's reader wants it. -/
structure Inv (r : Regions) (s : Heap) : Prop where
  valid : Layout.Valid r s.arena.length
  room : r.artStart ≤ r.stringStart.toNat
  record : BumpInv s.arena r.recordBumpOffset r.recordStart.toNat r.artRoot.toNat s.records
  node : BumpInv s.arena r.artBumpOffset r.artStart r.stringStart.toNat s.nodes
  string : BumpInv s.arena r.stringStart.toNat r.stringDataStart s.arena.length s.strings

/-- Extents that begin where their regions do and reach behind the words
that keep the books. -/
theorem extents_described {r : Regions} {rec art str : Extent} (hroom : r.recordBumpOffset + 8 ≤ r.recordStart.toNat)
    (hrs : rec.start = r.recordBumpOffset) (hrge : r.recordStart.toNat ≤ rec.stop)
    (has : art.start = r.artRoot.toNat) (hage : r.artStart ≤ art.stop)
    (hss : str.start = r.stringStart.toNat) (hsge : r.stringDataStart ≤ str.stop) :
    [⟨0, ringOffset⟩, rec, art, str].map Extent.start = extentStarts r ∧
    List.Forall₂ (fun minLen e ↦ e.len = 0 ∨ minLen ≤ e.len) (extentMinLens r)
      [⟨0, ringOffset⟩, rec, art, str] := by
  rw [Extent.stop] at hrge hage hsge
  have hart : r.artStart = r.artRoot.toNat + 8 := rfl
  have hstr : r.stringDataStart = r.stringStart.toNat + 8 := rfl
  refine ⟨?_, .cons (.inr le_rfl) (.cons (.inr (by omega)) (.cons (.inr (by omega))
    (.cons (.inr (by omega)) .nil)))⟩
  simp only [List.map_cons, List.map_nil, hrs, has, hss, extentStarts]

theorem snapshotExtents_eq {mem : Bytes} (h : ringOffset ≤ mem.length) (r : Regions) :
    snapshotExtents mem r =
      [⟨0, ringOffset⟩, recordExtent mem r, artExtent mem r, stringExtent mem r] := by
  rw [snapshotExtents, if_pos h]

/-- The snapshot of a state that meets the invariant can be loaded, and its
extents hold all that was granted. -/
theorem loadable_of_inv {r : Regions} {s : Heap} (h : Inv r s) :
    Loadable r s.arena.length (snapshotExtents s.arena r) ∧
      ∀ a ∈ s.records ++ s.nodes ++ s.strings, ∃ e ∈ snapshotExtents s.arena r, a.Within e := by
  obtain ⟨h₁, h₂, h₃, h₄, h₅, h₆, h₇, h₈, h₉, -⟩ := words_apart h.valid h.room
  obtain ⟨hrs, hrge, hrle, hrin⟩ := bumpExtent_spec r.recordBumpOffset h.record (by omega)
    (by omega) h₃ (by omega)
  obtain ⟨has, hage, hale, hain⟩ := bumpExtent_spec r.artRoot.toNat h.node (by omega)
    (by omega) h₆ (by omega)
  obtain ⟨hss, hsge, hsle, hsin⟩ := bumpExtent_spec r.stringStart.toNat h.string (by omega)
    (by omega) (by omega) le_rfl
  rw [← recordExtent] at hrs hrge hrle hrin
  rw [← artExtent] at has hage hale hain
  rw [← stringExtent] at hss hsge hsle hsin
  rw [snapshotExtents_eq (by omega)]
  generalize recordExtent s.arena r = rec at *
  generalize artExtent s.arena r = art at *
  generalize stringExtent s.arena r = str at *
  have hlens : rec.stop = rec.start + rec.len ∧ art.stop = art.start + art.len ∧
      str.stop = str.start + str.len ∧ (Extent.mk 0 ringOffset).stop = ringOffset :=
    ⟨rfl, rfl, rfl, rfl⟩
  obtain ⟨hstarts, hmin⟩ := extents_described h₂ hrs hrge has hage hss hsge
  refine ⟨⟨hstarts, ⟨?_, ?_⟩, hmin⟩, fun a ha ↦ ?_⟩
  · simp only [List.pairwise_cons, List.mem_cons, List.not_mem_nil, or_false, forall_eq_or_imp, forall_eq]
    exact ⟨⟨by omega, by omega, by omega⟩, ⟨by omega, by omega⟩, by omega, by simp⟩
  · simp only [List.mem_cons, List.not_mem_nil, or_false, forall_eq_or_imp, forall_eq]
    exact ⟨by omega, by omega, by omega, by omega⟩
  · rcases List.mem_append.mp ha with ha | ha
    · rcases List.mem_append.mp ha with ha | ha
      · exact ⟨rec, by simp, hrin a ha⟩
      · exact ⟨art, by simp, hain a ha⟩
    · exact ⟨str, by simp, hsin a ha⟩

theorem publishable_of_inv {r : Regions} {s : Heap} (h : Inv r s) : Publishable r s := by
  intro target hlen
  obtain ⟨hload, hwithin⟩ := loadable_of_inv h
  refine ⟨_, _, loadSnapshot_snapshotFile h.valid hload hlen, fun a ha ↦ ⟨hwithin a ha, ?_⟩⟩
  obtain ⟨e, he, hin⟩ := hwithin a ha
  exact slice_restrict he hin

/-- What a step may do to the arena without touching the bump word of a region. -/
theorem BumpInv.frame {mem : Bytes} {word first limit off : ℕ} {src : Bytes} {granted : List Extent}
    (h : BumpInv mem word first limit granted) (hin : off + src.length ≤ mem.length)
    (hd : word + 4 ≤ off ∨ off + src.length ≤ word) :
    BumpInv (overwrite mem off src) word first limit granted :=
  h.congr (readU32_overwrite_of_disjoint hin hd) (length_overwrite hin)

theorem inv_store {r : Regions} {s : Heap} {off : ℕ} {bytes : Bytes} (h : Inv r s)
    (hd : Spares r s.arena off bytes.length) : Inv r (s.request r (.store off bytes)) := by
  obtain ⟨hin, hwords⟩ := hd
  simp only [List.mem_cons, List.not_mem_nil, or_false, forall_eq_or_imp, forall_eq] at hwords
  have hlen : (overwrite s.arena off bytes).length = s.arena.length := length_overwrite hin
  refine ⟨?_, h.room, BumpInv.frame h.record hin hwords.1, BumpInv.frame h.node hin hwords.2.1, ?_⟩
  · show Layout.Valid r (overwrite s.arena off bytes).length
    rw [hlen]
    exact h.valid
  · show BumpInv (overwrite s.arena off bytes) _ _ (overwrite s.arena off bytes).length _
    rw [hlen]
    exact BumpInv.frame h.string hin hwords.2.2

theorem recordBumpView_eq {r : Regions} (hgap : r.recordStart.toNat = r.recordBumpOffset + 8) :
    recordBumpView r = r.recordBumpOffset ∧ recordBumpView r % 4 = 0 := by
  have hview : recordBumpView r = r.recordBumpOffset := by
    rw [recordBumpView]
    omega
  refine ⟨hview, ?_⟩
  rw [hview]
  simp only [Regions.recordBumpOffset, ringOffset, ringBytes, ringHeaderBytes]
  omega

theorem allocateRecordOffset_eq {r : Regions} {s : Heap} {size : ℕ} (h : Inv r s) (hsize : size ≠ 0)
    (hgap : r.recordStart.toNat = r.recordBumpOffset + 8) :
    allocateRecordOffset r size s.arena =
      (if r.recordEnd < readU32 s.arena r.recordBumpOffset + alignUp size then none
        else some (readU32 s.arena r.recordBumpOffset),
      writeU32 s.arena r.recordBumpOffset
        ((readU32 s.arena r.recordBumpOffset + alignUp size) % 2 ^ 32)) := by
  obtain ⟨hview, haligned⟩ := recordBumpView_eq hgap
  rw [allocateRecordOffset, if_neg (not_or.mpr ⟨hsize, not_not.mpr haligned⟩), hview, fetchAdd,
    h.record.seed_eq (by omega)]

theorem inv_record {r : Regions} {s : Heap} {size : ℕ} (h : Inv r s)
    (hfit : Contained r s (.record size)) : Inv r (s.request r (.record size)) := by
  obtain ⟨h₁, h₂, h₃, h₄, h₅, h₆, h₇, h₈, h₉, hn⟩ := words_apart h.valid h.room
  rcases eq_or_ne size 0 with rfl | hsize
  · rw [Heap.request, allocateRecordOffset, if_pos (.inl rfl)]
    exact h
  obtain ⟨hgap, hold⟩ := hfit.resolve_left hsize
  obtain ⟨hview, haligned⟩ := recordBumpView_eq hgap
  have hend := h.valid.recordEnd_le
  rw [hview] at hold
  obtain ⟨hmem, -, hinv⟩ := fetchAdd_inv h.record (by omega) (by omega) (by omega) hn
    (show r.recordEnd ≤ s.arena.length by omega) hold
  have halloc : allocateRecordOffset r size s.arena =
      fetchAdd r.recordBumpOffset r.recordStart.toNat r.recordEnd (alignUp size) s.arena := by
    rw [allocateRecordOffset, if_neg (not_or.mpr ⟨hsize, not_not.mpr haligned⟩), hview]
  rw [Heap.request, halloc]
  dsimp only
  have hlen : (fetchAdd r.recordBumpOffset r.recordStart.toNat r.recordEnd (alignUp size) s.arena).2.length =
      s.arena.length := by
    rw [hmem]
    exact length_writeU32 (by omega) _
  refine ⟨?_, h.room, hinv, ?_, ?_⟩
  · dsimp only
    rw [hlen]
    exact h.valid
  · dsimp only
    rw [hmem]
    exact BumpInv.frame h.node (by rw [length_leEncode]; omega) (by rw [length_leEncode]; omega)
  · dsimp only
    rw [hlen, hmem]
    exact BumpInv.frame h.string (by rw [length_leEncode]; omega) (by rw [length_leEncode]; omega)

theorem inv_node {r : Regions} {s : Heap} {size : ℕ} (h : Inv r s) (hfit : Contained r s (.node size)) :
    Inv r (s.request r (.node size)) := by
  obtain ⟨h₁, h₂, h₃, h₄, h₅, h₆, h₇, h₈, h₉, hn⟩ := words_apart h.valid h.room
  obtain ⟨hmem, hinv⟩ := claim_inv h.node (by omega) (by omega) hn hfit
  have halloc : allocNode r size s.arena = claim r.artBumpOffset s.arena.length (alignUp size) s.arena := by
    rw [allocNode, if_neg (by omega)]
  rw [Heap.request, halloc]
  rcases hmem with hmem | hmem
  · dsimp only
    rw [hmem] at hinv ⊢
    exact ⟨h.valid, h.room, h.record, hinv, h.string⟩
  · have hlen : (claim r.artBumpOffset s.arena.length (alignUp size) s.arena).2.length = s.arena.length := by
      rw [hmem]
      exact length_writeU32 (by omega) _
    refine ⟨?_, h.room, ?_, hinv, ?_⟩
    · dsimp only
      rw [hlen]
      exact h.valid
    · dsimp only
      rw [hmem]
      exact BumpInv.frame h.record (by rw [length_leEncode]; omega) (by rw [length_leEncode]; omega)
    · dsimp only
      rw [hlen, hmem]
      exact BumpInv.frame h.string (by rw [length_leEncode]; omega) (by rw [length_leEncode]; omega)

/-- The bytes of a granted string are behind all bump words. -/
theorem inv_string {r : Regions} {s : Heap} {off : ℕ} {src : Bytes} (h : Inv r s)
    (hfrom : r.stringDataStart ≤ off) (hto : off + src.length ≤ s.arena.length) :
    Inv r { s with arena := overwrite s.arena off src } := by
  obtain ⟨h₁, h₂, h₃, h₄, h₅, h₆, h₇, h₈, h₉, -⟩ := words_apart h.valid h.room
  refine inv_store h ⟨hto, fun word hword ↦ .inl ?_⟩
  simp only [List.mem_cons, List.not_mem_nil, or_false] at hword
  rcases hword with rfl | rfl | rfl <;> omega

/-- A move of the string bump word that the invariant allows. -/
theorem inv_string_word {r : Regions} {s : Heap} {v : ℕ} {strings : List Extent} (h : Inv r s)
    (hinv : BumpInv (writeU32 s.arena r.stringStart.toNat v) r.stringStart.toNat r.stringDataStart
      s.arena.length strings) :
    Inv r { s with arena := writeU32 s.arena r.stringStart.toNat v, strings } := by
  obtain ⟨h₁, h₂, h₃, h₄, h₅, h₆, h₇, h₈, h₉, -⟩ := words_apart h.valid h.room
  have hlen : (writeU32 s.arena r.stringStart.toNat v).length = s.arena.length :=
    length_writeU32 (by omega) v
  refine ⟨?_, h.room, ?_, ?_, ?_⟩
  · dsimp only
    rw [hlen]
    exact h.valid
  · exact BumpInv.frame h.record (by rw [length_leEncode]; omega) (by rw [length_leEncode]; omega)
  · exact BumpInv.frame h.node (by rw [length_leEncode]; omega) (by rw [length_leEncode]; omega)
  · dsimp only
    rw [hlen]
    exact hinv

/-- A string that is copied behind the old word, with any limit inside the arena. -/
theorem inv_copy {r : Regions} {s : Heap} {limit : ℕ} {bytes : Bytes} (h : Inv r s) (hlimit : limit ≤ s.arena.length)
    (hfit : Holds s.arena.length s.arena.length (readU32 s.arena r.stringStart.toNat + bytes.length) s.strings) :
    let call := match fetchAdd r.stringStart.toNat r.stringDataStart limit bytes.length s.arena with
      | (some off, arena) => (some off, overwrite arena off bytes)
      | (none, arena) => (none, arena)
    Inv r { s with arena := call.2, strings := grant call.1 bytes.length s.strings } := by
  obtain ⟨h₁, h₂, h₃, h₄, h₅, h₆, h₇, h₈, h₉, hn⟩ := words_apart h.valid h.room
  have hword : r.stringStart.toNat + 4 ≤ s.arena.length := by omega
  obtain ⟨hmem, hoff, hinv⟩ := fetchAdd_inv h.string (by omega) (by omega) le_rfl hn hlimit hfit
  rcases halloc : fetchAdd r.stringStart.toNat r.stringDataStart limit bytes.length s.arena with
    ⟨_ | off, mem⟩
  · rw [halloc] at hmem hinv
    dsimp only at hmem hinv ⊢
    subst hmem
    exact inv_string_word h hinv
  · rw [halloc] at hmem hoff hinv
    dsimp only at hmem hinv ⊢
    subst hmem
    obtain ⟨hfrom, hto⟩ := hoff off rfl
    refine inv_string (inv_string_word h hinv) hfrom ?_
    exact (hto.trans hlimit).trans_eq (length_writeU32 hword _).symm

theorem inv_field {r : Regions} {s : Heap} {bytes : Bytes} (h : Inv r s)
    (hfit : Contained r s (.field bytes)) : Inv r (s.request r (.field bytes)) := by
  by_cases hsmall : s.arena.length ≤ r.stringDataStart
  · rw [Heap.request, setString, if_pos hsmall]
    exact h
  · have hcopy := inv_copy h h.valid.stringEnd_le (hfit.resolve_left hsmall)
    rwa [Heap.request, setString, if_neg hsmall]

theorem inv_catalog {r : Regions} {s : Heap} {payload : Bytes} (h : Inv r s)
    (hfit : Contained r s (.catalog payload)) : Inv r (s.request r (.catalog payload)) := by
  by_cases hsmall : s.arena.length < r.stringStart.toNat + 4 ∨ s.arena.length < r.stringDataStart
  · rw [Heap.request, saveCatalog, if_pos hsmall]
    exact h
  · have hcopy := inv_copy h le_rfl hfit
    rwa [Heap.request, saveCatalog, if_neg hsmall]

theorem allocString_eq (r : Regions) (src mem : Bytes) :
    Exports.allocString r src mem =
      if alignUp src.length = 0 ∨ r.stringBytes.toNat < alignUp src.length then (none, mem)
      else
        match claim r.stringStart.toNat r.stringEnd (alignUp src.length)
          (seed r.stringStart.toNat r.stringDataStart mem) with
        | (some off, mem) => (some off, overwrite mem off src)
        | (none, mem) => (none, mem) := by
  have hseed : Exports.seedString r mem = seed r.stringStart.toNat r.stringDataStart mem := rfl
  simp only [Exports.allocString, claim, hseed, alignUp]
  refine if_congr Iff.rfl rfl ?_
  by_cases hlimit : r.stringEnd < readU32 (seed r.stringStart.toNat r.stringDataStart mem)
      r.stringStart.toNat + (src.length + 7) / 8 * 8
  · simp only [hlimit, if_true]
  · simp only [hlimit, if_false]

theorem inv_key {r : Regions} {s : Heap} {src : Bytes} (h : Inv r s) :
    Inv r (s.request r (.key src)) := by
  obtain ⟨h₁, h₂, h₃, h₄, h₅, h₆, h₇, h₈, h₉, hn⟩ := words_apart h.valid h.room
  rw [Heap.request, allocString_eq]
  split_ifs with hrefused
  · exact h
  have hstop : readU32 s.arena r.stringStart.toNat + alignUp src.length ≤ s.arena.length ∨
      r.stringEnd < readU32 s.arena r.stringStart.toNat + alignUp src.length := by omega
  obtain ⟨hmem, hinv⟩ := claim_inv h.string (by omega) le_rfl hn hstop
  rw [h.string.seed_eq (by omega)]
  have hfull : src.length ≤ alignUp src.length := by
    rw [alignUp]
    omega
  rw [claim] at hmem hinv ⊢
  dsimp only at hmem hinv ⊢
  split_ifs at hmem hinv ⊢ with hlimit
  · exact h
  · have hfrom : r.stringDataStart ≤ readU32 s.arena r.stringStart.toNat := by
      rcases h.string with ⟨hge, -⟩ | ⟨hbeyond, -⟩ <;> omega
    have hlen : (writeU32 s.arena r.stringStart.toNat
        (readU32 s.arena r.stringStart.toNat + alignUp src.length)).length = s.arena.length :=
      length_writeU32 (by omega) _
    exact inv_string (inv_string_word h hinv) hfrom (by dsimp only; omega)

theorem inv_step {r : Regions} {s t : Heap} {q : Request} (h : Inv r s) (hfit : Contained r s q)
    (hstep : Step r s q t) : Inv r t := by
  obtain ⟨rfl, hstore⟩ := hstep
  cases q with
  | record size => exact inv_record h hfit
  | node size => exact inv_node h hfit
  | key src => exact inv_key h
  | field bytes => exact inv_field h hfit
  | catalog payload => exact inv_catalog h hfit
  | store off bytes => exact inv_store h (hstore off bytes rfl)

theorem align8_eq {v : ℕ} (h : v % 8 = 0) : align8 v = v := by
  rw [align8]
  omega

theorem align8_le {v n : ℕ} (h : v ≤ n) (hn : n % 8 = 0) : v ≤ align8 v ∧ align8 v ≤ n := by
  rw [align8]
  omega

theorem boot_words {r : Regions} {mem : Bytes} (h : Layout.Valid r mem.length)
    (hroom : r.artStart ≤ r.stringStart.toNat) :
    (bootArena r mem).length = mem.length ∧
    readU32 (bootArena r mem) r.recordBumpOffset = align8 r.recordStart.toNat ∧
    readU32 (bootArena r mem) r.artBumpOffset = r.artStart ∧
    readU32 (bootArena r mem) r.stringStart.toNat = r.stringDataStart := by
  have hlen := length_resetIndex r mem
  rw [← hlen] at h
  obtain ⟨h₁, h₂, h₃, h₄, h₅, h₆, h₇, h₈, h₉, hn⟩ := words_apart h hroom
  have hroot := h.root_aligned
  have hstring := h.string_aligned
  have hrec := align8_le h₃ hroot
  have hart : align8 r.artStart = r.artStart := align8_eq (by omega)
  have hstr : align8 r.stringDataStart = r.stringDataStart := align8_eq (by omega)
  have hwords := finalize_words h hroom r.recordStart.toNat r.artStart r.stringDataStart
    (by rw [max_self]; omega) (by rw [max_self]; omega) (by rw [max_self]; omega)
  rwa [max_self, max_self, max_self, hart, hstr, hlen] at hwords

/-- A daemon that starts on an empty data directory meets the invariant. -/
theorem inv_boot {r : Regions} {mem : Bytes} (h : Layout.Valid r mem.length)
    (hroom : r.artStart ≤ r.stringStart.toNat) : Inv r (boot r mem) := by
  obtain ⟨h₁, h₂, h₃, h₄, h₅, h₆, h₇, h₈, h₉, hn⟩ := words_apart h hroom
  obtain ⟨hlen, hrec, hart, hstr⟩ := boot_words h hroom
  have hseeded := align8_le h₃ h.root_aligned
  have hboot : (boot r mem).arena = bootArena r mem := rfl
  refine ⟨?_, hroom, .inl ?_, .inl ?_, .inl ?_⟩ <;> rw [hboot]
  · rw [hlen]
    exact h
  · rw [hrec]
    exact ⟨hseeded.1, hseeded.2, by simp [boot]⟩
  · rw [hart]
    exact ⟨le_rfl, hroom, by simp [boot]⟩
  · rw [hstr, hlen]
    exact ⟨le_rfl, by omega, by simp [boot]⟩

/-- A record request that moves the bump word past the records and into the
index, granted or refused, leaves an arena whose snapshot is refused. -/
theorem not_publishable_of_overrun {r : Regions} {s : Heap} {size : ℕ} (h : Inv r s) (hsize : size ≠ 0)
    (hgap : r.recordStart.toNat = r.recordBumpOffset + 8)
    (hover : r.artRoot.toNat < readU32 s.arena r.recordBumpOffset + alignUp size)
    (hin : readU32 s.arena r.recordBumpOffset + alignUp size ≤ s.arena.length) :
    ¬ Publishable r (s.request r (.record size)) := by
  obtain ⟨h₁, h₂, h₃, h₄, h₅, h₆, h₇, h₈, h₉, hn⟩ := words_apart h.valid h.room
  have hmem : (s.request r (.record size)).arena = writeU32 s.arena r.recordBumpOffset
      (readU32 s.arena r.recordBumpOffset + alignUp size) := by
    rw [Heap.request, allocateRecordOffset_eq h hsize hgap]
    dsimp only
    rw [Nat.mod_eq_of_lt (by omega)]
  generalize readU32 s.arena r.recordBumpOffset + alignUp size = stop at hmem hover hin
  have hlen : (writeU32 s.arena r.recordBumpOffset stop).length = s.arena.length :=
    length_writeU32 (by omega) stop
  have hword : readU32 (writeU32 s.arena r.recordBumpOffset stop) r.recordBumpOffset = stop :=
    readU32_writeU32_self (by omega) (by omega)
  have hnode : BumpInv (writeU32 s.arena r.recordBumpOffset stop) r.artBumpOffset r.artStart
      r.stringStart.toNat s.nodes :=
    BumpInv.frame h.node (by rw [length_leEncode]; omega) (by rw [length_leEncode]; omega)
  have hstring : BumpInv (writeU32 s.arena r.recordBumpOffset stop) r.stringStart.toNat
      r.stringDataStart s.arena.length s.strings :=
    BumpInv.frame h.string (by rw [length_leEncode]; omega) (by rw [length_leEncode]; omega)
  rw [Publishable, hmem]
  generalize writeU32 s.arena r.recordBumpOffset stop = mem at *
  obtain ⟨has, hage, hale, -⟩ := bumpExtent_spec r.artRoot.toNat hnode (by omega)
    (by omega) h₆ (by omega)
  obtain ⟨hss, hsge, hsle, -⟩ := bumpExtent_spec r.stringStart.toNat hstring (by omega)
    (by omega) (by omega) (by omega)
  rw [← artExtent] at has hage hale
  rw [← stringExtent] at hss hsge hsle
  have hrec : recordExtent mem r = ⟨r.recordBumpOffset, stop - r.recordBumpOffset⟩ := by
    have hbump : readBump mem r.recordBumpOffset r.recordStart.toNat = stop := by
      rw [readBump, if_neg (by omega), hword, if_neg (by omega)]
    rw [recordExtent, bumpExtent, if_neg (by omega), hbump]
    exact if_neg (by omega)
  have hext := snapshotExtents_eq (show ringOffset ≤ mem.length by omega) r
  rw [hrec] at hext
  generalize artExtent mem r = art at *
  generalize stringExtent mem r = str at *
  have hlens : art.stop = art.start + art.len ∧ str.stop = str.start + str.len ∧
      (Extent.mk r.recordBumpOffset (stop - r.recordBumpOffset)).stop = stop ∧
      (Extent.mk 0 ringOffset).stop = ringOffset :=
    ⟨rfl, rfl, show r.recordBumpOffset + (stop - r.recordBumpOffset) = stop by omega, rfl⟩
  have hinside : ∀ e ∈ snapshotExtents mem r, e.stop ≤ mem.length := by
    rw [hext]
    simp only [List.mem_cons, List.not_mem_nil, or_false, forall_eq_or_imp, forall_eq]
    exact ⟨by omega, by omega, by omega, by omega⟩
  have hoverlap : ascending (snapshotExtents mem r) = false := by
    rw [hext]
    refine Bool.eq_false_iff.mpr fun hasc ↦ ?_
    simp only [ascending, decide_eq_true_eq] at hasc
    obtain ⟨-, -, -, hdisjoint, -⟩ := hasc
    exact hdisjoint ⟨by omega, by omega, by omega⟩
  obtain ⟨hstarts, hmin⟩ := @extents_described r ⟨r.recordBumpOffset, stop - r.recordBumpOffset⟩ art str
    h₂ rfl (by omega) has hage hss hsge
  rw [← hext] at hstarts hmin
  have hnone : (loadSnapshot (some (snapshotFile mem r)) r mem).1 = none := by
    refine loadSnapshot_eq_none (hlen ▸ h.valid) hinside rfl fun crc ↦ ?_
    rw [extentsFromFooter_footer crc hstarts hinside hmin (by omega), hoverlap]
    rfl
  intro hclaim
  obtain ⟨snap, restored, hload, -⟩ := hclaim mem rfl
  rw [hload] at hnone
  cases hnone

/-- Every snapshot of an arena whose requests, granted or refused, leave the
bump words inside their regions can be loaded, with all that was granted. -/
theorem publishable_of_contained (r : Regions) (mem : Bytes) (hvalid : Layout.Valid r mem.length)
    (hroom : r.artStart ≤ r.stringStart.toNat) (s : Heap)
    (h : Run (Step r) (Contained r) (boot r mem) s) : Publishable r s :=
  publishable_of_inv (h.invariant (Inv r) (fun _ _ _ hs hok hstep ↦ inv_step hs hok hstep)
    (inv_boot hvalid hroom))

/-- A table whose records begin right behind their bump word. -/
def tightRegions : Regions := ⟨65536, 16, 2632, 46520, 49152, 8192, 57344, 8192⟩

theorem tightRegions_valid {mem : Bytes} (h : mem.length = 65536) : Layout.Valid tightRegions mem.length := by
  rw [h]
  exact (valid_iff _ _).mp (by decide)

theorem tight_word {mem : Bytes} (h : mem.length = 65536) :
    readU32 (boot tightRegions mem).arena tightRegions.recordBumpOffset = 2632 :=
  (boot_words (tightRegions_valid h) (by decide)).2.1

/-- One record is granted, and the snapshot holds it. -/
theorem publishable_one_record : ∃ s, Run (Step tightRegions) (Contained tightRegions)
    (boot tightRegions (zeros 65536)) s ∧ s.records = [⟨2632, 64⟩] ∧ Publishable tightRegions s := by
  have hlen := length_zeros 65536
  generalize zeros 65536 = mem at hlen ⊢
  have hword := tight_word hlen
  have hfit : Contained tightRegions (boot tightRegions mem) (.record 64) := by
    refine .inr ⟨rfl, .inl ?_⟩
    rw [show recordBumpView tightRegions = tightRegions.recordBumpOffset from rfl, hword]
    decide
  have hrun : Run (Step tightRegions) (Contained tightRegions) (boot tightRegions mem) _ :=
    (Run.refl _).tail hfit ⟨rfl, by simp⟩
  refine ⟨_, hrun, ?_, publishable_of_contained tightRegions mem (tightRegions_valid hlen) (by decide) _
    hrun⟩
  rw [Heap.request, allocateRecordOffset_eq (inv_boot (tightRegions_valid hlen) (by decide))
    (by decide) rfl, hword]
  rfl

/-- A record request that was refused has moved the bump word into the index. -/
theorem refused_record_not_publishable : ∃ s, Run (Step tightRegions) (fun _ _ ↦ True)
    (boot tightRegions (zeros 65536)) s ∧ s.records = [] ∧ ¬ Publishable tightRegions s := by
  have hlen := length_zeros 65536
  generalize zeros 65536 = mem at hlen ⊢
  have hinv := inv_boot (tightRegions_valid hlen) (by decide)
  have hword := tight_word hlen
  have hrun : Run (Step tightRegions) (fun _ _ ↦ True) (boot tightRegions mem)
      ((boot tightRegions mem).request tightRegions (.record 46528)) :=
    (Run.refl _).tail trivial ⟨rfl, by simp⟩
  refine ⟨_, hrun, ?_, not_publishable_of_overrun hinv (by decide) rfl ?_ ?_⟩
  · rw [Heap.request, allocateRecordOffset_eq hinv (by decide) rfl, hword]
    rfl
  · rw [hword]
    decide
  · rw [hword, show (boot tightRegions mem).arena.length = 65536 from
      (boot_words (tightRegions_valid hlen) (by decide)).1.trans hlen]
    decide

end TakyonDb.Allocators
