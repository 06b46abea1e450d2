import TakyonDb.Sectors

namespace TakyonDb

open Lib Layout Wal Replay Framing

namespace Replay.Recovered

def countSectors (k : ℕ) (st : Recovered) : Recovered :=
  { st with tally := { st.tally with sectors := st.tally.sectors + k } }

theorem countSector_eq (st : Recovered) : st.countSector = st.countSectors 1 := rfl

@[simp] theorem arena_countSectors (k : ℕ) (st : Recovered) : (st.countSectors k).arena = st.arena :=
  rfl

@[simp] theorem recMax_countSectors (k : ℕ) (st : Recovered) :
    (st.countSectors k).recMax = st.recMax := rfl

@[simp] theorem countSectors_zero (st : Recovered) : st.countSectors 0 = st := rfl

theorem countSectors_countSectors (k m : ℕ) (st : Recovered) :
    (st.countSectors k).countSectors m = st.countSectors (k + m) := by
  simp only [countSectors, Nat.add_assoc]

end Replay.Recovered

namespace Entry

variable {regions : Regions}

theorem apply_countSectors (k : ℕ) (st : Recovered) (e : Entry) :
    e.apply regions (st.countSectors k) = (e.apply regions st).countSectors k := by
  obtain ⟨kind, offset, payload⟩ := e
  cases kind with
  | indexOp => rfl
  | arenaWrite =>
    simp only [apply, Recovered.writeArena]
    split_ifs <;> rfl

theorem foldl_apply_countSectors (k : ℕ) (st : Recovered) (es : List Entry) :
    es.foldl (apply regions) (st.countSectors k) =
      (es.foldl (apply regions) st).countSectors k := by
  induction es generalizing st with
  | nil => rfl
  | cons e es ih => rw [List.foldl_cons, apply_countSectors, ih, List.foldl_cons]

end Entry

namespace Framing

variable {regions : Regions} {n : ℕ}

/-- One sector of the log, read with `q` carried in. -/
theorem replaySectors_seal {q c : Bytes} (hc : c.length ≤ sectorPayload) (blocks : List Bytes)
    (sector : ℕ) (st : Recovered) :
    replaySectors regions (sealSector c :: blocks) q sector st =
      replaySectors regions blocks
        (scanSector regions (sector + 1)
          (q ++ c ++ List.replicate (sectorPayload - c.length) 0) (st.countSectors 1)).2 (sector + 1)
        (scanSector regions (sector + 1)
          (q ++ c ++ List.replicate (sectorPayload - c.length) 0) (st.countSectors 1)).1 := by
  obtain ⟨hcrc, htake⟩ := crcMatches_sealSector hc
  rw [replaySectors]
  simp only [hcrc, not_true, if_false, htake, List.append_assoc, Recovered.countSector_eq]

/-- The reader applies the framed records in order, and carries on with
the sectors that follow. -/
theorem Framed.replaySectors {q : Bytes} {cs : List Bytes} {es todo : List Entry} {r : Option Bytes}
    (h : Framed q cs es r todo) (hvalid : ∀ e ∈ es ++ todo, e.Valid n) {blocks : List Bytes}
    (hblocks : r = none → blocks = []) (sector : ℕ) {st : Recovered} (hst : st.arena.length = n) :
    Replay.replaySectors regions (cs.map sealSector ++ blocks) q sector st =
      Replay.replaySectors regions blocks (r.getD []) (sector + cs.length)
        ((es.foldl (Entry.apply regions) st).countSectors cs.length) := by
  induction h generalizing sector st with
  | nil hq => rfl
  | @full q c q' cs es es' todo r hc hbytes hcut _ ih =>
    have hes : ∀ e ∈ es, e.Valid n := fun e he ↦ hvalid e (by simp [he])
    have hes' : ∀ e ∈ es' ++ todo, e.Valid n := fun e he ↦ hvalid e (by simp_all)
    have hscan : scanSector regions (sector + 1)
        (q ++ c ++ List.replicate (sectorPayload - c.length) 0) (st.countSectors 1) =
        (es.foldl (Entry.apply regions) (st.countSectors 1), q') := by
      rw [hc, Nat.sub_self, List.replicate_zero, List.append_nil, hbytes,
        scanSector_flatMap hes (by exact hst), scanSector_cut_todo hes' hcut]
    rw [List.map_cons, List.cons_append, replaySectors_seal hc.le, hscan,
      ih hes' hblocks (sector + 1) (Entry.length_foldl_apply hes (by exact hst)), List.foldl_append,
        Entry.foldl_apply_countSectors,
      Entry.foldl_apply_countSectors, Recovered.countSectors_countSectors, List.length_cons]
    congr 1 <;> [skip; congr 1] <;> omega
  | @padded q c cs es es' todo r hc hbytes _ ih =>
    have hes : ∀ e ∈ es, e.Valid n := fun e he ↦ hvalid e (by simp [he])
    have hes' : ∀ e ∈ es' ++ todo, e.Valid n := fun e he ↦ hvalid e (by simp_all)
    have hscan : scanSector regions (sector + 1)
        (q ++ c ++ List.replicate (sectorPayload - c.length) 0) (st.countSectors 1) =
        (es.foldl (Entry.apply regions) (st.countSectors 1), []) := by
      rw [hbytes, scanSector_flatMap hes (by exact hst), scanSector_padding (Nat.le_sub_of_add_le' hc)]
    rw [List.map_cons, List.cons_append, replaySectors_seal (by omega), hscan,
      ih hes' hblocks (sector + 1) (Entry.length_foldl_apply hes (by exact hst)), List.foldl_append,
        Entry.foldl_apply_countSectors,
      Entry.foldl_apply_countSectors, Recovered.countSectors_countSectors, List.length_cons]
    congr 1 <;> [skip; congr 1] <;> omega
  | @last q c es todo hc hbytes =>
    obtain rfl := hblocks rfl
    have hes : ∀ e ∈ es, e.Valid n := fun e he ↦ hvalid e (by simp [he])
    rw [List.map_cons, List.map_nil, List.cons_append, List.nil_append, replaySectors_seal hc, hbytes,
      scanSector_flatMap hes (by exact hst), scanSector_padding_fst, Entry.foldl_apply_countSectors]
    rfl

/-- A sector that is padded by six or seven zeros hides the next one. -/
theorem replaySectors_short_padding {es : List Entry} {c : Bytes} (hes : ∀ e ∈ es, e.Valid n)
    (hlt : (es.flatMap Entry.encode).length + 6 ≤ sectorPayload)
    (hshort : sectorPayload < (es.flatMap Entry.encode).length + minPadding)
    (hc : c.length ≤ sectorPayload) (sector : ℕ) {st : Recovered} (hst : st.arena.length = n) :
    Replay.replaySectors regions [sealSector (es.flatMap Entry.encode), sealSector c] [] sector st =
      (es.foldl (Entry.apply regions) st).countSectors 2 := by
  generalize hk : sectorPayload - (es.flatMap Entry.encode).length = k
  simp only [minPadding, headerSize, sectorPayload] at hlt hshort hk hc
  rw [replaySectors_seal (by simp only [sectorPayload]; omega), hk, List.nil_append,
    scanSector_flatMap hes (by exact hst), scanSector_short (by rw [headerSize]; omega),
    replaySectors_seal hc, List.append_assoc,
    scanSector_shifted (by omega)
      (by simp only [headerSize, sectorPayload, List.length_append, List.length_replicate]; omega),
    Entry.foldl_apply_countSectors, Recovered.countSectors_countSectors]
  rfl

end Framing

end TakyonDb
