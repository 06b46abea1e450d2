import TakyonDb.Entries
import TakyonDb.Flusher

namespace TakyonDb.Replay

open Lib Layout Wal Wal.WalManager Framing

variable {n fuel : ℕ} {e : Entry} {es : List Entry}

/-- What the loop reads at the front of an encoded record that is not longer than the log allows. -/
theorem front_append (hpos : 0 < e.payload.length) (hle : e.payload.length ≤ maxEntryLen) (rest : Bytes) :
    front n (e.encode ++ rest) =
      if e.kind = .arenaWrite ∧ n < e.offset.toNat + e.payload.length then .refused [] else .record e := by
  have hlen : (e.encode ++ rest).length = headerSize + e.payload.length + rest.length := by
    rw [List.length_append, Entry.length_encode]
  have hheader : e.header.length.toNat = e.payload.length := by
    simp only [Entry.header, UInt16.toNat_ofNat', maxEntryLen] at hle ⊢
    omega
  have hslice : slice (e.encode ++ rest) headerSize e.payload.length = e.payload := by
    rw [slice, Entry.encode, List.append_assoc,
      List.drop_append_of_le_length (WalEntryHeader.length_toBytes _).ge,
      ← WalEntryHeader.length_toBytes e.header, List.drop_length, List.nil_append, List.take_left]
  have hsize : headerSize = 8 := rfl
  rw [front]
  simp only [ofBytes_encode, hheader, hslice, hlen]
  rw [if_neg (by omega), if_neg (by omega), if_neg (by omega), if_neg (by omega),
    if_neg (Entry.not_maxEntryKind_lt e), if_neg (by omega)]
  obtain ⟨kind, offset, payload⟩ := e
  cases kind with
  | indexOp => exact if_pos rfl
  | arenaWrite =>
    have hcode : ¬ EntryKind.arenaWrite.code = EntryKind.indexOp.code := by decide
    refine (if_neg hcode).trans ?_
    simp only [true_and]
    rfl

/-- The entry loop takes a whole record off the front. -/
theorem front_encode (he : e.Valid n) (rest : Bytes) : front n (e.encode ++ rest) = .record e := by
  rw [front_append he.pos he.le, if_neg]
  intro h
  exact not_lt.mpr (he.inside h.1) h.2

theorem readEntries_encode (he : e.Valid n) (rest : Bytes) :
    (readEntries n (fuel + 1) (e.encode ++ rest)).1 = e :: (readEntries n fuel rest).1 := by
  have hdrop : (e.encode ++ rest).drop (headerSize + e.payload.length) = rest := by
    rw [← Entry.length_encode, List.drop_left]
  rw [readEntries_record (front_encode he rest), hdrop]

theorem readEntries_padding (fuel k : ℕ) : (readEntries n fuel (List.replicate k 0)).1 = [] := by
  cases fuel with
  | zero => rfl
  | succ fuel =>
    rw [readEntries, List.length_replicate]
    by_cases hempty : k = 0
    · rw [if_pos hempty]
    rw [if_neg hempty]
    by_cases hshort : k < headerSize
    · rw [if_pos hshort]
    have hslice : slice (List.replicate k (0 : UInt8)) 4 2 = List.replicate 2 0 := by
      rw [slice, List.drop_replicate, List.take_replicate]
      congr 1
      rw [headerSize] at hshort
      omega
    have hlength : (WalEntryHeader.ofBytes (List.replicate k 0)).length.toNat = 0 := by
      simp only [WalEntryHeader.ofBytes, hslice, leDecode_replicate_zero]
      rfl
    rw [if_neg hshort]
    exact congrArg Prod.fst (if_pos hlength)

theorem readEntries_flatMap (hes : ∀ e ∈ es, e.Valid n) (hfuel : es.length ≤ fuel) (k : ℕ) :
    (readEntries n fuel (es.flatMap Entry.encode ++ List.replicate k 0)).1 = es := by
  induction es generalizing fuel with
  | nil => exact readEntries_padding fuel k
  | cons e es ih =>
    obtain ⟨fuel, rfl⟩ : ∃ m, fuel = m + 1 := ⟨fuel - 1, by rw [List.length_cons] at hfuel; omega⟩
    have hrest := ih (fun e' he' ↦ hes e' (List.mem_cons_of_mem e he')) (Nat.le_of_succ_le_succ hfuel)
    rw [List.flatMap_cons, List.append_assoc, readEntries_encode (hes e List.mem_cons_self), hrest]

/-- A log of one sector. -/
def sectorFile (es : List Entry) : LogFiles UInt8 := ⟨sealSector (es.flatMap Entry.encode), fun _ ↦ none⟩

theorem length_le_flatMap_encode (es : List Entry) : es.length ≤ (es.flatMap Entry.encode).length := by
  induction es with
  | nil => exact le_rfl
  | cons e es ih =>
    have hsize : headerSize = 8 := rfl
    rw [List.flatMap_cons, List.length_append, Entry.length_encode, List.length_cons]
    omega

/-- A sector with valid records is read as these records. -/
theorem fileEntries_sectorFile (hes : ∀ e ∈ es, e.Valid n) (hroom : (es.flatMap Entry.encode).length ≤ sectorPayload) :
    fileEntries n (sectorFile es) = es := by
  obtain ⟨hcrc, htake⟩ := crcMatches_sealSector hroom
  have hblocks : blocksOf sectorSize (sealSector (es.flatMap Entry.encode)) =
      [sealSector (es.flatMap Entry.encode)] := by
    have hone := blocksOf_flatMap_seal [es.flatMap Entry.encode] (by simpa using hroom)
    simpa using hone
  have hfile : fileEntries n (sectorFile es) =
      sectorEntries n (blocksOf sectorSize (sealSector (es.flatMap Entry.encode))) [] :=
    rfl
  rw [hfile, hblocks, sectorEntries, if_neg (not_not.mpr hcrc)]
  simp only [htake, List.nil_append, sectorEntries, List.append_nil]
  refine readEntries_flatMap hes ?_ _
  rw [List.length_append]
  exact (length_le_flatMap_encode es).trans (Nat.le_add_right _ _)

end TakyonDb.Replay
