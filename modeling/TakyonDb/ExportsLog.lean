import TakyonDb.Lib.Slices
import TakyonDb.StringAlloc

namespace TakyonDb

open Lib Layout Wal Replay WalManager Art Set

namespace Exports

inductive WriteCall
  | writeDelta (offset : UInt32) (data : Bytes)
  | notifyArena (offset size : UInt32)
  | insertIndex (key : Bytes) (valueOffset : UInt32)
deriving DecidableEq

namespace WriteCall

def run (fuel drained : ℕ) : WriteCall → Engine → Option (ℤ × Engine)
  | .writeDelta offset data, e => some (takyonWriteDelta offset data drained e)
  | .notifyArena offset size, e => some (takyonNotifyArena offset size drained e)
  | .insertIndex key valueOffset, e => takyonInsertIndex fuel key valueOffset drained e

/-- The record that the call asks for, when the flusher reads `arenaMem`. -/
def record (arenaMem : Bytes) : WriteCall → Entry
  | .writeDelta offset data => ⟨.arenaWrite, offset, data⟩
  | .notifyArena offset size => ⟨.arenaWrite, offset, slice arenaMem offset.toNat size.toNat⟩
  | .insertIndex key valueOffset => ⟨.indexOp, valueOffset, key⟩

end WriteCall

variable {key : Bytes} {valueOffset : UInt32} {drained : ℕ} {e e' : Engine} {d : DeltaMessage}

theorem push_eq_some (h : e.push d = some e') : e' = { e with queue := e.queue ++ [d] } := by
  simp only [Engine.push] at h
  split_ifs at h
  exact (Option.some.inj h).symm

/-- A push that succeeds puts the delta last, and touches nothing else. -/
theorem pushWithBackPressure_ok (h : e.pushWithBackPressure d drained = (rcOk, e')) :
    (∃ rest, e'.queue = rest ++ [d]) ∧ e'.art = e.art ∧ e'.index = e.index := by
  rw [Engine.pushWithBackPressure] at h
  cases hfirst : e.push d with
  | some e₁ =>
    rw [hfirst] at h
    obtain ⟨-, rfl⟩ := Prod.mk.inj h
    rw [push_eq_some hfirst]
    exact ⟨⟨e.queue, rfl⟩, rfl, rfl⟩
  | none =>
    rw [hfirst] at h
    dsimp only at h
    cases hsecond : Engine.push d { e with queue := e.queue.drop drained } with
    | some e₁ =>
      rw [hsecond] at h
      obtain ⟨-, rfl⟩ := Prod.mk.inj h
      rw [push_eq_some hsecond]
      exact ⟨⟨e.queue.drop drained, rfl⟩, rfl, rfl⟩
    | none =>
      rw [hsecond] at h
      cases (Prod.mk.inj h).1

theorem toNat_ofNat_of_lt {n : ℕ} (h : n < 2 ^ 32) : (UInt32.ofNat n).toNat = n := by
  rw [UInt32.toNat_ofNat', Nat.mod_eq_of_lt h]

/-- A granted index insert has pushed a delta that names the key. -/
theorem takyonInsertIndex_ok (hconn : e.Connected) (hdaemon : e.daemonAttached = true)
    (h : Answers (fun fuel ↦ takyonInsertIndex fuel key valueOffset drained e) (rcOk, e')) :
    ∃ r off arena s rest, e.regions = some r ∧ allocString r key e.arena = (some off, arena) ∧
      Returns (Art.insert (regionIndex r) key valueOffset) ⟨arena, e.free⟩ (.ok () s) ∧ e'.art = s ∧
      e'.queue = rest ++ [indexDelta off key valueOffset] ∧ 0 < key.length ∧ key.length ≤ maxKeyLen := by
  obtain ⟨r, hr, -, hindex⟩ := hconn
  obtain ⟨off, e₁, e₂, halloc, hpush, hinsert⟩ := takyonInsertIndex_steps hdaemon h
  obtain ⟨hpos, hle, arena, hstring, rfl⟩ := insertIndexAlloc_ok hr halloc
  obtain ⟨⟨rest, hqueue⟩, hart, hkept⟩ := pushWithBackPressure_ok hpush
  obtain ⟨s, hrun, rfl⟩ := insertIntoIndex_ok hinsert
  rw [hart, hkept, hindex] at hrun
  exact ⟨r, off, arena, s, rest, hr, hstring, hrun, rfl, hqueue, hpos, hle⟩

theorem entry_indexDelta {off : ℕ} {key arenaMem : Bytes} (valueOffset : UInt32)
    (hslice : slice arenaMem (indexDelta off key valueOffset).offset.toNat
      (indexDelta off key valueOffset).size.toNat = key) :
    (indexDelta off key valueOffset).entry arenaMem = some ⟨.indexOp, valueOffset, key⟩ := by
  have hvalue : slice (inlineData (leEncode 4 valueOffset.toNat)) 0 4 = leEncode 4 valueOffset.toNat := by
    have htake : (leEncode 4 valueOffset.toNat).length ≤ 48 := by
      rw [length_leEncode]
      omega
    have hfront := take_inlineData htake
    rw [length_leEncode] at hfront
    rw [slice, List.drop_zero, hfront]
  have hdecode : leDecode (leEncode 4 valueOffset.toNat) = valueOffset.toNat :=
    leDecode_leEncode_of_lt valueOffset.toNat_lt
  have hentry : (indexDelta off key valueOffset).entry arenaMem =
      some ⟨.indexOp, UInt32.ofNat (leDecode (slice (inlineData (leEncode 4 valueOffset.toNat)) 0 4)),
        slice arenaMem (indexDelta off key valueOffset).offset.toNat
          (indexDelta off key valueOffset).size.toNat⟩ := rfl
  rw [hentry, hslice, hvalue, hdecode, UInt32.ofNat_toNat]

theorem pushWithBackPressure_of_room (h : e.queue.length < e.capacity) (drained : ℕ) :
    e.pushWithBackPressure d drained = (rcOk, { e with queue := e.queue ++ [d] }) := by
  have hpush : e.push d = some { e with queue := e.queue ++ [d] } := if_neg (Nat.not_le.mpr h)
  rw [Engine.pushWithBackPressure, hpush]

theorem strings_openIndex {r : Regions} {s : ArtState} (hr : Layout.Valid r s.mem.length)
    (hbytes : 8 ≤ r.artBytes.toNat)
    (hunset : readU32 s.mem r.stringStart.toNat = 0) : stringBump r (openIndex r s).mem = r.stringDataStart := by
  obtain ⟨hstring, hend⟩ := artEnd_le hr
  have hword : r.artBumpOffset = r.artRoot.toNat + 4 := rfl
  have hregion : r.artEnd = r.artRoot.toNat + r.artBytes.toNat := rfl
  have hch := changesOnly_openIndex (r := r) (s := s) (by omega)
  refine stringBump_of_unset (hch.length_eq.symm ▸ hr) ?_
  rw [hch.readU32 (disjoint_Ico (.inr (by omega))), hunset]

theorem smallArt_strings : stringBump smallRegions smallArt.mem = smallRegions.stringDataStart := by
  have hlen : blankArena.length = 65536 := length_zeros _
  unfold smallArt
  refine strings_openIndex ?_ (by decide) (readU32_zeros (by decide))
  dsimp only
  rw [hlen]
  exact smallRegions_valid

end Exports

end TakyonDb
