import TakyonDb.Wal

namespace TakyonDb.Wal

open Lib

/-- No system call fails and the manager has not been shut down. -/
def WalManager.Healthy (w : WalManager) : Prop := w.phase ≠ .closed ∧ w.io = {}

/-- Every byte written to the log, in the order it was written. -/
def WalManager.stream (w : WalManager) : Bytes := w.files.stream w.nextSegment

/-- The state after a successful flush of a non-empty buffer. -/
def WalManager.emit (w : WalManager) : WalManager :=
  let bytesWritten := w.bytesWritten + sectorSize
  let files := w.files.append (sealSector w.sector)
  let w := { w with
    files, bytesWritten, sector := []
    flushed := w.flushed ++ [w.sector], ring := w.ring.map RingCounters.publishDurable }
  if segmentMax ≤ bytesWritten ∧ w.nextSegment < maxSegments then
    { w with files := files.rotate w.nextSegment, nextSegment := w.nextSegment + 1, bytesWritten := 0 }
  else w

/-- The used bytes of the sectors of a log, file by file: the numbered
segments, oldest first, and the live file. -/
structure SectorFiles where
  segments : List (List Bytes)
  live : List Bytes
  bounded : segments.length ≤ maxSegments

namespace SectorFiles

def files (l : SectorFiles) : LogFiles UInt8 where
  live := l.live.flatMap sealSector
  segments i := l.segments[i]?.map (·.flatMap sealSector)

def sectors (l : SectorFiles) : List Bytes := l.segments.flatten ++ l.live

theorem files_append (l : SectorFiles) (c : Bytes) :
    l.files.append (sealSector c) = files { l with live := l.live ++ [c] } := by
  simp [files, LogFiles.append]

def rotate (l : SectorFiles) (h : l.segments.length < maxSegments) : SectorFiles where
  segments := l.segments ++ [l.live]
  live := []
  bounded := by rw [List.length_append, List.length_singleton]; exact h

theorem files_rotate (l : SectorFiles) (h : l.segments.length < maxSegments) :
    l.files.rotate l.segments.length = (l.rotate h).files := by
  have hsegs : (l.files.rotate l.segments.length).segments = (l.rotate h).files.segments := by
    funext i
    simp only [files, rotate, LogFiles.rotate, Function.update_apply]
    split_ifs with hi
    · rw [hi, List.getElem?_concat_length]
      rfl
    · rcases Nat.lt_or_gt_of_ne hi with hlt | hgt
      · rw [List.getElem?_append_left hlt]
      · rw [List.getElem?_eq_none (by omega), List.getElem?_eq_none (by simp; omega)]
  exact congrArg (LogFiles.mk []) hsegs

end SectorFiles

abbrev sectorsPerSegment : ℕ := segmentMax / sectorSize

/-- A manager whose life started on an empty log. -/
structure WalManager.SegmentedAs (w : WalManager) (l : SectorFiles) : Prop where
  files : w.files = l.files
  flushed : w.flushed = l.sectors
  next : w.nextSegment = l.segments.length
  bytes : w.bytesWritten = l.live.length * sectorSize
  full : ∀ seg ∈ l.segments, seg.length = sectorsPerSegment
  room : l.segments.length < maxSegments → l.live.length < sectorsPerSegment

def WalManager.Segmented (w : WalManager) : Prop := ∃ l, w.SegmentedAs l

namespace WalManager

variable {w w' : WalManager}

theorem writeSector_healthy (h : w.Healthy) (bytes : Bytes) :
    writeSector bytes w = .ok { w with files := w.files.append bytes } := by
  simp [writeSector, sysWrite, h.2]

theorem rotateSegment_healthy (h : w.Healthy) :
    rotateSegment w = .ok (if w.nextSegment < maxSegments then
      { w with
        files := w.files.rotate w.nextSegment, nextSegment := w.nextSegment + 1
        bytesWritten := 0, sector := [] } else w) := by
  obtain ⟨files, sector, direct, bytesWritten, nextSegment, ring, phase, io, flushed⟩ := w
  obtain ⟨-, rfl⟩ := h
  by_cases hn : nextSegment < maxSegments
  · simp [rotateSegment, sysRename, sysOpen, hn]
  · simp [rotateSegment, hn, Nat.not_lt.mp hn]

theorem flushBufferWith_healthy (h : w.Healthy) (force : Bool) :
    flushBufferWith force w = .ok (if w.sector = [] ∨
      force = false ∧ sectorPayload - w.sector.length < minPadding then w else w.emit) := by
  by_cases hs : w.sector = []
  · simp [flushBufferWith, hs]
  have hlen : w.sector.length ≠ 0 := by simpa using hs
  by_cases hslack : force = false ∧ sectorPayload - w.sector.length < minPadding
  · simp [flushBufferWith, h.1, hlen, hslack]
  · rw [flushBufferWith, if_neg h.1, if_neg hlen, if_neg hslack, writeSector_healthy h,
      if_neg (by simp [hs, hslack]), Outcome.ok_andThen]
    simp only [emit]
    by_cases hmax : segmentMax ≤ w.bytesWritten + sectorSize
    · rw [if_pos hmax]
      apply (rotateSegment_healthy ?_).trans
      · simp only [hmax, true_and]
      · exact h
    · simp only [hmax, false_and, if_false]

theorem emit_healthy (h : w.Healthy) : w.emit.Healthy := by
  unfold emit
  dsimp only
  split <;> exact h

@[simp] theorem sector_emit (w : WalManager) : w.emit.sector = [] := by
  unfold emit
  dsimp only
  split <;> rfl

@[simp] theorem flushed_emit (w : WalManager) : w.emit.flushed = w.flushed ++ [w.sector] := by
  unfold emit
  dsimp only
  split <;> rfl

@[simp] theorem ring_emit (w : WalManager) :
    w.emit.ring = w.ring.map RingCounters.publishDurable := by
  unfold emit
  dsimp only
  split <;> rfl

@[simp] theorem phase_emit (w : WalManager) : w.emit.phase = w.phase := by
  unfold emit
  dsimp only
  split <;> rfl

theorem stream_emit (w : WalManager) : w.emit.stream = w.stream ++ sealSector w.sector := by
  unfold emit stream
  dsimp only
  split
  · rw [LogFiles.stream_rotate, LogFiles.stream_append]
  · exact LogFiles.stream_append _ _ _

theorem Segmented.emit (h : w.Segmented) : w.emit.Segmented := by
  obtain ⟨l, h⟩ := h
  have hfiles : w.files.append (sealSector w.sector) =
      SectorFiles.files { l with live := l.live ++ [w.sector] } := by
    rw [h.files, SectorFiles.files_append]
  have hbytes := h.bytes
  have hroom := h.room
  have hnext := h.next
  simp only [sectorsPerSegment, segmentMax, sectorSize] at hbytes hroom
  unfold WalManager.emit
  dsimp only
  split_ifs with hrotate
  · have hlen : (l.live ++ [w.sector]).length = sectorsPerSegment := by
      simp only [List.length_append, List.length_singleton, sectorsPerSegment, segmentMax,
        sectorSize] at hrotate ⊢
      omega
    have hlt : l.segments.length < maxSegments := by omega
    refine ⟨SectorFiles.rotate { l with live := l.live ++ [w.sector] } hlt, ?_, ?_, ?_, ?_, ?_, ?_⟩
    · rw [hfiles, hnext]
      exact SectorFiles.files_rotate { l with live := l.live ++ [w.sector] } hlt
    · simp [h.flushed, SectorFiles.sectors, SectorFiles.rotate]
    · simp [hnext, SectorFiles.rotate]
    · simp [SectorFiles.rotate]
    · intro seg hseg
      rcases List.mem_append.mp hseg with hseg | hseg
      · exact h.full seg hseg
      · rw [List.mem_singleton.mp hseg, hlen]
    · simp [SectorFiles.rotate, sectorsPerSegment, segmentMax, sectorSize]
  · refine ⟨{ l with live := l.live ++ [w.sector] }, hfiles, ?_, hnext, ?_, h.full, ?_⟩
    · simp [h.flushed, SectorFiles.sectors]
    · simp only [List.length_append, List.length_singleton, sectorSize]
      omega
    · intro hmax
      simp only [List.length_append, List.length_singleton, sectorsPerSegment, segmentMax, sectorSize,
        not_and] at hrotate hmax ⊢
      omega

/-- `bytes` went into the log: whole sectors were written while the buffer
filled up, and the rest is in the buffer. -/
structure Appended (w w' : WalManager) (bytes : Bytes) : Prop where
  blocks : ∃ full : List Bytes, (∀ c ∈ full, c.length = sectorPayload) ∧
    w'.flushed = w.flushed ++ full ∧ full.flatten ++ w'.sector = w.sector ++ bytes ∧
    w'.stream = w.stream ++ full.flatMap sealSector
  room : w'.sector.length < sectorPayload
  healthy : w'.Healthy
  phase : w'.phase = w.phase
  segmented : w.Segmented → w'.Segmented

theorem Appended.refl (h : w.Healthy) (hroom : w.sector.length < sectorPayload) :
    Appended w w [] :=
  ⟨⟨[], by simp⟩, hroom, h, rfl, id⟩

theorem Appended.trans {w'' : WalManager} {bs bs' : Bytes} (h : Appended w w' bs)
    (h' : Appended w' w'' bs') : Appended w w'' (bs ++ bs') := by
  obtain ⟨full, hfull, hflushed, hbytes, hstream⟩ := h.blocks
  obtain ⟨full', hfull', hflushed', hbytes', hstream'⟩ := h'.blocks
  refine ⟨⟨full ++ full', ?_, ?_, ?_, ?_⟩, h'.room, h'.healthy, h'.phase.trans h.phase,
    h'.segmented ∘ h.segmented⟩
  · intro c hc
    exact (List.mem_append.mp hc).elim (hfull c) (hfull' c)
  · rw [hflushed', hflushed, List.append_assoc]
  · rw [List.flatten_append, List.append_assoc, hbytes', ← List.append_assoc, hbytes,
      List.append_assoc]
  · rw [hstream', hstream, List.flatMap_append, List.append_assoc]

/-- Bytes that do not fill the buffer stay in it. -/
theorem Appended.of_room {bs : Bytes} (h : Appended w w' bs)
    (hroom : w.sector.length + bs.length < sectorPayload) :
    w'.flushed = w.flushed ∧ w'.sector = w.sector ++ bs ∧ w'.stream = w.stream := by
  obtain ⟨full, hfull, hflushed, hbytes, hstream⟩ := h.blocks
  cases full with
  | nil => exact ⟨by simpa using hflushed, by simpa using hbytes, by simpa using hstream⟩
  | cons c cs =>
    have hc := hfull c List.mem_cons_self
    have := congrArg List.length hbytes
    simp only [List.flatten_cons, List.length_append] at this
    omega

theorem Segmented.with_sector (h : w.Segmented) (sector : Bytes) :
    Segmented { w with sector := sector } := by
  obtain ⟨l, h⟩ := h
  exact ⟨l, h.files, h.flushed, h.next, h.bytes, h.full, h.room⟩

/-- A copy that leaves the buffer short of full. -/
theorem appended_buffer (h : w.Healthy) {bs : Bytes}
    (hroom : w.sector.length + bs.length < sectorPayload) :
    Appended w { w with sector := w.sector ++ bs } bs :=
  ⟨⟨[], by simp, by simp, by simp, by simp [stream]⟩, by rwa [List.length_append], h, rfl,
    fun hseg ↦ hseg.with_sector _⟩

/-- A copy that fills the buffer, and the flush behind it. -/
theorem appended_full (h : w.Healthy) {bs : Bytes}
    (hfull : (w.sector ++ bs).length = sectorPayload) :
    Appended w (emit { w with sector := w.sector ++ bs }) bs := by
  have hmid : Healthy { w with sector := w.sector ++ bs } := h
  refine ⟨⟨[w.sector ++ bs], by simpa using hfull, by simp, by simp, ?_⟩, by simp [sectorPayload],
    emit_healthy hmid, phase_emit _, fun hseg ↦ (hseg.with_sector _).emit⟩
  rw [stream_emit]
  simp [stream]

/-- A pass either leaves all bytes in the buffer or fills it and flushes. -/
theorem writeChunk_healthy (h : w.Healthy) (hroom : w.sector.length < sectorPayload) (bytes : Bytes) :
    writeChunk bytes w = if w.sector.length + bytes.length < sectorPayload then
      (.ok { w with sector := w.sector ++ bytes }, [])
    else
      (.ok (emit { w with sector := w.sector ++ bytes.take (sectorPayload - w.sector.length) }),
        bytes.drop (sectorPayload - w.sector.length)) := by
  rw [writeChunk]
  by_cases hfits : w.sector.length + bytes.length < sectorPayload
  · have hmin : min (sectorPayload - w.sector.length) bytes.length = bytes.length := by omega
    have hnot : ¬ (w.sector ++ bytes).length = sectorPayload := by
      rw [List.length_append]
      omega
    simp only [hfits, hmin, List.take_length, List.drop_length, hnot, if_true, if_false]
  · have hmin : min (sectorPayload - w.sector.length) bytes.length =
        sectorPayload - w.sector.length := by omega
    have hfull : (w.sector ++ bytes.take (sectorPayload - w.sector.length)).length =
        sectorPayload := by
      rw [List.length_append, List.length_take]
      omega
    have hne : w.sector ++ bytes.take (sectorPayload - w.sector.length) ≠ [] := by
      intro hnil
      rw [hnil] at hfull
      simp [sectorPayload] at hfull
    have hmid : Healthy { w with
        sector := w.sector ++ bytes.take (sectorPayload - w.sector.length) } := h
    simp only [hfits, hmin, hfull, if_true, if_false]
    rw [flushBuffer, flushBufferWith_healthy hmid, if_neg (by simpa using hne)]

theorem writeLoop_healthy {fuel : ℕ} {bytes : Bytes} (h : w.Healthy)
    (hroom : w.sector.length < sectorPayload) (hfuel : bytes.length ≤ fuel) :
    ∃ w', writeLoop fuel bytes w = .ok w' ∧ Appended w w' bytes := by
  induction fuel generalizing w bytes with
  | zero =>
    obtain rfl : bytes = [] := List.length_eq_zero_iff.mp (by omega)
    exact ⟨w, rfl, .refl h hroom⟩
  | succ fuel ih =>
    cases bytes with
    | nil => exact ⟨w, rfl, .refl h hroom⟩
    | cons b bs =>
      rw [writeLoop, writeChunk_healthy h hroom]
      split_ifs with hfits
      · have hdone : writeLoop fuel [] { w with sector := w.sector ++ b :: bs } =
            .ok { w with sector := w.sector ++ b :: bs } := by
          cases fuel <;> rfl
        exact ⟨_, hdone, appended_buffer h hfits⟩
      · generalize hn : sectorPayload - w.sector.length = n
        have hlen : ((b :: bs).take n).length = n := by
          rw [List.length_take]
          omega
        have hfull : (w.sector ++ (b :: bs).take n).length = sectorPayload := by
          rw [List.length_append, hlen]
          omega
        have happ := appended_full h hfull
        obtain ⟨w', hw', happ'⟩ := ih happ.healthy happ.room
          (show ((b :: bs).drop n).length ≤ fuel by rw [List.length_drop]; omega)
        refine ⟨w', hw', ?_⟩
        simpa only [List.take_append_drop] using happ.trans happ'

theorem writeToBuffer_healthy (h : w.Healthy) (hroom : w.sector.length < sectorPayload)
    (bytes : Bytes) : ∃ w', writeToBuffer bytes w = .ok w' ∧ Appended w w' bytes :=
  writeLoop_healthy h hroom (by omega)

end WalManager

end TakyonDb.Wal
