import TakyonDb.Delta
import TakyonDb.Lib.Crc32
import TakyonDb.Lib.Outcome
import TakyonDb.LogFiles

namespace TakyonDb.Wal

open Lib

abbrev sectorPayload : ℕ := 4092
abbrev sectorSize : ℕ := 4096
abbrev headerSize : ℕ := 8
abbrev minPadding : ℕ := headerSize
abbrev maxEntryLen : ℕ := 8192
abbrev segmentMax : ℕ := 64 * 1024 * 1024
abbrev maxEntryKind : UInt8 := 1

inductive EntryKind
  | arenaWrite
  | indexOp
deriving DecidableEq

def EntryKind.code : EntryKind → UInt8
  | .arenaWrite => 0
  | .indexOp => 1

/-- The eight header bytes of a record. The kind is the raw byte, since a
log can hold kinds that this build does not know. -/
structure WalEntryHeader where
  offset : UInt32
  length : UInt16
  kind : UInt8
  pad : UInt8 := 0
deriving DecidableEq

namespace WalEntryHeader

def toBytes (h : WalEntryHeader) : Bytes :=
  leEncode 4 h.offset.toNat ++ leEncode 2 h.length.toNat ++ [h.kind, h.pad]

def ofBytes (b : Bytes) : WalEntryHeader where
  offset := UInt32.ofNat (leDecode (slice b 0 4))
  length := UInt16.ofNat (leDecode (slice b 4 2))
  kind := b.getD 6 0
  pad := b.getD 7 0

@[simp] theorem length_toBytes (h : WalEntryHeader) : h.toBytes.length = headerSize := by
  simp [toBytes]

theorem ofBytes_append (h : WalEntryHeader) (rest : Bytes) : ofBytes (h.toBytes ++ rest) = h := by
  obtain ⟨offset, length, kind, pad⟩ := h
  have ho : slice (toBytes ⟨offset, length, kind, pad⟩ ++ rest) 0 4 = leEncode 4 offset.toNat := rfl
  have hl : slice (toBytes ⟨offset, length, kind, pad⟩ ++ rest) 4 2 = leEncode 2 length.toNat := rfl
  have hoffset : leDecode (leEncode 4 offset.toNat) = offset.toNat :=
    leDecode_leEncode_of_lt (by have := offset.toNat_lt; omega)
  have hlength : leDecode (leEncode 2 length.toNat) = length.toNat :=
    leDecode_leEncode_of_lt (by have := length.toNat_lt; omega)
  simp only [ofBytes, ho, hl, hoffset, hlength, UInt32.ofNat_toNat, UInt16.ofNat_toNat]
  rfl

end WalEntryHeader

/-- One sector on disk: the used bytes, zeros up to the payload size, and
the checksum of both. -/
def sealSector (used : Bytes) : Bytes :=
  let payload := used ++ List.replicate (sectorPayload - used.length) 0
  payload ++ leEncode 4 (Crc32.hash payload).toNat

theorem length_sealSector {used : Bytes} (h : used.length ≤ sectorPayload) :
    (sealSector used).length = sectorSize := by
  simp only [sealSector, List.length_append, List.length_replicate, length_leEncode, sectorPayload,
    sectorSize] at h ⊢
  omega

inductive WalError
  | corruptDelta | writeFailed | rotateFailed | openFailed | outOfFuel
deriving DecidableEq

/-- What one `write` call on the log file does. -/
inductive SysWrite
  | written | invalid | failed
  | short (n : ℕ)
deriving DecidableEq

/-- The outcomes of the system calls still to come; those past the end of
a list succeed. -/
structure Io where
  writes : List SysWrite := []
  opens : List Bool := []
  renames : List Bool := []
  fdOpen : Bool := true
deriving DecidableEq

inductive Phase
  | opened | closing | closed
deriving DecidableEq

/-- The two ring positions the flusher relates: what it has popped, and
what it has declared durable. -/
structure RingCounters where
  head : ℕ
  durableTail : ℕ
deriving DecidableEq

def RingCounters.publishDurable (r : RingCounters) : RingCounters :=
  { r with durableTail := max r.durableTail r.head }

/-- `sector` is the filled part of the sector buffer. `flushed` is a
history variable: the used bytes of every sector this manager wrote. -/
structure WalManager where
  files : LogFiles UInt8
  sector : Bytes := []
  direct : Bool := true
  bytesWritten : ℕ
  nextSegment : ℕ
  ring : Option RingCounters := none
  phase : Phase := .opened
  io : Io := {}
  flushed : List Bytes := []

namespace WalManager

def init (files : LogFiles UInt8) : WalManager :=
  { files, bytesWritten := files.live.length, nextSegment := files.firstFreeSegment }

def sysWrite (bytes : Bytes) (w : WalManager) : SysWrite × WalManager :=
  if ¬ w.io.fdOpen then (.failed, w)
  else match w.io.writes with
    | [] => (.written, { w with files := w.files.append bytes })
    | outcome :: rest =>
      let w := { w with io := { w.io with writes := rest } }
      match outcome with
      | .written => (.written, { w with files := w.files.append bytes })
      | .short n => (.short n, { w with files := w.files.append (bytes.take n) })
      | .invalid => (.invalid, w)
      | .failed => (.failed, w)

def sysOpen (w : WalManager) : Bool × WalManager :=
  match w.io.opens with
  | [] => (true, { w with io := { w.io with fdOpen := true } })
  | ok :: rest => (ok, { w with io := { w.io with opens := rest, fdOpen := ok } })

def sysRename (w : WalManager) : Bool × WalManager :=
  match w.io.renames with
  | [] => (true, w)
  | ok :: rest => (ok, { w with io := { w.io with renames := rest } })

def downgradeDirect (w : WalManager) : WalManager :=
  match sysOpen { w with io := { w.io with fdOpen := false } } with
  | (true, w) => { w with direct := false }
  | (false, w) => w

def writeSector (bytes : Bytes) (w : WalManager) : Outcome WalError WalManager :=
  match sysWrite bytes w with
  | (.written, w) => .ok w
  | (.invalid, w) =>
    if w.direct then
      match sysWrite bytes (downgradeDirect w) with
      | (.written, w) => .ok w
      | (_, w) => .fail .writeFailed w
    else .fail .writeFailed w
  | (_, w) => .fail .writeFailed w

def rotateSegment (w : WalManager) : Outcome WalError WalManager :=
  if maxSegments ≤ w.nextSegment then .ok w
  else
    match sysRename { w with io := { w.io with fdOpen := false } } with
    | (false, w) => .fail .rotateFailed w
    | (true, w) =>
      match sysOpen { w with files := w.files.rotate w.nextSegment } with
      | (false, w) => .fail .openFailed w
      | (true, w) => .ok { w with nextSegment := w.nextSegment + 1, bytesWritten := 0, sector := [] }

def flushBufferWith (force : Bool) (w : WalManager) : Outcome WalError WalManager :=
  if w.phase = .closed then .ok w
  else if w.sector.length = 0 then .ok w
  else if force = false ∧ sectorPayload - w.sector.length < minPadding then .ok w
  else
    (writeSector (sealSector w.sector) w).andThen fun w ↦
      let w := { w with
        flushed := w.flushed ++ [w.sector], sector := []
        bytesWritten := w.bytesWritten + sectorSize
        ring := w.ring.map RingCounters.publishDurable }
      if segmentMax ≤ w.bytesWritten then rotateSegment w else .ok w

def flushBuffer (w : WalManager) : Outcome WalError WalManager := flushBufferWith true w

def flushIfUnambiguous (w : WalManager) : Outcome WalError WalManager := flushBufferWith false w

/-- One pass of the copy loop, and the bytes it leaves to copy. -/
def writeChunk (bytes : Bytes) (w : WalManager) : Outcome WalError WalManager × Bytes :=
  let toCopy := min (sectorPayload - w.sector.length) bytes.length
  let w := { w with sector := w.sector ++ bytes.take toCopy }
  (if w.sector.length = sectorPayload then flushBuffer w else .ok w, bytes.drop toCopy)

/-- The copy loop. A pass over a full buffer copies nothing and flushes, so
two passes for each byte are enough. -/
def writeLoop : ℕ → Bytes → WalManager → Outcome WalError WalManager
  | _, [], w => .ok w
  | 0, _ :: _, w => .fail .outOfFuel w
  | fuel + 1, b :: bs, w =>
    let (outcome, rest) := writeChunk (b :: bs) w
    outcome.andThen (writeLoop fuel rest)

def writeToBuffer (bytes : Bytes) (w : WalManager) : Outcome WalError WalManager :=
  writeLoop (2 * bytes.length) bytes w

def processDelta (delta : DeltaMessage) (arenaMem : Bytes) (w : WalManager) :
    Outcome WalError WalManager :=
  let offset := delta.offset.toNat
  let size := delta.size.toNat
  if delta.isArena = deltaArena then
    if maxEntryLen < size then .fail .corruptDelta w
    else if arenaMem.length < offset + size then .fail .corruptDelta w
    else
      let header : WalEntryHeader :=
        { offset := delta.offset, length := delta.size.toUInt16, kind := EntryKind.arenaWrite.code }
      (writeToBuffer header.toBytes w).andThen (writeToBuffer (slice arenaMem offset size))
  else if delta.isArena = deltaInline then
    if 48 < size then .fail .corruptDelta w
    else
      let header : WalEntryHeader :=
        { offset := delta.offset, length := delta.size.toUInt16, kind := EntryKind.arenaWrite.code }
      (writeToBuffer header.toBytes w).andThen (writeToBuffer (delta.data.take size))
  else if delta.isArena = deltaIndexOp then
    if size = 0 ∨ maxKeyLen < size then .fail .corruptDelta w
    else if arenaMem.length < offset + size then .fail .corruptDelta w
    else
      let header : WalEntryHeader :=
        { offset := UInt32.ofNat (leDecode (slice delta.data 0 4))
          length := delta.size.toUInt16, kind := EntryKind.indexOp.code }
      (writeToBuffer header.toBytes w).andThen (writeToBuffer (slice arenaMem offset size))
  else .ok w

/-- The final flush and the close; the flusher thread has been joined. -/
def shutdown (w : WalManager) : WalManager :=
  if w.phase = .opened then
    let w := (flushBuffer { w with phase := .closing }).state
    { w with phase := .closed, sector := [], io := { w.io with fdOpen := false } }
  else w

end WalManager

end TakyonDb.Wal
