import TakyonDb.Replay
import TakyonDb.WalSpec

namespace TakyonDb

open Lib Layout Wal Replay

/-- One log record, decoded. -/
structure Entry where
  kind : EntryKind
  offset : UInt32
  payload : Bytes
deriving DecidableEq

namespace Entry

def header (e : Entry) : WalEntryHeader :=
  { offset := e.offset, length := UInt16.ofNat e.payload.length, kind := e.kind.code }

def encode (e : Entry) : Bytes := e.header.toBytes ++ e.payload

/-- What replay does with the record. -/
def apply (regions : Regions) (st : Recovered) (e : Entry) : Recovered :=
  match e.kind with
  | .indexOp => st.addIndexOp e.payload e.offset
  | .arenaWrite => st.writeArena regions e.offset.toNat e.payload

/-- A record that the log accepts and that replay can place in an arena of
`n` bytes. -/
structure Valid (n : ℕ) (e : Entry) : Prop where
  pos : 0 < e.payload.length
  le : e.payload.length ≤ maxEntryLen
  inside : e.kind = .arenaWrite → e.offset.toNat + e.payload.length ≤ n

theorem length_encode (e : Entry) : e.encode.length = headerSize + e.payload.length := by
  simp [encode]

/-- The arena behind the record; an operation on the index writes no byte. -/
def store (e : Entry) (arena : Bytes) : Bytes :=
  match e.kind with
  | .indexOp => arena
  | .arenaWrite => overwrite arena e.offset.toNat e.payload

theorem arena_apply (regions : Regions) (st : Recovered) (e : Entry) :
    (e.apply regions st).arena = e.store st.arena := by
  obtain ⟨kind, offset, payload⟩ := e
  cases kind with
  | indexOp => rfl
  | arenaWrite =>
    simp only [apply, Recovered.writeArena, store]
    split_ifs <;> rfl

theorem arena_foldl (regions : Regions) (es : List Entry) (st : Recovered) :
    (es.foldl (apply regions) st).arena = es.foldl (fun arena e ↦ e.store arena) st.arena := by
  induction es generalizing st with
  | nil => rfl
  | cons e es ih => rw [List.foldl_cons, ih, arena_apply, List.foldl_cons]

/-- A record that is applied is counted. -/
theorem count_apply (e : Entry) (regions : Regions) (st : Recovered) :
    (e.apply regions st).tally.byteDeltas + (e.apply regions st).tally.indexOps =
      st.tally.byteDeltas + st.tally.indexOps + 1 := by
  obtain ⟨kind, offset, payload⟩ := e
  cases kind with
  | indexOp => rfl
  | arenaWrite =>
    simp only [apply, Recovered.writeArena]
    split_ifs <;> exact Nat.add_right_comm _ _ _

theorem length_apply {n : ℕ} {regions : Regions} {st : Recovered} {e : Entry} (he : e.Valid n)
    (hst : st.arena.length = n) : (e.apply regions st).arena.length = n := by
  obtain ⟨kind, offset, payload⟩ := e
  cases kind with
  | indexOp => exact hst
  | arenaWrite =>
    have hin : offset.toNat + payload.length ≤ st.arena.length := by
      have := he.inside rfl
      dsimp only at this
      omega
    have hlen : (overwrite st.arena offset.toNat payload).length = n := by
      rw [length_overwrite hin, hst]
    simp only [apply, Recovered.writeArena]
    split_ifs <;> exact hlen

theorem recMax_apply {regions : Regions} {e : Entry} (hkind : e.kind = .arenaWrite)
    (h : e.offset.toNat < regions.artRoot.toNat) (st : Recovered) :
    (e.apply regions st).recMax = max st.recMax (e.offset.toNat + e.payload.length) := by
  rw [apply, hkind]
  exact Recovered.recMax_writeArena h _ _

theorem length_foldl_apply {n : ℕ} {regions : Regions} {es : List Entry}
    (hes : ∀ e ∈ es, e.Valid n) {st : Recovered} (hst : st.arena.length = n) :
    (es.foldl (apply regions) st).arena.length = n := by
  induction es generalizing st with
  | nil => exact hst
  | cons e es ih =>
    exact ih (fun e' h ↦ hes e' (List.mem_cons_of_mem _ h))
      (length_apply (hes e List.mem_cons_self) hst)

theorem header_length {n : ℕ} {e : Entry} (he : e.Valid n) :
    e.header.length.toNat = e.payload.length := by
  have := he.le
  simp only [header, UInt16.toNat_ofNat', maxEntryLen] at this ⊢
  omega

theorem not_maxEntryKind_lt (e : Entry) : ¬ maxEntryKind < e.header.kind := by
  obtain ⟨kind, offset, payload⟩ := e
  cases kind <;> simp only [header, EntryKind.code] <;> decide

end Entry

/-- The record that a delta becomes, if it becomes one. -/
def DeltaMessage.entry (d : DeltaMessage) (arenaMem : Bytes) : Option Entry :=
  if d.isArena = deltaArena then
    some ⟨.arenaWrite, d.offset, slice arenaMem d.offset.toNat d.size.toNat⟩
  else if d.isArena = deltaInline then
    some ⟨.arenaWrite, d.offset, d.data.take d.size.toNat⟩
  else if d.isArena = deltaIndexOp then
    some ⟨.indexOp, UInt32.ofNat (leDecode (slice d.data 0 4)),
      slice arenaMem d.offset.toNat d.size.toNat⟩
  else none

/-- The checks of `processDelta`. -/
def DeltaMessage.Accepted (d : DeltaMessage) (arenaMem : Bytes) : Prop :=
  if d.isArena = deltaArena then
    d.size.toNat ≤ maxEntryLen ∧ d.offset.toNat + d.size.toNat ≤ arenaMem.length
  else if d.isArena = deltaInline then d.size.toNat ≤ 48
  else if d.isArena = deltaIndexOp then
    (0 < d.size.toNat ∧ d.size.toNat ≤ maxKeyLen) ∧
      d.offset.toNat + d.size.toNat ≤ arenaMem.length
  else True

instance (d : DeltaMessage) (arenaMem : Bytes) : Decidable (d.Accepted arenaMem) := by
  unfold DeltaMessage.Accepted
  infer_instance

namespace Wal.WalManager

variable {w w' : WalManager} {d : DeltaMessage} {arenaMem : Bytes}

def writeEntry (e : Entry) (w : WalManager) : Outcome WalError WalManager :=
  (writeToBuffer e.header.toBytes w).andThen (writeToBuffer e.payload)

theorem processDelta_eq (d : DeltaMessage) (arenaMem : Bytes) (w : WalManager) :
    processDelta d arenaMem w =
      if d.Accepted arenaMem then
        match d.entry arenaMem with
        | some e => writeEntry e w
        | none => .ok w
      else .fail .corruptDelta w := by
  have hsize : ∀ n, n = d.size.toNat → UInt16.ofNat n = d.size.toUInt16 := by
    rintro n rfl
    rfl
  have hslice : d.offset.toNat + d.size.toNat ≤ arenaMem.length →
      UInt16.ofNat (slice arenaMem d.offset.toNat d.size.toNat).length = d.size.toUInt16 :=
    fun h ↦ hsize _ (length_slice h)
  unfold processDelta DeltaMessage.Accepted DeltaMessage.entry
  dsimp only
  split_ifs with h₁ h₂ h₃ h₄ h₅ h₆ h₇ <;> try omega
  all_goals try rfl
  · simp only [writeEntry, Entry.header, hslice (by omega)]
  · have hlen : (d.data.take d.size.toNat).length = d.size.toNat := by
      rw [List.length_take, d.data_length]
      omega
    simp only [writeEntry, Entry.header, hsize _ hlen]
  · simp only [writeEntry, Entry.header, hslice (by omega)]

theorem writeEntry_healthy (h : w.Healthy) (hroom : w.sector.length < sectorPayload) (e : Entry) :
    ∃ w', writeEntry e w = .ok w' ∧ Appended w w' e.encode := by
  obtain ⟨u, hu, happ⟩ := writeToBuffer_healthy h hroom e.header.toBytes
  obtain ⟨w', hw', happ'⟩ := writeToBuffer_healthy happ.healthy happ.room e.payload
  exact ⟨w', by rw [writeEntry, hu, Outcome.ok_andThen, hw'], happ.trans happ'⟩

/-- An accepted delta appends its record, if any, and a refused delta leaves
the manager as it was. -/
theorem processDelta_healthy (h : w.Healthy) (hroom : w.sector.length < sectorPayload)
    (hd : d.Accepted arenaMem) :
    ∃ w', processDelta d arenaMem w = .ok w' ∧
      Appended w w' ((d.entry arenaMem).elim [] Entry.encode) := by
  rw [processDelta_eq, if_pos hd]
  cases d.entry arenaMem with
  | none => exact ⟨w, rfl, .refl h hroom⟩
  | some e => exact writeEntry_healthy h hroom e

theorem accepted_of_processDelta (h : processDelta d arenaMem w = .ok w') :
    d.Accepted arenaMem := by
  by_contra hd
  simp [processDelta_eq, hd] at h

end Wal.WalManager

/-- The record of an accepted delta is one that replay accepts, when the
delta is not empty and ends inside the arena. -/
theorem DeltaMessage.entry_valid {d : DeltaMessage} {arenaMem : Bytes} {e : Entry}
    (hd : d.Accepted arenaMem) (he : d.entry arenaMem = some e) (hpos : 1 ≤ d.size.toNat)
    (hin : d.offset.toNat + d.size.toNat ≤ arenaMem.length) : e.Valid arenaMem.length := by
  have hslice : (slice arenaMem d.offset.toNat d.size.toNat).length = d.size.toNat :=
    length_slice hin
  unfold DeltaMessage.entry at he
  unfold DeltaMessage.Accepted at hd
  split_ifs at he hd with h₁ h₂ h₃ <;> cases he
  · exact ⟨by rw [hslice]; exact hpos, by rw [hslice]; exact hd.1, fun _ ↦ by rw [hslice]; exact hin⟩
  · have hlen : (d.data.take d.size.toNat).length = d.size.toNat := by
      rw [List.length_take, d.data_length]
      omega
    refine ⟨by rw [hlen]; exact hpos, ?_, fun _ ↦ by rw [hlen]; exact hin⟩
    rw [hlen, maxEntryLen]
    omega
  · refine ⟨by rw [hslice]; exact hpos, ?_, by simp⟩
    rw [hslice, maxEntryLen]
    have := hd.1.2
    rw [maxKeyLen] at this
    omega

end TakyonDb
