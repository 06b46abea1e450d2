import TakyonDb.Flusher

namespace TakyonDb.Validation

open Lib Layout Wal Wal.WalManager Replay Replay.Recovered Framing

/-- Replay over an arena of `n` bytes takes the bytes off the front of a stream as one record, and applies it in
bounds. -/
def ReadAsOne (n : ℕ) (bytes : Bytes) : Prop :=
  ∃ e : Entry, (e.kind = .arenaWrite → e.offset.toNat + e.payload.length ≤ n) ∧
    ∀ regions sector rest st, st.arena.length = n →
      scanSector regions sector (bytes ++ rest) st = scanSector regions sector rest (e.apply regions st)

/-- The delta is refused and leaves no trace, or what it appends is one record. -/
def Validated (d : DeltaMessage) (arenaMem : Bytes) (w : WalManager) : Prop :=
  (∃ err w', processDelta d arenaMem w = .fail err w' ∧ w'.sector = w.sector ∧ w'.files = w.files) ∨
    ∃ w' bytes, processDelta d arenaMem w = .ok w' ∧ Appended w w' bytes ∧ ReadAsOne arenaMem.length bytes

/-- Where the checks of the writer and of the reader agree. -/
def Checked (d : DeltaMessage) (n : ℕ) : Prop :=
  d.isArena = deltaInline ∧ (48 < d.size.toNat ∨ 0 < d.size.toNat ∧ d.offset.toNat + d.size.toNat ≤ n) ∨
    d.isArena = deltaArena ∧ (0 < d.size.toNat ∨ n < d.offset.toNat) ∨ d.isArena = deltaIndexOp

instance (d : DeltaMessage) (n : ℕ) : Decidable (Checked d n) := inferInstanceAs (Decidable (_ ∨ _ ∨ _))

variable {n : ℕ} {d : DeltaMessage} {e : Entry} {arenaMem bytes bytes' : Bytes} {w w' : WalManager} {st : Recovered}
  {regions : Regions}

theorem readAsOne_encode (he : e.Valid n) : ReadAsOne n e.encode :=
  ⟨e, he.inside, fun _ sector rest _ hst ↦ scanSector_encode he hst sector rest⟩

/-- Bytes that the scan stops at are no record. -/
theorem not_readAsOne {st' : Recovered} {rest : Bytes} (hst : st.arena.length = n)
    (hstop : scanSector regions 0 bytes st = (st', rest)) (hcount : st'.tally.byteDeltas + st'.tally.indexOps =
      st.tally.byteDeltas + st.tally.indexOps) : ¬ ReadAsOne n bytes := by
  intro h
  obtain ⟨e, -, hread⟩ := h
  have hone := hread regions 0 [] st hst
  rw [List.append_nil, scanSector_nil, hstop] at hone
  obtain ⟨rfl, -⟩ := Prod.mk.inj hone
  have := Entry.count_apply e regions st
  omega

/-- What a call appends is determined by the manager before and after it. -/
theorem appended_unique (h : Appended w w' bytes) (h' : Appended w w' bytes') : bytes = bytes' := by
  obtain ⟨full, -, hflushed, hbytes, -⟩ := h.blocks
  obtain ⟨full', -, hflushed', hbytes', -⟩ := h'.blocks
  obtain rfl := List.append_cancel_left (hflushed.symm.trans hflushed')
  exact List.append_cancel_left (hbytes.symm.trans hbytes')

theorem not_readAsOne_nil : ¬ ReadAsOne n [] := by
  have hst : (⟨zeros n, 0, 0, 0, [], {}⟩ : Recovered).arena.length = n := length_zeros n
  have hstop : scanSector smallRegions 0 [] ⟨zeros n, 0, 0, 0, [], {}⟩ = (⟨zeros n, 0, 0, 0, [], {}⟩, []) := rfl
  exact not_readAsOne hst hstop rfl

/-- The reader takes a record without a payload for padding. -/
theorem not_readAsOne_empty (he : e.payload = []) : ¬ ReadAsOne n e.encode := by
  have hst : (⟨zeros n, 0, 0, 0, [], {}⟩ : Recovered).arena.length = n := length_zeros n
  generalize (⟨zeros n, 0, 0, 0, [], {}⟩ : Recovered) = st at hst
  have hlen : e.encode.length = 7 + 1 := by rw [Entry.length_encode, he, headerSize, List.length_nil]
  have hheader : WalEntryHeader.ofBytes e.encode = e.header := by
    have happend := ofBytes_encode e []
    rwa [List.append_nil] at happend
  have hzero : e.header.length.toNat = 0 := by
    rw [Entry.header, he]
    rfl
  have hstop : scanSector smallRegions 0 e.encode st = (st, []) := by
    rw [scanSector, hlen, scanEntries]
    simp only [hlen, hheader, hzero, headerSize]
    rw [if_neg (by omega), if_neg (by omega), if_pos trivial]
  exact not_readAsOne hst hstop rfl

/-- The reader stops at a record that ends behind the arena. -/
theorem not_readAsOne_outside (hkind : e.kind = .arenaWrite) (hpos : 0 < e.payload.length)
    (hle : e.payload.length ≤ maxEntryLen)
    (hout : n < e.offset.toNat + e.payload.length) : ¬ ReadAsOne n e.encode := by
  have hst : (⟨zeros n, 0, 0, 0, [], {}⟩ : Recovered).arena.length = n := length_zeros n
  generalize (⟨zeros n, 0, 0, 0, [], {}⟩ : Recovered) = st at hst
  have hlen : e.encode.length = (7 + e.payload.length) + 1 := by
    rw [Entry.length_encode, headerSize]
    omega
  have hheader : WalEntryHeader.ofBytes e.encode = e.header := by
    have happend := ofBytes_encode e []
    rwa [List.append_nil] at happend
  have hlength : e.header.length.toNat = e.payload.length := by
    simp only [Entry.header, UInt16.toNat_ofNat', maxEntryLen] at hle ⊢
    omega
  have hcode : ¬ e.header.kind = EntryKind.indexOp.code := by
    have hcode : e.header.kind = EntryKind.arenaWrite.code := congrArg EntryKind.code hkind
    rw [hcode]
    decide
  have hoffset : e.header.offset = e.offset := rfl
  have hstop : scanSector smallRegions 0 e.encode st = (st.stopAt 0 "entry extends past the arena", []) := by
    rw [scanSector, hlen, scanEntries]
    simp only [hlen, hheader, hlength, headerSize, hoffset]
    rw [if_neg (by omega), if_neg (by omega), if_neg (by omega), if_neg (by omega),
      if_neg (Entry.not_maxEntryKind_lt e), if_neg (by omega), if_neg hcode, if_pos (by omega)]
  exact not_readAsOne hst hstop rfl

theorem validated_iff_readAsOne (hw : w.Healthy) (hroom : w.sector.length < sectorPayload) :
    Validated d arenaMem w ↔ ¬ d.Accepted arenaMem ∨
      ReadAsOne arenaMem.length ((d.entry arenaMem).elim [] Entry.encode) := by
  by_cases hd : d.Accepted arenaMem
  · obtain ⟨w', hrun, happ⟩ := processDelta_healthy hw hroom hd
    constructor
    · intro h
      rcases h with ⟨_, _, hfail, -⟩ | ⟨_, bytes, hok, happ', hread⟩
      · rw [hrun] at hfail
        cases hfail
      · rw [hrun] at hok
        obtain rfl := Outcome.ok.inj hok
        rw [appended_unique happ happ']
        exact .inr hread
    · intro h
      exact .inr ⟨w', _, hrun, happ, h.resolve_left (not_not.mpr hd)⟩
  · have hrun : processDelta d arenaMem w = .fail .corruptDelta w := by rw [processDelta_eq, if_neg hd]
    constructor
    · exact fun _ ↦ .inl hd
    · exact fun _ ↦ .inl ⟨_, w, hrun, rfl, rfl⟩

/-- A record that the writer lets through, and whose bytes are not copied beyond the arena, is read back exactly where
it is not empty and ends inside the arena. -/
theorem readAsOne_write_iff {payload : Bytes} {offset : UInt32} (hle : payload.length ≤ maxEntryLen) :
    ReadAsOne n (Entry.encode ⟨.arenaWrite, offset, payload⟩) ↔ 0 < payload.length ∧
      offset.toNat + payload.length ≤ n := by
  constructor
  · intro h
    have hpos : 0 < payload.length := by
      by_contra hzero
      exact not_readAsOne_empty (List.length_eq_zero_iff.mp (Nat.eq_zero_of_not_pos hzero)) h
    refine ⟨hpos, ?_⟩
    by_contra hout
    exact not_readAsOne_outside rfl hpos hle (not_le.mp hout) h
  · intro h
    exact readAsOne_encode ⟨h.1, hle, fun _ ↦ h.2⟩

theorem checked_inline (htag : d.isArena = deltaInline) :
    ¬ d.Accepted arenaMem ∨ ReadAsOne arenaMem.length ((d.entry arenaMem).elim [] Entry.encode) ↔
      48 < d.size.toNat ∨ 0 < d.size.toNat ∧ d.offset.toNat + d.size.toNat ≤ arenaMem.length := by
  have hother : ¬ deltaInline = deltaArena := by decide
  have haccepted : d.Accepted arenaMem ↔ d.size.toNat ≤ 48 := by
    rw [DeltaMessage.Accepted, htag, if_neg hother, if_pos rfl]
  have hentry : d.entry arenaMem = some ⟨.arenaWrite, d.offset, d.data.take d.size.toNat⟩ := by
    rw [DeltaMessage.entry, htag, if_neg hother, if_pos rfl]
  rw [haccepted, hentry, Option.elim]
  by_cases hlong : 48 < d.size.toNat
  · exact ⟨fun _ ↦ .inl hlong, fun _ ↦ .inl (not_le.mpr hlong)⟩
  · have hlen : (d.data.take d.size.toNat).length = d.size.toNat := by
      rw [List.length_take, d.data_length]
      omega
    have hmax : (48 : ℕ) ≤ maxEntryLen := by decide
    rw [readAsOne_write_iff (by omega), hlen]
    omega

theorem checked_arena (htag : d.isArena = deltaArena) :
    ¬ d.Accepted arenaMem ∨ ReadAsOne arenaMem.length ((d.entry arenaMem).elim [] Entry.encode) ↔
      0 < d.size.toNat ∨ arenaMem.length < d.offset.toNat := by
  have haccepted : d.Accepted arenaMem ↔ d.size.toNat ≤ maxEntryLen ∧
      d.offset.toNat + d.size.toNat ≤ arenaMem.length := by
    rw [DeltaMessage.Accepted, htag, if_pos rfl]
  have hentry : d.entry arenaMem = some ⟨.arenaWrite, d.offset, slice arenaMem d.offset.toNat d.size.toNat⟩ := by
    rw [DeltaMessage.entry, htag, if_pos rfl]
  rw [haccepted, hentry, Option.elim]
  by_cases hin : d.size.toNat ≤ maxEntryLen ∧ d.offset.toNat + d.size.toNat ≤ arenaMem.length
  · have hlen : (slice arenaMem d.offset.toNat d.size.toNat).length = d.size.toNat := length_slice hin.2
    rw [readAsOne_write_iff (by omega), hlen]
    omega
  · constructor
    · intro _
      rw [maxEntryLen] at hin
      omega
    · exact fun _ ↦ .inl hin

theorem checked_indexOp (htag : d.isArena = deltaIndexOp) :
    ¬ d.Accepted arenaMem ∨ ReadAsOne arenaMem.length ((d.entry arenaMem).elim [] Entry.encode) := by
  by_cases hd : d.Accepted arenaMem
  · right
    have hother : ¬ deltaIndexOp = deltaArena ∧ ¬ deltaIndexOp = deltaInline := by decide
    have hsizes := hd
    rw [DeltaMessage.Accepted, htag, if_neg hother.1, if_neg hother.2, if_pos rfl] at hsizes
    cases hentry : d.entry arenaMem with
    | none =>
      rw [DeltaMessage.entry, htag, if_neg hother.1, if_neg hother.2, if_pos rfl] at hentry
      cases hentry
    | some e => exact readAsOne_encode (DeltaMessage.entry_valid hd hentry hsizes.1.1 hsizes.2)
  · exact .inl hd

/-- A delta is refused, or becomes one record that replay accepts, exactly where the two sets of checks agree. A
checkpoint never gets here, the flusher takes it out. -/
theorem validated_iff (d : DeltaMessage) (arenaMem : Bytes) (hw : w.Healthy) (hroom : w.sector.length < sectorPayload) :
    Validated d arenaMem w ↔ Checked d arenaMem.length := by
  have hinlineArena : ¬ deltaInline = deltaArena := by decide
  have hinlineIndex : ¬ deltaInline = deltaIndexOp := by decide
  have harenaIndex : ¬ deltaArena = deltaIndexOp := by decide
  rw [validated_iff_readAsOne hw hroom, Checked]
  by_cases hinline : d.isArena = deltaInline
  · rw [checked_inline hinline, hinline]
    simp only [hinlineArena, hinlineIndex, true_and, false_and, or_false]
  by_cases harena : d.isArena = deltaArena
  · rw [checked_arena harena, harena]
    simp only [Ne.symm hinlineArena, harenaIndex, true_and, false_and, or_false, false_or]
  by_cases hindex : d.isArena = deltaIndexOp
  · simp only [checked_indexOp hindex, hindex, or_true]
  · have haccepted : d.Accepted arenaMem := by
      simp only [DeltaMessage.Accepted, hinline, harena, hindex, if_false]
    have hentry : d.entry arenaMem = none := by
      simp only [DeltaMessage.entry, hinline, harena, hindex, if_false]
    rw [hentry, Option.elim]
    simp only [haccepted, not_readAsOne_nil, hinline, harena, hindex, not_true_eq_false, false_and, or_false]

/-- A delta for one byte inside the arena. -/
theorem validated_smallDelta : Validated smallDelta blankArena (init LogFiles.empty) := by
  have hlen : blankArena.length = 65536 := length_zeros _
  refine (validated_iff smallDelta blankArena (logs_init LogFiles.empty).healthy (by decide)).mpr ?_
  rw [hlen]
  decide

/-- An inline delta that ends one byte behind the arena. -/
def outsideDelta : DeltaMessage := ⟨65536, 1, deltaInline, inlineData [255], length_byteData⟩

theorem outsideDelta_not_validated : outsideDelta.isArena ≠ deltaCheckpoint ∧
    ¬ Validated outsideDelta blankArena (init LogFiles.empty) := by
  refine ⟨by decide, ?_⟩
  intro h
  have hlen : blankArena.length = 65536 := length_zeros _
  have hread := (validated_iff_readAsOne (logs_init LogFiles.empty).healthy (by decide)).mp h
  have hchecked := (checked_inline (d := outsideDelta) rfl).mp hread
  rw [hlen] at hchecked
  revert hchecked
  decide

end TakyonDb.Validation
