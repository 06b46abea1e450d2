import TakyonDb.EntryFiles

namespace TakyonDb.Replay

open Lib Layout Wal Wal.WalManager Framing Recovered

/-- The entry loop meets a record that it refuses. -/
def refuses (n : ℕ) : ℕ → Bytes → Bool
  | 0, _ => false
  | fuel + 1, rest =>
    match front n rest with
    | .record e => refuses n fuel (rest.drop (headerSize + e.payload.length))
    | .refused _ => true
    | .idle _ => false

/-- The records in front of the first refusal, and where the sector loop takes the file up again behind it. -/
def untilRefusal (n : ℕ) : List Bytes → Bytes → List Entry × Option (List Bytes × Bytes)
  | [], _ => ([], none)
  | block :: blocks, leftover =>
    if ¬ crcMatches block then ([], none)
    else
      let stream := leftover ++ block.take sectorPayload
      let read := readEntries n stream.length stream
      if refuses n stream.length stream then (read.1, some (blocks, read.2))
      else
        let later := untilRefusal n blocks read.2
        (read.1 ++ later.1, later.2)

/-- No sector up to the next bad checksum starts with a whole record that replay takes. -/
def Quiet (n : ℕ) : List Bytes → Bytes → Prop
  | [], _ => True
  | block :: blocks, leftover =>
    crcMatches block = true →
      ∃ carry, (front n (leftover ++ block.take sectorPayload)).stop = some carry ∧ Quiet n blocks carry

/-- Replay did to `st` what the records do, and nothing else. -/
structure Applies (r : Regions) (es : List Entry) (st st' : Recovered) : Prop where
  bare : st'.bare = (es.foldl (Entry.apply r) st).bare
  count : st'.tally.byteDeltas + st'.tally.indexOps = st.tally.byteDeltas + st.tally.indexOps + es.length

/-- Replay of the file applies the records in front of the first refusal. -/
def AppliesPrefix (n : ℕ) (file : Bytes) : Prop :=
  ∀ r st, st.arena.length = n →
    Applies r (untilRefusal n (blocksOf sectorSize file) []).1 st (replayOneSegment r file st)

/-- Nothing behind the first refusal is taken for a record. -/
def QuietBehind (n : ℕ) (file : Bytes) : Prop :=
  ∀ rest leftover, (untilRefusal n (blocksOf sectorSize file) []).2 = some (rest, leftover) → Quiet n rest leftover

variable {n fuel sector : ℕ} {r : Regions} {st st' : Recovered} {rest leftover carry : Bytes} {blocks : List Bytes}
  {e : Entry}
  {es : List Entry}

/-- What the sector loop reads is what stands in front of the first refusal and what it reads behind it. -/
theorem sectorEntries_eq (n : ℕ) (blocks : List Bytes) (leftover : Bytes) :
    sectorEntries n blocks leftover = (untilRefusal n blocks leftover).1 ++
    (untilRefusal n blocks leftover).2.elim [] (fun p ↦ sectorEntries n p.1 p.2) := by
  induction blocks generalizing leftover with
  | nil => rfl
  | cons block blocks ih =>
    rw [sectorEntries, untilRefusal]
    by_cases hcrc : crcMatches block = true
    · rw [if_neg (not_not.mpr hcrc), if_neg (not_not.mpr hcrc)]
      dsimp only
      split_ifs with hrefuses
      · rfl
      · rw [ih, List.append_assoc]
    · rw [if_pos hcrc, if_pos hcrc]
      rfl

/-- A scan that finds no record at the front reads nothing. -/
theorem readEntries_of_stop {stream : Bytes} (h : (front n stream).stop = some carry) :
    readEntries n stream.length stream = ([], carry) := by
  cases hlen : stream.length with
  | zero =>
    obtain rfl := List.length_eq_zero_iff.mp hlen
    exact congrArg (Prod.mk []) (Option.some.inj h)
  | succ fuel => exact readEntries_stop h

theorem stop_of_readEntries {stream : Bytes} (h : (readEntries n stream.length stream).1 = []) :
    ∃ carry, (front n stream).stop = some carry := by
  cases hlen : stream.length with
  | zero =>
    obtain rfl := List.length_eq_zero_iff.mp hlen
    exact ⟨[], rfl⟩
  | succ fuel =>
    rcases front_cases n stream with ⟨e, hfront⟩ | hstop
    · rw [hlen, readEntries_record hfront] at h
      exact absurd h (List.cons_ne_nil _ _)
    · exact hstop

/-- Where no sector starts with a record, nothing is read. -/
theorem quiet_iff : Quiet n blocks leftover ↔ sectorEntries n blocks leftover = [] := by
  induction blocks generalizing leftover with
  | nil => exact ⟨fun _ ↦ rfl, fun _ ↦ trivial⟩
  | cons block blocks ih =>
    rw [Quiet, sectorEntries]
    by_cases hcrc : crcMatches block = true
    · rw [if_neg (not_not.mpr hcrc)]
      dsimp only
      generalize leftover ++ block.take sectorPayload = stream
      rw [List.append_eq_nil_iff]
      constructor
      · intro h
        obtain ⟨carry, hstop, hquiet⟩ := h hcrc
        rw [readEntries_of_stop hstop]
        exact ⟨rfl, ih.mp hquiet⟩
      · intro h _
        obtain ⟨carry, hstop⟩ := stop_of_readEntries h.1
        rw [readEntries_of_stop hstop] at h
        exact ⟨carry, hstop, ih.mpr h.2⟩
    · rw [if_pos hcrc]
      exact ⟨fun _ ↦ rfl, fun _ h ↦ absurd h hcrc⟩

theorem quietBehind_iff (file : Bytes) : QuietBehind n file ↔
    sectorEntries n (blocksOf sectorSize file) [] = (untilRefusal n (blocksOf sectorSize file) []).1 := by
  rw [sectorEntries_eq, QuietBehind]
  cases hbehind : (untilRefusal n (blocksOf sectorSize file) []).2 with
  | none => exact ⟨fun _ ↦ List.append_nil _, fun _ _ _ h ↦ (nomatch h)⟩
  | some behind =>
    obtain ⟨rest, leftover⟩ := behind
    rw [Option.elim]
    constructor
    · intro h
      rw [quiet_iff.mp (h rest leftover rfl), List.append_nil]
    · intro h rest' leftover' heq
      obtain ⟨rfl, rfl⟩ := Prod.mk.inj (Option.some.inj heq)
      exact quiet_iff.mpr (List.append_right_eq_self.mp h)

theorem applies_refl (r : Regions) (st : Recovered) : Applies r [] st st := ⟨rfl, rfl⟩

theorem Applies.trans {es' : List Entry} {st'' : Recovered} (h : Applies r es st st') (h' : Applies r es' st' st'') :
    Applies r (es ++ es') st st'' := by
  refine ⟨?_, ?_⟩
  · rw [h'.bare, List.foldl_append]
    exact bare_foldl r es' h.bare
  · rw [h'.count, h.count, List.length_append]
    omega

theorem applies_scanEntries (hst : st.arena.length = n) :
    Applies r (readEntries n fuel rest).1 st (scanEntries r sector fuel rest st).1 := by
  induction fuel generalizing rest st with
  | zero => exact applies_refl r st
  | succ fuel ih =>
    rcases front_cases n rest with ⟨e, hfront⟩ | ⟨carry, hstop⟩
    · rw [readEntries_record hfront, scanEntries_record hst hfront]
      have hone : Applies r [e] st (e.apply r st) := ⟨rfl, Entry.count_apply e r st⟩
      exact hone.trans (ih (Entry.length_apply (front_valid hfront) hst))
    · obtain ⟨hbare, -, hdeltas, hops⟩ := scanEntries_stop r sector fuel hst hstop
      rw [readEntries_stop hstop]
      exact ⟨hbare, by rw [hdeltas, hops]; rfl⟩

theorem Applies.length (h : Applies r es st st') (hes : ∀ e ∈ es, e.Valid n) (hst : st.arena.length = n) :
    st'.arena.length = n := by
  rw [(bare_eq_iff.mp h.bare).1]
  exact Entry.length_foldl_apply hes hst

/-- Replay applies the records that the sector loop reads, and counts each. -/
theorem applies_replaySectors (hst : st.arena.length = n) :
    Applies r (sectorEntries n blocks leftover) st (replaySectors r blocks leftover sector st) := by
  induction blocks generalizing leftover sector st with
  | nil => exact applies_refl r st
  | cons block blocks ih =>
    rw [replaySectors, sectorEntries]
    by_cases hcrc : crcMatches block = true
    · rw [if_neg (not_not.mpr hcrc), if_neg (not_not.mpr hcrc)]
      dsimp only
      generalize leftover ++ block.take sectorPayload = stream
      have hhere : st.countSector.arena.length = n := hst
      have hscan : Applies r (readEntries n stream.length stream).1 st
          (scanSector r (sector + 1) stream st.countSector).1 := by
        have happ : Applies r _ _ (scanSector r (sector + 1) stream st.countSector).1 :=
          applies_scanEntries hhere
        have hcount : Applies r [] st st.countSector := ⟨rfl, rfl⟩
        exact hcount.trans happ
      have hcarry : (scanSector r (sector + 1) stream st.countSector).2 = (readEntries n stream.length stream).2 :=
        (bare_scanEntries hhere).2
      rw [hcarry]
      exact hscan.trans (ih (hscan.length readEntries_valid hst))
    · rw [if_pos hcrc, if_pos hcrc]
      exact ⟨rfl, rfl⟩

/-- Replay applies a prefix of the file exactly where nothing behind the first refusal is taken for a record. -/
theorem appliesPrefix_iff (n : ℕ) (file : Bytes) : AppliesPrefix n file ↔ QuietBehind n file := by
  rw [quietBehind_iff]
  constructor
  · intro h
    -- the counts of one replay tell the two lists apart
    have hblank : (⟨zeros n, 0, 0, 0, [], {}⟩ : Recovered).arena.length = n := length_zeros n
    have hclaim := (h smallRegions _ hblank).count
    have happ : Applies smallRegions (sectorEntries n (blocksOf sectorSize file) []) _
        (replayOneSegment smallRegions file _) := applies_replaySectors hblank
    have hcount := happ.count
    have hlen := congrArg List.length (sectorEntries_eq n (blocksOf sectorSize file) [])
    rw [List.length_append] at hlen
    have hnone : ((untilRefusal n (blocksOf sectorSize file) []).2.elim [] fun p ↦ sectorEntries n p.1 p.2) = [] :=
      List.length_eq_zero_iff.mp (by omega)
    rw [sectorEntries_eq, hnone, List.append_nil]
  · intro h r st hst
    rw [← h]
    exact applies_replaySectors hst

/-- A sector that starts with a refusal. -/
theorem untilRefusal_refused {block : Bytes} (hcrc : crcMatches block = true)
    (hfront : front n (leftover ++ block.take sectorPayload) = .refused carry) :
    untilRefusal n (block :: blocks) leftover = ([], some (blocks, carry)) := by
  rw [untilRefusal, if_neg (not_not.mpr hcrc)]
  dsimp only
  generalize leftover ++ block.take sectorPayload = stream at hfront
  have hrefuses : refuses n stream.length stream = true := by
    cases hlen : stream.length with
    | zero =>
      obtain rfl := List.length_eq_zero_iff.mp hlen
      cases hfront
    | succ fuel => rw [refuses, hfront]
  rw [if_pos hrefuses, readEntries_of_stop (congrArg Front.stop hfront)]

/-- A record that ends one byte behind the arena. -/
def outsideEntry : Entry := ⟨.arenaWrite, 65536, [255]⟩

/-- One sector for it, and one for a record that replay takes. -/
def refusedFile : Bytes := [outsideEntry.encode, smallEntry.encode].flatMap sealSector

/-- The refusal ends one sector's scan only. -/
theorem refusedFile_not_appliesPrefix : ¬ AppliesPrefix 65536 refusedFile := by
  have hroom : ∀ e ∈ [outsideEntry, smallEntry], e.encode.length ≤ sectorPayload := by decide
  have hout := crcMatches_sealSector (hroom outsideEntry List.mem_cons_self)
  have hsmall := crcMatches_sealSector (hroom smallEntry (by decide))
  have hblocks : blocksOf sectorSize refusedFile = [sealSector outsideEntry.encode, sealSector smallEntry.encode] := by
    have h := blocksOf_flatMap_seal [outsideEntry.encode, smallEntry.encode] (by decide)
    rwa [List.map_cons, List.map_singleton] at h
  have hrefused : front 65536 ([] ++ (sealSector outsideEntry.encode).take sectorPayload) = .refused [] := by
    rw [List.nil_append, hout.2, front_append (by decide) (by decide), if_pos (by decide)]
  have hrecord : front 65536 ([] ++ (sealSector smallEntry.encode).take sectorPayload) = .record smallEntry := by
    rw [List.nil_append, hsmall.2]
    exact front_encode ⟨by decide, by decide, fun _ ↦ by decide⟩ _
  intro h
  have hquiet := (appliesPrefix_iff 65536 refusedFile).mp h
  rw [QuietBehind, hblocks, untilRefusal_refused hout.1 hrefused] at hquiet
  obtain ⟨carry, hstop, -⟩ := hquiet _ _ rfl hsmall.1
  rw [hrecord] at hstop
  cases hstop

end TakyonDb.Replay
