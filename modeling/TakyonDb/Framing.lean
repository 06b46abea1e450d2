import TakyonDb.Entry

namespace TakyonDb.Framing

open Lib Layout Wal Replay

variable {regions : Regions} {n : ℕ}

theorem scanEntries_fuel {sector fuel fuel' : ℕ} {rest : Bytes} {st : Recovered}
    (h : rest.length ≤ fuel) (h' : rest.length ≤ fuel') :
    scanEntries regions sector fuel rest st = scanEntries regions sector fuel' rest st := by
  induction fuel generalizing fuel' rest st with
  | zero =>
    obtain rfl : rest = [] := List.length_eq_zero_iff.mp (by omega)
    cases fuel' <;> simp [scanEntries]
  | succ fuel ih =>
    cases fuel' with
    | zero =>
      obtain rfl : rest = [] := List.length_eq_zero_iff.mp (by omega)
      simp [scanEntries]
    | succ fuel' =>
      have hnext : ∀ k, ¬ rest.length < headerSize → (rest.drop (headerSize + k)).length ≤ fuel ∧
          (rest.drop (headerSize + k)).length ≤ fuel' := by
        intro k hk
        simp only [List.length_drop, headerSize] at hk ⊢
        omega
      simp only [scanEntries]
      split_ifs with h₁ h₂ h₃ h₄ h₅ h₆ h₇ h₈
      all_goals first
        | rfl
        | exact ih (hnext _ h₂).1 (hnext _ h₂).2

theorem scanSector_eq {sector fuel : ℕ} {rest : Bytes} (h : rest.length ≤ fuel) (st : Recovered) :
    scanEntries regions sector fuel rest st = scanSector regions sector rest st :=
  scanEntries_fuel h le_rfl

@[simp] theorem scanSector_nil (sector : ℕ) (st : Recovered) :
    scanSector regions sector [] st = (st, []) := rfl

theorem ofBytes_encode (e : Entry) (rest : Bytes) :
    WalEntryHeader.ofBytes (e.encode ++ rest) = e.header := by
  rw [Entry.encode, List.append_assoc, WalEntryHeader.ofBytes_append]

/-- The scan takes a whole record off the front and applies it. -/
theorem scanSector_encode {e : Entry} {st : Recovered} (he : e.Valid n) (hst : st.arena.length = n)
    (sector : ℕ) (rest : Bytes) :
    scanSector regions sector (e.encode ++ rest) st =
      scanSector regions sector rest (e.apply regions st) := by
  have hlen : (e.encode ++ rest).length = headerSize + e.payload.length + rest.length := by
    rw [List.length_append, Entry.length_encode]
  have hpos := he.pos
  have hle := he.le
  have hheader := Entry.header_length he
  have hslice : slice (e.encode ++ rest) headerSize e.payload.length = e.payload := by
    rw [slice, Entry.encode, List.append_assoc,
      List.drop_append_of_le_length (WalEntryHeader.length_toBytes _).ge,
      ← WalEntryHeader.length_toBytes e.header, List.drop_length, List.nil_append, List.take_left]
  have hdrop : (e.encode ++ rest).drop (headerSize + e.payload.length) = rest := by
    rw [← Entry.length_encode, List.drop_left]
  have hfuel : (e.encode ++ rest).length =
      (headerSize + e.payload.length + rest.length - 1) + 1 := by
    rw [hlen, headerSize]
    omega
  rw [scanSector, hfuel, scanEntries]
  simp only [ofBytes_encode, hheader, hslice, hdrop, hlen]
  rw [if_neg (by omega), if_neg (by omega), if_neg (by omega), if_neg (by omega),
    if_neg (Entry.not_maxEntryKind_lt e), if_neg (by omega)]
  have hrest : rest.length ≤ headerSize + e.payload.length + rest.length - 1 := by
    rw [headerSize]
    omega
  cases hkind : e.kind with
  | indexOp =>
    have hcode : e.header.kind = EntryKind.indexOp.code := congrArg EntryKind.code hkind
    rw [if_pos hcode, scanSector_eq hrest, Entry.apply, hkind]
    rfl
  | arenaWrite =>
    have hcode : ¬ e.header.kind = EntryKind.indexOp.code := by
      rw [show e.header.kind = EntryKind.arenaWrite.code from congrArg EntryKind.code hkind]
      decide
    have hin := he.inside hkind
    have hfits : ¬ st.arena.length < e.header.offset.toNat + e.payload.length := by
      rw [show e.header.offset = e.offset from rfl]
      omega
    rw [if_neg hcode, if_neg hfits, scanSector_eq hrest, Entry.apply, hkind]
    rfl

theorem scanSector_flatMap {es : List Entry} {st : Recovered} (hes : ∀ e ∈ es, e.Valid n)
    (hst : st.arena.length = n) (sector : ℕ) (rest : Bytes) :
    scanSector regions sector (es.flatMap Entry.encode ++ rest) st =
      scanSector regions sector rest (es.foldl (Entry.apply regions) st) := by
  induction es generalizing st with
  | nil => rfl
  | cons e es ih =>
    have he := hes e List.mem_cons_self
    rw [List.flatMap_cons, List.append_assoc, scanSector_encode he hst,
      ih (fun e' h ↦ hes e' (List.mem_cons_of_mem _ h)) (Entry.length_apply he hst),
      List.foldl_cons]

theorem carried_all {stop : Stop} {tail : Bytes} (h : carryTail stop tail = tail.length) :
    carried stop tail = tail := by
  rw [carried, h, Nat.sub_self, List.drop_zero]

/-- A record cut short is carried whole, whatever its bytes are. -/
theorem scanSector_cut {e : Entry} {q : Bytes} (he : e.Valid n) (hq : q <+: e.encode)
    (hlt : q.length < e.encode.length) (sector : ℕ) (st : Recovered) :
    scanSector regions sector q st = (st, q) := by
  by_cases hnil : q = []
  · rw [hnil, scanSector_nil]
  have hpos : 0 < q.length := List.length_pos_of_ne_nil hnil
  have hle := he.le
  have hppos := he.pos
  rw [Entry.length_encode] at hlt
  obtain ⟨fuel, hfuel⟩ : ∃ fuel, q.length = fuel + 1 := ⟨q.length - 1, by omega⟩
  rw [scanSector, hfuel, scanEntries, if_neg (by omega)]
  by_cases hshort : q.length < headerSize
  · have hc : carryTail .atBoundary q = q.length := by
      rw [carryTail, if_neg (by rw [maxEntryLen]; omega), if_pos hshort]
    rw [if_pos hshort, carried_all hc]
  · obtain ⟨tail, htail⟩ := hq
    have hheader : WalEntryHeader.ofBytes q = e.header := by
      rw [← ofBytes_encode e [], List.append_nil, ← htail]
      obtain ⟨front, back, rfl, hfront⟩ : ∃ front back, q = front ++ back ∧
          front.length = headerSize :=
        ⟨q.take headerSize, q.drop headerSize, by simp, by rw [List.length_take]; omega⟩
      have hof : ∀ xs : Bytes, WalEntryHeader.ofBytes (front ++ xs) = WalEntryHeader.ofBytes front := by
        intro xs
        have hget : ∀ i < headerSize, (front ++ xs)[i]? = front[i]? := fun i hi ↦
          List.getElem?_append_left (by omega)
        have hslice : ∀ off k, off + k ≤ headerSize → slice (front ++ xs) off k = slice front off k := by
          intro off k hk
          apply List.ext_getElem?
          intro i
          rw [getElem?_slice, getElem?_slice]
          split
          · rw [hget _ (by omega)]
          · rfl
        simp only [WalEntryHeader.ofBytes, hslice 0 4 (by decide), hslice 4 2 (by decide),
          List.getD_eq_getElem?_getD, hget 6 (by decide), hget 7 (by decide)]
      rw [hof, List.append_assoc, hof]
    have hlength := Entry.header_length he
    have hc : carryTail .midEntry q = q.length := by
      rw [carryTail, if_neg (by omega), if_neg hshort, if_pos (by decide)]
    rw [if_neg hshort]
    simp only [hheader, hlength]
    rw [if_neg (by omega), if_neg (by omega), if_neg (Entry.not_maxEntryKind_lt e),
      if_pos (by omega), carried_all hc]

/-- Zeros that are long enough for a header end the scan of a sector. -/
theorem scanSector_padding {k : ℕ} (hk : headerSize ≤ k) (sector : ℕ) (st : Recovered) :
    scanSector regions sector (List.replicate k 0) st = (st, []) := by
  obtain ⟨fuel, rfl⟩ : ∃ fuel, k = fuel + 1 := ⟨k - 1, by rw [headerSize] at hk; omega⟩
  have hslice : slice (List.replicate (fuel + 1) (0 : UInt8)) 4 2 = List.replicate 2 0 := by
    rw [slice, List.drop_replicate, List.take_replicate]
    congr 1
    rw [headerSize] at hk
    omega
  have hlength : (WalEntryHeader.ofBytes (List.replicate (fuel + 1) 0)).length.toNat = 0 := by
    simp only [WalEntryHeader.ofBytes, hslice, leDecode_replicate_zero]
    rfl
  rw [scanSector, List.length_replicate, scanEntries]
  simp only [List.length_replicate, hlength]
  rw [if_neg (by omega), if_neg (by omega), if_pos trivial]

/-- Six or seven carried zeros put a zero length in front of the sector
that follows, and its records are skipped. -/
theorem scanSector_shifted {k : ℕ} (hk : 6 ≤ k) {rest : Bytes} (hrest : headerSize ≤ k + rest.length)
    (sector : ℕ) (st : Recovered) :
    scanSector regions sector (List.replicate k 0 ++ rest) st = (st, []) := by
  have hlen : (List.replicate k (0 : UInt8) ++ rest).length = (k + rest.length - 1) + 1 := by
    rw [List.length_append, List.length_replicate]
    omega
  have hslice : slice (List.replicate k (0 : UInt8) ++ rest) 4 2 = List.replicate 2 0 := by
    obtain ⟨k, rfl⟩ : ∃ m, k = m + 6 := ⟨k - 6, by omega⟩
    rw [slice, List.drop_append_of_le_length (by simp), List.take_append_of_le_length (by simp),
      List.drop_replicate, List.take_replicate]
    congr 1
  have hlength : (WalEntryHeader.ofBytes (List.replicate k 0 ++ rest)).length.toNat = 0 := by
    simp only [WalEntryHeader.ofBytes, hslice, leDecode_replicate_zero]
    rfl
  rw [scanSector, hlen, scanEntries]
  simp only [hlen, hlength]
  rw [if_neg (by omega), if_neg (by omega), if_pos trivial]

/-- Zeros too short for a header are carried. -/
theorem scanSector_short {k : ℕ} (hk : k < headerSize) (sector : ℕ) (st : Recovered) :
    scanSector regions sector (List.replicate k 0) st = (st, List.replicate k 0) := by
  cases k with
  | zero => rfl
  | succ k =>
    have hc : carryTail .atBoundary (List.replicate (k + 1) 0) =
        (List.replicate (k + 1) (0 : UInt8)).length := by
      rw [carryTail, List.length_replicate, if_neg (by rw [maxEntryLen]; omega), if_pos hk]
    rw [scanSector, List.length_replicate, scanEntries, List.length_replicate, if_neg (by omega),
      if_pos hk, carried_all hc]

/-- Padding of any length leaves the recovered state alone. -/
theorem scanSector_padding_fst (k sector : ℕ) (st : Recovered) :
    (scanSector regions sector (List.replicate k 0) st).1 = st := by
  by_cases hk : headerSize ≤ k
  · rw [scanSector_padding hk]
  · rw [scanSector_short (Nat.not_le.mp hk)]

end TakyonDb.Framing
