import Mathlib.Tactic.IntervalCases
import TakyonDb.CatalogRecord

namespace TakyonDb.CatalogRecord

open Lib

variable {buf : Bytes} {off : ℕ}

def Zeroed (bs : Bytes) : Prop := bs.any (· ≠ 0) = false

theorem zeroed_iff (bs : Bytes) : Zeroed bs ↔ bs = zeros bs.length := by
  rw [Zeroed, List.any_eq_false, zeros, List.eq_replicate_iff]
  simp

theorem byteToType_eq_some_iff (b : UInt8) (t : RelationalType) :
    byteToType[b.toNat]? = some t ↔ b = typeToByte t := by
  constructor
  · intro h
    have hlt := (List.getElem?_eq_some_iff.mp h).1
    rw [← UInt8.toNat_inj]
    change b.toNat < 13 at hlt
    generalize b.toNat = n at h hlt
    interval_cases n <;> (obtain rfl := Option.some.inj h; rfl)
  · intro h
    subst h
    cases t <;> rfl

/-- The reserved bits are the only ones that three flags do not give back. -/
theorem flags_eq_iff (b : UInt8) (c : ColumnDef Bytes) :
    (b &&& 0xf8 = 0 ∧ c.nullable = decide (b &&& 0x01 ≠ 0) ∧ c.primaryKey = decide (b &&& 0x02 ≠ 0) ∧
      c.unique = decide (b &&& 0x04 ≠ 0)) ↔ b = flagsOf c := by
  have key : ∀ n p u : Bool, ∀ x : Fin 256, (UInt8.ofNat x &&& 0xf8 = 0 ∧ n = decide (UInt8.ofNat x &&& 0x01 ≠ 0) ∧
      p = decide (UInt8.ofNat x &&& 0x02 ≠ 0) ∧ u = decide (UInt8.ofNat x &&& 0x04 ≠ 0)) ↔
      UInt8.ofNat x = flagsOf (α := Bytes) ⟨[], .bool, n, p, u, ()⟩ := by decide +kernel
  have hb := key c.nullable c.primaryKey c.unique ⟨b.toNat, b.toNat_lt⟩
  rw [UInt8.ofNat_toNat] at hb
  exact hb

/-- What either decoder checks of the column at an offset, and what it reads. -/
structure ColumnFields (buf : Bytes) (off : ℕ) (c : ColumnDef Bytes) : Prop where
  length_eq : (byteAt buf off).toNat = c.name.length
  length_pos : 0 < c.name.length
  length_le : c.name.length ≤ 64
  name_eq : slice buf (off + 1) c.name.length = c.name
  padding : Zeroed (slice buf (off + 1 + c.name.length) (64 - c.name.length))
  type_eq : byteAt buf (off + 65) = typeToByte c.type
  flags_eq : byteAt buf (off + 66) = flagsOf c

def columnBytes (c : ColumnDef Bytes) : Bytes :=
  [UInt8.ofNat c.name.length] ++ c.name ++ zeros (64 - c.name.length) ++ [typeToByte c.type, flagsOf c]

theorem length_columnBytes {c : ColumnDef Bytes} (h : c.name.length ≤ 64) :
    (columnBytes c).length = columnRecLen := by
  simp only [columnBytes, List.length_append, length_zeros, List.length_cons, List.length_nil, columnRecLen]
  omega

theorem ColumnFields.slice_eq {c : ColumnDef Bytes} (h : ColumnFields buf off c)
    (hin : off + columnRecLen ≤ buf.length) : slice buf off columnRecLen = columnBytes c := by
  have hle := h.length_le
  rw [columnRecLen] at hin ⊢
  have hsplit : 67 = 1 + c.name.length + (64 - c.name.length) + 1 + 1 := by omega
  have hpad : slice buf (off + 1 + c.name.length) (64 - c.name.length) = zeros (64 - c.name.length) := by
    have hzero := (zeroed_iff _).mp h.padding
    rwa [length_slice (by omega)] at hzero
  rw [hsplit, slice_add, slice_add, slice_add, slice_add, slice_one (by omega), h.name_eq,
    show off + (1 + c.name.length) = off + 1 + c.name.length by omega, hpad,
    show off + (1 + c.name.length + (64 - c.name.length)) = off + 65 by omega, slice_one (by omega),
    show off + (1 + c.name.length + (64 - c.name.length) + 1) = off + 66 by omega, slice_one (by omega), h.type_eq,
    h.flags_eq, columnBytes, ← h.length_eq, UInt8.ofNat_toNat]
  simp only [List.append_assoc]
  rfl

theorem columnFields_of_slice {c : ColumnDef Bytes} (hpos : 0 < c.name.length) (hle : c.name.length ≤ 64)
    (h : slice buf off columnRecLen = columnBytes c) : ColumnFields buf off c := by
  have hlen : (UInt8.ofNat c.name.length).toNat = c.name.length := by
    rw [UInt8.toNat_ofNat']
    omega
  have hbyte : ∀ k < 67, byteAt buf (off + k) = byteAt (columnBytes c) k := by
    intro k hk
    rw [← h, byteAt_slice hk]
  have hslice : ∀ k n, k + n ≤ 67 → slice buf (off + k) n = slice (columnBytes c) k n := by
    intro k n hkn
    rw [← h, slice_slice _ hkn]
  have hbytes : columnBytes c =
      [UInt8.ofNat c.name.length] ++ (c.name ++ (zeros (64 - c.name.length) ++ [typeToByte c.type, flagsOf c])) := by
    simp only [columnBytes, List.append_assoc]
  refine ⟨?_, hpos, hle, ?_, ?_, ?_, ?_⟩
  · rw [← hlen, ← Nat.add_zero off, hbyte 0 (by decide)]
    rfl
  · have hone : [UInt8.ofNat c.name.length].length = 1 := rfl
    rw [hslice 1 _ (by omega), hbytes, slice_append_right hone, List.take_left]
  · rw [Nat.add_assoc, hslice _ _ (by omega), columnBytes, List.append_assoc, slice_append_right (by simp; omega),
      List.take_left' (length_zeros _), zeroed_iff, length_zeros]
  · rw [hbyte 65 (by decide), columnBytes, byteAt_append_right (by simp; omega)]
    have hindex : 65 - ([UInt8.ofNat c.name.length] ++ c.name ++ zeros (64 - c.name.length)).length = 0 := by
      simp
      omega
    rw [hindex]
    rfl
  · rw [hbyte 66 (by decide), columnBytes, byteAt_append_right (by simp; omega)]
    have hindex : 66 - ([UInt8.ofNat c.name.length] ++ c.name ++ zeros (64 - c.name.length)).length = 1 := by
      simp
      omega
    rw [hindex]
    rfl

/-- The fields a decoder reads, where its checks pass. -/
theorem exists_columnFields {type : RelationalType}
    (hlen : ¬ ((byteAt buf off).toNat = 0 ∨ 64 < (byteAt buf off).toNat))
    (hpad : ¬ (slice buf (off + 1 + (byteAt buf off).toNat) (64 - (byteAt buf off).toNat)).any (· ≠ 0) = true)
    (htype : byteAt buf (off + 65) = typeToByte type) (hflags : ¬ byteAt buf (off + 66) &&& 0xf8 ≠ 0)
    (hin : off + columnRecLen ≤ buf.length) :
    ColumnFields buf off ⟨slice buf (off + 1) (byteAt buf off).toNat, type, byteAt buf (off + 66) &&& 0x01 ≠ 0,
      byteAt buf (off + 66) &&& 0x02 ≠ 0, byteAt buf (off + 66) &&& 0x04 ≠ 0, ()⟩ := by
  rw [columnRecLen] at hin
  have hname : (slice buf (off + 1) (byteAt buf off).toNat).length = (byteAt buf off).toNat :=
    length_slice (by omega)
  refine ⟨hname.symm, by rw [hname]; omega, by rw [hname]; omega, by rw [hname], ?_, htype, ?_⟩
  · rw [hname]
    exact eq_false_of_ne_true hpad
  · exact (flags_eq_iff _ _).mp ⟨not_not.mp hflags, rfl, rfl, rfl⟩

theorem ColumnFields.checks {c : ColumnDef Bytes} (h : ColumnFields buf off c) :
    ¬ ((byteAt buf off).toNat = 0 ∨ 64 < (byteAt buf off).toNat) ∧
      ¬ (slice buf (off + 1 + (byteAt buf off).toNat) (64 - (byteAt buf off).toNat)).any (· ≠ 0) = true ∧
      byteToType[(byteAt buf (off + 65)).toNat]? = some c.type ∧ ¬ byteAt buf (off + 66) &&& 0xf8 ≠ 0 ∧
      (⟨slice buf (off + 1) (byteAt buf off).toNat, c.type, byteAt buf (off + 66) &&& 0x01 ≠ 0,
        byteAt buf (off + 66) &&& 0x02 ≠ 0, byteAt buf (off + 66) &&& 0x04 ≠ 0, ()⟩ : ColumnDef Bytes) = c := by
  obtain ⟨hzero, hn, hp, hu⟩ := (flags_eq_iff _ _).mpr h.flags_eq
  have hpos := h.length_pos
  have hle := h.length_le
  rw [h.length_eq, h.name_eq]
  refine ⟨by omega, ?_, (byteToType_eq_some_iff _ _).mpr h.type_eq, not_not.mpr hzero, ?_⟩
  · rw [Bool.not_eq_true]
    exact h.padding
  · rw [← hn, ← hp, ← hu]

/-- The TypeScript decoder accepts a column exactly where its fields are those of one. -/
theorem decodeColumnAt_eq_ok (hin : off + columnRecLen ≤ buf.length) (t : ColumnDef Utf8.Text) :
    decodeColumnAt buf off = .ok t ↔ ∃ c, ColumnFields buf off c ∧ t = c.map Utf8.decode := by
  unfold decodeColumnAt
  simp only [bind, Except.bind, throw, throwThe, MonadExceptOf.throw, pure, Except.pure]
  constructor
  · intro h
    split_ifs at h with hlen hpad hflags
    · cases htype : byteToType[(byteAt buf (off + 65)).toNat]? <;> simp [htype] at h
    · cases htype : byteToType[(byteAt buf (off + 65)).toNat]? with
      | none => simp [htype] at h
      | some type =>
        simp only [htype] at h
        refine ⟨_, exists_columnFields hlen hpad ((byteToType_eq_some_iff _ _).mp htype) hflags hin, ?_⟩
        exact (Except.ok.inj h).symm
  · intro h
    obtain ⟨c, hc, rfl⟩ := h
    obtain ⟨hlen, hpad, htype, hflags, heq⟩ := hc.checks
    rw [if_neg hlen, if_neg hpad]
    simp only [htype]
    rw [if_neg hflags, ← heq]
    rfl

theorem columnFields_unique {c d : ColumnDef Bytes} (hc : ColumnFields buf off c) (hd : ColumnFields buf off d) :
    c = d := by
  have htype : c.type = d.type := by
    have hsame := hc.type_eq.symm.trans hd.type_eq
    rw [← Option.some.injEq, ← (byteToType_eq_some_iff _ _).mpr rfl, hsame, (byteToType_eq_some_iff _ _).mpr rfl]
  rw [← hc.checks.2.2.2.2, ← hd.checks.2.2.2.2, htype]

namespace Persist

theorem enumFromInt_typeToByte (t : RelationalType) : enumFromInt (typeToByte t) = t := by
  rw [enumFromInt, (byteToType_eq_some_iff _ _).mpr rfl, Option.getD_some]

theorem not_lt_timestampMs_iff (b : UInt8) :
    ¬ typeToByte .timestampMs < b ↔ b = typeToByte (enumFromInt b) := by
  constructor
  · intro h
    rw [UInt8.lt_iff_toNat_lt] at h
    have hlt : b.toNat < byteToType.length := Nat.lt_succ_of_le (not_lt.mp h)
    rw [← byteToType_eq_some_iff, enumFromInt, List.getElem?_eq_getElem hlt, Option.getD_some]
  · intro h
    rw [h]
    cases enumFromInt b <;> decide

end Persist

/-- What either decoder checks of the header, and what it reads. -/
structure HeaderFields (buf table : Bytes) (count : ℕ) : Prop where
  magic : leDecode (slice buf 0 4) = catalogRecMagic
  version : leDecode (slice buf 4 2) = catalogRecVersion
  count_eq : leDecode (slice buf 6 2) = count
  count_pos : 0 < count
  count_le : count ≤ 32
  length_le : catalogEncodedLen count ≤ buf.length
  table_length : (byteAt buf 8).toNat = table.length
  table_pos : 0 < table.length
  table_le : table.length ≤ 64
  table_eq : slice buf 9 table.length = table

theorem headerFields_of_checks (hmagic : ¬ leDecode (slice buf 0 4) ≠ catalogRecMagic)
    (hversion : ¬ leDecode (slice buf 4 2) ≠ catalogRecVersion)
    (hcount : ¬ (leDecode (slice buf 6 2) = 0 ∨ 32 < leDecode (slice buf 6 2)))
    (hlen : ¬ buf.length < catalogEncodedLen (leDecode (slice buf 6 2)))
    (htable : ¬ ((byteAt buf 8).toNat = 0 ∨ 64 < (byteAt buf 8).toNat)) :
    HeaderFields buf (slice buf 9 (byteAt buf 8).toNat) (leDecode (slice buf 6 2)) := by
  have hsize : catalogEncodedLen (leDecode (slice buf 6 2)) = 73 + leDecode (slice buf 6 2) * 67 := rfl
  have hname : (slice buf 9 (byteAt buf 8).toNat).length = (byteAt buf 8).toNat := length_slice (by omega)
  exact ⟨not_not.mp hmagic, not_not.mp hversion, rfl, by omega, by omega, by omega, hname.symm, by omega, by omega,
    by rw [hname]⟩

theorem HeaderFields.checks {table : Bytes} {count : ℕ} (h : HeaderFields buf table count) :
    ¬ buf.length < headerLen + tableFieldLen ∧ ¬ (count = 0 ∨ 32 < count) ∧ ¬ buf.length < catalogEncodedLen count ∧
      ¬ (table.length = 0 ∨ 64 < table.length) := by
  have hsize : catalogEncodedLen count = 73 + count * 67 := rfl
  have hlen := h.length_le
  have hpos := h.count_pos
  have hle := h.count_le
  have htpos := h.table_pos
  have htle := h.table_le
  refine ⟨?_, by omega, by omega, by omega⟩
  rw [headerLen, tableFieldLen]
  omega

theorem Persist.decodeHeader_eq_ok (table : Bytes) (count : ℕ) :
    Persist.decodeHeader buf = .ok ⟨table, count⟩ ↔ HeaderFields buf table count := by
  unfold Persist.decodeHeader
  simp only [bind, Except.bind, throw, throwThe, MonadExceptOf.throw, pure, Except.pure, maxColumns, maxTableName]
  constructor
  · intro h
    split_ifs at h with hshort hmagic hversion hcount hlen htable
    obtain ⟨rfl, rfl⟩ := Persist.Decoded.mk.inj (Except.ok.inj h)
    exact headerFields_of_checks hmagic hversion hcount hlen htable
  · intro h
    obtain ⟨hshort, hcount, hlen, htable⟩ := h.checks
    rw [if_neg hshort, if_neg (not_not.mpr h.magic), if_neg (not_not.mpr h.version), h.count_eq, if_neg hcount,
      if_neg hlen, h.table_length, h.table_eq, if_neg htable]

/-- The two decoders make the same checks of the header. -/
theorem decodeCatalogRecord_eq_ok (d : Catalog Utf8.Text) :
    decodeCatalogRecord buf = .ok d ↔ ∃ table count, HeaderFields buf table count ∧ d.table = Utf8.decode table ∧
      decodeColumns buf count (headerLen + tableFieldLen) = .ok d.columns := by
  unfold decodeCatalogRecord
  simp only [bind, Except.bind, throw, throwThe, MonadExceptOf.throw, pure, Except.pure]
  constructor
  · intro h
    split_ifs at h with hshort hmagic hversion hcount hlen htable
    cases hcolumns : decodeColumns buf (leDecode (slice buf 6 2)) (headerLen + tableFieldLen) with
    | error e => simp [hcolumns] at h
    | ok columns =>
      simp only [hcolumns] at h
      obtain rfl := Except.ok.inj h
      exact ⟨_, _, headerFields_of_checks hmagic hversion hcount hlen htable, rfl, hcolumns⟩
  · intro h
    obtain ⟨table, count, hfields, htext, hcolumns⟩ := h
    obtain ⟨hshort, hcount, hlen, htable⟩ := hfields.checks
    rw [if_neg hshort, if_neg (not_not.mpr hfields.magic), if_neg (not_not.mpr hfields.version), hfields.count_eq,
      if_neg hcount, if_neg hlen, hfields.table_length, hfields.table_eq, if_neg htable]
    simp only [hcolumns, ← htext]

theorem Persist.decodeColumn_eq_ok (i : ℕ) (c : ColumnDef Bytes) :
    Persist.decodeColumn buf i = .ok c ↔ ∃ table count, HeaderFields buf table count ∧ i < count ∧
      ColumnFields buf (headerLen + tableFieldLen + i * columnRecLen) c := by
  unfold Persist.decodeColumn
  simp only [bind, Except.bind, throw, throwThe, MonadExceptOf.throw, pure, Except.pure]
  constructor
  · intro h
    cases hheader : Persist.decodeHeader buf with
    | error e => simp [hheader] at h
    | ok d =>
      obtain ⟨table, count⟩ := d
      have hfields := (Persist.decodeHeader_eq_ok table count).mp hheader
      have hsize : catalogEncodedLen count = 73 + count * 67 := rfl
      have hlong := hfields.length_le
      simp only [hheader] at h
      split_ifs at h with hcount hlen hpad htype hflags
      have hin : headerLen + tableFieldLen + i * columnRecLen + columnRecLen ≤ buf.length := by
        rw [headerLen, tableFieldLen, columnRecLen]
        omega
      have hcolumn := exists_columnFields hlen hpad ((Persist.not_lt_timestampMs_iff _).mp htype) hflags hin
      rw [Except.ok.inj h] at hcolumn
      exact ⟨table, count, hfields, not_le.mp hcount, hcolumn⟩
  · intro h
    obtain ⟨table, count, hfields, hi, hcolumn⟩ := h
    obtain ⟨hlen, hpad, -, hflags, heq⟩ := hcolumn.checks
    have htype : ¬ typeToByte .timestampMs < byteAt buf (headerLen + tableFieldLen + i * columnRecLen + 65) := by
      rw [Persist.not_lt_timestampMs_iff, hcolumn.type_eq, Persist.enumFromInt_typeToByte]
    simp only [(Persist.decodeHeader_eq_ok table count).mpr hfields]
    rw [if_neg (not_le.mpr hi), if_neg hlen, if_neg hpad, if_neg htype, if_neg hflags, hcolumn.type_eq,
      Persist.enumFromInt_typeToByte, heq]

end TakyonDb.CatalogRecord
