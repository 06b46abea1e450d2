import TakyonDb.CatalogBytes

namespace TakyonDb.CatalogRecord

open Lib

variable {buf : Bytes} {off : ℕ}

theorem decodeColumns_eq_ok {n : ℕ} (hin : off + n * columnRecLen ≤ buf.length) (cs : List (ColumnDef Utf8.Text)) :
    decodeColumns buf n off = .ok cs ↔ ∃ raws : List (ColumnDef Bytes), raws.length = n ∧
      (∀ i c, raws[i]? = some c → ColumnFields buf (off + i * columnRecLen) c) ∧
      cs = raws.map (ColumnDef.map Utf8.decode) := by
  induction n generalizing off cs with
  | zero =>
    constructor
    · intro h
      obtain rfl := Except.ok.inj h
      exact ⟨[], rfl, fun i c hc ↦ absurd hc nofun, rfl⟩
    · intro h
      obtain ⟨raws, hlen, -, rfl⟩ := h
      obtain rfl := List.length_eq_zero_iff.mp hlen
      rfl
  | succ n ih =>
    have hnext : off + columnRecLen + n * columnRecLen ≤ buf.length := by
      rw [Nat.succ_mul] at hin
      omega
    have hhere : off + columnRecLen ≤ buf.length := by omega
    have hstep : ∀ i, off + columnRecLen + i * columnRecLen = off + (i + 1) * columnRecLen := by
      intro i
      rw [Nat.succ_mul]
      omega
    simp only [decodeColumns, bind, Except.bind, pure, Except.pure]
    constructor
    · intro h
      cases hc : decodeColumnAt buf off with
      | error e => simp [hc] at h
      | ok t =>
        cases hrest : decodeColumns buf n (off + columnRecLen) with
        | error e => simp [hc, hrest] at h
        | ok ts =>
          simp only [hc, hrest] at h
          obtain rfl := Except.ok.inj h
          obtain ⟨c, hfields, rfl⟩ := (decodeColumnAt_eq_ok hhere t).mp hc
          obtain ⟨raws, hlen, hraws, rfl⟩ := (ih hnext ts).mp hrest
          refine ⟨c :: raws, congrArg (· + 1) hlen, fun i d hd ↦ ?_, rfl⟩
          cases i with
          | zero =>
            obtain rfl := Option.some.inj hd
            rwa [Nat.zero_mul, Nat.add_zero]
          | succ i => exact hstep i ▸ hraws i d hd
    · intro h
      obtain ⟨raws, hlen, hraws, rfl⟩ := h
      cases raws with
      | nil => exact absurd hlen nofun
      | cons c raws =>
        have hfirst : ColumnFields buf off c := by
          have hzero := hraws 0 c rfl
          rwa [Nat.zero_mul, Nat.add_zero] at hzero
        have hrest := (ih hnext _).mpr ⟨raws, Nat.succ.inj hlen, fun i d hd ↦ hstep i ▸ hraws (i + 1) d hd, rfl⟩
        simp only [(decodeColumnAt_eq_ok hhere _).mpr ⟨c, hfirst, rfl⟩, hrest, List.map_cons]

/-- The fields of a whole record, as both decoders read them. -/
structure Fields (buf : Bytes) (d : Catalog Bytes) : Prop where
  header : HeaderFields buf d.table d.columns.length
  columns : ∀ i c, d.columns[i]? = some c →
    ColumnFields buf (headerLen + tableFieldLen + i * columnRecLen) c

theorem decodeCatalogRecord_iff (t : Catalog Utf8.Text) :
    decodeCatalogRecord buf = .ok t ↔ ∃ d, Fields buf d ∧ t = d.map Utf8.decode := by
  rw [decodeCatalogRecord_eq_ok]
  constructor
  · intro h
    obtain ⟨table, count, hheader, htable, hcolumns⟩ := h
    obtain ⟨raws, rfl, hraws, hmap⟩ := (decodeColumns_eq_ok hheader.length_le _).mp hcolumns
    refine ⟨⟨table, raws⟩, ⟨hheader, hraws⟩, ?_⟩
    rw [Catalog.map, ← htable, ← hmap]
  · intro h
    obtain ⟨d, hfields, rfl⟩ := h
    exact ⟨d.table, d.columns.length, hfields.header, rfl,
      (decodeColumns_eq_ok hfields.header.length_le _).mpr ⟨d.columns, rfl, hfields.columns, rfl⟩⟩

theorem Fields.unique {d e : Catalog Bytes} (hd : Fields buf d) (he : Fields buf e) : d = e := by
  have hlen : d.columns.length = e.columns.length := hd.header.count_eq.symm.trans he.header.count_eq
  obtain ⟨table, columns⟩ := d
  obtain ⟨table', columns'⟩ := e
  have htable : table = table' := by
    have hleft : slice buf 9 (byteAt buf 8).toNat = table := hd.header.table_length ▸ hd.header.table_eq
    have hright : slice buf 9 (byteAt buf 8).toNat = table' := he.header.table_length ▸ he.header.table_eq
    exact hleft.symm.trans hright
  have hcolumns : columns = columns' := by
    apply List.ext_getElem hlen
    intro i hi hi'
    exact columnFields_unique (hd.columns i _ (List.getElem?_eq_getElem hi))
      (he.columns i _ (List.getElem?_eq_getElem hi'))
  rw [htable, hcolumns]

/-- The Zig decoders accept the header and the column at every index, as the descriptor. -/
structure Persist.Accepts (buf : Bytes) (d : Catalog Bytes) : Prop where
  header : Persist.decodeHeader buf = .ok ⟨d.table, d.columns.length⟩
  columns : ∀ i c, d.columns[i]? = some c → Persist.decodeColumn buf i = .ok c

theorem Persist.accepts_iff (d : Catalog Bytes) : Persist.Accepts buf d ↔ Fields buf d := by
  constructor
  · intro h
    refine ⟨(Persist.decodeHeader_eq_ok _ _).mp h.header, fun i c hc ↦ ?_⟩
    obtain ⟨_, _, -, -, hfields⟩ := (Persist.decodeColumn_eq_ok i c).mp (h.columns i c hc)
    exact hfields
  · intro h
    refine ⟨(Persist.decodeHeader_eq_ok _ _).mpr h.header, fun i c hc ↦ ?_⟩
    exact (Persist.decodeColumn_eq_ok i c).mpr
      ⟨_, _, h.header, (List.getElem?_eq_some_iff.mp hc).1, h.columns i c hc⟩

/-- A name that fits its field. -/
def FitsField (name : Bytes) : Prop := 0 < name.length ∧ name.length ≤ 64

instance (name : Bytes) : Decidable (FitsField name) := inferInstanceAs (Decidable (_ ∧ _))

/-- The descriptors a record can hold. -/
structure Valid (d : Catalog Bytes) : Prop where
  table : FitsField d.table
  count_pos : 0 < d.columns.length
  count_le : d.columns.length ≤ 32
  columns : ∀ c ∈ d.columns, FitsField c.name

def headerBytes (count : ℕ) : Bytes := leEncode 4 catalogRecMagic ++ leEncode 2 catalogRecVersion ++ leEncode 2 count

def tableBytes (table : Bytes) : Bytes := [UInt8.ofNat table.length] ++ table ++ zeros (64 - table.length)

def recordBytes (d : Catalog Bytes) : Bytes :=
  headerBytes d.columns.length ++ tableBytes d.table ++ d.columns.flatMap columnBytes

theorem length_headerBytes (count : ℕ) : (headerBytes count).length = headerLen := by
  simp [headerBytes]

theorem length_tableBytes {table : Bytes} (h : table.length ≤ 64) : (tableBytes table).length = tableFieldLen := by
  simp only [tableBytes, List.length_append, length_zeros, List.length_cons, List.length_nil, tableFieldLen]
  omega

theorem length_flatMap_columnBytes {cs : List (ColumnDef Bytes)} (h : ∀ c ∈ cs, FitsField c.name) :
    (cs.flatMap columnBytes).length = cs.length * columnRecLen := by
  induction cs with
  | nil => rfl
  | cons c cs ih =>
    obtain ⟨hc, hcs⟩ := List.forall_mem_cons.mp h
    rw [List.flatMap_cons, List.length_append, length_columnBytes hc.2, ih hcs, List.length_cons, Nat.succ_mul,
      Nat.add_comm]

theorem length_recordBytes {d : Catalog Bytes} (h : Valid d) :
    (recordBytes d).length = catalogEncodedLen d.columns.length := by
  rw [recordBytes, List.length_append, List.length_append, length_headerBytes, length_tableBytes h.table.2,
    length_flatMap_columnBytes h.columns, catalogEncodedLen]

/-- The column number `i` of a run of columns behind a prefix. -/
theorem slice_flatMap_columnBytes (pre : Bytes) {cs : List (ColumnDef Bytes)} {i : ℕ} {c : ColumnDef Bytes}
    (h : ∀ c ∈ cs, FitsField c.name) (hc : cs[i]? = some c) :
    slice (pre ++ cs.flatMap columnBytes) (pre.length + i * columnRecLen) columnRecLen = columnBytes c := by
  induction cs generalizing pre i with
  | nil => exact absurd hc nofun
  | cons d cs ih =>
    obtain ⟨hd, hcs⟩ := List.forall_mem_cons.mp h
    cases i with
    | zero =>
      obtain rfl := Option.some.inj hc
      rw [Nat.zero_mul, Nat.add_zero, slice_append_right rfl, List.flatMap_cons,
        List.take_left' (length_columnBytes hd.2)]
    | succ i =>
      have hrest := ih (pre ++ columnBytes d) hcs hc
      rw [List.length_append, length_columnBytes hd.2] at hrest
      rw [List.flatMap_cons, ← List.append_assoc, Nat.succ_mul, Nat.add_comm (i * columnRecLen), ← Nat.add_assoc]
      exact hrest

theorem headerBytes_fields (count : ℕ) :
    slice (headerBytes count) 0 4 = leEncode 4 catalogRecMagic ∧
      slice (headerBytes count) 4 2 = leEncode 2 catalogRecVersion ∧
      slice (headerBytes count) 6 2 = leEncode 2 count := by
  refine ⟨?_, ?_, ?_⟩
  · rw [headerBytes, List.append_assoc, slice_append_left (by simp), slice, List.drop_zero,
      List.take_of_length_le (by simp)]
  · rw [headerBytes, slice_append_left (by simp), slice_append_right (by simp), List.take_of_length_le (by simp)]
  · rw [headerBytes, slice_append_right (by simp), List.take_of_length_le (by simp)]

theorem fields_recordBytes {d : Catalog Bytes} (h : Valid d) : Fields (recordBytes d) d := by
  have hlen := length_recordBytes h
  have hhead : ∀ k n, k + n ≤ 8 → slice (recordBytes d) k n = slice (headerBytes d.columns.length) k n := by
    intro k n hkn
    rw [recordBytes, List.append_assoc, slice_append_left (by rw [length_headerBytes]; exact hkn)]
  have hpos := h.table.1
  have hle := h.table.2
  have hcount := h.count_le
  have hbody : recordBytes d = headerBytes d.columns.length ++ ([UInt8.ofNat d.table.length] ++
      (d.table ++ (zeros (64 - d.table.length) ++ d.columns.flatMap columnBytes))) := by
    simp only [recordBytes, tableBytes, List.append_assoc]
  constructor
  · refine ⟨?_, ?_, ?_, h.count_pos, h.count_le, hlen.ge, ?_, hpos, hle, ?_⟩
    · rw [hhead 0 4 (by decide), (headerBytes_fields d.columns.length).1]
      exact leDecode_leEncode_of_lt (by decide)
    · rw [hhead 4 2 (by decide), (headerBytes_fields d.columns.length).2.1]
      exact leDecode_leEncode_of_lt (by decide)
    · rw [hhead 6 2 (by decide), (headerBytes_fields d.columns.length).2.2]
      exact leDecode_leEncode_of_lt (by omega)
    · rw [hbody, byteAt_append_right (length_headerBytes _).le, length_headerBytes]
      change (UInt8.ofNat d.table.length).toNat = _
      rw [UInt8.toNat_ofNat']
      omega
    · have hnine : (headerBytes d.columns.length ++ [UInt8.ofNat d.table.length]).length = 9 := by
        rw [List.length_append, length_headerBytes]
        rfl
      rw [hbody, ← List.append_assoc, slice_append_right hnine, List.take_left]
  · intro i c hc
    obtain ⟨hcpos, hcle⟩ := h.columns c (List.mem_of_getElem? hc)
    refine columnFields_of_slice hcpos hcle ?_
    have hslice := slice_flatMap_columnBytes (headerBytes d.columns.length ++ tableBytes d.table) h.columns hc
    rwa [List.length_append, length_headerBytes, length_tableBytes hle] at hslice

theorem Persist.encodeColumns_eq (pre rest : Bytes) {cs : List (ColumnDef Bytes)} (h : ∀ c ∈ cs, FitsField c.name) :
    Persist.encodeColumns (pre ++ rest) pre.length cs =
      .ok (pre ++ cs.flatMap columnBytes ++ rest.drop (cs.length * columnRecLen)) := by
  induction cs generalizing pre rest with
  | nil => simp [Persist.encodeColumns]
  | cons c cs ih =>
    obtain ⟨⟨hpos, hle⟩, hcs⟩ := List.forall_mem_cons.mp h
    have hlen := length_columnBytes hle
    have hcheck : ¬ (c.name.length = 0 ∨ maxTableName < c.name.length) := by
      rw [maxTableName]
      omega
    have hcolumn : overwrite (overwrite (overwrite (overwrite (overwrite (pre ++ rest) pre.length
        [UInt8.ofNat c.name.length]) (pre.length + 1) c.name) (pre.length + 1 + c.name.length)
        (zeros (maxTableName - c.name.length))) (pre.length + 65) [typeToByte c.type]) (pre.length + 66) [flagsOf c] =
        (pre ++ columnBytes c) ++ rest.drop columnRecLen := by
      have hmax : maxTableName = 64 := rfl
      have hrec : columnRecLen = 67 := rfl
      rw [overwrite_append_at pre _ _ rfl, overwrite_append_at _ _ _ (by simp),
        overwrite_append_at _ _ _ (by simp; omega),
        overwrite_append_at _ _ _ (by simp; omega), overwrite_append_at _ _ _ (by simp; omega), columnBytes, hmax]
      simp only [List.drop_drop, List.length_cons, List.length_nil, length_zeros, List.append_assoc, List.cons_append,
        List.nil_append]
      congr 7
      omega
    simp only [Persist.encodeColumns, bind, Except.bind, throw, throwThe, MonadExceptOf.throw]
    rw [if_neg hcheck]
    simp only [hcolumn]
    have hrest := ih (pre ++ columnBytes c) (rest.drop columnRecLen) hcs
    rw [List.length_append, hlen] at hrest
    rw [hrest, List.flatMap_cons, List.length_cons, Nat.succ_mul, List.drop_drop]
    simp only [List.append_assoc, Nat.add_comm]

/-- The Zig encoder writes the record into any buffer that holds it. -/
theorem Persist.encode_eq {out : Bytes} {d : Catalog Bytes} (h : Valid d)
    (hroom : catalogEncodedLen d.columns.length ≤ out.length) :
    Persist.encode out d.table d.columns =
      .ok (recordBytes d ++ out.drop (catalogEncodedLen d.columns.length), catalogEncodedLen d.columns.length) := by
  have hpos := h.table.1
  have hle := h.table.2
  have hcount := h.count_pos
  have hcount' := h.count_le
  have htable : ¬ (d.table.length = 0 ∨ maxTableName < d.table.length) := by
    rw [maxTableName]
    omega
  have hcolumns : ¬ (d.columns.length = 0 ∨ maxColumns < d.columns.length) := by
    rw [maxColumns]
    omega
  have hfront : overwrite (overwrite (overwrite (overwrite (overwrite (overwrite out 0 (leEncode 4 catalogRecMagic)) 4
      (leEncode 2 catalogRecVersion)) 6 (leEncode 2 d.columns.length)) 8 [UInt8.ofNat d.table.length]) 9 d.table)
      (9 + d.table.length) (zeros (maxTableName - d.table.length)) =
      (headerBytes d.columns.length ++ tableBytes d.table) ++ out.drop (headerLen + tableFieldLen) := by
    have hmax : maxTableName = 64 := rfl
    have hwidth : headerLen + tableFieldLen = 73 := rfl
    have hfirst := overwrite_append_at [] out (leEncode 4 catalogRecMagic) (rfl : 0 = _)
    rw [List.nil_append, List.nil_append] at hfirst
    rw [hfirst, overwrite_append_at _ _ _ (by simp), overwrite_append_at _ _ _ (by simp),
      overwrite_append_at _ _ _ (by simp), overwrite_append_at _ _ _ (by simp),
        overwrite_append_at _ _ _ (by simp; omega),
      headerBytes, tableBytes, hmax, hwidth]
    simp only [List.drop_drop, length_leEncode, List.length_cons, List.length_nil, length_zeros, List.append_assoc,
      List.cons_append, List.nil_append]
    congr 7
    omega
  have hlen : (headerBytes d.columns.length ++ tableBytes d.table).length = headerLen + tableFieldLen := by
    rw [List.length_append, length_headerBytes, length_tableBytes hle]
  have hrest := Persist.encodeColumns_eq (headerBytes d.columns.length ++ tableBytes d.table)
    (out.drop (headerLen + tableFieldLen)) h.columns
  rw [hlen] at hrest
  simp only [Persist.encode, bind, Except.bind, throw, throwThe, MonadExceptOf.throw, pure, Except.pure]
  rw [if_neg htable, if_neg hcolumns, if_neg (not_lt.mpr hroom)]
  simp only [hfront, hrest, recordBytes, List.drop_drop, catalogEncodedLen]

theorem setBytes_eq {out src : Bytes} (h : off + src.length ≤ out.length) :
    setBytes out src off = .ok (overwrite out off src) :=
  if_neg (not_lt.mpr h)

/-- One column of the TypeScript encoder, into the zeros it allocated. -/
theorem overwrite_column (pre : Bytes) {c : ColumnDef Bytes} {m : ℕ} (h : FitsField c.name) (hroom : columnRecLen ≤ m) :
    overwrite (overwrite (overwrite (overwrite (pre ++ zeros m) pre.length [UInt8.ofNat c.name.length]) (pre.length + 1)
      c.name) (pre.length + 65) [typeToByte c.type]) (pre.length + 66) [flagsOf c] =
        (pre ++ columnBytes c) ++ zeros (m - columnRecLen) := by
  have hrec : columnRecLen = 67 := rfl
  obtain ⟨hpos, hle⟩ := h
  have hsplit : m - 1 - c.name.length = (64 - c.name.length) + (m - 65) := by omega
  rw [overwrite_append_at pre _ _ rfl, overwrite_append_at _ _ _ (by simp)]
  simp only [drop_zeros, List.length_cons, List.length_nil, Nat.zero_add]
  rw [hsplit, zeros_add, ← List.append_assoc, overwrite_append_at _ _ _ (by simp; omega),
    overwrite_append_at _ _ _ (by simp; omega), columnBytes, drop_zeros, drop_zeros]
  simp only [List.append_assoc, List.cons_append, List.nil_append, List.length_cons, List.length_nil]
  congr 7

theorem encodeColumns_eq_ok (pre : Bytes) (cs : List (ColumnDef Utf8.Text)) (b : Bytes) :
    encodeColumns (pre ++ zeros (cs.length * columnRecLen)) pre.length cs = .ok b ↔
      (∀ c ∈ cs.map (ColumnDef.map Utf8.encode), FitsField c.name) ∧
        b = pre ++ (cs.map (ColumnDef.map Utf8.encode)).flatMap columnBytes := by
  induction cs generalizing pre with
  | nil =>
    simp only [encodeColumns, List.length_nil, Nat.zero_mul, List.map_nil, List.flatMap_nil, List.append_nil]
    constructor
    · intro h
      exact ⟨fun c hc ↦ absurd hc List.not_mem_nil, (Except.ok.inj h).symm.trans (List.append_nil _)⟩
    · intro h
      rw [h.2]
      exact congrArg _ (List.append_nil _)
  | cons c cs ih =>
    have hrec : columnRecLen = 67 := rfl
    have hlen : (pre ++ zeros ((cs.length + 1) * columnRecLen)).length = pre.length + (cs.length + 1) * 67 := by
      rw [List.length_append, length_zeros, hrec]
    simp only [encodeColumns, bind, Except.bind, throw, throwThe, MonadExceptOf.throw, List.map_cons,
      List.forall_mem_cons, List.flatMap_cons, List.length_cons]
    by_cases hfits : FitsField (Utf8.encode c.name)
    · obtain ⟨hpos, hle⟩ := hfits
      have hset : pre.length + 1 + (Utf8.encode c.name).length ≤ (overwrite (pre ++ zeros ((cs.length + 1) * columnRecLen))
          pre.length [UInt8.ofNat (Utf8.encode c.name).length]).length := by
        rw [length_overwrite (by rw [hlen]; simp; omega), hlen]
        omega
      have hnext := ih (pre ++ columnBytes (c.map Utf8.encode))
      rw [List.length_append, length_columnBytes hle] at hnext
      have hcolumn := overwrite_column pre (c := c.map Utf8.encode) (m := (cs.length + 1) * columnRecLen) ⟨hpos, hle⟩
        (by rw [hrec]; omega)
      rw [Nat.succ_mul, Nat.add_sub_cancel] at hcolumn
      rw [if_neg (by omega), setBytes_eq hset, Nat.succ_mul]
      change encodeColumns (overwrite (overwrite (overwrite (overwrite _ pre.length [UInt8.ofNat
        (c.map Utf8.encode).name.length]) (pre.length + 1) (c.map Utf8.encode).name) (pre.length + 65)
        [typeToByte (c.map Utf8.encode).type]) (pre.length + 66) [flagsOf (c.map Utf8.encode)])
        (pre.length + columnRecLen) cs = .ok b ↔ _
      rw [hcolumn, hnext, List.append_assoc]
      constructor
      · intro h
        exact ⟨⟨⟨hpos, hle⟩, h.1⟩, h.2⟩
      · intro h
        exact ⟨h.1.2, h.2⟩
    · have hbad : (Utf8.encode c.name).length = 0 ∨ 64 < (Utf8.encode c.name).length := by
        by_contra hgood
        exact hfits ⟨by omega, by omega⟩
      rw [if_pos hbad]
      exact iff_of_false nofun fun h ↦ hfits h.1.1

/-- The columns are written behind what the encoder has before them. -/
theorem encodeColumns_take {out b : Bytes} {cs : List (ColumnDef Utf8.Text)} (h : encodeColumns out off cs = .ok b)
    (hin : off + cs.length * columnRecLen ≤ out.length) {n : ℕ} (hn : n ≤ off) : b.take n = out.take n := by
  induction cs generalizing out off with
  | nil =>
    obtain rfl := Except.ok.inj h
    rfl
  | cons c cs ih =>
    have hrec : columnRecLen = 67 := rfl
    rw [List.length_cons, Nat.succ_mul] at hin
    simp only [encodeColumns, bind, Except.bind, throw, throwThe, MonadExceptOf.throw] at h
    split_ifs at h with hname
    have hone : (overwrite out off [UInt8.ofNat (Utf8.encode c.name).length]).length = out.length :=
      length_overwrite (by simp; omega)
    have htwo : (overwrite (overwrite out off [UInt8.ofNat (Utf8.encode c.name).length]) (off + 1)
        (Utf8.encode c.name)).length = out.length := by
      rw [length_overwrite (by rw [hone]; omega), hone]
    have hthree : (overwrite (overwrite (overwrite out off [UInt8.ofNat (Utf8.encode c.name).length]) (off + 1)
        (Utf8.encode c.name)) (off + 65) [typeToByte c.type]).length = out.length := by
      rw [length_overwrite (by rw [htwo]; simp; omega), htwo]
    have hfour : (overwrite (overwrite (overwrite (overwrite out off [UInt8.ofNat (Utf8.encode c.name).length]) (off + 1)
        (Utf8.encode c.name)) (off + 65) [typeToByte c.type]) (off + 66) [flagsOf c]).length = out.length := by
      rw [length_overwrite (by rw [hthree]; simp; omega), hthree]
    rw [setBytes_eq (by rw [hone]; omega)] at h
    rw [ih h (by rw [hfour]; omega) (by omega), take_overwrite (by omega) (by omega),
      take_overwrite (by omega) (by omega),
      take_overwrite (by omega) (by omega), take_overwrite hn (by omega)]

/-- The header and the table name of the TypeScript encoder, before its columns. -/
def frontBytes (table : Bytes) (count : ℕ) : Bytes :=
  headerBytes count ++ ([UInt8.ofNat table.length] ++ table ++ zeros (catalogEncodedLen count - 9 - table.length))

theorem overwrite_header (count : ℕ) (len : UInt8) :
    overwrite (overwrite (overwrite (overwrite (zeros (catalogEncodedLen count)) 0 (leEncode 4 catalogRecMagic)) 4
      (leEncode 2 catalogRecVersion)) 6 (leEncode 2 count)) 8 [len] =
        headerBytes count ++ [len] ++ zeros (catalogEncodedLen count - 9) := by
  have hfirst := overwrite_append_at [] (zeros (catalogEncodedLen count)) (leEncode 4 catalogRecMagic) (rfl : 0 = _)
  have hsum : catalogEncodedLen count - 4 - 2 - 2 - (0 + 1) = catalogEncodedLen count - 9 := by omega
  rw [List.nil_append, List.nil_append] at hfirst
  rw [hfirst, overwrite_append_at _ _ _ (by simp), overwrite_append_at _ _ _ (by simp),
    overwrite_append_at _ _ _ (by simp)]
  simp only [drop_zeros, length_leEncode, List.length_cons, List.length_nil, headerBytes, hsum]

theorem overwrite_front (table : Bytes) (count : ℕ) :
    setBytes (overwrite (overwrite (overwrite (overwrite (zeros (catalogEncodedLen count)) 0 (leEncode 4 catalogRecMagic))
      4 (leEncode 2 catalogRecVersion)) 6 (leEncode 2 count)) 8 [UInt8.ofNat table.length]) table 9 =
        if catalogEncodedLen count < 9 + table.length then .error .outOfBounds else .ok (frontBytes table count) := by
  have hsize : catalogEncodedLen count = 73 + count * 67 := rfl
  have hnine : (headerBytes count ++ [UInt8.ofNat table.length]).length = 9 := by
    rw [List.length_append, length_headerBytes]
    rfl
  have hlen : (headerBytes count ++ [UInt8.ofNat table.length] ++ zeros (catalogEncodedLen count - 9)).length =
      catalogEncodedLen count := by
    rw [List.length_append, hnine, length_zeros]
    omega
  rw [overwrite_header, setBytes, hlen, overwrite_append_at _ _ _ hnine.symm, drop_zeros]
  simp only [frontBytes, List.append_assoc]

theorem encodeCatalogRecord_unfold (table : Utf8.Text) (columns : List (ColumnDef Utf8.Text)) :
    encodeCatalogRecord table columns =
      if table.length = 0 ∨ 64 < Utf8.utf16Length table then .error .tableName
      else if columns.length = 0 ∨ 32 < columns.length then .error .columnCount
      else if catalogEncodedLen columns.length < 9 + (Utf8.encode table).length then .error .outOfBounds
      else encodeColumns (frontBytes (Utf8.encode table) columns.length) (headerLen + tableFieldLen) columns := by
  simp only [encodeCatalogRecord, bind, Except.bind, throw, throwThe, MonadExceptOf.throw]
  by_cases htable : table.length = 0 ∨ 64 < Utf8.utf16Length table
  · rw [if_pos htable, if_pos htable]
  rw [if_neg htable, if_neg htable]
  by_cases hcolumns : columns.length = 0 ∨ 32 < columns.length
  · rw [if_pos hcolumns, if_pos hcolumns]
  rw [if_neg hcolumns, if_neg hcolumns]
  rw [overwrite_front]
  by_cases hfit : catalogEncodedLen columns.length < 9 + (Utf8.encode table).length
  · rw [if_pos hfit, if_pos hfit]
  · rw [if_neg hfit, if_neg hfit]

/-- A table name that fits its field is encoded to the bytes of the record. -/
theorem encodeCatalogRecord_eq_ok {table : Utf8.Text} {columns : List (ColumnDef Utf8.Text)} {b : Bytes}
    (hle : (Utf8.encode table).length ≤ 64) :
    encodeCatalogRecord table columns = .ok b ↔
      Valid ((⟨table, columns⟩ : Catalog Utf8.Text).map Utf8.encode) ∧
        b = recordBytes ((⟨table, columns⟩ : Catalog Utf8.Text).map Utf8.encode) := by
  have hpos := @Utf8.length_encode_pos table
  have hunits := (Utf8.utf16Length_le table).trans hle
  rw [encodeCatalogRecord_unfold]
  split_ifs with htable hcolumns hfit
  · refine iff_of_false nofun fun h ↦ ?_
    have hname := h.1.table.1
    have hempty : table = [] := List.length_eq_zero_iff.mp (htable.resolve_right (by omega))
    exact hpos.mp hname hempty
  · refine iff_of_false nofun fun h ↦ ?_
    have hcount := h.1.count_pos
    have hcount' := h.1.count_le
    simp only [Catalog.map, List.length_map] at hcount hcount'
    omega
  · have hsize : catalogEncodedLen columns.length = 73 + columns.length * 67 := rfl
    omega
  · have hfront : frontBytes (Utf8.encode table) columns.length =
        (headerBytes columns.length ++ tableBytes (Utf8.encode table)) ++ zeros (columns.length * columnRecLen) := by
      have hsize : catalogEncodedLen columns.length = 73 + columns.length * columnRecLen := rfl
      have hsum : catalogEncodedLen columns.length - 9 - (Utf8.encode table).length =
          (64 - (Utf8.encode table).length) + columns.length * columnRecLen := by omega
      rw [frontBytes, tableBytes, hsum, zeros_add]
      simp only [List.append_assoc]
    have hlen : (headerBytes columns.length ++ tableBytes (Utf8.encode table)).length = headerLen + tableFieldLen := by
      rw [List.length_append, length_headerBytes, length_tableBytes hle]
    rw [hfront, ← hlen, encodeColumns_eq_ok]
    simp only [recordBytes, Catalog.map, List.length_map]
    have hname : 0 < (Utf8.encode table).length := by
      rw [hpos]
      exact fun hempty ↦ htable (.inl (List.length_eq_zero_iff.mpr hempty))
    constructor
    · intro h
      refine ⟨⟨⟨hname, hle⟩, ?_, ?_, h.1⟩, h.2⟩
      · rw [List.length_map]
        omega
      · rw [List.length_map]
        omega
    · intro h
      exact ⟨h.1.columns, h.2⟩

/-- A table name that overruns its field leaves its length behind. -/
theorem encodeCatalogRecord_long {table : Utf8.Text} {columns : List (ColumnDef Utf8.Text)} {b : Bytes}
    (hlong : 64 < (Utf8.encode table).length) (h : encodeCatalogRecord table columns = .ok b) :
    64 < (byteAt b 8).toNat := by
  have hsize : catalogEncodedLen columns.length = 73 + columns.length * columnRecLen := rfl
  rw [encodeCatalogRecord_unfold] at h
  split_ifs at h with htable hcolumns hfit
  have hbytes := Utf8.length_encode_le table
  have hlen : (frontBytes (Utf8.encode table) columns.length).length = catalogEncodedLen columns.length := by
    simp only [frontBytes, List.length_append, length_headerBytes, length_zeros, List.length_cons, List.length_nil,
      headerLen]
    omega
  have htake := encodeColumns_take h (by rw [hlen]; exact hsize.ge) (show 9 ≤ headerLen + tableFieldLen by decide)
  have hbyte : byteAt b 8 = byteAt (frontBytes (Utf8.encode table) columns.length) 8 := by
    have hfirst : ∀ bs : Bytes, byteAt bs 8 = byteAt (bs.take 9) 8 := fun bs ↦
      (@byteAt_slice bs 0 9 8 (by decide)).symm
    rw [hfirst, htake, ← hfirst]
  rw [hbyte, frontBytes, byteAt_append_right (length_headerBytes _).le, length_headerBytes]
  change 64 < (UInt8.ofNat (Utf8.encode table).length).toNat
  rw [UInt8.toNat_ofNat']
  omega

end TakyonDb.CatalogRecord
