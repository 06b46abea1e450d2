import TakyonDb.CatalogRoundTrip

namespace TakyonDb.CatalogRecord

open Lib

variable {buf : Bytes} {off : ℕ}

variable {α β : Type}

theorem Catalog.map_map_eq_self_iff (f : α → β) (g : β → α) (d : Catalog α) :
    (d.map f).map g = d ↔ g (f d.table) = d.table ∧ ∀ c ∈ d.columns, g (f c.name) = c.name := by
  have hcolumns : (d.columns.map (ColumnDef.map f)).map (ColumnDef.map g) = d.columns ↔
      ∀ c ∈ d.columns, g (f c.name) = c.name := by
    simp only [← ColumnDef.map_map_eq_self_iff f g]
    rw [List.map_map]
    constructor
    · intro h
      exact (List.map_inj_left (g := id)).mp (h.trans (List.map_id _).symm)
    · intro h
      exact ((List.map_inj_left (g := id)).mpr h).trans (List.map_id _)
  obtain ⟨table, columns⟩ := d
  rw [← hcolumns]
  simp only [Catalog.map, Catalog.mk.injEq]

/-- The record of a descriptor the encoder accepts decodes to it. -/
theorem decode_encode_iff {table : Utf8.Text} {columns : List (ColumnDef Utf8.Text)} {b : Bytes}
    (h : encodeCatalogRecord table columns = .ok b) :
    decodeCatalogRecord b = .ok ⟨table, columns⟩ ↔
      (Utf8.encode table).length ≤ 64 ∧ table.head? ≠ some Utf8.bom ∧
        ∀ c ∈ columns, c.name.head? ≠ some Utf8.bom := by
  by_cases hle : (Utf8.encode table).length ≤ 64
  · obtain ⟨hvalid, rfl⟩ := (encodeCatalogRecord_eq_ok hle).mp h
    have hfields := fields_recordBytes hvalid
    have hself := Catalog.map_map_eq_self_iff Utf8.encode Utf8.decode ⟨table, columns⟩
    simp only [Utf8.decode_encode, Utf8.dropBom_eq_self_iff] at hself
    rw [← hself, decodeCatalogRecord_iff]
    constructor
    · intro hdecode
      obtain ⟨d, hd, heq⟩ := hdecode
      obtain rfl := hfields.unique hd
      exact ⟨hle, heq.symm⟩
    · intro hcond
      exact ⟨_, hfields, hcond.2.symm⟩
  · refine iff_of_false (fun hdecode ↦ ?_) fun hcond ↦ hle hcond.1
    obtain ⟨d, hd, -⟩ := (decodeCatalogRecord_iff _).mp hdecode
    have hlong := encodeCatalogRecord_long (not_le.mp hle) h
    have htable := hd.header.table_le
    rw [hd.header.table_length] at hlong
    omega

def oneColumn : List (ColumnDef Utf8.Text) := [⟨[Char.ofNat 99], .uint32, false, true, true, ()⟩]

/-- Twenty-two characters of three bytes each. -/
def longTable : Utf8.Text := List.replicate 22 (Char.ofNat 0x20AC)

/-- A table and a column whose names are not all of one byte, and a key column. -/
def accentedCatalog : Catalog Utf8.Text :=
  ⟨[Char.ofNat 0x74, Char.ofNat 0xE9], [⟨[Char.ofNat 0x69, Char.ofNat 0x64], .uint32, false, true, true, ()⟩,
    ⟨[Char.ofNat 0x6E, Char.ofNat 0x20AC], .string, true, false, false, ()⟩]⟩

theorem decode_encode_accented : ∃ b, encodeCatalogRecord accentedCatalog.table accentedCatalog.columns = .ok b ∧
    decodeCatalogRecord b = .ok accentedCatalog := by
  have hencode : encodeCatalogRecord accentedCatalog.table accentedCatalog.columns =
      .ok (recordBytes (accentedCatalog.map Utf8.encode)) := by
    refine (encodeCatalogRecord_eq_ok (by decide)).mpr ⟨⟨by decide, by decide, by decide, ?_⟩, rfl⟩
    decide
  exact ⟨_, hencode, (decode_encode_iff hencode).mpr (by decide)⟩

theorem longTable_not_decoded :
    ∃ b, encodeCatalogRecord longTable oneColumn = .ok b ∧ decodeCatalogRecord b ≠ .ok ⟨longTable, oneColumn⟩ := by
  have hok : (encodeCatalogRecord longTable oneColumn).isOk = true := by decide +kernel
  cases hb : encodeCatalogRecord longTable oneColumn with
  | error e =>
    rw [hb] at hok
    exact absurd hok nofun
  | ok b =>
    refine ⟨b, rfl, fun hdecode ↦ ?_⟩
    obtain ⟨d, hd, -⟩ := (decodeCatalogRecord_iff _).mp hdecode
    have hlong := encodeCatalogRecord_long (by decide +kernel) hb
    have htable := hd.header.table_le
    rw [hd.header.table_length] at hlong
    omega

/-- A name whose bytes the decoder and the encoder hand back: well-formed and without a byte order mark. -/
def Plain (name : Bytes) : Prop := ∃ s : Utf8.Text, name = Utf8.encode s ∧ s.head? ≠ some Utf8.bom

theorem plain_iff (name : Bytes) : Plain name ↔ Utf8.encode (Utf8.decode name) = name := by
  constructor
  · intro h
    obtain ⟨s, rfl, hbom⟩ := h
    rw [Utf8.decode_encode, (Utf8.dropBom_eq_self_iff s).mpr hbom]
  · intro h
    refine ⟨Utf8.decode name, h.symm, (Utf8.dropBom_eq_self_iff _).mp ?_⟩
    rw [← Utf8.decode_encode, h]

/-- The bytes of a name in its field. -/
def nameField (buf : Bytes) (off : ℕ) : Bytes := slice buf (off + 1) (byteAt buf off).toNat

/-- The names of a record are plain, and nothing is hidden behind the table's. -/
structure Untampered (buf : Bytes) : Prop where
  table : Plain (nameField buf headerLen)
  columns : ∀ i < leDecode (slice buf 6 2), Plain (nameField buf (headerLen + tableFieldLen + i * columnRecLen))
  padding : buf.length = catalogEncodedLen (leDecode (slice buf 6 2)) →
    Zeroed (slice buf (9 + (byteAt buf 8).toNat) (64 - (byteAt buf 8).toNat))

/-- The decoders accept the same buffers, read the same, and a buffer of the encoded length is
the encoding, on either side, of what is read. -/
structure DecodersAgree (buf : Bytes) : Prop where
  accept : (∃ t, decodeCatalogRecord buf = .ok t) ↔ ∃ d, Persist.Accepts buf d
  same : ∀ t d, decodeCatalogRecord buf = .ok t → Persist.Accepts buf d → t.map Utf8.encode = d
  canonical : ∀ t, decodeCatalogRecord buf = .ok t → buf.length = catalogEncodedLen t.columns.length →
    encodeCatalogRecord t.table t.columns = .ok buf
  canonical_zig : ∀ d, Persist.Accepts buf d → buf.length = catalogEncodedLen d.columns.length →
    ∀ out : Bytes, out.length = buf.length → Persist.encode out d.table d.columns = .ok (buf, buf.length)

theorem Fields.valid {d : Catalog Bytes} (h : Fields buf d) : Valid d := by
  refine ⟨⟨h.header.table_pos, h.header.table_le⟩, h.header.count_pos, h.header.count_le, fun c hc ↦ ?_⟩
  obtain ⟨i, hi⟩ := List.mem_iff_getElem?.mp hc
  exact ⟨(h.columns i c hi).length_pos, (h.columns i c hi).length_le⟩

theorem slice_columns {cs : List (ColumnDef Bytes)}
    (h : ∀ i c, cs[i]? = some c → slice buf (off + i * columnRecLen) columnRecLen = columnBytes c) :
    slice buf off (cs.length * columnRecLen) = cs.flatMap columnBytes := by
  induction cs generalizing off with
  | nil => rw [List.length_nil, Nat.zero_mul, slice, List.take_zero, List.flatMap_nil]
  | cons c cs ih =>
    have hfirst := h 0 c rfl
    rw [Nat.zero_mul, Nat.add_zero] at hfirst
    have hrest : ∀ i d, cs[i]? = some d →
        slice buf (off + columnRecLen + i * columnRecLen) columnRecLen = columnBytes d := by
      intro i d hd
      have hstep : off + columnRecLen + i * columnRecLen = off + (i + 1) * columnRecLen := by
        rw [Nat.succ_mul]
        omega
      exact hstep ▸ h (i + 1) d hd
    rw [List.length_cons, Nat.succ_mul, Nat.add_comm, slice_add, hfirst, ih hrest, List.flatMap_cons]

theorem HeaderFields.slice_eq {table : Bytes} {count : ℕ} (h : HeaderFields buf table count) :
    slice buf 0 headerLen = headerBytes count := by
  have hsize : catalogEncodedLen count = 73 + count * 67 := rfl
  have hlen := h.length_le
  have hfield : ∀ k n, k + n ≤ 8 → leEncode n (leDecode (slice buf k n)) = slice buf k n := by
    intro k n hkn
    have hencode := leEncode_leDecode (slice buf k n)
    rwa [length_slice (by omega)] at hencode
  rw [show headerLen = 4 + 2 + 2 from rfl, slice_add, slice_add, ← hfield 0 4 (by decide),
    ← hfield (0 + 4) 2 (by decide),
    ← hfield (0 + (4 + 2)) 2 (by decide), h.magic, h.version, h.count_eq, headerBytes]

/-- A buffer of the encoded length, part by part. -/
theorem Fields.split {d : Catalog Bytes} (h : Fields buf d) (hlen : buf.length = catalogEncodedLen d.columns.length) :
    buf = headerBytes d.columns.length ++ ([UInt8.ofNat d.table.length] ++ d.table ++
      slice buf (9 + d.table.length) (64 - d.table.length)) ++ d.columns.flatMap columnBytes := by
  have hsize : catalogEncodedLen d.columns.length = 73 + d.columns.length * columnRecLen := rfl
  have hle := h.header.table_le
  have hcolumns : slice buf 73 (d.columns.length * columnRecLen) = d.columns.flatMap columnBytes := by
    refine slice_columns fun i c hc ↦ (h.columns i c hc).slice_eq ?_
    have hi := (List.getElem?_eq_some_iff.mp hc).1
    have hrec : columnRecLen = 67 := rfl
    rw [headerLen, tableFieldLen, hlen, hsize, hrec]
    omega
  have hwhole : slice buf 0 (8 + 1 + d.table.length + (64 - d.table.length) + d.columns.length * columnRecLen) =
      buf := by
    rw [slice, List.drop_zero, List.take_of_length_le (by omega)]
  have hbyte : slice buf 8 1 = [UInt8.ofNat d.table.length] := by
    rw [slice_one (by omega), ← h.header.table_length, UInt8.ofNat_toNat]
  have hrest : 0 + (8 + 1 + d.table.length + (64 - d.table.length)) = 73 := by omega
  conv_lhs => rw [← hwhole]
  rw [slice_add, slice_add, slice_add, slice_add, hrest, hcolumns, Nat.zero_add, Nat.zero_add, Nat.zero_add]
  rw [show slice buf 0 8 = headerBytes d.columns.length from h.header.slice_eq, hbyte,
    show slice buf (8 + 1) d.table.length = d.table from h.header.table_eq]
  simp only [List.append_assoc]

/-- With zeros behind the table name the buffer is the record of what is read from it. -/
theorem Fields.eq_recordBytes_iff {d : Catalog Bytes} (h : Fields buf d)
    (hlen : buf.length = catalogEncodedLen d.columns.length) :
    buf = recordBytes d ↔ Zeroed (slice buf (9 + d.table.length) (64 - d.table.length)) := by
  have hsize : catalogEncodedLen d.columns.length = 73 + d.columns.length * 67 := rfl
  have hle := h.header.table_le
  have hpad : (slice buf (9 + d.table.length) (64 - d.table.length)).length = 64 - d.table.length :=
    length_slice (by omega)
  rw [zeroed_iff, hpad, recordBytes, tableBytes]
  constructor
  · intro heq
    have hsplit := (h.split hlen).symm.trans heq
    exact List.append_cancel_left (List.append_cancel_left (List.append_cancel_right hsplit))
  · intro hzero
    exact (h.split hlen).trans (by rw [hzero])

theorem Fields.names {d : Catalog Bytes} (h : Fields buf d) :
    (d.map Utf8.decode).map Utf8.encode = d ↔ Plain (nameField buf headerLen) ∧
      ∀ i < leDecode (slice buf 6 2), Plain (nameField buf (headerLen + tableFieldLen + i * columnRecLen)) := by
  have htable : nameField buf headerLen = d.table := by
    rw [nameField, h.header.table_length]
    exact h.header.table_eq
  have hcolumn : ∀ i c, d.columns[i]? = some c →
      nameField buf (headerLen + tableFieldLen + i * columnRecLen) = c.name := by
    intro i c hc
    rw [nameField, (h.columns i c hc).length_eq, (h.columns i c hc).name_eq]
  rw [Catalog.map_map_eq_self_iff, htable, plain_iff, h.header.count_eq]
  refine and_congr_right fun _ ↦ ⟨fun hall i hi ↦ ?_, fun hall c hc ↦ ?_⟩
  · rw [hcolumn i _ (List.getElem?_eq_getElem hi), plain_iff]
    exact hall _ (List.getElem_mem hi)
  · obtain ⟨i, hi⟩ := List.mem_iff_getElem?.mp hc
    have hplain := hall i (List.getElem?_eq_some_iff.mp hi).1
    rwa [hcolumn i c hi, plain_iff] at hplain

theorem decodersAgree_iff (buf : Bytes) :
    DecodersAgree buf ↔ ((∃ t, decodeCatalogRecord buf = .ok t) → Untampered buf) := by
  simp only [decodeCatalogRecord_iff]
  constructor
  · intro h haccept
    obtain ⟨t, d, hd, rfl⟩ := haccept
    have hnames := hd.names.mp (h.same _ d ((decodeCatalogRecord_iff _).mpr ⟨d, hd, rfl⟩) ((Persist.accepts_iff d).mpr hd))
    refine ⟨hnames.1, hnames.2, fun hlen ↦ ?_⟩
    rw [hd.header.count_eq] at hlen
    have hzig := h.canonical_zig d ((Persist.accepts_iff d).mpr hd) hlen buf rfl
    rw [Persist.encode_eq hd.valid hlen.ge, ← hlen, List.drop_length, List.append_nil, Except.ok.injEq,
      Prod.mk.injEq] at hzig
    rw [hd.header.table_length]
    exact (hd.eq_recordBytes_iff hlen).mp hzig.1.symm
  · intro h
    have hclean : ∀ d, Fields buf d → Untampered buf := fun d hd ↦ h ⟨_, d, hd, rfl⟩
    have hself : ∀ d, Fields buf d → (d.map Utf8.decode).map Utf8.encode = d := fun d hd ↦
      hd.names.mpr ⟨(hclean d hd).table, (hclean d hd).columns⟩
    have hbytes : ∀ d, Fields buf d → buf.length = catalogEncodedLen d.columns.length → buf = recordBytes d := by
      intro d hd hlen
      have hpad := (hclean d hd).padding (by rw [hd.header.count_eq]; exact hlen)
      rw [hd.header.table_length] at hpad
      exact (hd.eq_recordBytes_iff hlen).mpr hpad
    refine ⟨?_, ?_, ?_, ?_⟩
    · simp only [decodeCatalogRecord_iff, Persist.accepts_iff]
      exact ⟨fun ⟨_, d, hd, _⟩ ↦ ⟨d, hd⟩, fun ⟨d, hd⟩ ↦ ⟨_, d, hd, rfl⟩⟩
    · intro t d ht hd
      obtain ⟨d', hd', rfl⟩ := (decodeCatalogRecord_iff _).mp ht
      obtain rfl := hd'.unique ((Persist.accepts_iff d).mp hd)
      exact hself d' hd'
    · intro t ht hlen
      obtain ⟨d, hd, rfl⟩ := (decodeCatalogRecord_iff _).mp ht
      rw [show (d.map Utf8.decode).columns.length = d.columns.length from List.length_map _] at hlen
      have htable : Utf8.encode (Utf8.decode d.table) = d.table := congrArg Catalog.table (hself d hd)
      refine (encodeCatalogRecord_eq_ok (by rw [Catalog.map, htable]; exact hd.header.table_le)).mpr ?_
      change Valid ((d.map Utf8.decode).map Utf8.encode) ∧ buf = recordBytes ((d.map Utf8.decode).map Utf8.encode)
      rw [hself d hd]
      exact ⟨hd.valid, hbytes d hd hlen⟩
    · intro d hd hlen out hout
      have hd' := (Persist.accepts_iff d).mp hd
      rw [Persist.encode_eq hd'.valid (by omega), List.drop_of_length_le (by omega), List.append_nil,
        ← hbytes d hd' hlen, hlen]

def smallCatalog : Catalog Bytes := ⟨[116], [⟨[99], .uint32, false, true, true, ()⟩]⟩

/-- A record with a byte set behind its table name. -/
def tamperedRecord : Bytes := (recordBytes smallCatalog).set 20 1

theorem tamperedRecord_not_agree : ¬ DecodersAgree tamperedRecord := by
  intro h
  have haccepts : Persist.Accepts tamperedRecord smallCatalog := by
    refine ⟨by decide +kernel, fun i c hc ↦ ?_⟩
    have hi := (List.getElem?_eq_some_iff.mp hc).1
    obtain rfl : i = 0 := Nat.lt_one_iff.mp hi
    obtain rfl := Option.some.inj hc
    decide +kernel
  have hzig := h.canonical_zig smallCatalog haccepts (by decide +kernel) tamperedRecord rfl
  exact absurd hzig (by decide +kernel)

end TakyonDb.CatalogRecord
