import TakyonDb.Column
import TakyonDb.Lib.Slices
import TakyonDb.Lib.Utf8

namespace TakyonDb.CatalogRecord

open Lib

abbrev catalogRecMagic : ℕ := 0x54434154
abbrev catalogRecVersion : ℕ := 1
abbrev headerLen : ℕ := 8
abbrev tableFieldLen : ℕ := 65
abbrev columnRecLen : ℕ := 67
abbrev maxTableName : ℕ := 64
abbrev maxColumns : ℕ := 32

def byteToType : List RelationalType :=
  [.bool, .int8, .int16, .int32, .int64, .uint8, .uint16, .uint32, .float32, .float64, .string, .bytes, .timestampMs]

def typeToByte : RelationalType → UInt8
  | .bool => 0
  | .int8 => 1
  | .int16 => 2
  | .int32 => 3
  | .int64 => 4
  | .uint8 => 5
  | .uint16 => 6
  | .uint32 => 7
  | .float32 => 8
  | .float64 => 9
  | .string => 10
  | .bytes => 11
  | .timestampMs => 12

/-- The record of a column says nothing of its default. -/
abbrev ColumnDef (α : Type) := TakyonDb.ColumnDef α Unit

/-- A table's descriptor, with names as text or as bytes. -/
structure Catalog (α : Type) where
  table : α
  columns : List (ColumnDef α)
deriving DecidableEq

variable {α β : Type}

def Catalog.map (f : α → β) (d : Catalog α) : Catalog β := ⟨f d.table, d.columns.map (ColumnDef.map f)⟩

def flagsOf (c : ColumnDef α) : UInt8 :=
  (if c.nullable then 0x01 else 0) ||| (if c.primaryKey then 0x02 else 0) ||| (if c.unique then 0x04 else 0)

def catalogEncodedLen (colCount : ℕ) : ℕ := headerLen + tableFieldLen + colCount * columnRecLen

section TypeScript

open Utf8 (Text utf16Length)

inductive EncodeError
  | tableName | columnCount | columnName (name : Text) | outOfBounds
deriving DecidableEq

def EncodeError.message : EncodeError → String
  | .tableName => "table name must be 1..64 chars"
  | .columnCount => "column count must be 1..32"
  | .columnName name => "invalid column name '" ++ String.ofList name ++ "'"
  | .outOfBounds => "offset is out of bounds"

/-- `out.set(src, off)`. -/
def setBytes (out src : Bytes) (off : ℕ) : Except EncodeError Bytes :=
  if out.length < off + src.length then .error .outOfBounds else .ok (overwrite out off src)

def encodeColumns (out : Bytes) (off : ℕ) : List (ColumnDef Text) → Except EncodeError Bytes
  | [] => .ok out
  | c :: columns => do
    let nbytes := Utf8.encode c.name
    if nbytes.length = 0 ∨ 64 < nbytes.length then throw (.columnName c.name)
    let out ← setBytes (overwrite out off [UInt8.ofNat nbytes.length]) nbytes (off + 1)
    let out := overwrite out (off + 65) [typeToByte c.type]
    let out := overwrite out (off + 66) [flagsOf c]
    encodeColumns out (off + columnRecLen) columns

def encodeCatalogRecord (table : Text) (columns : List (ColumnDef Text)) : Except EncodeError Bytes := do
  if table.length = 0 ∨ 64 < utf16Length table then throw .tableName
  if columns.length = 0 ∨ 32 < columns.length then throw .columnCount
  let out := zeros (catalogEncodedLen columns.length)
  let out := overwrite out 0 (leEncode 4 catalogRecMagic)
  let out := overwrite out 4 (leEncode 2 catalogRecVersion)
  let out := overwrite out 6 (leEncode 2 columns.length)
  let tbytes := Utf8.encode table
  let out := overwrite out 8 [UInt8.ofNat tbytes.length]
  let out ← setBytes out tbytes 9
  encodeColumns out (headerLen + tableFieldLen) columns

inductive DecodeError
  | tooShort | badMagic | badVersion | badCount | truncated | badTableName | badColumnName | paddingCorrupt
  | badColumnType | badFlags
deriving DecidableEq

def DecodeError.message : DecodeError → String
  | .tooShort => "catalog payload too short"
  | .badMagic => "bad catalog magic"
  | .badVersion => "bad catalog version"
  | .badCount => "bad catalog column count"
  | .truncated => "catalog payload truncated"
  | .badTableName => "bad catalog table name"
  | .badColumnName => "bad catalog column name"
  | .paddingCorrupt => "catalog padding corrupt"
  | .badColumnType => "bad catalog column type"
  | .badFlags => "bad catalog flags"

def decodeColumnAt (buf : Bytes) (off : ℕ) : Except DecodeError (ColumnDef Text) := do
  let nlen := (byteAt buf off).toNat
  if nlen = 0 ∨ 64 < nlen then throw .badColumnName
  if (slice buf (off + 1 + nlen) (64 - nlen)).any (· ≠ 0) then throw .paddingCorrupt
  match byteToType[(byteAt buf (off + 65)).toNat]? with
  | none => throw .badColumnType
  | some type =>
    let flags := byteAt buf (off + 66)
    if flags &&& 0xf8 ≠ 0 then throw .badFlags
    return ⟨Utf8.decode (slice buf (off + 1) nlen), type, flags &&& 0x01 ≠ 0, flags &&& 0x02 ≠ 0, flags &&& 0x04 ≠ 0,
      ()⟩

def decodeColumns (buf : Bytes) : ℕ → ℕ → Except DecodeError (List (ColumnDef Text))
  | 0, _ => return []
  | n + 1, off => do
    let c ← decodeColumnAt buf off
    let cs ← decodeColumns buf n (off + columnRecLen)
    return c :: cs

def decodeCatalogRecord (buf : Bytes) : Except DecodeError (Catalog Text) := do
  if buf.length < headerLen + tableFieldLen then throw .tooShort
  if leDecode (slice buf 0 4) ≠ catalogRecMagic then throw .badMagic
  if leDecode (slice buf 4 2) ≠ catalogRecVersion then throw .badVersion
  let count := leDecode (slice buf 6 2)
  if count = 0 ∨ 32 < count then throw .badCount
  if buf.length < catalogEncodedLen count then throw .truncated
  let tlen := (byteAt buf 8).toNat
  if tlen = 0 ∨ 64 < tlen then throw .badTableName
  let table := Utf8.decode (slice buf 9 tlen)
  let columns ← decodeColumns buf count (headerLen + tableFieldLen)
  return ⟨table, columns⟩

end TypeScript

namespace Persist

inductive Error
  | invalidSchema | noSpace | corrupt | outOfBounds
deriving DecidableEq

def encodeColumns (out : Bytes) (off : ℕ) : List (ColumnDef Bytes) → Except Error Bytes
  | [] => .ok out
  | c :: cols => do
    if c.name.length = 0 ∨ maxTableName < c.name.length then throw .invalidSchema
    let out := overwrite out off [UInt8.ofNat c.name.length]
    let out := overwrite out (off + 1) c.name
    let out := overwrite out (off + 1 + c.name.length) (zeros (maxTableName - c.name.length))
    let out := overwrite out (off + 65) [typeToByte c.type]
    let out := overwrite out (off + 66) [flagsOf c]
    encodeColumns out (off + columnRecLen) cols

/-- Encodes a descriptor into the front of a buffer, and returns the bytes written. -/
def encode (out table : Bytes) (cols : List (ColumnDef Bytes)) : Except Error (Bytes × ℕ) := do
  if table.length = 0 ∨ maxTableName < table.length then throw .invalidSchema
  if cols.length = 0 ∨ maxColumns < cols.length then throw .invalidSchema
  let need := catalogEncodedLen cols.length
  if out.length < need then throw .noSpace
  let out := overwrite out 0 (leEncode 4 catalogRecMagic)
  let out := overwrite out 4 (leEncode 2 catalogRecVersion)
  let out := overwrite out 6 (leEncode 2 cols.length)
  let out := overwrite out 8 [UInt8.ofNat table.length]
  let out := overwrite out 9 table
  let out := overwrite out (9 + table.length) (zeros (maxTableName - table.length))
  let out ← encodeColumns out (headerLen + tableFieldLen) cols
  return (out, need)

structure Decoded where
  table : Bytes
  colCount : ℕ
deriving DecidableEq

def decodeHeader (buf : Bytes) : Except Error Decoded := do
  if buf.length < headerLen + tableFieldLen then throw .corrupt
  if leDecode (slice buf 0 4) ≠ catalogRecMagic then throw .corrupt
  if leDecode (slice buf 4 2) ≠ catalogRecVersion then throw .corrupt
  let n := leDecode (slice buf 6 2)
  if n = 0 ∨ maxColumns < n then throw .corrupt
  if buf.length < catalogEncodedLen n then throw .corrupt
  let tlen := (byteAt buf 8).toNat
  if tlen = 0 ∨ maxTableName < tlen then throw .corrupt
  return ⟨slice buf 9 tlen, n⟩

/-- The value of a byte that has been checked against the last one. -/
def enumFromInt (b : UInt8) : RelationalType := byteToType[b.toNat]?.getD .timestampMs

def decodeColumn (buf : Bytes) (i : ℕ) : Except Error (ColumnDef Bytes) := do
  let h ← decodeHeader buf
  if h.colCount ≤ i then throw .outOfBounds
  let off := headerLen + tableFieldLen + i * columnRecLen
  let nlen := (byteAt buf off).toNat
  if nlen = 0 ∨ maxTableName < nlen then throw .corrupt
  let name := slice buf (off + 1) nlen
  if (slice buf (off + 1 + nlen) (maxTableName - nlen)).any (· ≠ 0) then throw .corrupt
  let tbyte := byteAt buf (off + 65)
  if typeToByte .timestampMs < tbyte then throw .corrupt
  let flags := byteAt buf (off + 66)
  if flags &&& 0xF8 ≠ 0 then throw .corrupt
  return ⟨name, enumFromInt tbyte, flags &&& 0x01 ≠ 0, flags &&& 0x02 ≠ 0, flags &&& 0x04 ≠ 0, ()⟩

end Persist

end TakyonDb.CatalogRecord
