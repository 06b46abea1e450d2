import Mathlib.Logic.Function.Basic

namespace TakyonDb

inductive RelationalType
  | bool | int8 | int16 | int32 | int64 | uint8 | uint16 | uint32 | float32 | float64 | string | bytes
  | timestampMs
deriving DecidableEq

/-- A column, with its name as text or as bytes, and what a missing
cell stands for. An absent flag is false. -/
structure ColumnDef (α δ : Type) where
  name : α
  type : RelationalType
  nullable : Bool
  primaryKey : Bool
  unique : Bool
  defaultValue : δ
deriving DecidableEq

variable {α β δ : Type}

def ColumnDef.map (f : α → β) (c : ColumnDef α δ) : ColumnDef β δ := { c with name := f c.name }

theorem ColumnDef.map_map_eq_self_iff (f : α → β) (g : β → α) (c : ColumnDef α δ) :
    (c.map f).map g = c ↔ g (f c.name) = c.name := by
  cases c
  simp only [ColumnDef.map, ColumnDef.mk.injEq, and_true]

end TakyonDb
