import Mathlib.Algebra.Order.Ring.Int
import Mathlib.Order.Defs.LinearOrder
import TakyonDb.Lib.Bytes
import TakyonDb.Lib.JsString
import TakyonDb.Lib.OrderedMap

namespace TakyonDb.Relational

open Lib
open JsString (lit)

/-- A number: one of the finite ones, an infinity, or none. -/
inductive Num (ν : Type) where
  | nan
  | negInfinity
  | finite (n : ν)
  | infinity
deriving DecidableEq

/-- The finite numbers with the conversions between them and strings. -/
class JsNumber (ν : Type) extends LinearOrder ν, Zero ν, One ν where
  toText : ν → JsString
  ofText : JsString → Num ν

section Numbers

variable {ν : Type} [JsNumber ν]

def Num.toText : Num ν → JsString
  | nan => lit "NaN"
  | negInfinity => lit "-Infinity"
  | finite n => JsNumber.toText n
  | infinity => lit "Infinity"

/-- `<` on numbers: no comparison with `NaN` holds. -/
def Num.lt : Num ν → Num ν → Bool
  | nan, _ => false
  | _, nan => false
  | infinity, _ => false
  | _, negInfinity => false
  | negInfinity, _ => true
  | _, infinity => true
  | finite a, finite b => a < b

/-- `===` on numbers. -/
def Num.strictEq (a b : Num ν) : Bool := a ≠ .nan ∧ a = b

end Numbers

/-- Decimal digits as an integer. -/
def intOfText (s : JsString) : Num ℤ :=
  if s = [] then .finite 0
  else if s.all JsString.isDigit then .finite (s.foldl (fun n u ↦ 10 * n + (u.toNat - 48 : ℤ)) 0)
  else .nan

/-- The integers, whose decimal digits are their text. -/
instance intNumber : JsNumber ℤ :=
  { (inferInstance : LinearOrder ℤ), (inferInstance : Zero ℤ), (inferInstance : One ℤ) with
    toText := fun n ↦ lit (toString n)
    ofText := intOfText }

inductive RowValue (ν : Type) where
  | bool (b : Bool)
  | number (n : Num ν)
  | string (s : JsString)
  | bytes (b : Bytes)
  | null
  | undefined
deriving DecidableEq

/-- The own properties of a row object, in their order. -/
abbrev Row (ν : Type) := OrderedMap JsString (RowValue ν)

section Values

variable {ν : Type}

def Row.get (row : Row ν) (key : JsString) : RowValue ν := (row.find? key).getD .undefined

/-- `{ ...row, ...patch }` -/
def Row.merge (row patch : Row ν) : Row ν := row.setAll patch.entries

def RowValue.isNullish : RowValue ν → Bool
  | null => true
  | undefined => true
  | _ => false

/-- What a merge reads: the patch where it has the property, else the row. -/
theorem Row.get_merge (row patch : Row ν) (k : JsString) :
    (row.merge patch).get k = (patch.find? k).getD (row.get k) := by
  rw [Row.merge, Row.get, OrderedMap.find?_setAll_entries, Row.get]
  cases patch.find? k <;> rfl

end Values

end TakyonDb.Relational
