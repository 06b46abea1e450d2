import TakyonDb.Lib.RegExp
import TakyonDb.Relational.Filter
import TakyonDb.Relational.Schema

namespace TakyonDb.Relational

open Lib Lib.RegExp
open JsString (lit unit trim isSpace isWord isDigit)

/-- A literal value in a statement. -/
inductive SqlValue (ν : Type) where
  | string (s : JsString)
  | number (n : Num ν)
  | bool (b : Bool)
  | null
deriving DecidableEq

def SqlValue.toRowValue {ν : Type} : SqlValue ν → RowValue ν
  | string s => .string s
  | number n => .number n
  | bool b => .bool b
  | null => .null

def quote : UInt16 := unit '\''

def comma : UInt16 := unit ','

/-- The rest of a list whose current item has `cur` read and may be inside a string. -/
def splitRest : JsString → JsString → Bool → Option (List JsString)
  | [], cur, inStr => if inStr then none else some [trim cur]
  | [ch], cur, inStr =>
    if ch = quote then splitRest [] (cur ++ [ch]) (!inStr)
    else if ch = comma ∧ ¬ inStr then (splitRest [] [] inStr).map (trim cur :: ·)
    else splitRest [] (cur ++ [ch]) inStr
  | ch :: next :: rest, cur, inStr =>
    if ch = quote then
      if inStr ∧ next = quote then splitRest rest (cur ++ [quote, quote]) inStr
      else splitRest (next :: rest) (cur ++ [ch]) (!inStr)
    else if ch = comma ∧ ¬ inStr then (splitRest (next :: rest) [] inStr).map (trim cur :: ·)
    else splitRest (next :: rest) (cur ++ [ch]) inStr

/-- The items between commas that stand in no string, less the empty ones. -/
def splitList (raw : JsString) : Except RelError (List JsString) :=
  match splitRest raw [] false with
  | none => .error (.queryError (lit "unterminated string in: " ++ raw))
  | some parts => .ok (parts.filter fun p ↦ 0 < p.length)

/-- `replace(/''/g, "'")` -/
def undouble : JsString → JsString
  | [] => []
  | [ch] => [ch]
  | ch :: next :: rest => if ch = quote ∧ next = quote then quote :: undouble rest else ch :: undouble (next :: rest)

/-- `/^-?\d+(\.\d+)?$/` -/
def decimalRegExp : Node :=
  seqAll [.start, .many (· == unit '-') 0 (some 1), .many isDigit 1 none,
    opt (.seq (.unit (· == unit '.')) (.many isDigit 1 none)), .stop]

section Parse

variable {ν : Type} [JsNumber ν]

def parseLiteral (raw : JsString) : Except RelError (SqlValue ν) :=
  let t := trim raw
  if 2 ≤ t.length ∧ t.head? = some quote ∧ t.getLast? = some quote then .ok (.string (undouble t.tail.dropLast))
  else
    let up := t.map JsString.upperUnit
    if up = lit "NULL" then .ok .null
    else if up = lit "TRUE" then .ok (.bool true)
    else if up = lit "FALSE" then .ok (.bool false)
    else if decimalRegExp.test t then .ok (.number (JsNumber.ofText t))
    else .error (.queryError (lit "bad literal: " ++ raw))

structure ParsedInsert (ν : Type) where
  table : JsString
  columns : List JsString
  values : List (SqlValue ν)
deriving DecidableEq

def spaces : Node := .many isSpace 1 none

def maybeSpaces : Node := .many isSpace 0 none

def name : Node := .group (.many isWord 1 none)

/-- `\(([^)]+)\)` -/
def bracketed : Node :=
  seqAll [.unit (· == unit '('), .group (.many (· != unit ')') 1 none), .unit (· == unit ')')]

/-- `\s*;?$` -/
def ending : Node := seqAll [maybeSpaces, .many (· == unit ';') 0 (some 1), .stop]

/-- `/^INSERT\s+INTO\s+(\w+)\s*\(([^)]+)\)\s+VALUES\s*\(([^)]+)\)\s*;?$/i` -/
def insertRegExp : Node :=
  seqAll [.start, word "INSERT", spaces, word "INTO", spaces, name, maybeSpaces, bracketed, spaces, word "VALUES",
    maybeSpaces, bracketed, ending]

def parseInsert (sql : JsString) : Except RelError (ParsedInsert ν) :=
  match insertRegExp.captures (trim sql) with
  | some [table, columnsText, valuesText] => do
    let columns ← splitList columnsText
    let items ← splitList valuesText
    let values ← items.mapM parseLiteral
    if columns.length = 0 ∨ columns.length ≠ values.length then
      .error (.queryError (lit "column/value count mismatch in: " ++ sql))
    else .ok ⟨table, columns.map trim, values⟩
  | _ => .error (.queryError (lit "unsupported INSERT: " ++ sql))

/-- `WHERE\s+(\w+)\s*(=|!=|>=|<=|>|<)\s*('[^']*'|\d+(?:\.\d+)?)\s*;?$` -/
def whereRegExp : Node :=
  seqAll [word "WHERE", spaces, name, maybeSpaces,
    .group (.alt (word "=") (.alt (word "!=") (.alt (word ">=") (.alt (word "<=") (.alt (word ">") (word "<")))))),
    maybeSpaces,
    .group (.alt (seqAll [.unit (· == quote), .many (· != quote) 0 none, .unit (· == quote)])
      (.seq (.many isDigit 1 none) (opt (.seq (.unit (· == unit '.')) (.many isDigit 1 none))))),
    ending]

def whereValue (text : JsString) : Scalar ν :=
  if text.head? = some quote then .string (undouble text.tail.dropLast) else .number (JsNumber.ofText text)

structure Assignment (ν : Type) where
  column : JsString
  value : SqlValue ν
deriving DecidableEq

structure ParsedUpdate (ν : Type) where
  table : JsString
  sets : List (Assignment ν)
  whereCol : JsString
  whereOp : JsString
  whereVal : Scalar ν
deriving DecidableEq

def parseAssignment (assign : JsString) : Except RelError (Assignment ν) :=
  match assign.splitOn (unit '=') with
  | [column, text] => do
    let value ← parseLiteral text
    .ok ⟨trim column, value⟩
  | _ => .error (.queryError (lit "bad SET assignment: " ++ assign))

/-- `/^UPDATE\s+(\w+)\s+SET\s+(.+?)\s+WHERE .../i` -/
def updateRegExp : Node :=
  seqAll [.start, word "UPDATE", spaces, name, spaces, word "SET", spaces, .group (.few dot 1), spaces, whereRegExp]

def parseUpdate (sql : JsString) : Except RelError (ParsedUpdate ν) :=
  match updateRegExp.captures (trim sql) with
  | some [table, setText, whereCol, whereOp, whereText] => do
    let items ← splitList setText
    let sets ← items.mapM parseAssignment
    if sets.length = 0 then .error (.queryError (lit "empty SET in: " ++ sql))
    else .ok ⟨table, sets, whereCol, whereOp, whereValue whereText⟩
  | _ => .error (.queryError (lit "unsupported UPDATE (WHERE is required): " ++ sql))

structure ParsedDelete (ν : Type) where
  table : JsString
  whereCol : JsString
  whereOp : JsString
  whereVal : Scalar ν
deriving DecidableEq

/-- `/^DELETE\s+FROM\s+(\w+)\s+WHERE .../i` -/
def deleteRegExp : Node :=
  seqAll [.start, word "DELETE", spaces, word "FROM", spaces, name, spaces, whereRegExp]

def parseDelete (sql : JsString) : Except RelError (ParsedDelete ν) :=
  match deleteRegExp.captures (trim sql) with
  | some [table, whereCol, whereOp, whereText] => .ok ⟨table, whereCol, whereOp, whereValue whereText⟩
  | _ => .error (.queryError (lit "unsupported DELETE (WHERE is required): " ++ sql))

end Parse

end TakyonDb.Relational
