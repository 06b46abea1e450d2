import Mathlib.Data.List.TakeWhile

namespace TakyonDb.Lib

/-- A string as its 16-bit code units. -/
abbrev JsString := List UInt16

namespace JsString

def utf16 (c : Char) : JsString :=
  let v := c.val.toNat
  if v < 0x10000 then [UInt16.ofNat v]
  else [UInt16.ofNat (0xD800 + (v - 0x10000) / 0x400), UInt16.ofNat (0xDC00 + (v - 0x10000) % 0x400)]

def lit (s : String) : JsString := s.toList.flatMap utf16

/-- The code unit of a character of the basic plane. -/
def unit (c : Char) : UInt16 := UInt16.ofNat c.val.toNat

def isLineTerminator (u : UInt16) : Bool := u = 0x0A ∨ u = 0x0D ∨ u = 0x2028 ∨ u = 0x2029

/-- What `\s` matches and `trim` removes. -/
def isSpace (u : UInt16) : Bool :=
  (0x09 ≤ u ∧ u ≤ 0x0D) ∨ u = 0x20 ∨ u = 0xA0 ∨ u = 0x1680 ∨ (0x2000 ≤ u ∧ u ≤ 0x200A) ∨ u = 0x2028 ∨ u = 0x2029 ∨
    u = 0x202F ∨ u = 0x205F ∨ u = 0x3000 ∨ u = 0xFEFF

def isDigit (u : UInt16) : Bool := 0x30 ≤ u ∧ u ≤ 0x39

def isUpper (u : UInt16) : Bool := 0x41 ≤ u ∧ u ≤ 0x5A

def isLower (u : UInt16) : Bool := 0x61 ≤ u ∧ u ≤ 0x7A

/-- What `\w` matches. -/
def isWord (u : UInt16) : Bool := isDigit u || isUpper u || isLower u || u == 0x5F

def trimStart (s : JsString) : JsString := s.dropWhile isSpace

def trim (s : JsString) : JsString := (trimStart (trimStart s).reverse).reverse

/-- `toUpperCase` as far as a word of ASCII letters can tell: besides those, the dotless i and the long s
become one. -/
def upperUnit (u : UInt16) : UInt16 :=
  if isLower u then u - 0x20 else if u = 0x131 then 0x49 else if u = 0x17F then 0x53 else u

end JsString

end TakyonDb.Lib
