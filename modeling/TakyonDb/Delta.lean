import TakyonDb.Lib.Bytes

namespace TakyonDb

open Lib

abbrev deltaInline : UInt8 := 0
abbrev deltaArena : UInt8 := 1
abbrev deltaCheckpoint : UInt8 := 2
abbrev deltaIndexOp : UInt8 := 3

abbrev maxKeyLen : ℕ := 256

/-- One slot of the ring: a raw memory mutation and the tag that decides
what the daemon does with it. -/
structure DeltaMessage where
  offset : UInt32
  size : UInt32
  isArena : UInt8
  data : Bytes
  data_length : data.length = 48
deriving DecidableEq

/-- A 48-byte payload that starts with `bs`. -/
def inlineData (bs : Bytes) : Bytes := (bs ++ List.replicate 48 0).take 48

theorem length_inlineData (bs : Bytes) : (inlineData bs).length = 48 := by
  simp only [inlineData, List.length_take, List.length_append, List.length_replicate]
  omega

theorem length_noData : (inlineData []).length = 48 := length_inlineData []

theorem length_byteData : (inlineData [255]).length = 48 := length_inlineData [255]

theorem take_inlineData {bs : Bytes} (h : bs.length ≤ 48) :
    (inlineData bs).take bs.length = bs := by
  rw [inlineData, List.take_take, min_eq_left h, List.take_append_of_le_length le_rfl,
    List.take_length]

end TakyonDb
