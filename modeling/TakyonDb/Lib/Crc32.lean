import TakyonDb.Lib.Bytes

namespace TakyonDb.Lib.Crc32

/-- One bit of the reflected division by the IEEE polynomial. -/
def shift (crc : UInt32) : UInt32 :=
  if crc &&& 1 = 1 then (crc >>> 1) ^^^ 0xEDB88320 else crc >>> 1

def step (crc : UInt32) (b : UInt8) : UInt32 :=
  shift (shift (shift (shift (shift (shift (shift (shift (crc ^^^ b.toUInt32))))))))

def init : UInt32 := 0xFFFFFFFF

def update (crc : UInt32) (bs : Bytes) : UInt32 := bs.foldl step crc

def final (crc : UInt32) : UInt32 := crc ^^^ 0xFFFFFFFF

def hash (bs : Bytes) : UInt32 := final (update init bs)

theorem update_append (crc : UInt32) (as bs : Bytes) :
    update crc (as ++ bs) = update (update crc as) bs := List.foldl_append

example : hash [49, 50, 51, 52, 53, 54, 55, 56, 57] = 0xCBF43926 := by decide +kernel

end TakyonDb.Lib.Crc32
