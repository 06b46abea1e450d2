import Mathlib.Data.List.Basic
import Mathlib.Data.List.Induction

namespace TakyonDb.Lib

variable {β κ κ' : Type*} [DecidableEq κ] [DecidableEq κ']

variable {key : β → κ} {key' : β → κ'} {l : List β} {b : β}

end TakyonDb.Lib
