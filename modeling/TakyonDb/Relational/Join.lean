import Mathlib.Data.List.Induction
import TakyonDb.Lib.LoopOrder
import TakyonDb.Relational.Table

namespace TakyonDb.Relational

open Lib
open JsString (lit)

/-- A matched pair. -/
structure JoinRow (ν : Type) where
  left : Row ν
  right : Row ν
deriving DecidableEq

section Join

variable {ν : Type} [JsNumber ν]

/-- The rows of the left side under the text of their join column. -/
def buildSide (leftKey : JsString) (rows : List (Row ν)) : OrderedMap JsString (List (Row ν)) :=
  rows.foldl (fun build r ↦
    build.set (r.get leftKey).toText ((build.find? (r.get leftKey).toText).getD [] ++ [r])) .empty

def hashJoin (left right : RelationalTable ν) (leftKey rightKey : JsString) : List (JoinRow ν) :=
  let build := buildSide leftKey (left.scan none)
  (right.scan none).flatMap fun rr ↦ ((build.find? (rr.get rightKey).toText).getD []).map fun ll ↦ ⟨ll, rr⟩

/-- The join condition. -/
def sameKey (leftKey rightKey : JsString) (l r : Row ν) : Bool := (l.get leftKey).toText = (r.get rightKey).toText

/-- The reference: a loop over the left rows, in it a loop over the right ones. -/
def joinLoop (left right : RelationalTable ν) (leftKey rightKey : JsString) : List (JoinRow ν) :=
  (nestedLoop (sameKey leftKey rightKey) (left.scan none) (right.scan none)).map fun p ↦ ⟨p.1, p.2⟩

theorem find?_buildSide (leftKey : JsString) (rows : List (Row ν)) (k : JsString) :
    ((buildSide leftKey rows).find? k).getD [] = rows.filter fun r ↦ (r.get leftKey).toText = k := by
  induction rows using List.reverseRecOn with
  | nil => rfl
  | append_singleton rows r ih =>
    rw [buildSide, List.foldl_append] at *
    rw [List.foldl_cons, List.foldl_nil, OrderedMap.find?_set, List.filter_append, ← ih]
    by_cases hk : k = (r.get leftKey).toText
    · rw [if_pos hk, hk]
      simp
    · rw [if_neg hk]
      simp [Ne.symm hk]

/-- The probe runs over the right rows first. -/
theorem hashJoin_eq_probeLoop (left right : RelationalTable ν) (leftKey rightKey : JsString) :
    hashJoin left right leftKey rightKey =
      (probeLoop (sameKey leftKey rightKey) (left.scan none) (right.scan none)).map fun p ↦ ⟨p.1, p.2⟩ := by
  rw [hashJoin, probeLoop, List.map_flatMap]
  refine List.flatMap_congr fun rr _ ↦ ?_
  rw [find?_buildSide, List.map_map]
  rfl

omit [JsNumber ν] in
theorem joinRow_injective : Function.Injective fun p : Row ν × Row ν ↦ (⟨p.1, p.2⟩ : JoinRow ν) := by
  intro p q h
  obtain ⟨hl, hr⟩ := JoinRow.mk.inj h
  exact Prod.ext hl hr

/-- The join gives the pairs of the nested loop in its order except where two earlier rows match with two later
ones crosswise. -/
theorem hashJoin_eq_joinLoop_iff (left right : SoundTable ν) (leftKey rightKey : JsString) :
    hashJoin left.1 right.1 leftKey rightKey = joinLoop left.1 right.1 leftKey rightKey ↔
      ¬ Crossing (sameKey leftKey rightKey) (left.1.scan none) (right.1.scan none) := by
  rw [hashJoin_eq_probeLoop, joinLoop, joinRow_injective.list_map.eq_iff]
  exact probeLoop_eq_nestedLoop_iff (left.2.nodup_scan none) (right.2.nodup_scan none)

end Join

def idSchema : RelationalSchema ℤ :=
  ⟨lit "t", [⟨lit "id", .int32, false, true, false, none⟩], by decide, by decide, by decide, by decide⟩

def idRow (n : ℤ) : Row ℤ := .ofList [(lit "id", .number (.finite n))]

def ascending : SoundTable ℤ := ⟨⟨idSchema, .ofList [(lit "1", idRow 1), (lit "2", idRow 2)]⟩, by decide⟩

def descending : SoundTable ℤ := ⟨⟨idSchema, .ofList [(lit "2", idRow 2), (lit "1", idRow 1)]⟩, by decide⟩

/-- The pair of the second left row comes first. -/
theorem hashJoin_ne_joinLoop :
    hashJoin ascending.1 descending.1 (lit "id") (lit "id") ≠ joinLoop ascending.1 descending.1 (lit "id") (lit "id") := by
  decide

end TakyonDb.Relational
