import TakyonDb.Lib.Extents

namespace TakyonDb.Lib

/-- A compare-and-set of a zero bump word. -/
def seed (word init : ℕ) (mem : Bytes) : Bytes :=
  if readU32 mem word = 0 then writeU32 mem word init else mem

/-- Moves the bump word first and looks at the limit afterwards. -/
def fetchAdd (word init limit len : ℕ) (mem : Bytes) : Option ℕ × Bytes :=
  let mem := seed word init mem
  let old := readU32 mem word
  (if limit < old + len then none else some old, writeU32 mem word ((old + len) % 2 ^ 32))

/-- Looks at the limit before it moves the bump word. -/
def claim (word limit len : ℕ) (mem : Bytes) : Option ℕ × Bytes :=
  let cur := readU32 mem word
  if limit < cur + len then (none, mem) else (some cur, writeU32 mem word (cur + len))

def grant (off : Option ℕ) (len : ℕ) (granted : List Extent) : List Extent :=
  off.elim granted fun o ↦ ⟨o, len⟩ :: granted

/-- A bump word that moves to `stop` stays inside the limit, or nothing was
granted and it leaves the memory. -/
def Holds (limit memLen stop : ℕ) (granted : List Extent) : Prop :=
  stop ≤ limit ∨ (memLen < stop ∧ stop < 2 ^ 32 ∧ granted = [])

/-- Everything granted lies between the start of the region and the bump
word, or the bump word has left the memory and nothing was granted. -/
def BumpInv (mem : Bytes) (word first limit : ℕ) (granted : List Extent) : Prop :=
  (first ≤ readU32 mem word ∧ readU32 mem word ≤ limit ∧
    ∀ g ∈ granted, first ≤ g.start ∧ g.stop ≤ readU32 mem word) ∨
  (mem.length < readU32 mem word ∧ granted = [])

variable {mem mem' : Bytes} {word first limit regionEnd len : ℕ} {granted : List Extent}

theorem BumpInv.congr (h : BumpInv mem word first limit granted)
    (hword : readU32 mem' word = readU32 mem word) (hlen : mem'.length = mem.length) :
    BumpInv mem' word first limit granted := by
  rw [BumpInv, hword, hlen]
  exact h

theorem BumpInv.seed_eq (h : BumpInv mem word first limit granted) (hfirst : 0 < first) :
    seed word first mem = mem := by
  rw [seed, if_neg]
  rcases h with ⟨hle, -⟩ | ⟨hlt, -⟩ <;> omega

theorem BumpInv.grant_self (h : BumpInv mem word first limit granted) (hword : word + 4 ≤ mem.length)
    (hstop : readU32 mem word + len ≤ limit) (hlimit : limit ≤ mem.length)
    (hn : mem.length < 2 ^ 32) (off : Option ℕ) (hoff : ∀ o ∈ off, o = readU32 mem word) :
    BumpInv (writeU32 mem word (readU32 mem word + len)) word first limit (grant off len granted) := by
  rcases h with ⟨hfirst, -, hgranted⟩ | ⟨hlt, -⟩
  · refine .inl ?_
    rw [readU32_writeU32_self hword (by omega)]
    refine ⟨by omega, hstop, fun g hg ↦ ?_⟩
    have hold : ∀ g ∈ granted, first ≤ g.start ∧ g.stop ≤ readU32 mem word + len :=
      fun g hg ↦ ⟨(hgranted g hg).1, (hgranted g hg).2.trans (Nat.le_add_right _ _)⟩
    cases off with
    | none => exact hold g hg
    | some o =>
      rcases List.mem_cons.mp hg with rfl | hg
      · rw [hoff o rfl, Extent.stop]
        exact ⟨hfirst, le_rfl⟩
      · exact hold g hg
  · omega

/-- A request that `Holds` keeps the invariant, granted or refused. -/
theorem fetchAdd_inv (h : BumpInv mem word first limit granted) (hfirst : 0 < first)
    (hword : word + 4 ≤ mem.length) (hlimit : limit ≤ mem.length) (hn : mem.length < 2 ^ 32)
    (hend : regionEnd ≤ mem.length)
    (hold : Holds limit mem.length (readU32 mem word + len) granted) :
    (fetchAdd word first regionEnd len mem).2 = writeU32 mem word (readU32 mem word + len) ∧
    (∀ o ∈ (fetchAdd word first regionEnd len mem).1, first ≤ o ∧ o + len ≤ regionEnd) ∧
    BumpInv (fetchAdd word first regionEnd len mem).2 word first limit
      (grant (fetchAdd word first regionEnd len mem).1 len granted) := by
  have hlt : readU32 mem word + len < 2 ^ 32 := by
    rcases hold with hle | ⟨-, hlt, -⟩ <;> omega
  have hoff : ∀ o ∈ (fetchAdd word first regionEnd len mem).1,
      o = readU32 mem word ∧ o + len ≤ regionEnd := by
    intro o ho
    simp only [fetchAdd, h.seed_eq hfirst] at ho
    split_ifs at ho
    · cases ho
    · obtain rfl := Option.some.inj ho
      exact ⟨rfl, by omega⟩
  have hmoved : (fetchAdd word first regionEnd len mem).2 =
      writeU32 mem word (readU32 mem word + len) := by
    simp only [fetchAdd, h.seed_eq hfirst, Nat.mod_eq_of_lt hlt]
  rcases hold with hle | ⟨hbeyond, -, hnone⟩
  · refine ⟨hmoved, fun o ho ↦ ⟨?_, (hoff o ho).2⟩, ?_⟩
    · rw [(hoff o ho).1]
      rcases h with ⟨hge, -⟩ | ⟨hgt, -⟩ <;> omega
    · rw [hmoved]
      exact h.grant_self hword hle hlimit hn _ fun o ho ↦ (hoff o ho).1
  · have hrefused : (fetchAdd word first regionEnd len mem).1 = none := by
      rw [Option.eq_none_iff_forall_not_mem]
      intro o ho
      obtain ⟨rfl, hle⟩ := hoff o ho
      omega
    refine ⟨hmoved, by simp [hrefused], .inr ?_⟩
    rw [hmoved, readU32_writeU32_self hword hlt, length_writeU32 hword, hrefused]
    exact ⟨hbeyond, hnone⟩

theorem claim_inv (h : BumpInv mem word first limit granted) (hword : word + 4 ≤ mem.length)
    (hlimit : limit ≤ mem.length) (hn : mem.length < 2 ^ 32)
    (hstop : readU32 mem word + len ≤ limit ∨ regionEnd < readU32 mem word + len) :
    ((claim word regionEnd len mem).2 = mem ∨
      (claim word regionEnd len mem).2 = writeU32 mem word (readU32 mem word + len)) ∧
    BumpInv (claim word regionEnd len mem).2 word first limit
      (grant (claim word regionEnd len mem).1 len granted) := by
  rw [claim]
  split_ifs with hrefused
  · exact ⟨.inl rfl, h⟩
  · exact ⟨.inr rfl, h.grant_self hword (by omega) hlimit hn _ (by simp)⟩

end TakyonDb.Lib
