import TakyonDb.Lib.Bytes

namespace TakyonDb.Lib.Utf8

/-- A well-formed string, as its code points. -/
abbrev Text := List Char

/-- U+FFFD. -/
def replacement : Char := Char.ofNat 0xFFFD

/-- U+FEFF. -/
def bom : Char := Char.ofNat 0xFEFF

def encode (s : Text) : Bytes := s.flatMap String.utf8EncodeChar

/-- The length of a string in 16-bit code units. -/
def utf16Length (s : Text) : ℕ := (s.map fun c ↦ if c.val.toNat < 0x10000 then 1 else 2).sum

def continues (lower upper : UInt8) : Bytes → Bool
  | b :: _ => lower ≤ b ∧ b ≤ upper
  | [] => false

/-- How many bytes at the front of an ill-formed sequence are replaced as one. -/
def illFormedLength : Bytes → ℕ
  | b :: bs =>
    let lower := if b = 0xE0 then 0xA0 else if b = 0xF0 then 0x90 else 0x80
    let upper := if b = 0xED then 0x9F else if b = 0xF4 then 0x8F else 0xBF
    if b < 0xE0 ∨ 0xF4 < b ∨ ¬ continues lower upper bs then 1
    else if b < 0xF0 ∨ ¬ continues 0x80 0xBF (bs.drop 1) then 2
    else 3
  | [] => 1

theorem illFormedLength_pos (bs : Bytes) : 0 < illFormedLength bs := by
  cases bs with
  | nil => exact Nat.one_pos
  | cons b bs =>
    simp only [illFormedLength]
    by_cases hone : b < 0xE0 ∨ 0xF4 < b ∨ ¬ continues (if b = 0xE0 then 0xA0 else if b = 0xF0 then 0x90 else 0x80)
        (if b = 0xED then 0x9F else if b = 0xF4 then 0x8F else 0xBF) bs
    · rw [if_pos hone]
      exact Nat.one_pos
    · rw [if_neg hone]
      by_cases htwo : b < 0xF0 ∨ ¬ continues 0x80 0xBF (bs.drop 1)
      · rw [if_pos htwo]
        exact Nat.two_pos
      · rw [if_neg htwo]
        exact Nat.succ_pos 2

/-- Decodes with replacement characters for what is ill-formed. -/
def decodeLossy (bs : Bytes) : Text :=
  if _h : bs = [] then []
  else match bs.toByteArray.utf8DecodeChar? 0 with
    | some c => c :: decodeLossy (bs.drop c.utf8Size)
    | none => replacement :: decodeLossy (bs.drop (illFormedLength bs))
termination_by bs.length
decreasing_by
  all_goals
    have hpos := List.length_pos_iff.mpr _h
    rw [List.length_drop]
  · have hc := c.utf8Size_pos
    omega
  · have hn := illFormedLength_pos bs
    omega

def dropBom (s : Text) : Text := if s.head? = some bom then s.tail else s

/-- Decodes as a default `TextDecoder`: a leading byte order mark is dropped. -/
def decode (bs : Bytes) : Text := dropBom (decodeLossy bs)

theorem decodeLossy_encode (s : Text) : decodeLossy (encode s) = s := by
  induction s with
  | nil =>
    rw [encode, List.flatMap_nil, decodeLossy, dif_pos rfl]
  | cons c s ih =>
    have hne : encode (c :: s) ≠ [] := by
      rw [encode, List.flatMap_cons]
      exact fun hnil ↦ String.utf8EncodeChar_ne_nil (List.append_eq_nil_iff.mp hnil).1
    have hfirst : (encode (c :: s)).toByteArray.utf8DecodeChar? 0 = some c := by
      rw [encode, List.flatMap_cons, List.toByteArray_append]
      exact ByteArray.utf8DecodeChar?_utf8EncodeChar_append
    have hdrop : (encode (c :: s)).drop c.utf8Size = encode s := by
      rw [encode, List.flatMap_cons, ← String.length_utf8EncodeChar, List.drop_left]
      rfl
    rw [decodeLossy, dif_neg hne]
    simp only [hfirst, hdrop, ih]

theorem encode_injective : Function.Injective encode := by
  intro s t h
  rw [← decodeLossy_encode s, h, decodeLossy_encode]

theorem decode_encode (s : Text) : decode (encode s) = dropBom s := by
  rw [decode, decodeLossy_encode]

theorem dropBom_eq_self_iff (s : Text) : dropBom s = s ↔ s.head? ≠ some bom := by
  unfold dropBom
  split
  · rename_i hbom
    refine iff_of_false (fun heq ↦ ?_) (not_not.mpr hbom)
    have hne : s ≠ [] := fun hnil ↦ absurd (hnil ▸ hbom) nofun
    have hlen := congrArg List.length heq
    have hpos := List.length_pos_iff.mpr hne
    rw [List.length_tail] at hlen
    omega
  · rename_i hbom
    exact iff_of_true rfl hbom

@[simp] theorem encode_nil : encode [] = [] := rfl

theorem encode_cons (c : Char) (s : Text) : encode (c :: s) = String.utf8EncodeChar c ++ encode s :=
  List.flatMap_cons

theorem encode_append (s t : Text) : encode (s ++ t) = encode s ++ encode t := List.flatMap_append

theorem length_encode_pos {s : Text} : 0 < (encode s).length ↔ s ≠ [] := by
  cases s with
  | nil => simp
  | cons c s =>
    have hc := c.utf8Size_pos
    rw [encode_cons, List.length_append, String.length_utf8EncodeChar]
    refine iff_of_true (by omega) (List.cons_ne_nil _ _)

theorem units_le (c : Char) : (if c.val.toNat < 0x10000 then 1 else 2) ≤ (String.utf8EncodeChar c).length := by
  simp only [String.utf8EncodeChar]
  split_ifs <;> simp only [List.length_cons, List.length_nil] <;> omega

theorem utf16Length_le (s : Text) : utf16Length s ≤ (encode s).length := by
  induction s with
  | nil => exact le_rfl
  | cons c s ih =>
    have hc := units_le c
    rw [encode_cons, List.length_append]
    rw [utf16Length] at ih ⊢
    rw [List.map_cons, List.sum_cons]
    omega

theorem length_le_units (c : Char) :
    (String.utf8EncodeChar c).length ≤ 3 * if c.val.toNat < 0x10000 then 1 else 2 := by
  simp only [String.utf8EncodeChar]
  split_ifs <;> simp only [List.length_cons, List.length_nil] <;> omega

theorem length_encode_le (s : Text) : (encode s).length ≤ 3 * utf16Length s := by
  induction s with
  | nil => exact le_rfl
  | cons c s ih =>
    have hc := length_le_units c
    rw [encode_cons, List.length_append]
    rw [utf16Length] at ih ⊢
    rw [List.map_cons, List.sum_cons]
    omega

end TakyonDb.Lib.Utf8
