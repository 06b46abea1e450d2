import Mathlib.Data.Int.Bitwise
import TakyonDb.Lib.Digits
import TakyonDb.Lib.JsBits
import TakyonDb.Lib.Utf8

namespace TakyonDb.PadHex

open Lib

def digits : Bytes := Utf8.encode "0123456789abcdef".toList

def digit (n : ℕ) : UInt8 := digits.getD n 0

/-- The loop that fills `out` from its last place to its first. -/
def hexLoop {w : ℕ} : ℕ → BitVec w → Bytes → Bytes
  | 0, _, out => out
  | i + 1, v, out => hexLoop i (v >>> 4) (digit (v &&& 0xF#w).toNat :: out)

def padU32Hex (value : UInt32) : Bytes := hexLoop 8 value.toBitVec []

def bias (value : Int64) : BitVec 64 := value.toBitVec ^^^ 0x8000000000000000#64

/-- The high 32 bits folded into the low ones. -/
def fold (value : Int64) : BitVec 32 := (bias value >>> 32 ^^^ bias value &&& 0xFFFFFFFF#64).setWidth 32

def padI64Hex (value : Int64) : Bytes := padU32Hex ⟨fold value⟩

def padI64Hex16 (value : Int64) : Bytes := hexLoop 16 (bias value) []

namespace Client

open Utf8 (Text)

def maxSafeInteger : ℤ := 2 ^ 53 - 1

def toString16 (n : ℤ) : Text := if n < 0 then '-' :: Nat.toDigits 16 (-n).toNat else Nat.toDigits 16 n.toNat

def padStart (k : ℕ) (s : Text) : Text := s.leftpad k '0'

def padU32Hex (value : ℤ) : Option Text :=
  if value < 0 ∨ 0xffffffff < value then none
  else some (padStart 8 (toString16 (JsBits.ushr value 0)))

def padI64Hex16 (value : ℤ) : Option Text :=
  if maxSafeInteger < |value| then none
  else
    let biased := Int.xor value 0x8000000000000000
    some (padStart 16 (toString16 (Int.land biased 0xFFFFFFFFFFFFFFFF)))

end Client

theorem ascending_digit : Digits.Ascending digit 16 := by
  have h : ∀ i j : Fin 16, digit i < digit j ↔ i < j := by decide
  intro i hi j hj
  exact h ⟨i, hi⟩ ⟨j, hj⟩

theorem hexLoop_eq {w : ℕ} (hw : 4 ≤ w) (k : ℕ) (v : BitVec w) (out : Bytes) :
    hexLoop k v out = Digits.render digit 16 k v.toNat out := by
  induction k generalizing v out with
  | zero => rfl
  | succ k ih =>
    have hpow : 16 ≤ 2 ^ w := Nat.pow_le_pow_right Nat.two_pos hw
    have hlow : (v &&& 0xF#w).toNat = v.toNat % 16 := by
      rw [BitVec.toNat_and, BitVec.toNat_ofNat, Nat.mod_eq_of_lt (by omega)]
      exact Nat.and_two_pow_sub_one_eq_mod v.toNat 4
    have hhigh : (v >>> 4).toNat = v.toNat / 16 := by
      rw [BitVec.toNat_ushiftRight, Nat.shiftRight_eq_div_pow]
    rw [hexLoop, ih, hlow, hhigh, Digits.render]

theorem hexLoop_lt_iff {w k : ℕ} (hw : 4 ≤ w) (hk : w = 4 * k) (v u : BitVec w) :
    hexLoop k v [] < hexLoop k u [] ↔ v.toNat < u.toNat := by
  have hpow : 2 ^ w = 16 ^ k := by rw [hk, Nat.pow_mul]
  rw [hexLoop_eq hw, hexLoop_eq hw]
  exact Digits.render_lt_iff (by decide) ascending_digit (hpow ▸ v.isLt) (hpow ▸ u.isLt)

theorem padU32Hex_lt_iff (a b : UInt32) : padU32Hex a < padU32Hex b ↔ a < b :=
  hexLoop_lt_iff (by decide) rfl _ _

/-- Flipping the sign bit adds what the smallest number is short of zero. -/
theorem toNat_bias (value : Int64) : ((bias value).toNat : ℤ) = value.toInt + 2 ^ 63 := by
  rw [← Int64.toInt_toBitVec, bias]
  generalize value.toBitVec = x
  have hx := x.isLt
  have hdiv : (x.toNat ^^^ 2 ^ 63) / 2 ^ 63 = x.toNat / 2 ^ 63 ^^^ 1 := by rw [Nat.xor_div_two_pow]; rfl
  have hmod : (x.toNat ^^^ 2 ^ 63) % 2 ^ 63 = x.toNat % 2 ^ 63 := by
    rw [Nat.xor_mod_two_pow, Nat.mod_self, Nat.xor_zero]
  have hxor : (x ^^^ 0x8000000000000000#64).toNat = x.toNat ^^^ 2 ^ 63 := by
    rw [BitVec.toNat_xor]
    rfl
  have hsplit := Nat.div_add_mod (x.toNat ^^^ 2 ^ 63) (2 ^ 63)
  rw [hxor, BitVec.toInt_eq_toNat_cond]
  rcases Nat.lt_or_ge x.toNat (2 ^ 63) with hlt | hge
  · have hzero : x.toNat / 2 ^ 63 = 0 := Nat.div_eq_of_lt hlt
    rw [hzero, Nat.zero_xor] at hdiv
    rw [if_pos (by omega)]
    omega
  · have hone : x.toNat / 2 ^ 63 = 1 := by omega
    rw [hone, Nat.xor_self] at hdiv
    rw [if_neg (by omega)]
    omega

theorem padI64Hex16_lt_iff (a b : Int64) : padI64Hex16 a < padI64Hex16 b ↔ a < b := by
  have ha := toNat_bias a
  have hb := toNat_bias b
  rw [padI64Hex16, padI64Hex16, hexLoop_lt_iff (by decide) rfl, Int64.lt_iff_toInt_lt]
  omega

/-- The `k`-th bits of the two halves of `value + 2 ^ 63` differ. -/
def Split (value : Int64) (k : ℕ) : Prop :=
  (value.toInt / 2 ^ 32 + 2 ^ 31).toNat.testBit k ≠ (value.toInt % 2 ^ 32).toNat.testBit k

instance (value : Int64) (k : ℕ) : Decidable (Split value k) := inferInstanceAs (Decidable (_ ≠ _))

/-- Where the two numbers are last not split alike, it is `b` that is. -/
def SplitsLast (a b : Int64) : Prop :=
  ∃ k < 32, (∀ j, k < j → j < 32 → (Split a j ↔ Split b j)) ∧ ¬ Split a k ∧ Split b k

theorem toNat_fold (value : Int64) :
    (fold value).toNat = (value.toInt / 2 ^ 32 + 2 ^ 31).toNat ^^^ (value.toInt % 2 ^ 32).toNat := by
  have hbias := toNat_bias value
  have hlt := (bias value).isLt
  have hhigh : (bias value >>> 32).toNat = (value.toInt / 2 ^ 32 + 2 ^ 31).toNat := by
    rw [BitVec.toNat_ushiftRight, Nat.shiftRight_eq_div_pow]
    omega
  have hlow : (bias value &&& 0xFFFFFFFF#64).toNat = (value.toInt % 2 ^ 32).toNat := by
    have hand := Nat.and_two_pow_sub_one_eq_mod (bias value).toNat 32
    have hmask : (0xFFFFFFFF#64).toNat = 2 ^ 32 - 1 := by decide
    rw [BitVec.toNat_and, hmask, hand]
    omega
  rw [fold, BitVec.toNat_setWidth, BitVec.toNat_xor, hhigh, hlow]
  exact Nat.mod_eq_of_lt (Nat.xor_lt_two_pow (by omega) (by omega))

theorem testBit_fold (value : Int64) (k : ℕ) : (fold value).toNat.testBit k = decide (Split value k) := by
  have hxor : ∀ x y : Bool, (x ^^ y) = true ↔ x ≠ y := by decide
  rw [toNat_fold, Nat.testBit_xor, Bool.eq_iff_iff, decide_eq_true_eq]
  exact hxor _ _

theorem padI64Hex_lt_iff_fold (a b : Int64) : padI64Hex a < padI64Hex b ↔ (fold a).toNat < (fold b).toNat :=
  hexLoop_lt_iff (by decide) rfl _ _

theorem padI64Hex_lt_iff (a b : Int64) : padI64Hex a < padI64Hex b ↔ SplitsLast a b := by
  rw [padI64Hex_lt_iff_fold, Digits.lt_iff_testBit (fold a).isLt (fold b).isLt]
  simp only [testBit_fold, decide_eq_decide, decide_eq_false_iff_not, decide_eq_true_eq, SplitsLast]

/-- A padded number is its digits at that width. -/
theorem padStart_toDigits {k n : ℕ} (hk : 0 < k) (hn : n < 16 ^ k) :
    Client.padStart k (Nat.toDigits 16 n) = Digits.render Nat.digitChar 16 k n [] := by
  have hsnoc : ∀ (i : ℕ) (s : Utf8.Text) (c : Char),
      Client.padStart (i + 1) (s ++ [c]) = Client.padStart i s ++ [c] := by
    intro i s c
    simp [Client.padStart, List.leftpad]
  induction k generalizing n with
  | zero => exact absurd hk (Nat.lt_irrefl 0)
  | succ k ih =>
    rcases Nat.eq_zero_or_pos k with hzero | hpos
    · have hsmall : n < 16 := by simpa [hzero] using hn
      rw [hzero, Nat.toDigits_of_lt_base hsmall, Digits.render_succ, Nat.mod_eq_of_lt hsmall]
      rfl
    · have hdiv := ih hpos (Nat.div_lt_of_lt_mul (by rwa [Nat.mul_comm, ← Nat.pow_succ]))
      rw [Digits.render_succ, ← hdiv]
      rcases Nat.lt_or_ge n 16 with hlt | hge
      · rw [Nat.toDigits_of_lt_base hlt, Nat.div_eq_of_lt hlt, Nat.mod_eq_of_lt hlt, Nat.toDigits_zero]
        have hone : Client.padStart k ['0'] = Client.padStart k [] := by
          obtain ⟨i, rfl⟩ := Nat.exists_eq_succ_of_ne_zero hpos.ne'
          simp [Client.padStart, List.leftpad, List.replicate_succ']
        rw [hone, ← hsnoc]
        rfl
      · rw [Nat.toDigits_of_base_le (by decide) hge, hsnoc]

theorem encode_render (k n : ℕ) :
    Utf8.encode (Digits.render Nat.digitChar 16 k n []) = Digits.render digit 16 k n [] := by
  have hdigit : ∀ d : Fin 16, Utf8.encode [Nat.digitChar d] = [digit d] := by decide
  induction k generalizing n with
  | zero => rfl
  | succ k ih =>
    have hlast := hdigit ⟨n % 16, Nat.mod_lt n (by decide)⟩
    rw [Digits.render_succ, Digits.render_succ, ← ih, ← hlast, Utf8.encode, List.flatMap_append]
    rfl

theorem client_padU32Hex {value : ℤ} {s : Utf8.Text} (h : Client.padU32Hex value = some s) {v : UInt32}
    (hv : (v.toNat : ℤ) = value) : Utf8.encode s = padU32Hex v := by
  have hlt := v.toNat_lt
  have hshift : JsBits.ushr value 0 = v.toNat := by
    rw [JsBits.ushr, ← hv, BitVec.ofInt_natCast, BitVec.ushiftRight_zero, BitVec.toNat_ofNat, Nat.mod_eq_of_lt hlt]
  rw [Client.padU32Hex, if_neg (by omega), Option.some.injEq, hshift, Client.toString16, if_neg (by omega),
    Int.toNat_natCast, padStart_toDigits (by decide) hlt] at h
  rw [← h, encode_render, padU32Hex, hexLoop_eq (by decide)]
  rfl

theorem client_padU32Hex_eq_some {value : ℤ} {s : Utf8.Text} (h : Client.padU32Hex value = some s) :
    ∃ v : UInt32, (v.toNat : ℤ) = value ∧ Utf8.encode s = padU32Hex v := by
  have hrange : 0 ≤ value ∧ value ≤ 0xffffffff := by
    rw [Client.padU32Hex] at h
    split_ifs at h
    omega
  have hv : ((UInt32.ofNat value.toNat).toNat : ℤ) = value := by
    rw [UInt32.toNat_ofNat']
    omega
  exact ⟨_, hv, client_padU32Hex h hv⟩

/-- Padded numbers are ordered by their bytes. -/
theorem client_padU32Hex_lt_iff {a b : ℤ} {s t : Utf8.Text} (hs : Client.padU32Hex a = some s)
    (ht : Client.padU32Hex b = some t) : Utf8.encode s < Utf8.encode t ↔ a < b := by
  obtain ⟨v, hv, hsv⟩ := client_padU32Hex_eq_some hs
  obtain ⟨w, hw, htw⟩ := client_padU32Hex_eq_some ht
  rw [hsv, htw, padU32Hex_lt_iff, UInt32.lt_iff_toNat_lt]
  omega

theorem length_padU32Hex (v : UInt32) : (padU32Hex v).length = 8 := by
  rw [padU32Hex, hexLoop_eq (by decide), Digits.length_render]
  rfl

theorem zero_not_mem_padU32Hex (v : UInt32) : (0 : UInt8) ∉ padU32Hex v := by
  have hdigit : ∀ d : Fin 16, (0 : UInt8) ≠ digit d := by decide
  rw [padU32Hex, hexLoop_eq (by decide)]
  intro h
  rcases Digits.mem_render digit 16 (by decide) h with hnil | hex
  · exact absurd hnil List.not_mem_nil
  · obtain ⟨i, hi, hzero⟩ := hex
    exact hdigit ⟨i, hi⟩ hzero

/-- On the low 64 bits the operators of big integers are those of machine words. -/
theorem land_xor (value : ℤ) : Int.land (Int.xor value 0x8000000000000000) 0xFFFFFFFFFFFFFFFF =
    (BitVec.ofInt 64 value ^^^ 0x8000000000000000#64).toNat := by
  have hmask : (0xFFFFFFFFFFFFFFFF : ℕ) = 2 ^ 64 - 1 := by decide
  cases value with
  | ofNat n =>
    have hland : Int.land (Int.xor n 0x8000000000000000) 0xFFFFFFFFFFFFFFFF =
        (((n ^^^ 0x8000000000000000) &&& 0xFFFFFFFFFFFFFFFF : ℕ) : ℤ) := rfl
    have hofInt : BitVec.ofInt 64 (Int.ofNat n) = BitVec.ofNat 64 n := BitVec.ofInt_natCast 64 n
    rw [hofInt, Int.ofNat_eq_natCast, hland, hmask, Nat.and_two_pow_sub_one_eq_mod, BitVec.toNat_xor,
      Nat.xor_mod_two_pow]
    rfl
  | negSucc n =>
    have hland : Int.land (Int.xor (Int.negSucc n) 0x8000000000000000) 0xFFFFFFFFFFFFFFFF =
        ((Nat.ldiff 0xFFFFFFFFFFFFFFFF (n ^^^ 0x8000000000000000) : ℕ) : ℤ) := rfl
    have hofInt : BitVec.ofInt 64 (Int.negSucc n) = ~~~ BitVec.ofNat 64 n := BitVec.ofInt_negSucc_eq_not_ofNat
    rw [hland, hofInt, Int.natCast_inj, hmask]
    refine Nat.eq_of_testBit_eq fun k ↦ ?_
    rw [Nat.testBit_ldiff, Nat.testBit_two_pow_sub_one, Nat.testBit_xor, BitVec.testBit_toNat, BitVec.getLsbD_xor,
      BitVec.getLsbD_not, BitVec.getLsbD_ofNat, BitVec.getLsbD_ofNat]
    cases decide (k < 64) <;> simp

theorem client_padI64Hex16 {value : ℤ} {s : Utf8.Text} (h : Client.padI64Hex16 value = some s) {v : Int64}
    (hv : v.toInt = value) : Utf8.encode s = padI64Hex16 v := by
  have hword : BitVec.ofInt 64 value = v.toBitVec := by
    rw [← hv, ← Int64.toInt_toBitVec, BitVec.ofInt_toInt]
  have hsafe : ¬ Client.maxSafeInteger < |value| := by
    intro hbig
    rw [Client.padI64Hex16, if_pos hbig] at h
    exact absurd h (by simp)
  have hbias : (BitVec.ofInt 64 value ^^^ 0x8000000000000000#64) = bias v := by rw [hword, bias]
  rw [Client.padI64Hex16, if_neg hsafe, Option.some.injEq, land_xor, hbias, Client.toString16, if_neg (by omega),
    Int.toNat_natCast, padStart_toDigits (by decide) (bias v).isLt] at h
  rw [← h, encode_render, padI64Hex16, hexLoop_eq (by decide)]

/-- What the encoders are called on: two numbers of one encoder, or one number of both languages. -/
inductive Case where
  | padU32Hex (a b : UInt32)
  | padI64Hex (a b : Int64)
  | padI64Hex16 (a b : Int64)
  | clientPadU32Hex (value : ℤ)
  | clientPadI64Hex16 (value : ℤ)

def Case.Lawful : Case → Prop
  | .padU32Hex a b => a < b ↔ PadHex.padU32Hex a < PadHex.padU32Hex b
  | .padI64Hex a b => a < b ↔ PadHex.padI64Hex a < PadHex.padI64Hex b
  | .padI64Hex16 a b => a < b ↔ PadHex.padI64Hex16 a < PadHex.padI64Hex16 b
  | .clientPadU32Hex value => ∀ s, Client.padU32Hex value = some s →
      ∀ v : UInt32, v.toNat = value → Utf8.encode s = PadHex.padU32Hex v
  | .clientPadI64Hex16 value => ∀ s, Client.padI64Hex16 value = some s →
      ∀ v : Int64, v.toInt = value → Utf8.encode s = PadHex.padI64Hex16 v

def Case.Unfolded : Case → Prop
  | .padI64Hex a b => a < b ↔ SplitsLast a b
  | _ => True

/-- Only the encoder that folds 64 bits into 32 can lose the order. -/
theorem lawful_iff (c : Case) : c.Lawful ↔ c.Unfolded := by
  cases c with
  | padU32Hex a b => exact iff_of_true (padU32Hex_lt_iff a b).symm trivial
  | padI64Hex a b => rw [Case.Lawful, padI64Hex_lt_iff, Case.Unfolded]
  | padI64Hex16 a b => exact iff_of_true (padI64Hex16_lt_iff a b).symm trivial
  | clientPadU32Hex value => exact iff_of_true (fun _ h _ hv ↦ client_padU32Hex h hv) trivial
  | clientPadI64Hex16 value => exact iff_of_true (fun _ h _ hv ↦ client_padI64Hex16 h hv) trivial

/-- A number below `2 ^ 31` has only the sign bit in its high half. -/
theorem toNat_fold_small {value : Int64} (hpos : 0 ≤ value.toInt) (hlt : value.toInt < 2 ^ 31) :
    ((fold value).toNat : ℤ) = 2 ^ 31 + value.toInt := by
  have hfold := toNat_fold value
  have hbias : (value.toInt / 2 ^ 32 + 2 ^ 31).toNat = 2 ^ 31 := by omega
  have hrest : (value.toInt % 2 ^ 32).toNat = value.toInt.toNat := by omega
  rw [hbias, hrest] at hfold
  have hsmall : value.toInt.toNat / 2 ^ 31 = 0 := by omega
  have hhigh : (2 ^ 31 ^^^ value.toInt.toNat) / 2 ^ 31 = 1 := by
    rw [Nat.xor_div_two_pow, hsmall]
    rfl
  have hlow : (2 ^ 31 ^^^ value.toInt.toNat) % 2 ^ 31 = value.toInt.toNat := by
    rw [Nat.xor_mod_two_pow, Nat.mod_self, Nat.zero_xor, Nat.mod_eq_of_lt (by omega)]
  rw [← hfold] at hhigh hlow
  omega

/-- The folding encoder keeps the order of the numbers from zero below `2 ^ 31`. -/
theorem unfolded_of_small {a b : Int64} (ha : 0 ≤ a.toInt ∧ a.toInt < 2 ^ 31) (hb : 0 ≤ b.toInt ∧ b.toInt < 2 ^ 31) :
    (Case.padI64Hex a b).Unfolded := by
  have hfolda := toNat_fold_small ha.1 ha.2
  have hfoldb := toNat_fold_small hb.1 hb.2
  rw [Case.Unfolded, ← padI64Hex_lt_iff, padI64Hex_lt_iff_fold, Int64.lt_iff_toInt_lt]
  omega

theorem not_lawful_neg_one : ¬ (Case.padI64Hex (-1) 0).Lawful := by
  have hlt : (-1 : Int64) < 0 := by decide
  have hsame : padI64Hex (-1) = padI64Hex 0 := by decide
  intro h
  exact absurd (h.mp hlt) (hsame ▸ List.lt_irrefl _)

end TakyonDb.PadHex
