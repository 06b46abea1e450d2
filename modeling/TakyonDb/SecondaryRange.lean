import Mathlib.Data.List.Nodup
import TakyonDb.PadHex
import TakyonDb.SecondaryNative

namespace TakyonDb.SecondaryNative

open Lib
open Utf8 (Text)

/-- U+FFFF, put behind the separator of an upper bound. -/
def hiSentinel : Char := Char.ofNat 0xFFFF

def copyBound (s : Text) : Option Bytes :=
  let bound := Utf8.encode s
  if takyonMaxKey < bound.length then none
  else if (0 : UInt8) ∈ bound then none
  else some bound

/-- `scanRange entries key lo hi max` -/
abbrev RangeScan := Entries → Bytes → Bytes → Bytes → ℕ → List UInt32

def suffixInBounds (suffix lo hi : Bytes) : Bool :=
  if 0 < lo.length ∧ suffix < lo then false
  else if 0 < hi.length ∧ hi < suffix then false
  else true

def within (entries : Entries) (key lo hi : Bytes) : Entries :=
  entries.filter fun e ↦ key.isPrefixOf e.1 && suffixInBounds (e.1.drop key.length) lo hi

/-- The scan finds the keys between its bounds, or as many of them as fit. -/
structure RangeScan.Exact (scan : RangeScan) : Prop where
  fits : ∀ entries key lo hi max, (within entries key lo hi).length ≤ max →
    (scan entries key lo hi max).Perm ((within entries key lo hi).map Prod.snd)
  full : ∀ entries key lo hi max, max < (within entries key lo hi).length →
    (scan entries key lo hi max).length = max

namespace NativeSecondaryIndex

variable (ix : NativeSecondaryIndex) (scan : RangeScan) (entries : Entries)

def scanRange (lo hi : Text) (maxResults : ℕ) : Option (List UInt32) := do
  let key ← copyKey ix.keyPrefix
  let lo ← copyBound lo
  let hi ← copyBound hi
  if maxResults = 0 ∨ 4096 < maxResults then none
  else some (scan entries key lo hi maxResults)

def loBound (lo : Text) : Text := if lo = [] then [] else lo ++ [secondarySep]

def hiBound (hi : Text) : Text := if hi = [] then [] else hi ++ [secondarySep, hiSentinel]

def lookupRange (lo hi : Text) (maxResults : ℕ) : Option (List UInt32) :=
  ix.scanRange scan entries (loBound lo) (hiBound hi) maxResults

def lookupNumericRange (lo hi : ℤ) (maxResults : ℕ) : Option (List UInt32) := do
  if hi < lo then none
  else
    let loV ← PadHex.Client.padU32Hex lo
    let hiV ← PadHex.Client.padU32Hex hi
    ix.scanRange scan entries (loV ++ [secondarySep]) (hiV ++ [secondarySep, hiSentinel]) maxResults

end NativeSecondaryIndex

/-- A range asked for: of values, or of the numbers that padded values stand for. -/
inductive Query where
  | values (lo hi : Text)
  | numbers (lo hi : ℤ)

namespace Query

def run (ix : NativeSecondaryIndex) (scan : RangeScan) (entries : Entries) (maxResults : ℕ) :
    Query → Option (List UInt32)
  | values lo hi => ix.lookupRange scan entries lo hi maxResults
  | numbers lo hi => ix.lookupNumericRange scan entries lo hi maxResults

/-- A range with its bounds in order, over rows of its kind. -/
def Asked (rows : List Add) : Query → Prop
  | values lo hi => hi ≠ [] ∧ ¬ Utf8.encode hi < Utf8.encode lo
  | numbers lo hi => 0 ≤ lo ∧ lo ≤ hi ∧ hi ≤ 0xffffffff ∧
      ∀ a ∈ rows, ∃ n, PadHex.Client.padU32Hex n = some a.value

def Wants (a : Add) : Query → Prop
  | values lo hi => ¬ Utf8.encode a.value < Utf8.encode lo ∧ ¬ Utf8.encode hi < Utf8.encode a.value
  | numbers lo hi => ∃ n, PadHex.Client.padU32Hex n = some a.value ∧ lo ≤ n ∧ n ≤ hi

end Query

def Accepted (ix : NativeSecondaryIndex) (lo hi : Text) : Prop :=
  (copyKey ix.keyPrefix).isSome ∧ (copyBound lo).isSome ∧ (copyBound hi).isSome

/-- The comparisons with the two bounds come out as those of the values alone, or two of them come
out wrong that leave the row out all the same. -/
def Faithful (lo hi : Text) (a : Add) : Prop :=
  let value := Utf8.encode a.value
  let low := lo ≠ [] ∧ Separated.Misordered 0x1F (Utf8.encode a.pk) [] value (Utf8.encode lo)
  let high := Separated.Misordered 0x1F (Utf8.encode [hiSentinel]) (Utf8.encode a.pk) (Utf8.encode hi) value
  (value < Utf8.encode lo → low → high) ∧ (Utf8.encode hi < value → high → low) ∧
    (¬ value < Utf8.encode lo → ¬ Utf8.encode hi < value → ¬ low ∧ ¬ high)

instance (lo hi : Text) (a : Add) : Decidable (Faithful lo hi a) :=
  inferInstanceAs (Decidable ((_ → _ → _) ∧ (_ → _ → _) ∧ (_ → _ → _ ∧ _)))

/-- The bridge accepts the call, and no row's primary key or value crosses a bound with it. -/
def Query.Regular (ix : NativeSecondaryIndex) (rows : List Add) : Query → Prop
  | values lo hi => Accepted ix (NativeSecondaryIndex.loBound lo) (NativeSecondaryIndex.hiBound hi) ∧
      ∀ a ∈ rows, Faithful lo hi a
  | numbers _ hi => (copyKey ix.keyPrefix).isSome ∧
      ∀ a ∈ rows, PadHex.Client.padU32Hex hi = some a.value → ¬ Utf8.encode [hiSentinel] < Utf8.encode a.pk

def storedOffset (a : Add) : UInt32 := UInt32.ofNat a.recordOffset

open Classical in
/-- Below its cap a range lookup returns the offsets of the rows wanted. -/
def ExactRange (ix : NativeSecondaryIndex) (scan : RangeScan) (rows : List Add) (q : Query) : Prop :=
  ∀ maxResults, 0 < maxResults → maxResults ≤ 4096 →
    ∃ found, q.run ix scan (rows.map (Add.entry ix)) maxResults = some found ∧
      (found.length < maxResults → found.Perm ((rows.filter fun a ↦ q.Wants a).map storedOffset))

/-- The row's key lies between the two bounds. -/
def Add.InBounds (lo hi : Text) (a : Add) : Prop :=
  suffixInBounds (Separated.join 0x1F (Utf8.encode a.value) (Utf8.encode a.pk)) (Utf8.encode lo) (Utf8.encode hi) = true

instance (lo hi : Text) (a : Add) : Decidable (a.InBounds lo hi) := inferInstanceAs (Decidable (_ = true))

variable {ix : NativeSecondaryIndex} {scan : RangeScan} {rows : List Add} {q : Query} {lo hi : Text}

theorem copyBound_eq_some {s : Text} {b : Bytes} (h : copyBound s = some b) : b = Utf8.encode s := by
  rw [copyBound] at h
  split_ifs at h
  exact (Option.some.inj h).symm

theorem within_rows (rows : List Add) : within (rows.map (Add.entry ix)) (Utf8.encode ix.keyPrefix) (Utf8.encode lo)
    (Utf8.encode hi) = (rows.filter fun a ↦ a.InBounds lo hi).map (Add.entry ix) := by
  rw [within, List.filter_map]
  refine congrArg _ (List.filter_congr fun a _ ↦ ?_)
  have hkey : (Add.entry ix a).1 =
      Utf8.encode ix.keyPrefix ++ Separated.join 0x1F (Utf8.encode a.value) (Utf8.encode a.pk) := key_eq ix a
  have hprefix : (Utf8.encode ix.keyPrefix).isPrefixOf (Add.entry ix a).1 := by
    rw [hkey]
    exact List.isPrefixOf_iff_prefix.mpr (List.prefix_append _ _)
  rw [Function.comp_apply, hprefix, hkey, List.drop_left, Bool.true_and]
  exact Bool.decide_eq_true.symm

theorem scanRange_some (h : Accepted ix lo hi) {entries : Entries} {maxResults : ℕ} (hpos : 0 < maxResults)
    (hmax : maxResults ≤ 4096) : ix.scanRange scan entries lo hi maxResults =
      some (scan entries (Utf8.encode ix.keyPrefix) (Utf8.encode lo) (Utf8.encode hi) maxResults) := by
  obtain ⟨hk, hl, hh⟩ := h
  obtain ⟨k, hk⟩ := Option.isSome_iff_exists.mp hk
  obtain ⟨l, hl⟩ := Option.isSome_iff_exists.mp hl
  obtain ⟨u, hh⟩ := Option.isSome_iff_exists.mp hh
  rw [NativeSecondaryIndex.scanRange, hk, hl, hh, (copyKey_eq_some.mp hk).1, copyBound_eq_some hl,
    copyBound_eq_some hh]
  simp only [Option.bind_eq_bind, Option.bind_some]
  rw [if_neg (by omega)]

theorem accepted_of_scanRange {entries : Entries} {maxResults : ℕ} {found : List UInt32}
    (h : ix.scanRange scan entries lo hi maxResults = some found) : Accepted ix lo hi := by
  rw [NativeSecondaryIndex.scanRange] at h
  obtain ⟨k, hk, h⟩ := Option.bind_eq_some_iff.mp h
  obtain ⟨l, hl, h⟩ := Option.bind_eq_some_iff.mp h
  obtain ⟨u, hu, -⟩ := Option.bind_eq_some_iff.mp h
  exact ⟨Option.isSome_of_eq_some hk, Option.isSome_of_eq_some hl, Option.isSome_of_eq_some hu⟩

theorem map_entry_snd (l : List Add) : (l.map (Add.entry ix)).map Prod.snd = l.map storedOffset := by
  rw [List.map_map]
  rfl

theorem exactRange_of_inBounds (hscan : scan.Exact)
    (hrun : ∀ entries maxResults, q.run ix scan entries maxResults = ix.scanRange scan entries lo hi maxResults)
    (hacc : Accepted ix lo hi) (hrows : ∀ a ∈ rows, a.InBounds lo hi ↔ q.Wants a) : ExactRange ix scan rows q := by
  classical
  intro maxResults hpos hmax
  refine ⟨_, (hrun _ _).trans (scanRange_some hacc hpos hmax), ?_⟩
  intro hfew
  have hfits : (within (rows.map (Add.entry ix)) (Utf8.encode ix.keyPrefix) (Utf8.encode lo)
      (Utf8.encode hi)).length ≤ maxResults := by
    by_contra hmany
    exact absurd (hscan.full _ _ _ _ _ (not_le.mp hmany)) hfew.ne
  have hperm := hscan.fits _ _ _ _ _ hfits
  rw [within_rows, map_entry_snd] at hperm
  have hfilter : (rows.filter fun a ↦ a.InBounds lo hi) = rows.filter fun a ↦ q.Wants a := by
    refine List.filter_congr fun a ha ↦ ?_
    rw [decide_eq_decide]
    exact hrows a ha
  rwa [hfilter] at hperm

theorem inBounds_of_exactRange (hscan : scan.Exact)
    (hrun : ∀ entries maxResults, q.run ix scan entries maxResults = ix.scanRange scan entries lo hi maxResults)
    (hfew : rows.length < 4096) (hoffsets : (rows.map storedOffset).Nodup) (h : ExactRange ix scan rows q) :
    Accepted ix lo hi ∧ ∀ a ∈ rows, a.InBounds lo hi ↔ q.Wants a := by
  classical
  obtain ⟨found, hfound, hperm⟩ := h 4096 (by decide) (Nat.le_refl _)
  have hacc : Accepted ix lo hi := accepted_of_scanRange ((hrun _ _).symm.trans hfound)
  refine ⟨hacc, ?_⟩
  have heq := Option.some.inj (hfound.symm.trans ((hrun _ _).trans (scanRange_some hacc (by decide) (Nat.le_refl _))))
  have hlen : (within (rows.map (Add.entry ix)) (Utf8.encode ix.keyPrefix) (Utf8.encode lo)
      (Utf8.encode hi)).length < 4096 := by
    rw [within_rows, List.length_map]
    exact (List.length_filter_le _ _).trans_lt hfew
  have hscanned := hscan.fits _ _ _ _ _ hlen.le
  rw [← heq] at hscanned
  have hlength := hscanned.length_eq
  rw [List.length_map] at hlength
  have hboth := hscanned.symm.trans (hperm (by omega))
  rw [within_rows, map_entry_snd] at hboth
  intro a ha
  have hinj := List.inj_on_of_nodup_map hoffsets
  have hmem : ∀ p : Add → Bool, storedOffset a ∈ (rows.filter p).map storedOffset ↔ p a := by
    intro p
    rw [List.mem_map]
    constructor
    · intro hex
      obtain ⟨b, hb, hba⟩ := hex
      obtain ⟨hbrows, hpb⟩ := List.mem_filter.mp hb
      exact hinj hbrows ha hba ▸ hpb
    · intro hpa
      exact ⟨a, List.mem_filter.mpr ⟨ha, hpa⟩, rfl⟩
  have hiff := hboth.mem_iff (a := storedOffset a)
  rw [hmem, hmem, decide_eq_true_iff, decide_eq_true_iff] at hiff
  exact hiff

theorem encode_sep (s t : Text) :
    Utf8.encode (s ++ secondarySep :: t) = Separated.join 0x1F (Utf8.encode s) (Utf8.encode t) := by
  rw [Utf8.encode_append, Utf8.encode_cons]
  rfl

theorem suffixInBounds_iff (suffix lo hi : Bytes) : suffixInBounds suffix lo hi = true ↔
    (lo = [] ∨ ¬ suffix < lo) ∧ (hi = [] ∨ ¬ hi < suffix) := by
  rw [suffixInBounds]
  cases lo <;> cases hi <;> simp

theorem inBounds_iff (hhi : hi ≠ []) (a : Add) :
    a.InBounds (NativeSecondaryIndex.loBound lo) (NativeSecondaryIndex.hiBound hi) ↔
      (lo = [] ∨ ¬ Separated.join 0x1F (Utf8.encode a.value) (Utf8.encode a.pk) < Separated.join 0x1F (Utf8.encode lo) []) ∧
        ¬ Separated.join 0x1F (Utf8.encode hi) (Utf8.encode [hiSentinel]) <
          Separated.join 0x1F (Utf8.encode a.value) (Utf8.encode a.pk) := by
  have hjoin : ∀ (s t : Text), Separated.join (0x1F : UInt8) (Utf8.encode s) (Utf8.encode t) ≠ [] := by
    intro s t
    simp [Separated.join]
  rw [Add.InBounds, suffixInBounds_iff, NativeSecondaryIndex.hiBound, if_neg hhi, encode_sep, or_iff_right (hjoin hi _),
    NativeSecondaryIndex.loBound]
  by_cases hlo : lo = []
  · simp [hlo]
  · rw [if_neg hlo, encode_sep, or_iff_right (hjoin lo []), or_iff_right hlo]
    rfl

/-- Two comparisons, each with what makes it come out wrong, of which at most one excludes. -/
theorem between_iff {below above below' above' low high free : Prop} (hbelow : (below' ↔ below) ↔ ¬ low)
    (habove : (above' ↔ above) ↔ ¬ high) (hone : ¬ (below ∧ above)) (hfree : free → ¬ below) :
    ((free ∨ ¬ below') ∧ ¬ above' ↔ ¬ below ∧ ¬ above) ↔
      (below → ¬ free ∧ low → high) ∧ (above → high → ¬ free ∧ low) ∧
        (¬ below → ¬ above → ¬ (¬ free ∧ low) ∧ ¬ high) := by
  by_cases hb : below <;> by_cases ha : above <;> by_cases hf : free <;> simp_all
  tauto

/-- A row is taken as it should be exactly where the separator decides nothing, or nothing that matters. -/
theorem inBounds_wants_iff (hhi : hi ≠ []) (hle : ¬ Utf8.encode hi < Utf8.encode lo) (a : Add) :
    (a.InBounds (NativeSecondaryIndex.loBound lo) (NativeSecondaryIndex.hiBound hi) ↔ (Query.values lo hi).Wants a) ↔
      Faithful lo hi a := by
  have hboth : ¬ (Utf8.encode a.value < Utf8.encode lo ∧ Utf8.encode hi < Utf8.encode a.value) :=
    fun h ↦ hle (List.lt_trans h.2 h.1)
  have hnil : lo = [] → ¬ Utf8.encode a.value < Utf8.encode lo := by
    intro h
    rw [h]
    exact List.not_lt_nil _
  rw [inBounds_iff hhi]
  exact between_iff Separated.join_lt_join_iff Separated.join_lt_join_iff hboth hnil

theorem exactRange_values (hscan : scan.Exact) (hq : (Query.values lo hi).Asked rows) :
    ((Query.values lo hi).Regular ix rows → ExactRange ix scan rows (.values lo hi)) ∧
      (rows.length < 4096 → (rows.map storedOffset).Nodup → ExactRange ix scan rows (.values lo hi) →
        (Query.values lo hi).Regular ix rows) := by
  obtain ⟨hhi, hle⟩ := hq
  constructor
  · intro h
    exact exactRange_of_inBounds hscan (fun _ _ ↦ rfl) h.1 fun a ha ↦ (inBounds_wants_iff hhi hle a).mpr (h.2 a ha)
  · intro hfew hoffsets h
    obtain ⟨hacc, hrows⟩ := inBounds_of_exactRange hscan (fun _ _ ↦ rfl) hfew hoffsets h
    exact ⟨hacc, fun a ha ↦ (inBounds_wants_iff hhi hle a).mp (hrows a ha)⟩

section Numbers

open PadHex

variable {lower upper : ℤ}

theorem copyBound_isSome {s : Text} (hlen : (Utf8.encode s).length ≤ takyonMaxKey)
    (hnul : (0 : UInt8) ∉ Utf8.encode s) :
    (copyBound s).isSome := by
  rw [copyBound, if_neg (by omega), if_neg hnul]
  rfl

theorem padded_ne_nil {n : ℤ} (h : Client.padU32Hex n = some lo) : lo ≠ [] := by
  obtain ⟨v, -, hv⟩ := client_padU32Hex_eq_some h
  intro hnil
  have hlen := length_padU32Hex v
  rw [← hv, hnil] at hlen
  exact absurd hlen (by decide)

/-- The bounds of padded numbers are always accepted. -/
theorem accepted_padded (hlo : Client.padU32Hex lower = some lo) (hhi : Client.padU32Hex upper = some hi) :
    Accepted ix (NativeSecondaryIndex.loBound lo)
      (NativeSecondaryIndex.hiBound hi) ↔ (copyKey ix.keyPrefix).isSome := by
  have hbound : ∀ {n : ℤ} {s : Text} (t : Text), Client.padU32Hex n = some s → (Utf8.encode t).length ≤ 4 →
      (0 : UInt8) ∉ Utf8.encode t → (copyBound (s ++ t)).isSome := by
    intro n s t hs hlen hnul
    obtain ⟨v, -, hv⟩ := client_padU32Hex_eq_some hs
    have hmax : takyonMaxKey = 256 := rfl
    refine copyBound_isSome ?_ ?_
    · rw [Utf8.encode_append, hv, List.length_append, length_padU32Hex]
      omega
    · rw [Utf8.encode_append, hv, List.mem_append, not_or]
      exact ⟨zero_not_mem_padU32Hex v, hnul⟩
  rw [Accepted, NativeSecondaryIndex.loBound, if_neg (padded_ne_nil hlo), NativeSecondaryIndex.hiBound,
    if_neg (padded_ne_nil hhi)]
  exact and_iff_left ⟨hbound _ hlo (by decide) (by decide), hbound _ hhi (by decide) (by decide)⟩

theorem wants_padded (hlo : Client.padU32Hex lower = some lo) (hhi : Client.padU32Hex upper = some hi) {a : Add} {n : ℤ}
    (ha : Client.padU32Hex n = some a.value) :
    (Query.numbers lower upper).Wants a ↔ (Query.values lo hi).Wants a := by
  rw [Query.Wants, Query.Wants, client_padU32Hex_lt_iff ha hlo, client_padU32Hex_lt_iff hhi ha]
  constructor
  · intro h
    obtain ⟨m, hm, hlow, hhigh⟩ := h
    have hnm := mt (client_padU32Hex_lt_iff ha hm).mpr (List.lt_irrefl _)
    have hmn := mt (client_padU32Hex_lt_iff hm ha).mpr (List.lt_irrefl _)
    omega
  · intro h
    exact ⟨n, ha, not_lt.mp h.1, not_lt.mp h.2⟩

/-- Between padded numbers only the primary key of a row at the upper bound matters. -/
theorem faithful_padded (hle : lower ≤ upper) (hlo : Client.padU32Hex lower = some lo)
    (hhi : Client.padU32Hex upper = some hi) {a : Add} {n : ℤ} (ha : Client.padU32Hex n = some a.value) :
    Faithful lo hi a ↔
      (Client.padU32Hex upper = some a.value → ¬ Utf8.encode [hiSentinel] < Utf8.encode a.pk) := by
  have hlength : ∀ {n m : ℤ} {s t : Text}, Client.padU32Hex n = some s → Client.padU32Hex m = some t →
      (Utf8.encode s).length = (Utf8.encode t).length := by
    intro n m s t hs ht
    obtain ⟨v, -, hv⟩ := client_padU32Hex_eq_some hs
    obtain ⟨w, -, hw⟩ := client_padU32Hex_eq_some ht
    rw [hv, hw, length_padU32Hex, length_padU32Hex]
  have hsame : Utf8.encode hi = Utf8.encode a.value ↔ Client.padU32Hex upper = some a.value := by
    rw [hhi, Option.some.injEq, Utf8.encode_injective.eq_iff]
  rw [Faithful, Separated.misordered_iff (hlength ha hlo), Separated.misordered_iff (hlength hhi ha), ← hsame]
  have hnone : ¬ Utf8.encode a.pk < ([] : Bytes) := List.not_lt_nil _
  have hupper := client_padU32Hex_lt_iff hhi ha
  have hlower := client_padU32Hex_lt_iff ha hlo
  constructor
  · intro h heq
    have hno : ¬ Utf8.encode hi < Utf8.encode a.value := heq ▸ List.lt_irrefl _
    have hin : ¬ Utf8.encode a.value < Utf8.encode lo := by
      rw [← heq, client_padU32Hex_lt_iff hhi hlo]
      omega
    exact fun hpk ↦ (h.2.2 hin hno).2 ⟨heq, hpk⟩
  · intro h
    refine ⟨fun _ hlow ↦ absurd hlow.2.2 hnone, fun hlt hhigh ↦ ?_,
      fun _ _ ↦ ⟨fun hlow ↦ hnone hlow.2.2, fun hhigh ↦ h hhigh.1 hhigh.2⟩⟩
    rw [hhigh.1] at hlt
    exact absurd hlt (List.lt_irrefl _)

theorem run_numbers (hle : lower ≤ upper) (hlo : Client.padU32Hex lower = some lo)
    (hhi : Client.padU32Hex upper = some hi)
    (entries : Entries) (maxResults : ℕ) : (Query.numbers lower upper).run ix scan entries maxResults =
      ix.scanRange scan entries (NativeSecondaryIndex.loBound lo) (NativeSecondaryIndex.hiBound hi) maxResults := by
  rw [Query.run, NativeSecondaryIndex.lookupNumericRange, if_neg (by omega), hlo, hhi, NativeSecondaryIndex.loBound,
    if_neg (padded_ne_nil hlo), NativeSecondaryIndex.hiBound, if_neg (padded_ne_nil hhi)]
  rfl

theorem exactRange_numbers (hscan : scan.Exact) (hq : (Query.numbers lower upper).Asked rows) :
    ((Query.numbers lower upper).Regular ix rows → ExactRange ix scan rows (.numbers lower upper)) ∧
      (rows.length < 4096 → (rows.map storedOffset).Nodup → ExactRange ix scan rows (.numbers lower upper) →
        (Query.numbers lower upper).Regular ix rows) := by
  obtain ⟨hpos, hle, hmax, hrows⟩ := hq
  obtain ⟨lo, hlo⟩ : ∃ lo, Client.padU32Hex lower = some lo := ⟨_, if_neg (by omega)⟩
  obtain ⟨hi, hhi⟩ : ∃ hi, Client.padU32Hex upper = some hi := ⟨_, if_neg (by omega)⟩
  have hbytes : ¬ Utf8.encode hi < Utf8.encode lo := by
    rw [client_padU32Hex_lt_iff hhi hlo]
    omega
  have hrow : ∀ a ∈ rows, (a.InBounds (NativeSecondaryIndex.loBound lo) (NativeSecondaryIndex.hiBound hi) ↔
      (Query.numbers lower upper).Wants a) ↔
        (Client.padU32Hex upper = some a.value → ¬ Utf8.encode [hiSentinel] < Utf8.encode a.pk) := by
    intro a ha
    obtain ⟨n, hn⟩ := hrows a ha
    rw [wants_padded hlo hhi hn, inBounds_wants_iff (padded_ne_nil hhi) hbytes, faithful_padded hle hlo hhi hn]
  constructor
  · intro h
    refine exactRange_of_inBounds hscan (run_numbers hle hlo hhi) ((accepted_padded hlo hhi).mpr h.1) ?_
    exact fun a ha ↦ (hrow a ha).mpr (h.2 a ha)
  · intro hfew hoffsets h
    obtain ⟨hacc, hall⟩ := inBounds_of_exactRange hscan (run_numbers hle hlo hhi) hfew hoffsets h
    exact ⟨(accepted_padded hlo hhi).mp hacc, fun a ha ↦ (hrow a ha).mp (hall a ha)⟩

end Numbers

/-- Range lookups are exact where the separator and the sentinel decide nothing that matters, and nowhere else
as long as the rows fit under the cap and each has its own offset. -/
theorem exactRange_regular (hscan : scan.Exact) (hq : q.Asked rows) :
    (q.Regular ix rows → ExactRange ix scan rows q) ∧
      (rows.length < 4096 → (rows.map storedOffset).Nodup → ExactRange ix scan rows q → q.Regular ix rows) := by
  cases q with
  | values lo hi => exact exactRange_values hscan hq
  | numbers lower upper => exact exactRange_numbers hscan hq

/-- A scan in the order of the entries. -/
def listRangeScan : RangeScan := fun entries key lo hi max ↦ ((within entries key lo hi).map Prod.snd).take max

theorem exact_listRangeScan : listRangeScan.Exact := by
  constructor
  · intro entries key lo hi max hfew
    rw [listRangeScan, List.take_of_length_le (by rwa [List.length_map])]
  · intro entries key lo hi max hmany
    rw [listRangeScan, List.length_take, List.length_map]
    omega

theorem exactRange_regular_plainAdds :
    ((Query.values "a".toList "b".toList).Asked plainAdds ∧
      ExactRange (ageIndex false) listRangeScan plainAdds (.values "a".toList "b".toList)) ∧
    (Query.values "a".toList "b".toList).Regular (ageIndex false) plainAdds := by
  have hasked : (Query.values "a".toList "b".toList).Asked plainAdds := ⟨by decide, by decide⟩
  have hregular : (Query.values "a".toList "b".toList).Regular (ageIndex false) plainAdds :=
    ⟨⟨by decide, by decide, by decide⟩, by decide⟩
  exact ⟨⟨hasked, (exactRange_regular exact_listRangeScan hasked).1 hregular⟩, hregular⟩

/-- A value that extends the upper bound with a tab. -/
def tabAdds : List Add := [⟨['a', Char.ofNat 9], ['k'], 64⟩]

theorem not_exactRange_tabAdds : (Query.values [] ['a']).Asked tabAdds ∧
    ¬ ExactRange (ageIndex false) listRangeScan tabAdds (.values [] ['a']) := by
  refine ⟨⟨by decide, by decide⟩, ?_⟩
  intro h
  obtain ⟨-, hrows⟩ := inBounds_of_exactRange exact_listRangeScan (fun _ _ ↦ rfl) (by decide) (by decide) h
  obtain ⟨-, hhigh⟩ := (hrows ⟨['a', Char.ofNat 9], ['k'], 64⟩ (by decide)).mp (by decide)
  exact hhigh (by decide)

end TakyonDb.SecondaryNative
