import Mathlib.Data.Set.Card
import TakyonDb.Art.Removal
import TakyonDb.Art.ScanEntries

namespace TakyonDb.Art

open Lib Set Heap Art.Tree

section Rules

variable {mem pre lo hi : Bytes}

theorem starts_iff {key : Bytes} : pre.isPrefixOf key = true ↔ pre <+: key := List.isPrefixOf_iff_prefix

theorem isPrefixOf_false_of_lt {key : Bytes} (h : key.length < pre.length) : pre.isPrefixOf key = false := by
  rw [Bool.eq_false_iff]
  intro hpre
  exact absurd (starts_iff.mp hpre).length_le (not_le.mpr h)

theorem agrees_starts (mem pre : Bytes) : Agrees mem pre (prefixRules mem pre) (fun k ↦ pre.isPrefixOf k)
    (fun _ ↦ false) where
  takes {off key value} hst hlaid := by
    have hfit := hlaid.leaf_fits
    have hheader : leafHeader = 8 := rfl
    obtain ⟨hlen, -, hkey⟩ := hst
    simp only [prefixRules, leafStartsWith, hlen, hkey]
    split_ifs with hbad
    · exact (isPrefixOf_false_of_lt (by omega)).symm
    · rfl
  above _ := rfl
  roomy hsp _ := decide_eq_false (not_le.mpr hsp)

/-- The keys that a range scan takes. -/
def takesRange (pre lo hi key : Bytes) : Bool := pre.isPrefixOf key && suffixInBounds (key.drop pre.length) lo hi

/-- The paths that a range scan leaves at once. -/
def aboveRange (hi tail : Bytes) : Bool := 0 < hi.length ∧ order tail hi = .gt

theorem agrees_range (mem pre lo hi : Bytes) :
    Agrees mem pre (rangeRules mem pre lo hi) (takesRange pre lo hi) (aboveRange hi) where
  takes {off key value} hst hlaid := by
    have hfit := hlaid.leaf_fits
    have hheader : leafHeader = 8 := rfl
    obtain ⟨hlen, -, hkey⟩ := hst
    simp only [rangeRules, leafInRange, hlen, hkey, takesRange]
    split_ifs with hbad hpre
    · rw [isPrefixOf_false_of_lt (by omega), Bool.false_and]
    · rw [hpre, Bool.true_and]
    · rw [Bool.not_eq_true] at hpre
      rw [hpre, Bool.false_and]
  above {path tail} htail := by
    have hslice : slice path pre.length (pre.length + tail.length - pre.length) = tail := by
      rw [Nat.add_sub_cancel_left, slice]
      exact (List.prefix_iff_eq_take.mp htail).symm
    simp only [rangeRules, aboveRange, hslice, Nat.le_add_right, true_and]
  roomy hsp hdepth := decide_eq_false (not_or.mpr ⟨not_le.mpr hsp, not_le.mpr hdepth⟩)

theorem order_swap : ∀ a b : Bytes, order b a = (order a b).swap
  | [], [] => rfl
  | [], _ :: _ => rfl
  | _ :: _, [] => rfl
  | a :: as, b :: bs => by
    rw [order, order]
    by_cases hab : a < b
    · have hba : ¬ b < a := UInt8.lt_asymm hab
      rw [if_pos hab, if_neg hba, if_pos hab]
      rfl
    · rw [if_neg hab]
      split_ifs
      · rfl
      · exact order_swap as bs

/-- Past the upper bound, everything that goes on from a path is past it as well. -/
theorem order_gt_of_front : ∀ {a b c : Bytes}, order a c = .gt → a <+: b → order b c = .gt
  | [], _, [], h, _ => by cases h
  | [], _, _ :: _, h, _ => by cases h
  | a :: as, b, [], _, hpre => by
    obtain ⟨r, rfl⟩ := hpre
    rfl
  | a :: as, b, c :: cs, h, hpre => by
    obtain ⟨r, rfl⟩ := hpre
    rw [List.cons_append, order]
    rw [order] at h
    split_ifs at h ⊢ with h₁ h₂
    · rfl
    · exact order_gt_of_front h (List.prefix_append as r)

theorem range_cut {off : ℕ} {shape : Shape} {kids : UInt8 → Tree} {tail : Bytes}
    (hwf : (inner off shape kids).WF (pre ++ tail)) (habove : aboveRange hi tail = true) :
    ∀ e ∈ (inner off shape kids).entries, takesRange pre lo hi e.1 = false := by
  intro e he
  obtain ⟨hhi, hlt⟩ := of_decide_eq_true habove
  have hfront : pre ++ tail <+: e.1 := by
    have hpath := (entries_valid hwf he).2
    rcases List.prefix_concat_iff.mp hpath with heq | h
    · exact absurd (show terminator ∈ pre ++ tail by rw [heq]; simp) hwf.2.1
    · exact h
  have hsuffix : tail <+: e.1.drop pre.length := by
    have h := hfront.drop pre.length
    rwa [List.drop_left] at h
  have hout : suffixInBounds (e.1.drop pre.length) lo hi = false := by
    rw [suffixInBounds]
    split_ifs with h₁ h₂
    · rfl
    · rfl
    · exact absurd ⟨hhi, order_gt_of_front hlt hsuffix⟩ h₂
  rw [takesRange, hout, Bool.and_false]

end Rules

section Found

variable {ix : ArtIndex} {limit : ℕ} {s s₀ : ArtState} {h : Heap} {root : Tree} {pre : Bytes}

/-- A search for the key finds the value. -/
def Answers (ix : ArtIndex) (mem : Bytes) (e : Bytes × UInt32) : Prop :=
  search ix e.1 (maxDepth + 1) mem = .ok (some e.2)

/-- The stored keys with the prefix. -/
def Matching (ix : ArtIndex) (mem pre : Bytes) : Set Bytes := {k | pre <+: k ∧ ∃ v, Answers ix mem (k, v)}

theorem Indexed.answers_iff (hx : Indexed ix limit s h root)
    (e : Bytes × UInt32) : Answers ix s.mem e ↔ e ∈ root.entries := by
  rw [Answers, hx.search e.1 (Nat.lt_succ_self _), Except.ok.injEq]
  exact ((mem_entries hx.wf).trans (and_iff_right List.nil_prefix)).symm

/-- The entries under a prefix, in the order in which a scan meets them. -/
def Tree.found (root : Tree) (pre : Bytes) : List (Bytes × UInt32) :=
  (root.under pre).entries.filter fun e ↦ pre.isPrefixOf e.1

theorem Indexed.mem_found (hx : Indexed ix limit s h root) (e : Bytes × UInt32) :
    e ∈ root.found pre ↔ pre <+: e.1 ∧ Answers ix s.mem e := by
  rw [Tree.found, List.mem_filter, starts_iff, hx.answers_iff, and_comm]
  exact and_congr_right fun hpre ↦ under_entries hx.wf (by rwa [List.nil_append])

theorem Tree.nodup_found (hwf : root.WF []) (pre : Bytes) : ((root.found pre).map Prod.fst).Nodup := by
  have hall : ((root.under pre).entries.map Prod.fst).Nodup := by
    rcases wf_under pre hwf with hunder | ⟨off, key, value, hleaf, -⟩
    · exact nodup_entries hunder
    · rw [hleaf]
      exact List.nodup_singleton _
  exact hall.sublist (List.filter_sublist.map Prod.fst)

theorem Indexed.wf_under (hx : Indexed ix limit s h root) (pre : Bytes) :
    (root.under pre).WF pre ∨ ∃ off key value, root.under pre = .leaf off key value ∧ ValidKey key :=
  Art.wf_under pre hx.wf

theorem Indexed.matching_eq (hx : Indexed ix limit s h root) (pre : Bytes) :
    Matching ix s.mem pre = {k | k ∈ (root.found pre).map Prod.fst} := by
  ext k
  simp only [Matching, Set.mem_ofPred_eq, List.mem_map, hx.mem_found, Prod.exists, exists_and_right, exists_eq_right]
  constructor
  · rintro ⟨hpre, v, hv⟩
    exact ⟨v, hpre, hv⟩
  · rintro ⟨v, hpre, hv⟩
    exact ⟨hpre, v, hv⟩

theorem Indexed.ncard_matching (hx : Indexed ix limit s h root) (pre : Bytes) :
    (Matching ix s.mem pre).ncard = (root.found pre).length := by
  have hset : {k | k ∈ (root.found pre).map Prod.fst} = (((root.found pre).map Prod.fst).toFinset : Set Bytes) := by
    ext k
    simp
  rw [hx.matching_eq, hset, Set.ncard_coe_finset, List.toFinset_card_of_nodup (nodup_found hx.wf pre), List.length_map]

/-- What the rounds under the prefix find, whatever the budget, is the entries under it or those at their front. -/
theorem Tree.reduceOption_take_visits {takes above : Bytes → Bool} (hwf : root.WF []) (pre : Bytes)
    (hcut : ∀ off shape kids tail, (inner off shape kids).WF (pre ++ tail) → above tail = true →
      ∀ e ∈ (inner off shape kids).entries, takes e.1 = false) (htakes : ∀ k, takes k = true → pre <+: k) (n : ℕ) :
    (((root.under pre).visits takes above []).take n).reduceOption <+:
      ((root.found pre).filter fun e ↦ takes e.1).map Prod.snd ∧
    ((root.under pre).visits takes above []).reduceOption =
    ((root.found pre).filter fun e ↦ takes e.1).map Prod.snd := by
  have hboth : (root.found pre).filter (fun e ↦ takes e.1) = (root.under pre).entries.filter fun e ↦ takes e.1 := by
    rw [Tree.found, List.filter_filter]
    refine List.filter_congr fun e _ ↦ ?_
    cases htake : takes e.1 with
    | false => rfl
    | true => rw [Bool.true_and, starts_iff.mpr (htakes _ htake)]
  have hall : ((root.under pre).visits takes above []).reduceOption =
      ((root.found pre).filter fun e ↦ takes e.1).map Prod.snd := by
    rw [hboth]
    rcases wf_under pre hwf with hunder | ⟨off, key, value, hleaf, -⟩
    · exact reduceOption_visits hcut (by rwa [List.append_nil])
    · rw [hleaf, visits, entries]
      cases htake : takes key <;> simp [htake, reduceOption_cons]
  refine ⟨?_, hall⟩
  rw [← hall]
  have hfront := List.take_prefix n ((root.under pre).visits takes above [])
  exact hfront.filterMap id

theorem Indexed.scan_eq {rules : ScanRules} {takes above : Bytes → Bool} (hx : Indexed ix limit s h root)
    (ha : Agrees s.mem pre rules takes above) (cap : ℕ) :
    ∃ whole, scan rules ix pre cap s.mem =
        .ok ((((root.under pre).visits takes above []).take maxScanVisits).reduceOption.take cap, whole) ∧
      (whole = true → ((root.under pre).visits takes above []).length ≤ maxScanVisits ∧
        ((root.under pre).visits takes above []).reduceOption.length ≤ cap) :=
  Art.scan_eq ha hx.stored hx.word hx.wf (hx.arena.length ▸ hx.laid) (hx.arena.length ▸ hx.arena.placed.root_fits) cap

end Found

section Complete

variable {ix : ArtIndex} {limit : ℕ} {s s₀ : ArtState} {h : Heap} {root : Tree} {pre : Bytes} {cap : ℕ}

/-- The rounds of a walk under a prefix: it enters a child, passes a leaf or leaves an inner node in each of them, and
carries the value of a leaf whose key has the prefix. -/
def Tree.tour (root : Tree) (pre : Bytes) : List (Option UInt32) :=
  (root.under pre).visits (fun k ↦ pre.isPrefixOf k) (fun _ ↦ false) []

/-- How many leaves with the prefix lie within the rounds that a scan may take. -/
def Tree.reached (root : Tree) (pre : Bytes) : ℕ := ((root.tour pre).take maxScanVisits).reduceOption.length

theorem found_filter (root : Tree) (pre : Bytes) :
    (root.found pre).filter (fun e ↦ pre.isPrefixOf e.1) = root.found pre := by
  rw [Tree.found, List.filter_filter]
  simp only [Bool.and_self]

theorem Tree.tour_spec (hwf : root.WF []) (pre : Bytes) :
    ((root.tour pre).take maxScanVisits).reduceOption = ((root.found pre).take (root.reached pre)).map Prod.snd ∧
      root.reached pre ≤ (root.found pre).length ∧ (root.tour pre).reduceOption = (root.found pre).map Prod.snd := by
  obtain ⟨hfront, hall⟩ := @reduceOption_take_visits root (fun k ↦ pre.isPrefixOf k) (fun _ ↦ false) hwf pre
    (fun _ _ _ _ _ h ↦ absurd h Bool.false_ne_true) (fun k hk ↦ starts_iff.mp hk) maxScanVisits
  rw [found_filter] at hfront hall
  refine ⟨?_, by simpa [Tree.reached, Tree.tour] using hfront.length_le, hall⟩
  rw [List.map_take]
  exact List.prefix_iff_eq_take.mp hfront

theorem Indexed.scanPrefix_eq (hx : Indexed ix limit s h root) (hpre : ValidKey pre) (cap : ℕ) :
    scanPrefix ix pre cap s.mem = .ok (((root.found pre).take (min cap (root.reached pre))).map Prod.snd) := by
  obtain ⟨whole, hscan, -⟩ := hx.scan_eq (agrees_starts s.mem pre) cap
  have hvalid : ¬ (pre.length = 0 ∨ maxKeyLen < pre.length ∨ terminator ∈ pre) := by
    rw [List.length_eq_zero_iff]
    exact not_or.mpr ⟨hpre.1, not_or.mpr ⟨not_lt.mpr hpre.2.1, hpre.2.2⟩⟩
  have htour := (tour_spec hx.wf pre).1
  rw [Tree.tour] at htour
  rw [scanPrefix, prefixWalk, if_neg hvalid, hscan, htour, ← List.map_take, List.take_take]
  rfl

/-- The scan returns as many offsets as it can, each that of another stored key with the prefix. -/
def ScansAll (ix : ArtIndex) (mem pre : Bytes) (cap : ℕ) : Prop :=
  ∃ es : List (Bytes × UInt32), scanPrefix ix pre cap mem = .ok (es.map Prod.snd) ∧ (es.map Prod.fst).Nodup ∧
    (∀ e ∈ es, pre <+: e.1 ∧ Answers ix mem e) ∧ es.length = min cap (Matching ix mem pre).ncard

theorem Indexed.scansAll_iff_reached (hx : Indexed ix limit s h root) (hpre : ValidKey pre) (cap : ℕ) :
    ScansAll ix s.mem pre cap ↔ min cap (Matching ix s.mem pre).ncard ≤ root.reached pre := by
  have hscan := hx.scanPrefix_eq hpre cap
  have hreached := (tour_spec hx.wf pre).2.1
  rw [hx.ncard_matching]
  constructor
  · rintro ⟨es, hes, -, -, hlen⟩
    rw [hscan, Except.ok.injEq] at hes
    rw [hx.ncard_matching] at hlen
    have hboth := congrArg List.length hes
    rw [List.length_map, List.length_map, List.length_take, hlen] at hboth
    omega
  · intro hle
    refine ⟨_, hscan, ?_, fun e he ↦ (hx.mem_found e).mp (List.mem_of_mem_take he), ?_⟩
    · exact (nodup_found hx.wf pre).sublist ((List.take_sublist _ _).map Prod.fst)
    · rw [List.length_take, hx.ncard_matching]
      omega

/-- In every state that calls reach, a prefix scan is complete if and only if the keys that it owes lie within the
rounds that it may take. -/
theorem scansAll_iff (hf : Fresh ix limit s₀) (hrun : Run (IndexCall ix) (fun _ _ ↦ True) s₀ s) :
    (∃ h root, Indexed ix limit s h root) ∧ ∀ h root, Indexed ix limit s h root → ∀ pre cap, ValidKey pre →
      (ScansAll ix s.mem pre cap ↔ min cap (Matching ix s.mem pre).ncard ≤ root.reached pre) :=
  ⟨hf.indexed.run hrun, fun _ _ hx _ cap hpre ↦ hx.scansAll_iff_reached hpre cap⟩

end Complete

section Budget

variable {takes above : Bytes → Bool}

/-- No more than every second round finds something. -/
def Thin (vs : List (Option UInt32)) : Prop := ∀ n, 2 * (vs.take n).reduceOption.length ≤ n

theorem Thin.append {vs ws : List (Option UInt32)} (hv : Thin vs) (hw : Thin ws) : Thin (vs ++ ws) := by
  intro n
  rw [List.take_append, List.reduceOption_append, List.length_append]
  have hv' := hv (min n vs.length)
  have hw' := hw (n - vs.length)
  rw [← List.take_take, List.take_length] at hv'
  omega

theorem thin_flatMap {f : UInt8 → List (Option UInt32)} (h : ∀ b, Thin (f b))
    (bs : List UInt8) : Thin (bs.flatMap f) := by
  induction bs with
  | nil => intro n; simp
  | cons b bs ih => exact (h b).append ih

theorem thin_none_cons {vs : List (Option UInt32)} (h : ∀ n, 2 * (vs.take n).reduceOption.length ≤ n + 1) :
    Thin (none :: vs) := by
  intro n
  cases n with
  | zero => simp
  | succ n =>
    rw [List.take_succ_cons, List.reduceOption_cons_of_none]
    exact h n

theorem length_take_visits (t : Tree) : ∀ (tail : Bytes) (n : ℕ),
    2 * ((t.visits takes above tail).take n).reduceOption.length ≤ n + 1 := by
  induction t with
  | nil => intro tail n; simp [visits]
  | leaf off key value =>
    intro tail n
    rw [visits]
    cases n with
    | zero => simp
    | succ n => cases takes key <;> simp [reduceOption_cons]
  | inner off shape kids ih =>
    intro tail n
    have hnone : Thin [none] := thin_none_cons fun n ↦ by simp
    rw [visits]
    split_ifs
    · exact (hnone n).trans (Nat.le_succ n)
    · refine (Thin.append (thin_flatMap (fun b ↦ ?_) _) hnone n).trans (Nat.le_succ n)
      have hkid := thin_none_cons (ih b (tail ++ [b]))
      by_cases hnil : kids b = .nil
      · rw [hnil]
        intro n
        simp [enter]
      · rw [enter_of_ne hnil]
        exact hkid

/-- A scan never returns more than half of its rounds. -/
theorem Tree.reached_le (root : Tree) (pre : Bytes) : root.reached pre ≤ 32768 := by
  have h := @length_take_visits (fun k ↦ pre.isPrefixOf k) (fun _ ↦ false) (root.under pre) [] maxScanVisits
  rw [Tree.reached, Tree.tour]
  have hmax : maxScanVisits = 65536 := rfl
  omega

/-- Inserts of short keys into a roomy arena all succeed. -/
theorem run_inserts : ∀ ks : List Bytes, (∀ k ∈ ks, ValidKey k ∧ k.length ≤ 3) → 8 + shortRoom * ks.length ≤ wideSize →
    ∃ s h root, Run (IndexCall smallIndex) (fun _ _ ↦ True) (zeroedArena false wideSize) s ∧
      Indexed smallIndex wideSize s h root ∧ root.Everywhere Bound ∧ h.bump ≤ 8 + shortRoom * ks.length ∧
        ∀ k ∈ ks, root.lookup k 0 ≠ none
  | [], _, _ => by
    have hx := wide_fresh.indexed
    rw [zeroedArena_bump (by decide)] at hx
    exact ⟨_, _, _, .refl _, hx, trivial, le_rfl, fun k hk ↦ absurd hk List.not_mem_nil⟩
  | key :: ks, hks, hroom => by
    rw [List.length_cons, Nat.mul_succ] at hroom
    obtain ⟨s, h, root, hrun, hx, hall, hbump, hfound⟩ :=
      run_inserts ks (fun k hk ↦ hks k (List.mem_cons_of_mem _ hk)) (by omega)
    obtain ⟨hk, hlen⟩ := hks key List.mem_cons_self
    have hcall : root.callDemand key ≤ shortRoom := by
      have hdemand := demand_le key root 0
      have hheader : leafHeader = 8 := rfl
      have hshort : shortRoom = 2048 := rfl
      have hsize : node256Size = 1040 := rfl
      cases root <;> simp only [callDemand, alignSize, SlotKind.size] <;> omega
    cases hx.insert key 8 with
    | refused hbad => exact absurd ⟨hk, by decide⟩ hbad
    | failed hgood hfree hrun hmoves hroot hfull => omega
    | stuck hgood hstuck => exact absurd hstuck (hall.not_stuck key 0)
    | @inserted s' h₁ h₂ h' root₁ root' newOff hgood hfree hroot hleaf hins hcall' hmoves =>
      have htaken := hroot.bump_le hleaf
      have hbump' := hins.bump_le
      have hwf₁ : root₁.WF [] := by
        cases hroot with
        | kept => exact hx.wf
        | made => exact wf_emptyRoot _
      obtain ⟨hall', -⟩ := hins.everywhere bound_kept (everywhere_leaf newOff key 8) (fun heq ↦ by cases heq)
        [] rfl hwf₁
        (takes_trivial key root₁ 0) (hroot.everywhere hall)
      have hlookup : ∀ k, root'.lookup k 0 = if k = key then some 8 else root.lookup k 0 := fun k ↦ by
        rw [(hins.spec hgood.1 [] rfl List.nil_prefix hwf₁).2 k, hroot.lookup]
      refine ⟨s', h', root', hrun.tail trivial (.inserted ⟨_, hcall'⟩), hmoves.indexed, hall', ?_, fun k hk' ↦ ?_⟩
      · rw [List.length_cons, Nat.mul_succ]
        omega
      · rw [hlookup]
        split_ifs with hsame
        · simp
        · exact hfound k ((List.mem_cons.mp hk').resolve_left hsame)

/-- The bytes that a key may hold. -/
def keyBytes : List UInt8 := (List.range 255).map fun i ↦ UInt8.ofNat (i + 1)

/-- All keys of three bytes that start with the byte 1. -/
def longList : List Bytes := (keyBytes ×ˢ keyBytes).map fun p ↦ [1, p.1, p.2]

theorem length_longList : longList.length = 65025 := by
  rw [longList, List.length_map, List.length_product, keyBytes, List.length_map, List.length_range]

theorem nodup_longList : longList.Nodup := by
  have hbytes : keyBytes.Nodup := by
    refine List.Nodup.map_on ?_ List.nodup_range
    intro i hi j hj heq
    have hi' := List.mem_range.mp hi
    have hj' := List.mem_range.mp hj
    have h := congrArg UInt8.toNat heq
    rw [toNat_ofNat_slot (by omega), toNat_ofNat_slot (by omega)] at h
    omega
  refine (hbytes.product hbytes).map fun p q h ↦ ?_
  simpa [Prod.ext_iff] using h

theorem longList_valid : ∀ k ∈ longList, ValidKey k ∧ k.length ≤ 3 := by
  have hbytes : ∀ b ∈ keyBytes, b ≠ terminator := by
    intro b hb heq
    obtain ⟨i, hi, hib⟩ := List.mem_map.mp hb
    have hi' := List.mem_range.mp hi
    have h := congrArg UInt8.toNat (hib.trans heq)
    rw [toNat_ofNat_slot (by omega)] at h
    exact absurd h (Nat.succ_ne_zero i)
  intro k hk
  obtain ⟨p, hp, rfl⟩ := List.mem_map.mp hk
  obtain ⟨h₁, h₂⟩ := List.mem_product.mp hp
  have hone : (1 : UInt8) ≠ terminator := by decide
  refine ⟨⟨by simp, show 3 ≤ 256 by omega, ?_⟩, by simp⟩
  simp only [List.mem_cons, List.not_mem_nil, or_false, not_or]
  exact ⟨hone.symm, (hbytes _ h₁).symm, (hbytes _ h₂).symm⟩

/-- With more keys under a prefix than half of the rounds, a scan leaves some of them out. -/
theorem not_scansAll : ∃ s, Run (IndexCall smallIndex) (fun _ _ ↦ True) (zeroedArena false wideSize) s ∧ ValidKey [1] ∧
    ¬ ScansAll smallIndex s.mem [1] 65025 := by
  have hroom : 8 + shortRoom * longList.length ≤ wideSize := by
    rw [length_longList]
    decide
  obtain ⟨s, h, root, hrun, hx, -, -, hfound⟩ := run_inserts longList longList_valid hroom
  have hvalid : ValidKey [1] := by decide
  refine ⟨s, hrun, hvalid, fun hscans ↦ ?_⟩
  have hle := (hx.scansAll_iff_reached hvalid 65025).mp hscans
  have hmany : 65025 ≤ (Matching smallIndex s.mem [1]).ncard := by
    rw [hx.ncard_matching, ← length_longList, ← List.length_map (f := Prod.fst)]
    refine (nodup_longList.subperm fun k hk ↦ ?_).length_le
    obtain ⟨p, -, hp⟩ := List.mem_map.mp hk
    obtain ⟨v, hv⟩ := Option.ne_none_iff_exists'.mp (hfound k hk)
    refine List.mem_map.mpr ⟨(k, v), (hx.mem_found _).mpr ⟨?_, ?_⟩, rfl⟩
    · exact ⟨[p.1, p.2], hp⟩
    · rw [Answers, hx.search k (Nat.lt_succ_self _), hv]
  have hfew := root.reached_le [1]
  omega

end Budget

section Range

variable {ix : ArtIndex} {limit : ℕ} {s s₀ : ArtState} {h : Heap} {root : Tree} {pre lo hi : Bytes} {cap : ℕ}
  {out : List UInt32}

/-- A prefix scan that came to its end has met every stored key with the prefix. -/
theorem Indexed.prefixWalk_whole (hx : Indexed ix limit s h root) (hpre : ValidKey pre)
    (hwalk : prefixWalk ix pre cap s.mem = .ok (out, true)) :
    (root.tour pre).length ≤ maxScanVisits ∧ (root.found pre).length ≤ cap ∧ out = (root.found pre).map Prod.snd := by
  obtain ⟨whole, hscan, hwhole⟩ := hx.scan_eq (agrees_starts s.mem pre) cap
  have hvalid : ¬ (pre.length = 0 ∨ maxKeyLen < pre.length ∨ terminator ∈ pre) := by
    rw [List.length_eq_zero_iff]
    exact not_or.mpr ⟨hpre.1, not_or.mpr ⟨not_lt.mpr hpre.2.1, hpre.2.2⟩⟩
  rw [prefixWalk, if_neg hvalid, hscan, Except.ok.injEq, Prod.mk.injEq] at hwalk
  obtain ⟨hout, hdone⟩ := hwalk
  obtain ⟨hlen, hcount⟩ := hwhole hdone
  have htour := (tour_spec hx.wf pre).2.2
  rw [Tree.tour] at htour
  rw [List.take_of_length_le hlen, List.take_of_length_le hcount, htour] at hout
  rw [htour, List.length_map] at hcount
  exact ⟨hlen, hcount, hout.symm⟩

/-- Bounds that a range scan accepts. -/
structure ValidBounds (lo hi : Bytes) : Prop where
  lo_length : lo.length ≤ maxKeyLen
  hi_length : hi.length ≤ maxKeyLen
  lo_clear : terminator ∉ lo
  hi_clear : terminator ∉ hi
  ordered : lo = [] ∨ hi = [] ∨ order lo hi ≠ .gt

/-- A suffix between the bounds in byte order, of which an empty one is none. -/
def InBounds (lo hi suffix : Bytes) : Prop := (lo = [] ∨ order lo suffix ≠ .gt) ∧ (hi = [] ∨ order suffix hi ≠ .gt)

instance (lo hi suffix : Bytes) : Decidable (InBounds lo hi suffix) := inferInstanceAs (Decidable (_ ∧ _))

theorem suffixInBounds_eq (suffix lo hi : Bytes) : suffixInBounds suffix lo hi = decide (InBounds lo hi suffix) := by
  have hswap : order suffix lo = .lt ↔ order lo suffix = .gt := by
    rw [order_swap lo suffix]
    cases order lo suffix <;> decide
  have hlo : 0 < lo.length ↔ lo ≠ [] := List.length_pos_iff
  have hhi : 0 < hi.length ↔ hi ≠ [] := List.length_pos_iff
  rw [suffixInBounds]
  split_ifs with h₁ h₂
  · exact (decide_eq_false fun h : InBounds lo hi suffix ↦ h.1.elim (hlo.mp h₁.1) fun hne ↦ hne (hswap.mp h₁.2)).symm
  · exact (decide_eq_false fun h : InBounds lo hi suffix ↦ h.2.elim (hhi.mp h₂.1) fun hne ↦ hne h₂.2).symm
  · have hin : InBounds lo hi suffix := ⟨or_iff_not_imp_left.mpr fun hne heq ↦ h₁ ⟨hlo.mpr hne, hswap.mpr heq⟩,
      or_iff_not_imp_left.mpr fun hne heq ↦ h₂ ⟨hhi.mpr hne, heq⟩⟩
    exact (decide_eq_true hin).symm

theorem found_filter_range (root : Tree) (pre lo hi : Bytes) :
    (root.found pre).filter (fun e ↦ takesRange pre lo hi e.1) =
      (root.found pre).filter fun e ↦ decide (InBounds lo hi (e.1.drop pre.length)) := by
  refine List.filter_congr fun e he ↦ ?_
  have hpre := (List.mem_filter.mp he).2
  rw [takesRange, hpre, Bool.true_and, suffixInBounds_eq]

/-- The rounds of a range walk under a prefix: it leaves a subtree above the upper bound at once. -/
def Tree.rangeTour (root : Tree) (pre lo hi : Bytes) : List (Option UInt32) :=
  (root.under pre).visits (takesRange pre lo hi) (aboveRange hi) []

theorem Tree.length_rangeTour_le (root : Tree)
    (pre lo hi : Bytes) : (root.rangeTour pre lo hi).length ≤ (root.tour pre).length :=
  length_visits_le _ _ _ _ _

/-- What a range scan finds stands at the front of the entries in its bounds. -/
theorem Indexed.scanRange_eq (hx : Indexed ix limit s h root) (hpre : ValidKey pre) (hb : ValidBounds lo hi) (cap : ℕ) :
    scanRange ix pre lo hi cap s.mem = .ok (((root.rangeTour pre lo hi).take maxScanVisits).reduceOption.take cap) := by
  obtain ⟨whole, hscan, -⟩ := hx.scan_eq (agrees_range s.mem pre lo hi) cap
  have h₁ : ¬ (pre.length = 0 ∨ maxKeyLen < pre.length) := by
    rw [List.length_eq_zero_iff]
    exact not_or.mpr ⟨hpre.1, not_lt.mpr hpre.2.1⟩
  have h₂ : ¬ (maxKeyLen < lo.length ∨ maxKeyLen < hi.length) :=
    not_or.mpr ⟨not_lt.mpr hb.lo_length, not_lt.mpr hb.hi_length⟩
  have h₃ : ¬ (terminator ∈ pre ∨ terminator ∈ lo ∨ terminator ∈ hi) :=
    not_or.mpr ⟨hpre.2.2, not_or.mpr ⟨hb.lo_clear, hb.hi_clear⟩⟩
  have h₄ : ¬ (0 < lo.length ∧ 0 < hi.length ∧ order lo hi = .gt) := by
    rintro ⟨hlo, hhi, hgt⟩
    exact hb.ordered.elim (List.length_pos_iff.mp hlo) fun h ↦ h.elim (List.length_pos_iff.mp hhi) fun hne ↦ hne hgt
  rw [scanRange, if_neg h₁, if_neg h₂, if_neg h₃, if_neg h₄, hscan]
  rfl

theorem Indexed.range_visits (hx : Indexed ix limit s h root) (pre lo hi : Bytes) (n : ℕ) :
    ((root.rangeTour pre lo hi).take n).reduceOption <+:
      ((root.found pre).filter fun e ↦ InBounds lo hi (e.1.drop pre.length)).map Prod.snd ∧
    (root.rangeTour pre lo hi).reduceOption =
      ((root.found pre).filter fun e ↦ InBounds lo hi (e.1.drop pre.length)).map Prod.snd := by
  rw [← found_filter_range]
  exact reduceOption_take_visits hx.wf pre (fun _ _ _ _ hwf habove ↦ range_cut hwf habove)
    (fun k hk ↦ starts_iff.mp ((Bool.and_eq_true _ _).mp hk).1) n

/-- Within the budget, a range scan returns what it finds up to its capacity. -/
theorem Indexed.scanRange_whole (hx : Indexed ix limit s h root) (hpre : ValidKey pre) (hb : ValidBounds lo hi)
    (htour : (root.rangeTour pre lo hi).length ≤ maxScanVisits) (cap : ℕ) :
    scanRange ix pre lo hi cap s.mem =
      .ok ((((root.found pre).filter fun e ↦ InBounds lo hi (e.1.drop pre.length)).map Prod.snd).take cap) := by
  rw [hx.scanRange_eq hpre hb, List.take_of_length_le htour, (hx.range_visits pre lo hi 0).2]

theorem Indexed.scanPrefix_whole (hx : Indexed ix limit s h root) (hpre : ValidKey pre)
    (htour : (root.tour pre).length ≤ maxScanVisits) (cap : ℕ) :
    scanPrefix ix pre cap s.mem = .ok (((root.found pre).map Prod.snd).take cap) := by
  have hreached : root.reached pre = (root.found pre).length := by
    rw [Tree.reached, List.take_of_length_le htour, (tour_spec hx.wf pre).2.2, List.length_map]
  rw [hx.scanPrefix_eq hpre, hreached, List.map_take, ← List.take_take, List.take_of_length_le (List.length_map _).le]

/-- In every state that calls reach, both scans draw on one list of the keys with the prefix: within its budget, a
prefix scan returns the offsets of this list, and a range scan those of the keys that go on within its bounds, each
up to its capacity. -/
theorem scanRange_eq_filter (hf : Fresh ix limit s₀) (hrun : Run (IndexCall ix) (fun _ _ ↦ True) s₀ s) :
    (∃ h root, Indexed ix limit s h root) ∧ ∀ h root, Indexed ix limit s h root → ∀ pre, ValidKey pre →
      ∃ es : List (Bytes × UInt32), (es.map Prod.fst).Nodup ∧ (∀ e, e ∈ es ↔ pre <+: e.1 ∧ Answers ix s.mem e) ∧
        ((root.tour pre).length ≤ maxScanVisits → ∀ cap,
          scanPrefix ix pre cap s.mem = .ok ((es.map Prod.snd).take cap)) ∧
        ∀ lo hi, ValidBounds lo hi → (root.rangeTour pre lo hi).length ≤ (root.tour pre).length ∧
          ((root.rangeTour pre lo hi).length ≤ maxScanVisits → ∀ cap, scanRange ix pre lo hi cap s.mem =
            .ok (((es.filter fun e ↦ InBounds lo hi (e.1.drop pre.length)).map Prod.snd).take cap)) := by
  refine ⟨hf.indexed.run hrun, fun h root hx pre hpre ↦ ⟨root.found pre, nodup_found hx.wf pre, hx.mem_found, ?_, ?_⟩⟩
  · exact hx.scanPrefix_whole hpre
  · exact fun lo hi hb ↦ ⟨root.length_rangeTour_le pre lo hi, hx.scanRange_whole hpre hb⟩

/-- Two keys under one byte of the root. -/
def twoKeys : List Op := [.insert [97, 98] 8, .insert [97, 99] 9]

theorem eq_ok_of_toOption {α : Type} [BEq α] [LawfulBEq α] {x : Except Stop α} {a : α}
    (h : (x.toOption == some a) = true) :
    x = .ok a := by
  cases x with
  | error stop => cases h
  | ok b => exact congrArg Except.ok (Option.some.inj (beq_iff_eq.mp h))

theorem twoKeys_facts : ∃ s, Run (IndexCall smallIndex) (fun _ _ ↦ True) (zeroedArena false 256) s ∧
    prefixWalk smallIndex [97] 4 s.mem = .ok ([8, 9], true) ∧ Answers smallIndex s.mem ([97, 98], 8) ∧
      Answers smallIndex s.mem ([97, 99], 9) := by
  have hfresh : Fresh smallIndex 256 (zeroedArena false 256) := zeroedArena_fresh (by decide) (by decide)
  have hall : (twoKeys.foldlM (runOp smallIndex) (zeroedArena false 256)).any (fun s ↦
      (prefixWalk smallIndex [97] 4 s.mem).toOption == some ([8, 9], true) &&
        ((search smallIndex [97, 98] (maxDepth + 1) s.mem).toOption == some (some 8) &&
          (search smallIndex [97, 99] (maxDepth + 1) s.mem).toOption == some (some 9))) = true := by
    decide +kernel
  obtain ⟨s, hs, hfacts⟩ := (Option.any_eq_true _ _).mp hall
  rw [Bool.and_eq_true, Bool.and_eq_true] at hfacts
  exact ⟨s, hfresh.indexed.runOps hs, eq_ok_of_toOption hfacts.1, eq_ok_of_toOption hfacts.2.1,
    eq_ok_of_toOption hfacts.2.2⟩

theorem scansAll_twoKeys : ∃ s, Run (IndexCall smallIndex) (fun _ _ ↦ True) (zeroedArena false 256) s ∧
    ScansAll smallIndex s.mem [97] 2 := by
  have hfresh : Fresh smallIndex 256 (zeroedArena false 256) := zeroedArena_fresh (by decide) (by decide)
  obtain ⟨s, hrun, hwalk, -, -⟩ := twoKeys_facts
  obtain ⟨⟨h, root, hx⟩, hiff⟩ := scansAll_iff hfresh hrun
  have hvalid : ValidKey [97] := by decide
  obtain ⟨htour, -, -⟩ := hx.prefixWalk_whole hvalid hwalk
  refine ⟨s, hrun, (hiff h root hx [97] 2 hvalid).mpr ?_⟩
  rw [hx.ncard_matching, Tree.reached, List.take_of_length_le htour, (tour_spec hx.wf [97]).2.2, List.length_map]
  exact min_le_right _ _

/-- A list of two different offsets comes from two entries only. -/
theorem eq_pair_of_map_snd {es : List (Bytes × UInt32)} {e e' : Bytes × UInt32} (he : e ∈ es) (he' : e' ∈ es)
    (hne : e.2 ≠ e'.2)
    (hvalues : es.map Prod.snd = [e.2, e'.2]) : es = [e, e'] := by
  obtain ⟨f, f', rfl⟩ : ∃ f f', es = [f, f'] :=
    List.length_eq_two.mp (by rw [← List.length_map (f := Prod.snd), hvalues]; rfl)
  simp only [List.mem_cons, List.not_mem_nil, or_false] at he he'
  simp only [List.map_cons, List.map_nil, List.cons.injEq, and_true] at hvalues
  have hfirst : e = f := he.resolve_right fun heq ↦ hne (by rw [heq, hvalues.2])
  have hsecond : e' = f' := he'.resolve_left fun heq ↦ hne (by rw [heq, hvalues.1])
  rw [hfirst, hsecond]

/-- A walk that ends with two offsets has met no other keys than those of the offsets. -/
theorem Indexed.found_pair (hx : Indexed ix limit s h root) (hpre : ValidKey pre) {e e' : Bytes × UInt32}
    (hwalk : prefixWalk ix pre cap s.mem = .ok ([e.2, e'.2], true)) (hne : e.2 ≠ e'.2)
    (he : pre <+: e.1 ∧ Answers ix s.mem e) (he' : pre <+: e'.1 ∧ Answers ix s.mem e') : root.found pre = [e, e'] := by
  obtain ⟨-, -, hvalues⟩ := hx.prefixWalk_whole hpre hwalk
  exact eq_pair_of_map_snd ((hx.mem_found e).mpr he) ((hx.mem_found e').mpr he') hne hvalues.symm

/-- Of the two keys, the second goes on with a byte from 99 on. -/
theorem scanRange_twoKeys : ∃ s, Run (IndexCall smallIndex) (fun _ _ ↦ True) (zeroedArena false 256) s ∧
    scanPrefix smallIndex [97] 2 s.mem = .ok [8, 9] ∧ scanRange smallIndex [97] [99] [] 1 s.mem = .ok [9] ∧
      scanRange smallIndex [97] [] [98] 2 s.mem = .ok [8] := by
  have hfresh : Fresh smallIndex 256 (zeroedArena false 256) := zeroedArena_fresh (by decide) (by decide)
  obtain ⟨s, hrun, hwalk, hfirst, hsecond⟩ := twoKeys_facts
  obtain ⟨⟨h, root, hx⟩, hscans⟩ := scanRange_eq_filter hfresh hrun
  have hvalid : ValidKey [97] := by decide
  obtain ⟨htour, -, -⟩ := hx.prefixWalk_whole hvalid hwalk
  obtain ⟨es, -, hmem, hprefix, hrange⟩ := hscans h root hx [97] hvalid
  have hes : es = [([97, 98], 8), ([97, 99], 9)] := by
    refine eq_pair_of_map_snd ((hmem _).mpr ⟨⟨[98], rfl⟩, hfirst⟩) ((hmem _).mpr ⟨⟨[99], rfl⟩, hsecond⟩) (by decide) ?_
    have hfour := hprefix htour 4
    rw [scanPrefix, hwalk] at hfour
    have hcut : [8, 9] = (es.map Prod.snd).take 4 := Except.ok.inj hfour
    have hlen := congrArg List.length hcut
    rw [List.length_take] at hlen
    rw [List.take_of_length_le (by simp only [List.length_cons, List.length_nil] at hlen; omega)] at hcut
    exact hcut.symm
  have hb : ValidBounds [99] [] := ⟨by decide, by decide, by decide, by decide, .inr (.inl rfl)⟩
  have hb' : ValidBounds [] [98] := ⟨by decide, by decide, by decide, by decide, .inl rfl⟩
  rw [hes] at hprefix hrange
  obtain ⟨hle, hfrom⟩ := hrange [99] [] hb
  obtain ⟨hle', hto⟩ := hrange [] [98] hb'
  exact ⟨s, hrun, hprefix htour 2, hfrom (hle.trans htour) 1, hto (hle'.trans htour) 2⟩

end Range

section Ordered

variable {ix : ArtIndex} {limit : ℕ} {s s₀ : ArtState} {h : Heap} {root : Tree} {pre lo hi path : Bytes} {mem : Bytes}

abbrev Before (a b : Bytes) : Prop := order a b = .lt

/-- Every node meets the children that lead to keys in the order of their bytes. -/
def Tree.InOrder : Tree → Prop
  | nil => True
  | leaf _ _ _ => True
  | inner _ shape kids => (shape.sequence.filter fun b ↦ !(kids b).entries.isEmpty).Pairwise (· < ·) ∧ ∀ b,
      (kids b).InOrder

theorem order_append : ∀ p x y : Bytes, order (p ++ x) (p ++ y) = order x y
  | [], _, _ => rfl
  | c :: p, x, y => by
    have hc : ¬ c < c := UInt8.lt_irrefl c
    rw [List.cons_append, List.cons_append, order, if_neg hc, if_neg hc, order_append p x y]

/-- A key that goes on from a path with one byte. -/
theorem exists_suffix {key : Bytes} {b : UInt8} (hpath : terminator ∉ path)
    (hkey : path ++ [b] <+: key ++ [terminator]) :
    ∃ x, key = path ++ x ∧ [b] <+: x ++ [terminator] := by
  rcases List.prefix_concat_iff.mp ((List.prefix_append path [b]).trans hkey) with heq | ⟨x, rfl⟩
  · exact absurd (show terminator ∈ path by rw [heq]; simp) hpath
  · refine ⟨x, rfl, ?_⟩
    rw [List.append_assoc] at hkey
    exact (List.prefix_append_right_inj path).mp hkey

/-- Keys that part at a node stand in the order of the bytes at which they part. -/
theorem before_of_lt {key key' : Bytes} {b c : UInt8} (hpath : terminator ∉ path)
    (hkey : path ++ [b] <+: key ++ [terminator]) (hkey' : path ++ [c] <+: key' ++ [terminator]) (hlt : b < c) :
    Before key key' := by
  obtain ⟨x, rfl, hx⟩ := exists_suffix hpath hkey
  obtain ⟨y, rfl, hy⟩ := exists_suffix hpath hkey'
  rw [Before, order_append]
  cases y with
  | nil =>
    have hc : c = terminator := by simpa using hy
    rw [hc, UInt8.lt_iff_toNat_lt] at hlt
    exact absurd hlt (Nat.not_lt_zero _)
  | cons c' y =>
    have hc : c = c' := (List.cons_prefix_cons.mp hy).1
    cases x with
    | nil => rfl
    | cons b' x =>
      have hb : b = b' := (List.cons_prefix_cons.mp hx).1
      rw [order, ← hb, ← hc, if_pos hlt]

theorem Tree.InOrder.pairwise {t : Tree} : ∀ {path : Bytes},
    t.WF path → t.InOrder → (t.entries.map Prod.fst).Pairwise Before := by
  induction t with
  | nil => exact fun _ _ ↦ .nil
  | leaf off key value => exact fun _ _ ↦ List.pairwise_singleton _ _
  | inner off shape kids ih =>
    rintro path hwf ⟨hnode, hkids⟩
    rw [entries, List.map_flatMap, List.pairwise_flatMap]
    refine ⟨fun b _ ↦ ih b (hwf.2.2.2.2 b) (hkids b), ?_⟩
    rw [List.pairwise_filter] at hnode
    refine hnode.imp fun {b c} hbc k hk k' hk' ↦ ?_
    obtain ⟨e, he, rfl⟩ := List.mem_map.mp hk
    obtain ⟨e', he', rfl⟩ := List.mem_map.mp hk'
    have hlt : b < c := hbc (by simpa using List.ne_nil_of_mem he) (by simpa using List.ne_nil_of_mem he')
    exact before_of_lt hwf.2.1 (entries_valid (hwf.2.2.2.2 b) he).2 (entries_valid (hwf.2.2.2.2 c) he').2 hlt

theorem Tree.inOrder_of_pairwise {t : Tree} :
    ∀ {path : Bytes}, t.WF path → (t.entries.map Prod.fst).Pairwise Before → t.InOrder := by
  induction t with
  | nil => exact fun _ _ ↦ trivial
  | leaf off key value => exact fun _ _ ↦ trivial
  | inner off shape kids ih =>
    intro path hwf hall
    rw [entries, List.map_flatMap, List.pairwise_flatMap] at hall
    obtain ⟨hkids, hnode⟩ := hall
    constructor
    · rw [List.pairwise_filter]
      refine ((Shape.nodup_sequence hwf.2.2.1).and hnode).imp fun {b c} hboth hb hc ↦ ?_
      obtain ⟨hne, hbc⟩ := hboth
      obtain ⟨e, he⟩ := List.exists_mem_of_ne_nil _ (show (kids b).entries ≠ [] by simpa using hb)
      obtain ⟨e', he'⟩ := List.exists_mem_of_ne_nil _ (show (kids c).entries ≠ [] by simpa using hc)
      have hbefore : Before e.1 e'.1 := hbc _ (List.mem_map_of_mem he) _ (List.mem_map_of_mem he')
      by_contra hlt
      have hgt : c < b := by
        have hne' : b.toNat ≠ c.toNat := fun heq ↦ hne (UInt8.toNat_inj.mp heq)
        rw [UInt8.lt_iff_toNat_lt] at hlt ⊢
        omega
      have hback : Before e'.1 e.1 :=
        before_of_lt hwf.2.1 (entries_valid (hwf.2.2.2.2 c) he').2 (entries_valid (hwf.2.2.2.2 b) he).2 hgt
      rw [Before, order_swap e.1 e'.1, hbefore] at hback
      cases hback
    · intro b
      by_cases hb : b ∈ shape.sequence
      · exact ih b (hwf.2.2.2.2 b) (hkids b hb)
      · have hnil : kids b = .nil := hwf.2.2.2.1 b fun hhas ↦ hb (Shape.mem_sequence.mpr hhas)
        rw [hnil]
        trivial

/-- The offsets are those of the smallest of these keys, in ascending order of the keys. -/
def Smallest (ix : ArtIndex) (mem : Bytes) (keys : Set Bytes) (out : List UInt32) : Prop :=
  ∃ es : List (Bytes × UInt32), es.map Prod.snd = out ∧ (∀ e ∈ es, e.1 ∈ keys ∧ Answers ix mem e) ∧
    (es.map Prod.fst).Pairwise Before ∧ ∀ k ∈ keys, k ∉ es.map Prod.fst → ∀ e ∈ es, Before e.1 k

theorem smallest_nil (keys : Set Bytes) : Smallest ix mem keys [] :=
  ⟨[], rfl, fun _ h ↦ absurd h List.not_mem_nil, .nil, fun _ _ _ _ h ↦ absurd h List.not_mem_nil⟩

/-- The front of a list that holds all of the keys in order. -/
theorem smallest_take {keys : Set Bytes} {l : List (Bytes × UInt32)} (hsorted : (l.map Prod.fst).Pairwise Before)
    (hmem : ∀ e, e ∈ l ↔ e.1 ∈ keys ∧ Answers ix mem e) (hkeys : ∀ k ∈ keys, ∃ v, Answers ix mem (k, v)) (n : ℕ) :
    Smallest ix mem keys ((l.take n).map Prod.snd) := by
  refine ⟨l.take n, rfl, fun e he ↦ (hmem e).mp (List.mem_of_mem_take he), ?_, fun k hk hnot e he ↦ ?_⟩
  · exact hsorted.sublist ((List.take_sublist n l).map Prod.fst)
  · obtain ⟨v, hv⟩ := hkeys k hk
    have hl := (hmem (k, v)).mpr ⟨hk, hv⟩
    rw [← List.take_append_drop n l, List.mem_append] at hl
    have hdrop : (k, v) ∈ l.drop n := hl.resolve_left fun h ↦ hnot (List.mem_map_of_mem h)
    rw [← List.take_append_drop n l, List.map_append, List.pairwise_append] at hsorted
    exact hsorted.2.2 _ (List.mem_map_of_mem he) _ (List.mem_map_of_mem (f := Prod.fst) hdrop)

/-- Both scans deliver ascending keys, and one that is cut off delivers the smallest. -/
structure ScansInOrder (ix : ArtIndex) (mem pre : Bytes) : Prop where
  prefixes : ∀ cap, ∃ out, scanPrefix ix pre cap mem = .ok out ∧ Smallest ix mem (Matching ix mem pre) out
  ranges : ∀ lo hi cap, ∃ out, scanRange ix pre lo hi cap mem = .ok out ∧
    Smallest ix mem {k | k ∈ Matching ix mem pre ∧ InBounds lo hi (k.drop pre.length)} out

theorem scanPrefix_refused (hpre : ¬ ValidKey pre) (cap : ℕ) : scanPrefix ix pre cap mem = .ok [] := by
  have hbad : pre.length = 0 ∨ maxKeyLen < pre.length ∨ terminator ∈ pre := by
    by_contra hgood
    rw [not_or, not_or, List.length_eq_zero_iff, not_lt] at hgood
    exact hpre hgood
  rw [scanPrefix, prefixWalk, if_pos hbad]
  rfl

theorem scanRange_refused (hbad : ¬ (ValidKey pre ∧ ValidBounds lo hi)) (cap : ℕ) :
    scanRange ix pre lo hi cap mem = .ok [] := by
  rw [scanRange]
  split_ifs with h₁ h₂ h₃ h₄
  · rfl
  · rfl
  · rfl
  · rfl
  · rw [List.length_eq_zero_iff, not_or, not_lt] at h₁
    rw [not_or, not_lt, not_lt] at h₂
    rw [not_or, not_or] at h₃
    refine absurd ⟨⟨h₁.1, h₁.2, h₃.1⟩, h₂.1, h₂.2, h₃.2.1, h₃.2.2, ?_⟩ hbad
    by_contra hnot
    rw [not_or, not_or, not_not] at hnot
    exact h₄ ⟨List.length_pos_iff.mpr hnot.1, List.length_pos_iff.mpr hnot.2.1, hnot.2.2⟩

theorem Indexed.sorted_found (hx : Indexed ix limit s h root) (hin : (root.under pre).InOrder) :
    ((root.found pre).map Prod.fst).Pairwise Before := by
  have hall : ((root.under pre).entries.map Prod.fst).Pairwise Before := by
    rcases hx.wf_under pre with hunder | ⟨off, key, value, hleaf, -⟩
    · exact hin.pairwise hunder
    · rw [hleaf]
      exact List.pairwise_singleton _ _
  exact hall.sublist (List.filter_sublist.map Prod.fst)

theorem Indexed.scansInOrder (hx : Indexed ix limit s h root)
    (hin : (root.under pre).InOrder) : ScansInOrder ix s.mem pre := by
  have hsorted := hx.sorted_found hin
  have hmatching : ∀ e, e.1 ∈ Matching ix s.mem pre ∧ Answers ix s.mem e ↔ e ∈ root.found pre := by
    intro e
    rw [hx.mem_found]
    exact ⟨fun hboth ↦ ⟨hboth.1.1, hboth.2⟩, fun hboth ↦ ⟨⟨hboth.1, e.2, hboth.2⟩, hboth.2⟩⟩
  constructor
  · intro cap
    by_cases hpre : ValidKey pre
    · exact ⟨_, hx.scanPrefix_eq hpre cap, smallest_take hsorted (fun e ↦ (hmatching e).symm) (fun k hk ↦ hk.2) _⟩
    · exact ⟨_, scanPrefix_refused hpre cap, smallest_nil _⟩
  · intro lo hi cap
    by_cases hgood : ValidKey pre ∧ ValidBounds lo hi
    · obtain ⟨hpre, hb⟩ := hgood
      refine ⟨_, hx.scanRange_eq hpre hb cap, ?_⟩
      obtain ⟨hfront, -⟩ := hx.range_visits pre lo hi maxScanVisits
      have hcapped := List.take_prefix cap ((root.rangeTour pre lo hi).take maxScanVisits).reduceOption
      have hcut := hcapped.trans hfront
      rw [List.prefix_iff_eq_take.mp hcut, ← List.map_take]
      refine smallest_take (hsorted.sublist (List.filter_sublist.map Prod.fst)) (fun e ↦ ?_) (fun k hk ↦ hk.1.2) _
      rw [List.mem_filter, ← hmatching, decide_eq_true_iff]
      exact ⟨fun hboth ↦ ⟨⟨hboth.1.1, hboth.2⟩, hboth.1.2⟩, fun hboth ↦ ⟨⟨hboth.1.1, hboth.2⟩, hboth.1.2⟩⟩
    · exact ⟨_, scanRange_refused hgood cap, smallest_nil _⟩

theorem scansInOrder_of_refused (hpre : ¬ ValidKey pre) : ScansInOrder ix mem pre :=
  ⟨fun cap ↦ ⟨_, scanPrefix_refused hpre cap, smallest_nil _⟩,
    fun _ _ cap ↦ ⟨_, scanRange_refused (fun hboth ↦ hpre hboth.1) cap, smallest_nil _⟩⟩

/-- No two stored keys with the prefix share an offset. -/
def OffsetsDiffer (ix : ArtIndex) (mem pre : Bytes) : Prop :=
  ∀ k k' v, pre <+: k → pre <+: k' → Answers ix mem (k, v) → Answers ix mem (k', v) → k = k'

theorem eq_of_map_snd : ∀ {es es' : List (Bytes × UInt32)}, (∀ e ∈ es, ∀ e' ∈ es', e.2 = e'.2 → e = e') →
    es.map Prod.snd = es'.map Prod.snd → es = es'
  | [], [], _, _ => rfl
  | [], _ :: _, _, h => by cases h
  | _ :: _, [], _, h => by cases h
  | e :: es, e' :: es', hinj, h => by
    rw [List.map_cons, List.map_cons, List.cons.injEq] at h
    rw [hinj e List.mem_cons_self e' List.mem_cons_self h.1,
      eq_of_map_snd (fun a ha b hb ↦ hinj a (List.mem_cons_of_mem _ ha) b (List.mem_cons_of_mem _ hb)) h.2]

theorem Indexed.inOrder_of_sorted (hx : Indexed ix limit s h root) (hpre : ValidKey pre)
    (hsorted : ((root.found pre).map Prod.fst).Pairwise Before) : (root.under pre).InOrder := by
  rcases hx.wf_under pre with hunder | ⟨off, key, value, hleaf, -⟩
  · refine inOrder_of_pairwise hunder ?_
    have hfound : root.found pre = (root.under pre).entries := by
      rw [Tree.found, List.filter_eq_self]
      intro e he
      rw [starts_iff]
      rcases List.prefix_concat_iff.mp (entries_valid hunder he).2 with hend | hfront
      · exact absurd (show terminator ∈ pre by rw [hend]; simp) hpre.2.2
      · exact hfront
    rwa [hfound] at hsorted
  · rw [hleaf]
    trivial

theorem Indexed.inOrder_of_scans (hx : Indexed ix limit s h root) (hpre : ValidKey pre)
    (htour : (root.tour pre).length ≤ maxScanVisits) (hdiffer : OffsetsDiffer ix s.mem pre)
    (hscans : ScansInOrder ix s.mem pre) : (root.under pre).InOrder := by
  obtain ⟨out, hout, es, hes, hbound, hsorted, -⟩ := hscans.prefixes (root.found pre).length
  rw [hx.scanPrefix_whole hpre htour, List.take_of_length_le (List.length_map _).le, Except.ok.injEq] at hout
  have heq : es = root.found pre := by
    refine eq_of_map_snd (fun e he e' he' hsame ↦ ?_) (hes.trans hout.symm)
    obtain ⟨⟨hpre₁, -⟩, hb⟩ := hbound e he
    obtain ⟨hpre₂, hb'⟩ := (hx.mem_found e').mp he'
    refine Prod.ext (hdiffer e.1 e'.1 e.2 hpre₁ hpre₂ hb ?_) hsame
    rw [hsame]
    exact hb'
  rw [heq] at hsorted
  exact hx.inOrder_of_sorted hpre hsorted

/-- In every state that calls reach, the scans under a prefix are in the order of the keys where they refuse the
prefix or every node under it is in order; for an accepted prefix, within the budget and with different offsets,
nowhere else. -/
theorem scansInOrder_iff (hf : Fresh ix limit s₀) (hrun : Run (IndexCall ix) (fun _ _ ↦ True) s₀ s) :
    (∃ h root, Indexed ix limit s h root) ∧ ∀ h root, Indexed ix limit s h root → ∀ pre,
      (¬ ValidKey pre ∨ (root.under pre).InOrder → ScansInOrder ix s.mem pre) ∧
      ((root.tour pre).length ≤ maxScanVisits → OffsetsDiffer ix s.mem pre →
        (ScansInOrder ix s.mem pre ↔ ¬ ValidKey pre ∨ (root.under pre).InOrder)) := by
  refine ⟨hf.indexed.run hrun, fun h root hx pre ↦ ?_⟩
  have henough : ¬ ValidKey pre ∨ (root.under pre).InOrder → ScansInOrder ix s.mem pre := by
    rintro (hbad | hin)
    · exact scansInOrder_of_refused hbad
    · exact hx.scansInOrder hin
  refine ⟨henough, fun htour hdiffer ↦ ⟨fun hscans ↦ ?_, henough⟩⟩
  exact or_iff_not_imp_left.mpr fun hpre ↦ hx.inOrder_of_scans (not_not.mp hpre) htour hdiffer hscans

/-- The lesser of the two keys is stored first. -/
theorem scansInOrder_twoKeys : ∃ s, Run (IndexCall smallIndex) (fun _ _ ↦ True) (zeroedArena false 256) s ∧
    ScansInOrder smallIndex s.mem [97] ∧ scanPrefix smallIndex [97] 1 s.mem = .ok [8] := by
  have hfresh : Fresh smallIndex 256 (zeroedArena false 256) := zeroedArena_fresh (by decide) (by decide)
  obtain ⟨s, hrun, hwalk, hfirst, hsecond⟩ := twoKeys_facts
  obtain ⟨⟨h, root, hx⟩, hiff⟩ := scansInOrder_iff hfresh hrun
  have hvalid : ValidKey [97] := by decide
  have hfound := hx.found_pair hvalid hwalk (by decide) ⟨⟨[98], rfl⟩, hfirst⟩ ⟨⟨[99], rfl⟩, hsecond⟩
  have hin := hx.inOrder_of_sorted hvalid (by rw [hfound]; exact List.pairwise_pair.mpr (by decide))
  obtain ⟨htour, -, -⟩ := hx.prefixWalk_whole hvalid hwalk
  refine ⟨s, hrun, (hiff h root hx [97]).1 (.inr hin), ?_⟩
  rw [hx.scanPrefix_whole hvalid htour, hfound]
  rfl

/-- The greater of two keys is stored first. -/
def swappedKeys : List Op := [.insert [97, 99] 9, .insert [97, 98] 8]

/-- The scan returns the offset of the greater key first. -/
theorem not_scansInOrder : ∃ s, Run (IndexCall smallIndex) (fun _ _ ↦ True) (zeroedArena false 256) s ∧
    ¬ ScansInOrder smallIndex s.mem [97] := by
  have hfresh : Fresh smallIndex 256 (zeroedArena false 256) := zeroedArena_fresh (by decide) (by decide)
  have hall : (swappedKeys.foldlM (runOp smallIndex) (zeroedArena false 256)).any (fun s ↦
      (prefixWalk smallIndex [97] 4 s.mem).toOption == some ([9, 8], true) &&
        ((search smallIndex [97, 99] (maxDepth + 1) s.mem).toOption == some (some 9) &&
          (search smallIndex [97, 98] (maxDepth + 1) s.mem).toOption == some (some 8))) = true := by
    decide +kernel
  obtain ⟨s, hs, hfacts⟩ := (Option.any_eq_true _ _).mp hall
  rw [Bool.and_eq_true, Bool.and_eq_true] at hfacts
  have hwalk := eq_ok_of_toOption hfacts.1
  have hgreater : Answers smallIndex s.mem ([97, 99], 9) := eq_ok_of_toOption hfacts.2.1
  have hless : Answers smallIndex s.mem ([97, 98], 8) := eq_ok_of_toOption hfacts.2.2
  have hrun := hfresh.indexed.runOps hs
  obtain ⟨h, root, hx⟩ := hfresh.indexed.run hrun
  have hpair := hx.found_pair (by decide) hwalk (by decide) ⟨⟨[99], rfl⟩, hgreater⟩ ⟨⟨[98], rfl⟩, hless⟩
  have honly : ∀ e, [97] <+: e.1 → Answers smallIndex s.mem e → e = ([97, 99], 9) ∨ e = ([97, 98], 8) := by
    intro e hpre he
    have hmem : e ∈ root.found [97] := (hx.mem_found e).mpr ⟨hpre, he⟩
    rw [hpair] at hmem
    simpa using hmem
  refine ⟨s, hrun, fun hscans ↦ ?_⟩
  obtain ⟨out, hout, es, hes, hbound, hsorted, -⟩ := hscans.prefixes 4
  rw [scanPrefix, hwalk] at hout
  have hvalues : es.map Prod.snd = [9, 8] := hes.trans (Except.ok.inj hout).symm
  have htwo : es.length = 2 := by
    rw [← List.length_map (f := Prod.snd), hvalues]
    rfl
  obtain ⟨e₁, e₂, rfl⟩ := List.length_eq_two.mp htwo
  simp only [List.map_cons, List.map_nil, List.cons.injEq, and_true] at hvalues
  obtain ⟨⟨hpre₁, -⟩, hb₁⟩ := hbound e₁ (by simp)
  obtain ⟨⟨hpre₂, -⟩, hb₂⟩ := hbound e₂ (by simp)
  have he₁ : e₁ = ([97, 99], 9) := (honly e₁ hpre₁ hb₁).resolve_right fun heq ↦ by simp [heq] at hvalues
  have he₂ : e₂ = ([97, 98], 8) := (honly e₂ hpre₂ hb₂).resolve_left fun heq ↦ by simp [heq] at hvalues
  rw [he₁, he₂] at hsorted
  exact absurd (List.pairwise_pair.mp hsorted) (by decide)

end Ordered

end TakyonDb.Art
