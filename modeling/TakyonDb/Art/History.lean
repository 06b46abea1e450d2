import TakyonDb.Art.Region
import TakyonDb.Lib.Updates

namespace TakyonDb.Art

open Lib Set Layout Art.Tree

/-- The index lies in its region, its counts cover its children, and it
gives every key what the history of its calls gives it. -/
structure Bears (r : Regions) (n : ℕ) (s : ArtState) (h : Heap) (root : Tree) (history : List (Bytes × Option UInt32)) :
    Prop extends Confined r n s h root where
  counted : root.Everywhere Counted
  lookup : ∀ k, root.lookup k 0 = resolve history k

variable {r : Regions} {n fuel : ℕ} {s s' : ArtState} {h : Heap} {root : Tree} {history : List (Bytes × Option UInt32)}
  {key : Bytes} {value : UInt32} {mem : Bytes} {t : Set ℕ}

theorem Confined.bears (hc : Confined r n s h .nil) : Bears r n s h .nil [] := ⟨hc, trivial, fun _ ↦ rfl⟩

namespace Bears

theorem frame (hb : Bears r n s h root history) (hch : ChangesOnly t s.mem mem) (ht : Disjoint (artRegion r) t) :
    Bears r n { s with mem } h root history :=
  { hb with toConfined := hb.toConfined.frame hch ht }

theorem search (hb : Bears r n s h root history) (k : Bytes) (hfuel : maxDepth < fuel) :
    search (regionIndex r) k fuel s.mem = .ok (resolve history k) := by
  rw [hb.indexed.search k hfuel, hb.lookup]

/-- An insert that succeeds binds a valid key to an offset in the arena. -/
theorem insert (hb : Bears r n s h root history) (hend : r.artEnd ≤ n) (hfits : FitsRegion r s (.insert key value))
    (hkeeps : KeepsCounts (regionIndex r) s (.insert key value))
    (hrun : Returns (Art.insert (regionIndex r) key value) s (.ok () s')) :
    (ValidKey key ∧ value.toNat < n) ∧ ChangesOnly (artRegion r) s.mem s'.mem ∧
      ∃ h' root', Bears r n s' h' root' (history ++ [(key, some value)]) := by
  cases hb.indexed.insert key value with
  | refused hbad hfail => cases hrun.unique ⟨0, fun fuel _ ↦ hfail fuel⟩
  | failed hgood hfree hfail hmoves hroot hfull => cases hrun.unique ⟨_, hfail⟩
  | stuck hgood hstuck hleaf hhangs => exact (hhangs.not_returns hrun fun _ heq ↦ by cases heq).elim
  | @inserted s₁ h₁ h₂ h' root₁ root' newOff hgood hfree hroot hleaf hins hok hmoves =>
    cases hrun.unique ⟨_, hok⟩
    have htree : TreeCall n h root (.insert key value) h' root' := .inserted hgood hroot hleaf hins
    obtain ⟨hconfined, hch⟩ := hb.moves hend hfits hmoves htree
    have hlookup := (hins.spec hgood.1 [] rfl List.nil_prefix (hroot.wf hb.indexed.wf)).2
    refine ⟨hgood, hch, h', root', hconfined, htree.counted hb.indexed hkeeps hb.counted, fun k ↦ ?_⟩
    rw [hlookup k, hroot.lookup, hb.lookup, resolve_concat]
    simp only [eq_comm]

/-- A removal takes its key out, whether it was there or not. -/
theorem remove {found : Bool} (hb : Bears r n s h root history) (hend : r.artEnd ≤ n)
    (hfits : FitsRegion r s (.remove key)) (hrun : Art.remove (regionIndex r) key s = .ok found s') :
    ChangesOnly (artRegion r) s.mem s'.mem ∧ ∃ h' root', Bears r n s' h' root' (history ++ [(key, none)]) := by
  cases hb.indexed.remove key with
  | refused hbad hfail =>
    rw [hfail] at hrun
    cases hrun
  | absent hgood hnone hok =>
    rw [hok] at hrun
    cases hrun
    refine ⟨.rfl', h, root, hb.toConfined, hb.counted, fun k ↦ ?_⟩
    rw [resolve_concat, hb.lookup]
    split_ifs with hk
    · rw [← hk, ← hb.lookup, hnone]
    · rfl
  | @removed s₁ h' root' up hgood hrem hok hmoves =>
    rw [hok] at hrun
    cases hrun
    have htree : TreeCall n h root (.remove key) h' root' := .removed hgood hrem
    obtain ⟨hconfined, hch⟩ := hb.moves hend hfits hmoves htree
    have hlookup := hrem.lookup [] rfl hb.indexed.wf hb.counted
    refine ⟨hch, h', root', hconfined, htree.counted hb.indexed trivial hb.counted, fun k ↦ ?_⟩
    rw [hlookup, hb.lookup, resolve_concat]
    simp only [eq_comm]

end Bears

/-- The index holds no key, or only this one. -/
def Tree.Lone (key : Bytes) (root : Tree) : Prop :=
  root = nil ∨ ∃ off newOff value, root = single off newOff key value

/-- A lone key is bound, and rebound, without leaving the region or wrapping a count. -/
theorem Confined.insert_lone (hc : Confined r n s h root) (hlone : root.Lone key)
    (hgood : ValidKey key ∧ value.toNat < n) (hend : r.artEnd ≤ n) (hroom : h.bump + insertBound key ≤ r.artEnd) :
    FitsRegion r s (.insert key value) ∧ KeepsCounts (regionIndex r) s (.insert key value) ∧
      ∃ s' h' off newOff, Returns (Art.insert (regionIndex r) key value) s (.ok () s') ∧
        Confined r n s' h' (single off newOff key value) ∧ h'.bump ≤ h.bump + insertBound key := by
  have hdemand := callDemand_le key root
  have hfits : FitsRegion r s (.insert key value) := hc.fitsRegion_iff.mpr fun _ _ ↦ by omega
  have hkid : ∀ {t : Tree}, Function.update (kidsOf []) (slotByte key 0) t (slotByte key 0) = t :=
    Function.update_self _ _ _
  refine ⟨hfits, fun hwraps ↦ ?_, ?_⟩
  · have hstop := hc.indexed.wrapsCount_iff.mp hwraps
    rcases hlone with rfl | ⟨off, newOff, v, rfl⟩
    · exact hstop
    · rcases hstop with ⟨-, -, hshape⟩ | hbelow
      · cases hshape
      · rw [hkid] at hbelow
        exact hbelow
  · cases hc.indexed.insert key value with
    | refused hbad => exact absurd hgood hbad
    | failed hgood hfree hrun hmoves hroot hfull => omega
    | stuck hgood hstuck =>
      rcases hlone with rfl | ⟨off, newOff, v, rfl⟩
      · exact hstuck.elim
      · rcases hstuck with ⟨-, -, hnil⟩ | hbelow
        · rw [hkid] at hnil
          cases hnil
        · rw [hkid] at hbelow
          exact hbelow.elim
    | @inserted s' h₁ h₂ h' root₁ root' newOff hgood hfree hroot hleaf hins hrun hmoves =>
      have hbump : h'.bump ≤ h.bump + root.callDemand key := hins.bump_le.trans (hroot.bump_le hleaf)
      have htree : TreeCall n h root (.insert key value) h' root' := .inserted hgood hroot hleaf hins
      have hsingle : ∃ off newOff, root' = single off newOff key value := by
        rcases hlone with rfl | ⟨off, old, v, rfl⟩
        · cases hroot with
          | kept hne => exact absurd rfl hne
          | @made _ off halloc =>
            cases hins with
            | descend hhas => exact absurd hhas List.not_mem_nil
            | grow _ hfull => cases hfull
            | claim => exact ⟨off, newOff, rfl⟩
        · cases hroot with
          | kept _ =>
            cases hins with
            | grow _ hfull => cases hfull
            | claim hvacant _ => exact absurd (List.mem_singleton_self _) hvacant
            | descend hhas hbelow =>
              rw [hkid] at hbelow
              cases hbelow with
              | split hne => exact absurd rfl hne
              | overwrite => exact ⟨off, old, by rw [single, Function.update_idem]⟩
      obtain ⟨off, newOff', rfl⟩ := hsingle
      obtain ⟨hconfined, -⟩ := hc.moves hend hfits hmoves htree
      exact ⟨s', h', off, newOff', ⟨_, hrun⟩, hconfined, by omega⟩

end TakyonDb.Art
