import TakyonDb.Art.Inserts

namespace TakyonDb.Art

open Lib Set Heap

namespace Tree

variable {limit depth off n start p : ℕ} {key existing : Bytes} {value v : UInt32}
  {old new top t t' : Tree} {h h' : Heap} {kids : UInt8 → Tree} {shape shape' : Shape} {b : UInt8}
  {pool : Set ℕ}

/-- The tree stands on what it had and on what the heap has granted since. -/
structure Built (limit : ℕ) (h h' : Heap) (pool : Set ℕ) (t : Tree) : Prop extends Spends limit h h' where
  laid : t.Laid limit
  foot : t.foot ⊆ pool ∪ taken h h'
  apart : Disjoint t.foot h'.avail

theorem alignSize_size (shape : Shape) : alignSize shape.size = shape.size := by
  cases shape with
  | slots kind keys => cases kind <;> simp only [alignSize, Shape.size, SlotKind.size]
  | direct count => simp only [alignSize, Shape.size, node256Size]

theorem Built.trans {h'' : Heap} {pool' : Set ℕ} (h₁ : Spends limit h h') (h₂ : Built limit h' h'' pool' t)
    (hpool : pool' ⊆ pool ∪ taken h h') : Built limit h h'' pool t := by
  refine ⟨h₁.trans h₂.toSpends, h₂.laid, h₂.foot.trans (union_subset (hpool.trans ?_) ?_), h₂.apart⟩
  · exact union_subset_union_right _ h₂.toSpends.taken_left
  · exact h₁.taken_right.trans subset_union_right

theorem inner_built (hg : Granted limit shape.size off h h') (hl : ∀ b, (kids b).Laid limit)
    (hpool : ∀ b, (kids b).foot ⊆ pool) (hkids : ∀ b c, b ≠ c → Disjoint (kids b).foot (kids c).foot)
    (hp : Disjoint pool h.avail) : Built limit h h' pool (inner off shape kids) := by
  have htaken := hg.taken
  have happart := hg.apart
  have hfits := hg.fits
  rw [alignSize_size] at htaken happart hfits
  have havail : taken h h' ⊆ h.avail := fun _ ha ↦ ha.1
  refine ⟨hg.toSpends, ⟨hg.aligned, hg.pos, hfits, fun b ↦ ?_, hkids, hl⟩, ?_, ?_⟩
  · exact (hp.mono (hpool b) (htaken.trans havail)).symm
  · exact union_subset (htaken.trans subset_union_right)
      (iUnion_subset fun b ↦ (hpool b).trans subset_union_left)
  · exact disjoint_union_left.mpr ⟨happart,
      disjoint_iUnion_left.mpr fun b ↦ hp.mono (hpool b) hg.avail⟩

theorem kidsOf_spec {P : Tree → Prop} (hnil : P nil) {entries : List (UInt8 × Tree)}
    (hall : ∀ e ∈ entries, P e.2) (b : UInt8) : P (kidsOf entries b) := by
  rcases kidsOf_mem entries b with hin | ⟨-, heq⟩
  · exact hall _ hin
  · rwa [heq]

theorem link_built (hg : Granted limit SlotKind.node4.size off h h') (ht : top.Laid limit)
    (hd : Disjoint top.foot h.avail) (b : UInt8) : Built limit h h' top.foot (node4 off [(b, top)]) := by
  refine inner_built hg ?_ ?_ ?_ hd
  · exact kidsOf_spec trivial (by simpa using ht)
  · exact kidsOf_spec (P := fun t ↦ t.foot ⊆ top.foot) (empty_subset _) (by simp)
  · intro c d hcd
    simp only [kidsOf]
    split_ifs with h₁ h₂
    · exact absurd (h₁.trans h₂.symm) hcd
    · exact disjoint_empty _
    · exact empty_disjoint _
    · exact disjoint_empty _

theorem links_built (hs : h.Sound limit) (ht : top.Laid limit) (hd : Disjoint top.foot h.avail)
    (hl : links limit key start n top h = some (t, h')) : Built limit h h' top.foot t := by
  induction n generalizing top h with
  | zero =>
    obtain ⟨rfl, rfl⟩ := Prod.mk.inj (Option.some.inj hl)
    exact ⟨.refl hs, ht, subset_union_left, hd⟩
  | succ n ih =>
    rw [links] at hl
    split at hl
    · cases hl
    · rename_i off h₁ halloc
      have hnode := link_built (alloc_granted hs halloc) ht hd (slotByte key (start + n))
      exact (ih hnode.sound hnode.laid hnode.apart hl).trans hnode.toSpends hnode.foot

theorem fork_built (hg : Granted limit SlotKind.node4.size off h h') (hold : old.Laid limit)
    (hnew : new.Laid limit) (hon : Disjoint old.foot new.foot) (hd : Disjoint (old.foot ∪ new.foot) h.avail)
    (hpart : slotByte existing p ≠ slotByte key p) :
    Built limit h h' (old.foot ∪ new.foot) (node4 off (forkEntries existing key old new p)) := by
  refine inner_built hg ?_ ?_ ?_ hd
  · refine kidsOf_spec trivial fun e he ↦ ?_
    rcases fork_mem he with rfl | rfl
    · exact hold
    · exact hnew
  · refine kidsOf_spec (P := fun t ↦ t.foot ⊆ _) (empty_subset _) fun e he ↦ ?_
    rcases fork_mem he with rfl | rfl
    · exact subset_union_left
    · exact subset_union_right
  · intro b c hbc
    rw [fork_kids hpart, fork_kids hpart]
    split_ifs with h₁ h₂ h₃ h₄ h₅ h₆ h₇
    · exact absurd (h₁.trans h₂.symm) hbc
    · exact hon
    · exact disjoint_empty _
    · exact hon.symm
    · exact absurd (h₄.trans h₆.symm) hbc
    · exact disjoint_empty _
    · exact empty_disjoint _
    · exact empty_disjoint _
    · exact disjoint_empty _

theorem split_built (hs : h.Sound limit) (hold : old.Laid limit) (hnew : new.Laid limit)
    (hon : Disjoint old.foot new.foot) (hd : Disjoint (old.foot ∪ new.foot) h.avail)
    (hpart : slotByte existing (splitPoint existing key start) ≠ slotByte key (splitPoint existing key start))
    (hl : split limit existing key old new start h = some (t, h')) :
    Built limit h h' (old.foot ∪ new.foot) t := by
  rw [split] at hl
  generalize splitPoint existing key start = p at hl hpart
  split at hl
  · cases hl
  · rename_i off h₁ halloc
    have hnode := fork_built (alloc_granted hs halloc) hold hnew hon hd hpart
    exact (links_built hnode.sound hnode.laid hnode.apart hl).trans hnode.toSpends hnode.foot

theorem foot_kid (off : ℕ) (shape : Shape) (kids : UInt8 → Tree) (b : UInt8) :
    (kids b).foot ⊆ (inner off shape kids).foot :=
  (subset_iUnion (fun b ↦ (kids b).foot) b).trans subset_union_right

theorem foot_update (off : ℕ) (shape : Shape) (kids : UInt8 → Tree) (b : UInt8) (t : Tree) :
    (inner off shape (Function.update kids b t)).foot ⊆ (inner off shape kids).foot ∪ t.foot := by
  refine union_subset (subset_union_left.trans subset_union_left) (iUnion_subset fun c ↦ ?_)
  rcases eq_or_ne c b with rfl | hne
  · rw [Function.update_self]
    exact subset_union_right
  · rw [Function.update_of_ne hne]
    exact (foot_kid off shape kids c).trans subset_union_left

theorem kids_update (hkids : ∀ b c, b ≠ c → Disjoint (kids b).foot (kids c).foot)
    (ht : ∀ c, c ≠ b → Disjoint (kids c).foot t.foot) (c d : UInt8) (hcd : c ≠ d) :
    Disjoint (Function.update kids b t c).foot (Function.update kids b t d).foot := by
  rcases eq_or_ne c b with rfl | hc
  · rw [Function.update_self, Function.update_of_ne hcd.symm]
    exact (ht d hcd.symm).symm
  · rw [Function.update_of_ne hc]
    rcases eq_or_ne d b with rfl | hd
    · rw [Function.update_self]
      exact ht c hc
    · rw [Function.update_of_ne hd]
      exact hkids c d hcd

theorem laid_update (hl : (inner off shape kids).Laid limit) (hsize : shape'.size = shape.size)
    (ht : t.Laid limit) (hblock : Disjoint (Ico off (off + shape.size)) t.foot)
    (hkids : ∀ c, c ≠ b → Disjoint (kids c).foot t.foot) :
    (inner off shape' (Function.update kids b t)).Laid limit := by
  obtain ⟨hal, hpos, hfit, hself, hpair, hall⟩ := hl
  refine ⟨hal, hpos, hsize ▸ hfit, fun c ↦ ?_, kids_update hpair hkids, fun c ↦ ?_⟩ <;>
    rcases eq_or_ne c b with rfl | hne
  · rwa [Function.update_self, hsize]
  · rw [Function.update_of_ne hne, hsize]
    exact hself c
  · rwa [Function.update_self]
  · rw [Function.update_of_ne hne]
    exact hall c

/-- What a change of the tree leaves of the heap. -/
structure Changed (limit : ℕ) (h h' : Heap) (t t' : Tree) (pool : Set ℕ) : Prop where
  sound : h'.Sound limit
  laid : t'.Laid limit
  foot : t'.foot ⊆ t.foot ∪ pool ∪ taken h h'
  apart : Disjoint t'.foot h'.avail
  avail : h'.avail ⊆ h.avail ∪ t.foot
  bump_le : h.bump ≤ h'.bump

theorem Built.changed (hb : Built limit h h' (t.foot ∪ pool) t') : Changed limit h h' t t' pool :=
  ⟨hb.sound, hb.laid, hb.foot, hb.apart, hb.avail.trans subset_union_left, hb.bump_le⟩

/-- A change below a node is a change of the node. -/
theorem Changed.lift (hl : (inner off shape kids).Laid limit)
    (hd : Disjoint (inner off shape kids).foot h.avail) (hpool : Disjoint (inner off shape kids).foot pool)
    (hc : Changed limit h h' (kids b) t pool) :
    Changed limit h h' (inner off shape kids) (inner off shape (Function.update kids b t)) pool := by
  have havail : taken h h' ⊆ h.avail := fun _ ha ↦ ha.1
  have hout : ∀ u : Set ℕ, u ⊆ (inner off shape kids).foot → Disjoint u (kids b).foot →
      Disjoint u t.foot := fun u hu hb ↦
    (disjoint_union_right.mpr ⟨disjoint_union_right.mpr ⟨hb, hpool.mono_left hu⟩,
      hd.mono hu havail⟩).mono_right hc.foot
  have hrest : ∀ u : Set ℕ, u ⊆ (inner off shape kids).foot → Disjoint u (kids b).foot →
      Disjoint u h'.avail := fun u hu hb ↦
    (disjoint_union_right.mpr ⟨hd.mono_left hu, hb⟩).mono_right hc.avail
  have hself := hl.2.2.2.1
  have hpair := hl.2.2.2.2.1
  refine ⟨hc.sound, laid_update hl rfl hc.laid (hout _ subset_union_left (hself b))
    fun c hne ↦ hout _ (foot_kid off shape kids c) (hpair c b hne), ?_, ?_, ?_, hc.bump_le⟩
  · refine (foot_update off shape kids b t).trans (union_subset ?_ (hc.foot.trans ?_))
    · exact subset_union_left.trans subset_union_left
    · exact union_subset_union_left _ (union_subset_union_left _ (foot_kid off shape kids b))
  · refine disjoint_union_left.mpr ⟨hrest _ subset_union_left (hself b), disjoint_iUnion_left.mpr fun c ↦ ?_⟩
    rcases eq_or_ne c b with rfl | hne
    · rw [Function.update_self]
      exact hc.apart
    · rw [Function.update_of_ne hne]
      exact hrest _ (foot_kid off shape kids c) (hpair c b hne)
  · exact hc.avail.trans (union_subset_union_right _ (foot_kid off shape kids b))

/-- A node that a new one replaces goes back to the heap. -/
theorem Changed.replace (hl : (inner off shape kids).Laid limit)
    (hd : Disjoint (inner off shape kids).foot h.avail) (hpool : Disjoint (inner off shape kids).foot pool)
    (hb : Built limit h h' ((⋃ b, (kids b).foot) ∪ pool) t) :
    Changed limit h (h'.quarantine off shape.size) (inner off shape kids) t pool := by
  have havail : taken h h' ⊆ h.avail := fun _ ha ↦ ha.1
  obtain ⟨hal, hpos, hfit, hself, -, -⟩ := hl
  have hblock : Disjoint (Ico off (off + shape.size)) h'.avail :=
    hd.mono subset_union_left hb.avail
  have hbump : off + shape.size ≤ h'.bump := by
    by_contra hlt
    have hsize := shape.size_pos
    have hlast : off + shape.size - 1 ∈ Ico off (off + shape.size) := ⟨by omega, by omega⟩
    exact disjoint_left.mp hblock hlast (.inr (by simp only [mem_Ici]; omega))
  have hquarantine := quarantine_avail off shape.size h'
  refine ⟨hb.sound.quarantine hal hpos hbump hfit hblock, hb.laid, ?_, ?_, ?_, hb.bump_le⟩
  · refine hb.foot.trans (union_subset_union_left _ (union_subset_union_left _ subset_union_right))
  · refine (disjoint_union_right.mpr ⟨hb.apart, Disjoint.mono_left hb.foot ?_⟩).mono_right hquarantine
    refine disjoint_union_left.mpr ⟨disjoint_union_left.mpr ⟨?_, ?_⟩, ?_⟩
    · exact disjoint_iUnion_left.mpr fun b ↦ (hself b).symm
    · exact (hpool.mono_left subset_union_left).symm
    · exact (hd.mono subset_union_left havail).symm
  · exact hquarantine.trans (union_subset_union hb.avail subset_union_left)

/-- What an insert relies on before it goes down from a node. -/
structure Ready (limit : ℕ) (key : Bytes) (new : Tree) (path : Bytes) (h : Heap) (t : Tree) : Prop where
  sound : h.Sound limit
  wf : t.WF path
  path_key : path <+: key ++ [terminator]
  laid : t.Laid limit
  apart : Disjoint t.foot h.avail
  new_laid : new.Laid limit
  new_apart : Disjoint new.foot h.avail
  new_clear : Disjoint t.foot new.foot

theorem Ready.child {path : Bytes} (hr : Ready limit key new path h (inner off shape kids)) :
    Ready limit key new (path ++ [slotByte key path.length]) h (kids (slotByte key path.length)) where
  sound := hr.sound
  wf := hr.wf.2.2.2.2 _
  path_key := path_child hr.wf hr.path_key
  laid := hr.laid.2.2.2.2.2 _
  apart := hr.apart.mono_left (foot_kid _ _ _ _)
  new_laid := hr.new_laid
  new_apart := hr.new_apart
  new_clear := hr.new_clear.mono_left (foot_kid _ _ _ _)

theorem Inserts.changed {newOff : ℕ} (hk : ValidKey key)
    (hi : Inserts limit key value (leaf newOff key value) depth h t t' h') :
    ∀ path, path.length = depth → Ready limit key (leaf newOff key value) path h t →
      Changed limit h h' t t' (leaf newOff key value).foot := by
  induction hi with
  | overwrite =>
    rintro path - hr
    exact ⟨hr.sound, hr.laid, subset_union_left.trans subset_union_left, hr.apart, subset_union_left, le_rfl⟩
  | split hne hs =>
    rintro path rfl hr
    have hwf := hr.wf
    obtain ⟨hde, hdk, htake, htake'⟩ := path_of_two hwf.1 hk hne hwf.2 hr.path_key
    obtain ⟨p, hp, -, -, -, -, -, hpart⟩ := splitPoint_parts hwf.1 hk hne hde hdk (htake.trans htake'.symm)
    exact (split_built hr.sound hr.laid hr.new_laid hr.new_clear
      (disjoint_union_left.mpr ⟨hr.apart, hr.new_apart⟩) (hp ▸ hpart) hs).changed
  | descend hhas _ ih =>
    rintro path rfl hr
    exact (ih _ (by simp) hr.child).lift hr.laid hr.apart hr.new_clear
  | @claim depth h off shape kids hvacant hroom =>
    rintro path rfl hr
    have hnil := hvacant.nil hr.wf.2.2.2.1
    have hchild : Changed limit h h (kids (slotByte key path.length)) (leaf newOff key value)
        (leaf newOff key value).foot :=
      ⟨hr.sound, hr.new_laid, subset_union_right.trans subset_union_left, hr.new_apart,
        subset_union_left, le_rfl⟩
    have hsize : (shape.add (slotByte key path.length)).size = shape.size := by cases shape <;> rfl
    have hlift := hchild.lift hr.laid hr.apart hr.new_clear
    refine ⟨hr.sound, laid_update hr.laid hsize hr.new_laid (hr.new_clear.mono_left subset_union_left)
      fun c _ ↦ hr.new_clear.mono_left (foot_kid _ _ _ c), ?_, ?_, hlift.avail, le_rfl⟩
    · simpa only [foot, hsize] using hlift.foot
    · simpa only [foot, hsize] using hlift.apart
  | @grow depth h off kind keys kids off' h' hvacant hfull halloc =>
    rintro path rfl hr
    have hnil := hr.wf.2.2.2.1 _ hvacant
    have hg := alloc_granted hr.sound halloc
    have hsize : ((Shape.slots kind keys).grow.add (slotByte key path.length)).size =
        (Shape.slots kind keys).grow.size := by cases kind <;> rfl
    rw [← hsize] at hg
    refine Changed.replace hr.laid hr.apart hr.new_clear (inner_built hg (fun b ↦ ?_) (fun b ↦ ?_) ?_ ?_)
    · rcases eq_or_ne b (slotByte key path.length) with rfl | hne
      · rw [Function.update_self]
        exact hr.new_laid
      · rw [Function.update_of_ne hne]
        exact hr.laid.2.2.2.2.2 b
    · rcases eq_or_ne b (slotByte key path.length) with rfl | hne
      · rw [Function.update_self]
        exact subset_union_right
      · rw [Function.update_of_ne hne]
        exact (subset_iUnion (fun b ↦ (kids b).foot) b).trans subset_union_left
    · exact kids_update hr.laid.2.2.2.2.1 fun c _ ↦ hr.new_clear.mono_left (foot_kid _ _ _ c)
    · exact disjoint_union_left.mpr ⟨hr.apart.mono_left subset_union_right, hr.new_apart⟩

end Tree

end TakyonDb.Art
