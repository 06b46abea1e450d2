import TakyonDb.Art.InsertRun

namespace TakyonDb.Art

open Lib Set Heap Art.Tree

variable {ix : ArtIndex} {limit : ℕ} {s s' s₂ : ArtState} {h h' h₂ : Heap} {key : Bytes}
  {new root root' root₂ : Tree} {pool : Set ℕ}

/-- The memory holds the whole index: the tree, the word that points to it
and the allocator. -/
structure Indexed (ix : ArtIndex) (limit : ℕ) (s : ArtState) (h : Heap) (root : Tree) : Prop where
  arena : Arena ix limit s h
  stored : Stored s.mem root
  word : readU32 s.mem ix.rootPtrOffset = root.raw
  wf : root.WF []
  laid : root.Laid limit
  apart : Disjoint root.foot h.avail
  root_clear : Disjoint ix.rootWord (root.foot ∪ h.avail)
  bump_clear : Disjoint ix.bumpWord root.foot
  root_kind : root = .nil ∨ root.IsInner

/-- A call leads from one index to another, and changes no byte outside of
the first tree, the two words and what the heap granted. -/
structure Moves (ix : ArtIndex) (limit : ℕ) (s : ArtState) (h : Heap) (root : Tree)
    (s' : ArtState) (h' : Heap) (root' : Tree) : Prop where
  indexed : Indexed ix limit s' h' root'
  changes : ChangesOnly (ix.rootWord ∪ ix.bumpWord ∪ root.foot ∪ taken h h') s.mem s'.mem
  foot : root'.foot ⊆ root.foot ∪ taken h h'
  avail : h'.avail ⊆ h.avail ∪ root.foot
  bump_le : h.bump ≤ h'.bump

theorem Indexed.words_apart (hx : Indexed ix limit s h root) : Disjoint ix.rootWord ix.bumpWord :=
  disjoint_Ico hx.arena.placed.words_apart

/-- A change elsewhere in the memory leaves the index as it is. -/
theorem Indexed.frame {mem : Bytes} {t : Set ℕ} (hx : Indexed ix limit s h root) (hch : ChangesOnly t s.mem mem)
    (ht : Disjoint (ix.rootWord ∪ ix.bumpWord ∪ root.foot) t) : Indexed ix limit { s with mem } h root := by
  obtain ⟨hwords, hfoot⟩ := disjoint_union_left.mp ht
  obtain ⟨hroot, hbump⟩ := disjoint_union_left.mp hwords
  exact { hx with
    arena := hx.arena.write hch hbump
    stored := hx.stored.frame hch hx.wf hfoot
    word := (hch.readU32 hroot).trans hx.word }

theorem Moves.refl (hx : Indexed ix limit s h root) : Moves ix limit s h root s h root :=
  ⟨hx, .rfl', subset_union_left, subset_union_left, le_rfl⟩

theorem Moves.trans (h₁ : Moves ix limit s h root s₂ h₂ root₂) (h₂' : Moves ix limit s₂ h₂ root₂ s' h' root') :
    Moves ix limit s h root s' h' root' := by
  have hleft : taken h h₂ ⊆ taken h h' := fun _ ha ↦ ⟨ha.1, ha.2.trans_le h₂'.bump_le⟩
  have hright : taken h₂ h' ⊆ root.foot ∪ taken h h' := by
    rintro a ⟨havail, hlt⟩
    rcases h₁.avail havail with hold | hfoot
    · exact .inr ⟨hold, hlt⟩
    · exact .inl hfoot
  have hfoot : root₂.foot ⊆ root.foot ∪ taken h h' := h₁.foot.trans (union_subset_union_right _ hleft)
  refine ⟨h₂'.indexed, (h₁.changes.mono (union_subset_union_right _ hleft)).trans (h₂'.changes.mono ?_),
    h₂'.foot.trans (union_subset hfoot hright), h₂'.avail.trans (union_subset h₁.avail ?_),
    h₁.bump_le.trans h₂'.bump_le⟩
  · have hwide : root.foot ∪ taken h h' ⊆ ix.rootWord ∪ ix.bumpWord ∪ root.foot ∪ taken h h' :=
      union_subset_union_left _ subset_union_right
    exact union_subset (union_subset (subset_union_left.trans subset_union_left) (hfoot.trans hwide))
      (hright.trans hwide)
  · exact h₁.foot.trans (union_subset subset_union_right fun _ ha ↦ .inl ha.1)

theorem Indexed.held (hx : Indexed ix limit s h root) (hst : Stored s.mem new)
    (hbump : Disjoint ix.bumpWord new.foot) (hroot : Disjoint ix.rootWord new.foot) :
    Held ix limit s h ix.rootPtrOffset root new where
  arena := hx.arena
  stored := hx.stored
  new_stored := hst
  word := hx.word
  fits := hx.arena.placed.root_fits
  bump_clear := disjoint_union_right.mpr ⟨hx.bump_clear, hbump⟩
  bump_apart := hx.words_apart
  slot_clear := disjoint_union_right.mpr ⟨hx.root_clear.mono_right subset_union_left, hroot⟩
  slot_apart := hx.root_clear.mono_right subset_union_right

theorem Indexed.ready (hx : Indexed ix limit s h root) (key : Bytes) (hl : new.Laid limit)
    (hd : Disjoint new.foot h.avail) (hclear : Disjoint root.foot new.foot) :
    Ready limit key new [] h root :=
  ⟨hx.arena.sound, hx.wf, List.nil_prefix, hx.laid, hx.apart, hl, hd, hclear⟩

/-- The allocator's work alone leaves the tree as it was. -/
theorem Indexed.spent (hx : Indexed ix limit s h root) (hsp : Spent ix limit s h s' h') :
    Moves ix limit s h root s' h' root := by
  have htaken : taken h h' ⊆ h.avail := fun _ ha ↦ ha.1
  have hroot : Disjoint ix.rootWord (ix.bumpWord ∪ taken h h') := disjoint_union_right.mpr
    ⟨hx.words_apart, hx.root_clear.mono_right (htaken.trans subset_union_right)⟩
  refine ⟨⟨hsp.arena, ?_, (hsp.changes.readU32 hroot).trans hx.word, hx.wf, hx.laid, ?_, ?_, hx.bump_clear,
    hx.root_kind⟩, hsp.changes.mono ?_, subset_union_left, hsp.avail.trans subset_union_left, hsp.bump_le⟩
  · exact hx.stored.spent hx.wf hsp (disjoint_union_right.mpr ⟨hx.bump_clear.symm, hx.apart⟩)
  · exact hx.apart.mono_right hsp.avail
  · exact hx.root_clear.mono_right (union_subset_union_right _ hsp.avail)
  · exact union_subset_union_left _ (subset_union_right.trans subset_union_left)

/-- A new tree in the root word, built on what was granted before and after. -/
theorem Indexed.place (hx : Indexed ix limit s h root) (hsp : Spent ix limit s h s₂ h₂)
    (hp : Placed ix limit s₂ h₂ ix.rootPtrOffset root s' h' root') (hc : Changed limit h₂ h' root root' pool)
    (hpool : pool ⊆ taken h h₂) (hwf : root'.WF []) (hkind : root' = .nil ∨ root'.IsInner) :
    Moves ix limit s h root s' h' root' := by
  have hmoves := hx.spent hsp
  have hleft : taken h h₂ ⊆ taken h h' := fun _ ha ↦ ⟨ha.1, ha.2.trans_le hc.bump_le⟩
  have hright : taken h₂ h' ⊆ taken h h' := fun _ ha ↦ ⟨hsp.avail ha.1, ha.2⟩
  have htaken : taken h h' ⊆ h.avail := fun _ ha ↦ ha.1
  have hfoot : root'.foot ⊆ root.foot ∪ taken h h' := hc.foot.trans (union_subset
    (union_subset subset_union_left ((hpool.trans hleft).trans subset_union_right)) (hright.trans subset_union_right))
  have havail : h'.avail ⊆ h.avail ∪ root.foot := hc.avail.trans (union_subset_union_left _ hsp.avail)
  have hword : root.foot ∪ taken h h' ⊆ root.foot ∪ h.avail := union_subset_union_right _ htaken
  have hbump : Disjoint ix.bumpWord (root.foot ∪ h.avail) := disjoint_union_right.mpr ⟨hx.bump_clear, hx.arena.clear⟩
  refine ⟨⟨hp.arena, hp.stored, hp.word, hwf, hc.laid, hc.apart, ?_, ?_, hkind⟩,
    (hmoves.changes.mono (union_subset_union_right _ hleft)).trans (hp.changes.mono ?_), hfoot, havail,
    hsp.bump_le.trans hc.bump_le⟩
  · exact hx.root_clear.mono_right (union_subset (hfoot.trans hword)
      (havail.trans (union_subset subset_union_right subset_union_left)))
  · exact hbump.mono_right (hfoot.trans hword)
  · exact union_subset_union_right _ hright

end TakyonDb.Art
