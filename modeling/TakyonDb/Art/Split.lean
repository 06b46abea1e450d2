import TakyonDb.Art.Convert
import TakyonDb.Art.Placement

namespace TakyonDb.Art

open Lib Set Heap Art.Tree

variable {ix : ArtIndex} {limit off dst n start depth : ℕ} {s s' : ArtState} {h h' : Heap}
  {key existing : Bytes} {value v : UInt32} {b : UInt8} {old new top t : Tree} {mem : Bytes}

theorem run_leafKeyLen (hst : Stored s.mem (.leaf off existing v))
    (hl : (Tree.leaf off existing v).Laid s.mem.length) : leafKeyLen off s = .ok existing.length s := by
  have hfit := hl.leaf_fits
  have hin : ¬ s.mem.length < off + leafHeader := by omega
  simp only [leafKeyLen, arenaLen, bind, EStateM.bind, get, getThe, MonadStateOf.get, run_get, pure,
    EStateM.pure, if_neg hin, run_load, hst.1]

theorem run_leafKeyEql (key : Bytes) (hst : Stored s.mem (.leaf off existing v))
    (hl : (Tree.leaf off existing v).Laid s.mem.length) :
    leafKeyEql off key s = .ok (existing = key) s := by
  have hfit := hl.leaf_fits
  rw [leafKeyEql, bind_ok (run_leafKeyLen hst hl)]
  by_cases hsame : existing.length = key.length
  · have hne : ¬ existing.length ≠ key.length := not_not.mpr hsame
    simp only [if_neg hne]
    have hbytes : leafKeyBytes off existing.length s = .ok _ s := run_leafKeyBytes hfit
    rw [bind_ok hbytes, hst.2.2]
    rfl
  · simp only [if_pos hsame]
    have hne : existing ≠ key := fun heq ↦ hsame (congrArg List.length heq)
    simp [hne, pure, EStateM.pure]

theorem raw_lt (hl : t.Laid limit) (hlimit : limit < 2 ^ 32) : t.raw < 2 ^ 32 := by
  cases t with
  | nil => exact (by decide : 0 < 2 ^ 32)
  | leaf off key value =>
    have hfit := hl.leaf_fits
    have hheader : leafHeader = 8 := rfl
    simp only [raw, NodeType.tag]
    omega
  | inner off shape kids =>
    obtain ⟨-, -, hfit, -⟩ := hl
    have hsize := shape.size_pos
    have htag : shape.type.tag < 8 := by cases shape.type <;> decide
    simp only [raw]
    omega

/-- The step runs out of memory, which `room` bytes above the bump word would have prevented. -/
def Fails (ix : ArtIndex) (limit room : ℕ) {α : Type} (x : ArtM α) (s : ArtState) (h : Heap) : Prop :=
  ∃ s' h', x s = .error (.error .outOfMemory) s' ∧ Spent ix limit s h s' h' ∧ limit < h.bump + room

/-- A result of a builder that may run out of memory. -/
def Builds (ix : ArtIndex) (limit room : ℕ) (x : ArtM ℕ) (s : ArtState) (h : Heap) :
    Option (Tree × Heap) → Prop
  | some (t, h') => ∃ s', x s = .ok t.raw s' ∧ Spent ix limit s h s' h' ∧ Stored s'.mem t
  | none => Fails ix limit room x s h

theorem Fails.after {α : Type} {x y : ArtM α} {room room' : ℕ} (h₁ : Spent ix limit s h s' h')
    (hroom : h'.bump + room' ≤ h.bump + room) (hx : x s = y s') (hf : Fails ix limit room' y s' h') :
    Fails ix limit room x s h := by
  obtain ⟨s₂, h₂, hrun, hsp, hfull⟩ := hf
  exact ⟨s₂, h₂, hx.trans hrun, h₁.trans hsp, by omega⟩

theorem Builds.after {x y : ArtM ℕ} {o : Option (Tree × Heap)} {room room' : ℕ}
    (h₁ : Spent ix limit s h s' h') (hroom : h'.bump + room' ≤ h.bump + room) (hx : x s = y s')
    (hb : Builds ix limit room' y s' h' o) : Builds ix limit room x s h o := by
  cases o with
  | some r =>
    obtain ⟨s₂, hrun, hsp, hst⟩ := hb
    exact ⟨s₂, hx.trans hrun, h₁.trans hsp, hst⟩
  | none => exact Fails.after h₁ hroom hx hb

/-- What the heap grants next leaves a tree that it does not own as it is. -/
theorem Stored.spent {path : Bytes} (hst : Stored s.mem t) (hwf : t.WF path) (hsp : Spent ix limit s h s' h')
    (hd : Disjoint t.foot (ix.bumpWord ∪ h.avail)) : Stored s'.mem t :=
  hst.frame hsp.changes hwf (hd.mono_right (union_subset_union_right _ fun _ ha ↦ ha.1))

/-- A new `Node4` without entries, in a block that the heap has just granted. -/
theorem run_newNode4 (ha : Arena ix limit s h) (halloc : h.alloc limit SlotKind.node4.size = some (off, h'))
    (raws : UInt8 → ℕ) :
    ∃ s₁, allocZeroed ix SlotKind.node4.size s = .ok off s₁ ∧ Spent ix limit s h s₁ h' ∧
      nodeAt off SlotKind.node4.size s₁ = .ok () s₁ ∧ off + SlotKind.node4.size ≤ s₁.mem.length ∧
      Filled s₁ s₁ off raws .node4 [] := by
  have hg := alloc_granted ha.sound halloc
  obtain ⟨s₁, hrun, hsp, hzero⟩ := run_allocZeroed ha halloc
  have hfit : off + SlotKind.node4.size ≤ s₁.mem.length := by
    have := hg.fits
    have := le_alignSize SlotKind.node4.size
    rw [hsp.arena.length]
    omega
  exact ⟨s₁, hrun, hsp, run_nodeAt hfit hg.aligned, hfit, rfl, .rfl', entries_zero hzero raws⟩

theorem run_putKey4 (off slot : ℕ) (b : UInt8) (s : ArtState) :
    storeByte (off + SlotKind.node4.keysOffset + slot) b.toNat s =
      .ok () { s with mem := putKey .node4 off slot b s.mem } := by
  rw [run_storeByte, UInt8.ofNat_toNat]
  rfl

theorem alignSize_node4 : alignSize SlotKind.node4.size = 24 := by
  simp only [alignSize, SlotKind.size]

theorem taken_node4 (ha : Arena ix limit s h) (halloc : h.alloc limit SlotKind.node4.size = some (off, h')) :
    off % 8 = 0 ∧ Ico off (off + SlotKind.node4.size) ⊆ taken h h' := by
  have hg : Granted limit (Shape.slots .node4 []).size off h h' := alloc_granted ha.sound halloc
  exact ⟨hg.aligned, block_taken hg⟩

/-- The links that are built over a stored tree. -/
theorem run_buildLinks (hv : ValidKey key) (hend : start + n ≤ key.length) (ha : Arena ix limit s h)
    (hst : Stored s.mem top) (hwf : top.WF (key.take (start + n))) (hl : top.Laid limit)
    (hd : Disjoint top.foot (ix.bumpWord ∪ h.avail)) :
    Builds ix limit (24 * n) (buildLinks ix key start n top.raw) s h (links limit key start n top h) := by
  induction n generalizing top s h with
  | zero => exact ⟨s, rfl, .refl ha, hst⟩
  | succ n ih =>
    rw [links]
    cases halloc : h.alloc limit SlotKind.node4.size with
    | none =>
      have hfull := alloc_eq_none halloc
      rw [alignSize_node4] at hfull
      exact ⟨s, h, bind_error (run_allocZeroed_none ha halloc), .refl ha, by omega⟩
    | some granted =>
      obtain ⟨off, h₁⟩ := granted
      have hbump := alloc_bump_le halloc
      rw [alignSize_node4] at hbump
      dsimp only
      set b := slotByte key (start + n) with hb
      obtain ⟨s₁, hrun, hsp, hnode, hfit, hf⟩ := run_newNode4 ha halloc fun c ↦ (kidsOf [(b, top)] c).raw
      obtain ⟨hal, htaken⟩ := taken_node4 ha halloc
      have hraw : (kidsOf [(b, top)] b).raw = top.raw := by simp only [kidsOf, if_true]
      have hput := hf.put (b := b) hfit (by decide) List.not_mem_nil (hraw ▸ raw_lt hl ha.placed.limit_lt)
      obtain ⟨hch, hstands⟩ := hput.count hfit (by simp [SlotKind.capacity])
      have hspent := hsp.write ha.clear hch htaken
      have hst₂ := hst.spent hwf hspent hd
      have hbuilt := link_built (alloc_granted ha.sound halloc) hl (hd.mono_right subset_union_right) b
      refine Builds.after hspent (by omega) ?_ (ih (by omega) hspent.arena ⟨hstands, ?_⟩ (link_wf hv (by omega) hwf)
        hbuilt.laid (disjoint_union_right.mpr ⟨?_, hbuilt.apart⟩))
      · have hkey : storeByte (off + SlotKind.node4.keysOffset) b.toNat s₁ = .ok () _ := run_putKey4 off 0 b s₁
        rw [buildLinks, bind_ok hrun, bind_ok hnode, bind_ok (show storeByte _ (key.getD _ 0).toNat _ = _ from hkey),
          bind_ok (run_store _ _ _), bind_ok (run_storeByte _ _ _), bind_ok (run_newPtr hal .node4), ← hraw]
        rfl
      · exact kidsOf_spec trivial (by simpa using hst₂)
      · refine Disjoint.mono_left hbuilt.foot (disjoint_union_left.mpr ⟨hd.mono_right subset_union_left, ?_⟩)
        exact (ha.clear.mono_right fun _ ha ↦ ha.1).symm

/-- The code writes the entries of the fork in the order of the list. -/
theorem fork_code {p : ℕ} (hpe : p ≤ existing.length) (hpk : p ≤ key.length) (old new : Tree) (off : ℕ) :
    ∃ e₀ e₁, forkEntries existing key old new p = [e₀, e₁] ∧
      buildFork off existing key old.raw new.raw p = writeFork off e₀.1 e₀.2.raw e₁.1 e₁.2.raw := by
  rw [forkEntries, buildFork]
  by_cases hend : existing.length ≤ p ∨ key.length ≤ p
  · by_cases hlt : existing.length < key.length
    · refine ⟨_, _, if_neg fun hc ↦ hc.2 hlt, ?_⟩
      rw [if_pos hend, if_pos hlt, slotByte_of_le (by omega : existing.length ≤ p)]
      rfl
    · refine ⟨_, _, if_pos ⟨hend, hlt⟩, ?_⟩
      rw [if_pos hend, if_neg hlt, slotByte_of_le (by omega : key.length ≤ p)]
      rfl
  · refine ⟨_, _, if_neg fun hc ↦ hend hc.1, ?_⟩
    rw [if_neg hend]
    rfl

theorem run_writeFork {s₁ : ArtState} {raws : UInt8 → ℕ} {b₀ b₁ : UInt8} (hne : b₀ ≠ b₁)
    (hf : Filled s₁ s₁ off raws .node4 []) (hfit : off + SlotKind.node4.size ≤ s₁.mem.length)
    (h₀ : raws b₀ < 2 ^ 32) (h₁ : raws b₁ < 2 ^ 32) :
    ∃ s₂, writeFork off b₀ (raws b₀) b₁ (raws b₁) s₁ = .ok () s₂ ∧ Filled s₁ s₂ off raws .node4 [b₀, b₁] := by
  have hput₀ := hf.put hfit (by decide) List.not_mem_nil h₀
  have hput₁ := hput₀.put (b := b₁) hfit (by simp [SlotKind.capacity]) (by simpa using hne.symm) h₁
  refine ⟨_, ?_, hput₁⟩
  have hkey : storeByte (off + SlotKind.node4.keysOffset) b₀.toNat s₁ = .ok () _ := run_putKey4 off 0 b₀ s₁
  rw [writeFork, bind_ok hkey, bind_ok (run_store _ _ _), bind_ok (run_putKey4 off 1 b₁ _)]
  rfl

/-- The chain that replaces a leaf in the code is the one in the tree. -/
theorem run_buildSplit {newOff : ℕ} {path : Bytes} (hk : ValidKey key) (hne : existing ≠ key)
    (hdepth : path.length = depth + 1) (ha : Arena ix limit s h)
    (hr : Ready limit key (leaf newOff key value) path h (leaf off existing v))
    (hold : Stored s.mem (leaf off existing v)) (hnew : Stored s.mem (leaf newOff key value))
    (hclear : Disjoint ix.bumpWord ((leaf off existing v).foot ∪ (leaf newOff key value).foot)) :
    Builds ix limit (24 * (splitPoint existing key path.length - path.length + 1))
      (buildSplit ix off key (leaf newOff key value).raw depth) s h
      (split limit existing key (leaf off existing v) (leaf newOff key value) path.length h) := by
  have hwf := hr.wf
  obtain ⟨hde, hdk, htake, htake'⟩ := path_of_two hwf.1 hk hne hwf.2 hr.path_key
  obtain ⟨p, hp, hdp, hple, hplk, hmax, hcommon, hpart⟩ :=
    splitPoint_parts hwf.1 hk hne hde hdk (htake.trans htake'.symm)
  have hlaid := hr.laid
  rw [← ha.length] at hlaid
  have hbytes := run_leafKeyBytes hlaid.leaf_fits
  rw [hold.2.2] at hbytes
  have hcheck : ¬ (key.length < p ∨ existing.length < p) := by omega
  set old := leaf off existing v with hold_def
  set new := leaf newOff key value with hnew_def
  have hexisting : newPtr off .leaf s = .ok old.raw s := run_newPtr hr.laid.1 .leaf
  have hstart : buildSplit ix off key new.raw depth s = (do
      let off ← allocZeroed ix SlotKind.node4.size
      nodeAt off SlotKind.node4.size
      buildFork off existing key old.raw new.raw p
      storeByte off 2
      buildLinks ix key (depth + 1) (p - (depth + 1)) (← newPtr off .node4)) s := by
    rw [buildSplit, bind_ok (run_leafKeyLen hold hlaid), bind_ok hbytes, ← hdepth, hp]
    simp only [if_neg hcheck]
    rw [bind_ok hexisting]
  rw [split, hp]
  cases halloc : h.alloc limit SlotKind.node4.size with
  | none =>
    have hfull := alloc_eq_none halloc
    rw [alignSize_node4] at hfull
    exact ⟨s, h, by rw [hstart, bind_error (run_allocZeroed_none ha halloc)], .refl ha, by omega⟩
  | some granted =>
    obtain ⟨forkOff, h₁⟩ := granted
    have hbump := alloc_bump_le halloc
    rw [alignSize_node4] at hbump
    dsimp only
    obtain ⟨e₀, e₁, hentries, hcode⟩ := fork_code hple hplk old new forkOff
    obtain ⟨s₁, hrun, hsp, hnode, hfit, hf⟩ := run_newNode4 ha halloc fun c ↦ (kidsOf [e₀, e₁] c).raw
    obtain ⟨hal, htaken⟩ := taken_node4 ha halloc
    have hbuilt := fork_built (alloc_granted ha.sound halloc) hr.laid hr.new_laid hr.new_clear
      (disjoint_union_left.mpr ⟨hr.apart, hr.new_apart⟩) hpart
    have hnodup := (fork_keys old new hpart).1
    have hwf' : (node4 forkOff (forkEntries existing key old new p)).WF (key.take p) :=
      fork_wf hwf.1 hk hple hplk hmax hcommon hpart
    rw [hentries] at hbuilt hnodup hwf' ⊢
    have hne' : e₀.1 ≠ e₁.1 := by simpa using hnodup
    have h₀ : kidsOf [e₀, e₁] e₀.1 = e₀.2 := by simp only [kidsOf, if_true]
    have h₁ : kidsOf [e₀, e₁] e₁.1 = e₁.2 := by simp only [kidsOf, if_neg hne'.symm, if_true]
    have hlt : ∀ c, (kidsOf [e₀, e₁] c).raw < 2 ^ 32 := fun c ↦
      raw_lt (hbuilt.laid.2.2.2.2.2 c) ha.placed.limit_lt
    obtain ⟨s₂, hfork, hf₂⟩ := run_writeFork hne' hf hfit (hlt _) (hlt _)
    rw [h₀, h₁] at hfork
    obtain ⟨hch, hstands⟩ := hf₂.count hfit (by simp [SlotKind.capacity])
    have hspent := hsp.write ha.clear hch htaken
    rw [← hf₂.free] at hspent
    have hold₂ := hold.spent hwf hspent (disjoint_union_right.mpr
      ⟨(hclear.mono_right subset_union_left).symm, hr.apart⟩)
    have hnew₂ := hnew.spent (show (leaf newOff key value).WF path from ⟨hk, hr.path_key⟩) hspent (disjoint_union_right.mpr
      ⟨(hclear.mono_right subset_union_right).symm, hr.new_apart⟩)
    have hsub : path.length + (p - path.length) = p := by omega
    refine Builds.after hspent (by omega) ?_ (run_buildLinks hk (by omega) hspent.arena ⟨hstands, ?_⟩ ?_ hbuilt.laid
      (disjoint_union_right.mpr ⟨?_, hbuilt.apart⟩))
    · rw [hstart, bind_ok hrun, bind_ok hnode, hcode, bind_ok hfork, bind_ok (run_storeByte _ _ _),
        bind_ok (run_newPtr hal .node4), ← hdepth]
      rfl
    · refine kidsOf_spec trivial fun e he ↦ ?_
      rcases fork_mem (hentries ▸ he) with rfl | rfl
      · exact hold₂
      · exact hnew₂
    · rw [hsub]
      exact hwf'
    · refine Disjoint.mono_left hbuilt.foot (disjoint_union_left.mpr ⟨hclear.symm, ?_⟩)
      exact (ha.clear.mono_right fun _ ha ↦ ha.1).symm

end TakyonDb.Art
