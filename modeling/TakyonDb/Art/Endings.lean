import TakyonDb.Art.Calls

namespace TakyonDb.Art

open Lib Set Heap Art.Tree

variable {ix : ArtIndex} {limit fuel depth off : ℕ} {s s₀ s' : ArtState} {h : Heap} {root t : Tree} {key path : Bytes}
  {value : UInt32} {mem : Bytes} {shape : Shape} {kids : UInt8 → Tree}

/-- The node where the descent of the key, as `search` makes it, comes to
an entry whose child word is zero. -/
def emptyEntry (mem key : Bytes) : ℕ → ℕ → ℕ → Option ℕ
  | 0, _, _ => none
  | fuel + 1, cur, depth =>
    match ArtPtr.getType cur with
    | none | some .leaf => none
    | some ntype =>
      match searchChild mem ntype (ArtPtr.getOffset cur) (slotByte key depth) with
      | none => none
      | some 0 => some cur
      | some child => emptyEntry mem key fuel child (depth + 1)

theorem emptyEntry_inner (hst : Stored mem (inner off shape kids)) (hwf : (inner off shape kids).WF path)
    (hlaid : (inner off shape kids).Laid mem.length) :
    emptyEntry mem key (fuel + 1) (inner off shape kids).raw depth =
      match (if shape.Has (slotByte key depth) then some (kids (slotByte key depth)).raw else none) with
      | none => none
      | some 0 => some (inner off shape kids).raw
      | some child => emptyEntry mem key fuel child (depth + 1) := by
  have htype : ArtPtr.getType (inner off shape kids).raw = some shape.type := getType_tag hlaid.1 shape.type
  have hoff : ArtPtr.getOffset (inner off shape kids).raw = off := getOffset_tag hlaid.1 shape.type
  have hchild := searchChild_eq (b := slotByte key depth) hst.1 hwf.2.2.1 hlaid.2.2.1
  have hleaf : shape.type ≠ .leaf := type_ne_leaf shape
  rw [emptyEntry, htype, hoff, ← hchild]
  cases hshape : shape.type with
  | leaf => exact absurd hshape hleaf
  | node4 => rfl
  | node16 => rfl
  | node48 => rfl
  | node256 => rfl

/-- The descent goes on below a child. -/
theorem emptyEntry_child (hst : Stored mem (inner off shape kids)) (hwf : (inner off shape kids).WF path)
    (hlaid : (inner off shape kids).Laid mem.length) (hkid : kids (slotByte key depth) ≠ .nil) :
    emptyEntry mem key (fuel + 1) (inner off shape kids).raw depth =
      emptyEntry mem key fuel (kids (slotByte key depth)).raw (depth + 1) := by
  have hraw := raw_ne_zero (hlaid.2.2.2.2.2 (slotByte key depth)) hkid
  obtain ⟨n, hn⟩ : ∃ n, (kids (slotByte key depth)).raw = n + 1 := ⟨(kids (slotByte key depth)).raw - 1, by omega⟩
  rw [emptyEntry_inner hst hwf hlaid, if_pos (has_of_ne_nil hwf hkid), hn]
  rfl

theorem emptyEntry_nil (hst : Stored mem (inner off shape kids)) (hwf : (inner off shape kids).WF path)
    (hlaid : (inner off shape kids).Laid mem.length) (hkid : kids (slotByte key depth) = .nil) :
    emptyEntry mem key (fuel + 1) (inner off shape kids).raw depth =
      if shape.Has (slotByte key depth) then some (inner off shape kids).raw else none := by
  rw [emptyEntry_inner hst hwf hlaid, hkid]
  split_ifs <;> rfl

/-- The descent of the key comes to an entry without a child, in a node of this kind. -/
def Tree.StopsAt (Q : Shape → Prop) (key : Bytes) : Tree → ℕ → Prop
  | nil, _ => False
  | leaf _ _ _, _ => False
  | inner _ shape kids, depth =>
      (shape.Has (slotByte key depth) ∧ kids (slotByte key depth) = .nil ∧ Q shape) ∨
        (kids (slotByte key depth)).StopsAt Q key (depth + 1)

theorem emptyEntry_iff {P : ℕ → Prop} {Q : Shape → Prop} (hpq : ∀ (off : ℕ) (shape : Shape) (kids : UInt8 → Tree),
      Stored mem (inner off shape kids) → shape.Sound → off % 8 = 0 → (P (inner off shape kids).raw ↔ Q shape)) :
    ∀ {t : Tree} {path : Bytes} {fuel : ℕ}, Stored mem t → t.WF path → t.Laid mem.length → t ≠ .nil →
      maxDepth < fuel + path.length →
      ((∃ raw, emptyEntry mem key fuel t.raw path.length = some raw ∧ P raw) ↔ t.StopsAt Q key path.length) := by
  intro t
  induction t with
  | nil => exact fun _ _ _ hne ↦ absurd rfl hne
  | leaf off k v =>
    intro path fuel hst hwf hlaid _ hfuel
    have hnone : emptyEntry mem key fuel (leaf off k v).raw path.length = none := by
      cases fuel with
      | zero => rfl
      | succ fuel =>
        have htype : ArtPtr.getType (leaf off k v).raw = some .leaf := getType_tag hlaid.1 .leaf
        rw [emptyEntry, htype]
    rw [hnone]
    exact ⟨fun ⟨_, heq, _⟩ ↦ (by cases heq), False.elim⟩
  | inner off shape kids ih =>
    intro path fuel hst hwf hlaid _ hfuel
    have hmax : maxDepth = maxKeyLen + 1 := rfl
    have hpath := hwf.1
    obtain ⟨fuel, rfl⟩ : ∃ f, fuel = f + 1 := ⟨fuel - 1, by omega⟩
    set b := slotByte key path.length with hb
    have hnode := hpq off shape kids hst hwf.2.2.1 hlaid.1
    by_cases hkid : kids b = .nil
    · have hbelow : ¬ (kids b).StopsAt Q key (path.length + 1) := by
        rw [hkid]
        exact id
      rw [emptyEntry_nil hst hwf hlaid hkid, Tree.StopsAt, ← hb, or_iff_left hbelow]
      by_cases hhas : shape.Has b
      · rw [if_pos hhas]
        simp only [Option.some.injEq, exists_eq_left', hnode, hhas, hkid, true_and]
      · rw [if_neg hhas]
        simp only [reduceCtorEq, false_and, exists_false, hhas]
    · have hlen : (path ++ [b]).length = path.length + 1 := by simp
      have hchild := ih b (hst.2 b) (hwf.2.2.2.2 b) (hlaid.2.2.2.2.2 b) hkid
        (show maxDepth < fuel + (path ++ [b]).length by omega)
      rw [hlen] at hchild
      rw [emptyEntry_child hst hwf hlaid hkid, hchild, Tree.StopsAt, ← hb]
      exact ⟨.inr, fun h ↦ h.resolve_left fun hstop ↦ hkid hstop.2.1⟩

theorem stuck_iff_stopsAt : ∀ (t : Tree) (depth : ℕ),
    t.Stuck key depth ↔ t.StopsAt (fun shape ↦ shape.type ≠ .node256) key depth
  | .nil, _ => Iff.rfl
  | .leaf _ _ _, _ => Iff.rfl
  | .inner _ shape kids, depth => by
    rw [Tree.Stuck, Tree.StopsAt, stuck_iff_stopsAt _ (depth + 1)]
    tauto

/-- The same from the root. -/
def emptyEntryOf (ix : ArtIndex) (key mem : Bytes) : Option ℕ :=
  if readU32 mem ix.rootPtrOffset = 0 then none
  else emptyEntry mem key (maxDepth + 1) (readU32 mem ix.rootPtrOffset) 0

theorem Indexed.emptyEntryOf_iff {P : ℕ → Prop} {Q : Shape → Prop} (hx : Indexed ix limit s h root)
    (hpq : ∀ (off : ℕ) (shape : Shape) (kids : UInt8 → Tree), Stored s.mem (inner off shape kids) → shape.Sound →
      off % 8 = 0 → (P (inner off shape kids).raw ↔ Q shape)) :
    (∃ raw, emptyEntryOf ix key s.mem = some raw ∧ P raw) ↔ root.StopsAt Q key 0 := by
  rw [emptyEntryOf, hx.word]
  by_cases hnil : root = .nil
  · rw [hnil, if_pos (show Tree.nil.raw = 0 from rfl)]
    exact ⟨fun ⟨_, heq, _⟩ ↦ (by cases heq), False.elim⟩
  · rw [if_neg (raw_ne_zero hx.laid hnil)]
    exact emptyEntry_iff hpq hx.stored hx.wf (hx.arena.length ▸ hx.laid) hnil
      (show maxDepth < maxDepth + 1 + ([] : Bytes).length by simp)

/-- The descent of the key comes to an entry of a `Node4`, `Node16` or
`Node48` whose child word is zero. -/
def deadEnd (ix : ArtIndex) (key mem : Bytes) : Prop :=
  ∃ raw, emptyEntryOf ix key mem = some raw ∧ ArtPtr.getType raw ≠ some .node256

instance (ix : ArtIndex) (key mem : Bytes) : Decidable (deadEnd ix key mem) :=
  match h : emptyEntryOf ix key mem with
  | none => isFalse fun ⟨_, heq, _⟩ ↦ nomatch h.symm.trans heq
  | some raw => decidable_of_iff (ArtPtr.getType raw ≠ some .node256)
      ⟨fun hne ↦ ⟨raw, h, hne⟩, fun ⟨_, heq, hne⟩ ↦ Option.some.inj (h.symm.trans heq) ▸ hne⟩

theorem Indexed.deadEnd_iff (hx : Indexed ix limit s h root) : deadEnd ix key s.mem ↔ root.Stuck key 0 := by
  rw [stuck_iff_stopsAt]
  refine hx.emptyEntryOf_iff fun off shape kids _ _ hal ↦ ?_
  have htype : ArtPtr.getType (inner off shape kids).raw = some shape.type := getType_tag hal shape.type
  rw [htype, ne_eq, Option.some.injEq]

/-- The leaf of the key finds room, in an orphaned node or at the bump word. -/
def LeafFits (ix : ArtIndex) (key : Bytes) (s : ArtState) : Prop :=
  (s.free.reuse (alignSize (leafHeader + key.length))).isSome ∨
    readU32 s.mem ix.bumpAllocOffset + alignSize (leafHeader + key.length) ≤ s.mem.length

instance (ix : ArtIndex) (key : Bytes) (s : ArtState) : Decidable (LeafFits ix key s) :=
  inferInstanceAs (Decidable (_ ∨ _))

theorem Arena.leafFits_iff (ha : Arena ix limit s h) :
    LeafFits ix key s ↔ h.alloc limit (leafHeader + key.length) ≠ none := by
  rw [LeafFits, ha.free, ha.bump, ha.length, alloc]
  cases h.free.reuse (alignSize (leafHeader + key.length)) with
  | some granted => simp
  | none =>
    rw [bumpAlloc]
    split_ifs with hfull
    · simp [hfull]
    · simp [not_lt.mp hfull]

/-- The call ends, with success or with an error of the code. -/
def Ends (x : ℕ → ArtM Unit) (s : ArtState) : Prop :=
  ∃ s', Returns x s (.ok () s') ∨ ∃ e, Returns x s (.error (.error e) s')

theorem Ends.not_hangs {x : ℕ → ArtM Unit} (he : Ends x s) : ¬ Hangs x s := by
  obtain ⟨s', hok | ⟨e, hfail⟩⟩ := he
  · exact fun hh ↦ hh.not_returns hok fun _ heq ↦ by cases heq
  · exact fun hh ↦ hh.not_returns hfail fun _ heq ↦ by cases heq

/-- An insert of a valid key ends unless its leaf is made and the descent then comes to a dead end. -/
theorem Indexed.ends_iff (hx : Indexed ix limit s h root) (value : UInt32) (hk : ValidKey key) :
    Ends (Art.insert ix key value) s ↔
      ¬ (value.toNat < s.mem.length ∧ LeafFits ix key s ∧ deadEnd ix key s.mem) := by
  rw [hx.arena.leafFits_iff, hx.deadEnd_iff, hx.arena.length]
  cases hx.insert key value with
  | refused hbad hrun =>
    have hlarge : ¬ value.toNat < limit := fun hlt ↦ hbad ⟨hk, hlt⟩
    exact iff_of_true ⟨s, .inr ⟨_, 0, fun fuel _ ↦ hrun fuel⟩⟩ fun hall ↦ hlarge hall.1
  | @failed s' h' root' hgood hfree hrun =>
    refine iff_of_true ⟨s', .inr ⟨_, _, hrun⟩⟩ fun ⟨_, hfits, hstuck⟩ ↦ ?_
    exact hfree.elim (fun hnot ↦ hnot hstuck) hfits
  | @inserted s' h₁ h₂ h' root₁ root' newOff hgood hfree hroot hleaf hins hrun =>
    exact iff_of_true ⟨s', .inl ⟨_, hrun⟩⟩ fun hall ↦ hfree hall.2.2
  | stuck hgood hstuck hleaf hrun =>
    exact iff_of_false (fun he ↦ he.not_hangs hrun)
      (not_not.mpr ⟨hgood.2, hleaf, hstuck⟩)

/-- In every state that calls reach, an insert of a valid key ends if and
only if it does not make a leaf and come to a dead end with it. -/
theorem insert_ends_iff (hf : Fresh ix limit s₀) (hrun : Run (IndexCall ix) (fun _ _ ↦ True) s₀ s)
    (value : UInt32) (hk : ValidKey key) :
    Ends (insert ix key value) s ↔
      ¬ (value.toNat < s.mem.length ∧ LeafFits ix key s ∧ deadEnd ix key s.mem) := by
  obtain ⟨h, root, hx⟩ := hf.indexed.run hrun
  exact hx.ends_iff value hk

/-- A call with the fuel that is enough for every call that returns. -/
def runOp (ix : ArtIndex) : ArtState → Op → Option ArtState
  | s, .insert key value =>
    match insert ix key value (maxDepth + 3) s with
    | .ok _ s' | .error (.error _) s' => some s'
    | .error _ _ => none
  | s, .remove key =>
    match remove ix key s with
    | .ok _ s' | .error (.error _) s' => some s'
    | .error _ _ => none

theorem Indexed.runOp {op : Op} (hx : Indexed ix limit s h root) (hop : Art.runOp ix s op = some s') :
    IndexCall ix s op s' := by
  cases op with
  | remove key =>
    rw [Art.runOp] at hop
    split at hop
    · rename_i hrun
      exact Option.some.inj hop ▸ .removed hrun
    · rename_i hrun
      exact Option.some.inj hop ▸ .removeFailed hrun
    · cases hop
  | insert key value =>
    rw [Art.runOp] at hop
    cases hx.insert key value with
    | refused hbad hrun =>
      rw [hrun] at hop
      exact Option.some.inj hop ▸ .insertFailed ⟨0, fun fuel _ ↦ hrun fuel⟩
    | failed hgood hfree hrun =>
      rw [hrun _ le_rfl] at hop
      exact Option.some.inj hop ▸ .insertFailed ⟨_, hrun⟩
    | inserted hgood hfree hroot hleaf hins hrun =>
      rw [hrun _ le_rfl] at hop
      exact Option.some.inj hop ▸ .inserted ⟨_, hrun⟩
    | stuck hgood hstuck hleaf hrun =>
      obtain ⟨s₁, hs₁⟩ := hrun (maxDepth + 3)
      rw [hs₁] at hop
      cases hop

/-- A list of calls is a run. -/
theorem Indexed.runOps {ops : List Op} (hx : Indexed ix limit s h root) (hops : ops.foldlM (Art.runOp ix) s = some s') :
    Run (IndexCall ix) (fun _ _ ↦ True) s s' := by
  induction ops generalizing s h root with
  | nil =>
    cases hops
    exact .refl _
  | cons op ops ih =>
    rw [List.foldlM_cons] at hops
    obtain ⟨s₁, hop, hops⟩ := Option.bind_eq_some_iff.mp hops
    have hcall := hx.runOp hop
    obtain ⟨h₁, root₁, hmoves, -⟩ := hx.call hcall
    exact ((Run.refl s).tail trivial hcall).trans (ih hmoves.indexed hops)

/-- A zeroed arena after `init`. -/
def zeroedArena (reuseEnabled : Bool) (size : ℕ) : ArtState := ⟨init 4 8 (zeros size), ⟨reuseEnabled, fun _ ↦ []⟩⟩

theorem zeroedArena_fresh {reuseEnabled : Bool} {size : ℕ} (hlo : 8 ≤ size) (hhi : size < 2 ^ 32) :
    Fresh smallIndex size (zeroedArena reuseEnabled size) := by
  have hp : smallIndex.Placed (zeros size).length := by
    rw [length_zeros]
    exact ⟨hhi, by simp only [smallIndex]; omega, rfl, hlo, rfl, .inl le_rfl⟩
  have hlt : 8 < 2 ^ 32 := by decide
  have hf : Fresh smallIndex (zeros size).length (zeroedArena reuseEnabled size) := fresh_init hp
    (readU32_zeros (by simp only [smallIndex]; omega))
    (readU32_zeros (by simp only [smallIndex]; omega)) rfl hlt (by decide) (by decide) fun _ ↦ rfl
  rwa [length_zeros] at hf

theorem zeroedArena_bump {reuseEnabled : Bool} {size : ℕ} (hlo : 8 ≤ size) :
    readU32 (zeroedArena reuseEnabled size).mem smallIndex.bumpAllocOffset = 8 := by
  have hzero : readU32 (zeros size) 4 = 0 := readU32_zeros (by omega)
  have hfit : 4 + 4 ≤ (zeros size).length := by rwa [length_zeros]
  show readU32 (init 4 8 (zeros size)) 4 = 8
  rw [init, if_pos hzero]
  exact readU32_writeU32_self hfit (by decide)

/-- Two keys under one byte of the root, and the first one removed again: the node that parted them stays. -/
def partingOps : List Op := [.insert [97, 98] 8, .insert [97, 99] 8, .remove [97, 98]]

/-- The insert of the removed key makes a leaf and comes to an end. -/
theorem insert_ends_afterRemoval : ∃ s, Run (IndexCall smallIndex) (fun _ _ ↦ True) (zeroedArena false 256) s ∧
    LeafFits smallIndex [97, 98] s ∧ Ends (insert smallIndex [97, 98] 8) s := by
  have hfresh : Fresh smallIndex 256 (zeroedArena false 256) := zeroedArena_fresh (by decide) (by decide)
  have hclear : (partingOps.foldlM (runOp smallIndex) (zeroedArena false 256)).any (fun s ↦
      decide (LeafFits smallIndex [97, 98] s ∧ ¬ deadEnd smallIndex [97, 98] s.mem)) = true := by decide +kernel
  obtain ⟨s, hs, hclear⟩ := (Option.any_eq_true _ _).mp hclear
  obtain ⟨hfits, hlive⟩ := of_decide_eq_true hclear
  have hrun := hfresh.indexed.runOps hs
  exact ⟨s, hrun, hfits, (insert_ends_iff hfresh hrun 8 (by decide)).mpr fun hall ↦ hlive hall.2.2⟩

/-- Two keys under one byte of the root, and both removed again: the node that parted them is unlinked. -/
def unlinkingOps : List Op := [.insert [97, 98] 8, .insert [97, 99] 8, .remove [97, 98], .remove [97, 99]]

/-- The insert of a removed key goes round for ever. -/
theorem insert_hangs_after_unlinking : ∃ s, Fresh smallIndex 256 (zeroedArena false 256) ∧
    Run (IndexCall smallIndex) (fun _ _ ↦ True) (zeroedArena false 256) s ∧ ValidKey [97, 98] ∧
      ¬ Ends (insert smallIndex [97, 98] 8) s := by
  have hfresh : Fresh smallIndex 256 (zeroedArena false 256) := zeroedArena_fresh (by decide) (by decide)
  have hdead : (unlinkingOps.foldlM (runOp smallIndex) (zeroedArena false 256)).any (fun s ↦
      decide ((8 : UInt32).toNat < s.mem.length ∧ LeafFits smallIndex [97, 98] s ∧
        deadEnd smallIndex [97, 98] s.mem)) = true := by
    decide +kernel
  obtain ⟨s, hs, hdead⟩ := (Option.any_eq_true _ _).mp hdead
  have hrun := hfresh.indexed.runOps hs
  obtain ⟨h, root, hx⟩ := hfresh.indexed.run hrun
  exact ⟨s, hfresh, hrun, by decide, fun hends ↦ (hx.ends_iff 8 (by decide)).mp hends (of_decide_eq_true hdead)⟩

end TakyonDb.Art
