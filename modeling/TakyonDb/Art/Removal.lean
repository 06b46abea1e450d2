import TakyonDb.Art.Demand
import TakyonDb.Art.Endings

namespace TakyonDb.Art

open Lib Set Heap Art.Tree

variable {ix : ArtIndex} {limit fuel depth : ℕ} {s s₀ s' : ArtState} {h h' : Heap} {root root' t : Tree}
  {key k : Bytes} {op : Op}

/-- The new entry of the key goes into a `Node256` whose count stands at its greatest value. -/
def wrapsCount (ix : ArtIndex) (key mem : Bytes) : Prop :=
  ∃ raw, emptyEntryOf ix key mem = some raw ∧ ArtPtr.getType raw = some .node256 ∧
    readU16 mem (ArtPtr.getOffset raw) = 65535

/-- No insert wraps the count of a `Node256`. -/
def KeepsCounts (ix : ArtIndex) (s : ArtState) : Op → Prop
  | .insert key _ => ¬ wrapsCount ix key s.mem
  | .remove _ => True

theorem Indexed.wrapsCount_iff (hx : Indexed ix limit s h root) :
    wrapsCount ix key s.mem ↔ root.StopsAt (fun shape ↦ shape = .direct 65535) key 0 := by
  refine hx.emptyEntryOf_iff fun off shape kids hst _ hal ↦ ?_
  have htype : ArtPtr.getType (inner off shape kids).raw = some shape.type := getType_tag hal shape.type
  have hoff : ArtPtr.getOffset (inner off shape kids).raw = off := getOffset_tag hal shape.type
  rw [htype, hoff]
  cases shape with
  | slots kind keys => cases kind <;> simp [Shape.type, SlotKind.type]
  | direct count =>
    rw [hst.1.1]
    simp [Shape.type]

theorem takes_countable : ∀ {t : Tree} {depth : ℕ}, ¬ t.StopsAt (fun shape ↦ shape = .direct 65535) key depth →
    t.Takes Countable key depth
  | .nil, _, _ => trivial
  | .leaf _ _ _, _, _ => trivial
  | .inner _ shape kids, depth, hnot => by
    refine ⟨fun hvacant hshape ↦ ?_, takes_countable fun hstop ↦ hnot (.inr hstop)⟩
    subst hshape
    exact hnot (.inl ⟨trivial, hvacant, rfl⟩)

/-- The counts of a tree cover its children, over every call that wraps none. -/
theorem TreeCall.counted (hc : TreeCall limit h root op h' root') (hx : Indexed ix limit s h root)
    (hkeeps : KeepsCounts ix s op) (hall : root.Everywhere Counted) : root'.Everywhere Counted := by
  have hrooted : ∀ {h₁ root₁}, Rooted limit h root h₁ root₁ → root₁.Everywhere Counted := by
    intro h₁ root₁ hr
    cases hr with
    | kept => exact hall
    | made => exact ⟨trivial, fun _ ↦ trivial⟩
  cases hc with
  | same => exact hall
  | failed hgood hroot =>
    rcases hroot with rfl | ⟨h₁, hr⟩
    · exact hall
    · exact hrooted hr
  | @inserted _ h₁ h₂ _ root₁ _ newOff key value hk hroot hleaf hins =>
    have hkeeps' : ¬ wrapsCount ix key s.mem := hkeeps
    rw [hx.wrapsCount_iff] at hkeeps'
    have htakes : root₁.Takes Countable key 0 ∧ root₁.WF [] := by
      cases hroot with
      | kept => exact ⟨takes_countable hkeeps', hx.wf⟩
      | made => exact ⟨⟨fun _ heq ↦ (by cases heq), trivial⟩, wf_emptyRoot _⟩
    exact (hins.everywhere counted_kept (everywhere_leaf newOff key value) (fun heq ↦ by cases heq) [] rfl htakes.2
      htakes.1 (hrooted hroot)).1
  | removed hgood hrem => exact hrem.counted hall

/-- Every state of a run that wraps no count holds an index whose counts cover its children. -/
theorem Fresh.counted (hf : Fresh ix limit s₀) (hrun : Run (IndexCall ix) (KeepsCounts ix) s₀ s) :
    ∃ h root, Indexed ix limit s h root ∧ root.Everywhere Counted := by
  refine hrun.invariant (fun s ↦ ∃ h root, Indexed ix limit s h root ∧ root.Everywhere Counted) ?_
    ⟨_, _, hf.indexed, trivial⟩
  rintro s op t ⟨h, root, hx, hall⟩ hkeeps hc
  obtain ⟨h', root', hmoves, htree⟩ := hx.call hc
  exact ⟨h', root', hmoves.indexed, htree.counted hx hkeeps hall⟩

/-- `remove` answers whether the key was there, and afterwards the key is gone and every other key is as it was. -/
def RemovesExactly (ix : ArtIndex) (key : Bytes) (s : ArtState) : Prop :=
  ∃ found s', remove ix key s = .ok found s' ∧ ∀ fuel, maxDepth < fuel →
    (found = true ↔ ∃ v, search ix key fuel s.mem = .ok (some v)) ∧ search ix key fuel s'.mem = .ok none ∧
      ∀ k, k ≠ key → search ix k fuel s'.mem = search ix k fuel s.mem

/-- In a run that wraps no count, removal is exact. -/
theorem removesExactly_of_keepsCounts (hf : Fresh ix limit s₀)
    (hrun : Run (IndexCall ix) (KeepsCounts ix) s₀ s) (hk : ValidKey key) : RemovesExactly ix key s := by
  obtain ⟨h, root, hx, hall⟩ := hf.counted hrun
  cases hx.remove key with
  | refused hbad => exact absurd hk hbad
  | absent hgood hnone hrun =>
    refine ⟨false, s, hrun, fun fuel hfuel ↦ ?_⟩
    have hsearch : search ix key fuel s.mem = .ok none := by rw [hx.search key hfuel, hnone]
    refine ⟨iff_of_false Bool.false_ne_true fun ⟨v, hv⟩ ↦ ?_, hsearch, fun _ _ ↦ rfl⟩
    rw [hsearch] at hv
    cases hv
  | @removed s' h' root' up hgood hrem hrun hmoves =>
    have hlookup := hrem.lookup [] rfl hx.wf hall
    obtain ⟨v, hv⟩ := hrem.found
    refine ⟨true, s', hrun, fun fuel hfuel ↦ ⟨iff_of_true rfl ⟨v, ?_⟩, ?_, fun k hne ↦ ?_⟩⟩
    · rw [hx.search key hfuel, hv]
    · rw [hmoves.indexed.search key hfuel, hlookup, if_pos rfl]
    · rw [hmoves.indexed.search k hfuel, hx.search k hfuel, hlookup, if_neg hne]

/-- The small arena after the insert of one key. -/
theorem removesExactly_smallArena : ∃ s, Returns (insert smallIndex [97] 5) smallArena (.ok () s) ∧
    RemovesExactly smallIndex [97] s := by
  obtain ⟨s, hrun⟩ := smallArena_insert
  have hkeeps : KeepsCounts smallIndex smallArena (.insert [97] 5) := by
    rintro ⟨raw, hraw, -⟩
    exact absurd (hraw.symm.trans (show emptyEntryOf smallIndex [97] smallArena.mem = none by decide)) (by simp)
  exact ⟨s, hrun, removesExactly_of_keepsCounts smallArena_fresh ((Run.refl _).tail hkeeps (.inserted hrun)) (by decide)⟩

section Wrapping

variable {x b : UInt8} {n n' : ℕ} {P P' : Tree → Prop} {value : UInt32}

/-- The root has one entry, and the tree below it meets the condition. -/
def Over (ix : ArtIndex) (limit : ℕ) (x : UInt8) (P : Tree → Prop) (n : ℕ) (s : ArtState) : Prop :=
  ∃ h off kids, Indexed ix limit s h (inner off (.slots .node4 [x]) kids) ∧ h.bump ≤ n ∧ P (kids x)

/-- More than the insert of a key of three bytes takes. -/
abbrev shortRoom : ℕ := 2048

theorem Over.insert (ho : Over ix limit x P n s) (hk : ValidKey key) (hlen : key.length ≤ 3)
    (hbyte : slotByte key 0 = x) (hvalue : value.toNat < limit) (hroom : n + shortRoom ≤ limit)
    (hfree : ∀ t, P t → t ≠ .nil ∧ ¬ t.Stuck key 1)
    (hstep : ∀ {t t' h h' newOff}, P t → t.WF [x] → Inserts limit key value (leaf newOff key value) 1 h t t' h' →
      P' t') :
    ∃ s', IndexCall ix s (.insert key value) s' ∧ Over ix limit x P' (n + shortRoom) s' := by
  obtain ⟨h, off, kids, hx, hbump, hp⟩ := ho
  obtain ⟨hne, hstuck⟩ := hfree _ hp
  have hdemand := demand_le key (inner off (.slots .node4 [x]) kids) 0
  have hcall : (inner off (.slots .node4 [x]) kids).callDemand key ≤ shortRoom := by
    have hheader : leafHeader = 8 := rfl
    have hshort : shortRoom = 2048 := rfl
    simp only [callDemand, alignSize]
    simp only [node256Size] at hdemand
    omega
  have hnot : ¬ (inner off (.slots .node4 [x]) kids).Stuck key 0 := by
    rintro (⟨-, -, hnil⟩ | hbelow)
    · exact hne (hbyte ▸ hnil)
    · exact hstuck (hbyte ▸ hbelow)
  cases hx.insert key value with
  | refused hbad => exact absurd ⟨hk, hvalue⟩ hbad
  | failed hgood hfree hrun hmoves hroot hfull => omega
  | stuck hgood hstuck => exact absurd hstuck hnot
  | @inserted s' h₁ h₂ h' root₁ root' newOff hgood hfree hroot hleaf hins hrun hmoves =>
    have htaken := hroot.bump_le hleaf
    have hbump' := hins.bump_le
    refine ⟨s', .inserted ⟨_, hrun⟩, ?_⟩
    cases hroot with
    | kept =>
      cases hins with
      | descend hhas hins =>
        rw [hbyte] at hins hmoves
        refine ⟨h', off, _, hmoves.indexed, by omega, ?_⟩
        rw [Function.update_self]
        exact hstep hp (hx.wf.2.2.2.2 x) hins
      | claim hvacant => exact absurd (hbyte ▸ List.mem_singleton_self x) hvacant
      | grow hvacant => exact absurd (hbyte ▸ List.mem_singleton_self x) hvacant

theorem Over.remove (ho : Over ix limit x P n s) (hk : ValidKey key) (hbyte : slotByte key 0 = x)
    (hfound : ∀ t, P t → t.IsInner ∧ t.lookup key 1 ≠ none)
    (hstep : ∀ {t t' h h' up}, P t → Removes limit key false 1 h t t' h' up → P' t' ∧ up = false ∧ h'.bump = h.bump) :
    ∃ s', IndexCall ix s (.remove key) s' ∧ Over ix limit x P' n s' := by
  obtain ⟨h, off, kids, hx, hbump, hp⟩ := ho
  obtain ⟨hinner, hlookup⟩ := hfound _ hp
  cases hx.remove key with
  | refused hbad => exact absurd hk hbad
  | absent hgood hnone =>
    rw [lookup, hbyte] at hnone
    exact absurd hnone hlookup
  | @removed s' h' root' up hgood hrem hrun hmoves =>
    refine ⟨s', .removed hrun, ?_⟩
    cases hrem with
    | leaf hkid =>
      rw [← hbyte, hkid] at hinner
      exact hinner.elim
    | onward hrem =>
      rw [hbyte] at hrem
      obtain ⟨-, hup, -⟩ := hstep hp hrem
      cases hup
    | stopped hrem =>
      rw [hbyte] at hrem hmoves
      obtain ⟨hp', -, hsame⟩ := hstep hp hrem
      refine ⟨h', off, _, hmoves.indexed, by omega, ?_⟩
      rwa [Function.update_self]

/-- A node under the byte 1 with `n` entries, the leaf of the key `[1, 1]`
under the byte 1 and nothing under the bytes past `n`. -/
def Fan (n : ℕ) (t : Tree) : Prop :=
  ∃ off shape kids, t = .inner off shape kids ∧ shape.count = n ∧ (∃ o, kids 1 = leaf o [1, 1] 8) ∧
    ∀ c : UInt8, n < c.toNat → kids c = .nil

theorem count_add {shape : Shape} (b : UInt8) (hlt : shape.count < 65535) : (shape.add b).count = shape.count + 1 := by
  cases shape with
  | slots kind keys => simp [Shape.add, Shape.count]
  | direct count =>
    have hlt' : count < 65535 := hlt
    simp only [Shape.add, Shape.count]
    omega

theorem count_grow (shape : Shape) : shape.grow.count = shape.count := by
  cases shape with
  | slots kind keys => cases kind <;> rfl
  | direct count => rfl

/-- A new entry of a node that has none for the byte. -/
theorem Fan.insert {t' : Tree} {newOff : ℕ} (hfan : Fan n t) (hn : 1 ≤ n) (hlt : n < 255)
    (hi : Inserts limit [1, UInt8.ofNat (n + 1)] 8 (leaf newOff [1, UInt8.ofNat (n + 1)] 8) 1 h t t' h') :
      Fan (n + 1) t' := by
  obtain ⟨off, shape, kids, rfl, hcount, hfirst, hrest⟩ := hfan
  have hbyte : slotByte [1, UInt8.ofNat (n + 1)] 1 = UInt8.ofNat (n + 1) := rfl
  set b := UInt8.ofNat (n + 1) with hb
  have hnat : b.toNat = n + 1 := by
    rw [hb, UInt8.toNat_ofNat']
    omega
  have hnil : kids b = .nil := hrest b (by omega)
  have hne : (1 : UInt8) ≠ b := fun heq ↦ by
    have hone : (1 : UInt8).toNat = b.toNat := congrArg UInt8.toNat heq
    rw [hnat] at hone
    simp at hone
    omega
  have hkids : ∀ {off' shape' new}, shape'.count = n + 1 →
      Fan (n + 1) (inner off' shape' (Function.update kids b new)) := by
    refine fun {off' shape' new} hcount' ↦ ⟨off', shape', _, rfl, hcount', ?_, fun c hc ↦ ?_⟩
    · rwa [Function.update_of_ne hne]
    · rw [Function.update_of_ne, hrest c (by omega)]
      rintro rfl
      omega
  cases hi with
  | descend hhas hins =>
    rw [hbyte, hnil] at hins
    cases hins
  | claim => exact hkids (by rw [count_add _ (by omega), hcount])
  | grow => exact hkids (by rw [count_add _ (by rw [count_grow]; omega), count_grow, hcount])

theorem Fan.ne_nil (hfan : Fan n t) : t ≠ .nil := by
  obtain ⟨off, shape, kids, rfl, -⟩ := hfan
  simp

/-- The leaf of the key `[1, 1]` in a `Node256` with the given count, and what hangs on its byte 255. -/
def Wide (count : ℕ) (Q : Tree → Prop) (t : Tree) : Prop :=
  ∃ off kids, t = .inner off (.direct count) kids ∧ (∃ o, kids 1 = leaf o [1, 1] 8) ∧ Q (kids 255)

theorem Fan.wide (hfan : Fan 49 t) (hwf : t.WF path) : Wide 49 (fun t ↦ t = .nil) t := by
  obtain ⟨off, shape, kids, rfl, hcount, hfirst, hrest⟩ := hfan
  cases shape with
  | direct count =>
    have hcount : count = 49 := hcount
    exact ⟨off, kids, by rw [hcount], hfirst, hrest 255 (by decide)⟩
  | slots kind keys =>
    have hroom : keys.length ≤ kind.capacity := hwf.2.2.1.2
    have hcount : keys.length = 49 := hcount
    cases kind <;> simp [SlotKind.capacity] at hroom <;> omega

theorem Wide.isInner {Q : Tree → Prop} (hw : Wide n Q t) : t ≠ .nil ∧ t.IsInner := by
  obtain ⟨off, kids, rfl, -⟩ := hw
  exact ⟨by simp, trivial⟩

/-- A new leaf under the byte 255. -/
theorem Wide.insert {t' : Tree} {tail : Bytes} (hw : Wide n (fun t ↦ t = .nil) t)
    (hi : Inserts limit (1 :: 255 :: tail) 8 new 1 h t t' h') :
    Wide ((n + 1) % 2 ^ 16) (fun t ↦ t = new) t' := by
  obtain ⟨off, kids, rfl, ⟨o, hfirst⟩, hnil⟩ := hw
  have hbyte : slotByte (1 :: 255 :: tail) 1 = 255 := rfl
  cases hi with
  | descend hhas hins =>
    rw [hbyte, hnil] at hins
    cases hins
  | claim =>
    refine ⟨off, _, rfl, ⟨o, ?_⟩, ?_⟩
    · rwa [hbyte, Function.update_of_ne (by decide)]
    · rw [hbyte, Function.update_self]

/-- An insert below the byte 255. -/
theorem Wide.insert_below {Q Q' : Tree → Prop} {t' : Tree} {tail : Bytes} (hw : Wide n Q t) (hne : ∀ t, Q t → t ≠ .nil)
    (hi : Inserts limit (1 :: 255 :: tail) 8 new 1 h t t' h')
    (hstep : ∀ {t t'}, Q t → Inserts limit (1 :: 255 :: tail) 8 new 2 h t t' h' → Q' t') : Wide n Q' t' := by
  obtain ⟨off, kids, rfl, ⟨o, hfirst⟩, hq⟩ := hw
  have hbyte : slotByte (1 :: 255 :: tail) 1 = 255 := rfl
  cases hi with
  | claim hvacant => exact absurd hvacant (hne _ hq)
  | descend hhas hins =>
    rw [hbyte] at hins
    refine ⟨off, _, rfl, ⟨o, ?_⟩, ?_⟩
    · rwa [hbyte, Function.update_of_ne (by decide)]
    · rw [hbyte, Function.update_self]
      exact hstep hq hins

/-- The tree of the two keys that part at their last byte. -/
def Fork (t : Tree) : Prop :=
  ∃ off kids, t = .inner off (.slots .node4 [1, 2]) kids ∧ (∃ o, kids 1 = leaf o [1, 255, 1] 8) ∧
    ∃ o, kids 2 = leaf o [1, 255, 2] 8

theorem fork_insert {t' : Tree} {o newOff : ℕ}
    (hi : Inserts limit [1, 255, 2] 8 (leaf newOff [1, 255, 2] 8) 2 h (leaf o [1, 255, 1] 8) t' h') : Fork t' := by
  have hpoint : splitPoint [1, 255, 1] [1, 255, 2] 2 = 2 := by
    rw [splitPoint, dif_neg (by decide)]
  cases hi with
  | split hne hs =>
    rw [split, hpoint] at hs
    cases halloc : h.alloc limit SlotKind.node4.size with
    | none =>
      rw [halloc] at hs
      cases hs
    | some granted =>
      rw [halloc] at hs
      obtain ⟨rfl, -⟩ := Prod.mk.inj (Option.some.inj hs)
      exact ⟨granted.1, _, rfl, ⟨o, rfl⟩, ⟨newOff, rfl⟩⟩

/-- What the first removal leaves of it. -/
def Rest (t : Tree) : Prop :=
  ∃ off kids, t = .inner off (.slots .node4 [2]) kids ∧ ∃ o, kids 2 = leaf o [1, 255, 2] 8

theorem fork_remove {t' : Tree} {up : Bool} (hf : Fork t) (hr : Removes limit [1, 255, 1] false 2 h t t' h' up) :
    Rest t' ∧ h'.bump = h.bump := by
  obtain ⟨off, kids, rfl, ⟨o, hone⟩, ⟨o', htwo⟩⟩ := hf
  have hbyte : slotByte [1, 255, 1] 2 = 1 := rfl
  cases hr with
  | leaf hkid hcol =>
    rw [hbyte] at hcol
    have hcount : ((Shape.slots .node4 [1, 2]).drop 1).count = 1 := rfl
    cases hcol with
    | kept => exact ⟨⟨off, _, rfl, o', by rwa [Function.update_of_ne (by decide)]⟩, rfl⟩
    | leaked _ hbound => exact absurd (hcount ▸ hbound) (by decide)
    | unlinked _ hzero => exact absurd (hcount ▸ hzero) (by decide)
    | shrunk _ hbound => exact absurd (hcount ▸ hbound) (by decide)
  | onward hrem =>
    rw [hbyte, hone] at hrem
    cases hrem
  | stopped hrem =>
    rw [hbyte, hone] at hrem
    cases hrem

theorem rest_remove {t' : Tree} {up : Bool} (hrest : Rest t) (hr : Removes limit [1, 255, 2] false 2 h t t' h' up) :
    t' = .nil ∧ h'.bump = h.bump := by
  obtain ⟨off, kids, rfl, ⟨o, htwo⟩⟩ := hrest
  have hbyte : slotByte [1, 255, 2] 2 = 2 := rfl
  cases hr with
  | leaf hkid hcol =>
    rw [hbyte] at hcol
    have hcount : ((Shape.slots .node4 [2]).drop 2).count = 0 := rfl
    cases hcol with
    | kept hroot => cases hroot hcount
    | leaked hne => exact absurd hcount hne
    | unlinked => exact ⟨rfl, rfl⟩
    | shrunk hne => exact absurd hcount hne
  | onward hrem =>
    rw [hbyte, htwo] at hrem
    cases hrem
  | stopped hrem =>
    rw [hbyte, htwo] at hrem
    cases hrem

/-- A removal below the byte 255 leaves the count as it is, also when it unlinks the child. -/
theorem Wide.remove_below {Q Q' : Tree → Prop} {t' : Tree} {tail : Bytes} {up : Bool} (hw : Wide n Q t) (hn : 32 < n)
    (hinner : ∀ t, Q t → t.IsInner) (hr : Removes limit (1 :: 255 :: tail) false 1 h t t' h' up)
    (hstep : ∀ {t t' h' up}, Q t → Removes limit (1 :: 255 :: tail) false 2 h t t' h' up → Q' t' ∧ h'.bump = h.bump) :
    Wide n Q' t' ∧ up = false ∧ h'.bump = h.bump := by
  obtain ⟨off, kids, rfl, ⟨o, hfirst⟩, hq⟩ := hw
  have hbyte : slotByte (1 :: 255 :: tail) 1 = 255 := rfl
  have hwide : ∀ {t₁}, Q' t₁ → Wide n Q' (inner off (.direct n) (Function.update kids 255 t₁)) := fun {t₁} hq' ↦
    ⟨off, _, rfl, ⟨o, by rwa [Function.update_of_ne (by decide)]⟩, by rwa [Function.update_self]⟩
  cases hr with
  | leaf hkid =>
    have hin := hinner _ hq
    rw [← hbyte, hkid] at hin
    exact hin.elim
  | onward hrem hcol =>
    rw [hbyte] at hrem hcol
    obtain ⟨hq', hbump⟩ := hstep hq hrem
    have hcount : (Shape.direct n).count = n := rfl
    have hbound : shrinkBound (Shape.direct n).type = 32 := rfl
    cases hcol with
    | kept => exact ⟨hwide hq', rfl, hbump⟩
    | leaked _ hle => omega
    | unlinked _ hzero => omega
    | shrunk _ hle => omega
  | stopped hrem =>
    rw [hbyte] at hrem ⊢
    obtain ⟨hq', hbump⟩ := hstep hq hrem
    exact ⟨hwide hq', rfl, hbump⟩

/-- A node whose count says zero is unlinked with everything it holds. -/
theorem Wide.lost {t' : Tree} {up : Bool} (hw : Wide 0 (fun t ↦ ∃ o, t = leaf o [1, 255, 1] 8) t)
    (hr : Removes limit [1, 255, 1] false 1 h t t' h' up) : t' = .nil ∧ up = true := by
  obtain ⟨off, kids, rfl, -, ⟨o, hkid⟩⟩ := hw
  have hbyte : slotByte [1, 255, 1] 1 = 255 := rfl
  have hcount : ((Shape.direct 0).drop 255).count = 0 := rfl
  cases hr with
  | leaf _ hcol =>
    rw [hbyte] at hcol
    cases hcol with
    | kept hroot => cases hroot hcount
    | leaked hne => exact absurd hcount hne
    | unlinked => exact ⟨rfl, rfl⟩
    | shrunk hne => exact absurd hcount hne
  | onward hrem =>
    rw [hbyte, hkid] at hrem
    cases hrem
  | stopped hrem =>
    rw [hbyte, hkid] at hrem
    cases hrem

/-- An arena of half a gibibyte. -/
abbrev wideSize : ℕ := 2 ^ 29

/-- Calls on a zeroed arena lead to a tree that meets the condition, with this bound on the bump word. -/
def Reach (P : Tree → Prop) (n : ℕ) : Prop :=
  ∃ s, Run (IndexCall smallIndex) (fun _ _ ↦ True) (zeroedArena false wideSize) s ∧ Over smallIndex wideSize 1 P n s

theorem wide_fresh : Fresh smallIndex wideSize (zeroedArena false wideSize) := zeroedArena_fresh (by decide) (by decide)

theorem Reach.insert (hr : Reach P n) (key : Bytes) (hk : ValidKey key) (hlen : key.length ≤ 3)
    (hbyte : slotByte key 0 = 1) (hroom : n + shortRoom ≤ wideSize) (hfree : ∀ t, P t → t ≠ .nil ∧ ¬ t.Stuck key 1)
    (hstep : ∀ {t t' h h' newOff}, P t → t.WF [1] → Inserts wideSize key 8 (leaf newOff key 8) 1 h t t' h' → P' t') :
    Reach P' (n + shortRoom) := by
  obtain ⟨s, hrun, ho⟩ := hr
  obtain ⟨s', hcall, ho'⟩ := ho.insert hk hlen hbyte (by decide) hroom hfree hstep
  exact ⟨s', hrun.tail trivial hcall, ho'⟩

theorem Reach.remove (hr : Reach P n) (key : Bytes) (hk : ValidKey key) (hbyte : slotByte key 0 = 1)
    (hfound : ∀ t, P t → t.IsInner ∧ t.lookup key 1 ≠ none)
    (hstep : ∀ {t t' h h' up}, P t → Removes wideSize key false 1 h t t' h' up → P' t' ∧ up = false ∧
      h'.bump = h.bump) :
    Reach P' n := by
  obtain ⟨s, hrun, ho⟩ := hr
  obtain ⟨s', hcall, ho'⟩ := ho.remove hk hbyte hfound hstep
  exact ⟨s', hrun.tail trivial hcall, ho'⟩

/-- The first insert makes the root and a leaf under the byte 1. -/
theorem reach_leaf : Reach (fun t ↦ ∃ o, t = leaf o [1, 1] 8) (8 + shortRoom) := by
  have hx := wide_fresh.indexed
  rw [zeroedArena_bump (by decide)] at hx
  obtain ⟨s', off, h₁, newOff, h₂, halloc, hleaf, hrun, hx'⟩ :=
    hx.insert_first (show ValidKey [1, 1] ∧ (8 : UInt32).toNat < wideSize by decide) (by decide)
  have hnode := alloc_bump_le halloc
  have hbump := alloc_bump_le hleaf
  refine ⟨s', (Run.refl _).tail trivial (.inserted hrun), h₂, off, _, hx', ?_, newOff, Function.update_self _ _ _⟩
  have hsize : alignSize (leafHeader + ([1, 1] : Bytes).length) = 16 := rfl
  rw [hsize] at hbump
  rw [alignSize_node4] at hnode
  dsimp only at hnode
  simp only [shortRoom]
  omega

theorem Reach.mono (hr : Reach P n) (hle : n ≤ n') (himp : ∀ t, P t → t.WF [1] → P' t) : Reach P' n' := by
  obtain ⟨s, hrun, h, off, kids, hx, hbump, hp⟩ := hr
  exact ⟨s, hrun, h, off, kids, hx, hbump.trans hle, himp _ hp (hx.wf.2.2.2.2 1)⟩

theorem everywhere_insert {t' : Tree} {newOff : ℕ} (hall : t.Everywhere Bound) (hwf : t.WF [1])
    (hi : Inserts limit key value (leaf newOff key value) 1 h t t' h') : t'.Everywhere Bound :=
  (hi.everywhere bound_kept (everywhere_leaf newOff key value) (fun heq ↦ by cases heq) [1] rfl hwf
    (takes_trivial key t 1) hall).1

/-- Two leaves that part at their second byte. -/
theorem fan_of_leaf {t' : Tree} {o newOff : ℕ}
    (hi : Inserts limit [1, 2] 8 (leaf newOff [1, 2] 8) 1 h (leaf o [1, 1] 8) t' h') : Fan 2 t' := by
  have hpoint : splitPoint [1, 1] [1, 2] 1 = 1 := by
    rw [splitPoint, dif_neg (by decide)]
  cases hi with
  | split hne hs =>
    rw [split, hpoint] at hs
    cases halloc : h.alloc limit SlotKind.node4.size with
    | none =>
      rw [halloc] at hs
      cases hs
    | some granted =>
      rw [halloc] at hs
      obtain ⟨rfl, -⟩ := Prod.mk.inj (Option.some.inj hs)
      refine ⟨granted.1, _, _, rfl, rfl, ⟨o, rfl⟩, fun c hc ↦ ?_⟩
      have hone : c ≠ 1 := fun heq ↦ by
        rw [heq] at hc
        exact absurd hc (by decide)
      have htwo : c ≠ 2 := fun heq ↦ by
        rw [heq] at hc
        exact absurd hc (by decide)
      show kidsOf [(1, leaf o [1, 1] 8), (2, leaf newOff [1, 2] 8)] c = .nil
      rw [kidsOf, if_neg hone, kidsOf, if_neg htwo, kidsOf]

/-- One key after the other, under the bytes 1 to `n`. -/
theorem reach_fan (hlo : 2 ≤ n) (hhi : n ≤ 49) :
    Reach (fun t ↦ Fan n t ∧ t.Everywhere Bound) (8 + n * shortRoom) := by
  induction n, hlo using Nat.le_induction with
  | base =>
    refine (reach_leaf.insert [1, 2] (by decide) (by decide) rfl (by decide) ?_ ?_).mono
      (by simp only [shortRoom]; omega) fun _ hp _ ↦ hp
    · rintro t ⟨o, rfl⟩
      exact ⟨by simp, id⟩
    · rintro t t' h h' newOff ⟨o, rfl⟩ hwf hi
      exact ⟨fan_of_leaf hi, everywhere_insert (everywhere_leaf o [1, 1] 8) hwf hi⟩
  | succ n hn ih =>
    have hvalid : ValidKey [1, UInt8.ofNat (n + 1)] := by
      refine ⟨by simp, (by decide : 2 ≤ maxKeyLen), ?_⟩
      have hne : (0 : UInt8) ≠ UInt8.ofNat (n + 1) := fun heq ↦ by
        have hzero := congrArg UInt8.toNat heq
        rw [UInt8.toNat_ofNat'] at hzero
        rw [UInt8.toNat_zero] at hzero
        omega
      simp only [List.mem_cons, List.not_mem_nil, or_false, not_or]
      exact ⟨by decide, hne⟩
    refine ((ih (by omega)).insert [1, UInt8.ofNat (n + 1)] hvalid (by simp) rfl
      (by simp only [shortRoom, wideSize]; omega) ?_ ?_).mono (by simp only [shortRoom]; omega) fun _ hp _ ↦ hp
    · rintro t ⟨hfan, hall⟩
      exact ⟨hfan.ne_nil, hall.not_stuck _ 1⟩
    · rintro t t' h h' newOff ⟨hfan, hall⟩ hwf hi
      exact ⟨hfan.insert (by omega) (by omega) hi, everywhere_insert hall hwf hi⟩

theorem reach_wide : Reach (Wide 49 fun t ↦ t = .nil) (8 + 49 * shortRoom) :=
  (reach_fan (by decide) le_rfl).mono le_rfl fun _ hp hwf ↦ hp.1.wide hwf

theorem Wide.not_stuck {Q : Tree → Prop} {tail : Bytes} (hw : Wide n Q t)
    (hq : ∀ t, Q t → ¬ t.Stuck (1 :: 255 :: tail) 2) :
    t ≠ .nil ∧ ¬ t.Stuck (1 :: 255 :: tail) 1 := by
  obtain ⟨off, kids, rfl, -, hkid⟩ := hw
  refine ⟨by simp, ?_⟩
  rintro (⟨-, htype, -⟩ | hbelow)
  · exact htype rfl
  · exact hq _ hkid hbelow

theorem Wide.found {Q : Tree → Prop} {tail : Bytes} (hw : Wide n Q t)
    (hq : ∀ t, Q t → t.lookup (1 :: 255 :: tail) 2 ≠ none) :
    t.IsInner ∧ t.lookup (1 :: 255 :: tail) 1 ≠ none := by
  obtain ⟨off, kids, rfl, -, hkid⟩ := hw
  exact ⟨trivial, hq _ hkid⟩

/-- A key under the byte 255, inserted and not yet parted from another. -/
theorem Reach.insertFirst (hr : Reach (Wide n fun t ↦ t = .nil) n') (hroom : n' + shortRoom ≤ wideSize) :
    Reach (Wide ((n + 1) % 2 ^ 16) fun t ↦ ∃ o, t = leaf o [1, 255, 1] 8) (n' + shortRoom) := by
  refine hr.insert [1, 255, 1] (by decide) (by decide) rfl hroom (fun t hw ↦ hw.not_stuck ?_) fun hw _ hi ↦ ?_
  · rintro t rfl
    exact id
  · obtain ⟨off, kids, heq, hfirst, hkid⟩ := hw.insert hi
    exact ⟨off, kids, heq, hfirst, _, hkid⟩

/-- Two keys under the byte 255, inserted and removed again, leave one more on the count. -/
theorem Reach.cycle (hr : Reach (Wide n fun t ↦ t = .nil) n') (hlo : 32 ≤ n) (hhi : n < 65535)
    (hroom : n' + 2 * shortRoom ≤ wideSize) : Reach (Wide (n + 1) fun t ↦ t = .nil) (n' + 2 * shortRoom) := by
  have hmod : (n + 1) % 2 ^ 16 = n + 1 := Nat.mod_eq_of_lt (by omega)
  have hfirst := hr.insertFirst (by omega)
  rw [hmod] at hfirst
  have hfork : Reach (Wide (n + 1) Fork) (n' + shortRoom + shortRoom) := by
    refine hfirst.insert [1, 255, 2] (by decide) (by decide) rfl (by omega) (fun t hw ↦ hw.not_stuck ?_)
      fun hw _ hi ↦ hw.insert_below ?_ hi ?_
    · rintro t ⟨o, rfl⟩
      exact id
    · rintro t ⟨o, rfl⟩
      simp
    · rintro t t' ⟨o, rfl⟩ hi
      exact fork_insert hi
  have hrest : Reach (Wide (n + 1) Rest) (n' + shortRoom + shortRoom) := by
    refine hfork.remove [1, 255, 1] (by decide) rfl (fun t hw ↦ hw.found ?_)
      fun hw hr ↦ hw.remove_below (by omega) ?_ hr fun hf hr ↦ fork_remove hf hr
    · rintro t ⟨off, kids, rfl, ⟨o, hone⟩, -⟩
      show (kids 1).lookup _ _ ≠ none
      simp [hone, lookup]
    · rintro t ⟨off, kids, rfl, -⟩
      trivial
  have hnil : Reach (Wide (n + 1) fun t ↦ t = .nil) (n' + shortRoom + shortRoom) := by
    refine hrest.remove [1, 255, 2] (by decide) rfl (fun t hw ↦ hw.found ?_)
      fun hw hr ↦ hw.remove_below (by omega) ?_ hr fun hf hr ↦ rest_remove hf hr
    · rintro t ⟨off, kids, rfl, ⟨o, htwo⟩⟩
      show (kids 2).lookup _ _ ≠ none
      simp [htwo, lookup]
    · rintro t ⟨off, kids, rfl, -⟩
      trivial
  exact hnil.mono (by omega) fun _ hp _ ↦ hp

theorem reach_count {k : ℕ} (hk : 49 + k ≤ 65535) :
    Reach (Wide (49 + k) fun t ↦ t = .nil) (8 + 49 * shortRoom + k * (2 * shortRoom)) := by
  induction k with
  | zero => exact reach_wide.mono (by simp) fun _ hp _ ↦ hp
  | succ k ih =>
    exact ((ih (by omega)).cycle (by omega) (by omega) (by simp only [shortRoom, wideSize]; omega)).mono
      (by simp only [shortRoom]; omega) fun _ hp _ ↦ hp

/-- After so many calls that the count has wrapped, a removal takes another key with it. -/
theorem remove_loses_key : ∃ s, Fresh smallIndex wideSize (zeroedArena false wideSize) ∧
    Run (IndexCall smallIndex) (fun _ _ ↦ True) (zeroedArena false wideSize) s ∧ ValidKey [1, 255, 1] ∧
      ¬ RemovesExactly smallIndex [1, 255, 1] s := by
  have hlast : Reach (Wide 65535 fun t ↦ t = .nil) _ := reach_count (k := 65486) le_rfl
  obtain ⟨s, hrun, h, off, kids, hx, -, hw⟩ := hlast.insertFirst (by decide)
  have hw : Wide 0 (fun t ↦ ∃ o, t = leaf o [1, 255, 1] 8) (kids 1) := hw
  refine ⟨s, wide_fresh, hrun, by decide, ?_⟩
  rintro ⟨found, s₁, hremove, hexact⟩
  have hbyte : slotByte [1, 255, 1] 0 = 1 := rfl
  have hbefore : (inner off (.slots .node4 [1]) kids).lookup [1, 1] 0 = some 8 := by
    obtain ⟨off', kids', hkid, ⟨o, hfirst⟩, -⟩ := hw
    show (kids 1).lookup [1, 1] 1 = some 8
    rw [hkid]
    show (kids' 1).lookup [1, 1] 2 = some 8
    rw [hfirst, lookup, if_pos rfl]
  obtain ⟨-, -, hothers⟩ := hexact (maxDepth + 1) (Nat.lt_succ_self _)
  have hsame := hothers [1, 1] (by decide)
  rw [hx.search _ (Nat.lt_succ_self _), hbefore] at hsame
  cases hx.remove [1, 255, 1] with
  | refused hbad => exact absurd (by decide) hbad
  | absent hgood hnone =>
    have hleaf : ∀ t, (∃ o, t = leaf o [1, 255, 1] 8) → t.lookup [1, 255, 1] 2 ≠ none := by
      rintro t ⟨o, rfl⟩
      simp [lookup]
    exact (hw.found hleaf).2 hnone
  | @removed s' h' root' up hgood hrem hrun' hmoves =>
    obtain ⟨-, rfl⟩ := (EStateM.Result.ok.injEq _ _ _ _).mp (hremove.symm.trans hrun')
    rw [hmoves.indexed.search _ (Nat.lt_succ_self _)] at hsame
    have hcount : (Shape.slots .node4 [1]).count = 1 := rfl
    cases hrem with
    | leaf hkid =>
      obtain ⟨-, hinner⟩ := hw.isInner
      rw [← hbyte, hkid] at hinner
      exact hinner
    | stopped hrem =>
      rw [hbyte] at hrem
      obtain ⟨-, hup⟩ := hw.lost hrem
      cases hup
    | onward hrem hcol =>
      rw [hbyte] at hrem hcol
      obtain ⟨rfl, -⟩ := hw.lost hrem
      cases hcol with
      | leaked _ hbound => exact absurd (hcount ▸ hbound) (by decide)
      | unlinked hroot => cases hroot
      | shrunk _ hbound => exact absurd (hcount ▸ hbound) (by decide)
      | kept =>
        have hafter : (inner off (.slots .node4 [1]) (Function.update kids 1 .nil)).lookup [1, 1] 0 = none := by
          show (Function.update kids 1 .nil 1).lookup [1, 1] 1 = none
          rw [Function.update_self, lookup]
        rw [hafter] at hsame
        cases hsame

end Wrapping

end TakyonDb.Art
