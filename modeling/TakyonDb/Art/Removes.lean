import Mathlib.Data.List.Perm.Subperm
import TakyonDb.Art.Everywhere
import TakyonDb.Lib.SwapRemove

namespace TakyonDb.Art

open Lib Set Heap

namespace Tree

def isNil : Tree → Bool
  | nil => true
  | _ => false

/-- The bytes that children hang on, in ascending order. -/
def live (kids : UInt8 → Tree) : List UInt8 := (bytesBelow 256).filter fun b ↦ !(kids b).isNil

end Tree

namespace Shape

/-- The node without its entry for the byte. -/
def drop (b : UInt8) : Shape → Shape
  | slots kind keys => slots kind (swapRemove keys b)
  | direct count => direct (count - 1)

/-- What the node says about the number of its entries. -/
def count : Shape → ℕ
  | slots _ keys => keys.length
  | direct count => count

/-- The smaller node for the same children. A `Node4` has none. -/
def shrink (kids : UInt8 → Tree) : Shape → Shape
  | slots .node4 keys => slots .node4 keys
  | slots .node16 keys => slots .node4 keys
  | slots .node48 _ => slots .node16 (Tree.live kids)
  | direct _ => slots .node48 (Tree.live kids)

def Fits : Shape → Prop
  | slots kind keys => keys.length ≤ kind.capacity
  | direct _ => True

end Shape

namespace Tree

variable {limit depth off : ℕ} {key k path : Bytes} {value v : UInt32} {t t' t₁ : Tree} {h h' h₁ : Heap}
  {shape : Shape} {kids : UInt8 → Tree} {b c : UInt8} {root up : Bool}

/-- What one round of the collapse makes of a node. The flag says whether
the next round, at the parent, follows. -/
inductive Collapses (limit : ℕ) (root : Bool) : Heap → Tree → Tree → Heap → Bool → Prop
  | kept {h : Heap} {off : ℕ} {shape : Shape} {kids : UInt8 → Tree} (hroot : shape.count = 0 → root = true)
    (hfull : shape.count ≠ 0 → shape.count ≤ shrinkBound shape.type → h.alloc limit (shape.shrink kids).size = none) :
    Collapses limit root h (inner off shape kids) (inner off shape kids) h false
  | leaked {h h' : Heap} {off dst : ℕ} {shape : Shape} {kids : UInt8 → Tree}
    (hcount : shape.count ≠ 0) (hbound : shape.count ≤ shrinkBound shape.type)
    (halloc : h.alloc limit (shape.shrink kids).size = some (dst, h')) (hfits : ¬ (shape.shrink kids).Fits) :
    Collapses limit root h (inner off shape kids) (inner off shape kids) h' false
  | unlinked {h : Heap} {off : ℕ} {shape : Shape} {kids : UInt8 → Tree} (hroot : root = false)
    (hcount : shape.count = 0) :
    Collapses limit root h (inner off shape kids) nil (h.quarantine off shape.size) true
  | shrunk {h h' : Heap} {off dst : ℕ} {shape : Shape} {kids : UInt8 → Tree}
    (hcount : shape.count ≠ 0) (hbound : shape.count ≤ shrinkBound shape.type)
    (halloc : h.alloc limit (shape.shrink kids).size = some (dst, h')) (hfits : (shape.shrink kids).Fits) :
    Collapses limit root h (inner off shape kids) (inner dst (shape.shrink kids) kids)
      (h'.quarantine off shape.size) true

/-- What a removal makes of the tree at `depth`, when the leaf of the key is there. -/
inductive Removes (limit : ℕ) (key : Bytes) : Bool → ℕ → Heap → Tree → Tree → Heap → Bool → Prop
  | leaf {root up : Bool} {depth off off' : ℕ} {h h' : Heap} {shape : Shape} {kids : UInt8 → Tree} {v : UInt32}
    {t' : Tree} (hkid : kids (slotByte key depth) = leaf off' key v)
    (hcol : Collapses limit root h (inner off (shape.drop (slotByte key depth))
      (Function.update kids (slotByte key depth) nil)) t' h' up) :
    Removes limit key root depth h (inner off shape kids) t' h' up
  | onward {root up : Bool} {depth off : ℕ} {h h₁ h' : Heap} {shape : Shape} {kids : UInt8 → Tree} {t₁ t' : Tree}
    (hrem : Removes limit key false (depth + 1) h (kids (slotByte key depth)) t₁ h₁ true)
    (hcol : Collapses limit root h₁ (inner off shape (Function.update kids (slotByte key depth) t₁)) t' h' up) :
    Removes limit key root depth h (inner off shape kids) t' h' up
  | stopped {root : Bool} {depth off : ℕ} {h h₁ : Heap} {shape : Shape} {kids : UInt8 → Tree} {t₁ : Tree}
    (hrem : Removes limit key false (depth + 1) h (kids (slotByte key depth)) t₁ h₁ false) :
    Removes limit key root depth h (inner off shape kids)
      (inner off shape (Function.update kids (slotByte key depth) t₁)) h₁ false

section Live

theorem isNil_iff : t.isNil = true ↔ t = nil := by cases t <;> simp [isNil]

theorem mem_live : b ∈ live kids ↔ kids b ≠ nil := by
  have hb := b.toNat_lt
  rw [live, List.mem_filter, mem_bytesBelow le_rfl, Bool.not_eq_true', ← Bool.not_eq_true, isNil_iff]
  exact ⟨fun hmem ↦ hmem.2, fun hne ↦ ⟨hb, hne⟩⟩

theorem nodup_live (kids : UInt8 → Tree) : (live kids).Nodup := (nodup_bytesBelow le_rfl).filter _

theorem live_congr {kids' : UInt8 → Tree} (hsame : ∀ c, kids' c = nil ↔ kids c = nil) : live kids' = live kids := by
  refine List.filter_congr fun c _ ↦ ?_
  have hc := hsame c
  rw [← isNil_iff, ← isNil_iff] at hc
  exact congrArg _ (Bool.eq_iff_iff.mpr hc)

/-- A child less is a byte less. -/
theorem live_update_nil (hb : kids b ≠ nil) : (live kids).Perm (b :: live (Function.update kids b nil)) := by
  refine (List.perm_ext_iff_of_nodup (nodup_live kids) (List.nodup_cons.mpr ⟨?_, nodup_live _⟩)).mpr fun c ↦ ?_
  · rw [mem_live, Function.update_self]
    exact not_not.mpr rfl
  · rw [List.mem_cons, mem_live, mem_live]
    rcases eq_or_ne c b with rfl | hne
    · simp [hb]
    · rw [Function.update_of_ne hne]
      simp [hne]

theorem live_update_le (hb : kids b ≠ nil) (t : Tree) :
    (live (Function.update kids b t)).length ≤ (live kids).length := by
  by_cases ht : t = nil
  · have hlen := (live_update_nil hb).length_eq
    rw [ht]
    rw [List.length_cons] at hlen
    omega
  · refine (congrArg List.length (live_congr fun c ↦ ?_)).le
    rcases eq_or_ne c b with rfl | hne
    · rw [Function.update_self]
      exact iff_of_false ht hb
    · rw [Function.update_of_ne hne]

end Live

theorem Collapses.ne_nil (hc : Collapses limit root h t t' h' up) : t ≠ nil := by
  cases hc <;> exact fun heq ↦ by cases heq

theorem Removes.ne_nil (hr : Removes limit key root depth h t t' h' up) : t ≠ nil := by
  cases hr <;> exact fun heq ↦ by cases heq

/-- A removal starts from a tree that holds the key. -/
theorem Removes.found (hr : Removes limit key root depth h t t' h' up) : ∃ v, t.lookup key depth = some v := by
  induction hr with
  | @leaf root up depth off off' h h' shape kids v t' hkid hcol => exact ⟨v, by rw [lookup, hkid, lookup, if_pos rfl]⟩
  | onward hrem hcol ih => exact ih
  | stopped hrem ih => exact ih

section Shapes

theorem drop_has (hs : shape.Sound) (hb : shape.Has b) (hc : shape.Has c) (hne : c ≠ b) : (shape.drop b).Has c := by
  cases shape with
  | slots kind keys => exact (mem_swapRemove hs.1 hb).mpr ⟨hc, hne⟩
  | direct count => trivial

theorem drop_sound (hs : shape.Sound) (hb : shape.Has b) : (shape.drop b).Sound := by
  cases shape with
  | slots kind keys =>
    have hlen := length_swapRemove keys b
    have hroom := hs.2
    refine ⟨nodup_swapRemove hs.1 hb, ?_⟩
    omega
  | direct count =>
    have hcount : count < 2 ^ 16 := hs
    exact (Nat.sub_le count 1).trans_lt hcount

theorem drop_size (shape : Shape) (b : UInt8) : (shape.drop b).size = shape.size := by cases shape <;> rfl

theorem shrink_sound (hs : shape.Sound) (hfits : (shape.shrink kids).Fits) : (shape.shrink kids).Sound := by
  cases shape with
  | slots kind keys =>
    cases kind with
    | node4 => exact hs
    | node16 => exact ⟨hs.1, hfits⟩
    | node48 => exact ⟨nodup_live kids, hfits⟩
  | direct count => exact ⟨nodup_live kids, hfits⟩

theorem shrink_has (hc : kids c ≠ nil) (hhas : shape.Has c) : (shape.shrink kids).Has c := by
  cases shape with
  | slots kind keys =>
    cases kind with
    | node4 => exact hhas
    | node16 => exact hhas
    | node48 => exact mem_live.mpr hc
  | direct count => exact mem_live.mpr hc

theorem has_of_ne_nil (hwf : (inner off shape kids).WF path) (hb : kids b ≠ nil) : shape.Has b :=
  by_contra fun hnot ↦ hb (hwf.2.2.2.1 b hnot)

theorem wf_drop (hwf : (inner off shape kids).WF path) (hb : kids b ≠ nil) :
    (inner off (shape.drop b) (Function.update kids b nil)).WF path := by
  have hhas := has_of_ne_nil hwf hb
  refine ⟨hwf.1, hwf.2.1, drop_sound hwf.2.2.1 hhas, fun c hc ↦ ?_, fun c ↦ ?_⟩ <;>
    rcases eq_or_ne c b with rfl | hne
  · rw [Function.update_self]
  · rw [Function.update_of_ne hne]
    exact by_contra fun hnil ↦ hc (drop_has hwf.2.2.1 hhas (has_of_ne_nil hwf hnil) hne)
  · rw [Function.update_self]
    trivial
  · rw [Function.update_of_ne hne]
    exact hwf.2.2.2.2 c

end Shapes

section Forms

theorem Collapses.wf (hc : Collapses limit root h t t' h' up) (hwf : t.WF path) : t'.WF path := by
  cases hc with
  | kept => exact hwf
  | leaked => exact hwf
  | unlinked => trivial
  | shrunk _ _ _ hfits =>
    exact wf_reshape hwf (shrink_sound hwf.2.2.1 hfits) fun c hne ↦ shrink_has hne (has_of_ne_nil hwf hne)

theorem Removes.wf (hr : Removes limit key root depth h t t' h' up) :
    ∀ path, path.length = depth → t.WF path → t'.WF path := by
  induction hr with
  | leaf hkid hcol =>
    exact fun path _ hwf ↦ hcol.wf (wf_drop hwf (by rw [hkid]; exact fun heq ↦ by cases heq))
  | @onward root up depth off h h₁ h' shape kids t₁ t' hrem hcol ih =>
    rintro path rfl hwf
    have hhas := has_of_ne_nil hwf hrem.ne_nil
    exact hcol.wf (wf_update hwf hwf.2.2.1 (fun c hc ↦ hc.elim id (· ▸ hhas))
      (ih (path ++ [slotByte key path.length]) (by simp) (hwf.2.2.2.2 _)))
  | @stopped root depth off h h₁ shape kids t₁ hrem ih =>
    rintro path rfl hwf
    have hhas := has_of_ne_nil hwf hrem.ne_nil
    exact wf_update hwf hwf.2.2.1 (fun c hc ↦ hc.elim id (· ▸ hhas))
      (ih (path ++ [slotByte key path.length]) (by simp) (hwf.2.2.2.2 _))

theorem Changed.refl (hs : h.Sound limit) (hl : t.Laid limit)
    (hd : Disjoint t.foot h.avail) : Changed limit h h t t ∅ :=
  ⟨hs, hl, subset_union_left.trans subset_union_left, hd, subset_union_left, le_rfl⟩

theorem Changed.trans (h₁' : Changed limit h h₁ t t₁ ∅) (h₂ : Changed limit h₁ h' t₁ t' ∅) :
    Changed limit h h' t t' ∅ := by
  have hleft : taken h h₁ ⊆ taken h h' := fun _ ha ↦ ⟨ha.1, ha.2.trans_le h₂.bump_le⟩
  have hfoot : t₁.foot ⊆ t.foot ∪ taken h h' := h₁'.foot.trans (union_subset
    (union_subset subset_union_left (empty_subset _)) (hleft.trans subset_union_right))
  have hright : taken h₁ h' ⊆ t.foot ∪ taken h h' := by
    rintro a ⟨havail, hlt⟩
    rcases h₁'.avail havail with hold | hfoot
    · exact .inr ⟨hold, hlt⟩
    · exact .inl hfoot
  have hwide : t.foot ∪ taken h h' ⊆ t.foot ∪ ∅ ∪ taken h h' := by rw [union_empty]
  refine ⟨h₂.sound, h₂.laid, (h₂.foot.trans (union_subset (union_subset hfoot (empty_subset _)) hright)).trans hwide,
    h₂.apart, h₂.avail.trans (union_subset h₁'.avail (hfoot.trans ?_)), h₁'.bump_le.trans h₂.bump_le⟩
  exact union_subset subset_union_right fun _ ha ↦ .inl ha.1

theorem Collapses.changed (hc : Collapses limit root h t t' h' up) (hs : h.Sound limit) (hl : t.Laid limit)
    (hd : Disjoint t.foot h.avail) : Changed limit h h' t t' ∅ := by
  cases hc with
  | kept => exact .refl hs hl hd
  | leaked _ _ halloc _ =>
    have hg := alloc_granted hs halloc
    exact ⟨hg.sound, hl, subset_union_left.trans subset_union_left, hd.mono_right hg.avail,
      hg.avail.trans subset_union_left, hg.bump_le⟩
  | unlinked =>
    exact Changed.replace hl hd (disjoint_empty _) ⟨.refl hs, trivial, empty_subset _, empty_disjoint _⟩
  | @shrunk h' off dst shape kids _ _ halloc _ =>
    refine Changed.replace hl hd (disjoint_empty _) (inner_built (alloc_granted hs halloc) hl.2.2.2.2.2
      (fun b ↦ ?_) hl.2.2.2.2.1 ?_)
    · exact (subset_iUnion (fun b ↦ (kids b).foot) b).trans subset_union_left
    · exact disjoint_union_left.mpr ⟨hd.mono_left subset_union_right, empty_disjoint _⟩

/-- A node that loses a leaf. -/
theorem changed_drop (hs : h.Sound limit) (hl : (inner off shape kids).Laid limit)
    (hd : Disjoint (inner off shape kids).foot h.avail) (b : UInt8) :
    Changed limit h h (inner off shape kids) (inner off (shape.drop b) (Function.update kids b nil)) ∅ := by
  have hfoot : (inner off (shape.drop b) (Function.update kids b nil)).foot ⊆ (inner off shape kids).foot := by
    have hsub := foot_update off shape kids b nil
    simpa only [foot, drop_size, union_empty] using hsub
  exact ⟨hs, laid_update hl (drop_size shape b) trivial (disjoint_empty _) fun _ _ ↦ disjoint_empty _,
    hfoot.trans (subset_union_left.trans subset_union_left), hd.mono_left hfoot, subset_union_left, le_rfl⟩

theorem Removes.changed (hr : Removes limit key root depth h t t' h' up) (hs : h.Sound limit) (hl : t.Laid limit)
    (hd : Disjoint t.foot h.avail) : Changed limit h h' t t' ∅ := by
  induction hr with
  | @leaf root up depth off off' h h' shape kids v t' hkid hcol =>
    have hdrop := changed_drop hs hl hd (slotByte key depth)
    exact hdrop.trans (hcol.changed hdrop.sound hdrop.laid hdrop.apart)
  | @onward root up depth off h h₁ h' shape kids t₁ t' hrem hcol ih =>
    have hchild := (ih hs (hl.2.2.2.2.2 _) (hd.mono_left (foot_kid off shape kids _))).lift hl hd (disjoint_empty _)
    exact hchild.trans (hcol.changed hchild.sound hchild.laid hchild.apart)
  | @stopped root depth off h h₁ shape kids t₁ hrem ih =>
    exact (ih hs (hl.2.2.2.2.2 _) (hd.mono_left (foot_kid off shape kids _))).lift hl hd (disjoint_empty _)

end Forms

/-- A `Node256` has no more children than its count says. -/
def Counted (shape : Shape) (kids : UInt8 → Tree) : Prop :=
  match shape with
  | .slots _ _ => True
  | .direct count => (live kids).length ≤ count

section Lookup

theorem live_nil (hlive : live kids = []) (c : UInt8) : kids c = nil :=
  by_contra fun hne ↦ by
    have hmem := mem_live.mpr hne
    rw [hlive] at hmem
    cases hmem

/-- A node that counts no entry has no child. -/
theorem empty_of_count (hwf : (inner off shape kids).WF path) (hq : Counted shape kids) (hcount : shape.count = 0)
    (c : UInt8) : kids c = nil := by
  cases shape with
  | slots kind keys =>
    refine hwf.2.2.2.1 c ?_
    rw [List.length_eq_zero_iff.mp hcount]
    exact List.not_mem_nil
  | direct count =>
    have hle : (live kids).length ≤ count := hq
    have hzero : count = 0 := hcount
    exact live_nil (List.length_eq_zero_iff.mp (by omega)) c

theorem lookup_nil (hnil : ∀ c, kids c = nil) (k : Bytes)
    (depth : ℕ) : (inner off shape kids).lookup k depth = none := by
  rw [lookup, hnil]
  rfl

theorem Collapses.lookup (hc : Collapses limit root h t t' h' up) (hwf : t.WF path) (hq : t.Everywhere Counted)
    (k : Bytes) (depth : ℕ) : t'.lookup k depth = t.lookup k depth := by
  cases hc with
  | kept => rfl
  | leaked => rfl
  | unlinked _ hcount => exact (lookup_nil (empty_of_count hwf hq.1 hcount) k depth).symm
  | shrunk => rfl

theorem Collapses.counted (hc : Collapses limit root h t t' h' up) (hq : t.Everywhere Counted) :
    t'.Everywhere Counted := by
  cases hc with
  | kept => exact hq
  | leaked => exact hq
  | unlinked => trivial
  | @shrunk h' off dst shape kids =>
    refine ⟨?_, hq.2⟩
    cases shape with
    | slots kind keys => cases kind <;> trivial
    | direct count => trivial

theorem counted_drop (hq : Counted shape kids) (hb : kids b ≠ nil) :
    Counted (shape.drop b) (Function.update kids b nil) := by
  cases shape with
  | slots kind keys => trivial
  | direct count =>
    have hle : (live kids).length ≤ count := hq
    have hlen := (live_update_nil hb).length_eq
    rw [List.length_cons] at hlen
    show (live _).length ≤ count - 1
    omega

theorem counted_update (hq : Counted shape kids) (hb : kids b ≠ nil) (t : Tree) :
    Counted shape (Function.update kids b t) := by
  cases shape with
  | slots kind keys => trivial
  | direct count => exact (live_update_le hb t).trans hq

theorem Removes.counted (hr : Removes limit key root depth h t t' h' up) (hq : t.Everywhere Counted) :
    t'.Everywhere Counted := by
  induction hr with
  | leaf hkid hcol =>
    exact hcol.counted ⟨counted_drop hq.1 (by rw [hkid]; exact fun heq ↦ by cases heq),
      everywhere_update hq.2 trivial⟩
  | onward hrem hcol ih =>
    exact hcol.counted ⟨counted_update hq.1 hrem.ne_nil _, everywhere_update hq.2 (ih (hq.2 _))⟩
  | stopped hrem ih => exact ⟨counted_update hq.1 hrem.ne_nil _, everywhere_update hq.2 (ih (hq.2 _))⟩

/-- The lookups below a node, when they change below one child only. -/
theorem lookup_replace (off off' : ℕ) (shape shape' : Shape) (kids : UInt8 → Tree) (t : Tree)
    (hsame : ∀ k, t.lookup k (depth + 1) =
      if k = key then none else (kids (slotByte key depth)).lookup k (depth + 1)) (k : Bytes) :
    (inner off' shape' (Function.update kids (slotByte key depth) t)).lookup k depth =
      if k = key then none else (inner off shape kids).lookup k depth := by
  simp only [lookup]
  by_cases hb : slotByte k depth = slotByte key depth
  · rw [hb, Function.update_self, hsame]
  · rw [Function.update_of_ne hb, if_neg fun heq ↦ hb (by rw [heq])]

/-- A removal takes away its key and leaves every other key as it was, when
no node has more children than it counts. -/
theorem Removes.lookup (hr : Removes limit key root depth h t t' h' up) :
    ∀ path, path.length = depth → t.WF path → t.Everywhere Counted →
      ∀ k, t'.lookup k depth = if k = key then none else t.lookup k depth := by
  induction hr with
  | @leaf root up depth off off' h h' shape kids v t' hkid hcol =>
    rintro path rfl hwf hq k
    have hne : kids (slotByte key path.length) ≠ nil := by
      rw [hkid]
      exact fun heq ↦ by cases heq
    rw [hcol.lookup (wf_drop hwf hne) ⟨counted_drop hq.1 hne, everywhere_update hq.2 trivial⟩]
    refine lookup_replace off off shape _ kids nil (fun k ↦ ?_) k
    rw [hkid, Tree.lookup, Tree.lookup]
    split_ifs with h₁ h₂
    · rfl
    · exact absurd h₂.symm h₁
    · rfl
  | @onward root up depth off h h₁ h' shape kids t₁ t' hrem hcol ih =>
    rintro path rfl hwf hq k
    have hhas := has_of_ne_nil hwf hrem.ne_nil
    have hlen : (path ++ [slotByte key path.length]).length = path.length + 1 := by simp
    have hwf₁ := hrem.wf _ hlen (hwf.2.2.2.2 _)
    rw [hcol.lookup (wf_update hwf hwf.2.2.1 (fun c hc ↦ hc.elim id (· ▸ hhas)) hwf₁)
      ⟨counted_update hq.1 hrem.ne_nil _, everywhere_update hq.2 (hrem.counted (hq.2 _))⟩]
    exact lookup_replace off off shape _ kids t₁ (ih _ hlen (hwf.2.2.2.2 _) (hq.2 _)) k
  | @stopped root depth off h h₁ shape kids t₁ hrem ih =>
    rintro path rfl hwf hq k
    exact lookup_replace off off shape _ kids t₁ (ih _ (by simp) (hwf.2.2.2.2 _) (hq.2 _)) k

end Lookup

section Inserts

/-- The node has room for one more in its count. -/
def Countable (shape : Shape) : Prop := shape ≠ .direct 65535

theorem live_update_add (hb : kids b = nil) (ht : t ≠ nil) :
    (live (Function.update kids b t)).length = (live kids).length + 1 := by
  have hself : Function.update kids b t b ≠ nil := by rwa [Function.update_self]
  have hperm := live_update_nil hself
  rw [Function.update_idem, ← hb, Function.update_eq_self] at hperm
  exact hperm.length_eq

theorem live_le_keys {keys : List UInt8} (habsent : ∀ c ∉ keys, kids c = nil) : (live kids).length ≤ keys.length :=
  (List.subperm_of_subset (nodup_live kids) fun c hc ↦
    by_contra fun hnot ↦ mem_live.mp hc (habsent c hnot)).length_le

theorem counted_kept : Kept Counted Countable where
  node4 _ _ := trivial
  swap _ _ _ _ hq _ hb _ := counted_update hq hb _
  claim shape kids b t hq hs hv hg ht := by
    cases shape with
    | slots kind keys => trivial
    | direct count =>
      have hle : (live kids).length ≤ count := hq
      have hlt : count < 2 ^ 16 := hs
      have hne : count ≠ 65535 := fun heq ↦ hg (by rw [heq])
      show (live _).length ≤ (count + 1) % 2 ^ 16
      rw [live_update_add hv ht, Nat.mod_eq_of_lt (by omega)]
      omega
  grow kind keys kids b t hq hs hnot habsent ht := by
    cases kind with
    | node4 => trivial
    | node16 => trivial
    | node48 =>
      have hroom : keys.length ≤ 48 := hs.2
      show (live _).length ≤ (keys.length + 1) % 2 ^ 16
      rw [live_update_add (habsent b hnot) ht, Nat.mod_eq_of_lt (by omega)]
      exact Nat.succ_le_succ (live_le_keys habsent)

end Inserts

end Tree

end TakyonDb.Art
