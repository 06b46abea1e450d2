import Mathlib.Data.Set.Lattice
import TakyonDb.Art.Index

namespace TakyonDb.Art

open Lib Set

abbrev span (block : ℕ × ℕ) : Set ℕ := Ico block.1 (block.1 + block.2)

namespace Freelist

variable {free free' : Freelist} {off size : ℕ}

def blocks (free : Freelist) : List (ℕ × ℕ) :=
  classSizes.flatMap fun size ↦ (free.stackOf size).map fun off ↦ (off, size)

theorem blocks_update (hsize : size ∈ classSizes) (stack : List ℕ)
    (hstack : free.stackOf size = off :: stack) :
    free.blocks.Perm ((off, size) ::
      blocks { free with stackOf := Function.update free.stackOf size stack }) := by
  have key : ∀ sizes : List ℕ, sizes.Nodup → size ∈ sizes →
      (sizes.flatMap fun size ↦ (free.stackOf size).map fun off ↦ (off, size)).Perm
        ((off, size) :: sizes.flatMap fun size' ↦
          (Function.update free.stackOf size stack size').map fun off ↦ (off, size')) := by
    intro sizes hnodup hmem
    induction sizes with
    | nil => cases hmem
    | cons size' sizes ih =>
      obtain ⟨hnot, hnodup⟩ := List.nodup_cons.mp hnodup
      rw [List.flatMap_cons, List.flatMap_cons]
      rcases eq_or_ne size size' with rfl | hne
      · have hrest : (sizes.flatMap fun size' ↦
            (Function.update free.stackOf size stack size').map fun off ↦ (off, size')) =
            sizes.flatMap fun size ↦ (free.stackOf size).map fun off ↦ (off, size) := by
          refine List.flatMap_congr fun s hs ↦ ?_
          rw [Function.update_of_ne]
          rintro rfl
          exact hnot hs
        rw [hrest, hstack, Function.update_self, List.map_cons, List.cons_append]
      · have hmem' := (List.mem_cons.mp hmem).resolve_left hne
        rw [Function.update_of_ne hne.symm]
        exact ((ih hnodup hmem').append_left _).trans List.perm_middle
  exact key classSizes (by decide) hsize

theorem blocks_reuse (h : free.reuse size = some (off, free')) :
    free.blocks.Perm ((off, size) :: free'.blocks) := by
  rw [reuse] at h
  split_ifs at h with hen hsize
  cases hstack : free.stackOf size with
  | nil => rw [hstack] at h; cases h
  | cons off' rest =>
    rw [hstack] at h
    obtain ⟨rfl, rfl⟩ := Prod.mk.inj (Option.some.inj h)
    exact blocks_update hsize rest hstack

theorem blocks_quarantine (off size : ℕ) (free : Freelist) :
    (free.quarantine off size).blocks = free.blocks ∨
      (free.quarantine off size).blocks.Perm ((off, size) :: free.blocks) := by
  rw [quarantine]
  split_ifs with hsize hfull
  · exact .inl rfl
  · right
    let pushed : Freelist :=
      { free with stackOf := Function.update free.stackOf size (off :: free.stackOf size) }
    have hpop : pushed.blocks.Perm ((off, size) ::
        blocks { pushed with stackOf := Function.update pushed.stackOf size (free.stackOf size) }) :=
      blocks_update hsize _ (Function.update_self _ _ _)
    simpa only [pushed, Function.update_idem, Function.update_eq_self] using hpop
  · exact .inl rfl

end Freelist

/-- What the allocator knows: the bump word and the orphaned nodes. -/
structure Heap where
  bump : ℕ
  free : Freelist

namespace Heap

/-- The addresses that are free to be handed out. -/
def avail (h : Heap) : Set ℕ := {a | ∃ block ∈ h.free.blocks, a ∈ span block} ∪ Ici h.bump

/-- The addresses that were handed out on the way from one heap to the next. -/
def taken (h h' : Heap) : Set ℕ := {a ∈ h.avail | a < h'.bump}

def bumpAlloc (limit size : ℕ) (h : Heap) : Option (ℕ × Heap) :=
  if limit < h.bump + size then none else some (h.bump, { h with bump := h.bump + size })

def alloc (limit size : ℕ) (h : Heap) : Option (ℕ × Heap) :=
  match h.free.reuse (alignSize size) with
  | some (off, free) => some (off, { h with free })
  | none => h.bumpAlloc limit (alignSize size)

def quarantine (off size : ℕ) (h : Heap) : Heap := { h with free := h.free.quarantine off size }

structure Sound (limit : ℕ) (h : Heap) : Prop where
  bump_aligned : h.bump % 8 = 0
  bump_pos : 0 < h.bump
  block : ∀ block ∈ h.free.blocks,
    block.1 % 8 = 0 ∧ 0 < block.1 ∧ block.1 + block.2 ≤ h.bump ∧ block.1 + block.2 ≤ limit
  apart : h.free.blocks.Pairwise fun a b ↦ Disjoint (span a) (span b)

/-- The later heap offers nothing that the earlier one did not. -/
structure Spends (limit : ℕ) (h h' : Heap) : Prop where
  sound : h'.Sound limit
  avail : h'.avail ⊆ h.avail
  bump_le : h.bump ≤ h'.bump

/-- A block of the earlier heap now belongs to the caller. -/
structure Granted (limit size off : ℕ) (h h' : Heap) : Prop extends Spends limit h h' where
  aligned : off % 8 = 0
  pos : 0 < off
  fits : off + alignSize size ≤ limit
  taken : Ico off (off + alignSize size) ⊆ taken h h'
  apart : Disjoint (Ico off (off + alignSize size)) h'.avail

variable {limit size off : ℕ} {h h' h'' : Heap}

theorem Spends.refl (hs : h.Sound limit) : Spends limit h h := ⟨hs, subset_rfl, le_rfl⟩

theorem Spends.trans (h₁ : Spends limit h h') (h₂ : Spends limit h' h'') : Spends limit h h'' :=
  ⟨h₂.sound, h₂.avail.trans h₁.avail, h₁.bump_le.trans h₂.bump_le⟩

theorem Spends.taken_left (h₂ : Spends limit h' h'') : taken h h' ⊆ taken h h'' :=
  fun _ ha ↦ ⟨ha.1, ha.2.trans_le h₂.bump_le⟩

theorem Spends.taken_right (h₁ : Spends limit h h') : Heap.taken h' h'' ⊆ Heap.taken h h'' :=
  fun _ ha ↦ ⟨h₁.avail ha.1, ha.2⟩

theorem alignSize_mod (size : ℕ) : alignSize size % 8 = 0 := by
  rw [alignSize]
  omega

theorem le_alignSize (size : ℕ) : size ≤ alignSize size := by
  rw [alignSize]
  omega

theorem bumpAlloc_granted (hs : h.Sound limit) (ha : h.bumpAlloc limit (alignSize size) = some (off, h')) :
    Granted limit size off h h' := by
  rw [bumpAlloc] at ha
  split_ifs at ha with hfit
  obtain ⟨rfl, rfl⟩ := Prod.mk.inj (Option.some.inj ha)
  have hmod := alignSize_mod size
  have hbump := hs.bump_aligned
  refine ⟨⟨⟨by dsimp only; omega, hs.bump_pos.trans_le (Nat.le_add_right _ _), fun block hb ↦ ?_,
    hs.apart⟩, ?_, Nat.le_add_right _ _⟩, hs.bump_aligned, hs.bump_pos, by omega, ?_, ?_⟩
  · obtain ⟨h₁, h₂, h₃, h₄⟩ := hs.block block hb
    exact ⟨h₁, h₂, h₃.trans (Nat.le_add_right _ _), h₄⟩
  · rintro a (hfree | habove)
    · exact .inl hfree
    · exact .inr ((Nat.le_add_right _ _).trans habove)
  · rintro a ⟨hlo, hhi⟩
    exact ⟨.inr hlo, hhi⟩
  · rw [disjoint_left]
    rintro a ⟨hlo, hhi⟩ (⟨block, hb, -, hblock⟩ | habove)
    · have := (hs.block block hb).2.2.1
      omega
    · simp only [mem_Ici] at habove
      omega

theorem reuse_granted {free : Freelist} (hs : h.Sound limit)
    (ha : h.free.reuse (alignSize size) = some (off, free)) :
    Granted limit size off h { h with free } := by
  have hperm := Freelist.blocks_reuse ha
  have hmem : ∀ block, block ∈ free.blocks → block ∈ h.free.blocks := fun block hb ↦
    hperm.mem_iff.mpr (List.mem_cons_of_mem _ hb)
  have hhead := hperm.mem_iff.mpr List.mem_cons_self
  obtain ⟨h₁, h₂, h₃, h₄⟩ := hs.block _ hhead
  obtain ⟨hfirst, hrest⟩ := List.pairwise_cons.mp
    ((hperm.pairwise_iff fun hd ↦ Disjoint.symm hd).mp hs.apart)
  refine ⟨⟨⟨hs.bump_aligned, hs.bump_pos, fun block hb ↦ hs.block block (hmem block hb), hrest⟩, ?_,
    le_rfl⟩, h₁, h₂, h₄, ?_, ?_⟩
  · rintro a (⟨block, hb, hin⟩ | habove)
    · exact .inl ⟨block, hmem block hb, hin⟩
    · exact .inr habove
  · rintro a hin
    exact ⟨.inl ⟨_, hhead, hin⟩, hin.2.trans_le h₃⟩
  · rw [disjoint_left]
    rintro a hin (⟨block, hb, hblock⟩ | habove)
    · exact disjoint_left.mp (hfirst block hb) hin hblock
    · have hlt : a < h.bump := hin.2.trans_le h₃
      exact absurd habove (not_le.mpr hlt)

theorem alloc_granted (hs : h.Sound limit) (ha : h.alloc limit size = some (off, h')) :
    Granted limit size off h h' := by
  rw [alloc] at ha
  cases hreuse : h.free.reuse (alignSize size) with
  | some popped =>
    rw [hreuse] at ha
    obtain ⟨rfl, rfl⟩ := Prod.mk.inj (Option.some.inj ha)
    exact reuse_granted hs hreuse
  | none =>
    rw [hreuse] at ha
    exact bumpAlloc_granted hs ha

theorem alloc_eq_none (ha : h.alloc limit size = none) : limit < h.bump + alignSize size := by
  rw [alloc] at ha
  split at ha
  · cases ha
  · rw [bumpAlloc] at ha
    split_ifs at ha with hfull
    exact hfull

theorem alloc_bump_le (ha : h.alloc limit size = some (off, h')) : h'.bump ≤ h.bump + alignSize size := by
  rw [alloc] at ha
  split at ha
  · obtain ⟨-, rfl⟩ := Prod.mk.inj (Option.some.inj ha)
    exact Nat.le_add_right _ _
  · rw [bumpAlloc] at ha
    split_ifs at ha
    obtain ⟨-, rfl⟩ := Prod.mk.inj (Option.some.inj ha)
    exact le_rfl

theorem quarantine_avail (off size : ℕ) (h : Heap) :
    (h.quarantine off size).avail ⊆ h.avail ∪ span (off, size) := by
  rintro a (⟨block, hb, hin⟩ | habove)
  · rcases h.free.blocks_quarantine off size with heq | hperm
    · rw [quarantine, heq] at hb
      exact .inl (.inl ⟨block, hb, hin⟩)
    · rcases List.mem_cons.mp (hperm.mem_iff.mp hb) with rfl | hold
      · exact .inr hin
      · exact .inl (.inl ⟨block, hold, hin⟩)
  · exact .inl (.inr habove)

theorem Sound.quarantine (hs : h.Sound limit) (haligned : off % 8 = 0) (hpos : 0 < off)
    (hbump : off + size ≤ h.bump) (hlimit : off + size ≤ limit)
    (happart : Disjoint (span (off, size)) h.avail) : (h.quarantine off size).Sound limit := by
  refine ⟨hs.bump_aligned, hs.bump_pos, ?_, ?_⟩ <;>
    rcases h.free.blocks_quarantine off size with heq | hperm
  · rw [Heap.quarantine, heq]
    exact hs.block
  · intro block hb
    rcases List.mem_cons.mp (hperm.mem_iff.mp hb) with rfl | hold
    · exact ⟨haligned, hpos, hbump, hlimit⟩
    · exact hs.block block hold
  · rw [Heap.quarantine, heq]
    exact hs.apart
  · refine (hperm.pairwise_iff fun hd ↦ Disjoint.symm hd).mpr (List.pairwise_cons.mpr ⟨?_, hs.apart⟩)
    exact fun block hb ↦ happart.mono_right fun a ha ↦ .inl ⟨block, hb, ha⟩

end Heap

end TakyonDb.Art
