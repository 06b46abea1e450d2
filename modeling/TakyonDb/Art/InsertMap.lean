import TakyonDb.Art.Everywhere
import TakyonDb.Lib.Transition

namespace TakyonDb.Art

open Lib Set Heap Art.Tree

variable {ix : ArtIndex} {limit : ℕ} {s s₀ s' : ArtState} {h : Heap} {root t : Tree} {key k path : Bytes}
  {value v : UInt32} {bound : Bytes → Option UInt32}

/-- With enough fuel the call gives this result. -/
def Returns {α : Type} (x : ℕ → ArtM α) (s : ArtState) (r : EStateM.Result Stop ArtState α) : Prop :=
  ∃ n, ∀ fuel, n ≤ fuel → x fuel s = r

theorem Returns.unique {α : Type} {x : ℕ → ArtM α} {r r' : EStateM.Result Stop ArtState α} (h : Returns x s r)
    (h' : Returns x s r') : r = r' := by
  obtain ⟨n, hn⟩ := h
  obtain ⟨n', hn'⟩ := h'
  rw [← hn _ (le_max_left n n'), hn' _ (le_max_right n n')]

/-- An arena after `init`: no root, no orphaned nodes, and the bump word past both words. -/
structure Fresh (ix : ArtIndex) (limit : ℕ) (s : ArtState) : Prop where
  placed : ix.Placed limit
  length : s.mem.length = limit
  root : readU32 s.mem ix.rootPtrOffset = 0
  bump_aligned : readU32 s.mem ix.bumpAllocOffset % 8 = 0
  past_root : ix.rootPtrOffset + 4 ≤ readU32 s.mem ix.bumpAllocOffset
  past_bump : ix.bumpAllocOffset + 4 ≤ readU32 s.mem ix.bumpAllocOffset
  orphans : ∀ size, s.free.stackOf size = []

/-- `init` makes a zeroed arena fresh. -/
theorem fresh_init {mem : Bytes} {free : Freelist} {arenaStart : ℕ} (hp : ix.Placed mem.length)
    (hroot : readU32 mem ix.rootPtrOffset = 0) (hbump : readU32 mem ix.bumpAllocOffset = 0)
    (hal : arenaStart % 8 = 0) (hlt : arenaStart < 2 ^ 32) (hpast : ix.rootPtrOffset + 4 ≤ arenaStart)
    (hpast' : ix.bumpAllocOffset + 4 ≤ arenaStart) (hfree : ∀ size, free.stackOf size = []) :
    Fresh ix mem.length ⟨init ix.bumpAllocOffset arenaStart mem, free⟩ := by
  have hch := changesOnly_writeU32 hp.bump_fits arenaStart
  have hinit : init ix.bumpAllocOffset arenaStart mem = writeU32 mem ix.bumpAllocOffset arenaStart := if_pos hbump
  have hread := readU32_writeU32_self hp.bump_fits hlt
  rw [← hinit] at hch hread
  exact ⟨hp, hch.length_eq, (hch.readU32 (disjoint_Ico hp.words_apart)).trans hroot, by rwa [hread],
    by rwa [hread], by rwa [hread], hfree⟩

theorem Fresh.indexed (hf : Fresh ix limit s) :
    Indexed ix limit s ⟨readU32 s.mem ix.bumpAllocOffset, s.free⟩ .nil := by
  have hblocks : s.free.blocks = [] := by simp [Freelist.blocks, hf.orphans]
  have havail : Heap.avail ⟨readU32 s.mem ix.bumpAllocOffset, s.free⟩ = Ici (readU32 s.mem ix.bumpAllocOffset) := by
    simp [Heap.avail, hblocks]
  have hpast := hf.past_root
  have hclear : ∀ {a b n : ℕ}, b ≤ n → Disjoint (Ico a b) (Ici n) := fun hle ↦
    disjoint_left.mpr fun c hc hn ↦ absurd hc.2 (not_lt.mpr (hle.trans hn))
  refine ⟨⟨hf.placed, hf.length, rfl, rfl, ⟨hf.bump_aligned, ?_, ?_, ?_⟩, ?_⟩, trivial, hf.root, trivial, trivial,
    empty_disjoint _, ?_, disjoint_empty _, .inl rfl⟩
  · dsimp only
    omega
  · simp [hblocks]
  · simp [hblocks]
  · rw [havail]
    exact hclear hf.past_bump
  · rw [havail, foot, empty_union]
    exact hclear hf.past_root

theorem Tree.lookup_valid {depth : ℕ} : ∀ {t : Tree} {path : Bytes}, t.WF path → t.lookup key depth = some v →
    ValidKey key := by
  intro t
  induction t generalizing depth with
  | nil => exact fun _ hfound ↦ by cases hfound
  | leaf off k' v' =>
    rintro path ⟨hv, -⟩ hfound
    rw [lookup] at hfound
    split_ifs at hfound with hsame
    exact hsame ▸ hv
  | inner off shape kids ih => exact fun hwf hfound ↦ ih _ (hwf.2.2.2.2 _) hfound

/-- The search of the code is the lookup in the tree that the root word names. -/
theorem search_stored {mem : Bytes} (hst : Stored mem root) (hword : readU32 mem ix.rootPtrOffset = root.raw)
    (hwf : root.WF []) (hlaid : root.Laid mem.length) (hfits : ix.rootPtrOffset + 4 ≤ mem.length) (key : Bytes)
    {fuel : ℕ} (hfuel : maxDepth < fuel) : search ix key fuel mem = .ok (root.lookup key 0) := by
  have hempty : key.length = 0 ↔ key = [] := List.length_eq_zero_iff
  rw [Art.search]
  by_cases hbad : key.length = 0 ∨ maxKeyLen < key.length ∨ terminator ∈ key
  · have hnone : root.lookup key 0 = none := by
      rw [Option.eq_none_iff_forall_ne_some]
      rintro v hfound
      obtain ⟨h₁, h₂, h₃⟩ := lookup_valid hwf hfound
      exact hbad.elim (fun hz ↦ h₁ (hempty.mp hz)) (fun hrest ↦ hrest.elim (not_lt.mpr h₂) h₃)
    rw [if_pos hbad, hnone]
  · rw [if_neg hbad, if_neg (not_lt.mpr hfits), hword]
    by_cases hnil : root = .nil
    · rw [hnil]
      rfl
    · rw [if_neg (raw_ne_zero hlaid hnil)]
      have hloop : searchLoop mem key fuel root.raw ([] : Bytes).length = .ok _ :=
        searchLoop_eq hst hwf hlaid hnil hfuel
      exact hloop

theorem Indexed.search (hx : Indexed ix limit s h root) (key : Bytes) {fuel : ℕ} (hfuel : maxDepth < fuel) :
    search ix key fuel s.mem = .ok (root.lookup key 0) :=
  search_stored hx.stored hx.word hx.wf (hx.arena.length ▸ hx.laid) (hx.arena.length ▸ hx.arena.placed.root_fits) key
    hfuel

/-- An insert call on the index and on what the successful inserts so far have bound. -/
inductive InsertCall (ix : ArtIndex) : ArtState × (Bytes → Option UInt32) → Bytes × UInt32 →
    ArtState × (Bytes → Option UInt32) → Prop
  | inserted {s s' : ArtState} {bound : Bytes → Option UInt32} {key : Bytes} {value : UInt32}
    (hrun : Returns (insert ix key value) s (.ok () s')) :
    InsertCall ix (s, bound) (key, value) (s', Function.update bound key (some value))
  | failed {s s' : ArtState} {bound : Bytes → Option UInt32} {key : Bytes} {value : UInt32} {e : ArtError}
    (hrun : Returns (insert ix key value) s (.error (.error e) s')) :
    InsertCall ix (s, bound) (key, value) (s', bound)

/-- The index holds what the successful inserts have bound, and no entry has lost its child. -/
def Holds (ix : ArtIndex) (limit : ℕ) (c : ArtState × (Bytes → Option UInt32)) : Prop :=
  ∃ h root, Indexed ix limit c.1 h root ∧ root.Everywhere Bound ∧ ∀ k, root.lookup k 0 = c.2 k

theorem Rooted.everywhere {h' : Heap} {root' : Tree} (hr : Rooted limit h root h' root')
    (hall : root.Everywhere Bound) :
    root'.Everywhere Bound := by
  cases hr with
  | kept => exact hall
  | made => exact ⟨fun b hb ↦ absurd hb List.not_mem_nil, fun _ ↦ trivial⟩

theorem Rooted.wf {h' : Heap} {root' : Tree} (hr : Rooted limit h root h' root') (hwf : root.WF []) : root'.WF [] := by
  cases hr with
  | kept => exact hwf
  | made => exact wf_emptyRoot _

/-- What a call does in an index that has seen inserts only: it fails and
changes no lookup, or it binds its key. -/
theorem insert_call (hx : Indexed ix limit s h root) (hall : root.Everywhere Bound) (key : Bytes) (value : UInt32) :
    ∃ s' h' root', Indexed ix limit s' h' root' ∧ root'.Everywhere Bound ∧
      ((∃ e, Returns (insert ix key value) s (.error (.error e) s') ∧ ∀ k, root'.lookup k 0 = root.lookup k 0) ∨
        Returns (insert ix key value) s (.ok () s') ∧
          ∀ k, root'.lookup k 0 = if k = key then some value else root.lookup k 0) := by
  cases hx.insert key value with
  | refused hbad hrun => exact ⟨s, h, root, hx, hall, .inl ⟨_, ⟨0, fun fuel _ ↦ hrun fuel⟩, fun _ ↦ rfl⟩⟩
  | @failed s' h' root' hgood hfree hrun hmoves hroot hfull =>
    have hsame : root'.Everywhere Bound ∧ ∀ k, root'.lookup k 0 = root.lookup k 0 := by
      rcases hroot with rfl | ⟨h₁, hrooted⟩
      · exact ⟨hall, fun _ ↦ rfl⟩
      · exact ⟨hrooted.everywhere hall, hrooted.lookup⟩
    exact ⟨s', h', root', hmoves.indexed, hsame.1, .inl ⟨_, ⟨_, hrun⟩, hsame.2⟩⟩
  | @inserted s' h₁ h₂ h' root₁ root' newOff hgood hfree hroot hleaf hins hrun hmoves =>
    have hwf₁ := hroot.wf hx.wf
    obtain ⟨hall', -⟩ := hins.everywhere bound_kept (everywhere_leaf newOff key value) (fun heq ↦ by cases heq)
      [] rfl hwf₁
      (takes_trivial key root₁ 0) (hroot.everywhere hall)
    refine ⟨s', h', root', hmoves.indexed, hall', .inr ⟨⟨_, hrun⟩, fun k ↦ ?_⟩⟩
    rw [(hins.spec hgood.1 [] rfl List.nil_prefix hwf₁).2 k, hroot.lookup]
  | stuck hgood hstuck => exact absurd hstuck (hall.not_stuck key 0)

theorem Holds.step {c c' : ArtState × (Bytes → Option UInt32)} {a : Bytes × UInt32} (hc : Holds ix limit c)
    (hstep : InsertCall ix c a c') : Holds ix limit c' := by
  obtain ⟨h, root, hx, hall, hbound⟩ := hc
  cases hstep with
  | @inserted s s' bound key value hrun =>
    obtain ⟨s₁, h', root', hx', hall', ⟨e, hfail, -⟩ | ⟨hok, hlookup⟩⟩ := insert_call hx hall key value
    · cases hrun.unique hfail
    · cases hrun.unique hok
      refine ⟨h', root', hx', hall', fun k ↦ ?_⟩
      rw [hlookup k, hbound k]
      exact (Function.update_apply bound key (some value) k).symm
  | @failed s s' bound key value e hrun =>
    obtain ⟨s₁, h', root', hx', hall', ⟨e', hfail, hlookup⟩ | ⟨hok, -⟩⟩ := insert_call hx hall key value
    · cases hrun.unique hfail
      exact ⟨h', root', hx', hall', fun k ↦ (hlookup k).trans (hbound k)⟩
    · cases hrun.unique hok

theorem Holds.search {c : ArtState × (Bytes → Option UInt32)} (hc : Holds ix limit c) (key : Bytes) {fuel : ℕ}
    (hfuel : maxDepth < fuel) : search ix key fuel c.1.mem = .ok (c.2 key) := by
  obtain ⟨h, root, hx, -, hbound⟩ := hc
  rw [hx.search key hfuel, hbound]

theorem Fresh.holds (hf : Fresh ix limit s) : Holds ix limit (s, fun _ ↦ none) :=
  ⟨_, _, hf.indexed, trivial, fun _ ↦ rfl⟩

/-- Under inserts the index is a map: every call returns, a search finds what
the last successful insert of its key has bound, and a failed insert changes
the result of no search. -/
theorem index_is_map (hf : Fresh ix limit s₀)
    (hrun : Run (InsertCall ix) (fun _ _ ↦ True) (s₀, fun _ ↦ none) (s, bound)) :
    (∀ k fuel, maxDepth < fuel → search ix k fuel s.mem = .ok (bound k)) ∧
      ∀ key value, ∃ s', Returns (insert ix key value) s (.ok () s') ∨
        ∃ e, Returns (insert ix key value) s (.error (.error e) s') ∧
          ∀ k fuel, maxDepth < fuel → search ix k fuel s'.mem = search ix k fuel s.mem := by
  have hinv : Holds ix limit (s, bound) :=
    hrun.invariant (Holds ix limit) (fun _ _ _ hc _ hstep ↦ hc.step hstep) hf.holds
  refine ⟨fun k fuel hfuel ↦ hinv.search k hfuel, fun key value ↦ ?_⟩
  obtain ⟨h, root, hx, hall, hbound⟩ := hinv
  obtain ⟨s', h', root', hx', hall', ⟨e, hfail, hlookup⟩ | ⟨hok, -⟩⟩ := insert_call hx hall key value
  · refine ⟨s', .inr ⟨e, hfail, fun k fuel hfuel ↦ ?_⟩⟩
    rw [hx'.search k hfuel, hx.search k hfuel, hlookup]
  · exact ⟨s', .inl hok⟩

def smallIndex : ArtIndex := ⟨0, 4⟩

/-- A zeroed arena of 64 bytes after `init`. -/
def smallArena : ArtState := ⟨init 4 8 (zeros 64), ⟨true, fun _ ↦ []⟩⟩

theorem smallIndex_placed : smallIndex.Placed (zeros 64).length :=
  ⟨by decide, by decide, by decide, by decide, by decide, .inl le_rfl⟩

theorem smallArena_fresh : Fresh smallIndex 64 smallArena :=
  have hlt : 8 < 2 ^ 32 := by decide
  fresh_init smallIndex_placed (by decide) (by decide) rfl hlt (by decide) (by decide) fun _ ↦ rfl

theorem smallArena_insert : ∃ s', Returns (insert smallIndex [97] 5) smallArena (.ok () s') := by
  refine ⟨match insert smallIndex [97] 5 3 smallArena with | .ok _ s => s | .error _ s => s, 3, fun fuel hfuel ↦ ?_⟩
  obtain ⟨n, rfl⟩ := Nat.exists_eq_add_of_le' hfuel
  rfl

theorem index_is_map_smallArena : ∃ s', Returns (insert smallIndex [97] 5) smallArena (.ok () s') ∧
    search smallIndex [97] 258 s'.mem = .ok (some 5) ∧ search smallIndex [98] 258 s'.mem = .ok none := by
  obtain ⟨s', hrun⟩ := smallArena_insert
  have hfound := (index_is_map smallArena_fresh ((Run.refl _).tail (a := ([97], 5)) trivial (.inserted hrun))).1
  refine ⟨s', hrun, (hfound [97] 258 (by decide)).trans ?_, (hfound [98] 258 (by decide)).trans ?_⟩
  · simp
  · simp

end TakyonDb.Art
