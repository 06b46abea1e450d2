import TakyonDb.LayoutSafety
import TakyonDb.SnapshotLoad

namespace TakyonDb.Snapshot

open Lib Layout

/-- `@memset` to zero, if the bytes are all there. -/
def fillZero (mem : Bytes) (start len : ℕ) : Option Bytes :=
  if start + len ≤ mem.length then some (overwrite mem start (zeros len)) else none

/-- `@memcpy`, if both ranges are all there. -/
def copyBytes (mem : Bytes) (dst : ℕ) (data : Bytes) (src len : ℕ) : Option Bytes :=
  if dst + len ≤ mem.length ∧ src + len ≤ data.length then some (overwrite mem dst (slice data src len))
  else none

def placeLoopChecked (pos : ℕ) (data : Bytes) : ℕ → List Extent → Bytes → Option Bytes
  | _, [], arenaMem => some arenaMem
  | p0, e :: es, arenaMem => do
    let p1 := p0 + e.len
    let blockEnd := pos + data.length
    let arenaMem ← if pos < p1 ∧ p0 < blockEnd ∧ e.len ≠ 0 then
        let start := max pos p0
        let dst := e.start + (start - p0)
        let n := min blockEnd p1 - start
        if dst + n ≤ arenaMem.length then copyBytes arenaMem dst data (start - pos) n else some arenaMem
      else some arenaMem
    if blockEnd ≤ p1 then some arenaMem else placeLoopChecked pos data p1 es arenaMem

def placePayloadChecked (ext : List Extent) (data : List Bytes) (arenaMem : Bytes) : Option Bytes :=
  data.zipIdx.foldlM (fun mem (blk, i) ↦ placeLoopChecked (i * block) blk 0 ext mem) arenaMem

def zeroLoopChecked : ℕ → List Extent → Bytes → Option Bytes
  | cursor, [], arenaMem =>
    if cursor < arenaMem.length then fillZero arenaMem cursor (arenaMem.length - cursor) else some arenaMem
  | cursor, e :: es, arenaMem => do
    let start := min e.start arenaMem.length
    let zeroed ← if cursor < start then fillZero arenaMem cursor (start - cursor) else some arenaMem
    zeroLoopChecked (max cursor (min e.stop arenaMem.length)) es zeroed

def undoRestoreChecked (ext : List Extent) (arenaMem : Bytes) : Option Bytes :=
  ext.foldlM (fun mem e ↦ if e.len ≠ 0 ∧ e.stop ≤ mem.length then fillZero mem e.start e.len else some mem)
    arenaMem

/-- `loadSnapshot` with the file as each of its two passes finds it; `none`
when it touches a byte that is not there. -/
def loadSnapshotChecked (file reread : Option Bytes) (r : Regions) (arenaMem : Bytes) :
    Option (Option SnapshotMeta × Bytes) :=
  match file with
  | none => some (none, arenaMem)
  | some bytes =>
    let blocks := blocksOf block bytes
    if blocksFor arenaMem.length + 1 < blocks.length ∨ blocks.length = 0 then some (none, arenaMem)
    else
      let last := blocks.getLastD []
      match acceptFooter last arenaMem.length r with
      | none => some (none, arenaMem)
      | some extents =>
        if blocks.length - 1 ≠ blocksFor (totalLen extents) then some (none, arenaMem)
        else
          match reread with
          | none => some (none, arenaMem)
          | some bytes' => do
            let data := (blocksOf block bytes').take (blocks.length - 1)
            let zeroed ← zeroLoopChecked 0 extents arenaMem
            let restored ← placePayloadChecked extents data zeroed
            if data.length < blocks.length - 1 ∨
                (Crc32.final (data.foldl Crc32.update Crc32.init)).toNat ≠ readU32 last footerCrcOff then
              let undone ← undoRestoreChecked extents restored
              some (none, undone)
            else some (some ⟨extents, r⟩, restored)

section Checked

variable {arenaMem data : Bytes} {e : Extent} {es : List Extent} {n pos p0 x : ℕ}

theorem placeLoopChecked_eq (pos : ℕ) (data : Bytes) (p0 : ℕ) (es : List Extent) (arenaMem : Bytes) :
    placeLoopChecked pos data p0 es arenaMem = some (placeLoop pos data p0 es arenaMem) := by
  induction es generalizing p0 arenaMem with
  | nil => rfl
  | cons e es ih =>
    have hcopy : pos < p0 + e.len ∧ p0 < pos + data.length ∧ e.len ≠ 0 →
        e.start + (max pos p0 - p0) + (min (pos + data.length) (p0 + e.len) - max pos p0) ≤
          arenaMem.length →
        copyBytes arenaMem (e.start + (max pos p0 - p0)) data (max pos p0 - pos)
            (min (pos + data.length) (p0 + e.len) - max pos p0) =
          some (overwrite arenaMem (e.start + (max pos p0 - p0))
            (slice data (max pos p0 - pos) (min (pos + data.length) (p0 + e.len) - max pos p0))) := by
      intro hhere hfit
      rw [copyBytes, if_pos ⟨hfit, by omega⟩]
    rw [placeLoopChecked, placeLoop]
    dsimp only
    split_ifs with hhere hfit hlast hlast hlast <;>
      first
      | simp only [hcopy hhere hfit, bind, Option.bind_some, ih]
      | simp only [bind, Option.bind_some, ih]

theorem placePayloadChecked_eq (es : List Extent) (data : List Bytes) (arenaMem : Bytes) :
    placePayloadChecked es data arenaMem = some (placePayload es data arenaMem) := by
  rw [placePayloadChecked, placePayload]
  induction data.zipIdx generalizing arenaMem with
  | nil => rfl
  | cons b bs ih =>
    obtain ⟨blk, i⟩ := b
    rw [List.foldlM_cons, List.foldl_cons]
    dsimp only
    rw [placeLoopChecked_eq]
    exact ih _

theorem zeroLoopChecked_eq {cursor : ℕ} (hle : cursor ≤ arenaMem.length) :
    zeroLoopChecked cursor es arenaMem = some (zeroLoop cursor es arenaMem) := by
  induction es generalizing cursor arenaMem with
  | nil =>
    rw [zeroLoopChecked, zeroLoop]
    split_ifs with hgap
    · rw [fillZero, if_pos (by omega)]
    · rw [show arenaMem.length - cursor = 0 by omega, zeros, List.replicate_zero, overwrite_nil]
  | cons e es ih =>
    have hlen : (overwrite arenaMem cursor (zeros (min e.start arenaMem.length - cursor))).length =
        arenaMem.length := length_overwrite (by rw [length_zeros]; omega)
    have hcursor : max cursor (min e.stop arenaMem.length) ≤
        (overwrite arenaMem cursor (zeros (min e.start arenaMem.length - cursor))).length := by
      rw [hlen]
      omega
    have hrest := ih hcursor
    rw [zeroLoopChecked, zeroLoop]
    dsimp only
    split_ifs with hgap
    · rw [fillZero, if_pos (by omega)]
      exact hrest
    · rw [show min e.start arenaMem.length - cursor = 0 by omega, zeros, List.replicate_zero,
        overwrite_nil] at hrest ⊢
      exact hrest

theorem undoRestoreChecked_eq (es : List Extent) (arenaMem : Bytes) :
    undoRestoreChecked es arenaMem = some (undoRestore es arenaMem) := by
  rw [undoRestoreChecked, undoRestore]
  induction es generalizing arenaMem with
  | nil => rfl
  | cons e es ih =>
    have hhere : (if e.len ≠ 0 ∧ e.stop ≤ arenaMem.length then fillZero arenaMem e.start e.len
        else some arenaMem) = some (if e.len ≠ 0 ∧ e.stop ≤ arenaMem.length then
          overwrite arenaMem e.start (zeros e.len) else arenaMem) := by
      split_ifs with hfit
      · rw [fillZero, if_pos (show e.start + e.len ≤ arenaMem.length from hfit.2)]
      · rfl
    rw [List.foldlM_cons, List.foldl_cons, hhere]
    exact ih _

/-- What the walk leaves at a cell is a byte of the block that belongs there,
or what was there; which of the two, the arena does not decide. -/
theorem getElem?_placeLoop_cases (data : Bytes) (pos p0 x : ℕ) (hin : ∀ e ∈ es, e.stop ≤ n) :
    (∃ k, (pos ≤ p0 + k ∧ p0 + k < pos + data.length) ∧ address es k = some x ∧
        ∀ arenaMem : Bytes, arenaMem.length = n → (placeLoop pos data p0 es arenaMem)[x]? = data[p0 + k - pos]?) ∨
      (∀ k, address es k = some x → ¬ (pos ≤ p0 + k ∧ p0 + k < pos + data.length)) ∧
        ∀ arenaMem : Bytes, arenaMem.length = n → (placeLoop pos data p0 es arenaMem)[x]? = arenaMem[x]? := by
  induction es generalizing p0 with
  | nil => exact .inr ⟨fun _ h ↦ (nomatch h), fun _ _ ↦ rfl⟩
  | cons e es ih =>
    have hhere := hin e List.mem_cons_self
    have hpiece : ∀ arenaMem : Bytes, arenaMem.length = n → (placePiece pos data p0 e arenaMem)[x]? =
        if (e.start ≤ x ∧ x < e.stop) ∧ pos ≤ p0 + (x - e.start) ∧ p0 + (x - e.start) < pos + data.length
        then data[p0 + (x - e.start) - pos]? else arenaMem[x]? := fun arenaMem hlen ↦
      getElem?_placePiece data pos p0 x (hlen.symm ▸ hhere)
    rw [Extent.stop] at hhere hpiece
    have hrest := ih (p0 + e.len) fun f hf ↦ hin f (List.mem_cons_of_mem _ hf)
    by_cases hlast : pos + data.length ≤ p0 + e.len
    · by_cases hput : (e.start ≤ x ∧ x < e.start + e.len) ∧ pos ≤ p0 + (x - e.start) ∧
        p0 + (x - e.start) < pos + data.length
      · refine .inl ⟨x - e.start, hput.2, address_cons.mpr (.inl ⟨by omega, by omega⟩), fun arenaMem hlen ↦ ?_⟩
        rw [placeLoop_cons, if_pos hlast, hpiece arenaMem hlen, if_pos hput]
      · refine .inr ⟨fun k hk hblock ↦ ?_, fun arenaMem hlen ↦ ?_⟩
        · rcases address_cons.mp hk with ⟨hlt, rfl⟩ | ⟨hle, -⟩
          · rw [Nat.add_sub_cancel_left] at hput
            omega
          · omega
        · rw [placeLoop_cons, if_pos hlast, hpiece arenaMem hlen, if_neg hput]
    · rcases hrest with ⟨k, hblock, hk, heq⟩ | ⟨hnone, heq⟩
      · refine .inl ⟨e.len + k, by omega, address_cons.mpr (.inr ⟨by omega, ?_⟩), fun arenaMem hlen ↦ ?_⟩
        · rw [Nat.add_sub_cancel_left, hk]
        · rw [placeLoop_cons, if_neg hlast, heq _ (length_placePiece.trans hlen), Nat.add_assoc]
      · by_cases hput : (e.start ≤ x ∧ x < e.start + e.len) ∧ pos ≤ p0 + (x - e.start) ∧
          p0 + (x - e.start) < pos + data.length
        · refine .inl ⟨x - e.start, hput.2, address_cons.mpr (.inl ⟨by omega, by omega⟩), fun arenaMem hlen ↦ ?_⟩
          rw [placeLoop_cons, if_neg hlast, heq _ (length_placePiece.trans hlen), hpiece arenaMem hlen, if_pos hput]
        · refine .inr ⟨fun k hk hblock ↦ ?_, fun arenaMem hlen ↦ ?_⟩
          · rcases address_cons.mp hk with ⟨hlt, rfl⟩ | ⟨hle, hk⟩
            · rw [Nat.add_sub_cancel_left] at hput
              omega
            · exact hnone _ hk (by omega)
          · rw [placeLoop_cons, if_neg hlast, heq _ (length_placePiece.trans hlen), hpiece arenaMem hlen,
              if_neg hput]

theorem placePayload_concat (es : List Extent) (bs : List Bytes) (b arenaMem : Bytes) :
    placePayload es (bs ++ [b]) arenaMem = placeLoop (bs.length * block) b 0 es (placePayload es bs arenaMem) := by
  simp [placePayload, placePayloadBlock, List.zipIdx_append]

theorem length_placePayload (es : List Extent) (blocks : List Bytes) (arenaMem : Bytes) :
    (placePayload es blocks arenaMem).length = arenaMem.length := by
  induction blocks using List.reverseRecOn with
  | nil => rfl
  | append_singleton bs b ih => rw [placePayload_concat, length_placeLoop, ih]

/-- The same for all the blocks: the payload bytes that were put at a cell. -/
theorem getElem?_placePayload_cases {blocks : List Bytes} (hblocks : ∀ b ∈ blocks, b.length = block)
    (hin : ∀ e ∈ es, e.stop ≤ n) (x : ℕ) :
    (∃ k < blocks.length * block, address es k = some x ∧
        ∀ arenaMem : Bytes, arenaMem.length = n → (placePayload es blocks arenaMem)[x]? = blocks.flatten[k]?) ∨
      (∀ k < blocks.length * block, address es k ≠ some x) ∧
        ∀ arenaMem : Bytes, arenaMem.length = n → (placePayload es blocks arenaMem)[x]? = arenaMem[x]? := by
  induction blocks using List.reverseRecOn with
  | nil => exact .inr ⟨fun k hk ↦ absurd hk (by simp), fun _ _ ↦ rfl⟩
  | append_singleton bs b ih =>
    have ih := ih fun c hc ↦ hblocks c (List.mem_append_left _ hc)
    have hb : b.length = block := hblocks b (by simp)
    have hflat : bs.flatten.length = bs.length * block :=
      length_flatten_of_forall fun c hc ↦ hblocks c (List.mem_append_left _ hc)
    have hlen : ∀ arenaMem : Bytes, arenaMem.length = n → (placePayload es bs arenaMem).length = n :=
      fun arenaMem hlen ↦ (length_placePayload es bs arenaMem).trans hlen
    rw [List.length_append, List.length_singleton, Nat.succ_mul, List.flatten_append]
    rcases getElem?_placeLoop_cases b (bs.length * block) 0 x hin with ⟨k, hk, haddr, heq⟩ | ⟨hnone, heq⟩
    · rw [Nat.zero_add, hb] at hk
      refine .inl ⟨k, hk.2, haddr, fun arenaMem hm ↦ ?_⟩
      rw [placePayload_concat, heq _ (hlen arenaMem hm), List.getElem?_append_right (by omega), hflat, Nat.zero_add]
      simp
    · rcases ih with ⟨k, hk, haddr, hval⟩ | ⟨hno, hval⟩
      · refine .inl ⟨k, Nat.lt_add_right block hk, haddr, fun arenaMem hm ↦ ?_⟩
        rw [placePayload_concat, heq _ (hlen arenaMem hm), hval arenaMem hm, List.getElem?_append_left (by omega)]
      · refine .inr ⟨fun k hk haddr ↦ ?_, fun arenaMem hm ↦ ?_⟩
        · by_cases hold : k < bs.length * block
          · exact hno k hold haddr
          · exact hnone k haddr (by omega)
        · rw [placePayload_concat, heq _ (hlen arenaMem hm), hval arenaMem hm]

theorem getElem?_undoRestore (hin : ∀ e ∈ es, e.stop ≤ arenaMem.length) (x : ℕ) :
    (undoRestore es arenaMem)[x]? = arenaMem[x]?.map fun b ↦ if (locate es x).isSome then 0 else b := by
  induction es generalizing arenaMem with
  | nil => simp [undoRestore, locate]
  | cons e es ih =>
    have hhere := hin e List.mem_cons_self
    have hfit : e.start + (zeros e.len).length ≤ arenaMem.length := by rwa [length_zeros]
    have hblank : (if e.len ≠ 0 ∧ e.stop ≤ arenaMem.length then overwrite arenaMem e.start (zeros e.len)
        else arenaMem) = overwrite arenaMem e.start (zeros e.len) := by
      split_ifs with h
      · rfl
      · rw [show e.len = 0 by tauto, zeros, List.replicate_zero, overwrite_nil]
    have hlen : (overwrite arenaMem e.start (zeros e.len)).length = arenaMem.length := length_overwrite hfit
    have hrest := ih fun f hf ↦ hlen.symm ▸ hin f (List.mem_cons_of_mem _ hf)
    rw [undoRestore, List.foldl_cons, hblank]
    refine hrest.trans ?_
    rw [getElem?_overwrite hfit, length_zeros, getElem?_zeros, locate]
    rw [Extent.stop] at hhere ⊢
    by_cases hx : e.start ≤ x ∧ x < e.start + e.len
    · rw [if_pos hx, if_pos hx, if_pos (by omega), List.getElem?_eq_getElem (show x < arenaMem.length by omega)]
      simp
    · rw [if_neg hx, if_neg hx, Option.isSome_map]

theorem zeroOutsideExtents_spec (hsorted : es.Pairwise fun e f ↦ e.start ≤ f.start)
    (hin : ∀ e ∈ es, e.stop ≤ arenaMem.length) (x : ℕ) :
    (zeroOutsideExtents es arenaMem)[x]? = arenaMem[x]?.map fun b ↦ if (locate es x).isSome then b else 0 := by
  rw [zeroOutsideExtents, getElem?_zeroLoop hsorted hin (Nat.zero_le _), if_neg (Nat.not_lt_zero x)]

end Checked

section Restored

variable {arenaMem : Bytes} {es : List Extent} {data : List Bytes} {x : ℕ}

theorem length_zeroLoop {cursor : ℕ} (hle : cursor ≤ arenaMem.length) :
    (zeroLoop cursor es arenaMem).length = arenaMem.length := by
  induction es generalizing cursor arenaMem with
  | nil => exact length_overwrite (by rw [length_zeros]; omega)
  | cons e es ih =>
    have hlen : (overwrite arenaMem cursor (zeros (min e.start arenaMem.length - cursor))).length =
        arenaMem.length := length_overwrite (by rw [length_zeros]; omega)
    rw [zeroLoop]
    exact (ih (by rw [hlen]; omega)).trans hlen

/-- No two bytes of the payload that differ are for one cell. -/
def Unambiguous (es : List Extent) (payload : Bytes) : Prop :=
  ∀ j k x, address es j = some x → address es k = some x → payload[j]? = payload[k]?

theorem length_restored :
    (placePayload es data (zeroOutsideExtents es arenaMem)).length = arenaMem.length := by
  have hzeroed : (zeroOutsideExtents es arenaMem).length = arenaMem.length := length_zeroLoop (Nat.zero_le _)
  exact (length_placePayload _ _ _).trans hzeroed

variable (hin : ∀ e ∈ es, e.stop ≤ arenaMem.length) (hdata : ∀ b ∈ data, b.length = block)
include hin hdata

theorem restored_outside (hsorted : es.Pairwise fun e f ↦ e.start ≤ f.start) (hx : x < arenaMem.length)
    (hout : locate es x = none) :
    (placePayload es data (zeroOutsideExtents es arenaMem))[x]? = some 0 := by
  have hzeroed : (zeroOutsideExtents es arenaMem).length = arenaMem.length := length_zeroLoop (Nat.zero_le _)
  rcases getElem?_placePayload_cases hdata hin x with ⟨k, -, hk, -⟩ | ⟨-, heq⟩
  · have hcovered := locate_isSome.mpr (exists_address.mp ⟨k, hk⟩)
    rw [hout] at hcovered
    cases hcovered
  · rw [heq _ hzeroed, zeroOutsideExtents_spec hsorted hin, List.getElem?_eq_getElem hx, hout]
    rfl

/-- Whatever was restored, the rollback leaves an empty arena. -/
theorem undoRestore_restored (hsorted : es.Pairwise fun e f ↦ e.start ≤ f.start) :
    undoRestore es (placePayload es data (zeroOutsideExtents es arenaMem)) = zeros arenaMem.length := by
  have hlen : (placePayload es data (zeroOutsideExtents es arenaMem)).length = arenaMem.length := length_restored
  apply List.ext_getElem?
  intro x
  rw [getElem?_undoRestore (hlen.symm ▸ hin), getElem?_zeros]
  by_cases hx : x < arenaMem.length
  · rw [if_pos hx]
    cases hcovered : locate es x with
    | none =>
      rw [restored_outside hin hdata hsorted hx hcovered]
      rfl
    | some j =>
      rw [List.getElem?_eq_getElem (hlen.symm ▸ hx)]
      rfl
  · rw [if_neg hx, List.getElem?_eq_none (by omega)]
    rfl

theorem gather_restored (hall : totalLen es ≤ data.length * block) :
    gather es (placePayload es data (zeroOutsideExtents es arenaMem)) = data.flatten.take (totalLen es) ↔
      Unambiguous es data.flatten := by
  have hzeroed : (zeroOutsideExtents es arenaMem).length = arenaMem.length := length_zeroLoop (Nat.zero_le _)
  have hlen : (placePayload es data (zeroOutsideExtents es arenaMem)).length = arenaMem.length := length_restored
  have hplaced : ∀ x, (∃ k < data.length * block, address es k = some x ∧
      (placePayload es data (zeroOutsideExtents es arenaMem))[x]? = data.flatten[k]?) ∨
      ∀ k < data.length * block, address es k ≠ some x := fun x ↦
    (getElem?_placePayload_cases hdata hin x).imp (fun ⟨k, hk, haddr, heq⟩ ↦ ⟨k, hk, haddr, heq _ hzeroed⟩)
      And.left
  generalize placePayload es data (zeroOutsideExtents es arenaMem) = restored at hlen hplaced ⊢
  have hread : ∀ k, (gather es restored)[k]? = (address es k).bind fun x ↦ restored[x]? :=
    getElem?_gather_address (hlen.symm ▸ hin)
  have htake : ∀ k x, address es k = some x → (data.flatten.take (totalLen es))[k]? = data.flatten[k]? := by
    intro k x hk
    rw [List.getElem?_take, if_pos (address_isSome.mp (by rw [hk]; rfl))]
  constructor
  · intro h j k x hj hk
    rw [← htake j x hj, ← htake k x hk, ← h, hread, hread, hj, hk]
  · intro h
    apply List.ext_getElem?
    intro k
    rw [hread]
    cases hk : address es k with
    | none =>
      have hend : ¬ k < totalLen es := by
        rw [← address_isSome, hk]
        exact Bool.false_ne_true
      rw [List.getElem?_take, if_neg hend]
      rfl
    | some x =>
      rw [htake k x hk, Option.bind_some]
      rcases hplaced x with ⟨j, -, hj, heq⟩ | hno
      · rw [heq, h j k x hj hk]
      · exact absurd hk (hno k ((address_isSome.mp (by rw [hk]; rfl)).trans_le hall))

/-- A restored arena owes nothing to the one before it. -/
theorem restored_eq {arenaMem' : Bytes} (hsorted : es.Pairwise fun e f ↦ e.start ≤ f.start)
    (hlen : arenaMem'.length = arenaMem.length) (hall : totalLen es ≤ data.length * block) :
    placePayload es data (zeroOutsideExtents es arenaMem') =
      placePayload es data (zeroOutsideExtents es arenaMem) := by
  have hzeroed : (zeroOutsideExtents es arenaMem).length = arenaMem.length := length_zeroLoop (Nat.zero_le _)
  have hzeroed' : (zeroOutsideExtents es arenaMem').length = arenaMem.length :=
    (length_zeroLoop (Nat.zero_le _)).trans hlen
  apply List.ext_getElem?
  intro x
  rcases getElem?_placePayload_cases hdata hin x with ⟨k, -, -, heq⟩ | ⟨hno, heq⟩
  · rw [heq _ hzeroed, heq _ hzeroed']
  · have hout : locate es x = none := by
      rw [← Option.not_isSome_iff_eq_none, locate_isSome]
      intro hcovered
      obtain ⟨k, hk⟩ := exists_address.mpr hcovered
      exact hno k ((address_isSome.mp (by rw [hk]; rfl)).trans_le hall) hk
    rw [heq _ hzeroed, heq _ hzeroed', zeroOutsideExtents_spec hsorted hin,
      zeroOutsideExtents_spec hsorted (hlen.symm ▸ hin), hout]
    by_cases hx : x < arenaMem.length
    · rw [List.getElem?_eq_getElem hx, List.getElem?_eq_getElem (hlen.symm ▸ hx)]
      rfl
    · rw [List.getElem?_eq_none (by omega), List.getElem?_eq_none (by omega)]

end Restored

section Footer

variable {n : ℕ} {r : Regions} {es : List Extent} {last : Bytes}

/-- A footer for the table `r`, and the extents of an arena of `n` bytes that
it describes. -/
structure FooterMatches (last : Bytes) (n : ℕ) (r : Regions) (es : List Extent) : Prop where
  magic : readU32 last 0 = arenaMagic
  version : readU32 last 4 = snapshotVersion
  tail : isFooterShape footerV3TailOff last = true
  layout : readU32 last footerLayoutOff = layoutVersion
  table : readFooterRegions last = some r
  valid : Layout.Valid r n
  starts : es.map Extent.start = extentStarts r
  lens : es.map Extent.len = footerLens last
  inside : ∀ e ∈ es, e.stop ≤ n
  minLens : List.Forall₂ (fun minLen e ↦ e.len = 0 ∨ minLen ≤ e.len) (extentMinLens r) es
  ascending : ascending es = true

theorem sorted_of_ascending (h : ascending es = true) : es.Pairwise fun e f ↦ e.start ≤ f.start := by
  induction es with
  | nil => exact .nil
  | cons e es ih =>
    cases es with
    | nil => exact List.pairwise_singleton _ _
    | cons f es =>
      rw [ascending, decide_eq_true_eq] at h
      have hrest := ih h.2.2
      refine List.pairwise_cons.mpr ⟨fun g hg ↦ ?_, hrest⟩
      rcases List.mem_cons.mp hg with rfl | hg
      · exact not_lt.mp h.1
      · exact (not_lt.mp h.1).trans ((List.pairwise_cons.mp hrest).1 g hg)

theorem footerExtents_inv {starts minLens lens : List ℕ} (hstarts : ∀ s ∈ starts, s ≤ n)
    (hmin : starts.length = minLens.length) (hlen : starts.length = lens.length)
    (h : footerExtents n starts minLens lens = some es) :
    es.map Extent.start = starts ∧ es.map Extent.len = lens ∧ (∀ e ∈ es, e.stop ≤ n) ∧
      List.Forall₂ (fun minLen e ↦ e.len = 0 ∨ minLen ≤ e.len) minLens es := by
  induction starts generalizing minLens lens es with
  | nil =>
    obtain rfl := List.length_eq_zero_iff.mp hmin.symm
    obtain rfl := List.length_eq_zero_iff.mp hlen.symm
    obtain rfl := Option.some.inj h
    exact ⟨rfl, rfl, fun e he ↦ (nomatch he), .nil⟩
  | cons start starts ih =>
    obtain ⟨minLen, minLens, rfl⟩ := List.exists_cons_of_length_eq_add_one hmin.symm
    obtain ⟨len, lens, rfl⟩ := List.exists_cons_of_length_eq_add_one hlen.symm
    have hstart := hstarts start List.mem_cons_self
    rw [footerExtents] at h
    cases hhere : footerExtent n start minLen len with
    | none =>
      rw [hhere] at h
      cases h
    | some e =>
      rw [hhere] at h
      obtain ⟨fs, hfs, rfl⟩ := Option.map_eq_some_iff.mp h
      obtain ⟨hs, hl, hin, hmins⟩ := ih (fun s hs ↦ hstarts s (List.mem_cons_of_mem _ hs))
        (Nat.succ.inj hmin) (Nat.succ.inj hlen) hfs
      rw [footerExtent, if_neg (by omega)] at hhere
      split_ifs at hhere with hend hshort
      obtain rfl := Option.some.inj hhere
      refine ⟨by rw [List.map_cons, hs], by rw [List.map_cons, hl], ?_, .cons (by dsimp only; omega) hmins⟩
      rw [List.forall_mem_cons]
      exact ⟨not_lt.mp hend, hin⟩

theorem extentStarts_le (h : Layout.Valid r n) : ∀ s ∈ extentStarts r, s ≤ n := by
  have hrecord := h.record
  have hrecordEnd := h.recordEnd_le
  have hartEnd := h.artEnd_le
  have hstringEnd := h.stringEnd_le
  rw [Regions.recordEnd] at hrecordEnd
  rw [Regions.artEnd] at hartEnd
  rw [Regions.stringEnd] at hstringEnd
  simp only [extentStarts, List.forall_mem_cons, List.not_mem_nil, false_implies, implies_true, and_true]
  omega

theorem acceptFooter_iff : acceptFooter last n r = some es ↔ FooterMatches last n r es := by
  constructor
  · intro h
    rw [acceptFooter] at h
    split_ifs at h with hv2 hmagic htail hlayout
    push Not at hmagic hlayout
    cases htable : readFooterRegions last with
    | none =>
      rw [htable] at h
      cases h
    | some snapRegions =>
      rw [htable] at h
      dsimp only at h
      cases hvalid : validateRegions snapRegions n with
      | error err =>
        rw [hvalid] at h
        cases h
      | ok u =>
        rw [hvalid] at h
        dsimp only at h
        split_ifs at h with hsame
        obtain rfl := not_not.mp hsame
        have hr := (valid_iff snapRegions n).mp hvalid
        obtain ⟨hextents, hasc⟩ := Option.filter_eq_some_iff.mp h
        obtain ⟨hstarts, hlens, hin, hmins⟩ := footerExtents_inv (extentStarts_le hr) (by rfl) (by rfl) hextents
        exact ⟨hmagic.1, hmagic.2, by simpa using htail, hlayout, htable, hr, hstarts, hlens, hin, hmins, hasc⟩
  · intro h
    have hextents := footerExtents_eq_some h.inside h.minLens
    rw [h.starts, h.lens] at hextents
    rw [acceptFooter, h.version, h.magic, h.layout, if_neg (by simp [contiguousV2Version]), if_neg (by simp),
      if_neg (by simp [h.tail]), if_neg (by simp), h.table]
    simp only [(valid_iff r n).mpr h.valid, ne_eq, not_true, if_false]
    rw [extentsFromFooter, hextents, Option.filter_some, if_pos h.ascending]

end Footer

/-- A snapshot file for an arena of `n` bytes whose footer, length and
checksum agree. -/
structure Matches (file : Bytes) (n : ℕ) (r : Regions) (es : List Extent) : Prop where
  few : (blocksOf block file).length ≤ blocksFor n + 1
  blocks : (blocksOf block file).length = blocksFor (totalLen es) + 1
  footer : FooterMatches ((blocksOf block file).getLastD []) n r es
  crc : (Crc32.final ((blocksOf block file).dropLast.foldl Crc32.update Crc32.init)).toNat =
    readU32 ((blocksOf block file).getLastD []) footerCrcOff

def payloadOf (file : Bytes) : Bytes := (blocksOf block file).dropLast.flatten

/-- Every access is inside, and the snapshot is restored, with nothing
else, or nothing is left of it. -/
def AllOrNothing (file reread : Option Bytes) (r : Regions) (arenaMem : Bytes) : Prop :=
  ∃ loaded after, loadSnapshotChecked file reread r arenaMem = some (loaded, after) ∧
    after.length = arenaMem.length ∧
    (loaded = none → after = arenaMem ∨ after = zeros arenaMem.length) ∧
    ∀ m, loaded = some m → ∃ bytes, file = some bytes ∧ Matches bytes arenaMem.length r m.extents ∧
      m.regions = r ∧ gather m.extents after = (payloadOf bytes).take (totalLen m.extents) ∧
      ∀ x < arenaMem.length, locate m.extents x = none → after[x]? = some 0

/-- The second pass finds the file as it was, cut off somewhere, or gone. -/
def Shrinks (file reread : Option Bytes) : Prop := ∀ now ∈ reread, ∃ before ∈ file, now <+: before

/-- The second pass finds all the blocks that the first one counted. -/
def Rereads (file : Bytes) (reread : Option Bytes) : Prop :=
  ∃ now ∈ reread, (blocksOf block file).length - 1 ≤ (blocksOf block now).length

section Twice

variable {file reread : Option Bytes} {r : Regions} {arenaMem : Bytes}

/-- What remains once the footer is accepted. -/
theorem loadSnapshotChecked_accepted {bytes now : Bytes} {es : List Extent}
    (hfew : (blocksOf block bytes).length ≤ blocksFor arenaMem.length + 1)
    (hblocks : (blocksOf block bytes).length = blocksFor (totalLen es) + 1)
    (hfooter : FooterMatches ((blocksOf block bytes).getLastD []) arenaMem.length r es)
    (hnow : now <+: bytes) :
    loadSnapshotChecked (some bytes) (some now) r arenaMem =
      if (blocksOf block now).length < (blocksOf block bytes).length - 1 ∨
          (Crc32.final ((blocksOf block bytes).dropLast.foldl Crc32.update Crc32.init)).toNat ≠
            readU32 ((blocksOf block bytes).getLastD []) footerCrcOff then
        some (none, zeros arenaMem.length)
      else some (some ⟨es, r⟩, placePayload es (blocksOf block bytes).dropLast
        (zeroOutsideExtents es arenaMem)) := by
  have hcut := blocksOf_prefix block hnow
  have hsize : ∀ b ∈ (blocksOf block now).take ((blocksOf block bytes).length - 1), b.length = block :=
    fun b hb ↦ length_of_mem_blocksOf (List.mem_of_mem_take hb)
  have hundo := undoRestore_restored hfooter.inside hsize (sorted_of_ascending hfooter.ascending)
  have hzero : zeroLoopChecked 0 es arenaMem = some (zeroOutsideExtents es arenaMem) :=
    zeroLoopChecked_eq (Nat.zero_le _)
  rw [loadSnapshotChecked]
  dsimp only
  rw [if_neg (by omega), acceptFooter_iff.mpr hfooter]
  dsimp only
  rw [if_neg (by omega)]
  simp only [hzero, placePayloadChecked_eq, undoRestoreChecked_eq, bind, Option.bind_some, hundo]
  by_cases hshort : (blocksOf block now).length < (blocksOf block bytes).length - 1
  · rw [if_pos (.inl (by rw [List.length_take]; omega)), if_pos (.inl hshort)]
  · have hdata : (blocksOf block now).take ((blocksOf block bytes).length - 1) =
        (blocksOf block bytes).dropLast := by
      obtain ⟨rest, hrest⟩ := hcut
      rw [List.dropLast_eq_take, ← hrest, List.take_append_of_le_length (by rw [hrest]; omega)]
    rw [hdata]
    simp only [List.length_dropLast, lt_irrefl, false_or, hshort]

/-- Without a file that matches in both passes, the arena is left alone or
empty. -/
theorem loadSnapshotChecked_refused (r : Regions) (arenaMem : Bytes) (hshrinks : Shrinks file reread) :
    (∃ bytes es, file = some bytes ∧ Matches bytes arenaMem.length r es ∧ Rereads bytes reread) ∨
      loadSnapshotChecked file reread r arenaMem = some (none, arenaMem) ∨
      loadSnapshotChecked file reread r arenaMem = some (none, zeros arenaMem.length) := by
  cases file with
  | none => exact .inr (.inl rfl)
  | some bytes =>
    by_cases hsize : blocksFor arenaMem.length + 1 < (blocksOf block bytes).length ∨
        (blocksOf block bytes).length = 0
    · refine .inr (.inl ?_)
      rw [loadSnapshotChecked]
      exact if_pos hsize
    cases haccept : acceptFooter ((blocksOf block bytes).getLastD []) arenaMem.length r with
    | none =>
      refine .inr (.inl ?_)
      rw [loadSnapshotChecked]
      dsimp only
      rw [if_neg hsize, haccept]
    | some es =>
      by_cases hcount : (blocksOf block bytes).length - 1 = blocksFor (totalLen es)
      · cases reread with
        | none =>
          refine .inr (.inl ?_)
          rw [loadSnapshotChecked]
          dsimp only
          rw [if_neg hsize, haccept]
          dsimp only
          rw [if_neg (not_not.mpr hcount)]
        | some now =>
          obtain ⟨_, ⟨⟩, hnow⟩ := hshrinks now rfl
          have hfooter := acceptFooter_iff.mp haccept
          rw [loadSnapshotChecked_accepted (by omega) (by omega) hfooter hnow]
          split_ifs with hbad
          · exact .inr (.inr rfl)
          · push Not at hbad
            exact .inl ⟨bytes, es, rfl, ⟨by omega, by omega, hfooter, hbad.2⟩, now, rfl, hbad.1⟩
      · refine .inr (.inl ?_)
        rw [loadSnapshotChecked]
        dsimp only
        rw [if_neg hsize, haccept]
        exact if_pos hcount

theorem loadSnapshotChecked_matches {bytes : Bytes} {es : List Extent} (hshrinks : Shrinks (some bytes) reread)
    (hmatches : Matches bytes arenaMem.length r es) (hreread : Rereads bytes reread) :
    loadSnapshotChecked (some bytes) reread r arenaMem = some (some ⟨es, r⟩,
      placePayload es (blocksOf block bytes).dropLast (zeroOutsideExtents es arenaMem)) := by
  obtain ⟨now, rfl, hlong⟩ := hreread
  obtain ⟨_, ⟨⟩, hnow⟩ := hshrinks now rfl
  rw [loadSnapshotChecked_accepted hmatches.few hmatches.blocks hmatches.footer hnow,
    if_neg (not_or.mpr ⟨not_lt.mpr hlong, not_not.mpr hmatches.crc⟩)]

/-- A file that both passes find the same is loaded as `loadSnapshot` does. -/
theorem loadSnapshotChecked_self (file : Option Bytes) :
    loadSnapshotChecked file file r arenaMem = some (loadSnapshot file r arenaMem) := by
  cases file with
  | none => rfl
  | some bytes =>
    have hdata : (blocksOf block bytes).take ((blocksOf block bytes).length - 1) =
        (blocksOf block bytes).dropLast := List.dropLast_eq_take.symm
    have hzero : ∀ es, zeroLoopChecked 0 es arenaMem = some (zeroOutsideExtents es arenaMem) :=
      fun es ↦ zeroLoopChecked_eq (Nat.zero_le _)
    rw [loadSnapshotChecked, loadSnapshot]
    dsimp only
    by_cases hsize : blocksFor arenaMem.length + 1 < (blocksOf block bytes).length ∨
        (blocksOf block bytes).length = 0
    · rw [if_pos hsize, if_pos hsize]
    rw [if_neg hsize, if_neg hsize]
    cases acceptFooter ((blocksOf block bytes).getLastD []) arenaMem.length r with
    | none => rfl
    | some es =>
      simp only [hdata, hzero, placePayloadChecked_eq, undoRestoreChecked_eq, bind, Option.bind_some,
        List.length_dropLast, lt_irrefl, false_or]
      split_ifs <;> rfl

theorem Matches.restorable {bytes : Bytes} {es : List Extent} {n : ℕ} (h : Matches bytes n r es) :
    (∀ b ∈ (blocksOf block bytes).dropLast, b.length = block) ∧
      totalLen es ≤ (blocksOf block bytes).dropLast.length * block := by
  refine ⟨fun b hb ↦ length_of_mem_blocksOf (List.mem_of_mem_dropLast hb), ?_⟩
  rw [List.length_dropLast, h.blocks]
  simp only [blocksFor, block]
  omega

/-- A file that gets past every check but the one on its checksum. -/
structure Accepts (file : Bytes) (n : ℕ) (r : Regions) (es : List Extent) : Prop where
  few : (blocksOf block file).length ≤ blocksFor n + 1
  blocks : (blocksOf block file).length = blocksFor (totalLen es) + 1
  footer : FooterMatches ((blocksOf block file).getLastD []) n r es

def ChecksumAgrees (file : Bytes) : Prop :=
  (Crc32.final ((blocksOf block file).dropLast.foldl Crc32.update Crc32.init)).toNat =
    readU32 ((blocksOf block file).getLastD []) footerCrcOff

theorem Accepts.restorable {bytes : Bytes} {es : List Extent} {n : ℕ} (h : Accepts bytes n r es) :
    (∀ b ∈ (blocksOf block bytes).dropLast, b.length = block) ∧
      totalLen es ≤ (blocksOf block bytes).dropLast.length * block := by
  refine ⟨fun b hb ↦ length_of_mem_blocksOf (List.mem_of_mem_dropLast hb), ?_⟩
  rw [List.length_dropLast, h.blocks]
  simp only [blocksFor, block]
  omega

theorem loadSnapshot_refused {n : ℕ} (hno : ∀ bytes es, file = some bytes → ¬ Accepts bytes n r es) {mem : Bytes}
    (hlen : mem.length = n) : loadSnapshot file r mem = (none, mem) := by
  subst hlen
  cases file with
  | none => rfl
  | some bytes =>
    rw [loadSnapshot]
    dsimp only
    by_cases hsize : blocksFor mem.length + 1 < (blocksOf block bytes).length ∨ (blocksOf block bytes).length = 0
    · rw [if_pos hsize]
    rw [if_neg hsize]
    cases haccept : acceptFooter ((blocksOf block bytes).getLastD []) mem.length r with
    | none => rfl
    | some es =>
      have hcount : (blocksOf block bytes).length - 1 ≠ blocksFor (totalLen es) := fun heq ↦
        hno bytes es rfl ⟨by omega, by omega, acceptFooter_iff.mp haccept⟩
      exact if_pos hcount

/-- What is restored of an accepted file is the same for every arena. -/
theorem loadSnapshot_accepted {bytes : Bytes} {es : List Extent} {n : ℕ} (h : Accepts bytes n r es) {mem : Bytes}
    (hlen : mem.length = n) :
    (ChecksumAgrees bytes → loadSnapshot (some bytes) r mem =
        (some ⟨es, r⟩, placePayload es (blocksOf block bytes).dropLast (zeroOutsideExtents es (zeros n)))) ∧
      (¬ ChecksumAgrees bytes → loadSnapshot (some bytes) r mem = (none, zeros n)) := by
  obtain ⟨hdata, hall⟩ := h.restorable
  have hsorted := sorted_of_ascending h.footer.ascending
  have hzeros : (zeros n).length = n := length_zeros n
  have hsame := restored_eq (hzeros.symm ▸ h.footer.inside) hdata hsorted (hlen.trans hzeros.symm) hall
  have hundo := undoRestore_restored (hlen.symm ▸ h.footer.inside) hdata hsorted
  have hblocks := h.blocks
  have hfew := h.few
  rw [hlen] at hundo
  rw [loadSnapshot, hlen]
  dsimp only
  rw [if_neg (by omega), acceptFooter_iff.mpr h.footer]
  dsimp only
  rw [if_neg (by omega), hundo, hsame]
  exact ⟨fun hcrc ↦ if_neg (not_not.mpr hcrc), fun hcrc ↦ if_pos hcrc⟩

/-- A file is refused before it is read, or the arena is blanked, or what is
restored is the same for every arena. -/
theorem loadSnapshot_cases (file : Option Bytes) (r : Regions) (n : ℕ) :
    (∀ mem : Bytes, mem.length = n → loadSnapshot file r mem = (none, mem)) ∨
      (∀ mem : Bytes, mem.length = n → loadSnapshot file r mem = (none, zeros n)) ∨
      ∃ bytes es, file = some bytes ∧ Accepts bytes n r es ∧ ∀ mem : Bytes, mem.length = n →
        loadSnapshot file r mem = (some ⟨es, r⟩,
          placePayload es (blocksOf block bytes).dropLast (zeroOutsideExtents es (zeros n))) := by
  by_cases hsome : ∃ bytes es, file = some bytes ∧ Accepts bytes n r es
  · obtain ⟨bytes, es, rfl, haccepts⟩ := hsome
    by_cases hcrc : ChecksumAgrees bytes
    · exact .inr (.inr ⟨bytes, es, rfl, haccepts, fun mem hlen ↦ (loadSnapshot_accepted haccepts hlen).1 hcrc⟩)
    · exact .inr (.inl fun mem hlen ↦ (loadSnapshot_accepted haccepts hlen).2 hcrc)
  · exact .inl fun mem hlen ↦
      loadSnapshot_refused (fun bytes es hfile haccepts ↦ hsome ⟨bytes, es, hfile, haccepts⟩) hlen

theorem AllOrNothing.unambiguous {bytes : Bytes} {es : List Extent} (hshrinks : Shrinks (some bytes) reread)
    (h : AllOrNothing (some bytes) reread r arenaMem) (hmatches : Matches bytes arenaMem.length r es)
    (hreread : Rereads bytes reread) : Unambiguous es (payloadOf bytes) := by
  obtain ⟨loaded, after, hload, -, -, hsome⟩ := h
  obtain ⟨hdata, hall⟩ := hmatches.restorable
  rw [loadSnapshotChecked_matches hshrinks hmatches hreread] at hload
  obtain ⟨rfl, rfl⟩ := Prod.mk.inj (Option.some.inj hload)
  obtain ⟨_, ⟨⟩, -, -, hgather, -⟩ := hsome _ rfl
  exact (gather_restored hmatches.footer.inside hdata hall).mp hgather

/-- Loading is all or nothing exactly when no accepted footer puts two
different bytes at one cell. -/
theorem allOrNothing_iff (hshrinks : Shrinks file reread) :
    AllOrNothing file reread r arenaMem ↔
      ∀ bytes es, file = some bytes → Matches bytes arenaMem.length r es → Rereads bytes reread →
        Unambiguous es (payloadOf bytes) := by
  constructor
  · rintro h bytes es rfl hmatches hreread
    exact h.unambiguous hshrinks hmatches hreread
  · intro hclear
    rcases loadSnapshotChecked_refused r arenaMem hshrinks with
      ⟨bytes, es, rfl, hmatches, hreread⟩ | hload | hload
    · obtain ⟨hdata, hall⟩ := hmatches.restorable
      have hin := hmatches.footer.inside
      refine ⟨_, _, loadSnapshotChecked_matches hshrinks hmatches hreread, length_restored,
        fun h ↦ (nomatch h), ?_⟩
      rintro m ⟨⟩
      refine ⟨bytes, rfl, hmatches, rfl, ?_, fun x hx hout ↦ ?_⟩
      · exact (gather_restored hin hdata hall).mpr (hclear bytes es rfl hmatches hreread)
      · exact restored_outside hin hdata (sorted_of_ascending hmatches.footer.ascending) hx hout
    · exact ⟨none, arenaMem, hload, rfl, fun _ ↦ .inl rfl, fun m hm ↦ (nomatch hm)⟩
    · exact ⟨none, _, hload, length_zeros _, fun _ ↦ .inr rfl, fun m hm ↦ (nomatch hm)⟩

end Twice

/-- The index has no extent here, and the records run four bytes into the
strings. -/
def overlapExtents : List Extent := [⟨0, 0⟩, ⟨2624, 54724⟩, ⟨49152, 0⟩, ⟨57344, 4⟩]

/-- All zero but for the first byte of the strings. -/
def overlapBlocks : List Bytes :=
  List.replicate 13 (zeros block) ++ [zeros 1476 ++ 1 :: zeros 2619]

def overlapFile : Bytes :=
  overlapBlocks.flatten ++ footer (Crc32.final (overlapBlocks.foldl Crc32.update Crc32.init)) overlapExtents
    smallRegions

theorem blocksOf_overlapFile : blocksOf block overlapFile = overlapBlocks ++
    [footer (Crc32.final (overlapBlocks.foldl Crc32.update Crc32.init)) overlapExtents smallRegions] := by
  have hblocks : ∀ b ∈ overlapBlocks ++
      [footer (Crc32.final (overlapBlocks.foldl Crc32.update Crc32.init)) overlapExtents smallRegions],
      b.length = block := by
    intro b hb
    rcases List.mem_append.mp hb with hb | hb
    · rcases List.mem_append.mp hb with hb | hb
      · rw [List.eq_of_mem_replicate hb, length_zeros]
      · rw [List.mem_singleton.mp hb, List.length_append, List.length_cons, length_zeros, length_zeros]
    · rw [List.mem_singleton.mp hb, length_footer _ rfl]
  rw [overlapFile, ← blocksOf_append hblocks (show ([] : Bytes).length < block by decide)]
  simp

theorem overlapFile_matches : Matches overlapFile 65536 smallRegions overlapExtents := by
  have hcount : overlapBlocks.length = 14 := by simp [overlapBlocks]
  have hlast : (blocksOf block overlapFile).getLastD [] =
      footer (Crc32.final (overlapBlocks.foldl Crc32.update Crc32.init)) overlapExtents smallRegions := by
    rw [blocksOf_overlapFile, List.getLastD_concat]
  have hlen : (blocksOf block overlapFile).length = 15 := by
    rw [blocksOf_overlapFile, List.length_append, hcount, List.length_singleton]
  refine ⟨by rw [hlen]; decide, by rw [hlen]; decide, ?_, ?_⟩
  · rw [hlast, ← acceptFooter_iff, acceptFooter_footer _ rfl smallRegions_valid,
      extentsFromFooter_footer _ (by decide) (by decide) ?_ (by decide), if_pos (by decide)]
    refine .cons (.inl rfl) (.cons (.inr (by decide)) (.cons (.inl rfl) (.cons (.inr (by decide)) .nil)))
  · rw [hlast, readU32_footer_crc, blocksOf_overlapFile, List.dropLast_concat]

theorem overlapFile_not_allOrNothing :
    ¬ AllOrNothing (some overlapFile) (some overlapFile) smallRegions (zeros 65536) := by
  intro h
  have hshrinks : Shrinks (some overlapFile) (some overlapFile) :=
    fun now hnow ↦ ⟨now, hnow, List.prefix_rfl⟩
  have hmatches : Matches overlapFile (zeros 65536).length smallRegions overlapExtents := by
    rw [length_zeros]
    exact overlapFile_matches
  have hclear := h.unambiguous hshrinks hmatches ⟨overlapFile, rfl, Nat.sub_le _ _⟩
  have hfront : (List.replicate 13 (zeros block)).flatten = zeros (13 * block) := List.flatten_replicate_replicate
  have hpayload : payloadOf overlapFile = zeros (13 * block) ++ (zeros 1476 ++ 1 :: zeros 2619) := by
    rw [payloadOf, blocksOf_overlapFile, List.dropLast_concat, overlapBlocks, List.flatten_append, hfront,
      List.flatten_singleton]
  have hzero : (payloadOf overlapFile)[54720]? = some 0 := by
    rw [hpayload, List.getElem?_append_right (by rw [length_zeros]; decide), length_zeros,
      List.getElem?_append_left (by rw [length_zeros]; decide), getElem?_zeros, if_pos (by decide)]
  have hone : (payloadOf overlapFile)[54724]? = some 1 := by
    rw [hpayload, List.getElem?_append_right (by rw [length_zeros]; decide), length_zeros,
      List.getElem?_append_right (by rw [length_zeros]; decide), length_zeros]
    rfl
  have hsame := hclear 54720 54724 57344 (by rfl) (by rfl)
  rw [hzero, hone] at hsame
  cases hsame

/-- The extents of a written snapshot leave no cell to two bytes. -/
theorem unambiguous_snapshotFile {mem : Bytes} {r : Regions} {es : List Extent} (hr : Layout.Valid r mem.length)
    (h : Loadable r mem.length (snapshotExtents mem r)) (hmatches : Matches (snapshotFile mem r) mem.length r es) :
    Unambiguous es (payloadOf (snapshotFile mem r)) := by
  have hn : mem.length < 2 ^ 32 := hr.arena ▸ r.arenaBytes.toNat_lt
  have haccept := acceptFooter_iff.mpr hmatches.footer
  rw [blocksOf_snapshotFile h.packed.inside, List.getLastD_concat, acceptFooter_footer _ h.length_eq hr,
    h.extentsFromFooter _ hn] at haccept
  obtain rfl := Option.some.inj haccept
  intro j k x hj hk
  rw [h.packed.address_inj hj hk]

/-- A record and a string, and the words behind which they lie. -/
def recordAndKey (mem : Bytes) : Bytes :=
  writeU32 (writeU32 (overwrite (overwrite mem 4096 [1, 2, 3, 4, 5, 6, 7, 8]) 57352 [107, 101, 121]) 2624 4104) 57344 57355

theorem snapshotExtents_recordAndKey {mem : Bytes} (hlen : mem.length = 65536) (hart : readU32 mem 49156 = 0) :
    (recordAndKey mem).length = 65536 ∧
      snapshotExtents (recordAndKey mem) smallRegions = [⟨0, 1024⟩, ⟨2624, 1480⟩, ⟨49152, 0⟩, ⟨57344, 11⟩] := by
  have hrecord : (overwrite mem 4096 [1, 2, 3, 4, 5, 6, 7, 8]).length = 65536 := by
    rw [length_overwrite (by rw [hlen]; decide), hlen]
  have hart' : readU32 (overwrite mem 4096 [1, 2, 3, 4, 5, 6, 7, 8]) 49156 = 0 := by
    rw [readU32_overwrite_of_disjoint (by rw [hlen]; decide) (by decide), hart]
  rw [recordAndKey]
  generalize overwrite mem 4096 [1, 2, 3, 4, 5, 6, 7, 8] = m₁ at *
  have hstring : (overwrite m₁ 57352 [107, 101, 121]).length = 65536 := by
    rw [length_overwrite (by rw [hrecord]; decide), hrecord]
  have hindex : readU32 (overwrite m₁ 57352 [107, 101, 121]) 49156 = 0 := by
    rw [readU32_overwrite_of_disjoint (by rw [hrecord]; decide) (by decide), hart']
  generalize overwrite m₁ 57352 [107, 101, 121] = m₂ at *
  have hlen₃ : (writeU32 m₂ 2624 4104).length = 65536 := by rw [length_writeU32 (by omega), hstring]
  have hindex₃ : readU32 (writeU32 m₂ 2624 4104) 49156 = 0 := by
    rw [readU32_writeU32_of_disjoint (by omega) _ (by decide), hindex]
  have hrecord₃ : readU32 (writeU32 m₂ 2624 4104) 2624 = 4104 := readU32_writeU32_self (by omega) (by decide)
  generalize writeU32 m₂ 2624 4104 = m₃ at *
  have hlen₄ : (writeU32 m₃ 57344 57355).length = 65536 := by rw [length_writeU32 (by omega), hlen₃]
  have hindex₄ : readU32 (writeU32 m₃ 57344 57355) 49156 = 0 := by
    rw [readU32_writeU32_of_disjoint (by omega) _ (by decide), hindex₃]
  have hrecord₄ : readU32 (writeU32 m₃ 57344 57355) 2624 = 4104 := by
    rw [readU32_writeU32_of_disjoint (by omega) _ (by decide), hrecord₃]
  have hstring₄ : readU32 (writeU32 m₃ 57344 57355) 57344 = 57355 := readU32_writeU32_self (by omega) (by decide)
  generalize writeU32 m₃ 57344 57355 = m₄ at *
  refine ⟨hlen₄, ?_⟩
  simp only [snapshotExtents, recordExtent, artExtent, stringExtent, bumpExtent, readBump, hlen₄,
    show smallRegions.recordBumpOffset = 2624 from rfl, show smallRegions.artBumpOffset = 49156 from rfl,
    show smallRegions.stringStart.toNat = 57344 from rfl, show smallRegions.artRoot.toNat = 49152 from rfl,
    hindex₄, hrecord₄, hstring₄]
  decide

/-- What was written is restored over whatever the arena holds. -/
theorem recordAndKey_allOrNothing :
    AllOrNothing (some (snapshotFile (recordAndKey (zeros 65536)) smallRegions))
      (some (snapshotFile (recordAndKey (zeros 65536)) smallRegions)) smallRegions (List.replicate 65536 255) := by
  obtain ⟨hlen, hextents⟩ := snapshotExtents_recordAndKey (length_zeros 65536) (readU32_zeros (by decide))
  have htarget : (List.replicate 65536 (255 : UInt8)).length = 65536 := List.length_replicate
  generalize recordAndKey (zeros 65536) = mem at *
  generalize List.replicate 65536 (255 : UInt8) = target at *
  have hvalid : Layout.Valid smallRegions mem.length := hlen.symm ▸ smallRegions_valid
  have hloadable : Loadable smallRegions mem.length (snapshotExtents mem smallRegions) := by
    rw [hextents, hlen]
    exact ⟨by decide, ⟨by decide, by decide⟩, .cons (.inr (by decide)) (.cons (.inr (by decide))
      (.cons (.inl rfl) (.cons (.inr (by decide)) .nil)))⟩
  refine (allOrNothing_iff fun now hnow ↦ ⟨now, hnow, List.prefix_rfl⟩).mpr ?_
  rintro bytes es ⟨⟩ hmatches -
  rw [htarget, ← hlen] at hmatches
  exact unambiguous_snapshotFile hvalid hloadable hmatches

end TakyonDb.Snapshot
