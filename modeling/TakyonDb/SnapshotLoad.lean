import TakyonDb.Snapshot

namespace TakyonDb.Snapshot

open Lib Layout

structure SnapshotMeta where
  extents : List Extent
  regions : Regions
deriving DecidableEq

def blocksFor (byteLen : ℕ) : ℕ := (byteLen + 4095) / 4096

/-- Zeros from the first byte behind the fields of a footer version on. -/
def isFooterShape (tailOff : ℕ) (last : Bytes) : Bool := (last.drop tailOff).all (· == 0)

def readFooterRegions (footer : Bytes) : Option Regions :=
  let word i := UInt32.ofNat (readU32 footer (footerRegionsOff + 4 * i))
  if footer.length < footerV3TailOff then none
  else some ⟨word 0, word 1, word 2, word 3, word 4, word 5, word 6, word 7⟩

def footerExtent (arenaLen start minLen len : ℕ) : Option Extent :=
  if arenaLen < start then some ⟨start, 0⟩
  else if arenaLen < start + len then none
  else if len ≠ 0 ∧ len < minLen then none
  else some ⟨start, len⟩

def footerExtents (arenaLen : ℕ) : List ℕ → List ℕ → List ℕ → Option (List Extent)
  | start :: starts, minLen :: minLens, len :: lens =>
    match footerExtent arenaLen start minLen len with
    | some e => (footerExtents arenaLen starts minLens lens).map (e :: ·)
    | none => none
  | _, _, _ => some []

/-- Each extent against the one before it. -/
def ascending : List Extent → Bool
  | earlier :: e :: es =>
    ¬ e.start < earlier.start ∧ ¬ (e.len ≠ 0 ∧ earlier.len ≠ 0 ∧ e.start < earlier.stop) ∧
      ascending (e :: es)
  | _ => true

def footerLens (footer : Bytes) : List ℕ :=
  (List.range extentCount).map fun i ↦ readU32 footer (footerFirstLenOff + 4 * i)

def extentsFromFooter (footer : Bytes) (arenaLen : ℕ) (r : Regions) : Option (List Extent) :=
  (footerExtents arenaLen (extentStarts r) (extentMinLens r) (footerLens footer)).filter ascending

/-- The checks that a footer has to pass before anything is restored. -/
def acceptFooter (last : Bytes) (arenaLen : ℕ) (r : Regions) : Option (List Extent) :=
  if readU32 last 4 = contiguousV2Version ∧ isFooterShape footerV2TailOff last then none
  else if readU32 last 0 ≠ arenaMagic ∨ readU32 last 4 ≠ snapshotVersion then none
  else if ¬ isFooterShape footerV3TailOff last then none
  else if readU32 last footerLayoutOff ≠ layoutVersion then none
  else
    match readFooterRegions last with
    | none => none
    | some snapRegions =>
      match validateRegions snapRegions arenaLen with
      | .error _ => none
      | .ok _ => if snapRegions ≠ r then none else extentsFromFooter last arenaLen r

/-- The mirror image of `renderLoop`. -/
def placeLoop (pos : ℕ) (data : Bytes) : ℕ → List Extent → Bytes → Bytes
  | _, [], arenaMem => arenaMem
  | p0, e :: es, arenaMem =>
    let p1 := p0 + e.len
    let blockEnd := pos + data.length
    let arenaMem := if pos < p1 ∧ p0 < blockEnd ∧ e.len ≠ 0 then
        let start := max pos p0
        let dst := e.start + (start - p0)
        let n := min blockEnd p1 - start
        if dst + n ≤ arenaMem.length then overwrite arenaMem dst (slice data (start - pos) n)
        else arenaMem
      else arenaMem
    if blockEnd ≤ p1 then arenaMem else placeLoop pos data p1 es arenaMem

def placePayloadBlock (ext : List Extent) (pos : ℕ) (data arenaMem : Bytes) : Bytes :=
  placeLoop pos data 0 ext arenaMem

/-- Blanks the gaps between the extents, from `cursor` on. -/
def zeroLoop : ℕ → List Extent → Bytes → Bytes
  | cursor, [], arenaMem => overwrite arenaMem cursor (zeros (arenaMem.length - cursor))
  | cursor, e :: es, arenaMem =>
    let start := min e.start arenaMem.length
    zeroLoop (max cursor (min e.stop arenaMem.length)) es
      (overwrite arenaMem cursor (zeros (start - cursor)))

def zeroOutsideExtents (ext : List Extent) (arenaMem : Bytes) : Bytes := zeroLoop 0 ext arenaMem

def undoRestore (ext : List Extent) (arenaMem : Bytes) : Bytes :=
  ext.foldl (fun mem e ↦ if e.len ≠ 0 ∧ e.stop ≤ mem.length then overwrite mem e.start (zeros e.len)
    else mem) arenaMem

def placePayload (ext : List Extent) (data : List Bytes) (arenaMem : Bytes) : Bytes :=
  data.zipIdx.foldl (fun mem (blk, i) ↦ placePayloadBlock ext (i * block) blk mem) arenaMem

/-- The snapshot of the log, if it has a valid one, and the arena
afterwards. -/
def loadSnapshot (file : Option Bytes) (r : Regions) (arenaMem : Bytes) : Option SnapshotMeta × Bytes :=
  match file with
  | none => (none, arenaMem)
  | some bytes =>
    let blocks := blocksOf block bytes
    if blocksFor arenaMem.length + 1 < blocks.length ∨ blocks.length = 0 then (none, arenaMem)
    else
      let last := blocks.getLastD []
      match acceptFooter last arenaMem.length r with
      | none => (none, arenaMem)
      | some extents =>
        if blocks.length - 1 ≠ blocksFor (totalLen extents) then (none, arenaMem)
        else
          let data := blocks.dropLast
          let restored := placePayload extents data (zeroOutsideExtents extents arenaMem)
          if (Crc32.final (data.foldl Crc32.update Crc32.init)).toNat ≠ readU32 last footerCrcOff then
            (none, undoRestore extents restored)
          else (some ⟨extents, r⟩, restored)

variable {arenaMem data : Bytes} {e : Extent} {es : List Extent} {n pos p0 x : ℕ}

/-- What the walk restores of one extent. -/
def placePiece (pos : ℕ) (data : Bytes) (p0 : ℕ) (e : Extent) (arenaMem : Bytes) : Bytes :=
  if pos < p0 + e.len ∧ p0 < pos + data.length ∧ e.len ≠ 0 then
    if e.start + (max pos p0 - p0) + (min (pos + data.length) (p0 + e.len) - max pos p0) ≤
        arenaMem.length then
      overwrite arenaMem (e.start + (max pos p0 - p0))
        (slice data (max pos p0 - pos) (min (pos + data.length) (p0 + e.len) - max pos p0))
    else arenaMem
  else arenaMem

theorem placeLoop_cons (pos : ℕ) (data : Bytes) (p0 : ℕ) (e : Extent) (es : List Extent) (arenaMem : Bytes) :
    placeLoop pos data p0 (e :: es) arenaMem =
      if pos + data.length ≤ p0 + e.len then placePiece pos data p0 e arenaMem
      else placeLoop pos data (p0 + e.len) es (placePiece pos data p0 e arenaMem) := rfl

@[simp] theorem length_placePiece : (placePiece pos data p0 e arenaMem).length = arenaMem.length := by
  rw [placePiece]
  split_ifs with hpiece hfit
  · have hlen : (slice data (max pos p0 - pos)
        (min (pos + data.length) (p0 + e.len) - max pos p0)).length =
        min (pos + data.length) (p0 + e.len) - max pos p0 := length_slice (by omega)
    exact length_overwrite (by omega)
  · rfl
  · rfl

theorem getElem?_placePiece (data : Bytes) (pos p0 x : ℕ) (hin : e.stop ≤ arenaMem.length) :
    (placePiece pos data p0 e arenaMem)[x]? =
      if (e.start ≤ x ∧ x < e.stop) ∧ pos ≤ p0 + (x - e.start) ∧ p0 + (x - e.start) < pos + data.length
      then data[p0 + (x - e.start) - pos]? else arenaMem[x]? := by
  rw [Extent.stop] at hin ⊢
  rw [placePiece]
  by_cases hpiece : pos < p0 + e.len ∧ p0 < pos + data.length ∧ e.len ≠ 0
  · have hlen : (slice data (max pos p0 - pos)
        (min (pos + data.length) (p0 + e.len) - max pos p0)).length =
        min (pos + data.length) (p0 + e.len) - max pos p0 := length_slice (by omega)
    rw [if_pos hpiece, if_pos (by omega), getElem?_overwrite (by omega), hlen]
    by_cases hat : (e.start ≤ x ∧ x < e.start + e.len) ∧ pos ≤ p0 + (x - e.start) ∧
        p0 + (x - e.start) < pos + data.length
    · rw [if_pos hat, if_pos (by omega), getElem?_slice, if_pos (by omega)]
      congr 1
      omega
    · rw [if_neg hat, if_neg (by omega)]
  · rw [if_neg hpiece, if_neg (by omega)]

theorem length_placeLoop : (placeLoop pos data p0 es arenaMem).length = arenaMem.length := by
  induction es generalizing p0 arenaMem with
  | nil => rfl
  | cons e es ih =>
    rw [placeLoop_cons]
    split
    · exact length_placePiece
    · exact ih.trans length_placePiece

/-- The walk puts the bytes of one block where `locate` found them, and
leaves the others alone. -/
theorem getElem?_placeLoop (h : Packed arenaMem.length es) :
    (placeLoop pos data p0 es arenaMem)[x]? =
      (locate es x).elim arenaMem[x]? fun j ↦
        if pos ≤ p0 + j ∧ p0 + j < pos + data.length then data[p0 + j - pos]? else arenaMem[x]? := by
  induction es generalizing p0 arenaMem with
  | nil => rfl
  | cons e es ih =>
    have hin := h.inside e List.mem_cons_self
    have hlen : (placePiece pos data p0 e arenaMem).length = arenaMem.length := length_placePiece
    have hpiece := getElem?_placePiece data pos p0 x hin
    have hbehind := (List.pairwise_cons.mp h.disjoint).1
    rw [placeLoop_cons, locate]
    by_cases hhere : e.start ≤ x ∧ x < e.stop
    · have hlater : locate es x = none := locate_eq_none hbehind hhere.2
      rw [if_pos hhere, Option.elim_some]
      split
      · rw [hpiece]
        simp only [hhere, true_and, and_self]
      · rw [ih (hlen.symm ▸ h.tail), hlater, Option.elim_none, hpiece]
        simp only [hhere, true_and, and_self]
    · rw [if_neg hhere]
      split
      · rw [hpiece, if_neg (by tauto)]
        cases hfound : locate es x with
        | none => rfl
        | some j =>
          rw [Option.map_some, Option.elim_some, if_neg (by omega)]
      · rw [ih (hlen.symm ▸ h.tail), hpiece, if_neg (by tauto)]
        cases hfound : locate es x with
        | none => rfl
        | some j =>
          rw [Option.map_some, Option.elim_some, Option.elim_some, Nat.add_assoc]

theorem getElem?_zeros (m i : ℕ) : (zeros m)[i]? = if i < m then some 0 else none := by
  rw [zeros, List.getElem?_replicate]

/-- Behind the cursor only the extents keep their bytes. -/
theorem getElem?_zeroLoop {cursor : ℕ} (hsorted : es.Pairwise fun e f ↦ e.start ≤ f.start)
    (hin : ∀ e ∈ es, e.stop ≤ arenaMem.length) (hle : cursor ≤ arenaMem.length) :
    (zeroLoop cursor es arenaMem)[x]? = if x < cursor then arenaMem[x]? else
      arenaMem[x]?.map fun b ↦ if (locate es x).isSome then b else 0 := by
  induction es generalizing cursor arenaMem with
  | nil =>
    rw [zeroLoop, getElem?_overwrite (by rw [length_zeros]; omega), length_zeros, getElem?_zeros]
    by_cases hx : x < arenaMem.length
    · rw [List.getElem?_eq_getElem hx, Option.map_some, locate, Option.isSome_none, if_neg Bool.false_ne_true]
      split_ifs <;> first | rfl | omega
    · rw [List.getElem?_eq_none (by omega), Option.map_none]
      split_ifs <;> first | rfl | omega
  | cons e es ih =>
    obtain ⟨hlater, hsorted⟩ := List.pairwise_cons.mp hsorted
    have hhere := hin e List.mem_cons_self
    have hstop : e.start ≤ e.stop := Nat.le_add_right _ _
    have hfit : cursor + (zeros (e.start - cursor)).length ≤ arenaMem.length := by
      rw [length_zeros]
      omega
    have hlen : (overwrite arenaMem cursor (zeros (e.start - cursor))).length = arenaMem.length :=
      length_overwrite hfit
    have hcursor : max cursor e.stop ≤ arenaMem.length := max_le hle hhere
    rw [zeroLoop, min_eq_left (hstop.trans hhere), min_eq_left hhere,
      ih hsorted (fun f hf ↦ hlen.symm ▸ hin f (List.mem_cons_of_mem _ hf)) (hcursor.trans_eq hlen.symm),
      getElem?_overwrite hfit, length_zeros, getElem?_zeros, locate]
    by_cases hfront : x < e.start
    · have hnone : locate es x = none := locate_eq_none hlater hfront
      have hx : x < arenaMem.length := by omega
      rw [if_pos (by omega), hnone, List.getElem?_eq_getElem hx,
        if_neg (show ¬ (e.start ≤ x ∧ x < e.stop) by omega), Option.map_none, Option.isSome_none,
        Option.map_some, if_neg Bool.false_ne_true]
      split_ifs <;> first | rfl | omega
    · have hgap : ¬ (cursor ≤ x ∧ x < cursor + (e.start - cursor)) := by omega
      rw [if_neg hgap]
      by_cases hcovered : x < e.stop
      · have hcov : e.start ≤ x ∧ x < e.stop := ⟨not_lt.mp hfront, hcovered⟩
        rw [if_pos (lt_max_of_lt_right hcovered), if_pos hcov]
        simp
      · rw [if_neg (show ¬ (e.start ≤ x ∧ x < e.stop) by omega)]
        simp only [Option.isSome_map, lt_max_iff, hcovered, or_false]

theorem Packed.sorted (h : Packed n es) : es.Pairwise fun e f ↦ e.start ≤ f.start :=
  h.disjoint.imp fun hef ↦ (Nat.le_add_right _ _).trans hef

theorem zeroOutsideExtents_eq (h : Packed arenaMem.length es) :
    zeroOutsideExtents es arenaMem = restrict 0 es arenaMem := by
  apply List.ext_getElem?
  intro x
  rw [zeroOutsideExtents, getElem?_zeroLoop (Packed.sorted h) h.inside (Nat.zero_le _),
    if_neg (Nat.not_lt_zero x), getElem?_restrict]

/-- The blocks up to the `m`th restore the cells whose bytes they hold. -/
theorem getElem?_placePayload {source target : Bytes} (h : Packed source.length es)
    (hlen : target.length = source.length) (m : ℕ) :
    (placePayload es ((List.range m).map fun i ↦ renderPayloadBlock source es (i * block)) target).length =
      target.length ∧
    (placePayload es ((List.range m).map fun i ↦ renderPayloadBlock source es (i * block)) target)[x]? =
      (locate es x).elim target[x]? fun j ↦ if j < m * block then source[x]? else target[x]? := by
  induction m with
  | zero =>
    refine ⟨rfl, ?_⟩
    cases locate es x with
    | none => rfl
    | some j => simp [placePayload]
  | succ m ih =>
    obtain ⟨ihlen, ih⟩ := ih
    have hstep : placePayload es ((List.range (m + 1)).map fun i ↦ renderPayloadBlock source es (i * block))
        target = placePayloadBlock es (m * block) (renderPayloadBlock source es (m * block))
          (placePayload es ((List.range m).map fun i ↦ renderPayloadBlock source es (i * block)) target) := by
      simp [placePayload, List.range_succ, List.zipIdx_append]
    generalize placePayload es ((List.range m).map fun i ↦ renderPayloadBlock source es (i * block)) target =
      mid at hstep ih ihlen
    rw [hstep, placePayloadBlock]
    have hpacked : Packed mid.length es := by rwa [ihlen, hlen]
    refine ⟨length_placeLoop.trans ihlen, ?_⟩
    rw [getElem?_placeLoop hpacked, length_renderPayloadBlock h.inside, ih]
    cases hx : locate es x with
    | none => rfl
    | some j =>
      have hj := locate_lt hx
      simp only [Option.elim_some, Nat.zero_add, Nat.succ_mul]
      split_ifs with h₁ h₂ h₂ h₃ h₃
      · rw [getElem?_renderPayloadBlock h.inside h₁.1 h₁.2 hj, getElem?_gather h.inside hx]
      · omega
      · rfl
      · omega
      · omega
      · rfl

theorem totalLen_le_blocks (n : ℕ) : n ≤ payloadBlocks n * block := by
  simp only [payloadBlocks, block]
  omega

/-- Both passes over the file together restore the extents and nothing else. -/
theorem placePayload_renderPayload {source target : Bytes} (h : Packed source.length es)
    (hlen : target.length = source.length) :
    placePayload es (renderPayload source es) (zeroOutsideExtents es target) = restrict 0 es source := by
  have hzero := zeroOutsideExtents_eq (hlen ▸ h)
  have hlen' : (restrict 0 es target).length = source.length := by rw [length_restrict, hlen]
  apply List.ext_getElem?
  intro x
  rw [hzero, renderPayload, (getElem?_placePayload h hlen' _).2, getElem?_restrict, getElem?_restrict]
  cases hx : locate es x with
  | none =>
    by_cases hin : x < source.length
    · rw [List.getElem?_eq_getElem hin, List.getElem?_eq_getElem (by omega)]
      rfl
    · rw [List.getElem?_eq_none (by omega), List.getElem?_eq_none (by omega)]
      rfl
  | some j =>
    rw [Option.elim_some, if_pos ((locate_lt hx).trans_le (totalLen_le_blocks _))]
    simp

theorem readU32_flatMap {ws : List ℕ} {i v : ℕ} (tail : Bytes) (hi : ws[i]? = some v) (hv : v < 2 ^ 32) :
    readU32 (ws.flatMap (leEncode 4) ++ tail) (4 * i) = v := by
  induction ws generalizing i with
  | nil => cases hi
  | cons w ws ih =>
    rw [List.flatMap_cons, List.append_assoc]
    cases i with
    | zero =>
      obtain rfl := Option.some.inj hi
      have hfront : slice (leEncode 4 w ++ (ws.flatMap (leEncode 4) ++ tail)) 0 4 = leEncode 4 w :=
        List.take_left' (length_leEncode 4 w)
      rw [Nat.mul_zero, readU32, hfront, leDecode_leEncode_of_lt hv]
    | succ i =>
      have hdrop : (leEncode 4 w ++ (ws.flatMap (leEncode 4) ++ tail)).drop (4 * (i + 1)) =
          (ws.flatMap (leEncode 4) ++ tail).drop (4 * i) := by
        rw [Nat.mul_succ, Nat.add_comm, ← List.drop_drop, List.drop_left' (length_leEncode 4 w)]
      rw [readU32, slice, hdrop]
      exact ih hi

theorem length_flatMap_leEncode (ws : List ℕ) : (ws.flatMap (leEncode 4)).length = 4 * ws.length := by
  induction ws with
  | nil => rfl
  | cons w ws ih =>
    rw [List.flatMap_cons, List.length_append, length_leEncode, ih, List.length_cons]
    omega

/-- Extents that a footer can describe for the table `r`. -/
structure Loadable (r : Regions) (n : ℕ) (es : List Extent) : Prop where
  starts : es.map Extent.start = extentStarts r
  packed : Packed n es
  lens : List.Forall₂ (fun minLen e ↦ e.len = 0 ∨ minLen ≤ e.len) (extentMinLens r) es

theorem Loadable.length_eq {r : Regions} (h : Loadable r n es) : es.length = extentCount := by
  rw [← List.length_map (f := Extent.start), h.starts]
  rfl

theorem footerExtents_eq_some {minLens : List ℕ} (hin : ∀ e ∈ es, e.stop ≤ n)
    (hlens : List.Forall₂ (fun minLen e ↦ e.len = 0 ∨ minLen ≤ e.len) minLens es) :
    footerExtents n (es.map Extent.start) minLens (es.map Extent.len) = some es := by
  induction hlens with
  | nil => rfl
  | @cons minLen e minLens es hmin _ ih =>
    have hstop := hin e List.mem_cons_self
    rw [Extent.stop] at hstop
    have hhere : footerExtent n e.start minLen e.len = some e := by
      rw [footerExtent, if_neg (by omega), if_neg (by omega), if_neg (by omega)]
    rw [List.map_cons, List.map_cons, footerExtents, hhere,
      ih fun f hf ↦ hin f (List.mem_cons_of_mem _ hf)]
    rfl

theorem ascending_of_packed (h : Packed n es) : ascending es = true := by
  induction es with
  | nil => rfl
  | cons e es ih =>
    cases es with
    | nil => rfl
    | cons f es =>
      have hbehind := (List.pairwise_cons.mp h.disjoint).1 f List.mem_cons_self
      have hstop : e.start ≤ e.stop := Nat.le_add_right _ _
      rw [ascending, ih h.tail, decide_eq_true_eq]
      exact ⟨by omega, by omega, rfl⟩

section File

variable {r : Regions} (crc : UInt32)

theorem getElem?_footerWords_region (h : es.length = extentCount) {i v : ℕ}
    (hi : (regionWords r)[i]? = some v) : (footerWords crc es r)[9 + i]? = some v := by
  have hlen : ([arenaMagic, snapshotVersion, crc.toNat, layoutVersion, 0] ++ es.map Extent.len).length =
      9 := by simp [h]
  rw [footerWords, ← hlen, List.getElem?_append_right (Nat.le_add_right _ _), Nat.add_sub_cancel_left, hi]

theorem getElem?_footerWords_len {i : ℕ} (hi : i < es.length) :
    (footerWords crc es r)[5 + i]? = some es[i].len := by
  rw [footerWords, List.append_assoc, List.getElem?_append_right (by simp)]
  simp [List.getElem?_append_left, hi]

theorem length_footerWords (h : es.length = extentCount) : (footerWords crc es r).length = 17 := by
  simp [footerWords, regionWords, h]

theorem length_footer (h : es.length = extentCount) : (footer crc es r).length = block := by
  rw [footer, List.length_append, length_flatMap_leEncode, length_footerWords crc h, length_zeros]
  rfl

theorem readU32_footer_len {i : ℕ} (hi : i < es.length) (hlt : es[i].len < 2 ^ 32) :
    readU32 (footer crc es r) (footerFirstLenOff + 4 * i) = es[i].len :=
  (congrArg (readU32 _) (Nat.mul_add 4 5 i).symm).trans
    (readU32_flatMap _ (getElem?_footerWords_len crc hi) hlt)

theorem readFooterRegions_footer (h : es.length = extentCount) :
    readFooterRegions (footer crc es r) = some r := by
  have hword : ∀ i v : ℕ, (regionWords r)[i]? = some v → v < 2 ^ 32 →
      readU32 (footer crc es r) (footerRegionsOff + 4 * i) = v := fun i v hi hv ↦
    (congrArg (readU32 _) (Nat.mul_add 4 9 i).symm).trans
      (readU32_flatMap _ (getElem?_footerWords_region crc h hi) hv)
  rw [readFooterRegions, length_footer crc h, if_neg (by decide)]
  dsimp only
  rw [hword 0 _ rfl r.arenaBytes.toNat_lt,
    hword 1 _ rfl r.ringCapacity.toNat_lt, hword 2 _ rfl r.recordStart.toNat_lt,
    hword 3 _ rfl r.recordBytes.toNat_lt, hword 4 _ rfl r.artRoot.toNat_lt,
    hword 5 _ rfl r.artBytes.toNat_lt, hword 6 _ rfl r.stringStart.toNat_lt,
    hword 7 _ rfl r.stringBytes.toNat_lt]
  simp only [UInt32.ofNat_toNat]

theorem footerLens_footer (h : es.length = extentCount) (hlt : ∀ e ∈ es, e.len < 2 ^ 32) :
    footerLens (footer crc es r) = es.map Extent.len := by
  apply List.ext_getElem
  · rw [footerLens, List.length_map, List.length_range, List.length_map, h]
  · intro i _ hi
    rw [List.length_map] at hi
    simp only [footerLens, List.getElem_map, List.getElem_range]
    exact readU32_footer_len crc hi (hlt _ (List.getElem_mem hi))

/-- Extents inside the arena and long enough are read back, and then
looked at for overlaps. -/
theorem extentsFromFooter_footer (hstarts : es.map Extent.start = extentStarts r)
    (hin : ∀ e ∈ es, e.stop ≤ n)
    (hlens : List.Forall₂ (fun minLen e ↦ e.len = 0 ∨ minLen ≤ e.len) (extentMinLens r) es)
    (hn : n < 2 ^ 32) :
    extentsFromFooter (footer crc es r) n r = if ascending es then some es else none := by
  have hlength : es.length = extentCount := by
    rw [← List.length_map (f := Extent.start), hstarts]
    rfl
  have hlt : ∀ e ∈ es, e.len < 2 ^ 32 := fun e he ↦ ((Nat.le_add_left _ _).trans (hin e he)).trans_lt hn
  rw [extentsFromFooter, footerLens_footer crc hlength hlt, ← hstarts, footerExtents_eq_some hin hlens]
  rfl

theorem Loadable.extentsFromFooter (h : Loadable r n es) (hn : n < 2 ^ 32) :
    extentsFromFooter (footer crc es r) n r = some es := by
  rw [extentsFromFooter_footer crc h.starts h.packed.inside h.lens hn,
    if_pos (ascending_of_packed h.packed)]

/-- A footer written for the table `r` is accepted for it, if the extents
can be described. -/
theorem acceptFooter_footer (h : es.length = extentCount) (hr : Layout.Valid r n) :
    acceptFooter (footer crc es r) n r = extentsFromFooter (footer crc es r) n r := by
  have hword : ∀ i v : ℕ, (footerWords crc es r)[i]? = some v → v < 2 ^ 32 →
      readU32 (footer crc es r) (4 * i) = v := fun i v hi hv ↦ readU32_flatMap _ hi hv
  have hmagic : readU32 (footer crc es r) 0 = arenaMagic := hword 0 _ rfl (by decide)
  have hversion : readU32 (footer crc es r) 4 = snapshotVersion := hword 1 _ rfl (by decide)
  have hlayout : readU32 (footer crc es r) footerLayoutOff = layoutVersion := hword 3 _ rfl (by decide)
  have hshape : isFooterShape footerV3TailOff (footer crc es r) = true := by
    have hdrop : (footer crc es r).drop footerV3TailOff = zeros (block - footerV3TailOff) :=
      List.drop_left' (by rw [length_flatMap_leEncode, length_footerWords crc h]; rfl)
    rw [isFooterShape, hdrop, zeros]
    simp only [List.all_replicate]
    rfl
  rw [acceptFooter, hversion, hmagic, hlayout, if_neg (by simp [contiguousV2Version]), if_neg (by simp),
    if_neg (by simp [hshape]), if_neg (by simp), readFooterRegions_footer crc h]
  simp only [(valid_iff r n).mpr hr, ne_eq, not_true, if_false]

theorem readU32_footer_crc : readU32 (footer crc es r) footerCrcOff = crc.toNat :=
  readU32_flatMap (i := 2) _ rfl crc.toNat_lt

end File

/-- What the reader sees of the file. -/
theorem blocksOf_snapshotFile {r : Regions}
    (hin : ∀ e ∈ snapshotExtents arenaMem r, e.stop ≤ arenaMem.length) :
    blocksOf block (snapshotFile arenaMem r) = renderPayload arenaMem (snapshotExtents arenaMem r) ++
      [footer (Crc32.final ((renderPayload arenaMem (snapshotExtents arenaMem r)).foldl Crc32.update
        Crc32.init)) (snapshotExtents arenaMem r) r] := by
  have hblocks : ∀ b ∈ renderPayload arenaMem (snapshotExtents arenaMem r) ++
      [footer (Crc32.final ((renderPayload arenaMem (snapshotExtents arenaMem r)).foldl Crc32.update
        Crc32.init)) (snapshotExtents arenaMem r) r], b.length = block := by
    intro b hb
    rcases List.mem_append.mp hb with hb | hb
    · obtain ⟨i, -, rfl⟩ := List.mem_map.mp hb
      exact length_renderPayloadBlock hin _
    · rw [List.mem_singleton.mp hb, length_footer _ rfl]
  rw [snapshotFile, ← blocksOf_append hblocks (show ([] : Bytes).length < block by decide)]
  simp

/-- The snapshot of an arena whose extents a footer can describe is loaded
again: the extents come back, and everything else is zero. -/
theorem loadSnapshot_snapshotFile {r : Regions} {target : Bytes} (hr : Layout.Valid r arenaMem.length)
    (h : Loadable r arenaMem.length (snapshotExtents arenaMem r)) (hlen : target.length = arenaMem.length) :
    loadSnapshot (some (snapshotFile arenaMem r)) r target =
      (some ⟨snapshotExtents arenaMem r, r⟩, restrict 0 (snapshotExtents arenaMem r) arenaMem) := by
  have hn : arenaMem.length < 2 ^ 32 := hr.arena ▸ r.arenaBytes.toNat_lt
  have hcount : (renderPayload arenaMem (snapshotExtents arenaMem r)).length =
      payloadBlocks (totalLen (snapshotExtents arenaMem r)) := by
    rw [renderPayload, List.length_map, List.length_range]
  have htotal := h.packed.totalLen_le
  have hfew : payloadBlocks (totalLen (snapshotExtents arenaMem r)) ≤ blocksFor arenaMem.length := by
    simp only [payloadBlocks, blocksFor, block]
    omega
  have hload := placePayload_renderPayload h.packed hlen
  rw [loadSnapshot, blocksOf_snapshotFile h.packed.inside]
  generalize snapshotExtents arenaMem r = es at *
  generalize renderPayload arenaMem es = data at *
  simp only [List.length_append, List.length_singleton, List.getLastD_concat, List.dropLast_concat, hlen,
    hcount, acceptFooter_footer _ h.length_eq hr, h.extentsFromFooter _ hn]
  rw [if_neg (by omega), if_neg (by simp [payloadBlocks, blocksFor]), hload, readU32_footer_crc,
    if_neg (by simp)]

/-- A file whose extents no footer can describe is refused. -/
theorem loadSnapshot_eq_none {r : Regions} {target : Bytes} (hr : Layout.Valid r arenaMem.length)
    (hin : ∀ e ∈ snapshotExtents arenaMem r, e.stop ≤ arenaMem.length)
    (hlen : target.length = arenaMem.length)
    (hnone : ∀ crc, extentsFromFooter (footer crc (snapshotExtents arenaMem r) r) arenaMem.length r = none) :
    (loadSnapshot (some (snapshotFile arenaMem r)) r target).1 = none := by
  have hlength : (snapshotExtents arenaMem r).length = extentCount := rfl
  rw [loadSnapshot, blocksOf_snapshotFile hin]
  generalize snapshotExtents arenaMem r = es at *
  generalize renderPayload arenaMem es = data at *
  simp only [List.getLastD_concat, hlen, acceptFooter_footer _ hlength hr, hnone]
  split <;> rfl

end TakyonDb.Snapshot
