import TakyonDb.Layout
import TakyonDb.Lib.Blocks
import TakyonDb.Lib.Crc32
import TakyonDb.Lib.Extents

namespace TakyonDb.Snapshot

open Lib Layout

abbrev block : ℕ := 4096
abbrev snapshotVersion : ℕ := 3
abbrev contiguousV2Version : ℕ := 2
abbrev extentCount : ℕ := 4
abbrev footerCrcOff : ℕ := 8
abbrev footerLayoutOff : ℕ := 12
abbrev footerFirstLenOff : ℕ := 20
abbrev footerRegionsOff : ℕ := footerFirstLenOff + 4 * extentCount
abbrev footerRegionWords : ℕ := 8
abbrev footerV3TailOff : ℕ := footerRegionsOff + 4 * footerRegionWords
abbrev footerV2TailOff : ℕ := 24

/-- The header, the records, the index and the strings: each region from
its bookkeeping word on. -/
def extentStarts (r : Regions) : List ℕ := [0, r.recordBumpOffset, r.artRoot.toNat, r.stringStart.toNat]

def extentMinLens (r : Regions) : List ℕ :=
  [ringOffset, r.recordStart.toNat - r.recordBumpOffset, 8, 4]

def readBump (arenaMem : Bytes) (offset fallback : ℕ) : ℕ :=
  if arenaMem.length < offset + 4 then fallback
  else if arenaMem.length < readU32 arenaMem offset then fallback
  else readU32 arenaMem offset

def bumpExtent (arenaMem : Bytes) (start wordOffset init : ℕ) : Extent :=
  if arenaMem.length < wordOffset + 4 then ⟨start, 0⟩
  else
    let bump := readBump arenaMem wordOffset init
    if bump ≤ start ∨ arenaMem.length < bump then ⟨start, 0⟩ else ⟨start, bump - start⟩

def recordExtent (arenaMem : Bytes) (r : Regions) : Extent :=
  bumpExtent arenaMem r.recordBumpOffset r.recordBumpOffset r.recordStart.toNat

def artExtent (arenaMem : Bytes) (r : Regions) : Extent :=
  bumpExtent arenaMem r.artRoot.toNat r.artBumpOffset r.artStart

def stringExtent (arenaMem : Bytes) (r : Regions) : Extent :=
  bumpExtent arenaMem r.stringStart.toNat r.stringStart.toNat r.stringDataStart

def snapshotExtents (arenaMem : Bytes) (r : Regions) : List Extent :=
  [⟨0, if ringOffset ≤ arenaMem.length then ringOffset else 0⟩, recordExtent arenaMem r,
    artExtent arenaMem r, stringExtent arenaMem r]

def payloadBlocks (payload : ℕ) : ℕ := (payload + block - 1) / block

/-- Walks the extents, of which `p0` payload bytes are behind it, and copies
what falls between the payload offsets `pos` and `blockEnd`. -/
def renderLoop (arenaMem : Bytes) (pos blockEnd : ℕ) : ℕ → List Extent → Bytes → Bytes
  | _, [], out => out
  | p0, e :: es, out =>
    let p1 := p0 + e.len
    let out := if pos < p1 ∧ p0 < blockEnd ∧ e.len ≠ 0 then
        let start := max pos p0
        overwrite out (start - pos) (slice arenaMem (e.start + (start - p0)) (min blockEnd p1 - start))
      else out
    if blockEnd ≤ p1 then out else renderLoop arenaMem pos blockEnd p1 es out

def renderPayloadBlock (arenaMem : Bytes) (ext : List Extent) (pos : ℕ) : Bytes :=
  renderLoop arenaMem pos (pos + block) 0 ext (zeros block)

def renderPayload (arenaMem : Bytes) (ext : List Extent) : List Bytes :=
  (List.range (payloadBlocks (totalLen ext))).map fun i ↦ renderPayloadBlock arenaMem ext (i * block)

def regionWords (r : Regions) : List ℕ :=
  [r.arenaBytes.toNat, r.ringCapacity.toNat, r.recordStart.toNat, r.recordBytes.toNat, r.artRoot.toNat,
    r.artBytes.toNat, r.stringStart.toNat, r.stringBytes.toNat]

/-- The words of the footer in the order of their offsets; the word behind
the layout version holds the flags. -/
def footerWords (crc : UInt32) (ext : List Extent) (r : Regions) : List ℕ :=
  [arenaMagic, snapshotVersion, crc.toNat, layoutVersion, 0] ++ ext.map Extent.len ++ regionWords r

def footer (crc : UInt32) (ext : List Extent) (r : Regions) : Bytes :=
  (footerWords crc ext r).flatMap (leEncode 4) ++ zeros (block - footerV3TailOff)

/-- The file that is renamed over the snapshot. -/
def snapshotFile (arenaMem : Bytes) (r : Regions) : Bytes :=
  let ext := snapshotExtents arenaMem r
  let blocks := renderPayload arenaMem ext
  blocks.flatten ++ footer (Crc32.final (blocks.foldl Crc32.update Crc32.init)) ext r

variable {arenaMem out : Bytes} {e : Extent} {es : List Extent} {pos blockEnd p0 i : ℕ}

/-- What the walk copies of one extent. -/
theorem getElem?_renderPiece (p0 : ℕ) (hin : e.stop ≤ arenaMem.length) (hout : out.length = blockEnd - pos)
    (hi : i < out.length) :
    (if pos < p0 + e.len ∧ p0 < blockEnd ∧ e.len ≠ 0 then
      overwrite out (max pos p0 - pos) (slice arenaMem (e.start + (max pos p0 - p0))
        (min blockEnd (p0 + e.len) - max pos p0)) else out)[i]? =
      if p0 ≤ pos + i ∧ pos + i < p0 + e.len then (slice arenaMem e.start e.len)[pos + i - p0]?
      else out[i]? := by
  rw [Extent.stop] at hin
  by_cases hpiece : pos < p0 + e.len ∧ p0 < blockEnd ∧ e.len ≠ 0
  · have hlen : (slice arenaMem (e.start + (max pos p0 - p0))
        (min blockEnd (p0 + e.len) - max pos p0)).length = min blockEnd (p0 + e.len) - max pos p0 :=
      length_slice (by omega)
    rw [if_pos hpiece, getElem?_overwrite (by omega), hlen]
    by_cases hat : p0 ≤ pos + i ∧ pos + i < p0 + e.len
    · rw [if_pos hat, if_pos (by omega), getElem?_slice, getElem?_slice, if_pos (by omega),
        if_pos (by omega)]
      congr 1
      omega
    · rw [if_neg hat, if_neg (by omega)]
  · rw [if_neg hpiece, if_neg (by omega)]

theorem length_renderPiece (p0 : ℕ) (hin : e.stop ≤ arenaMem.length) (hout : out.length = blockEnd - pos) :
    (if pos < p0 + e.len ∧ p0 < blockEnd ∧ e.len ≠ 0 then
      overwrite out (max pos p0 - pos) (slice arenaMem (e.start + (max pos p0 - p0))
        (min blockEnd (p0 + e.len) - max pos p0)) else out).length = out.length := by
  rw [Extent.stop] at hin
  split_ifs with hpiece
  · have hlen : (slice arenaMem (e.start + (max pos p0 - p0))
        (min blockEnd (p0 + e.len) - max pos p0)).length = min blockEnd (p0 + e.len) - max pos p0 :=
      length_slice (by omega)
    exact length_overwrite (by omega)
  · rfl

theorem length_renderLoop (hin : ∀ e ∈ es, e.stop ≤ arenaMem.length)
    (hout : out.length = blockEnd - pos) :
    (renderLoop arenaMem pos blockEnd p0 es out).length = out.length := by
  induction es generalizing p0 out with
  | nil => rfl
  | cons e es ih =>
    have hpiece := length_renderPiece p0 (hin e List.mem_cons_self) hout
    rw [renderLoop]
    dsimp only
    split
    · exact hpiece
    · exact (ih (fun f hf ↦ hin f (List.mem_cons_of_mem _ hf)) (hpiece.trans hout)).trans hpiece

/-- The walk renders the part of the packed payload that it passes. -/
theorem getElem?_renderLoop (hin : ∀ e ∈ es, e.stop ≤ arenaMem.length)
    (hout : out.length = blockEnd - pos) (hi : i < out.length) :
    (renderLoop arenaMem pos blockEnd p0 es out)[i]? =
      if p0 ≤ pos + i ∧ pos + i < p0 + totalLen es then (gather es arenaMem)[pos + i - p0]?
      else out[i]? := by
  induction es generalizing p0 out with
  | nil =>
    rw [if_neg (by simp [totalLen])]
    rfl
  | cons e es ih =>
    have hhere := hin e List.mem_cons_self
    have hlen := length_renderPiece p0 hhere hout
    have hpiece := getElem?_renderPiece p0 hhere hout hi
    have hslice : (slice arenaMem e.start e.len).length = e.len := length_slice hhere
    have hfront : ∀ k < e.len, (gather (e :: es) arenaMem)[k]? = (slice arenaMem e.start e.len)[k]? :=
      fun k hk ↦ List.getElem?_append_left (hk.trans_eq hslice.symm)
    have hback : ∀ k, e.len ≤ k → (gather (e :: es) arenaMem)[k]? = (gather es arenaMem)[k - e.len]? := by
      intro k hk
      rw [gather, List.flatMap_cons, List.getElem?_append_right (by omega), hslice, gather]
    rw [renderLoop, totalLen_cons]
    dsimp only
    split
    · rw [hpiece]
      split_ifs with h₁ h₂ h₂
      · exact (hfront _ (by omega)).symm
      · omega
      · omega
      · rfl
    · rw [ih (fun f hf ↦ hin f (List.mem_cons_of_mem _ hf)) (hlen.trans hout) (by rwa [hlen]), hpiece]
      split_ifs with h₁ h₂ h₂ h₃ h₃
      · rw [hback _ (by omega), Nat.sub_add_eq]
      · omega
      · exact (hfront _ (by omega)).symm
      · omega
      · omega
      · rfl

@[simp] theorem length_renderPayloadBlock (hin : ∀ e ∈ es, e.stop ≤ arenaMem.length) (pos : ℕ) :
    (renderPayloadBlock arenaMem es pos).length = block :=
  (length_renderLoop hin (by rw [length_zeros]; omega)).trans (length_zeros block)

theorem getElem?_renderPayloadBlock (hin : ∀ e ∈ es, e.stop ≤ arenaMem.length) {pos j : ℕ}
    (hpos : pos ≤ j) (hblock : j < pos + block) (hj : j < totalLen es) :
    (renderPayloadBlock arenaMem es pos)[j - pos]? = (gather es arenaMem)[j]? := by
  rw [renderPayloadBlock, getElem?_renderLoop hin (by rw [length_zeros]; omega)
    (by rw [length_zeros]; omega), if_pos (by omega), Nat.add_sub_cancel' hpos, Nat.sub_zero]

end TakyonDb.Snapshot
