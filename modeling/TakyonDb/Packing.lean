import TakyonDb.SnapshotLoad

namespace TakyonDb.Snapshot

open Lib Layout

/-- Extents in the order of their starts, inside a memory of `n` cells, no cell in two of them. An empty one may stand
anywhere between its neighbours. -/
structure Ordered (n : ℕ) (es : List Extent) : Prop where
  inside : ∀ e ∈ es, e.stop ≤ n
  ascending : es.Pairwise fun e f ↦ e.start ≤ f.start
  disjoint : es.Pairwise fun e f ↦ ∀ x, e.start ≤ x ∧ x < e.stop → ¬ (f.start ≤ x ∧ x < f.stop)

/-- The extents that hold a cell. -/
def inhabited (es : List Extent) : List Extent := es.filter fun e ↦ e.len ≠ 0

variable {arenaMem data out : Bytes} {e : Extent} {es : List Extent} {n pos blockEnd p0 x : ℕ}

theorem inhabited_cons (es : List Extent) (h : e.len ≠ 0) : inhabited (e :: es) = e :: inhabited es :=
  List.filter_cons_of_pos (by simpa using h)

theorem inhabited_cons_empty (es : List Extent) (h : e.len = 0) : inhabited (e :: es) = inhabited es :=
  List.filter_cons_of_neg (by simpa using h)

theorem Ordered.tail (h : Ordered n (e :: es)) : Ordered n es :=
  ⟨fun f hf ↦ h.inside f (List.mem_cons_of_mem _ hf), (List.pairwise_cons.mp h.ascending).2,
    (List.pairwise_cons.mp h.disjoint).2⟩

/-- Without the empty ones, each extent ends where the next starts, or before. -/
theorem Ordered.packed (h : Ordered n es) : Packed n (inhabited es) := by
  refine ⟨?_, fun e he ↦ h.inside e (List.mem_of_mem_filter he)⟩
  have hboth := (List.pairwise_and_iff.mpr ⟨h.ascending, h.disjoint⟩).filter fun e ↦ e.len ≠ 0
  refine List.Pairwise.imp_of_mem ?_ hboth
  intro e f he hf hef
  have hlen : f.len ≠ 0 := by simpa using (List.mem_filter.mp hf).2
  have hout := hef.2 f.start
  rw [Extent.stop, Extent.stop] at hout
  rw [Extent.stop]
  by_contra hlt
  exact hout ⟨hef.1, by omega⟩ ⟨le_rfl, by omega⟩

theorem totalLen_inhabited (es : List Extent) : totalLen (inhabited es) = totalLen es := by
  induction es with
  | nil => rfl
  | cons e es ih =>
    by_cases he : e.len = 0
    · rw [inhabited_cons_empty es he, ih, totalLen_cons, he, Nat.zero_add]
    · rw [inhabited_cons es he, totalLen_cons, totalLen_cons, ih]

theorem locate_inhabited (es : List Extent) (x : ℕ) : locate (inhabited es) x = locate es x := by
  induction es with
  | nil => rfl
  | cons e es ih =>
    by_cases he : e.len = 0
    · have hout : ¬ (e.start ≤ x ∧ x < e.stop) := by
        rw [Extent.stop]
        omega
      rw [inhabited_cons_empty es he, ih, locate, if_neg hout, he]
      simp only [Nat.zero_add, Option.map_id']
    · rw [inhabited_cons es he, locate, locate, ih]

/-- A walk that has passed the block copies nothing. -/
theorem renderLoop_of_le (h : blockEnd ≤ p0) : renderLoop arenaMem pos blockEnd p0 es out = out := by
  cases es with
  | nil => rfl
  | cons e es =>
    have hpiece : ¬ (pos < p0 + e.len ∧ p0 < blockEnd ∧ e.len ≠ 0) := by omega
    have hend : blockEnd ≤ p0 + e.len := by omega
    rw [renderLoop]
    simp only [hpiece, hend, if_false, if_true]

theorem renderLoop_inhabited (arenaMem : Bytes) (pos blockEnd p0 : ℕ) (es : List Extent) (out : Bytes) :
    renderLoop arenaMem pos blockEnd p0 (inhabited es) out = renderLoop arenaMem pos blockEnd p0 es out := by
  induction es generalizing p0 out with
  | nil => rfl
  | cons e es ih =>
    by_cases he : e.len = 0
    · rw [inhabited_cons_empty es he, renderLoop, he, Nat.add_zero]
      simp only [ne_eq, not_true_eq_false, and_false, if_false]
      split_ifs with hend
      · exact renderLoop_of_le hend
      · exact ih p0 out
    · rw [inhabited_cons es he, renderLoop, renderLoop]
      dsimp only
      rw [ih]

theorem renderPayload_inhabited (arenaMem : Bytes) (es : List Extent) :
    renderPayload arenaMem (inhabited es) = renderPayload arenaMem es := by
  rw [renderPayload, renderPayload, totalLen_inhabited]
  refine List.map_congr_left fun i _ ↦ ?_
  exact renderLoop_inhabited _ _ _ _ _ _

theorem placeLoop_of_le (h : pos + data.length ≤ p0) : placeLoop pos data p0 es arenaMem = arenaMem := by
  cases es with
  | nil => rfl
  | cons e es => rw [placeLoop_cons, if_pos (by omega), placePiece, if_neg (by omega)]

theorem placeLoop_inhabited (pos : ℕ) (data : Bytes) (p0 : ℕ) (es : List Extent) (arenaMem : Bytes) :
    placeLoop pos data p0 (inhabited es) arenaMem = placeLoop pos data p0 es arenaMem := by
  induction es generalizing p0 arenaMem with
  | nil => rfl
  | cons e es ih =>
    by_cases he : e.len = 0
    · have hpiece : placePiece pos data p0 e arenaMem = arenaMem := by rw [placePiece, if_neg (by omega)]
      rw [inhabited_cons_empty es he, placeLoop_cons, hpiece, he, Nat.add_zero]
      split_ifs with hend
      · exact placeLoop_of_le hend
      · exact ih p0 arenaMem
    · rw [inhabited_cons es he, placeLoop_cons, placeLoop_cons, ih]

theorem placePayload_inhabited (es : List Extent) (blocks : List Bytes) (arenaMem : Bytes) :
    placePayload (inhabited es) blocks arenaMem = placePayload es blocks arenaMem := by
  have hstep : (fun (mem : Bytes) (p : Bytes × ℕ) ↦ placePayloadBlock (inhabited es) (p.2 * block) p.1 mem) =
      fun mem p ↦ placePayloadBlock es (p.2 * block) p.1 mem := by
    funext mem p
    exact placeLoop_inhabited _ _ _ _ _
  exact congrArg (fun step ↦ blocks.zipIdx.foldl step arenaMem) hstep

theorem restrict_inhabited (es : List Extent) (mem : Bytes) : restrict 0 (inhabited es) mem = restrict 0 es mem := by
  simp only [restrict, locate_inhabited]

/-- Zeroing looks at the starts only, so empty extents do no harm. -/
theorem Ordered.zeroOutsideExtents_eq (h : Ordered arenaMem.length es) :
    zeroOutsideExtents es arenaMem = restrict 0 es arenaMem := by
  apply List.ext_getElem?
  intro x
  rw [zeroOutsideExtents, getElem?_zeroLoop h.ascending h.inside (Nat.zero_le _), if_neg (Nat.not_lt_zero x),
    getElem?_restrict]

/-- What a snapshot packs and a recovery scatters is the source inside the extents and zero outside. -/
theorem place_render (es : List Extent) (source target : Bytes) (h : Ordered source.length es)
    (hlen : target.length = source.length) :
    placePayload es (renderPayload source es) (zeroOutsideExtents es target) = restrict 0 es source := by
  have htarget : Ordered target.length es := hlen ▸ h
  have hzero : zeroOutsideExtents (inhabited es) target = zeroOutsideExtents es target := by
    rw [Snapshot.zeroOutsideExtents_eq htarget.packed, restrict_inhabited, htarget.zeroOutsideExtents_eq]
  have hround := placePayload_renderPayload h.packed hlen
  rwa [placePayload_inhabited, renderPayload_inhabited, hzero, restrict_inhabited] at hround

/-- Two cells with an empty extent behind each. -/
theorem place_render_two : placePayload [⟨0, 1⟩, ⟨0, 0⟩, ⟨2, 1⟩, ⟨3, 0⟩]
    (renderPayload [7, 8, 9] [⟨0, 1⟩, ⟨0, 0⟩, ⟨2, 1⟩, ⟨3, 0⟩])
    (zeroOutsideExtents [⟨0, 1⟩, ⟨0, 0⟩, ⟨2, 1⟩, ⟨3, 0⟩] [1, 1, 1]) = [7, 0, 9] := by
  have hordered : Ordered 3 [⟨0, 1⟩, ⟨0, 0⟩, ⟨2, 1⟩, ⟨3, 0⟩] := by
    refine ⟨by decide, by decide, ?_⟩
    simp [Extent.stop]
  exact (place_render _ [7, 8, 9] [1, 1, 1] hordered rfl).trans (by decide)

end TakyonDb.Snapshot
