import TakyonDb.Lib.Crc32
import TakyonDb.Lib.Slices

namespace TakyonDb.RecordCrc

open Lib

abbrev recMagic : ℕ := 0x54524543
abbrev recVersion : ℕ := 1
abbrev headerLen : ℕ := 10
abbrev sealedOverhead : ℕ := 14

inductive SealError
  | noSpace | invalidSchema
deriving DecidableEq

def sealedLen (payloadLen : ℕ) : ℕ := sealedOverhead + payloadLen

/-- Seals a payload into the front of a buffer, and returns the bytes written. -/
def sealInto (out payload : Bytes) : Except SealError (Bytes × ℕ) :=
  if out.length < sealedLen payload.length then .error .noSpace
  else if 0xFFFFFFFF < payload.length then .error .invalidSchema
  else
    let out := overwrite out 0 (leEncode 4 recMagic)
    let out := overwrite out 4 (leEncode 2 recVersion)
    let out := overwrite out 6 (leEncode 4 payload.length)
    let crc := Crc32.final (Crc32.update (Crc32.update Crc32.init (slice out 0 headerLen)) payload)
    let out := overwrite out headerLen (leEncode 4 crc.toNat)
    let out := overwrite out sealedOverhead payload
    .ok (out, sealedLen payload.length)

def verify (buf : Bytes) : Bool :=
  if buf.length < sealedOverhead then false
  else if leDecode (slice buf 0 4) ≠ recMagic then false
  else if leDecode (slice buf 4 2) ≠ recVersion then false
  else
    let plen := leDecode (slice buf 6 4)
    if buf.length < sealedOverhead + plen then false
    else
      let crc := Crc32.update (Crc32.update Crc32.init (slice buf 0 headerLen)) (slice buf sealedOverhead plen)
      leDecode (slice buf headerLen 4) = (Crc32.final crc).toNat

/-- The payload length in the header, where there is a header. -/
def declaredLen (buf : Bytes) : Option ℕ :=
  if buf.length < headerLen then none
  else if leDecode (slice buf 0 4) ≠ recMagic then none
  else if leDecode (slice buf 4 2) ≠ recVersion then none
  else some (leDecode (slice buf 6 4))

structure Report where
  ok : ℕ
  corrupt : ℕ
  bytes : ℕ
  truncated : Bool
deriving DecidableEq

def isZeroed (buf : Bytes) : Bool := buf.all (· == 0)

/-- The walk over what is left of the buffer. -/
def scrubLoop (rest : Bytes) (rep : Report) : Report :=
  if _h : rest = [] then rep
  else match declaredLen rest with
    | none => if isZeroed rest then rep else { rep with corrupt := rep.corrupt + 1 }
    | some plen =>
      if rest.length < sealedLen plen then { rep with truncated := true }
      else if verify (rest.take (sealedLen plen)) then
        scrubLoop (rest.drop (sealedLen plen))
          { rep with ok := rep.ok + 1, bytes := rep.bytes + sealedLen plen }
      else { rep with corrupt := rep.corrupt + 1 }
termination_by rest.length
decreasing_by
  have hpos := List.length_pos_iff.mpr _h
  simp only [List.length_drop, sealedLen, sealedOverhead]
  omega

def scrub (buf : Bytes) : Report := scrubLoop buf ⟨0, 0, 0, false⟩

def header (payload : Bytes) : Bytes :=
  leEncode 4 recMagic ++ leEncode 2 recVersion ++ leEncode 4 payload.length

/-- The bytes of a sealed payload: its header, the checksum of the two and the payload. -/
def envelope (payload : Bytes) : Bytes :=
  header payload ++ leEncode 4 (Crc32.hash (header payload ++ payload)).toNat ++ payload

theorem length_header (payload : Bytes) : (header payload).length = headerLen := by
  simp [header]

theorem length_envelope (payload : Bytes) : (envelope payload).length = sealedLen payload.length := by
  simp only [envelope, List.length_append, length_header, length_leEncode, sealedLen]

theorem overwrite_header {out payload : Bytes} (hroom : sealedLen payload.length ≤ out.length) :
    overwrite (overwrite (overwrite out 0 (leEncode 4 recMagic)) 4 (leEncode 2 recVersion)) 6
      (leEncode 4 payload.length) = overwrite out 0 (header payload) := by
  have hsize : sealedLen payload.length = 14 + payload.length := rfl
  rw [header, overwrite_append (by simp; omega), overwrite_append (by simp; omega)]
  simp only [length_leEncode, List.length_append, Nat.zero_add]

theorem slice_header {out payload : Bytes} (hroom : sealedLen payload.length ≤ out.length) :
    slice (overwrite out 0 (header payload)) 0 headerLen = header payload := by
  have hsize : sealedLen payload.length = 14 + payload.length := rfl
  rw [← length_header payload, slice_overwrite_self (by rw [length_header, headerLen]; omega)]

theorem overwrite_envelope {out payload : Bytes} (hroom : sealedLen payload.length ≤ out.length) :
    overwrite (overwrite (overwrite out 0 (header payload)) headerLen
      (leEncode 4 (Crc32.hash (header payload ++ payload)).toNat)) sealedOverhead payload =
        envelope payload ++ out.drop (sealedLen payload.length) := by
  have hsize : sealedLen payload.length = 14 + payload.length := rfl
  have hwhole : overwrite out 0 (envelope payload) = envelope payload ++ out.drop (sealedLen payload.length) := by
    rw [overwrite, List.take_zero, List.nil_append, Nat.zero_add, length_envelope]
  rw [← hwhole, envelope, overwrite_append, overwrite_append]
  · simp only [length_leEncode, length_header, List.length_append, Nat.zero_add]
  · simp only [length_leEncode, length_header, headerLen]
    omega
  · simp only [length_leEncode, length_header, List.length_append, headerLen]
    omega

theorem sealInto_eq {out payload : Bytes} (hroom : sealedLen payload.length ≤ out.length)
    (hlen : payload.length ≤ 0xFFFFFFFF) :
    sealInto out payload =
      .ok (envelope payload ++ out.drop (sealedLen payload.length), sealedLen payload.length) := by
  rw [sealInto, if_neg (by omega), if_neg (by omega)]
  simp only [overwrite_header hroom, slice_header hroom]
  rw [← Crc32.update_append, ← Crc32.hash, overwrite_envelope hroom]

/-- The bytes `sealInto` wrote for a payload, into any buffer with room. -/
def Seals (payload sealed : Bytes) : Prop :=
  ∃ out out' n, sealInto out payload = .ok (out', n) ∧ sealed = out'.take n

theorem seals_iff (payload sealed : Bytes) :
    Seals payload sealed ↔ payload.length ≤ 0xFFFFFFFF ∧ sealed = envelope payload := by
  constructor
  · intro h
    obtain ⟨out, out', n, hseal, rfl⟩ := h
    by_cases hroom : sealedLen payload.length ≤ out.length
    · by_cases hlen : payload.length ≤ 0xFFFFFFFF
      · rw [sealInto_eq hroom hlen, Except.ok.injEq, Prod.mk.injEq] at hseal
        obtain ⟨rfl, rfl⟩ := hseal
        rw [← length_envelope, List.take_left]
        exact ⟨hlen, rfl⟩
      · rw [sealInto, if_neg (by omega), if_pos (by omega)] at hseal
        exact absurd hseal (by simp)
    · rw [sealInto, if_pos (by omega)] at hseal
      exact absurd hseal (by simp)
  · intro h
    obtain ⟨hlen, rfl⟩ := h
    refine ⟨zeros (sealedLen payload.length), _, _, sealInto_eq (length_zeros _).ge hlen, ?_⟩
    rw [← length_envelope, List.take_left]

variable {payload : Bytes}

/-- A header reads back, whatever follows it. -/
theorem header_fields (rest : Bytes) (hlen : payload.length ≤ 0xFFFFFFFF) :
    leDecode (slice (header payload ++ rest) 0 4) = recMagic ∧
      leDecode (slice (header payload ++ rest) 4 2) = recVersion ∧
      leDecode (slice (header payload ++ rest) 6 4) = payload.length := by
  simp only [header, List.append_assoc]
  refine ⟨?_, ?_, ?_⟩
  · rw [slice_append_left (by simp), slice, List.drop_zero, List.take_of_length_le (by simp)]
    exact leDecode_leEncode_of_lt (by decide)
  · rw [← List.append_assoc, slice_append_left (by simp), slice_append_right (by simp),
      List.take_of_length_le (by simp)]
    exact leDecode_leEncode_of_lt (by decide)
  · rw [← List.append_assoc, slice_append_right (by simp), List.take_left' (by simp)]
    exact leDecode_leEncode_of_lt (by omega)

theorem declaredLen_header (rest : Bytes) (hlen : payload.length ≤ 0xFFFFFFFF) :
    declaredLen (header payload ++ rest) = some payload.length := by
  obtain ⟨hmagic, hversion, hplen⟩ := header_fields rest hlen
  have hlong : ¬ (header payload ++ rest).length < headerLen := by
    rw [List.length_append, length_header]
    omega
  rw [declaredLen, if_neg hlong, if_neg (not_not.mpr hmagic), if_neg (not_not.mpr hversion), hplen]

theorem verify_envelope (hlen : payload.length ≤ 0xFFFFFFFF) : verify (envelope payload) = true := by
  have hassoc : envelope payload =
      header payload ++ (leEncode 4 (Crc32.hash (header payload ++ payload)).toNat ++ payload) := by
    rw [envelope, List.append_assoc]
  obtain ⟨hmagic, hversion, hplen⟩ := header_fields (leEncode 4 (Crc32.hash (header payload ++ payload)).toNat ++ payload)
    hlen
  rw [← hassoc] at hmagic hversion hplen
  have hlong : (envelope payload).length = sealedOverhead + payload.length := length_envelope payload
  have hhead : slice (envelope payload) 0 headerLen = header payload := by
    rw [hassoc, slice, List.drop_zero, ← length_header payload, List.take_left]
  have hcrc : slice (envelope payload) headerLen 4 = leEncode 4 (Crc32.hash (header payload ++ payload)).toNat := by
    rw [hassoc, slice_append_right (length_header payload), List.take_left' (length_leEncode 4 _)]
  have hbody : slice (envelope payload) sealedOverhead payload.length = payload := by
    rw [envelope, slice_append_right (by simp [length_header]), List.take_length]
  rw [verify, if_neg (by omega), if_neg (not_not.mpr hmagic), if_neg (not_not.mpr hversion)]
  simp only [hplen, hhead, hcrc, hbody]
  rw [if_neg (by omega), leDecode_leEncode_of_lt (UInt32.toNat_lt _), decide_eq_true_eq, Crc32.hash,
    Crc32.update_append]

theorem declaredLen_zeros (n : ℕ) : declaredLen (zeros n) = none := by
  unfold declaredLen
  split
  · rfl
  · rename_i hlong
    rw [length_zeros, headerLen] at hlong
    rw [slice_zeros (by omega), if_pos]
    decide

theorem isZeroed_zeros (n : ℕ) : isZeroed (zeros n) = true := by
  simp [isZeroed, zeros]

theorem scrubLoop_zeros (n : ℕ) (rep : Report) : scrubLoop (zeros n) rep = rep := by
  rw [scrubLoop]
  split
  · rfl
  · simp only [declaredLen_zeros, isZeroed_zeros, if_true]

/-- The walk passes over a whole envelope. -/
theorem scrubLoop_envelope (rest : Bytes) (rep : Report) (hlen : payload.length ≤ 0xFFFFFFFF) :
    scrubLoop (envelope payload ++ rest) rep =
      scrubLoop rest { rep with ok := rep.ok + 1, bytes := rep.bytes + (envelope payload).length } := by
  have hdeclared : declaredLen (envelope payload ++ rest) = some payload.length := by
    rw [envelope, List.append_assoc, List.append_assoc, declaredLen_header _ hlen]
  have hne : envelope payload ++ rest ≠ [] := by
    intro hnil
    rw [hnil] at hdeclared
    exact absurd hdeclared nofun
  have hlong : ¬ (envelope payload ++ rest).length < sealedLen payload.length := by
    rw [List.length_append, length_envelope]
    omega
  have htake : (envelope payload ++ rest).take (sealedLen payload.length) = envelope payload := by
    rw [← length_envelope, List.take_left]
  have hdrop : (envelope payload ++ rest).drop (sealedLen payload.length) = rest := by
    rw [← length_envelope, List.drop_left]
  rw [scrubLoop, dif_neg hne]
  simp only [hdeclared, if_neg hlong, htake, verify_envelope hlen, hdrop, if_true, length_envelope]

theorem scrubLoop_envelopes (payloads : List Bytes) (rest : Bytes) (rep : Report)
    (hlen : ∀ p ∈ payloads, p.length ≤ 0xFFFFFFFF) :
    scrubLoop ((payloads.map envelope).flatten ++ rest) rep =
      scrubLoop rest { rep with ok := rep.ok + payloads.length,
                                bytes := rep.bytes + (payloads.map envelope).flatten.length } := by
  induction payloads generalizing rep with
  | nil => rfl
  | cons p ps ih =>
    rw [List.map_cons, List.flatten_cons, List.append_assoc, scrubLoop_envelope _ _ (hlen p List.mem_cons_self),
      ih _ fun q hq ↦ hlen q (List.mem_cons_of_mem _ hq)]
    simp only [List.length_cons, List.length_append]
    congr 2
    · omega
    · omega

theorem declaredLen_cut {k : ℕ} (hlen : payload.length ≤ 0xFFFFFFFF) (hk : headerLen ≤ k) :
    declaredLen ((envelope payload).take k) = some payload.length := by
  rw [envelope, List.append_assoc, List.take_append, List.take_of_length_le (by rw [length_header]; exact hk),
    declaredLen_header _ hlen]

theorem isZeroed_cut {k : ℕ} (hpos : 0 < k) : isZeroed ((envelope payload).take k) = false := by
  obtain ⟨j, rfl⟩ : ∃ j, k = j + 1 := ⟨k - 1, by omega⟩
  have hmagic : leEncode 4 recMagic = [0x43, 0x45, 0x52, 0x54] := by decide
  simp only [envelope, header, hmagic, List.cons_append, List.take_succ_cons, isZeroed, List.all_cons]
  rfl

/-- A cut behind the header is a short envelope; a cut in the header is a bad header. -/
theorem scrubLoop_cut (rep : Report) {k : ℕ} (hlen : payload.length ≤ 0xFFFFFFFF) (hpos : 0 < k)
    (hlt : k < (envelope payload).length) :
    scrubLoop ((envelope payload).take k) rep =
      if headerLen ≤ k then { rep with truncated := true } else { rep with corrupt := rep.corrupt + 1 } := by
  have hlength : ((envelope payload).take k).length = k := by
    rw [List.length_take]
    omega
  have hne : (envelope payload).take k ≠ [] := by
    intro hnil
    rw [hnil, List.length_nil] at hlength
    omega
  rw [length_envelope] at hlt
  rw [scrubLoop, dif_neg hne]
  by_cases hk : headerLen ≤ k
  · simp only [declaredLen_cut hlen hk, hlength, if_pos hlt, if_pos hk]
  · have hnone : declaredLen ((envelope payload).take k) = none := by
      rw [declaredLen, if_pos (by omega)]
    simp only [hnone, isZeroed_cut hpos, if_neg hk, Bool.false_eq_true, if_false]

/-- How the stream of sealed envelopes ends: with zero bytes behind it, or cut off inside the
envelope number `i` with `k` of its bytes left. -/
inductive Ending
  | zeros (n : ℕ)
  | cut (i k : ℕ)

/-- The report the format promises: the whole envelopes, and whether one is cut. -/
def Scrubs (sealed : List Bytes) : Ending → Prop
  | .zeros n => scrub (sealed.flatten ++ zeros n) = ⟨sealed.length, 0, sealed.flatten.length, false⟩
  | .cut i k => scrub (sealed.flatten.take ((sealed.take i).flatten.length + k)) =
      ⟨i, 0, (sealed.take i).flatten.length, true⟩

/-- The cut lies strictly inside the envelope. -/
def Ending.Inside (sealed : List Bytes) : Ending → Prop
  | .zeros _ => True
  | .cut i k => ∃ e, sealed[i]? = some e ∧ 0 < k ∧ k < e.length

/-- The cut leaves the header of its envelope. -/
def Ending.KeepsHeader : Ending → Prop
  | .zeros _ => True
  | .cut _ k => headerLen ≤ k

theorem sealed_eq {payloads sealed : List Bytes} (h : List.Forall₂ Seals payloads sealed) :
    sealed = payloads.map envelope ∧ ∀ p ∈ payloads, p.length ≤ 0xFFFFFFFF := by
  induction h with
  | nil => exact ⟨rfl, fun _ hp ↦ absurd hp List.not_mem_nil⟩
  | cons hp _ ih =>
    obtain ⟨hlen, rfl⟩ := (seals_iff _ _).mp hp
    obtain ⟨rfl, hrest⟩ := ih
    exact ⟨rfl, List.forall_mem_cons.mpr ⟨hlen, hrest⟩⟩

/-- Cutting a stream inside one of its parts. -/
theorem take_flatten {α : Type} (es : List (List α)) {e : List α} {i k : ℕ} (he : es[i]? = some e)
    (hk : k ≤ e.length) : es.flatten.take ((es.take i).flatten.length + k) = (es.take i).flatten ++ e.take k := by
  induction es generalizing i with
  | nil => exact absurd he nofun
  | cons x xs ih =>
    cases i with
    | zero =>
      obtain rfl : x = e := Option.some.inj he
      simp only [List.take_zero, List.flatten_nil, List.length_nil, Nat.zero_add, List.nil_append, List.flatten_cons]
      exact List.take_append_of_le_length hk
    | succ i =>
      simp only [List.take_succ_cons, List.flatten_cons, List.length_append, List.append_assoc, Nat.add_assoc]
      rw [List.take_length_add_append, ih he]

theorem scrubs_iff (payloads sealed : List Bytes) (hsealed : List.Forall₂ Seals payloads sealed)
    (ending : Ending) (hinside : ending.Inside sealed) : Scrubs sealed ending ↔ ending.KeepsHeader := by
  obtain ⟨rfl, hlen⟩ := sealed_eq hsealed
  cases ending with
  | zeros n =>
    refine iff_of_true ?_ trivial
    rw [Scrubs, scrub, scrubLoop_envelopes _ _ _ hlen, scrubLoop_zeros]
    simp
  | cut i k =>
    obtain ⟨e, he, hpos, hlt⟩ := hinside
    rw [List.getElem?_map, Option.map_eq_some_iff] at he
    obtain ⟨p, hp, rfl⟩ := he
    have hmem : p ∈ payloads := List.mem_of_getElem? hp
    have hi : (payloads.take i).length = i := by
      rw [List.length_take, min_eq_left (List.getElem?_eq_some_iff.mp hp).1.le]
    have hcut := take_flatten (payloads.map envelope) (i := i) (by rw [List.getElem?_map, hp, Option.map_some]) hlt.le
    rw [Scrubs, hcut, ← List.map_take, scrub, scrubLoop_envelopes _ _ _ fun q hq ↦ hlen q (List.mem_of_mem_take hq),
      scrubLoop_cut _ (hlen p hmem) hpos hlt, Ending.KeepsHeader, hi]
    split
    · rename_i hkeeps
      refine iff_of_true ?_ hkeeps
      simp
    · rename_i hloses
      refine iff_of_false ?_ hloses
      simp

/-- Three payloads, and a cut behind the header of the second envelope. -/
theorem scrubs_three : Scrubs [envelope [1, 2], envelope [3, 4, 5], envelope [6]] (.cut 1 12) := by
  have hseals : ∀ p : Bytes, p.length ≤ 0xFFFFFFFF → Seals p (envelope p) := fun p hp ↦ (seals_iff _ _).mpr ⟨hp, rfl⟩
  have hsealed : List.Forall₂ Seals [[1, 2], [3, 4, 5], [6]] [envelope [1, 2], envelope [3, 4, 5], envelope [6]] :=
    .cons (hseals _ (by decide)) (.cons (hseals _ (by decide)) (.cons (hseals _ (by decide)) .nil))
  have hinside : (Ending.cut 1 12).Inside [envelope [1, 2], envelope [3, 4, 5], envelope [6]] :=
    ⟨envelope [3, 4, 5], rfl, by decide, by rw [length_envelope]; decide⟩
  exact (scrubs_iff _ _ hsealed (.cut 1 12) hinside).mpr (by decide : headerLen ≤ 12)

theorem cutHeader_not_scrubs :
    Seals [] (envelope []) ∧ (Ending.cut 0 4).Inside [envelope []] ∧ ¬ Scrubs [envelope []] (.cut 0 4) := by
  have hlt : 4 < (envelope []).length := by
    rw [length_envelope]
    decide
  refine ⟨(seals_iff _ _).mpr ⟨by decide, rfl⟩, ⟨envelope [], rfl, by decide, hlt⟩, fun h ↦ ?_⟩
  have hcut := scrubLoop_cut ⟨0, 0, 0, false⟩ (by decide) (by decide) hlt
  have hreport : scrubLoop ((envelope []).take 4) ⟨0, 0, 0, false⟩ = ⟨0, 0, 0, true⟩ := by
    simpa [Scrubs, scrub] using h
  rw [hcut] at hreport
  exact absurd hreport (by decide)

end TakyonDb.RecordCrc
