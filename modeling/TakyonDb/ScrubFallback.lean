import Mathlib.Tactic.NormNum
import TakyonDb.Lib.JsBits
import TakyonDb.RecordCrc

namespace TakyonDb.ScrubFallback

open Lib RecordCrc

abbrev recMagic : ℤ := 0x54524543
abbrev recVersion : ℤ := 1
abbrev recHeaderLen : ℕ := 10
abbrev recOverhead : ℕ := recHeaderLen + 4

/-- An element of a `Uint8Array`, as a number. -/
def element (buf : Bytes) (off : ℕ) : ℤ := ((buf[off]?.getD 0).toNat : ℤ)

def crcBit (crc : ℤ) : ℤ :=
  if JsBits.and crc 1 ≠ 0 then JsBits.xor (JsBits.ushr crc 1) 0xedb88320 else JsBits.ushr crc 1

def crcByte (crc : ℤ) (b : UInt8) : ℤ := (List.range 8).foldl (fun c _ ↦ crcBit c) (JsBits.xor crc b.toNat)

def crc32IEEE (data : Bytes) : ℤ :=
  JsBits.ushr (JsBits.xor (data.foldl crcByte 0xffffffff) 0xffffffff) 0

def view32 (buf : Bytes) (off : ℕ) : ℤ :=
  JsBits.ushr (JsBits.or (JsBits.or (JsBits.or (element buf off) (JsBits.shl (element buf (off + 1)) 8))
    (JsBits.shl (element buf (off + 2)) 16)) (element buf (off + 3) * 0x1000000)) 0

def version (buf : Bytes) : ℤ := JsBits.or (element buf 4) (JsBits.shl (element buf 5) 8)

/-- The setters of a `DataView` keep the low 32 bits of a number. -/
def sealRecord (payload : Bytes) : Bytes :=
  let out := zeros (recOverhead + payload.length)
  let out := overwrite out 0 (leEncode 4 recMagic.toNat)
  let out := overwrite out 4 (leEncode 2 recVersion.toNat)
  let out := overwrite out 6 (leEncode 4 payload.length)
  let crc := crc32IEEE (slice out 0 recHeaderLen ++ payload)
  let out := overwrite out recHeaderLen (leEncode 4 crc.toNat)
  overwrite out recOverhead payload

def verifyRecordFallback (buf : Bytes) : Bool :=
  if buf.length < recOverhead then false
  else if view32 buf 0 ≠ recMagic then false
  else if version buf ≠ recVersion then false
  else
    let plen := view32 buf 6
    if (buf.length : ℤ) < recOverhead + plen then false
    else
      let crc := crc32IEEE (slice buf 0 recHeaderLen ++ slice buf recOverhead plen.toNat)
      view32 buf recHeaderLen = crc

def declaredLen (buf : Bytes) : Option ℤ :=
  if buf.length < recHeaderLen then none
  else if view32 buf 0 ≠ recMagic then none
  else if version buf ≠ recVersion then none
  else some (view32 buf 6)

/-- The walk over what is left of the buffer. -/
def scrubLoop (rest : Bytes) (rep : Report) : Report :=
  if _h : rest = [] then rep
  else match declaredLen rest with
    | none => if rest.all (· == 0) then rep else { rep with corrupt := rep.corrupt + 1 }
    | some plen =>
      if (rest.length : ℤ) < recOverhead + plen then { rep with truncated := true }
      else if verifyRecordFallback (rest.take (recOverhead + plen.toNat)) then
        scrubLoop (rest.drop (recOverhead + plen.toNat))
          { rep with ok := rep.ok + 1, bytes := rep.bytes + (recOverhead + plen.toNat) }
      else { rep with corrupt := rep.corrupt + 1 }
termination_by rest.length
decreasing_by
  have hpos := List.length_pos_iff.mpr _h
  simp only [List.length_drop, recOverhead]
  omega

def scrubFallback (buf : Bytes) : Report := scrubLoop buf ⟨0, 0, 0, false⟩

theorem ofInt_byte (b : UInt8) : BitVec.ofInt 32 (b.toNat : ℤ) = b.toUInt32.toBitVec := by
  rw [BitVec.ofInt_natCast]
  apply BitVec.eq_of_toNat_eq
  have hb := b.toNat_lt
  rw [BitVec.toNat_ofNat, UInt32.toNat_toBitVec, UInt8.toNat_toUInt32]
  omega

theorem and_one_ne_zero (x : BitVec 32) : x &&& 1#32 ≠ 0#32 ↔ x &&& 1#32 = 1#32 := by
  rw [BitVec.and_one_eq_setWidth_ofBool_getLsbD]
  cases x.getLsbD 0 <;> decide

/-- One bit of the signed computation is one bit of the unsigned one. -/
theorem ofInt_crcBit {crc : ℤ} {c : UInt32} (h : BitVec.ofInt 32 crc = c.toBitVec) :
    BitVec.ofInt 32 (crcBit crc) = (Crc32.shift c).toBitVec := by
  have hodd : JsBits.and crc 1 ≠ 0 ↔ c &&& 1 = 1 := by
    have hone : BitVec.ofInt 32 1 = 1#32 := by decide
    rw [JsBits.and, h, hone, ← BitVec.toInt_zero (w := 32), ne_eq, BitVec.toInt_inj, ← ne_eq, and_one_ne_zero,
      ← UInt32.toBitVec_inj, UInt32.toBitVec_and]
    rfl
  have hpoly : BitVec.ofInt 32 0xedb88320 = (0xEDB88320 : UInt32).toBitVec := by decide
  have hshift : c.toBitVec >>> 1 = (c >>> 1).toBitVec := by
    rw [UInt32.toBitVec_shiftRight]
    rfl
  rw [crcBit, Crc32.shift]
  by_cases hlow : c &&& 1 = 1
  · rw [if_pos (hodd.mpr hlow), if_pos hlow, JsBits.ofInt_xor, JsBits.ofInt_ushr, h, hpoly, hshift,
      UInt32.toBitVec_xor]
  · rw [if_neg (mt hodd.mp hlow), if_neg hlow, JsBits.ofInt_ushr, h, hshift]

theorem ofInt_crcByte {crc : ℤ} {c : UInt32} (h : BitVec.ofInt 32 crc = c.toBitVec) (b : UInt8) :
    BitVec.ofInt 32 (crcByte crc b) = (Crc32.step c b).toBitVec := by
  have hxor : BitVec.ofInt 32 (JsBits.xor crc b.toNat) = (c ^^^ b.toUInt32).toBitVec := by
    rw [JsBits.ofInt_xor, h, ofInt_byte, UInt32.toBitVec_xor]
  exact ofInt_crcBit (ofInt_crcBit (ofInt_crcBit (ofInt_crcBit (ofInt_crcBit (ofInt_crcBit (ofInt_crcBit
    (ofInt_crcBit hxor)))))))

theorem ofInt_foldl_crcByte (data : Bytes) {crc : ℤ} {c : UInt32} (h : BitVec.ofInt 32 crc = c.toBitVec) :
    BitVec.ofInt 32 (data.foldl crcByte crc) = (Crc32.update c data).toBitVec := by
  induction data generalizing crc c with
  | nil => exact h
  | cons b bs ih => exact ih (ofInt_crcByte h b)

theorem crc32IEEE_eq (data : Bytes) : crc32IEEE data = (Crc32.hash data).toNat := by
  have hinit : BitVec.ofInt 32 0xffffffff = Crc32.init.toBitVec := by decide
  have hones : BitVec.ofInt 32 0xffffffff = (0xFFFFFFFF : UInt32).toBitVec := by decide
  rw [crc32IEEE, JsBits.ushr, JsBits.ofInt_xor, ofInt_foldl_crcByte data hinit, hones, ← UInt32.toBitVec_xor]
  simp only [BitVec.ushiftRight_zero]
  rfl

theorem or_shift {x y k : ℕ} (hx : x < 2 ^ k) : x ||| y * 2 ^ k = x + y * 2 ^ k := by
  rw [← Nat.shiftLeft_eq, Nat.or_comm, ← Nat.shiftLeft_add_eq_or_of_lt hx, Nat.add_comm]

theorem toNat_or_shift {x : BitVec 32} {y : ℤ} {b k : ℕ} (hx : x.toNat < 2 ^ k) (hb : b < 2 ^ 8) (hk : k + 8 ≤ 32)
    (hy : BitVec.ofInt 32 y = BitVec.ofNat 32 (b * 2 ^ k)) :
    (x ||| BitVec.ofInt 32 y).toNat = x.toNat + b * 2 ^ k ∧
      (x ||| BitVec.ofInt 32 y).toNat < 2 ^ (k + 8) := by
  have hpow : 2 ^ (k + 8) = 2 ^ 8 * 2 ^ k := by rw [Nat.pow_add, Nat.mul_comm]
  have hle : 2 ^ (k + 8) ≤ 2 ^ 32 := Nat.pow_le_pow_right (by decide) hk
  have hmul : (b + 1) * 2 ^ k ≤ 2 ^ 8 * 2 ^ k := Nat.mul_le_mul_right _ hb
  have hsum : b * 2 ^ k + 2 ^ k ≤ 2 ^ (k + 8) := by rw [hpow, ← Nat.succ_mul]; exact hmul
  have hbig : b * 2 ^ k < 2 ^ 32 := by
    have hpos := Nat.two_pow_pos k
    omega
  rw [BitVec.toNat_or, hy, BitVec.toNat_ofNat, Nat.mod_eq_of_lt hbig, or_shift hx]
  exact ⟨rfl, by omega⟩

theorem ofInt_shl_byte (b : UInt8) (k : ℕ) :
    BitVec.ofInt 32 (JsBits.shl b.toNat k) = BitVec.ofNat 32 (b.toNat * 2 ^ k) := by
  rw [JsBits.ofInt_shl, BitVec.ofInt_natCast]
  apply BitVec.eq_of_toNat_eq
  simp [Nat.shiftLeft_eq, BitVec.toNat_ofNat]

/-- Four bytes joined by shifts and one product are their little-endian value. -/
theorem join_bytes (b0 b1 b2 b3 : UInt8) :
    JsBits.ushr (JsBits.or (JsBits.or (JsBits.or b0.toNat (JsBits.shl b1.toNat 8))
    (JsBits.shl b2.toNat 16)) (b3.toNat * 0x1000000)) 0 = leDecode [b0, b1, b2, b3] := by
  have h0 := b0.toNat_lt
  have hlow : (BitVec.ofInt 32 (b0.toNat : ℤ)).toNat = b0.toNat := by
    rw [ofInt_byte, UInt32.toNat_toBitVec, UInt8.toNat_toUInt32]
  have hhigh : BitVec.ofInt 32 ((b3.toNat : ℤ) * 0x1000000) = BitVec.ofNat 32 (b3.toNat * 2 ^ 24) := by
    exact_mod_cast BitVec.ofInt_natCast 32 (b3.toNat * 0x1000000)
  obtain ⟨h1, l1⟩ := toNat_or_shift (by rw [hlow]; exact h0) b1.toNat_lt (by decide) (ofInt_shl_byte b1 8)
  obtain ⟨h2, l2⟩ := toNat_or_shift l1 b2.toNat_lt (by decide) (ofInt_shl_byte b2 16)
  obtain ⟨h3, -⟩ := toNat_or_shift l2 b3.toNat_lt (by decide) hhigh
  rw [JsBits.ushr]
  simp only [JsBits.ofInt_or, BitVec.ushiftRight_zero, h3, h2, h1, hlow, leDecode]
  omega

theorem drop_eq_cons {buf : Bytes} {off : ℕ} (h : off < buf.length) :
    ∃ b, buf.drop off = b :: buf.drop (off + 1) ∧ element buf off = b.toNat := by
  refine ⟨buf[off], List.drop_eq_getElem_cons h, ?_⟩
  rw [element, List.getElem?_eq_getElem h, Option.getD_some]

theorem view32_eq {buf : Bytes} {off : ℕ} (h : off + 4 ≤ buf.length) :
    view32 buf off = leDecode (slice buf off 4) := by
  obtain ⟨b0, hdrop0, helem0⟩ := @drop_eq_cons buf off (by omega)
  obtain ⟨b1, hdrop1, helem1⟩ := @drop_eq_cons buf (off + 1) (by omega)
  obtain ⟨b2, hdrop2, helem2⟩ := @drop_eq_cons buf (off + 2) (by omega)
  obtain ⟨b3, hdrop3, helem3⟩ := @drop_eq_cons buf (off + 3) (by omega)
  have hslice : slice buf off 4 = [b0, b1, b2, b3] := by
    rw [slice, hdrop0, hdrop1, hdrop2, hdrop3]
    rfl
  rw [view32, helem0, helem1, helem2, helem3, hslice, join_bytes]

theorem version_eq {buf : Bytes} (h : 6 ≤ buf.length) : version buf = leDecode (slice buf 4 2) := by
  obtain ⟨b0, hdrop0, helem0⟩ := @drop_eq_cons buf 4 (by omega)
  obtain ⟨b1, hdrop1, helem1⟩ := @drop_eq_cons buf 5 (by omega)
  have hslice : slice buf 4 2 = [b0, b1] := by
    rw [slice, hdrop0, hdrop1]
    rfl
  have hlow : (BitVec.ofInt 32 (b0.toNat : ℤ)).toNat = b0.toNat := by
    rw [ofInt_byte, UInt32.toNat_toBitVec, UInt8.toNat_toUInt32]
  obtain ⟨hjoin, hlt⟩ := toNat_or_shift (by rw [hlow]; exact b0.toNat_lt) b1.toNat_lt (by decide) (ofInt_shl_byte b1 8)
  rw [version, helem0, helem1, hslice, JsBits.or, BitVec.toInt_eq_toNat_of_lt (by omega), hjoin, hlow]
  simp only [leDecode]
  omega

theorem declaredLen_eq (buf : Bytes) : declaredLen buf = (RecordCrc.declaredLen buf).map Nat.cast := by
  unfold declaredLen RecordCrc.declaredLen
  by_cases hshort : buf.length < headerLen
  · rw [if_pos hshort, if_pos hshort]
    rfl
  · have hlen : 10 ≤ buf.length := not_lt.mp hshort
    rw [if_neg hshort, if_neg hshort, view32_eq (by omega), version_eq (by omega), view32_eq (by omega)]
    simp only [ne_eq, recMagic, recVersion, RecordCrc.recMagic, RecordCrc.recVersion]
    norm_cast
    split_ifs <;> rfl

theorem verifyRecordFallback_eq (buf : Bytes) : verifyRecordFallback buf = verify buf := by
  unfold verifyRecordFallback verify
  by_cases hshort : buf.length < sealedOverhead
  · rw [if_pos hshort, if_pos hshort]
  · have hlen : 14 ≤ buf.length := not_lt.mp hshort
    rw [if_neg hshort, if_neg hshort, view32_eq (by omega), version_eq (by omega), view32_eq (by omega),
      view32_eq (by rw [recHeaderLen]; omega)]
    simp only [ne_eq, crc32IEEE_eq, Int.toNat_natCast, Crc32.hash, Crc32.update_append, recMagic, recVersion,
      RecordCrc.recMagic, RecordCrc.recVersion]
    norm_cast

theorem scrubLoop_eq (rest : Bytes) (rep : Report) : scrubLoop rest rep = RecordCrc.scrubLoop rest rep := by
  fun_induction RecordCrc.scrubLoop rest rep with
  | case1 rep => rw [scrubLoop, dif_pos rfl]
  | case2 rest rep hne hnone hzero =>
    rw [scrubLoop, dif_neg hne]
    simp only [declaredLen_eq, hnone, Option.map_none]
    exact if_pos hzero
  | case3 rest rep hne hnone hzero =>
    rw [scrubLoop, dif_neg hne]
    simp only [declaredLen_eq, hnone, Option.map_none]
    exact if_neg hzero
  | case4 rest rep hne plen hsome hshort =>
    rw [scrubLoop, dif_neg hne]
    simp only [declaredLen_eq, hsome, Option.map_some]
    exact if_pos (by exact_mod_cast hshort)
  | case5 rest rep hne plen hsome hroom hverify ih =>
    rw [scrubLoop, dif_neg hne]
    simp only [declaredLen_eq, hsome, Option.map_some, Int.toNat_natCast, verifyRecordFallback_eq]
    rw [if_neg (by exact_mod_cast hroom)]
    exact (if_pos hverify).trans ih
  | case6 rest rep hne plen hsome hroom hverify =>
    rw [scrubLoop, dif_neg hne]
    simp only [declaredLen_eq, hsome, Option.map_some, Int.toNat_natCast, verifyRecordFallback_eq]
    rw [if_neg (by exact_mod_cast hroom)]
    exact if_neg hverify

/-- What `sealRecord` writes, for payloads of any length: the length field keeps 32 bits. -/
theorem sealRecord_eq (payload : Bytes) : sealRecord payload = envelope payload := by
  have hlen := length_zeros (sealedLen payload.length)
  rw [sealRecord]
  simp only [crc32IEEE_eq]
  change overwrite (overwrite (overwrite (overwrite (overwrite (zeros (sealedLen payload.length)) 0
    (leEncode 4 RecordCrc.recMagic)) 4 (leEncode 2 RecordCrc.recVersion)) 6 (leEncode 4 payload.length)) headerLen _)
    sealedOverhead payload = _
  rw [overwrite_header hlen.ge]
  change overwrite (overwrite _ headerLen (leEncode 4 (Crc32.hash (slice (overwrite (overwrite (overwrite
    (zeros (sealedLen payload.length)) 0 (leEncode 4 RecordCrc.recMagic)) 4 (leEncode 2 RecordCrc.recVersion)) 6
    (leEncode 4 payload.length)) 0 headerLen ++ payload)).toNat)) sealedOverhead payload = _
  rw [overwrite_header hlen.ge, slice_header hlen.ge, overwrite_envelope hlen.ge, List.drop_of_length_le hlen.le,
    List.append_nil]

/-- What either side sealed is what the other seals, and both accept it. -/
def SealsAlike (payload : Bytes) : Prop :=
  ∀ e, e = sealRecord payload ∨ Seals payload e →
    e = sealRecord payload ∧ Seals payload e ∧ verify e = true ∧ verifyRecordFallback e = true

/-- The two scrubbers agree on a buffer and on a payload to seal. -/
structure Agree (buf payload : Bytes) : Prop where
  verdict : verifyRecordFallback buf = verify buf
  report : scrubFallback buf = scrub buf
  sealed : SealsAlike payload

theorem agree_iff (buf payload : Bytes) : Agree buf payload ↔ payload.length < 2 ^ 32 := by
  constructor
  · intro h
    obtain ⟨-, hseals, -⟩ := h.sealed _ (.inl rfl)
    have hlen := ((seals_iff _ _).mp hseals).1
    omega
  · intro hlen
    refine ⟨verifyRecordFallback_eq buf, scrubLoop_eq buf _, fun e he ↦ ?_⟩
    have hle : payload.length ≤ 0xFFFFFFFF := by omega
    have henvelope : e = envelope payload := by
      rcases he with rfl | hseals
      · exact sealRecord_eq payload
      · exact ((seals_iff _ _).mp hseals).2
    rw [verifyRecordFallback_eq, sealRecord_eq, seals_iff, henvelope]
    exact ⟨rfl, ⟨hle, rfl⟩, verify_envelope hle, verify_envelope hle⟩

/-- A payload of 4 GiB is sealed on one side and refused on the other. -/
theorem fourGibibytes_not_agree : ¬ Agree [] (List.replicate (2 ^ 32) 0) := by
  intro h
  obtain ⟨-, hseals, -⟩ := h.sealed _ (.inl rfl)
  have hlen := ((seals_iff _ _).mp hseals).1
  rw [List.length_replicate] at hlen
  exact absurd hlen (by decide)

end TakyonDb.ScrubFallback
