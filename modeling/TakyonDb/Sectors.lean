import TakyonDb.Framing

namespace TakyonDb.Framing

open Lib Layout Wal Replay

/-- `q` is the front of the first record of a list, cut before its end. -/
def Cut (q : Bytes) : List Entry → Prop
  | [] => q = []
  | e :: _ => q <+: e.encode ∧ q.length < e.encode.length

/-- The records whose encodings fit, one after the other, in `k` bytes. -/
def wholeEntries : ℕ → List Entry → List Entry
  | _, [] => []
  | k, e :: es =>
    if e.encode.length ≤ k then e :: wholeEntries (k - e.encode.length) es else []

theorem cut_nil (es : List Entry) : Cut [] es := by
  cases es with
  | nil => rfl
  | cons e es => exact ⟨List.nil_prefix, by rw [Entry.length_encode, headerSize, List.length_nil]; omega⟩

theorem Cut.append {q : Bytes} {es : List Entry} (h : Cut q es) (more : List Entry) :
    Cut q (es ++ more) := by
  cases es with
  | nil =>
    obtain rfl : q = [] := h
    exact cut_nil _
  | cons e es => exact h

theorem exists_cut {es : List Entry} {x y : Bytes} (h : x ++ y = es.flatMap Entry.encode) :
    ∃ es₁ es₂ q, es = es₁ ++ es₂ ∧ x = es₁.flatMap Entry.encode ++ q ∧ Cut q es₂ ∧
      q ++ y = es₂.flatMap Entry.encode := by
  induction es generalizing x with
  | nil =>
    obtain ⟨rfl, rfl⟩ := List.append_eq_nil_iff.mp h
    exact ⟨[], [], [], rfl, rfl, rfl, rfl⟩
  | cons e es ih =>
    rw [List.flatMap_cons] at h
    by_cases hlt : x.length < e.encode.length
    · have hx : x <+: e.encode :=
        List.prefix_of_prefix_length_le ⟨y, h⟩ (List.prefix_append _ _) hlt.le
      exact ⟨[], e :: es, x, rfl, rfl, ⟨hx, hlt⟩, by rw [h, List.flatMap_cons]⟩
    · have hx : e.encode <+: x :=
        List.prefix_of_prefix_length_le (List.prefix_append _ _) ⟨y, h⟩ (Nat.not_lt.mp hlt)
      obtain ⟨x', rfl⟩ := hx
      rw [List.append_assoc, List.append_cancel_left_eq] at h
      obtain ⟨es₁, es₂, q, rfl, rfl, hq, hy⟩ := ih h
      exact ⟨e :: es₁, es₂, q, rfl, by rw [List.flatMap_cons, List.append_assoc], hq, hy⟩

theorem wholeEntries_of_cut {q : Bytes} {todo : List Entry} (hq : Cut q todo) (es : List Entry) :
    wholeEntries ((es.flatMap Entry.encode ++ q).length) (es ++ todo) = es := by
  induction es with
  | nil =>
    cases todo with
    | nil => rfl
    | cons e todo =>
      have := hq.2
      rw [List.nil_append, wholeEntries, if_neg]
      simp only [List.flatMap_nil, List.nil_append]
      omega
  | cons e es ih =>
    rw [List.length_append] at ih ⊢
    rw [List.cons_append, wholeEntries, List.flatMap_cons, List.length_append, if_pos (by omega)]
    rw [show e.encode.length + (es.flatMap Entry.encode).length + q.length - e.encode.length =
      (es.flatMap Entry.encode).length + q.length by omega, ih]

theorem crcMatches_sealSector {c : Bytes} (h : c.length ≤ sectorPayload) :
    crcMatches (sealSector c) = true ∧ (sealSector c).take sectorPayload =
      c ++ List.replicate (sectorPayload - c.length) 0 := by
  generalize hp : c ++ List.replicate (sectorPayload - c.length) (0 : UInt8) = payload
  have hlen : payload.length = sectorPayload := by
    rw [← hp, List.length_append, List.length_replicate]
    omega
  have htake : (sealSector c).take sectorPayload = payload := by
    rw [sealSector, hp, ← hlen, List.take_left]
  have hslice : slice (sealSector c) sectorPayload 4 = leEncode 4 (Crc32.hash payload).toNat := by
    rw [slice, sealSector, hp, ← hlen, List.drop_left]
    exact List.take_of_length_le (by rw [length_leEncode])
  refine ⟨?_, htake⟩
  rw [crcMatches, htake, hslice, leDecode_leEncode_of_lt (Crc32.hash payload).toNat_lt]
  exact beq_self_eq_true _

/-- Reading the sectors that hold `cs`, with `q` carried in, meets the
records `es` and carries `r` out, the front of the first record of `todo`.
After the last sector `r` can be unknown. -/
inductive Framed : Bytes → List Bytes → List Entry → Option Bytes → List Entry → Prop
  | nil {q : Bytes} {todo : List Entry} : Cut q todo → Framed q [] [] (some q) todo
  | full {q c q' : Bytes} {cs : List Bytes} {es es' todo : List Entry} {r : Option Bytes} :
      c.length = sectorPayload → q ++ c = es.flatMap Entry.encode ++ q' → Cut q' (es' ++ todo) →
      Framed q' cs es' r todo → Framed q (c :: cs) (es ++ es') r todo
  | padded {q c : Bytes} {cs : List Bytes} {es es' todo : List Entry} {r : Option Bytes} :
      c.length + minPadding ≤ sectorPayload → q ++ c = es.flatMap Entry.encode →
      Framed [] cs es' r todo → Framed q (c :: cs) (es ++ es') r todo
  | last {q c : Bytes} {es todo : List Entry} :
      c.length ≤ sectorPayload → q ++ c = es.flatMap Entry.encode → Framed q [c] es none todo

namespace Framed

variable {q q₁ : Bytes} {cs cs' : List Bytes} {es es' todo : List Entry} {r : Option Bytes}

theorem trans {todo₁ : List Entry} (h : Framed q cs es (some q₁) todo₁) (htodo : todo₁ = es' ++ todo)
    (h' : Framed q₁ cs' es' r todo) : Framed q (cs ++ cs') (es ++ es') r todo := by
  generalize hr : some q₁ = r₁ at h
  induction h with
  | nil hq =>
    cases hr
    exact h'
  | full hc hbytes hcut _ ih =>
    subst htodo
    rw [List.cons_append, List.append_assoc]
    rw [← List.append_assoc] at hcut
    exact .full hc hbytes hcut (ih rfl hr)
  | padded hc hbytes _ ih =>
    subst htodo
    rw [List.cons_append, List.append_assoc]
    exact .padded hc hbytes (ih rfl hr)
  | last hc hbytes => cases hr

theorem append_todo (h : Framed q cs es r todo) (more : List Entry) :
    Framed q cs es r (todo ++ more) := by
  induction h with
  | nil hq => exact .nil (hq.append more)
  | full hc hbytes hcut _ ih =>
    exact .full hc hbytes (by rw [← List.append_assoc]; exact hcut.append more) ih
  | padded hc hbytes _ ih => exact .padded hc hbytes ih
  | last hc hbytes => exact .last hc hbytes

theorem bytes (h : Framed q cs es r todo) :
    q ++ cs.flatten = es.flatMap Entry.encode ++ r.getD [] := by
  induction h with
  | nil hq => simp
  | full hc hbytes hcut _ ih =>
    rw [List.flatten_cons, ← List.append_assoc, hbytes, List.append_assoc, ih, List.flatMap_append,
      List.append_assoc]
  | padded hc hbytes _ ih =>
    rw [List.nil_append] at ih
    rw [List.flatten_cons, ← List.append_assoc, hbytes, ih, List.flatMap_append, List.append_assoc]
  | last hc hbytes => simpa using hbytes

/-- Behind sectors that carry nothing out, a new log can start. -/
theorem restart {todo₁ : List Entry} (h : Framed q cs es (some []) todo₁)
    (h' : Framed [] cs' es' r todo) : Framed q (cs ++ cs') (es ++ es') r todo := by
  generalize hr : some ([] : Bytes) = r₁ at h
  induction h with
  | nil hq =>
    cases hr
    exact h'
  | @full q c q' cs es es₁ todo₁ r₁ hc hbytes hcut h ih =>
    subst hr
    rw [List.cons_append, List.append_assoc]
    refine .full hc hbytes ?_ (ih rfl)
    cases es₁ with
    | nil =>
      obtain rfl : q' = [] := (List.append_eq_nil_iff.mp h.bytes).1
      exact cut_nil _
    | cons e es₁ => exact hcut
  | padded hc hbytes _ ih =>
    rw [List.cons_append, List.append_assoc]
    exact .padded hc hbytes (ih hr)
  | last hc hbytes => cases hr

/-- A last sector without ambiguous padding carries nothing out. -/
theorem settle (h : Framed q cs es none todo)
    (hlast : ∀ c ∈ cs.getLast?, c.length = sectorPayload ∨ c.length + minPadding ≤ sectorPayload) :
    Framed q cs es (some []) todo := by
  generalize hr : (none : Option Bytes) = r₁ at h
  induction h with
  | nil hq => cases hr
  | @full q c q' cs es es₁ todo₁ r₁ hc hbytes hcut h ih =>
    subst hr
    refine .full hc hbytes hcut (ih (fun b hb ↦ hlast b ?_) rfl)
    cases cs with
    | nil => cases hb
    | cons d cs => simpa [List.getLast?_cons] using hb
  | @padded q c cs es es₁ todo₁ r₁ hc hbytes h ih =>
    subst hr
    refine .padded hc hbytes (ih (fun b hb ↦ hlast b ?_) rfl)
    cases cs with
    | nil => cases hb
    | cons d cs => simpa [List.getLast?_cons] using hb
  | @last q c es todo hc hbytes =>
    rw [← List.append_nil es]
    rcases hlast c rfl with hfull | hpad
    · exact .full hfull (by rw [List.append_nil]; exact hbytes) (cut_nil _) (.nil (cut_nil _))
    · exact .padded hpad hbytes (.nil (cut_nil _))

theorem cut (h : Framed q cs es r todo) : Cut (r.getD []) todo := by
  induction h with
  | nil hq => exact hq
  | full _ _ _ _ ih => exact ih
  | padded _ _ _ ih => exact ih
  | last _ _ => exact cut_nil _

theorem length_le (h : Framed q cs es r todo) : ∀ c ∈ cs, c.length ≤ sectorPayload := by
  induction h with
  | nil _ => simp
  | full hc _ _ _ ih => exact List.forall_mem_cons.mpr ⟨hc.le, ih⟩
  | padded hc _ _ ih => exact List.forall_mem_cons.mpr ⟨by omega, ih⟩
  | last hc _ => simpa using hc

/-- The front of a framed list of sectors is framed, and so is the rest,
unless the front already ends in the last sector. -/
theorem split (h : Framed q (cs ++ cs') es r todo) (hq : Cut q (es ++ todo)) :
    ∃ es₁ es₂ r₁, es = es₁ ++ es₂ ∧ Framed q cs es₁ r₁ (es₂ ++ todo) ∧
      (r₁ = none ∧ cs' = [] ∧ es₂ = [] ∨ ∃ q₁, r₁ = some q₁ ∧ Framed q₁ cs' es₂ r todo) := by
  induction cs generalizing q es with
  | nil => exact ⟨[], es, some q, rfl, .nil hq, .inr ⟨q, rfl, h⟩⟩
  | cons c cs ih =>
    rw [List.cons_append] at h
    generalize hrest : cs ++ cs' = rest at h
    cases h with
    | @full _ _ q' _ es es' _ _ hc hbytes hcut h =>
      subst hrest
      obtain ⟨es₁, es₂, r₁, rfl, h₁, h₂⟩ := ih h hcut
      refine ⟨es ++ es₁, es₂, r₁, by rw [List.append_assoc], ?_, h₂⟩
      exact .full hc hbytes (by rwa [← List.append_assoc]) h₁
    | @padded _ _ _ es es' _ _ hc hbytes h =>
      subst hrest
      obtain ⟨es₁, es₂, r₁, rfl, h₁, h₂⟩ := ih h (cut_nil _)
      exact ⟨es ++ es₁, es₂, r₁, by rw [List.append_assoc], .padded hc hbytes h₁, h₂⟩
    | last hc hbytes =>
      obtain ⟨rfl, rfl⟩ := List.append_eq_nil_iff.mp hrest
      exact ⟨es, [], none, (List.append_nil es).symm, .last hc hbytes, .inl ⟨rfl, rfl, rfl⟩⟩

/-- Any number of whole sectors at the front is framed as well. -/
theorem take (h : Framed q cs es r todo) (hq : Cut q (es ++ todo)) (k : ℕ) :
    ∃ es₁ es₂ r₁, es = es₁ ++ es₂ ∧ Framed q (cs.take k) es₁ r₁ (es₂ ++ todo) := by
  rw [← List.take_append_drop k cs] at h
  obtain ⟨es₁, es₂, r₁, hes, h₁, -⟩ := h.split hq
  exact ⟨es₁, es₂, r₁, hes, h₁⟩

end Framed

/-- Full sectors that hold the front of `todo` are framed. -/
theorem exists_framed_full {q tail : Bytes} {full : List Bytes} {todo : List Entry}
    (hfull : ∀ c ∈ full, c.length = sectorPayload) (hq : Cut q todo)
    (hbytes : q ++ (full.flatten ++ tail) = todo.flatMap Entry.encode) :
    ∃ es todo' q', todo = es ++ todo' ∧ Framed q full es (some q') todo' ∧
      q' ++ tail = todo'.flatMap Entry.encode := by
  induction full generalizing q todo with
  | nil => exact ⟨[], todo, q, rfl, .nil hq, by simpa using hbytes⟩
  | cons c cs ih =>
    rw [List.flatten_cons, List.append_assoc, ← List.append_assoc] at hbytes
    obtain ⟨es₁, es₂, q₁, rfl, hc, hq₁, hrest⟩ := exists_cut hbytes
    obtain ⟨es, todo', q', rfl, hframed, htail⟩ :=
      ih (fun c h ↦ hfull c (List.mem_cons_of_mem _ h)) hq₁ hrest
    exact ⟨es₁ ++ es, todo', q', by rw [List.append_assoc],
      .full (hfull c List.mem_cons_self) hc hq₁ hframed, htail⟩

theorem scanSector_cut_todo {regions : Regions} {n : ℕ} {q : Bytes} {todo : List Entry}
    (htodo : ∀ e ∈ todo, e.Valid n) (hq : Cut q todo) (sector : ℕ) (st : Recovered) :
    scanSector regions sector q st = (st, q) := by
  cases todo with
  | nil =>
    obtain rfl : q = [] := hq
    exact scanSector_nil _ _
  | cons e todo => exact scanSector_cut (htodo e List.mem_cons_self) hq.1 hq.2 sector st

end TakyonDb.Framing
