import Mathlib.Logic.Function.Basic
import TakyonDb.Allocators
import TakyonDb.Lib.Frontier

namespace TakyonDb.AllocatorSteps

open Lib Layout Allocators

/-- The two regions whose space the clients share. -/
inductive Area
  | records
  | strings
deriving DecidableEq

namespace Area

def word (r : Regions) : Area → ℕ
  | .records => recordBumpView r
  | .strings => r.stringStart.toNat

def first (r : Regions) : Area → ℕ
  | .records => r.recordStart.toNat
  | .strings => r.stringDataStart

def last (r : Regions) : Area → ℕ
  | .records => r.recordEnd
  | .strings => r.stringEnd

/-- The space of the smallest request. -/
def unit : Area → ℕ
  | .records => 8
  | .strings => 0

end Area

inductive Request
  | record (size : ℕ)
  | field (bytes : Bytes)
  | catalog (payload : Bytes)
  | key (src : Bytes)

namespace Request

def area : Request → Area
  | .record _ => .records
  | .field _ | .catalog _ | .key _ => .strings

/-- What the end of the new range is compared with. -/
def limit (r : Regions) (mapped : ℕ) : Request → ℕ
  | .record _ => r.recordEnd
  | .field _ | .key _ => r.stringEnd
  | .catalog _ => mapped

def space : Request → ℕ
  | .record size => alignUp size
  | .field bytes => bytes.length
  | .catalog payload => payload.length
  | .key src => alignUp src.length

/-- What is copied into the range as soon as it is granted. -/
def content : Request → Bytes
  | .record _ => []
  | .field bytes => bytes
  | .catalog payload => payload
  | .key src => src

/-- Records and keys have at least one byte. -/
def Proper : Request → Prop
  | .record size => size ≠ 0
  | .key src => src ≠ []
  | .field _ | .catalog _ => True

/-- The checks in front of the first access to the bump word; the record
allocator's view of it has to be aligned. -/
def admitted (r : Regions) (mapped : ℕ) : Request → Bool
  | .record size => size ≠ 0 ∧ recordBumpView r % 4 = 0
  | .field _ => r.stringDataStart < mapped
  | .catalog _ => r.stringStart.toNat + 4 ≤ mapped ∧ r.stringDataStart ≤ mapped
  | .key src => alignUp src.length ≠ 0 ∧ alignUp src.length ≤ r.stringBytes.toNat

end Request

/-- Where a client is in its request: behind the compare-and-set of a zero
word, behind a load of `allocString`, or in front of the copy. -/
inductive Phase
  | idle
  | asked (q : Request)
  | loaded (src : Bytes) (cur : ℕ)
  | filling (off : ℕ) (content : Bytes)

/-- The shared arena, the clients, the ranges that were granted, and the
requests that were not, each with what its region had left at the time. -/
structure System (ι : Type) where
  arena : Bytes
  client : ι → Phase
  granted : Area → List Extent
  denied : List (Request × ℕ) := []

inductive Event (ι : Type)
  | ask (i : ι) (q : Request)
  | move (i : ι)

variable {ι : Type} [DecidableEq ι]

namespace System

def become (s : System ι) (i : ι) (p : Phase) : System ι := { s with client := Function.update s.client i p }

def setWord (r : Regions) (s : System ι) (a : Area) (v : ℕ) : System ι :=
  { s with arena := writeU32 s.arena (a.word r) v }

def remaining (r : Regions) (s : System ι) (a : Area) : ℕ := a.last r - frontier (a.first r) (s.granted a)

def deny (r : Regions) (s : System ι) (q : Request) : System ι :=
  { s with denied := (q, s.remaining r q.area) :: s.denied }

/-- The range at `off` belongs to client `i`, which goes on to fill it. -/
def give (s : System ι) (i : ι) (q : Request) (off : ℕ) : System ι :=
  { s.become i (.filling off q.content) with
    granted := Function.update s.granted q.area (⟨off, q.space⟩ :: s.granted q.area) }

def ask (r : Regions) (s : System ι) (i : ι) (q : Request) : System ι :=
  if q.admitted r s.arena.length then
    { s with arena := seed (q.area.word r) (q.area.first r) s.arena }.become i (.asked q)
  else s.deny r q

/-- `Atomics.add`, and the check of what it returned. -/
def add (r : Regions) (s : System ι) (i : ι) (q : Request) : System ι :=
  let old := readU32 s.arena (q.area.word r)
  let moved := s.setWord r q.area ((old + q.space) % 2 ^ 32)
  if q.limit r s.arena.length < old + q.space then (moved.deny r q).become i .idle
  else moved.give i q old

/-- One turn of the loop of `allocString`. -/
def swap (r : Regions) (s : System ι) (i : ι) (src : Bytes) (cur : ℕ) : System ι :=
  let q := Request.key src
  let actual := readU32 s.arena (q.area.word r)
  if q.limit r s.arena.length < cur + q.space then (s.deny r q).become i .idle
  else if actual = cur then (s.setWord r q.area (cur + q.space)).give i q cur
  else s.become i (.loaded src actual)

/-- The next atomic step of client `i`. -/
def move (r : Regions) (s : System ι) (i : ι) : System ι :=
  match s.client i with
  | .idle => s
  | .asked (.key src) => s.become i (.loaded src (readU32 s.arena (Area.strings.word r)))
  | .asked q => s.add r i q
  | .loaded src cur => s.swap r i src cur
  | .filling off content => { s with arena := overwrite s.arena off content }.become i .idle

end System

inductive Step (r : Regions) (s : System ι) : Event ι → System ι → Prop
  | ask {i : ι} {q : Request} (hidle : s.client i = .idle) (hproper : q.Proper) :
      Step r s (.ask i q) (s.ask r i q)
  | move {i : ι} (hbusy : s.client i ≠ .idle) : Step r s (.move i) (s.move r i)

/-- What is granted is inside and disjoint, and nothing that fitted into the
rest of its region was refused. -/
structure Sound (r : Regions) (s : System ι) : Prop where
  inside : ∀ a, ∀ g ∈ s.granted a, a.first r ≤ g.start ∧ g.stop ≤ a.last r
  disjoint : (s.granted .records ++ s.granted .strings).Pairwise fun g h ↦ Disjoint g.cells h.cells
  available : ∀ d ∈ s.denied, d.2 < d.1.space

/-- An arena of `n` bytes whose bump words are new, or where an earlier life
has left them, and nobody at work. -/
structure Started (r : Regions) (n : ℕ) (s : System ι) : Prop where
  length : s.arena.length = n
  idle : ∀ i, s.client i = .idle
  denied : s.denied = []
  words : ∀ a : Area, (readU32 s.arena (a.word r) = 0 ∧ s.granted a = []) ∨
    (a.first r ≤ readU32 s.arena (a.word r) ∧ readU32 s.arena (a.word r) ≤ a.last r ∧
      s.granted a = [⟨a.first r, readU32 s.arena (a.word r) - a.first r⟩])

/-- No `Atomics.add` runs over the end of its region, unless nothing at all
is left of the records and their word does not wrap; and no client is kept
from the bump word of a record that fits or of an empty string. -/
def Keeps (r : Regions) (s : System ι) : Event ι → Prop
  | .ask _ (.record size) => recordBumpView r % 4 = 0 ∨ s.remaining r .records < alignUp size
  | .ask _ (.field bytes) => bytes ≠ [] ∨ r.stringDataStart < s.arena.length
  | .ask _ (.catalog _) | .ask _ (.key _) => True
  | .move i =>
    match s.client i with
    | .idle | .filling _ _ | .loaded _ _ | .asked (.key _) => True
    | .asked q => readU32 s.arena (q.area.word r) + q.space ≤ q.area.last r ∨
        (q.area.last r < frontier (q.area.first r) (s.granted q.area) + q.area.unit ∧
          readU32 s.arena (q.area.word r) + q.space < 2 ^ 32)

/-- What the memory says about a request that has begun. -/
def PhaseOk (r : Regions) (arena : Bytes) : Phase → Prop
  | .idle => True
  | .asked q => readU32 arena (q.area.word r) ≠ 0 ∧ q.Proper
  | .loaded _ cur => readU32 arena (Area.strings.word r) ≠ 0 ∧ cur ≤ readU32 arena (Area.strings.word r)
  | .filling off content => content = [] ∨ (r.stringDataStart ≤ off ∧ off + content.length ≤ r.stringEnd)

/-- What every reachable state keeps. -/
structure Inv (r : Regions) (n : ℕ) (s : System ι) : Prop where
  length : s.arena.length = n
  granted : ∀ a, Granted (a.first r) (a.last r) a.unit (readU32 s.arena (a.word r)) (s.granted a)
  clients : ∀ i, PhaseOk r s.arena (s.client i)
  denied : ∀ d ∈ s.denied, d.2 < d.1.space

section Words

variable {r : Regions} {n : ℕ}

/-- The two words are apart and in front of what they grant. -/
theorem words_fit (h : Layout.Valid r n) : recordBumpView r + 8 = r.recordStart.toNat ∧
    recordBumpView r + 4 ≤ r.stringStart.toNat ∧ r.stringStart.toNat + 8 ≤ r.stringEnd ∧
    r.recordEnd ≤ r.stringStart.toNat ∧ r.stringEnd ≤ n ∧ n < 2 ^ 32 := by
  have hrecord := h.record
  have hrecordEnd := h.recordEnd_le
  have hartEnd := h.artEnd_le
  have hbytes := h.string_bytes
  have hn : n < 2 ^ 32 := h.arena ▸ r.arenaBytes.toNat_lt
  rw [Regions.recordEnd] at hrecordEnd
  rw [Regions.artEnd] at hartEnd
  refine ⟨?_, ?_, ?_, ?_, h.stringEnd_le, hn⟩ <;>
    simp only [recordBumpView, Regions.stringEnd, Regions.recordEnd] <;> omega

theorem Area.word_fits (h : Layout.Valid r n) (a : Area) : a.word r + 4 ≤ n := by
  obtain ⟨-, h₁, h₂, -, h₃, -⟩ := words_fit h
  cases a <;> simp only [Area.word] <;> omega

theorem Area.first_pos (h : Layout.Valid r n) (a : Area) : 0 < a.first r := by
  obtain ⟨h₁, -⟩ := words_fit h
  cases a <;> simp only [Area.first, Regions.stringDataStart] <;> omega

theorem Area.first_le (h : Layout.Valid r n) (a : Area) : a.first r ≤ a.last r := by
  obtain ⟨-, -, h₂, -⟩ := words_fit h
  cases a <;> simp only [Area.first, Area.last, Regions.stringDataStart, Regions.recordEnd] <;> omega

theorem Area.last_le (h : Layout.Valid r n) (a : Area) : a.last r ≤ n := by
  obtain ⟨-, -, h₂, h₃, h₄, -⟩ := words_fit h
  cases a <;> simp only [Area.last] <;> omega

end Words

/-- Bump words that are in use only grow. -/
def Grows (r : Regions) (arena arena' : Bytes) : Prop :=
  ∀ a : Area, readU32 arena (a.word r) ≤ readU32 arena' (a.word r)

section Steps

variable {r : Regions} {n : ℕ} {s : System ι} {arena : Bytes} {i : ι} {q : Request}

theorem PhaseOk.mono {arena' : Bytes} {p : Phase} (h : PhaseOk r arena p) (hgrows : Grows r arena arena') :
    PhaseOk r arena' p := by
  cases p with
  | idle => trivial
  | asked q =>
    have := hgrows q.area
    exact ⟨by have := h.1; omega, h.2⟩
  | loaded src cur =>
    have := hgrows .strings
    exact ⟨by have := h.1; omega, h.2.trans this⟩
  | filling off content => exact h

theorem readU32_setWord (hr : Layout.Valid r n) (hlen : arena.length = n) (a b : Area) {v : ℕ}
    (hv : v < 2 ^ 32) :
    readU32 (writeU32 arena (a.word r) v) (b.word r) = if b = a then v else readU32 arena (b.word r) := by
  have hfit := a.word_fits hr
  split_ifs with hab
  · rw [hab, readU32_writeU32_self (by omega) hv]
  · obtain ⟨-, hapart, -⟩ := words_fit hr
    refine readU32_overwrite_of_disjoint (by rwa [length_leEncode, hlen]) ?_
    rw [length_leEncode]
    cases a <;> cases b <;> simp only [Area.word, not_true_eq_false] at hab ⊢ <;> omega

/-- One client moves on, the words grow, and the grants agree with them. -/
theorem Inv.advance (h : Inv r n s) {t : System ι} {p : Phase} (hlen : t.arena.length = n)
    (hclient : t.client = Function.update s.client i p) (hgrows : Grows r s.arena t.arena)
    (hp : PhaseOk r t.arena p)
    (hgranted : ∀ a : Area, Granted (a.first r) (a.last r) a.unit (readU32 t.arena (a.word r)) (t.granted a))
    (hdenied : ∀ d ∈ t.denied, d.2 < d.1.space) : Inv r n t := by
  refine ⟨hlen, hgranted, fun j ↦ ?_, hdenied⟩
  rw [hclient]
  by_cases hj : j = i
  · rw [hj, Function.update_self]
    exact hp
  · rw [Function.update_of_ne hj]
    exact (h.clients j).mono hgrows

theorem seed_spec (hr : Layout.Valid r n) (hlen : arena.length = n) (a : Area) :
    (seed (a.word r) (a.first r) arena).length = n ∧
    ∀ b : Area, readU32 (seed (a.word r) (a.first r) arena) (b.word r) =
      if b = a ∧ readU32 arena (a.word r) = 0 then a.first r else readU32 arena (b.word r) := by
  have hfirst := (a.first_le hr).trans (a.last_le hr)
  obtain ⟨-, -, -, -, -, hn⟩ := words_fit hr
  have hfit := a.word_fits hr
  rw [seed]
  split_ifs with hzero
  · refine ⟨(length_writeU32 (by rwa [hlen]) _).trans hlen, fun b ↦ ?_⟩
    rw [readU32_setWord hr hlen a b (by omega)]
    simp only [hzero, and_true]
  · refine ⟨hlen, fun b ↦ ?_⟩
    rw [if_neg fun hb ↦ hzero hb.2]

omit [DecidableEq ι] in
theorem Inv.deny (h : Inv r n s) (hfull : s.remaining r q.area < q.space) : Inv r n (s.deny r q) :=
  ⟨h.length, h.granted, h.clients, List.forall_mem_cons.mpr ⟨hfull, h.denied⟩⟩

omit [DecidableEq ι] in
/-- A request that is turned away before the bump word does not fit. -/
theorem Inv.unadmitted (hr : Layout.Valid r n) (h : Inv r n s) (hproper : q.Proper) (hkeeps : Keeps r s (.ask i q))
    (hno : ¬ q.admitted r s.arena.length = true) : s.remaining r q.area < q.space := by
  obtain ⟨-, -, hstring, -, hend, -⟩ := words_fit hr
  rw [h.length] at hno
  have hfirst := le_frontier (q.area.first r) (s.granted q.area)
  cases q with
  | record size =>
    rw [Keeps] at hkeeps
    simp only [Request.admitted, Request.Proper] at hno hproper
    exact hkeeps.resolve_left fun haligned ↦ hno (by simp [hproper, haligned])
  | field bytes =>
    rw [Keeps, h.length] at hkeeps
    rw [Request.admitted, decide_eq_true_eq] at hno
    have hlen := List.length_pos_iff.mpr (hkeeps.resolve_right hno)
    simp only [System.remaining, Request.area, Request.space, Area.first, Area.last] at hfirst ⊢
    omega
  | catalog payload =>
    rw [Request.admitted, decide_eq_true_eq, Regions.stringDataStart] at hno
    omega
  | key src =>
    have hlen := List.length_pos_iff.mpr hproper
    rw [Request.admitted, decide_eq_true_eq, alignUp] at hno
    simp only [System.remaining, Request.area, Request.space, Area.first, Area.last, Regions.stringDataStart,
      Regions.stringEnd, alignUp] at hfirst ⊢
    omega

theorem Inv.ask (hr : Layout.Valid r n) (h : Inv r n s) (hproper : q.Proper) (hkeeps : Keeps r s (.ask i q)) :
    Inv r n (s.ask r i q) := by
  rw [System.ask]
  split_ifs with hadmitted
  · obtain ⟨hlen, hread⟩ := seed_spec hr h.length q.area
    have hfirst := q.area.first_pos hr
    refine h.advance hlen rfl (fun b ↦ ?_) ⟨?_, hproper⟩ (fun b ↦ ?_) h.denied
    · rw [System.become, hread]
      split_ifs with hb
      · rw [hb.1]
        omega
      · exact le_rfl
    · rw [System.become, hread]
      split_ifs with hb
      · omega
      · exact fun hzero ↦ hb ⟨rfl, hzero⟩
    · have hold := h.granted b
      rw [System.become, hread]
      split_ifs with hb
      · obtain ⟨rfl, hzero⟩ := hb
        rw [hzero] at hold
        exact hold.seed hfirst
      · exact hold
  · exact h.deny (h.unadmitted hr hproper hkeeps hadmitted)

omit [DecidableEq ι] in
theorem length_setWord (hr : Layout.Valid r n) (h : Inv r n s) (a : Area) (v : ℕ) :
    (s.setWord r a v).arena.length = n := by
  have hfit := a.word_fits hr
  rw [System.setWord, length_writeU32 (by rwa [h.length]), h.length]

omit [DecidableEq ι] in
theorem grows_setWord (hr : Layout.Valid r n) (h : Inv r n s) (a : Area) {v : ℕ} (hv : v < 2 ^ 32)
    (hle : readU32 s.arena (a.word r) ≤ v) : Grows r s.arena (s.setWord r a v).arena := by
  intro b
  rw [System.setWord, readU32_setWord hr h.length a b hv]
  split_ifs with hb
  · rw [hb]
    exact hle
  · exact le_rfl

omit [DecidableEq ι] in
/-- The content of a range that the word grants lies in the strings. -/
theorem phaseOk_filling (h : Inv r n s) (hword : readU32 s.arena (q.area.word r) ≠ 0)
    (hfit : readU32 s.arena (q.area.word r) + q.space ≤ q.area.last r) :
    PhaseOk r arena (.filling (readU32 s.arena (q.area.word r)) q.content) := by
  have hfront := (le_frontier _ _).trans ((h.granted q.area).frontier_le_word hword)
  have hround : ∀ m, m ≤ alignUp m := fun m ↦ by rw [alignUp]; omega
  cases q with
  | record size => exact .inl rfl
  | field bytes => exact .inr ⟨hfront, hfit⟩
  | catalog payload => exact .inr ⟨hfront, hfit⟩
  | key src => exact .inr ⟨hfront, (Nat.add_le_add_left (hround src.length) _).trans hfit⟩

/-- A request that fits behind its word is granted there. -/
theorem Inv.give (hr : Layout.Valid r n) (h : Inv r n s) (hword : readU32 s.arena (q.area.word r) ≠ 0)
    (hfit : readU32 s.arena (q.area.word r) + q.space ≤ q.area.last r) :
    Inv r n ((s.setWord r q.area (readU32 s.arena (q.area.word r) + q.space)).give i q
      (readU32 s.arena (q.area.word r))) := by
  have hlast := q.area.last_le hr
  obtain ⟨-, -, -, -, -, hn⟩ := words_fit hr
  have hv : readU32 s.arena (q.area.word r) + q.space < 2 ^ 32 := by omega
  refine h.advance (length_setWord hr h _ _) rfl (grows_setWord hr h _ hv (Nat.le_add_right _ _))
    (phaseOk_filling h hword hfit) (fun b ↦ ?_) h.denied
  have hold := h.granted b
  simp only [System.give, System.become, System.setWord, readU32_setWord hr h.length q.area b hv]
  by_cases hb : b = q.area
  · subst hb
    rw [if_pos rfl, Function.update_self]
    exact hold.grant hword hfit
  · rw [if_neg hb, Function.update_of_ne hb]
    exact hold

/-- A record that is refused when nothing is left. -/
theorem Inv.skip (hr : Layout.Valid r n) (h : Inv r n s) (hword : readU32 s.arena (q.area.word r) ≠ 0)
    (hfull : q.area.last r < frontier (q.area.first r) (s.granted q.area) + q.area.unit)
    (hv : readU32 s.arena (q.area.word r) + q.space < 2 ^ 32) (hspace : q.area.unit ≤ q.space) :
    Inv r n (((s.setWord r q.area (readU32 s.arena (q.area.word r) + q.space)).deny r q).become i .idle) := by
  have hle := (h.granted q.area).frontier_le
  have hdenied : s.remaining r q.area < q.space := by
    rw [System.remaining]
    omega
  refine h.advance (length_setWord hr h _ _) rfl (grows_setWord hr h _ hv (Nat.le_add_right _ _))
    trivial (fun b ↦ ?_) (List.forall_mem_cons.mpr ⟨hdenied, h.denied⟩)
  have hold := h.granted b
  simp only [System.become, System.deny, System.setWord, readU32_setWord hr h.length q.area b hv]
  by_cases hb : b = q.area
  · subst hb
    rw [if_pos rfl]
    exact hold.skip hword hfull _
  · rw [if_neg hb]
    exact hold

theorem last_le_limit (hr : Layout.Valid r n) (q : Request) : q.area.last r ≤ q.limit r n := by
  cases q with
  | record size => exact le_rfl
  | field bytes => exact le_rfl
  | catalog payload => exact Area.strings.last_le hr
  | key src => exact le_rfl

theorem unit_le_space (hproper : q.Proper) : q.area.unit ≤ q.space := by
  cases q with
  | record size =>
    simp only [Request.Proper, Request.area, Area.unit, Request.space, alignUp] at hproper ⊢
    omega
  | field bytes => exact Nat.zero_le _
  | catalog payload => exact Nat.zero_le _
  | key src => exact Nat.zero_le _

theorem Inv.add (hr : Layout.Valid r n) (h : Inv r n s) (hproper : q.Proper)
    (hword : readU32 s.arena (q.area.word r) ≠ 0)
    (hkeeps : readU32 s.arena (q.area.word r) + q.space ≤ q.area.last r ∨
      (q.area.last r < frontier (q.area.first r) (s.granted q.area) + q.area.unit ∧
        readU32 s.arena (q.area.word r) + q.space < 2 ^ 32)) : Inv r n (s.add r i q) := by
  have hlast := q.area.last_le hr
  obtain ⟨-, -, -, -, -, hn⟩ := words_fit hr
  have hlen := length_setWord hr h q.area (readU32 s.arena (q.area.word r) + q.space)
  rw [System.add, Nat.mod_eq_of_lt (by omega), h.length]
  rcases hkeeps with hfit | ⟨hfull, hv⟩
  · rw [if_neg (not_lt.mpr (hfit.trans (last_le_limit hr q)))]
    exact h.give hr hword hfit
  · split_ifs with hlimit
    · exact h.skip hr hword hfull hv (unit_le_space hproper)
    · have hle := (h.granted q.area).frontier_le
      have hrecord : q.limit r n = q.area.last r := by
        cases q with
        | record size => rfl
        | field bytes => rfl
        | catalog payload => simp only [Request.area, Area.unit] at hfull hle; omega
        | key src => rfl
      exact h.give hr hword (by omega)

theorem Inv.swap {src : Bytes} {cur : ℕ} (hr : Layout.Valid r n) (h : Inv r n s)
    (hloaded : s.client i = .loaded src cur) : Inv r n (s.swap r i src cur) := by
  have hphase := h.clients i
  rw [hloaded] at hphase
  have hsame : Grows r s.arena s.arena := fun a ↦ le_rfl
  have hfrontier := (h.granted .strings).word_eq
  have hle := (h.granted .strings).frontier_le
  simp only [Area.unit] at hfrontier
  rw [System.swap]
  split_ifs with hlimit hcur
  · have hfull : s.remaining r (Request.key src).area < (Request.key src).space := by
      have hphase := hphase.2
      simp only [System.remaining, Request.limit, Request.area, Area.last] at hlimit hle hfrontier ⊢
      omega
    exact (h.deny hfull).advance h.length rfl hsame trivial h.granted (List.forall_mem_cons.mpr ⟨hfull, h.denied⟩)
  · have hfit : readU32 s.arena ((Request.key src).area.word r) + (Request.key src).space ≤
        (Request.key src).area.last r := by
      rw [hcur]
      exact not_lt.mp hlimit
    have hgive := h.give (i := i) (q := .key src) hr hphase.1 hfit
    rwa [hcur] at hgive
  · exact h.advance h.length rfl hsame ⟨hphase.1, le_rfl⟩ h.granted h.denied

theorem Inv.fill {off : ℕ} {content : Bytes} (hr : Layout.Valid r n) (h : Inv r n s)
    (hfilling : s.client i = .filling off content) :
    Inv r n ({ s with arena := overwrite s.arena off content }.become i .idle) := by
  have hphase := h.clients i
  rw [hfilling] at hphase
  rcases hphase with rfl | ⟨hfirst, hlast⟩
  · have hsame : Grows r s.arena (overwrite s.arena off []) := fun a ↦ by rw [overwrite_nil]
    refine h.advance ?_ rfl hsame trivial (fun a ↦ ?_) h.denied <;> simp only [System.become, overwrite_nil]
    · exact h.length
    · exact h.granted a
  · obtain ⟨-, hapart, -, -, hend, -⟩ := words_fit hr
    have hfit : off + content.length ≤ s.arena.length := by
      rw [h.length]
      omega
    have hread : ∀ a : Area, readU32 (overwrite s.arena off content) (a.word r) =
        readU32 s.arena (a.word r) := by
      intro a
      refine readU32_overwrite_of_disjoint hfit (.inl ?_)
      rw [Regions.stringDataStart] at hfirst
      cases a <;> simp only [Area.word] <;> omega
    refine h.advance ((length_overwrite hfit).trans h.length) rfl (fun a ↦ (hread a).ge) trivial
      (fun a ↦ ?_) h.denied
    simp only [System.become, hread]
    exact h.granted a

theorem Inv.step {e : Event ι} {t : System ι} (hr : Layout.Valid r n) (h : Inv r n s) (hkeeps : Keeps r s e)
    (hstep : Step r s e t) : Inv r n t := by
  have hsame : Grows r s.arena s.arena := fun a ↦ le_rfl
  cases hstep with
  | ask hidle hproper => exact h.ask hr hproper hkeeps
  | @move i hbusy =>
    have hphase := h.clients i
    rw [Keeps] at hkeeps
    rw [System.move]
    cases hclient : s.client i with
    | idle => exact absurd hclient hbusy
    | asked q =>
      rw [hclient] at hphase hkeeps
      cases q with
      | key src => exact h.advance h.length rfl hsame ⟨hphase.1, le_rfl⟩ h.granted h.denied
      | record size => exact h.add hr hphase.2 hphase.1 hkeeps
      | field bytes => exact h.add hr hphase.2 hphase.1 hkeeps
      | catalog payload => exact h.add hr hphase.2 hphase.1 hkeeps
    | loaded src cur => exact h.swap hr hclient
    | filling off content => exact h.fill hr hclient

omit [DecidableEq ι] in
theorem Inv.of_started (hr : Layout.Valid r n) (h : Started r n s) : Inv r n s := by
  refine ⟨h.length, fun a ↦ ?_, fun i ↦ ?_, by simp [h.denied]⟩
  · rcases h.words a with ⟨hzero, hnone⟩ | ⟨hfirst, hlast, hused⟩
    · rw [hzero, hnone]
      exact .fresh (a.first_le hr)
    · rw [hused]
      exact .used hfirst hlast
  · rw [h.idle i]
    trivial

omit [DecidableEq ι] in
theorem Inv.sound (hr : Layout.Valid r n) (h : Inv r n s) : Sound r s := by
  refine ⟨fun a g hg ↦ ⟨(h.granted a).inside g hg, (h.granted a).stop_le hg⟩, ?_, h.denied⟩
  refine List.pairwise_append.mpr ⟨(h.granted .records).disjoint, (h.granted .strings).disjoint, ?_⟩
  intro f hf g hg
  obtain ⟨-, -, -, hapart, -⟩ := words_fit hr
  have hstop : f.stop ≤ r.recordEnd := (h.granted .records).stop_le hf
  have hstart : r.stringDataStart ≤ g.start := (h.granted .strings).inside g hg
  rw [Regions.stringDataStart] at hstart
  rw [Set.disjoint_left]
  rintro i ⟨-, hi⟩ ⟨hi', -⟩
  omega

end Steps

/-- In a run that keeps to the regions the allocators are sound in every
state. -/
theorem sound_of_run {r : Regions} {n : ℕ} {s t : System ι} (hr : validateRegions r n = .ok ())
    (hstart : Started r n s) (hrun : Run (Step r) (Keeps r) s t) : Sound r t := by
  have hvalid := (valid_iff r n).mp hr
  have hinv : Inv r n t := hrun.invariant (Inv r n)
    (fun u e v hu hkeeps hstep ↦ hu.step hvalid hkeeps hstep) (.of_started hvalid hstart)
  exact hinv.sound hvalid

section Alone

variable {r : Regions} {n : ℕ} {s : System ι} {i : ι}

/-- What a client that is not interrupted has behind its `Atomics.add`. -/
theorem add_alone (hr : Layout.Valid r n) (hlen : s.arena.length = n) {q : Request} (hq : ∀ src, q ≠ .key src)
    (hadmitted : q.admitted r n = true) :
    let call := fetchAdd (q.area.word r) (q.area.first r) (q.limit r n) q.space s.arena
    let t := (s.ask r i q).move r i
    t.arena = call.2 ∧ t.granted q.area = grant call.1 q.space (s.granted q.area) ∧
      t.client i = call.1.elim .idle (fun off ↦ .filling off q.content) ∧
      t.denied = call.1.elim ((q, s.remaining r q.area) :: s.denied) fun _ ↦ s.denied := by
  have hseed := (seed_spec hr hlen q.area).1
  have hask : s.ask r i q =
      { s with arena := seed (q.area.word r) (q.area.first r) s.arena }.become i (.asked q) := by
    rw [System.ask, if_pos (by rwa [hlen])]
  have hmove : (s.ask r i q).move r i = (s.ask r i q).add r i q := by
    rw [hask, System.move]
    simp only [System.become, Function.update_self]
  dsimp only
  rw [hmove, hask, System.add, fetchAdd]
  simp only [System.become, hseed]
  split_ifs with hlimit
  · exact ⟨rfl, rfl, Function.update_self .., rfl⟩
  · exact ⟨rfl, Function.update_self .., Function.update_self .., rfl⟩

/-- The two steps of a client that finds nobody else at work. -/
theorem run_ask_move (ok : System ι → Event ι → Prop) {q : Request} (hidle : s.client i = .idle)
    (hproper : q.Proper) (hadmitted : q.admitted r s.arena.length = true) (hask : ok s (.ask i q))
    (hmove : ok (s.ask r i q) (.move i)) : Run (Step r) ok s ((s.ask r i q).move r i) := by
  have hclient : (s.ask r i q).client i = .asked q := by
    rw [System.ask, if_pos hadmitted]
    exact Function.update_self ..
  refine ((Run.refl s).tail hask (.ask hidle hproper)).tail hmove (.move ?_)
  rw [hclient]
  exact nofun

theorem record_alone (hr : Layout.Valid r n) (hlen : s.arena.length = n) {size : ℕ}
    (hadmitted : (Request.record size).admitted r n = true) :
    ((s.ask r i (.record size)).move r i).arena = (allocateRecordOffset r size s.arena).2 ∧
      ((s.ask r i (.record size)).move r i).granted .records =
        grant (allocateRecordOffset r size s.arena).1 (alignUp size) (s.granted .records) := by
  have hsize : ¬ (size = 0 ∨ recordBumpView r % 4 ≠ 0) := by
    rw [Request.admitted, decide_eq_true_eq] at hadmitted
    exact not_or.mpr ⟨hadmitted.1, not_not.mpr hadmitted.2⟩
  obtain ⟨harena, hgranted, -⟩ := add_alone (i := i) (q := .record size) hr hlen (by simp) hadmitted
  rw [allocateRecordOffset, if_neg hsize]
  exact ⟨harena, hgranted⟩

/-- With a copy behind it. -/
theorem copy_alone (hr : Layout.Valid r n) (hlen : s.arena.length = n) {q : Request} (hq : ∀ src, q ≠ .key src)
    (hadmitted : q.admitted r n = true) :
    let call := match fetchAdd (q.area.word r) (q.area.first r) (q.limit r n) q.space s.arena with
      | (some off, arena) => (some off, overwrite arena off q.content)
      | (none, arena) => (none, arena)
    let t := ((s.ask r i q).move r i).move r i
    t.arena = call.2 ∧ t.granted q.area = grant call.1 q.space (s.granted q.area) := by
  obtain ⟨harena, hgranted, hclient, -⟩ := add_alone (i := i) hr hlen hq hadmitted
  generalize (s.ask r i q).move r i = t at harena hgranted hclient ⊢
  generalize fetchAdd (q.area.word r) (q.area.first r) (q.limit r n) q.space s.arena = call at *
  dsimp only
  rw [System.move]
  obtain ⟨off | off, arena⟩ := call
  · rw [hclient]
    exact ⟨harena, hgranted⟩
  · rw [hclient]
    exact ⟨congrArg (overwrite · off q.content) harena, hgranted⟩

theorem field_alone (hr : Layout.Valid r n) (hlen : s.arena.length = n) {bytes : Bytes}
    (hadmitted : (Request.field bytes).admitted r n = true) :
    (((s.ask r i (.field bytes)).move r i).move r i).arena = (setString r bytes s.arena).2 ∧
      (((s.ask r i (.field bytes)).move r i).move r i).granted .strings =
        grant (setString r bytes s.arena).1 bytes.length (s.granted .strings) := by
  have hroom : ¬ s.arena.length ≤ r.stringDataStart := by
    rw [Request.admitted, decide_eq_true_eq] at hadmitted
    omega
  rw [setString, if_neg hroom]
  exact copy_alone hr hlen (by simp) hadmitted

theorem catalog_alone (hr : Layout.Valid r n) (hlen : s.arena.length = n) {payload : Bytes}
    (hadmitted : (Request.catalog payload).admitted r n = true) :
    (((s.ask r i (.catalog payload)).move r i).move r i).arena = (saveCatalog r payload s.arena).2 ∧
      (((s.ask r i (.catalog payload)).move r i).move r i).granted .strings =
        grant (saveCatalog r payload s.arena).1 payload.length (s.granted .strings) := by
  have hroom : ¬ (s.arena.length < r.stringStart.toNat + 4 ∨ s.arena.length < r.stringDataStart) := by
    rw [Request.admitted, decide_eq_true_eq] at hadmitted
    omega
  subst hlen
  rw [saveCatalog, if_neg hroom]
  exact copy_alone hr rfl (by simp) hadmitted

theorem key_alone (hlen : s.arena.length = n) {src : Bytes}
    (hadmitted : (Request.key src).admitted r n = true) :
    ((((s.ask r i (.key src)).move r i).move r i).move r i).arena = (Exports.allocString r src s.arena).2 ∧
      ((((s.ask r i (.key src)).move r i).move r i).move r i).granted .strings =
        grant (Exports.allocString r src s.arena).1 (alignUp src.length) (s.granted .strings) := by
  have hask : s.ask r i (.key src) =
      { s with arena := Exports.seedString r s.arena }.become i (.asked (.key src)) := by
    rw [System.ask, if_pos (by rwa [hlen])]
    rfl
  have hload : (s.ask r i (.key src)).move r i = { s with arena := Exports.seedString r s.arena }.become i
      (.loaded src (readU32 (Exports.seedString r s.arena) r.stringStart.toNat)) := by
    rw [hask, System.move]
    simp only [System.become, Function.update_self, Function.update_idem]
    rfl
  rw [Request.admitted, decide_eq_true_eq] at hadmitted
  have hplain : Exports.allocString r src s.arena =
      if r.stringEnd < readU32 (Exports.seedString r s.arena) r.stringStart.toNat + alignUp src.length then
        (none, Exports.seedString r s.arena)
      else (some (readU32 (Exports.seedString r s.arena) r.stringStart.toNat),
        overwrite (writeU32 (Exports.seedString r s.arena) r.stringStart.toNat
          (readU32 (Exports.seedString r s.arena) r.stringStart.toNat + alignUp src.length))
          (readU32 (Exports.seedString r s.arena) r.stringStart.toNat) src) := by
    rw [Exports.allocString]
    exact if_neg (not_or.mpr ⟨hadmitted.1, not_lt.mpr hadmitted.2⟩)
  rw [hload, hplain]
  generalize Exports.seedString r s.arena = arena
  simp only [System.move, System.become, System.swap, System.setWord, System.give, System.deny, Request.limit,
    Request.space, Request.area, Request.content, Area.word, Function.update_self, Function.update_idem]
  split_ifs with hlimit
  · simp only [Function.update_self]
    exact ⟨trivial, rfl⟩
  · simp only [Function.update_self]
    exact ⟨trivial, rfl⟩

/-- A record that is refused, and the word that has moved nevertheless. -/
theorem record_refused (hr : Layout.Valid r n) (hlen : s.arena.length = n) {size w : ℕ}
    (hadmitted : (Request.record size).admitted r n = true)
    (hw : readU32 (seed (recordBumpView r) r.recordStart.toNat s.arena) (recordBumpView r) = w)
    (hlimit : r.recordEnd < w + alignUp size) (hlt : w + alignUp size < 2 ^ 32) :
    let t := (s.ask r i (.record size)).move r i
    t.arena.length = n ∧ readU32 t.arena (recordBumpView r) = w + alignUp size ∧ t.client i = .idle ∧
      t.granted .records = s.granted .records ∧
      t.denied = (.record size, s.remaining r .records) :: s.denied := by
  obtain ⟨harena, hgranted, hclient, hdenied⟩ :=
    add_alone (i := i) (q := .record size) hr hlen (by simp) hadmitted
  have hseed : (seed (recordBumpView r) r.recordStart.toNat s.arena).length = n :=
    (seed_spec hr hlen .records).1
  have hfit := Area.records.word_fits hr
  have hcall : fetchAdd (recordBumpView r) r.recordStart.toNat r.recordEnd (alignUp size) s.arena =
      (none, writeU32 (seed (recordBumpView r) r.recordStart.toNat s.arena) (recordBumpView r)
        (w + alignUp size)) := by
    simp only [fetchAdd, hw, if_pos hlimit, Nat.mod_eq_of_lt hlt]
  simp only [Request.area, Area.word, Area.first, Request.limit, Request.space, hcall] at *
  refine ⟨?_, ?_, hclient, hgranted, hdenied⟩
  · rw [harena, length_writeU32 (by omega), hseed]
  · rw [harena, readU32_writeU32_self (by omega) hlt]

end Alone

section Together

variable {r : Regions} {n : ℕ} {s : System ι} {i : ι} {q : Request}

/-- A request that is admitted leaves its word in use. -/
theorem ask_spec (hr : Layout.Valid r n) (hlen : s.arena.length = n) (hadmitted : q.admitted r n = true) :
    (s.ask r i q).arena.length = n ∧ (s.ask r i q).client = Function.update s.client i (.asked q) ∧
      (s.ask r i q).granted = s.granted ∧ readU32 (s.ask r i q).arena (q.area.word r) =
        if readU32 s.arena (q.area.word r) = 0 then q.area.first r else readU32 s.arena (q.area.word r) := by
  obtain ⟨hseed, hread⟩ := seed_spec hr hlen q.area
  have hword := hread q.area
  simp only [true_and] at hword
  rw [System.ask, if_pos (by rwa [hlen])]
  exact ⟨hseed, rfl, rfl, hword⟩

/-- The range of a request that fits begins where the word was at the moment of the addition, whoever asked first. -/
theorem move_spec (hr : Layout.Valid r n) (hlen : s.arena.length = n) (hclient : s.client i = .asked q)
    (hq : ∀ src, q ≠ .key src) {w : ℕ} (hw : readU32 s.arena (q.area.word r) = w)
    (hlimit : w + q.space ≤ q.limit r n) (hlt : w + q.space < 2 ^ 32) :
    (s.move r i).arena.length = n ∧ (s.move r i).client = Function.update s.client i (.filling w q.content) ∧
      (s.move r i).granted = Function.update s.granted q.area (⟨w, q.space⟩ :: s.granted q.area) ∧
      readU32 (s.move r i).arena (q.area.word r) = w + q.space := by
  have hfit := q.area.word_fits hr
  have hadd : s.move r i = s.add r i q := by
    rw [System.move, hclient]
    cases q with
    | key src => exact absurd rfl (hq src)
    | _ => rfl
  rw [hadd, System.add, hw, Nat.mod_eq_of_lt hlt, hlen, if_neg (not_lt.mpr hlimit)]
  refine ⟨?_, rfl, rfl, ?_⟩
  · exact (length_writeU32 (by rwa [hlen]) _).trans hlen
  · exact readU32_writeU32_self (by rwa [hlen]) hlt

end Together

def freshSystem (ι : Type) : System ι := ⟨zeros 65536, fun _ ↦ .idle, fun _ ↦ [], []⟩

theorem freshSystem_started (ι : Type) : Started smallRegions 65536 (freshSystem ι) where
  length := length_zeros _
  idle _ := rfl
  denied := rfl
  words a := by
    have hfit := a.word_fits smallRegions_valid
    exact .inl ⟨readU32_zeros hfit, rfl⟩

theorem freshSystem_record (ι : Type) :
    readU32 (seed (Area.records.word smallRegions) (Area.records.first smallRegions) (freshSystem ι).arena)
      (Area.records.word smallRegions) = 4096 := by
  have hzero : readU32 (zeros 65536) (Area.records.word smallRegions) = 0 := readU32_zeros (by decide)
  have hseeded := (seed_spec smallRegions_valid (length_zeros 65536) .records).2 .records
  rw [if_pos ⟨rfl, hzero⟩] at hseeded
  exact hseeded

/-- Two clients ask for a record, and the second one comes to the word first. -/
theorem sound_of_two_records : ∃ t : System Bool,
    Run (Step smallRegions) (Keeps smallRegions) (freshSystem Bool) t ∧ Sound smallRegions t ∧
      t.granted .records = [⟨4296, 104⟩, ⟨4096, 200⟩] := by
  have hr := smallRegions_valid
  have hstart := freshSystem_started Bool
  have hzero : readU32 (freshSystem Bool).arena (Area.records.word smallRegions) = 0 := readU32_zeros (by decide)
  have hnone : (freshSystem Bool).granted .records = [] := rfl
  have haligned : recordBumpView smallRegions % 4 = 0 := by decide
  have hproper : ∀ size, size ≠ 0 → (Request.record size).Proper := fun _ h ↦ h
  generalize freshSystem Bool = s at hstart hzero hnone ⊢
  -- both find the word in use
  obtain ⟨hlen₁, hclient₁, hgranted₁, hword₁⟩ :=
    ask_spec (i := false) (q := .record 100) hr hstart.length (by decide)
  have hrun₁ : Run (Step smallRegions) (Keeps smallRegions) s (s.ask smallRegions false (.record 100)) :=
    (Run.refl s).tail (a := .ask false (.record 100)) (.inl haligned)
      (.ask (hstart.idle false) (hproper 100 (by decide)))
  generalize s.ask smallRegions false (.record 100) = s₁ at *
  have hidle₁ : s₁.client true = .idle := by
    rw [hclient₁, Function.update_of_ne (by decide)]
    exact hstart.idle true
  simp only [Request.area, hzero, if_true] at hword₁
  obtain ⟨hlen₂, hclient₂, hgranted₂, hword₂⟩ := ask_spec (i := true) (q := .record 200) hr hlen₁ (by decide)
  have hrun₂ : Run (Step smallRegions) (Keeps smallRegions) s (s₁.ask smallRegions true (.record 200)) :=
    hrun₁.tail (a := .ask true (.record 200)) (.inl haligned) (.ask hidle₁ (hproper 200 (by decide)))
  generalize s₁.ask smallRegions true (.record 200) = s₂ at *
  have hasked₂ : s₂.client true = .asked (.record 200) := by rw [hclient₂, Function.update_self]
  have hwaits₂ : s₂.client false = .asked (.record 100) := by
    rw [hclient₂, Function.update_of_ne (by decide), hclient₁, Function.update_self]
  simp only [Request.area, hword₁] at hword₂
  have hstart₂ : readU32 s₂.arena (Area.records.word smallRegions) = 4096 := hword₂
  -- the second client moves the word, then the first one
  obtain ⟨hlen₃, hclient₃, hgranted₃, hword₃⟩ :=
    move_spec hr hlen₂ hasked₂ nofun hstart₂ (by decide) (by decide)
  have hrun₃ : Run (Step smallRegions) (Keeps smallRegions) s (s₂.move smallRegions true) := by
    refine hrun₂.tail (a := .move true) ?_ (.move (by rw [hasked₂]; exact nofun))
    rw [Keeps, hasked₂]
    left
    rw [Request.area, hstart₂]
    decide
  generalize s₂.move smallRegions true = s₃ at *
  have hwaits₃ : s₃.client false = .asked (.record 100) := by
    rw [hclient₃, Function.update_of_ne (by decide), hwaits₂]
  have hstart₃ : readU32 s₃.arena (Area.records.word smallRegions) = 4296 := hword₃
  obtain ⟨-, -, hgranted₄, -⟩ := move_spec hr hlen₃ hwaits₃ nofun hstart₃ (by decide) (by decide)
  have hrun₄ : Run (Step smallRegions) (Keeps smallRegions) s (s₃.move smallRegions false) := by
    refine hrun₃.tail (a := .move false) ?_ (.move (by rw [hwaits₃]; exact nofun))
    rw [Keeps, hwaits₃]
    left
    rw [Request.area, hstart₃]
    decide
  refine ⟨_, hrun₄, sound_of_run (n := 65536) (by decide) hstart hrun₄, ?_⟩
  rw [hgranted₄, Request.area, Function.update_self, hgranted₃, Request.area, Function.update_self, hgranted₂,
    hgranted₁, hnone]
  rfl

/-- A record that is too long is refused, and after it one of eight bytes,
for which there is room. -/
theorem refusal_takes_space : ∃ t : System Unit,
    Run (Step smallRegions) (fun _ _ ↦ True) (freshSystem Unit) t ∧ ¬ Sound smallRegions t := by
  have hr := smallRegions_valid
  obtain ⟨hlen, hword, hidle, hgranted, -⟩ := record_refused (s := freshSystem Unit) (i := ()) hr
    (length_zeros _) (show (Request.record 50000).admitted smallRegions 65536 = true by decide)
    (freshSystem_record Unit) (by decide) (by decide)
  have hrun := run_ask_move (s := freshSystem Unit) (i := ()) (q := .record 50000) (r := smallRegions)
    (fun _ _ ↦ True) rfl (by simp [Request.Proper]) (by rw [freshSystem, length_zeros]; decide) trivial trivial
  generalize ((freshSystem Unit).ask smallRegions () (.record 50000)).move smallRegions () = s
    at hlen hword hidle hgranted hrun
  have hused : readU32 (seed (recordBumpView smallRegions) smallRegions.recordStart.toNat s.arena)
      (recordBumpView smallRegions) = 54096 := by
    rw [seed, hword, if_neg (by decide), hword]
    rfl
  obtain ⟨-, -, -, -, hdenied⟩ := record_refused (s := s) (i := ()) hr hlen
    (show (Request.record 8).admitted smallRegions 65536 = true by decide) hused (by decide) (by decide)
  refine ⟨_, hrun.trans (run_ask_move (s := s) (i := ()) (q := .record 8) (r := smallRegions) (fun _ _ ↦ True)
    hidle (by simp [Request.Proper]) (by rw [hlen]; decide) trivial trivial), fun hsound ↦ ?_⟩
  have hfits := hsound.available (.record 8, s.remaining smallRegions .records) (by simp [hdenied])
  rw [System.remaining, hgranted] at hfits
  exact absurd hfits (by decide)

end TakyonDb.AllocatorSteps
