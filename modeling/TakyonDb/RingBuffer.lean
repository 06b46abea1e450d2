import Mathlib.Data.List.Nodup
import Mathlib.Logic.Function.Basic
import TakyonDb.Layout
import TakyonDb.Lib.Transition

namespace TakyonDb.RingBuffer

open Lib

/-- The words of the header that `push` and `pop` use, the slots and their
sequence words. -/
structure Ring (M : Type) where
  head : ℕ
  tail : ℕ
  capacity : ℕ
  buffer : ℕ → M
  seqs : ℕ → ℕ

inductive InitError
  | noSpace
  | invalidCapacity
  | unaligned

variable {M : Type}

namespace Ring

def mask (ring : Ring M) : ℕ := ring.capacity - 1

def slot (ring : Ring M) (pos : ℕ) : ℕ := pos &&& ring.mask

/-- `init` over a segment of `memLen` bytes whose header and arrays are `ring`. -/
def init (ring : Ring M) (memLen : ℕ) (aligned : Bool) (capacity : ℕ) (isMaster : Bool) :
    Except InitError (Ring M) :=
  if capacity < 2 ∨ capacity &&& (capacity - 1) ≠ 0 then .error .invalidCapacity
  else if ¬ aligned then .error .unaligned
  else if memLen < Layout.ringHeaderBytes then .error .noSpace
  else if isMaster ∨ ring.capacity = 0 then
    if memLen < Layout.ringBytes capacity then .error .noSpace
    else .ok { ring with
      head := 0
      tail := 0
      capacity
      seqs := fun i ↦ if i < capacity then i else ring.seqs i }
  else if ring.capacity < 2 ∨ ring.capacity &&& (ring.capacity - 1) ≠ 0 then .error .invalidCapacity
  else if memLen < Layout.ringBytes ring.capacity then .error .noSpace
  else .ok ring

end Ring

/-- The next memory access of a thread. -/
inductive Phase (M : Type)
  | idle
  | pushLoad (delta : M)
  | pushSeq (delta : M) (pos : ℕ)
  | pushSwap (delta : M) (pos : ℕ)
  | pushStore (delta : M) (pos : ℕ)
  | pushPublish (pos : ℕ)
  | popLoad
  | popSeq (pos : ℕ)
  | popSwap (pos : ℕ)
  | popRead (pos : ℕ)
  | popRelease (pos : ℕ) (msg : M)
  | depthHead
  | depthTail (head : ℕ)

inductive Call (M : Type)
  | push (delta : M)
  | pop
  | depth

/-- The ring and its threads. The histories hold the messages in the order
of their positions, the positions in the order in which they were taken, and
what the finished pops returned. -/
structure System (ι M : Type) where
  ring : Ring M
  thread : ι → Phase M
  sent : List M := []
  taken : List ℕ := []
  popped : List (ι × ℕ × M) := []

inductive Event (ι M : Type)
  | call (i : ι) (c : Call M)
  | step (i : ι)

variable {ι : Type} [DecidableEq ι]

namespace System

def become (s : System ι M) (i : ι) (p : Phase M) : System ι M :=
  { s with thread := Function.update s.thread i p }

def call (s : System ι M) (i : ι) : Call M → System ι M
  | .push delta => if s.ring.capacity = 0 then s else s.become i (.pushLoad delta)
  | .pop => if s.ring.capacity = 0 then s else s.become i .popLoad
  | .depth => s.become i .depthHead

def setSeq (s : System ι M) (pos v : ℕ) : System ι M :=
  { s with ring := { s.ring with seqs := Function.update s.ring.seqs (s.ring.slot pos) v } }

/-- One memory access of thread `i`, and the branch that it decides. -/
def step (s : System ι M) (i : ι) : System ι M :=
  match s.thread i with
  | .idle => s
  | .pushLoad delta => s.become i (.pushSeq delta s.ring.tail)
  | .pushSeq delta pos =>
    let seq := s.ring.seqs (s.ring.slot pos)
    if seq = pos then s.become i (.pushSwap delta pos)
    else if seq < pos then s.become i .idle
    else s.become i (.pushLoad delta)
  | .pushSwap delta pos =>
    if s.ring.tail = pos then
      { s with ring := { s.ring with tail := pos + 1 }, sent := s.sent ++ [delta] }.become i
        (.pushStore delta pos)
    else s.become i (.pushLoad delta)
  | .pushStore delta pos =>
    { s with ring := { s.ring with buffer := Function.update s.ring.buffer (s.ring.slot pos) delta } }.become i
      (.pushPublish pos)
  | .pushPublish pos => (s.setSeq pos (pos + 1)).become i .idle
  | .popLoad => s.become i (.popSeq s.ring.head)
  | .popSeq pos =>
    let seq := s.ring.seqs (s.ring.slot pos)
    if seq = pos + 1 then s.become i (.popSwap pos)
    else if seq < pos + 1 then s.become i .idle
    else s.become i .popLoad
  | .popSwap pos =>
    if s.ring.head = pos then
      { s with ring := { s.ring with head := pos + 1 }, taken := s.taken ++ [pos] }.become i (.popRead pos)
    else s.become i .popLoad
  | .popRead pos => s.become i (.popRelease pos (s.ring.buffer (s.ring.slot pos)))
  | .popRelease pos msg =>
    { s.setSeq pos (pos + s.ring.capacity) with popped := s.popped ++ [(i, pos, msg)] }.become i .idle
  | .depthHead => s.become i (.depthTail s.ring.head)
  | .depthTail _ => s.become i .idle

end System

inductive Step (s : System ι M) : Event ι M → System ι M → Prop
  | call {i : ι} {c : Call M} (hidle : s.thread i = .idle) : Step s (.call i c) (s.call i c)
  | step {i : ι} (hbusy : s.thread i ≠ .idle) : Step s (.step i) (s.step i)

/-- An event at any time: a busy thread takes no call. -/
def System.next (s : System ι M) : Event ι M → System ι M
  | .call i c =>
    match s.thread i with
    | .idle => s.call i c
    | _ => s
  | .step i => s.step i

theorem run_next (s : System ι M) (e : Event ι M) : Run Step (fun _ _ ↦ True) s (s.next e) := by
  have hcall : ∀ i c, s.thread i = .idle → Run Step (fun _ _ ↦ True) s (s.call i c) :=
    fun i c hidle ↦ (Run.refl s).tail trivial (.call hidle)
  have hstep : ∀ i, s.thread i ≠ .idle → Run Step (fun _ _ ↦ True) s (s.step i) :=
    fun i hbusy ↦ (Run.refl s).tail trivial (.step hbusy)
  cases e with
  | call i c =>
    rw [System.next]
    split
    · exact hcall i c ‹_›
    · exact .refl s
  | step i =>
    rw [System.next]
    cases hphase : s.thread i with
    | idle =>
      rw [System.step, hphase]
      exact .refl s
    | _ => exact hstep i (hphase ▸ nofun)

/-- What the ring promises its users. -/
structure Safe (s : System ι M) : Prop where
  bounds : s.ring.head ≤ s.ring.tail ∧ s.ring.tail ≤ s.ring.head + s.ring.capacity
  once : (s.popped.map fun e ↦ e.2.1).Nodup
  exact : ∀ i p m, (i, p, m) ∈ s.popped → s.sent[p]? = some m
  taken_in_order : s.taken = List.range s.ring.head
  popped_in_order : s.popped.Pairwise fun e f ↦ e.1 = f.1 → e.2.1 < f.2.1
  spared : ∀ i delta pos, s.thread i = .pushStore delta pos →
    ∀ p < pos, s.ring.slot p = s.ring.slot pos → ∃ e ∈ s.popped, e.2.1 = p
  depth : ∀ i h, s.thread i = .depthTail h → h ≤ s.ring.tail

def start (ring : Ring M) : System ι M := { ring, thread := fun _ ↦ .idle }

/-- Where a slot is in its round. -/
inductive Stage (ι : Type)
  | free
  | claimed (i : ι)
  | filled (i : ι)
  | full
  | taken (i : ι)
  | read (i : ι)

namespace Stage

def owner : Stage ι → Option ι
  | .free | .full => none
  | .claimed i | .filled i | .taken i | .read i => some i

def Published : Stage ι → Prop
  | .free | .claimed _ | .filled _ => False
  | .full | .taken _ | .read _ => True

/-- The sequence word of a slot at position `p`. -/
def seq (p : ℕ) : Stage ι → ℕ
  | .free | .claimed _ | .filled _ => p
  | .full | .taken _ | .read _ => p + 1

/-- Where `p` is between the head and the tail. -/
def Place (ring : Ring M) (p : ℕ) : Stage ι → Prop
  | .free => ring.tail ≤ p
  | .claimed _ | .filled _ | .full => ring.head ≤ p ∧ p < ring.tail
  | .taken _ | .read _ => p < ring.head

def Holds (ring : Ring M) (sent : List M) (j p : ℕ) : Stage ι → Prop
  | .free | .claimed _ | .read _ => True
  | .filled _ | .full | .taken _ => sent[p]? = some (ring.buffer j)

end Stage

/-- The position that each slot is at, and how far it is with it. -/
structure Rounds (ι : Type) where
  pos : ℕ → ℕ
  stage : ℕ → Stage ι

def Rounds.setStage (w : Rounds ι) (j : ℕ) (st : Stage ι) : Rounds ι :=
  { w with stage := Function.update w.stage j st }

omit [DecidableEq ι] in
theorem stage_setStage_self (w : Rounds ι) (j : ℕ) (st : Stage ι) : (w.setStage j st).stage j = st :=
  Function.update_self ..

omit [DecidableEq ι] in
theorem stage_setStage_of_ne (w : Rounds ι) {j k : ℕ} (hk : k ≠ j) (st : Stage ι) :
    (w.setStage j st).stage k = w.stage k := Function.update_of_ne hk ..

/-- Slot `j` is free for the next round. -/
def Rounds.next (w : Rounds ι) (j capacity : ℕ) : Rounds ι :=
  ⟨Function.update w.pos j (w.pos j + capacity), Function.update w.stage j .free⟩

omit [DecidableEq ι] in
theorem next_self (w : Rounds ι) (j capacity : ℕ) :
    (w.next j capacity).pos j = w.pos j + capacity ∧ (w.next j capacity).stage j = .free :=
  ⟨Function.update_self .., Function.update_self ..⟩

omit [DecidableEq ι] in
theorem next_of_ne (w : Rounds ι) {j k : ℕ} (hk : k ≠ j) (capacity : ℕ) :
    (w.next j capacity).pos k = w.pos k ∧ (w.next j capacity).stage k = w.stage k :=
  ⟨Function.update_of_ne hk .., Function.update_of_ne hk ..⟩

/-- What the memory says of slot `j` while it is at position `p`. -/
structure SlotOk (ring : Ring M) (sent : List M) (j p : ℕ) (st : Stage ι) : Prop where
  slot : p % ring.capacity = j
  tail_le : ring.tail ≤ p + ring.capacity
  lt_head : p < ring.head + ring.capacity
  seq : ring.seqs j = st.seq p
  place : st.Place ring p
  content : st.Holds ring sent j p

/-- What thread `i` can rely on in its phase. -/
def ThreadOk (s : System ι M) (w : Rounds ι) (i : ι) : Phase M → Prop
  | .idle | .pushLoad _ | .pushSeq _ _ | .popLoad | .popSeq _ | .depthHead => True
  | .pushSwap _ pos => pos ≤ w.pos (pos % s.ring.capacity)
  | .pushStore delta pos => w.pos (pos % s.ring.capacity) = pos ∧
      w.stage (pos % s.ring.capacity) = .claimed i ∧ s.sent[pos]? = some delta
  | .pushPublish pos => w.pos (pos % s.ring.capacity) = pos ∧ w.stage (pos % s.ring.capacity) = .filled i
  | .popSwap pos => pos < w.pos (pos % s.ring.capacity) ∨
      (w.pos (pos % s.ring.capacity) = pos ∧ (w.stage (pos % s.ring.capacity)).Published)
  | .popRead pos => w.pos (pos % s.ring.capacity) = pos ∧ w.stage (pos % s.ring.capacity) = .taken i ∧
      ∀ e ∈ s.popped, e.1 = i → e.2.1 < pos
  | .popRelease pos msg => w.pos (pos % s.ring.capacity) = pos ∧
      w.stage (pos % s.ring.capacity) = .read i ∧ s.sent[pos]? = some msg ∧
      ∀ e ∈ s.popped, e.1 = i → e.2.1 < pos
  | .depthTail h => h ≤ s.ring.tail

/-- What every reachable state keeps, for some account of the rounds. -/
structure Inv (s : System ι M) (w : Rounds ι) : Prop where
  power : ∃ k, 1 ≤ k ∧ s.ring.capacity = 2 ^ k
  sent : s.sent.length = s.ring.tail
  head_le : s.ring.head ≤ s.ring.tail
  slots : ∀ j < s.ring.capacity, SlotOk s.ring s.sent j (w.pos j) (w.stage j)
  threads : ∀ i, ThreadOk s w i (s.thread i)
  taken : s.taken = List.range s.ring.head
  popped : ∀ e ∈ s.popped, s.sent[e.2.1]? = some e.2.2 ∧ e.2.1 < w.pos (e.2.1 % s.ring.capacity)
  all_popped : ∀ p, p < w.pos (p % s.ring.capacity) → ∃ e ∈ s.popped, e.2.1 = p
  once : (s.popped.map fun e ↦ e.2.1).Nodup
  in_order : s.popped.Pairwise fun e f ↦ e.1 = f.1 → e.2.1 < f.2.1

section Arithmetic

variable {a b c : ℕ}

theorem eq_of_window (hle : a ≤ b) (hlt : b < a + c) (hmod : b % c = a % c) : b = a := by
  have hzero := Nat.sub_mod_eq_zero_of_mod_eq hmod
  rw [Nat.mod_eq_of_lt (by omega)] at hzero
  omega

theorem succ_mod_ne (hc : 2 ≤ c) (a : ℕ) : (a + 1) % c ≠ a % c := by
  intro hmod
  have := eq_of_window (Nat.le_add_right a 1) (by omega) hmod
  omega

end Arithmetic

section Facts

variable {s : System ι M} {w : Rounds ι} {i : ι} {pos : ℕ}

omit [DecidableEq ι]

theorem Inv.two_le (h : Inv s w) : 2 ≤ s.ring.capacity := by
  obtain ⟨k, hk, hcap⟩ := h.power
  rw [hcap]
  exact Nat.le_self_pow (by omega) 2

theorem Inv.slot_eq (h : Inv s w) (pos : ℕ) : s.ring.slot pos = pos % s.ring.capacity := by
  obtain ⟨k, -, hcap⟩ := h.power
  rw [Ring.slot, Ring.mask, hcap, Nat.and_two_pow_sub_one_eq_mod]

theorem Inv.at_slot (h : Inv s w) (pos : ℕ) : SlotOk s.ring s.sent (pos % s.ring.capacity)
    (w.pos (pos % s.ring.capacity)) (w.stage (pos % s.ring.capacity)) :=
  h.slots _ (Nat.mod_lt _ (by have := h.two_le; omega))

/-- A producer that finds `pos` in the sequence word knows that the rounds
before are over. -/
theorem Inv.reached (h : Inv s w) (hseq : s.ring.seqs (pos % s.ring.capacity) = pos) :
    pos ≤ w.pos (pos % s.ring.capacity) := by
  have hslot := h.at_slot pos
  have hne := succ_mod_ne h.two_le (w.pos (pos % s.ring.capacity))
  have hseq' := hslot.seq
  rw [hseq] at hseq'
  have hmod := hslot.slot
  cases hst : w.stage (pos % s.ring.capacity) with
  | free | claimed _ | filled _ =>
    rw [hst] at hseq'
    exact hseq'.le
  | full | taken _ | read _ =>
    rw [hst] at hseq'
    exact absurd (congrArg (· % s.ring.capacity) hseq' |>.symm.trans hmod.symm) hne

/-- A consumer that finds `pos + 1` there knows that `pos` was published. -/
theorem Inv.published (h : Inv s w) (hseq : s.ring.seqs (pos % s.ring.capacity) = pos + 1) :
    w.pos (pos % s.ring.capacity) = pos ∧ (w.stage (pos % s.ring.capacity)).Published := by
  have hslot := h.at_slot pos
  have hne := succ_mod_ne h.two_le pos
  have hseq' := hslot.seq
  rw [hseq] at hseq'
  have hmod := hslot.slot
  cases hst : w.stage (pos % s.ring.capacity) with
  | free | claimed _ | filled _ =>
    rw [hst] at hseq'
    exact absurd (congrArg (· % s.ring.capacity) hseq' |>.trans hmod) hne
  | full | taken _ | read _ =>
    rw [hst] at hseq'
    exact ⟨(Nat.succ.inj hseq').symm, trivial⟩

/-- The slot of the tail, once its earlier rounds are over, is free. -/
theorem Inv.free_at_tail (h : Inv s w) (htail : s.ring.tail = pos) (hreached : pos ≤ w.pos (pos % s.ring.capacity)) :
    w.pos (pos % s.ring.capacity) = pos ∧ w.stage (pos % s.ring.capacity) = .free := by
  have hslot := h.at_slot pos
  have hhead := h.head_le
  have hlt := hslot.lt_head
  have heq : w.pos (pos % s.ring.capacity) = pos := eq_of_window hreached (by omega) hslot.slot
  refine ⟨heq, ?_⟩
  have hplace := hslot.place
  cases hst : w.stage (pos % s.ring.capacity) with
  | free => rfl
  | claimed _ | filled _ | full =>
    rw [hst, Stage.Place] at hplace
    omega
  | taken _ | read _ =>
    rw [hst, Stage.Place] at hplace
    omega

theorem Inv.full_at_head (h : Inv s w) (hhead : s.ring.head = pos)
    (hpublished : pos < w.pos (pos % s.ring.capacity) ∨
      (w.pos (pos % s.ring.capacity) = pos ∧ (w.stage (pos % s.ring.capacity)).Published)) :
    w.pos (pos % s.ring.capacity) = pos ∧ w.stage (pos % s.ring.capacity) = .full := by
  have hslot := h.at_slot pos
  have hlt := hslot.lt_head
  have hle : pos ≤ w.pos (pos % s.ring.capacity) := by
    rcases hpublished with hlt | ⟨heq, -⟩
    · exact hlt.le
    · exact heq.ge
  have heq : w.pos (pos % s.ring.capacity) = pos := eq_of_window hle (by omega) hslot.slot
  refine ⟨heq, ?_⟩
  have hplace := hslot.place
  have hstage := (hpublished.resolve_left (by omega)).2
  cases hst : w.stage (pos % s.ring.capacity) with
  | free | claimed _ | filled _ =>
    rw [hst] at hstage
    exact hstage.elim
  | full => rfl
  | taken _ | read _ =>
    rw [hst, Stage.Place] at hplace
    omega

/-- There is never more in the ring than it has slots. -/
theorem Inv.tail_le (h : Inv s w) : s.ring.tail ≤ s.ring.head + s.ring.capacity := by
  have hslot := h.at_slot s.ring.head
  have htail := hslot.tail_le
  have hlt := hslot.lt_head
  by_contra hover
  have hle : s.ring.head ≤ w.pos (s.ring.head % s.ring.capacity) := by omega
  have heq := eq_of_window hle (by omega) hslot.slot
  omega

/-- The other slots when the tail has passed slot `j`. -/
theorem SlotOk.tail_succ {ring : Ring M} {sent : List M} {j k q : ℕ} {st : Stage ι} (delta : M)
    (h : SlotOk ring sent k q st) (htail : ring.tail % ring.capacity = j) (hk : k ≠ j) :
    SlotOk { ring with tail := ring.tail + 1 } (sent ++ [delta]) k q st := by
  have hne : ring.tail ≠ q := fun heq ↦ hk (h.slot.symm.trans (heq ▸ htail))
  have hne' : ring.tail ≠ q + ring.capacity := fun heq ↦
    hk (h.slot.symm.trans (by rw [← htail, heq, Nat.add_mod_right]))
  have hle := h.tail_le
  have hplace := h.place
  have hcontent := h.content
  refine ⟨h.slot, by dsimp only; omega, h.lt_head, h.seq, ?_, ?_⟩
  · cases st <;> simp only [Stage.Place] at hplace ⊢ <;> omega
  · cases st with
    | free | claimed _ | read _ => trivial
    | filled _ | full | taken _ =>
      obtain ⟨hlt, -⟩ := List.getElem?_eq_some_iff.mp hcontent
      exact (List.getElem?_append_left hlt).trans hcontent

/-- The other slots when the head has passed slot `j`. -/
theorem SlotOk.head_succ {ring : Ring M} {sent : List M} {j k q : ℕ} {st : Stage ι}
    (h : SlotOk ring sent k q st) (hhead : ring.head % ring.capacity = j) (hk : k ≠ j) :
    SlotOk { ring with head := ring.head + 1 } sent k q st := by
  have hne : ring.head ≠ q := fun heq ↦ hk (h.slot.symm.trans (heq ▸ hhead))
  have hlt := h.lt_head
  have hplace := h.place
  refine ⟨h.slot, h.tail_le, by dsimp only; omega, h.seq, ?_, h.content⟩
  cases st <;> simp only [Stage.Place] at hplace ⊢ <;> omega

end Facts

section Steps

variable {s t : System ι M} {w w' : Rounds ι} {i : ι} {pos : ℕ} {p : Phase M}

theorem thread_become_self (s : System ι M) (i : ι) (p : Phase M) : (s.become i p).thread i = p :=
  Function.update_self ..

theorem thread_become_of_ne (s : System ι M) {i j : ι} (hj : j ≠ i) (p : Phase M) :
    (s.become i p).thread j = s.thread j := Function.update_of_ne hj ..

/-- A step that only moves thread `i` on. -/
theorem Inv.become (h : Inv s w) (hp : ThreadOk s w i p) : Inv (s.become i p) w where
  power := h.power
  sent := h.sent
  head_le := h.head_le
  slots := h.slots
  threads j := by
    by_cases hj : j = i
    · subst hj
      rw [thread_become_self]
      cases p <;> exact hp
    · rw [thread_become_of_ne s hj]
      have hold := h.threads j
      generalize s.thread j = q at hold
      cases q <;> exact hold
  taken := h.taken
  popped := h.popped
  all_popped := h.all_popped
  once := h.once
  in_order := h.in_order

/-- Thread `i` has moved some slots on, of which no other thread was in the
middle. -/
structure Advances (s t : System ι M) (w w' : Rounds ι) (i : ι) : Prop where
  capacity : t.ring.capacity = s.ring.capacity
  tail_le : s.ring.tail ≤ t.ring.tail
  sent : ∀ (q : ℕ) m, s.sent[q]? = some m → t.sent[q]? = some m
  popped : ∀ e ∈ t.popped, e.1 ≠ i → e ∈ s.popped
  slots : ∀ k, (w'.pos k = w.pos k ∧ w'.stage k = w.stage k) ∨
    ((∀ x ∈ (w.stage k).owner, x = i) ∧ (w.pos k < w'.pos k ∨
      (w'.pos k = w.pos k ∧ ((w.stage k).Published → (w'.stage k).Published))))

omit [DecidableEq ι] in
theorem Advances.threadOk (h : Advances s t w w' i) {j : ι} (hj : j ≠ i) (hp : ThreadOk s w j p) :
    ThreadOk t w' j p := by
  have hpos : ∀ k, w.pos k ≤ w'.pos k := fun k ↦ by
    rcases h.slots k with ⟨heq, -⟩ | ⟨-, hlt | ⟨heq, -⟩⟩ <;> omega
  have hmine : ∀ k st, w.stage k = st → j ∈ st.owner → w'.pos k = w.pos k ∧ w'.stage k = st := by
    intro k st hst howner
    rcases h.slots k with ⟨heq, hstage⟩ | ⟨hothers, -⟩
    · exact ⟨heq, hstage.trans hst⟩
    · exact absurd (hothers j (hst ▸ howner)) hj
  have hold : ∀ q, (∀ e ∈ s.popped, e.1 = j → e.2.1 < q) → ∀ e ∈ t.popped, e.1 = j → e.2.1 < q :=
    fun q hq e he hej ↦ hq e (h.popped e he (hej ▸ hj)) hej
  cases p with
  | idle | pushLoad _ | pushSeq _ _ | popLoad | popSeq _ | depthHead => trivial
  | pushSwap delta pos =>
    simp only [ThreadOk, h.capacity] at hp ⊢
    exact hp.trans (hpos _)
  | pushStore delta pos =>
    simp only [ThreadOk, h.capacity] at hp ⊢
    obtain ⟨hat, hstage, hsent⟩ := hp
    obtain ⟨heq, hstage'⟩ := hmine _ _ hstage rfl
    exact ⟨heq.trans hat, hstage', h.sent _ _ hsent⟩
  | pushPublish pos =>
    simp only [ThreadOk, h.capacity] at hp ⊢
    obtain ⟨heq, hstage'⟩ := hmine _ _ hp.2 rfl
    exact ⟨heq.trans hp.1, hstage'⟩
  | popSwap pos =>
    simp only [ThreadOk, h.capacity] at hp ⊢
    rcases hp with hlt | ⟨hat, hpublished⟩
    · exact .inl (hlt.trans_le (hpos _))
    · rcases h.slots (pos % s.ring.capacity) with ⟨heq, hstage⟩ | ⟨-, hlt | ⟨heq, hstage⟩⟩
      · exact .inr ⟨heq.trans hat, hstage ▸ hpublished⟩
      · exact .inl (hat.symm.trans_lt hlt)
      · exact .inr ⟨heq.trans hat, hstage hpublished⟩
  | popRead pos =>
    simp only [ThreadOk, h.capacity] at hp ⊢
    obtain ⟨heq, hstage'⟩ := hmine _ _ hp.2.1 rfl
    exact ⟨heq.trans hp.1, hstage', hold _ hp.2.2⟩
  | popRelease pos msg =>
    simp only [ThreadOk, h.capacity] at hp ⊢
    obtain ⟨heq, hstage'⟩ := hmine _ _ hp.2.1 rfl
    exact ⟨heq.trans hp.1, hstage', h.sent _ _ hp.2.2.1, hold _ hp.2.2.2⟩
  | depthTail head => exact le_trans hp h.tail_le

/-- A step that leaves the rounds and the finished pops as they are. -/
theorem Inv.move (h : Inv s w) (hadv : Advances s t w w' i) (hpos : w'.pos = w.pos)
    (hthread : t.thread = Function.update s.thread i p) (hself : ThreadOk t w' i p)
    (hsent : t.sent.length = t.ring.tail) (hle : t.ring.head ≤ t.ring.tail)
    (hslots : ∀ k < t.ring.capacity, SlotOk t.ring t.sent k (w'.pos k) (w'.stage k))
    (htaken : t.taken = List.range t.ring.head) (hpopped : t.popped = s.popped) : Inv t w' where
  power := hadv.capacity ▸ h.power
  sent := hsent
  head_le := hle
  slots := hslots
  threads j := by
    rw [hthread]
    by_cases hj : j = i
    · subst hj
      rwa [Function.update_self]
    · rw [Function.update_of_ne hj]
      exact hadv.threadOk hj (h.threads j)
  taken := htaken
  popped e he := by
    rw [hpopped] at he
    obtain ⟨hmsg, hlt⟩ := h.popped e he
    rw [hpos, hadv.capacity]
    exact ⟨hadv.sent _ _ hmsg, hlt⟩
  all_popped q hq := by
    rw [hpos, hadv.capacity] at hq
    rw [hpopped]
    exact h.all_popped q hq
  once := hpopped ▸ h.once
  in_order := hpopped ▸ h.in_order

omit [DecidableEq ι] in
theorem setStage_slots {j : ℕ} {st : Stage ι} (howner : ∀ x ∈ (w.stage j).owner, x = i)
    (hpublished : (w.stage j).Published → st.Published) (k : ℕ) :
    ((w.setStage j st).pos k = w.pos k ∧ (w.setStage j st).stage k = w.stage k) ∨
    ((∀ x ∈ (w.stage k).owner, x = i) ∧ (w.pos k < (w.setStage j st).pos k ∨
      ((w.setStage j st).pos k = w.pos k ∧ ((w.stage k).Published → ((w.setStage j st).stage k).Published)))) := by
  by_cases hk : k = j
  · subst hk
    refine .inr ⟨howner, .inr ⟨rfl, ?_⟩⟩
    rw [stage_setStage_self]
    exact hpublished
  · exact .inl ⟨rfl, stage_setStage_of_ne w hk st⟩

omit [DecidableEq ι] in
/-- Slot `j` is at its next stage, the others where they were. -/
theorem slots_setStage {ring : Ring M} {sent : List M} {j : ℕ} {st : Stage ι}
    (hj : SlotOk ring sent j (w.pos j) st)
    (hothers : ∀ k < ring.capacity, k ≠ j → SlotOk ring sent k (w.pos k) (w.stage k)) :
    ∀ k < ring.capacity, SlotOk ring sent k ((w.setStage j st).pos k) ((w.setStage j st).stage k) := by
  intro k hk
  by_cases hkj : k = j
  · subst hkj
    rw [stage_setStage_self]
    exact hj
  · rw [stage_setStage_of_ne w hkj]
    exact hothers k hk hkj

theorem Inv.claim (h : Inv s w) (delta : M) (hreached : pos ≤ w.pos (pos % s.ring.capacity))
    (htail : s.ring.tail = pos) :
    Inv ({ s with ring := { s.ring with tail := pos + 1 }, sent := s.sent ++ [delta] }.become i
      (.pushStore delta pos)) (w.setStage (pos % s.ring.capacity) (.claimed i)) := by
  obtain ⟨hat, hfree⟩ := h.free_at_tail htail hreached
  have hslot := h.at_slot pos
  rw [hfree, hat] at hslot
  have hlen := h.sent
  have hle := h.head_le
  have hlast : (s.sent ++ [delta])[pos]? = some delta := by
    rw [← htail, ← hlen]
    exact List.getElem?_concat_length
  refine h.move ⟨rfl, htail ▸ Nat.le_succ _, fun q m hq ↦ ?_, fun e he _ ↦ he, ?_⟩ rfl rfl ?_ ?_ ?_
    (slots_setStage ?_ fun k hk hkj ↦ ?_) h.taken rfl
  · obtain ⟨hlt, -⟩ := List.getElem?_eq_some_iff.mp hq
    exact (List.getElem?_append_left hlt).trans hq
  · refine setStage_slots ?_ ?_ <;> rw [hfree]
    · exact nofun
    · exact id
  · exact ⟨hat, stage_setStage_self .., hlast⟩
  · rw [System.become, List.length_append, hlen, htail]
    rfl
  · exact hle.trans (htail ▸ Nat.le_succ _)
  · rw [hat]
    have hone : 1 ≤ s.ring.capacity := by
      have := h.two_le
      omega
    exact ⟨rfl, Nat.add_le_add_left hone pos, hslot.lt_head, hslot.seq, ⟨htail ▸ hle, Nat.lt_succ_self pos⟩, trivial⟩
  · have hother := (h.slots k hk).tail_succ delta (htail ▸ rfl) hkj
    rwa [htail] at hother

/-- A step of the owner of the slot of `pos` on the slot alone. -/
theorem Inv.own (h : Inv s w) {st : Stage ι} (st' : Stage ι) {buffer : ℕ → M} {seqs : ℕ → ℕ}
    (hat : w.pos (pos % s.ring.capacity) = pos) (hst : w.stage (pos % s.ring.capacity) = st)
    (howner : ∀ x ∈ st.owner, x = i) (hpublished : st.Published → st'.Published)
    (hbuffer : ∀ k, k ≠ pos % s.ring.capacity → buffer k = s.ring.buffer k)
    (hseqs : ∀ k, k ≠ pos % s.ring.capacity → seqs k = s.ring.seqs k)
    (hslot : SlotOk { s.ring with buffer := buffer, seqs := seqs } s.sent (pos % s.ring.capacity) pos st')
    (hself : ThreadOk { s with ring := { s.ring with buffer := buffer, seqs := seqs } }
      (w.setStage (pos % s.ring.capacity) st') i p) :
    Inv ({ s with ring := { s.ring with buffer := buffer, seqs := seqs } }.become i p)
      (w.setStage (pos % s.ring.capacity) st') := by
  refine h.move ⟨rfl, le_rfl, fun _ _ hq ↦ hq, fun _ he _ ↦ he, setStage_slots (hst ▸ howner) (hst ▸ hpublished)⟩
    rfl rfl (by cases p <;> exact hself) h.sent h.head_le (slots_setStage (hat.symm ▸ hslot) fun k hk hkj ↦ ?_) h.taken rfl
  have hold := h.slots k hk
  have hcontent := hold.content
  refine ⟨hold.slot, hold.tail_le, hold.lt_head, (hseqs k hkj).trans hold.seq, hold.place, ?_⟩
  cases hstage : w.stage k with
  | free | claimed _ | read _ => trivial
  | filled _ | full | taken _ =>
    rw [hstage] at hcontent
    exact hcontent.trans (congrArg some (hbuffer k hkj).symm)

theorem Inv.take (h : Inv s w) (hhead : s.ring.head = pos)
    (hpublished : pos < w.pos (pos % s.ring.capacity) ∨
      (w.pos (pos % s.ring.capacity) = pos ∧ (w.stage (pos % s.ring.capacity)).Published)) :
    Inv ({ s with ring := { s.ring with head := pos + 1 }, taken := s.taken ++ [pos] }.become i (.popRead pos))
      (w.setStage (pos % s.ring.capacity) (.taken i)) := by
  obtain ⟨hat, hfull⟩ := h.full_at_head hhead hpublished
  have hslot := h.at_slot pos
  rw [hfull, hat] at hslot
  obtain ⟨-, hlt⟩ := hslot.place
  -- a finished pop is of an earlier round of its slot, so it is behind the head
  have hbehind : ∀ e ∈ s.popped, e.2.1 < pos := by
    intro e he
    have hround := (h.popped e he).2
    have hother := h.at_slot e.2.1
    have hhead' := hother.lt_head
    by_contra hge
    have heq := eq_of_window hround.le (by omega) hother.slot
    omega
  refine h.move ⟨rfl, le_rfl, fun _ _ hq ↦ hq, fun _ he _ ↦ he, setStage_slots ?_ ?_⟩ rfl rfl ?_ h.sent ?_
    (slots_setStage ?_ fun k hk hkj ↦ ?_) ?_ rfl
  · rw [hfull]
    exact nofun
  · exact fun _ ↦ trivial
  · exact ⟨hat, stage_setStage_self .., fun e he _ ↦ hbehind e he⟩
  · exact hlt
  · rw [hat]
    exact ⟨rfl, hslot.tail_le, hslot.lt_head.trans (by rw [hhead]; exact Nat.add_lt_add_right (Nat.lt_succ_self pos) _),
      hslot.seq, Nat.lt_succ_self pos, hslot.content⟩
  · have hother := (h.slots k hk).head_succ (hhead ▸ rfl) hkj
    rwa [hhead] at hother
  · rw [System.become, h.taken, hhead]
    exact List.range_succ.symm

/-- The release of a slot whose message is returned. -/
theorem Inv.release (h : Inv s w) {msg : M} (hphase : s.thread i = .popRelease pos msg) :
    Inv ({ s.setSeq pos (pos + s.ring.capacity) with popped := s.popped ++ [(i, pos, msg)] }.become i .idle)
      (w.next (pos % s.ring.capacity) s.ring.capacity) := by
  have hself := h.threads i
  rw [hphase] at hself
  obtain ⟨hat, hread, hmsg, hmine⟩ := hself
  have hslot := h.at_slot pos
  rw [hread, hat] at hslot
  have hbehind : pos < s.ring.head := hslot.place
  have htwo := h.two_le
  have hself := next_self w (pos % s.ring.capacity) s.ring.capacity
  rw [hat] at hself
  have hround : ∀ k, w.pos k ≤ (w.next (pos % s.ring.capacity) s.ring.capacity).pos k := by
    intro k
    by_cases hk : k = pos % s.ring.capacity
    · rw [hk, hself.1, hat]
      exact Nat.le_add_right _ _
    · rw [(next_of_ne w hk _).1]
  have hadv : Advances s ({ s.setSeq pos (pos + s.ring.capacity) with
      popped := s.popped ++ [(i, pos, msg)] }.become i .idle) w (w.next (pos % s.ring.capacity) s.ring.capacity) i := by
    refine ⟨rfl, le_rfl, fun _ _ hq ↦ hq, fun e he hne ↦ ?_, fun k ↦ ?_⟩
    · rcases List.mem_append.mp he with he | he
      · exact he
      · rw [List.mem_singleton.mp he] at hne
        exact absurd rfl hne
    · by_cases hk : k = pos % s.ring.capacity
      · subst hk
        refine .inr ⟨by rw [hread]; rintro x ⟨⟩; rfl, .inl ?_⟩
        rw [hself.1, hat]
        omega
      · exact .inl (next_of_ne w hk _)
  refine ⟨h.power, h.sent, h.head_le, fun k hk ↦ ?_, fun j ↦ ?_, h.taken, fun e he ↦ ?_, fun q hq ↦ ?_, ?_, ?_⟩
  · by_cases hkj : k = pos % s.ring.capacity
    · rw [hkj, hself.1, hself.2]
      refine ⟨Nat.add_mod_right _ _, hslot.tail_le.trans (Nat.le_add_right _ _),
        Nat.add_lt_add_right hbehind _, ?_, hslot.tail_le, trivial⟩
      simp only [System.become, System.setSeq, h.slot_eq, Function.update_self]
      rfl
    · rw [(next_of_ne w hkj _).1, (next_of_ne w hkj _).2]
      have hold := h.slots k hk
      refine ⟨hold.slot, hold.tail_le, hold.lt_head, ?_, hold.place, hold.content⟩
      simp only [System.become, System.setSeq, h.slot_eq, Function.update_of_ne hkj]
      exact hold.seq
  · by_cases hj : j = i
    · subst hj
      rw [thread_become_self]
      trivial
    · rw [thread_become_of_ne _ hj]
      exact hadv.threadOk hj (h.threads j)
  · rcases List.mem_append.mp he with he | he
    · obtain ⟨hsent, hlt⟩ := h.popped e he
      exact ⟨hsent, hlt.trans_le (hround _)⟩
    · rw [List.mem_singleton.mp he]
      refine ⟨hmsg, ?_⟩
      simp only [System.become, System.setSeq, hself.1]
      omega
  · simp only [System.become, System.setSeq] at hq ⊢
    by_cases hk : q % s.ring.capacity = pos % s.ring.capacity
    · rw [hk, hself.1] at hq
      by_cases hold : q < pos
      · obtain ⟨e, he, hep⟩ := h.all_popped q (by rwa [hk, hat])
        exact ⟨e, List.mem_append_left _ he, hep⟩
      · exact ⟨(i, pos, msg), by simp, (eq_of_window (not_lt.mp hold) hq hk).symm⟩
    · rw [(next_of_ne w hk _).1] at hq
      obtain ⟨e, he, hep⟩ := h.all_popped q hq
      exact ⟨e, List.mem_append_left _ he, hep⟩
  · simp only [System.become, List.map_append, List.map_cons, List.map_nil]
    refine List.nodup_append.mpr ⟨h.once, List.nodup_singleton _, ?_⟩
    rintro q hq q' hq' rfl
    obtain ⟨e, he, rfl⟩ := List.mem_map.mp hq
    have hlt := (h.popped e he).2
    rw [List.mem_singleton.mp hq', hat] at hlt
    exact lt_irrefl _ hlt
  · refine List.pairwise_append.mpr ⟨h.in_order, List.pairwise_singleton _ _, fun e he f hf hef ↦ ?_⟩
    rw [List.mem_singleton.mp hf] at hef ⊢
    exact hmine e he hef

theorem Inv.step (h : Inv s w) (i : ι) : ∃ w', Inv (s.step i) w' := by
  have hself := h.threads i
  rw [System.step]
  cases hphase : s.thread i with
  | idle => exact ⟨w, h⟩
  | pushLoad delta => exact ⟨w, h.become trivial⟩
  | pushSeq delta pos =>
    dsimp only
    rw [h.slot_eq]
    split_ifs with hseq hfull
    · exact ⟨w, h.become (h.reached hseq)⟩
    · exact ⟨w, h.become trivial⟩
    · exact ⟨w, h.become trivial⟩
  | pushSwap delta pos =>
    dsimp only
    rw [hphase] at hself
    split_ifs with htail
    · exact ⟨_, h.claim delta hself htail⟩
    · exact ⟨w, h.become trivial⟩
  | pushStore delta pos =>
    rw [hphase] at hself
    obtain ⟨hat, hclaimed, hsent⟩ := hself
    have hslot := h.at_slot pos
    rw [hclaimed, hat] at hslot
    refine ⟨_, h.own (.filled i) hat hclaimed (by rintro x ⟨⟩; rfl) id (fun k hk ↦ ?_) (fun _ _ ↦ rfl) ?_
      ⟨hat, stage_setStage_self ..⟩⟩
    · rw [h.slot_eq, Function.update_of_ne hk]
    · refine ⟨rfl, hslot.tail_le, hslot.lt_head, hslot.seq, hslot.place, ?_⟩
      simp only [Stage.Holds, h.slot_eq, Function.update_self]
      exact hsent
  | pushPublish pos =>
    rw [hphase] at hself
    obtain ⟨hat, hfilled⟩ := hself
    have hslot := h.at_slot pos
    rw [hfilled, hat] at hslot
    refine ⟨_, h.own .full hat hfilled (by rintro x ⟨⟩; rfl) nofun (fun _ _ ↦ rfl) (fun k hk ↦ ?_) ?_ trivial⟩
    · rw [h.slot_eq, Function.update_of_ne hk]
    · refine ⟨rfl, hslot.tail_le, hslot.lt_head, ?_, hslot.place, hslot.content⟩
      simp only [h.slot_eq, Function.update_self]
      rfl
  | popLoad => exact ⟨w, h.become trivial⟩
  | popSeq pos =>
    dsimp only
    rw [h.slot_eq]
    split_ifs with hseq hempty
    · exact ⟨w, h.become (.inr (h.published hseq))⟩
    · exact ⟨w, h.become trivial⟩
    · exact ⟨w, h.become trivial⟩
  | popSwap pos =>
    dsimp only
    rw [hphase] at hself
    split_ifs with hhead
    · exact ⟨_, h.take hhead hself⟩
    · exact ⟨w, h.become trivial⟩
  | popRead pos =>
    rw [hphase] at hself
    obtain ⟨hat, htaken, hmine⟩ := hself
    have hslot := h.at_slot pos
    rw [htaken, hat] at hslot
    refine ⟨_, h.own (.read i) hat htaken (by rintro x ⟨⟩; rfl) (fun _ ↦ trivial) (fun _ _ ↦ rfl)
      (fun _ _ ↦ rfl) ⟨rfl, hslot.tail_le, hslot.lt_head, hslot.seq, hslot.place, trivial⟩
      ⟨hat, stage_setStage_self .., ?_, hmine⟩⟩
    rw [h.slot_eq]
    exact hslot.content
  | popRelease pos msg => exact ⟨_, h.release hphase⟩
  | depthHead => exact ⟨w, h.become h.head_le⟩
  | depthTail head => exact ⟨w, h.become trivial⟩

theorem Inv.call (h : Inv s w) (c : Call M) : Inv (s.call i c) w := by
  cases c with
  | push delta =>
    rw [System.call]
    split_ifs
    · exact h
    · exact h.become trivial
  | pop =>
    rw [System.call]
    split_ifs
    · exact h
    · exact h.become trivial
  | depth => exact h.become trivial

end Steps

section Runs

variable {s : System ι M} {w : Rounds ι} {ring ring' : Ring M} {capacity memLen : ℕ} {aligned : Bool}

omit [DecidableEq ι] in
theorem Inv.safe (h : Inv s w) : Safe s := by
  refine ⟨⟨h.head_le, h.tail_le⟩, h.once, fun i p m he ↦ (h.popped _ he).1, h.taken, h.in_order, ?_, ?_⟩
  · intro i delta pos hphase p hp hslot
    have hself := h.threads i
    rw [hphase] at hself
    rw [h.slot_eq, h.slot_eq] at hslot
    refine h.all_popped p ?_
    rw [hslot, hself.1]
    exact hp
  · intro i head hphase
    have hself := h.threads i
    rwa [hphase] at hself

/-- The ring that the master has initialised. -/
theorem init_master (h : ring'.init memLen aligned capacity true = .ok ring) :
    (∃ k, 1 ≤ k ∧ ring.capacity = 2 ^ k) ∧ ring.capacity = capacity ∧ ring.head = 0 ∧ ring.tail = 0 ∧
      ∀ j < capacity, ring.seqs j = j := by
  rw [Ring.init] at h
  split_ifs at h with hcapacity haligned hheader hmaster hfit
  · obtain rfl := Except.ok.inj h
    push Not at hcapacity
    obtain ⟨k, hk⟩ := (Nat.and_sub_one_eq_zero_iff_isPowerOfTwo (by omega)).mp hcapacity.2
    refine ⟨⟨k, ?_, hk⟩, rfl, rfl, rfl, fun j hj ↦ if_pos hj⟩
    rcases k with - | k
    · rw [hk] at hcapacity
      omega
    · omega
  · simp at hmaster

omit [DecidableEq ι] in
theorem Inv.of_init (h : ring'.init memLen aligned capacity true = .ok ring) :
    Inv (start ring : System ι M) ⟨id, fun _ ↦ .free⟩ := by
  obtain ⟨hpower, hcapacity, hhead, htail, hseqs⟩ := init_master h
  refine ⟨hpower, htail.symm, ?_, fun j hj ↦ ?_, fun i ↦ trivial, ?_, by simp [start], fun p hp ↦ ?_,
    List.nodup_nil, .nil⟩
  · exact (hhead.trans htail.symm).le
  · refine ⟨Nat.mod_eq_of_lt hj, ?_, ?_, hseqs j (hcapacity ▸ hj), ?_, trivial⟩
    · exact htail.trans_le (Nat.zero_le _)
    · exact Nat.lt_add_left _ hj
    · exact htail.trans_le (Nat.zero_le _)
  · rw [start, hhead]
    rfl
  · exact absurd hp (not_lt.mpr (Nat.mod_le _ _))

/-- A second process that attaches finds the ring as it is. -/
theorem init_attach (h : ring.init memLen aligned capacity false = .ok ring') (hcapacity : ring.capacity ≠ 0) :
    ring' = ring := by
  simp only [Ring.init, Bool.false_eq_true, hcapacity, or_self, if_false] at h
  split_ifs at h
  exact (Except.ok.inj h).symm

/-- Any number of producers and consumers, in any interleaving, share an
initialised ring safely. -/
theorem safe_of_run {t : System ι M} (hinit : ring'.init memLen aligned capacity true = .ok ring)
    (hrun : Run Step (fun _ _ ↦ True) (start ring) t) : Safe t := by
  have hinv : ∃ w, Inv t w := hrun.invariant (fun s ↦ ∃ w, Inv s w) (fun u e v ⟨w, hw⟩ _ hstep ↦ by
    cases hstep with
    | call hidle => exact ⟨w, hw.call _⟩
    | step hbusy => exact hw.step _) ⟨_, .of_init hinit⟩
  obtain ⟨w, hw⟩ := hinv
  exact hw.safe

end Runs

/-- The ring of two slots over a segment of zeros. -/
def twoSlots : Ring ℕ := ⟨0, 0, 2, fun _ ↦ 0, fun i ↦ if i < 2 then i else 0⟩

/-- Two producers want the first slot; the second one gets it. A pop in between finds nothing. -/
def twoProducers : List (Event (Fin 3) ℕ) :=
  [.call 0 (.push 7), .call 1 (.push 8), .step 0, .step 1, .step 0, .step 1, .step 1, .step 0,
    .call 2 .pop, .step 2, .step 2, .step 0, .step 0, .step 0, .step 0, .step 0, .step 1, .step 1,
    .call 2 .pop, .step 2, .step 2, .step 2, .step 2, .step 2,
    .call 2 .pop, .step 2, .step 2, .step 2, .step 2, .step 2]

theorem safe_of_two_producers :
    Safe (twoProducers.foldl System.next (start twoSlots)) ∧
      (twoProducers.foldl System.next (start twoSlots)).popped = [(2, 0, 8), (2, 1, 7)] := by
  have hinit : (⟨0, 0, 0, fun _ ↦ 0, fun _ ↦ 0⟩ : Ring ℕ).init 4096 true 2 true = .ok twoSlots := rfl
  exact ⟨safe_of_run hinit (Run.foldl run_next _ _), by decide⟩

end TakyonDb.RingBuffer
