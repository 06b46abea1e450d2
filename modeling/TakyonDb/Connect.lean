import TakyonDb.DefaultRegions
import TakyonDb.Lib.Transition
import TakyonDb.RingBuffer

namespace TakyonDb.Connect

open Lib Layout RingBuffer

abbrev layoutVersionNoTable : ℕ := 2
abbrev layoutVersionUnalignedRecords : ℕ := 3

/-- The segment as a call finds it. Other processes write the header and the ring between two calls. -/
structure Segment (M : Type) where
  len : ℕ
  magic : UInt32
  version : UInt32
  table : Regions
  ring : RingBuffer.Ring M

inductive ReadError
  | headerTooSmall
  | badMagic
  | noRegionTable
  | unalignedRecords

variable {M : Type}

namespace Segment

def readRegions (seg : Segment M) : Except ReadError Regions :=
  if seg.len < headerBytes then .error .headerTooSmall
  else if seg.magic.toNat ≠ arenaMagic then .error .badMagic
  else if seg.version.toNat ≤ layoutVersionNoTable then .error .noRegionTable
  else if seg.version.toNat ≤ layoutVersionUnalignedRecords then .error .unalignedRecords
  else .ok seg.table

def checkHeader (seg : Segment M) : Bool :=
  headerBytes ≤ seg.len ∧ seg.magic.toNat = arenaMagic ∧ seg.version.toNat = layoutVersion

/-- Stamps the default table. A size that does not fit a word stops the process. -/
def writeHeader (seg : Segment M) : Option (Segment M) :=
  if seg.len < headerBytes then some seg
  else do
    let r ← defaultRegions seg.len
    return { seg with magic := UInt32.ofNat arenaMagic, version := UInt32.ofNat layoutVersion, table := r }

/-- `RingBuffer.init` on what follows the reserved bytes; the mapping starts at a page. -/
def ringInit (seg : Segment M) (r : Regions) (isMaster : Bool) : Except InitError (RingBuffer.Ring M) :=
  seg.ring.init (seg.len - ringOffset) true r.ringCapacity.toNat isMaster

/-- The header describes the mapping, and the ring is one that can be used. -/
def Accepts (seg : Segment M) (isMaster : Bool) : Prop :=
  ∃ r ring, seg.readRegions = .ok r ∧ validateRegions r seg.len = .ok () ∧ seg.ringInit r isMaster = .ok ring

end Segment

/-- What a call finds outside of the process: the segment that is mapped, the object that opening a name finds, and the
one that opening it to create it finds or makes. A new one is empty. -/
structure Host (M : Type) where
  shared : Segment M
  attach : Option (Segment M)
  create : Option (Segment M)

inductive OpenMode
  | server
  | readWrite

/-- `SharedArena.init`: `none` where the process stops, `some none` for an error. -/
def sharedArenaInit (host : Host M) (name : Bytes) (size : ℕ) (mode : OpenMode) : Option (Option (Segment M)) :=
  if size < minArenaSize ∨ name.length = 0 ∨ 255 < name.length then some none
  else
    match mode with
    | .readWrite =>
      match host.attach with
      | none => some none
      | some seg => if seg.len ≠ size ∨ ¬ seg.checkHeader then some none else some (some seg)
    | .server =>
      match host.create with
      | none => some none
      | some seg =>
        if seg.len = 0 then ({ seg with len := size } : Segment M).writeHeader.map some
        else if seg.len ≠ size ∨ ¬ seg.checkHeader then some none
        else seg.writeHeader.map some

/-- Attaches to the segment of a daemon, and creates it where that fails. -/
def openArena (host : Host M) (name : Bytes) (size : ℕ) : Option (Option (Segment M × Bool)) :=
  match sharedArenaInit host name size .readWrite with
  | none => none
  | some (some seg) => some (some (seg, false))
  | some none => (sharedArenaInit host name size .server).map fun found ↦ found.map fun seg ↦ (seg, true)

def defaultShmBasename : Bytes := "TakyonDB_Master".toUTF8.toList

def shmLocal : Bytes := "shm://local".toUTF8.toList

def nameByte (b : UInt8) : Bool :=
  (97 ≤ b && b ≤ 122) || (65 ≤ b && b ≤ 90) || (48 ≤ b && b ≤ 57) || b == 46 || b == 95 || b == 45

def resolveShmName (raw : Bytes) : Option Bytes :=
  let base := if raw.length = 0 ∨ raw = shmLocal then defaultShmBasename else raw
  if base.length = 0 ∨ 64 < base.length then none
  else if ¬ base.all nameByte then none
  else if 128 < 1 + base.length then none
  else some (47 :: base)

structure Arena where
  memLen : ℕ
  handle : Option ℕ

/-- The globals of the engine. `opened` counts the mappings that were made, each of which has the count before it as its
handle, and `closed` are the handles that were closed. -/
structure Engine where
  arena : Arena
  arenaReady : Bool
  ringReady : Bool
  regions : Option Regions
  refs : ℕ
  daemonAttached : Bool
  nameBuf : Bytes
  nameLen : ℕ
  opened : ℕ
  closed : List ℕ

namespace Engine

def start : Engine := ⟨⟨0, none⟩, false, false, none, 0, false, List.replicate 128 0, 0, 0, []⟩

def name (e : Engine) : Bytes := e.nameBuf.take e.nameLen

def mapping (e : Engine) : Option Arena := if e.arenaReady then some e.arena else none

/-- `SharedArena.close` of a copy: `arena` keeps its handle. -/
def closeOwned (e : Engine) : Engine :=
  match e.arena.handle with
  | none => e
  | some h => { e with closed := e.closed ++ [h] }

/-- The path of a process that shares its mapping once more. -/
def share (e : Engine) (seg : Segment M) : Engine × Bool :=
  let raised := { e with refs := e.refs + 1 }
  match seg.readRegions with
  | .error _ => (raised, false)
  | .ok r =>
    match validateRegions r seg.len with
    | .error _ => (raised, false)
    | .ok () =>
      let read := { raised with regions := some r }
      match seg.ringInit r false with
      | .error _ => (read, false)
      | .ok _ => (read, true)

def refuse (e : Engine) : Engine := { e.closeOwned with arenaReady := false, daemonAttached := false, refs := 0 }

/-- The globals as the path of a process without a mapping sets them first. -/
def adopt (e : Engine) (shmName : Bytes) (seg : Segment M) : Engine :=
  { e with
    arena := ⟨seg.len, some e.opened⟩
    arenaReady := true
    refs := 1
    nameBuf := overwrite e.nameBuf 0 shmName
    nameLen := shmName.length
    opened := e.opened + 1 }

def attach (e : Engine) (shmName : Bytes) (seg : Segment M) (created : Bool) : Engine × Bool :=
  let adopted := e.adopt shmName seg
  if seg.len < ringOffset then ({ adopted.closeOwned with arenaReady := false, refs := 0 }, false)
  else
    let told := { adopted with daemonAttached := !created }
    -- A table that cannot be read goes on as a table of zeros, which the next check refuses once more.
    let read : Engine × Regions := match seg.readRegions with
      | .error _ => (told.refuse, ⟨0, 0, 0, 0, 0, 0, 0, 0⟩)
      | .ok r => (told, r)
    match validateRegions read.2 seg.len with
    | .error _ => (read.1.refuse, false)
    | .ok () =>
      let tabled := { read.1 with regions := some read.2 }
      match seg.ringInit read.2 created with
      | .error _ => (tabled.refuse, false)
      | .ok _ => ({ tabled with ringReady := true }, true)

/-- `takyon_connect_shm`: the globals behind the call, and whether it returned the mapping. -/
def connect (e : Engine) (raw : Bytes) (size : ℕ) (host : Host M) : Option (Engine × Bool) :=
  match resolveShmName raw with
  | none => some (e, false)
  | some shmName =>
    if e.arenaReady then
      if e.arena.memLen ≠ size then some (e, false)
      else if e.nameLen ≠ shmName.length ∨ e.name ≠ shmName then some (e, false)
      else some (e.share { host.shared with len := e.arena.memLen })
    else
      match openArena host shmName size with
      | none => none
      | some none => some (e, false)
      | some (some (seg, created)) => some (e.attach shmName seg created)

/-- `takyon_disconnect_shm`. -/
def disconnect (e : Engine) : Engine :=
  if ¬ e.arenaReady then e
  else if 1 < e.refs then { e with refs := e.refs - 1 }
  else
    { e.closeOwned with
      refs := 0
      nameLen := 0
      arena := ⟨0, none⟩
      arenaReady := false
      ringReady := false
      daemonAttached := false
      regions := none }

end Engine

/-- A call of a client, with what it finds outside of the process. -/
inductive Call (M : Type)
  | connect (raw : Bytes) (size : ℕ) (host : Host M)
  | disconnect

/-- The engine, and the number of successful connects that were not yet disconnected. -/
structure Ledger where
  engine : Engine
  held : ℕ

namespace Ledger

def start : Ledger := ⟨.start, 0⟩

def call (l : Ledger) : Call M → Option (Ledger × Bool)
  | .connect raw size host =>
    (l.engine.connect raw size host).map fun p ↦ (⟨p.1, if p.2 then l.held + 1 else l.held⟩, p.2)
  | .disconnect => some (⟨l.engine.disconnect, l.held - 1⟩, true)

end Ledger

/-- A connect that failed left everything as it was, and closed what it opened. -/
structure Undone (e e' : Engine) : Prop where
  refs : e'.refs = e.refs
  name : e'.name = e.name
  mapping : e'.mapping = e.mapping
  regions : e'.regions = e.regions
  closed : e'.closed = e.closed ++ List.range' e.opened (e'.opened - e.opened)

/-- What a call may close. -/
def Closes (l l' : Ledger) : Call M → Bool → Prop
  | .connect .., true => l'.engine.closed = l.engine.closed
  | .connect .., false => Undone l.engine l'.engine
  | .disconnect, _ =>
    l'.engine.closed = l.engine.closed ++ if l.held = 1 then (l.engine.mapping.bind Arena.handle).toList else []

/-- A call after which the books are right. -/
structure Fair (l l' : Ledger) (c : Call M) (ok : Bool) : Prop where
  counted : l'.engine.refs = l'.held
  closes : Closes l l' c ok
  once : l'.engine.closed = List.range (if l'.engine.arenaReady then l'.engine.opened - 1 else l'.engine.opened)

/-- Every call of the run is fair. -/
def Balances : Ledger → List (Call M) → Prop
  | _, [] => True
  | l, c :: cs => ∀ l' ok, l.call c = some (l', ok) → Fair l l' c ok ∧ Balances l' cs

/-- A connect that comes to the header finds one that it accepts: a process with the mapping after the size and the
name, another one when a segment is mapped. -/
def Passes (e : Engine) : Call M → Prop
  | .connect raw size host => ∀ shmName, resolveShmName raw = some shmName →
    (e.arenaReady = true → e.arena.memLen = size → e.nameLen = shmName.length → e.name = shmName →
      ({ host.shared with len := e.arena.memLen } : Segment M).Accepts false) ∧
    (e.arenaReady = false → ∀ seg created, openArena host shmName size = some (some (seg, created)) →
      seg.Accepts created)
  | .disconnect => True

def PassesAll : Ledger → List (Call M) → Prop
  | _, [] => True
  | l, c :: cs => Passes l.engine c ∧ ∀ l' ok, l.call c = some (l', ok) → PassesAll l' cs

namespace Engine

variable {e : Engine} {seg : Segment M} {shmName raw : Bytes} {size : ℕ} {host : Host M} {created : Bool}

theorem share_of_accepts (h : seg.Accepts false) :
    ∃ r, e.share seg = ({ e with refs := e.refs + 1, regions := some r }, true) := by
  obtain ⟨r, ring, hread, hvalid, hring⟩ := h
  exact ⟨r, by simp only [share, hread, hvalid, hring]⟩

/-- The count is raised before the header is read, and stays raised. -/
theorem share_of_not_accepts (h : ¬ seg.Accepts false) :
    (e.share seg).2 = false ∧ (e.share seg).1.refs = e.refs + 1 := by
  unfold share
  cases hread : seg.readRegions with
  | error err => exact ⟨rfl, rfl⟩
  | ok r =>
    cases hvalid : validateRegions r seg.len with
    | error err => exact ⟨by simp only [hvalid], by simp only [hvalid]⟩
    | ok =>
      cases hring : seg.ringInit r false with
      | error err => exact ⟨by simp only [hvalid, hring], by simp only [hvalid, hring]⟩
      | ok ring => exact absurd ⟨r, ring, hread, hvalid, hring⟩ h

theorem attach_of_accepts (shmName : Bytes) (hlen : ringOffset ≤ seg.len) (h : seg.Accepts created) :
    ∃ r, e.attach shmName seg created =
      ({ e.adopt shmName seg with daemonAttached := !created, regions := some r, ringReady := true }, true) := by
  obtain ⟨r, ring, hread, hvalid, hring⟩ := h
  exact ⟨r, by simp only [attach, if_neg (not_lt.mpr hlen), hread, hvalid, hring]⟩

theorem name_adopt (e : Engine) (shmName : Bytes) (seg : Segment M) : (e.adopt shmName seg).name = shmName := by
  simp [adopt, name, overwrite]

theorem closeOwned_name (e : Engine) : e.closeOwned.name = e.name := by
  unfold closeOwned
  split <;> rfl

theorem refuse_name (e : Engine) : e.refuse.name = e.name := e.closeOwned_name

/-- The name of the segment that was refused stays behind. -/
theorem attach_of_not_accepts (shmName : Bytes) (hlen : ringOffset ≤ seg.len) (h : ¬ seg.Accepts created) :
    (e.attach shmName seg created).2 = false ∧ (e.attach shmName seg created).1.name = shmName := by
  have hname := name_adopt e shmName seg
  unfold attach
  simp only [if_neg (not_lt.mpr hlen)]
  cases hread : seg.readRegions with
  | error err =>
    cases hvalid : validateRegions ⟨0, 0, 0, 0, 0, 0, 0, 0⟩ seg.len with
    | error err => exact ⟨rfl, (refuse_name _).trans ((refuse_name _).trans hname)⟩
    | ok =>
      have hempty : ringOffset ≤ 0 := by
        have harena := ((valid_iff _ _).mp hvalid).arena
        exact hlen.trans_eq harena.symm
      exact absurd hempty (by decide)
  | ok r =>
    cases hvalid : validateRegions r seg.len with
    | error err => exact ⟨rfl, (refuse_name _).trans hname⟩
    | ok =>
      cases hring : seg.ringInit r created with
      | error err => exact ⟨rfl, (refuse_name _).trans hname⟩
      | ok ring => exact absurd ⟨r, ring, hread, hvalid, hring⟩ h

end Engine

theorem Segment.readRegions_of_checkHeader {seg : Segment M}
    (h : seg.checkHeader = true) : seg.readRegions = .ok seg.table := by
  obtain ⟨hlen, hmagic, hversion⟩ := of_decide_eq_true h
  rw [readRegions, if_neg (not_lt.mpr hlen), if_neg (not_not.mpr hmagic), if_neg (by rw [hversion]; decide),
    if_neg (by rw [hversion]; decide)]

theorem Segment.writeHeader_spec {seg seg' : Segment M} (hlen : headerBytes ≤ seg.len)
    (h : seg.writeHeader = some seg') :
    seg'.len = seg.len ∧ seg'.checkHeader = true := by
  rw [writeHeader, if_neg (not_lt.mpr hlen)] at h
  obtain ⟨r, -, hr⟩ := Option.bind_eq_some_iff.mp h
  rw [← Option.some.inj hr]
  exact ⟨rfl, decide_eq_true ⟨hlen, rfl, rfl⟩⟩

/-- A segment that was mapped is large enough and has a header of this version. -/
theorem sharedArenaInit_spec {host : Host M} {shmName : Bytes} {size : ℕ} {mode : OpenMode} {seg : Segment M}
    (h : sharedArenaInit host shmName size mode = some (some seg)) :
      minArenaSize ≤ seg.len ∧ seg.checkHeader = true := by
  have hmin : headerBytes ≤ minArenaSize := by decide
  unfold sharedArenaInit at h
  split_ifs at h with hsize
  · cases h
  rw [not_or, not_lt] at hsize
  cases mode with
  | readWrite =>
    cases hfound : host.attach with
    | none => simp [hfound] at h
    | some found =>
      simp only [hfound] at h
      split_ifs at h with hbad
      · cases h
      · rw [not_or, not_not, not_not] at hbad
        rw [← Option.some.inj (Option.some.inj h), hbad.1]
        exact ⟨hsize.1, hbad.2⟩
  | server =>
    cases hfound : host.create with
    | none => simp [hfound] at h
    | some found =>
      simp only [hfound] at h
      split_ifs at h with hempty hbad
      · obtain ⟨seg', hwrite, heq⟩ := Option.map_eq_some_iff.mp h
        obtain ⟨hlen, hheader⟩ := Segment.writeHeader_spec (hmin.trans hsize.1) hwrite
        rw [← Option.some.inj heq, hlen]
        exact ⟨hsize.1, hheader⟩
      · cases h
      · rw [not_or, not_not, not_not] at hbad
        obtain ⟨seg', hwrite, heq⟩ := Option.map_eq_some_iff.mp h
        have hfit : minArenaSize ≤ found.len := hbad.1.symm ▸ hsize.1
        obtain ⟨hlen, hheader⟩ := Segment.writeHeader_spec (hmin.trans hfit) hwrite
        rw [← Option.some.inj heq, hlen]
        exact ⟨hfit, hheader⟩

/-- A mapping is never too small for the reserved bytes, and its table can be read. -/
theorem openArena_spec {host : Host M} {shmName : Bytes} {size : ℕ} {seg : Segment M} {created : Bool}
    (h : openArena host shmName size = some (some (seg, created))) :
      ringOffset ≤ seg.len ∧ seg.readRegions = .ok seg.table := by
  have hmin : ringOffset ≤ minArenaSize := by decide
  have hspec : ∃ mode, sharedArenaInit host shmName size mode = some (some seg) := by
    unfold openArena at h
    split at h
    · cases h
    · next found hfound =>
      obtain ⟨rfl, -⟩ := Prod.mk.inj (Option.some.inj (Option.some.inj h))
      exact ⟨_, hfound⟩
    · obtain ⟨found, hfound, heq⟩ := Option.map_eq_some_iff.mp h
      obtain ⟨seg', rfl, hpair⟩ := Option.map_eq_some_iff.mp heq
      obtain ⟨rfl, -⟩ := Prod.mk.inj hpair
      exact ⟨_, hfound⟩
  obtain ⟨mode, hmode⟩ := hspec
  obtain ⟨hlen, hheader⟩ := sharedArenaInit_spec hmode
  exact ⟨hmin.trans hlen, Segment.readRegions_of_checkHeader hheader⟩

theorem resolveShmName_ne_nil {raw shmName : Bytes} (h : resolveShmName raw = some shmName) : shmName ≠ [] := by
  simp only [resolveShmName] at h
  split_ifs at h <;> exact (Option.some.inj h) ▸ List.cons_ne_nil _ _

section Passes

variable {e : Engine} {raw shmName : Bytes} {size : ℕ} {host : Host M}

theorem passes_shared (hresolve : resolveShmName raw = some shmName) (hready : e.arenaReady = true) :
    Passes e (.connect raw size host) ↔ (e.arena.memLen = size → e.nameLen = shmName.length → e.name = shmName →
      ({ host.shared with len := e.arena.memLen } : Segment M).Accepts false) := by
  simp only [Passes, hresolve, Option.some.injEq, forall_eq', hready, Bool.true_eq_false, forall_const, false_implies,
    and_true]

theorem passes_unmapped (hresolve : resolveShmName raw = some shmName) (hready : e.arenaReady = false) :
    Passes e (.connect raw size host) ↔
      ∀ seg created, openArena host shmName size = some (some (seg, created)) → seg.Accepts created := by
  simp only [Passes, hresolve, Option.some.injEq, forall_eq', hready, Bool.false_eq_true, forall_const, false_implies,
    true_and]

end Passes

/-- Every mapping but the one in use was closed, and closed once. -/
structure Settled (e : Engine) : Prop where
  free : e.arenaReady = false → e.closed = List.range e.opened
  busy : e.arenaReady = true → ∃ n, e.opened = n + 1 ∧ e.arena.handle = some n ∧ e.closed = List.range n

namespace Settled

variable {e : Engine} {l l' : Ledger} {c : Call M} {ok : Bool} {seg : Segment M}

theorem once (hs : Settled e) : e.closed = List.range (if e.arenaReady then e.opened - 1 else e.opened) := by
  cases hready : e.arenaReady with
  | false => exact hs.free hready
  | true =>
    obtain ⟨n, hopened, -, hclosed⟩ := hs.busy hready
    rw [hclosed, hopened]
    rfl

theorem refuse (hs : Settled e) (hready : e.arenaReady = true) : Settled e.refuse := by
  obtain ⟨n, hopened, hhandle, hclosed⟩ := hs.busy hready
  refine ⟨fun _ ↦ ?_, fun h ↦ ?_⟩
  · simp [Engine.refuse, Engine.closeOwned, hhandle, hopened, hclosed, List.range_succ]
  · exact absurd (show e.refuse.arenaReady = true from h) Bool.noConfusion

theorem share (hs : Settled e) : Settled (e.share seg).1 := by
  unfold Engine.share
  cases hread : seg.readRegions with
  | error err => exact ⟨hs.free, hs.busy⟩
  | ok r =>
    cases hvalid : validateRegions r seg.len with
    | error err =>
      simp only [hvalid]
      exact ⟨hs.free, hs.busy⟩
    | ok =>
      cases hring : seg.ringInit r false <;> simp only [hvalid, hring] <;> exact ⟨hs.free, hs.busy⟩

/-- A table that can be read is refused once at most. -/
theorem attach (hs : Settled e) (hfree : e.arenaReady = false) (hlen : ringOffset ≤ seg.len) {r : Regions}
    (hread : seg.readRegions = .ok r) (shmName : Bytes)
    (created : Bool) : Settled (e.attach shmName seg created).1 := by
  have hadopted : ∀ e' : Engine, e'.arenaReady = true → e'.arena.handle = some e.opened → e'.opened = e.opened + 1 →
      e'.closed = e.closed → Settled e' := by
    intro e' hready hhandle hopened hclosed
    refine ⟨fun h ↦ absurd (hready.symm.trans h) Bool.noConfusion, fun _ ↦ ⟨e.opened, hopened, hhandle, ?_⟩⟩
    exact hclosed.trans (hs.free hfree)
  have htold := hadopted { e.adopt shmName seg with daemonAttached := !created } rfl rfl rfl rfl
  have htabled : Settled { e.adopt shmName seg with daemonAttached := !created, regions := some r } :=
    ⟨htold.free, htold.busy⟩
  unfold Engine.attach
  simp only [if_neg (not_lt.mpr hlen), hread]
  cases hvalid : validateRegions r seg.len with
  | error err => exact htold.refuse rfl
  | ok =>
    cases hring : seg.ringInit r created with
    | error err => exact htabled.refuse rfl
    | ok ring => exact ⟨htabled.free, htabled.busy⟩

theorem disconnect (hs : Settled e) : Settled e.disconnect := by
  unfold Engine.disconnect
  split_ifs with hready hmany
  · exact ⟨hs.free, hs.busy⟩
  · obtain ⟨n, hopened, hhandle, hclosed⟩ := hs.busy hready
    refine ⟨fun _ ↦ ?_, fun h ↦ Bool.noConfusion h⟩
    simp [Engine.closeOwned, hhandle, hopened, hclosed, List.range_succ]
  · exact hs

theorem connect (hs : Settled e) {raw : Bytes} {size : ℕ} {host : Host M} {p : Engine × Bool}
    (h : e.connect raw size host = some p) : Settled p.1 := by
  unfold Engine.connect at h
  split at h
  · rw [← Option.some.inj h]
    exact hs
  · split_ifs at h with hready hsize hother
    · rw [← Option.some.inj h]
      exact hs
    · rw [← Option.some.inj h]
      exact hs
    · rw [← Option.some.inj h]
      exact hs.share
    · split at h
      · cases h
      · rw [← Option.some.inj h]
        exact hs
      · next hopen =>
        obtain ⟨hlen, hread⟩ := openArena_spec hopen
        rw [← Option.some.inj h]
        exact hs.attach (Bool.eq_false_iff.mpr hready) hlen hread _ _

theorem call (hs : Settled l.engine) (hcall : l.call c = some (l', ok)) : Settled l'.engine := by
  cases c with
  | connect raw size host =>
    obtain ⟨p, hconnect, hpair⟩ := Option.map_eq_some_iff.mp hcall
    obtain ⟨rfl, rfl⟩ := Prod.mk.inj hpair
    exact hs.connect hconnect
  | disconnect =>
    obtain ⟨rfl, rfl⟩ := Prod.mk.inj (Option.some.inj hcall)
    exact hs.disconnect

/-- In every run, whatever the calls find, no mapping is closed twice, and none is left open but the one in use. -/
theorem run (h : Run (fun l (c : Call M) l' ↦ ∃ ok, l.call c = some (l', ok)) (fun _ _ ↦ True) Ledger.start l) :
    Settled l.engine := by
  refine h.invariant (fun l ↦ Settled l.engine) ?_ ?_
  · rintro l c l' hs - ⟨ok, hcall⟩
    exact hs.call hcall
  · exact ⟨fun _ ↦ rfl, fun hready ↦ Bool.noConfusion hready⟩

end Settled

/-- The books between two fair calls. -/
structure Sound (l : Ledger) : Prop where
  counted : l.engine.refs = l.held
  settled : Settled l.engine
  free : l.engine.arenaReady = false → l.held = 0 ∧ l.engine.nameLen = 0
  busy : l.engine.arenaReady = true → 0 < l.held

theorem sound_start : Sound .start :=
  ⟨rfl, ⟨fun _ ↦ rfl, fun h ↦ Bool.noConfusion h⟩, fun _ ↦ ⟨rfl, rfl⟩, fun h ↦ Bool.noConfusion h⟩

namespace Sound

variable {l l' : Ledger} {c : Call M} {ok : Bool} {shmName raw : Bytes} {size : ℕ} {host : Host M} {seg : Segment M}
  {created : Bool}

/-- A connect that fails before it changes anything. -/
theorem unchanged (hs : Sound l) : Fair l l (.connect raw size host) false :=
  ⟨hs.counted, ⟨rfl, rfl, rfl, rfl, by simp⟩, hs.settled.once⟩

theorem share (hs : Sound l) (hready : l.engine.arenaReady = true) :
    (Fair l ⟨(l.engine.share seg).1, if (l.engine.share seg).2 then l.held + 1 else l.held⟩ (.connect raw size host)
        (l.engine.share seg).2 ↔ seg.Accepts false) ∧
      (seg.Accepts false → Sound ⟨(l.engine.share seg).1, if (l.engine.share seg).2 then l.held + 1 else l.held⟩) := by
  have hsettled : Settled (l.engine.share seg).1 := hs.settled.share
  by_cases h : seg.Accepts false
  · obtain ⟨r, heq⟩ := Engine.share_of_accepts (e := l.engine) h
    have hcount : l.engine.refs + 1 = l.held + 1 := congrArg (· + 1) hs.counted
    rw [heq] at hsettled ⊢
    refine ⟨iff_of_true ⟨hcount, rfl, hsettled.once⟩ h,
      fun _ ↦ ⟨hcount, hsettled, fun hfree ↦ ?_, fun _ ↦ Nat.succ_pos _⟩⟩
    exact absurd (hready.symm.trans hfree) Bool.noConfusion
  · obtain ⟨hfailed, hrefs⟩ := Engine.share_of_not_accepts (e := l.engine) h
    refine ⟨iff_of_false (fun hfair ↦ ?_) h, fun hacc ↦ absurd hacc h⟩
    have hcounted := hfair.counted
    rw [hfailed] at hcounted
    have hsame : l.engine.refs + 1 = l.held := hrefs.symm.trans hcounted
    have hbefore := hs.counted
    omega

theorem attach (hs : Sound l) (hready : l.engine.arenaReady = false) (hlen : ringOffset ≤ seg.len) {table : Regions}
    (hread : seg.readRegions = .ok table) (hname : shmName ≠ []) :
    (Fair l ⟨(l.engine.attach shmName seg created).1,
        if (l.engine.attach shmName seg created).2 then l.held + 1 else l.held⟩ (.connect raw size host)
        (l.engine.attach shmName seg created).2 ↔ seg.Accepts created) ∧
      (seg.Accepts created → Sound ⟨(l.engine.attach shmName seg created).1,
        if (l.engine.attach shmName seg created).2 then l.held + 1 else l.held⟩) := by
  have hsettled : Settled (l.engine.attach shmName seg created).1 := hs.settled.attach hready hlen hread shmName created
  obtain ⟨hheld, hlength⟩ := hs.free hready
  by_cases h : seg.Accepts created
  · obtain ⟨r, heq⟩ := Engine.attach_of_accepts (e := l.engine) shmName hlen h
    have hcount : 1 = l.held + 1 := by rw [hheld]
    rw [heq] at hsettled ⊢
    refine ⟨iff_of_true ⟨hcount, rfl, hsettled.once⟩ h,
      fun _ ↦ ⟨hcount, hsettled, fun hfree ↦ ?_, fun _ ↦ Nat.succ_pos _⟩⟩
    exact Bool.noConfusion hfree
  · obtain ⟨hfailed, hleft⟩ := Engine.attach_of_not_accepts (e := l.engine) shmName hlen h
    refine ⟨iff_of_false (fun hfair ↦ ?_) h, fun hacc ↦ absurd hacc h⟩
    have hundone := hfair.closes
    rw [hfailed] at hundone
    have hsame : shmName = l.engine.name := hleft.symm.trans hundone.name
    rw [Engine.name, hlength, List.take_zero] at hsame
    exact hname hsame

/-- The exits that come before the count and the mapping leave the books as they were. -/
theorem early (hs : Sound l) {e : Engine} {found : Bool} (hpasses : Passes l.engine (.connect raw size host))
    (hsame : some (l.engine, false) = some (e, found)) :
    (Fair l ⟨e, if found then l.held + 1 else l.held⟩ (.connect raw size host) found ↔
        Passes l.engine (.connect raw size host)) ∧
      (Passes l.engine (.connect raw size host) → Sound ⟨e, if found then l.held + 1 else l.held⟩) := by
  obtain ⟨rfl, rfl⟩ := Prod.mk.inj (Option.some.inj hsame)
  exact ⟨iff_of_true hs.unchanged hpasses, fun _ ↦ hs⟩

theorem connect (hs : Sound l) (hcall : l.call (.connect raw size host) = some (l', ok)) :
    (Fair l l' (.connect raw size host) ok ↔ Passes l.engine (.connect raw size host)) ∧
      (Passes l.engine (.connect raw size host) → Sound l') := by
  obtain ⟨⟨e, found⟩, hconnect, hpair⟩ := Option.map_eq_some_iff.mp hcall
  obtain ⟨rfl, rfl⟩ := Prod.mk.inj hpair
  unfold Engine.connect at hconnect
  cases hresolve : resolveShmName raw with
  | none =>
    simp only [hresolve] at hconnect
    exact hs.early (fun shmName hname ↦ absurd (hresolve.symm.trans hname) (Option.some_ne_none _).symm) hconnect
  | some shmName =>
    simp only [hresolve] at hconnect
    cases hready : l.engine.arenaReady with
    | true =>
      have hpasses : Passes l.engine (.connect raw size host) ↔ _ := passes_shared hresolve hready
      rw [if_pos hready] at hconnect
      split_ifs at hconnect with hsize hother
      · exact hs.early (hpasses.mpr fun h ↦ absurd h hsize) hconnect
      · exact hs.early (hpasses.mpr fun _ hlen hname ↦ hother.elim (absurd hlen) (absurd hname)) hconnect
      · rw [not_or, not_not, not_not] at hother
        rw [not_not] at hsize
        rw [hpasses.trans ⟨fun h ↦ h hsize hother.1 hother.2, fun h _ _ _ ↦ h⟩,
          ← show l.engine.share _ = (e, found) from Option.some.inj hconnect]
        exact hs.share hready
    | false =>
      have hpasses : Passes l.engine (.connect raw size host) ↔ _ := passes_unmapped hresolve hready
      rw [if_neg (by rw [hready]; exact Bool.noConfusion)] at hconnect
      cases hopen : openArena host shmName size with
      | none => simp [hopen] at hconnect
      | some answer =>
        cases answer with
        | none =>
          simp only [hopen] at hconnect
          refine hs.early (hpasses.mpr fun seg created h ↦ ?_) hconnect
          exact absurd (Option.some.inj (hopen.symm.trans h)) (Option.some_ne_none _).symm
        | some pair =>
          obtain ⟨seg, created⟩ := pair
          simp only [hopen] at hconnect
          have hiff : Passes l.engine (.connect raw size host) ↔ seg.Accepts created := by
            refine hpasses.trans ⟨fun h ↦ h seg created hopen, fun h seg' created' hopen' ↦ ?_⟩
            obtain ⟨rfl, rfl⟩ := Prod.mk.inj (Option.some.inj (Option.some.inj (hopen.symm.trans hopen')))
            exact h
          obtain ⟨hlen, hread⟩ := openArena_spec hopen
          rw [hiff, ← show l.engine.attach shmName seg created = (e, found) from Option.some.inj hconnect]
          exact hs.attach hready hlen hread (resolveShmName_ne_nil hresolve)

theorem disconnect (hs : Sound l) :
    Fair l ⟨l.engine.disconnect, l.held - 1⟩ (.disconnect : Call M) true ∧ Sound ⟨l.engine.disconnect, l.held - 1⟩ := by
  have hcounted := hs.counted
  have hsettled := hs.settled.disconnect
  cases hready : l.engine.arenaReady with
  | false =>
    obtain ⟨hheld, -⟩ := hs.free hready
    have hsame : (⟨l.engine.disconnect, l.held - 1⟩ : Ledger) = l := by
      have hengine : l.engine.disconnect = l.engine := by simp [Engine.disconnect, hready]
      have hzero : l.held - 1 = l.held := by omega
      rw [hengine, hzero]
    rw [hsame]
    refine ⟨⟨hcounted, ?_, hs.settled.once⟩, hs⟩
    simp [Closes, hheld]
  | true =>
    have hheld := hs.busy hready
    by_cases hlast : 1 < l.engine.refs
    · have hengine : l.engine.disconnect = { l.engine with refs := l.engine.refs - 1 } := by
        simp [Engine.disconnect, hready, hlast]
      have hcount : l.engine.refs - 1 = l.held - 1 := congrArg (· - 1) hcounted
      have hmany : ¬ l.held = 1 := by omega
      rw [hengine] at hsettled ⊢
      refine ⟨⟨hcount, ?_, hsettled.once⟩, hcount, hsettled, fun hfree ↦ ?_, fun _ ↦ show 0 < l.held - 1 by omega⟩
      · simp [Closes, hmany]
      · exact absurd (hready.symm.trans hfree) Bool.noConfusion
    · obtain ⟨n, hopened, hhandle, -⟩ := hs.settled.busy hready
      have hone : l.held = 1 := by omega
      have hengine : l.engine.disconnect = ⟨⟨0, none⟩, false, false, none, 0, false, l.engine.nameBuf, 0, n + 1,
          l.engine.closed ++ [n]⟩ := by
        simp [Engine.disconnect, hready, hlast, Engine.closeOwned, hhandle, hopened]
      rw [hengine] at hsettled ⊢
      rw [hone]
      refine ⟨⟨rfl, ?_, hsettled.once⟩, rfl, hsettled, fun _ ↦ ⟨rfl, rfl⟩, fun h ↦ Bool.noConfusion h⟩
      simp [Closes, hone, Engine.mapping, hready, hhandle]

/-- One call. -/
theorem step (hs : Sound l) (hcall : l.call c = some (l', ok)) :
    (Fair l l' c ok ↔ Passes l.engine c) ∧ (Passes l.engine c → Sound l') := by
  cases c with
  | connect raw size host => exact hs.connect hcall
  | disconnect =>
    obtain ⟨rfl, rfl⟩ := Prod.mk.inj (Option.some.inj hcall)
    exact ⟨iff_of_true hs.disconnect.1 trivial, fun _ ↦ (hs.disconnect (M := M)).2⟩

end Sound

/-- A call at which the process stops has found no header. -/
theorem passes_of_stopped {l : Ledger} {c : Call M} (hcall : l.call c = none) : Passes l.engine c := by
  cases c with
  | disconnect => cases hcall
  | connect raw size host =>
    intro shmName hresolve
    have hconnect : l.engine.connect raw size host = none := Option.map_eq_none_iff.mp hcall
    simp only [Engine.connect, hresolve] at hconnect
    constructor
    · intro hready
      rw [if_pos hready] at hconnect
      split_ifs at hconnect
    · intro hready seg created hopen
      rw [if_neg (by rw [hready]; exact Bool.noConfusion), hopen] at hconnect
      cases hconnect

theorem Sound.balances_iff_passes : ∀ {l : Ledger} {cs : List (Call M)}, Sound l → (Balances l cs ↔ PassesAll l cs)
  | _, [], _ => Iff.rfl
  | l, c :: cs, hs => by
    constructor
    · intro h
      cases hcall : l.call c with
      | none =>
        refine ⟨?_, fun l' ok hsome ↦ absurd (hcall.symm.trans hsome) (Option.some_ne_none _).symm⟩
        exact passes_of_stopped hcall
      | some pair =>
        obtain ⟨l', ok⟩ := pair
        obtain ⟨hfair, hrest⟩ := h l' ok hcall
        obtain ⟨hiff, hsound⟩ := hs.step hcall
        have hpasses := hiff.mp hfair
        refine ⟨hpasses, fun l'' ok' hcall' ↦ ?_⟩
        obtain ⟨rfl, rfl⟩ := Prod.mk.inj (Option.some.inj (hcall.symm.trans hcall'))
        exact (balances_iff_passes (hsound hpasses)).mp hrest
    · rintro ⟨hpasses, hrest⟩ l' ok hcall
      obtain ⟨hiff, hsound⟩ := hs.step hcall
      exact ⟨hiff.mpr hpasses, (balances_iff_passes (hsound hpasses)).mpr (hrest l' ok hcall)⟩

/-- In every run, the books are right after every call if and only if every connect that comes to the header finds
one that it accepts. -/
theorem balances_iff (cs : List (Call M)) : Balances .start cs ↔ PassesAll .start cs := sound_start.balances_iff_passes

/-- A header and a ring that describe a segment of this size. -/
def goodSegment : Segment Unit where
  len := minArenaSize
  magic := 0x54414B59
  version := 4
  table := ⟨16777216, 16, 4096, 45056, 49152, 8192, 57344, 8192⟩
  ring := ⟨0, 0, 16, fun _ ↦ (), id⟩

/-- What is left of it when another process has cleared the header. -/
def clearedSegment : Segment Unit := { goodSegment with magic := 0 }

/-- Two connects, and the header is cleared between them. -/
def firstConnect : Call Unit := .connect [] minArenaSize ⟨goodSegment, some goodSegment, none⟩

def secondConnect : Call Unit := .connect [] minArenaSize ⟨clearedSegment, some clearedSegment, none⟩

/-- The second connect fails, and the count is two all the same. -/
theorem not_balances : ¬ Balances .start [firstConnect, secondConnect] := by
  intro h
  have hcount : ((Ledger.start.call firstConnect).any fun p ↦ (p.1.call secondConnect).any fun q ↦
      q.1.engine.refs != q.1.held) = true := by
    decide +kernel
  obtain ⟨⟨l, ok⟩, hfirst, hcount⟩ := (Option.any_eq_true _ _).mp hcount
  obtain ⟨⟨l', ok'⟩, hsecond, hcount⟩ := (Option.any_eq_true _ _).mp hcount
  obtain ⟨-, hrest⟩ := h l ok hfirst
  obtain ⟨hfair, -⟩ := hrest l' ok' hsecond
  exact bne_iff_ne.mp hcount hfair.counted

end TakyonDb.Connect
