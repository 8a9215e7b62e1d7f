/-
  Entangle.Transport.SegmentRaces — `DataSegment::create` and `DataSegment::open` at the
  same time, by any number of threads of any processes (entangle-transport/src/data_segment.rs
  over entangle-platform/src/shm.rs).

  Every system call is one step, and so is every access to a field of the header.  The
  system calls of `create` and `open` may fail; the `munmap` and the `shm_unlink` of a
  `SharedMemory` that is dropped, be it when `create` panics, do not.  The name exists
  from the `shm_open` of `create` on, so an `open` may find the object without a size,
  without a header, or with half of one.

  Of every object a record is kept beside its memory: what it was created with, whether
  the header is complete, and who is going to unlink its name.

  Main results:
    * `Inv.step` — every step keeps the invariant;
    * `open_agrees_or_fails` — an `open` gets the layout of the creator or no handle, and
      nobody unlinks a name that stands for another's segment.
-/
import Entangle.Lib.Tables
import Entangle.Lib.Transition
import Entangle.Transport.Mapping

namespace Entangle.Transport.SegmentRaces

open Entangle.Lib Entangle.Lockfree Entangle.Platform Entangle.Platform.SharedMemory
open Entangle.Transport.ChunkLayout Entangle.Transport.Mapping

/-! ## §1. Objects, handles, threads. -/

/-- The arguments of `DataSegment::create`. -/
structure Args where
  name : String
  chunkSize : U64
  chunkCount : U32
  segmentId : U16
  deriving Repr, DecidableEq

/-- The size asked for. -/
def Args.total (args : Args) : Nat := (totalSize args.chunkSize args.chunkCount).toNat

/-- The header that `create` writes. -/
def Args.header (args : Args) : SegmentHeader :=
  { chunkSize := (align8 args.chunkSize).setWidth 32, chunkCount := args.chunkCount }

/-- Who is going to unlink the name of an object. -/
inductive Tenant (Tid : Type) where
  -- the thread that is creating it
  | creator (t : Tid)
  -- the handle that owns it
  | owner (h : Nat)
  deriving Repr, DecidableEq

/-- A shared-memory object, with what is recorded of it. -/
structure Segment (Tid : Type) where
  name : String
  args : Args
  size : Nat
  header : SegmentHeader
  -- the header is complete
  ready : Bool
  tenant : Option (Tenant Tid)
  deriving Repr, DecidableEq

/-- Somebody else, or nobody, is going to unlink the name. -/
def Segment.handTo {Tid : Type} (ob : Segment Tid) (tenant : Option (Tenant Tid)) : Segment Tid :=
  { ob with tenant := tenant }

/-- Where a `create` stands. -/
inductive CreatePlace where
  -- ftruncate to be called
  | opened
  -- mmap to be called
  | sized
  -- the memory to be zeroed
  | mapped
  -- `header.chunk_size` to be written
  | zeroed
  -- `header.chunk_count` to be written
  | half
  -- the allocator to be made
  | written
  deriving Repr, DecidableEq

/-- Where an `open` stands. -/
inductive OpenPlace where
  -- fstat to be called
  | opened
  -- mmap to be called
  | sized (size : Nat)
  -- `header.chunk_size` to be read
  | mapped (size : Nat)
  -- `header.chunk_count` to be read
  | half (size : Nat) (chunkSize : U32)
  deriving Repr, DecidableEq

/-- Where a thread stands in `create` or `open`. -/
inductive Pc where
  | idle
  -- the number of the handle
  | returned (r : Except PlatformError Nat)
  | creating (o : Nat) (place : CreatePlace)
  -- `seen`: the header was complete when the object was opened
  | opening (o : Nat) (name : String) (segmentId : U16) (seen : Bool) (place : OpenPlace)
  | createPanicked
  | openPanicked (o : Nat) (seen : Bool)
  deriving DecidableEq

/-- A new call may start. -/
def Pc.resting : Pc → Bool
  | .idle | .returned _ => true
  | _ => false

/-- A `DataSegment`, and the object it has mapped. -/
structure Handle where
  obj : Nat
  seg : MappedSegment
  deriving Repr, DecidableEq

/-- The names and the objects of all processes, the handles that the calls have returned,
and where each thread stands. -/
structure State (Tid : Type) where
  names : String → Option Nat
  objects : List (Segment Tid)
  -- `none`: dropped
  handles : List (Option Handle)
  pc : Tid → Pc

/-- Who moves, and whether a system call fails for a reason of its own.  A call starts
with its `shm_open`. -/
inductive Act (Tid : Type) where
  | create (t : Tid) (args : Args) (failure : Option String)
  | openSegment (t : Tid) (name : String) (segmentId : U16) (failure : Option String)
  | access (t : Tid) (failure : Option String)
  | drop (h : Nat)
  deriving Repr, DecidableEq

/-! ## §2. Steps. -/

variable {Tid : Type} [DecidableEq Tid]

/-- Thread `t` gets to `pc`. -/
def State.goto (s : State Tid) (t : Tid) (pc : Pc) : State Tid :=
  { s with pc := Function.update s.pc t pc }

def State.fail (s : State Tid) (t : Tid) (e : PlatformError) : State Tid :=
  s.goto t (.returned (.error e))

/-- Thread `t` changes the object it creates, and goes on. -/
def State.build (s : State Tid) (t : Tid) (o : Nat) (ob : Segment Tid) (place : CreatePlace) :
    State Tid :=
  { s with objects := s.objects.set o ob, pc := Function.update s.pc t (.creating o place) }

/-- `create` returns an error; nobody is left to unlink the name. -/
def State.abandon (s : State Tid) (t : Tid) (o : Nat) (ob : Segment Tid) (e : PlatformError) :
    State Tid :=
  { s with
    objects := s.objects.set o (ob.handTo none)
    pc := Function.update s.pc t (.returned (.error e)) }

/-- The creator of an object returns its handle. -/
def State.created (s : State Tid) (t : Tid) (o : Nat) (ob : Segment Tid) : State Tid :=
  { s with
    objects := s.objects.set o (ob.handTo (some (.owner s.handles.length)))
    handles := s.handles ++ [some
      { obj := o
        seg :=
          { shm := { size := ob.args.total, name := ob.name, isOwner := true }
            chunkSize := align8 ob.args.chunkSize
            chunkCount := ob.args.chunkCount
            segmentId := ob.args.segmentId } }]
    pc := Function.update s.pc t (.returned (.ok s.handles.length)) }

/-- `PoolAllocator::new` panics, and `shm` is dropped: its name is unlinked. -/
def State.unwind (s : State Tid) (t : Tid) (o : Nat) (ob : Segment Tid) : State Tid :=
  { s with
    names := Function.update s.names ob.name none
    objects := s.objects.set o (ob.handTo none)
    pc := Function.update s.pc t .createPanicked }

/-- An `open` returns its handle. -/
def State.opened (s : State Tid) (t : Tid) (o : Nat) (name : String) (segmentId : U16) (size : Nat)
    (chunkSize chunkCount : U32) : State Tid :=
  { s with
    handles := s.handles ++ [some
      { obj := o
        seg :=
          { shm := { size := size, name := name, isOwner := false }
            chunkSize := chunkSize.setWidth 64
            chunkCount := chunkCount
            segmentId := segmentId } }]
    pc := Function.update s.pc t (.returned (.ok s.handles.length)) }

/-- `do_mmap`, by its error. -/
def mmapError (size : Nat) (name : String) : Option String → Option PlatformError
  | failure =>
      if size = 0 then some (.mmap "size must be non-zero")
      else failure.map (fun e => .mmap s!"mmap for '{name}': {e}")

/-- The next access of a `create`. -/
def createAccess (s : State Tid) (t : Tid) (o : Nat) (ob : Segment Tid)
    (failure : Option String) : CreatePlace → State Tid
  | .opened =>
      match failure with
      | some e => s.abandon t o ob (.sharedMemoryCreate ob.name s!"ftruncate: {e}")
      | none => s.build t o { ob with size := ob.args.total } .sized
  | .sized =>
      match mmapError ob.args.total ob.name failure with
      | some e => s.abandon t o ob e
      | none => s.build t o ob .mapped
  | .mapped => s.build t o { ob with header := ⟨0#32, 0#32⟩ } .zeroed
  | .zeroed =>
      s.build t o { ob with header := { ob.header with chunkSize := ob.args.header.chunkSize } }
        .half
  | .half =>
      s.build t o
        { ob with
          header := { ob.header with chunkCount := ob.args.header.chunkCount }
          ready := true } .written
  | .written =>
      if PoolAccepts ob.args.chunkCount (align8 ob.args.chunkSize) then s.created t o ob
      else s.unwind t o ob

/-- The next access of an `open`. -/
def openAccess (s : State Tid) (t : Tid) (o : Nat) (ob : Segment Tid) (name : String)
    (segmentId : U16) (seen : Bool) (failure : Option String) : OpenPlace → State Tid
  | .opened =>
      match failure with
      | some e => s.fail t (.sharedMemoryOpen name s!"fstat: {e}")
      | none => s.goto t (.opening o name segmentId seen (.sized ob.size))
  | .sized size =>
      match mmapError size name failure with
      | some e => s.fail t e
      | none => s.goto t (.opening o name segmentId seen (.mapped size))
  | .mapped size => s.goto t (.opening o name segmentId seen (.half size ob.header.chunkSize))
  | .half size chunkSize =>
      if PoolAccepts ob.header.chunkCount (chunkSize.setWidth 64) then
        s.opened t o name segmentId size chunkSize ob.header.chunkCount
      else s.goto t (.openPanicked o seen)

variable (target : Target)

/-- The `shm_open` of a `create`. -/
def beginCreate (s : State Tid) (t : Tid) (args : Args) (failure : Option String) : State Tid :=
  let n := normalizeName target args.name
  match s.names n, failure with
  | some _, _ => s.fail t (.sharedMemoryCreate n fileExists)
  | none, some e => s.fail t (.sharedMemoryCreate n e)
  | none, none =>
      { s with
        names := Function.update s.names n (some s.objects.length)
        objects := s.objects ++ [
          { name := n
            args := args
            size := 0
            header := ⟨0#32, 0#32⟩
            ready := false
            tenant := some (.creator t) }]
        pc := Function.update s.pc t (.creating s.objects.length .opened) }

/-- The `shm_open` of an `open`. -/
def beginOpen (s : State Tid) (t : Tid) (name : String) (segmentId : U16)
    (failure : Option String) : Option (State Tid) :=
  let n := normalizeName target name
  match s.names n, failure with
  | none, _ => some (s.fail t (.sharedMemoryOpen n noEntry))
  | some _, some e => some (s.fail t (.sharedMemoryOpen n e))
  | some o, none =>
      (s.objects[o]?).map (fun ob => s.goto t (.opening o n segmentId ob.ready .opened))

/-- `Drop for SharedMemory`, of a handle on `ob`. -/
def dropHandle (s : State Tid) (h : Nat) (hd : Handle) (ob : Segment Tid) : State Tid :=
  if hd.seg.shm.isOwner then
    { s with
      names := Function.update s.names hd.seg.shm.name none
      objects := s.objects.set hd.obj (ob.handTo none)
      handles := s.handles.set h none }
  else { s with handles := s.handles.set h none }

def step (s : State Tid) : Act Tid → Option (State Tid)
  | .create t args failure =>
      if (s.pc t).resting then some (beginCreate target s t args failure) else none
  | .openSegment t name segmentId failure =>
      if (s.pc t).resting then beginOpen target s t name segmentId failure else none
  | .access t failure =>
      match s.pc t with
      | .creating o place => (s.objects[o]?).map (fun ob => createAccess s t o ob failure place)
      | .opening o name segmentId seen place =>
          (s.objects[o]?).map (fun ob => openAccess s t o ob name segmentId seen failure place)
      | .idle | .returned _ | .createPanicked | .openPanicked _ _ => none
  | .drop h =>
      match s.handles[h]? with
      | some (some hd) => (s.objects[hd.obj]?).map (fun ob => dropHandle s h hd ob)
      | some none | none => none

/-- No names, no handles. -/
def init : State Tid :=
  { names := fun _ => none, objects := [], handles := [], pc := fun _ => .idle }

/-! ## §3. What a step can do. -/

/-- An access of a `create` that goes on. -/
inductive Builds (ob : Segment Tid) : CreatePlace → CreatePlace → Segment Tid → Prop
  | size : Builds ob .opened .sized { ob with size := ob.args.total }
  | map : ob.args.total ≠ 0 → Builds ob .sized .mapped ob
  | zero : Builds ob .mapped .zeroed { ob with header := ⟨0#32, 0#32⟩ }
  | chunkSize : Builds ob .zeroed .half
      { ob with header := { ob.header with chunkSize := ob.args.header.chunkSize } }
  | chunkCount : Builds ob .half .written
      { ob with
        header := { ob.header with chunkCount := ob.args.header.chunkCount }
        ready := true }

/-- An access of an `open` that goes on. -/
inductive Looks (ob : Segment Tid) : OpenPlace → OpenPlace → Prop
  | stat : Looks ob .opened (.sized ob.size)
  | map (size : Nat) : size ≠ 0 → Looks ob (.sized size) (.mapped size)
  | read (size : Nat) : Looks ob (.mapped size) (.half size ob.header.chunkSize)

inductive Moves (s : State Tid) : State Tid → Prop
  | fail (t : Tid) (e : PlatformError) : Moves s (s.fail t e)
  | begin (t : Tid) (args : Args) : s.names (normalizeName target args.name) = none →
      Moves s (beginCreate target s t args none)
  | abandon (t : Tid) (o : Nat) (ob : Segment Tid) (place : CreatePlace) (e : PlatformError) :
      s.pc t = .creating o place → s.objects[o]? = some ob → Moves s (s.abandon t o ob e)
  | build (t : Tid) (o : Nat) (ob ob' : Segment Tid) (place place' : CreatePlace) :
      s.pc t = .creating o place → s.objects[o]? = some ob → Builds ob place place' ob' →
      Moves s (s.build t o ob' place')
  | created (t : Tid) (o : Nat) (ob : Segment Tid) : s.pc t = .creating o .written →
      s.objects[o]? = some ob → Moves s (s.created t o ob)
  | unwind (t : Tid) (o : Nat) (ob : Segment Tid) : s.pc t = .creating o .written →
      s.objects[o]? = some ob → Moves s (s.unwind t o ob)
  | beginOpen (t : Tid) (n : String) (segmentId : U16) (o : Nat) (ob : Segment Tid) :
      s.names n = some o → s.objects[o]? = some ob →
      Moves s (s.goto t (.opening o n segmentId ob.ready .opened))
  | look (t : Tid) (o : Nat) (name : String) (segmentId : U16) (seen : Bool) (ob : Segment Tid)
      (place place' : OpenPlace) : s.pc t = .opening o name segmentId seen place →
      s.objects[o]? = some ob → Looks ob place place' →
      Moves s (s.goto t (.opening o name segmentId seen place'))
  | opened (t : Tid) (o : Nat) (name : String) (segmentId : U16) (seen : Bool) (size : Nat)
      (chunkSize : U32) (ob : Segment Tid) :
      s.pc t = .opening o name segmentId seen (.half size chunkSize) → s.objects[o]? = some ob →
      PoolAccepts ob.header.chunkCount (chunkSize.setWidth 64) →
      Moves s (s.opened t o name segmentId size chunkSize ob.header.chunkCount)
  | openPanics (t : Tid) (o : Nat) (name : String) (segmentId : U16) (seen : Bool) (size : Nat)
      (chunkSize : U32) (ob : Segment Tid) :
      s.pc t = .opening o name segmentId seen (.half size chunkSize) → s.objects[o]? = some ob →
      ¬ PoolAccepts ob.header.chunkCount (chunkSize.setWidth 64) →
      Moves s (s.goto t (.openPanicked o seen))
  | drop (h : Nat) (hd : Handle) (ob : Segment Tid) : s.handles[h]? = some (some hd) →
      s.objects[hd.obj]? = some ob → Moves s (dropHandle s h hd ob)

theorem mmapError_none {size : Nat} {name : String} {failure : Option String}
    (h : mmapError size name failure = none) : size ≠ 0 := by
  unfold mmapError at h
  split at h
  next => exact absurd h (by simp)
  next hne => exact hne

theorem createAccess_moves {s : State Tid} {t : Tid} {o : Nat} {ob : Segment Tid}
    {place : CreatePlace} (hpc : s.pc t = .creating o place) (hob : s.objects[o]? = some ob)
    (failure : Option String) : Moves target s (createAccess s t o ob failure place) := by
  cases place with
  | opened =>
      cases failure with
      | some e => exact .abandon t o ob _ _ hpc hob
      | none => exact .build t o ob _ _ _ hpc hob .size
  | sized =>
      cases hmap : mmapError ob.args.total ob.name failure with
      | some e =>
          simp only [createAccess, hmap]
          exact .abandon t o ob _ _ hpc hob
      | none =>
          simp only [createAccess, hmap]
          exact .build t o ob _ _ _ hpc hob (.map (mmapError_none hmap))
  | mapped => exact .build t o ob _ _ _ hpc hob .zero
  | zeroed => exact .build t o ob _ _ _ hpc hob .chunkSize
  | half => exact .build t o ob _ _ _ hpc hob .chunkCount
  | written =>
      simp only [createAccess]
      split
      next => exact .created t o ob hpc hob
      next => exact .unwind t o ob hpc hob

theorem openAccess_moves {s : State Tid} {t : Tid} {o : Nat} {name : String} {segmentId : U16}
    {seen : Bool} {ob : Segment Tid} {place : OpenPlace}
    (hpc : s.pc t = .opening o name segmentId seen place) (hob : s.objects[o]? = some ob)
    (failure : Option String) :
    Moves target s (openAccess s t o ob name segmentId seen failure place) := by
  cases place with
  | opened =>
      cases failure with
      | some e => exact .fail t _
      | none => exact .look t o name segmentId seen ob _ _ hpc hob .stat
  | sized size =>
      cases hmap : mmapError size name failure with
      | some e =>
          simp only [openAccess, hmap]
          exact .fail t e
      | none =>
          simp only [openAccess, hmap]
          exact .look t o name segmentId seen ob _ _ hpc hob (.map size (mmapError_none hmap))
  | mapped size => exact .look t o name segmentId seen ob _ _ hpc hob (.read size)
  | half size chunkSize =>
      simp only [openAccess]
      split
      next hok => exact .opened t o name segmentId seen size chunkSize ob hpc hob hok
      next hno => exact .openPanics t o name segmentId seen size chunkSize ob hpc hob hno

theorem step_cases {s s' : State Tid} {a : Act Tid} (hs : step target s a = some s') :
    Moves target s s' := by
  cases a with
  | create t args failure =>
      simp only [step, Option.ite_none_right_eq_some, Option.some.injEq] at hs
      obtain ⟨_, rfl⟩ := hs
      cases hname : s.names (normalizeName target args.name) with
      | some o =>
          simp only [beginCreate, hname]
          exact .fail t _
      | none =>
          cases failure with
          | some e =>
              simp only [beginCreate, hname]
              exact .fail t _
          | none => exact .begin t args hname
  | openSegment t name segmentId failure =>
      simp only [step, Option.ite_none_right_eq_some] at hs
      obtain ⟨_, hs⟩ := hs
      unfold beginOpen at hs
      dsimp only at hs
      split at hs
      next =>
        obtain rfl := Option.some.inj hs
        exact .fail t _
      next =>
        obtain rfl := Option.some.inj hs
        exact .fail t _
      next o hname =>
        obtain ⟨ob, hob, rfl⟩ := Option.map_eq_some_iff.mp hs
        exact .beginOpen t _ segmentId o ob hname hob
  | access t failure =>
      simp only [step] at hs
      split at hs
      next o place hpc =>
        obtain ⟨ob, hob, rfl⟩ := Option.map_eq_some_iff.mp hs
        exact createAccess_moves target hpc hob failure
      next o name segmentId seen place hpc =>
        obtain ⟨ob, hob, rfl⟩ := Option.map_eq_some_iff.mp hs
        exact openAccess_moves target hpc hob failure
      all_goals exact absurd hs (by simp)
  | drop h =>
      simp only [step] at hs
      split at hs
      next hd hh =>
        obtain ⟨ob, hob, rfl⟩ := Option.map_eq_some_iff.mp hs
        exact .drop h hd ob hh hob
      next => exact absurd hs (by simp)
      next => exact absurd hs (by simp)

/-! ## §4. The invariant. -/

/-- What the memory of an object can be. -/
structure Whole (ob : Segment Tid) : Prop where
  size : ob.size = 0 ∨ ob.size = ob.args.total
  ready : ob.ready = true → ob.size = ob.args.total ∧ ob.header = ob.args.header
  -- a header that is not complete has no chunk count
  unready : ob.ready = false → ob.header.chunkCount = 0#32
    ∧ (ob.header.chunkSize = 0#32 ∨ ob.header.chunkSize = ob.args.header.chunkSize)

/-- How far its creator has got with it. -/
def Made (ob : Segment Tid) : CreatePlace → Prop
  | .opened => ob.ready = false
  | .sized | .mapped | .zeroed => ob.ready = false ∧ ob.size = ob.args.total
  | .half => ob.ready = false ∧ ob.size = ob.args.total
      ∧ ob.header.chunkSize = ob.args.header.chunkSize
  | .written => ob.ready = true

/-- What an `open` knows of an object it has found complete, or not. -/
def Knows (ob : Segment Tid) (seen : Bool) : OpenPlace → Prop
  | .opened => True
  | .sized size => size = 0 ∨ size = ob.args.total
  | .mapped size => size = ob.args.total
  | .half size chunkSize => size = ob.args.total
      ∧ (chunkSize = 0#32 ∨ chunkSize = ob.args.header.chunkSize)
      ∧ (seen = true → chunkSize = ob.args.header.chunkSize)

/-- What holds of a thread. -/
def PcOk (objects : List (Segment Tid)) (t : Tid) : Pc → Prop
  | .creating o place =>
      ∃ ob, objects[o]? = some ob ∧ ob.tenant = some (.creator t) ∧ Made ob place
  | .opening o name _ seen place =>
      ∃ ob, objects[o]? = some ob ∧ ob.name = name ∧ (seen = true → ob.ready = true)
        ∧ Knows ob seen place
  | .openPanicked o seen =>
      ∃ ob, objects[o]? = some ob
        ∧ (seen = true →
            ¬ PoolAccepts ob.args.chunkCount (ob.args.header.chunkSize.setWidth 64))
  | .idle | .returned _ | .createPanicked => True

/-- A handle has the layout of the object it has mapped. -/
structure HandleOk (objects : List (Segment Tid)) (h : Nat) (hd : Handle) (ob : Segment Tid) :
    Prop where
  obj : objects[hd.obj]? = some ob
  ready : ob.ready = true
  name : hd.seg.shm.name = ob.name
  size : hd.seg.shm.size = ob.args.total
  chunkCount : hd.seg.chunkCount = ob.args.chunkCount
  chunkSize : hd.seg.chunkSize = if hd.seg.shm.isOwner then align8 ob.args.chunkSize
    else ob.args.header.chunkSize.setWidth 64
  tenant : hd.seg.shm.isOwner = true → ob.tenant = some (.owner h)

/-- **The invariant.**  Names and objects agree in both directions: a name stands for an
object that was made under it, and as long as a thread or a handle is going to unlink the
name of an object, the name stands for that object and for no later one.  The memory of
every object is that of its creation, as far as it has got; what a thread in `create` or
`open` has seen of it fits its place; and every handle has mapped an object whose header
is complete. -/
structure Inv (s : State Tid) : Prop where
  -- a name stands for an object made under it
  names : ∀ n o, s.names n = some o → ∃ ob, s.objects[o]? = some ob ∧ ob.name = n
  -- and an object that somebody will unlink is the one its name stands for
  tenants : ∀ (o : Nat) (ob : Segment Tid), s.objects[o]? = some ob → ob.tenant ≠ none →
    s.names ob.name = some o
  objects : ∀ (o : Nat) (ob : Segment Tid), s.objects[o]? = some ob → Whole ob
  pcs : ∀ t, PcOk s.objects t (s.pc t)
  handles : ∀ (h : Nat) (hd : Handle), s.handles[h]? = some (some hd) →
    ∃ ob, HandleOk s.objects h hd ob

/-- What stays of an object that somebody else changes. -/
structure Later (ob ob' : Segment Tid) : Prop where
  name : ob'.name = ob.name
  args : ob'.args = ob.args
  ready : ob.ready = true → ob'.ready = true

omit [DecidableEq Tid] in
theorem later_handTo (ob : Segment Tid) (tenant : Option (Tenant Tid)) :
    Later ob (ob.handTo tenant) :=
  ⟨rfl, rfl, id⟩

omit [DecidableEq Tid] in
theorem Whole.handTo {ob : Segment Tid} (h : Whole ob) (tenant : Option (Tenant Tid)) :
    Whole (ob.handTo tenant) :=
  ⟨h.size, h.ready, h.unready⟩

section Objects

variable {objects : List (Segment Tid)} {o : Nat} {ob ob' : Segment Tid} {t : Tid}

omit [DecidableEq Tid] in
theorem Knows.later {seen : Bool} {place : OpenPlace} (h : Knows ob seen place)
    (hl : Later ob ob') : Knows ob' seen place := by
  cases place with
  | opened => trivial
  | sized size | mapped size | half size chunkSize =>
      simp only [Knows, hl.args]
      exact h

omit [DecidableEq Tid] in
/-- An object is changed, not by thread `t` as its creator. -/
theorem PcOk.set {pc : Pc} (h : PcOk objects t pc) (hob : objects[o]? = some ob)
    (hl : Later ob ob') (hother : ob.tenant ≠ some (.creator t)) :
    PcOk (objects.set o ob') t pc := by
  have hlook : ∀ (j : Nat) (x : Segment Tid), objects[j]? = some x →
      ∃ x', (objects.set o ob')[j]? = some x' ∧ Later x x' := by
    intro j x hj
    rcases set_of_some ob' hob hj with ⟨rfl, rfl, hset⟩ | ⟨_, hkeep⟩
    · exact ⟨ob', hset, hl⟩
    · exact ⟨x, hkeep, ⟨rfl, rfl, id⟩⟩
  cases pc with
  | creating j place =>
      obtain ⟨x, hj, htenant, hmade⟩ := h
      rcases set_of_some ob' hob hj with ⟨rfl, rfl, _⟩ | ⟨_, hkeep⟩
      · exact absurd htenant hother
      · exact ⟨x, hkeep, htenant, hmade⟩
  | opening j name segmentId seen place =>
      obtain ⟨x, hj, hname, hseen, hknows⟩ := h
      obtain ⟨x', hj', hlater⟩ := hlook j x hj
      exact ⟨x', hj', hlater.name.trans hname, fun hs => hlater.ready (hseen hs),
        hknows.later hlater⟩
  | openPanicked j seen =>
      obtain ⟨x, hj, hno⟩ := h
      obtain ⟨x', hj', hlater⟩ := hlook j x hj
      refine ⟨x', hj', ?_⟩
      rw [hlater.args]
      exact hno
  | idle | returned | createPanicked => trivial

omit [DecidableEq Tid] in
theorem PcOk.append {pc : Pc} (h : PcOk objects t pc) (x : Segment Tid) :
    PcOk (objects ++ [x]) t pc := by
  cases pc with
  | creating j place =>
      obtain ⟨y, hj, hrest⟩ := h
      exact ⟨y, append_of_some _ hj, hrest⟩
  | opening j name segmentId seen place =>
      obtain ⟨y, hj, hrest⟩ := h
      exact ⟨y, append_of_some _ hj, hrest⟩
  | openPanicked j seen =>
      obtain ⟨y, hj, hrest⟩ := h
      exact ⟨y, append_of_some _ hj, hrest⟩
  | idle | returned | createPanicked => trivial

omit [DecidableEq Tid] in
/-- An object is changed that is not owned by handle `h`. -/
theorem HandleOk.set {h : Nat} {hd : Handle} {x : Segment Tid} (hh : HandleOk objects h hd x)
    (hob : objects[o]? = some ob) (hl : Later ob ob') (hother : ob.tenant ≠ some (.owner h)) :
    ∃ x', HandleOk (objects.set o ob') h hd x' := by
  rcases set_of_some ob' hob hh.obj with ⟨he, hx, hset⟩ | ⟨_, hkeep⟩
  · subst hx
    refine ⟨ob', ?_, hl.ready hh.ready, hh.name.trans hl.name.symm, ?_, ?_, ?_, fun howner => ?_⟩
    · exact hset
    · rw [hl.args]
      exact hh.size
    · rw [hl.args]
      exact hh.chunkCount
    · rw [hl.args]
      exact hh.chunkSize
    · exact absurd (hh.tenant howner) hother
  · exact ⟨x, hkeep, hh.ready, hh.name, hh.size, hh.chunkCount, hh.chunkSize, hh.tenant⟩

omit [DecidableEq Tid] in
theorem HandleOk.append {h : Nat} {hd : Handle} {x : Segment Tid} (hh : HandleOk objects h hd x)
    (y : Segment Tid) : HandleOk (objects ++ [y]) h hd x :=
  ⟨append_of_some _ hh.obj, hh.ready, hh.name, hh.size, hh.chunkCount, hh.chunkSize, hh.tenant⟩

omit [DecidableEq Tid] in
/-- **One access of a creator** keeps the object whole. -/
theorem Builds.made {place place' : CreatePlace} (hb : Builds ob place place' ob')
    (hmade : Made ob place) (hwhole : Whole ob) :
    Made ob' place' ∧ Whole ob' ∧ Later ob ob' ∧ ob'.tenant = ob.tenant := by
  have hfalse : ∀ {b : Bool}, b = false → b = true → False := by
    rintro b rfl h
    exact absurd h (by simp)
  cases hb with
  | size =>
      have hunready : ob.ready = false := hmade
      exact ⟨⟨hunready, rfl⟩,
        ⟨.inr rfl, fun hready => (hfalse hunready hready).elim, hwhole.unready⟩,
        ⟨rfl, rfl, id⟩, rfl⟩
  | map _ => exact ⟨hmade, hwhole, ⟨rfl, rfl, id⟩, rfl⟩
  | zero =>
      exact ⟨hmade,
        ⟨hwhole.size, fun hready => (hfalse hmade.1 hready).elim, fun _ => ⟨rfl, .inl rfl⟩⟩,
        ⟨rfl, rfl, id⟩, rfl⟩
  | chunkSize =>
      exact ⟨⟨hmade.1, hmade.2, rfl⟩,
        ⟨hwhole.size, fun hready => (hfalse hmade.1 hready).elim,
          fun hunready => ⟨(hwhole.unready hunready).1, .inr rfl⟩⟩,
        ⟨rfl, rfl, id⟩, rfl⟩
  | chunkCount =>
      refine ⟨rfl, ⟨hwhole.size, fun _ => ⟨hmade.2.1, ?_⟩, fun hunready => ?_⟩,
        ⟨rfl, rfl, fun _ => rfl⟩, rfl⟩
      · show (⟨ob.header.chunkSize, ob.args.header.chunkCount⟩ : SegmentHeader) = ob.args.header
        rw [hmade.2.2]
      · exact absurd hunready (by simp)

omit [DecidableEq Tid] in
/-- **One access of an `open`.** -/
theorem Looks.knows {seen : Bool} {place place' : OpenPlace} (hl : Looks ob place place')
    (hknows : Knows ob seen place) (hseen : seen = true → ob.ready = true) (hwhole : Whole ob) :
    Knows ob seen place' := by
  cases hl with
  | stat => exact hwhole.size
  | map size hne => exact hknows.resolve_left hne
  | read size =>
      refine ⟨hknows, ?_, fun hs => ?_⟩
      · cases hready : ob.ready with
        | false => exact (hwhole.unready hready).2
        | true =>
            rw [(hwhole.ready hready).2]
            exact .inr rfl
      · rw [(hwhole.ready (hseen hs)).2]

end Objects

section Steps

variable {s : State Tid} {t : Tid} {o : Nat} {ob ob' : Segment Tid} {place place' : CreatePlace}

omit [DecidableEq Tid] in
theorem pcOk_returned (objects : List (Segment Tid)) (t : Tid) (r : Except PlatformError Nat) :
    PcOk objects t (.returned r) :=
  trivial

/-- Only thread `t` gets somewhere else. -/
theorem pcs_update {objects : List (Segment Tid)} {pc' : Pc}
    (hself : PcOk objects t pc') (hother : ∀ u, u ≠ t → PcOk objects u (s.pc u)) (u : Tid) :
    PcOk objects u (Function.update s.pc t pc' u) :=
  (Function.forall_update_iff s.pc (fun u pc => PcOk objects u pc)).mpr ⟨hself, hother⟩ u

theorem Inv.goto (h : Inv s) {pc' : Pc} (hpc : PcOk s.objects t pc') : Inv (s.goto t pc') where
  names := h.names
  tenants := h.tenants
  objects := h.objects
  pcs := pcs_update hpc (fun u _ => h.pcs u)
  handles := h.handles

omit [DecidableEq Tid] in
/-- The thread that creates an object is its tenant. -/
theorem Inv.creator (h : Inv s) (hpc : s.pc t = .creating o place)
    (hob : s.objects[o]? = some ob) : ob.tenant = some (.creator t) ∧ Made ob place := by
  have hok := h.pcs t
  rw [hpc] at hok
  obtain ⟨x, hx, hrest⟩ := hok
  rw [hob] at hx
  obtain rfl := Option.some.inj hx
  exact hrest

omit [DecidableEq Tid] in
/-- The object stays under its name. -/
theorem Inv.names_set (h : Inv s) (hob : s.objects[o]? = some ob) (hl : Later ob ob') (n : String)
    (j : Nat) (hn : s.names n = some j) :
    ∃ x, (s.objects.set o ob')[j]? = some x ∧ x.name = n := by
  obtain ⟨x, hx, hname⟩ := h.names n j hn
  rcases set_of_some ob' hob hx with ⟨rfl, rfl, hset⟩ | ⟨_, hkeep⟩
  · exact ⟨ob', hset, hl.name.trans hname⟩
  · exact ⟨x, hkeep, hname⟩

omit [DecidableEq Tid] in
/-- Other threads and handles do not see what a tenant does to its object. -/
theorem Inv.others (h : Inv s) (hob : s.objects[o]? = some ob) (hl : Later ob ob')
    {who : Tenant Tid} (htenant : ob.tenant = some who) :
    (∀ u, who ≠ .creator u → PcOk (s.objects.set o ob') u (s.pc u))
      ∧ ∀ (k : Nat) (hd : Handle), s.handles[k]? = some (some hd) → who ≠ .owner k →
          ∃ x, HandleOk (s.objects.set o ob') k hd x := by
  constructor
  · intro u hu
    apply (h.pcs u).set hob hl
    rw [htenant]
    exact fun he => hu (Option.some.inj he)
  · intro k hd hk hne
    obtain ⟨x, hx⟩ := h.handles k hd hk
    apply hx.set hob hl
    rw [htenant]
    exact fun he => hne (Option.some.inj he)

/-- A creator changes its object, or hands it over to nobody or to a new handle. -/
theorem Inv.change (h : Inv s) (hpc : s.pc t = .creating o place) (hob : s.objects[o]? = some ob)
    (hl : Later ob ob') (hwhole : Whole ob') {pc' : Pc} {handles' : List (Option Handle)}
    (hself : PcOk (s.objects.set o ob') t pc')
    (hhandles : ∀ (k : Nat) (hd : Handle), handles'[k]? = some (some hd) →
      s.handles[k]? = some (some hd) ∨ ∃ x, HandleOk (s.objects.set o ob') k hd x) :
    Inv { s with
      objects := s.objects.set o ob'
      handles := handles'
      pc := Function.update s.pc t pc' } := by
  obtain ⟨htenant, _⟩ := h.creator hpc hob
  obtain ⟨hpcs, hkeep⟩ := h.others hob hl htenant
  refine ⟨h.names_set hob hl, ?_, ?_, ?_, ?_⟩
  · apply forall_set
    · intro _
      show s.names ob'.name = some o
      rw [hl.name]
      exact h.tenants o ob hob (by simp [htenant])
    · exact fun j x _ hj => h.tenants j x hj
  · exact forall_set hwhole (fun j x _ hj => h.objects j x hj)
  · apply pcs_update hself
    intro u hu
    apply hpcs u
    rintro he
    injection he with he
    exact hu he.symm
  · intro k hd hk
    rcases hhandles k hd hk with hold | hnew
    · exact hkeep k hd hold (by simp)
    · exact hnew

omit [DecidableEq Tid] in
/-- When the name of an object is unlinked, the others keep theirs. -/
theorem Inv.unlink (h : Inv s) (hob : s.objects[o]? = some ob) (htenant : ob.tenant ≠ none) :
    (∀ n j, Function.update s.names ob.name none n = some j →
        ∃ x, (s.objects.set o (ob.handTo none))[j]? = some x ∧ x.name = n)
      ∧ ∀ (j : Nat) (x : Segment Tid),
          (s.objects.set o (ob.handTo none))[j]? = some x → x.tenant ≠ none →
            Function.update s.names ob.name none x.name = some j := by
  constructor
  · intro n j hn
    by_cases he : n = ob.name
    · subst he
      rw [Function.update_self] at hn
      exact absurd hn (by simp)
    · rw [Function.update_of_ne he] at hn
      exact h.names_set hob (later_handTo ob none) n j hn
  · intro j x hx hne
    rcases set_cases hx with ⟨_, rfl⟩ | ⟨hj, hx⟩
    · exact absurd rfl hne
    · have hname := h.tenants j x hx hne
      by_cases he : x.name = ob.name
      · rw [he, h.tenants o ob hob htenant] at hname
        exact absurd (Option.some.inj hname).symm hj
      · rw [Function.update_of_ne he]
        exact hname

variable {target : Target}

theorem Inv.begin (h : Inv s) (args : Args)
    (hnone : s.names (normalizeName target args.name) = none) :
    Inv (beginCreate target s t args none) := by
  unfold beginCreate
  simp only [hnone]
  refine ⟨?_, ?_, ?_, ?_, ?_⟩
  · intro n j hn
    replace hn : Function.update s.names (normalizeName target args.name)
        (some s.objects.length) n = some j := hn
    by_cases he : n = normalizeName target args.name
    · subst he
      rw [Function.update_self] at hn
      obtain rfl := Option.some.inj hn
      exact ⟨_, List.getElem?_concat_length, rfl⟩
    · rw [Function.update_of_ne he] at hn
      obtain ⟨x, hx, hname⟩ := h.names n j hn
      exact ⟨x, append_of_some _ hx, hname⟩
  · apply forall_concat
    · intro j x hx hne
      have hname := h.tenants j x hx hne
      have hfresh : x.name ≠ normalizeName target args.name := by
        intro he
        rw [he, hnone] at hname
        exact absurd hname (by simp)
      show Function.update s.names _ _ x.name = some j
      rw [Function.update_of_ne hfresh]
      exact hname
    · intro _
      exact Function.update_self _ _ _
  · apply forall_concat h.objects
    exact ⟨.inl rfl, fun hready => absurd hready (by simp), fun _ => ⟨rfl, .inl rfl⟩⟩
  · apply pcs_update
    · exact ⟨_, List.getElem?_concat_length, rfl, rfl⟩
    · exact fun u _ => (h.pcs u).append _
  · intro k hd hk
    obtain ⟨x, hx⟩ := h.handles k hd hk
    exact ⟨x, hx.append _⟩

theorem Inv.created (h : Inv s) (hpc : s.pc t = .creating o .written)
    (hob : s.objects[o]? = some ob) : Inv (s.created t o ob) := by
  obtain ⟨_, hready⟩ := h.creator hpc hob
  apply h.change hpc hob (later_handTo ob (some (.owner s.handles.length)))
    ((h.objects o ob hob).handTo _) (pcOk_returned _ t _)
  intro k hd hk
  rcases concat_cases hk with hold | ⟨rfl, hnew⟩
  · exact .inl hold
  · right
    have hlt := (List.getElem?_eq_some_iff.mp hob).1
    obtain rfl := Option.some.inj hnew
    exact ⟨_, List.getElem?_set_self hlt, hready, rfl, rfl, rfl, rfl, fun _ => rfl⟩

theorem Inv.unwind (h : Inv s) (hpc : s.pc t = .creating o .written)
    (hob : s.objects[o]? = some ob) : Inv (s.unwind t o ob) := by
  obtain ⟨htenant, _⟩ := h.creator hpc hob
  obtain ⟨hpcs, hkeep⟩ := h.others hob (later_handTo ob none) htenant
  obtain ⟨hnames, htenants⟩ := h.unlink hob (by simp [htenant])
  refine ⟨hnames, htenants, ?_, ?_, ?_⟩
  · exact forall_set ((h.objects o ob hob).handTo none) (fun j x _ hj => h.objects j x hj)
  · refine pcs_update (trivial : PcOk _ t .createPanicked) ?_
    intro u hu
    apply hpcs u
    intro he
    injection he with he
    exact hu he.symm
  · intro k hd hk
    exact hkeep k hd hk (by simp)

theorem Inv.opened (h : Inv s) {name : String} {segmentId : U16} {seen : Bool} {size : Nat}
    {chunkSize : U32} (hpc : s.pc t = .opening o name segmentId seen (.half size chunkSize))
    (hob : s.objects[o]? = some ob)
    (haccepts : PoolAccepts ob.header.chunkCount (chunkSize.setWidth 64)) :
    Inv (s.opened t o name segmentId size chunkSize ob.header.chunkCount) := by
  have hok := h.pcs t
  rw [hpc] at hok
  obtain ⟨x, hx, hname, _, hsize, hcs, _⟩ := hok
  rw [hob] at hx
  obtain rfl := Option.some.inj hx
  have hwhole := h.objects o ob hob
  -- a header without a count would not have been accepted
  have hready : ob.ready = true := by
    cases hready : ob.ready with
    | true => rfl
    | false => exact absurd (hwhole.unready hready).1 haccepts.2.1
  have hheader := (hwhole.ready hready).2
  have hchunk : chunkSize = ob.args.header.chunkSize := by
    apply hcs.resolve_left
    rintro rfl
    exact haccepts.1 rfl
  refine ⟨h.names, h.tenants, h.objects,
    pcs_update (pcOk_returned _ t _) (fun u _ => h.pcs u), ?_⟩
  intro k hd hk
  rcases concat_cases hk with hold | ⟨rfl, hnew⟩
  · exact h.handles k hd hold
  · obtain rfl := Option.some.inj hnew
    refine ⟨ob, hob, hready, hname.symm, hsize, ?_, ?_, fun howner => absurd howner (by simp)⟩
    · show ob.header.chunkCount = ob.args.chunkCount
      rw [hheader]
      rfl
    · show chunkSize.setWidth 64 = ob.args.header.chunkSize.setWidth 64
      rw [hchunk]

omit [DecidableEq Tid] in
theorem Inv.drop (h : Inv s) {k : Nat} {hd : Handle} (hk : s.handles[k]? = some (some hd))
    (hob : s.objects[hd.obj]? = some ob) : Inv (dropHandle s k hd ob) := by
  have hrest : ∀ (j : Nat) (hd' : Handle), (s.handles.set k none)[j]? = some (some hd') →
      j ≠ k ∧ s.handles[j]? = some (some hd') := by
    intro j hd' hj
    rcases set_cases hj with ⟨_, hnone⟩ | ⟨hne, hold⟩
    · exact absurd hnone (by simp)
    · exact ⟨hne, hold⟩
  obtain ⟨x, hx⟩ := h.handles k hd hk
  have hxob := hx.obj
  rw [hob] at hxob
  obtain rfl := Option.some.inj hxob
  unfold dropHandle
  split
  next howner =>
    have htenant := hx.tenant howner
    obtain ⟨hpcs, hkeep⟩ := h.others hob (later_handTo ob none) htenant
    obtain ⟨hnames, htenants⟩ := h.unlink hob (by simp [htenant])
    rw [hx.name]
    refine ⟨hnames, htenants, ?_, ?_, ?_⟩
    · exact forall_set ((h.objects _ ob hob).handTo none) (fun j x _ hj => h.objects j x hj)
    · exact fun u => hpcs u (by simp)
    · intro j hd' hj
      obtain ⟨hne, hold⟩ := hrest j hd' hj
      apply hkeep j hd' hold
      intro he
      injection he with he
      exact hne he.symm
  next =>
    refine ⟨h.names, h.tenants, h.objects, h.pcs, ?_⟩
    intro j hd' hj
    exact h.handles j hd' (hrest j hd' hj).2

/-- **The step lemma.** -/
theorem Inv.step {s' : State Tid} {a : Act Tid} (h : Inv s) (hs : step target s a = some s') :
    Inv s' := by
  cases step_cases target hs with
  | fail t e => exact h.goto trivial
  | begin t args hnone => exact h.begin args hnone
  | abandon t o ob place e hpc hob =>
      exact h.change hpc hob (later_handTo ob none) ((h.objects o ob hob).handTo none)
        (pcOk_returned _ t _) (fun k hd hk => .inl hk)
  | build t o ob ob' place place' hpc hob hb =>
      obtain ⟨htenant, hmade⟩ := h.creator hpc hob
      obtain ⟨hmade', hwhole', hl, hsame⟩ := hb.made hmade (h.objects o ob hob)
      have hlt := (List.getElem?_eq_some_iff.mp hob).1
      exact h.change hpc hob hl hwhole'
        ⟨ob', List.getElem?_set_self hlt, hsame.trans htenant, hmade'⟩ (fun k hd hk => .inl hk)
  | created t o ob hpc hob => exact h.created hpc hob
  | unwind t o ob hpc hob => exact h.unwind hpc hob
  | beginOpen t n segmentId o ob hname hob =>
      obtain ⟨x, hx, hn⟩ := h.names n o hname
      rw [hob] at hx
      obtain rfl := Option.some.inj hx
      exact h.goto ⟨ob, hob, hn, id, trivial⟩
  | look t o name segmentId seen ob place place' hpc hob hl =>
      have hok := h.pcs t
      rw [hpc] at hok
      obtain ⟨x, hx, hname, hseen, hknows⟩ := hok
      rw [hob] at hx
      obtain rfl := Option.some.inj hx
      exact h.goto ⟨ob, hob, hname, hseen, hl.knows hknows hseen (h.objects o ob hob)⟩
  | opened t o name segmentId seen size chunkSize ob hpc hob haccepts =>
      exact h.opened hpc hob haccepts
  | openPanics t o name segmentId seen size chunkSize ob hpc hob hno =>
      have hok := h.pcs t
      rw [hpc] at hok
      obtain ⟨x, hx, hname, hseen, _, _, hcs⟩ := hok
      rw [hob] at hx
      obtain rfl := Option.some.inj hx
      refine h.goto ⟨ob, hob, fun hs => ?_⟩
      have hheader := ((h.objects o ob hob).ready (hseen hs)).2
      rw [hheader, hcs hs] at hno
      exact hno
  | drop k hd ob hk hob => exact h.drop hk hob

end Steps

theorem inv_of_reach {s : State Tid} (h : Reach (step target) anyStep init s) : Inv s := by
  apply h.invariant Inv
  · exact ⟨by simp [init], by simp [init], by simp [init], fun _ => trivial, by simp [init]⟩
  · exact fun _ _ _ hinv _ hs => hinv.step hs

/-! ## §5. Every run. -/

/-- **An `open` during a `create` agrees with it or fails.**  In every run of any number
of threads that create, open and drop segments, each system call and each access to a
header one step, any system call failing: every handle, the creator's or an opener's, has
mapped an object whose header is complete, under its name and with its size, chunk count
and (as far as 32 bits hold it) chunk size; the name of a handle that owns it stands for
its own object, so dropping it unlinks nobody else's, and no object has two owners; and
an `open` that finds a complete header panics only if the allocator accepts no header of
these values. -/
theorem open_agrees_or_fails (s : State Tid) (h : Reach (step target) anyStep init s) :
    (∀ (k : Nat) (hd : Handle), s.handles[k]? = some (some hd) →
        ∃ ob, HandleOk s.objects k hd ob
          ∧ (hd.seg.shm.isOwner = true → s.names hd.seg.shm.name = some hd.obj))
      ∧ (∀ (k k' : Nat) (hd hd' : Handle), s.handles[k]? = some (some hd) →
          s.handles[k']? = some (some hd') → hd.seg.shm.isOwner = true →
          hd'.seg.shm.isOwner = true → hd.obj = hd'.obj → k = k')
      ∧ ∀ t o, s.pc t = .openPanicked o true → ∃ ob, s.objects[o]? = some ob
          ∧ ¬ PoolAccepts ob.args.chunkCount (ob.args.header.chunkSize.setWidth 64) := by
  have hinv := inv_of_reach target h
  refine ⟨?_, ?_, ?_⟩
  · intro k hd hk
    obtain ⟨ob, hok⟩ := hinv.handles k hd hk
    refine ⟨ob, hok, fun howner => ?_⟩
    rw [hok.name]
    exact hinv.tenants hd.obj ob hok.obj (by simp [hok.tenant howner])
  · intro k k' hd hd' hk hk' howner howner' hsame
    obtain ⟨ob, hok⟩ := hinv.handles k hd hk
    obtain ⟨ob', hok'⟩ := hinv.handles k' hd' hk'
    have hob' := hok'.obj
    rw [← hsame, hok.obj] at hob'
    obtain rfl := Option.some.inj hob'
    have htenant := (hok.tenant howner).symm.trans (hok'.tenant howner')
    injection htenant with htenant
    injection htenant
  · intro t o hpc
    have hok := hinv.pcs t
    rw [hpc] at hok
    obtain ⟨ob, hob, hno⟩ := hok
    exact ⟨ob, hob, hno rfl⟩

/-- Thread `false` opens the segment that `true` creates: it reads the chunk size when the
chunk count is not written yet, and has its handle before the creator has one.  Then a
second `open` starts, the creator drops the segment and creates another of that name. -/
def earlyRun : List (Act Bool) :=
  [.create true ⟨"a", 8#64, 2#32, 0#16⟩ none, .access true none, .access true none,
   .access true none, .access true none,
   .openSegment false "a" 0#16 none, .access false none, .access false none, .access false none,
   .access true none, .access false none, .access true none,
   .openSegment false "a" 0#16 none, .drop 1,
   .create true ⟨"a", 24#64, 1#32, 0#16⟩ none, .access true none, .access true none,
   .access true none, .access true none, .access true none, .access true none,
   .access false none, .access false none, .access false none, .access false none]

theorem open_agrees_or_fails_early :
    ∃ s : State Bool, Reach (step ⟨false, id⟩) anyStep init s
      ∧ s.handles.map (fun o => o.map (fun hd => (hd.obj, hd.seg.chunkSize, hd.seg.chunkCount)))
        = [some (0, 8#64, 2#32), none, some (1, 24#64, 1#32), some (0, 8#64, 2#32)]
      ∧ ∀ (k : Nat) (hd : Handle), s.handles[k]? = some (some hd) →
          ∃ ob, HandleOk s.objects k hd ob
            ∧ (hd.seg.shm.isOwner = true → s.names hd.seg.shm.name = some hd.obj) := by
  have hrun : (exec (step ⟨false, id⟩) (init : State Bool) earlyRun).map (fun s =>
      s.handles.map (fun o => o.map (fun hd => (hd.obj, hd.seg.chunkSize, hd.seg.chunkCount))))
        = some [some (0, 8#64, 2#32), none, some (1, 24#64, 1#32), some (0, 8#64, 2#32)] := by
    decide +kernel
  obtain ⟨s, hs, hhandles⟩ := Option.map_eq_some_iff.mp hrun
  have hreach := Reach.of_exec earlyRun .refl hs
  exact ⟨s, hreach, hhandles, (open_agrees_or_fails ⟨false, id⟩ s hreach).1⟩

end Entangle.Transport.SegmentRaces
