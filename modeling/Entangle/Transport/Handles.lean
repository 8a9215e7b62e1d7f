/-
  Entangle.Transport.Handles — several handles of one data segment
  (`DataSegment::create` and `DataSegment::open` in
  entangle-transport/src/data_segment.rs).

  The bytes of a segment are shared, and so is the header that `create` writes.
  The free list is not: `open` reads the header and makes an allocator of its
  own, all free.  A chunk is deallocated by whoever holds its offset, through
  any handle.

  `live` lists the allocations that have not been deallocated, with the handle
  that made each; `crossed` lists the handles through which a chunk of another
  handle was deallocated.

  Segments whose total size wraps in a release build are left out, as in
  `Transport.DataSegment`.

  Main definitions:
    * `Exclusive` — two live allocations are different chunks;
    * `oneHandle` — an allocation is made only through a handle whose chunks
      all live allocations are.

  Main results:
    * `handles_collide` — two handles hand out the same chunk;
    * `handles_exclusive` — runs that keep to `oneHandle` are exclusive.
-/
import Entangle.Lib.Tables
import Entangle.Lib.Transition
import Entangle.Transport.DataSegment

namespace Entangle.Transport.Handles

open Entangle.Lib Entangle.Lockfree

/-! ## §1. The handles. -/

/-- `PoolAllocator::new`, with the assertions it and `UniqueIndexSet::new` make;
`none` also where the chunks would not have 48-bit offsets: the segment is then not
mapped whole, which takes a total size that wraps in a release build. -/
def newAllocator (capacity chunkSize : Nat) (segmentId : U16) (baseOffset : Nat) :
    Option PoolAllocator :=
  if h : (0 < capacity ∧ capacity < SENTINEL.toNat) ∧ 0 < chunkSize
      ∧ baseOffset + capacity * chunkSize ≤ 2 ^ 48 then
    some
      { layout :=
          { chunkSize := chunkSize
            chunkCount := capacity
            segmentId := segmentId
            baseOffset := baseOffset
            chunkSize_pos := h.2.1
            fits := h.2.2 }
        indexSet := .new capacity h.1.1 h.1.2
        capacity_eq := rfl }
  else none

/-- `create` makes its allocator with `PoolAllocator::new`. -/
theorem create_allocator (chunkSize chunkCount : Nat) (segmentId : U16) :
    (DataSegment.create chunkSize chunkCount segmentId).map DataSegment.allocator
      = newAllocator chunkCount (DataSegment.aligned chunkSize) segmentId HEADER_SIZE := by
  unfold DataSegment.create newAllocator
  split
  next => rfl
  next => rfl

/-- A new allocator is all free. -/
theorem newAllocator_free {capacity chunkSize : Nat} {segmentId : U16} {baseOffset : Nat}
    {p : PoolAllocator} (h : newAllocator capacity chunkSize segmentId baseOffset = some p)
    (memory : Memory) : ∃ l, DataSegment.Free ⟨p, memory⟩ l := by
  unfold newAllocator at h
  split at h
  next hok =>
    injection h with h
    subst h
    refine ⟨_, UniqueIndexSet.new_freeList capacity hok.1.1 hok.1.2, ?_⟩
    show 0 + ((List.range capacity).map (BitVec.ofNat 32)).length = capacity
    simp
  next => exact absurd h (by simp)

/-- `SegmentHeader`. -/
structure SegmentHeader where
  chunkSize : U32
  chunkCount : U32

/-- What `open` makes of the header. -/
def SegmentHeader.openHandle (header : SegmentHeader) (segmentId : U16) : Option PoolAllocator :=
  newAllocator header.chunkCount.toNat header.chunkSize.toNat segmentId HEADER_SIZE

/-- The bytes that the handles share, and an allocator for each of them. -/
structure State where
  header : SegmentHeader
  memory : Memory
  -- the handle of `create`, then those of `open`, in order
  handles : List PoolAllocator
  live : List (Nat × PointerOffset)
  crossed : List Nat

/-- `DataSegment::create`: the header gets the low 32 bits of the two numbers. -/
def create (chunkSize chunkCount : Nat) (segmentId : U16) : Option State :=
  (DataSegment.create chunkSize chunkCount segmentId).map (fun seg =>
    { header := ⟨.ofNat 32 seg.layout.chunkSize, .ofNat 32 seg.layout.chunkCount⟩
      memory := seg.memory
      handles := [seg.allocator]
      live := []
      crossed := [] })

inductive Act where
  | openHandle (segmentId : U16)
  | allocate (h : Nat)
  -- the holder of `x` deallocates it through the handle `h`
  | deallocate (h : Nat) (x : Nat × PointerOffset)
  deriving Repr, DecidableEq

/-- A handle as a data segment. -/
def State.segment (s : State) (p : PoolAllocator) : DataSegment := ⟨p, s.memory⟩

def step (s : State) : Act → Option State
  | .openHandle segmentId =>
      (s.header.openHandle segmentId).map (fun p => { s with handles := s.handles ++ [p] })
  | .allocate h =>
      match s.handles[h]? with
      | none => none
      | some p =>
          match (s.segment p).allocate with
          | none => none
          | some (.error _, _) => some s
          | some (.ok offset, seg) =>
              some { s with
                handles := s.handles.set h seg.allocator
                live := (h, offset) :: s.live }
  | .deallocate h x =>
      match s.handles[h]? with
      | none => none
      | some p =>
          if x ∈ s.live then
            ((s.segment p).deallocate x.2).map (fun seg =>
              { s with
                handles := s.handles.set h seg.allocator
                live := s.live.erase x
                crossed := if x.1 = h then s.crossed else h :: s.crossed })
          else none

/-! ## §2. What sharing should keep, and when it does. -/

/-- Two live allocations are different chunks of the shared memory. -/
def Exclusive (s : State) : Prop := s.live.Pairwise (fun x y => x.2.offset ≠ y.2.offset)

instance decidableExclusive (s : State) : Decidable (Exclusive s) :=
  inferInstanceAs (Decidable (s.live.Pairwise (fun x y => x.2.offset ≠ y.2.offset)))

/-- An allocation is made only through a handle that made every live one, and
through which no chunk of another handle was ever deallocated.  That refuses some
allocations that do no harm: those that fail, and those through a second handle whose
next free chunk happens not to be live. -/
def oneHandle (s : State) : Act → Prop
  | .allocate h => (∀ x ∈ s.live, x.1 = h) ∧ h ∉ s.crossed
  | _ => True

instance decidableOneHandle (s : State) : (a : Act) → Decidable (oneHandle s a)
  | .allocate h => inferInstanceAs (Decidable ((∀ x ∈ s.live, x.1 = h) ∧ h ∉ s.crossed))
  | .openHandle _ => isTrue trivial
  | .deallocate _ _ => isTrue trivial

/-- **A second handle hands out what the first has handed out.** -/
theorem handles_collide :
    ∃ s₀ s : State, create 8 4 0#16 = some s₀ ∧ Reach step anyStep s₀ s
      ∧ s.live = [(1, ⟨64#64⟩), (0, ⟨64#64⟩)] ∧ ¬ Exclusive s := by
  have hrun : ((create 8 4 0#16).bind (fun s₀ =>
      exec step s₀ [.openHandle 0#16, .allocate 0, .allocate 1])).map (fun s =>
        decide (s.live = [(1, ⟨64#64⟩), (0, ⟨64#64⟩)] ∧ ¬ Exclusive s)) = some true := by decide
  obtain ⟨s, hs, hend⟩ := Option.map_eq_some_iff.mp hrun
  obtain ⟨s₀, hcreate, hexec⟩ := Option.bind_eq_some_iff.mp hs
  obtain ⟨hlive, hnot⟩ := of_decide_eq_true hend
  exact ⟨s₀, s, hcreate, Reach.of_exec _ .refl hexec, hlive, hnot⟩

/-! ## §3. Runs that keep to one handle. -/

/-- The free list of a handle that nobody crossed has none of its live chunks. -/
structure Inv (s : State) : Prop where
  exclusive : Exclusive s
  made : ∀ x ∈ s.live, x.1 < s.handles.length
  handle : ∀ h p, s.handles[h]? = some p → h ∉ s.crossed →
    ∃ l, (s.segment p).Free l ∧ ∀ x ∈ s.live, x.1 = h → Taken p.layout l x.2

theorem inv_create {chunkSize chunkCount : Nat} {segmentId : U16} {s₀ : State}
    (h : create chunkSize chunkCount segmentId = some s₀) : Inv s₀ := by
  obtain ⟨seg, hseg, rfl⟩ := Option.map_eq_some_iff.mp h
  refine ⟨List.Pairwise.nil, fun x hx => absurd hx (by simp), fun k p hp _ => ?_⟩
  obtain rfl : seg.allocator = p := by
    cases k with
    | zero => exact Option.some.inj hp
    | succ k => exact absurd hp (by simp)
  exact ⟨_, (DataSegment.create_free hseg).1, fun x hx => absurd hx (by simp)⟩

/-- An allocated chunk that is not `i` has another place in the memory. -/
theorem offset_ne_of_taken {layout : Layout} {i : U32} {l : List U32} {x : PointerOffset}
    (hi : i.toNat < layout.chunkCount) (hx : Taken layout (i :: l) x) :
    (layout.chunk i).offset ≠ x.offset := by
  obtain ⟨j, hj, hl, rfl⟩ := hx
  rw [layout.chunk_offset hi, layout.chunk_offset hj]
  intro he
  have hmul : i.toNat * layout.chunkSize = j.toNat * layout.chunkSize := by omega
  have hij := BitVec.eq_of_toNat_eq (Nat.eq_of_mul_eq_mul_right layout.chunkSize_pos hmul)
  exact hl (by rw [hij]; exact List.mem_cons_self)

theorem Inv.openHandle {s : State} (h : Inv s) {segmentId : U16} {p : PoolAllocator}
    (hopen : s.header.openHandle segmentId = some p) :
    Inv { s with handles := s.handles ++ [p] } := by
  refine ⟨h.exclusive, fun x hx => ?_, fun k q hq hk => ?_⟩
  · have hlt := h.made x hx
    show x.1 < (s.handles ++ [p]).length
    rw [List.length_append]
    omega
  rcases concat_cases hq with hold | ⟨rfl, rfl⟩
  · exact h.handle k q hold hk
  · obtain ⟨l, hfree⟩ := newAllocator_free hopen s.memory
    refine ⟨l, hfree, fun x hx hxk => ?_⟩
    have hlt := h.made x hx
    omega

theorem Inv.allocate {s : State} (h : Inv s) {k : Nat} {p : PoolAllocator}
    (hp : s.handles[k]? = some p) (hone : ∀ x ∈ s.live, x.1 = k) (hk : k ∉ s.crossed)
    {offset : PointerOffset} {seg : DataSegment}
    (halloc : (s.segment p).allocate = some (.ok offset, seg)) :
    Inv { s with handles := s.handles.set k seg.allocator, live := (k, offset) :: s.live } := by
  obtain ⟨l, hfree, htaken⟩ := h.handle k p hp hk
  obtain ⟨i, rest, rfl, rfl, hfree', hlayout, _⟩ := hfree.allocated halloc
  have hi : i.toNat < p.layout.chunkCount := hfree.lt List.mem_cons_self
  have hnodup := List.nodup_cons.mp hfree.list.nodup
  refine ⟨List.pairwise_cons.mpr ⟨fun x hx => ?_, h.exclusive⟩, fun x hx => ?_,
    fun j q hq hj => ?_⟩
  · exact offset_ne_of_taken hi (htaken x hx (hone x hx))
  · show x.1 < (s.handles.set k seg.allocator).length
    rw [List.length_set]
    rcases List.mem_cons.mp hx with rfl | hx
    · exact (List.getElem?_eq_some_iff.mp hp).1
    · exact h.made x hx
  · rcases set_cases hq with ⟨rfl, rfl⟩ | ⟨hne, hq'⟩
    · have hlayout' : seg.allocator.layout = p.layout := hlayout
      refine ⟨rest, ⟨hfree'.list, hfree'.borrowed⟩, fun x hx _ => ?_⟩
      rw [hlayout']
      rcases List.mem_cons.mp hx with rfl | hx
      · exact ⟨i, hi, hnodup.1, rfl⟩
      · exact (htaken x hx (hone x hx)).of_cons
    · obtain ⟨l', hfree'', htaken'⟩ := h.handle j q hq' hj
      refine ⟨l', hfree'', fun x hx hxj => ?_⟩
      rcases List.mem_cons.mp hx with rfl | hx
      · exact absurd hxj.symm hne
      · exact htaken' x hx hxj

theorem Inv.deallocate {s : State} (h : Inv s) {k : Nat} {p : PoolAllocator}
    (hp : s.handles[k]? = some p) {x : Nat × PointerOffset} (hx : x ∈ s.live) {seg : DataSegment}
    (hdealloc : (s.segment p).deallocate x.2 = some seg) :
    Inv { s with
      handles := s.handles.set k seg.allocator
      live := s.live.erase x
      crossed := if x.1 = k then s.crossed else k :: s.crossed } := by
  have hperm := List.perm_cons_erase hx
  have hsym : ∀ {a b : Nat × PointerOffset}, a.2.offset ≠ b.2.offset → b.2.offset ≠ a.2.offset :=
    fun hne => hne.symm
  have hpair := List.pairwise_cons.mp (hperm.pairwise h.exclusive hsym)
  refine ⟨hpair.2, fun y hy => ?_, fun j q hq hj => ?_⟩
  · show y.1 < (s.handles.set k seg.allocator).length
    rw [List.length_set]
    exact h.made y (List.mem_of_mem_erase hy)
  have hj' : j ∉ s.crossed := by
    intro hmem
    apply hj
    show j ∈ if x.1 = k then s.crossed else k :: s.crossed
    split
    next => exact hmem
    next => exact List.mem_cons_of_mem _ hmem
  rcases set_cases hq with ⟨rfl, rfl⟩ | ⟨hne, hq'⟩
  · -- the handle is not crossed, so the chunk was its own
    have hown : x.1 = j := by
      by_contra hother
      apply hj
      show j ∈ if x.1 = j then s.crossed else j :: s.crossed
      rw [if_neg hother]
      exact List.mem_cons_self
    obtain ⟨l, hfree, htaken⟩ := h.handle j p hp hj'
    obtain ⟨i, hxi, hfree', hlayout, _⟩ := hfree.deallocated (htaken x hx hown) hdealloc
    have hlayout' : seg.allocator.layout = p.layout := hlayout
    refine ⟨i :: l, ⟨hfree'.list, hfree'.borrowed⟩, fun y hy hyj => ?_⟩
    rw [hlayout']
    refine (htaken y (List.mem_of_mem_erase hy) hyj).cons (fun he => ?_)
    exact hpair.1 y hy (by rw [hxi, he]; rfl)
  · obtain ⟨l, hfree, htaken⟩ := h.handle j q hq' hj'
    exact ⟨l, hfree, fun y hy hyj => htaken y (List.mem_of_mem_erase hy) hyj⟩

/-- **The step lemma.** -/
theorem Inv.step {s s' : State} {a : Act} (h : Inv s) (hok : oneHandle s a)
    (hs : step s a = some s') : Inv s' := by
  cases a with
  | openHandle segmentId =>
      obtain ⟨p, hopen, rfl⟩ := Option.map_eq_some_iff.mp hs
      exact h.openHandle hopen
  | allocate k =>
      simp only [Handles.step] at hs
      split at hs
      next => exact absurd hs (by simp)
      next p hp =>
        split at hs
        next => exact absurd hs (by simp)
        next =>
          injection hs with hs
          exact hs ▸ h
        next offset seg halloc =>
          injection hs with hs
          subst hs
          exact h.allocate hp hok.1 hok.2 halloc
  | deallocate k x =>
      simp only [Handles.step] at hs
      split at hs
      next => exact absurd hs (by simp)
      next p hp =>
        split at hs
        next hx =>
          obtain ⟨seg, hdealloc, rfl⟩ := Option.map_eq_some_iff.mp hs
          exact h.deallocate hp hx hdealloc
        next => exact absurd hs (by simp)

/-- **In runs that allocate through one handle at a time two live allocations
are never the same chunk.** -/
theorem handles_exclusive (chunkSize chunkCount : Nat) (segmentId : U16) (s₀ s : State)
    (hcreate : create chunkSize chunkCount segmentId = some s₀)
    (hs : Reach Handles.step oneHandle s₀ s) : Exclusive s := by
  have hinv : Inv s := hs.invariant Inv (inv_create hcreate)
    (fun _ _ _ hi hok hstep => hi.step hok hstep)
  exact hinv.exclusive

/-- The second handle allocates once the first has given back its chunks. -/
def handOver : List Act :=
  [.openHandle 0#16, .allocate 0, .allocate 0, .deallocate 0 (0, ⟨64#64⟩),
   .deallocate 0 (0, ⟨72#64⟩), .allocate 1, .allocate 1]

theorem handles_exclusive_handOver :
    ∃ s₀ s : State, create 8 4 0#16 = some s₀ ∧ Reach Handles.step oneHandle s₀ s
      ∧ s.live = [(1, ⟨72#64⟩), (1, ⟨64#64⟩)] ∧ Exclusive s := by
  have hrun : ((create 8 4 0#16).bind (fun s₀ => execOk Handles.step oneHandle s₀ handOver)).map
      (fun s => decide (s.live = [(1, ⟨72#64⟩), (1, ⟨64#64⟩)])) = some true := by decide
  obtain ⟨s, hs, hend⟩ := Option.map_eq_some_iff.mp hrun
  obtain ⟨s₀, hcreate, hexec⟩ := Option.bind_eq_some_iff.mp hs
  have hreach := Reach.of_execOk handOver .refl hexec
  exact ⟨s₀, s, hcreate, hreach, of_decide_eq_true hend,
    handles_exclusive 8 4 0#16 s₀ s hcreate hreach⟩

end Entangle.Transport.Handles
