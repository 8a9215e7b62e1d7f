/-
  Entangle.Transport.DataSegment — pointer offsets, the pool allocator and the
  data segment of entangle-transport (contracts.rs, pool_alloc.rs and
  data_segment.rs).

  A segment is a header followed by `chunkCount` chunks of `chunkSize` bytes.
  A chunk is named by a `PointerOffset` (16 bits of segment id, 48 bits of
  byte offset), and the pool hands out chunks through a `UniqueIndexSet`.

  Only segments that are mapped whole are here.  A total size that wraps in a
  release build may be mapped too short, and `create` then returns a segment whose
  chunks are not its own; that is left out (`create` is `none`) and looked at in
  `Transport.Mapping`.

  Main results:
    * `allocate_ok`, `allocate_err`, `deallocate_ok` — the pool in terms of
      its free list of chunk indices;
    * `chunk_inj` — distinct chunks have distinct offsets;
    * `read_write_ne` — a payload written to one chunk leaves the others alone.
-/
import Entangle.Lib.Bytes
import Entangle.Lockfree.IndexSet

namespace Entangle.Transport

open Entangle.Lib Entangle.Lockfree

/-! ## §1. Pointer offsets. -/

/-- `PointerOffset`: segment id and local offset in one word. -/
structure PointerOffset where
  raw : U64
  deriving Repr, DecidableEq

/-- `LoanError`. -/
inductive LoanError where
  | outOfMemory
  | exceedsMaxLoans (max : Nat)
  deriving Repr, DecidableEq

/-- `SendError`. -/
inductive SendError where
  | connectionBroken
  | queueFull
  deriving Repr, DecidableEq

/-- `ReceiveError`. -/
inductive ReceiveError where
  | empty
  | connectionBroken
  deriving Repr, DecidableEq

namespace PointerOffset

/-- `(segment_id << 48) | (offset & 0x0000_FFFF_FFFF_FFFF)`. -/
def new (segmentId : U16) (offset : Nat) : PointerOffset :=
  ⟨(segmentId.setWidth 64 <<< 48) ||| (BitVec.ofNat 64 offset &&& 0x0000FFFFFFFFFFFF#64)⟩

def segmentId (p : PointerOffset) : U16 := (p.raw >>> 48).setWidth 16

def offset (p : PointerOffset) : Nat := (p.raw &&& 0x0000FFFFFFFFFFFF#64).toNat

def fromRaw (raw : U64) : PointerOffset := ⟨raw⟩

@[simp] theorem fromRaw_raw (p : PointerOffset) : fromRaw p.raw = p := rfl

theorem new_raw_toNat (id : U16) (off : Nat) :
    (new id off).raw.toNat = id.toNat * 2 ^ 48 + off % 2 ^ 48 := by
  have hid := id.isLt
  have hmask : 0x0000FFFFFFFFFFFF#64 = BitVec.ofNat 64 (2 ^ 48 - 1) := by decide
  rw [new, hmask, ← BitVec.ofNat_toNat,
      shiftLeft_or_mask_toNat 64 48 _ _ (by omega) (by omega)]

theorem offset_eq (p : PointerOffset) : p.offset = p.raw.toNat % 2 ^ 48 := by
  have h := and_mask 64 48 p.raw.toNat (by omega)
  have hmask : 0x0000FFFFFFFFFFFF#64 = BitVec.ofNat 64 (2 ^ 48 - 1) := by decide
  rw [BitVec.ofNat_toNat, BitVec.setWidth_eq] at h
  rw [offset, hmask, h]

/-- An offset below `2 ^ 48` comes back as it was. -/
theorem offset_new (id : U16) {off : Nat} (h : off < 2 ^ 48) : (new id off).offset = off := by
  rw [offset_eq, new_raw_toNat]
  omega

theorem segmentId_new (id : U16) (off : Nat) : (new id off).segmentId = id := by
  have hid := id.isLt
  apply BitVec.eq_of_toNat_eq
  simp only [segmentId, BitVec.toNat_setWidth, BitVec.toNat_ushiftRight,
    Nat.shiftRight_eq_div_pow, new_raw_toNat]
  omega

end PointerOffset

/-! ## §2. The pool allocator. -/

/-- The fields of `PoolAllocator` and `DataSegment` that never change.  `fits` says
that the bytes of the segment have 48-bit offsets.  A mapping of the whole segment
guarantees it; of a segment whose total size wraps in a release build nothing does,
and such a segment has no `Layout`. -/
structure Layout where
  chunkSize : Nat
  chunkCount : Nat
  segmentId : U16
  baseOffset : Nat
  chunkSize_pos : 0 < chunkSize
  fits : baseOffset + chunkCount * chunkSize ≤ 2 ^ 48

/-- The pointer offset `allocate` makes of a chunk index. -/
def Layout.chunk (layout : Layout) (i : U32) : PointerOffset :=
  .new layout.segmentId (layout.baseOffset + i.toNat * layout.chunkSize)

/-- `PoolAllocator`: an index set of as many indices as the layout has chunks. -/
structure PoolAllocator where
  layout : Layout
  indexSet : UniqueIndexSet
  capacity_eq : indexSet.capacity = layout.chunkCount

theorem acquire_capacity {s s' : UniqueIndexSet} {r : Except AcquireError U32}
    (h : s.acquire = some (r, s')) : s'.capacity = s.capacity := by
  unfold UniqueIndexSet.acquire at h
  simp only at h
  split at h
  next =>
    simp only [Option.some.injEq, Prod.mk.injEq] at h
    rw [← h.2]
  next =>
    obtain ⟨n, _, hn⟩ := Option.map_eq_some_iff.mp h
    rw [← (Prod.mk.inj hn).2]

theorem release_capacity {s s' : UniqueIndexSet} {i : U32} (h : s.release i = some s') :
    s'.capacity = s.capacity := by
  unfold UniqueIndexSet.release at h
  split at h
  next =>
    injection h with h
    rw [← h]
    rfl
  next => exact absurd h (by simp)

namespace PoolAllocator

/-- `PoolAllocator::allocate`; `none` where the index set would panic. -/
def allocate (p : PoolAllocator) : Option (Except LoanError PointerOffset × PoolAllocator) :=
  match h : p.indexSet.acquire with
  | none => none
  | some (.error _, _) => some (.error .outOfMemory, p)
  | some (.ok index, indexSet) =>
      some (.ok (p.layout.chunk index),
        { p with indexSet := indexSet, capacity_eq := (acquire_capacity h).trans p.capacity_eq })

/-- `PoolAllocator::deallocate`; `none` where it would panic. -/
def deallocate (p : PoolAllocator) (offset : PointerOffset) : Option PoolAllocator :=
  if offset.offset < p.layout.baseOffset then none
  else
    let index := BitVec.ofNat 32 ((offset.offset - p.layout.baseOffset) / p.layout.chunkSize)
    match h : p.indexSet.release index with
    | none => none
    | some indexSet =>
        some { p with indexSet := indexSet, capacity_eq := (release_capacity h).trans p.capacity_eq }

def allocatedCount (p : PoolAllocator) : U32 := p.indexSet.borrowedCount

end PoolAllocator

theorem Layout.chunk_offset (layout : Layout) {i : U32} (hi : i.toNat < layout.chunkCount) :
    (layout.chunk i).offset = layout.baseOffset + i.toNat * layout.chunkSize := by
  apply PointerOffset.offset_new
  have hfits := layout.fits
  have hpos := layout.chunkSize_pos
  have hmul : (i.toNat + 1) * layout.chunkSize ≤ layout.chunkCount * layout.chunkSize :=
    Nat.mul_le_mul_right _ hi
  rw [Nat.add_mul] at hmul
  omega

/-- Distinct chunks have distinct pointer offsets. -/
theorem Layout.chunk_inj (layout : Layout) {i j : U32} (hi : i.toNat < layout.chunkCount)
    (hj : j.toNat < layout.chunkCount) (h : layout.chunk i = layout.chunk j) : i = j := by
  have hoff := congrArg PointerOffset.offset h
  rw [layout.chunk_offset hi, layout.chunk_offset hj] at hoff
  have hmul : i.toNat * layout.chunkSize = j.toNat * layout.chunkSize := by omega
  exact BitVec.eq_of_toNat_eq (Nat.eq_of_mul_eq_mul_right layout.chunkSize_pos hmul)

/-- Chunks of one segment do not overlap. -/
theorem Layout.chunk_apart (layout : Layout) {i j : U32} (hi : i.toNat < layout.chunkCount)
    (hj : j.toNat < layout.chunkCount) (hne : i ≠ j) :
    (layout.chunk i).offset + layout.chunkSize ≤ (layout.chunk j).offset
      ∨ (layout.chunk j).offset + layout.chunkSize ≤ (layout.chunk i).offset := by
  have hne' : i.toNat ≠ j.toNat := fun he => hne (BitVec.eq_of_toNat_eq he)
  rw [layout.chunk_offset hi, layout.chunk_offset hj]
  rcases Nat.lt_or_gt_of_ne hne' with hlt | hlt
  · left
    have hmul := Nat.mul_le_mul_right layout.chunkSize hlt
    rw [Nat.succ_mul] at hmul
    omega
  · right
    have hmul := Nat.mul_le_mul_right layout.chunkSize hlt
    rw [Nat.succ_mul] at hmul
    omega

/-! ## §3. The data segment. -/

/-- A payload: `size_of::<T>()` bytes. -/
abbrev Payload (size : Nat) := Fin size → Byte

instance decidableEqPayload (size : Nat) : DecidableEq (Payload size) := fun a b =>
  decidable_of_iff (∀ i, a i = b i) funext_iff.symm

/-- `HEADER_SIZE`. -/
def HEADER_SIZE : Nat := 64

/-- `DataSegment`: the pool and the bytes it hands out. -/
structure DataSegment where
  allocator : PoolAllocator
  memory : Memory

namespace DataSegment

/-- The chunk size rounded up to 8 bytes, `(chunk_size + 7) & !7`. -/
def aligned (chunkSize : Nat) : Nat := (chunkSize + 7) / 8 * 8

/-- `DataSegment::create`; `none` where the index set refuses the chunk count,
the chunk size is zero or the segment cannot be mapped.  It is `none` too where the
total size, or the rounding of the chunk size, would wrap: a debug build panics
there, and what a release build does is left out. -/
def create (chunkSize chunkCount : Nat) (segmentId : U16) : Option DataSegment :=
  if h : (0 < chunkCount ∧ chunkCount < SENTINEL.toNat) ∧ 0 < aligned chunkSize
      ∧ HEADER_SIZE + chunkCount * aligned chunkSize ≤ 2 ^ 48 then
    some
      { allocator :=
          { layout :=
              { chunkSize := aligned chunkSize
                chunkCount := chunkCount
                segmentId := segmentId
                baseOffset := HEADER_SIZE
                chunkSize_pos := h.2.1
                fits := h.2.2 }
            indexSet := .new chunkCount h.1.1 h.1.2
            capacity_eq := rfl }
        memory := fun _ => 0#8 }
  else none

def layout (seg : DataSegment) : Layout := seg.allocator.layout

def allocate (seg : DataSegment) : Option (Except LoanError PointerOffset × DataSegment) :=
  seg.allocator.allocate.map (fun r => (r.1, { seg with allocator := r.2 }))

def deallocate (seg : DataSegment) (offset : PointerOffset) : Option DataSegment :=
  (seg.allocator.deallocate offset).map (fun a => { seg with allocator := a })

def allocatedCount (seg : DataSegment) : U32 := seg.allocator.allocatedCount

/-- Copy a payload of `n` bytes out of the place `resolve_ref` gives. -/
def read (n : Nat) (seg : DataSegment) (offset : PointerOffset) : Fin n → Byte :=
  readAt n seg.memory offset.offset

/-- Store a payload at the place `resolve_mut` gives. -/
def write {n : Nat} (seg : DataSegment) (offset : PointerOffset) (v : Fin n → Byte) :
    DataSegment :=
  { seg with memory := writeAt seg.memory offset.offset v }

@[simp] theorem write_allocator {n : Nat} (seg : DataSegment) (p : PointerOffset)
    (v : Fin n → Byte) : (seg.write p v).allocator = seg.allocator := rfl

@[simp] theorem write_layout {n : Nat} (seg : DataSegment) (p : PointerOffset)
    (v : Fin n → Byte) : (seg.write p v).layout = seg.layout := rfl

theorem read_write {n : Nat} (seg : DataSegment) (p : PointerOffset) (v : Fin n → Byte) :
    (seg.write p v).read n p = v :=
  readAt_writeAt seg.memory p.offset v

/-- Payloads that fit a chunk do not reach into another one. -/
theorem read_write_ne {n k : Nat} (seg : DataSegment) {i j : U32}
    (hi : i.toNat < seg.layout.chunkCount) (hj : j.toNat < seg.layout.chunkCount) (hne : i ≠ j)
    (hn : n ≤ seg.layout.chunkSize) (hk : k ≤ seg.layout.chunkSize) (v : Fin n → Byte) :
    (seg.write (seg.layout.chunk i) v).read k (seg.layout.chunk j)
      = seg.read k (seg.layout.chunk j) := by
  apply readAt_writeAt_disjoint
  rcases seg.layout.chunk_apart hi hj hne with hlt | hlt
  · left
    omega
  · right
    omega

/-! ## §4. The segment by its free list. -/

/-- The free chunks of the segment are `l`, and the others are counted. -/
structure Free (seg : DataSegment) (l : List U32) : Prop where
  list : seg.allocator.indexSet.FreeList l
  borrowed : seg.allocatedCount.toNat + l.length = seg.layout.chunkCount

/-- A chunk is on the chain of free chunks, finite or not. -/
def OnFreeChain (seg : DataSegment) (i : U32) : Prop :=
  OnChain seg.allocator.indexSet.nextAt SENTINEL (extractHead seg.allocator.indexSet.head) i

theorem Free.onFreeChain_iff {seg : DataSegment} {l : List U32} (h : seg.Free l) (i : U32) :
    seg.OnFreeChain i ↔ i ∈ l :=
  Linked.onChain_iff h.list

theorem Free.lt {seg : DataSegment} {l : List U32} (h : seg.Free l) {i : U32} (hi : i ∈ l) :
    i.toNat < seg.layout.chunkCount := by
  have := h.list.lt hi
  rw [seg.allocator.capacity_eq] at this
  exact this

theorem chunkCount_lt (seg : DataSegment) : seg.layout.chunkCount < 2 ^ 32 := by
  have h := seg.allocator.indexSet.capacity_lt
  have hs : SENTINEL.toNat = 4294967295 := by decide
  rw [seg.allocator.capacity_eq, hs] at h
  exact Nat.lt_trans h (by decide)

/-- If every chunk is free, none is counted as allocated. -/
theorem Free.allocatedCount_eq_zero {seg : DataSegment} {l : List U32} (h : seg.Free l)
    (hall : ∀ i : U32, i.toNat < seg.layout.chunkCount → i ∈ l) :
    seg.allocatedCount.toNat = 0 := by
  have hsub : List.range seg.layout.chunkCount ⊆ l.map BitVec.toNat := by
    intro n hn
    have hlt := List.mem_range.mp hn
    have hn' : (BitVec.ofNat 32 n).toNat = n := by
      rw [BitVec.toNat_ofNat]
      have := seg.chunkCount_lt
      exact Nat.mod_eq_of_lt (by omega)
    refine List.mem_map.mpr ⟨BitVec.ofNat 32 n, hall _ ?_, hn'⟩
    rw [hn']
    exact hlt
  have hle := (List.nodup_range.subperm hsub).length_le
  have hb := h.borrowed
  rw [List.length_map, List.length_range] at hle
  omega

theorem Free.write {seg : DataSegment} {l : List U32} (h : seg.Free l) {n : Nat}
    (p : PointerOffset) (v : Fin n → Byte) : (seg.write p v).Free l := ⟨h.list, h.borrowed⟩

/-- A new segment is all free. -/
theorem create_free {chunkSize chunkCount : Nat} {segmentId : U16} {seg : DataSegment}
    (h : create chunkSize chunkCount segmentId = some seg) :
    seg.Free ((List.range chunkCount).map (BitVec.ofNat 32))
      ∧ seg.layout.chunkCount = chunkCount ∧ seg.layout.chunkSize = aligned chunkSize := by
  unfold create at h
  split at h
  next hok =>
    injection h with h
    subst h
    refine ⟨⟨UniqueIndexSet.new_freeList chunkCount hok.1.1 hok.1.2, ?_⟩, rfl, rfl⟩
    show 0 + ((List.range chunkCount).map (BitVec.ofNat 32)).length = chunkCount
    simp
  next => exact absurd h (by simp)

/-- An allocation takes the first free chunk. -/
theorem allocate_ok {seg : DataSegment} {i : U32} {l : List U32} (h : seg.Free (i :: l)) :
    ∃ seg', seg.allocate = some (.ok (seg.layout.chunk i), seg') ∧ seg'.Free l
      ∧ seg'.layout = seg.layout ∧ seg'.memory = seg.memory
      ∧ seg'.allocatedCount.toNat = seg.allocatedCount.toNat + 1 := by
  obtain ⟨s', hacq, hfree, _, hborrowed⟩ := UniqueIndexSet.acquire_ok h.list
  have hcount : s'.borrowed.toNat = seg.allocatedCount.toNat + 1 := by
    have hlen := h.borrowed
    have hlt := seg.chunkCount_lt
    rw [List.length_cons] at hlen
    rw [hborrowed, BitVec.toNat_add]
    exact Nat.mod_eq_of_lt (by show seg.allocatedCount.toNat + 1 < 2 ^ 32; omega)
  refine ⟨{ seg with allocator := { seg.allocator with
    indexSet := s', capacity_eq := (acquire_capacity hacq).trans seg.allocator.capacity_eq } },
    ?_, ⟨hfree, ?_⟩, rfl, rfl, hcount⟩
  · unfold allocate PoolAllocator.allocate
    split
    next hn =>
      rw [hacq] at hn
      exact absurd hn (by simp)
    next hn =>
      rw [hacq] at hn
      exact absurd hn (by simp)
    next index set hn =>
      rw [hacq] at hn
      simp only [Option.some.injEq, Prod.mk.injEq, Except.ok.injEq] at hn
      obtain ⟨rfl, rfl⟩ := hn
      rfl
  · have hlen := h.borrowed
    rw [List.length_cons] at hlen
    show s'.borrowed.toNat + l.length = seg.layout.chunkCount
    omega

/-- Without a free chunk it fails and changes nothing. -/
theorem allocate_err {seg : DataSegment} (h : seg.Free []) :
    seg.allocate = some (.error .outOfMemory, seg) := by
  have hacq := UniqueIndexSet.acquire_err h.list
  unfold allocate PoolAllocator.allocate
  split
  next hn =>
    rw [hacq] at hn
    exact absurd hn (by simp)
  next => rfl
  next hn =>
    rw [hacq] at hn
    exact absurd hn (by simp)

/-- Giving back a chunk that is not free makes it the first free chunk. -/
theorem deallocate_ok {seg : DataSegment} {i : U32} {l : List U32} (h : seg.Free l)
    (hi : i.toNat < seg.layout.chunkCount) (hl : i ∉ l) :
    ∃ seg', seg.deallocate (seg.layout.chunk i) = some seg' ∧ seg'.Free (i :: l)
      ∧ seg'.layout = seg.layout ∧ seg'.memory = seg.memory
      ∧ seg'.allocatedCount.toNat + 1 = seg.allocatedCount.toNat := by
  have hcap : i.toNat < seg.allocator.indexSet.capacity := by
    rw [seg.allocator.capacity_eq]
    exact hi
  obtain ⟨s', hrel, hfree, _, hborrowed⟩ := UniqueIndexSet.release_ok h.list hcap hl
  have hoff := seg.layout.chunk_offset hi
  have hindex : BitVec.ofNat 32
      (((seg.layout.chunk i).offset - seg.layout.baseOffset) / seg.layout.chunkSize) = i := by
    rw [hoff, Nat.add_sub_cancel_left, Nat.mul_div_cancel _ seg.layout.chunkSize_pos,
        BitVec.ofNat_toNat, BitVec.setWidth_eq]
  -- `i` is allocated, so the count is not zero
  have hpos : 0 < seg.allocatedCount.toNat := by
    have hlen := h.borrowed
    have hle : (i :: l).length ≤ seg.layout.chunkCount :=
      length_le_of_nodup_lt (List.nodup_cons.mpr ⟨hl, h.list.nodup⟩)
        (List.forall_mem_cons.mpr ⟨hi, fun _ hx => h.lt hx⟩)
    rw [List.length_cons] at hle
    omega
  have hcount : s'.borrowed.toNat + 1 = seg.allocatedCount.toNat := by
    have hb : s'.borrowed.toNat = seg.allocatedCount.toNat - 1 := by
      rw [hborrowed]
      exact BitVec.toNat_sub_of_le (show (1#32).toNat ≤ _ from hpos)
    omega
  refine ⟨{ seg with allocator := { seg.allocator with
    indexSet := s', capacity_eq := (release_capacity hrel).trans seg.allocator.capacity_eq } },
    ?_, ⟨hfree, ?_⟩, rfl, rfl, hcount⟩
  · unfold deallocate PoolAllocator.deallocate
    have hbase : ¬ (seg.layout.chunk i).offset < seg.allocator.layout.baseOffset := by
      rw [hoff]
      exact Nat.not_lt.mpr (Nat.le_add_right _ _)
    rw [if_neg hbase]
    dsimp only
    split
    next hn =>
      have hn' := (congrArg seg.allocator.indexSet.release hindex).symm.trans hn
      rw [hrel] at hn'
      exact absurd hn' (by simp)
    next set hn =>
      have hn' := (congrArg seg.allocator.indexSet.release hindex).symm.trans hn
      rw [hrel] at hn'
      injection hn' with hn'
      subst hn'
      rfl
  · have hlen := h.borrowed
    show s'.borrowed.toNat + (i :: l).length = seg.layout.chunkCount
    rw [List.length_cons]
    omega

end DataSegment

/-! ## §5. Allocated chunks. -/

/-- An offset of an allocated chunk, `l` being the free ones. -/
def Taken (layout : Layout) (l : List U32) (offset : PointerOffset) : Prop :=
  ∃ i : U32, i.toNat < layout.chunkCount ∧ i ∉ l ∧ offset = layout.chunk i

theorem Taken.of_cons {layout : Layout} {i : U32} {l : List U32} {offset : PointerOffset}
    (h : Taken layout (i :: l) offset) : Taken layout l offset := by
  obtain ⟨j, hj, hl, rfl⟩ := h
  exact ⟨j, hj, fun hm => hl (List.mem_cons_of_mem _ hm), rfl⟩

theorem Taken.cons {layout : Layout} {i : U32} {l : List U32} {offset : PointerOffset}
    (h : Taken layout l offset) (hne : offset ≠ layout.chunk i) : Taken layout (i :: l) offset := by
  obtain ⟨j, hj, hl, rfl⟩ := h
  refine ⟨j, hj, fun hm => ?_, rfl⟩
  rcases List.mem_cons.mp hm with rfl | hm
  · exact hne rfl
  · exact hl hm

/-- An allocated chunk is not the first free one. -/
theorem Taken.ne_free {layout : Layout} {i : U32} {l : List U32} {offset : PointerOffset}
    (h : Taken layout (i :: l) offset) (hi : i.toNat < layout.chunkCount) :
    offset ≠ layout.chunk i := by
  obtain ⟨j, hj, hl, rfl⟩ := h
  intro he
  exact hl (by rw [layout.chunk_inj hj hi he]; exact List.mem_cons_self)

/-- The step of a successful allocation, by its result. -/
theorem DataSegment.Free.allocated {seg seg' : DataSegment} {l : List U32} (h : seg.Free l)
    {offset : PointerOffset} (hs : seg.allocate = some (.ok offset, seg')) :
    ∃ i rest, l = i :: rest ∧ offset = seg.layout.chunk i ∧ seg'.Free rest
      ∧ seg'.layout = seg.layout ∧ seg'.memory = seg.memory := by
  cases l with
  | nil =>
      rw [DataSegment.allocate_err h] at hs
      exact absurd hs (by simp)
  | cons i rest =>
      obtain ⟨seg₁, halloc, hfree, hlayout, hmemory, _⟩ := DataSegment.allocate_ok h
      rw [halloc] at hs
      simp only [Option.some.injEq, Prod.mk.injEq, Except.ok.injEq] at hs
      obtain ⟨rfl, rfl⟩ := hs
      exact ⟨i, rest, rfl, rfl, hfree, hlayout, hmemory⟩

/-- The step of a deallocation, by its result. -/
theorem DataSegment.Free.deallocated {seg seg' : DataSegment} {l : List U32} (h : seg.Free l)
    {offset : PointerOffset} (ht : Taken seg.layout l offset)
    (hs : seg.deallocate offset = some seg') :
    ∃ i, offset = seg.layout.chunk i ∧ seg'.Free (i :: l) ∧ seg'.layout = seg.layout
      ∧ seg'.memory = seg.memory := by
  obtain ⟨i, hi, hil, rfl⟩ := ht
  obtain ⟨seg₁, hdealloc, hfree, hlayout, hmemory, _⟩ := DataSegment.deallocate_ok h hi hil
  rw [hdealloc] at hs
  obtain rfl := Option.some.inj hs
  exact ⟨i, rfl, hfree, hlayout, hmemory⟩

/-- An allocation is counted, and so is a deallocation. -/
theorem DataSegment.Free.count_allocated {seg seg' : DataSegment} {l : List U32} (h : seg.Free l)
    {offset : PointerOffset} (hs : seg.allocate = some (.ok offset, seg')) :
    seg'.allocatedCount.toNat = seg.allocatedCount.toNat + 1 := by
  obtain ⟨i, rest, rfl, _, hfree, hlayout, _⟩ := h.allocated hs
  have hbefore := h.borrowed
  have hafter := hfree.borrowed
  rw [hlayout] at hafter
  rw [List.length_cons] at hbefore
  omega

theorem DataSegment.Free.count_deallocated {seg seg' : DataSegment} {l : List U32}
    (h : seg.Free l) {offset : PointerOffset} (ht : Taken seg.layout l offset)
    (hs : seg.deallocate offset = some seg') :
    seg'.allocatedCount.toNat + 1 = seg.allocatedCount.toNat := by
  obtain ⟨i, _, hfree, hlayout, _⟩ := h.deallocated ht hs
  have hbefore := h.borrowed
  have hafter := hfree.borrowed
  rw [hlayout] at hafter
  rw [List.length_cons] at hafter
  omega

theorem read_of_memory {segment segment' : DataSegment} (hm : segment'.memory = segment.memory)
    (n : Nat) : segment'.read n = segment.read n := by
  funext o
  unfold DataSegment.read
  rw [hm]

/-- A payload written to one chunk is not seen at another offset. -/
theorem read_write_of_ne {seg : DataSegment} {l l' : List U32} {n k : Nat} {a b : PointerOffset}
    (hn : n ≤ seg.layout.chunkSize) (hk : k ≤ seg.layout.chunkSize) (ha : Taken seg.layout l a)
    (hb : Taken seg.layout l' b) (hne : b ≠ a) (v : Payload n) :
    (seg.write a v).read k b = seg.read k b := by
  obtain ⟨i, hi, _, rfl⟩ := ha
  obtain ⟨j, hj, _, rfl⟩ := hb
  exact seg.read_write_ne hi hj (fun he => hne (by rw [he])) hn hk v

/-- Distinct offsets of allocated chunks are at most as many as there are chunks. -/
theorem length_le_of_taken {layout : Layout} {l : List U32} {offsets : List PointerOffset}
    (hnodup : offsets.Nodup) (htaken : ∀ o ∈ offsets, Taken layout l o) :
    offsets.length ≤ layout.chunkCount := by
  have hsub : offsets ⊆ (List.range layout.chunkCount).map
      (fun n => layout.chunk (BitVec.ofNat 32 n)) := by
    intro o ho
    obtain ⟨i, hi, _, rfl⟩ := htaken o ho
    refine List.mem_map.mpr ⟨i.toNat, List.mem_range.mpr hi, ?_⟩
    rw [BitVec.ofNat_toNat, BitVec.setWidth_eq]
  have hle := (hnodup.subperm hsub).length_le
  rw [List.length_map, List.length_range] at hle
  exact hle

end Entangle.Transport
