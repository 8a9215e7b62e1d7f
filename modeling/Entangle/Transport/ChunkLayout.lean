/-
  Entangle.Transport.ChunkLayout — where the chunks of one `DataSegment` lie,
  over any sequence of its `allocate` and `deallocate` calls
  (entangle-transport/src/data_segment.rs, pool_alloc.rs, contracts.rs).

  The sizes and offsets are computed in `usize`: rounding the chunk size,
  multiplying an index by it, and dividing it out again.  As long as the
  segment ends below 2^48 nothing wraps and nothing is cut off
  (`totalSize_toNat`, `byteOffset_toNat`, `indexOf_byteOffset`).

  Beside the segment a record is kept of the offsets handed out and not given
  back, each with the index that produced it.

  Main results:
    * `Inv.step` — the record and the free list share out the chunks;
    * `chunk_layout_sound` — what holds of every offset handed out.
-/
import Entangle.Lib.Transition
import Entangle.Transport.DataSegment

namespace Entangle.Transport.ChunkLayout

open Entangle.Lib Entangle.Lockfree

/-! ## §1. Sizes and offsets as `usize`. -/

/-- `(chunk_size + 7) & !7`. -/
def align8 (chunkSize : U64) : U64 := (chunkSize + 7#64) &&& ~~~7#64

/-- `HEADER_SIZE + (aligned_chunk_size * chunk_count as usize)`. -/
def totalSize (chunkSize : U64) (chunkCount : U32) : U64 :=
  64#64 + align8 chunkSize * chunkCount.setWidth 64

/-- `self.base_offset + (index as usize) * self.chunk_size`. -/
def byteOffset (chunkSize : U64) (index : U32) : U64 :=
  64#64 + index.setWidth 64 * chunkSize

/-- `((offset.offset() - self.base_offset) / self.chunk_size) as u32`. -/
def indexOf (chunkSize : U64) (offset : PointerOffset) : U32 :=
  ((BitVec.ofNat 64 offset.offset - 64#64) / chunkSize).setWidth 32

theorem and_not_seven (n : Nat) (hn : n < 2 ^ 64) :
    (BitVec.ofNat 64 n &&& ~~~7#64).toNat = n / 8 * 8 := by
  have hmask : ~~~7#64 = (BitVec.allOnes 64 >>> 3) <<< 3 := by decide
  have hand : BitVec.ofNat 64 n &&& ~~~7#64 = (BitVec.ofNat 64 n >>> 3) <<< 3 := by
    apply BitVec.eq_of_getLsbD_eq
    intro i hi
    rw [hmask]
    simp only [BitVec.getLsbD_and, BitVec.getLsbD_shiftLeft, BitVec.getLsbD_ushiftRight,
      BitVec.getLsbD_allOnes]
    by_cases h3 : i < 3
    · simp [h3]
    · have hback : 3 + (i - 3) = i := by omega
      simp [h3, hback, hi]
  rw [hand, BitVec.toNat_shiftLeft, BitVec.toNat_ushiftRight, BitVec.toNat_ofNat,
    Nat.mod_eq_of_lt hn, Nat.shiftRight_eq_div_pow, Nat.shiftLeft_eq]
  exact Nat.mod_eq_of_lt (by omega)

/-- Rounding up to 8 bytes. -/
theorem align8_toNat {chunkSize : U64} (h : chunkSize.toNat + 7 < 2 ^ 64) :
    (align8 chunkSize).toNat = DataSegment.aligned chunkSize.toNat := by
  have hsum : chunkSize + 7#64 = BitVec.ofNat 64 (chunkSize.toNat + 7) := by
    apply BitVec.eq_of_toNat_eq
    rw [BitVec.toNat_add, BitVec.toNat_ofNat]
    rfl
  rw [align8, hsum, and_not_seven _ h]
  rfl

/-- Chunk `i` of `n` ends where the `n` chunks end, or before. -/
theorem chunk_end_le {i n : Nat} (size : Nat) (hi : i < n) : i * size + size ≤ size * n := by
  rw [← Nat.succ_mul, Nat.mul_comm size]
  exact Nat.mul_le_mul_right size hi

theorem totalSize_toNat {chunkSize : U64} {chunkCount : U32} (h : chunkSize.toNat + 7 < 2 ^ 64)
    (htotal : 64 + DataSegment.aligned chunkSize.toNat * chunkCount.toNat < 2 ^ 64) :
    (totalSize chunkSize chunkCount).toNat
      = 64 + DataSegment.aligned chunkSize.toNat * chunkCount.toNat := by
  have hcount : (chunkCount.setWidth 64).toNat = chunkCount.toNat := by
    rw [BitVec.toNat_setWidth]
    exact Nat.mod_eq_of_lt (by omega)
  rw [totalSize, BitVec.toNat_add, BitVec.toNat_mul, align8_toNat h, hcount]
  rw [Nat.mod_eq_of_lt (a := DataSegment.aligned _ * _) (by omega)]
  exact Nat.mod_eq_of_lt (by show 64 + _ < _; omega)

/-- The sizes for which the segment ends below 2^48. -/
structure Fits (chunkSize : U64) (chunkCount : U32) : Prop where
  size : 1 ≤ chunkSize.toNat
  count : 1 ≤ chunkCount.toNat
  total : 64 + DataSegment.aligned chunkSize.toNat * chunkCount.toNat < 2 ^ 48

namespace Fits

variable {chunkSize : U64} {chunkCount : U32}

theorem aligned_lt (h : Fits chunkSize chunkCount) :
    DataSegment.aligned chunkSize.toNat < 2 ^ 48 := by
  have hle := Nat.le_mul_of_pos_right (DataSegment.aligned chunkSize.toNat) h.count
  have htotal := h.total
  omega

theorem round_lt (h : Fits chunkSize chunkCount) : chunkSize.toNat + 7 < 2 ^ 64 := by
  have hlt := h.aligned_lt
  unfold DataSegment.aligned at hlt
  omega

theorem align8_toNat (h : Fits chunkSize chunkCount) :
    (align8 chunkSize).toNat = DataSegment.aligned chunkSize.toNat :=
  ChunkLayout.align8_toNat h.round_lt

/-- A payload of the requested size has room in its chunk. -/
theorem size_le (chunkSize : Nat) : chunkSize ≤ DataSegment.aligned chunkSize := by
  unfold DataSegment.aligned
  omega

/-- The size that is mapped has not wrapped. -/
theorem totalSize_toNat (h : Fits chunkSize chunkCount) :
    (totalSize chunkSize chunkCount).toNat
      = 64 + DataSegment.aligned chunkSize.toNat * chunkCount.toNat := by
  have htotal := h.total
  exact ChunkLayout.totalSize_toNat h.round_lt (by omega)

/-- Nor has the offset of a chunk. -/
theorem byteOffset_toNat (h : Fits chunkSize chunkCount) {i : U32}
    (hi : i.toNat < chunkCount.toNat) :
    (byteOffset (align8 chunkSize) i).toNat
      = 64 + i.toNat * DataSegment.aligned chunkSize.toNat := by
  have htotal := h.total
  have hend := chunk_end_le (DataSegment.aligned chunkSize.toNat) hi
  have hindex : (i.setWidth 64).toNat = i.toNat := by
    rw [BitVec.toNat_setWidth]
    exact Nat.mod_eq_of_lt (by omega)
  rw [byteOffset, BitVec.toNat_add, BitVec.toNat_mul, h.align8_toNat, hindex]
  rw [Nat.mod_eq_of_lt (a := i.toNat * _) (by omega)]
  exact Nat.mod_eq_of_lt (by show 64 + _ < _; omega)

/-- **Dividing takes back what multiplying did.** -/
theorem indexOf_byteOffset (h : Fits chunkSize chunkCount) {i : U32}
    (hi : i.toNat < chunkCount.toNat) {offset : PointerOffset}
    (hoff : offset.offset = 64 + i.toNat * DataSegment.aligned chunkSize.toNat) :
    indexOf (align8 chunkSize) offset = i := by
  have htotal := h.total
  have hend := chunk_end_le (DataSegment.aligned chunkSize.toNat) hi
  have hpos : 0 < DataSegment.aligned chunkSize.toNat :=
    Nat.lt_of_lt_of_le h.size (size_le _)
  have hword : (BitVec.ofNat 64 offset.offset).toNat = offset.offset := by
    rw [BitVec.toNat_ofNat]
    exact Nat.mod_eq_of_lt (by omega)
  have hlocal : (BitVec.ofNat 64 offset.offset - 64#64).toNat
      = i.toNat * DataSegment.aligned chunkSize.toNat := by
    rw [BitVec.toNat_sub_of_le (by show 64 ≤ (BitVec.ofNat 64 offset.offset).toNat; omega), hword,
      hoff]
    exact Nat.add_sub_cancel_left 64 _
  apply BitVec.eq_of_toNat_eq
  rw [indexOf, BitVec.toNat_setWidth, BitVec.toNat_udiv, hlocal, h.align8_toNat,
    Nat.mul_div_cancel _ hpos]
  exact Nat.mod_eq_of_lt i.isLt

/-- `create` succeeds. -/
theorem create (h : Fits chunkSize chunkCount) (hmax : chunkCount.toNat ≤ 2 ^ 32 - 2)
    (segmentId : U16) :
    ∃ seg, DataSegment.create chunkSize.toNat chunkCount.toNat segmentId = some seg
      ∧ seg.layout.segmentId = segmentId ∧ seg.layout.baseOffset = 64 := by
  have htotal := h.total
  have hpos : 0 < DataSegment.aligned chunkSize.toNat :=
    Nat.lt_of_lt_of_le h.size (size_le _)
  have hsentinel : SENTINEL.toNat = 2 ^ 32 - 1 := by decide
  unfold DataSegment.create
  rw [dif_pos ⟨⟨h.count, by omega⟩, hpos, by
    rw [Nat.mul_comm]
    show 64 + _ ≤ _
    omega⟩]
  exact ⟨_, rfl, rfl, rfl⟩

end Fits

/-! ## §2. One handle, and what it has handed out. -/

/-- An offset handed out and not given back, and the index that produced it. -/
structure Live where
  offset : PointerOffset
  index : U32
  deriving Repr, DecidableEq

/-- One handle with the chunks it has given out. -/
structure Handle where
  segment : DataSegment
  live : List Live

inductive Act where
  | allocate
  | deallocate (x : Live)

/-- One call; `none` where it panics or the offset is not live. -/
def Handle.step (s : Handle) : Act → Option Handle
  | .allocate =>
      match s.segment.allocate, s.segment.allocator.indexSet.acquire with
      | some (.ok offset, segment), some (.ok index, _) =>
          some { segment := segment, live := ⟨offset, index⟩ :: s.live }
      | some (.error _, segment), _ => some { s with segment := segment }
      | _, _ => none
  | .deallocate x =>
      if x ∈ s.live then
        (s.segment.deallocate x.offset).map (fun segment =>
          { segment := segment, live := s.live.erase x })
      else none

/-- The free list and the record share out the chunks of `layout`. -/
structure Inv (layout : Layout) (s : Handle) (l : List U32) : Prop where
  free : s.segment.Free l
  layout_eq : s.segment.layout = layout
  nodup : (s.live.map Live.index).Nodup
  chunk : ∀ x ∈ s.live, x.offset = layout.chunk x.index
  index_lt : ∀ x ∈ s.live, x.index.toNat < layout.chunkCount
  notFree : ∀ x ∈ s.live, x.index ∉ l
  counted : s.segment.allocatedCount.toNat = s.live.length

theorem Inv.allocate {layout : Layout} {s s' : Handle} {l : List U32} (h : Inv layout s l)
    (hs : s.step .allocate = some s') : ∃ l', Inv layout s' l' := by
  cases l with
  | nil =>
      have halloc := DataSegment.allocate_err h.free
      simp only [Handle.step, halloc, Option.some.injEq] at hs
      subst hs
      exact ⟨[], h⟩
  | cons i rest =>
      obtain ⟨segment, halloc, hfree, hlayout, _, hcount⟩ := DataSegment.allocate_ok h.free
      obtain ⟨set, hacquire, _⟩ := UniqueIndexSet.acquire_ok h.free.list
      simp only [Handle.step, halloc, hacquire, Option.some.injEq] at hs
      subst hs
      have hi := h.free.lt (i := i) List.mem_cons_self
      have hlive : ∀ x ∈ s.live, x.index ≠ i := by
        intro x hx he
        apply h.notFree x hx
        rw [he]
        exact List.mem_cons_self
      refine ⟨rest, hfree, hlayout.trans h.layout_eq, ?_, ?_, ?_, ?_, ?_⟩
      · rw [List.map_cons, List.nodup_cons]
        refine ⟨fun hmem => ?_, h.nodup⟩
        obtain ⟨x, hx, he⟩ := List.mem_map.mp hmem
        exact hlive x hx he
      · intro x hx
        rcases List.mem_cons.mp hx with rfl | hx
        · rw [← h.layout_eq]
        · exact h.chunk x hx
      · intro x hx
        rcases List.mem_cons.mp hx with rfl | hx
        · rw [← h.layout_eq]
          exact hi
        · exact h.index_lt x hx
      · intro x hx
        rcases List.mem_cons.mp hx with rfl | hx
        · exact (List.nodup_cons.mp h.free.list.nodup).1
        · exact fun hmem => h.notFree x hx (List.mem_cons_of_mem i hmem)
      · rw [hcount, h.counted, List.length_cons]

/-- A live offset can be given back, and the index that produced it becomes free. -/
theorem Inv.deallocate_ok {layout : Layout} {s : Handle} {l : List U32} (h : Inv layout s l)
    {x : Live} (hx : x ∈ s.live) :
    ∃ segment, s.segment.deallocate x.offset = some segment ∧ segment.Free (x.index :: l)
      ∧ segment.layout = layout
      ∧ segment.allocatedCount.toNat + 1 = s.segment.allocatedCount.toNat := by
  have hlt : x.index.toNat < s.segment.layout.chunkCount := by
    rw [h.layout_eq]
    exact h.index_lt x hx
  obtain ⟨segment, hdealloc, hfree, hlayout, _, hcount⟩ :=
    DataSegment.deallocate_ok h.free hlt (h.notFree x hx)
  rw [h.layout_eq, ← h.chunk x hx] at hdealloc
  exact ⟨segment, hdealloc, hfree, hlayout.trans h.layout_eq, hcount⟩

theorem Inv.deallocate {layout : Layout} {s s' : Handle} {l : List U32} (h : Inv layout s l)
    {x : Live} (hs : s.step (.deallocate x) = some s') : ∃ l', Inv layout s' l' := by
  simp only [Handle.step] at hs
  split at hs
  next hx =>
    obtain ⟨segment, hdealloc, hfree, hlayout, hcount⟩ := h.deallocate_ok hx
    rw [hdealloc, Option.map_some, Option.some.injEq] at hs
    subst hs
    have hsub : ∀ y ∈ s.live.erase x, y ∈ s.live := fun y hy => List.mem_of_mem_erase hy
    have hperm := (List.perm_cons_erase hx).map Live.index
    have hnodup : (x.index :: (s.live.erase x).map Live.index).Nodup := hperm.nodup_iff.mp h.nodup
    refine ⟨x.index :: l, hfree, hlayout, (List.nodup_cons.mp hnodup).2,
      fun y hy => h.chunk y (hsub y hy), fun y hy => h.index_lt y (hsub y hy), ?_, ?_⟩
    · intro y hy hmem
      rcases List.mem_cons.mp hmem with he | hl
      · apply (List.nodup_cons.mp hnodup).1
        rw [← he]
        exact List.mem_map_of_mem hy
      · exact h.notFree y (hsub y hy) hl
    · have hlen := List.length_erase_of_mem hx
      have hpos := List.length_pos_of_mem hx
      have hbefore := h.counted
      show segment.allocatedCount.toNat = (s.live.erase x).length
      omega
  next => exact absurd hs (by simp)

/-- **The step lemma.** -/
theorem Inv.step {layout : Layout} {s s' : Handle} {l : List U32} {a : Act}
    (h : Inv layout s l) (hs : s.step a = some s') : ∃ l', Inv layout s' l' := by
  cases a with
  | allocate => exact h.allocate hs
  | deallocate x => exact h.deallocate hs

theorem Inv.init {seg : DataSegment} {chunkSize chunkCount : Nat} {segmentId : U16}
    (h : DataSegment.create chunkSize chunkCount segmentId = some seg) :
    ∃ l, Inv seg.layout ⟨seg, []⟩ l := by
  obtain ⟨hfree, hcount, _⟩ := DataSegment.create_free h
  refine ⟨_, hfree, rfl, List.nodup_nil, ?_, ?_, ?_, ?_⟩
  · exact fun x hx => absurd hx (by simp)
  · exact fun x hx => absurd hx (by simp)
  · exact fun x hx => absurd hx (by simp)
  · have hborrowed := hfree.borrowed
    rw [hcount, List.length_map, List.length_range] at hborrowed
    show seg.allocatedCount.toNat = 0
    omega

/-! ## §3. What holds of the offsets handed out. -/

/-- The layout of the live chunks of a segment with `chunkCount` chunks for
payloads of `chunkSize` bytes. -/
structure Sound (chunkSize : U64) (chunkCount : U32) (segmentId : U16) (s : Handle) : Prop where
  -- the size mapped is the one meant
  mapped : (totalSize chunkSize chunkCount).toNat
    = 64 + DataSegment.aligned chunkSize.toNat * chunkCount.toNat
  room : chunkSize.toNat ≤ (align8 chunkSize).toNat
  -- an offset that went through `raw` and `from_raw` reads back
  segmentId : ∀ x ∈ s.live, (PointerOffset.fromRaw x.offset.raw).segmentId = segmentId
  offset : ∀ x ∈ s.live, (PointerOffset.fromRaw x.offset.raw).offset
    = (byteOffset (align8 chunkSize) x.index).toNat
  -- after the header, before the end, and not into one another
  start : ∀ x ∈ s.live, HEADER_SIZE ≤ x.offset.offset
  stop : ∀ x ∈ s.live,
    x.offset.offset + (align8 chunkSize).toNat ≤ (totalSize chunkSize chunkCount).toNat
  apart : s.live.Pairwise (fun x y =>
    x.offset.offset + (align8 chunkSize).toNat ≤ y.offset.offset
      ∨ y.offset.offset + (align8 chunkSize).toNat ≤ x.offset.offset)
  -- giving an offset back frees the index that produced it and no other
  index : ∀ x ∈ s.live, indexOf (align8 chunkSize) x.offset = x.index
  released : ∀ x ∈ s.live, ¬ s.segment.OnFreeChain x.index
    ∧ ∃ segment, s.segment.deallocate x.offset = some segment
      ∧ ∀ j, segment.OnFreeChain j ↔ j = x.index ∨ s.segment.OnFreeChain j
  returns : s.segment.allocate.isSome
  outOfMemory : ∀ e segment, s.segment.allocate = some (.error e, segment) →
    s.live.length = chunkCount.toNat
  counted : s.segment.allocatedCount.toNat = s.live.length

theorem Inv.allocate_isSome {layout : Layout} {s : Handle} {l : List U32} (h : Inv layout s l) :
    s.segment.allocate.isSome := by
  cases l with
  | nil =>
      rw [DataSegment.allocate_err h.free]
      rfl
  | cons i rest =>
      obtain ⟨segment, halloc, _⟩ := DataSegment.allocate_ok h.free
      rw [halloc]
      rfl

/-- An allocation fails only when no chunk is left. -/
theorem Inv.length_of_err {layout : Layout} {s : Handle} {l : List U32} (h : Inv layout s l)
    {e : LoanError} {segment : DataSegment} (hs : s.segment.allocate = some (.error e, segment)) :
    s.live.length = layout.chunkCount := by
  cases l with
  | nil =>
      have hborrowed := h.free.borrowed
      rw [h.layout_eq, h.counted, List.length_nil, Nat.add_zero] at hborrowed
      exact hborrowed
  | cons i rest =>
      obtain ⟨segment, halloc, _⟩ := DataSegment.allocate_ok h.free
      rw [halloc] at hs
      exact absurd hs (by simp)

/-- Distinct live offsets are those of distinct chunks. -/
theorem Inv.apart {layout : Layout} {s : Handle} {l : List U32} (h : Inv layout s l) :
    s.live.Pairwise (fun x y => x.offset.offset + layout.chunkSize ≤ y.offset.offset
      ∨ y.offset.offset + layout.chunkSize ≤ x.offset.offset) := by
  have hne : s.live.Pairwise (fun x y => x.index ≠ y.index) := List.pairwise_map.mp h.nodup
  refine hne.imp_of_mem (fun {x y} hx hy hxy => ?_)
  rw [h.chunk x hx, h.chunk y hy]
  exact layout.chunk_apart (h.index_lt x hx) (h.index_lt y hy) hxy

/-- **Chunk layout is sound**: `create` succeeds, and after every sequence of
`allocate` and `deallocate` calls the offsets handed out are as in `Sound`. -/
theorem chunk_layout_sound (chunkSize : U64) (chunkCount : U32) (segmentId : U16)
    (hsize : 1 ≤ chunkSize.toNat) (hcount : 1 ≤ chunkCount.toNat)
    (hmax : chunkCount.toNat ≤ 2 ^ 32 - 2)
    (htotal : 64 + DataSegment.aligned chunkSize.toNat * chunkCount.toNat < 2 ^ 48) :
    ∃ seg, DataSegment.create chunkSize.toNat chunkCount.toNat segmentId = some seg
      ∧ ∀ s, Reach Handle.step anyStep ⟨seg, []⟩ s →
          Sound chunkSize chunkCount segmentId s := by
  have hfits : Fits chunkSize chunkCount := ⟨hsize, hcount, htotal⟩
  obtain ⟨seg, hcreate, hid, hbase⟩ := hfits.create hmax segmentId
  refine ⟨seg, hcreate, fun s hs => ?_⟩
  obtain ⟨_, hchunks, haligned⟩ := DataSegment.create_free hcreate
  obtain ⟨l, hl⟩ : ∃ l, Inv seg.layout s l := by
    refine hs.invariant (fun s => ∃ l, Inv seg.layout s l) (Inv.init hcreate) ?_
    rintro t a t' ⟨l, hl⟩ _ hstep
    exact hl.step hstep
  have hlt : ∀ x ∈ s.live, x.index.toNat < chunkCount.toNat := by
    intro x hx
    rw [← hchunks]
    exact hl.index_lt x hx
  have hoffset : ∀ x ∈ s.live, x.offset.offset
      = 64 + x.index.toNat * DataSegment.aligned chunkSize.toNat := by
    intro x hx
    rw [hl.chunk x hx, Layout.chunk_offset _ (hl.index_lt x hx), hbase, haligned]
  constructor
  case mapped => exact hfits.totalSize_toNat
  case room =>
    rw [hfits.align8_toNat]
    exact Fits.size_le _
  case segmentId =>
    intro x hx
    show x.offset.segmentId = segmentId
    rw [hl.chunk x hx, Layout.chunk, PointerOffset.segmentId_new, hid]
  case offset =>
    intro x hx
    show x.offset.offset = _
    rw [hoffset x hx, hfits.byteOffset_toNat (hlt x hx)]
  case start =>
    intro x hx
    rw [hoffset x hx]
    exact Nat.le_add_right 64 _
  case stop =>
    intro x hx
    have hend := chunk_end_le (DataSegment.aligned chunkSize.toNat) (hlt x hx)
    rw [hoffset x hx, hfits.align8_toNat, hfits.totalSize_toNat]
    omega
  case apart =>
    have hapart := hl.apart
    rw [haligned] at hapart
    rw [hfits.align8_toNat]
    exact hapart
  case index => exact fun x hx => hfits.indexOf_byteOffset (hlt x hx) (hoffset x hx)
  case released =>
    intro x hx
    obtain ⟨segment, hdealloc, hfree, _⟩ := hl.deallocate_ok hx
    refine ⟨?_, segment, hdealloc, fun j => ?_⟩
    · rw [hl.free.onFreeChain_iff]
      exact hl.notFree x hx
    · rw [hfree.onFreeChain_iff, hl.free.onFreeChain_iff, List.mem_cons]
  case returns => exact hl.allocate_isSome
  case outOfMemory =>
    intro e segment halloc
    rw [← hchunks]
    exact hl.length_of_err halloc
  case counted => exact hl.counted

/-- Two chunks of 16 bytes for payloads of 12, both handed out. -/
theorem chunk_layout_sound_two :
    ∃ s : Handle, s.live = [⟨.new 7#16 80, 1#32⟩, ⟨.new 7#16 64, 0#32⟩]
      ∧ Sound 12#64 2#32 7#16 s := by
  obtain ⟨seg, hcreate, hsound⟩ :=
    chunk_layout_sound 12#64 2#32 7#16 (by decide) (by decide) (by decide) (by decide)
  have hrun : ((DataSegment.create (12#64).toNat (2#32).toNat 7#16).bind (fun seg =>
      exec Handle.step ⟨seg, []⟩ [.allocate, .allocate])).map Handle.live
      = some [⟨.new 7#16 80, 1#32⟩, ⟨.new 7#16 64, 0#32⟩] := by decide
  rw [hcreate, Option.bind_some] at hrun
  obtain ⟨s, hs, hlive⟩ := Option.map_eq_some_iff.mp hrun
  exact ⟨s, hlive, hsound s (Reach.of_exec _ .refl hs)⟩

end Entangle.Transport.ChunkLayout
