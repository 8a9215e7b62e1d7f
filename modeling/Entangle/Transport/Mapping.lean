/-
  Entangle.Transport.Mapping — `DataSegment::create` and `DataSegment::open` on
  a mapped shared-memory object, in the wrapping arithmetic of a release build
  (entangle-transport/src/data_segment.rs, pool_alloc.rs).

  The creator computes the chunk size and the total size in 64 bits; the header
  it leaves for others has 32 bits for the chunk size.  A rounded chunk size
  below 2^32 keeps its value there, and with a 32-bit chunk count the total
  cannot wrap either (`fits_of_small`); a larger one is read back as another
  (`header_differs`).

  Main results:
    * `createSegment_ok`, `createSegment_refused` — what `create` does;
    * `openSegment_after` — what `open` reads back;
    * `layout_represented_iff` — when the two handles agree;
    * `layout_misread` — a chunk size above 2^32, and one whose total wraps.
-/
import Entangle.Platform.SharedMemory
import Entangle.Transport.ChunkLayout

namespace Entangle.Transport.Mapping

open Entangle.Lib Entangle.Lockfree Entangle.Platform Entangle.Platform.SharedMemory
open Entangle.Transport.ChunkLayout

/-! ## §1. The two constructors. -/

/-- `SegmentHeader`. -/
structure SegmentHeader where
  chunkSize : U32
  chunkCount : U32
  deriving Repr, DecidableEq

/-- A handle on a mapped segment, as `create` and `open` make it. -/
structure MappedSegment where
  shm : Mapping
  chunkSize : U64
  chunkCount : U32
  segmentId : U16
  deriving Repr, DecidableEq

/-- The assertions of `PoolAllocator::new` and `UniqueIndexSet::new`. -/
def PoolAccepts (chunkCount : U32) (chunkSize : U64) : Prop :=
  chunkSize ≠ 0#64 ∧ chunkCount ≠ 0#32 ∧ chunkCount ≠ SENTINEL

instance decidablePoolAccepts (chunkCount : U32) (chunkSize : U64) :
    Decidable (PoolAccepts chunkCount chunkSize) :=
  inferInstanceAs (Decidable (_ ∧ _))

variable (target : Target)

/-- `DataSegment::create`; `none` where it panics. -/
def createSegment (os : Os) (names : Names SegmentHeader) (name : String) (chunkSize : U64)
    (chunkCount : U32) (segmentId : U16) :
    Option (Except PlatformError MappedSegment × Names SegmentHeader) :=
  match SharedMemory.create target ⟨0#32, 0#32⟩ os names name
      (totalSize chunkSize chunkCount).toNat with
  | (.error e, names') => some (.error e, names')
  | (.ok shm, names') =>
      let header : SegmentHeader :=
        { chunkSize := (align8 chunkSize).setWidth 32, chunkCount := chunkCount }
      if PoolAccepts chunkCount (align8 chunkSize) then
        some (.ok
          { shm := shm
            chunkSize := align8 chunkSize
            chunkCount := chunkCount
            segmentId := segmentId },
          Function.update names' shm.name (some ⟨shm.size, header⟩))
      else none

/-- `DataSegment::open`; `none` where it panics. -/
def openSegment (os : Os) (names : Names SegmentHeader) (name : String) (segmentId : U16) :
    Option (Except PlatformError MappedSegment) :=
  match SharedMemory.openExisting target os names name with
  | .error e => some (.error e)
  | .ok shm =>
      (names shm.name).bind (fun object =>
        let chunkSize := object.content.chunkSize.setWidth 64
        if PoolAccepts object.content.chunkCount chunkSize then
          some (.ok
            { shm := shm
              chunkSize := chunkSize
              chunkCount := object.content.chunkCount
              segmentId := segmentId })
        else none)

/-- The pointer offset `allocate` makes of a chunk index. -/
def MappedSegment.chunk (seg : MappedSegment) (i : U32) : PointerOffset :=
  .new seg.segmentId (byteOffset seg.chunkSize i).toNat

/-! ## §2. What they do. -/

/-- `create` does not return Ok. -/
def Refused (os : Os) (names : Names SegmentHeader) (name : String) (chunkSize : U64)
    (chunkCount : U32) : Prop :=
  OpenFails target os names name ∨ ¬ Completes os (totalSize chunkSize chunkCount).toNat
    ∨ ¬ PoolAccepts chunkCount (align8 chunkSize)

section Create

variable {target} {os : Os} {names : Names SegmentHeader} {name : String} {chunkSize : U64}
  {chunkCount : U32}

/-- The table once the segment has been created. -/
def afterCreate (target : Target) (names : Names SegmentHeader) (name : String)
    (chunkSize : U64) (chunkCount : U32) : Names SegmentHeader :=
  Function.update names (normalizeName target name)
    (some ⟨(totalSize chunkSize chunkCount).toNat,
      { chunkSize := (align8 chunkSize).setWidth 32, chunkCount := chunkCount }⟩)

theorem createSegment_ok (h : ¬ Refused target os names name chunkSize chunkCount)
    (segmentId : U16) :
    createSegment target os names name chunkSize chunkCount segmentId
      = some (.ok
          { shm := ⟨(totalSize chunkSize chunkCount).toNat, normalizeName target name, true⟩
            chunkSize := align8 chunkSize
            chunkCount := chunkCount
            segmentId := segmentId },
          afterCreate target names name chunkSize chunkCount) := by
  simp only [Refused, not_or, not_not] at h
  obtain ⟨hopen, hcompletes, haccepts⟩ := h
  unfold createSegment
  simp only [create_completes target _ hopen hcompletes, if_pos haccepts, Function.update_idem]
  rfl

theorem createSegment_refused (h : Refused target os names name chunkSize chunkCount)
    (segmentId : U16) (seg : MappedSegment) (names' : Names SegmentHeader) :
    createSegment target os names name chunkSize chunkCount segmentId ≠ some (.ok seg, names') := by
  unfold createSegment
  by_cases hopen : OpenFails target os names name
  · obtain ⟨e, he⟩ := create_openFails target (⟨0#32, 0#32⟩ : SegmentHeader) hopen
      (totalSize chunkSize chunkCount).toNat
    simp [he]
  · by_cases hcompletes : Completes os (totalSize chunkSize chunkCount).toNat
    · have haccepts := (h.resolve_left hopen).resolve_left (not_not_intro hcompletes)
      simp [create_completes target _ hopen hcompletes, if_neg haccepts]
    · obtain ⟨e, object, he⟩ := create_fails target (⟨0#32, 0#32⟩ : SegmentHeader) hopen hcompletes
      simp [he]

/-- What `open` makes of the header that `create` has left. -/
theorem openSegment_after (h : ¬ Refused target os names name chunkSize chunkCount)
    (hfstat : os.fstat = none) (segmentId : U16) :
    openSegment target os (afterCreate target names name chunkSize chunkCount) name segmentId
      = if PoolAccepts chunkCount (((align8 chunkSize).setWidth 32).setWidth 64) then
          some (.ok
            { shm := ⟨(totalSize chunkSize chunkCount).toNat, normalizeName target name, false⟩
              chunkSize := ((align8 chunkSize).setWidth 32).setWidth 64
              chunkCount := chunkCount
              segmentId := segmentId })
        else none := by
  simp only [Refused, not_or, not_not] at h
  obtain ⟨hopen, hcompletes, _⟩ := h
  simp only [OpenFails, not_or, Option.not_isSome_iff_eq_none] at hopen
  have hmap := doMmap_ok hcompletes.2.1 hcompletes.2.2 (normalizeName target name)
  unfold openSegment SharedMemory.openExisting afterCreate
  simp only [Function.update_self, hopen.2, hfstat, hmap, Option.bind_some]

end Create

/-! ## §3. Small and large chunk sizes. -/

section Sizes

variable {chunkSize : U64} {chunkCount : U32}

theorem aligned_of_small (h : chunkSize.toNat ≤ 2 ^ 32 - 8) :
    DataSegment.aligned chunkSize.toNat ≤ 2 ^ 32 - 8 := by
  unfold DataSegment.aligned
  omega

/-- A total below 2^64 is computed as it is meant. -/
theorem totalSize_of_small (h : chunkSize.toNat ≤ 2 ^ 32 - 8) :
    (totalSize chunkSize chunkCount).toNat
      = 64 + DataSegment.aligned chunkSize.toNat * chunkCount.toNat := by
  have hmul : DataSegment.aligned chunkSize.toNat * chunkCount.toNat
      ≤ (2 ^ 32 - 8) * (2 ^ 32 - 1) :=
    Nat.mul_le_mul (aligned_of_small h) (Nat.le_sub_one_of_lt chunkCount.isLt)
  exact ChunkLayout.totalSize_toNat (by omega) (by omega)

/-- **Below 2^32 the layout fits**, if it can be mapped at all. -/
theorem fits_of_small (h : chunkSize.toNat ≤ 2 ^ 32 - 8)
    (haccepts : PoolAccepts chunkCount (align8 chunkSize))
    (hmapped : (totalSize chunkSize chunkCount).toNat < 2 ^ 48) : Fits chunkSize chunkCount where
  size := by
    by_contra hzero
    apply haccepts.1
    apply BitVec.eq_of_toNat_eq
    rw [ChunkLayout.align8_toNat (by omega), DataSegment.aligned, BitVec.toNat_zero]
    omega
  count := by
    by_contra hzero
    apply haccepts.2.1
    apply BitVec.eq_of_toNat_eq
    rw [BitVec.toNat_zero]
    omega
  total := by
    rw [← totalSize_of_small h]
    exact hmapped

/-- The header keeps the value. -/
theorem header_same (h : Fits chunkSize chunkCount) (hsmall : chunkSize.toNat ≤ 2 ^ 32 - 8) :
    ((align8 chunkSize).setWidth 32).setWidth 64 = align8 chunkSize := by
  have hlt := aligned_of_small hsmall
  apply BitVec.eq_of_toNat_eq
  rw [BitVec.toNat_setWidth, BitVec.toNat_setWidth, h.align8_toNat]
  omega

/-- From 2^32 on it does not. -/
theorem header_differs (hlarge : 2 ^ 32 - 8 < chunkSize.toNat) (hne : align8 chunkSize ≠ 0#64) :
    ((align8 chunkSize).setWidth 32).setWidth 64 ≠ align8 chunkSize := by
  intro hsame
  have hlt : (align8 chunkSize).toNat < 2 ^ 32 := by
    rw [← hsame, BitVec.toNat_setWidth, BitVec.toNat_setWidth]
    omega
  by_cases hwrap : chunkSize.toNat + 7 < 2 ^ 64
  · rw [ChunkLayout.align8_toNat hwrap, DataSegment.aligned] at hlt
    omega
  · -- the rounding wraps to zero
    apply hne
    have hsmall : chunkSize.toNat + 7 - 2 ^ 64 < 8 := by
      have hlt' := chunkSize.isLt
      omega
    have hsum : chunkSize + 7#64 = BitVec.ofNat 64 (chunkSize.toNat + 7 - 2 ^ 64) := by
      have hrest : (BitVec.ofNat 64 (chunkSize.toNat + 7 - 2 ^ 64)).toNat
          = chunkSize.toNat + 7 - 2 ^ 64 := by
        rw [BitVec.toNat_ofNat]
        exact Nat.mod_eq_of_lt (by omega)
      apply BitVec.eq_of_toNat_eq
      rw [BitVec.toNat_add, hrest]
      show (chunkSize.toNat + 7) % 2 ^ 64 = _
      omega
    apply BitVec.eq_of_toNat_eq
    rw [align8, hsum, and_not_seven _ (by omega), BitVec.toNat_zero]
    omega

end Sizes

/-! ## §4. Do the two handles agree? -/

/-- The offset is the start of a chunk of the handle, all of it mapped. -/
def WholeChunk (seg : MappedSegment) (offset : PointerOffset) : Prop :=
  ∃ j : U32, j.toNat < seg.chunkCount.toNat
    ∧ offset.offset = 64 + j.toNat * seg.chunkSize.toNat
    ∧ offset.offset + seg.chunkSize.toNat ≤ seg.shm.size

/-- Two handles on one segment read the same layout. -/
structure Agrees (seg seg' : MappedSegment) : Prop where
  chunkSize : seg'.chunkSize = seg.chunkSize
  chunkCount : seg'.chunkCount = seg.chunkCount
  forth : ∀ i : U32, i.toNat < seg.chunkCount.toNat → WholeChunk seg' (seg.chunk i)
  back : ∀ i : U32, i.toNat < seg'.chunkCount.toNat → WholeChunk seg (seg'.chunk i)

/-- If `create` returns Ok, the mapping is as large as it is meant to be and
`open` gives a handle that agrees with the creator's. -/
def Represented (os : Os) (names : Names SegmentHeader) (name : String) (chunkSize : U64)
    (chunkCount : U32) : Prop :=
  ∀ segmentId seg names',
    createSegment target os names name chunkSize chunkCount segmentId = some (.ok seg, names') →
      64 + chunkSize.toNat * chunkCount.toNat ≤ seg.shm.size
        ∧ ∀ segmentId', ∃ seg', openSegment target os names' name segmentId' = some (.ok seg')
          ∧ Agrees seg seg'

/-- What is documented of the system calls: `fstat` of an open descriptor
succeeds, and no mapping is larger than the address space. -/
structure Documented (os : Os) : Prop where
  fstat : os.fstat = none
  limit : ∀ n, os.mmap n = none → n < 2 ^ 48

theorem wholeChunk_of_fits {chunkSize : U64} {chunkCount : U32} (h : Fits chunkSize chunkCount)
    {seg seg' : MappedSegment} (hsize : seg.chunkSize = align8 chunkSize)
    (hsize' : seg'.chunkSize = align8 chunkSize) (hcount' : seg'.chunkCount = chunkCount)
    (hshm : seg'.shm.size = (totalSize chunkSize chunkCount).toNat) {i : U32}
    (hi : i.toNat < chunkCount.toNat) : WholeChunk seg' (seg.chunk i) := by
  have htotal := h.total
  have hend := chunk_end_le (DataSegment.aligned chunkSize.toNat) hi
  have hoffset : (seg.chunk i).offset = 64 + i.toNat * DataSegment.aligned chunkSize.toNat := by
    rw [MappedSegment.chunk, hsize, h.byteOffset_toNat hi]
    exact PointerOffset.offset_new _ (by omega)
  refine ⟨i, ?_, ?_, ?_⟩
  · rw [hcount']
    exact hi
  · rw [hoffset, hsize', h.align8_toNat]
  · rw [hoffset, hsize', h.align8_toNat, hshm, h.totalSize_toNat]
    omega

/-- **The layout is represented iff** `create` refuses it or the chunk size
fits the header. -/
theorem layout_represented_iff {os : Os} (hos : Documented os) (names : Names SegmentHeader)
    (name : String) (chunkSize : U64) (chunkCount : U32) :
    Represented target os names name chunkSize chunkCount
      ↔ Refused target os names name chunkSize chunkCount ∨ chunkSize.toNat ≤ 2 ^ 32 - 8 := by
  constructor
  · intro hrep
    by_contra hneither
    obtain ⟨hcreated, hlarge⟩ := not_or.mp hneither
    obtain ⟨_, hopens⟩ := hrep 0#16 _ _ (createSegment_ok hcreated 0#16)
    obtain ⟨seg', hopen, hagrees⟩ := hopens 0#16
    rw [openSegment_after hcreated hos.fstat] at hopen
    have hne : align8 chunkSize ≠ 0#64 := by
      intro hzero
      exact hcreated (.inr (.inr (fun haccepts => haccepts.1 hzero)))
    have hsize := hagrees.chunkSize
    split at hopen
    next =>
      simp only [Option.some.injEq, Except.ok.injEq] at hopen
      subst hopen
      exact header_differs (Nat.lt_of_not_le hlarge) hne hsize
    next => exact absurd hopen (by simp)
  · intro h segmentId seg names' hcreate
    by_cases hcreated : Refused target os names name chunkSize chunkCount
    · exact absurd hcreate (createSegment_refused hcreated segmentId seg names')
    · have hsmall := h.resolve_left hcreated
      have hparts := hcreated
      simp only [Refused, not_or, not_not] at hparts
      obtain ⟨_, hcompletes, haccepts⟩ := hparts
      have hfits := fits_of_small hsmall haccepts (hos.limit _ hcompletes.2.2)
      rw [createSegment_ok hcreated, Option.some.injEq, Prod.mk.injEq, Except.ok.injEq] at hcreate
      obtain ⟨rfl, rfl⟩ := hcreate
      refine ⟨?_, fun segmentId' => ?_⟩
      · show _ ≤ (totalSize chunkSize chunkCount).toNat
        rw [hfits.totalSize_toNat]
        have hle := Nat.mul_le_mul_right chunkCount.toNat (Fits.size_le chunkSize.toNat)
        omega
      · have hopen := openSegment_after hcreated hos.fstat segmentId'
        rw [header_same hfits hsmall, if_pos haccepts] at hopen
        exact ⟨_, hopen, rfl, rfl, fun i hi => wholeChunk_of_fits hfits rfl rfl rfl rfl hi,
          fun i hi => wholeChunk_of_fits hfits rfl rfl rfl rfl hi⟩

/-! ## §5. Layouts that are and are not represented. -/

/-- System calls that succeed for sizes below 2^47. -/
def mapsBelow47 : Os where
  shmOpen := none
  ftruncate := fun _ => none
  fstat := none
  mmap := fun n => if n < 2 ^ 47 then none else some "ENOMEM: Cannot allocate memory"

theorem mapsBelow47_documented : Documented mapsBelow47 where
  fstat := rfl
  limit := by
    intro n hn
    by_contra hlarge
    have hge : ¬ n < 2 ^ 47 := by omega
    have hfails : mapsBelow47.mmap n = some "ENOMEM: Cannot allocate memory" := if_neg hge
    rw [hfails] at hn
    exact absurd hn (by simp)

/-- Four chunks of 64 bytes. -/
theorem layout_represented_iff_small :
    Documented mapsBelow47
      ∧ Represented ⟨false, id⟩ mapsBelow47 (fun _ => none) "a" 64#64 4#32 :=
  ⟨mapsBelow47_documented,
    (layout_represented_iff ⟨false, id⟩ mapsBelow47_documented (fun _ => none) "a" 64#64 4#32).mpr
      (.inr (by decide))⟩

/-- **Layouts are misread**: with a chunk size of 2^32 + 8 the header says 8,
and the second handle works with chunks of 8 bytes; with eight chunks of 2^61
bytes the total wraps to the size of the header. -/
theorem layout_misread :
    (∃ seg names seg',
        createSegment ⟨false, id⟩ mapsBelow47 (fun _ => none) "a"
            (BitVec.ofNat 64 (2 ^ 32 + 8)) 2#32 0#16 = some (.ok seg, names)
          ∧ openSegment ⟨false, id⟩ mapsBelow47 names "a" 0#16 = some (.ok seg')
          ∧ seg.chunkSize.toNat = 2 ^ 32 + 8 ∧ seg'.chunkSize.toNat = 8)
      ∧ (∃ seg names,
        createSegment ⟨false, id⟩ mapsBelow47 (fun _ => none) "a" (BitVec.ofNat 64 (2 ^ 61)) 8#32
            0#16 = some (.ok seg, names) ∧ seg.shm.size = 64)
      ∧ ¬ Represented ⟨false, id⟩ mapsBelow47 (fun _ => none) "a" (BitVec.ofNat 64 (2 ^ 32 + 8))
          2#32 := by
  have hcreated : ¬ Refused ⟨false, id⟩ mapsBelow47 (fun _ => none) "a"
      (BitVec.ofNat 64 (2 ^ 32 + 8)) 2#32 := by
    unfold Refused OpenFails Completes
    decide
  have hwraps : ¬ Refused ⟨false, id⟩ mapsBelow47 (fun _ => none) "a"
      (BitVec.ofNat 64 (2 ^ 61)) 8#32 := by
    unfold Refused OpenFails Completes
    decide
  have hopen := openSegment_after hcreated rfl 0#16
  rw [if_pos (by decide)] at hopen
  refine ⟨⟨_, _, _, createSegment_ok hcreated 0#16, hopen, by decide, by decide⟩,
    ⟨_, _, createSegment_ok hwraps 0#16, by decide⟩, fun hrep => ?_⟩
  obtain ⟨_, hopens⟩ := hrep 0#16 _ _ (createSegment_ok hcreated 0#16)
  obtain ⟨seg', hopen', hagrees⟩ := hopens 0#16
  rw [hopen, Option.some.injEq, Except.ok.injEq] at hopen'
  subst hopen'
  exact absurd hagrees.chunkSize (by decide)

end Entangle.Transport.Mapping
