/-
  Entangle.Lockfree.IndexSet — `UniqueIndexSet` (entangle-lockfree/src/index_set.rs).

  The free indices form a linked list threaded through `next`; the head index
  and an ABA tag share one 64-bit word.  This file has the data structure, the
  word packing, and `acquire`/`release` as calls that run without interference
  (the individual atomic accesses are in `IndexSetSteps`).

  Specification of the calls (`FreeList s l` : the free list of `s` is `l`):
    * `acquire_err` — an empty list gives `AcquireError`;
    * `acquire_ok` — otherwise the head index is handed out;
    * `release_ok` — an index off the list becomes the new head.
-/
import Entangle.Lib.TaggedStack
import Entangle.Lib.Word
import Mathlib.Data.List.Range

namespace Entangle.Lockfree

open Entangle.Lib

/-! ## §1. The head word. -/

/-- `head_index` value meaning "empty". -/
def SENTINEL : U32 := 0xFFFFFFFF#32

def HEAD_SHIFT : Nat := 32

def TAG_MASK : U64 := 0xFFFFFFFF#64

/-- `((head as u64) << HEAD_SHIFT) | (tag as u64 & TAG_MASK)`. -/
def pack (head tag : U32) : U64 :=
  (head.setWidth 64 <<< HEAD_SHIFT) ||| (tag.setWidth 64 &&& TAG_MASK)

def extractHead (val : U64) : U32 := (val >>> HEAD_SHIFT).setWidth 32

def extractTag (val : U64) : U32 := (val &&& TAG_MASK).setWidth 32

theorem TAG_MASK_toNat : TAG_MASK.toNat = 2 ^ 32 - 1 := by decide

theorem pack_toNat (h t : U32) : (pack h t).toNat = h.toNat * 2 ^ 32 + t.toNat := by
  have hh := h.isLt
  have ht := t.isLt
  have hmask : TAG_MASK = BitVec.ofNat 64 (2 ^ 32 - 1) := by decide
  rw [pack, HEAD_SHIFT, hmask, ← BitVec.ofNat_toNat, ← BitVec.ofNat_toNat,
      shiftLeft_or_mask_toNat 64 32 _ _ (by omega) (by omega), Nat.mod_eq_of_lt ht]

theorem extractHead_toNat (v : U64) : (extractHead v).toNat = v.toNat / 2 ^ 32 := by
  have := v.isLt
  simp only [extractHead, HEAD_SHIFT, BitVec.toNat_setWidth, BitVec.toNat_ushiftRight,
    Nat.shiftRight_eq_div_pow]
  omega

theorem extractTag_toNat (v : U64) : (extractTag v).toNat = v.toNat % 2 ^ 32 := by
  simp only [extractTag, BitVec.toNat_setWidth, BitVec.toNat_and, TAG_MASK_toNat]
  rw [Nat.and_two_pow_sub_one_eq_mod]
  omega

@[simp] theorem extractHead_pack (h t : U32) : extractHead (pack h t) = h := by
  have ht := t.isLt
  apply BitVec.eq_of_toNat_eq
  rw [extractHead_toNat, pack_toNat]
  omega

@[simp] theorem extractTag_pack (h t : U32) : extractTag (pack h t) = t := by
  have ht := t.isLt
  apply BitVec.eq_of_toNat_eq
  rw [extractTag_toNat, pack_toNat]
  omega

/-! ## §2. The structure. -/

/-- `UniqueIndexSet`.  The capacity bounds are the assertion of `new`. -/
structure UniqueIndexSet where
  head : U64
  capacity : Nat
  next : Vector U32 capacity
  borrowed : U32
  capacity_pos : 0 < capacity
  capacity_lt : capacity < SENTINEL.toNat

/-- Error returned when no more indices are available. -/
inductive AcquireError where
  | noFreeIndices
  deriving Repr, DecidableEq

namespace UniqueIndexSet

/-- `UniqueIndexSet::new`: all indices free, `0 → 1 → … → capacity - 1`. -/
def new (capacity : Nat) (hpos : 0 < capacity) (hlt : capacity < SENTINEL.toNat) :
    UniqueIndexSet where
  head := pack 0#32 0#32
  capacity := capacity
  next := Vector.ofFn (fun i : Fin capacity =>
    if i.val + 1 < capacity then BitVec.ofNat 32 (i.val + 1) else SENTINEL)
  borrowed := 0#32
  capacity_pos := hpos
  capacity_lt := hlt

/-- `self.next[i as usize]`; `none` where the slice access panics. -/
def nextAt (s : UniqueIndexSet) (i : U32) : Option U32 := s.next[i.toNat]?

/-- `self.next[i as usize].store(v)`, for an index in bounds. -/
def setNext (s : UniqueIndexSet) (i v : U32) : UniqueIndexSet :=
  { s with next := s.next.setIfInBounds i.toNat v }

/-- `acquire` run without interference.  `none`: the slice access panics. -/
def acquire (s : UniqueIndexSet) : Option (Except AcquireError U32 × UniqueIndexSet) :=
  let headIdx := extractHead s.head
  if headIdx = SENTINEL then
    some (.error .noFreeIndices, s)
  else
    (s.nextAt headIdx).map (fun nextIdx =>
      (.ok headIdx, { s with
        head := pack nextIdx (extractTag s.head + 1)
        borrowed := s.borrowed + 1 }))

/-- `release` run without interference.  `none`: the slice access panics. -/
def release (s : UniqueIndexSet) (index : U32) : Option UniqueIndexSet :=
  if index.toNat < s.capacity then
    some { s.setNext index (extractHead s.head) with
      head := pack index (extractTag s.head + 1)
      borrowed := s.borrowed - 1 }
  else none

def borrowedCount (s : UniqueIndexSet) : U32 := s.borrowed

/-- `capacity.saturating_sub(borrowed_count)`. -/
def available (s : UniqueIndexSet) : Nat := s.capacity - s.borrowedCount.toNat

/-! ## §3. The free list. -/

/-- The free list of `s` is `l`. -/
def FreeList (s : UniqueIndexSet) (l : List U32) : Prop :=
  Linked s.nextAt SENTINEL (extractHead s.head) l

theorem nextAt_some_iff (s : UniqueIndexSet) (i : U32) :
    (∃ n, s.nextAt i = some n) ↔ i.toNat < s.capacity := by
  unfold nextAt
  constructor
  · rintro ⟨n, hn⟩
    exact (Vector.getElem?_eq_some_iff.mp hn).1
  · intro h
    exact ⟨s.next[i.toNat], Vector.getElem?_eq_getElem h⟩

/-- An index in bounds is not the end marker. -/
theorem ne_sentinel (s : UniqueIndexSet) {i : U32} (h : i.toNat < s.capacity) :
    i ≠ SENTINEL := by
  rintro rfl
  have := s.capacity_lt
  omega

@[simp] theorem setNext_head (s : UniqueIndexSet) (i v : U32) :
    (s.setNext i v).head = s.head := rfl

@[simp] theorem setNext_capacity (s : UniqueIndexSet) (i v : U32) :
    (s.setNext i v).capacity = s.capacity := rfl

@[simp] theorem setNext_borrowed (s : UniqueIndexSet) (i v : U32) :
    (s.setNext i v).borrowed = s.borrowed := rfl

theorem nextAt_setNext_self (s : UniqueIndexSet) {i : U32} (v : U32)
    (h : i.toNat < s.capacity) : (s.setNext i v).nextAt i = some v := by
  show (s.next.setIfInBounds i.toNat v)[i.toNat]? = some v
  rw [Vector.getElem?_setIfInBounds, if_pos rfl, if_pos h]

theorem nextAt_setNext_ne (s : UniqueIndexSet) {i j : U32} (v : U32) (h : j ≠ i) :
    (s.setNext i v).nextAt j = s.nextAt j := by
  have hne : i.toNat ≠ j.toNat := fun he => h (BitVec.eq_of_toNat_eq he.symm)
  show (s.next.setIfInBounds i.toNat v)[j.toNat]? = s.next[j.toNat]?
  rw [Vector.getElem?_setIfInBounds, if_neg hne]

/-- Members of the free list are in bounds. -/
theorem FreeList.lt {s : UniqueIndexSet} {l : List U32} (h : s.FreeList l) {i : U32}
    (hi : i ∈ l) : i.toNat < s.capacity :=
  (s.nextAt_some_iff i).mp (Linked.next_isSome h hi)

theorem FreeList.nodup {s : UniqueIndexSet} {l : List U32} (h : s.FreeList l) : l.Nodup :=
  Linked.nodup h

/-- Writing `next` off the list keeps the list. -/
theorem FreeList.setNext {s : UniqueIndexSet} {l : List U32} (h : s.FreeList l) {i : U32}
    (hi : i ∉ l) (v : U32) : (s.setNext i v).FreeList l := by
  refine Linked.congr h (fun j hj => s.nextAt_setNext_ne v ?_)
  rintro rfl
  exact hi hj

/-- The head is the end marker exactly when the list is empty. -/
theorem FreeList.head_eq_sentinel_iff {s : UniqueIndexSet} {l : List U32}
    (h : s.FreeList l) : extractHead s.head = SENTINEL ↔ l = [] := by
  constructor
  · intro hs
    unfold FreeList at h
    rw [hs] at h
    exact h.eq_nil
  · rintro rfl
    exact h

/-- All indices start as free, in increasing order. -/
theorem new_freeList (capacity : Nat) (hpos : 0 < capacity) (hlt : capacity < SENTINEL.toNat) :
    (new capacity hpos hlt).FreeList ((List.range capacity).map (BitVec.ofNat 32)) := by
  have hs : SENTINEL.toNat = 4294967295 := by decide
  have h32 : ∀ k, k < capacity → (BitVec.ofNat 32 k).toNat = k := by
    intro k hk
    rw [BitVec.toNat_ofNat, Nat.mod_eq_of_lt (by omega)]
  show Linked _ SENTINEL (extractHead (pack 0#32 0#32)) _
  rw [extractHead_pack, List.range_eq_range']
  apply Linked.successors (c := capacity) _ _ capacity 0 (by omega) hpos
  · intro k hk
    apply (new capacity hpos hlt).ne_sentinel
    rw [h32 k hk]
    exact hk
  · intro k hk
    show (Vector.ofFn _)[(BitVec.ofNat 32 k).toNat]? = _
    rw [h32 k hk, Vector.getElem?_ofFn, dif_pos hk]

/-! ## §4. The calls. -/

theorem acquire_err {s : UniqueIndexSet} (h : s.FreeList []) :
    s.acquire = some (.error .noFreeIndices, s) := by
  simp [acquire, h.head_eq_sentinel_iff.mpr rfl]

/-- A non-empty list hands out its head. -/
theorem acquire_ok {s : UniqueIndexSet} {i : U32} {l : List U32} (h : s.FreeList (i :: l)) :
    ∃ s', s.acquire = some (.ok i, s') ∧ s'.FreeList l ∧ s'.capacity = s.capacity
      ∧ s'.borrowed = s.borrowed + 1 := by
  obtain ⟨hhead, hi, n, hn, hrest⟩ := h
  refine ⟨{ s with head := pack n (extractTag s.head + 1), borrowed := s.borrowed + 1 },
    ?_, ?_, rfl, rfl⟩
  · show (if _ then _ else _) = _
    rw [if_neg (by rw [hhead]; exact hi), hhead, hn]
    rfl
  · show Linked s.nextAt SENTINEL (extractHead (pack n _)) l
    rw [extractHead_pack]
    exact hrest

/-- Releasing an index off the list makes it the head. -/
theorem release_ok {s : UniqueIndexSet} {i : U32} {l : List U32} (h : s.FreeList l)
    (hlt : i.toNat < s.capacity) (hi : i ∉ l) :
    ∃ s', s.release i = some s' ∧ s'.FreeList (i :: l) ∧ s'.capacity = s.capacity
      ∧ s'.borrowed = s.borrowed - 1 := by
  refine ⟨_, if_pos hlt, ?_, rfl, rfl⟩
  show Linked (s.setNext i (extractHead s.head)).nextAt SENTINEL (extractHead (pack i _)) (i :: l)
  rw [extractHead_pack]
  exact Linked.push (h.setNext hi _) (s.ne_sentinel hlt) (s.nextAt_setNext_self _ hlt)

end UniqueIndexSet

end Entangle.Lockfree
