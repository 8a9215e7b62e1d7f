/-
  Entangle.Lockfree.MpmcContainer — `MpmcContainer` (entangle-lockfree/src/mpmc_container.rs).

  A table of 64-bit values.  The slots not in use form a linked list as in
  `UniqueIndexSet`, threaded through `next` from a tagged head word; the slots
  in use have their bit set in `occupied`.

  This file has the structure and its accessors.  `add` and `remove` touch the
  three parts in different orders, so they are given access by access, in
  `MpmcSteps`.
-/
import Entangle.Lib.TaggedStack
import Entangle.Lockfree.AtomicBitSet
import Entangle.Lockfree.IndexSet

namespace Entangle.Lockfree

open Entangle.Lib

/-- `MpmcContainer`.  `capacity_pos` is the assertion of `new`, `capacity_lt`
the range of a `u32`. -/
structure MpmcContainer where
  capacity : Nat
  data : Vector U64 capacity
  occupied : AtomicBitSet
  freeHead : U64
  next : Vector U32 capacity
  capacity_pos : 0 < capacity
  capacity_lt : capacity < 2 ^ 32
  occupied_capacity : occupied.capacity = capacity

namespace MpmcContainer

/-! ## §1. The head word. -/

/-- `((head as u64) << 32) | (tag as u64)`. -/
def packHead (head tag : U32) : U64 := (head.setWidth 64 <<< 32) ||| tag.setWidth 64

/-- `(val >> 32) as u32`. -/
def extractHead (val : U64) : U32 := (val >>> 32).setWidth 32

/-- `val as u32`. -/
def extractTag (val : U64) : U32 := val.setWidth 32

theorem packHead_eq_pack (head tag : U32) : packHead head tag = pack head tag := by
  have hmask : tag.setWidth 64 &&& TAG_MASK = tag.setWidth 64 := by
    have := tag.isLt
    apply BitVec.eq_of_toNat_eq
    rw [BitVec.toNat_and, TAG_MASK_toNat, Nat.and_two_pow_sub_one_eq_mod, BitVec.toNat_setWidth]
    omega
  unfold packHead pack HEAD_SHIFT
  rw [hmask]

@[simp] theorem extractHead_packHead (head tag : U32) : extractHead (packHead head tag) = head := by
  rw [packHead_eq_pack]
  exact extractHead_pack head tag

@[simp] theorem extractTag_packHead (head tag : U32) : extractTag (packHead head tag) = tag := by
  have ht := tag.isLt
  apply BitVec.eq_of_toNat_eq
  rw [packHead_eq_pack, extractTag, BitVec.toNat_setWidth, pack_toNat]
  omega

/-! ## §2. The structure. -/

/-- `MpmcContainer::new`: no slot occupied, the free list `0 → 1 → … → capacity - 1`. -/
def new (capacity : Nat) (hpos : 0 < capacity) (hlt : capacity < 2 ^ 32) : MpmcContainer where
  capacity := capacity
  data := Vector.replicate capacity 0#64
  occupied := AtomicBitSet.new capacity
  freeHead := packHead 0#32 0#32
  next := Vector.ofFn (fun i : Fin capacity =>
    if i.val + 1 < capacity then BitVec.ofNat 32 (i.val + 1) else SENTINEL)
  capacity_pos := hpos
  capacity_lt := hlt
  occupied_capacity := rfl

/-- `self.data[slot as usize].load()`; `none` where the slice access panics. -/
def dataAt (c : MpmcContainer) (slot : U32) : Option U64 := c.data[slot.toNat]?

/-- `self.data[slot as usize].store(value)`, for a slot in bounds. -/
def setData (c : MpmcContainer) (slot : U32) (value : U64) : MpmcContainer :=
  { c with data := c.data.setIfInBounds slot.toNat value }

/-- `self.next[i as usize].load()`; `none` where the slice access panics. -/
def nextAt (c : MpmcContainer) (i : U32) : Option U32 := c.next[i.toNat]?

/-- `self.next[i as usize].store(v)`, for an index in bounds. -/
def setNext (c : MpmcContainer) (i v : U32) : MpmcContainer :=
  { c with next := c.next.setIfInBounds i.toNat v }

/-- The word of `occupied` that holds the bit of `slot` becomes `word`. -/
def setWord (c : MpmcContainer) (slot : U32) (word : U64) : MpmcContainer :=
  { c with occupied := c.occupied.store slot word }

/-- The bit of `slot` is set. -/
def Occupied (c : MpmcContainer) (slot : U32) : Prop := c.occupied.isSet slot = some true

/-! ## §3. Accessors. -/

theorem nextAt_some_iff (c : MpmcContainer) (i : U32) :
    (∃ n, c.nextAt i = some n) ↔ i.toNat < c.capacity := by
  unfold nextAt
  constructor
  · rintro ⟨n, hn⟩
    exact (Vector.getElem?_eq_some_iff.mp hn).1
  · intro h
    exact ⟨c.next[i.toNat], Vector.getElem?_eq_getElem h⟩

theorem dataAt_isSome (c : MpmcContainer) {slot : U32} (h : slot.toNat < c.capacity) :
    ∃ v, c.dataAt slot = some v :=
  ⟨c.data[slot.toNat], Vector.getElem?_eq_getElem h⟩

/-- An index in bounds is not the end marker. -/
theorem ne_sentinel (c : MpmcContainer) {i : U32} (h : i.toNat < c.capacity) :
    i ≠ SENTINEL := by
  have hs : SENTINEL.toNat = 2 ^ 32 - 1 := by decide
  have := c.capacity_lt
  rintro rfl
  omega

theorem load_isSome (c : MpmcContainer) {slot : U32} (h : slot.toNat < c.capacity) :
    ∃ word, c.occupied.load slot = some word := by
  apply c.occupied.load_isSome
  rw [c.occupied_capacity]
  exact h

theorem nextAt_setNext_self (c : MpmcContainer) {i : U32} (v : U32) (h : i.toNat < c.capacity) :
    (c.setNext i v).nextAt i = some v := by
  show (c.next.setIfInBounds i.toNat v)[i.toNat]? = some v
  rw [Vector.getElem?_setIfInBounds, if_pos rfl, if_pos h]

theorem nextAt_setNext_ne (c : MpmcContainer) {i j : U32} (v : U32) (h : j ≠ i) :
    (c.setNext i v).nextAt j = c.nextAt j := by
  have hne : i.toNat ≠ j.toNat := fun he => h (BitVec.eq_of_toNat_eq he.symm)
  show (c.next.setIfInBounds i.toNat v)[j.toNat]? = c.next[j.toNat]?
  rw [Vector.getElem?_setIfInBounds, if_neg hne]

theorem dataAt_setData_self (c : MpmcContainer) {slot : U32} (v : U64)
    (h : slot.toNat < c.capacity) : (c.setData slot v).dataAt slot = some v := by
  show (c.data.setIfInBounds slot.toNat v)[slot.toNat]? = some v
  rw [Vector.getElem?_setIfInBounds, if_pos rfl, if_pos h]

theorem dataAt_setData_ne (c : MpmcContainer) {i j : U32} (v : U64) (h : j ≠ i) :
    (c.setData i v).dataAt j = c.dataAt j := by
  have hne : i.toNat ≠ j.toNat := fun he => h (BitVec.eq_of_toNat_eq he.symm)
  show (c.data.setIfInBounds i.toNat v)[j.toNat]? = c.data[j.toNat]?
  rw [Vector.getElem?_setIfInBounds, if_neg hne]

/-! ## §4. A new container. -/

/-- All slots start as free, in increasing order. -/
theorem new_linked (capacity : Nat) (hpos : 0 < capacity) (hlt : capacity < 2 ^ 32) :
    Linked (new capacity hpos hlt).nextAt SENTINEL (extractHead (new capacity hpos hlt).freeHead)
      ((List.range capacity).map (BitVec.ofNat 32)) := by
  have h32 : ∀ k, k < capacity → (BitVec.ofNat 32 k).toNat = k := by
    intro k hk
    rw [BitVec.toNat_ofNat, Nat.mod_eq_of_lt (by omega)]
  show Linked _ SENTINEL (extractHead (packHead 0#32 0#32)) _
  rw [extractHead_packHead, List.range_eq_range']
  apply Linked.successors (c := capacity) _ _ capacity 0 (by omega) hpos
  · intro k hk
    apply (new capacity hpos hlt).ne_sentinel
    rw [h32 k hk]
    exact hk
  · intro k hk
    show (Vector.ofFn _)[(BitVec.ofNat 32 k).toNat]? = _
    rw [h32 k hk, Vector.getElem?_ofFn, dif_pos hk]

theorem new_not_occupied (capacity : Nat) (hpos : 0 < capacity) (hlt : capacity < 2 ^ 32)
    (i : U32) : ¬ (new capacity hpos hlt).Occupied i :=
  AtomicBitSet.new_isSet capacity i

end MpmcContainer

end Entangle.Lockfree
