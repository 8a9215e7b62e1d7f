/-
  Entangle.Lockfree.MockIndexAllocator — `MockIndexAllocator` (contracts/mock.rs)
  and `UniqueIndexSet`, used by one thread.

  The mock keeps the free indices in a vector that is popped and pushed at its
  end.  `Lifo` says what both are for: an acquired index is the one released
  last, and when none is left of those, the smallest that was never handed out.
  Its calls are defined only where a release gives back an index that is held.

  Main results:
    * `indexSet_simulates`, `mock_simulates` — both follow `Lifo`, call by call;
    * `allocators_agree` — the same results on every sequence of calls.
-/
import Entangle.Lib.Calls
import Entangle.Lockfree.IndexSet
import Mathlib.Data.List.Perm.Basic

namespace Entangle.Lockfree

open Entangle.Lib

/-! ## §1. The mock. -/

/-- `MockIndexAllocator`; the top of the free list is its end. -/
structure MockIndexAllocator where
  freeList : List U32
  capacity : U32
  borrowed : U32
  deriving Repr, DecidableEq

namespace MockIndexAllocator

/-- `MockIndexAllocator::new`. -/
def new (capacity : U32) : MockIndexAllocator where
  freeList := ((List.range capacity.toNat).map (BitVec.ofNat 32)).reverse
  capacity := capacity
  borrowed := 0#32

/-- `free.pop()?`, then `borrowed += 1`.  `none`: the addition overflows. -/
def acquire (m : MockIndexAllocator) : Option (Option U32 × MockIndexAllocator) :=
  match m.freeList.getLast? with
  | none => some (none, m)
  | some idx =>
      if m.borrowed.toNat + 1 < 2 ^ 32 then
        some (some idx, { m with freeList := m.freeList.dropLast, borrowed := m.borrowed + 1 })
      else none

/-- `push(index)`, then `borrowed -= 1`.  `none`: the subtraction overflows. -/
def release (m : MockIndexAllocator) (index : U32) : Option MockIndexAllocator :=
  if 0 < m.borrowed.toNat then
    some { m with freeList := m.freeList ++ [index], borrowed := m.borrowed - 1 }
  else none

def borrowedCount (m : MockIndexAllocator) : U32 := m.borrowed

end MockIndexAllocator

/-! ## §2. Calls and their results. -/

inductive AllocatorCall where
  | acquire
  | release (index : U32)
  deriving Repr, DecidableEq

/-- The index that `acquire` has returned, and `borrowed_count` after the call. -/
structure Response where
  index : Option U32
  borrowed : U32
  deriving Repr, DecidableEq

def UniqueIndexSet.call (s : UniqueIndexSet) : AllocatorCall → Option (Response × UniqueIndexSet)
  | .acquire => s.acquire.map (fun p => (⟨p.1.toOption, p.2.borrowedCount⟩, p.2))
  | .release i => (s.release i).map (fun s' => (⟨none, s'.borrowedCount⟩, s'))

def MockIndexAllocator.call (m : MockIndexAllocator) :
    AllocatorCall → Option (Response × MockIndexAllocator)
  | .acquire => m.acquire.map (fun p => (⟨p.1, p.2.borrowedCount⟩, p.2))
  | .release i => (m.release i).map (fun m' => (⟨none, m'.borrowedCount⟩, m'))

/-! ## §3. What they are for. -/

/-- An allocator that hands out the index released last, then `0, 1, 2, …`. -/
structure Lifo where
  capacity : Nat
  -- released and not acquired again, the latest first
  released : List U32
  -- so many indices have been handed out for the first time
  fresh : Nat
  held : List U32
  deriving Repr, DecidableEq

namespace Lifo

def new (capacity : Nat) : Lifo :=
  { capacity := capacity, released := [], fresh := 0, held := [] }

def acquire (s : Lifo) : Option U32 × Lifo :=
  match s.released with
  | i :: released => (some i, { s with released := released, held := i :: s.held })
  | [] =>
      if s.fresh < s.capacity then
        let i := BitVec.ofNat 32 s.fresh
        (some i, { s with fresh := s.fresh + 1, held := i :: s.held })
      else (none, s)

/-- An index that is held. -/
def release (s : Lifo) (index : U32) : Option Lifo :=
  if s.held.contains index then
    some { s with released := index :: s.released, held := s.held.erase index }
  else none

def call (s : Lifo) : AllocatorCall → Option (Response × Lifo)
  | .acquire => some (⟨s.acquire.1, BitVec.ofNat 32 s.acquire.2.held.length⟩, s.acquire.2)
  | .release i => (s.release i).map (fun s' => (⟨none, BitVec.ofNat 32 s'.held.length⟩, s'))

/-- The free indices in the order in which they will be handed out. -/
def free (s : Lifo) : List U32 :=
  s.released ++ (List.range' s.fresh (s.capacity - s.fresh)).map (BitVec.ofNat 32)

/-- Every index below the capacity is held or free, once. -/
def Inv (s : Lifo) : Prop :=
  (s.held ++ s.free).Perm ((List.range s.capacity).map (BitVec.ofNat 32))

theorem inv_new (capacity : Nat) : (new capacity).Inv := by
  show ([] ++ ([] ++ (List.range' 0 (capacity - 0)).map (BitVec.ofNat 32))).Perm
    ((List.range capacity).map (BitVec.ofNat 32))
  rw [List.nil_append, List.nil_append, Nat.sub_zero, List.range_eq_range']

theorem acquire_nil {s : Lifo} (h : s.free = []) : s.acquire = (none, s) := by
  obtain ⟨hreleased, hrange⟩ := List.append_eq_nil_iff.mp h
  have hfull : ¬ s.fresh < s.capacity := by
    have hlen := congrArg List.length hrange
    simp only [List.length_map, List.length_range', List.length_nil] at hlen
    omega
  simp only [acquire, hreleased, if_neg hfull]

/-- The first of the free indices is acquired. -/
theorem acquire_cons {s : Lifo} {i : U32} {l : List U32} (h : s.free = i :: l) :
    ∃ s', s.acquire = (some i, s') ∧ s'.free = l ∧ s'.held = i :: s.held
      ∧ s'.capacity = s.capacity := by
  cases hreleased : s.released with
  | cons j released =>
      simp only [free, hreleased, List.cons_append, List.cons.injEq] at h
      obtain ⟨rfl, hl⟩ := h
      exact ⟨{ s with released := released, held := j :: s.held },
        by simp only [acquire, hreleased], hl, rfl, rfl⟩
  | nil =>
      simp only [free, hreleased, List.nil_append] at h
      have hlt : s.fresh < s.capacity := by
        have hlen := congrArg List.length h
        simp only [List.length_map, List.length_range', List.length_cons] at hlen
        omega
      obtain ⟨k, hk⟩ : ∃ k, s.capacity - s.fresh = k + 1 := ⟨s.capacity - s.fresh - 1, by omega⟩
      have hk' : s.capacity - (s.fresh + 1) = k := by omega
      rw [hk, List.range'_succ, List.map_cons, List.cons.injEq] at h
      obtain ⟨rfl, hl⟩ := h
      refine ⟨{ s with fresh := s.fresh + 1, held := BitVec.ofNat 32 s.fresh :: s.held },
        by simp only [acquire, hreleased, if_pos hlt], ?_, rfl, rfl⟩
      show s.released ++ (List.range' (s.fresh + 1) (s.capacity - (s.fresh + 1))).map _ = l
      rw [hreleased, hk', List.nil_append]
      exact hl

theorem Inv.acquired {s s' : Lifo} {i : U32} {l : List U32} (hinv : s.Inv) (h : s.free = i :: l)
    (hfree : s'.free = l) (hheld : s'.held = i :: s.held) (hcap : s'.capacity = s.capacity) :
    s'.Inv := by
  unfold Inv at hinv ⊢
  rw [h] at hinv
  rw [hfree, hheld, hcap]
  exact List.perm_middle.symm.trans hinv

theorem Inv.released {s : Lifo} {i : U32} (hinv : s.Inv) (hi : i ∈ s.held) :
    Inv { s with released := i :: s.released, held := s.held.erase i } := by
  show (s.held.erase i ++ i :: s.free).Perm _
  have hback : (s.held.erase i ++ i :: s.free).Perm (i :: s.held.erase i ++ s.free) :=
    List.perm_middle
  have hheld : (i :: s.held.erase i ++ s.free).Perm (s.held ++ s.free) :=
    (List.perm_cons_erase hi).symm.append_right s.free
  exact (hback.trans hheld).trans hinv

theorem Inv.length {s : Lifo} (hinv : s.Inv) : s.held.length + s.free.length = s.capacity := by
  have hlen := hinv.length_eq
  rw [List.length_append, List.length_map, List.length_range] at hlen
  exact hlen

/-- Held indices are below the capacity. -/
theorem Inv.lt {s : Lifo} (hinv : s.Inv) (hcap : s.capacity < 2 ^ 32) {i : U32}
    (hi : i ∈ s.held) : i.toNat < s.capacity := by
  have hmem := hinv.mem_iff.mp (List.mem_append_left _ hi)
  obtain ⟨k, hk, rfl⟩ := List.mem_map.mp hmem
  have hk' := List.mem_range.mp hk
  rw [BitVec.toNat_ofNat, Nat.mod_eq_of_lt (by omega)]
  exact hk'

/-- A held index is not free. -/
theorem Inv.not_free {s : Lifo} (hinv : s.Inv) (hcap : s.capacity < 2 ^ 32) {i : U32}
    (hi : i ∈ s.held) : i ∉ s.free := by
  have hnodup : ((List.range s.capacity).map (BitVec.ofNat 32)).Nodup := by
    refine (List.nodup_map_iff_inj_on List.nodup_range).mpr ?_
    intro a ha b hb he
    have ha' := List.mem_range.mp ha
    have hb' := List.mem_range.mp hb
    have htoNat := congrArg BitVec.toNat he
    rw [BitVec.toNat_ofNat, BitVec.toNat_ofNat, Nat.mod_eq_of_lt (by omega),
      Nat.mod_eq_of_lt (by omega)] at htoNat
    exact htoNat
  exact (List.nodup_append'.mp (hinv.nodup_iff.mpr hnodup)).2.2 hi

end Lifo

/-! ## §4. Both follow it. -/

/-- The counter of the borrowed indices goes back by one. -/
theorem ofNat_length_erase {held : List U32} {i : U32} (hi : i ∈ held) :
    BitVec.ofNat 32 held.length - 1 = BitVec.ofNat 32 (held.erase i).length := by
  have hlen : held.length = (held.erase i).length + 1 := by
    rw [List.length_erase_of_mem hi, Nat.sub_add_cancel (List.length_pos_of_mem hi)]
  rw [hlen, ofNat_succ, BitVec.add_sub_cancel]

/-- The linked list holds the free indices in their order. -/
structure IndexSetRel (n : Nat) (s : UniqueIndexSet) (t : Lifo) : Prop where
  free : s.FreeList t.free
  capacity : s.capacity = n
  spec : t.capacity = n
  borrowed : s.borrowed = BitVec.ofNat 32 t.held.length
  inv : t.Inv

theorem IndexSetRel.capacity_lt {n : Nat} {s : UniqueIndexSet} {t : Lifo}
    (h : IndexSetRel n s t) : t.capacity < 2 ^ 32 := by
  have hlt := s.capacity_lt
  have hs : SENTINEL.toNat < 2 ^ 32 := SENTINEL.isLt
  rw [h.capacity, ← h.spec] at hlt
  exact hlt.trans hs

/-- **`UniqueIndexSet` follows `Lifo`.** -/
theorem indexSet_simulates {n : Nat} {s : UniqueIndexSet} {t t' : Lifo} {c : AllocatorCall}
    {r : Response} (h : IndexSetRel n s t) (hc : t.call c = some (r, t')) :
    ∃ s', s.call c = some (r, s') ∧ IndexSetRel n s' t' := by
  cases c with
  | acquire =>
      simp only [Lifo.call, Option.some.injEq, Prod.mk.injEq] at hc
      obtain ⟨rfl, rfl⟩ := hc
      have hlist := h.free
      cases hfree : t.free with
      | nil =>
          rw [hfree] at hlist
          rw [Lifo.acquire_nil hfree]
          refine ⟨s, ?_, h⟩
          simp only [UniqueIndexSet.call, UniqueIndexSet.acquire_err hlist, Option.map_some,
            Except.toOption, UniqueIndexSet.borrowedCount, h.borrowed]
      | cons i l =>
          rw [hfree] at hlist
          obtain ⟨t', hacq, hfree', hheld, hcap⟩ := Lifo.acquire_cons hfree
          obtain ⟨s', hs', hlist', hcap', hborrowed⟩ := UniqueIndexSet.acquire_ok hlist
          have hcount : s'.borrowed = BitVec.ofNat 32 t'.held.length := by
            rw [hborrowed, h.borrowed, hheld, List.length_cons, ofNat_succ]
          rw [hacq]
          refine ⟨s', ?_, ?_, hcap'.trans h.capacity, hcap.trans h.spec, hcount,
            h.inv.acquired hfree hfree' hheld hcap⟩
          · simp only [UniqueIndexSet.call, hs', Option.map_some, Except.toOption,
              UniqueIndexSet.borrowedCount, hcount]
          · rw [hfree']
            exact hlist'
  | release i =>
      simp only [Lifo.call, Lifo.release, List.contains_iff_mem] at hc
      split at hc
      next hi =>
        simp only [Option.map_some, Option.some.injEq, Prod.mk.injEq] at hc
        obtain ⟨rfl, rfl⟩ := hc
        have hlt : i.toNat < s.capacity := by
          rw [h.capacity, ← h.spec]
          exact h.inv.lt h.capacity_lt hi
        obtain ⟨s', hs', hlist', hcap', hborrowed⟩ :=
          UniqueIndexSet.release_ok h.free hlt (h.inv.not_free h.capacity_lt hi)
        have hcount : s'.borrowed = BitVec.ofNat 32 (t.held.erase i).length := by
          rw [hborrowed, h.borrowed, ofNat_length_erase hi]
        refine ⟨s', ?_, hlist', hcap'.trans h.capacity, h.spec, hcount, h.inv.released hi⟩
        simp only [UniqueIndexSet.call, hs', Option.map_some, UniqueIndexSet.borrowedCount, hcount]
      next => exact absurd hc (by simp)

/-- The vector holds the free indices, the first at its end. -/
structure MockRel (m : MockIndexAllocator) (t : Lifo) : Prop where
  free : m.freeList = t.free.reverse
  capacity : t.capacity < 2 ^ 32
  borrowed : m.borrowed = BitVec.ofNat 32 t.held.length
  inv : t.Inv

/-- Nothing overflows in the counter of the mock. -/
theorem MockRel.borrowed_toNat {m : MockIndexAllocator} {t : Lifo} (h : MockRel m t) :
    m.borrowed.toNat = t.held.length := by
  have hlen := h.inv.length
  have hcap := h.capacity
  rw [h.borrowed, BitVec.toNat_ofNat, Nat.mod_eq_of_lt (by omega)]

/-- **`MockIndexAllocator` follows `Lifo`.** -/
theorem mock_simulates {m : MockIndexAllocator} {t t' : Lifo} {c : AllocatorCall} {r : Response}
    (h : MockRel m t) (hc : t.call c = some (r, t')) :
    ∃ m', m.call c = some (r, m') ∧ MockRel m' t' := by
  have hlen := h.inv.length
  have hcap := h.capacity
  cases c with
  | acquire =>
      simp only [Lifo.call, Option.some.injEq, Prod.mk.injEq] at hc
      obtain ⟨rfl, rfl⟩ := hc
      cases hfree : t.free with
      | nil =>
          have hempty : m.freeList.getLast? = none := by
            rw [h.free, hfree]
            rfl
          rw [Lifo.acquire_nil hfree]
          refine ⟨m, ?_, h⟩
          simp only [MockIndexAllocator.call, MockIndexAllocator.acquire, hempty, Option.map_some,
            MockIndexAllocator.borrowedCount, h.borrowed]
      | cons i l =>
          have hvec : m.freeList = l.reverse ++ [i] := by
            rw [h.free, hfree, List.reverse_cons]
          have htop : m.freeList.getLast? = some i := by
            rw [hvec, List.getLast?_concat]
          have hroom : m.borrowed.toNat + 1 < 2 ^ 32 := by
            rw [h.borrowed_toNat]
            rw [hfree, List.length_cons] at hlen
            omega
          obtain ⟨t', hacq, hfree', hheld, hcap'⟩ := Lifo.acquire_cons hfree
          have hcount : m.borrowed + 1 = BitVec.ofNat 32 t'.held.length := by
            rw [h.borrowed, hheld, List.length_cons, ofNat_succ]
          rw [hacq]
          refine ⟨{ m with freeList := m.freeList.dropLast, borrowed := m.borrowed + 1 },
            ?_, ?_, ?_, hcount, h.inv.acquired hfree hfree' hheld hcap'⟩
          · simp only [MockIndexAllocator.call, MockIndexAllocator.acquire, htop, if_pos hroom,
              Option.map_some, MockIndexAllocator.borrowedCount, hcount]
          · rw [hfree', hvec, List.dropLast_concat]
          · rw [hcap']
            exact hcap
  | release i =>
      simp only [Lifo.call, Lifo.release, List.contains_iff_mem] at hc
      split at hc
      next hi =>
        simp only [Option.map_some, Option.some.injEq, Prod.mk.injEq] at hc
        obtain ⟨rfl, rfl⟩ := hc
        have hpos : 0 < m.borrowed.toNat := by
          rw [h.borrowed_toNat]
          exact List.length_pos_of_mem hi
        have hcount : m.borrowed - 1 = BitVec.ofNat 32 (t.held.erase i).length := by
          rw [h.borrowed, ofNat_length_erase hi]
        refine ⟨{ m with freeList := m.freeList ++ [i], borrowed := m.borrowed - 1 },
          ?_, ?_, hcap, hcount, h.inv.released hi⟩
        · simp only [MockIndexAllocator.call, MockIndexAllocator.release, if_pos hpos,
            Option.map_some, MockIndexAllocator.borrowedCount, hcount]
        · show m.freeList ++ [i] = (i :: t.free).reverse
          rw [h.free, List.reverse_cons]
      next => exact absurd hc (by simp)

/-! ## §5. Every sequence of calls. -/

theorem indexSetRel_new (capacity : Nat) (hpos : 0 < capacity)
    (hlt : capacity < SENTINEL.toNat) :
    IndexSetRel capacity (.new capacity hpos hlt) (.new capacity) where
  free := by
    have hfree := UniqueIndexSet.new_freeList capacity hpos hlt
    rw [List.range_eq_range'] at hfree
    exact hfree
  capacity := rfl
  spec := rfl
  borrowed := rfl
  inv := Lifo.inv_new capacity

theorem mockRel_new (capacity : U32) : MockRel (.new capacity) (.new capacity.toNat) where
  free := by
    show ((List.range capacity.toNat).map (BitVec.ofNat 32)).reverse
      = ([] ++ (List.range' 0 (capacity.toNat - 0)).map (BitVec.ofNat 32)).reverse
    rw [List.nil_append, Nat.sub_zero, List.range_eq_range']
  capacity := capacity.isLt
  borrowed := rfl
  inv := Lifo.inv_new capacity.toNat

/-- **`UniqueIndexSet` and `MockIndexAllocator` are one allocator.**  On every
sequence of calls whose releases give back held indices, both return at every
`acquire` what `Lifo` returns, and count the borrowed indices alike; what is
left over is available. -/
theorem allocators_agree (capacity : U32) (hpos : 0 < capacity.toNat)
    (hlt : capacity.toNat < SENTINEL.toNat) (calls : List AllocatorCall)
    (responses : List Response) (t : Lifo)
    (hcalls : runCalls Lifo.call (.new capacity.toNat) calls = some (responses, t)) :
    ∃ s m, runCalls UniqueIndexSet.call (.new capacity.toNat hpos hlt) calls = some (responses, s)
      ∧ runCalls MockIndexAllocator.call (.new capacity) calls = some (responses, m)
      ∧ s.borrowedCount = m.borrowedCount
      ∧ s.borrowedCount.toNat = t.held.length
      ∧ s.available + s.borrowedCount.toNat = capacity.toNat := by
  obtain ⟨s, hs, hrel⟩ := runCalls_simulates UniqueIndexSet.call Lifo.call
    (IndexSetRel capacity.toNat) indexSet_simulates calls
    (indexSetRel_new capacity.toNat hpos hlt) hcalls
  obtain ⟨m, hm, hmock⟩ := runCalls_simulates MockIndexAllocator.call
    Lifo.call MockRel mock_simulates calls (mockRel_new capacity) hcalls
  have hsame : s.borrowedCount = m.borrowedCount := hrel.borrowed.trans hmock.borrowed.symm
  have hcount : s.borrowedCount.toNat = t.held.length := by
    rw [hsame]
    exact hmock.borrowed_toNat
  refine ⟨s, m, hs, hm, hsame, hcount, ?_⟩
  have hlen := hrel.inv.length
  have hcap := hrel.capacity
  have hspec := hrel.spec
  simp only [UniqueIndexSet.available, hcount]
  omega

/-- Two of three indices go out and come back, then all three go out. -/
theorem allocators_agree_three :
    ∃ s m responses, responses.map Response.index
          = [some 0#32, some 1#32, none, none, some 1#32, some 0#32, some 2#32, none]
      ∧ runCalls UniqueIndexSet.call (.new 3 (by decide) (by decide))
          [.acquire, .acquire, .release 0#32, .release 1#32, .acquire, .acquire, .acquire,
            .acquire] = some (responses, s)
      ∧ runCalls MockIndexAllocator.call (.new 3#32)
          [.acquire, .acquire, .release 0#32, .release 1#32, .acquire, .acquire, .acquire,
            .acquire] = some (responses, m)
      ∧ s.borrowedCount = m.borrowedCount ∧ s.available + s.borrowedCount.toNat = 3 := by
  have hrun : (runCalls Lifo.call (.new 3)
      [.acquire, .acquire, .release 0#32, .release 1#32, .acquire, .acquire, .acquire,
        .acquire]).map (fun p => p.1.map Response.index)
      = some [some 0#32, some 1#32, none, none, some 1#32, some 0#32, some 2#32, none] := by
    decide
  obtain ⟨⟨responses, t⟩, hcalls, hindex⟩ := Option.map_eq_some_iff.mp hrun
  obtain ⟨s, m, hs, hm, hsame, _, havailable⟩ :=
    allocators_agree 3#32 (by decide) (by decide) _ responses t hcalls
  exact ⟨s, m, responses, hindex, hs, hm, hsame, havailable⟩

end Entangle.Lockfree
