/-
  Entangle.Lockfree.SpscQueue — the bounded queue of
  entangle-lockfree/src/spsc_queue.rs.

  A ring buffer with a write and a read position.  The positions are 64-bit
  words that only ever grow and wrap, and a slot index is a position masked by
  `capacity - 1`.

  `Holds q pushed r` connects the ring with the unbounded story: `pushed` is
  everything ever pushed, `r` the number of values popped, and the ring holds
  the window `pushed[r ..]`.  The three ways the ring changes are
    * `Holds.store`   — a slot outside the window is written,
    * `Holds.publish` — the window grows by the slot after its end,
    * `Holds.consume` — the window loses its first slot,
  and none of them looks at whether the positions have wrapped.

  For a caller to whom a push and a pop are single steps, `contents q` is the
  FIFO content, and `push_room`/`push_full`/`pop_empty`/`pop_cons` are the
  specification.
-/
import Entangle.Lib.Tables
import Entangle.Lib.Word
import Mathlib.Data.List.Basic
import Mathlib.Data.Nat.Log

namespace Entangle.Lockfree

open Entangle.Lib

/-! ## §1. The ring. -/

/-- `usize::next_power_of_two`; past `2 ^ 63` the result does not fit and is `0`. -/
def nextPowerOfTwo (n : Nat) : Nat :=
  if n ≤ 1 then 1 else 2 ^ (Nat.log2 (n - 1) + 1) % 2 ^ 64

/-- `SpscQueue`.  The last two fields are established by `new` and never change. -/
structure SpscQueue where
  writePos : U64
  readPos : U64
  capacity : Nat
  mask : Nat
  data : Vector U64 capacity
  capacity_pow : ∃ k, 1 ≤ k ∧ k ≤ 63 ∧ capacity = 2 ^ k
  mask_eq : mask = capacity - 1

/-- A power of two that fits, or `0`. -/
theorem nextPowerOfTwo_cases (n : Nat) :
    (∃ k, k ≤ 63 ∧ nextPowerOfTwo n = 2 ^ k) ∨ nextPowerOfTwo n = 0 := by
  unfold nextPowerOfTwo
  split
  next => exact .inl ⟨0, by omega, rfl⟩
  next =>
    by_cases hk : Nat.log2 (n - 1) + 1 ≤ 63
    · refine .inl ⟨_, hk, Nat.mod_eq_of_lt ?_⟩
      exact Nat.pow_lt_pow_right (by omega) (by omega)
    · right
      exact Nat.mod_eq_zero_of_dvd (Nat.pow_dvd_pow 2 (by omega))

theorem max_two_pow (n : Nat) :
    ∃ k, 1 ≤ k ∧ k ≤ 63 ∧ max (nextPowerOfTwo n) 2 = 2 ^ k := by
  rcases nextPowerOfTwo_cases n with ⟨k, hk, he⟩ | he
  · rw [he]
    cases k with
    | zero => exact ⟨1, by omega, by omega, rfl⟩
    | succ k =>
        refine ⟨k + 1, by omega, hk, Nat.max_eq_left ?_⟩
        exact Nat.le_self_pow (by omega) 2
  · rw [he]
    exact ⟨1, by omega, by omega, rfl⟩

/-- Up to `2 ^ 63` the result is the least power of two not below the request. -/
theorem nextPowerOfTwo_least (n : Nat) (hn : n ≤ 2 ^ 63) :
    n ≤ nextPowerOfTwo n ∧ ∀ k, n ≤ 2 ^ k → nextPowerOfTwo n ≤ 2 ^ k := by
  unfold nextPowerOfTwo
  split
  next h1 => exact ⟨h1, fun k _ => Nat.one_le_two_pow⟩
  next h1 =>
    have hne : n - 1 ≠ 0 := by omega
    have hlow : 2 ^ Nat.log2 (n - 1) ≤ n - 1 := (Nat.le_log2 hne).mp (Nat.le_refl _)
    have hhigh : n - 1 < 2 ^ (Nat.log2 (n - 1) + 1) := (Nat.log2_lt hne).mp (by omega)
    have hlog : Nat.log2 (n - 1) < 63 := (Nat.log2_lt hne).mpr (by omega)
    have hfit : 2 ^ (Nat.log2 (n - 1) + 1) < 2 ^ 64 :=
      Nat.pow_lt_pow_right (by omega) (by omega)
    rw [Nat.mod_eq_of_lt hfit]
    refine ⟨by omega, fun k hk => Nat.pow_le_pow_right (by omega) ?_⟩
    have : 2 ^ Nat.log2 (n - 1) < 2 ^ k := by omega
    have := (Nat.pow_lt_pow_iff_right (show 1 < 2 by omega)).mp this
    omega

namespace SpscQueue

/-- `SpscQueue::new`. -/
def new (capacity : Nat) : SpscQueue where
  writePos := 0#64
  readPos := 0#64
  capacity := max (nextPowerOfTwo capacity) 2
  mask := max (nextPowerOfTwo capacity) 2 - 1
  data := Vector.replicate _ 0#64
  capacity_pow := max_two_pow capacity
  mask_eq := rfl

theorem mask_and_lt (q : SpscQueue) (pos : U64) :
    (pos &&& BitVec.ofNat 64 q.mask).toNat < q.capacity := by
  obtain ⟨k, _, hk, hcap⟩ := q.capacity_pow
  have hpos : 0 < 2 ^ k := Nat.two_pow_pos k
  have h := and_mask 64 k pos.toNat (by omega)
  rw [BitVec.ofNat_toNat, BitVec.setWidth_eq] at h
  rw [q.mask_eq, hcap, h]
  exact Nat.mod_lt _ hpos

/-- `(pos as usize) & self.mask`. -/
def slot (q : SpscQueue) (pos : U64) : Fin q.capacity :=
  ⟨(pos &&& BitVec.ofNat 64 q.mask).toNat, q.mask_and_lt pos⟩

/-- `self.data[idx].store(value)`. -/
def setSlot (q : SpscQueue) (pos value : U64) : SpscQueue :=
  { q with data := q.data.set (q.slot pos).val value (q.slot pos).isLt }

/-- `self.data[idx].load()`. -/
def getSlot (q : SpscQueue) (pos : U64) : U64 := q.data[q.slot pos]

/-- `SpscQueue::push` as one step. -/
def push (q : SpscQueue) (value : U64) : Bool × SpscQueue :=
  if (q.writePos - q.readPos).toNat ≥ q.capacity then (false, q)
  else (true, { q.setSlot q.writePos value with writePos := q.writePos + 1 })

/-- `SpscQueue::pop` as one step. -/
def pop (q : SpscQueue) : Option U64 × SpscQueue :=
  if q.readPos = q.writePos then (none, q)
  else (some (q.getSlot q.readPos), { q with readPos := q.readPos + 1 })

def isEmpty (q : SpscQueue) : Bool := q.readPos = q.writePos

/-- `SpscQueue::len` as one step. -/
def len (q : SpscQueue) : Nat := (q.writePos - q.readPos).toNat

/-- `SpscQueue::is_full` as one step. -/
def isFull (q : SpscQueue) : Bool := (q.writePos - q.readPos).toNat ≥ q.capacity

/-! ## §2. Slots. -/

theorem capacity_le (q : SpscQueue) : q.capacity ≤ 2 ^ 63 := by
  obtain ⟨k, _, hk, hcap⟩ := q.capacity_pow
  rw [hcap]
  exact Nat.pow_le_pow_right (by omega) hk

/-- The slot of an unbounded position is its remainder. -/
theorem slot_ofNat (q : SpscQueue) (i : Nat) :
    (q.slot (BitVec.ofNat 64 i)).val = i % q.capacity := by
  obtain ⟨k, _, hk, hcap⟩ := q.capacity_pow
  show (BitVec.ofNat 64 i &&& BitVec.ofNat 64 q.mask).toNat = _
  rw [q.mask_eq, hcap]
  exact and_mask 64 k i (by omega)

/-- Positions closer than the capacity have different slots. -/
theorem slot_ne (q : SpscQueue) {i j : Nat} (hij : i < j) (hlt : j < i + q.capacity) :
    q.slot (BitVec.ofNat 64 i) ≠ q.slot (BitVec.ofNat 64 j) := by
  intro he
  have hval := congrArg Fin.val he
  rw [slot_ofNat, slot_ofNat] at hval
  have hmod : (j - i) % q.capacity = 0 := Nat.sub_mod_eq_zero_of_mod_eq hval.symm
  rw [Nat.mod_eq_of_lt (by omega)] at hmod
  omega

theorem getSlot_setSlot_self (q : SpscQueue) (pos v : U64) :
    (q.setSlot pos v).getSlot pos = v := by
  show (q.data.set (q.slot pos).val v (q.slot pos).isLt)[(q.slot pos).val] = v
  exact Vector.getElem_set_self _

theorem getSlot_setSlot_ne (q : SpscQueue) {pos pos' : U64} (v : U64)
    (h : q.slot pos' ≠ q.slot pos) : (q.setSlot pos v).getSlot pos' = q.getSlot pos' := by
  have hne : (q.slot pos).val ≠ (q.slot pos').val := fun he => h (Fin.ext he.symm)
  show (q.data.set (q.slot pos).val v (q.slot pos).isLt)[(q.slot pos').val]
    = q.data[(q.slot pos').val]
  exact Vector.getElem_set_ne _ _ hne

/-! ## §3. The ring as a window on everything pushed. -/

/-- The ring holds the values `pushed[r ..]`; `r` values have been popped. -/
structure Holds (q : SpscQueue) (pushed : List U64) (r : Nat) : Prop where
  read : q.readPos = BitVec.ofNat 64 r
  write : q.writePos = BitVec.ofNat 64 pushed.length
  le : r ≤ pushed.length
  bound : pushed.length ≤ r + q.capacity
  data : ∀ i v, r ≤ i → pushed[i]? = some v → q.getSlot (BitVec.ofNat 64 i) = v

theorem holds_new (capacity : Nat) : Holds (new capacity) [] 0 where
  read := rfl
  write := rfl
  le := Nat.le_refl _
  bound := Nat.zero_le _
  data i v _ h := by simp at h

variable {q : SpscQueue} {pushed : List U64} {r : Nat}

/-- The wrapping difference of the positions is the number of values held. -/
theorem Holds.sub_toNat (h : Holds q pushed r) :
    (q.writePos - q.readPos).toNat = pushed.length - r := by
  have hle := h.le
  have hb := h.bound
  have hc := q.capacity_le
  rw [h.write, h.read]
  exact ofNat_sub_toNat 64 r pushed.length hle (by omega)

/-- The positions agree exactly when nothing is held. -/
theorem Holds.pos_eq_iff (h : Holds q pushed r) :
    q.readPos = q.writePos ↔ r = pushed.length := by
  constructor
  · intro he
    have hsub := h.sub_toNat
    rw [he, BitVec.sub_self, BitVec.toNat_zero] at hsub
    have := h.le
    omega
  · intro he
    rw [h.read, h.write, he]

/-- Writing the slot after the window does not touch the window. -/
theorem Holds.store (h : Holds q pushed r) (v : U64) (hroom : pushed.length < r + q.capacity) :
    Holds (q.setSlot (BitVec.ofNat 64 pushed.length) v) pushed r where
  read := h.read
  write := h.write
  le := h.le
  bound := h.bound
  data i w hi hw := by
    have hlt : i < pushed.length := (List.getElem?_eq_some_iff.mp hw).1
    rw [q.getSlot_setSlot_ne v (q.slot_ne hlt (by omega))]
    exact h.data i w hi hw

/-- Publishing the slot after the window. -/
theorem Holds.publish (h : Holds q pushed r) {v : U64} (hroom : pushed.length < r + q.capacity)
    (hslot : q.getSlot (BitVec.ofNat 64 pushed.length) = v) :
    Holds { q with writePos := q.writePos + 1 } (pushed ++ [v]) r where
  read := h.read
  write := by
    show q.writePos + 1 = _
    rw [h.write, List.length_append, List.length_singleton, ofNat_succ]
  le := by
    have := h.le
    rw [List.length_append, List.length_singleton]
    omega
  bound := by
    rw [List.length_append, List.length_singleton]
    exact hroom
  data i w hi hw := by
    rcases concat_cases hw with hold | ⟨rfl, rfl⟩
    · exact h.data i w hi hold
    · exact hslot

/-- Dropping the first slot of the window. -/
theorem Holds.consume (h : Holds q pushed r) (hlt : r < pushed.length) :
    Holds { q with readPos := q.readPos + 1 } pushed (r + 1) where
  read := by
    show q.readPos + 1 = _
    rw [h.read, ofNat_succ]
  write := h.write
  le := hlt
  bound := by
    have := h.bound
    show pushed.length ≤ r + 1 + q.capacity
    omega
  data i v hi hv := h.data i v (by omega) hv

/-! ## §4. Push and pop as single steps. -/

/-- The values in the queue, oldest first. -/
def contents (q : SpscQueue) : List U64 :=
  (List.range q.len).map (fun i => q.getSlot (q.readPos + BitVec.ofNat 64 i))

/-- The queue never holds more than its capacity. -/
def WF (q : SpscQueue) : Prop := q.len ≤ q.capacity

theorem Holds.wf (h : Holds q pushed r) : q.WF := by
  show (q.writePos - q.readPos).toNat ≤ q.capacity
  have := h.bound
  rw [h.sub_toNat]
  omega

theorem Holds.contents_eq (h : Holds q pushed r) : q.contents = pushed.drop r := by
  apply List.ext_getElem?
  intro i
  have hlen : q.len = pushed.length - r := h.sub_toNat
  by_cases hi : i < pushed.length - r
  · have hv : pushed[r + i]? = some (pushed.get ⟨r + i, by omega⟩) :=
      List.getElem?_eq_getElem (by omega)
    have hslot := h.data (r + i) _ (by omega) hv
    rw [List.getElem?_drop, hv, ← hslot, contents, List.getElem?_map, hlen,
        List.getElem?_range hi, Option.map_some, h.read, ← BitVec.ofNat_add]
  · rw [List.getElem?_eq_none (by rw [contents, List.length_map, List.length_range]; omega),
        List.getElem?_eq_none (by rw [List.length_drop]; omega)]

/-- A queue within its capacity is a window on its contents, padded in front. -/
theorem WF.holds (h : q.WF) :
    Holds q (List.replicate q.readPos.toNat 0#64 ++ q.contents) q.readPos.toNat := by
  have hlen : (List.replicate q.readPos.toNat 0#64 ++ q.contents).length
      = q.readPos.toNat + q.len := by
    simp [contents]
  have hread : q.readPos = BitVec.ofNat 64 q.readPos.toNat := by
    rw [BitVec.ofNat_toNat, BitVec.setWidth_eq]
  have hdiff : q.writePos - q.readPos = BitVec.ofNat 64 q.len := by
    show q.writePos - q.readPos = BitVec.ofNat 64 (q.writePos - q.readPos).toNat
    rw [BitVec.ofNat_toNat, BitVec.setWidth_eq]
  constructor
  · exact hread
  · rw [hlen, BitVec.ofNat_add, ← hread, ← hdiff, BitVec.add_comm, BitVec.sub_add_cancel]
  · rw [hlen]
    omega
  · rw [hlen]
    have : q.len ≤ q.capacity := h
    omega
  · intro i v hi hv
    have hlt := (List.getElem?_eq_some_iff.mp hv).1
    rw [hlen] at hlt
    rw [List.getElem?_append_right (by simpa using hi), List.length_replicate, contents,
        List.getElem?_map, List.getElem?_range (by omega)] at hv
    have hpos : q.readPos + BitVec.ofNat 64 (i - q.readPos.toNat) = BitVec.ofNat 64 i := by
      have hadd := BitVec.ofNat_add (n := 64) q.readPos.toNat (i - q.readPos.toNat)
      rw [Nat.add_sub_cancel' hi, ← hread] at hadd
      exact hadd.symm
    rw [Option.map_some, hpos] at hv
    exact Option.some.inj hv

theorem contents_length (q : SpscQueue) : q.contents.length = q.len := by
  simp [contents]

theorem new_wf (capacity : Nat) : (new capacity).WF := (holds_new capacity).wf

@[simp] theorem new_contents (capacity : Nat) : (new capacity).contents = [] :=
  (holds_new capacity).contents_eq

/-- A full queue refuses the value and stays as it is. -/
theorem push_full (h : q.capacity ≤ q.contents.length) (v : U64) : q.push v = (false, q) := by
  rw [contents_length] at h
  exact if_pos h

/-- A queue with room takes the value at its end. -/
theorem push_room (hwf : q.WF) (h : q.contents.length < q.capacity) (v : U64) :
    (q.push v).1 = true ∧ (q.push v).2.contents = q.contents ++ [v] ∧ (q.push v).2.WF
      ∧ (q.push v).2.capacity = q.capacity := by
  have hh := hwf.holds
  rw [contents_length] at h
  have hpush : q.push v = (true, { q.setSlot q.writePos v with writePos := q.writePos + 1 }) :=
    if_neg (by have : (q.writePos - q.readPos).toNat < q.capacity := h; omega)
  have hroom : (List.replicate q.readPos.toNat 0#64 ++ q.contents).length
      < q.readPos.toNat + q.capacity := by
    rw [List.length_append, List.length_replicate, contents_length]
    omega
  have hstore := hh.store v hroom
  rw [← hh.write] at hstore
  have hpub := hstore.publish hroom (v := v) (by
    rw [← hh.write]
    exact q.getSlot_setSlot_self q.writePos v)
  rw [hpush]
  refine ⟨rfl, ?_, hpub.wf, rfl⟩
  have hc := hpub.contents_eq
  rw [List.append_assoc, List.drop_append_of_le_length (by simp), List.drop_of_length_le (by simp),
      List.nil_append] at hc
  exact hc

/-- An empty queue gives nothing and stays as it is. -/
theorem pop_empty (hwf : q.WF) (h : q.contents = []) : q.pop = (none, q) := by
  have hlen : q.len = 0 := by rw [← contents_length, h]; rfl
  have hh := hwf.holds
  refine if_pos (hh.pos_eq_iff.mpr ?_)
  rw [List.length_append, List.length_replicate, contents_length, hlen]
  rfl

/-- Otherwise the oldest value comes out. -/
theorem pop_cons (hwf : q.WF) {v : U64} {l : List U64} (h : q.contents = v :: l) :
    q.pop.1 = some v ∧ q.pop.2.contents = l ∧ q.pop.2.WF ∧ q.pop.2.capacity = q.capacity := by
  have hlen : q.len = l.length + 1 := by rw [← contents_length, h]; rfl
  have hh := hwf.holds
  have hlt : q.readPos.toNat < (List.replicate q.readPos.toNat 0#64 ++ q.contents).length := by
    rw [List.length_append, List.length_replicate, contents_length]
    omega
  have hpop : q.pop = (some (q.getSlot q.readPos), { q with readPos := q.readPos + 1 }) :=
    if_neg (fun he => by
      have := hh.pos_eq_iff.mp he
      omega)
  have hc := hh.consume hlt
  have hval : q.getSlot q.readPos = v := by
    have := hh.data q.readPos.toNat v (Nat.le_refl _) (by
      rw [List.getElem?_append_right (by simp), h]
      simp)
    rw [← hh.read] at this
    exact this
  rw [hpop]
  refine ⟨congrArg some hval, ?_, hc.wf, rfl⟩
  have he := hc.contents_eq
  rw [List.drop_append, List.drop_of_length_le (by simp), List.nil_append, List.length_replicate,
      h, Nat.add_sub_cancel_left] at he
  exact he

end SpscQueue

end Entangle.Lockfree
