/-
  Entangle.Lockfree.BitSetCalls — `AtomicBitSet` (entangle-lockfree/src/atomic_bitset.rs)
  used by one thread: `set`, `clear`, `is_set`, `count_set` and
  `find_and_clear_first_set` as whole calls.

  The specification is a finite set of numbers below the capacity.  The last
  word may have bits from the capacity on; they are never set, so the branch of
  `find_and_clear_first_set` that puts such a bit back is never taken.

  Main results:
    * `bitSet_simulates` — every call does to the bits what it does to the set;
    * `bitSet_refines_finset` — the same results on every sequence of calls.
-/
import Entangle.Lib.BitWords
import Entangle.Lib.Calls
import Entangle.Lockfree.AtomicBitSet
import Mathlib.Data.Finset.Max

namespace Entangle.Lockfree

open Entangle.Lib

namespace AtomicBitSet

/-! ## §1. The calls. -/

/-- `self.words[k]`, for the word of a loop. -/
def loadWord (b : AtomicBitSet) (k : Nat) : Option U64 := b.words[k]?

def storeWord (b : AtomicBitSet) (k : Nat) (word : U64) : AtomicBitSet :=
  { b with words := b.words.setIfInBounds k word }

/-- `AtomicBitSet::set`. -/
def set (b : AtomicBitSet) (index : U32) : Option (Bool × AtomicBitSet) :=
  (b.load index).map (fun old =>
    if old &&& bit index != 0 then (false, b) else (true, b.store index (old ||| bit index)))

/-- `AtomicBitSet::clear`. -/
def clear (b : AtomicBitSet) (index : U32) : Option (Bool × AtomicBitSet) :=
  (b.load index).map (fun old =>
    if old &&& bit index == 0 then (false, b)
    else (true, b.store index (old &&& ~~~ bit index)))

/-- `AtomicBitSet::count_set`. -/
def countSet (b : AtomicBitSet) : U32 :=
  (b.words.toList.map (fun word => word.cpop.setWidth 32)).sum

/-- `1u64 << old.trailing_zeros()`. -/
def firstBit (old : U64) : U64 := 1#64 <<< old.ctz.toNat

/-- `(word_idx as u32) * 64 + old.trailing_zeros()`. -/
def firstIndex (k : Nat) (old : U64) : U32 := BitVec.ofNat 32 k * 64 + old.ctz.setWidth 32

/-- How `find_and_clear_first_set` ends. -/
inductive Found where
  | none
  | index (i : U32)
  -- the bit was at or above the capacity and has been put back
  | restored
  deriving Repr, DecidableEq

/-- What it returns. -/
def Found.ret : Found → Option U32
  | .index i => some i
  | .none | .restored => Option.none

/-- The rest of the loop once the compare-exchange of word `k` has succeeded. -/
def takeFirst (b : AtomicBitSet) (k : Nat) (old : U64) : Found × AtomicBitSet :=
  let rest := old &&& ~~~ firstBit old
  let b' := b.storeWord k rest
  if (firstIndex k old).toNat < b.capacity then (.index (firstIndex k old), b')
  else (.restored, b'.storeWord k (rest ||| firstBit old))

/-- The loop of `find_and_clear_first_set` over the words from `k` on. -/
def findFrom (b : AtomicBitSet) : Nat → List U64 → Found × AtomicBitSet
  | _, [] => (.none, b)
  | k, old :: words => if old = 0#64 then findFrom b (k + 1) words else b.takeFirst k old

/-- `AtomicBitSet::find_and_clear_first_set`. -/
def findAndClearFirstSet (b : AtomicBitSet) : Found × AtomicBitSet :=
  b.findFrom 0 b.words.toList

end AtomicBitSet

inductive BitSetCall where
  | set (index : U32)
  | clear (index : U32)
  | isSet (index : U32)
  | countSet
  | findAndClearFirstSet
  deriving Repr, DecidableEq

inductive BitSetRet where
  | bool (b : Bool)
  | count (n : U32)
  | index (i : Option U32)
  deriving Repr, DecidableEq

/-- A call; `none` where a slice access panics. -/
def AtomicBitSet.call (b : AtomicBitSet) : BitSetCall → Option (BitSetRet × AtomicBitSet)
  | .set i => (b.set i).map (fun p => (.bool p.1, p.2))
  | .clear i => (b.clear i).map (fun p => (.bool p.1, p.2))
  | .isSet i => (b.isSet i).map (fun set => (.bool set, b))
  | .countSet => some (.count b.countSet, b)
  | .findAndClearFirstSet =>
      some (.index b.findAndClearFirstSet.1.ret, b.findAndClearFirstSet.2)

/-- The same call on a set of numbers below `capacity`, with an index below it. -/
def finsetCall (capacity : Nat) (S : Finset Nat) : BitSetCall → Option (BitSetRet × Finset Nat)
  | .set i =>
      if i.toNat < capacity then some (.bool (decide (i.toNat ∉ S)), insert i.toNat S) else none
  | .clear i =>
      if i.toNat < capacity then some (.bool (decide (i.toNat ∈ S)), S.erase i.toNat) else none
  | .isSet i => if i.toNat < capacity then some (.bool (decide (i.toNat ∈ S)), S) else none
  | .countSet => some (.count (BitVec.ofNat 32 S.card), S)
  | .findAndClearFirstSet =>
      if h : S.Nonempty then
        some (.index (some (BitVec.ofNat 32 (S.min' h))), S.erase (S.min' h))
      else some (.index none, S)

/-! ## §2. The first bit of a word. -/

namespace AtomicBitSet

theorem ctz_lt {old : U64} (hne : old ≠ 0#64) : old.ctz.toNat < 64 := by
  have hbit := BitVec.getLsbD_true_ctz_of_ne_zero hne
  by_contra hge
  rw [BitVec.getLsbD_of_ge _ _ (Nat.le_of_not_lt hge)] at hbit
  exact absurd hbit (by simp)

/-- The words of a bitset can be numbered in 32 bits, and so can their bits. -/
theorem firstIndex_toNat {k : Nat} {old : U64} (hk : k < 2 ^ 26) (hne : old ≠ 0#64) :
    (firstIndex k old).toNat = k * 64 + old.ctz.toNat := by
  have hctz := ctz_lt hne
  have h64 : (64 : U32).toNat = 64 := rfl
  have hk32 : k % 2 ^ 32 = k := Nat.mod_eq_of_lt (by omega)
  simp only [firstIndex, BitVec.toNat_add, BitVec.toNat_mul, BitVec.toNat_ofNat,
    BitVec.toNat_setWidth, h64, hk32]
  omega

/-- It is the first bit of `old` that the index stands for. -/
theorem wordIdx_firstIndex {k : Nat} {old : U64} (hk : k < 2 ^ 26) (hne : old ≠ 0#64) :
    wordIdx (firstIndex k old) = k := by
  have hctz := ctz_lt hne
  unfold wordIdx
  rw [firstIndex_toNat hk hne]
  omega

theorem bit_firstIndex {k : Nat} {old : U64} (hk : k < 2 ^ 26) (hne : old ≠ 0#64) :
    bit (firstIndex k old) = firstBit old := by
  have hctz := ctz_lt hne
  have hmod : (k * 64 + old.ctz.toNat) % 64 = old.ctz.toNat := by omega
  unfold bit firstBit
  rw [firstIndex_toNat hk hne, hmod]

/-- Word `k` is the word of the index. -/
theorem load_firstIndex (b : AtomicBitSet) {k : Nat} {old : U64} (hk : k < 2 ^ 26)
    (hne : old ≠ 0#64) : b.load (firstIndex k old) = b.loadWord k := by
  unfold load loadWord
  rw [wordIdx_firstIndex hk hne]

theorem store_firstIndex (b : AtomicBitSet) {k : Nat} {old : U64} (word : U64) (hk : k < 2 ^ 26)
    (hne : old ≠ 0#64) : b.store (firstIndex k old) word = b.storeWord k word := by
  unfold store storeWord
  rw [wordIdx_firstIndex hk hne]

/-- The scan finds all words zero, or the first that is not. -/
theorem findFrom_cases (b : AtomicBitSet) (words : List U64) : ∀ k,
    ((∀ word ∈ words, word = 0#64) ∧ b.findFrom k words = (.none, b))
      ∨ ∃ j old, words[j]? = some old ∧ old ≠ 0#64 ∧ (∀ j' < j, words[j']? = some 0#64)
          ∧ b.findFrom k words = b.takeFirst (k + j) old := by
  induction words with
  | nil => exact fun k => .inl ⟨by simp, rfl⟩
  | cons word words ih =>
      intro k
      by_cases hword : word = 0#64
      · subst hword
        rcases ih (k + 1) with ⟨hzero, hscan⟩ | ⟨j, old, hj, hne, hbefore, hscan⟩
        · left
          refine ⟨?_, ?_⟩
          · simpa using hzero
          · rw [findFrom, if_pos rfl, hscan]
        · right
          refine ⟨j + 1, old, hj, hne, ?_, ?_⟩
          · intro j' hj'
            cases j' with
            | zero => rfl
            | succ j' => exact hbefore j' (by omega)
          · rw [findFrom, if_pos rfl, hscan, Nat.add_assoc, Nat.add_comm 1]
      · right
        exact ⟨0, word, rfl, hword, by simp, by rw [findFrom, if_neg hword, Nat.add_zero]⟩

end AtomicBitSet

/-! ## §3. The bits and the set. -/

/-- The bits that are set are the members of `S`, all below the capacity. -/
structure BitSetRel (n : Nat) (b : AtomicBitSet) (S : Finset Nat) : Prop where
  capacity : b.capacity = n
  small : n < 2 ^ 32
  mem : ∀ i : U32, b.isSet i = some true ↔ i.toNat ∈ S
  below : ∀ i ∈ S, i < n

namespace BitSetRel

variable {n : Nat} {b : AtomicBitSet} {S : Finset Nat}

theorem new (capacity : U32) : BitSetRel capacity.toNat (.new capacity.toNat) ∅ where
  capacity := rfl
  small := capacity.isLt
  mem := by
    intro i
    simp only [Finset.notMem_empty, iff_false]
    exact AtomicBitSet.new_isSet _ i
  below := by simp

theorem wordCount (h : BitSetRel n b S) : (b.capacity + 63) / 64 ≤ 2 ^ 26 := by
  have hcap := h.capacity
  have hsmall := h.small
  omega

theorem represents (h : BitSetRel n b S) : Represents b.words.toList S := by
  intro i
  have hget : b.words.toList[i / 64]? = b.words[i / 64]? := by
    rw [Vector.getElem?_toList]
  rw [hget]
  have hbits : ∀ hi : i < 2 ^ 32, i ∈ S ↔ ∃ x, b.words[i / 64]? = some x
      ∧ x.getLsbD (i % 64) = true := by
    intro hi
    have htoNat : (BitVec.ofNat 32 i).toNat = i := by
      rw [BitVec.toNat_ofNat, Nat.mod_eq_of_lt hi]
    have hmem := h.mem (BitVec.ofNat 32 i)
    rw [AtomicBitSet.isSet_eq, Option.map_eq_some_iff, htoNat] at hmem
    rw [← hmem]
    simp only [AtomicBitSet.load, AtomicBitSet.wordIdx, htoNat]
  constructor
  · intro hi
    exact (hbits ((h.below i hi).trans h.small)).mp hi
  · rintro ⟨x, hx, hbit⟩
    have hlt := (Vector.getElem?_eq_some_iff.mp hx).1
    have hcount := h.wordCount
    exact (hbits (by omega)).mpr ⟨x, hx, hbit⟩

theorem card_le (h : BitSetRel n b S) : S.card ≤ n := by
  have hsub : S ⊆ Finset.range n := fun i hi => Finset.mem_range.mpr (h.below i hi)
  have hle := Finset.card_le_card hsub
  rwa [Finset.card_range] at hle

/-- The word that `set` and `clear` look at. -/
theorem load (h : BitSetRel n b S) {i : U32} (hi : i.toNat < n) :
    ∃ old, b.load i = some old ∧ (old &&& AtomicBitSet.bit i != 0) = decide (i.toNat ∈ S) := by
  obtain ⟨old, hold⟩ := b.load_isSome (by rw [h.capacity]; exact hi)
  refine ⟨old, hold, ?_⟩
  have hmem := h.mem i
  simp only [AtomicBitSet.isSet, hold, Option.map_some, Option.some.injEq] at hmem
  exact Bool.eq_iff_iff.mpr (hmem.trans decide_eq_true_iff.symm)

/-- Writing `old | bit` adds the index. -/
theorem insert (h : BitSetRel n b S) {i : U32} {old : U64} (hi : i.toNat < n)
    (hold : b.load i = some old) :
    BitSetRel n (b.store i (old ||| AtomicBitSet.bit i)) (insert i.toNat S) where
  capacity := h.capacity
  small := h.small
  mem := by
    intro j
    rw [b.isSet_store_or j hold, h.mem, Finset.mem_insert, BitVec.toNat_inj]
  below := by
    intro j hj
    rcases Finset.mem_insert.mp hj with rfl | hj
    · exact hi
    · exact h.below j hj

/-- Writing `old & !bit` takes it away. -/
theorem erase (h : BitSetRel n b S) {i : U32} {old : U64} (hold : b.load i = some old) :
    BitSetRel n (b.store i (old &&& ~~~ AtomicBitSet.bit i)) (S.erase i.toNat) where
  capacity := h.capacity
  small := h.small
  mem := by
    intro j
    rw [b.isSet_store_andNot j hold, h.mem, Finset.mem_erase, ne_eq, ne_eq, BitVec.toNat_inj]
  below := fun j hj => h.below j (Finset.mem_of_mem_erase hj)

/-- **`count_set`** is the number of members. -/
theorem countSet (h : BitSetRel n b S) : b.countSet = BitVec.ofNat 32 S.card := by
  have hsum : ∀ l : List U64, (l.map (fun word => word.cpop.setWidth 32)).sum
      = BitVec.ofNat 32 (l.map (fun word => word.cpop.toNat)).sum := by
    intro l
    induction l with
    | nil => rfl
    | cons word l ih =>
        rw [List.map_cons, List.sum_cons, ih, List.map_cons, List.sum_cons, BitVec.ofNat_add,
          BitVec.ofNat_toNat]
  rw [h.represents.card]
  exact hsum _

/-- **`find_and_clear_first_set`** takes the least member; nothing is put back. -/
theorem findAndClearFirstSet (h : BitSetRel n b S) :
    (S = ∅ ∧ b.findAndClearFirstSet = (.none, b))
      ∨ ∃ hne : S.Nonempty, ∃ b',
          b.findAndClearFirstSet = (.index (BitVec.ofNat 32 (S.min' hne)), b')
            ∧ BitSetRel n b' (S.erase (S.min' hne)) := by
  rcases b.findFrom_cases b.words.toList 0 with ⟨hzero, hscan⟩ | ⟨k, old, hk, hne, hbefore, hscan⟩
  · exact .inl ⟨h.represents.empty hzero, hscan⟩
  · right
    obtain ⟨hmem, hleast⟩ := h.represents.least hk hne hbefore
    have hword : b.words[k]? = some old := by
      rw [← Vector.getElem?_toList]
      exact hk
    have hk26 : k < 2 ^ 26 :=
      Nat.lt_of_lt_of_le (Vector.getElem?_eq_some_iff.mp hword).1 h.wordCount
    have hnonempty : S.Nonempty := ⟨_, hmem⟩
    have hmin : S.min' hnonempty = k * 64 + old.ctz.toNat :=
      Nat.le_antisymm (S.min'_le _ hmem) (S.le_min' hnonempty _ hleast)
    have hindex : AtomicBitSet.firstIndex k old = BitVec.ofNat 32 (S.min' hnonempty) := by
      rw [hmin, ← AtomicBitSet.firstIndex_toNat hk26 hne, BitVec.ofNat_toNat, BitVec.setWidth_eq]
    have htoNat : (AtomicBitSet.firstIndex k old).toNat = S.min' hnonempty := by
      rw [hmin, AtomicBitSet.firstIndex_toNat hk26 hne]
    have hload : b.load (AtomicBitSet.firstIndex k old) = some old := by
      rw [b.load_firstIndex hk26 hne]
      exact hword
    have hbelow : (AtomicBitSet.firstIndex k old).toNat < b.capacity := by
      rw [htoNat, hmin, h.capacity]
      exact h.below _ hmem
    refine ⟨hnonempty, b.storeWord k (old &&& ~~~ AtomicBitSet.firstBit old), ?_, ?_⟩
    · show b.findFrom 0 b.words.toList = _
      rw [hscan, Nat.zero_add, AtomicBitSet.takeFirst, if_pos hbelow, hindex]
    · have herase := h.erase hload
      rw [htoNat, AtomicBitSet.bit_firstIndex hk26 hne, b.store_firstIndex _ hk26 hne] at herase
      exact herase

end BitSetRel

/-! ## §4. Every call, every sequence. -/

/-- **Every call does to the bits what it does to the set.** -/
theorem bitSet_simulates {n : Nat} {b : AtomicBitSet} {S S' : Finset Nat} {c : BitSetCall}
    {r : BitSetRet} (h : BitSetRel n b S) (hc : finsetCall n S c = some (r, S')) :
    ∃ b', b.call c = some (r, b') ∧ BitSetRel n b' S' := by
  cases c with
  | set i =>
      simp only [finsetCall, Option.ite_none_right_eq_some, Option.some.injEq,
        Prod.mk.injEq] at hc
      obtain ⟨hi, rfl, rfl⟩ := hc
      obtain ⟨old, hold, hbit⟩ := h.load hi
      by_cases hmem : i.toNat ∈ S
      · refine ⟨b, ?_, ?_⟩
        · simp only [AtomicBitSet.call, AtomicBitSet.set, hold, Option.map_some, hbit, hmem,
            decide_true, if_true, not_true_eq_false, decide_false]
        · rw [Finset.insert_eq_of_mem hmem]
          exact h
      · refine ⟨b.store i (old ||| AtomicBitSet.bit i), ?_, h.insert hi hold⟩
        simp only [AtomicBitSet.call, AtomicBitSet.set, hold, Option.map_some, hbit, hmem,
          decide_false, Bool.false_eq_true, if_false, not_false_eq_true, decide_true]
  | clear i =>
      simp only [finsetCall, Option.ite_none_right_eq_some, Option.some.injEq,
        Prod.mk.injEq] at hc
      obtain ⟨hi, rfl, rfl⟩ := hc
      obtain ⟨old, hold, hbit⟩ := h.load hi
      have hzero : (old &&& AtomicBitSet.bit i == 0) = !decide (i.toNat ∈ S) := by
        rw [← hbit, bne, Bool.not_not]
      by_cases hmem : i.toNat ∈ S
      · refine ⟨b.store i (old &&& ~~~ AtomicBitSet.bit i), ?_, h.erase hold⟩
        simp only [AtomicBitSet.call, AtomicBitSet.clear, hold, Option.map_some, hzero, hmem,
          decide_true, Bool.not_true, Bool.false_eq_true, if_false]
      · refine ⟨b, ?_, ?_⟩
        · simp only [AtomicBitSet.call, AtomicBitSet.clear, hold, Option.map_some, hzero, hmem,
            decide_false, Bool.not_false, if_true]
        · rw [Finset.erase_eq_of_notMem hmem]
          exact h
  | isSet i =>
      simp only [finsetCall, Option.ite_none_right_eq_some, Option.some.injEq,
        Prod.mk.injEq] at hc
      obtain ⟨hi, rfl, rfl⟩ := hc
      obtain ⟨old, hold, hbit⟩ := h.load hi
      refine ⟨b, ?_, h⟩
      simp only [AtomicBitSet.call, AtomicBitSet.isSet, hold, Option.map_some, hbit]
  | countSet =>
      simp only [finsetCall, Option.some.injEq, Prod.mk.injEq] at hc
      obtain ⟨rfl, rfl⟩ := hc
      exact ⟨b, by rw [AtomicBitSet.call, h.countSet], h⟩
  | findAndClearFirstSet =>
      simp only [finsetCall] at hc
      rcases h.findAndClearFirstSet with ⟨rfl, hfind⟩ | ⟨hne, b', hfind, hrel⟩
      · simp only [Finset.not_nonempty_empty, dif_neg, not_false_eq_true, Option.some.injEq,
          Prod.mk.injEq] at hc
        obtain ⟨rfl, rfl⟩ := hc
        exact ⟨b, by rw [AtomicBitSet.call, hfind]; rfl, h⟩
      · simp only [dif_pos hne, Option.some.injEq, Prod.mk.injEq] at hc
        obtain ⟨rfl, rfl⟩ := hc
        exact ⟨b', by rw [AtomicBitSet.call, hfind]; rfl, hrel⟩

/-- **`AtomicBitSet` is a finite set.**  On every sequence of calls with indices
below the capacity no access is out of bounds, the results are those of a set
that starts empty, and the bits afterwards are exactly its members, of which
there are at most `capacity`; the bits from the capacity on stay clear, and
`find_and_clear_first_set` never puts one back. -/
theorem bitSet_refines_finset (capacity : U32) (calls : List BitSetCall)
    (results : List BitSetRet) (S : Finset Nat)
    (hcalls : runCalls (finsetCall capacity.toNat) ∅ calls = some (results, S)) :
    ∃ b, runCalls AtomicBitSet.call (.new capacity.toNat) calls = some (results, b)
      ∧ (∀ i : U32, b.isSet i = some true ↔ i.toNat ∈ S)
      ∧ (∀ i ∈ S, i < capacity.toNat)
      ∧ S.card ≤ capacity.toNat
      ∧ b.findAndClearFirstSet.1 ≠ .restored := by
  obtain ⟨b, hb, hrel⟩ := runCalls_simulates AtomicBitSet.call (finsetCall capacity.toNat)
    (BitSetRel capacity.toNat) bitSet_simulates calls (BitSetRel.new capacity) hcalls
  refine ⟨b, hb, hrel.mem, hrel.below, hrel.card_le, ?_⟩
  rcases hrel.findAndClearFirstSet with ⟨_, hfind⟩ | ⟨_, _, hfind, _⟩
  · rw [hfind]
    simp
  · rw [hfind]
    simp

/-- Seventy bits in two words: the second word comes after the first. -/
theorem bitSet_refines_finset_two_words :
    ∃ b results, runCalls AtomicBitSet.call (.new 70)
        [.set 69#32, .set 3#32, .set 69#32, .countSet, .clear 4#32, .findAndClearFirstSet,
          .findAndClearFirstSet, .findAndClearFirstSet] = some (results, b)
      ∧ results = [.bool true, .bool true, .bool false, .count 2#32, .bool false,
          .index (some 3#32), .index (some 69#32), .index none]
      ∧ b.findAndClearFirstSet.1 ≠ .restored := by
  have hrun : (runCalls (finsetCall 70) ∅
      [.set 69#32, .set 3#32, .set 69#32, .countSet, .clear 4#32, .findAndClearFirstSet,
        .findAndClearFirstSet, .findAndClearFirstSet]).map (fun p => p.1)
      = some [.bool true, .bool true, .bool false, .count 2#32, .bool false,
          .index (some 3#32), .index (some 69#32), .index none] := by decide
  obtain ⟨⟨results, S⟩, hcalls, hresults⟩ := Option.map_eq_some_iff.mp hrun
  obtain ⟨b, hb, _, _, _, hrestored⟩ := bitSet_refines_finset 70#32 _ results S hcalls
  exact ⟨b, results, hb, hresults, hrestored⟩

end Entangle.Lockfree
