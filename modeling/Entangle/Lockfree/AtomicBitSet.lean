/-
  Entangle.Lockfree.AtomicBitSet — `AtomicBitSet` (entangle-lockfree/src/atomic_bitset.rs).

  One bit for each index, 64 of them in a word.  This file has the words, the
  access to the word of an index, and what a successful compare-exchange does:

    * `isSet_store_or` — writing `old | bit` adds the index, and no other;
    * `isSet_store_andNot` — writing `old & !bit` takes it away, and no other.
-/
import Entangle.Lib.Word
import Mathlib.Data.Nat.Basic

namespace Entangle.Lockfree

/-- `AtomicBitSet`. -/
structure AtomicBitSet where
  capacity : Nat
  words : Vector U64 ((capacity + 63) / 64)

namespace AtomicBitSet

/-- `AtomicBitSet::new`. -/
def new (capacity : Nat) : AtomicBitSet where
  capacity := capacity
  words := Vector.replicate _ 0#64

/-- `index / 64`. -/
def wordIdx (index : U32) : Nat := index.toNat / 64

/-- `1u64 << (index % 64)`. -/
def bit (index : U32) : U64 := 1#64 <<< (index.toNat % 64)

/-- `self.words[word_idx].load()`; `none` where the slice access panics. -/
def load (b : AtomicBitSet) (index : U32) : Option U64 := b.words[wordIdx index]?

/-- `self.words[word_idx]` becomes `word`. -/
def store (b : AtomicBitSet) (index : U32) (word : U64) : AtomicBitSet :=
  { b with words := b.words.setIfInBounds (wordIdx index) word }

/-- `AtomicBitSet::is_set`. -/
def isSet (b : AtomicBitSet) (index : U32) : Option Bool :=
  (b.load index).map (fun word => word &&& bit index != 0)

/-! ## Bits of a word. -/

/-- Masking with the bit of an index tests that bit. -/
theorem and_bit_ne_zero (word : U64) (index : U32) :
    (word &&& bit index != 0) = word.getLsbD (index.toNat % 64) := by
  have hlt : index.toNat % 64 < 64 := Nat.mod_lt _ (by omega)
  unfold bit
  rw [← BitVec.twoPow_eq, BitVec.and_twoPow]
  cases h : word.getLsbD (index.toNat % 64) with
  | true =>
      have hne : BitVec.twoPow 64 (index.toNat % 64) ≠ 0#64 := by
        intro h0
        have hbit := congrArg (fun x => BitVec.getLsbD x (index.toNat % 64)) h0
        simp [hlt] at hbit
      simp [hne]
  | false => simp

theorem getLsbD_bit (index : U32) (k : Nat) :
    (bit index).getLsbD k = decide (k = index.toNat % 64) := by
  have hlt : index.toNat % 64 < 64 := Nat.mod_lt _ (by omega)
  unfold bit
  rw [← BitVec.twoPow_eq, BitVec.getLsbD_twoPow]
  by_cases hk : k = index.toNat % 64
  · simp [hk, hlt]
  · simp [hk, Ne.symm hk]

/-- Two indices with the same word and the same bit are one index. -/
theorem eq_of_wordIdx_of_mod {i j : U32} (hword : wordIdx j = wordIdx i)
    (hbit : j.toNat % 64 = i.toNat % 64) : j = i := by
  unfold wordIdx at hword
  apply BitVec.eq_of_toNat_eq
  omega

/-! ## Accesses. -/

theorem isSet_eq (b : AtomicBitSet) (index : U32) :
    b.isSet index = (b.load index).map (fun word => word.getLsbD (index.toNat % 64)) := by
  unfold isSet
  simp only [and_bit_ne_zero]

@[simp] theorem store_capacity (b : AtomicBitSet) (index : U32) (word : U64) :
    (b.store index word).capacity = b.capacity := rfl

theorem load_store (b : AtomicBitSet) {i : U32} (j : U32) (word : U64) {old : U64}
    (h : b.load i = some old) :
    (b.store i word).load j = if wordIdx j = wordIdx i then some word else b.load j := by
  have hlt : wordIdx i < (b.capacity + 63) / 64 := (Vector.getElem?_eq_some_iff.mp h).1
  show (b.words.setIfInBounds (wordIdx i) word)[wordIdx j]? = _
  rw [Vector.getElem?_setIfInBounds]
  by_cases he : wordIdx j = wordIdx i
  · rw [if_pos he.symm, if_pos hlt, if_pos he]
  · rw [if_neg (Ne.symm he), if_neg he]
    rfl

/-- Every index below the capacity has its word. -/
theorem load_isSome (b : AtomicBitSet) {i : U32} (h : i.toNat < b.capacity) :
    ∃ word, b.load i = some word := by
  have hlt : wordIdx i < (b.capacity + 63) / 64 := by
    unfold wordIdx
    omega
  exact ⟨b.words[wordIdx i], Vector.getElem?_eq_getElem hlt⟩

theorem new_isSet (capacity : Nat) (i : U32) : (new capacity).isSet i ≠ some true := by
  rw [isSet_eq]
  show Option.map _ (Vector.replicate ((capacity + 63) / 64) 0#64)[wordIdx i]? ≠ some true
  rw [Vector.getElem?_replicate]
  split
  next => simp
  next => simp

/-- The bits that lie in the loaded word. -/
theorem isSet_of_load (b : AtomicBitSet) {i j : U32} {old : U64} (h : b.load i = some old)
    (hword : wordIdx j = wordIdx i) : b.isSet j = some (old.getLsbD (j.toNat % 64)) := by
  have hload : b.load j = some old := by
    unfold load at h ⊢
    rw [hword]
    exact h
  rw [isSet_eq, hload, Option.map_some]

/-- A store changes the bits of its word and no others. -/
theorem isSet_store (b : AtomicBitSet) {i : U32} (j : U32) (word : U64) {old : U64}
    (h : b.load i = some old) :
    (b.store i word).isSet j
      = if wordIdx j = wordIdx i then some (word.getLsbD (j.toNat % 64)) else b.isSet j := by
  rw [isSet_eq, isSet_eq, load_store b j word h]
  split <;> rfl

/-- **`set`**: the word with the bit of `i` added. -/
theorem isSet_store_or (b : AtomicBitSet) {i : U32} (j : U32) {old : U64}
    (h : b.load i = some old) :
    (b.store i (old ||| bit i)).isSet j = some true ↔ j = i ∨ b.isSet j = some true := by
  rw [isSet_store b j _ h]
  by_cases hword : wordIdx j = wordIdx i
  · rw [if_pos hword, isSet_of_load b h hword]
    simp only [Option.some.injEq, BitVec.getLsbD_or, getLsbD_bit, Bool.or_eq_true,
      decide_eq_true_eq]
    constructor
    · rintro (hset | hbit)
      · exact .inr hset
      · exact .inl (eq_of_wordIdx_of_mod hword hbit)
    · rintro (rfl | hset)
      · exact .inr rfl
      · exact .inl hset
  · rw [if_neg hword]
    constructor
    · exact .inr
    · rintro (rfl | hset)
      · exact absurd rfl hword
      · exact hset

/-- **`clear`**: the word with the bit of `i` taken away. -/
theorem isSet_store_andNot (b : AtomicBitSet) {i : U32} (j : U32) {old : U64}
    (h : b.load i = some old) :
    (b.store i (old &&& ~~~ bit i)).isSet j = some true ↔ j ≠ i ∧ b.isSet j = some true := by
  have hlt : j.toNat % 64 < 64 := Nat.mod_lt _ (by omega)
  rw [isSet_store b j _ h]
  by_cases hword : wordIdx j = wordIdx i
  · rw [if_pos hword, isSet_of_load b h hword]
    simp only [Option.some.injEq, BitVec.getLsbD_and, BitVec.getLsbD_not, getLsbD_bit, hlt,
      decide_true, Bool.true_and, Bool.and_eq_true, Bool.not_eq_true', decide_eq_false_iff_not]
    constructor
    · rintro ⟨hset, hbit⟩
      exact ⟨fun he => hbit (he ▸ rfl), hset⟩
    · rintro ⟨hne, hset⟩
      exact ⟨hset, fun hbit => hne (eq_of_wordIdx_of_mod hword hbit)⟩
  · rw [if_neg hword]
    constructor
    · intro hset
      exact ⟨fun he => hword (he ▸ rfl), hset⟩
    · rintro ⟨_, hset⟩
      exact hset

end AtomicBitSet

end Entangle.Lockfree
