/-
  Entangle.Lib.BitWords — a list of words of `w` bits as a finite set of numbers.

  Number `i` is bit `i % w` of word `i / w`.  `Represents ws S` says that the
  words `ws` have exactly the bits of `S`; then
    * `Represents.card` — the population counts add up to the size of `S`;
    * `Represents.least` — the lowest bit of the first word that is not zero is
      the least member of `S`;
    * `Represents.empty` — if there is no such word, `S` is empty.
-/
import Mathlib.Algebra.BigOperators.Group.Finset.Basic
import Mathlib.Data.BitVec
import Mathlib.Data.Finset.Card

namespace Entangle.Lib

variable {w : Nat}

/-- The population count counts the bits that are set. -/
theorem cpop_eq_card (x : BitVec w) :
    x.cpop.toNat = ((Finset.range w).filter (fun j => x.getLsbD j = true)).card := by
  have hrec : ∀ n, x.cpopNatRec n 0
      = ((Finset.range n).filter (fun j => x.getLsbD j = true)).card := by
    intro n
    induction n with
    | zero => rfl
    | succ n ih =>
        rw [BitVec.cpopNatRec_succ, BitVec.cpopNatRec_eq, ih, Finset.range_add_one,
          Finset.filter_insert]
        cases hbit : x.getLsbD n with
        | false => simp
        | true =>
            rw [if_pos rfl, Finset.card_insert_of_notMem (by simp)]
            rfl
  rw [BitVec.toNat_cpop, hrec]

/-- A sum over the positions of a list. -/
theorem sum_map_eq_sum_range {α : Type*} (g : α → Nat) (l : List α) :
    (l.map g).sum = ∑ k ∈ Finset.range l.length, (l[k]?.map g).getD 0 := by
  induction l with
  | nil => rfl
  | cons a l ih =>
      rw [List.map_cons, List.sum_cons, List.length_cons, Finset.sum_range_succ', ih, Nat.add_comm]
      rfl

/-- The bits of `ws` are the members of `S`. -/
def Represents (ws : List (BitVec w)) (S : Finset Nat) : Prop :=
  ∀ i, i ∈ S ↔ ∃ x, ws[i / w]? = some x ∧ x.getLsbD (i % w) = true

namespace Represents

variable {ws : List (BitVec w)} {S : Finset Nat}

/-- The members in word `k` are its bits. -/
theorem card_word (h : Represents ws S) {k : Nat} {x : BitVec w} (hk : ws[k]? = some x) :
    (S.filter (fun i => i / w = k)).card = x.cpop.toNat := by
  rw [cpop_eq_card]
  refine (Finset.card_bij (fun j _ => k * w + j) ?_ ?_ ?_).symm
  · intro j hj
    obtain ⟨hlt, hbit⟩ := Finset.mem_filter.mp hj
    have hj' : j < w := Finset.mem_range.mp hlt
    have hdiv : (k * w + j) / w = k := by
      rw [Nat.mul_comm, Nat.mul_add_div (by omega), Nat.div_eq_of_lt hj', Nat.add_zero]
    refine Finset.mem_filter.mpr ⟨(h _).mpr ⟨x, by rw [hdiv]; exact hk, ?_⟩, hdiv⟩
    rw [Nat.mul_comm, Nat.mul_add_mod, Nat.mod_eq_of_lt hj']
    exact hbit
  · intro j _ j' _ he
    exact Nat.add_left_cancel he
  · intro i hi
    obtain ⟨hmem, hdiv⟩ := Finset.mem_filter.mp hi
    obtain ⟨y, hy, hbit⟩ := (h i).mp hmem
    obtain rfl : y = x := by
      rw [hdiv, hk] at hy
      exact (Option.some.inj hy).symm
    have hlt : i % w < w := by
      by_contra hge
      rw [BitVec.getLsbD_of_ge _ _ (Nat.le_of_not_lt hge)] at hbit
      exact absurd hbit (by simp)
    refine ⟨i % w, Finset.mem_filter.mpr ⟨Finset.mem_range.mpr hlt, hbit⟩, ?_⟩
    rw [← hdiv, Nat.mul_comm]
    exact Nat.div_add_mod i w

/-- **The population counts add up to the number of members.** -/
theorem card (h : Represents ws S) : S.card = (ws.map (fun x => x.cpop.toNat)).sum := by
  rw [sum_map_eq_sum_range]
  have hmaps : ∀ i ∈ S, i / w ∈ Finset.range ws.length := by
    intro i hi
    obtain ⟨x, hx, _⟩ := (h i).mp hi
    exact Finset.mem_range.mpr (List.getElem?_eq_some_iff.mp hx).1
  rw [Finset.card_eq_sum_card_fiberwise hmaps]
  refine Finset.sum_congr rfl (fun k hk => ?_)
  have hx := List.getElem?_eq_getElem (Finset.mem_range.mp hk)
  rw [h.card_word hx, hx]
  rfl

/-- **The least member** is the lowest bit of the first word that is not zero. -/
theorem least (h : Represents ws S) {k : Nat} {x : BitVec w} (hk : ws[k]? = some x)
    (hx : x ≠ 0#w) (hbefore : ∀ j < k, ws[j]? = some 0#w) :
    k * w + x.ctz.toNat ∈ S ∧ ∀ i ∈ S, k * w + x.ctz.toNat ≤ i := by
  have hbit := BitVec.getLsbD_true_ctz_of_ne_zero hx
  have hlt : x.ctz.toNat < w := by
    by_contra hge
    rw [BitVec.getLsbD_of_ge _ _ (Nat.le_of_not_lt hge)] at hbit
    exact absurd hbit (by simp)
  have hdiv : (k * w + x.ctz.toNat) / w = k := by
    rw [Nat.mul_comm, Nat.mul_add_div (by omega), Nat.div_eq_of_lt hlt, Nat.add_zero]
  have hmod : (k * w + x.ctz.toNat) % w = x.ctz.toNat := by
    rw [Nat.mul_comm, Nat.mul_add_mod, Nat.mod_eq_of_lt hlt]
  constructor
  · refine (h _).mpr ⟨x, ?_, ?_⟩
    · rw [hdiv]
      exact hk
    · rw [hmod]
      exact hbit
  · intro i hi
    obtain ⟨y, hy, hset⟩ := (h i).mp hi
    have hsplit := Nat.div_add_mod i w
    rcases Nat.lt_trichotomy (i / w) k with hlow | hsame | hhigh
    · -- a word before the first
      rw [hbefore _ hlow] at hy
      obtain rfl := Option.some.inj hy
      simp at hset
    · obtain rfl : y = x := by
        rw [hsame, hk] at hy
        exact (Option.some.inj hy).symm
      have hle : y.ctz.toNat ≤ i % w := by
        by_contra hgt
        rw [BitVec.getLsbD_false_of_lt_ctz (Nat.lt_of_not_le hgt)] at hset
        exact absurd hset (by simp)
      rw [← hsplit, hsame, Nat.mul_comm]
      omega
    · have hmul : w * (k + 1) ≤ w * (i / w) := Nat.mul_le_mul_left w hhigh
      rw [Nat.mul_succ] at hmul
      rw [Nat.mul_comm]
      omega

/-- Words that are all zero have no members. -/
theorem empty (h : Represents ws S) (hzero : ∀ x ∈ ws, x = 0#w) : S = ∅ := by
  refine Finset.eq_empty_of_forall_notMem (fun i hi => ?_)
  obtain ⟨x, hx, hbit⟩ := (h i).mp hi
  obtain rfl := hzero x (List.mem_of_getElem? hx)
  simp at hbit

end Represents

end Entangle.Lib
