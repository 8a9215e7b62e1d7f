/-
  Entangle.Lib.Counting — how many threads stand in a given kind of place.

  `countAt p f` counts the threads `t` with `p (f t)`.  When one thread moves, the
  count changes with that thread alone:
    * `countAt_same`, `countAt_gains`, `countAt_loses` — by what the thread was
      and is;
    * `countAt_split` — a kind that is made up of two;
    * `countAt_le_card`, `countAt_eq_zero`, `countAt_pos` — bounds.
-/
import Mathlib.Algebra.BigOperators.Group.Finset.Piecewise
import Mathlib.Data.Fintype.Card

namespace Entangle.Lib

variable {T P : Type*} [Fintype T]

/-- The number of threads that stand where `p` says. -/
def countAt (p : P → Bool) (f : T → P) : Nat :=
  (Finset.univ.filter (fun t => p (f t) = true)).card

theorem countAt_le_card (p : P → Bool) (f : T → P) : countAt p f ≤ Fintype.card T :=
  Finset.card_le_univ _

theorem countAt_eq_zero {p : P → Bool} {f : T → P} (h : ∀ t, p (f t) = false) :
    countAt p f = 0 := by
  refine Finset.card_eq_zero.mpr (Finset.filter_eq_empty_iff.mpr ?_)
  intro t _
  rw [h t]
  simp

theorem countAt_pos {p : P → Bool} {f : T → P} {t : T} (h : p (f t) = true) : 0 < countAt p f :=
  Finset.card_pos.mpr ⟨t, Finset.mem_filter.mpr ⟨Finset.mem_univ t, h⟩⟩

theorem countAt_eq_sum (p : P → Bool) (f : T → P) : countAt p f = ∑ t, (p (f t)).toNat := by
  rw [countAt, Finset.card_filter]
  refine Finset.sum_congr rfl (fun t _ => ?_)
  cases p (f t) <;> rfl

/-- A place is of one of two kinds. -/
theorem countAt_split {p q r : P → Bool} (h : ∀ x, (p x).toNat = (q x).toNat + (r x).toNat)
    (f : T → P) : countAt p f = countAt q f + countAt r f := by
  simp only [countAt_eq_sum, h, Finset.sum_add_distrib]

variable [DecidableEq T]

/-- One thread moves: the others are counted as before. -/
theorem countAt_update (p : P → Bool) (f : T → P) (t : T) (x : P) :
    countAt p (Function.update f t x) + (p (f t)).toNat = countAt p f + (p x).toNat := by
  have hold := Finset.add_sum_erase Finset.univ (fun u => (p (f u)).toNat) (Finset.mem_univ t)
  have hnew := Finset.add_sum_erase Finset.univ
    (fun u => (p (Function.update f t x u)).toNat) (Finset.mem_univ t)
  have hrest : ∑ u ∈ Finset.univ.erase t, (p (Function.update f t x u)).toNat
      = ∑ u ∈ Finset.univ.erase t, (p (f u)).toNat := by
    refine Finset.sum_congr rfl (fun u hu => ?_)
    rw [Function.update_of_ne (Finset.ne_of_mem_erase hu)]
  rw [countAt_eq_sum, countAt_eq_sum, ← hold, ← hnew, hrest, Function.update_self]
  omega

theorem countAt_same {p : P → Bool} {f : T → P} {t : T} {x : P} (h : p x = p (f t)) :
    countAt p (Function.update f t x) = countAt p f := by
  have hupd := countAt_update p f t x
  rw [h] at hupd
  exact Nat.add_right_cancel hupd

theorem countAt_gains {p : P → Bool} {f : T → P} {t : T} {x : P} (h : p (f t) = false)
    (hx : p x = true) : countAt p (Function.update f t x) = countAt p f + 1 := by
  have hupd := countAt_update p f t x
  rw [h, hx] at hupd
  exact hupd

theorem countAt_loses {p : P → Bool} {f : T → P} {t : T} {x : P} (h : p (f t) = true)
    (hx : p x = false) : countAt p (Function.update f t x) + 1 = countAt p f := by
  have hupd := countAt_update p f t x
  rw [h, hx] at hupd
  exact hupd

end Entangle.Lib
