/-
  Entangle.Lib.Locks — mutexes that are taken in an order.

  Threads hold locks and wait for locks.  If every thread waits only for a lock that
  ranks above those it holds, then following the holders from a thread that is
  stuck leads to one that is not: the ranks go up on the way, and there is a
  highest.  Where each step of a call also takes something off a potential, calls under
  way come to their end whatever the schedule.

    * `Ordered.exists_unblocked` — the thread, or somebody who holds a lock, is not stuck;
    * `length_add_le` — a run whose steps all lower a potential is short;
    * `sum_update_lt` — a potential that is a sum over threads, after one has moved.
-/
import Entangle.Lib.Transition
import Mathlib.Algebra.BigOperators.Group.Finset.Piecewise
import Mathlib.Algebra.Order.BigOperators.Group.Finset
import Mathlib.Algebra.Group.Action.Defs
import Mathlib.Data.Fintype.Card

namespace Entangle.Lib

/-! ## §1. Who waits for whom. -/

/-- Who holds a lock, and which lock a thread waits for. -/
structure Waiting (T K : Type*) where
  owner : K → Option T
  wants : T → Option K

namespace Waiting

variable {T K : Type*} {w : Waiting T K} {rank : K → Nat}

/-- The lock that thread `t` waits for is held. -/
def Blocked (w : Waiting T K) (t : T) : Prop :=
  ∃ k u, w.wants t = some k ∧ w.owner k = some u

/-- A thread that holds a lock waits for none but those that rank higher. -/
def Ordered (w : Waiting T K) (rank : K → Nat) : Prop :=
  ∀ t k k', w.owner k = some t → w.wants t = some k' → rank k < rank k'

/-- A thread never waits for a lock that it holds. -/
theorem Ordered.not_self (h : w.Ordered rank) {t : T} {k : K} (hwants : w.wants t = some k) :
    w.owner k ≠ some t := by
  intro howner
  have hlt := h t k k howner hwants
  omega

/-- From the holder of a lock upwards, by induction on how many ranks are above it. -/
theorem Ordered.holder_unblocked (h : w.Ordered rank) {n : Nat} (hn : ∀ k, rank k < n) (k : K)
    (u : T) (howner : w.owner k = some u) : ∃ k' u', w.owner k' = some u' ∧ ¬ w.Blocked u' := by
  induction hd : n - rank k using Nat.strong_induction_on generalizing k u with
  | _ d ih =>
      by_cases hblocked : w.Blocked u
      · obtain ⟨k', u', hwants, howner'⟩ := hblocked
        have hlt := h u k k' howner hwants
        have hk' := hn k'
        exact ih (n - rank k') (by omega) k' u' howner' rfl
      · exact ⟨k, u, howner, hblocked⟩

/-- **Locks taken in order do not deadlock**: the thread is not stuck, or there is a
holder of a lock that is not. -/
theorem Ordered.exists_unblocked (h : w.Ordered rank) {n : Nat} (hn : ∀ k, rank k < n) (t : T) :
    ∃ u, (u = t ∨ ∃ k, w.owner k = some u) ∧ ¬ w.Blocked u := by
  by_cases hblocked : w.Blocked t
  · obtain ⟨k, u, _, howner⟩ := hblocked
    obtain ⟨k', u', howner', hfree⟩ := h.holder_unblocked hn k u howner
    exact ⟨u', .inr ⟨k', howner'⟩, hfree⟩
  · exact ⟨t, .inl rfl, hblocked⟩

end Waiting

/-! ## §2. Potentials that go down. -/

/-- **A run in which every step lowers the potential** has no more steps than that. -/
theorem length_add_le {S A : Type*} {step : S → A → Option S} (Inv : S → Prop) (Φ : S → Nat)
    (own : A → Prop) (hinv : ∀ s a s', Inv s → step s a = some s' → Inv s')
    (hlt : ∀ s a s', Inv s → own a → step s a = some s' → Φ s' < Φ s) (as : List A) :
    ∀ {s s' : S}, Inv s → (∀ a ∈ as, own a) → exec step s as = some s' →
      as.length + Φ s' ≤ Φ s := by
  induction as with
  | nil =>
      intro s s' _ _ h
      obtain rfl := Option.some.inj h
      simp
  | cons a as ih =>
      intro s s' hs hown h
      obtain ⟨t, ht, hrest⟩ := Option.bind_eq_some_iff.mp h
      have hone := hlt s a t hs (hown a List.mem_cons_self) ht
      have htail := ih (hinv s a t hs ht) (fun b hb => hown b (List.mem_cons_of_mem _ hb)) hrest
      rw [List.length_cons]
      omega

/-- One thread goes from `pc t` to `p`, which lowers its cost by more than the others'
costs rise. -/
theorem sum_update_lt {T P : Type*} [Fintype T] [DecidableEq T] {cost cost' : P → Nat}
    {pc : T → P} {t : T} {p : P} (d : Nat) (hother : ∀ u, u ≠ t → cost' (pc u) ≤ cost (pc u) + d)
    (hself : cost' p + Fintype.card T * d < cost (pc t)) :
    ∑ u, cost' (Function.update pc t p u) < ∑ u, cost (pc u) := by
  have hrest : ∑ u ∈ Finset.univ.erase t, cost' (Function.update pc t p u)
      ≤ ∑ u ∈ Finset.univ.erase t, (cost (pc u) + d) := by
    refine Finset.sum_le_sum (fun u hu => ?_)
    have hne := Finset.ne_of_mem_erase hu
    rw [Function.update_of_ne hne]
    exact hother u hne
  rw [Finset.sum_add_distrib, Finset.sum_const, smul_eq_mul] at hrest
  have hcard : (Finset.univ.erase t).card * d ≤ Fintype.card T * d :=
    Nat.mul_le_mul_right d (Finset.card_le_univ _)
  rw [← Finset.add_sum_erase Finset.univ (fun u => cost' (Function.update pc t p u))
      (Finset.mem_univ t),
    ← Finset.add_sum_erase Finset.univ (fun u => cost (pc u)) (Finset.mem_univ t),
    Function.update_self]
  omega

end Entangle.Lib
