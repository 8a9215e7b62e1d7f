/-
  Entangle.Lib.LockFree — counting the steps of compare-exchange loops.

  A retry loop reads a shared word, works, and compare-exchanges the word.  A
  thread whose expected word is no longer the current one is stale: its exchange
  is bound to fail.  Only somebody else's successful write makes it stale, and a
  failed exchange reads the word anew.  So retries are paid by writes:
    * `total`, `total_le_of_potential` — sums over the steps of a run, and what
      every step pays out of its credit and the potential, for a whole run;
    * `RetrySystem` — threads in retry loops, the work that they have ahead of them
      if nobody gets in their way, and a penalty for each stale thread;
    * `RetrySystem.pays_of_move`, `RetrySystem.pays_of_write` — when a step pays;
    * `RetrySystem.steps_le` — the steps of a run by the calls that return in it.
-/
import Entangle.Lib.Transition
import Mathlib.Algebra.BigOperators.Group.Finset.Piecewise
import Mathlib.Algebra.Order.BigOperators.Group.Finset
import Mathlib.Algebra.Group.Action.Defs
import Mathlib.Data.Fintype.Card

namespace Entangle.Lib

/-! ## §1. Sums over the steps of a run. -/

section Total

variable {S A : Type*}

/-- The sum of `f` over the steps of the run of `as` from `s`. -/
def total (step : S → A → Option S) (f : S → A → Nat) : S → List A → Nat
  | _, [] => 0
  | s, a :: as =>
      match step s a with
      | none => 0
      | some s' => f s a + total step f s' as

/-- `total` adds up. -/
theorem total_add (step : S → A → Option S) (f g : S → A → Nat) (as : List A) :
    ∀ s, total step (fun s a => f s a + g s a) s as = total step f s as + total step g s as := by
  induction as with
  | nil =>
      intro s
      rfl
  | cons a as ih =>
      intro s
      simp only [total]
      split
      next => rfl
      next s' _ =>
        rw [ih s']
        omega

/-- A factor comes out of the sum. -/
theorem total_mul (step : S → A → Option S) (k : Nat) (f : S → A → Nat) (as : List A) :
    ∀ s, total step (fun s a => k * f s a) s as = k * total step f s as := by
  induction as with
  | nil =>
      intro s
      rfl
  | cons a as ih =>
      intro s
      simp only [total]
      split
      next => rfl
      next s' _ => rw [ih s', Nat.mul_add]

/-- A run that goes through has as many steps as labels. -/
theorem total_one {step : S → A → Option S} (as : List A) :
    ∀ {s : S}, (exec step s as).isSome → total step (fun _ _ => 1) s as = as.length := by
  induction as with
  | nil =>
      intro s _
      rfl
  | cons a as ih =>
      intro s h
      simp only [total, exec] at h ⊢
      cases hs : step s a with
      | none => simp [hs] at h
      | some s' =>
          simp only [hs, Option.bind_some] at h
          simp only [ih h, List.length_cons]
          omega

/-- **The amortisation rule.**  Where every step from a state with `Inv` keeps it and
pays its cost out of its credit and of what it takes off the potential, a whole run
costs at most its credit and the initial potential. -/
theorem total_le_of_potential {step : S → A → Option S} (Inv : S → Prop) (Φ : S → Nat)
    (cost credit : S → A → Nat)
    (hinv : ∀ s a s', Inv s → step s a = some s' → Inv s')
    (hstep : ∀ s a s', Inv s → step s a = some s' → cost s a + Φ s' ≤ credit s a + Φ s)
    (as : List A) : ∀ s, Inv s → total step cost s as ≤ total step credit s as + Φ s := by
  induction as with
  | nil =>
      intro s _
      exact Nat.zero_le _
  | cons a as ih =>
      intro s hs₀
      simp only [total]
      split
      next => exact Nat.zero_le _
      next s' hs =>
        have hone := hstep s a s' hs₀ hs
        have hrest := ih s' (hinv s a s' hs₀ hs)
        omega

end Total

/-! ## §2. Systems of retry loops. -/

/-- A step function, seen as threads that run retry loops on shared words. -/
structure RetrySystem (S A T P M : Type*) where
  step : S → A → Option S
  thread : A → T
  -- where a thread stands, and what the shared words say
  pc : S → T → P
  mem : S → M
  -- the thread is in no call
  resting : P → Bool
  -- the word that the thread expects is no longer there
  stale : M → P → Bool
  -- what the thread has ahead of it if nobody gets in its way
  work : P → Nat
  -- what a stale read costs, and the most that a thread can have ahead of it
  penalty : Nat
  call : Nat
  -- how often the step is a compare-exchange that fails for no reason
  spurious : S → A → Nat

namespace RetrySystem

variable {S A T P M : Type*} (R : RetrySystem S A T P M)

/-- What a thread at `p` may still have to do, the shared words being `m`. -/
def weight (m : M) (p : P) : Nat := R.work p + R.penalty * (R.stale m p).toNat

theorem weight_le (m : M) (p : P) : R.weight m p ≤ R.work p + R.penalty := by
  unfold weight
  cases R.stale m p <;> simp

theorem work_le (m : M) (p : P) : R.work p ≤ R.weight m p := Nat.le_add_right _ _

theorem weight_of_fresh {m : M} {p : P} (h : R.stale m p = false) : R.weight m p = R.work p := by
  simp [weight, h]

/-- The step ends a call. -/
def returned (s : S) (a : A) : Nat :=
  ((R.step s a).any (fun s' => R.resting (R.pc s' (R.thread a)))).toNat

/-- What a step may take: a call for each return, a penalty for each failure without
a reason. -/
def credit (s : S) (a : A) : Nat := R.call * R.returned s a + R.penalty * R.spurious s a

theorem call_le_credit {s s' : S} {a : A} (hs : R.step s a = some s')
    (hrest : R.resting (R.pc s' (R.thread a)) = true) : R.call ≤ R.credit s a := by
  have hone : R.returned s a = 1 := by simp [returned, hs, hrest]
  simp only [credit, hone]
  omega

variable [Fintype T]

/-- What all threads may still have to do. -/
def potential (m : M) (pc : T → P) : Nat := ∑ t, R.weight m (pc t)

theorem potential_le {m : M} {pc : T → P} {b : Nat} (h : ∀ p, R.weight m p ≤ b) :
    R.potential m pc ≤ Fintype.card T * b := by
  have hsum := Finset.sum_le_card_nsmul Finset.univ (fun t => R.weight m (pc t)) b
    (fun t _ => h (pc t))
  rwa [Finset.card_univ, smul_eq_mul] at hsum

variable [DecidableEq T]

/-- The potential, the moving thread apart from the others. -/
theorem potential_eq (m : M) (pc : T → P) (t : T) :
    R.potential m pc
      = R.weight m (pc t) + ∑ u ∈ Finset.univ.erase t, R.weight m (pc u) :=
  (Finset.add_sum_erase Finset.univ _ (Finset.mem_univ t)).symm

/-- The others stand where they stood. -/
theorem sum_others_update (m : M) (pc : T → P) (t : T) (p : P) :
    ∑ u ∈ Finset.univ.erase t, R.weight m (Function.update pc t p u)
      = ∑ u ∈ Finset.univ.erase t, R.weight m (pc u) := by
  refine Finset.sum_congr rfl (fun u hu => ?_)
  rw [Function.update_of_ne (Finset.ne_of_mem_erase hu)]

/-- A thread moves on and leaves alone what makes others stale. -/
theorem potential_stay {m m' : M} (hm : R.stale m' = R.stale m) (pc : T → P) (t : T) (p : P) :
    R.potential m' (Function.update pc t p) + R.weight m (pc t)
      = R.potential m pc + R.weight m p := by
  have hweight : R.weight m' = R.weight m := by
    funext q
    simp only [weight, hm]
  rw [R.potential_eq m' _ t, R.potential_eq m pc t, hweight, Function.update_self,
    R.sum_others_update]
  omega

/-- A thread moves on and writes: the others may all have become stale. -/
theorem potential_write (m m' : M) (pc : T → P) (t : T) (p : P) :
    R.potential m' (Function.update pc t p) + R.weight m (pc t)
      ≤ R.potential m pc + R.weight m' p + R.penalty * (Fintype.card T - 1) := by
  have hothers : ∑ u ∈ Finset.univ.erase t, R.weight m' (pc u)
      ≤ ∑ u ∈ Finset.univ.erase t, (R.weight m (pc u) + R.penalty) := by
    refine Finset.sum_le_sum (fun u _ => ?_)
    have hafter := R.weight_le m' (pc u)
    have hbefore := R.work_le m (pc u)
    omega
  rw [Finset.sum_add_distrib, Finset.sum_const, Finset.card_erase_of_mem (Finset.mem_univ t),
    Finset.card_univ, smul_eq_mul, Nat.mul_comm] at hothers
  rw [R.potential_eq m' _ t, R.potential_eq m pc t, Function.update_self, R.sum_others_update]
  omega

/-! ## §3. Every step is paid for. -/

/-- The step takes no more than its credit and what it takes off the potential. -/
def Pays (s : S) (a : A) (s' : S) : Prop :=
  1 + R.potential (R.mem s') (R.pc s') ≤ R.credit s a + R.potential (R.mem s) (R.pc s)

/-- A step that leaves the expected words alone: the thread has come one step
nearer to its return, or it has failed for no reason, or it has returned. -/
theorem pays_of_move {s s' : S} {a : A} {p : P} (hs : R.step s a = some s')
    (hstale : R.stale (R.mem s') = R.stale (R.mem s))
    (hpc : R.pc s' = Function.update (R.pc s) (R.thread a) p)
    (h : 1 + R.weight (R.mem s) p
          ≤ R.penalty * R.spurious s a + R.weight (R.mem s) (R.pc s (R.thread a))
        ∨ R.resting p = true ∧ R.weight (R.mem s) p ≤ R.call
          ∧ 1 ≤ R.weight (R.mem s) (R.pc s (R.thread a))) :
    R.Pays s a s' := by
  have hmove := R.potential_stay hstale (R.pc s) (R.thread a) p
  unfold Pays
  rw [hpc]
  rcases h with hstep | ⟨hrest, hcall, hone⟩
  · simp only [credit]
    omega
  · have hcredit := R.call_le_credit hs (by rw [hpc, Function.update_self]; exact hrest)
    omega

/-- A step that writes: the thread pays for all it makes stale. -/
theorem pays_of_write {s s' : S} {a : A} {p : P} (hs : R.step s a = some s')
    (hpc : R.pc s' = Function.update (R.pc s) (R.thread a) p)
    (hfresh : R.stale (R.mem s') p = false)
    (h : 1 + R.work p + R.penalty * (Fintype.card T - 1)
          ≤ R.weight (R.mem s) (R.pc s (R.thread a))
        ∨ R.resting p = true ∧ R.work p ≤ R.call
          ∧ 1 + R.penalty * (Fintype.card T - 1) ≤ R.weight (R.mem s) (R.pc s (R.thread a))) :
    R.Pays s a s' := by
  have hmove := R.potential_write (R.mem s) (R.mem s') (R.pc s) (R.thread a) p
  rw [R.weight_of_fresh hfresh] at hmove
  unfold Pays
  rw [hpc]
  rcases h with hstep | ⟨hrest, hcall, hone⟩
  · omega
  · have hcredit := R.call_le_credit hs (by rw [hpc, Function.update_self]; exact hrest)
    omega

omit [DecidableEq T] in
/-- **Lock-freedom, with its bound.**  Where every step from a state with `Inv` pays,
and a call is at most `c` as soon as there is a thread, the steps of a run are bounded
by the calls that return in it. -/
theorem steps_le (Inv : S → Prop) (hinv : ∀ s a s', Inv s → R.step s a = some s' → Inv s')
    (hpays : ∀ s a s', Inv s → R.step s a = some s' → R.Pays s a s')
    (hcall : ∀ m p, R.weight m p ≤ R.call) {c : Nat} (hc : T → R.call ≤ c) {s : S} (hs : Inv s)
    {as : List A} (hrun : (exec R.step s as).isSome) :
    as.length ≤ c * (total R.step R.returned s as + Fintype.card T)
      + R.penalty * total R.step R.spurious s as := by
  cases as with
  | nil => exact Nat.zero_le _
  | cons a as =>
      have hpaid := total_le_of_potential Inv (fun s => R.potential (R.mem s) (R.pc s))
        (fun _ _ => 1) R.credit hinv hpays (a :: as) s hs
      have hstart : R.potential (R.mem s) (R.pc s) ≤ Fintype.card T * R.call :=
        R.potential_le (hcall (R.mem s))
      have hcredit : total R.step R.credit s (a :: as)
          = R.call * total R.step R.returned s (a :: as)
            + R.penalty * total R.step R.spurious s (a :: as) := by
        rw [← total_mul, ← total_mul, ← total_add]
        rfl
      have hmul := Nat.mul_le_mul_right
        (total R.step R.returned s (a :: as) + Fintype.card T) (hc (R.thread a))
      rw [total_one _ hrun, hcredit] at hpaid
      rw [Nat.mul_add, Nat.mul_comm R.call (Fintype.card T)] at hmul
      omega

end RetrySystem

end Entangle.Lib
