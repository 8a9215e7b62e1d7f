/-
  Entangle.Lib.Transition — labelled transition systems given by a partial
  step function.

  A system is a function `step : S → A → Option S`: the label `a : A` says who
  moves and how every choice is resolved, `none` says that the move is not
  enabled.  All nondeterminism of an interleaving is in the labels, so a run
  is a list of labels and can be evaluated.

  Main definitions:
    * `Reach step ok s₀ s` — `s` is reached from `s₀` by a run in which every
      step meets the side condition `ok` (a condition on the state before the
      step and on the label);
    * `exec` — run a list of labels;
    * `Execution` — an infinite timed run (idle instants allowed), for
      statements about "some moment between two events".

  Main rules:
    * `Reach.invariant` — what holds initially and is kept by every step holds
      of every reachable state;
    * `Execution.invariant`, `Execution.mono_of_step`, `Execution.const_of_step` —
      the same along a timed run, or along a stretch of it;
    * `Scanned.next` — cells looked at one after another during a run.
-/
import Mathlib.Order.Monotone.Basic
import Mathlib.Order.Nat

namespace Entangle.Lib

variable {S A : Type*}

/-! ## §1. Reachability under a side condition. -/

/-- The states reached from `s₀` by steps that all meet `ok`. -/
inductive Reach (step : S → A → Option S) (ok : S → A → Prop) (s₀ : S) : S → Prop
  | refl : Reach step ok s₀ s₀
  | tail {s s' : S} {a : A} :
      Reach step ok s₀ s → ok s a → step s a = some s' → Reach step ok s₀ s'

/-- No side condition. -/
def anyStep (_ : S) (_ : A) : Prop := True

/-- **The invariant rule.** -/
theorem Reach.invariant {step : S → A → Option S} {ok : S → A → Prop} {s₀ : S}
    (Inv : S → Prop) (hinit : Inv s₀)
    (hstep : ∀ s a s', Inv s → ok s a → step s a = some s' → Inv s')
    {s : S} (h : Reach step ok s₀ s) : Inv s := by
  induction h with
  | refl => exact hinit
  | tail _ hok hs ih => exact hstep _ _ _ ih hok hs

/-- The invariant rule, with reachability of the source state at hand. -/
theorem Reach.invariant_of_reach {step : S → A → Option S} {ok : S → A → Prop} {s₀ : S}
    (Inv : S → Prop) (hinit : Inv s₀)
    (hstep : ∀ s a s', Reach step ok s₀ s → Inv s → ok s a → step s a = some s' → Inv s')
    {s : S} (h : Reach step ok s₀ s) : Inv s := by
  induction h with
  | refl => exact hinit
  | tail hr hok hs ih => exact hstep _ _ _ hr ih hok hs

/-- A run may be continued by another. -/
theorem Reach.trans {step : S → A → Option S} {ok : S → A → Prop} {s₀ s₁ s₂ : S}
    (h : Reach step ok s₀ s₁) (h' : Reach step ok s₁ s₂) : Reach step ok s₀ s₂ := by
  induction h' with
  | refl => exact h
  | tail _ hok hs ih => exact ih.tail hok hs

/-! ## §2. Running a list of labels. -/

/-- Run the labels in order; `none` if one of them is not enabled. -/
def exec (step : S → A → Option S) : S → List A → Option S
  | s, [] => some s
  | s, a :: as => (step s a).bind (fun s' => exec step s' as)

/-- Run the labels in order, checking the side condition at every step. -/
def execOk (step : S → A → Option S) (ok : S → A → Prop) [∀ s a, Decidable (ok s a)] :
    S → List A → Option S
  | s, [] => some s
  | s, a :: as =>
      if ok s a then (step s a).bind (fun s' => execOk step ok s' as) else none

/-- A checked run ends in a state reachable under the side condition. -/
theorem Reach.of_execOk {step : S → A → Option S} {ok : S → A → Prop}
    [∀ s a, Decidable (ok s a)] {s₀ : S} (as : List A) :
    ∀ {s s' : S}, Reach step ok s₀ s → execOk step ok s as = some s' →
      Reach step ok s₀ s' := by
  induction as with
  | nil =>
      intro s s' hr h
      injection h with h
      exact h ▸ hr
  | cons a as ih =>
      intro s s' hr h
      simp only [execOk] at h
      split at h
      next hok =>
        obtain ⟨t, ht, hrest⟩ := Option.bind_eq_some_iff.mp h
        exact ih (.tail hr hok ht) hrest
      next => exact absurd h (by simp)

/-- A run without side condition reaches its last state. -/
theorem Reach.of_exec {step : S → A → Option S} {s₀ : S} (as : List A) :
    ∀ {s s' : S}, Reach step anyStep s₀ s → exec step s as = some s' →
      Reach step anyStep s₀ s' := by
  induction as with
  | nil =>
      intro s s' hr h
      injection h with h
      exact h ▸ hr
  | cons a as ih =>
      intro s s' hr h
      obtain ⟨t, ht, hrest⟩ := Option.bind_eq_some_iff.mp h
      exact ih (.tail hr trivial ht) hrest

/-! ## §3. Timed runs. -/

/-- An infinite run with idle instants: at instant `i` either nothing happens
(`act i = none`) or one step is taken.  A finite run is one that idles from
some instant on. -/
structure Execution (step : S → A → Option S) (s₀ : S) where
  state : Nat → S
  act : Nat → Option A
  start : state 0 = s₀
  idle : ∀ i, act i = none → state (i + 1) = state i
  move : ∀ i a, act i = some a → step (state i) a = some (state (i + 1))

namespace Execution

variable {step : S → A → Option S} {s₀ : S}

/-- Every instant's state is reachable. -/
theorem reach (e : Execution step s₀) (i : Nat) : Reach step anyStep s₀ (e.state i) := by
  induction i with
  | zero => rw [e.start]; exact .refl
  | succ i ih =>
      cases h : e.act i with
      | none => rw [e.idle i h]; exact ih
      | some a => exact .tail ih trivial (e.move i a h)

/-- What every reachable state satisfies holds at every instant. -/
theorem invariant (e : Execution step s₀) (Inv : S → Prop) (hinit : Inv s₀)
    (hstep : ∀ s a s', Inv s → step s a = some s' → Inv s') (i : Nat) : Inv (e.state i) :=
  (e.reach i).invariant Inv hinit (fun s a s' hi _ hs => hstep s a s' hi hs)

/-- A measure that no step lowers is monotone in time. -/
theorem mono_of_step {β : Type*} [Preorder β] (e : Execution step s₀) (f : S → β)
    (hstep : ∀ s a s', step s a = some s' → f s ≤ f s') :
    Monotone (fun i => f (e.state i)) := by
  apply monotone_nat_of_le_succ
  intro i
  cases h : e.act i with
  | none => rw [e.idle i h]
  | some a => exact hstep _ _ _ (e.move i a h)

/-- What no step from a `P` to a `P` changes stays the same for as long as `P` holds. -/
theorem const_of_step {β : Type*} (e : Execution step s₀) (P : S → Prop) (f : S → β)
    (hstep : ∀ s a s', P s → P s' → step s a = some s' → f s' = f s) {i j : Nat} (hij : i ≤ j)
    (hP : ∀ k, i ≤ k → k ≤ j → P (e.state k)) : f (e.state j) = f (e.state i) := by
  induction j, hij using Nat.le_induction with
  | base => rfl
  | succ j hij ih =>
      have hbefore := ih (fun k hlow hhigh => hP k hlow (Nat.le_succ_of_le hhigh))
      cases h : e.act j with
      | none =>
          rw [e.idle j h]
          exact hbefore
      | some a =>
          have hkept := hstep _ _ _ (hP j hij (Nat.le_succ j))
            (hP (j + 1) (Nat.le_succ_of_le hij) (Nat.le_refl _)) (e.move j a h)
          exact hkept.trans hbefore

end Execution

/-! ## §4. A list of labels as a timed run. -/

theorem exec_append (step : S → A → Option S) (as bs : List A) :
    ∀ s, exec step s (as ++ bs) = (exec step s as).bind (fun s' => exec step s' bs) := by
  induction as with
  | nil =>
      intro s
      rfl
  | cons a as ih =>
      intro s
      simp only [List.cons_append, exec, Option.bind_assoc, ih]

/-- One more label. -/
theorem exec_take_succ (step : S → A → Option S) (s₀ : S) {as : List A} {i : Nat} {a : A}
    (h : as[i]? = some a) :
    exec step s₀ (as.take (i + 1)) = (exec step s₀ (as.take i)).bind (fun s => step s a) := by
  have hone : ∀ s, exec step s [a] = step s a := by
    intro s
    simp [exec]
  rw [List.take_add_one, h, exec_append]
  simp only [Option.toList_some, hone]

/-- Every beginning of a run that goes through goes through. -/
theorem exec_take_isSome {step : S → A → Option S} {s₀ : S} {as : List A}
    (h : (exec step s₀ as).isSome) (i : Nat) : (exec step s₀ (as.take i)).isSome := by
  rw [← List.take_append_drop i as, exec_append] at h
  exact Option.isSome_of_isSome_bind h

/-- The run of `as`, idle afterwards. -/
def Execution.ofExec (step : S → A → Option S) (s₀ : S) (as : List A)
    (h : (exec step s₀ as).isSome) : Execution step s₀ where
  state i := (exec step s₀ (as.take i)).get (exec_take_isSome h i)
  act i := as[i]?
  start := rfl
  idle i hi := by
    have hlen : as.length ≤ i := List.getElem?_eq_none_iff.mp hi
    simp only [List.take_of_length_le hlen, List.take_of_length_le (Nat.le_succ_of_le hlen)]
  move i a ha := by
    have hs := Option.some_get (exec_take_isSome h (i + 1))
    rw [hs, exec_take_succ step s₀ ha]
    obtain ⟨s, hs⟩ := Option.isSome_iff_exists.mp (exec_take_isSome h i)
    simp [hs]

/-- After its last label the run stays where it is. -/
theorem Execution.ofExec_state_of_le {step : S → A → Option S} {s₀ : S} {as : List A}
    (h : (exec step s₀ as).isSome) {i : Nat} (hi : as.length ≤ i) :
    (Execution.ofExec step s₀ as h).state i = (exec step s₀ as).get h := by
  simp only [Execution.ofExec, List.take_of_length_le hi]

/-! ## §5. Looking at cells one after another. -/

/-- The cells before `k` have been looked at in their order, each at a moment from
`lo` on and before `hi`, when `P` was true of the cell. -/
def Scanned (P : Nat → Nat → Prop) (lo hi k : Nat) : Prop :=
  ∃ moment : Nat → Nat, Monotone moment
    ∧ ∀ c < k, lo ≤ moment c ∧ moment c < hi ∧ P c (moment c)

namespace Scanned

variable {P Q : Nat → Nat → Prop} {lo hi k : Nat}

theorem nothing : Scanned P lo hi 0 :=
  ⟨fun _ => lo, monotone_const, fun c hc => absurd hc (by omega)⟩

theorem weaken (h : Scanned P lo hi k) (hP : ∀ c m, c < k → P c m → Q c m) :
    Scanned Q lo hi k := by
  obtain ⟨moment, hmono, hseen⟩ := h
  refine ⟨moment, hmono, fun c hc => ?_⟩
  obtain ⟨hlo, hhi, hcell⟩ := hseen c hc
  exact ⟨hlo, hhi, hP c _ hc hcell⟩

/-- Time goes on. -/
theorem later (h : Scanned P lo hi k) {hi' : Nat} (hle : hi ≤ hi') : Scanned P lo hi' k := by
  obtain ⟨moment, hmono, hseen⟩ := h
  refine ⟨moment, hmono, fun c hc => ?_⟩
  obtain ⟨hlo, hhi, hcell⟩ := hseen c hc
  exact ⟨hlo, by omega, hcell⟩

/-- The next cell is looked at. -/
theorem next (h : Scanned P lo hi k) (hle : lo ≤ hi) (hP : P k hi) :
    Scanned P lo (hi + 1) (k + 1) := by
  obtain ⟨moment, hmono, hseen⟩ := h
  refine ⟨fun c => if c < k then moment c else hi, ?_, ?_⟩
  · intro c d hcd
    have hle := hmono hcd
    have hc := hseen c
    simp only
    split <;> split <;> omega
  · intro c hc
    by_cases hck : c < k
    · obtain ⟨hlo, hhi, hcell⟩ := hseen c hck
      simp only [if_pos hck]
      exact ⟨hlo, by omega, hcell⟩
    · obtain rfl : c = k := by omega
      simp only [if_neg hck]
      exact ⟨hle, by omega, hP⟩

end Scanned

end Entangle.Lib
