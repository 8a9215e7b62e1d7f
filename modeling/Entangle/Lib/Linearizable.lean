/-
  Entangle.Lib.Linearizable — concurrent objects that behave as if every call
  took effect at one moment between its invocation and its return.

  The sequential object is a relation `spec q o r q'`: operation `o` on `q` may
  return `r` and leave `q'`.  The atomic object accepts invocations and returns
  from any number of threads and lets each call take effect, once, in between; a
  history of invocations and returns is linearizable when the atomic object can
  produce it.

  Main definitions:
    * `Atomic spec q₀` — the histories of the atomic object, with the state of the
      sequential object and the phase of every thread at their end;
    * `Traced` — the runs of a system with the history that they show.

  Main rules:
    * `CallerView` — threads with places in their code, and a rule for each thing that
      a step can do for the call of its thread (`silent`, `call`, `effect`, `ret`, …);
    * `Atomic.of_traced` — where every step of a system extends the history as the
      atomic object can, every run does;
    * `Atomic.order` — the calls take effect in one order that the sequential object
      accepts.
-/
import Entangle.Lib.Transition
import Mathlib.Logic.Function.Basic

namespace Entangle.Lib

/-- What an observer sees. -/
inductive Event (T O R : Type*) where
  | call (t : T) (op : O)
  | ret (t : T) (r : R)
  deriving Repr, DecidableEq

/-- How far a thread is with its call. -/
inductive Phase (O R : Type*) where
  | idle
  -- invoked, without effect so far
  | called (op : O)
  -- has taken effect, not yet returned
  | done (r : R)
  deriving Repr, DecidableEq

variable {T O R Q : Type*} [DecidableEq T]

/-! ## §1. The atomic object. -/

/-- The atomic object has shown the history `h`, its state is `q`, thread `t` is in
phase `f t`, and the calls have taken effect in the order `l`. -/
inductive Atomic (spec : Q → O → R → Q → Prop) (q₀ : Q) :
    List (Event T O R) → List (T × O × R) → Q → (T → Phase O R) → Prop
  | start : Atomic spec q₀ [] [] q₀ (fun _ => .idle)
  | call {h : List (Event T O R)} {l : List (T × O × R)} {q : Q} {f : T → Phase O R} (t : T)
      (op : O) : Atomic spec q₀ h l q f → f t = .idle →
      Atomic spec q₀ (h ++ [.call t op]) l q (Function.update f t (.called op))
  | effect {h : List (Event T O R)} {l : List (T × O × R)} {q q' : Q} {f : T → Phase O R} (t : T)
      (op : O) (r : R) : Atomic spec q₀ h l q f → f t = .called op → spec q op r q' →
      Atomic spec q₀ h (l ++ [(t, op, r)]) q' (Function.update f t (.done r))
  | ret {h : List (Event T O R)} {l : List (T × O × R)} {q : Q} {f : T → Phase O R} (t : T)
      (r : R) : Atomic spec q₀ h l q f → f t = .done r →
      Atomic spec q₀ (h ++ [.ret t r]) l q (Function.update f t .idle)

namespace Atomic

variable {spec : Q → O → R → Q → Prop} {q₀ : Q} {h : List (Event T O R)} {l : List (T × O × R)}
  {q q' : Q} {f : T → Phase O R}

/-- A pending call takes effect and returns at once. -/
theorem finish (ha : Atomic spec q₀ h l q f) (t : T) (op : O) (r : R) (hf : f t = .called op)
    (hspec : spec q op r q') :
    Atomic spec q₀ (h ++ [.ret t r]) (l ++ [(t, op, r)]) q' (Function.update f t .idle) := by
  have heffect := (ha.effect t op r hf hspec).ret t r (Function.update_self t _ f)
  rwa [Function.update_idem] at heffect

/-- A call is made, takes effect and returns at once. -/
theorem immediate (ha : Atomic spec q₀ h l q f) (t : T) (op : O) (r : R) (hf : f t = .idle)
    (hspec : spec q op r q') :
    Atomic spec q₀ (h ++ [.call t op, .ret t r]) (l ++ [(t, op, r)]) q'
      (Function.update f t .idle) := by
  have hcall := (ha.call t op hf).finish t op r (Function.update_self t _ f) hspec
  rwa [Function.update_idem, List.append_assoc] at hcall

end Atomic

/-! ## §2. The order in which the calls take effect. -/

/-- The sequential object runs the calls of a list one after the other. -/
inductive Sequential (spec : Q → O → R → Q → Prop) (q₀ : Q) : List (T × O × R) → Q → Prop
  | nil : Sequential spec q₀ [] q₀
  | snoc {l : List (T × O × R)} {q q' : Q} (t : T) (op : O) (r : R) :
      Sequential spec q₀ l q → spec q op r q' → Sequential spec q₀ (l ++ [(t, op, r)]) q'

/-- **The calls take effect one after the other**, and the state is what that leaves. -/
theorem Atomic.order {spec : Q → O → R → Q → Prop} {q₀ : Q} {h : List (Event T O R)}
    {l : List (T × O × R)} {q : Q} {f : T → Phase O R} (ha : Atomic spec q₀ h l q f) :
    Sequential spec q₀ l q := by
  induction ha with
  | start => exact .nil
  | call t op _ _ ih => exact ih
  | effect t op r _ _ hspec ih => exact ih.snoc t op r hspec
  | ret t r _ _ ih => exact ih

/-! ## §3. Systems that show a history. -/

variable {S A : Type*}

/-- The runs from `s₀` in which every step meets `ok`, with the history that the
steps show. -/
inductive Traced (step : S → A → Option S) (ok : S → A → Prop) (shows : S → A → List (Event T O R))
    (s₀ : S) : List (Event T O R) → S → Prop
  | refl : Traced step ok shows s₀ [] s₀
  | tail {h : List (Event T O R)} {s s' : S} {a : A} : Traced step ok shows s₀ h s → ok s a →
      step s a = some s' → Traced step ok shows s₀ (h ++ shows s a) s'

omit [DecidableEq T] in
/-- A run with its history is a run. -/
theorem Traced.reach {step : S → A → Option S} {ok : S → A → Prop}
    {shows : S → A → List (Event T O R)} {s₀ s : S} {h : List (Event T O R)}
    (ht : Traced step ok shows s₀ h s) : Reach step ok s₀ s := by
  induction ht with
  | refl => exact .refl
  | tail _ hok hs ih => exact ih.tail hok hs

/-- **The simulation rule.**  Where a step of the system from a state that `Rel`ates to
one of the atomic object can be followed by the atomic object, so can every run. -/
theorem Atomic.of_traced {step : S → A → Option S} {ok : S → A → Prop}
    {shows : S → A → List (Event T O R)} {s₀ : S} {spec : Q → O → R → Q → Prop} {q₀ : Q}
    (Rel : S → Q → (T → Phase O R) → Prop) (hinit : Rel s₀ q₀ (fun _ => .idle))
    (hstep : ∀ s a s' h l q f, Rel s q f → ok s a → step s a = some s' → Atomic spec q₀ h l q f →
      ∃ l' q' f', Atomic spec q₀ (h ++ shows s a) l' q' f' ∧ Rel s' q' f')
    {h : List (Event T O R)} {s : S} (htraced : Traced step ok shows s₀ h s) :
    ∃ l q f, Atomic spec q₀ h l q f ∧ Rel s q f := by
  induction htraced with
  | refl => exact ⟨[], q₀, _, .start, hinit⟩
  | tail _ hok hs ih =>
      obtain ⟨l, q, f, ha, hrel⟩ := ih
      exact hstep _ _ _ _ l q f hrel hok hs ha

instance decidableAnyStep (s : S) (a : A) : Decidable (anyStep s a) := isTrue trivial

/-- A checked run of labels, with the history that it shows. -/
def traceOk (step : S → A → Option S) (ok : S → A → Prop) [∀ s a, Decidable (ok s a)]
    (shows : S → A → List (Event T O R)) :
    List (Event T O R) × S → List A → Option (List (Event T O R) × S)
  | p, [] => some p
  | p, a :: as =>
      if ok p.2 a then
        (step p.2 a).bind (fun s' => traceOk step ok shows (p.1 ++ shows p.2 a, s') as)
      else none

omit [DecidableEq T] in
theorem Traced.of_traceOk {step : S → A → Option S} {ok : S → A → Prop}
    [∀ s a, Decidable (ok s a)] {shows : S → A → List (Event T O R)} {s₀ : S} (as : List A) :
    ∀ {p p' : List (Event T O R) × S}, Traced step ok shows s₀ p.1 p.2 →
      traceOk step ok shows p as = some p' → Traced step ok shows s₀ p'.1 p'.2 := by
  induction as with
  | nil =>
      intro p p' ht h
      injection h with h
      exact h ▸ ht
  | cons a as ih =>
      intro p p' ht h
      simp only [traceOk] at h
      split at h
      next hok =>
        obtain ⟨s, hs, hrest⟩ := Option.bind_eq_some_iff.mp h
        exact ih (.tail ht hok hs) hrest
      next => exact absurd h (by simp)

/-! ## §4. Threads seen by their callers. -/

/-- How the steps of a system look to those who call its threads. -/
structure CallerView (S A T P O R : Type*) where
  step : S → A → Option S
  thread : A → T
  pc : S → T → P
  -- the call that a step starts
  calls : A → Option O
  -- what is returned by a step from the first place to the second
  returns : P → P → Option R
  -- how far a thread is that stands at a place
  phase : S → P → Phase O R

namespace CallerView

variable {P : Type*} (V : CallerView S A T P O R)

/-- What is seen of a step: the call that it starts, the return that it makes. -/
def shows (s : S) (a : A) : List (Event T O R) :=
  ((V.calls a).map (Event.call (V.thread a))).toList
    ++ (((V.step s a).bind (fun s' =>
        V.returns (V.pc s (V.thread a)) (V.pc s' (V.thread a)))).map
          (Event.ret (V.thread a))).toList

def phases (s : S) (t : T) : Phase O R := V.phase s (V.pc s t)

omit [DecidableEq T] in
theorem shows_eq {s s' : S} {a : A} {p : P} (hs : V.step s a = some s')
    (hp : V.pc s' (V.thread a) = p) :
    V.shows s a = ((V.calls a).map (Event.call (V.thread a))).toList
      ++ ((V.returns (V.pc s (V.thread a)) p).map (Event.ret (V.thread a))).toList := by
  simp only [shows, hs, Option.bind_some, hp]

/-- A step takes its thread to `p`, in phase `ph`, and leaves the others in theirs. -/
structure Moves (s : S) (a : A) (s' : S) (p : P) (ph : Phase O R) : Prop where
  step : V.step s a = some s'
  place : V.pc s' (V.thread a) = p
  phases : V.phases s' = Function.update (V.phases s) (V.thread a) ph

/-- Where all that changes is the place of one thread. -/
theorem Moves.of_update {s s' : S} {a : A} {p : P} (hs : V.step s a = some s')
    (hpc : V.pc s' = Function.update (V.pc s) (V.thread a) p)
    (hphase : ∀ t, t ≠ V.thread a → V.phase s' (V.pc s t) = V.phase s (V.pc s t)) :
    V.Moves s a s' p (V.phase s' p) where
  step := hs
  place := by rw [hpc, Function.update_self]
  phases := by
    funext t
    unfold CallerView.phases
    rw [hpc]
    by_cases ht : t = V.thread a
    · rw [ht, Function.update_self, Function.update_self]
    · rw [Function.update_of_ne ht, Function.update_of_ne ht]
      exact hphase t ht

variable {V} {spec : Q → O → R → Q → Prop} {q₀ : Q} {h : List (Event T O R)}
  {l : List (T × O × R)} {q q' : Q} {s s' : S} {a : A} {p : P} {op : O} {r : R}

/-- A step inside a call, without effect. -/
theorem Moves.silent {ph : Phase O R} (hm : V.Moves s a s' p ph)
    (ha : Atomic spec q₀ h l q (V.phases s))
    (hcalls : V.calls a = none) (hret : V.returns (V.pc s (V.thread a)) p = none)
    (hph : ph = V.phases s (V.thread a)) :
    Atomic spec q₀ (h ++ V.shows s a) l q (V.phases s') := by
  rw [V.shows_eq hm.step hm.place, hcalls, hret, hm.phases, hph, Function.update_eq_self]
  simpa using ha

/-- The effect of a call. -/
theorem Moves.effect (hm : V.Moves s a s' p (.done r))
    (ha : Atomic spec q₀ h l q (V.phases s))
    (hcalls : V.calls a = none) (hret : V.returns (V.pc s (V.thread a)) p = none)
    (hcalled : V.phases s (V.thread a) = .called op) (hspec : spec q op r q') :
    Atomic spec q₀ (h ++ V.shows s a) (l ++ [(V.thread a, op, r)]) q' (V.phases s') := by
  rw [V.shows_eq hm.step hm.place, hcalls, hret, hm.phases]
  simpa using ha.effect (V.thread a) op r hcalled hspec

/-- The return of a call that has had its effect. -/
theorem Moves.ret (hm : V.Moves s a s' p .idle) (ha : Atomic spec q₀ h l q (V.phases s))
    (hcalls : V.calls a = none) (hret : V.returns (V.pc s (V.thread a)) p = some r)
    (hdone : V.phases s (V.thread a) = .done r) :
    Atomic spec q₀ (h ++ V.shows s a) l q (V.phases s') := by
  rw [V.shows_eq hm.step hm.place, hcalls, hret, hm.phases]
  exact ha.ret (V.thread a) r hdone

/-- The effect of a call, which returns with it. -/
theorem Moves.finish (hm : V.Moves s a s' p .idle) (ha : Atomic spec q₀ h l q (V.phases s))
    (hcalls : V.calls a = none) (hret : V.returns (V.pc s (V.thread a)) p = some r)
    (hcalled : V.phases s (V.thread a) = .called op) (hspec : spec q op r q') :
    Atomic spec q₀ (h ++ V.shows s a) (l ++ [(V.thread a, op, r)]) q' (V.phases s') := by
  rw [V.shows_eq hm.step hm.place, hcalls, hret, hm.phases]
  exact ha.finish (V.thread a) op r hcalled hspec

/-- The start of a call. -/
theorem Moves.call (hm : V.Moves s a s' p (.called op))
    (ha : Atomic spec q₀ h l q (V.phases s))
    (hcalls : V.calls a = some op) (hret : V.returns (V.pc s (V.thread a)) p = none)
    (hidle : V.phases s (V.thread a) = .idle) :
    Atomic spec q₀ (h ++ V.shows s a) l q (V.phases s') := by
  rw [V.shows_eq hm.step hm.place, hcalls, hret, hm.phases]
  simpa using ha.call (V.thread a) op hidle

/-- A call that has its effect and returns in its first step. -/
theorem Moves.immediate (hm : V.Moves s a s' p .idle) (ha : Atomic spec q₀ h l q (V.phases s))
    (hcalls : V.calls a = some op) (hret : V.returns (V.pc s (V.thread a)) p = some r)
    (hidle : V.phases s (V.thread a) = .idle) (hspec : spec q op r q') :
    Atomic spec q₀ (h ++ V.shows s a) (l ++ [(V.thread a, op, r)]) q' (V.phases s') := by
  rw [V.shows_eq hm.step hm.place, hcalls, hret, hm.phases]
  exact ha.immediate (V.thread a) op r hidle hspec

end CallerView

end Entangle.Lib
