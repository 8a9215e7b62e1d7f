/-
  Entangle.Lockfree.SpscObservers — `len`, `is_empty` and `is_full` of
  `SpscQueue` while one thread pushes and another pops.

  An observer loads `read_pos`, then `write_pos`, and answers from the wrapping
  difference; between its two loads both positions may move.  The system is
  that of `Entangle.Lockfree.SpscSteps` with any number of observers, the
  producer and the consumer among them: while one of these two observes, it
  does not push or pop, so one of the two positions stands still.

  The positions are the low words of two counters that only grow.  Whatever an
  observer answers, it answers from the number of values pushed before its
  second load less the number popped before its first (`CallSpan.answer_eq`).

  Main results:
    * `Inv.step` — a producer or consumer that observes is not in a push or pop;
    * `observers_consistent` — exact answers for the producer and the consumer,
      upper bounds for every other thread.
-/
import Entangle.Lockfree.SpscSteps

namespace Entangle.Lockfree.SpscObservers

open Entangle.Lib

/-! ## §1. The accesses of one call. -/

inductive Observer where
  | len
  | isEmpty
  | isFull
  deriving Repr, DecidableEq

inductive Answer where
  | number (n : Nat)
  | flag (b : Bool)
  deriving Repr, DecidableEq

/-- The second access: `write_pos` is loaded and compared with the `read` of the first. -/
def observerAccess (q : SpscQueue) (read : U64) : Observer → Answer
  | .len => .number (q.writePos - read).toNat
  | .isEmpty => .flag (read = q.writePos)
  | .isFull => .flag ((q.writePos - read).toNat ≥ q.capacity)

/-- A call run without interruption is the function of `SpscQueue`. -/
theorem observerAccess_alone (q : SpscQueue) :
    observerAccess q q.readPos .len = .number q.len
      ∧ observerAccess q q.readPos .isEmpty = .flag q.isEmpty
      ∧ observerAccess q q.readPos .isFull = .flag q.isFull :=
  ⟨rfl, rfl, rfl⟩

/-- The answer of an observer that has counted `n` values. -/
def counted (capacity n : Nat) : Observer → Answer
  | .len => .number n
  | .isEmpty => .flag (n = 0)
  | .isFull => .flag (n ≥ capacity)

/-- **The difference of the positions does not wrap** as long as the counters
they stand for are in order and less than 2^64 apart. -/
theorem observerAccess_eq {q : SpscQueue} {r w : Nat} (hwrite : q.writePos = BitVec.ofNat 64 w)
    (hle : r ≤ w) (hlt : w - r < 2 ^ 64) (k : Observer) :
    observerAccess q (BitVec.ofNat 64 r) k = counted q.capacity (w - r) k := by
  have hsub : (q.writePos - BitVec.ofNat 64 r).toNat = w - r := by
    rw [hwrite]
    exact ofNat_sub_toNat 64 r w hle hlt
  cases k with
  | len =>
      show Answer.number _ = .number _
      rw [hsub]
  | isEmpty =>
      show Answer.flag _ = .flag _
      congr 1
      rw [hwrite]
      apply decide_eq_decide.mpr
      constructor
      · intro he
        have := ofNat_inj_of_close 64 r w hle hlt he.symm
        omega
      · intro hz
        obtain rfl : r = w := by omega
        rfl
  | isFull =>
      show Answer.flag _ = .flag _
      rw [hsub]

/-! ## §2. The queue and its observers. -/

/-- Who calls an observer: one of the two ends, or any other thread. -/
inductive Caller (Tid : Type) where
  | producer
  | consumer
  | other (t : Tid)
  deriving Repr, DecidableEq

inductive ObserverPc where
  | idle
  -- read_pos loaded, write_pos to be loaded
  | loadedRead (k : Observer) (read : U64)
  | returned (k : Observer) (answer : Answer)
  deriving Repr, DecidableEq

/-- The thread is not in an observer. -/
def ObserverPc.resting : ObserverPc → Bool
  | .idle | .returned _ _ => true
  | .loadedRead _ _ => false

/-- The queue with its two ends, and the calls of the observers, the ends among them. -/
structure State (Tid : Type) where
  ends : SpscSteps.State
  observer : Caller Tid → ObserverPc

inductive Act (Tid : Type) where
  | ends (a : SpscSteps.Act)
  -- the call and its load of read_pos
  | call (c : Caller Tid) (k : Observer)
  -- the load of write_pos and the return
  | load (c : Caller Tid)
  deriving Repr, DecidableEq

variable {Tid : Type} [DecidableEq Tid]

/-- The caller is not in a `push` or `pop`. -/
def State.free (s : State Tid) : Caller Tid → Bool
  | .producer => s.ends.producer = .idle
  | .consumer => s.ends.consumer = .idle
  | .other _ => true

/-- A `push` or `pop` starts only when its thread is not in an observer. -/
def State.mayStart (s : State Tid) : SpscSteps.Act → Bool
  | .push _ => (s.observer .producer).resting
  | .pop => (s.observer .consumer).resting
  | .producer | .consumer => true

def State.setObserver (s : State Tid) (c : Caller Tid) (pc : ObserverPc) : State Tid :=
  { s with observer := Function.update s.observer c pc }

@[simp] theorem State.setObserver_ends (s : State Tid) (c : Caller Tid) (pc : ObserverPc) :
    (s.setObserver c pc).ends = s.ends := rfl

@[simp] theorem State.setObserver_self (s : State Tid) (c : Caller Tid) (pc : ObserverPc) :
    (s.setObserver c pc).observer c = pc := by
  simp only [State.setObserver, Function.update_self]

theorem State.setObserver_ne (s : State Tid) {c d : Caller Tid} (pc : ObserverPc) (h : d ≠ c) :
    (s.setObserver c pc).observer d = s.observer d := by
  simp only [State.setObserver, Function.update_of_ne h]

/-- One access. -/
def step (s : State Tid) : Act Tid → Option (State Tid)
  | .ends a =>
      if s.mayStart a then (SpscSteps.step s.ends a).map (fun ends => { s with ends := ends })
      else none
  | .call c k =>
      if (s.observer c).resting && s.free c then
        some (s.setObserver c (.loadedRead k s.ends.queue.readPos))
      else none
  | .load c =>
      match s.observer c with
      | .loadedRead k read =>
          some (s.setObserver c (.returned k (observerAccess s.ends.queue read k)))
      | .idle | .returned _ _ => none

def init (capacity : Nat) : State Tid :=
  { ends := SpscSteps.init capacity, observer := fun _ => .idle }

/-- What one step can do. -/
theorem step_cases {s s' : State Tid} {a : Act Tid} (h : step s a = some s') :
    (∃ b ends, a = .ends b ∧ s.mayStart b = true ∧ SpscSteps.step s.ends b = some ends
        ∧ s' = { s with ends := ends })
      ∨ (∃ c k, a = .call c k ∧ (s.observer c).resting = true ∧ s.free c = true
        ∧ s' = s.setObserver c (.loadedRead k s.ends.queue.readPos))
      ∨ (∃ c k read, a = .load c ∧ s.observer c = .loadedRead k read
        ∧ s' = s.setObserver c (.returned k (observerAccess s.ends.queue read k))) := by
  cases a with
  | ends b =>
      simp only [step, Option.ite_none_right_eq_some] at h
      obtain ⟨hmay, h⟩ := h
      obtain ⟨ends, hends, rfl⟩ := Option.map_eq_some_iff.mp h
      exact .inl ⟨b, ends, rfl, hmay, hends, rfl⟩
  | call c k =>
      simp only [step, Option.ite_none_right_eq_some, Bool.and_eq_true, Option.some.injEq] at h
      obtain ⟨⟨hrest, hfree⟩, rfl⟩ := h
      exact .inr (.inl ⟨c, k, rfl, hrest, hfree, rfl⟩)
  | load c =>
      simp only [step] at h
      split at h
      next k read hpc =>
        injection h with h
        exact .inr (.inr ⟨c, k, read, rfl, hpc, h.symm⟩)
      next => exact absurd h (by simp)
      next => exact absurd h (by simp)

/-- The second load waits for nobody. -/
theorem load_returns {s : State Tid} {c : Caller Tid} (hin : (s.observer c).resting = false) :
    ∃ s' k answer, step s (.load c) = some s' ∧ s'.observer c = .returned k answer := by
  cases hpc : s.observer c with
  | idle => exact absurd hin (by simp [hpc, ObserverPc.resting])
  | returned k answer => exact absurd hin (by simp [hpc, ObserverPc.resting])
  | loadedRead k read =>
      refine ⟨s.setObserver c (.returned k (observerAccess s.ends.queue read k)), k,
        observerAccess s.ends.queue read k, ?_, State.setObserver_self _ _ _⟩
      simp only [step, hpc]

/-! ## §3. The invariant. -/

/-- The queue is in order, and an end that is inside an observation is in no other call:
what it has loaded of its own position is still so. -/
structure Inv (s : State Tid) : Prop where
  ends : SpscSteps.Inv s.ends
  -- an end of the queue that observes does nothing else
  free : ∀ c, (s.observer c).resting = false → s.free c = true

omit [DecidableEq Tid] in
theorem inv_init (capacity : Nat) : Inv (init capacity : State Tid) where
  ends := SpscSteps.inv_init capacity
  free c h := absurd h (by simp [init, ObserverPc.resting])

omit [DecidableEq Tid] in
/-- While a caller observes, no step of the queue takes it into a `push` or `pop`. -/
theorem free_of_step {s : State Tid} {ends : SpscSteps.State} {b : SpscSteps.Act}
    {c : Caller Tid} (hmay : s.mayStart b = true) (hs : SpscSteps.step s.ends b = some ends)
    (hin : (s.observer c).resting = false) (hfree : s.free c = true) :
    State.free { s with ends := ends } c = true := by
  cases c with
  | producer =>
      rcases (SpscSteps.step_of_producer_idle hs (of_decide_eq_true hfree)).2 with ⟨v, rfl⟩ | hidle
      · exact absurd (hmay.symm.trans hin) (by simp)
      · exact decide_eq_true hidle
  | consumer =>
      rcases (SpscSteps.step_of_consumer_idle hs (of_decide_eq_true hfree)).2 with rfl | hidle
      · exact absurd (hmay.symm.trans hin) (by simp)
      · exact decide_eq_true hidle
  | other t => rfl

/-- **The step lemma.** -/
theorem Inv.step {s s' : State Tid} {a : Act Tid} (h : Inv s) (hs : step s a = some s') :
    Inv s' := by
  rcases step_cases hs with ⟨b, ends, rfl, hmay, hends, rfl⟩ | ⟨c, k, rfl, hrest, hfree, rfl⟩
    | ⟨c, k, read, rfl, hpc, rfl⟩
  · exact ⟨h.ends.step hends, fun c hin => free_of_step hmay hends hin (h.free c hin)⟩
  · refine ⟨h.ends, fun d hin => ?_⟩
    by_cases hd : d = c
    · subst hd
      exact hfree
    · rw [State.setObserver_ne _ _ hd] at hin
      exact h.free d hin
  · refine ⟨h.ends, fun d hin => ?_⟩
    by_cases hd : d = c
    · subst hd
      rw [State.setObserver_self] at hin
      exact absurd hin (by simp [ObserverPc.resting])
    · rw [State.setObserver_ne _ _ hd] at hin
      exact h.free d hin

theorem inv_of_execution {capacity : Nat} (e : Execution step (init capacity : State Tid))
    (i : Nat) : Inv (e.state i) :=
  e.invariant Inv (inv_init capacity) (fun _ _ _ hi hs => hi.step hs) i

/-- A step is one of the two ends of the queue, or leaves them as they are. -/
theorem step_ends {s s' : State Tid} {a : Act Tid} (hs : step s a = some s') :
    s'.ends = s.ends ∨ ∃ b, SpscSteps.step s.ends b = some s'.ends := by
  rcases step_cases hs with ⟨b, ends, rfl, _, hends, rfl⟩ | ⟨c, k, rfl, _, _, rfl⟩
    | ⟨c, k, read, rfl, _, rfl⟩
  · exact .inr ⟨b, hends⟩
  · exact .inl rfl
  · exact .inl rfl

/-- The histories only grow. -/
theorem step_lengths {s s' : State Tid} {a : Act Tid} (hs : step s a = some s') :
    s.ends.pushed.length ≤ s'.ends.pushed.length
      ∧ s.ends.popped.length ≤ s'.ends.popped.length := by
  rcases step_ends hs with hsame | ⟨b, hends⟩
  · rw [hsame]
    exact ⟨Nat.le_refl _, Nat.le_refl _⟩
  · have hgrow := SpscSteps.step_grows hends
    exact ⟨hgrow.1.length_le, hgrow.2.length_le⟩

/-- A caller that is in an observer before and after a step has not moved. -/
theorem step_observer_eq {s s' : State Tid} {a : Act Tid} {c : Caller Tid}
    (hs : step s a = some s') (hin : (s.observer c).resting = false)
    (hin' : (s'.observer c).resting = false) : s'.observer c = s.observer c := by
  rcases step_cases hs with ⟨b, ends, rfl, _, hends, rfl⟩ | ⟨d, k, rfl, hrest, _, rfl⟩
    | ⟨d, k, read, rfl, _, rfl⟩
  · rfl
  · have hne : c ≠ d := by
      rintro rfl
      exact absurd (hrest.symm.trans hin) (by simp)
    exact State.setObserver_ne _ _ hne
  · have hne : c ≠ d := by
      rintro rfl
      rw [State.setObserver_self] at hin'
      exact absurd hin' (by simp [ObserverPc.resting])
    exact State.setObserver_ne _ _ hne

/-- While the producer observes nothing is pushed. -/
theorem step_pushed_eq {s s' : State Tid} {a : Act Tid} (h : Inv s)
    (hin : (s.observer .producer).resting = false) (hs : step s a = some s') :
    s'.ends.pushed = s.ends.pushed := by
  rcases step_ends hs with hsame | ⟨b, hends⟩
  · rw [hsame]
  · have hidle : s.ends.producer = .idle := of_decide_eq_true (h.free .producer hin)
    exact (SpscSteps.step_of_producer_idle hends hidle).1

/-- While the consumer observes nothing is popped. -/
theorem step_popped_eq {s s' : State Tid} {a : Act Tid} (h : Inv s)
    (hin : (s.observer .consumer).resting = false) (hs : step s a = some s') :
    s'.ends.popped = s.ends.popped := by
  rcases step_ends hs with hsame | ⟨b, hends⟩
  · rw [hsame]
  · have hidle : s.ends.consumer = .idle := of_decide_eq_true (h.free .consumer hin)
    exact (SpscSteps.step_of_consumer_idle hends hidle).1

/-- The capacity is what `new` has made of the request. -/
theorem capacity_of_execution {capacity : Nat}
    (e : Execution step (init capacity : State Tid)) (i : Nat) :
    (e.state i).ends.queue.capacity = max (nextPowerOfTwo capacity) 2 := by
  refine e.invariant (fun s => s.ends.queue.capacity = _) rfl (fun s a s' hcap hs => ?_) i
  rcases step_ends hs with hsame | ⟨b, hends⟩
  · rw [hsame]
    exact hcap
  · exact (SpscSteps.step_capacity hends).trans hcap

/-! ## §4. What the answers are about. -/

/-- The values pushed and not yet popped, oldest first. -/
def held (s : SpscSteps.State) : List U64 := s.pushed.drop s.popped.length

/-- The exact answer for the values held. -/
def exactAnswer (s : SpscSteps.State) : Observer → Answer
  | .len => .number (held s).length
  | .isEmpty => .flag (held s = [])
  | .isFull => .flag ((held s).length = s.queue.capacity)

theorem held_length (s : SpscSteps.State) :
    (held s).length = s.pushed.length - s.popped.length :=
  List.length_drop

/-- The ring holds at most its capacity. -/
theorem held_le {s : SpscSteps.State} (h : SpscSteps.Inv s) :
    (held s).length ≤ s.queue.capacity := by
  have hbound := h.holds.bound
  rw [held_length]
  omega

/-- An exact `len` is at most the capacity. -/
theorem number_le {s : SpscSteps.State} (h : SpscSteps.Inv s) {k : Observer} {n : Nat}
    (hn : exactAnswer s k = .number n) : n ≤ s.queue.capacity := by
  cases k with
  | len =>
      injection hn with hn
      exact hn ▸ held_le h
  | isEmpty => exact absurd hn (by simp [exactAnswer])
  | isFull => exact absurd hn (by simp [exactAnswer])

/-- Whoever counts what is held gives the exact answer. -/
theorem counted_held {s : SpscSteps.State} (h : SpscSteps.Inv s) (k : Observer) :
    counted s.queue.capacity (held s).length k = exactAnswer s k := by
  cases k with
  | len => rfl
  | isEmpty =>
      show Answer.flag _ = .flag _
      simp only [List.length_eq_zero_iff]
  | isFull =>
      have hle := held_le h
      show Answer.flag _ = .flag _
      congr 1
      apply decide_eq_decide.mpr
      omega

/-! ## §5. Whole calls. -/

section Calls

variable {capacity : Nat} {e : Execution step (init capacity : State Tid)} {c : Caller Tid}
  {k : Observer} {first second : Nat} {answer : Answer}

/-- In the run `e`, the caller `c` calls the observer `k`, which loads `read_pos`
at the instant `first` and `write_pos` at the instant `second`, and answers. -/
structure CallSpan (e : Execution step (init capacity : State Tid)) (c : Caller Tid)
    (k : Observer) (first second : Nat) (answer : Answer) : Prop where
  called : e.act first = some (.call c k)
  lt : first < second
  running : ∀ i, first < i → i ≤ second → ((e.state i).observer c).resting = false
  loaded : e.act second = some (.load c)
  returned : (e.state (second + 1)).observer c = .returned k answer

/-- The first load, and what else it does: nothing. -/
theorem CallSpan.after_first (h : CallSpan e c k first second answer) :
    e.state (first + 1)
      = (e.state first).setObserver c (.loadedRead k (e.state first).ends.queue.readPos) := by
  rcases step_cases (e.move first _ h.called) with ⟨b, ends, hact, _⟩ | ⟨d, l, hact, _, _, hs⟩
    | ⟨d, l, read, hact, _⟩
  · exact absurd hact (by simp)
  · injection hact with hc hk
    subst hc hk
    exact hs
  · exact absurd hact (by simp)

/-- At its second load the caller still stands where the first has put it. -/
theorem CallSpan.at_second (h : CallSpan e c k first second answer) :
    (e.state second).observer c = .loadedRead k (e.state first).ends.queue.readPos := by
  have hkept := e.const_of_step (fun s => (s.observer c).resting = false) (fun s => s.observer c)
    (fun _ _ _ hin hin' hs => step_observer_eq hs hin hin') h.lt
    (fun i hlow hhigh => h.running i hlow hhigh)
  rw [hkept, h.after_first, State.setObserver_self]

/-- The answer is made of the two loads. -/
theorem CallSpan.answer_of_loads (h : CallSpan e c k first second answer) :
    answer = observerAccess (e.state second).ends.queue (e.state first).ends.queue.readPos k := by
  rcases step_cases (e.move second _ h.loaded) with ⟨b, ends, hact, _⟩ | ⟨d, l, hact, _⟩
    | ⟨d, l, read, hact, hpc, hs⟩
  · exact absurd hact (by simp)
  · exact absurd hact (by simp)
  · injection hact with hc
    subst hc
    rw [h.at_second] at hpc
    injection hpc with hk hread
    subst hk hread
    have hret := h.returned
    rw [hs, State.setObserver_self] at hret
    injection hret with _ hanswer
    exact hanswer.symm

/-- What the two ends have done by the first load, they have done by the second. -/
theorem CallSpan.lengths (h : CallSpan e c k first second answer) :
    (e.state first).ends.pushed.length ≤ (e.state second).ends.pushed.length
      ∧ (e.state first).ends.popped.length ≤ (e.state second).ends.popped.length := by
  have hpushed := e.mono_of_step (fun s => s.ends.pushed.length)
    (fun _ _ _ hs => (step_lengths hs).1)
  have hpopped := e.mono_of_step (fun s => s.ends.popped.length)
    (fun _ _ _ hs => (step_lengths hs).2)
  exact ⟨hpushed (Nat.le_of_lt h.lt), hpopped (Nat.le_of_lt h.lt)⟩

/-- **What an observer counts**: the values pushed before its second load, less
those popped before its first. -/
theorem CallSpan.answer_eq (h : CallSpan e c k first second answer)
    (hfew : (e.state second).ends.pushed.length
      < (e.state first).ends.pushed.length + 2 ^ 63) :
    answer = counted (e.state second).ends.queue.capacity
      ((e.state second).ends.pushed.length - (e.state first).ends.popped.length) k := by
  have hfirst := (inv_of_execution e first).ends.holds
  have hsecond := (inv_of_execution e second).ends.holds
  have hcap := (e.state first).ends.queue.capacity_le
  have hbound := hfirst.bound
  have hle := hfirst.le
  have hgrow := h.lengths.1
  rw [h.answer_of_loads, hfirst.read]
  exact observerAccess_eq hsecond.write (by omega) (by omega) k

/-- Every instant after the first load and up to the second keeps the invariant
and finds the caller in its call. -/
theorem CallSpan.inside (h : CallSpan e c k first second answer) (i : Nat)
    (hlow : first + 1 ≤ i) (hhigh : i ≤ second) :
    Inv (e.state i) ∧ ((e.state i).observer c).resting = false :=
  ⟨inv_of_execution e i, h.running i hlow hhigh⟩

/-- Nothing is pushed during a call of the producer. -/
theorem CallSpan.producer_pushed (h : CallSpan e .producer k first second answer) :
    (e.state second).ends.pushed = (e.state first).ends.pushed := by
  have hkept := e.const_of_step
    (fun s => Inv s ∧ (s.observer .producer).resting = false) (fun s => s.ends.pushed)
    (fun _ _ _ hin _ hs => step_pushed_eq hin.1 hin.2 hs) h.lt h.inside
  rw [hkept, h.after_first, State.setObserver_ends]

/-- Nothing is popped during a call of the consumer. -/
theorem CallSpan.consumer_popped (h : CallSpan e .consumer k first second answer) :
    (e.state second).ends.popped = (e.state first).ends.popped := by
  have hkept := e.const_of_step
    (fun s => Inv s ∧ (s.observer .consumer).resting = false) (fun s => s.ends.popped)
    (fun _ _ _ hin _ hs => step_popped_eq hin.1 hin.2 hs) h.lt h.inside
  rw [hkept, h.after_first, State.setObserver_ends]

/-- The producer's answer is exact at its first load, the consumer's at its second. -/
theorem CallSpan.exact_of_end (h : CallSpan e c k first second answer)
    (hfew : (e.state second).ends.pushed.length
      < (e.state first).ends.pushed.length + 2 ^ 63)
    (hend : c = .producer ∨ c = .consumer) :
    ∃ i, first ≤ i ∧ i ≤ second ∧ answer = exactAnswer (e.state i).ends k := by
  have hle := Nat.le_of_lt h.lt
  have hanswer := h.answer_eq hfew
  rcases hend with rfl | rfl
  · refine ⟨first, Nat.le_refl _, hle, ?_⟩
    rw [h.producer_pushed, capacity_of_execution, ← capacity_of_execution e first,
      ← held_length] at hanswer
    rw [hanswer, counted_held (inv_of_execution e first).ends]
  · refine ⟨second, hle, Nat.le_refl _, ?_⟩
    rw [← h.consumer_popped, ← held_length] at hanswer
    rw [hanswer, counted_held (inv_of_execution e second).ends]

/-- A `len` from anywhere is the true difference of the counters, so it is at
least the length at each of its loads. -/
theorem CallSpan.len_ge (h : CallSpan e c .len first second answer)
    (hfew : (e.state second).ends.pushed.length
      < (e.state first).ends.pushed.length + 2 ^ 63) :
    ∃ n, answer = .number n
      ∧ n + (e.state first).ends.popped.length = (e.state second).ends.pushed.length
      ∧ (held (e.state first).ends).length ≤ n ∧ (held (e.state second).ends).length ≤ n := by
  have hle := (inv_of_execution e first).ends.holds.le
  obtain ⟨hpushed, hpopped⟩ := h.lengths
  refine ⟨_, h.answer_eq hfew, ?_, ?_, ?_⟩
  · omega
  · rw [held_length]
    omega
  · rw [held_length]
    omega

/-- An `is_empty` that returns `true` has just seen an empty queue. -/
theorem CallSpan.empty_of_true (h : CallSpan e c .isEmpty first second (.flag true))
    (hfew : (e.state second).ends.pushed.length
      < (e.state first).ends.pushed.length + 2 ^ 63) :
    held (e.state second).ends = [] := by
  have hanswer := h.answer_eq hfew
  injection hanswer with hflag
  have hzero := of_decide_eq_true hflag.symm
  have hpopped := h.lengths.2
  apply List.length_eq_zero_iff.mp
  rw [held_length]
  omega

end Calls

/-- **The observers of `SpscQueue` are consistent.**  The two ends of the queue
get the exact answer for an instant of their call; every other thread gets a
length that has not wrapped and is at least the true one, and an `is_empty`
that can be relied on when it says `true`. -/
theorem observers_consistent (capacity : Nat)
    (e : Execution step (init capacity : State Tid)) (c : Caller Tid) (k : Observer)
    (first second : Nat) (answer : Answer) (h : CallSpan e c k first second answer)
    (hfew : (e.state second).ends.pushed.length
      < (e.state first).ends.pushed.length + 2 ^ 63) :
    (c = .producer ∨ c = .consumer →
        (∃ i, first ≤ i ∧ i ≤ second ∧ answer = exactAnswer (e.state i).ends k)
        ∧ ∀ n, answer = .number n → n ≤ max (nextPowerOfTwo capacity) 2)
      ∧ (k = .len → ∃ n, answer = .number n
        ∧ n + (e.state first).ends.popped.length = (e.state second).ends.pushed.length
        ∧ (held (e.state first).ends).length ≤ n ∧ (held (e.state second).ends).length ≤ n)
      ∧ (k = .isEmpty → answer = .flag true → held (e.state second).ends = []) := by
  refine ⟨fun hend => ?_, ?_, ?_⟩
  · obtain ⟨i, hlow, hhigh, hexact⟩ := h.exact_of_end hfew hend
    refine ⟨⟨i, hlow, hhigh, hexact⟩, fun n hn => ?_⟩
    rw [← capacity_of_execution e i]
    exact number_le (inv_of_execution e i).ends (hexact.symm.trans hn)
  · rintro rfl
    exact h.len_ge hfew
  · rintro rfl rfl
    exact h.empty_of_true hfew

/-- A thread calls `len` on a queue of two slots that holds one value; between
its loads a second value is pushed, one is popped and a third is pushed. -/
def overlapRun : List (Act Unit) :=
  [.ends (.push 7#64), .ends .producer, .ends .producer, .ends .producer,
   .call (.other ()) .len,
   .ends (.push 8#64), .ends .producer, .ends .producer, .ends .producer,
   .ends .pop, .ends .consumer, .ends .consumer, .ends .consumer,
   .ends (.push 9#64), .ends .producer, .ends .producer, .ends .producer,
   .load (.other ())]

theorem overlapRun_goes :
    (exec step (init 2 : State Unit) overlapRun).isSome = true := by
  decide

/-- The run of `overlapRun`. -/
def overlap : Execution step (init 2 : State Unit) :=
  .ofExec step _ overlapRun overlapRun_goes

theorem overlap_span : CallSpan overlap (.other ()) .len 4 17 (.number 3) where
  called := rfl
  lt := by decide
  running := by
    have hrun : ∀ i, i < 18 → 4 < i →
        ((overlap.state i).observer (.other ())).resting = false := by
      decide
    exact fun i hlow hhigh => hrun i (by omega) hlow
  loaded := rfl
  returned := by decide

/-- The thread of `overlap` gets 3, more than the queue ever holds. -/
theorem observers_consistent_overlap :
    ∃ n, Answer.number 3 = .number n
      ∧ n + (overlap.state 4).ends.popped.length = (overlap.state 17).ends.pushed.length
      ∧ (held (overlap.state 4).ends).length ≤ n ∧ (held (overlap.state 17).ends).length ≤ n :=
  (observers_consistent 2 overlap (.other ()) .len 4 17 (.number 3) overlap_span
    (by decide)).2.1 rfl

end Entangle.Lockfree.SpscObservers
