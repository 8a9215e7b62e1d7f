/-
  Entangle.Lockfree.BitSetSteps — `set`, `clear` and `find_and_clear_first_set`
  of `AtomicBitSet` as sequences of atomic accesses, any number of threads
  interleaved.

  Each load, compare-exchange and `fetch_or` of atomic_bitset.rs is one step.
  `compare_exchange_weak` may fail spuriously (the label says so); a failed one
  returns the word it has found, which the loop looks at next.  The record `log`
  lists the successful operations in the order of their compare-exchanges.

  A compare-exchange finds the whole word as the thread last read it, so what the
  thread knows of its own bit is true of the word it replaces, and the 63 others
  are written back as they are.

  Main results:
    * `Inv.step` — every step keeps the invariant;
    * `bit_updates_exactly_once` — for every index, the successful operations
      alternate, beginning with a `set`, and the bit says which was the last.
-/
import Entangle.Lib.Tables
import Entangle.Lib.Transition
import Entangle.Lockfree.BitSetCalls
import Mathlib.Logic.Function.Basic

namespace Entangle.Lockfree.BitSetSteps

open Entangle.Lib
open AtomicBitSet (bit firstBit firstIndex wordIdx)

/-! ## §1. Threads and steps. -/

/-- A successful operation: a bit has been set or taken away. -/
structure Event where
  index : U32
  set : Bool
  deriving Repr, DecidableEq

/-- What a call has returned. -/
inductive Ret where
  | set (index : U32) (ok : Bool)
  | clear (index : U32) (ok : Bool)
  | found (index : Option U32)
  deriving Repr, DecidableEq

/-- `set` or `clear` has returned `true`, or an index has been found. -/
def Ret.success : Ret → Option Event
  | .set i true => some ⟨i, true⟩
  | .clear i true | .found (some i) => some ⟨i, false⟩
  | .set _ false | .clear _ false | .found none => none

/-- Where a thread stands; `old` is the word it last read. -/
inductive Pc where
  | idle
  | returned (r : Ret)
  -- set: the bit is not set in `old`, compare-exchange to be tried
  | setRead (index : U32) (old : U64)
  -- clear: the bit is set in `old`, compare-exchange to be tried
  | clearRead (index : U32) (old : U64)
  -- find: word `k` to be loaded
  | findNext (k : Nat)
  -- find: word `k` is not zero in `old`, compare-exchange to be tried
  | findRead (k : Nat) (old : U64)
  -- find: a bit at or above the capacity has been cleared, to be put back
  | findOver (k : Nat) (old : U64)
  -- a slice access was out of bounds
  | panicked
  deriving Repr, DecidableEq

/-- A new call may start. -/
def Pc.resting : Pc → Bool
  | .idle | .returned _ => true
  | _ => false

/-- The successful operation that the thread has just returned. -/
def Pc.success : Pc → Option Event
  | .returned r => r.success
  | _ => none

/-- The words of the set, where each thread stands in its call, and a record of the past
that no access reads. -/
structure State (Tid : Type) where
  bits : AtomicBitSet
  pc : Tid → Pc
  -- the successful operations, in the order of their compare-exchanges
  log : List Event

/-- Who moves, and whether a weak compare-exchange fails spuriously. -/
inductive Act (Tid : Type) where
  | set (t : Tid) (index : U32)
  | clear (t : Tid) (index : U32)
  | find (t : Tid)
  | access (t : Tid) (spurious : Bool)
  deriving Repr, DecidableEq

/-- The thread that moves. -/
def Act.thread {Tid : Type} : Act Tid → Tid
  | .set t _ | .clear t _ | .find t | .access t _ => t

/-- `set` looks at the word it has read. -/
def afterSet (b : AtomicBitSet) (i : U32) : Pc :=
  match b.load i with
  | some old => if old &&& bit i != 0 then .returned (.set i false) else .setRead i old
  | none => .panicked

/-- `clear` looks at the word it has read. -/
def afterClear (b : AtomicBitSet) (i : U32) : Pc :=
  match b.load i with
  | some old => if old &&& bit i == 0 then .returned (.clear i false) else .clearRead i old
  | none => .panicked

/-- `find_and_clear_first_set` looks at word `k`; after the last it returns. -/
def afterFind (b : AtomicBitSet) (k : Nat) : Pc :=
  match b.loadWord k with
  | some old => if old = 0#64 then .findNext (k + 1) else .findRead k old
  | none => .returned (.found none)

variable {Tid : Type} [DecidableEq Tid]

/-- Thread `t` gets to `pc`. -/
def State.goto (s : State Tid) (t : Tid) (pc : Pc) : State Tid :=
  { s with pc := Function.update s.pc t pc }

/-- The words change, and the call of `t` returns. -/
def State.finish (s : State Tid) (t : Tid) (b : AtomicBitSet) (r : Ret) : State Tid :=
  { bits := b, pc := Function.update s.pc t (.returned r), log := s.log ++ r.success.toList }

/-- The next access of thread `t`. -/
def access (s : State Tid) (t : Tid) (spurious : Bool) : Option (State Tid) :=
  match s.pc t with
  | .setRead i old =>
      if s.bits.load i = some old ∧ spurious = false then
        some (s.finish t (s.bits.store i (old ||| bit i)) (.set i true))
      else some (s.goto t (afterSet s.bits i))
  | .clearRead i old =>
      if s.bits.load i = some old ∧ spurious = false then
        some (s.finish t (s.bits.store i (old &&& ~~~ bit i)) (.clear i true))
      else some (s.goto t (afterClear s.bits i))
  | .findNext k => some (s.goto t (afterFind s.bits k))
  | .findRead k old =>
      if s.bits.loadWord k = some old ∧ spurious = false then
        let b := s.bits.storeWord k (old &&& ~~~ firstBit old)
        if (firstIndex k old).toNat < s.bits.capacity then
          some (s.finish t b (.found (some (firstIndex k old))))
        else some { s with bits := b, pc := Function.update s.pc t (.findOver k old) }
      else some (s.goto t (afterFind s.bits k))
  | .findOver k old =>
      (s.bits.loadWord k).map (fun word =>
        s.finish t (s.bits.storeWord k (word ||| firstBit old)) (.found none))
  | .idle | .returned _ | .panicked => none

/-- One step.  A call starts with its first load; an index is below the capacity. -/
def step (s : State Tid) : Act Tid → Option (State Tid)
  | .set t i =>
      if (s.pc t).resting ∧ i.toNat < s.bits.capacity then some (s.goto t (afterSet s.bits i))
      else none
  | .clear t i =>
      if (s.pc t).resting ∧ i.toNat < s.bits.capacity then some (s.goto t (afterClear s.bits i))
      else none
  | .find t => if (s.pc t).resting then some (s.goto t (afterFind s.bits 0)) else none
  | .access t spurious => access s t spurious

def init (bits : AtomicBitSet) : State Tid := { bits := bits, pc := fun _ => .idle, log := [] }

/-! ## §2. Everything a step can do. -/

/-- What holds of a thread, whatever the words are now. -/
def ThreadOk (capacity : Nat) : Pc → Prop
  | .setRead i old => i.toNat < capacity ∧ old.getLsbD (i.toNat % 64) = false
  | .clearRead i old => i.toNat < capacity ∧ old.getLsbD (i.toNat % 64) = true
  | .findRead k old => k < (capacity + 63) / 64 ∧ old ≠ 0#64
  | .findOver _ _ | .panicked => False
  | .idle | .returned _ | .findNext _ => True

/-- A step of a thread that knows what it should: it looks at a word and moves
on, or its compare-exchange finds the word it has read. -/
inductive Moves (s : State Tid) (t : Tid) : State Tid → Prop
  | look (pc' : Pc) : pc'.success = none → ThreadOk s.bits.capacity pc' → Moves s t (s.goto t pc')
  | set (i : U32) (old : U64) : s.bits.load i = some old → i.toNat < s.bits.capacity →
      old.getLsbD (i.toNat % 64) = false →
      Moves s t (s.finish t (s.bits.store i (old ||| bit i)) (.set i true))
  | clear (i : U32) (old : U64) : s.bits.load i = some old → i.toNat < s.bits.capacity →
      old.getLsbD (i.toNat % 64) = true →
      Moves s t (s.finish t (s.bits.store i (old &&& ~~~ bit i)) (.clear i true))
  | find (k : Nat) (old : U64) : s.bits.loadWord k = some old → old ≠ 0#64 →
      (firstIndex k old).toNat < s.bits.capacity →
      Moves s t (s.finish t (s.bits.storeWord k (old &&& ~~~ firstBit old))
        (.found (some (firstIndex k old))))
  | findOver (k : Nat) (old : U64) : s.bits.loadWord k = some old → old ≠ 0#64 →
      ¬ (firstIndex k old).toNat < s.bits.capacity →
      Moves s t { s with
        bits := s.bits.storeWord k (old &&& ~~~ firstBit old)
        pc := Function.update s.pc t (.findOver k old) }

theorem moves_afterSet {s : State Tid} {t : Tid} {i : U32} (hi : i.toNat < s.bits.capacity) :
    Moves s t (s.goto t (afterSet s.bits i)) := by
  obtain ⟨old, hold⟩ := s.bits.load_isSome hi
  have hbit := AtomicBitSet.and_bit_ne_zero old i
  cases hset : old.getLsbD (i.toNat % 64) with
  | true =>
      rw [hset] at hbit
      have hpc : afterSet s.bits i = .returned (.set i false) := by
        simp only [afterSet, hold, hbit, if_true]
      rw [hpc]
      exact .look _ rfl trivial
  | false =>
      rw [hset] at hbit
      have hpc : afterSet s.bits i = .setRead i old := by
        simp only [afterSet, hold, hbit, Bool.false_eq_true, if_false]
      rw [hpc]
      exact .look _ rfl ⟨hi, hset⟩

theorem moves_afterClear {s : State Tid} {t : Tid} {i : U32} (hi : i.toNat < s.bits.capacity) :
    Moves s t (s.goto t (afterClear s.bits i)) := by
  obtain ⟨old, hold⟩ := s.bits.load_isSome hi
  have hbit : (old &&& bit i == 0) = !old.getLsbD (i.toNat % 64) := by
    rw [← AtomicBitSet.and_bit_ne_zero, bne, Bool.not_not]
  cases hset : old.getLsbD (i.toNat % 64) with
  | true =>
      rw [hset] at hbit
      have hpc : afterClear s.bits i = .clearRead i old := by
        simp only [afterClear, hold, hbit, Bool.not_true, Bool.false_eq_true, if_false]
      rw [hpc]
      exact .look _ rfl ⟨hi, hset⟩
  | false =>
      rw [hset] at hbit
      have hpc : afterClear s.bits i = .returned (.clear i false) := by
        simp only [afterClear, hold, hbit, Bool.not_false, if_true]
      rw [hpc]
      exact .look _ rfl trivial

theorem moves_afterFind (s : State Tid) (t : Tid) (k : Nat) :
    Moves s t (s.goto t (afterFind s.bits k)) := by
  unfold afterFind
  cases hword : s.bits.loadWord k with
  | none => exact .look _ rfl trivial
  | some old =>
      by_cases hzero : old = 0#64
      · simp only [if_pos hzero]
        exact .look _ rfl trivial
      · simp only [if_neg hzero]
        exact .look _ rfl ⟨(Vector.getElem?_eq_some_iff.mp hword).1, hzero⟩

theorem step_cases {s s' : State Tid} {a : Act Tid}
    (hok : ThreadOk s.bits.capacity (s.pc a.thread)) (hs : step s a = some s') :
    Moves s a.thread s' := by
  cases a with
  | set t i =>
      simp only [step, Option.ite_none_right_eq_some, Option.some.injEq] at hs
      obtain ⟨⟨_, hi⟩, rfl⟩ := hs
      exact moves_afterSet hi
  | clear t i =>
      simp only [step, Option.ite_none_right_eq_some, Option.some.injEq] at hs
      obtain ⟨⟨_, hi⟩, rfl⟩ := hs
      exact moves_afterClear hi
  | find t =>
      simp only [step, Option.ite_none_right_eq_some, Option.some.injEq] at hs
      obtain ⟨_, rfl⟩ := hs
      exact moves_afterFind s t 0
  | access t spurious =>
      simp only [step, access] at hs
      simp only [Act.thread] at hok ⊢
      split at hs
      next i old hpc =>
        rw [hpc] at hok
        split at hs
        next hcas =>
          injection hs with hs
          subst hs
          exact .set i old hcas.1 hok.1 hok.2
        next =>
          injection hs with hs
          subst hs
          exact moves_afterSet hok.1
      next i old hpc =>
        rw [hpc] at hok
        split at hs
        next hcas =>
          injection hs with hs
          subst hs
          exact .clear i old hcas.1 hok.1 hok.2
        next =>
          injection hs with hs
          subst hs
          exact moves_afterClear hok.1
      next k hpc =>
        injection hs with hs
        subst hs
        exact moves_afterFind s t k
      next k old hpc =>
        rw [hpc] at hok
        split at hs
        next hcas =>
          split at hs
          next hlt =>
            injection hs with hs
            subst hs
            exact .find k old hcas.1 hok.2 hlt
          next hge =>
            injection hs with hs
            subst hs
            exact .findOver k old hcas.1 hok.2 hge
        next =>
          injection hs with hs
          subst hs
          exact moves_afterFind s t k
      next k old hpc =>
        -- nobody is there
        rw [hpc] at hok
        exact hok.elim
      all_goals exact absurd hs (by simp)

/-! ## §3. Alternation. -/

/-- `true`, `false`, `true`, … -/
def Alternates (l : List Bool) : Prop := ∀ k v, l[k]? = some v → v = decide (k % 2 = 0)

theorem Alternates.last_iff {l : List Bool} (h : Alternates l) :
    l.getLast? = some true ↔ l.length % 2 = 1 := by
  rw [List.getLast?_eq_getElem?]
  cases hlast : l[l.length - 1]? with
  | none =>
      have hlen := List.getElem?_eq_none_iff.mp hlast
      have h0 : l.length = 0 := by omega
      simp [h0]
  | some v =>
      have hlt := (List.getElem?_eq_some_iff.mp hlast).1
      rw [h _ _ hlast, Option.some.injEq, decide_eq_true_iff]
      omega

/-- The list goes on with a value that is not its last. -/
theorem Alternates.concat {l : List Bool} (h : Alternates l) {v : Bool}
    (hlast : l.getLast? = some true ↔ v = false) : Alternates (l ++ [v]) := by
  intro k u hk
  rcases concat_cases hk with hk | ⟨rfl, rfl⟩
  · exact h k u hk
  · rw [h.last_iff] at hlast
    cases u with
    | true => simp only [Bool.true_eq_false, iff_false] at hlast; simp; omega
    | false => simp only [iff_true] at hlast; simp; omega

/-! ## §4. The invariant. -/

/-- The successful operations on an index: `true` for a `set`. -/
def State.history (s : State Tid) (i : U32) : List Bool :=
  s.log.filterMap (fun e => if e.index = i then some e.set else none)

/-- **The invariant.**  The successful operations on each bit alternate, beginning with a
set, and the bit is what the last of them has made it.  The words that threads have in
hand are of indices below the capacity. -/
structure Inv (n : Nat) (s : State Tid) : Prop where
  capacity : s.bits.capacity = n
  small : n < 2 ^ 32
  alternates : ∀ i, Alternates (s.history i)
  lastSet : ∀ i, s.bits.isSet i = some true ↔ (s.history i).getLast? = some true
  below : ∀ e ∈ s.log, e.index.toNat < n
  threads : ∀ t, ThreadOk n (s.pc t)

omit [DecidableEq Tid] in
theorem history_concat {s s' : State Tid} {i : U32} {v : Bool}
    (hlog : s'.log = s.log ++ [⟨i, v⟩]) (j : U32) :
    s'.history j = if i = j then s.history j ++ [v] else s.history j := by
  unfold State.history
  rw [hlog, List.filterMap_append]
  by_cases hij : i = j
  · simp [hij]
  · simp [hij]

omit [DecidableEq Tid] in
/-- An index that has been set is below the capacity. -/
theorem Inv.lt_of_isSet {n : Nat} {s : State Tid} (h : Inv n s) {i : U32}
    (hset : s.bits.isSet i = some true) : i.toNat < n := by
  have hlast := List.mem_of_getLast? ((h.lastSet i).mp hset)
  obtain ⟨e, he, hi⟩ := List.mem_filterMap.mp hlast
  split at hi
  next hindex =>
    rw [← hindex]
    exact h.below e he
  next => exact absurd hi (by simp)

theorem threads_update {n : Nat} {s : State Tid} (h : Inv n s) {t : Tid} {pc' : Pc}
    (hok : ThreadOk n pc') (t' : Tid) : ThreadOk n (Function.update s.pc t pc' t') :=
  (Function.forall_update_iff s.pc (fun _ pc => ThreadOk n pc)).mpr
    ⟨hok, fun t' _ => h.threads t'⟩ t'

omit [DecidableEq Tid] in
/-- **A successful compare-exchange** is recorded, and changes one bit. -/
theorem Inv.record {n : Nat} {s s' : State Tid} (h : Inv n s) {i : U32} {v : Bool}
    (hlog : s'.log = s.log ++ [⟨i, v⟩]) (hcap : s'.bits.capacity = s.bits.capacity)
    (hi : i.toNat < n) (hold : s.bits.isSet i = some true ↔ v = false)
    (hsame : s'.bits.isSet i = some true ↔ v = true)
    (hother : ∀ j, j ≠ i → (s'.bits.isSet j = some true ↔ s.bits.isSet j = some true))
    (hthreads : ∀ t, ThreadOk n (s'.pc t)) : Inv n s' where
  capacity := hcap.trans h.capacity
  small := h.small
  alternates := by
    intro j
    rw [history_concat hlog]
    split
    next hij =>
      subst hij
      exact (h.alternates i).concat ((h.lastSet i).symm.trans hold)
    next => exact h.alternates j
  lastSet := by
    intro j
    rw [history_concat hlog]
    split
    next hij =>
      subst hij
      rw [hsame, List.getLast?_concat, Option.some.injEq]
    next hij =>
      rw [hother j (fun he => hij he.symm)]
      exact h.lastSet j
  below := by
    intro e he
    rw [hlog] at he
    rcases List.mem_append.mp he with he | he
    · exact h.below e he
    · rw [List.mem_singleton.mp he]
      exact hi
  threads := hthreads

/-- `old | bit`, where the bit was not set. -/
theorem Inv.set {n : Nat} {s : State Tid} (h : Inv n s) (t : Tid) {i : U32} {old : U64}
    (hold : s.bits.load i = some old) (hi : i.toNat < n)
    (hbit : old.getLsbD (i.toNat % 64) = false) :
    Inv n (s.finish t (s.bits.store i (old ||| bit i)) (.set i true)) := by
  have hnew := fun j => s.bits.isSet_store_or j hold
  refine h.record rfl rfl hi ?_ ?_ ?_ (threads_update h trivial)
  · rw [s.bits.isSet_of_load hold rfl, hbit]
    simp
  · simp only [State.finish, hnew, true_or]
  · intro j hj
    simp only [State.finish, hnew, hj, false_or]

/-- `old & !bit`, where the bit was set. -/
theorem Inv.erase {n : Nat} {s : State Tid} (h : Inv n s) (t : Tid) {i : U32} {old : U64} {r : Ret}
    (hold : s.bits.load i = some old) (hi : i.toNat < n)
    (hbit : old.getLsbD (i.toNat % 64) = true) (hr : r.success = some ⟨i, false⟩) :
    Inv n (s.finish t (s.bits.store i (old &&& ~~~ bit i)) r) := by
  have hnew := fun j => s.bits.isSet_store_andNot j hold
  refine h.record (by rw [State.finish, hr]; rfl) rfl hi ?_ ?_ ?_ (threads_update h trivial)
  · rw [s.bits.isSet_of_load hold rfl, hbit]
    simp
  · simp only [State.finish, hnew, ne_eq, not_true_eq_false, false_and, Bool.false_eq_true]
  · intro j hj
    simp only [State.finish, hnew, ne_eq, hj, not_false_eq_true, true_and]

omit [DecidableEq Tid] in
/-- The first bit of word `k` is the bit of its index. -/
theorem Inv.first {n : Nat} {s : State Tid} (h : Inv n s) {k : Nat} {old : U64}
    (hword : s.bits.loadWord k = some old) (hne : old ≠ 0#64) :
    s.bits.load (firstIndex k old) = some old
      ∧ old.getLsbD ((firstIndex k old).toNat % 64) = true ∧ k < 2 ^ 26 := by
  have hk : k < 2 ^ 26 := by
    have hlt := (Vector.getElem?_eq_some_iff.mp hword).1
    have hcap := h.capacity
    have hsmall := h.small
    omega
  have hctz := AtomicBitSet.ctz_lt hne
  have hmod : (k * 64 + old.ctz.toNat) % 64 = old.ctz.toNat := by omega
  refine ⟨?_, ?_, hk⟩
  · rw [s.bits.load_firstIndex hk hne]
    exact hword
  · rw [AtomicBitSet.firstIndex_toNat hk hne, hmod]
    exact BitVec.getLsbD_true_ctz_of_ne_zero hne

/-- **The step lemma.** -/
theorem Inv.step {n : Nat} {s s' : State Tid} {a : Act Tid} (h : Inv n s)
    (hs : step s a = some s') : Inv n s' := by
  have hok := h.threads a.thread
  have hcap := h.capacity
  subst hcap
  cases step_cases hok hs with
  | look pc' _ hok' =>
      exact ⟨rfl, h.small, h.alternates, h.lastSet, h.below, threads_update h hok'⟩
  | set i old hold hi hbit => exact h.set a.thread hold hi hbit
  | clear i old hold hi hbit => exact h.erase a.thread hold hi hbit rfl
  | find k old hword hne hlt =>
      obtain ⟨hload, hbit, hk⟩ := h.first hword hne
      have herase := h.erase a.thread (r := .found (some (firstIndex k old))) hload hlt hbit rfl
      rw [AtomicBitSet.bit_firstIndex hk hne, s.bits.store_firstIndex _ hk hne] at herase
      exact herase
  | findOver k old hword hne hge =>
      -- a bit that is set has been set, so its index is below the capacity
      obtain ⟨hload, hbit, _⟩ := h.first hword hne
      have hset := s.bits.isSet_of_load hload rfl
      rw [hbit] at hset
      exact absurd (h.lt_of_isSet hset) hge

omit [DecidableEq Tid] in
theorem inv_init (capacity : U32) :
    Inv capacity.toNat (init (.new capacity.toNat) : State Tid) where
  capacity := rfl
  small := capacity.isLt
  alternates := by
    intro i k v hk
    exact absurd hk (by simp [State.history, init])
  lastSet := by
    intro i
    have hnew := AtomicBitSet.new_isSet capacity.toNat i
    simp [State.history, init, hnew]
  below := by simp [init]
  threads := fun _ => trivial

theorem inv_of_reach {capacity : U32} {s : State Tid}
    (hs : Reach step anyStep (init (.new capacity.toNat)) s) : Inv capacity.toNat s :=
  hs.invariant (Inv capacity.toNat) (inv_init capacity) (fun _ _ _ hi _ hstep => hi.step hstep)

/-- The record grows with the calls that return success, and no others. -/
theorem log_step {n : Nat} {s s' : State Tid} {a : Act Tid} (h : Inv n s)
    (hs : BitSetSteps.step s a = some s') :
    s'.log = s.log ++ (s'.pc a.thread).success.toList := by
  have hok := h.threads a.thread
  rw [← h.capacity] at hok
  cases step_cases hok hs with
  | look pc' hnone _ => simp [State.goto, hnone]
  | findOver k old _ _ _ => simp [Pc.success]
  | _ => simp [State.finish, Pc.success]

/-- **Concurrent updates of bits are exactly-once.**  In every state reached by
any interleaving of the atomic accesses: the successful operations on an index
(`set` that returned `true`; `clear` that returned `true`, or
`find_and_clear_first_set` that returned it) alternate, beginning with a `set`;
the bit is set exactly when the last was a `set`; no access was out of bounds and
no bit has to be put back; and a step records an operation exactly when its call
returns success. -/
theorem bit_updates_exactly_once (capacity : U32) (s : State Tid)
    (h : Reach step anyStep (init (.new capacity.toNat)) s) :
    (∀ i, Alternates (s.history i))
      ∧ (∀ i, s.bits.isSet i = some true ↔ (s.history i).getLast? = some true)
      ∧ (∀ t, s.pc t ≠ .panicked ∧ ∀ k old, s.pc t ≠ .findOver k old)
      ∧ (∀ a s', step s a = some s' → s'.log = s.log ++ (s'.pc a.thread).success.toList) := by
  have hinv := inv_of_reach h
  refine ⟨hinv.alternates, hinv.lastSet, ?_, fun a s' hs => log_step hinv hs⟩
  intro t
  have hok := hinv.threads t
  constructor
  · intro hpc
    rw [hpc] at hok
    exact hok
  · intro k old hpc
    rw [hpc] at hok
    exact hok

/-- Two threads set different bits of one word: both have read it empty, the
second compare-exchange fails and is tried again; then one thread takes the first
bit while the other has already seen it. -/
def raceRun : List (Act Bool) :=
  [.set true 3#32, .set false 5#32, .access true false, .access false false,
   .access false true, .access false false, .find true, .clear false 3#32,
   .access true false, .access false false]

theorem bit_updates_exactly_once_race :
    ∃ s : State Bool, Reach step anyStep (init (.new (70#32).toNat)) s
      ∧ s.log = [⟨3#32, true⟩, ⟨5#32, true⟩, ⟨3#32, false⟩]
      ∧ s.pc false = .returned (.clear 3#32 false)
      ∧ (∀ i, Alternates (s.history i))
      ∧ (∀ i, s.bits.isSet i = some true ↔ (s.history i).getLast? = some true) := by
  have hrun : (exec step (init (.new (70#32).toNat) : State Bool) raceRun).map
      (fun s => (s.log, s.pc false))
      = some ([⟨3#32, true⟩, ⟨5#32, true⟩, ⟨3#32, false⟩], .returned (.clear 3#32 false)) := by
    decide +kernel
  obtain ⟨s, hs, hf⟩ := Option.map_eq_some_iff.mp hrun
  obtain ⟨hlog, hpc⟩ := Prod.mk.inj hf
  have hreach := Reach.of_exec raceRun .refl hs
  obtain ⟨halternates, hlast, _⟩ := bit_updates_exactly_once 70#32 s hreach
  exact ⟨s, hreach, hlog, hpc, halternates, hlast⟩

/-! ## §5. A call that is not interrupted is the call of `BitSetCalls`. -/

/-- `set` run alone, as its accesses. -/
theorem set_alone (s : State Tid) (t : Tid) (hrest : (s.pc t).resting = true) {i : U32} {ok : Bool}
    {b : AtomicBitSet} (hi : i.toNat < s.bits.capacity) (h : s.bits.set i = some (ok, b)) :
    ∃ as s', exec step s (.set t i :: as) = some s' ∧ s'.bits = b
      ∧ s'.pc t = .returned (.set i ok) := by
  obtain ⟨old, hold, heq⟩ := Option.map_eq_some_iff.mp h
  by_cases hbit : (old &&& bit i != 0) = true
  · simp only [hbit, if_true, Prod.mk.injEq] at heq
    obtain ⟨rfl, rfl⟩ := heq
    have hpc : afterSet s.bits i = .returned (.set i false) := by
      simp only [afterSet, hold, hbit, if_true]
    exact ⟨[], s.goto t (.returned (.set i false)),
      by simp [exec, step, hrest, hi, hpc], rfl, by simp [State.goto]⟩
  · simp only [hbit, Bool.false_eq_true, if_false, Prod.mk.injEq] at heq
    obtain ⟨rfl, rfl⟩ := heq
    have hpc : afterSet s.bits i = .setRead i old := by
      simp only [afterSet, hold, hbit, Bool.false_eq_true, if_false]
    refine ⟨[.access t false], (s.goto t (.setRead i old)).finish t
      (s.bits.store i (old ||| bit i)) (.set i true), ?_, rfl, by simp [State.finish]⟩
    simp [exec, step, hrest, hi, hpc, hold, access, State.goto]

/-- `clear` run alone. -/
theorem clear_alone (s : State Tid) (t : Tid) (hrest : (s.pc t).resting = true) {i : U32}
    {ok : Bool} {b : AtomicBitSet} (hi : i.toNat < s.bits.capacity)
    (h : s.bits.clear i = some (ok, b)) :
    ∃ as s', exec step s (.clear t i :: as) = some s' ∧ s'.bits = b
      ∧ s'.pc t = .returned (.clear i ok) := by
  obtain ⟨old, hold, heq⟩ := Option.map_eq_some_iff.mp h
  by_cases hbit : (old &&& bit i == 0) = true
  · simp only [hbit, if_true, Prod.mk.injEq] at heq
    obtain ⟨rfl, rfl⟩ := heq
    have hpc : afterClear s.bits i = .returned (.clear i false) := by
      simp only [afterClear, hold, hbit, if_true]
    exact ⟨[], s.goto t (.returned (.clear i false)),
      by simp [exec, step, hrest, hi, hpc], rfl, by simp [State.goto]⟩
  · simp only [hbit, Bool.false_eq_true, if_false, Prod.mk.injEq] at heq
    obtain ⟨rfl, rfl⟩ := heq
    have hpc : afterClear s.bits i = .clearRead i old := by
      simp only [afterClear, hold, hbit, Bool.false_eq_true, if_false]
    refine ⟨[.access t false], (s.goto t (.clearRead i old)).finish t
      (s.bits.store i (old &&& ~~~ bit i)) (.clear i true), ?_, rfl, by simp [State.finish]⟩
    simp [exec, step, hrest, hi, hpc, hold, access, State.goto]

/-- The thread has read word `k`, and runs to the end of its call. -/
theorem take_alone (s : State Tid) (t : Tid) {k : Nat} {old : U64}
    (hword : s.bits.loadWord k = some old) :
    ∃ as s', exec step (s.goto t (.findRead k old)) as = some s'
      ∧ s'.bits = (s.bits.takeFirst k old).2
      ∧ s'.pc t = .returned (.found (s.bits.takeFirst k old).1.ret) := by
  have hlt := (Vector.getElem?_eq_some_iff.mp hword).1
  by_cases hindex : (firstIndex k old).toNat < s.bits.capacity
  · refine ⟨[.access t false], (s.goto t (.findRead k old)).finish t
      (s.bits.storeWord k (old &&& ~~~ firstBit old)) (.found (some (firstIndex k old))),
      ?_, ?_, ?_⟩
    · simp [exec, step, access, State.goto, hword, hindex]
    · simp [State.finish, AtomicBitSet.takeFirst, hindex]
    · simp [State.finish, AtomicBitSet.takeFirst, hindex, AtomicBitSet.Found.ret]
  · have hrest : (s.bits.storeWord k (old &&& ~~~ firstBit old)).loadWord k
        = some (old &&& ~~~ firstBit old) := by
      show (s.bits.words.setIfInBounds k _)[k]? = _
      rw [Vector.getElem?_setIfInBounds, if_pos rfl, if_pos hlt]
    let taken : State Tid := { s with
      bits := s.bits.storeWord k (old &&& ~~~ firstBit old)
      pc := Function.update s.pc t (.findOver k old) }
    refine ⟨[.access t false, .access t false], taken.finish t
      (taken.bits.storeWord k (old &&& ~~~ firstBit old ||| firstBit old)) (.found none),
      ?_, ?_, ?_⟩
    · simp [exec, step, access, State.goto, hword, hindex, hrest, taken]
    · simp [State.finish, AtomicBitSet.takeFirst, hindex, taken]
    · simp [State.finish, AtomicBitSet.takeFirst, hindex, AtomicBitSet.Found.ret]

/-- The scan from word `k` on; by induction on the words that are left. -/
theorem scan_alone (t : Tid) (words : List U64) : ∀ (s : State Tid) (k : Nat),
    words = s.bits.words.toList.drop k →
    ∃ as s', exec step (s.goto t (afterFind s.bits k)) as = some s'
      ∧ s'.bits = (s.bits.findFrom k words).2
      ∧ s'.pc t = .returned (.found (s.bits.findFrom k words).1.ret) := by
  induction words with
  | nil =>
      intro s k hdrop
      have hword : s.bits.loadWord k = none := by
        have hget := congrArg (fun l => l[0]?) hdrop
        simp only [List.getElem?_nil, List.getElem?_drop, Nat.add_zero,
          Vector.getElem?_toList] at hget
        exact hget.symm
      have hpc : afterFind s.bits k = .returned (.found none) := by
        simp only [afterFind, hword]
      rw [hpc]
      exact ⟨[], _, rfl, rfl, by simp [State.goto, AtomicBitSet.findFrom, AtomicBitSet.Found.ret]⟩
  | cons old words ih =>
      intro s k hdrop
      have hword : s.bits.loadWord k = some old := by
        have hget := congrArg (fun l => l[0]?) hdrop
        simp only [List.getElem?_cons_zero, List.getElem?_drop, Nat.add_zero,
          Vector.getElem?_toList] at hget
        exact hget.symm
      by_cases hzero : old = 0#64
      · have hpc : afterFind s.bits k = .findNext (k + 1) := by
          simp only [afterFind, hword, if_pos hzero]
        have htail : words = s.bits.words.toList.drop (k + 1) := by
          rw [← List.tail_drop, ← hdrop]
          rfl
        obtain ⟨as, s', hexec, hbits, hret⟩ := ih s (k + 1) htail
        refine ⟨.access t false :: as, s', ?_, ?_, ?_⟩
        · rw [hpc]
          simpa [exec, step, access, State.goto] using hexec
        · rw [AtomicBitSet.findFrom, if_pos hzero]
          exact hbits
        · rw [AtomicBitSet.findFrom, if_pos hzero]
          exact hret
      · have hpc : afterFind s.bits k = .findRead k old := by
          simp only [afterFind, hword, if_neg hzero]
        rw [hpc, AtomicBitSet.findFrom, if_neg hzero]
        exact take_alone s t hword

/-- `find_and_clear_first_set` run alone. -/
theorem find_alone (s : State Tid) (t : Tid) (hrest : (s.pc t).resting = true) :
    ∃ as s', exec step s (.find t :: as) = some s' ∧ s'.bits = s.bits.findAndClearFirstSet.2
      ∧ s'.pc t = .returned (.found s.bits.findAndClearFirstSet.1.ret) := by
  obtain ⟨as, s', hexec, hbits, hret⟩ := scan_alone t s.bits.words.toList s 0 (by simp)
  refine ⟨as, s', ?_, hbits, hret⟩
  simpa [exec, step, hrest] using hexec

end Entangle.Lockfree.BitSetSteps
