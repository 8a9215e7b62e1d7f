/-
  Entangle.Lockfree.BitSetScans — `count_set` and `find_and_clear_first_set` of
  `AtomicBitSet` while other threads change the bits.

  Both go through the words once, in their order.  The system is that of
  `Entangle.Lockfree.BitSetSteps` with any number of threads that count; a thread
  that counts does nothing else meanwhile.

  The bits may change between two loads, so what a scan sees need not be the set of
  any one moment.  It is the set put together from the words of the moments at which
  they are loaded, and these come in the order of the words.

  Main results:
    * `CountSpan.card` — a count is the size of the set put together in this way;
    * `scans_read_in_order` — so it is for the search, below the index it returns.
-/
import Entangle.Lockfree.BitSetSteps

namespace Entangle.Lockfree.BitSetScans

open Entangle.Lib
open AtomicBitSet (firstIndex firstBit)

/-! ## §1. The members of a bitset. -/

/-- The indices whose bits are set. -/
def members (b : AtomicBitSet) : Finset Nat :=
  (Finset.range b.capacity).filter (fun x => b.isSet (BitVec.ofNat 32 x) = some true)

section Members

variable {Tid : Type} {n : Nat} {s : BitSetSteps.State Tid}

theorem members_rel (h : BitSetSteps.Inv n s) : BitSetRel n s.bits (members s.bits) where
  capacity := h.capacity
  small := h.small
  mem i := by
    have hi : BitVec.ofNat 32 i.toNat = i := by simp
    unfold members
    rw [Finset.mem_filter, Finset.mem_range, hi, h.capacity]
    exact ⟨fun hset => ⟨h.lt_of_isSet hset, hset⟩, fun hmem => hmem.2⟩
  below i hi := by
    have hlt := Finset.mem_range.mp (Finset.mem_filter.mp hi).1
    rw [h.capacity] at hlt
    exact hlt

/-- A member is a bit of its word. -/
theorem mem_members (h : BitSetSteps.Inv n s) (x : Nat) :
    x ∈ members s.bits
      ↔ ∃ word, s.bits.loadWord (x / 64) = some word ∧ word.getLsbD (x % 64) = true := by
  have hx := (members_rel h).represents x
  rw [Vector.getElem?_toList] at hx
  exact hx

/-- A word that is zero has no members. -/
theorem notMem_of_zero (h : BitSetSteps.Inv n s) {x : Nat}
    (hzero : s.bits.loadWord (x / 64) = some 0#64) : x ∉ members s.bits := by
  intro hx
  obtain ⟨word, hword, hbit⟩ := (mem_members h x).mp hx
  rw [hzero] at hword
  obtain rfl := Option.some.inj hword
  simp at hbit

/-- The first bit of a word stands for the least member in it. -/
theorem first_member (h : BitSetSteps.Inv n s) {k : Nat} {old : U64}
    (hword : s.bits.loadWord k = some old) (hne : old ≠ 0#64) :
    (firstIndex k old).toNat ∈ members s.bits ∧ (firstIndex k old).toNat / 64 = k
      ∧ ∀ y, y / 64 = k → y < (firstIndex k old).toNat → y ∉ members s.bits := by
  obtain ⟨hload, hbit, hk⟩ := h.first hword hne
  have hctz := AtomicBitSet.ctz_lt hne
  have hindex := AtomicBitSet.firstIndex_toNat hk hne
  have hdiv : (firstIndex k old).toNat / 64 = k := by omega
  refine ⟨(mem_members h _).mpr ⟨old, ?_, hbit⟩, hdiv, ?_⟩
  · rw [hdiv]
    exact hword
  · intro y hy hlt hmem
    obtain ⟨word, hword', hbit'⟩ := (mem_members h y).mp hmem
    rw [hy, hword] at hword'
    obtain rfl := Option.some.inj hword'
    have hbelow : y % 64 < old.ctz.toNat := by omega
    rw [BitVec.getLsbD_false_of_lt_ctz hbelow] at hbit'
    exact absurd hbit' (by simp)

end Members

/-! ## §2. Threads that count. -/

inductive CountPc where
  | idle
  -- word `k` to be loaded, the words before it counted
  | counting (k : Nat) (sum : U32)
  | counted (n : U32)
  deriving Repr, DecidableEq

/-- The thread is not in `count_set`. -/
def CountPc.resting : CountPc → Bool
  | .idle | .counted _ => true
  | .counting _ _ => false

/-- `w.load().count_ones()` is added; after the last word the sum is returned. -/
def countNext (b : AtomicBitSet) (k : Nat) (sum : U32) : CountPc :=
  match b.loadWord k with
  | some word => .counting (k + 1) (sum + word.cpop.setWidth 32)
  | none => .counted sum

/-- A bit set with its calls, and beside them the threads that count.  A count only
loads, so it has a program counter and no effect. -/
structure State (Tid : Type) where
  calls : BitSetSteps.State Tid
  count : Tid → CountPc

inductive Act (Tid : Type) where
  -- `set`, `clear`, `find_and_clear_first_set`
  | calls (a : BitSetSteps.Act Tid)
  -- `count_set` is called
  | count (t : Tid)
  -- its next load
  | load (t : Tid)
  deriving Repr, DecidableEq

variable {Tid : Type} [DecidableEq Tid]

def State.setCount (s : State Tid) (t : Tid) (pc : CountPc) : State Tid :=
  { s with count := Function.update s.count t pc }

@[simp] theorem State.setCount_calls (s : State Tid) (t : Tid) (pc : CountPc) :
    (s.setCount t pc).calls = s.calls := rfl

@[simp] theorem State.setCount_self (s : State Tid) (t : Tid) (pc : CountPc) :
    (s.setCount t pc).count t = pc := by
  simp only [State.setCount, Function.update_self]

theorem State.setCount_ne (s : State Tid) {t t' : Tid} (pc : CountPc) (h : t' ≠ t) :
    (s.setCount t pc).count t' = s.count t' := by
  simp only [State.setCount, Function.update_of_ne h]

/-- One access. -/
def step (s : State Tid) : Act Tid → Option (State Tid)
  | .calls a =>
      if (s.count a.thread).resting then
        (BitSetSteps.step s.calls a).map (fun calls => { s with calls := calls })
      else none
  | .count t =>
      if (s.count t).resting && (s.calls.pc t).resting then
        some (s.setCount t (.counting 0 0#32))
      else none
  | .load t =>
      match s.count t with
      | .counting k sum => some (s.setCount t (countNext s.calls.bits k sum))
      | .idle | .counted _ => none

def init (capacity : U32) : State Tid :=
  { calls := BitSetSteps.init (.new capacity.toNat), count := fun _ => .idle }

/-- What one step can do. -/
theorem step_cases {s s' : State Tid} {a : Act Tid} (h : step s a = some s') :
    (∃ b calls, a = .calls b ∧ (s.count b.thread).resting = true
        ∧ BitSetSteps.step s.calls b = some calls ∧ s' = { s with calls := calls })
      ∨ (∃ t, a = .count t ∧ (s.count t).resting = true
        ∧ s' = s.setCount t (.counting 0 0#32))
      ∨ (∃ t k sum, a = .load t ∧ s.count t = .counting k sum
        ∧ s' = s.setCount t (countNext s.calls.bits k sum)) := by
  cases a with
  | calls b =>
      simp only [step, Option.ite_none_right_eq_some] at h
      obtain ⟨hrest, h⟩ := h
      obtain ⟨calls, hcalls, rfl⟩ := Option.map_eq_some_iff.mp h
      exact .inl ⟨b, calls, rfl, hrest, hcalls, rfl⟩
  | count t =>
      simp only [step, Option.ite_none_right_eq_some, Bool.and_eq_true, Option.some.injEq] at h
      obtain ⟨⟨hrest, _⟩, rfl⟩ := h
      exact .inr (.inl ⟨t, rfl, hrest, rfl⟩)
  | load t =>
      simp only [step] at h
      split at h
      next k sum hpc =>
        injection h with h
        exact .inr (.inr ⟨t, k, sum, rfl, hpc, h.symm⟩)
      next => exact absurd h (by simp)
      next => exact absurd h (by simp)

theorem Inv.step {n : Nat} {s s' : State Tid} {a : Act Tid} (h : BitSetSteps.Inv n s.calls)
    (hs : step s a = some s') : BitSetSteps.Inv n s'.calls := by
  rcases step_cases hs with ⟨b, calls, rfl, _, hcalls, rfl⟩ | ⟨t, rfl, _, rfl⟩
    | ⟨t, k, sum, rfl, _, rfl⟩
  · exact BitSetSteps.Inv.step h hcalls
  · exact h
  · exact h

theorem inv_of_execution {capacity : U32} (e : Execution step (init capacity : State Tid))
    (i : Nat) : BitSetSteps.Inv capacity.toNat (e.state i).calls :=
  e.invariant (fun s => BitSetSteps.Inv capacity.toNat s.calls) (BitSetSteps.inv_init capacity)
    (fun _ _ _ h hs => Inv.step h hs) i

/-- The words there are. -/
theorem loadWord_eq_none {capacity : U32} (e : Execution step (init capacity : State Tid))
    (i c : Nat) : (e.state i).calls.bits.loadWord c = none
      ↔ (capacity.toNat + 63) / 64 ≤ c := by
  have hcap := (inv_of_execution e i).capacity
  unfold AtomicBitSet.loadWord
  rw [Vector.getElem?_eq_none_iff, hcap]

/-- A thread that counts before and after a step has not moved, or has loaded a word. -/
theorem step_count {s s' : State Tid} {a : Act Tid} {t : Tid} {k : Nat} {sum : U32}
    (hpc : s.count t = .counting k sum) (hs : step s a = some s') :
    s'.count t = .counting k sum ∨ s'.count t = countNext s.calls.bits k sum := by
  rcases step_cases hs with ⟨b, calls, rfl, _, hcalls, rfl⟩ | ⟨d, rfl, hrest, rfl⟩
    | ⟨d, l, sum', rfl, hd, rfl⟩
  · exact .inl hpc
  · by_cases htd : t = d
    · subst htd
      rw [hpc] at hrest
      exact absurd hrest (by simp [CountPc.resting])
    · rw [State.setCount_ne _ _ htd]
      exact .inl hpc
  · by_cases htd : t = d
    · subst htd
      rw [hpc] at hd
      injection hd with hk hsum
      subst hk hsum
      exact .inr (State.setCount_self _ _ _)
    · rw [State.setCount_ne _ _ htd]
      exact .inl hpc

/-! ## §3. A count. -/

section Counts

variable {capacity : U32} {e : Execution step (init capacity : State Tid)} {t : Tid}
  {first last i k : Nat} {n sum : U32}

/-- In the run `e`, thread `t` calls `count_set` at the instant `first`; it returns `n`
at the instant `last`. -/
structure CountSpan (e : Execution step (init capacity : State Tid)) (t : Tid)
    (first last : Nat) (n : U32) : Prop where
  called : e.act first = some (.count t)
  lt : first < last
  running : ∀ i, first < i → i ≤ last → ((e.state i).count t).resting = false
  loaded : e.act last = some (.load t)
  returned : (e.state (last + 1)).count t = .counted n

/-- The words before `k` have been loaded, and `sum` is the number of their bits. -/
def Counted (e : Execution step (init capacity : State Tid)) (first i k : Nat) (sum : U32) :
    Prop :=
  ∃ words : List U64, words.length = k
    ∧ Scanned (fun c m => (e.state m).calls.bits.loadWord c = words[c]?) first i k
    ∧ sum = BitVec.ofNat 32 (words.map (fun word => word.cpop.toNat)).sum

theorem counted_nothing (e : Execution step (init capacity : State Tid)) :
    Counted e first i 0 0#32 :=
  ⟨[], rfl, .nothing, rfl⟩

theorem Counted.later (h : Counted e first i k sum) : Counted e first (i + 1) k sum := by
  obtain ⟨words, hlen, hscan, hsum⟩ := h
  exact ⟨words, hlen, hscan.later (Nat.le_succ i), hsum⟩

theorem Counted.next (h : Counted e first i k sum) (hle : first ≤ i) {word : U64}
    (hword : (e.state i).calls.bits.loadWord k = some word) :
    Counted e first (i + 1) (k + 1) (sum + word.cpop.setWidth 32) := by
  obtain ⟨words, hlen, hscan, hsum⟩ := h
  refine ⟨words ++ [word], by simp [hlen], ?_, ?_⟩
  · have hscan' : Scanned (fun c m => (e.state m).calls.bits.loadWord c
        = (words ++ [word])[c]?) first i k := by
      apply hscan.weaken
      intro c m hc hm
      rw [List.getElem?_append_left (by omega)]
      exact hm
    apply hscan'.next hle
    rw [hword, ← hlen, List.getElem?_concat_length]
  · rw [hsum, List.map_append, List.sum_append, BitVec.ofNat_add, List.map_singleton,
      List.sum_singleton, BitVec.ofNat_toNat]

/-- **What a thread that counts has counted**, at every instant of its call. -/
theorem CountSpan.counted (h : CountSpan e t first last n) (i : Nat) (hlow : first < i)
    (hhigh : i ≤ last) :
    ∃ k sum, (e.state i).count t = .counting k sum ∧ Counted e first i k sum := by
  induction i, hlow using Nat.le_induction with
  | base =>
      rcases step_cases (e.move first _ h.called) with ⟨b, calls, hact, _⟩ | ⟨d, hact, _, hs⟩
        | ⟨d, k, sum, hact, _⟩
      · exact absurd hact (by simp)
      · injection hact with htd
        subst htd
        refine ⟨0, 0#32, ?_, counted_nothing e⟩
        rw [hs, State.setCount_self]
      · exact absurd hact (by simp)
  | succ i hlow ih =>
      obtain ⟨k, sum, hpc, hcounted⟩ := ih (by omega)
      cases hact : e.act i with
      | none =>
          rw [e.idle i hact]
          exact ⟨k, sum, hpc, hcounted.later⟩
      | some a =>
          rcases step_count hpc (e.move i a hact) with hsame | hnext
          · exact ⟨k, sum, hsame, hcounted.later⟩
          · cases hword : (e.state i).calls.bits.loadWord k with
            | some word =>
                simp only [countNext, hword] at hnext
                exact ⟨_, _, hnext, hcounted.next (by omega) hword⟩
            | none =>
                -- the call would be over
                simp only [countNext, hword] at hnext
                have hrun := h.running (i + 1) (by omega) hhigh
                rw [hnext] at hrun
                exact absurd hrun (by simp [CountPc.resting])

/-- At its return it has loaded all words. -/
theorem CountSpan.all_counted (h : CountSpan e t first last n) :
    ∃ k, (capacity.toNat + 63) / 64 ≤ k ∧ Counted e first last k n := by
  obtain ⟨k, sum, hpc, hcounted⟩ := h.counted last h.lt (Nat.le_refl _)
  have hret := h.returned
  rcases step_count hpc (e.move last _ h.loaded) with hsame | hnext
  · rw [hret] at hsame
    exact absurd hsame (by simp)
  · cases hword : (e.state last).calls.bits.loadWord k with
    | some word =>
        rw [hret] at hnext
        simp only [countNext, hword] at hnext
        exact absurd hnext (by simp)
    | none =>
        rw [hret] at hnext
        simp only [countNext, hword, CountPc.counted.injEq] at hnext
        subst hnext
        exact ⟨k, (loadWord_eq_none e last k).mp hword, hcounted⟩

/-- The indices whose bits are set in the words as they are at these moments. -/
def gathered (e : Execution step (init capacity : State Tid)) (moment : Nat → Nat) :
    Finset Nat :=
  (Finset.range capacity.toNat).filter
    (fun x => x ∈ members (e.state (moment (x / 64))).calls.bits)

theorem gathered_represents {words : List U64} {moment : Nat → Nat}
    (hall : (capacity.toNat + 63) / 64 ≤ words.length)
    (hseen : ∀ c < words.length,
      (e.state (moment c)).calls.bits.loadWord c = words[c]?) :
    Represents words (gathered e moment) := by
  intro x
  have hinv := inv_of_execution e (moment (x / 64))
  have hmem := mem_members hinv x
  have hword : (e.state (moment (x / 64))).calls.bits.loadWord (x / 64) = words[x / 64]? := by
    by_cases hx : x / 64 < words.length
    · exact hseen _ hx
    · rw [List.getElem?_eq_none (by omega)]
      exact (loadWord_eq_none e _ _).mpr (by omega)
  rw [hword] at hmem
  rw [← hmem]
  unfold gathered
  rw [Finset.mem_filter, Finset.mem_range]
  exact ⟨fun hx => hx.2, fun hx => ⟨(members_rel hinv).below x hx, hx⟩⟩

/-- **A count** is the size of the set put together from the words, each as it is
at one moment of the call; the sum does not wrap. -/
theorem CountSpan.card (h : CountSpan e t first last n) :
    ∃ moment : Nat → Nat, Monotone moment
      ∧ (∀ x < capacity.toNat, first ≤ moment (x / 64) ∧ moment (x / 64) ≤ last)
      ∧ n.toNat = (gathered e moment).card := by
  obtain ⟨k, hall, words, rfl, ⟨moment, hmono, hseen⟩, rfl⟩ := h.all_counted
  refine ⟨moment, hmono, ?_, ?_⟩
  · intro x hx
    obtain ⟨hlo, hhi, _⟩ := hseen (x / 64) (by omega)
    exact ⟨hlo, by omega⟩
  · have hrep := gathered_represents hall (fun c hc => (hseen c hc).2.2)
    have hle := Finset.card_filter_le (Finset.range capacity.toNat)
      (fun x => x ∈ members (e.state (moment (x / 64))).calls.bits)
    have hcard : (gathered e moment).card ≤ capacity.toNat := by
      simpa [gathered] using hle
    have hlt := capacity.isLt
    rw [← hrep.card, BitVec.toNat_ofNat, Nat.mod_eq_of_lt (by omega)]

end Counts

/-! ## §4. A search. -/

/-- The thread is in `find_and_clear_first_set`, with the words before `k` done. -/
def Looking (k : Nat) (pc : BitSetSteps.Pc) : Prop :=
  pc = .findNext k ∨ ∃ old, old ≠ 0#64 ∧ pc = .findRead k old

/-- The compare-exchange has succeeded. -/
structure Took (s s' : BitSetSteps.State Tid) (k : Nat) (old : U64) : Prop where
  word : s.bits.loadWord k = some old
  ne : old ≠ 0#64
  bits : s'.bits = s.bits.storeWord k (old &&& ~~~ firstBit old)

theorem step_pc_ne {n : Nat} {s s' : BitSetSteps.State Tid} {a : BitSetSteps.Act Tid} {t : Tid}
    (h : BitSetSteps.Inv n s) (hs : BitSetSteps.step s a = some s') (hne : t ≠ a.thread) :
    s'.pc t = s.pc t := by
  have hok := h.threads a.thread
  rw [← h.capacity] at hok
  cases BitSetSteps.step_cases hok hs with
  | look | findOver => exact Function.update_of_ne hne _ _
  | set | clear | find => exact Function.update_of_ne hne _ _

/-- **What one step does to a search**: it goes on as it is, looks at its word, or
takes the first bit of it. -/
theorem step_looking {n : Nat} {s s' : BitSetSteps.State Tid} {a : BitSetSteps.Act Tid} {t : Tid}
    {k : Nat} (h : BitSetSteps.Inv n s) (hlook : Looking k (s.pc t))
    (hs : BitSetSteps.step s a = some s') :
    s'.pc t = s.pc t ∨ s'.pc t = BitSetSteps.afterFind s.bits k
      ∨ ∃ old, Took s s' k old ∧ s'.pc t = .returned (.found (some (firstIndex k old))) := by
  by_cases hne : t = a.thread
  swap
  · exact .inl (step_pc_ne h hs hne)
  have hbusy : (s.pc t).resting = false := by
    rcases hlook with hpc | ⟨old, _, hpc⟩
    · rw [hpc]
      rfl
    · rw [hpc]
      rfl
  have hinv' := h.step hs
  cases a with
  | set d i | clear d i | find d =>
      -- a call does not begin inside another
      obtain rfl : t = d := hne
      simp [BitSetSteps.step, hbusy] at hs
  | access d spurious =>
      obtain rfl : t = d := hne
      rcases hlook with hpc | ⟨old, hold, hpc⟩
      · simp only [BitSetSteps.step, BitSetSteps.access, hpc, Option.some.injEq] at hs
        subst hs
        exact .inr (.inl (Function.update_self _ _ _))
      · simp only [BitSetSteps.step, BitSetSteps.access, hpc] at hs
        split at hs
        next hcas =>
          split at hs
          next hlt =>
            injection hs with hs
            subst hs
            exact .inr (.inr ⟨old, ⟨hcas.1, hold, rfl⟩, Function.update_self _ _ _⟩)
          next hge =>
            injection hs with hs
            subst hs
            have hok := hinv'.threads t
            simp only [Function.update_self] at hok
            exact hok.elim
        next =>
          injection hs with hs
          subst hs
          exact .inr (.inl (Function.update_self _ _ _))

theorem afterFind_cases (b : AtomicBitSet) (k : Nat) :
    (b.loadWord k = some 0#64 ∧ Looking (k + 1) (BitSetSteps.afterFind b k))
      ∨ Looking k (BitSetSteps.afterFind b k)
      ∨ (b.loadWord k = none ∧ BitSetSteps.afterFind b k = .returned (.found none)) := by
  unfold BitSetSteps.afterFind
  cases hword : b.loadWord k with
  | none => exact .inr (.inr ⟨rfl, rfl⟩)
  | some old =>
      by_cases hzero : old = 0#64
      · subst hzero
        exact .inl ⟨rfl, .inl (if_pos rfl)⟩
      · exact .inr (.inl (.inr ⟨old, hzero, if_neg hzero⟩))

section Searches

variable {capacity : U32} {e : Execution step (init capacity : State Tid)} {t : Tid}
  {first last i k : Nat} {r : Option U32}

/-- In the run `e`, thread `t` calls `find_and_clear_first_set` at the instant `first`;
it returns `r` at the instant `last`. -/
structure FindSpan (e : Execution step (init capacity : State Tid)) (t : Tid)
    (first last : Nat) (r : Option U32) : Prop where
  called : e.act first = some (.calls (.find t))
  le : first ≤ last
  running : ∀ i, first < i → i ≤ last → ((e.state i).calls.pc t).resting = false
  returned : (e.state (last + 1)).calls.pc t = .returned (.found r)

/-- The words before `k` were zero when they were loaded. -/
def Zeros (e : Execution step (init capacity : State Tid)) (first i k : Nat) : Prop :=
  Scanned (fun c m => (e.state m).calls.bits.loadWord c = some 0#64) first i k

/-- How a search that has seen the words before `k` ends at the instant `i`. -/
def Ends (e : Execution step (init capacity : State Tid)) (i k : Nat) (r : Option U32) : Prop :=
  (r = none ∧ (e.state i).calls.bits.loadWord k = none)
    ∨ ∃ old, r = some (firstIndex k old)
        ∧ Took (e.state i).calls (e.state (i + 1)).calls k old

/-- A thread looks at a word. -/
theorem look_at (hzeros : Zeros e first i k) (hle : first ≤ i)
    (hpc : (e.state (i + 1)).calls.pc t = BitSetSteps.afterFind (e.state i).calls.bits k) :
    (∃ k', Looking k' ((e.state (i + 1)).calls.pc t) ∧ Zeros e first (i + 1) k')
      ∨ ∃ r, (e.state (i + 1)).calls.pc t = .returned (.found r) ∧ Ends e i k r := by
  rcases afterFind_cases (e.state i).calls.bits k with ⟨hword, hlook⟩ | hlook | ⟨hword, hret⟩
  · rw [← hpc] at hlook
    exact .inl ⟨k + 1, hlook, Scanned.next hzeros hle hword⟩
  · rw [← hpc] at hlook
    exact .inl ⟨k, hlook, Scanned.later hzeros (Nat.le_succ i)⟩
  · exact .inr ⟨none, hpc.trans hret, .inl ⟨rfl, hword⟩⟩

/-- One instant of a search. -/
theorem look_on (hlook : Looking k ((e.state i).calls.pc t)) (hzeros : Zeros e first i k)
    (hle : first ≤ i) :
    (∃ k', Looking k' ((e.state (i + 1)).calls.pc t) ∧ Zeros e first (i + 1) k')
      ∨ ∃ r, (e.state (i + 1)).calls.pc t = .returned (.found r) ∧ Ends e i k r := by
  have hstay : (e.state (i + 1)).calls.pc t = (e.state i).calls.pc t →
      ∃ k', Looking k' ((e.state (i + 1)).calls.pc t) ∧ Zeros e first (i + 1) k' := by
    intro hsame
    rw [hsame]
    exact ⟨k, hlook, Scanned.later hzeros (Nat.le_succ i)⟩
  cases hact : e.act i with
  | none => exact .inl (hstay (by rw [e.idle i hact]))
  | some a =>
      rcases step_cases (e.move i a hact) with ⟨b, calls, rfl, _, hcalls, hs⟩ | ⟨d, _, _, hs⟩
        | ⟨d, l, sum, _, _, hs⟩
      · have hs' : (e.state (i + 1)).calls = calls := by rw [hs]
        rw [← hs'] at hcalls
        rcases step_looking (inv_of_execution e i) hlook hcalls with hsame | hafter | ⟨old, htook,
          hret⟩
        · exact .inl (hstay hsame)
        · exact look_at hzeros hle hafter
        · exact .inr ⟨_, hret, .inr ⟨old, rfl, htook⟩⟩
      · exact .inl (hstay (by rw [hs]; rfl))
      · exact .inl (hstay (by rw [hs]; rfl))

/-- The call and its first load. -/
theorem FindSpan.begin (h : FindSpan e t first last r) :
    (e.state (first + 1)).calls.pc t = BitSetSteps.afterFind (e.state first).calls.bits 0 := by
  rcases step_cases (e.move first _ h.called) with ⟨b, calls, hact, _, hcalls, hs⟩ | ⟨d, hact, _⟩
    | ⟨d, l, sum, hact, _⟩
  · injection hact with hb
    subst hb
    simp only [BitSetSteps.step, Option.ite_none_right_eq_some, Option.some.injEq] at hcalls
    obtain ⟨_, rfl⟩ := hcalls
    rw [hs]
    exact Function.update_self _ _ _
  · exact absurd hact (by simp)
  · exact absurd hact (by simp)

theorem FindSpan.not_over (h : FindSpan e t first last r) (hlow : first < i) (hhigh : i ≤ last)
    (r' : Option U32) : (e.state i).calls.pc t ≠ .returned (.found r') := by
  intro hret
  have hrun := h.running i hlow hhigh
  rw [hret] at hrun
  exact absurd hrun (by simp [BitSetSteps.Pc.resting])

/-- **Where a search stands** at every instant of its call. -/
theorem FindSpan.looking (h : FindSpan e t first last r) (i : Nat) (hlow : first < i)
    (hhigh : i ≤ last) :
    ∃ k, Looking k ((e.state i).calls.pc t) ∧ Zeros e first i k := by
  induction i, hlow using Nat.le_induction with
  | base =>
      rcases look_at Scanned.nothing (Nat.le_refl first) h.begin with hgoes | ⟨r', hret, _⟩
      · exact hgoes
      · exact absurd hret (h.not_over (Nat.lt_succ_self first) hhigh r')
  | succ i hlow ih =>
      obtain ⟨k, hlook, hzeros⟩ := ih (by omega)
      rcases look_on hlook hzeros (by omega) with hgoes | ⟨r', hret, _⟩
      · exact hgoes
      · exact absurd hret (h.not_over (by omega) hhigh r')

/-- **How it ends.** -/
theorem FindSpan.ends (h : FindSpan e t first last r) :
    ∃ k, Zeros e first last k ∧ Ends e last k r := by
  have hlast : ∀ k, Zeros e first last k →
      ((∃ k', Looking k' ((e.state (last + 1)).calls.pc t) ∧ Zeros e first (last + 1) k')
        ∨ ∃ r', (e.state (last + 1)).calls.pc t = .returned (.found r') ∧ Ends e last k r') →
      ∃ k, Zeros e first last k ∧ Ends e last k r := by
    rintro k hzeros (⟨k', hlook, _⟩ | ⟨r', hret, hends⟩)
    · rw [h.returned] at hlook
      rcases hlook with hpc | ⟨old, _, hpc⟩
      · exact absurd hpc (by simp)
      · exact absurd hpc (by simp)
    · rw [h.returned] at hret
      simp only [BitSetSteps.Pc.returned.injEq, BitSetSteps.Ret.found.injEq] at hret
      subst hret
      exact ⟨k, hzeros, hends⟩
  rcases Nat.lt_or_ge first last with hlt | hge
  · obtain ⟨k, hlook, hzeros⟩ := h.looking last hlt (Nat.le_refl last)
    exact hlast k hzeros (look_on hlook hzeros h.le)
  · obtain rfl : first = last := Nat.le_antisymm h.le hge
    exact hlast 0 Scanned.nothing (look_at Scanned.nothing (Nat.le_refl first) h.begin)

omit [DecidableEq Tid] in
/-- What a search takes is a member no longer. -/
theorem Took.taken {n : Nat} {s s' : BitSetSteps.State Tid} {old : U64} (h : Took s s' k old)
    (hinv : BitSetSteps.Inv n s) : (firstIndex k old).toNat ∉ members s'.bits := by
  obtain ⟨hload, hbit, hk⟩ := hinv.first h.word h.ne
  have hstore := s.bits.isSet_store_andNot (firstIndex k old) hload
  rw [AtomicBitSet.bit_firstIndex hk h.ne, s.bits.store_firstIndex _ hk h.ne, ← h.bits] at hstore
  intro hmem
  have hset := (Finset.mem_filter.mp hmem).2
  rw [BitVec.ofNat_toNat, BitVec.setWidth_eq] at hset
  exact (hstore.mp hset).1 rfl

/-- **A search** finds the indices below its result clear, each word as it is at one
moment of the call. -/
theorem FindSpan.clear_below (h : FindSpan e t first last r) :
    ∃ moment : Nat → Nat, Monotone moment
      ∧ (∀ x < capacity.toNat, (∀ y, r = some y → x ≤ y.toNat) →
          first ≤ moment (x / 64) ∧ moment (x / 64) ≤ last)
      ∧ (∀ x < capacity.toNat, (∀ y, r = some y → x < y.toNat) → x ∉ gathered e moment)
      ∧ ∀ y, r = some y → moment (y.toNat / 64) = last
          ∧ y.toNat ∈ members (e.state last).calls.bits
          ∧ y.toNat ∉ members (e.state (last + 1)).calls.bits := by
  obtain ⟨k, hzeros, hends⟩ := h.ends
  rcases hends with ⟨rfl, hnone⟩ | ⟨old, rfl, htook⟩
  · obtain ⟨moment, hmono, hseen⟩ := hzeros
    have hall := (loadWord_eq_none e last k).mp hnone
    refine ⟨moment, hmono, fun x hx _ => ?_, fun x hx _ hmem => ?_, by simp⟩
    · obtain ⟨hlo, hhi, _⟩ := hseen (x / 64) (by omega)
      exact ⟨hlo, by omega⟩
    · obtain ⟨_, _, hzero⟩ := hseen (x / 64) (by omega)
      exact notMem_of_zero (inv_of_execution e _) hzero (Finset.mem_filter.mp hmem).2
  · -- the word of the index it returns is the one it changes at its last access
    obtain ⟨hmember, hdiv, hleast⟩ := first_member (inv_of_execution e last) htook.word htook.ne
    have hscan : Scanned (fun c m => (c < k → (e.state m).calls.bits.loadWord c = some 0#64)
        ∧ (c = k → m = last)) first (last + 1) (k + 1) := by
      apply Scanned.next _ h.le ⟨fun hlt => absurd hlt (Nat.lt_irrefl k), fun _ => rfl⟩
      exact hzeros.weaken (fun c m hc hm => ⟨fun _ => hm, fun he => absurd he (by omega)⟩)
    obtain ⟨moment, hmono, hseen⟩ := hscan
    have hlast : moment k = last := (hseen k (Nat.lt_succ_self k)).2.2.2 rfl
    refine ⟨moment, hmono, fun x _ hbelow => ?_, fun x _ hbelow hmem => ?_, fun y hy => ?_⟩
    · have hle := hbelow _ rfl
      obtain ⟨hlo, hhi, _⟩ := hseen (x / 64) (by omega)
      exact ⟨hlo, by omega⟩
    · have hlt := hbelow _ rfl
      have hgathered := (Finset.mem_filter.mp hmem).2
      by_cases hx : x / 64 = k
      · rw [hx, hlast] at hgathered
        exact hleast x hx hlt hgathered
      · have hzero := (hseen (x / 64) (by omega)).2.2.1 (by omega)
        exact notMem_of_zero (inv_of_execution e _) hzero hgathered
    · injection hy with hy
      subst hy
      rw [hdiv]
      exact ⟨hlast, hmember, htook.taken (inv_of_execution e last)⟩

end Searches

/-! ## §5. Both scans. -/

/-- **The scans of `AtomicBitSet` read the words in their order.**  Whatever other
threads do meanwhile, a `count_set` returns the size of the set put together from
the words, each as it is at one moment of the call, later words at later moments,
and its sum does not wrap; a `find_and_clear_first_set` that returns an index finds
every smaller index clear in a set put together in this way, and the index itself,
set until then, is clear from its last access on; one that returns `None` finds
this set empty. -/
theorem scans_read_in_order (capacity : U32) (e : Execution step (init capacity : State Tid))
    (t : Tid) (first last : Nat) :
    (∀ n, CountSpan e t first last n →
        ∃ moment : Nat → Nat, Monotone moment
          ∧ (∀ x < capacity.toNat, first ≤ moment (x / 64) ∧ moment (x / 64) ≤ last)
          ∧ n.toNat = (gathered e moment).card)
      ∧ (∀ i, FindSpan e t first last (some i) →
        ∃ moment : Nat → Nat, Monotone moment
          ∧ (∀ x ≤ i.toNat, first ≤ moment (x / 64) ∧ moment (x / 64) ≤ last)
          ∧ (∀ x < i.toNat, x ∉ gathered e moment)
          ∧ i.toNat < capacity.toNat ∧ moment (i.toNat / 64) = last
          ∧ i.toNat ∈ members (e.state last).calls.bits
          ∧ i.toNat ∉ members (e.state (last + 1)).calls.bits)
      ∧ (FindSpan e t first last none →
        ∃ moment : Nat → Nat, Monotone moment
          ∧ (∀ x < capacity.toNat, first ≤ moment (x / 64) ∧ moment (x / 64) ≤ last)
          ∧ gathered e moment = ∅) := by
  refine ⟨fun n h => h.card, fun i h => ?_, fun h => ?_⟩
  · obtain ⟨moment, hmono, hin, hclear, hret⟩ := h.clear_below
    obtain ⟨hlast, hmember, htaken⟩ := hret i rfl
    have hlt := (members_rel (inv_of_execution e last)).below _ hmember
    refine ⟨moment, hmono, fun x hx => ?_, fun x hx => ?_, hlt, hlast, hmember, htaken⟩
    · apply hin x (by omega)
      intro y hy
      injection hy with hy
      rwa [← hy]
    · apply hclear x (by omega)
      intro y hy
      injection hy with hy
      rwa [← hy]
  · obtain ⟨moment, hmono, hin, hclear, _⟩ := h.clear_below
    refine ⟨moment, hmono, fun x hx => hin x hx (by simp), ?_⟩
    apply Finset.eq_empty_of_forall_notMem
    intro x hmem
    have hx := Finset.mem_range.mp (Finset.mem_filter.mp hmem).1
    exact hclear x hx (by simp) hmem

/-- Index 64 is set; while thread 1 looks for a set index and thread 2 counts, thread 0
sets index 0 and clears index 64, each time behind their backs. -/
def movedRun : List (Act (Fin 3)) :=
  [.calls (.set 0 64#32), .calls (.access 0 false),
   .calls (.find 1), .count 2, .load 2,
   .calls (.set 0 0#32), .calls (.access 0 false),
   .calls (.clear 0 64#32), .calls (.access 0 false),
   .calls (.access 1 false), .calls (.access 1 false), .load 2, .load 2]

theorem movedRun_goes : (exec step (init 65#32) movedRun).isSome = true := by
  decide

/-- The run of `movedRun`. -/
def moved : Execution step (init 65#32 : State (Fin 3)) :=
  .ofExec step _ movedRun movedRun_goes

theorem moved_find : FindSpan moved 1 2 10 none where
  called := rfl
  le := by decide
  running := by
    have hrun : ∀ i, i < 11 → 2 < i → ((moved.state i).calls.pc 1).resting = false := by
      decide
    exact fun i hlow hhigh => hrun i (by omega) hlow
  returned := by decide

theorem moved_count : CountSpan moved 2 3 12 0#32 where
  called := rfl
  lt := by decide
  running := by
    have hrun : ∀ i, i < 13 → 3 < i → ((moved.state i).count 2).resting = false := by
      decide
    exact fun i hlow hhigh => hrun i (by omega) hlow
  loaded := rfl
  returned := by decide

/-- In `moved` the search returns `None` and the count is 0, though at each instant of the
two calls an index is set. -/
theorem scans_read_in_order_moved :
    (∃ moment : Nat → Nat, Monotone moment
        ∧ (∀ x < 65, 2 ≤ moment (x / 64) ∧ moment (x / 64) ≤ 10)
        ∧ gathered moved moment = ∅)
      ∧ (∃ moment : Nat → Nat, Monotone moment
        ∧ (∀ x < 65, 3 ≤ moment (x / 64) ∧ moment (x / 64) ≤ 12)
        ∧ 0 = (gathered moved moment).card)
      ∧ ∀ i, i < 11 → (members (moved.state (2 + i)).calls.bits).Nonempty := by
  refine ⟨(scans_read_in_order 65#32 moved 1 2 10).2.2 moved_find,
    (scans_read_in_order 65#32 moved 2 3 12).1 0#32 moved_count, ?_⟩
  have hset : ∀ i, i < 11 → (moved.state (2 + i)).calls.bits.isSet 64#32 = some true
      ∨ (moved.state (2 + i)).calls.bits.isSet 0#32 = some true := by
    decide
  intro i hi
  have hmem := (members_rel (inv_of_execution moved (2 + i))).mem
  rcases hset i hi with hset | hset
  · exact ⟨_, (hmem _).mp hset⟩
  · exact ⟨_, (hmem _).mp hset⟩

end Entangle.Lockfree.BitSetScans
