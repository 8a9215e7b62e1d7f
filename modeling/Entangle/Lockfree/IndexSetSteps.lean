/-
  Entangle.Lockfree.IndexSetSteps — `acquire` and `release` of `UniqueIndexSet`
  as sequences of atomic accesses, any number of threads interleaved.

  Each load, store, compare-exchange and fetch-and-add of index_set.rs is one
  step of `step`.  `compare_exchange_weak` may fail spuriously (the label says
  so).  The only bookkeeping that is not in the source is `updates`, the number
  of successful compare-exchanges on `head`, and in each thread the value of
  `updates` at its latest read of `head`: the side condition `fewUpdates` on a
  compare-exchange speaks of their distance, because the ABA tag has 32 bits.

  Main results:
    * `Inv.step` — every step keeps the invariant;
    * `unique_index_exclusive` — in every reachable state the free list is a finite,
      duplicate-free list in bounds, and every index is in exactly one of: the
      free list, held, just acquired, being released.
-/
import Entangle.Lib.Transition
import Entangle.Lib.Ownership
import Entangle.Lockfree.IndexSet
import Mathlib.Logic.Function.Basic

namespace Entangle.Lockfree.IndexSetSteps

open Entangle.Lib
open Entangle.Lockfree

/-! ## §1. Threads and steps. -/

/-- Where a thread stands.  `old` is the head word it last read, `ver` the
number of head updates at that moment. -/
inductive Pc where
  -- no call in progress; `acqFailed`: the last one returned `AcquireError`
  | idle
  | acqFailed
  -- acquire: head read and not empty, `next` to be loaded
  | acqRead (old : U64) (ver : Nat)
  -- acquire: `next` loaded, compare-exchange to be tried
  | acqNext (old : U64) (ver : Nat) (nextIdx : U32)
  -- acquire: compare-exchange succeeded, `borrowed` to be incremented
  | acqWon (index : U32)
  -- release: called, head to be loaded
  | relCalled (index : U32)
  -- release: head read, `next` to be stored
  | relRead (index : U32) (old : U64) (ver : Nat)
  -- release: `next` stored, compare-exchange to be tried
  | relStored (index : U32) (old : U64) (ver : Nat)
  -- release: compare-exchange succeeded, `borrowed` to be decremented
  | relWon
  -- a slice access was out of bounds
  | panicked
  deriving Repr, DecidableEq

/-- A new call may start. -/
def Pc.resting : Pc → Bool
  | .idle | .acqFailed => true
  | _ => false

/-- The index a thread is releasing, until its compare-exchange succeeds. -/
def Pc.releasing : Pc → Option U32
  | .relCalled i | .relRead i _ _ | .relStored i _ _ => some i
  | _ => none

/-- The index a thread has just taken off the list. -/
def Pc.acquired : Pc → Option U32
  | .acqWon i => some i
  | _ => none

/-- The version of the head word that the thread's compare-exchange expects. -/
def Pc.exchangeVersion : Pc → Option Nat
  | .acqNext _ ver _ | .relStored _ _ ver => some ver
  | _ => none

/-- The set, where each thread stands in its call, and two records that no access
reads: who has been given an index, and how often `head` has moved.  The latter tells
whether a tag may have come round. -/
structure State (Tid : Type) where
  set : UniqueIndexSet
  pc : Tid → Pc
  -- indices returned by `acquire` and not yet passed to `release`
  held : List U32
  -- number of successful compare-exchanges on `head`
  updates : Nat

/-- Who moves, and whether a weak compare-exchange fails spuriously. -/
inductive Act (Tid : Type) where
  | acquire (t : Tid)
  | release (t : Tid) (index : U32)
  | access (t : Tid) (spurious : Bool)
  deriving Repr, DecidableEq

variable {Tid : Type} [DecidableEq Tid]

/-- Thread `t` gets to `pc`. -/
def State.goto (s : State Tid) (t : Tid) (pc : Pc) : State Tid :=
  { s with pc := Function.update s.pc t pc }

/-- What `acquire` does with the head word it has just read: `AcquireError` on
`SENTINEL`, else go on to load `next`. -/
def State.acquireRead (s : State Tid) (t : Tid) : State Tid :=
  if extractHead s.set.head = SENTINEL then s.goto t .acqFailed
  else s.goto t (.acqRead s.set.head s.updates)

/-- The successful compare-exchange of `head` to `new`. -/
def State.exchange (s : State Tid) (t : Tid) (new : U64) (pc : Pc) : State Tid :=
  { s with
    set := { s.set with head := new }
    updates := s.updates + 1
    pc := Function.update s.pc t pc }

/-- The next atomic access of thread `t`. -/
def access (s : State Tid) (t : Tid) (spurious : Bool) : Option (State Tid) :=
  match s.pc t with
  | .acqRead old ver =>
      match s.set.nextAt (extractHead old) with
      | some nextIdx => some (s.goto t (.acqNext old ver nextIdx))
      | none => some (s.goto t .panicked)
  | .acqNext old _ nextIdx =>
      if s.set.head = old ∧ spurious = false then
        some (s.exchange t (pack nextIdx (extractTag old + 1)) (.acqWon (extractHead old)))
      else
        some (s.acquireRead t)
  | .acqWon i =>
      some { s with
        set := { s.set with borrowed := s.set.borrowed + 1 }
        held := i :: s.held
        pc := Function.update s.pc t .idle }
  | .relCalled i => some (s.goto t (.relRead i s.set.head s.updates))
  | .relRead i old ver =>
      if i.toNat < s.set.capacity then
        some { s with
          set := s.set.setNext i (extractHead old)
          pc := Function.update s.pc t (.relStored i old ver) }
      else some (s.goto t .panicked)
  | .relStored i old _ =>
      if s.set.head = old ∧ spurious = false then
        some (s.exchange t (pack i (extractTag old + 1)) .relWon)
      else
        some (s.goto t (.relRead i s.set.head s.updates))
  | .relWon =>
      some { s with
        set := { s.set with borrowed := s.set.borrowed - 1 }
        pc := Function.update s.pc t .idle }
  | .idle | .acqFailed | .panicked => none

/-- One step.  A call of `acquire` starts with its load of `head`; `release`
may be called with an index that is held. -/
def step (s : State Tid) : Act Tid → Option (State Tid)
  | .acquire t => if (s.pc t).resting then some (s.acquireRead t) else none
  | .release t i =>
      if (s.pc t).resting ∧ i ∈ s.held then
        some { s with held := s.held.erase i, pc := Function.update s.pc t (.relCalled i) }
      else none
  | .access t spurious => access s t spurious

/-- Everything a step can do, with its guard. -/
inductive Moves (s : State Tid) : Act Tid → State Tid → Prop
  | acquire (t : Tid) : (s.pc t).resting = true → Moves s (.acquire t) (s.acquireRead t)
  | release (t : Tid) (i : U32) : (s.pc t).resting = true → i ∈ s.held →
      Moves s (.release t i)
        { s with held := s.held.erase i, pc := Function.update s.pc t (.relCalled i) }
  | acqRead (t : Tid) (spurious : Bool) (old : U64) (ver : Nat) (nextIdx : U32) :
      s.pc t = .acqRead old ver → s.set.nextAt (extractHead old) = some nextIdx →
      Moves s (.access t spurious) (s.goto t (.acqNext old ver nextIdx))
  | acqPanic (t : Tid) (spurious : Bool) (old : U64) (ver : Nat) :
      s.pc t = .acqRead old ver → s.set.nextAt (extractHead old) = none →
      Moves s (.access t spurious) (s.goto t .panicked)
  | acqExchange (t : Tid) (ver : Nat) (nextIdx : U32) :
      s.pc t = .acqNext s.set.head ver nextIdx →
      Moves s (.access t false)
        (s.exchange t (pack nextIdx (extractTag s.set.head + 1))
          (.acqWon (extractHead s.set.head)))
  | acqRetry (t : Tid) (spurious : Bool) (old : U64) (ver : Nat) (nextIdx : U32) :
      s.pc t = .acqNext old ver nextIdx → ¬ (s.set.head = old ∧ spurious = false) →
      Moves s (.access t spurious) (s.acquireRead t)
  | acqReturn (t : Tid) (spurious : Bool) (i : U32) : s.pc t = .acqWon i →
      Moves s (.access t spurious)
        { s with
          set := { s.set with borrowed := s.set.borrowed + 1 }
          held := i :: s.held
          pc := Function.update s.pc t .idle }
  | relCalled (t : Tid) (spurious : Bool) (i : U32) : s.pc t = .relCalled i →
      Moves s (.access t spurious) (s.goto t (.relRead i s.set.head s.updates))
  | relStore (t : Tid) (spurious : Bool) (i : U32) (old : U64) (ver : Nat) :
      s.pc t = .relRead i old ver → i.toNat < s.set.capacity →
      Moves s (.access t spurious)
        { s with
          set := s.set.setNext i (extractHead old)
          pc := Function.update s.pc t (.relStored i old ver) }
  | relPanic (t : Tid) (spurious : Bool) (i : U32) (old : U64) (ver : Nat) :
      s.pc t = .relRead i old ver → ¬ i.toNat < s.set.capacity →
      Moves s (.access t spurious) (s.goto t .panicked)
  | relExchange (t : Tid) (i : U32) (ver : Nat) : s.pc t = .relStored i s.set.head ver →
      Moves s (.access t false) (s.exchange t (pack i (extractTag s.set.head + 1)) .relWon)
  | relRetry (t : Tid) (spurious : Bool) (i : U32) (old : U64) (ver : Nat) :
      s.pc t = .relStored i old ver → ¬ (s.set.head = old ∧ spurious = false) →
      Moves s (.access t spurious) (s.goto t (.relRead i s.set.head s.updates))
  | relReturn (t : Tid) (spurious : Bool) : s.pc t = .relWon →
      Moves s (.access t spurious)
        { s with
          set := { s.set with borrowed := s.set.borrowed - 1 }
          pc := Function.update s.pc t .idle }

theorem access_cases {s s' : State Tid} {t : Tid} {spurious : Bool}
    (hs : access s t spurious = some s') : Moves s (.access t spurious) s' := by
  unfold access at hs
  split at hs
  next old ver hpc =>
    split at hs
    next nextIdx hn =>
      injection hs with hs
      subst hs
      exact .acqRead t spurious old ver nextIdx hpc hn
    next hn =>
      injection hs with hs
      subst hs
      exact .acqPanic t spurious old ver hpc hn
  next old ver nextIdx hpc =>
    split at hs
    next hcas =>
      injection hs with hs
      obtain ⟨rfl, rfl⟩ := hcas
      subst hs
      exact .acqExchange t ver nextIdx hpc
    next hfail =>
      injection hs with hs
      subst hs
      exact .acqRetry t spurious old ver nextIdx hpc hfail
  next i hpc =>
    injection hs with hs
    subst hs
    exact .acqReturn t spurious i hpc
  next i hpc =>
    injection hs with hs
    subst hs
    exact .relCalled t spurious i hpc
  next i old ver hpc =>
    split at hs
    next hlt =>
      injection hs with hs
      subst hs
      exact .relStore t spurious i old ver hpc hlt
    next hlt =>
      injection hs with hs
      subst hs
      exact .relPanic t spurious i old ver hpc hlt
  next i old ver hpc =>
    split at hs
    next hcas =>
      injection hs with hs
      obtain ⟨rfl, rfl⟩ := hcas
      subst hs
      exact .relExchange t i ver hpc
    next hfail =>
      injection hs with hs
      subst hs
      exact .relRetry t spurious i old ver hpc hfail
  next hpc =>
    injection hs with hs
    subst hs
    exact .relReturn t spurious hpc
  all_goals exact absurd hs (by simp)

theorem step_cases {s s' : State Tid} {a : Act Tid} (hs : step s a = some s') : Moves s a s' := by
  cases a with
  | acquire t =>
      simp only [step] at hs
      split at hs
      next hrest =>
        injection hs with hs
        subst hs
        exact .acquire t hrest
      next => exact absurd hs (by simp)
  | release t i =>
      simp only [step] at hs
      split at hs
      next hcond =>
        injection hs with hs
        subst hs
        exact .release t i hcond.1 hcond.2
      next => exact absurd hs (by simp)
  | access t spurious => exact access_cases hs

/-- A new set, nobody in a call. -/
def init (set : UniqueIndexSet) : State Tid :=
  { set := set, pc := fun _ => .idle, held := [], updates := 0 }

/-- Fewer than `2 ^ 32` head updates since the thread's latest read of `head`,
if its next access is the compare-exchange. -/
def fewUpdates (s : State Tid) : Act Tid → Prop
  | .access t _ => ∀ ver ∈ (s.pc t).exchangeVersion, s.updates - ver < 2 ^ 32
  | _ => True

instance decidableFewUpdates (s : State Tid) : (a : Act Tid) → Decidable (fewUpdates s a)
  | .access t _ =>
      inferInstanceAs (Decidable (∀ ver ∈ (s.pc t).exchangeVersion, s.updates - ver < 2 ^ 32))
  | .acquire _ => isTrue trivial
  | .release _ _ => isTrue trivial

/-! ## §2. The invariant. -/

/-- The places an index can be in. -/
inductive Place (Tid : Type) where
  | free
  | held
  | acquiring (t : Tid)
  | releasing (t : Tid)
  deriving DecidableEq

/-- Index `i` is in place `p`, the free list being `l`. -/
def At (s : State Tid) (l : List U32) (i : U32) : Place Tid → Prop
  | .free => i ∈ l
  | .held => i ∈ s.held
  | .acquiring t => (s.pc t).acquired = some i
  | .releasing t => (s.pc t).releasing = some i

/-- What a thread knows about the head word `old` it read at version `ver`. -/
structure ReadOk (s : State Tid) (old : U64) (ver : Nat) : Prop where
  past : ver ≤ s.updates
  tag : extractTag old = BitVec.ofNat 32 ver
  current : ver = s.updates → old = s.set.head

/-- What holds of a thread at each point of its call. -/
def ThreadOk (s : State Tid) : Pc → Prop
  | .acqRead old ver => ReadOk s old ver ∧ (extractHead old).toNat < s.set.capacity
  | .acqNext old ver nextIdx =>
      ReadOk s old ver ∧ (extractHead old).toNat < s.set.capacity
        ∧ (ver = s.updates → s.set.nextAt (extractHead old) = some nextIdx)
  | .relRead _ old ver => ReadOk s old ver
  | .relStored i old ver => ReadOk s old ver ∧ s.set.nextAt i = some (extractHead old)
  | .panicked => False
  | _ => True

/-- The invariant, the free list being `l`. -/
structure Inv (s : State Tid) (l : List U32) : Prop where
  free : s.set.FreeList l
  tag : extractTag s.set.head = BitVec.ofNat 32 s.updates
  heldNodup : s.held.Nodup
  partition : Partition (fun i : U32 => i.toNat < s.set.capacity) (At s l)
  threads : ∀ t, ThreadOk s (s.pc t)

/-- The free list as a tagged stack. -/
def State.stack (s : State Tid) : TaggedStack U32 32 where
  head := extractHead s.set.head
  tag := extractTag s.set.head
  next := s.set.nextAt
  updates := s.updates

omit [DecidableEq Tid] in
theorem Inv.holds {s : State Tid} {l : List U32} (hinv : Inv s l) : s.stack.Holds SENTINEL l :=
  ⟨hinv.free, hinv.tag⟩

omit [DecidableEq Tid] in
theorem ReadOk.read {s : State Tid} {old : U64} {ver : Nat} (hr : ReadOk s old ver) :
    s.stack.Read (extractHead old) (extractTag old) ver :=
  ⟨hr.past, hr.tag, fun hcur => congrArg extractHead (hr.current hcur)⟩

/-! ## §3. Moving indices between places. -/

/-- A step of `t` that leaves its index and the held list alone moves nothing. -/
theorem partition_goto {s s' : State Tid} {l : List U32} {t : Tid} {pc' : Pc}
    (h : Partition (fun i : U32 => i.toNat < s.set.capacity) (At s l))
    (hcap : s'.set.capacity = s.set.capacity)
    (hheld : s'.held = s.held) (hpc : s'.pc = Function.update s.pc t pc')
    (hacq : pc'.acquired = (s.pc t).acquired) (hrel : pc'.releasing = (s.pc t).releasing) :
    Partition (fun i : U32 => i.toNat < s'.set.capacity) (At s' l) := by
  rw [hcap]
  refine h.congr (fun i p => ?_)
  cases p with
  | free => exact Iff.rfl
  | held => simp only [At, hheld]
  | acquiring t' => simp only [At, hpc, update_field Pc.acquired s.pc t pc' hacq t']
  | releasing t' => simp only [At, hpc, update_field Pc.releasing s.pc t pc' hrel t']

/-- The successful compare-exchange of `acquire`: the head of the list goes to
the acquiring thread. -/
theorem partition_acqWon {s s' : State Tid} {h : U32} {l : List U32} {t : Tid}
    (hp : Partition (fun i : U32 => i.toNat < s.set.capacity) (At s (h :: l)))
    (hcap : s'.set.capacity = s.set.capacity) (hheld : s'.held = s.held)
    (hpc : s'.pc = Function.update s.pc t (.acqWon h)) (hnd : h ∉ l)
    (hacq : (s.pc t).acquired = none) (hrel : (s.pc t).releasing = none) :
    Partition (fun i : U32 => i.toNat < s'.set.capacity) (At s' l) := by
  rw [hcap]
  refine hp.move h .free (.acquiring t) (by simp) List.mem_cons_self ?_ ?_ ?_
  · intro i
    simp only [At, List.mem_cons]
    exact ⟨fun hi => ⟨fun he => hnd (he ▸ hi), .inr hi⟩, fun hi => hi.2.resolve_left hi.1⟩
  · intro i
    simp only [At, hpc]
    exact update_gains Pc.acquired hacq rfl i
  · intro i p hsrc hdst
    cases p with
    | free => exact absurd rfl hsrc
    | held => simp only [At, hheld]
    | acquiring t' =>
        have ht : t' ≠ t := fun he => hdst (he ▸ rfl)
        simp only [At, hpc, Function.update_of_ne ht]
    | releasing t' =>
        simp only [At, hpc, update_field Pc.releasing s.pc t (.acqWon h) hrel.symm t']

/-- The fetch-and-add at the end of `acquire`: the index is handed to the caller. -/
theorem partition_held {s s' : State Tid} {i₀ : U32} {l : List U32} {t : Tid}
    (hp : Partition (fun i : U32 => i.toNat < s.set.capacity) (At s l))
    (hcap : s'.set.capacity = s.set.capacity) (hheld : s'.held = i₀ :: s.held)
    (hpc : s'.pc = Function.update s.pc t .idle) (hwon : s.pc t = .acqWon i₀) :
    Partition (fun i : U32 => i.toNat < s'.set.capacity) (At s' l) := by
  rw [hcap]
  have hsrc₀ : At s l i₀ (.acquiring t) := by simp only [At, hwon, Pc.acquired]
  refine hp.move i₀ (.acquiring t) .held (by simp) hsrc₀ ?_ ?_ ?_
  · intro i
    simp only [At, hpc]
    exact update_loses Pc.acquired hsrc₀ rfl i
  · intro i
    simp only [At, hheld, List.mem_cons]
  · intro i p hsrc hdst
    cases p with
    | free => exact Iff.rfl
    | held => exact absurd rfl hdst
    | acquiring t' =>
        have ht : t' ≠ t := fun he => hsrc (he ▸ rfl)
        simp only [At, hpc, Function.update_of_ne ht]
    | releasing t' =>
        simp only [At, hpc, update_field Pc.releasing s.pc t .idle (by rw [hwon]; rfl) t']

/-- The call of `release`: the index leaves the held list. -/
theorem partition_released {s s' : State Tid} {i₀ : U32} {l : List U32} {t : Tid}
    (hp : Partition (fun i : U32 => i.toNat < s.set.capacity) (At s l))
    (hcap : s'.set.capacity = s.set.capacity) (hheld : s'.held = s.held.erase i₀)
    (hpc : s'.pc = Function.update s.pc t (.relCalled i₀)) (hnd : s.held.Nodup)
    (hmem : i₀ ∈ s.held) (hacq : (s.pc t).acquired = none) (hrel : (s.pc t).releasing = none) :
    Partition (fun i : U32 => i.toNat < s'.set.capacity) (At s' l) := by
  rw [hcap]
  refine hp.move i₀ .held (.releasing t) (by simp) hmem ?_ ?_ ?_
  · intro i
    simp only [At, hheld, hnd.mem_erase_iff]
  · intro i
    simp only [At, hpc]
    exact update_gains Pc.releasing hrel rfl i
  · intro i p hsrc hdst
    cases p with
    | free => exact Iff.rfl
    | held => exact absurd rfl hsrc
    | acquiring t' =>
        simp only [At, hpc, update_field Pc.acquired s.pc t (.relCalled i₀) hacq.symm t']
    | releasing t' =>
        have ht : t' ≠ t := fun he => hdst (he ▸ rfl)
        simp only [At, hpc, Function.update_of_ne ht]

/-- The successful compare-exchange of `release`: the index becomes the head. -/
theorem partition_relWon {s s' : State Tid} {i₀ : U32} {l : List U32} {t : Tid}
    (hp : Partition (fun i : U32 => i.toNat < s.set.capacity) (At s l))
    (hcap : s'.set.capacity = s.set.capacity) (hheld : s'.held = s.held)
    (hpc : s'.pc = Function.update s.pc t .relWon)
    (hacq : (s.pc t).acquired = none) (hrel : (s.pc t).releasing = some i₀) :
    Partition (fun i : U32 => i.toNat < s'.set.capacity) (At s' (i₀ :: l)) := by
  rw [hcap]
  refine hp.move i₀ (.releasing t) .free (by simp) hrel ?_ ?_ ?_
  · intro i
    simp only [At, hpc]
    exact update_loses Pc.releasing hrel rfl i
  · intro i
    simp only [At, List.mem_cons]
  · intro i p hsrc hdst
    cases p with
    | free => exact absurd rfl hdst
    | held => simp only [At, hheld]
    | acquiring t' => simp only [At, hpc, update_field Pc.acquired s.pc t .relWon hacq.symm t']
    | releasing t' =>
        have ht : t' ≠ t := fun he => hsrc (he ▸ rfl)
        simp only [At, hpc, Function.update_of_ne ht]

/-! ## §4. What other threads know survives a step. -/

omit [DecidableEq Tid] in
/-- A step that leaves `head`, `updates`, the capacity and `next` alone. -/
theorem ThreadOk.congr {s s' : State Tid} {pc : Pc} (h : ThreadOk s pc)
    (hupd : s'.updates = s.updates) (hhead : s'.set.head = s.set.head)
    (hcap : s'.set.capacity = s.set.capacity) (hnext : s'.set.nextAt = s.set.nextAt) :
    ThreadOk s' pc := by
  have hread : ∀ old ver, ReadOk s old ver → ReadOk s' old ver := by
    intro old ver hr
    exact ⟨by rw [hupd]; exact hr.past, hr.tag, by rw [hupd, hhead]; exact hr.current⟩
  cases pc with
  | acqRead old ver => exact ⟨hread _ _ h.1, by rw [hcap]; exact h.2⟩
  | acqNext old ver n =>
      exact ⟨hread _ _ h.1, by rw [hcap]; exact h.2.1, by rw [hupd, hnext]; exact h.2.2⟩
  | relRead i old ver => exact hread _ _ h
  | relStored i old ver => exact ⟨hread _ _ h.1, by rw [hnext]; exact h.2⟩
  | panicked => exact h
  | _ => trivial

/-- After a head update no earlier read is current, so nothing is claimed of it. -/
theorem ThreadOk.exchange {s : State Tid} {pc : Pc} (h : ThreadOk s pc) (t : Tid)
    (new : U64) (pc' : Pc) : ThreadOk (s.exchange t new pc') pc := by
  have hread : ∀ old ver, ReadOk s old ver → ReadOk (s.exchange t new pc') old ver := by
    intro old ver hr
    have hpast := hr.past
    refine ⟨?_, hr.tag, ?_⟩
    · show ver ≤ s.updates + 1
      omega
    · intro hcur
      have : ver = s.updates + 1 := hcur
      omega
  cases pc with
  | acqRead old ver => exact ⟨hread _ _ h.1, h.2⟩
  | acqNext old ver n =>
      refine ⟨hread _ _ h.1, h.2.1, ?_⟩
      intro hcur
      have hpast := h.1.past
      have : ver = s.updates + 1 := hcur
      omega
  | relRead i old ver => exact hread _ _ h
  | relStored i old ver => exact ⟨hread _ _ h.1, h.2⟩
  | panicked => exact h
  | _ => trivial

omit [DecidableEq Tid] in
/-- `release` of `i` by `t` writes `next[i]`; no other thread relies on it,
because `i` is neither on the free list nor released by another thread. -/
theorem ThreadOk.setNext {s s' : State Tid} {l : List U32} (hinv : Inv s l) {t t' : Tid}
    (ht : t' ≠ t) {i v : U32} (hi : (s.pc t).releasing = some i)
    (hupd : s'.updates = s.updates) (hset : s'.set = s.set.setNext i v) :
    ThreadOk s' (s.pc t') := by
  have hat : At s l i (.releasing t) := hi
  have hok := hinv.threads t'
  have hread : ∀ old ver, ReadOk s old ver → ReadOk s' old ver := by
    intro old ver hr
    exact ⟨by rw [hupd]; exact hr.past, hr.tag, by rw [hupd, hset]; exact hr.current⟩
  cases hpc : s.pc t' with
  | acqRead old ver =>
      rw [hpc] at hok
      exact ⟨hread _ _ hok.1, by rw [hset]; exact hok.2⟩
  | acqNext old ver n =>
      rw [hpc] at hok
      have hfree : i ∉ l := hinv.partition.not_at (q := .free) hat (by simp)
      have hcell : ∀ j, j ≠ i → s'.set.nextAt j = s.set.nextAt j := by
        intro j hj
        rw [hset]
        exact s.set.nextAt_setNext_ne v hj
      have hnext : s'.stack.NextRead (extractHead old) ver n :=
        TaggedStack.NextRead.setNext hinv.holds hok.1.read hok.2.2
          (s.set.ne_sentinel hok.2.1) hfree hupd hcell
      exact ⟨hread _ _ hok.1, by rw [hset]; exact hok.2.1, hnext⟩
  | relRead j old ver =>
      rw [hpc] at hok
      exact hread _ _ hok
  | relStored j old ver =>
      rw [hpc] at hok
      have hj : At s l j (.releasing t') := by
        show (s.pc t').releasing = some j
        rw [hpc]
        rfl
      have hji : j ≠ i := by
        intro he
        rw [he] at hj
        have := hinv.partition.single i _ _ hj hat
        exact ht (Place.releasing.inj this)
      exact ⟨hread _ _ hok.1, by rw [hset, s.set.nextAt_setNext_ne v hji]; exact hok.2⟩
  | panicked =>
      rw [hpc] at hok
      exact hok
  | _ => trivial

/-! ## §5. Every step keeps the invariant. -/

omit [DecidableEq Tid] in
/-- A fresh read of `head`. -/
theorem Inv.readOk {s : State Tid} {l : List U32} (hinv : Inv s l) :
    ReadOk s s.set.head s.updates :=
  ⟨Nat.le_refl _, hinv.tag, fun _ => rfl⟩

/-- Thread `t` is at a new place; the other threads are looked at one by one. -/
theorem threads_update {s' : State Tid} {pcs : Tid → Pc} {t : Tid} {pc' : Pc}
    (hpc : s'.pc = Function.update pcs t pc') (hself : ThreadOk s' pc')
    (hother : ∀ t', t' ≠ t → ThreadOk s' (pcs t')) (t' : Tid) : ThreadOk s' (s'.pc t') := by
  rw [hpc]
  exact (Function.forall_update_iff pcs (fun _ pc => ThreadOk s' pc)).mpr ⟨hself, hother⟩ t'

/-- A thread moves on without touching the shared words. -/
theorem Inv.goto {s : State Tid} {l : List U32} (hinv : Inv s l) (t : Tid) (pc' : Pc)
    (hacq : pc'.acquired = (s.pc t).acquired) (hrel : pc'.releasing = (s.pc t).releasing)
    (hok : ThreadOk s pc') : Inv (s.goto t pc') l where
  free := hinv.free
  tag := hinv.tag
  heldNodup := hinv.heldNodup
  partition := partition_goto hinv.partition rfl rfl rfl hacq hrel
  threads := threads_update rfl (hok.congr rfl rfl rfl rfl)
    (fun t' _ => (hinv.threads t').congr rfl rfl rfl rfl)

/-- `acquire` inspects the head it has read. -/
theorem Inv.acquireRead {s : State Tid} {l : List U32} (hinv : Inv s l) (t : Tid)
    (hacq : (s.pc t).acquired = none) (hrel : (s.pc t).releasing = none) :
    Inv (s.acquireRead t) l := by
  unfold State.acquireRead
  split
  next => exact hinv.goto t .acqFailed hacq.symm hrel.symm trivial
  next hne =>
    refine hinv.goto t _ hacq.symm hrel.symm ⟨hinv.readOk, ?_⟩
    obtain ⟨n, l', _, hn, _⟩ := Linked.eq_cons hinv.free hne
    exact (s.set.nextAt_some_iff _).mp ⟨n, hn⟩

/-- **The compare-exchange of `acquire`** takes the head off the list. -/
theorem Inv.acquireExchange {s : State Tid} {l : List U32} (hinv : Inv s l) {t : Tid}
    {ver : Nat} {n : U32} (hpc : s.pc t = .acqNext s.set.head ver n)
    (hfew : s.updates - ver < 2 ^ 32) :
    ∃ l', l = extractHead s.set.head :: l' ∧
      Inv (s.exchange t (pack n (extractTag s.set.head + 1)) (.acqWon (extractHead s.set.head)))
        l' := by
  have hok := hinv.threads t
  rw [hpc] at hok
  obtain ⟨hread, hlt, hnext⟩ := hok
  obtain ⟨l', hl, hholds⟩ := hinv.holds.pop hread.read hnext (s.set.ne_sentinel hlt) hfew
  refine ⟨l', hl, ?_⟩
  have hnd : extractHead s.set.head ∉ l' := by
    have := hinv.free.nodup
    rw [hl] at this
    exact (List.nodup_cons.mp this).1
  constructor
  · show Linked s.set.nextAt SENTINEL (extractHead (pack n _)) l'
    rw [extractHead_pack]
    exact hholds.linked
  · show extractTag (pack n (extractTag s.set.head + 1)) = BitVec.ofNat 32 (s.updates + 1)
    rw [extractTag_pack]
    exact hholds.tag
  · exact hinv.heldNodup
  · have hp := hinv.partition
    rw [hl] at hp
    exact partition_acqWon hp rfl rfl rfl hnd (by rw [hpc]; rfl) (by rw [hpc]; rfl)
  · exact threads_update rfl trivial (fun t' _ => (hinv.threads t').exchange t _ _)

/-- **The compare-exchange of `release`** puts the index at the head of the list. -/
theorem Inv.releaseExchange {s : State Tid} {l : List U32} (hinv : Inv s l) {t : Tid}
    {i : U32} {ver : Nat} (hpc : s.pc t = .relStored i s.set.head ver) :
    Inv (s.exchange t (pack i (extractTag s.set.head + 1)) .relWon) (i :: l) := by
  have hok := hinv.threads t
  rw [hpc] at hok
  have hrel : (s.pc t).releasing = some i := by rw [hpc]; rfl
  have hlt : i.toNat < s.set.capacity := hinv.partition.inDom i (.releasing t) hrel
  have hholds := hinv.holds.push (s.set.ne_sentinel hlt) hok.2
  constructor
  · show Linked s.set.nextAt SENTINEL (extractHead (pack i _)) (i :: l)
    rw [extractHead_pack]
    exact hholds.linked
  · show extractTag (pack i (extractTag s.set.head + 1)) = BitVec.ofNat 32 (s.updates + 1)
    rw [extractTag_pack]
    exact hholds.tag
  · exact hinv.heldNodup
  · exact partition_relWon hinv.partition rfl rfl rfl (by rw [hpc]; rfl) hrel
  · exact threads_update rfl trivial (fun t' _ => (hinv.threads t').exchange t _ _)

/-- The store of `next[i]` in `release`. -/
theorem Inv.releaseStore {s : State Tid} {l : List U32} (hinv : Inv s l) {t : Tid}
    {i : U32} {old : U64} {ver : Nat} (hpc : s.pc t = .relRead i old ver) :
    Inv { s with
      set := s.set.setNext i (extractHead old)
      pc := Function.update s.pc t (.relStored i old ver) } l := by
  have hok := hinv.threads t
  rw [hpc] at hok
  have hrel : (s.pc t).releasing = some i := by rw [hpc]; rfl
  have hlt : i.toNat < s.set.capacity := hinv.partition.inDom i (.releasing t) hrel
  have hfree : i ∉ l := hinv.partition.not_at (p := .releasing t) (q := .free) hrel (by simp)
  constructor
  · exact hinv.free.setNext hfree _
  · exact hinv.tag
  · exact hinv.heldNodup
  · exact partition_goto hinv.partition rfl rfl rfl (by rw [hpc]; rfl) (by rw [hpc]; rfl)
  · exact threads_update rfl
      ⟨⟨hok.past, hok.tag, hok.current⟩, s.set.nextAt_setNext_self _ hlt⟩
      (fun t' ht => ThreadOk.setNext hinv ht hrel rfl rfl)

/-- The increment of `borrowed`: the index reaches the caller. -/
theorem Inv.acquireReturn {s : State Tid} {l : List U32} (hinv : Inv s l) {t : Tid} {i : U32}
    (hpc : s.pc t = .acqWon i) :
    Inv { s with
      set := { s.set with borrowed := s.set.borrowed + 1 }
      held := i :: s.held
      pc := Function.update s.pc t .idle } l := by
  have hat : At s l i (.acquiring t) := by
    show (s.pc t).acquired = some i
    rw [hpc]
    rfl
  constructor
  · exact hinv.free
  · exact hinv.tag
  · exact List.nodup_cons.mpr
      ⟨hinv.partition.not_at (q := .held) hat (by simp), hinv.heldNodup⟩
  · exact partition_held hinv.partition rfl rfl rfl hpc
  · exact threads_update rfl trivial (fun t' _ => (hinv.threads t').congr rfl rfl rfl rfl)

/-- The decrement of `borrowed`. -/
theorem Inv.releaseReturn {s : State Tid} {l : List U32} (hinv : Inv s l) {t : Tid}
    (hpc : s.pc t = .relWon) :
    Inv { s with
      set := { s.set with borrowed := s.set.borrowed - 1 }
      pc := Function.update s.pc t .idle } l := by
  have h := hinv.goto t .idle (by rw [hpc]; rfl) (by rw [hpc]; rfl) trivial
  exact ⟨h.free, h.tag, h.heldNodup, h.partition, fun t' => (h.threads t').congr rfl rfl rfl rfl⟩

theorem Pc.none_of_resting {pc : Pc} (hrest : pc.resting = true) :
    pc.acquired = none ∧ pc.releasing = none := by
  cases pc with
  | idle => exact ⟨rfl, rfl⟩
  | acqFailed => exact ⟨rfl, rfl⟩
  | _ => exact absurd hrest (by simp [Pc.resting])

/-- The call of `release`. -/
theorem Inv.releaseCall {s : State Tid} {l : List U32} (hinv : Inv s l) {t : Tid} {i : U32}
    (hrest : (s.pc t).resting = true) (hi : i ∈ s.held) :
    Inv { s with
      held := s.held.erase i
      pc := Function.update s.pc t (.relCalled i) } l := by
  have hnone := Pc.none_of_resting hrest
  constructor
  · exact hinv.free
  · exact hinv.tag
  · exact hinv.heldNodup.erase i
  · exact partition_released hinv.partition rfl rfl rfl hinv.heldNodup hi hnone.1 hnone.2
  · exact threads_update rfl trivial (fun t' _ => (hinv.threads t').congr rfl rfl rfl rfl)

/-- **The step lemma**: with the tag in range, every step keeps the invariant. -/
theorem Inv.step {s s' : State Tid} {l : List U32} {a : Act Tid} (hinv : Inv s l)
    (hfew : fewUpdates s a) (hs : step s a = some s') : ∃ l', Inv s' l' := by
  cases step_cases hs with
  | acquire t hrest =>
      obtain ⟨hacq, hrel⟩ := Pc.none_of_resting hrest
      exact ⟨l, hinv.acquireRead t hacq hrel⟩
  | release t i hrest hheld => exact ⟨l, hinv.releaseCall hrest hheld⟩
  | acqRead t spurious old ver n hpc hn =>
      have hok := hinv.threads t
      rw [hpc] at hok
      exact ⟨l, hinv.goto t _ (by rw [hpc]; rfl) (by rw [hpc]; rfl) ⟨hok.1, hok.2, fun _ => hn⟩⟩
  | acqPanic t spurious old ver hpc hnone =>
      -- the head a thread has read is a cell of the table
      have hok := hinv.threads t
      rw [hpc] at hok
      obtain ⟨n, hn⟩ := (s.set.nextAt_some_iff _).mpr hok.2
      rw [hnone] at hn
      exact absurd hn (by simp)
  | acqExchange t ver n hpc =>
      have hver : s.updates - ver < 2 ^ 32 := hfew ver (by rw [hpc]; rfl)
      obtain ⟨l', -, hinv'⟩ := hinv.acquireExchange hpc hver
      exact ⟨l', hinv'⟩
  | acqRetry t spurious old ver n hpc _ =>
      exact ⟨l, hinv.acquireRead t (by rw [hpc]; rfl) (by rw [hpc]; rfl)⟩
  | acqReturn t spurious i hpc => exact ⟨l, hinv.acquireReturn hpc⟩
  | relCalled t spurious i hpc =>
      exact ⟨l, hinv.goto t _ (by rw [hpc]; rfl) (by rw [hpc]; rfl) hinv.readOk⟩
  | relStore t spurious i old ver hpc _ => exact ⟨l, hinv.releaseStore hpc⟩
  | relPanic t spurious i old ver hpc hout =>
      -- an index that is being released is below the capacity
      have hrel : (s.pc t).releasing = some i := by rw [hpc]; rfl
      exact absurd (hinv.partition.inDom i (.releasing t) hrel) hout
  | relExchange t i ver hpc => exact ⟨i :: l, hinv.releaseExchange hpc⟩
  | relRetry t spurious i old ver hpc _ =>
      exact ⟨l, hinv.goto t _ (by rw [hpc]; rfl) (by rw [hpc]; rfl) hinv.readOk⟩
  | relReturn t spurious hpc => exact ⟨l, hinv.releaseReturn hpc⟩

/-! ## §6. Every reachable state. -/

/-- A step does not change the capacity. -/
theorem step_capacity {s s' : State Tid} {a : Act Tid} (hs : step s a = some s') :
    s'.set.capacity = s.set.capacity := by
  have hread : ∀ t, (s.acquireRead t).set = s.set := by
    intro t
    unfold State.acquireRead
    split <;> rfl
  cases step_cases hs with
  | acquire t _ => rw [hread]
  | acqRetry t spurious old ver n _ _ => rw [hread]
  | _ => rfl

omit [DecidableEq Tid] in
/-- Initially every index is on the free list. -/
theorem inv_init (capacity : Nat) (hpos : 0 < capacity) (hlt : capacity < SENTINEL.toNat) :
    Inv (init (UniqueIndexSet.new capacity hpos hlt) : State Tid)
      ((List.range capacity).map (BitVec.ofNat 32)) := by
  have hfree := UniqueIndexSet.new_freeList capacity hpos hlt
  have hs : SENTINEL.toNat < 2 ^ 32 := by decide
  constructor
  · exact hfree
  · show extractTag (pack 0#32 0#32) = _
    rw [extractTag_pack]
    rfl
  · exact List.nodup_nil
  · -- nobody holds, acquires or releases anything
    have honly : ∀ i p, At (init (UniqueIndexSet.new capacity hpos hlt) : State Tid)
        ((List.range capacity).map (BitVec.ofNat 32)) i p → p = .free := by
      intro i p hp
      cases p with
      | free => rfl
      | held => exact absurd hp (by simp [At, init])
      | acquiring t => exact absurd hp (by simp [At, init, Pc.acquired])
      | releasing t => exact absurd hp (by simp [At, init, Pc.releasing])
    constructor
    · intro i p hp
      have hmem := hp
      rw [honly i p hp] at hmem
      exact hfree.lt hmem
    · intro i hi
      refine ⟨.free, List.mem_map.mpr ⟨i.toNat, List.mem_range.mpr hi, ?_⟩⟩
      rw [BitVec.ofNat_toNat, BitVec.setWidth_eq]
    · intro i p q hp hq
      rw [honly i p hp, honly i q hq]
  · intro t
    trivial

/-- The capacity and the invariant, along every run within the tag's range. -/
theorem reach_inv {capacity : Nat} {hpos : 0 < capacity} {hlt : capacity < SENTINEL.toNat}
    {s : State Tid}
    (h : Reach step fewUpdates (init (UniqueIndexSet.new capacity hpos hlt)) s) :
    s.set.capacity = capacity ∧ ∃ l, Inv s l := by
  refine h.invariant (fun s => s.set.capacity = capacity ∧ ∃ l, Inv s l) ?_ ?_
  · exact ⟨rfl, _, inv_init capacity hpos hlt⟩
  · rintro s a s' ⟨hcap, l, hinv⟩ hfew hs
    exact ⟨(step_capacity hs).trans hcap, hinv.step hfew hs⟩

/-- The thread that moves. -/
def Act.thread : Act Tid → Tid
  | .acquire t | .release t _ | .access t _ => t

/-- `AcquireError` is returned by the step that read `SENTINEL` from `head`. -/
theorem acqFailed_head {s s' : State Tid} {a : Act Tid} (hs : step s a = some s')
    (hfail : s'.pc a.thread = .acqFailed) : extractHead s.set.head = SENTINEL := by
  have hread : ∀ t, (s.acquireRead t).pc t = .acqFailed → extractHead s.set.head = SENTINEL := by
    intro t ht
    unfold State.acquireRead at ht
    split at ht
    next hsen => exact hsen
    next => simp [State.goto] at ht
  cases step_cases hs with
  | acquire t _ => exact hread t hfail
  | acqRetry t spurious old ver n _ _ => exact hread t hfail
  | _ => simp [Act.thread, State.goto, State.exchange] at hfail

/-- **Every index is handed out exclusively.**  In every state reached by any
interleaving of the atomic accesses within the tag's range: the free list is
finite, duplicate-free and in bounds; the indices below the capacity, and no
others, are each in exactly one place (free list, held, just acquired by one
thread, being released by one thread); no slice access has panicked; and a step
that returns `AcquireError` reads an empty list. -/
theorem unique_index_exclusive (capacity : Nat) (hpos : 0 < capacity)
    (hlt : capacity < SENTINEL.toNat) (s : State Tid)
    (h : Reach step fewUpdates (init (UniqueIndexSet.new capacity hpos hlt)) s) :
    ∃ l : List U32, s.set.FreeList l ∧ l.Nodup ∧ s.held.Nodup
      ∧ (∀ i p, At s l i p → i.toNat < capacity)
      ∧ (∀ i : U32, i.toNat < capacity → ∃! p : Place Tid, At s l i p)
      ∧ (∀ t, s.pc t ≠ .panicked)
      ∧ (∀ a s', step s a = some s' → s'.pc a.thread = .acqFailed → l = []) := by
  obtain ⟨hcap, l, hinv⟩ := reach_inv h
  have hpart := hinv.partition
  rw [hcap] at hpart
  refine ⟨l, hinv.free, hinv.free.nodup, hinv.heldNodup, hpart.inDom, ?_, ?_, ?_⟩
  · intro i hi
    exact hpart.existsUnique hi
  · intro t hp
    have hok := hinv.threads t
    rw [hp] at hok
    exact hok
  · intro a s' hs hfail
    exact hinv.free.head_eq_sentinel_iff.mp (acqFailed_head hs hfail)

/-- Two threads race for the two indices of a set; one of them retries after a
spurious failure, and an index comes back in between. -/
def raceRun : List (Act Bool) :=
  [.acquire true, .access true false, .acquire false, .access false false,
   .access false false, .access true false, .access true false, .access true true,
   .access false false, .access true false, .access true false, .access true false,
   .release false 0#32, .access false false, .access false false, .access false false]

/-- The set is used up, `0` is about to be counted as returned, `1` is held. -/
theorem unique_index_exclusive_race :
    ∃ s : State Bool,
      Reach step fewUpdates (init (UniqueIndexSet.new 2 (by decide) (by decide))) s
        ∧ s.held = [1#32]
        ∧ ∃ l : List U32, s.set.FreeList l ∧ l.Nodup ∧ s.held.Nodup
          ∧ (∀ i p, At s l i p → i.toNat < 2)
          ∧ (∀ i : U32, i.toNat < 2 → ∃! p : Place Bool, At s l i p)
          ∧ (∀ t, s.pc t ≠ .panicked)
          ∧ (∀ a s', step s a = some s' → s'.pc a.thread = .acqFailed → l = []) := by
  have hrun : (execOk step fewUpdates
      (init (UniqueIndexSet.new 2 (by decide) (by decide)) : State Bool) raceRun).map State.held
        = some [1#32] := by decide
  obtain ⟨s, hs, hheld⟩ := Option.map_eq_some_iff.mp hrun
  have hreach := Reach.of_execOk raceRun .refl hs
  exact ⟨s, hreach, hheld, unique_index_exclusive 2 (by decide) (by decide) s hreach⟩

/-! ## §7. A call that is not interrupted is the call of `IndexSet`. -/

/-- `acquire` run alone, as its accesses: the same index, the same set. -/
theorem acquire_alone (s : State Tid) (t : Tid) (hrest : (s.pc t).resting = true) {i : U32}
    {set' : UniqueIndexSet} (h : s.set.acquire = some (.ok i, set')) :
    ∃ s', exec step s [.acquire t, .access t false, .access t false, .access t false] = some s'
      ∧ s'.set = set' ∧ s'.held = i :: s.held ∧ s'.pc t = .idle := by
  unfold UniqueIndexSet.acquire at h
  simp only at h
  split at h
  next => simp at h
  next hne =>
    obtain ⟨n, hn, heq⟩ := Option.map_eq_some_iff.mp h
    simp only [Prod.mk.injEq, Except.ok.injEq] at heq
    obtain ⟨rfl, rfl⟩ := heq
    simp [exec, step, access, hrest, State.acquireRead, hne, State.goto, hn, State.exchange]

/-- `release` run alone, as its accesses. -/
theorem release_alone (s : State Tid) (t : Tid) (hrest : (s.pc t).resting = true) {i : U32}
    (hheld : i ∈ s.held) {set' : UniqueIndexSet} (h : s.set.release i = some set') :
    ∃ s', exec step s [.release t i, .access t false, .access t false, .access t false,
        .access t false] = some s'
      ∧ s'.set = set' ∧ s'.held = s.held.erase i ∧ s'.pc t = .idle := by
  unfold UniqueIndexSet.release at h
  split at h
  next hlt =>
    injection h with h
    subst h
    simp [exec, step, access, hrest, hheld, State.goto, hlt, State.exchange]
  next => exact absurd h (by simp)

end Entangle.Lockfree.IndexSetSteps
