/-
  Entangle.Lockfree.MpmcSteps — `add` and `remove` of `MpmcContainer` as
  sequences of atomic accesses, any number of threads interleaved.

  Each load, store and compare-exchange of mpmc_container.rs, and of the `set`
  and `clear` of atomic_bitset.rs that it calls, is one step of `step`.
  `compare_exchange_weak` may fail spuriously (the label says so).  `remove` may
  be called by anyone on any slot below the capacity.

  Not in the source: `updates`, the number of successful compare-exchanges on
  `free_head`, with its value at each thread's latest read (for the range of the
  tag), and `log`, the successful calls on each slot, latest first.

  Main results:
    * `Inv.step` — every step keeps the invariant;
    * `slots_never_lost` — in every reachable state every slot is in exactly one
      place, and on each slot every `add` is followed by at most one `remove`,
      which returns the value added.
-/
import Entangle.Lib.Transition
import Entangle.Lib.Ownership
import Entangle.Lockfree.MpmcContainer
import Mathlib.Logic.Function.Basic

namespace Entangle.Lockfree.MpmcSteps

open Entangle.Lib

/-! ## §1. Threads and steps. -/

/-- What a call has returned. -/
inductive Ret where
  | add (r : Option U32)
  | remove (r : Option U64)
  deriving Repr, DecidableEq

/-- Where a thread stands.  `old` is the word it last read, `ver` the number of
updates of `free_head` at that moment. -/
inductive Pc where
  -- no call made yet
  | idle
  | returned (r : Ret)
  -- alloc_slot: head read and not empty, `next` to be loaded
  | allocRead (value : U64) (old : U64) (ver : Nat)
  -- alloc_slot: `next` loaded, compare-exchange of `free_head` to be tried
  | allocNext (value : U64) (old : U64) (ver : Nat) (nextIdx : U32)
  -- add: slot allocated, its data word to be stored
  | allocated (value : U64) (slot : U32)
  -- set: called, the word of the slot to be loaded
  | stored (value : U64) (slot : U32)
  -- set: word read with the bit clear, its compare-exchange to be tried
  | setRead (value : U64) (slot : U32) (old : U64)
  -- clear: word read with the bit set, its compare-exchange to be tried
  | clearRead (slot : U32) (old : U64)
  -- remove: bit cleared, the data word to be loaded
  | cleared (slot : U32)
  -- free_slot: called, head to be loaded
  | loaded (slot : U32) (value : U64)
  -- free_slot: head read, `next` to be stored
  | freeRead (slot : U32) (value : U64) (old : U64) (ver : Nat)
  -- free_slot: `next` stored, compare-exchange of `free_head` to be tried
  | freeStored (slot : U32) (value : U64) (old : U64) (ver : Nat)
  -- a slice access was out of bounds
  | panicked
  deriving Repr, DecidableEq

/-- A new call may start. -/
def Pc.resting : Pc → Bool
  | .idle | .returned _ => true
  | _ => false

/-- The slot an `add` has taken off the free list and not yet marked. -/
def Pc.adding : Pc → Option U32
  | .allocated _ slot | .stored _ slot | .setRead _ slot _ => some slot
  | _ => none

/-- The slot a `remove` has cleared and not yet put back. -/
def Pc.removing : Pc → Option U32
  | .cleared slot | .loaded slot _ | .freeRead slot _ _ _ | .freeStored slot _ _ _ => some slot
  | _ => none

/-- The version of the head word that the thread's compare-exchange expects. -/
def Pc.exchangeVersion : Pc → Option Nat
  | .allocNext _ _ ver _ | .freeStored _ _ _ ver => some ver
  | _ => none

/-- A successful call on a slot. -/
inductive Event where
  | added (value : U64)
  | removed (value : U64)
  deriving Repr, DecidableEq

/-- The container, where each thread stands in `add` or `remove`, and two records that no
access reads: the calls that have succeeded on each slot, and how often `free_head` has
moved. -/
structure State (Tid : Type) where
  container : MpmcContainer
  pc : Tid → Pc
  -- the successful calls on each slot, latest first
  log : U32 → List Event
  -- number of successful compare-exchanges on `free_head`
  updates : Nat

/-- Who moves, and whether a weak compare-exchange fails spuriously. -/
inductive Act (Tid : Type) where
  | add (t : Tid) (value : U64)
  | remove (t : Tid) (slot : U32)
  | access (t : Tid) (spurious : Bool)
  deriving Repr, DecidableEq

/-- The thread that moves. -/
def Act.thread {Tid : Type} : Act Tid → Tid
  | .add t _ | .remove t _ | .access t _ => t

variable {Tid : Type} [DecidableEq Tid]

/-- Thread `t` gets to `pc`. -/
def State.goto (s : State Tid) (t : Tid) (pc : Pc) : State Tid :=
  { s with pc := Function.update s.pc t pc }

/-- Thread `t` gets to `pc`, the container becomes `c`. -/
def State.write (s : State Tid) (t : Tid) (c : MpmcContainer) (pc : Pc) : State Tid :=
  { s with container := c, pc := Function.update s.pc t pc }

/-- A successful compare-exchange of `free_head` to `new`. -/
def State.exchange (s : State Tid) (t : Tid) (new : U64) (pc : Pc) : State Tid :=
  { s with
    container := { s.container with freeHead := new }
    updates := s.updates + 1
    pc := Function.update s.pc t pc }

/-- The call on `slot` that is about to return was successful. -/
def State.record (s : State Tid) (slot : U32) (e : Event) : State Tid :=
  { s with log := Function.update s.log slot (e :: s.log slot) }

/-- What `alloc_slot` does with the head word it has just read: `None` on
`SENTINEL`, else go on to load `next`. -/
def State.allocLoad (s : State Tid) (t : Tid) (value : U64) : State Tid :=
  if MpmcContainer.extractHead s.container.freeHead = SENTINEL then s.goto t (.returned (.add none))
  else s.goto t (.allocRead value s.container.freeHead s.updates)

/-- What `set` does with the word it has just read.  Where the bit is set
already it returns `false`, which `add` does not look at. -/
def State.setLoad (s : State Tid) (t : Tid) (value : U64) (slot : U32) : State Tid :=
  match s.container.occupied.load slot with
  | none => s.goto t .panicked
  | some old =>
      if old &&& AtomicBitSet.bit slot ≠ 0 then
        (s.record slot (.added value)).goto t (.returned (.add (some slot)))
      else s.goto t (.setRead value slot old)

/-- What `clear` does with the word it has just read: `false`, and `None` from
`remove`, where the bit is clear. -/
def State.clearLoad (s : State Tid) (t : Tid) (slot : U32) : State Tid :=
  match s.container.occupied.load slot with
  | none => s.goto t .panicked
  | some old =>
      if old &&& AtomicBitSet.bit slot = 0 then s.goto t (.returned (.remove none))
      else s.goto t (.clearRead slot old)

/-- The next atomic access of thread `t`. -/
def access (s : State Tid) (t : Tid) (spurious : Bool) : Option (State Tid) :=
  match s.pc t with
  | .allocRead value old ver =>
      match s.container.nextAt (MpmcContainer.extractHead old) with
      | some nextIdx => some (s.goto t (.allocNext value old ver nextIdx))
      | none => some (s.goto t .panicked)
  | .allocNext value old _ nextIdx =>
      if s.container.freeHead = old ∧ spurious = false then
        some (s.exchange t (MpmcContainer.packHead nextIdx (MpmcContainer.extractTag old + 1))
          (.allocated value (MpmcContainer.extractHead old)))
      else some (s.allocLoad t value)
  | .allocated value slot =>
      if slot.toNat < s.container.capacity then
        some (s.write t (s.container.setData slot value) (.stored value slot))
      else some (s.goto t .panicked)
  | .stored value slot => some (s.setLoad t value slot)
  | .setRead value slot old =>
      if s.container.occupied.load slot = some old ∧ spurious = false then
        some ((s.record slot (.added value)).write t
          (s.container.setWord slot (old ||| AtomicBitSet.bit slot))
          (.returned (.add (some slot))))
      else some (s.setLoad t value slot)
  | .clearRead slot old =>
      if s.container.occupied.load slot = some old ∧ spurious = false then
        some (s.write t (s.container.setWord slot (old &&& ~~~ AtomicBitSet.bit slot))
          (.cleared slot))
      else some (s.clearLoad t slot)
  | .cleared slot =>
      match s.container.dataAt slot with
      | some value => some (s.goto t (.loaded slot value))
      | none => some (s.goto t .panicked)
  | .loaded slot value =>
      some (s.goto t (.freeRead slot value s.container.freeHead s.updates))
  | .freeRead slot value old ver =>
      if slot.toNat < s.container.capacity then
        some (s.write t (s.container.setNext slot (MpmcContainer.extractHead old))
          (.freeStored slot value old ver))
      else some (s.goto t .panicked)
  | .freeStored slot value old _ =>
      if s.container.freeHead = old ∧ spurious = false then
        some ((s.record slot (.removed value)).exchange t
          (MpmcContainer.packHead slot (MpmcContainer.extractTag old + 1))
          (.returned (.remove (some value))))
      else some (s.goto t (.freeRead slot value s.container.freeHead s.updates))
  | .idle | .returned _ | .panicked => none

/-- One step.  A call of `add` starts with the load of `free_head`, one of
`remove` with the load of the word of its slot. -/
def step (s : State Tid) : Act Tid → Option (State Tid)
  | .add t value => if (s.pc t).resting then some (s.allocLoad t value) else none
  | .remove t slot =>
      if (s.pc t).resting ∧ slot.toNat < s.container.capacity then some (s.clearLoad t slot)
      else none
  | .access t spurious => access s t spurious

/-- A new container, nobody in a call. -/
def init (container : MpmcContainer) : State Tid :=
  { container := container, pc := fun _ => .idle, log := fun _ => [], updates := 0 }

/-- Fewer than `2 ^ 32` updates of `free_head` since the thread's latest read
of it, if its next access is the compare-exchange. -/
def fewUpdates (s : State Tid) : Act Tid → Prop
  | .access t _ => ∀ ver ∈ (s.pc t).exchangeVersion, s.updates - ver < 2 ^ 32
  | _ => True

instance decidableFewUpdates (s : State Tid) : (a : Act Tid) → Decidable (fewUpdates s a)
  | .access t _ =>
      inferInstanceAs (Decidable (∀ ver ∈ (s.pc t).exchangeVersion, s.updates - ver < 2 ^ 32))
  | .add _ _ => isTrue trivial
  | .remove _ _ => isTrue trivial

/-! ## §2. Everything a step can do, with its guard. -/

inductive Moves (s : State Tid) : Act Tid → State Tid → Prop
  | add (t : Tid) (value : U64) : (s.pc t).resting = true →
      Moves s (.add t value) (s.allocLoad t value)
  | remove (t : Tid) (slot : U32) : (s.pc t).resting = true →
      slot.toNat < s.container.capacity → Moves s (.remove t slot) (s.clearLoad t slot)
  | allocRead (t : Tid) (spurious : Bool) (value old : U64) (ver : Nat) (nextIdx : U32) :
      s.pc t = .allocRead value old ver →
      s.container.nextAt (MpmcContainer.extractHead old) = some nextIdx →
      Moves s (.access t spurious) (s.goto t (.allocNext value old ver nextIdx))
  | allocPanic (t : Tid) (spurious : Bool) (value old : U64) (ver : Nat) :
      s.pc t = .allocRead value old ver →
      s.container.nextAt (MpmcContainer.extractHead old) = none →
      Moves s (.access t spurious) (s.goto t .panicked)
  | allocExchange (t : Tid) (value : U64) (ver : Nat) (nextIdx : U32) :
      s.pc t = .allocNext value s.container.freeHead ver nextIdx →
      Moves s (.access t false)
        (s.exchange t
          (MpmcContainer.packHead nextIdx (MpmcContainer.extractTag s.container.freeHead + 1))
          (.allocated value (MpmcContainer.extractHead s.container.freeHead)))
  | allocRetry (t : Tid) (spurious : Bool) (value old : U64) (ver : Nat) (nextIdx : U32) :
      s.pc t = .allocNext value old ver nextIdx →
      Moves s (.access t spurious) (s.allocLoad t value)
  | dataStore (t : Tid) (spurious : Bool) (value : U64) (slot : U32) :
      s.pc t = .allocated value slot →
      Moves s (.access t spurious)
        (s.write t (s.container.setData slot value) (.stored value slot))
  | dataPanic (t : Tid) (spurious : Bool) (value : U64) (slot : U32) :
      s.pc t = .allocated value slot → ¬ slot.toNat < s.container.capacity →
      Moves s (.access t spurious) (s.goto t .panicked)
  | setCalled (t : Tid) (spurious : Bool) (value : U64) (slot : U32) :
      s.pc t = .stored value slot → Moves s (.access t spurious) (s.setLoad t value slot)
  | setExchange (t : Tid) (value : U64) (slot : U32) (old : U64) :
      s.pc t = .setRead value slot old → s.container.occupied.load slot = some old →
      Moves s (.access t false)
        ((s.record slot (.added value)).write t
          (s.container.setWord slot (old ||| AtomicBitSet.bit slot))
          (.returned (.add (some slot))))
  | setRetry (t : Tid) (spurious : Bool) (value : U64) (slot : U32) (old : U64) :
      s.pc t = .setRead value slot old →
      Moves s (.access t spurious) (s.setLoad t value slot)
  | clearExchange (t : Tid) (slot : U32) (old : U64) :
      s.pc t = .clearRead slot old → s.container.occupied.load slot = some old →
      Moves s (.access t false)
        (s.write t (s.container.setWord slot (old &&& ~~~ AtomicBitSet.bit slot))
          (.cleared slot))
  | clearRetry (t : Tid) (spurious : Bool) (slot : U32) (old : U64) :
      s.pc t = .clearRead slot old → Moves s (.access t spurious) (s.clearLoad t slot)
  | dataLoad (t : Tid) (spurious : Bool) (slot : U32) (value : U64) :
      s.pc t = .cleared slot → s.container.dataAt slot = some value →
      Moves s (.access t spurious) (s.goto t (.loaded slot value))
  | loadPanic (t : Tid) (spurious : Bool) (slot : U32) :
      s.pc t = .cleared slot → s.container.dataAt slot = none →
      Moves s (.access t spurious) (s.goto t .panicked)
  | freeCalled (t : Tid) (spurious : Bool) (slot : U32) (value : U64) :
      s.pc t = .loaded slot value →
      Moves s (.access t spurious)
        (s.goto t (.freeRead slot value s.container.freeHead s.updates))
  | nextStore (t : Tid) (spurious : Bool) (slot : U32) (value old : U64) (ver : Nat) :
      s.pc t = .freeRead slot value old ver →
      Moves s (.access t spurious)
        (s.write t (s.container.setNext slot (MpmcContainer.extractHead old))
          (.freeStored slot value old ver))
  | nextPanic (t : Tid) (spurious : Bool) (slot : U32) (value old : U64) (ver : Nat) :
      s.pc t = .freeRead slot value old ver → ¬ slot.toNat < s.container.capacity →
      Moves s (.access t spurious) (s.goto t .panicked)
  | freeExchange (t : Tid) (slot : U32) (value : U64) (ver : Nat) :
      s.pc t = .freeStored slot value s.container.freeHead ver →
      Moves s (.access t false)
        ((s.record slot (.removed value)).exchange t
          (MpmcContainer.packHead slot (MpmcContainer.extractTag s.container.freeHead + 1))
          (.returned (.remove (some value))))
  | freeRetry (t : Tid) (spurious : Bool) (slot : U32) (value old : U64) (ver : Nat) :
      s.pc t = .freeStored slot value old ver →
      Moves s (.access t spurious)
        (s.goto t (.freeRead slot value s.container.freeHead s.updates))

theorem access_cases {s s' : State Tid} {t : Tid} {spurious : Bool}
    (hs : access s t spurious = some s') : Moves s (.access t spurious) s' := by
  unfold access at hs
  split at hs
  next value old ver hpc =>
    split at hs
    next nextIdx hn =>
      injection hs with hs
      subst hs
      exact .allocRead t spurious value old ver nextIdx hpc hn
    next hn =>
      injection hs with hs
      subst hs
      exact .allocPanic t spurious value old ver hpc hn
  next value old ver nextIdx hpc =>
    split at hs
    next hcas =>
      injection hs with hs
      obtain ⟨rfl, rfl⟩ := hcas
      subst hs
      exact .allocExchange t value ver nextIdx hpc
    next =>
      injection hs with hs
      subst hs
      exact .allocRetry t spurious value old ver nextIdx hpc
  next value slot hpc =>
    split at hs
    next =>
      injection hs with hs
      subst hs
      exact .dataStore t spurious value slot hpc
    next hlt =>
      injection hs with hs
      subst hs
      exact .dataPanic t spurious value slot hpc hlt
  next value slot hpc =>
    injection hs with hs
    subst hs
    exact .setCalled t spurious value slot hpc
  next value slot old hpc =>
    split at hs
    next hcas =>
      injection hs with hs
      obtain ⟨hload, rfl⟩ := hcas
      subst hs
      exact .setExchange t value slot old hpc hload
    next =>
      injection hs with hs
      subst hs
      exact .setRetry t spurious value slot old hpc
  next slot old hpc =>
    split at hs
    next hcas =>
      injection hs with hs
      obtain ⟨hload, rfl⟩ := hcas
      subst hs
      exact .clearExchange t slot old hpc hload
    next =>
      injection hs with hs
      subst hs
      exact .clearRetry t spurious slot old hpc
  next slot hpc =>
    split at hs
    next value hv =>
      injection hs with hs
      subst hs
      exact .dataLoad t spurious slot value hpc hv
    next hv =>
      injection hs with hs
      subst hs
      exact .loadPanic t spurious slot hpc hv
  next slot value hpc =>
    injection hs with hs
    subst hs
    exact .freeCalled t spurious slot value hpc
  next slot value old ver hpc =>
    split at hs
    next =>
      injection hs with hs
      subst hs
      exact .nextStore t spurious slot value old ver hpc
    next hlt =>
      injection hs with hs
      subst hs
      exact .nextPanic t spurious slot value old ver hpc hlt
  next slot value old ver hpc =>
    split at hs
    next hcas =>
      injection hs with hs
      obtain ⟨rfl, rfl⟩ := hcas
      subst hs
      exact .freeExchange t slot value ver hpc
    next =>
      injection hs with hs
      subst hs
      exact .freeRetry t spurious slot value old ver hpc
  all_goals exact absurd hs (by simp)

theorem step_cases {s s' : State Tid} {a : Act Tid} (hs : step s a = some s') : Moves s a s' := by
  cases a with
  | add t value =>
      simp only [step] at hs
      split at hs
      next hrest =>
        injection hs with hs
        subst hs
        exact .add t value hrest
      next => exact absurd hs (by simp)
  | remove t slot =>
      simp only [step] at hs
      split at hs
      next hcond =>
        injection hs with hs
        subst hs
        exact .remove t slot hcond.1 hcond.2
      next => exact absurd hs (by simp)
  | access t spurious => exact access_cases hs

/-! ## §3. The invariant. -/

/-- The places a slot can be in. -/
inductive Place (Tid : Type) where
  | free
  | adding (t : Tid)
  | occupied
  | removing (t : Tid)
  deriving DecidableEq

/-- Slot `i` is in place `p`, the free list being `l`. -/
def At (s : State Tid) (l : List U32) (i : U32) : Place Tid → Prop
  | .free => i ∈ l
  | .adding t => (s.pc t).adding = some i
  | .occupied => s.container.Occupied i
  | .removing t => (s.pc t).removing = some i

/-- Each `add` in the log, latest first, is followed by one `remove` that
returned what it added. -/
inductive Paired : List Event → Prop
  | nil : Paired []
  | pair (value : U64) {log : List Event} :
      Paired log → Paired (.removed value :: .added value :: log)

/-- The latest call added `value`, the calls before it are paired. -/
def Open (value : U64) (log : List Event) : Prop :=
  ∃ rest, log = .added value :: rest ∧ Paired rest

/-- The slot holds a value that has been added and not yet been returned. -/
def InUse (s : State Tid) (i : U32) : Prop :=
  s.container.Occupied i ∨ ∃ t, (s.pc t).removing = some i

/-- What the log and the data word of a slot say. -/
structure SlotOk (s : State Tid) (i : U32) : Prop where
  paired : ¬ InUse s i → Paired (s.log i)
  present : InUse s i → ∃ value, Open value (s.log i) ∧ s.container.dataAt i = some value

/-- The free list as a tagged stack. -/
def State.stack (s : State Tid) : TaggedStack U32 32 where
  head := MpmcContainer.extractHead s.container.freeHead
  tag := MpmcContainer.extractTag s.container.freeHead
  next := s.container.nextAt
  updates := s.updates

/-- A compare-exchange of `free_head`, to `n` with the tag counted up. -/
theorem State.stack_exchange (s : State Tid) (t : Tid) (n : U32) (pc' : Pc) :
    (s.exchange t (MpmcContainer.packHead n (MpmcContainer.extractTag s.container.freeHead + 1))
      pc').stack = s.stack.exchange n := by
  unfold State.stack State.exchange TaggedStack.exchange
  simp only [MpmcContainer.extractHead_packHead, MpmcContainer.extractTag_packHead]
  rfl

/-- What a thread knows about the head word `old` it read at version `ver`. -/
def ReadOk (s : State Tid) (old : U64) (ver : Nat) : Prop :=
  s.stack.Read (MpmcContainer.extractHead old) (MpmcContainer.extractTag old) ver

/-- What holds of a thread at each point of its call. -/
def ThreadOk (s : State Tid) : Pc → Prop
  | .allocRead _ old ver =>
      ReadOk s old ver ∧ (MpmcContainer.extractHead old).toNat < s.container.capacity
  | .allocNext _ old ver nextIdx =>
      ReadOk s old ver ∧ (MpmcContainer.extractHead old).toNat < s.container.capacity
        ∧ s.stack.NextRead (MpmcContainer.extractHead old) ver nextIdx
  | .stored value slot | .setRead value slot _ | .loaded slot value =>
      s.container.dataAt slot = some value
  | .clearRead slot old => slot.toNat < s.container.capacity ∧ old &&& AtomicBitSet.bit slot ≠ 0
  | .freeRead slot value old ver => s.container.dataAt slot = some value ∧ ReadOk s old ver
  | .freeStored slot value old ver =>
      s.container.dataAt slot = some value ∧ ReadOk s old ver
        ∧ s.container.nextAt slot = some (MpmcContainer.extractHead old)
  | .panicked => False
  | _ => True

/-- The invariant, the free list being `l`. -/
structure Inv (s : State Tid) (l : List U32) : Prop where
  stack : s.stack.Holds SENTINEL l
  partition : Partition (fun i : U32 => i.toNat < s.container.capacity) (At s l)
  slots : ∀ i, SlotOk s i
  threads : ∀ t, ThreadOk s (s.pc t)

/-! ## §4. Moving slots between places. -/

/-- A step of `t` that leaves its slot, the free list and the bits alone. -/
theorem partition_keep {s s' : State Tid} {l : List U32} {t : Tid} {pc' : Pc}
    (hp : Partition (fun i : U32 => i.toNat < s.container.capacity) (At s l))
    (hcap : s'.container.capacity = s.container.capacity)
    (hocc : s'.container.occupied = s.container.occupied)
    (hpc : s'.pc = Function.update s.pc t pc')
    (hadd : pc'.adding = (s.pc t).adding) (hrem : pc'.removing = (s.pc t).removing) :
    Partition (fun i : U32 => i.toNat < s'.container.capacity) (At s' l) := by
  rw [hcap]
  apply hp.congr
  intro i p
  cases p with
  | free => exact Iff.rfl
  | adding t' => simp only [At, hpc, update_field Pc.adding s.pc t pc' hadd t']
  | occupied => simp only [At, MpmcContainer.Occupied, hocc]
  | removing t' => simp only [At, hpc, update_field Pc.removing s.pc t pc' hrem t']

/-- The compare-exchange of `alloc_slot`: the head of the list goes to `t`. -/
theorem partition_alloc {s s' : State Tid} {j : U32} {l : List U32} {t : Tid} {pc' : Pc}
    (hp : Partition (fun i : U32 => i.toNat < s.container.capacity) (At s (j :: l)))
    (hcap : s'.container.capacity = s.container.capacity)
    (hocc : s'.container.occupied = s.container.occupied)
    (hpc : s'.pc = Function.update s.pc t pc') (hnd : j ∉ l)
    (hadd : (s.pc t).adding = none) (hadd' : pc'.adding = some j)
    (hrem : pc'.removing = (s.pc t).removing) :
    Partition (fun i : U32 => i.toNat < s'.container.capacity) (At s' l) := by
  rw [hcap]
  apply hp.move j .free (.adding t) (by simp) List.mem_cons_self
  · intro i
    simp only [At, List.mem_cons]
    exact ⟨fun hi => ⟨fun he => hnd (he ▸ hi), .inr hi⟩, fun hi => hi.2.resolve_left hi.1⟩
  · intro i
    simp only [At, hpc]
    exact update_gains Pc.adding hadd hadd' i
  · intro i p hsrc hdst
    cases p with
    | free => exact absurd rfl hsrc
    | adding t' =>
        have ht : t' ≠ t := fun he => hdst (he ▸ rfl)
        simp only [At, hpc, Function.update_of_ne ht]
    | occupied => simp only [At, MpmcContainer.Occupied, hocc]
    | removing t' => simp only [At, hpc, update_field Pc.removing s.pc t pc' hrem t']

/-- The compare-exchange of `set`: the slot of `t` is occupied. -/
theorem partition_set {s s' : State Tid} {j : U32} {l : List U32} {t : Tid} {pc' : Pc}
    (hp : Partition (fun i : U32 => i.toNat < s.container.capacity) (At s l))
    (hcap : s'.container.capacity = s.container.capacity)
    (hocc : ∀ i, s'.container.Occupied i ↔ i = j ∨ s.container.Occupied i)
    (hpc : s'.pc = Function.update s.pc t pc')
    (hadd : (s.pc t).adding = some j) (hadd' : pc'.adding = none)
    (hrem : pc'.removing = (s.pc t).removing) :
    Partition (fun i : U32 => i.toNat < s'.container.capacity) (At s' l) := by
  rw [hcap]
  apply hp.move j (.adding t) .occupied (by simp) hadd
  · intro i
    simp only [At, hpc]
    exact update_loses Pc.adding hadd hadd' i
  · exact hocc
  · intro i p hsrc hdst
    cases p with
    | free => exact Iff.rfl
    | adding t' =>
        have ht : t' ≠ t := fun he => hsrc (he ▸ rfl)
        simp only [At, hpc, Function.update_of_ne ht]
    | occupied => exact absurd rfl hdst
    | removing t' => simp only [At, hpc, update_field Pc.removing s.pc t pc' hrem t']

/-- The compare-exchange of `clear`: the occupied slot goes to `t`. -/
theorem partition_clear {s s' : State Tid} {j : U32} {l : List U32} {t : Tid} {pc' : Pc}
    (hp : Partition (fun i : U32 => i.toNat < s.container.capacity) (At s l))
    (hcap : s'.container.capacity = s.container.capacity)
    (hocc : ∀ i, s'.container.Occupied i ↔ i ≠ j ∧ s.container.Occupied i)
    (hset : s.container.Occupied j) (hpc : s'.pc = Function.update s.pc t pc')
    (hadd : pc'.adding = (s.pc t).adding)
    (hrem : (s.pc t).removing = none) (hrem' : pc'.removing = some j) :
    Partition (fun i : U32 => i.toNat < s'.container.capacity) (At s' l) := by
  rw [hcap]
  apply hp.move j .occupied (.removing t) (by simp) hset
  · exact hocc
  · intro i
    simp only [At, hpc]
    exact update_gains Pc.removing hrem hrem' i
  · intro i p hsrc hdst
    cases p with
    | free => exact Iff.rfl
    | adding t' => simp only [At, hpc, update_field Pc.adding s.pc t pc' hadd t']
    | occupied => exact absurd rfl hsrc
    | removing t' =>
        have ht : t' ≠ t := fun he => hdst (he ▸ rfl)
        simp only [At, hpc, Function.update_of_ne ht]

/-- The compare-exchange of `free_slot`: the slot of `t` becomes the head. -/
theorem partition_free {s s' : State Tid} {j : U32} {l : List U32} {t : Tid} {pc' : Pc}
    (hp : Partition (fun i : U32 => i.toNat < s.container.capacity) (At s l))
    (hcap : s'.container.capacity = s.container.capacity)
    (hocc : s'.container.occupied = s.container.occupied)
    (hpc : s'.pc = Function.update s.pc t pc') (hadd : pc'.adding = (s.pc t).adding)
    (hrem : (s.pc t).removing = some j) (hrem' : pc'.removing = none) :
    Partition (fun i : U32 => i.toNat < s'.container.capacity) (At s' (j :: l)) := by
  rw [hcap]
  apply hp.move j (.removing t) .free (by simp) hrem
  · intro i
    simp only [At, hpc]
    exact update_loses Pc.removing hrem hrem' i
  · intro i
    exact List.mem_cons
  · intro i p hsrc hdst
    cases p with
    | free => exact absurd rfl hdst
    | adding t' => simp only [At, hpc, update_field Pc.adding s.pc t pc' hadd t']
    | occupied => simp only [At, MpmcContainer.Occupied, hocc]
    | removing t' =>
        have ht : t' ≠ t := fun he => hsrc (he ▸ rfl)
        simp only [At, hpc, Function.update_of_ne ht]

/-! ## §5. The slots in use. -/

/-- A step of `t` that neither marks nor clears a slot, nor puts one back. -/
theorem inUse_keep {s s' : State Tid} {t : Tid} {pc' : Pc}
    (hpc : s'.pc = Function.update s.pc t pc')
    (hocc : s'.container.occupied = s.container.occupied)
    (hrem : pc'.removing = (s.pc t).removing) (i : U32) : InUse s' i ↔ InUse s i := by
  unfold InUse MpmcContainer.Occupied
  rw [hocc, hpc]
  simp only [update_field Pc.removing s.pc t pc' hrem]

omit [DecidableEq Tid] in
/-- A slot on the free list, or taken by an `add`, is not in use. -/
theorem not_inUse {s : State Tid} {l : List U32} {i : U32} {p : Place Tid}
    (hp : Partition (fun i : U32 => i.toNat < s.container.capacity) (At s l)) (hi : At s l i p)
    (hocc : p ≠ .occupied) (hrem : ∀ t, p ≠ .removing t) : ¬ InUse s i := by
  rintro (hset | ⟨t, ht⟩)
  · exact hp.not_at (q := .occupied) hi hocc.symm hset
  · exact hp.not_at (q := .removing t) hi (hrem t).symm ht

omit [DecidableEq Tid] in
/-- The log of the slot, its data word and whether it is in use stay. -/
theorem SlotOk.congr {s s' : State Tid} {i : U32} (h : SlotOk s i)
    (huse : InUse s' i ↔ InUse s i) (hlog : s'.log i = s.log i)
    (hdata : InUse s i → s'.container.dataAt i = s.container.dataAt i) : SlotOk s' i := by
  constructor
  · intro hn
    rw [hlog]
    exact h.paired (fun hu => hn (huse.mpr hu))
  · intro hu
    have hu := huse.mp hu
    rw [hlog, hdata hu]
    exact h.present hu

/-! ## §6. What threads know survives the steps of others. -/

/-- The slot that is the thread's own, to write and to read. -/
def Pc.owns (pc : Pc) (slot : U32) : Prop := pc.adding = some slot ∨ pc.removing = some slot

omit [DecidableEq Tid] in
/-- What has to survive a step for a thread's knowledge to survive: its reads of
`free_head`, and the data word and the `next` of its own slot. -/
theorem ThreadOk.carry {s s' : State Tid} {pc : Pc} (h : ThreadOk s pc)
    (hcap : s'.container.capacity = s.container.capacity)
    (hread : ∀ old ver, ReadOk s old ver → ReadOk s' old ver)
    (hnext : ∀ old ver n, ReadOk s old ver →
      (MpmcContainer.extractHead old).toNat < s.container.capacity →
      s.stack.NextRead (MpmcContainer.extractHead old) ver n →
      s'.stack.NextRead (MpmcContainer.extractHead old) ver n)
    (hdata : ∀ slot, pc.owns slot → s'.container.dataAt slot = s.container.dataAt slot)
    (hcell : ∀ slot, pc.removing = some slot →
      s'.container.nextAt slot = s.container.nextAt slot) : ThreadOk s' pc := by
  cases pc with
  | allocRead value old ver =>
      refine ⟨hread _ _ h.1, ?_⟩
      rw [hcap]
      exact h.2
  | allocNext value old ver n =>
      refine ⟨hread _ _ h.1, ?_, hnext _ _ _ h.1 h.2.1 h.2.2⟩
      rw [hcap]
      exact h.2.1
  | stored value slot => exact (hdata slot (.inl rfl)).trans h
  | setRead value slot old => exact (hdata slot (.inl rfl)).trans h
  | clearRead slot old =>
      refine ⟨?_, h.2⟩
      rw [hcap]
      exact h.1
  | loaded slot value => exact (hdata slot (.inr rfl)).trans h
  | freeRead slot value old ver => exact ⟨(hdata slot (.inr rfl)).trans h.1, hread _ _ h.2⟩
  | freeStored slot value old ver =>
      exact ⟨(hdata slot (.inr rfl)).trans h.1, hread _ _ h.2.1, (hcell slot rfl).trans h.2.2⟩
  | panicked => exact h
  | _ => trivial

omit [DecidableEq Tid] in
/-- A step that leaves `free_head`, the capacity, `next` and the data alone. -/
theorem ThreadOk.congr {s s' : State Tid} {pc : Pc} (h : ThreadOk s pc)
    (hstack : s'.stack = s.stack) (hcap : s'.container.capacity = s.container.capacity)
    (hdata : s'.container.dataAt = s.container.dataAt) : ThreadOk s' pc := by
  have hnext : s'.container.nextAt = s.container.nextAt := congrArg TaggedStack.next hstack
  apply h.carry hcap
  · intro old ver hr
    unfold ReadOk
    rw [hstack]
    exact hr
  · intro old ver n _ _ hn
    rw [hstack]
    exact hn
  · intro slot _
    rw [hdata]
  · intro slot _
    rw [hnext]

omit [DecidableEq Tid] in
/-- A compare-exchange of `free_head`: earlier reads are no longer current. -/
theorem ThreadOk.exchanged {s s' : State Tid} {pc : Pc} {n : U32} (h : ThreadOk s pc)
    (hstack : s'.stack = s.stack.exchange n)
    (hcap : s'.container.capacity = s.container.capacity)
    (hdata : s'.container.dataAt = s.container.dataAt) : ThreadOk s' pc := by
  have hnext : s'.container.nextAt = s.container.nextAt := congrArg TaggedStack.next hstack
  apply h.carry hcap
  · intro old ver hr
    unfold ReadOk
    rw [hstack]
    exact hr.exchanged n
  · intro old ver m hr _ _
    rw [hstack]
    exact hr.nextRead_exchanged n
  · intro slot _
    rw [hdata]
  · intro slot _
    rw [hnext]

omit [DecidableEq Tid] in
/-- Two threads own different slots. -/
theorem Inv.owns_ne {s : State Tid} {l : List U32} (hinv : Inv s l) {t t' : Tid} (ht : t' ≠ t)
    {i j : U32} (hi : (s.pc t).owns i) (hj : (s.pc t').owns j) : j ≠ i := by
  rintro rfl
  have hplace : ∀ u : Tid, (s.pc u).owns j →
      ∃ p, At s l j p ∧ (p = .adding u ∨ p = .removing u) := by
    rintro u (hadd | hrem)
    · exact ⟨.adding u, hadd, .inl rfl⟩
    · exact ⟨.removing u, hrem, .inr rfl⟩
  obtain ⟨p, hp, hpt⟩ := hplace t hi
  obtain ⟨q, hq, hqt⟩ := hplace t' hj
  obtain rfl := hinv.partition.single j p q hp hq
  rcases hpt with rfl | rfl
  · rcases hqt with he | he
    · exact ht (Place.adding.inj he).symm
    · exact absurd he (by simp)
  · rcases hqt with he | he
    · exact absurd he (by simp)
    · exact ht (Place.removing.inj he).symm

omit [DecidableEq Tid] in
/-- `free_slot` of thread `t` stores `next` of its own slot, on which no other
thread relies. -/
theorem ThreadOk.setNext {s s' : State Tid} {l : List U32} (hinv : Inv s l) {t t' : Tid}
    (ht : t' ≠ t) {i v : U32} (hi : (s.pc t).removing = some i) (hupd : s'.updates = s.updates)
    (hcon : s'.container = s.container.setNext i v) : ThreadOk s' (s.pc t') := by
  have hfree : i ∉ l := hinv.partition.not_at (p := .removing t) (q := .free) hi (by simp)
  have hcell : ∀ j, j ≠ i → s'.container.nextAt j = s.container.nextAt j := by
    intro j hj
    rw [hcon]
    exact s.container.nextAt_setNext_ne v hj
  have hhead : s'.stack.head = s.stack.head := by
    unfold State.stack
    rw [hcon]
    rfl
  apply (hinv.threads t').carry (by rw [hcon]; rfl)
  · intro old ver hr
    exact TaggedStack.Read.same hr hhead hupd
  · intro old ver n hr hlt hn
    exact TaggedStack.NextRead.setNext hinv.stack hr hn (s.container.ne_sentinel hlt) hfree
      hupd hcell
  · intro slot _
    rw [hcon]
    rfl
  · intro slot hslot
    exact hcell slot (hinv.owns_ne ht (.inr hi) (.inr hslot))

omit [DecidableEq Tid] in
/-- `add` of thread `t` stores the data word of its own slot. -/
theorem ThreadOk.setData {s s' : State Tid} {l : List U32} (hinv : Inv s l) {t t' : Tid}
    (ht : t' ≠ t) {i : U32} {v : U64} (hi : (s.pc t).adding = some i)
    (hupd : s'.updates = s.updates) (hcon : s'.container = s.container.setData i v) :
    ThreadOk s' (s.pc t') := by
  have hstack : s'.stack = s.stack := by
    unfold State.stack
    rw [hcon, hupd]
    rfl
  apply (hinv.threads t').carry (by rw [hcon]; rfl)
  · intro old ver hr
    unfold ReadOk
    rw [hstack]
    exact hr
  · intro old ver n _ _ hn
    rw [hstack]
    exact hn
  · intro slot hslot
    rw [hcon]
    exact s.container.dataAt_setData_ne v (hinv.owns_ne ht (.inl hi) hslot)
  · intro slot _
    rw [hcon]
    rfl

/-- Thread `t` is at a new place; the other threads are looked at one by one. -/
theorem threads_update {s' : State Tid} {pcs : Tid → Pc} {t : Tid} {pc' : Pc}
    (hpc : s'.pc = Function.update pcs t pc') (hself : ThreadOk s' pc')
    (hother : ∀ t', t' ≠ t → ThreadOk s' (pcs t')) (t' : Tid) : ThreadOk s' (s'.pc t') := by
  rw [hpc]
  exact (Function.forall_update_iff pcs (fun _ pc => ThreadOk s' pc)).mpr ⟨hself, hother⟩ t'

/-! ## §7. Every step keeps the invariant. -/

/-- A thread moves on without touching the shared words. -/
theorem Inv.goto {s : State Tid} {l : List U32} (hinv : Inv s l) (t : Tid) (pc' : Pc)
    (hadd : pc'.adding = (s.pc t).adding) (hrem : pc'.removing = (s.pc t).removing)
    (hok : ThreadOk s pc') : Inv (s.goto t pc') l where
  stack := hinv.stack
  partition := partition_keep hinv.partition rfl rfl rfl hadd hrem
  slots i := by
    have hpc : (s.goto t pc').pc = Function.update s.pc t pc' := rfl
    exact (hinv.slots i).congr (inUse_keep hpc rfl hrem i) rfl (fun _ => rfl)
  threads := threads_update rfl (hok.congr rfl rfl rfl)
    (fun t' _ => (hinv.threads t').congr rfl rfl rfl)

/-- `alloc_slot` inspects the head it has read. -/
theorem Inv.allocLoad {s : State Tid} {l : List U32} (hinv : Inv s l) (t : Tid) (value : U64)
    (hadd : (s.pc t).adding = none) (hrem : (s.pc t).removing = none) :
    Inv (s.allocLoad t value) l := by
  unfold State.allocLoad
  split
  next => exact hinv.goto t (.returned (.add none)) hadd.symm hrem.symm trivial
  next hne =>
    obtain ⟨n, l', _, hn, _⟩ := hinv.stack.linked.eq_cons hne
    exact hinv.goto t (.allocRead value s.container.freeHead s.updates) hadd.symm hrem.symm
      ⟨hinv.stack.read, (s.container.nextAt_some_iff _).mp ⟨n, hn⟩⟩

/-- `set` inspects the word it has read: the bit of a slot taken by an `add` is
clear. -/
theorem Inv.setLoad {s : State Tid} {l : List U32} (hinv : Inv s l) {t : Tid} {value : U64}
    {slot : U32} (hadd : (s.pc t).adding = some slot) (hrem : (s.pc t).removing = none)
    (hdata : s.container.dataAt slot = some value) : Inv (s.setLoad t value slot) l := by
  have hlt : slot.toNat < s.container.capacity := hinv.partition.inDom slot (.adding t) hadd
  have hclear : ¬ s.container.Occupied slot :=
    hinv.partition.not_at (p := .adding t) (q := .occupied) hadd (by simp)
  obtain ⟨old, hold⟩ := s.container.load_isSome hlt
  unfold State.setLoad
  rw [hold]
  simp only
  split
  next hbit =>
    refine absurd ?_ hclear
    unfold MpmcContainer.Occupied AtomicBitSet.isSet
    rw [hold]
    simpa using hbit
  next => exact hinv.goto t (.setRead value slot old) hadd.symm hrem.symm hdata

/-- `clear` inspects the word it has read. -/
theorem Inv.clearLoad {s : State Tid} {l : List U32} (hinv : Inv s l) {t : Tid} {slot : U32}
    (hadd : (s.pc t).adding = none) (hrem : (s.pc t).removing = none)
    (hlt : slot.toNat < s.container.capacity) : Inv (s.clearLoad t slot) l := by
  obtain ⟨old, hold⟩ := s.container.load_isSome hlt
  unfold State.clearLoad
  rw [hold]
  simp only
  split
  next => exact hinv.goto t (.returned (.remove none)) hadd.symm hrem.symm trivial
  next hbit => exact hinv.goto t (.clearRead slot old) hadd.symm hrem.symm ⟨hlt, hbit⟩

/-- **The compare-exchange of `alloc_slot`** takes the head off the list. -/
theorem Inv.allocExchange {s : State Tid} {l : List U32} (hinv : Inv s l) {t : Tid}
    {value : U64} {ver : Nat} {n : U32} (hpc : s.pc t = .allocNext value s.container.freeHead ver n)
    (hfew : s.updates - ver < 2 ^ 32) :
    ∃ l', Inv (s.exchange t
      (MpmcContainer.packHead n (MpmcContainer.extractTag s.container.freeHead + 1))
      (.allocated value (MpmcContainer.extractHead s.container.freeHead))) l' := by
  have hok := hinv.threads t
  rw [hpc] at hok
  obtain ⟨hread, hlt, hnext⟩ := hok
  have hadd : (s.pc t).adding = none := by rw [hpc]; rfl
  have hrem : (s.pc t).removing = none := by rw [hpc]; rfl
  obtain ⟨l', hl, hholds⟩ := hinv.stack.pop hread hnext (s.container.ne_sentinel hlt) hfew
  have hnd : MpmcContainer.extractHead s.container.freeHead ∉ l' := by
    have := hinv.stack.linked.nodup
    rw [hl] at this
    exact (List.nodup_cons.mp this).1
  refine ⟨l', ?_⟩
  generalize hs : State.exchange s t _ _ = s'
  have hpc' : s'.pc = Function.update s.pc t
      (.allocated value (MpmcContainer.extractHead s.container.freeHead)) := by
    rw [← hs]
    rfl
  have hstack : s'.stack = s.stack.exchange n := by
    rw [← hs]
    exact s.stack_exchange t n _
  have hcap : s'.container.capacity = s.container.capacity := by rw [← hs]; rfl
  have hocc : s'.container.occupied = s.container.occupied := by rw [← hs]; rfl
  constructor
  · rw [hstack]
    exact hholds
  · have hp := hinv.partition
    rw [hl] at hp
    exact partition_alloc hp hcap hocc hpc' hnd hadd rfl hrem.symm
  · intro i
    have huse : InUse s' i ↔ InUse s i := inUse_keep hpc' hocc hrem.symm i
    apply (hinv.slots i).congr huse
    · rw [← hs]
      rfl
    · intro _
      rw [← hs]
      rfl
  · apply threads_update hpc' trivial
    intro t' _
    exact (hinv.threads t').exchanged hstack hcap (by rw [← hs]; rfl)

/-- `add` stores the value in the data word of its slot. -/
theorem Inv.dataStore {s : State Tid} {l : List U32} (hinv : Inv s l) {t : Tid} {value : U64}
    {slot : U32} (hpc : s.pc t = .allocated value slot) :
    Inv (s.write t (s.container.setData slot value) (.stored value slot)) l := by
  have hadd : (s.pc t).adding = some slot := by rw [hpc]; rfl
  have hrem : (s.pc t).removing = none := by rw [hpc]; rfl
  have hlt : slot.toNat < s.container.capacity := hinv.partition.inDom slot (.adding t) hadd
  have hunused : ¬ InUse s slot :=
    not_inUse (p := .adding t) hinv.partition hadd (by simp) (by simp)
  generalize hs : s.write t (s.container.setData slot value) (.stored value slot) = s'
  have hpc' : s'.pc = Function.update s.pc t (.stored value slot) := by rw [← hs]; rfl
  have hcon : s'.container = s.container.setData slot value := by rw [← hs]; rfl
  have hocc : s'.container.occupied = s.container.occupied := by rw [hcon]; rfl
  constructor
  · rw [← hs]
    exact hinv.stack
  · exact partition_keep hinv.partition (by rw [hcon]; rfl) hocc hpc' hadd.symm hrem.symm
  · intro i
    apply (hinv.slots i).congr (inUse_keep hpc' hocc hrem.symm i)
    · rw [← hs]
      rfl
    · intro huse
      rw [hcon]
      apply s.container.dataAt_setData_ne
      rintro rfl
      exact hunused huse
  · apply threads_update hpc'
    · show s'.container.dataAt slot = some value
      rw [hcon]
      exact s.container.dataAt_setData_self value hlt
    · intro t' ht
      exact ThreadOk.setData hinv ht hadd (by rw [← hs]; rfl) hcon

/-- **The compare-exchange of `set`**: the value is in the table. -/
theorem Inv.setExchange {s : State Tid} {l : List U32} (hinv : Inv s l) {t : Tid} {value : U64}
    {slot : U32} {old : U64} (hpc : s.pc t = .setRead value slot old)
    (hload : s.container.occupied.load slot = some old) :
    Inv ((s.record slot (.added value)).write t
      (s.container.setWord slot (old ||| AtomicBitSet.bit slot))
      (.returned (.add (some slot)))) l := by
  have hadd : (s.pc t).adding = some slot := by rw [hpc]; rfl
  have hrem : (s.pc t).removing = none := by rw [hpc]; rfl
  have hunused : ¬ InUse s slot :=
    not_inUse (p := .adding t) hinv.partition hadd (by simp) (by simp)
  have hok := hinv.threads t
  rw [hpc] at hok
  generalize hs : State.write (s.record slot (.added value)) t _ _ = s'
  have hpc' : s'.pc = Function.update s.pc t (.returned (.add (some slot))) := by rw [← hs]; rfl
  have hcap : s'.container.capacity = s.container.capacity := by rw [← hs]; rfl
  have hocc : ∀ i, s'.container.Occupied i ↔ i = slot ∨ s.container.Occupied i := by
    intro i
    rw [← hs]
    exact s.container.occupied.isSet_store_or i hload
  have hlog : s'.log = Function.update s.log slot (.added value :: s.log slot) := by
    rw [← hs]
    rfl
  have hdata : s'.container.dataAt = s.container.dataAt := by rw [← hs]; rfl
  have huse : ∀ i, InUse s' i ↔ i = slot ∨ InUse s i := by
    intro i
    unfold InUse
    rw [hocc, hpc']
    simp only [update_field Pc.removing s.pc t (.returned (.add (some slot))) hrem.symm, or_assoc]
  constructor
  · rw [← hs]
    exact hinv.stack
  · exact partition_set hinv.partition hcap hocc hpc' hadd rfl hrem.symm
  · intro i
    by_cases hi : i = slot
    · subst hi
      constructor
      · intro hn
        exact absurd ((huse i).mpr (.inl rfl)) hn
      · intro _
        rw [hlog, hdata, Function.update_self]
        exact ⟨value, ⟨_, rfl, (hinv.slots i).paired hunused⟩, hok⟩
    · apply (hinv.slots i).congr
      · rw [huse]
        simp [hi]
      · rw [hlog, Function.update_of_ne hi]
      · intro _
        rw [hdata]
  · apply threads_update hpc' trivial
    intro t' _
    exact (hinv.threads t').congr (by rw [← hs]; rfl) hcap hdata

/-- **The compare-exchange of `clear`**: the slot is the remover's. -/
theorem Inv.clearExchange {s : State Tid} {l : List U32} (hinv : Inv s l) {t : Tid}
    {slot : U32} {old : U64} (hpc : s.pc t = .clearRead slot old)
    (hload : s.container.occupied.load slot = some old) :
    Inv (s.write t (s.container.setWord slot (old &&& ~~~ AtomicBitSet.bit slot))
      (.cleared slot)) l := by
  have hadd : (s.pc t).adding = none := by rw [hpc]; rfl
  have hrem : (s.pc t).removing = none := by rw [hpc]; rfl
  have hok := hinv.threads t
  rw [hpc] at hok
  have hset : s.container.Occupied slot := by
    unfold MpmcContainer.Occupied AtomicBitSet.isSet
    rw [hload]
    simpa using hok.2
  generalize hs : State.write s t _ (.cleared slot) = s'
  have hpc' : s'.pc = Function.update s.pc t (.cleared slot) := by rw [← hs]; rfl
  have hcap : s'.container.capacity = s.container.capacity := by rw [← hs]; rfl
  have hocc : ∀ i, s'.container.Occupied i ↔ i ≠ slot ∧ s.container.Occupied i := by
    intro i
    rw [← hs]
    exact s.container.occupied.isSet_store_andNot i hload
  have hdata : s'.container.dataAt = s.container.dataAt := by rw [← hs]; rfl
  -- the slot stays in use: it passes from the bit to the remover
  have huse : ∀ i, InUse s' i ↔ InUse s i := by
    intro i
    unfold InUse
    rw [hocc, hpc']
    constructor
    · rintro (⟨_, hi⟩ | ⟨t', ht'⟩)
      · exact .inl hi
      · by_cases htt : t' = t
        · rw [htt, Function.update_self] at ht'
          obtain rfl : slot = i := Option.some.inj ht'
          exact .inl hset
        · rw [Function.update_of_ne htt] at ht'
          exact .inr ⟨t', ht'⟩
    · rintro (hi | ⟨t', ht'⟩)
      · by_cases his : i = slot
        · refine .inr ⟨t, ?_⟩
          rw [Function.update_self, his]
          rfl
        · exact .inl ⟨his, hi⟩
      · refine .inr ⟨t', ?_⟩
        rw [Function.update_of_ne]
        · exact ht'
        · rintro rfl
          rw [hrem] at ht'
          exact absurd ht' (by simp)
  constructor
  · rw [← hs]
    exact hinv.stack
  · exact partition_clear hinv.partition hcap hocc hset hpc' hadd.symm hrem rfl
  · intro i
    apply (hinv.slots i).congr (huse i)
    · rw [← hs]
      rfl
    · intro _
      rw [hdata]
  · apply threads_update hpc' trivial
    intro t' _
    exact (hinv.threads t').congr (by rw [← hs]; rfl) hcap hdata

/-- The store of `next` in `free_slot`. -/
theorem Inv.nextStore {s : State Tid} {l : List U32} (hinv : Inv s l) {t : Tid} {slot : U32}
    {value old : U64} {ver : Nat} (hpc : s.pc t = .freeRead slot value old ver) :
    Inv (s.write t (s.container.setNext slot (MpmcContainer.extractHead old))
      (.freeStored slot value old ver)) l := by
  have hadd : (s.pc t).adding = none := by rw [hpc]; rfl
  have hrem : (s.pc t).removing = some slot := by rw [hpc]; rfl
  have hlt : slot.toNat < s.container.capacity := hinv.partition.inDom slot (.removing t) hrem
  have hfree : slot ∉ l := hinv.partition.not_at (p := .removing t) (q := .free) hrem (by simp)
  have hok := hinv.threads t
  rw [hpc] at hok
  generalize hs : State.write s t _ (.freeStored slot value old ver) = s'
  have hpc' : s'.pc = Function.update s.pc t (.freeStored slot value old ver) := by
    rw [← hs]
    rfl
  have hcon : s'.container = s.container.setNext slot (MpmcContainer.extractHead old) := by
    rw [← hs]
    rfl
  have hupd : s'.updates = s.updates := by rw [← hs]; rfl
  have hhead : s'.stack.head = s.stack.head := by rw [← hs]; rfl
  have hocc : s'.container.occupied = s.container.occupied := by rw [hcon]; rfl
  have hdata : s'.container.dataAt = s.container.dataAt := by rw [hcon]; rfl
  constructor
  · apply hinv.stack.setNext hfree hhead (by rw [← hs]; rfl) hupd
    intro j hj
    show s'.container.nextAt j = s.container.nextAt j
    rw [hcon]
    exact s.container.nextAt_setNext_ne _ hj
  · exact partition_keep hinv.partition (by rw [hcon]; rfl) hocc hpc' hadd.symm hrem.symm
  · intro i
    apply (hinv.slots i).congr (inUse_keep hpc' hocc hrem.symm i)
    · rw [← hs]
      rfl
    · intro _
      rw [hdata]
  · apply threads_update hpc'
    · refine ⟨?_, TaggedStack.Read.same hok.2 hhead hupd, ?_⟩
      · rw [hdata]
        exact hok.1
      · rw [hcon]
        exact s.container.nextAt_setNext_self _ hlt
    · intro t' ht
      exact ThreadOk.setNext hinv ht hrem hupd hcon

/-- **The compare-exchange of `free_slot`** puts the slot at the head of the
list, and `remove` returns what the latest `add` put there. -/
theorem Inv.freeExchange {s : State Tid} {l : List U32} (hinv : Inv s l) {t : Tid} {slot : U32}
    {value : U64} {ver : Nat} (hpc : s.pc t = .freeStored slot value s.container.freeHead ver) :
    Inv ((s.record slot (.removed value)).exchange t
      (MpmcContainer.packHead slot (MpmcContainer.extractTag s.container.freeHead + 1))
      (.returned (.remove (some value)))) (slot :: l) := by
  have hadd : (s.pc t).adding = none := by rw [hpc]; rfl
  have hrem : (s.pc t).removing = some slot := by rw [hpc]; rfl
  have hlt : slot.toNat < s.container.capacity := hinv.partition.inDom slot (.removing t) hrem
  have hok := hinv.threads t
  rw [hpc] at hok
  generalize hs : State.exchange (s.record slot (.removed value)) t _ _ = s'
  have hpc' : s'.pc = Function.update s.pc t (.returned (.remove (some value))) := by
    rw [← hs]
    rfl
  have hstack : s'.stack = s.stack.exchange slot := by
    rw [← hs]
    exact (s.record slot (.removed value)).stack_exchange t slot _
  have hcap : s'.container.capacity = s.container.capacity := by rw [← hs]; rfl
  have hocc : s'.container.occupied = s.container.occupied := by rw [← hs]; rfl
  have hdata : s'.container.dataAt = s.container.dataAt := by rw [← hs]; rfl
  have hlog : s'.log = Function.update s.log slot (.removed value :: s.log slot) := by
    rw [← hs]
    rfl
  -- the slot is no longer in use, the others are as they were
  have hunused : ¬ InUse s' slot := by
    unfold InUse MpmcContainer.Occupied
    rw [hocc, hpc']
    rintro (hset | ⟨t', ht'⟩)
    · exact hinv.partition.not_at (p := .removing t) (q := .occupied) hrem (by simp) hset
    · by_cases htt : t' = t
      · rw [htt, Function.update_self] at ht'
        exact absurd ht' (by simp [Pc.removing])
      · rw [Function.update_of_ne htt] at ht'
        exact hinv.owns_ne htt (.inr hrem) (.inr ht') rfl
  have huse : ∀ i, i ≠ slot → (InUse s' i ↔ InUse s i) := by
    intro i hi
    unfold InUse MpmcContainer.Occupied
    rw [hocc, hpc']
    have hthread : ∀ t', ((Function.update s.pc t (.returned (.remove (some value)))) t').removing
        = some i ↔ (s.pc t').removing = some i := by
      intro t'
      by_cases htt : t' = t
      · rw [htt, update_loses Pc.removing hrem rfl]
        simp [hi]
      · rw [Function.update_of_ne htt]
    simp only [hthread]
  constructor
  · rw [hstack]
    exact hinv.stack.push (s.container.ne_sentinel hlt) hok.2.2
  · exact partition_free hinv.partition hcap hocc hpc' hadd.symm hrem rfl
  · intro i
    by_cases hi : i = slot
    · subst hi
      constructor
      · intro _
        obtain ⟨v, ⟨rest, hopen, hrest⟩, hv⟩ := (hinv.slots i).present (.inr ⟨t, hrem⟩)
        obtain rfl : value = v := Option.some.inj (hok.1.symm.trans hv)
        rw [hlog, Function.update_self, hopen]
        exact .pair value hrest
      · intro hu
        exact absurd hu hunused
    · apply (hinv.slots i).congr (huse i hi)
      · rw [hlog, Function.update_of_ne hi]
      · intro _
        rw [hdata]
  · apply threads_update hpc' trivial
    intro t' _
    exact (hinv.threads t').exchanged hstack hcap hdata

theorem Pc.none_of_resting {pc : Pc} (hrest : pc.resting = true) :
    pc.adding = none ∧ pc.removing = none := by
  cases pc with
  | idle => exact ⟨rfl, rfl⟩
  | returned r => exact ⟨rfl, rfl⟩
  | _ => exact absurd hrest (by simp [Pc.resting])

/-- **The step lemma**: with the tag in range, every step keeps the invariant. -/
theorem Inv.step {s s' : State Tid} {l : List U32} {a : Act Tid} (hinv : Inv s l)
    (hfew : fewUpdates s a) (hs : step s a = some s') : ∃ l', Inv s' l' := by
  cases step_cases hs with
  | add t value hrest =>
      obtain ⟨hadd, hrem⟩ := Pc.none_of_resting hrest
      exact ⟨l, hinv.allocLoad t value hadd hrem⟩
  | remove t slot hrest hlt =>
      obtain ⟨hadd, hrem⟩ := Pc.none_of_resting hrest
      exact ⟨l, hinv.clearLoad hadd hrem hlt⟩
  | allocRead t spurious value old ver n hpc hn =>
      have hok := hinv.threads t
      rw [hpc] at hok
      exact ⟨l, hinv.goto t _ (by rw [hpc]; rfl) (by rw [hpc]; rfl) ⟨hok.1, hok.2, fun _ => hn⟩⟩
  | allocPanic t spurious value old ver hpc hnone =>
      -- the head a thread has read is a cell of the table
      have hok := hinv.threads t
      rw [hpc] at hok
      obtain ⟨n, hn⟩ := (s.container.nextAt_some_iff _).mpr hok.2
      rw [hnone] at hn
      exact absurd hn (by simp)
  | allocExchange t value ver n hpc =>
      have hver : s.updates - ver < 2 ^ 32 := hfew ver (by rw [hpc]; rfl)
      exact hinv.allocExchange hpc hver
  | allocRetry t spurious value old ver n hpc =>
      exact ⟨l, hinv.allocLoad t value (by rw [hpc]; rfl) (by rw [hpc]; rfl)⟩
  | dataStore t spurious value slot hpc => exact ⟨l, hinv.dataStore hpc⟩
  | dataPanic t spurious value slot hpc hout =>
      have hadd : (s.pc t).adding = some slot := by rw [hpc]; rfl
      exact absurd (hinv.partition.inDom slot (.adding t) hadd) hout
  | setCalled t spurious value slot hpc =>
      have hok := hinv.threads t
      rw [hpc] at hok
      exact ⟨l, hinv.setLoad (by rw [hpc]; rfl) (by rw [hpc]; rfl) hok⟩
  | setExchange t value slot old hpc hload => exact ⟨l, hinv.setExchange hpc hload⟩
  | setRetry t spurious value slot old hpc =>
      have hok := hinv.threads t
      rw [hpc] at hok
      exact ⟨l, hinv.setLoad (by rw [hpc]; rfl) (by rw [hpc]; rfl) hok⟩
  | clearExchange t slot old hpc hload => exact ⟨l, hinv.clearExchange hpc hload⟩
  | clearRetry t spurious slot old hpc =>
      have hok := hinv.threads t
      rw [hpc] at hok
      exact ⟨l, hinv.clearLoad (by rw [hpc]; rfl) (by rw [hpc]; rfl) hok.1⟩
  | dataLoad t spurious slot value hpc hv =>
      exact ⟨l, hinv.goto t _ (by rw [hpc]; rfl) (by rw [hpc]; rfl) hv⟩
  | loadPanic t spurious slot hpc hnone =>
      -- a cleared slot is below the capacity
      have hrem : (s.pc t).removing = some slot := by rw [hpc]; rfl
      obtain ⟨v, hv⟩ := s.container.dataAt_isSome (hinv.partition.inDom slot (.removing t) hrem)
      rw [hnone] at hv
      exact absurd hv (by simp)
  | freeCalled t spurious slot value hpc =>
      have hok := hinv.threads t
      rw [hpc] at hok
      exact ⟨l, hinv.goto t _ (by rw [hpc]; rfl) (by rw [hpc]; rfl) ⟨hok, hinv.stack.read⟩⟩
  | nextStore t spurious slot value old ver hpc => exact ⟨l, hinv.nextStore hpc⟩
  | nextPanic t spurious slot value old ver hpc hout =>
      have hrem : (s.pc t).removing = some slot := by rw [hpc]; rfl
      exact absurd (hinv.partition.inDom slot (.removing t) hrem) hout
  | freeExchange t slot value ver hpc => exact ⟨slot :: l, hinv.freeExchange hpc⟩
  | freeRetry t spurious slot value old ver hpc =>
      have hok := hinv.threads t
      rw [hpc] at hok
      exact ⟨l, hinv.goto t _ (by rw [hpc]; rfl) (by rw [hpc]; rfl) ⟨hok.1, hinv.stack.read⟩⟩

/-! ## §8. Every reachable state. -/

/-- A step does not change the capacity. -/
theorem State.allocLoad_container (s : State Tid) (t : Tid) (value : U64) :
    (s.allocLoad t value).container = s.container := by
  unfold State.allocLoad
  split
  next => rfl
  next => rfl

theorem State.setLoad_container (s : State Tid) (t : Tid) (value : U64) (slot : U32) :
    (s.setLoad t value slot).container = s.container := by
  unfold State.setLoad
  split
  next => rfl
  next =>
    split
    next => rfl
    next => rfl

theorem State.clearLoad_container (s : State Tid) (t : Tid) (slot : U32) :
    (s.clearLoad t slot).container = s.container := by
  unfold State.clearLoad
  split
  next => rfl
  next =>
    split
    next => rfl
    next => rfl

theorem step_capacity {s s' : State Tid} {a : Act Tid} (hs : step s a = some s') :
    s'.container.capacity = s.container.capacity := by
  cases step_cases hs with
  | add t value _ => rw [s.allocLoad_container]
  | remove t slot _ _ => rw [s.clearLoad_container]
  | allocRetry t spurious value old ver n _ => rw [s.allocLoad_container]
  | setCalled t spurious value slot _ => rw [s.setLoad_container]
  | setRetry t spurious value slot old _ => rw [s.setLoad_container]
  | clearRetry t spurious slot old _ => rw [s.clearLoad_container]
  | _ => rfl

omit [DecidableEq Tid] in
/-- Initially every slot is on the free list. -/
theorem inv_init (capacity : Nat) (hpos : 0 < capacity) (hlt : capacity < 2 ^ 32) :
    Inv (init (MpmcContainer.new capacity hpos hlt) : State Tid)
      ((List.range capacity).map (BitVec.ofNat 32)) := by
  have hlinked := MpmcContainer.new_linked capacity hpos hlt
  have hunused : ∀ i, ¬ InUse (init (MpmcContainer.new capacity hpos hlt) : State Tid) i := by
    rintro i (hset | ⟨t, ht⟩)
    · exact MpmcContainer.new_not_occupied capacity hpos hlt i hset
    · exact absurd ht (by simp [init, Pc.removing])
  constructor
  · constructor
    · exact hlinked
    · show MpmcContainer.extractTag (MpmcContainer.packHead 0#32 0#32) = _
      rw [MpmcContainer.extractTag_packHead]
      rfl
  · -- nobody adds or removes anything, and no bit is set
    have honly : ∀ i p, At (init (MpmcContainer.new capacity hpos hlt) : State Tid)
        ((List.range capacity).map (BitVec.ofNat 32)) i p → p = .free := by
      intro i p hp
      cases p with
      | free => rfl
      | adding t => exact absurd hp (by simp [At, init, Pc.adding])
      | occupied => exact absurd hp (MpmcContainer.new_not_occupied capacity hpos hlt i)
      | removing t => exact absurd hp (by simp [At, init, Pc.removing])
    constructor
    · intro i p hp
      have hmem := hp
      rw [honly i p hp] at hmem
      exact ((MpmcContainer.new capacity hpos hlt).nextAt_some_iff i).mp (hlinked.next_isSome hmem)
    · intro i hi
      refine ⟨.free, List.mem_map.mpr ⟨i.toNat, List.mem_range.mpr hi, ?_⟩⟩
      rw [BitVec.ofNat_toNat, BitVec.setWidth_eq]
    · intro i p q hp hq
      rw [honly i p hp, honly i q hq]
  · intro i
    constructor
    · intro _
      exact .nil
    · intro hu
      exact absurd hu (hunused i)
  · intro t
    trivial

/-- The capacity and the invariant, along every run within the tag's range. -/
theorem reach_inv {capacity : Nat} {hpos : 0 < capacity} {hlt : capacity < 2 ^ 32}
    {s : State Tid}
    (h : Reach step fewUpdates (init (MpmcContainer.new capacity hpos hlt)) s) :
    s.container.capacity = capacity ∧ ∃ l, Inv s l := by
  apply h.invariant (fun s => s.container.capacity = capacity ∧ ∃ l, Inv s l)
  · exact ⟨rfl, _, inv_init capacity hpos hlt⟩
  · rintro s a s' ⟨hcap, l, hinv⟩ hfew hs
    exact ⟨(step_capacity hs).trans hcap, hinv.step hfew hs⟩

/-- `None` is returned by `add` in the step that read `SENTINEL` from `free_head`. -/
theorem add_none_head {s s' : State Tid} {a : Act Tid} (hs : step s a = some s')
    (hnone : s'.pc a.thread = .returned (.add none)) :
    MpmcContainer.extractHead s.container.freeHead = SENTINEL := by
  have halloc : ∀ t value, (s.allocLoad t value).pc t = .returned (.add none) →
      MpmcContainer.extractHead s.container.freeHead = SENTINEL := by
    intro t value ht
    unfold State.allocLoad at ht
    split at ht
    next hsen => exact hsen
    next => simp [State.goto] at ht
  have hset : ∀ t value slot, (s.setLoad t value slot).pc t ≠ .returned (.add none) := by
    intro t value slot ht
    unfold State.setLoad at ht
    split at ht
    next => simp [State.goto] at ht
    next =>
      split at ht
      next => simp [State.goto] at ht
      next => simp [State.goto] at ht
  have hclear : ∀ t slot, (s.clearLoad t slot).pc t ≠ .returned (.add none) := by
    intro t slot ht
    unfold State.clearLoad at ht
    split at ht
    next => simp [State.goto] at ht
    next =>
      split at ht
      next => simp [State.goto] at ht
      next => simp [State.goto] at ht
  cases step_cases hs with
  | add t value _ => exact halloc t value hnone
  | remove t slot _ _ => exact absurd hnone (hclear t slot)
  | allocRetry t spurious value old ver n _ => exact halloc t value hnone
  | setCalled t spurious value slot _ => exact absurd hnone (hset t value slot)
  | setRetry t spurious value slot old _ => exact absurd hnone (hset t value slot)
  | clearRetry t spurious slot old _ => exact absurd hnone (hclear t slot)
  | _ => simp [Act.thread, State.goto, State.write, State.exchange] at hnone

omit [DecidableEq Tid] in
/-- The log of every slot is paired up, the latest `add` perhaps excepted. -/
theorem SlotOk.log {s : State Tid} {i : U32} (h : SlotOk s i) :
    Paired (s.log i) ∨ ∃ value, Open value (s.log i) := by
  by_cases hu : InUse s i
  · obtain ⟨value, hopen, _⟩ := h.present hu
    exact .inr ⟨value, hopen⟩
  · exact .inl (h.paired hu)

/-- **No slot and no value is lost or duplicated.**  In every state reached by
any interleaving of the atomic accesses within the tag's range: the free list
is finite and duplicate-free; the slots below the capacity, and no others, are
each in exactly one place (free list, taken by one `add`, occupied, cleared by
one `remove`); on every slot each `add`, except perhaps the latest, is followed
by one `remove`, which returned the value added, and there are no other
removes; an occupied slot holds the value of its latest `add`; no slice access
has panicked; and a step in which `add` returns `None` reads an empty list. -/
theorem slots_never_lost (capacity : Nat) (hpos : 0 < capacity) (hlt : capacity < 2 ^ 32)
    (s : State Tid)
    (h : Reach step fewUpdates (init (MpmcContainer.new capacity hpos hlt)) s) :
    ∃ l : List U32, s.stack.Holds SENTINEL l ∧ l.Nodup
      ∧ (∀ i p, At s l i p → i.toNat < capacity)
      ∧ (∀ i : U32, i.toNat < capacity → ∃! p : Place Tid, At s l i p)
      ∧ (∀ i, Paired (s.log i) ∨ ∃ value, Open value (s.log i))
      ∧ (∀ i, s.container.Occupied i →
          ∃ value, Open value (s.log i) ∧ s.container.dataAt i = some value)
      ∧ (∀ t, s.pc t ≠ .panicked)
      ∧ (∀ a s', step s a = some s' → s'.pc a.thread = .returned (.add none) → l = []) := by
  obtain ⟨hcap, l, hinv⟩ := reach_inv h
  have hpart := hinv.partition
  rw [hcap] at hpart
  refine ⟨l, hinv.stack, hinv.stack.linked.nodup, hpart.inDom, ?_, ?_, ?_, ?_, ?_⟩
  · intro i hi
    exact hpart.existsUnique hi
  · intro i
    exact (hinv.slots i).log
  · intro i hset
    exact (hinv.slots i).present (.inl hset)
  · intro t hp
    have hok := hinv.threads t
    rw [hp] at hok
    exact hok
  · intro a s' hs hnone
    have hlinked := hinv.stack.linked
    have hhead : s.stack.head = SENTINEL := add_none_head hs hnone
    rw [hhead] at hlinked
    exact hlinked.eq_nil

/-- `true` adds a value, with a spurious failure on the way; then both threads
remove it at once. -/
def removeRaceRun : List (Act Bool) :=
  [.add true 7#64, .access true false, .access true false, .access true false,
   .access true false, .access true true, .access true false,
   .remove true 0#32, .remove false 0#32, .access false false, .access true false,
   .access false false, .access false false, .access false false, .access false false]

/-- One of the two gets the value. -/
theorem slots_never_lost_race :
    ∃ s : State Bool,
      Reach step fewUpdates (init (MpmcContainer.new 2 (by decide) (by decide))) s
        ∧ (s.log 0#32, s.pc true, s.pc false)
          = ([.removed 7#64, .added 7#64], .returned (.remove none),
              .returned (.remove (some 7#64)))
        ∧ ∃ l : List U32, s.stack.Holds SENTINEL l ∧ l.Nodup
          ∧ (∀ i p, At s l i p → i.toNat < 2)
          ∧ (∀ i : U32, i.toNat < 2 → ∃! p : Place Bool, At s l i p)
          ∧ (∀ i, Paired (s.log i) ∨ ∃ value, Open value (s.log i))
          ∧ (∀ i, s.container.Occupied i →
              ∃ value, Open value (s.log i) ∧ s.container.dataAt i = some value)
          ∧ (∀ t, s.pc t ≠ .panicked)
          ∧ (∀ a s', step s a = some s' → s'.pc a.thread = .returned (.add none) → l = []) := by
  have hrun : (execOk step fewUpdates
      (init (MpmcContainer.new 2 (by decide) (by decide)) : State Bool) removeRaceRun).map
        (fun s => (s.log 0#32, s.pc true, s.pc false))
        = some ([.removed 7#64, .added 7#64], .returned (.remove none),
            .returned (.remove (some 7#64))) := by
    decide
  obtain ⟨s, hs, hends⟩ := Option.map_eq_some_iff.mp hrun
  have hreach := Reach.of_execOk removeRaceRun .refl hs
  exact ⟨s, hreach, hends, slots_never_lost 2 (by decide) (by decide) s hreach⟩

end Entangle.Lockfree.MpmcSteps
