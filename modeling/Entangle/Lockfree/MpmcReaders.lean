/-
  Entangle.Lockfree.MpmcReaders — `get` and `for_each` of `MpmcContainer`, any
  number of them interleaved with `add` and `remove`.

  Both test the occupied bit of a slot and then load its data word, each access
  one step; the steps of `add` and `remove` are those of `MpmcSteps`.  A call of
  `get` or `for_each` is made by a reader of its own, so that the closure given
  to `for_each` may use the container too.

  Between a reader's two accesses the slot may be removed and be taken by
  another `add`, which stores its value before it sets the bit.  A load in
  between returns a value that is not present (`get_returns_absent`); with no
  such load, what a reader returns was present during its call.

  Main results:
    * `step_data`, `step_unmarked` — what a step of a writer does to a slot;
    * `present_or_unmarked` — the word about to be loaded;
    * `reads_present` — every value handed out was present during the call.
-/
import Entangle.Lockfree.MpmcSteps

namespace Entangle.Lockfree.MpmcReaders

open Entangle.Lib

/-! ## §1. Readers and steps. -/

/-- Where a reader stands. -/
inductive ReadPc where
  -- no call made yet
  | idle
  -- `get` has returned
  | got (value : Option U64)
  -- `for_each` has returned, with the calls of `f` it has made
  | iterated (calls : List (U32 × U64))
  -- get: bit found set, the data word to be loaded
  | getSet (slot : U32)
  -- for_each: the word of the bit of `i` to be loaded
  | each (i : Nat) (calls : List (U32 × U64))
  -- for_each: bit of `i` found set, the data word to be loaded
  | eachSet (i : Nat) (calls : List (U32 × U64))
  -- a slice access was out of bounds
  | panicked
  deriving Repr, DecidableEq

/-- A new call may start. -/
def ReadPc.resting : ReadPc → Bool
  | .idle | .got _ | .iterated _ => true
  | _ => false

/-- In the middle of a call. -/
def ReadPc.running : ReadPc → Bool
  | .getSet _ | .each _ _ | .eachSet _ _ => true
  | _ => false

/-- The slot whose data word is to be loaded. -/
def ReadPc.loads : ReadPc → Option U32
  | .getSet slot => some slot
  | .eachSet i _ => some (BitVec.ofNat 32 i)
  | _ => none

/-- The calls of `f` that a `for_each` has made. -/
def ReadPc.calls : ReadPc → List (U32 × U64)
  | .each _ calls | .eachSet _ calls | .iterated calls => calls
  | _ => []

/-- `get`, up to the test of the bit. -/
def testGet (c : MpmcContainer) (slot : U32) : ReadPc :=
  match c.occupied.isSet slot with
  | none => .panicked
  | some true => .getSet slot
  | some false => .got none

/-- The head of the loop of `for_each`. -/
def eachHead (c : MpmcContainer) (i : Nat) (calls : List (U32 × U64)) : ReadPc :=
  if i < c.capacity then .each i calls else .iterated calls

/-- The test of the bit of `i` in `for_each`. -/
def testEach (c : MpmcContainer) (i : Nat) (calls : List (U32 × U64)) : ReadPc :=
  match c.occupied.isSet (BitVec.ofNat 32 i) with
  | none => .panicked
  | some true => .eachSet i calls
  | some false => eachHead c (i + 1) calls

/-- The next atomic access of a reader. -/
def ReadPc.access (c : MpmcContainer) : ReadPc → Option ReadPc
  | .getSet slot =>
      match c.dataAt slot with
      | some value => some (.got (some value))
      | none => some .panicked
  | .each i calls => some (testEach c i calls)
  | .eachSet i calls =>
      match c.dataAt (BitVec.ofNat 32 i) with
      | some value => some (eachHead c (i + 1) (calls ++ [(BitVec.ofNat 32 i, value)]))
      | none => some .panicked
  | .idle | .got _ | .iterated _ | .panicked => none

/-- The container with the threads that add and remove, and the readers, which only
load. -/
structure State (Tid Rid : Type) where
  writers : MpmcSteps.State Tid
  reader : Rid → ReadPc

inductive Act (Tid Rid : Type) where
  | write (a : MpmcSteps.Act Tid)
  | get (r : Rid) (slot : U32)
  | forEach (r : Rid)
  | access (r : Rid)
  deriving Repr, DecidableEq

/-- The step starts a call of reader `r`. -/
def Act.calls {Tid Rid : Type} (r : Rid) : Act Tid Rid → Prop
  | .get r' _ | .forEach r' => r' = r
  | _ => False

variable {Tid Rid : Type} [DecidableEq Tid] [DecidableEq Rid]

/-- The container that all share. -/
def State.container (s : State Tid Rid) : MpmcContainer := s.writers.container

/-- Reader `r` gets to `pc`. -/
def State.setReader (s : State Tid Rid) (r : Rid) (pc : ReadPc) : State Tid Rid :=
  { s with reader := Function.update s.reader r pc }

/-- One step.  A call starts with the load of the word of its first bit; the
capacity is not zero, so `for_each` has one. -/
def step (s : State Tid Rid) : Act Tid Rid → Option (State Tid Rid)
  | .write a => (MpmcSteps.step s.writers a).map (fun writers => { s with writers := writers })
  | .get r slot =>
      if (s.reader r).resting then some (s.setReader r (testGet s.container slot)) else none
  | .forEach r =>
      if (s.reader r).resting then some (s.setReader r (testEach s.container 0 [])) else none
  | .access r => ((s.reader r).access s.container).map (s.setReader r)

/-- A new container, nobody in a call. -/
def init (container : MpmcContainer) : State Tid Rid :=
  { writers := MpmcSteps.init container, reader := fun _ => .idle }

/-- The slot whose data word an `add` has stored and whose bit it has not yet set. -/
def unmarked : MpmcSteps.Pc → Option U32
  | .stored _ slot | .setRead _ slot _ => some slot
  | _ => none

/-- A reader that loads the data word of a slot does so while no `add` is
between its store to the slot and its set of the bit. -/
def notUnmarked (s : State Tid Rid) : Act Tid Rid → Prop
  | .access r => ∀ slot, (s.reader r).loads = some slot → ∀ t, unmarked (s.writers.pc t) ≠ some slot
  | _ => True

/-- The step of a reader makes `get(slot)` return `Some(v)`, or `for_each` call
`f(slot, v)`. -/
inductive Delivers (slot : U32) (v : U64) : ReadPc → ReadPc → Prop
  | get : Delivers slot v (.getSet slot) (.got (some v))
  | each (i : Nat) (calls : List (U32 × U64)) (pc' : ReadPc) :
      slot = BitVec.ofNat 32 i → pc'.calls = calls ++ [(slot, v)] →
      Delivers slot v (.eachSet i calls) pc'

/-! ## §2. What the steps of writers do to a slot. -/

section Writers

variable {s s' : MpmcSteps.State Tid} {a : MpmcSteps.Act Tid}

theorem allocLoad_pc_ne {t t' : Tid} (ht : t' ≠ t) (value : U64) :
    (s.allocLoad t value).pc t' = s.pc t' := by
  unfold MpmcSteps.State.allocLoad
  split
  next => exact Function.update_of_ne ht _ _
  next => exact Function.update_of_ne ht _ _

theorem setLoad_pc_ne {t t' : Tid} (ht : t' ≠ t) (value : U64) (slot : U32) :
    (s.setLoad t value slot).pc t' = s.pc t' := by
  unfold MpmcSteps.State.setLoad
  split
  next => exact Function.update_of_ne ht _ _
  next =>
    split
    next => exact Function.update_of_ne ht _ _
    next => exact Function.update_of_ne ht _ _

theorem clearLoad_pc_ne {t t' : Tid} (ht : t' ≠ t) (slot : U32) :
    (s.clearLoad t slot).pc t' = s.pc t' := by
  unfold MpmcSteps.State.clearLoad
  split
  next => exact Function.update_of_ne ht _ _
  next =>
    split
    next => exact Function.update_of_ne ht _ _
    next => exact Function.update_of_ne ht _ _

/-- A step moves one thread. -/
theorem step_pc_ne (hs : MpmcSteps.step s a = some s') {t : Tid} (ht : t ≠ a.thread) :
    s'.pc t = s.pc t := by
  cases MpmcSteps.step_cases hs with
  | add t' value _ => exact allocLoad_pc_ne ht value
  | remove t' slot _ _ => exact clearLoad_pc_ne ht slot
  | allocRetry t' spurious value old ver n _ => exact allocLoad_pc_ne ht value
  | setCalled t' spurious value slot _ => exact setLoad_pc_ne ht value slot
  | setRetry t' spurious value slot old _ => exact setLoad_pc_ne ht value slot
  | clearRetry t' spurious slot old _ => exact clearLoad_pc_ne ht slot
  | _ => exact Function.update_of_ne ht _ _

/-- A data word is written by the store of `add`, which has the bit still to set. -/
theorem step_data (hs : MpmcSteps.step s a = some s') (slot : U32) :
    s'.container.dataAt slot = s.container.dataAt slot
      ∨ unmarked (s'.pc a.thread) = some slot := by
  cases MpmcSteps.step_cases hs with
  | add t value _ => exact .inl (by rw [s.allocLoad_container])
  | remove t i _ _ => exact .inl (by rw [s.clearLoad_container])
  | allocRetry t spurious value old ver n _ => exact .inl (by rw [s.allocLoad_container])
  | setCalled t spurious value i _ => exact .inl (by rw [s.setLoad_container])
  | setRetry t spurious value i old _ => exact .inl (by rw [s.setLoad_container])
  | clearRetry t spurious i old _ => exact .inl (by rw [s.clearLoad_container])
  | dataStore t spurious value i _ =>
      by_cases hi : slot = i
      · right
        show unmarked (Function.update s.pc t (.stored value i) t) = some slot
        rw [Function.update_self, hi]
        rfl
      · exact .inl (s.container.dataAt_setData_ne value hi)
  | _ => exact .inl rfl

/-- What `set` does with the word it has just read: the bit is set already, or
it goes on to set it. -/
theorem setLoad_unmarked {slot : U32} {word : U64}
    (hload : s.container.occupied.load slot = some word) (t : Tid) (value : U64) :
    unmarked ((s.setLoad t value slot).pc t) = some slot
      ∨ (s.setLoad t value slot).container.Occupied slot := by
  rw [s.setLoad_container]
  unfold MpmcSteps.State.setLoad
  rw [hload]
  dsimp only
  by_cases hbit : word &&& AtomicBitSet.bit slot ≠ 0
  · right
    show Option.map _ (s.container.occupied.load slot) = some true
    rw [hload, Option.map_some, Option.some.injEq]
    exact bne_iff_ne.mpr hbit
  · left
    rw [if_neg hbit]
    show unmarked (Function.update s.pc t (.setRead value slot word) t) = some slot
    rw [Function.update_self]
    rfl

omit [DecidableEq Tid] in
/-- Until then the bit is clear. -/
theorem not_occupied_of_unmarked {l : List U32} (hinv : MpmcSteps.Inv s l) {t : Tid} {slot : U32}
    (ht : unmarked (s.pc t) = some slot) : ¬ s.container.Occupied slot := by
  have hadding : (s.pc t).adding = some slot := by
    cases hpc : s.pc t with
    | stored value i =>
        rw [hpc] at ht
        exact ht
    | setRead value i old =>
        rw [hpc] at ht
        exact ht
    | _ => exact absurd ht (by simp [hpc, unmarked])
  exact hinv.partition.not_at (p := .adding t) (q := .occupied) hadding (by simp)

/-- An `add` that has stored the data word sets the bit before anything else. -/
theorem step_unmarked (hs : MpmcSteps.step s a = some s') {slot : U32} {word : U64}
    (hload : s.container.occupied.load slot = some word) {t : Tid}
    (h : unmarked (s.pc t) = some slot) :
    unmarked (s'.pc t) = some slot ∨ s'.container.Occupied slot := by
  by_cases ht : t = a.thread
  · subst ht
    cases MpmcSteps.step_cases hs with
    | setCalled t spurious value i hpc =>
        simp only [MpmcSteps.Act.thread, hpc, unmarked, Option.some.injEq] at h
        subst h
        exact setLoad_unmarked hload t value
    | setRetry t spurious value i old hpc =>
        simp only [MpmcSteps.Act.thread, hpc, unmarked, Option.some.injEq] at h
        subst h
        exact setLoad_unmarked hload t value
    | setExchange t value i old hpc hold =>
        simp only [MpmcSteps.Act.thread, hpc, unmarked, Option.some.injEq] at h
        subst h
        exact .inr ((s.container.occupied.isSet_store_or i hold).mpr (.inl rfl))
    | add t value hrest =>
        rw [MpmcSteps.Act.thread] at h
        cases hpc : s.pc t <;> simp [hpc, unmarked, MpmcSteps.Pc.resting] at h hrest
    | remove t i hrest _ =>
        rw [MpmcSteps.Act.thread] at h
        cases hpc : s.pc t <;> simp [hpc, unmarked, MpmcSteps.Pc.resting] at h hrest
    | _ => simp_all [MpmcSteps.Act.thread, unmarked]
  · left
    rw [step_pc_ne hs ht]
    exact h

end Writers

/-! ## §3. What a step does to a reader, and to its slot. -/

section Readers

variable {c : MpmcContainer} {slot : U32} {v : U64}

/-- A reader is about to load the data word of a slot only if it has found its bit set. -/
theorem testGet_loads {i : U32} (h : (testGet c i).loads = some slot) : c.Occupied slot := by
  unfold testGet at h
  split at h
  next => exact absurd h (by simp [ReadPc.loads])
  next hset =>
    obtain rfl : i = slot := Option.some.inj h
    exact hset
  next => exact absurd h (by simp [ReadPc.loads])

theorem eachHead_loads (i : Nat) (calls : List (U32 × U64)) :
    (eachHead c i calls).loads = none := by
  unfold eachHead
  split
  next => rfl
  next => rfl

theorem testEach_loads {i : Nat} {calls : List (U32 × U64)}
    (h : (testEach c i calls).loads = some slot) : c.Occupied slot := by
  unfold testEach at h
  split at h
  next => exact absurd h (by simp [ReadPc.loads])
  next hset =>
    obtain rfl : BitVec.ofNat 32 i = slot := Option.some.inj h
    exact hset
  next => exact absurd h (by simp [eachHead_loads])

theorem access_loads {pc pc' : ReadPc} (hs : pc.access c = some pc')
    (h : pc'.loads = some slot) : c.Occupied slot := by
  cases pc with
  | getSet i =>
      simp only [ReadPc.access] at hs
      split at hs
      next => exact absurd h (by simp [← Option.some.inj hs, ReadPc.loads])
      next => exact absurd h (by simp [← Option.some.inj hs, ReadPc.loads])
  | each i calls =>
      rw [← Option.some.inj hs] at h
      exact testEach_loads h
  | eachSet i calls =>
      simp only [ReadPc.access] at hs
      split at hs
      next => exact absurd h (by simp [← Option.some.inj hs, eachHead_loads])
      next => exact absurd h (by simp [← Option.some.inj hs, ReadPc.loads])
  | _ => exact absurd hs (by simp [ReadPc.access])

/-- A step that hands out a value changes where the reader stands. -/
theorem Delivers.irrefl (pc : ReadPc) : ¬ Delivers slot v pc pc := by
  intro h
  cases h with
  | each i calls _ _ hcalls => exact absurd hcalls (by simp [ReadPc.calls])

theorem Delivers.loads {pc pc' : ReadPc} (h : Delivers slot v pc pc') : pc.loads = some slot := by
  cases h with
  | get => rfl
  | each i calls _ hi _ => rw [hi, ReadPc.loads]

theorem ReadPc.running_of_loads {pc : ReadPc} (h : pc.loads = some slot) : pc.running = true := by
  cases pc with
  | getSet i => rfl
  | eachSet i calls => rfl
  | _ => exact absurd h (by simp [ReadPc.loads])

theorem ReadPc.running_of_access {pc pc' : ReadPc} (hs : pc.access c = some pc') :
    pc.running = true := by
  cases pc with
  | getSet i => rfl
  | each i calls => rfl
  | eachSet i calls => rfl
  | _ => exact absurd hs (by simp [ReadPc.access])

theorem ReadPc.not_resting {pc : ReadPc} (h : pc.running = true) : pc.resting = false := by
  cases pc with
  | getSet i => rfl
  | each i calls => rfl
  | eachSet i calls => rfl
  | _ => exact absurd h (by simp [ReadPc.running])

/-- The value handed out is the one that has just been loaded. -/
theorem access_delivers {pc pc' : ReadPc} (hs : pc.access c = some pc')
    (h : Delivers slot v pc pc') : c.dataAt slot = some v := by
  cases h with
  | get =>
      simp only [ReadPc.access] at hs
      split at hs
      next value hvalue =>
        obtain rfl : value = v := by simpa using hs
        exact hvalue
      next => exact absurd hs (by simp)
  | each i calls _ hi hcalls =>
      subst hi
      simp only [ReadPc.access] at hs
      split at hs
      next value hvalue =>
        have hlast : pc'.calls = calls ++ [(BitVec.ofNat 32 i, value)] := by
          rw [← Option.some.inj hs, eachHead]
          split
          next => rfl
          next => rfl
        obtain rfl : value = v := by simpa [hlast] using hcalls
        exact hvalue
      next => exact absurd hcalls (by simp [← Option.some.inj hs, ReadPc.calls])

end Readers

section Steps

variable {s s' : State Tid Rid} {a : Act Tid Rid} {r : Rid} {slot : U32} {v : U64}

/-- Everything a step can do: it is one of a writer, the beginning of a call, or
the next access of a reader. -/
inductive Moves (s : State Tid Rid) : Act Tid Rid → State Tid Rid → Prop
  | write (a : MpmcSteps.Act Tid) (writers : MpmcSteps.State Tid) :
      MpmcSteps.step s.writers a = some writers →
      Moves s (.write a) { s with writers := writers }
  | get (r : Rid) (slot : U32) : (s.reader r).resting = true →
      Moves s (.get r slot) (s.setReader r (testGet s.container slot))
  | forEach (r : Rid) : (s.reader r).resting = true →
      Moves s (.forEach r) (s.setReader r (testEach s.container 0 []))
  | access (r : Rid) (pc' : ReadPc) : (s.reader r).access s.container = some pc' →
      Moves s (.access r) (s.setReader r pc')

theorem step_cases (hs : step s a = some s') : Moves s a s' := by
  cases a with
  | write a =>
      obtain ⟨writers, hw, rfl⟩ := Option.map_eq_some_iff.mp hs
      exact .write a writers hw
  | get r slot =>
      simp only [step] at hs
      split at hs
      next hrest =>
        obtain rfl := Option.some.inj hs
        exact .get r slot hrest
      next => exact absurd hs (by simp)
  | forEach r =>
      simp only [step] at hs
      split at hs
      next hrest =>
        obtain rfl := Option.some.inj hs
        exact .forEach r hrest
      next => exact absurd hs (by simp)
  | access r =>
      obtain ⟨pc', hpc, rfl⟩ := Option.map_eq_some_iff.mp hs
      exact .access r pc' hpc

omit [DecidableEq Tid] in
theorem setReader_self (s : State Tid Rid) (r : Rid) (pc : ReadPc) :
    (s.setReader r pc).reader r = pc :=
  Function.update_self _ _ _

omit [DecidableEq Tid] in
theorem setReader_ne (s : State Tid Rid) {r r' : Rid} (hr : r ≠ r') (pc : ReadPc) :
    (s.setReader r' pc).reader r = s.reader r :=
  Function.update_of_ne hr _ _

/-- What a step does to reader `r`: it stays where it is, it is called, or it makes its next
access. -/
theorem reader_cases (hs : step s a = some s') (r : Rid) :
    s'.reader r = s.reader r
      ∨ (s'.container = s.container ∧ a.calls r ∧ (s.reader r).resting = true
          ∧ ((∃ i, s'.reader r = testGet s.container i)
              ∨ s'.reader r = testEach s.container 0 []))
      ∨ (s'.container = s.container ∧ a = .access r
          ∧ (s.reader r).access s.container = some (s'.reader r)) := by
  cases step_cases hs with
  | write a writers _ => exact .inl rfl
  | get r' i hrest =>
      by_cases hr : r = r'
      · subst hr
        exact .inr (.inl ⟨rfl, rfl, hrest, .inl ⟨i, setReader_self s r _⟩⟩)
      · exact .inl (setReader_ne s hr _)
  | forEach r' hrest =>
      by_cases hr : r = r'
      · subst hr
        exact .inr (.inl ⟨rfl, rfl, hrest, .inr (setReader_self s r _)⟩)
      · exact .inl (setReader_ne s hr _)
  | access r' pc' hpc =>
      by_cases hr : r = r'
      · subst hr
        refine .inr (.inr ⟨rfl, rfl, ?_⟩)
        rw [setReader_self]
        exact hpc
      · exact .inl (setReader_ne s hr _)

/-- A reader about to load a data word was there before, or has just found the bit set. -/
theorem step_loads (hs : step s a = some s') (h : (s'.reader r).loads = some slot) :
    s'.reader r = s.reader r ∨ s'.container.Occupied slot := by
  rcases reader_cases hs r with hsame | ⟨hc, _, _, ⟨i, hget⟩ | heach⟩ | ⟨hc, _, haccess⟩
  · exact .inl hsame
  · rw [hget] at h
    rw [hc]
    exact .inr (testGet_loads h)
  · rw [heach] at h
    rw [hc]
    exact .inr (testEach_loads h)
  · rw [hc]
    exact .inr (access_loads haccess h)

/-- **The data word of a slot** after a step: some `add` has stored it and not
yet set the bit, or the bit is set, or the word was there before and no `add`
was at it. -/
theorem step_slot (hs : step s a = some s') (hv : s'.container.dataAt slot = some v) :
    (∃ t, unmarked (s'.writers.pc t) = some slot) ∨ s'.container.Occupied slot
      ∨ (s.container.dataAt slot = some v ∧ ∀ t, unmarked (s.writers.pc t) ≠ some slot) := by
  by_cases hat : ∃ t, unmarked (s.writers.pc t) = some slot
  · obtain ⟨t, ht⟩ := hat
    cases step_cases hs with
    | write a writers hw =>
        have hcap : writers.container.capacity = s.container.capacity := MpmcSteps.step_capacity hw
        have hlt : slot.toNat < writers.container.capacity :=
          (Vector.getElem?_eq_some_iff.mp hv).1
        rw [hcap] at hlt
        obtain ⟨word, hload⟩ := s.container.load_isSome hlt
        rcases step_unmarked hw hload ht with hstill | hset
        · exact .inl ⟨t, hstill⟩
        · exact .inr (.inl hset)
    | get r i _ => exact .inl ⟨t, ht⟩
    | forEach r _ => exact .inl ⟨t, ht⟩
    | access r pc' _ => exact .inl ⟨t, ht⟩
  · have hno : ∀ t, unmarked (s.writers.pc t) ≠ some slot := fun t ht => hat ⟨t, ht⟩
    cases step_cases hs with
    | write a writers hw =>
        rcases step_data hw slot with hsame | hstored
        · exact .inr (.inr ⟨hsame.symm.trans hv, hno⟩)
        · exact .inl ⟨a.thread, hstored⟩
    | get r i _ => exact .inr (.inr ⟨hv, hno⟩)
    | forEach r _ => exact .inr (.inr ⟨hv, hno⟩)
    | access r pc' _ => exact .inr (.inr ⟨hv, hno⟩)

/-- A value is handed out by the reader's own access, which has loaded it. -/
theorem step_delivers (hs : step s a = some s') (h : Delivers slot v (s.reader r) (s'.reader r)) :
    a = .access r ∧ s.container.dataAt slot = some v := by
  rcases reader_cases hs r with hsame | ⟨_, _, hrest, _⟩ | ⟨_, ha, haccess⟩
  · rw [hsame] at h
    exact absurd h (Delivers.irrefl _)
  · rw [ReadPc.not_resting (ReadPc.running_of_loads h.loads)] at hrest
    exact absurd hrest (by simp)
  · exact ⟨ha, access_delivers haccess h⟩

/-- A reader in the middle of a call was so before, or has just been called. -/
theorem step_running (hs : step s a = some s') (h : (s'.reader r).running = true) :
    (s.reader r).running = true ∨ a.calls r := by
  rcases reader_cases hs r with hsame | ⟨_, hcalls, _, _⟩ | ⟨_, _, haccess⟩
  · rw [hsame] at h
    exact .inl h
  · exact .inr hcalls
  · exact .inl (ReadPc.running_of_access haccess)

/-- Only a reader that is not in a call is called. -/
theorem step_calls (hs : step s a = some s') (h : a.calls r) : (s.reader r).resting = true := by
  cases step_cases hs with
  | write a writers _ => exact absurd h id
  | get r' i hrest =>
      obtain rfl : r' = r := h
      exact hrest
  | forEach r' hrest =>
      obtain rfl : r' = r := h
      exact hrest
  | access r' pc' _ => exact absurd h id

end Steps

/-! ## §4. Whole runs. -/

section Runs

variable {c : MpmcContainer} {e : Execution step (init c : State Tid Rid)} {r : Rid} {slot : U32}
  {v : U64} {k : Nat}

/-- At the instant `k` reader `r` is in a call that started with its first
access at the instant `start`. -/
structure InCall (e : Execution step (init c : State Tid Rid)) (r : Rid) (start k : Nat) :
    Prop where
  called : ∃ a, e.act start = some a ∧ a.calls r
  lt : start < k
  running : ∀ i, start < i → i ≤ k → ((e.state i).reader r).running = true

theorem exists_inCall (h : ((e.state k).reader r).running = true) :
    ∃ start, InCall e r start k := by
  induction k with
  | zero =>
      rw [e.start] at h
      exact absurd h (by simp [init, ReadPc.running])
  | succ k ih =>
      have hextend : ((e.state k).reader r).running = true → ∃ start, InCall e r start (k + 1) := by
        intro hbefore
        obtain ⟨start, hcall⟩ := ih hbefore
        refine ⟨start, hcall.called, Nat.lt_succ_of_lt hcall.lt, fun i hlow hhigh => ?_⟩
        rcases Nat.le_succ_iff.mp hhigh with hle | rfl
        · exact hcall.running i hlow hle
        · exact h
      cases hact : e.act k with
      | none =>
          rw [e.idle k hact] at h
          exact hextend h
      | some a =>
          rcases step_running (e.move k a hact) h with hbefore | hcalls
          · exact hextend hbefore
          · refine ⟨k, ⟨a, hact, hcalls⟩, Nat.lt_succ_self k, fun i hlow hhigh => ?_⟩
            obtain rfl : i = k + 1 := by omega
            exact h

/-- From some instant on reader `r` has stood where it stands at the instant
`k`, and at that instant the bit of the slot was set and its data word was `v`. -/
def Present (e : Execution step (init c : State Tid Rid)) (r : Rid) (slot : U32) (v : U64)
    (k : Nat) : Prop :=
  ∃ i, i ≤ k ∧ (∀ j, i ≤ j → j ≤ k → (e.state j).reader r = (e.state k).reader r)
    ∧ (e.state i).container.Occupied slot ∧ (e.state i).container.dataAt slot = some v

theorem Present.succ (h : Present e r slot v k)
    (hsame : (e.state (k + 1)).reader r = (e.state k).reader r) : Present e r slot v (k + 1) := by
  obtain ⟨i, hi, hstood, hpresent⟩ := h
  refine ⟨i, Nat.le_succ_of_le hi, fun j hlow hhigh => ?_, hpresent⟩
  rcases Nat.le_succ_iff.mp hhigh with hle | rfl
  · rw [hsame]
    exact hstood j hlow hle
  · rfl

theorem Present.now (hset : (e.state k).container.Occupied slot)
    (hv : (e.state k).container.dataAt slot = some v) : Present e r slot v k := by
  refine ⟨k, Nat.le_refl k, fun j hlow hhigh => ?_, hset, hv⟩
  rw [Nat.le_antisymm hhigh hlow]

/-- **The word about to be loaded** was present since the test of the bit, or
some `add` has stored it and not yet set the bit. -/
theorem present_or_unmarked (hl : ((e.state k).reader r).loads = some slot)
    (hv : (e.state k).container.dataAt slot = some v) :
    (∃ t, unmarked ((e.state k).writers.pc t) = some slot) ∨ Present e r slot v k := by
  induction k with
  | zero =>
      rw [e.start] at hl
      exact absurd hl (by simp [init, ReadPc.loads])
  | succ k ih =>
      cases hact : e.act k with
      | none =>
          have hidle := e.idle k hact
          rw [hidle] at hl hv
          rcases ih hl hv with hat | hpresent
          · rw [hidle]
            exact .inl hat
          · exact .inr (hpresent.succ (by rw [hidle]))
      | some a =>
          have hs := e.move k a hact
          rcases step_loads hs hl with hsame | hset
          · rcases step_slot hs hv with hat | hset | ⟨hbefore, hno⟩
            · exact .inl hat
            · exact .inr (.now hset hv)
            · rw [hsame] at hl
              rcases ih hl hbefore with ⟨t, ht⟩ | hpresent
              · exact absurd ht (hno t)
              · exact .inr (hpresent.succ hsame)
          · exact .inr (.now hset hv)

end Runs

/-- **What a reader returns was present during its call.**  In every run in
which no reader loads the data word of a slot while an `add` is between its
store to the slot and its set of the bit: if at the instant `k` a `get(slot)`
returns `Some(v)` or a `for_each` calls `f(slot, v)`, then at an instant of that
call the bit of `slot` was set and its data word was `v`. -/
theorem reads_present (capacity : Nat) (hpos : 0 < capacity) (hlt : capacity < 2 ^ 32)
    (e : Execution step (init (MpmcContainer.new capacity hpos hlt) : State Tid Rid))
    (hok : ∀ i a, e.act i = some a → notUnmarked (e.state i) a) (r : Rid) (slot : U32) (v : U64)
    (k : Nat) (h : Delivers slot v ((e.state k).reader r) ((e.state (k + 1)).reader r)) :
    ∃ start, InCall e r start k ∧ ∃ i, start < i ∧ i ≤ k
      ∧ (e.state i).container.Occupied slot ∧ (e.state i).container.dataAt slot = some v := by
  have hrunning := ReadPc.running_of_loads h.loads
  obtain ⟨start, hcall⟩ := exists_inCall hrunning
  refine ⟨start, hcall, ?_⟩
  cases hact : e.act k with
  | none =>
      rw [e.idle k hact] at h
      exact absurd h (Delivers.irrefl _)
  | some a =>
      obtain ⟨rfl, hv⟩ := step_delivers (e.move k a hact) h
      rcases present_or_unmarked h.loads hv with ⟨t, ht⟩ | ⟨i, hi, hstood, hset, hdata⟩
      · exact absurd ht (hok k _ hact slot h.loads t)
      · refine ⟨i, ?_, hi, hset, hdata⟩
        -- at the start of its call the reader was not yet where it is now
        by_contra hearly
        obtain ⟨a, hcalled, hcalls⟩ := hcall.called
        have hsame := hstood start (Nat.not_lt.mp hearly) (Nat.le_of_lt hcall.lt)
        have hrest := step_calls (e.move start a hcalled) hcalls
        rw [hsame, ReadPc.not_resting hrunning] at hrest
        exact absurd hrest (by simp)

/-! ## §5. Two runs. -/

/-- `get` finds the bit set, a second value is added, `get` loads its word. -/
def undisturbedRun : List (Act Unit Unit) :=
  [.write (.add () 7#64), .write (.access () false), .write (.access () false),
   .write (.access () false), .write (.access () false), .write (.access () false),
   .get () 0#32,
   .write (.add () 8#64), .write (.access () false), .write (.access () false),
   .write (.access () false), .access ()]

theorem undisturbedRun_goes :
    (exec step (init (MpmcContainer.new 2 (by decide) (by decide)) : State Unit Unit)
      undisturbedRun).isSome = true := by
  decide

def undisturbed :
    Execution step (init (MpmcContainer.new 2 (by decide) (by decide)) : State Unit Unit) :=
  .ofExec step _ undisturbedRun undisturbedRun_goes

theorem undisturbed_ok (i : Nat) (a : Act Unit Unit) (ha : undisturbed.act i = some a) :
    notUnmarked (undisturbed.state i) a := by
  by_cases hi : i = 11
  · subst hi
    obtain rfl : .access () = a := Option.some.inj ha
    intro slot hslot t
    obtain rfl : 0#32 = slot := Option.some.inj hslot
    show unmarked ((undisturbed.state 11).writers.pc ()) ≠ some 0#32
    decide
  · -- no other step is a reader's access
    have hlt : i < 12 := (List.getElem?_eq_some_iff.mp ha).1
    have hall : ∀ j, j < 12 → j ≠ 11 → undisturbedRun[j]? ≠ some (.access ()) := by decide
    have hne : undisturbedRun[i]? ≠ some (.access ()) := hall i hlt hi
    cases a with
    | access r => exact absurd ha hne
    | write a => trivial
    | get r slot => trivial
    | forEach r => trivial

/-- The `get` of `undisturbed` returns 7. -/
theorem reads_present_undisturbed :
    ∃ start, InCall undisturbed () start 11 ∧ ∃ i, start < i ∧ i ≤ 11
      ∧ (undisturbed.state i).container.Occupied 0#32
      ∧ (undisturbed.state i).container.dataAt 0#32 = some 7#64 :=
  reads_present 2 (by decide) (by decide) undisturbed undisturbed_ok () 0#32 7#64 11 .get

/-- `get` finds the bit of 7 set; then 7 is removed and an `add` of 8 stores its
word in the same slot; `get` loads it. -/
def betweenRun : List (Act Unit Unit) :=
  [.write (.add () 7#64), .write (.access () false), .write (.access () false),
   .write (.access () false), .write (.access () false), .write (.access () false),
   .get () 0#32,
   .write (.remove () 0#32), .write (.access () false), .write (.access () false),
   .write (.access () false), .write (.access () false), .write (.access () false),
   .write (.add () 8#64), .write (.access () false), .write (.access () false),
   .write (.access () false), .access ()]

theorem betweenRun_goes :
    (exec step (init (MpmcContainer.new 1 (by decide) (by decide)) : State Unit Unit)
      betweenRun).isSome = true := by
  decide

def between :
    Execution step (init (MpmcContainer.new 1 (by decide) (by decide)) : State Unit Unit) :=
  .ofExec step _ betweenRun betweenRun_goes

/-- **`get` returns a value that is not there**: 8 is returned, and at no
instant up to then was the bit of the slot set and its data word 8. -/
theorem get_returns_absent :
    Delivers 0#32 8#64 ((between.state 17).reader ()) ((between.state 18).reader ())
      ∧ ∀ i, i < 19 → ¬ ((between.state i).container.Occupied 0#32
          ∧ (between.state i).container.dataAt 0#32 = some 8#64) := by
  refine ⟨.get, ?_⟩
  unfold MpmcContainer.Occupied
  decide

end Entangle.Lockfree.MpmcReaders
