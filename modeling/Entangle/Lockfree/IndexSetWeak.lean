/-
  Entangle.Lockfree.IndexSetWeak — `acquire` and `release` of `UniqueIndexSet`
  (entangle-lockfree/src/index_set.rs) with the orderings that the code gives to its
  accesses, on release/acquire memory.

  A load may be out of date here: a thread may see an old head, and an old `next` of
  a cell that has come and gone; a compare-exchange that fails loads some head that
  is not older than what the thread knows, one that succeeds finds the newest.  What an
  index stands for (a chunk, a slot) is used by plain accesses, by the thread that
  holds the index; an index may be passed on to another thread in any way that tells it
  what the first one knows.

  The newest words make up a set of `IndexSetSteps`, whose invariant they keep
  (`Inv.core`); what is added here is who knows of which accesses (`Knows`).

  Main results:
    * `Inv.step` — every access keeps the invariant;
    * `index_set_release_acquire` — every index is in one place, whoever has it knows
      of all that was done to what it stands for, and no two stores of a `next` race.
-/
import Entangle.Lib.WeakMemory
import Entangle.Lockfree.IndexSetSteps

namespace Entangle.Lockfree.IndexSetWeak

open Entangle.Lib Entangle.Lib.WeakMemory
open Entangle.Lockfree.IndexSetSteps (Pc ReadOk ThreadOk)

/-! ## §1. The words in memory, and the calls. -/

/-- The words of the set, and for each index all of what it stands for. -/
inductive Loc where
  | head
  | next (i : U32)
  | borrowed
  | item (i : U32)
  deriving Repr, DecidableEq

/-- An `AtomicU32` in a 64-bit location. -/
def word (v : U32) : U64 := v.setWidth 64

def unword (v : U64) : U32 := v.setWidth 32

/-- The words of the set as a release/acquire memory.  A thread that has read `head` holds
on to the number of the store it has seen, since a later store may have the same
value. -/
structure State (Tid : Type) where
  capacity : Nat
  mem : Memory Loc U64 Tid
  -- a read of `head` is remembered with its number
  pc : Tid → Pc
  -- who holds an index: `acquire` has returned it, and `release` was not called yet
  holder : U32 → Option Tid

/-- Who moves, and which store a load returns. -/
inductive Act (Tid : Type) where
  | acquire (t : Tid) (k : Nat)
  | release (t : Tid) (index : U32)
  -- the next access of a call; `fails`: a compare-exchange does, and is a load then
  | access (t : Tid) (k : Nat) (fails : Bool)
  -- a plain access to what an index stands for
  | use (t : Tid) (index : U32)
  -- the index goes to another thread
  | pass (t u : Tid) (index : U32)
  deriving Repr, DecidableEq

variable {Tid : Type} [DecidableEq Tid]

/-- Thread `t` gets to `pc`. -/
def State.goto (s : State Tid) (mem : Memory Loc U64 Tid) (t : Tid) (pc : Pc) : State Tid :=
  { s with mem := mem, pc := Function.update s.pc t pc }

/-- What `acquire` does with the head word it has loaded. -/
def State.acquireRead (s : State Tid) (mem : Memory Loc U64 Tid) (t : Tid) (old : U64)
    (ver : Nat) : State Tid :=
  if extractHead old = SENTINEL then s.goto mem t .acqFailed
  else s.goto mem t (.acqRead old ver)

def compareExchange (expected new : U64) (v : U64) : Option U64 :=
  if v = expected then some new else none

def fetchAdd (n : U32) (v : U64) : Option U64 := some (word (unword v + n))

/-- The next access of thread `t`. -/
def access (s : State Tid) (t : Tid) (k : Nat) (fails : Bool) : Option (State Tid) :=
  match s.pc t with
  | .acqRead old ver =>
      if (extractHead old).toNat < s.capacity then
        (s.mem.load .acquire t (.next (extractHead old)) k).map (fun r =>
          s.goto r.2 t (.acqNext old ver (unword r.1)))
      else some (s.goto s.mem t .panicked)
  | .acqNext old _ nextIdx =>
      if fails then
        (s.mem.load .acquire t .head k).map (fun r => s.acquireRead r.2 t r.1 k)
      else
        (s.mem.modify .acqRel t .head
          (compareExchange old (pack nextIdx (extractTag old + 1)))).map (fun r =>
            s.goto r.2 t (.acqWon (extractHead old)))
  | .acqWon i =>
      (s.mem.modify .relaxed t .borrowed (fetchAdd 1)).map (fun r =>
        { s.goto r.2 t .idle with holder := Function.update s.holder i (some t) })
  | .relCalled i =>
      (s.mem.load .acquire t .head k).map (fun r => s.goto r.2 t (.relRead i r.1 k))
  | .relRead i old ver =>
      if i.toNat < s.capacity then
        some (s.goto (s.mem.store .release t (.next i) (word (extractHead old))) t
          (.relStored i old ver))
      else some (s.goto s.mem t .panicked)
  | .relStored i old _ =>
      if fails then
        (s.mem.load .acquire t .head k).map (fun r => s.goto r.2 t (.relRead i r.1 k))
      else
        (s.mem.modify .acqRel t .head
          (compareExchange old (pack i (extractTag old + 1)))).map (fun r => s.goto r.2 t .relWon)
  | .relWon =>
      (s.mem.modify .relaxed t .borrowed (fetchAdd (-1))).map (fun r => s.goto r.2 t .idle)
  | .idle | .acqFailed | .panicked => none

/-- One step.  A call of `acquire` starts with its load of `head`; `release` is called
with an index that the thread holds. -/
def step (s : State Tid) : Act Tid → Option (State Tid)
  | .acquire t k =>
      if (s.pc t).resting then
        (s.mem.load .acquire t .head k).map (fun r => s.acquireRead r.2 t r.1 k)
      else none
  | .release t i =>
      if (s.pc t).resting ∧ s.holder i = some t then
        some { s.goto s.mem t (.relCalled i) with holder := Function.update s.holder i none }
      else none
  | .access t k fails => access s t k fails
  | .use t i =>
      if (s.pc t).resting ∧ s.holder i = some t then
        some { s with mem := s.mem.store .relaxed t (.item i) 0#64 }
      else none
  | .pass t u i =>
      if (s.pc t).resting ∧ (s.pc u).resting ∧ s.holder i = some t then
        some { s with
          mem := s.mem.sync t u
          holder := Function.update s.holder i (some u) }
      else none

/-- `UniqueIndexSet::new`, before the threads get it. -/
def init (capacity : Nat) : State Tid where
  capacity := capacity
  mem := .init (fun l =>
    match l with
    | .head => pack 0#32 0#32
    | .next i => if i.toNat + 1 < capacity then word (i + 1) else word SENTINEL
    | .borrowed | .item _ => 0#64)
  pc _ := .idle
  holder _ := none

/-- The successful compare-exchanges on `head`. -/
def State.updates (s : State Tid) : Nat := (s.mem.stores .head).length - 1

/-- Fewer than `2 ^ 32` of them since the one that the thread's compare-exchange expects. -/
def fewUpdates (s : State Tid) : Act Tid → Prop
  | .access t _ _ => ∀ ver ∈ (s.pc t).exchangeVersion, s.updates - ver < 2 ^ 32
  | _ => True

instance decidableFewUpdates (s : State Tid) : (a : Act Tid) → Decidable (fewUpdates s a)
  | .access t _ _ =>
      inferInstanceAs (Decidable (∀ ver ∈ (s.pc t).exchangeVersion, s.updates - ver < 2 ^ 32))
  | .acquire _ _ => isTrue trivial
  | .release _ _ => isTrue trivial
  | .use _ _ => isTrue trivial
  | .pass _ _ _ => isTrue trivial

/-! ## §2. Where an index is, and who knows of it. -/

/-- Where an index can be: on the chain, with a thread, or between the exchange and the end
of a call. -/
inductive Place (Tid : Type) where
  | free
  | held (t : Tid)
  | acquiring (t : Tid)
  | releasing (t : Tid)
  deriving DecidableEq

/-- Index `i` is in place `p`, the free list being `l`. -/
def State.At (s : State Tid) (l : List U32) (i : U32) : Place Tid → Prop
  | .free => i ∈ l
  | .held t => s.holder i = some t
  | .acquiring t => (s.pc t).acquired = some i
  | .releasing t => (s.pc t).releasing = some i

/-- A view that misses nothing done to `next` of `i` and to what `i` stands for. -/
def Fresh (m : Memory Loc U64 Tid) (view : View Loc) (i : U32) : Prop :=
  view (.next i) + 1 = (m.stores (.next i)).length
    ∧ view (.item i) + 1 = (m.stores (.item i)).length

/-- What has index `i` knows all about it; of a free one, the newest head does. -/
def State.Knows (s : State Tid) (i : U32) : Place Tid → Prop
  | .free => ∀ store, (s.mem.stores .head).getLast? = some store → Fresh s.mem store.view i
  | .held t | .acquiring t | .releasing t => Fresh s.mem (s.mem.view t) i

/-- `next[i]` as it is now. -/
def State.nextNow (s : State Tid) (i : U32) : Option U32 :=
  if i.toNat < s.capacity then
    (s.mem.stores (.next i)).getLast?.map (fun store => unword store.value)
  else none

/-- The head as it is now. -/
def State.headNow (s : State Tid) : Option U64 :=
  (s.mem.stores .head).getLast?.map Store.value

/-- A head word that the set has had: its tag, and a cell or the end marker. -/
structure HeadOk (capacity : Nat) (k : Nat) (v : U64) : Prop where
  tag : extractTag v = BitVec.ofNat 32 k
  cell : extractHead v = SENTINEL ∨ (extractHead v).toNat < capacity

/-- The newest words are the set of `c`, whose free list is `l`. -/
structure Inv (s : State Tid) (c : IndexSetSteps.State Tid) (l : List U32) : Prop where
  ok : s.mem.Ok
  core : IndexSetSteps.Inv c l
  pc : c.pc = s.pc
  held : ∀ i, i ∈ c.held ↔ ∃ t, s.holder i = some t
  capacity : c.set.capacity = s.capacity
  updates : c.updates + 1 = (s.mem.stores .head).length
  head : s.headNow = some c.set.head
  next : c.set.nextAt = s.nextNow
  heads : ∀ (k : Nat) (store : Store Loc U64), (s.mem.stores .head)[k]? = some store →
    HeadOk s.capacity k store.value
  -- a thread has taken in what came with the head it has loaded
  seen : ∀ t old ver, s.pc t = .acqRead old ver →
    ∃ store, (s.mem.stores .head)[ver]? = some store ∧ store.view ≤ s.mem.view t
  known : ∀ i p, s.At l i p → s.Knows i p

/-! ## §3. Knowledge survives an access. -/

section Fresh

variable {m m' : Memory Loc U64 Tid} {view view' : View Loc} {i : U32}

omit [DecidableEq Tid] in
/-- Nothing was done about index `i`, and the view has not become smaller. -/
theorem Fresh.mono (h : Fresh m view i) (hle : view ≤ view')
    (hlt : ∀ l, view' l < (m'.stores l).length)
    (hnext : m'.stores (.next i) = m.stores (.next i))
    (hitem : m'.stores (.item i) = m.stores (.item i)) : Fresh m' view' i := by
  obtain ⟨hn, hi⟩ := h
  have hn' := hlt (.next i)
  have hi' := hlt (.item i)
  have hnle : view (.next i) ≤ view' (.next i) := hle (.next i)
  have hile : view (.item i) ≤ view' (.item i) := hle (.item i)
  rw [hnext] at hn'
  rw [hitem] at hi'
  constructor
  · rw [hnext]
    omega
  · rw [hitem]
    omega

omit [DecidableEq Tid] in
/-- The same for what a thread knows. -/
theorem Fresh.grows {u : Tid} (h : Fresh m (m.view u) i) (hgrow : m.Grows m') (hok : m'.Ok)
    (hnext : m'.stores (.next i) = m.stores (.next i))
    (hitem : m'.stores (.item i) = m.stores (.item i)) : Fresh m' (m'.view u) i :=
  h.mono (hgrow.view u) (hok.view u) hnext hitem

end Fresh

section Places

variable {s s' : State Tid} {c : IndexSetSteps.State Tid} {l l' : List U32}

/-- The place in the set of `IndexSetSteps`. -/
def Place.core : Place Tid → IndexSetSteps.Place Tid
  | .free => .free
  | .held _ => .held
  | .acquiring t => .acquiring t
  | .releasing t => .releasing t

omit [DecidableEq Tid] in
theorem Inv.at_core (h : Inv s c l) {i : U32} {p : Place Tid} (hp : s.At l i p) :
    IndexSetSteps.At c l i p.core := by
  cases p with
  | free => exact hp
  | held t => exact (h.held i).mpr ⟨t, hp⟩
  | acquiring t =>
      show (c.pc t).acquired = some i
      rw [h.pc]
      exact hp
  | releasing t =>
      show (c.pc t).releasing = some i
      rw [h.pc]
      exact hp

omit [DecidableEq Tid] in
/-- Every index is in one place. -/
theorem Inv.partition (h : Inv s c l) :
    Partition (fun i : U32 => i.toNat < s.capacity) (s.At l) := by
  have hcore := h.core.partition
  rw [h.capacity] at hcore
  constructor
  · intro i p hp
    exact hcore.inDom i _ (h.at_core hp)
  · intro i hi
    obtain ⟨q, hq⟩ := hcore.placed i hi
    cases q with
    | free => exact ⟨.free, hq⟩
    | held =>
        obtain ⟨t, ht⟩ := (h.held i).mp hq
        exact ⟨.held t, ht⟩
    | acquiring t =>
        refine ⟨.acquiring t, ?_⟩
        show (s.pc t).acquired = some i
        rw [← h.pc]
        exact hq
    | releasing t =>
        refine ⟨.releasing t, ?_⟩
        show (s.pc t).releasing = some i
        rw [← h.pc]
        exact hq
  · intro i p q hp hq
    have heq := hcore.single i _ _ (h.at_core hp) (h.at_core hq)
    cases p with
    | held t =>
        cases q with
        | held u =>
            have hsome : some t = some u := Eq.trans (Eq.symm hp) hq
            rw [Option.some.inj hsome]
        | _ => exact absurd heq (by simp [Place.core])
    | free => cases q <;> simp_all [Place.core]
    | acquiring t => cases q <;> simp_all [Place.core]
    | releasing t => cases q <;> simp_all [Place.core]

/-- What is known where, after thread `t` has got to `pc'`. -/
theorem known_of {t : Tid} {pc' : Pc} (hpc : s'.pc = Function.update s.pc t pc')
    (hfree : ∀ i ∈ l', s'.Knows i .free)
    (hheld : ∀ i u, s'.holder i = some u → Fresh s'.mem (s'.mem.view u) i)
    (hself : ∀ i, pc'.acquired = some i ∨ pc'.releasing = some i →
      Fresh s'.mem (s'.mem.view t) i)
    (hother : ∀ u i, u ≠ t → (s.pc u).acquired = some i ∨ (s.pc u).releasing = some i →
      Fresh s'.mem (s'.mem.view u) i) (i : U32) (p : Place Tid) (hp : s'.At l' i p) :
    s'.Knows i p := by
  have hthread : ∀ u, (s'.pc u).acquired = some i ∨ (s'.pc u).releasing = some i →
      Fresh s'.mem (s'.mem.view u) i := by
    intro u hu
    rw [hpc] at hu
    by_cases ht : u = t
    · subst ht
      rw [Function.update_self] at hu
      exact hself i hu
    · rw [Function.update_of_ne ht] at hu
      exact hother u i ht hu
  cases p with
  | free => exact hfree i hp
  | held u => exact hheld i u hp
  | acquiring u => exact hthread u (.inl hp)
  | releasing u => exact hthread u (.inr hp)

omit [DecidableEq Tid] in
/-- What a thread has in a call, it knows all about. -/
theorem Inv.knows_own (h : Inv s c l) {u : Tid} {i : U32}
    (hu : (s.pc u).acquired = some i ∨ (s.pc u).releasing = some i) :
    Fresh s.mem (s.mem.view u) i := by
  rcases hu with hu | hu
  · exact h.known i (.acquiring u) hu
  · exact h.known i (.releasing u) hu

end Places

/-! ## §4. The accesses of a call. -/

section Accesses

variable {s : State Tid} {c : IndexSetSteps.State Tid} {l : List U32} {t : Tid}
  {m' : Memory Loc U64 Tid}

omit [DecidableEq Tid] in
theorem headNow_congr {s' : State Tid} (h : s'.mem.stores .head = s.mem.stores .head) :
    s'.headNow = s.headNow := by
  unfold State.headNow
  rw [h]

omit [DecidableEq Tid] in
theorem nextNow_congr {s' : State Tid} {i : U32} (hcap : s'.capacity = s.capacity)
    (h : s'.mem.stores (.next i) = s.mem.stores (.next i)) : s'.nextNow i = s.nextNow i := by
  unfold State.nextNow
  rw [hcap, h]

/-- A load of `head` by an acquire. -/
theorem Inv.loadHead (h : Inv s c l) {k : Nat} {v : U64}
    (hload : s.mem.load .acquire t .head k = some (v, m')) :
    ReadOk c v k ∧ HeadOk s.capacity k v
      ∧ ∃ store, (m'.stores .head)[k]? = some store ∧ store.view ≤ m'.view t := by
  obtain ⟨store, hstore, _, rfl, _⟩ := Memory.load_cases hload
  have hk := (List.getElem?_eq_some_iff.mp hstore).1
  have hupd := h.updates
  have hhead := h.heads k store hstore
  refine ⟨⟨by omega, hhead.tag, fun hcur => ?_⟩, hhead, store, ?_, ?_⟩
  · -- the newest store is the head of the set
    have hnow := h.head
    unfold State.headNow at hnow
    rw [List.getLast?_eq_getElem?] at hnow
    have hlast : (s.mem.stores .head).length - 1 = k := by omega
    rw [hlast, hstore] at hnow
    exact Option.some.inj hnow
  · rw [Memory.load_stores hload]
    exact hstore
  · exact Memory.load_acquires hload hstore

/-- An access that stores nothing, or to `borrowed` only.  The set is then that of `c'`,
and thread `t` gets to `pc'`. -/
theorem Inv.frame (h : Inv s c l) {s' : State Tid} {c' : IndexSetSteps.State Tid} {pc' : Pc}
    (hok : s'.mem.Ok) (hgrow : s.mem.Grows s'.mem)
    (hstores : ∀ x, x ≠ .borrowed → s'.mem.stores x = s.mem.stores x)
    (hcore : IndexSetSteps.Inv c' l) (hpc' : c'.pc = s'.pc)
    (hpc : s'.pc = Function.update s.pc t pc') (hcap : s'.capacity = s.capacity)
    (hccap : c'.set.capacity = c.set.capacity) (hhead : c'.set.head = c.set.head)
    (hnext : c'.set.nextAt = c.set.nextAt) (hupd : c'.updates = c.updates)
    (hholder : ∀ i, i ∈ c'.held ↔ ∃ u, s'.holder i = some u)
    (hseen : ∀ old ver, pc' = .acqRead old ver →
      ∃ store, (s'.mem.stores .head)[ver]? = some store ∧ store.view ≤ s'.mem.view t)
    (hheld : ∀ i u, s'.holder i = some u → Fresh s'.mem (s'.mem.view u) i)
    (hself : ∀ i, pc'.acquired = some i ∨ pc'.releasing = some i →
      Fresh s'.mem (s'.mem.view t) i) : Inv s' c' l where
  ok := hok
  core := hcore
  pc := hpc'
  held := hholder
  capacity := by rw [hccap, hcap, h.capacity]
  updates := by
    rw [hupd, hstores .head (by simp)]
    exact h.updates
  head := by
    rw [hhead]
    exact (headNow_congr (hstores .head (by simp))).trans h.head
  next := by
    rw [hnext, h.next]
    funext i
    exact (nextNow_congr hcap (hstores (.next i) (by simp))).symm
  heads := by
    rw [hstores .head (by simp), hcap]
    exact h.heads
  seen := by
    intro u old ver hu
    rw [hpc] at hu
    by_cases hut : u = t
    · subst hut
      rw [Function.update_self] at hu
      exact hseen old ver hu
    · rw [Function.update_of_ne hut] at hu
      obtain ⟨store, hstore, hview⟩ := h.seen u old ver hu
      exact ⟨store, hgrow.stores .head ver store hstore, hview.trans (hgrow.view u)⟩
  known := by
    refine known_of hpc (fun i hi store hstore => ?_) hheld hself (fun u i _ hu => ?_)
    · have hkept : ∀ x, store.view x < (s'.mem.stores x).length :=
        hok.kept .head _ store (Memory.newest_some hstore).1
      rw [hstores .head (by simp)] at hstore
      exact (h.known i .free hi store hstore).mono (le_refl _) hkept (hstores _ (by simp))
        (hstores _ (by simp))
    · exact (h.knows_own hu).grows hgrow hok (hstores _ (by simp)) (hstores _ (by simp))

/-- Thread `t` moves on, with what it has. -/
theorem Inv.goto (h : Inv s c l) {pc' : Pc} (hok : m'.Ok) (hgrow : s.mem.Grows m')
    (hstores : ∀ x, x ≠ .borrowed → m'.stores x = s.mem.stores x)
    (hacq : pc'.acquired = (s.pc t).acquired) (hrel : pc'.releasing = (s.pc t).releasing)
    (hthread : ThreadOk c pc')
    (hseen : ∀ old ver, pc' = .acqRead old ver →
      ∃ store, (m'.stores .head)[ver]? = some store ∧ store.view ≤ m'.view t) :
    Inv (s.goto m' t pc') (c.goto t pc') l := by
  have hcore := h.core.goto t pc' (by rw [h.pc]; exact hacq) (by rw [h.pc]; exact hrel) hthread
  have hpc' : (c.goto t pc').pc = (s.goto m' t pc').pc := by
    show Function.update c.pc t pc' = Function.update s.pc t pc'
    rw [h.pc]
  refine h.frame hok hgrow hstores hcore hpc' rfl rfl rfl rfl rfl rfl h.held hseen ?_ ?_
  · intro i u hu
    exact (h.known i (.held u) hu).grows hgrow hok (hstores _ (by simp)) (hstores _ (by simp))
  · intro i hi
    rw [hacq, hrel] at hi
    exact (h.knows_own hi).grows hgrow hok (hstores _ (by simp)) (hstores _ (by simp))

/-- A load stores nothing. -/
theorem load_stores_other {k : Nat} {x : Loc} {v : U64}
    (hload : s.mem.load .acquire t x k = some (v, m')) (y : Loc) (_ : y ≠ .borrowed) :
    m'.stores y = s.mem.stores y := by
  rw [Memory.load_stores hload]

/-- `acquire` looks at the head that it has loaded. -/
theorem Inv.acquireRead (h : Inv s c l) {k : Nat} {v : U64}
    (hload : s.mem.load .acquire t .head k = some (v, m'))
    (hacq : (s.pc t).acquired = none) (hrel : (s.pc t).releasing = none) :
    ∃ c', Inv (s.acquireRead m' t v k) c' l := by
  obtain ⟨hread, hhead, hseen⟩ := h.loadHead hload
  have hok := h.ok.load hload
  have hgrow := Memory.load_grows hload
  have hstores := load_stores_other hload
  unfold State.acquireRead
  split
  next =>
    exact ⟨_, h.goto hok hgrow hstores hacq.symm hrel.symm trivial (fun _ _ he => by cases he)⟩
  next hne =>
    refine ⟨_, h.goto hok hgrow hstores hacq.symm hrel.symm ⟨hread, ?_⟩ ?_⟩
    · rw [h.capacity]
      exact hhead.cell.resolve_left hne
    · intro old ver he
      simp only [Pc.acqRead.injEq] at he
      obtain ⟨rfl, rfl⟩ := he
      exact hseen

/-- The load of `next` in `acquire`: if the head that was read is still the newest, it is
that of the list. -/
theorem Inv.loadNext (h : Inv s c l) {old : U64} {ver k : Nat} {v : U64}
    (hpc : s.pc t = .acqRead old ver)
    (hload : s.mem.load .acquire t (.next (extractHead old)) k = some (v, m')) :
    Inv (s.goto m' t (.acqNext old ver (unword v))) (c.goto t (.acqNext old ver (unword v))) l := by
  have hthread := h.core.threads t
  rw [h.pc, hpc] at hthread
  obtain ⟨hread, hlt⟩ := hthread
  refine h.goto (h.ok.load hload) (Memory.load_grows hload) (load_stores_other hload)
    (by rw [hpc]; rfl) (by rw [hpc]; rfl) ⟨hread, hlt, fun hcur => ?_⟩
    (fun _ _ he => by cases he)
  -- the cell is free, so what came with the head misses nothing of it
  have hmem : extractHead old ∈ l := by
    have hfree : Linked c.set.nextAt SENTINEL (extractHead c.set.head) l := h.core.free
    rw [← hread.current hcur] at hfree
    obtain ⟨_, l', rfl, _⟩ := hfree.eq_cons (c.set.ne_sentinel hlt)
    exact List.mem_cons_self
  obtain ⟨store, hstore, hview⟩ := h.seen t old ver hpc
  have hupd := h.updates
  have hlast : (s.mem.stores .head).getLast? = some store := by
    rw [List.getLast?_eq_getElem?, ← hupd, Nat.add_sub_cancel, ← hcur]
    exact hstore
  have hfresh := (h.known _ .free hmem store hlast).1
  obtain ⟨loaded, hloaded, hle, rfl, _⟩ := Memory.load_cases hload
  have hseen : store.view (.next (extractHead old)) ≤ s.mem.view t (.next (extractHead old)) :=
    hview _
  have hk := (List.getElem?_eq_some_iff.mp hloaded).1
  have hnewest : k = (s.mem.stores (.next (extractHead old))).length - 1 := by omega
  rw [hnewest, ← List.getLast?_eq_getElem?] at hloaded
  rw [h.next]
  unfold State.nextNow
  rw [if_pos (by rw [← h.capacity]; exact hlt), hloaded]
  rfl

omit [DecidableEq Tid] in
/-- The head of a set, as a head word that it has had. -/
theorem headOk_core {c : IndexSetSteps.State Tid} (h : IndexSetSteps.Inv c l) :
    HeadOk c.set.capacity c.updates c.set.head := by
  refine ⟨h.tag, ?_⟩
  by_cases hs : extractHead c.set.head = SENTINEL
  · exact .inl hs
  · obtain ⟨n, l', rfl, hn, _⟩ := Linked.eq_cons h.free hs
    exact .inr ((c.set.nextAt_some_iff _).mp ⟨n, hn⟩)

/-- **A successful compare-exchange on `head`.**  What is free afterwards was free, or the
thread had it; what the thread has then was free. -/
theorem Inv.exchange (h : Inv s c l) {l' : List U32} {new : U64} {pc' : Pc}
    {store : Store Loc U64} (hlast : (s.mem.stores .head).getLast? = some store)
    (hcore : IndexSetSteps.Inv (c.exchange t new pc') l')
    (hread : ∀ old ver, pc' ≠ .acqRead old ver)
    (hfree : ∀ i ∈ l', i ∈ l ∨ (s.pc t).releasing = some i)
    (hself : ∀ i, pc'.acquired = some i ∨ pc'.releasing = some i → i ∈ l) :
    Inv (s.goto (s.mem.exchange .acqRel t .head store new) t pc') (c.exchange t new pc') l' := by
  have hok : (s.mem.exchange .acqRel t .head store new).Ok := h.ok.exchange hlast
  have hgrow : s.mem.Grows (s.mem.exchange .acqRel t .head store new) :=
    Memory.exchange_grows h.ok hlast
  have hstores : ∀ x, x ≠ Loc.head →
      (s.mem.exchange .acqRel t .head store new).stores x = s.mem.stores x :=
    fun x hx => Memory.exchange_stores_ne _ _ _ _ _ hx
  obtain ⟨made, hmade, hvalue, hkept⟩ := Memory.exchange_releases s.mem t .head store new
  have hlearnt := Memory.exchange_acquires (t := t) (v := new) h.ok hlast
  have hview : ∀ x, (s.mem.exchange .acqRel t .head store new).view t x
      < ((s.mem.exchange .acqRel t .head store new).stores x).length := hok.view t
  have hmadeLt : ∀ x,
      made.view x < ((s.mem.exchange .acqRel t .head store new).stores x).length :=
    hok.kept .head _ made (Memory.newest_some hmade).1
  constructor
  · exact hok
  · exact hcore
  · show Function.update c.pc t pc' = Function.update s.pc t pc'
    rw [h.pc]
  · exact h.held
  · exact h.capacity
  · show c.updates + 1 + 1 = ((s.mem.exchange .acqRel t .head store new).stores .head).length
    rw [Memory.exchange_length, if_pos rfl, h.updates]
  · show ((s.mem.exchange .acqRel t .head store new).stores .head).getLast?.map Store.value
      = some new
    rw [hmade, Option.map_some, hvalue]
  · show c.set.nextAt = _
    rw [h.next]
    funext i
    exact (nextNow_congr rfl (hstores (.next i) (by simp))).symm
  · intro k old hold
    replace hold : ((s.mem.exchange .acqRel t .head store new).stores .head)[k]? = some old := hold
    rw [Memory.exchange_stores_self] at hold
    rcases concat_cases hold with hbefore | ⟨rfl, rfl⟩
    · exact h.heads k old hbefore
    · have hhead := headOk_core hcore
      have hupd : c.updates + 1 = (s.mem.stores .head).length := h.updates
      show HeadOk s.capacity _ new
      rw [← h.capacity, ← hupd]
      exact hhead
  · intro u old ver hu
    replace hu : Function.update s.pc t pc' u = .acqRead old ver := hu
    by_cases hut : u = t
    · subst hut
      rw [Function.update_self] at hu
      exact absurd hu (hread old ver)
    · rw [Function.update_of_ne hut] at hu
      obtain ⟨read, hstore, hle⟩ := h.seen u old ver hu
      exact ⟨read, hgrow.stores .head ver read hstore, hle.trans (hgrow.view u)⟩
  · refine known_of rfl ?_ ?_ ?_ ?_
    · intro i hi newest hnewest
      obtain rfl : made = newest := Option.some.inj (hmade.symm.trans hnewest)
      rcases hfree i hi with hold | hown
      · exact (h.known i .free hold store hlast).mono (hlearnt.trans hkept) hmadeLt
          (hstores _ (by simp)) (hstores _ (by simp))
      · exact (h.knows_own (.inr hown)).mono ((hgrow.view t).trans hkept) hmadeLt
          (hstores _ (by simp)) (hstores _ (by simp))
    · intro i u hu
      exact (h.known i (.held u) hu).grows hgrow hok (hstores _ (by simp)) (hstores _ (by simp))
    · intro i hi
      exact (h.known i .free (hself i hi) store hlast).mono hlearnt hview (hstores _ (by simp))
        (hstores _ (by simp))
    · intro u i _ hu
      exact (h.knows_own hu).grows hgrow hok (hstores _ (by simp)) (hstores _ (by simp))

omit [DecidableEq Tid] in
theorem compareExchange_cases {expected new v value : U64}
    (h : compareExchange expected new v = some value) : v = expected ∧ value = new := by
  unfold compareExchange at h
  split at h
  next heq => exact ⟨heq, (Option.some.inj h).symm⟩
  next => exact absurd h (by simp)

omit [DecidableEq Tid] in
/-- The newest head is that of the set. -/
theorem Inv.newest_head (h : Inv s c l) {store : Store Loc U64}
    (hlast : (s.mem.stores .head).getLast? = some store) : store.value = c.set.head := by
  have hhead := h.head
  unfold State.headNow at hhead
  rw [hlast] at hhead
  exact Option.some.inj hhead

omit [DecidableEq Tid] in
theorem Inv.updates_eq (h : Inv s c l) : c.updates = s.updates := by
  have hupd := h.updates
  unfold State.updates
  omega

/-- The compare-exchange of `acquire` takes the head off the list. -/
theorem Inv.acquireExchange (h : Inv s c l) {old v : U64} {ver : Nat} {n : U32}
    (hpc : s.pc t = .acqNext old ver n) (hfew : s.updates - ver < 2 ^ 32)
    (hcas : s.mem.modify .acqRel t .head (compareExchange old (pack n (extractTag old + 1)))
      = some (v, m')) :
    ∃ c' l', Inv (s.goto m' t (.acqWon (extractHead old))) c' l' := by
  obtain ⟨store, value, hlast, rfl, hf, rfl⟩ := Memory.modify_cases hcas
  obtain ⟨heq, rfl⟩ := compareExchange_cases hf
  obtain rfl : old = c.set.head := heq.symm.trans (h.newest_head hlast)
  rw [← h.pc] at hpc
  rw [← h.updates_eq] at hfew
  obtain ⟨l', hl, hcore⟩ := h.core.acquireExchange hpc hfew
  refine ⟨_, l', h.exchange hlast hcore (fun _ _ he => by cases he) (fun i hi => .inl ?_) ?_⟩
  · rw [hl]
    exact List.mem_cons_of_mem _ hi
  · intro i hi
    rcases hi with hi | hi
    · simp only [Pc.acquired, Option.some.injEq] at hi
      rw [← hi, hl]
      exact List.mem_cons_self
    · exact absurd hi (by simp [Pc.releasing])

/-- The compare-exchange of `release` makes the index the head. -/
theorem Inv.releaseExchange (h : Inv s c l) {old v : U64} {ver : Nat} {i : U32}
    (hpc : s.pc t = .relStored i old ver)
    (hcas : s.mem.modify .acqRel t .head (compareExchange old (pack i (extractTag old + 1)))
      = some (v, m')) :
    ∃ c' l', Inv (s.goto m' t .relWon) c' l' := by
  obtain ⟨store, value, hlast, rfl, hf, rfl⟩ := Memory.modify_cases hcas
  obtain ⟨heq, rfl⟩ := compareExchange_cases hf
  obtain rfl : old = c.set.head := heq.symm.trans (h.newest_head hlast)
  have hpc' := hpc
  rw [← h.pc] at hpc'
  refine ⟨_, i :: l, h.exchange hlast (h.core.releaseExchange hpc') (fun _ _ he => by cases he)
    ?_ ?_⟩
  · intro j hj
    rcases List.mem_cons.mp hj with rfl | hj
    · exact .inr (by rw [hpc]; rfl)
    · exact .inl hj
  · intro j hj
    simp [Pc.acquired, Pc.releasing] at hj

/-- The store of `next[i]` in `release`: the thread knows of all the stores before it. -/
theorem Inv.storeNext (h : Inv s c l) {i : U32} {old : U64} {ver : Nat}
    (hpc : s.pc t = .relRead i old ver) (hlt : i.toNat < s.capacity) :
    ∃ c', Inv (s.goto (s.mem.store .release t (.next i) (word (extractHead old))) t
      (.relStored i old ver)) c' l := by
  have hpc' := hpc
  rw [← h.pc] at hpc'
  have hown : s.At l i (.releasing t) := by
    show (s.pc t).releasing = some i
    rw [hpc]
    rfl
  have hok : (s.mem.store .release t (.next i) (word (extractHead old))).Ok := h.ok.store
  have hgrow : s.mem.Grows (s.mem.store .release t (.next i) (word (extractHead old))) :=
    Memory.store_grows h.ok
  have hstores : ∀ x, x ≠ Loc.next i →
      (s.mem.store .release t (.next i) (word (extractHead old))).stores x = s.mem.stores x :=
    fun x hx => Memory.store_stores_ne _ _ _ _ hx
  -- what is not in this thread's call is another index
  have hother : ∀ {j : U32} {p : Place Tid}, s.At l j p → p ≠ .releasing t → j ≠ i := by
    rintro j p hj hp rfl
    exact hp (h.partition.single j _ _ hj hown)
  have hfresh : ∀ {u : Tid} {j : U32}, j ≠ i → Fresh s.mem (s.mem.view u) j →
      Fresh (s.mem.store .release t (.next i) (word (extractHead old)))
        ((s.mem.store .release t (.next i) (word (extractHead old))).view u) j :=
    fun hj hf => hf.grows hgrow hok (hstores _ (by simpa using hj)) (hstores _ (by simp))
  refine ⟨_, hok, h.core.releaseStore hpc', ?_, h.held, h.capacity, ?_, ?_, ?_, ?_, ?_, ?_⟩
  · show Function.update c.pc t _ = Function.update s.pc t _
    rw [h.pc]
  · show c.updates + 1 = ((s.mem.store _ _ _ _).stores .head).length
    rw [hstores .head (by simp)]
    exact h.updates
  · exact (headNow_congr (hstores .head (by simp))).trans h.head
  · funext j
    by_cases hj : j = i
    · subst hj
      show (c.set.setNext j (extractHead old)).nextAt j
        = if j.toNat < s.capacity then
            ((s.mem.store .release t (.next j) (word (extractHead old))).stores
              (.next j)).getLast?.map (fun store => unword store.value)
          else none
      rw [c.set.nextAt_setNext_self _ (by rw [h.capacity]; exact hlt), if_pos hlt,
        Memory.store_stores_self, List.getLast?_concat]
      simp [word, unword]
    · show (c.set.setNext i (extractHead old)).nextAt j = State.nextNow (s.goto _ _ _) j
      rw [c.set.nextAt_setNext_ne _ hj, h.next]
      refine Eq.symm (nextNow_congr rfl ?_)
      exact hstores (.next j) (by simpa using hj)
  · show ∀ (k : Nat) (store : Store Loc U64),
      ((s.mem.store _ _ _ _).stores .head)[k]? = some store → HeadOk s.capacity k store.value
    rw [hstores .head (by simp)]
    exact h.heads
  · intro u old' ver' hu
    replace hu : Function.update s.pc t (.relStored i old ver) u = .acqRead old' ver' := hu
    by_cases hut : u = t
    · subst hut
      rw [Function.update_self] at hu
      exact absurd hu (by simp)
    · rw [Function.update_of_ne hut] at hu
      obtain ⟨read, hstore, hle⟩ := h.seen u old' ver' hu
      exact ⟨read, hgrow.stores .head ver' read hstore, hle.trans (hgrow.view u)⟩
  · refine known_of rfl ?_ ?_ ?_ ?_
    · intro j hj newest hnewest
      have hne := hother (p := .free) hj (by simp)
      have hkept : ∀ x, newest.view x < ((s.mem.store .release t (.next i)
          (word (extractHead old))).stores x).length :=
        hok.kept .head _ newest (Memory.newest_some hnewest).1
      replace hnewest : (s.mem.stores .head).getLast? = some newest := by
        rw [← hstores .head (by simp)]
        exact hnewest
      exact (h.known j .free hj newest hnewest).mono (le_refl _) hkept
        (hstores _ (by simpa using hne)) (hstores _ (by simp))
    · intro j u hu
      exact hfresh (hother (p := .held u) hu (by simp)) (h.known j (.held u) hu)
    · intro j hj
      obtain rfl : i = j := by simpa [Pc.acquired, Pc.releasing] using hj
      obtain ⟨hn, hi⟩ := h.known i (.releasing t) hown
      refine ⟨Memory.latest_store s.mem .release t (.next i) _, ?_⟩
      exact Memory.Latest.mono hi hok (hgrow.view_le t _) (hstores _ (by simp))
    · intro u j hut hu
      refine hfresh ?_ (h.knows_own hu)
      rcases hu with hu | hu
      · exact hother (p := .acquiring u) hu (by simp)
      · exact hother (p := .releasing u) hu (by simpa using hut)

/-! ## §5. Indices change hands. -/

/-- A step on `borrowed`, and how it leaves the memory. -/
theorem fetchAdd_frame (hok : s.mem.Ok) {n : U32} {v : U64}
    (hadd : s.mem.modify .relaxed t .borrowed (fetchAdd n) = some (v, m')) :
    m'.Ok ∧ s.mem.Grows m' ∧ ∀ x, x ≠ Loc.borrowed → m'.stores x = s.mem.stores x := by
  obtain ⟨store, value, hlast, rfl, _, rfl⟩ := Memory.modify_cases hadd
  exact ⟨hok.exchange hlast, Memory.exchange_grows hok hlast,
    fun x hx => Memory.exchange_stores_ne _ _ _ _ _ hx⟩

/-- `acquire` returns: the thread holds the index. -/
theorem Inv.acquireReturn (h : Inv s c l) {i : U32} {v : U64} (hpc : s.pc t = .acqWon i)
    (hadd : s.mem.modify .relaxed t .borrowed (fetchAdd 1) = some (v, m')) :
    ∃ c', Inv { s.goto m' t .idle with holder := Function.update s.holder i (some t) } c' l := by
  obtain ⟨hok, hgrow, hstores⟩ := fetchAdd_frame h.ok hadd
  have hpc' := hpc
  rw [← h.pc] at hpc'
  have hfresh : ∀ {u : Tid} {j : U32}, Fresh s.mem (s.mem.view u) j → Fresh m' (m'.view u) j :=
    fun hf => hf.grows hgrow hok (hstores _ (by simp)) (hstores _ (by simp))
  refine ⟨_, h.frame hok hgrow hstores (h.core.acquireReturn hpc') ?_ rfl rfl rfl rfl rfl rfl
    ?_ (fun _ _ he => by cases he) ?_ ?_⟩
  · show Function.update c.pc t .idle = Function.update s.pc t .idle
    rw [h.pc]
  · intro j
    show j ∈ i :: c.held ↔ ∃ u, Function.update s.holder i (some t) j = some u
    rw [List.mem_cons]
    by_cases hj : j = i
    · subst hj
      rw [Function.update_self]
      exact ⟨fun _ => ⟨t, rfl⟩, fun _ => .inl rfl⟩
    · rw [Function.update_of_ne hj, h.held]
      exact ⟨fun hm => hm.resolve_left hj, .inr⟩
  · intro j u hu
    replace hu : Function.update s.holder i (some t) j = some u := hu
    by_cases hj : j = i
    · subst hj
      rw [Function.update_self] at hu
      obtain rfl := Option.some.inj hu
      exact hfresh (h.knows_own (.inl (by rw [hpc]; rfl)))
    · rw [Function.update_of_ne hj] at hu
      exact hfresh (h.known j (.held u) hu)
  · intro j hj
    simp [Pc.acquired, Pc.releasing] at hj

/-- `release` is called: the thread no longer holds the index. -/
theorem Inv.releaseCall (h : Inv s c l) {i : U32} (hrest : (s.pc t).resting = true)
    (hi : s.holder i = some t) :
    ∃ c', Inv { s.goto s.mem t (.relCalled i) with holder := Function.update s.holder i none }
      c' l := by
  have hrest' := hrest
  rw [← h.pc] at hrest'
  refine ⟨_, h.frame h.ok (Memory.Grows.refl _) (fun _ _ => rfl)
    (h.core.releaseCall hrest' ((h.held i).mpr ⟨t, hi⟩)) ?_ rfl rfl rfl rfl rfl rfl ?_
    (fun _ _ he => by cases he) ?_ ?_⟩
  · show Function.update c.pc t _ = Function.update s.pc t _
    rw [h.pc]
  · intro j
    show j ∈ c.held.erase i ↔ ∃ u, Function.update s.holder i none j = some u
    rw [h.core.heldNodup.mem_erase_iff, h.held]
    by_cases hj : j = i
    · subst hj
      simp
    · rw [Function.update_of_ne hj]
      exact ⟨fun hm => hm.2, fun hm => ⟨hj, hm⟩⟩
  · intro j u hu
    replace hu : Function.update s.holder i none j = some u := hu
    by_cases hj : j = i
    · subst hj
      rw [Function.update_self] at hu
      exact absurd hu (by simp)
    · rw [Function.update_of_ne hj] at hu
      exact h.known j (.held u) hu
  · intro j hj
    obtain rfl : i = j := by simpa [Pc.acquired, Pc.releasing] using hj
    exact h.known i (.held t) hi

/-- The index goes to another thread, which learns what the first one knows. -/
theorem Inv.pass (h : Inv s c l) {u : Tid} {i : U32} (hi : s.holder i = some t) :
    Inv { s with
      mem := s.mem.sync t u
      holder := Function.update s.holder i (some u) } c l := by
  have hok := h.ok.sync t u
  have hgrow := Memory.sync_grows s.mem t u
  refine h.frame hok hgrow (fun _ _ => rfl) h.core h.pc (Function.update_eq_self t s.pc).symm
    rfl rfl rfl rfl rfl ?_ ?_ ?_ ?_
  · intro j
    rw [h.held]
    show (∃ v, s.holder j = some v) ↔ ∃ v, Function.update s.holder i (some u) j = some v
    by_cases hj : j = i
    · subst hj
      rw [Function.update_self, hi]
      exact ⟨fun _ => ⟨u, rfl⟩, fun _ => ⟨t, rfl⟩⟩
    · rw [Function.update_of_ne hj]
  · intro old ver hread
    obtain ⟨store, hstore, hle⟩ := h.seen t old ver hread
    exact ⟨store, hstore, hle.trans (hgrow.view t)⟩
  · intro j v hv
    replace hv : Function.update s.holder i (some u) j = some v := hv
    by_cases hj : j = i
    · subst hj
      rw [Function.update_self] at hv
      obtain rfl := Option.some.inj hv
      exact (h.known j (.held t) hi).mono (Memory.sync_learns s.mem t u) (hok.view u) rfl rfl
    · rw [Function.update_of_ne hj] at hv
      exact (h.known j (.held v) hv).grows hgrow hok rfl rfl
  · intro j hj
    exact (h.knows_own hj).grows hgrow hok rfl rfl

/-- A plain access to what an index stands for, by the thread that holds it. -/
theorem Inv.use (h : Inv s c l) {i : U32} (hi : s.holder i = some t) :
    Inv { s with mem := s.mem.store .relaxed t (.item i) 0#64 } c l := by
  have hok : (s.mem.store .relaxed t (.item i) 0#64).Ok := h.ok.store
  have hgrow : s.mem.Grows (s.mem.store .relaxed t (.item i) 0#64) := Memory.store_grows h.ok
  have hstores : ∀ x, x ≠ Loc.item i →
      (s.mem.store .relaxed t (.item i) 0#64).stores x = s.mem.stores x :=
    fun x hx => Memory.store_stores_ne _ _ _ _ hx
  refine ⟨hok, h.core, h.pc, h.held, h.capacity, ?_, ?_, ?_, ?_, ?_, ?_⟩
  · show c.updates + 1 = ((s.mem.store _ _ _ _).stores .head).length
    rw [hstores .head (by simp)]
    exact h.updates
  · exact (headNow_congr (hstores .head (by simp))).trans h.head
  · rw [h.next]
    funext j
    exact (nextNow_congr rfl (hstores (.next j) (by simp))).symm
  · show ∀ (k : Nat) (store : Store Loc U64),
      ((s.mem.store _ _ _ _).stores .head)[k]? = some store → HeadOk s.capacity k store.value
    rw [hstores .head (by simp)]
    exact h.heads
  · intro u old ver hu
    obtain ⟨read, hstore, hle⟩ := h.seen u old ver hu
    exact ⟨read, hgrow.stores .head ver read hstore, hle.trans (hgrow.view u)⟩
  · intro j p hp
    replace hp : s.At l j p := by cases p <;> exact hp
    have hknows := h.known j p hp
    by_cases hj : j = i
    · -- the index is in the hand of this thread, and nowhere else
      subst hj
      obtain rfl := h.partition.single j p (.held t) hp hi
      refine ⟨?_, Memory.latest_store s.mem .relaxed t (.item j) 0#64⟩
      exact Memory.Latest.mono hknows.1 hok (hgrow.view_le t _) (hstores _ (by simp))
    · have hnext : (s.mem.store .relaxed t (.item i) 0#64).stores (.next j)
          = s.mem.stores (.next j) := hstores _ (by simp)
      have hitem : (s.mem.store .relaxed t (.item i) 0#64).stores (.item j)
          = s.mem.stores (.item j) := hstores _ (by simpa using hj)
      cases p with
      | free =>
          intro newest hnewest
          have hkept : ∀ x, newest.view x
              < ((s.mem.store .relaxed t (.item i) 0#64).stores x).length :=
            hok.kept .head _ newest (Memory.newest_some hnewest).1
          replace hnewest : (s.mem.stores .head).getLast? = some newest := by
            rw [← hstores .head (by simp)]
            exact hnewest
          exact (hknows newest hnewest).mono (le_refl _) hkept hnext hitem
      | held u | acquiring u | releasing u => exact hknows.grows hgrow hok hnext hitem

/-! ## §6. Every access, and every run. -/

/-- A call reads `head` and goes on to `relRead`. -/
theorem Inv.releaseRead (h : Inv s c l) {i : U32} {k : Nat} {v : U64}
    (hload : s.mem.load .acquire t .head k = some (v, m')) (hacq : (s.pc t).acquired = none)
    (hrel : (s.pc t).releasing = some i) : ∃ c', Inv (s.goto m' t (.relRead i v k)) c' l :=
  ⟨_, h.goto (h.ok.load hload) (Memory.load_grows hload) (load_stores_other hload) hacq.symm
    hrel.symm (h.loadHead hload).1 (fun _ _ he => by cases he)⟩

/-- The next access of a call. -/
theorem Inv.access {s' : State Tid} (h : Inv s c l) {k : Nat} {fails : Bool}
    (hfew : fewUpdates s (.access t k fails)) (hs : access s t k fails = some s') :
    ∃ c' l', Inv s' c' l' := by
  have hthread := h.core.threads t
  rw [h.pc] at hthread
  unfold IndexSetWeak.access at hs
  cases hpc : s.pc t with
  | acqRead old ver =>
      rw [hpc] at hthread
      have hlt : (extractHead old).toNat < s.capacity := by
        rw [← h.capacity]
        exact hthread.2
      simp only [hpc, if_pos hlt] at hs
      obtain ⟨⟨v, m'⟩, hload, rfl⟩ := Option.map_eq_some_iff.mp hs
      exact ⟨_, l, h.loadNext hpc hload⟩
  | acqNext old ver n =>
      cases fails with
      | true =>
          simp only [hpc, if_true] at hs
          obtain ⟨⟨v, m'⟩, hload, rfl⟩ := Option.map_eq_some_iff.mp hs
          obtain ⟨c', h'⟩ := h.acquireRead hload (by rw [hpc]; rfl) (by rw [hpc]; rfl)
          exact ⟨c', l, h'⟩
      | false =>
          simp only [hpc, Bool.false_eq_true, if_false] at hs
          obtain ⟨⟨v, m'⟩, hcas, rfl⟩ := Option.map_eq_some_iff.mp hs
          exact h.acquireExchange hpc (hfew ver (by rw [hpc]; rfl)) hcas
  | acqWon i =>
      simp only [hpc] at hs
      obtain ⟨⟨v, m'⟩, hadd, rfl⟩ := Option.map_eq_some_iff.mp hs
      obtain ⟨c', h'⟩ := h.acquireReturn hpc hadd
      exact ⟨c', l, h'⟩
  | relCalled i =>
      simp only [hpc] at hs
      obtain ⟨⟨v, m'⟩, hload, rfl⟩ := Option.map_eq_some_iff.mp hs
      obtain ⟨c', h'⟩ := h.releaseRead hload (by rw [hpc]; rfl) (by rw [hpc]; rfl)
      exact ⟨c', l, h'⟩
  | relRead i old ver =>
      -- an index that is being released is below the capacity
      have hrel : s.At l i (.releasing t) := by
        show (s.pc t).releasing = some i
        rw [hpc]
        rfl
      have hlt := h.partition.inDom i _ hrel
      simp only [hpc, if_pos hlt, Option.some.injEq] at hs
      obtain ⟨c', h'⟩ := h.storeNext hpc hlt
      rw [hs] at h'
      exact ⟨c', l, h'⟩
  | relStored i old ver =>
      cases fails with
      | true =>
          simp only [hpc, if_true] at hs
          obtain ⟨⟨v, m'⟩, hload, rfl⟩ := Option.map_eq_some_iff.mp hs
          obtain ⟨c', h'⟩ := h.releaseRead hload (by rw [hpc]; rfl) (by rw [hpc]; rfl)
          exact ⟨c', l, h'⟩
      | false =>
          simp only [hpc, Bool.false_eq_true, if_false] at hs
          obtain ⟨⟨v, m'⟩, hcas, rfl⟩ := Option.map_eq_some_iff.mp hs
          exact h.releaseExchange hpc hcas
  | relWon =>
      simp only [hpc] at hs
      obtain ⟨⟨v, m'⟩, hadd, rfl⟩ := Option.map_eq_some_iff.mp hs
      obtain ⟨hok, hgrow, hstores⟩ := fetchAdd_frame h.ok hadd
      exact ⟨_, l, h.goto hok hgrow hstores (by rw [hpc]; rfl) (by rw [hpc]; rfl) trivial
        (fun _ _ he => by cases he)⟩
  | idle | acqFailed | panicked => simp [hpc] at hs

/-- **The step lemma.** -/
theorem Inv.step {s' : State Tid} {a : Act Tid} (h : Inv s c l) (hfew : fewUpdates s a)
    (hs : IndexSetWeak.step s a = some s') : ∃ c' l', Inv s' c' l' := by
  cases a with
  | acquire t k =>
      simp only [IndexSetWeak.step, Option.ite_none_right_eq_some] at hs
      obtain ⟨⟨v, m'⟩, hload, rfl⟩ := Option.map_eq_some_iff.mp hs.2
      obtain ⟨hacq, hrel⟩ := IndexSetSteps.Pc.none_of_resting hs.1
      obtain ⟨c', h'⟩ := h.acquireRead hload hacq hrel
      exact ⟨c', l, h'⟩
  | release t i =>
      simp only [IndexSetWeak.step, Option.ite_none_right_eq_some, Option.some.injEq] at hs
      obtain ⟨⟨hrest, hi⟩, rfl⟩ := hs
      obtain ⟨c', h'⟩ := h.releaseCall hrest hi
      exact ⟨c', l, h'⟩
  | access t k fails => exact h.access hfew hs
  | use t i =>
      simp only [IndexSetWeak.step, Option.ite_none_right_eq_some, Option.some.injEq] at hs
      obtain ⟨⟨_, hi⟩, rfl⟩ := hs
      exact ⟨c, l, h.use hi⟩
  | pass t u i =>
      simp only [IndexSetWeak.step, Option.ite_none_right_eq_some, Option.some.injEq] at hs
      obtain ⟨⟨_, _, hi⟩, rfl⟩ := hs
      exact ⟨c, l, h.pass hi⟩

end Accesses

omit [DecidableEq Tid] in
theorem inv_init (capacity : Nat) (hpos : 0 < capacity) (hlt : capacity < SENTINEL.toNat) :
    Inv (init capacity : State Tid)
      (IndexSetSteps.init (UniqueIndexSet.new capacity hpos hlt))
      ((List.range capacity).map (BitVec.ofNat 32)) where
  ok := Memory.ok_init _
  core := IndexSetSteps.inv_init capacity hpos hlt
  pc := rfl
  held i := by simp [init, IndexSetSteps.init]
  capacity := rfl
  updates := rfl
  head := rfl
  next := by
    funext i
    show (Vector.ofFn _)[i.toNat]? = State.nextNow _ i
    unfold State.nextNow
    rw [Vector.getElem?_ofFn]
    show _ = if i.toNat < capacity then some (unword (if i.toNat + 1 < capacity then _ else _))
      else none
    by_cases hi : i.toNat < capacity
    · rw [dif_pos hi, if_pos hi]
      split
      next => simp [word, unword, BitVec.ofNat_add]
      next => simp [word, unword]
    · rw [dif_neg hi, if_neg hi]
  heads k store hk := by
    simp only [init, Memory.init, List.getElem?_singleton] at hk
    split at hk
    next hk0 =>
      obtain rfl := Option.some.inj hk
      subst hk0
      refine ⟨by decide, .inr ?_⟩
      show (extractHead (pack 0#32 0#32)).toNat < capacity
      rw [extractHead_pack]
      exact hpos
    next => exact absurd hk (by simp)
  seen t old ver h := absurd h (by simp [init])
  known i p hp := by
    cases p with
    | free =>
        intro store hstore
        obtain rfl := Option.some.inj hstore
        exact ⟨rfl, rfl⟩
    | _ => exact ⟨rfl, rfl⟩

/-- A step does not change the capacity. -/
theorem step_capacity {s s' : State Tid} {a : Act Tid} (hs : step s a = some s') :
    s'.capacity = s.capacity := by
  have hread : ∀ (m : Memory Loc U64 Tid) t v k,
      (s.acquireRead m t v k).capacity = s.capacity := by
    intro m t v k
    unfold State.acquireRead
    split <;> rfl
  cases a with
  | acquire t k =>
      simp only [step, Option.ite_none_right_eq_some] at hs
      obtain ⟨r, _, rfl⟩ := Option.map_eq_some_iff.mp hs.2
      exact hread _ _ _ _
  | release t i =>
      simp only [step, Option.ite_none_right_eq_some, Option.some.injEq] at hs
      rw [← hs.2]
      rfl
  | use t i =>
      simp only [step, Option.ite_none_right_eq_some, Option.some.injEq] at hs
      rw [← hs.2]
  | pass t u i =>
      simp only [step, Option.ite_none_right_eq_some, Option.some.injEq] at hs
      rw [← hs.2]
  | access t k fails =>
      simp only [step, access] at hs
      grind [State.goto, Option.map_eq_some_iff]

/-- **`UniqueIndexSet` works on release/acquire memory**, for every capacity, any number of
threads and every interleaving, however old the heads and the `next` words that are
loaded (within the tag's range).  Every index is in exactly one place; whoever has an
index knows of every access made to what it stands for, by whomever, before; and the
stores of one `next` never race. -/
theorem index_set_release_acquire (capacity : Nat) (hpos : 0 < capacity)
    (hlt : capacity < SENTINEL.toNat) (s : State Tid)
    (h : Reach step fewUpdates (init capacity) s) :
    (∃ head l, s.headNow = some head ∧ Linked s.nextNow SENTINEL (extractHead head) l
        ∧ (∀ i p, s.At l i p → i.toNat < capacity)
        ∧ ∀ i : U32, i.toNat < capacity → ∃! p, s.At l i p)
      ∧ (∀ t, s.pc t ≠ .panicked)
      ∧ (∀ i t, s.holder i = some t → s.mem.Latest t (.item i))
      ∧ ∀ i t, (s.pc t).releasing = some i → s.mem.Latest t (.next i) := by
  have hinv : s.capacity = capacity ∧ ∃ c l, Inv s c l := by
    refine h.invariant (fun s => s.capacity = capacity ∧ ∃ c l, Inv s c l) ?_ ?_
    · exact ⟨rfl, _, _, inv_init capacity hpos hlt⟩
    · rintro s a s' ⟨hcap, c, l, hinv⟩ hfew hs
      exact ⟨(step_capacity hs).trans hcap, hinv.step hfew hs⟩
  obtain ⟨hcap, c, l, hinv⟩ := hinv
  have hpart := hinv.partition
  rw [hcap] at hpart
  refine ⟨⟨c.set.head, l, hinv.head, ?_, hpart.inDom, fun i hi => hpart.existsUnique hi⟩,
    ?_, ?_, ?_⟩
  · rw [← hinv.next]
    exact hinv.core.free
  · intro t hp
    have hthread := hinv.core.threads t
    rw [hinv.pc, hp] at hthread
    exact hthread
  · exact fun i t hi => (hinv.known i (.held t) hi).2
  · exact fun i t hi => (hinv.known i (.releasing t) hi).1

/-- One thread uses an index and gives it back; the other, which sees the old head first,
gets the same index and uses it. -/
def staleRun : List (Act Bool) :=
  [.acquire true 0, .access true 0 false, .access true 0 false, .access true 0 false,
   .use true 0#32, .release true 0#32, .access true 1 false, .access true 0 false,
   .access true 0 false, .access true 0 false,
   .acquire false 0, .access false 0 false, .access false 2 true, .access false 1 false,
   .access false 0 false, .access false 0 false, .use false 0#32]

theorem index_set_release_acquire_stale :
    ∃ s : State Bool, Reach step fewUpdates (init 2) s ∧ s.holder 0#32 = some false
      ∧ (s.mem.stores (.item 0#32)).length = 3 ∧ s.mem.Latest false (.item 0#32)
      ∧ ∃ head l, s.headNow = some head ∧ Linked s.nextNow SENTINEL (extractHead head) l
        ∧ ∀ i : U32, i.toNat < 2 → ∃! p, s.At l i p := by
  have hrun : (execOk step fewUpdates (init 2 : State Bool) staleRun).map
      (fun s => (s.holder 0#32, (s.mem.stores (.item 0#32)).length)) = some (some false, 3) := by
    decide
  obtain ⟨s, hs, hf⟩ := Option.map_eq_some_iff.mp hrun
  obtain ⟨hholder, hlen⟩ := Prod.mk.inj hf
  have hreach := Reach.of_execOk staleRun .refl hs
  obtain ⟨⟨head, l, hhead, hlinked, _, hplaces⟩, _, hknown, _⟩ :=
    index_set_release_acquire 2 (by decide) (by decide) s hreach
  exact ⟨s, hreach, hholder, hlen, hknown _ _ hholder, head, l, hhead, hlinked, hplaces⟩

end Entangle.Lockfree.IndexSetWeak
