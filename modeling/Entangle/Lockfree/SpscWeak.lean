/-
  Entangle.Lockfree.SpscWeak — `push` and `pop` of `SpscQueue`
  (entangle-lockfree/src/spsc_queue.rs) with the orderings that the code gives to
  its accesses, on release/acquire memory.

  A load may be out of date here: the producer may see an old `read_pos`, the
  consumer an old `write_pos`.  The queue lies anywhere in a memory that its two
  threads use for other things as well (`Layout`), and what a `push` hands to the
  `pop` is not only the value but all that the producer knew of when it stored the
  value.  `ring` lists the stores into the slots, whatever slot they went to.

  Main results:
    * `Inv.frame` — accesses of other locations leave a queue alone;
    * `Inv.step` — every access keeps the invariant;
    * `spsc_release_acquire` — the queue is a bounded FIFO, and whoever takes a value
      out knows of all that was known when it was put in.
-/
import Entangle.Lib.Transition
import Entangle.Lib.WeakMemory
import Entangle.Lockfree.SpscSteps

namespace Entangle.Lockfree.SpscWeak

open Entangle.Lib Entangle.Lib.WeakMemory

/-! ## §1. The queue in memory. -/

/-- The words of a queue. -/
inductive QueueLoc where
  | writePos
  | readPos
  | slot (i : Nat)
  deriving Repr, DecidableEq

/-- Where a queue lies, and which threads use it. -/
structure Layout (L T : Type) where
  capacity : Nat
  loc : QueueLoc → L
  producer : T
  consumer : T
  capacity_pow : ∃ k, 1 ≤ k ∧ k ≤ 63 ∧ capacity = 2 ^ k
  loc_inj : Function.Injective loc

/-- How far the two calls are, and what has gone through the queue. -/
structure Flow (L : Type) where
  producer : PushPc
  consumer : PopPc
  -- the stores into the slots
  ring : List (Store L U64)
  -- values whose `push` returned true, in that order
  pushed : List U64
  -- values that `pop` returned, in that order
  popped : List U64

/-- The number of a load says which of the stores it returns. -/
inductive Act where
  | push (value : U64) (k : Nat)
  | producer (k : Nat)
  | pop (k : Nat)
  | consumer (k : Nat)
  deriving Repr, DecidableEq

def Flow.init (L : Type) : Flow L :=
  { producer := .idle, consumer := .idle, ring := [], pushed := [], popped := [] }

variable {L T : Type}

/-- `(pos as usize) & self.mask`. -/
def Layout.index (q : Layout L T) (pos : U64) : Nat :=
  (pos &&& BitVec.ofNat 64 (q.capacity - 1)).toNat

section Accesses

variable [DecidableEq L] [DecidableEq T]

/-- The next access of a `push`; the last component is what the call returns. -/
def pushAccess (q : Layout L T) (m : Memory L U64 T) (k : Nat) :
    PushPc → Option (Memory L U64 T × PushPc × Option Bool)
  | .idle => none
  | .loadedWrite v w =>
      (m.load .acquire q.producer (q.loc .readPos) k).map (fun r =>
        if (w - r.1).toNat ≥ q.capacity then (r.2, .idle, some false)
        else (r.2, .checked v w, none))
  | .checked v w =>
      some (m.store .release q.producer (q.loc (.slot (q.index w))) v, .stored v w, none)
  | .stored _ w =>
      some (m.store .release q.producer (q.loc .writePos) (w + 1), .idle, some true)

/-- The next access of a `pop`; the last component is what the call returns. -/
def popAccess (q : Layout L T) (m : Memory L U64 T) (k : Nat) :
    PopPc → Option (Memory L U64 T × PopPc × Option (Option U64))
  | .idle => none
  | .loadedRead r =>
      (m.load .acquire q.consumer (q.loc .writePos) k).map (fun w =>
        if r = w.1 then (w.2, .idle, some none) else (w.2, .checked r, none))
  | .checked r =>
      (m.load .acquire q.consumer (q.loc (.slot (q.index r))) k).map (fun v =>
        (v.2, .loadedValue r v.1, none))
  | .loadedValue r v =>
      some (m.store .release q.consumer (q.loc .readPos) (r + 1), .idle, some (some v))

/-- The store into a slot that the next access of a `push` makes. -/
def made (q : Layout L T) (m : Memory L U64 T) : PushPc → List (Store L U64)
  | .checked v w =>
      let l := q.loc (.slot (q.index w))
      [⟨v, kept .release (m.view q.producer) l (m.stores l).length⟩]
  | _ => []

/-- One access of one of the two calls. -/
def step (q : Layout L T) (m : Memory L U64 T) (f : Flow L) :
    Act → Option (Memory L U64 T × Flow L)
  | .push v k =>
      if f.producer = .idle then
        (m.load .relaxed q.producer (q.loc .writePos) k).map (fun w =>
          (w.2, { f with producer := .loadedWrite v w.1 }))
      else none
  | .producer k =>
      (pushAccess q m k f.producer).map (fun r =>
        (r.1, { f with
          producer := r.2.1
          ring := f.ring ++ made q m f.producer
          pushed := if r.2.2 = some true then f.pushed ++ f.producer.value.toList else f.pushed }))
  | .pop k =>
      if f.consumer = .idle then
        (m.load .relaxed q.consumer (q.loc .readPos) k).map (fun r =>
          (r.2, { f with consumer := .loadedRead r.1 }))
      else none
  | .consumer k =>
      (popAccess q m k f.consumer).map (fun r =>
        (r.1, { f with
          consumer := r.2.1
          popped := f.popped ++ (r.2.2.bind id).toList }))

end Accesses

/-! ## §2. The invariant. -/

/-- A value in a slot that is not published yet. -/
def PushPc.pending : PushPc → List U64
  | .stored v _ => [v]
  | _ => []

/-- What the producer knows: its position is the number of values pushed, and there is
room after the last `read_pos` that it has seen. -/
def ProducerOk (q : Layout L T) (m : Memory L U64 T) (pushed : Nat) : PushPc → Prop
  | .idle => True
  | .loadedWrite _ w => w = BitVec.ofNat 64 pushed
  | .checked _ w | .stored _ w =>
      w = BitVec.ofNat 64 pushed ∧ pushed < m.view q.producer (q.loc .readPos) + q.capacity

/-- What the consumer knows: that the next value has been published, in which slot store
it is, and what came with it. -/
def ConsumerOk (q : Layout L T) (m : Memory L U64 T) (ring : List (Store L U64))
    (popped : Nat) : PopPc → Prop
  | .idle => True
  | .loadedRead r => r = BitVec.ofNat 64 popped
  | .checked r =>
      r = BitVec.ofNat 64 popped ∧ popped < m.view q.consumer (q.loc .writePos)
        ∧ popped / q.capacity + 1 ≤ m.view q.consumer (q.loc (.slot (popped % q.capacity)))
  | .loadedValue r v =>
      r = BitVec.ofNat 64 popped ∧ popped < m.view q.consumer (q.loc .writePos)
        ∧ ∃ store, ring[popped]? = some store ∧ store.value = v
            ∧ store.view ≤ m.view q.consumer

/-- **The invariant.**  The stores of a slot are the rounds of the ring, one in `capacity`
of what has been stored in all; those of the two positions count up by one.  Of these
the producer has to know its own and enough reads to have room, the consumer its own and
the writes it takes from; a `writePos` passes on the slots before it, so whoever has
seen it may read them.  What has come out is the beginning of what has gone in. -/
structure Inv (q : Layout L T) (m : Memory L U64 T) (f : Flow L) : Prop where
  ok : m.Ok
  -- store number `k + 1` of a slot is the one of position `k * capacity + j`
  slots : ∀ j k, j < q.capacity →
    (m.stores (q.loc (.slot j)))[k + 1]? = f.ring[k * q.capacity + j]?
  writeLength : (m.stores (q.loc .writePos)).length = f.pushed.length + 1
  writeStore : ∀ k store, (m.stores (q.loc .writePos))[k]? = some store →
    store.value = BitVec.ofNat 64 k
      ∧ ∀ i, i < k → i / q.capacity + 1 ≤ store.view (q.loc (.slot (i % q.capacity)))
  readLength : (m.stores (q.loc .readPos)).length = f.popped.length + 1
  readStore : ∀ k store, (m.stores (q.loc .readPos))[k]? = some store →
    store.value = BitVec.ofNat 64 k
  -- what the producer knows of
  ownWrite : f.pushed.length ≤ m.view q.producer (q.loc .writePos)
  ownSlots : ∀ i, i < f.ring.length →
    i / q.capacity + 1 ≤ m.view q.producer (q.loc (.slot (i % q.capacity)))
  room : f.pushed.length ≤ m.view q.producer (q.loc .readPos) + q.capacity
  -- what the consumer knows of
  ownRead : f.popped.length ≤ m.view q.consumer (q.loc .readPos)
  seen : f.popped.length ≤ m.view q.consumer (q.loc .writePos)
  learnt : ∀ i store, i < f.popped.length → f.ring[i]? = some store →
    store.view ≤ m.view q.consumer
  -- what has gone through
  values : f.ring.map Store.value = f.pushed ++ PushPc.pending f.producer
  fifo : f.popped = f.pushed.take f.popped.length
  producer : ProducerOk q m f.pushed.length f.producer
  consumer : ConsumerOk q m f.ring f.popped.length f.consumer

/-! ## §3. Positions. -/

theorem Layout.capacity_pos (q : Layout L T) : 0 < q.capacity := by
  obtain ⟨k, _, _, hcap⟩ := q.capacity_pow
  rw [hcap]
  exact Nat.two_pow_pos k

theorem Layout.capacity_le (q : Layout L T) : q.capacity ≤ 2 ^ 63 := by
  obtain ⟨k, _, hk, hcap⟩ := q.capacity_pow
  rw [hcap]
  exact Nat.pow_le_pow_right (by omega) hk

/-- The slot of an unbounded position is its remainder. -/
theorem Layout.index_ofNat (q : Layout L T) (i : Nat) :
    q.index (BitVec.ofNat 64 i) = i % q.capacity := by
  obtain ⟨k, _, hk, hcap⟩ := q.capacity_pow
  show (BitVec.ofNat 64 i &&& BitVec.ofNat 64 (q.capacity - 1)).toNat = _
  rw [hcap]
  exact and_mask 64 k i (by omega)

theorem Layout.loc_ne (q : Layout L T) {x y : QueueLoc} (h : x ≠ y) : q.loc x ≠ q.loc y :=
  fun heq => h (q.loc_inj heq)

/-- The store number of a position in its slot, and back. -/
theorem div_mul_add_mod (i c : Nat) : i / c * c + i % c = i := Nat.div_add_mod' i c

/-- A position is determined by its slot and its store number there. -/
theorem round_eq {c i j k : Nat} (hj : j < c) (h : k * c + j = i) : k = i / c ∧ j = i % c := by
  subst h
  constructor
  · rw [Nat.mul_comm, Nat.mul_add_div (Nat.zero_lt_of_lt hj), Nat.div_eq_of_lt hj, Nat.add_zero]
  · rw [Nat.mul_comm, Nat.mul_add_mod, Nat.mod_eq_of_lt hj]

/-- Less than one round ahead is the same round. -/
theorem round_unique {c r k : Nat} (hge : r / c ≤ k) (hlt : k * c + r % c < r + c) : k = r / c := by
  have hr := div_mul_add_mod r c
  have hmul : k * c < (r / c + 1) * c := by
    rw [Nat.add_mul, Nat.one_mul]
    omega
  have hle := Nat.lt_of_mul_lt_mul_right hmul
  omega

/-- A new entry changes no other position of a list. -/
theorem getElem?_concat_ne {α : Type} {l : List α} {x : α} {i : Nat} (h : i ≠ l.length) :
    (l ++ [x])[i]? = l[i]? := by
  by_cases hi : i < l.length
  · rw [List.getElem?_append_left hi]
  · rw [List.getElem?_eq_none (by rw [List.length_append, List.length_singleton]; omega),
      List.getElem?_eq_none (by omega)]

variable {q : Layout L T} {m m' : Memory L U64 T} {f : Flow L}

/-! ## §4. What the invariant says of one state. -/

theorem Inv.popped_le (h : Inv q m f) : f.popped.length ≤ f.pushed.length := by
  have hlen := congrArg List.length h.fifo
  rw [List.length_take] at hlen
  omega

theorem Inv.readPos_le (h : Inv q m f) (t : T) : m.view t (q.loc .readPos) ≤ f.popped.length := by
  have hlt := h.ok.view t (q.loc .readPos)
  rw [h.readLength] at hlt
  omega

theorem Inv.writePos_le (h : Inv q m f) (t : T) :
    m.view t (q.loc .writePos) ≤ f.pushed.length := by
  have hlt := h.ok.view t (q.loc .writePos)
  rw [h.writeLength] at hlt
  omega

/-- The queue never holds more than its capacity. -/
theorem Inv.bound (h : Inv q m f) : f.pushed.length ≤ f.popped.length + q.capacity := by
  have hroom := h.room
  have hread := h.readPos_le q.producer
  omega

theorem Inv.ring_length (h : Inv q m f) :
    f.ring.length = f.pushed.length + (PushPc.pending f.producer).length := by
  have hlen := congrArg List.length h.values
  rwa [List.length_map, List.length_append] at hlen

/-- A published value is that of its slot store. -/
theorem Inv.pushed_get (h : Inv q m f) {i : Nat} {store : Store L U64}
    (hi : i < f.pushed.length) (hstore : f.ring[i]? = some store) :
    f.pushed[i]? = some store.value := by
  have hval : (f.ring.map Store.value)[i]? = some store.value := by
    rw [List.getElem?_map, hstore]
    rfl
  rw [h.values, List.getElem?_append_left hi] at hval
  exact hval

/-- How often a slot has been stored to before position `n` gets there. -/
theorem Inv.slot_length (h : Inv q m f) :
    (m.stores (q.loc (.slot (f.ring.length % q.capacity)))).length
      = f.ring.length / q.capacity + 1 := by
  have hj := Nat.mod_lt f.ring.length q.capacity_pos
  have hround := div_mul_add_mod f.ring.length q.capacity
  -- the round of the next position is not there yet ...
  have hhigh := h.slots _ (f.ring.length / q.capacity) hj
  rw [hround, List.getElem?_eq_none (Nat.le_refl _), List.getElem?_eq_none_iff] at hhigh
  -- ... but the round before it is
  have hlow := h.ok.view q.producer (q.loc (.slot (f.ring.length % q.capacity)))
  cases hdiv : f.ring.length / q.capacity with
  | zero =>
      rw [hdiv] at hhigh
      omega
  | succ k =>
      have hbefore := h.slots _ k hj
      rw [hdiv, Nat.add_mul, Nat.one_mul] at hround
      have hlt : k * q.capacity + f.ring.length % q.capacity < f.ring.length := by
        have := q.capacity_pos
        omega
      rw [List.getElem?_eq_getElem hlt, List.getElem?_eq_some_iff] at hbefore
      obtain ⟨hk, _⟩ := hbefore
      rw [hdiv] at hhigh
      omega

/-! ## §5. Accesses of other locations. -/

theorem ProducerOk.grow {n : Nat} {pc : PushPc} (hgrow : m.Grows m') (h : ProducerOk q m n pc) :
    ProducerOk q m' n pc := by
  have hview := hgrow.view_le q.producer (q.loc .readPos)
  cases pc with
  | idle => trivial
  | loadedWrite v w => exact h
  | checked v w =>
      obtain ⟨hw, hroom⟩ := h
      exact ⟨hw, by omega⟩
  | stored v w =>
      obtain ⟨hw, hroom⟩ := h
      exact ⟨hw, by omega⟩

theorem ConsumerOk.grow {ring : List (Store L U64)} {n : Nat} {pc : PopPc}
    (hgrow : m.Grows m') (h : ConsumerOk q m ring n pc) : ConsumerOk q m' ring n pc := by
  have hview := hgrow.view q.consumer
  cases pc with
  | idle => trivial
  | loadedRead r => exact h
  | checked r =>
      obtain ⟨hr, hwrite, hslot⟩ := h
      exact ⟨hr, hwrite.trans_le (hview _), hslot.trans (hview _)⟩
  | loadedValue r v =>
      obtain ⟨hr, hwrite, store, hstore, hv, hle⟩ := h
      exact ⟨hr, hwrite.trans_le (hview _), store, hstore, hv, hle.trans hview⟩

/-- **Accesses of other locations leave the queue alone**, whatever they teach its
threads. -/
theorem Inv.frame (h : Inv q m f) (hok : m'.Ok) (hgrow : m.Grows m')
    (hsame : ∀ x, m'.stores (q.loc x) = m.stores (q.loc x)) : Inv q m' f where
  ok := hok
  slots j k hj := by
    rw [hsame]
    exact h.slots j k hj
  writeLength := by
    rw [hsame]
    exact h.writeLength
  writeStore := by
    rw [hsame]
    exact h.writeStore
  readLength := by
    rw [hsame]
    exact h.readLength
  readStore := by
    rw [hsame]
    exact h.readStore
  ownWrite := h.ownWrite.trans (hgrow.view _ _)
  ownSlots i hi := (h.ownSlots i hi).trans (hgrow.view _ _)
  room := by
    have hview := hgrow.view_le q.producer (q.loc .readPos)
    have hroom := h.room
    omega
  ownRead := h.ownRead.trans (hgrow.view _ _)
  seen := h.seen.trans (hgrow.view _ _)
  learnt i store hi hstore := (h.learnt i store hi hstore).trans (hgrow.view _)
  values := h.values
  fifo := h.fifo
  producer := h.producer.grow hgrow
  consumer := h.consumer.grow hgrow

/-- A new queue, in a memory in which nothing has been done. -/
theorem inv_init (q : Layout L T) (value : L → U64) (hvalue : ∀ x, value (q.loc x) = 0#64) :
    Inv q (Memory.init value) (Flow.init L) where
  ok := Memory.ok_init value
  slots j k _ := by simp [Memory.init, Flow.init]
  writeLength := rfl
  writeStore k store hk := by
    simp only [Memory.init, List.getElem?_singleton, Option.ite_none_right_eq_some,
      Option.some.injEq] at hk
    obtain ⟨rfl, rfl⟩ := hk
    exact ⟨hvalue _, fun i hi => absurd hi (Nat.not_lt_zero i)⟩
  readLength := rfl
  readStore k store hk := by
    simp only [Memory.init, List.getElem?_singleton, Option.ite_none_right_eq_some,
      Option.some.injEq] at hk
    obtain ⟨rfl, rfl⟩ := hk
    exact hvalue _
  ownWrite := Nat.le_refl _
  ownSlots i hi := absurd hi (Nat.not_lt_zero i)
  room := Nat.zero_le _
  ownRead := Nat.le_refl _
  seen := Nat.le_refl _
  learnt i store hi := absurd hi (Nat.not_lt_zero i)
  values := rfl
  fifo := rfl
  producer := trivial
  consumer := trivial

/-- The producer is somewhere else in its call. -/
theorem Inv.setProducer (h : Inv q m f) {pc : PushPc}
    (hpending : PushPc.pending pc = PushPc.pending f.producer)
    (hpc : ProducerOk q m f.pushed.length pc) : Inv q m { f with producer := pc } :=
  { h with
    values := by
      rw [hpending]
      exact h.values
    producer := hpc }

/-- The consumer is somewhere else in its call. -/
theorem Inv.setConsumer (h : Inv q m f) {pc : PopPc}
    (hpc : ConsumerOk q m f.ring f.popped.length pc) : Inv q m { f with consumer := pc } :=
  { h with consumer := hpc }

variable [DecidableEq L] [DecidableEq T]

/-- A load of anything leaves the queue as it is. -/
theorem Inv.load (h : Inv q m f) {ord : WeakMemory.Ordering} {t : T} {l : L} {k : Nat} {v : U64}
    (hload : m.load ord t l k = some (v, m')) : Inv q m' f :=
  h.frame (h.ok.load hload) (Memory.load_grows hload)
    (fun x => congrFun (Memory.load_stores hload) (q.loc x))

/-- A store outside the queue leaves it as it is. -/
theorem Inv.storeElsewhere (h : Inv q m f) (ord : WeakMemory.Ordering) (t : T) {l : L} (v : U64)
    (hl : ∀ x, q.loc x ≠ l) : Inv q (m.store ord t l v) f :=
  h.frame h.ok.store (Memory.store_grows h.ok)
    (fun x => Memory.store_stores_ne m ord t v (hl x))

/-! ## §6. The accesses of `push`. -/

/-- The producer loads its own position: there is nothing newer than what it has
stored itself. -/
theorem Inv.loadOwnWrite (h : Inv q m f) {k : Nat} {w : U64} (hidle : f.producer = .idle)
    (hload : m.load .relaxed q.producer (q.loc .writePos) k = some (w, m')) (v : U64) :
    Inv q m' { f with producer := .loadedWrite v w } := by
  obtain ⟨store, hstore, hle, rfl, _⟩ := Memory.load_cases hload
  have hlen := (List.getElem?_eq_some_iff.mp hstore).1
  have hown := h.ownWrite
  rw [h.writeLength] at hlen
  obtain rfl : k = f.pushed.length := by omega
  refine (h.load hload).setProducer (by rw [hidle]; rfl) ?_
  exact (h.writeStore _ _ hstore).1

/-- The producer loads `read_pos`, which may be out of date, and goes on if there is
room even so. -/
theorem Inv.loadReadPos (h : Inv q m f) {k : Nat} {v w r : U64}
    (hpc : f.producer = .loadedWrite v w)
    (hload : m.load .acquire q.producer (q.loc .readPos) k = some (r, m')) :
    Inv q m' { f with
      producer := if (w - r).toNat ≥ q.capacity then .idle else .checked v w } := by
  obtain ⟨store, hstore, hle, rfl, _⟩ := Memory.load_cases hload
  have hseen := Memory.load_view hload
  have hlen := (List.getElem?_eq_some_iff.mp hstore).1
  rw [h.readLength] at hlen
  have hw := h.producer
  rw [hpc] at hw
  obtain rfl : w = BitVec.ofNat 64 f.pushed.length := hw
  have hpending : PushPc.pending f.producer = [] := by rw [hpc]; rfl
  refine (h.load hload).setProducer ?_ ?_
  · rw [hpending]
    split <;> rfl
  · split
    next => trivial
    next hroom =>
      -- the distance to an old position is not less than the real one
      have hold := h.room
      have hpopped := h.popped_le
      have hcap := q.capacity_le
      rw [h.readStore _ _ hstore, ofNat_sub_toNat 64 k _ (by omega) (by omega)] at hroom
      refine ⟨rfl, ?_⟩
      show f.pushed.length < m'.view q.producer (q.loc .readPos) + q.capacity
      omega

/-- The producer stores the value into its slot. -/
theorem Inv.storeSlot (h : Inv q m f) {v w : U64} (hpc : f.producer = .checked v w) :
    Inv q (m.store .release q.producer (q.loc (.slot (q.index w))) v)
      { f with producer := .stored v w, ring := f.ring ++ made q m f.producer } := by
  have hp := h.producer
  rw [hpc] at hp
  obtain ⟨rfl, hroom⟩ := hp
  have hring : f.ring.length = f.pushed.length := by
    rw [h.ring_length, hpc]
    rfl
  have hvalues := h.values
  rw [hpc] at hvalues
  have hslot := h.slot_length
  rw [hring] at hslot
  have hgrow : m.Grows (m.store .release q.producer
      (q.loc (.slot (q.index (BitVec.ofNat 64 f.pushed.length)))) v) := Memory.store_grows h.ok
  rw [hpc]
  simp only [made]
  rw [q.index_ofNat] at hgrow ⊢
  have hother : ∀ x, x ≠ .slot (f.pushed.length % q.capacity) →
      (m.store .release q.producer (q.loc (.slot (f.pushed.length % q.capacity))) v).stores
          (q.loc x) = m.stores (q.loc x) :=
    fun x hx => Memory.store_stores_ne m _ _ v (q.loc_ne hx)
  exact
    { ok := h.ok.store
      slots := by
        intro j k hj
        by_cases hjn : j = f.pushed.length % q.capacity
        · -- the slot of the new position gets one store more, for that position
          subst hjn
          rw [Memory.store_stores_self]
          by_cases hk : k = f.pushed.length / q.capacity
          · subst hk
            rw [div_mul_add_mod, ← hslot, List.getElem?_concat_length, ← hring,
              List.getElem?_concat_length]
          · have hne : k * q.capacity + f.pushed.length % q.capacity ≠ f.ring.length := by
              intro heq
              rw [hring] at heq
              exact hk (round_eq hj heq).1
            rw [getElem?_concat_ne (by rw [hslot]; omega), getElem?_concat_ne hne]
            exact h.slots _ k hj
        · have hne : k * q.capacity + j ≠ f.ring.length := by
            intro heq
            rw [hring] at heq
            exact hjn (round_eq hj heq).2
          rw [hother _ (by simpa using hjn), getElem?_concat_ne hne]
          exact h.slots j k hj
      writeLength := by
        rw [hother _ (by simp)]
        exact h.writeLength
      writeStore := by
        rw [hother _ (by simp)]
        exact h.writeStore
      readLength := by
        rw [hother _ (by simp)]
        exact h.readLength
      readStore := by
        rw [hother _ (by simp)]
        exact h.readStore
      ownWrite := h.ownWrite.trans (hgrow.view_le _ _)
      ownSlots := by
        intro i hi
        rw [List.length_append, List.length_singleton] at hi
        by_cases hlast : i = f.pushed.length
        · subst hlast
          rw [Memory.store_view_self, see_self, hslot]
        · exact (h.ownSlots i (by omega)).trans (hgrow.view_le _ _)
      room := by
        have hview := hgrow.view_le q.producer (q.loc .readPos)
        have hold := h.room
        show f.pushed.length ≤ _
        omega
      ownRead := h.ownRead.trans (hgrow.view_le _ _)
      seen := h.seen.trans (hgrow.view_le _ _)
      learnt := by
        intro i store hi hstore
        have hpopped := h.popped_le
        have hi' : i < f.popped.length := hi
        rw [getElem?_concat_ne (by omega)] at hstore
        exact (h.learnt i store hi hstore).trans (hgrow.view _)
      values := by
        show (f.ring ++ [_]).map Store.value = f.pushed ++ [v]
        rw [List.map_append, hvalues]
        simp [PushPc.pending]
      fifo := h.fifo
      producer := by
        have hstored : ProducerOk q m f.pushed.length (.stored v (BitVec.ofNat 64 _)) :=
          ⟨rfl, hroom⟩
        exact hstored.grow hgrow
      consumer := by
        have hc := h.consumer.grow hgrow
        show ConsumerOk q _ _ f.popped.length f.consumer
        generalize f.consumer = pc at hc
        cases pc with
        | loadedValue r v =>
            obtain ⟨hr, hwrite, store, hstore, hv, hle⟩ := hc
            exact ⟨hr, hwrite, store, append_of_some _ hstore, hv, hle⟩
        | _ => exact hc }

/-- The producer stores `write_pos`: the value is published, and with the position
goes what the producer knows of the slots. -/
theorem Inv.publish (h : Inv q m f) {v w : U64} (hpc : f.producer = .stored v w) :
    Inv q (m.store .release q.producer (q.loc .writePos) (w + 1))
      { f with producer := .idle, pushed := f.pushed ++ [v] } := by
  have hp := h.producer
  rw [hpc] at hp
  obtain ⟨rfl, hroom⟩ := hp
  have hring := h.ring_length
  have hvalues := h.values
  rw [hpc] at hring hvalues
  simp only [PushPc.pending, List.length_singleton] at hring
  have hgrow : m.Grows (m.store .release q.producer (q.loc .writePos)
      (BitVec.ofNat 64 f.pushed.length + 1)) := Memory.store_grows h.ok
  have hlen : (f.pushed ++ [v]).length = f.pushed.length + 1 := by simp
  have hother : ∀ x, x ≠ .writePos →
      (m.store .release q.producer (q.loc .writePos)
        (BitVec.ofNat 64 f.pushed.length + 1)).stores (q.loc x) = m.stores (q.loc x) :=
    fun x hx => Memory.store_stores_ne m _ _ _ (q.loc_ne hx)
  exact
    { ok := h.ok.store
      slots := by
        intro j k hj
        rw [hother _ (by simp)]
        exact h.slots j k hj
      writeLength := by
        rw [Memory.store_stores_self, List.length_append, h.writeLength, hlen]
        rfl
      writeStore := by
        intro k store hk
        rw [Memory.store_stores_self] at hk
        rcases concat_cases hk with hold | ⟨rfl, rfl⟩
        · exact h.writeStore k store hold
        · rw [h.writeLength]
          refine ⟨(ofNat_succ 64 _).symm, fun i hi => ?_⟩
          show _ ≤ see (m.view q.producer) (q.loc .writePos) _ _
          rw [see_of_ne (q.loc_ne (by simp))]
          exact h.ownSlots i (by omega)
      readLength := by
        rw [hother _ (by simp)]
        exact h.readLength
      readStore := by
        rw [hother _ (by simp)]
        exact h.readStore
      ownWrite := by
        rw [Memory.store_view_self, see_self, h.writeLength, hlen]
      ownSlots i hi := (h.ownSlots i hi).trans (hgrow.view_le _ _)
      room := by
        have hview := hgrow.view_le q.producer (q.loc .readPos)
        show (f.pushed ++ [v]).length ≤ _
        omega
      ownRead := h.ownRead.trans (hgrow.view_le _ _)
      seen := h.seen.trans (hgrow.view_le _ _)
      learnt i store hi hstore := (h.learnt i store hi hstore).trans (hgrow.view _)
      values := by
        rw [hvalues]
        simp [PushPc.pending]
      fifo := take_append_of_fifo v h.fifo h.popped_le
      producer := trivial
      consumer := h.consumer.grow hgrow }

/-! ## §7. The accesses of `pop`. -/

/-- The consumer loads its own position. -/
theorem Inv.loadOwnRead (h : Inv q m f) {k : Nat} {r : U64}
    (hload : m.load .relaxed q.consumer (q.loc .readPos) k = some (r, m')) :
    Inv q m' { f with consumer := .loadedRead r } := by
  obtain ⟨store, hstore, hle, rfl, _⟩ := Memory.load_cases hload
  have hlen := (List.getElem?_eq_some_iff.mp hstore).1
  have hown := h.ownRead
  rw [h.readLength] at hlen
  obtain rfl : k = f.popped.length := by omega
  exact (h.load hload).setConsumer (h.readStore _ _ hstore)

/-- The consumer loads `write_pos`, which may be out of date.  If even so there is
something, the position comes with the store into the slot. -/
theorem Inv.loadWritePos (h : Inv q m f) {k : Nat} {r w : U64}
    (hpc : f.consumer = .loadedRead r)
    (hload : m.load .acquire q.consumer (q.loc .writePos) k = some (w, m')) :
    Inv q m' { f with consumer := if r = w then .idle else .checked r } := by
  obtain ⟨store, hstore, hle, rfl, _⟩ := Memory.load_cases hload
  have hseen := Memory.load_view hload
  have hlearnt := Memory.load_acquires hload hstore
  have hlen := (List.getElem?_eq_some_iff.mp hstore).1
  rw [h.writeLength] at hlen
  have hr := h.consumer
  rw [hpc] at hr
  obtain rfl : r = BitVec.ofNat 64 f.popped.length := hr
  obtain ⟨hvalue, hslots⟩ := h.writeStore _ _ hstore
  refine (h.load hload).setConsumer ?_
  split
  next => trivial
  next hne =>
    have hold := h.seen
    have hk : f.popped.length < k := by
      by_contra hk
      obtain rfl : k = f.popped.length := by omega
      exact hne hvalue.symm
    refine ⟨rfl, ?_, (hslots _ hk).trans (hlearnt _)⟩
    show f.popped.length < m'.view q.consumer (q.loc .writePos)
    omega

/-- The consumer loads the slot: the only store there that is not too old is the one it
is after. -/
theorem Inv.loadSlot (h : Inv q m f) {k : Nat} {r v : U64} (hpc : f.consumer = .checked r)
    (hload : m.load .acquire q.consumer (q.loc (.slot (q.index r))) k = some (v, m')) :
    Inv q m' { f with consumer := .loadedValue r v } := by
  have hc := h.consumer
  rw [hpc] at hc
  obtain ⟨rfl, hwrite, hslot⟩ := hc
  rw [q.index_ofNat] at hload
  obtain ⟨store, hstore, hle, rfl, _⟩ := Memory.load_cases hload
  have hlearnt := Memory.load_acquires hload hstore
  have hview := (Memory.load_grows hload).view_le q.consumer (q.loc .writePos)
  have hpushed := h.writePos_le q.consumer
  have hpos : 0 < k := (Nat.succ_pos _).trans_le (hslot.trans hle)
  obtain ⟨round, rfl⟩ : ∃ round, k = round + 1 := ⟨k - 1, by omega⟩
  have hj := Nat.mod_lt f.popped.length q.capacity_pos
  rw [h.slots _ round hj] at hstore
  have hround : round = f.popped.length / q.capacity := by
    refine round_unique (by omega) ?_
    -- nothing is stored a whole round ahead
    have hlt := (List.getElem?_eq_some_iff.mp hstore).1
    have hring := h.ring_length
    have hroom := h.producer
    have hread := h.readPos_le q.producer
    have hbound := h.bound
    generalize f.producer = pc at hring hroom
    cases pc with
    | stored v w =>
        obtain ⟨_, hroom⟩ := hroom
        simp only [PushPc.pending, List.length_singleton] at hring
        omega
    | _ =>
        simp only [PushPc.pending, List.length_nil] at hring
        omega
  rw [hround, div_mul_add_mod] at hstore
  exact (h.load hload).setConsumer ⟨rfl, by omega, store, hstore, rfl, hlearnt⟩

/-- The consumer stores `read_pos`: the value is taken. -/
theorem Inv.consume (h : Inv q m f) {r v : U64} (hpc : f.consumer = .loadedValue r v) :
    Inv q (m.store .release q.consumer (q.loc .readPos) (r + 1))
      { f with consumer := .idle, popped := f.popped ++ [v] } := by
  have hc := h.consumer
  rw [hpc] at hc
  obtain ⟨rfl, hwrite, store, hstore, rfl, hview⟩ := hc
  have hgrow : m.Grows (m.store .release q.consumer (q.loc .readPos)
      (BitVec.ofNat 64 f.popped.length + 1)) := Memory.store_grows h.ok
  have hlen : (f.popped ++ [store.value]).length = f.popped.length + 1 := by simp
  have hpushed := h.writePos_le q.consumer
  have hvalue := h.pushed_get (by omega) hstore
  have hother : ∀ x, x ≠ .readPos →
      (m.store .release q.consumer (q.loc .readPos)
        (BitVec.ofNat 64 f.popped.length + 1)).stores (q.loc x) = m.stores (q.loc x) :=
    fun x hx => Memory.store_stores_ne m _ _ _ (q.loc_ne hx)
  exact
    { ok := h.ok.store
      slots := by
        intro j k hj
        rw [hother _ (by simp)]
        exact h.slots j k hj
      writeLength := by
        rw [hother _ (by simp)]
        exact h.writeLength
      writeStore := by
        rw [hother _ (by simp)]
        exact h.writeStore
      readLength := by
        rw [Memory.store_stores_self, List.length_append, h.readLength, hlen]
        rfl
      readStore := by
        intro k st hk
        rw [Memory.store_stores_self] at hk
        rcases concat_cases hk with hold | ⟨rfl, rfl⟩
        · exact h.readStore k st hold
        · rw [h.readLength]
          exact (ofNat_succ 64 _).symm
      ownWrite := h.ownWrite.trans (hgrow.view_le _ _)
      ownSlots i hi := (h.ownSlots i hi).trans (hgrow.view_le _ _)
      room := by
        have hmono := hgrow.view_le q.producer (q.loc .readPos)
        have hold := h.room
        show f.pushed.length ≤ _
        omega
      ownRead := by
        rw [Memory.store_view_self, see_self, h.readLength, hlen]
      seen := by
        have hmono := hgrow.view_le q.consumer (q.loc .writePos)
        rw [hlen]
        omega
      learnt := by
        intro i st hi hst
        rw [hlen] at hi
        by_cases hlast : i = f.popped.length
        · subst hlast
          have hst' : f.ring[f.popped.length]? = some st := hst
          rw [hstore] at hst'
          obtain rfl := Option.some.inj hst'
          exact hview.trans (hgrow.view _)
        · exact (h.learnt i st (by omega) hst).trans (hgrow.view _)
      values := h.values
      fifo := take_succ_of_fifo h.fifo hvalue
      producer := h.producer.grow hgrow
      consumer := trivial }

/-! ## §8. Every access, and every run. -/

/-- What one access of a `push` can be. -/
theorem pushAccess_cases {k : Nat} {pc pc' : PushPc} {result : Option Bool}
    (ha : pushAccess q m k pc = some (m', pc', result)) :
    (∃ v w r, pc = .loadedWrite v w ∧ m.load .acquire q.producer (q.loc .readPos) k = some (r, m')
        ∧ pc' = (if (w - r).toNat ≥ q.capacity then .idle else .checked v w)
        ∧ result ≠ some true)
      ∨ (∃ v w, pc = .checked v w
        ∧ m' = m.store .release q.producer (q.loc (.slot (q.index w))) v
        ∧ pc' = .stored v w ∧ result = none)
      ∨ (∃ v w, pc = .stored v w
        ∧ m' = m.store .release q.producer (q.loc .writePos) (w + 1)
        ∧ pc' = .idle ∧ result = some true) := by
  cases pc with
  | idle => simp [pushAccess] at ha
  | loadedWrite v w =>
      simp only [pushAccess] at ha
      obtain ⟨⟨r, m₁⟩, hload, heq⟩ := Option.map_eq_some_iff.mp ha
      left
      split at heq
      next hfull =>
        simp only [Prod.mk.injEq] at heq
        obtain ⟨rfl, rfl, rfl⟩ := heq
        exact ⟨v, w, r, rfl, hload, (if_pos hfull).symm, by simp⟩
      next hroom =>
        simp only [Prod.mk.injEq] at heq
        obtain ⟨rfl, rfl, rfl⟩ := heq
        exact ⟨v, w, r, rfl, hload, (if_neg hroom).symm, by simp⟩
  | checked v w =>
      simp only [pushAccess, Option.some.injEq, Prod.mk.injEq] at ha
      obtain ⟨rfl, rfl, rfl⟩ := ha
      exact .inr (.inl ⟨v, w, rfl, rfl, rfl, rfl⟩)
  | stored v w =>
      simp only [pushAccess, Option.some.injEq, Prod.mk.injEq] at ha
      obtain ⟨rfl, rfl, rfl⟩ := ha
      exact .inr (.inr ⟨v, w, rfl, rfl, rfl, rfl⟩)

/-- What one access of a `pop` can be. -/
theorem popAccess_cases {k : Nat} {pc pc' : PopPc} {result : Option (Option U64)}
    (ha : popAccess q m k pc = some (m', pc', result)) :
    (∃ r w, pc = .loadedRead r ∧ m.load .acquire q.consumer (q.loc .writePos) k = some (w, m')
        ∧ pc' = (if r = w then .idle else .checked r) ∧ result.bind id = none)
      ∨ (∃ r v, pc = .checked r
        ∧ m.load .acquire q.consumer (q.loc (.slot (q.index r))) k = some (v, m')
        ∧ pc' = .loadedValue r v ∧ result = none)
      ∨ (∃ r v, pc = .loadedValue r v
        ∧ m' = m.store .release q.consumer (q.loc .readPos) (r + 1)
        ∧ pc' = .idle ∧ result = some (some v)) := by
  cases pc with
  | idle => simp [popAccess] at ha
  | loadedRead r =>
      simp only [popAccess] at ha
      obtain ⟨⟨w, m₁⟩, hload, heq⟩ := Option.map_eq_some_iff.mp ha
      left
      split at heq
      next hempty =>
        simp only [Prod.mk.injEq] at heq
        obtain ⟨rfl, rfl, rfl⟩ := heq
        exact ⟨r, w, rfl, hload, (if_pos hempty).symm, rfl⟩
      next hsome =>
        simp only [Prod.mk.injEq] at heq
        obtain ⟨rfl, rfl, rfl⟩ := heq
        exact ⟨r, w, rfl, hload, (if_neg hsome).symm, rfl⟩
  | checked r =>
      simp only [popAccess] at ha
      obtain ⟨⟨v, m₁⟩, hload, heq⟩ := Option.map_eq_some_iff.mp ha
      simp only [Prod.mk.injEq] at heq
      obtain ⟨rfl, rfl, rfl⟩ := heq
      exact .inr (.inl ⟨r, v, rfl, hload, rfl, rfl⟩)
  | loadedValue r v =>
      simp only [popAccess, Option.some.injEq, Prod.mk.injEq] at ha
      obtain ⟨rfl, rfl, rfl⟩ := ha
      exact .inr (.inr ⟨r, v, rfl, rfl, rfl, rfl⟩)

/-- What one step can be: a load or a store of one of the words of the queue. -/
inductive Step (q : Layout L T) (m : Memory L U64 T) (f : Flow L) :
    Act → Memory L U64 T → Flow L → Prop
  | push (v : U64) (k : Nat) (w : U64) (m' : Memory L U64 T) :
      f.producer = .idle →
      m.load .relaxed q.producer (q.loc .writePos) k = some (w, m') →
      Step q m f (.push v k) m' { f with producer := .loadedWrite v w }
  | loadReadPos (k : Nat) (v w r : U64) (m' : Memory L U64 T) :
      f.producer = .loadedWrite v w →
      m.load .acquire q.producer (q.loc .readPos) k = some (r, m') →
      Step q m f (.producer k) m' { f with
        producer := if (w - r).toNat ≥ q.capacity then .idle else .checked v w }
  | storeSlot (k : Nat) (v w : U64) :
      f.producer = .checked v w →
      Step q m f (.producer k) (m.store .release q.producer (q.loc (.slot (q.index w))) v)
        { f with producer := .stored v w, ring := f.ring ++ made q m f.producer }
  | publish (k : Nat) (v w : U64) :
      f.producer = .stored v w →
      Step q m f (.producer k) (m.store .release q.producer (q.loc .writePos) (w + 1))
        { f with producer := .idle, pushed := f.pushed ++ [v] }
  | pop (k : Nat) (r : U64) (m' : Memory L U64 T) :
      f.consumer = .idle →
      m.load .relaxed q.consumer (q.loc .readPos) k = some (r, m') →
      Step q m f (.pop k) m' { f with consumer := .loadedRead r }
  | loadWritePos (k : Nat) (r w : U64) (m' : Memory L U64 T) :
      f.consumer = .loadedRead r →
      m.load .acquire q.consumer (q.loc .writePos) k = some (w, m') →
      Step q m f (.consumer k) m' { f with consumer := if r = w then .idle else .checked r }
  | loadSlot (k : Nat) (r v : U64) (m' : Memory L U64 T) :
      f.consumer = .checked r →
      m.load .acquire q.consumer (q.loc (.slot (q.index r))) k = some (v, m') →
      Step q m f (.consumer k) m' { f with consumer := .loadedValue r v }
  | consume (k : Nat) (r v : U64) :
      f.consumer = .loadedValue r v →
      Step q m f (.consumer k) (m.store .release q.consumer (q.loc .readPos) (r + 1))
        { f with consumer := .idle, popped := f.popped ++ [v] }

theorem step_cases {f' : Flow L} {a : Act} (hs : step q m f a = some (m', f')) :
    Step q m f a m' f' := by
  cases a with
  | push v k =>
      simp only [step, Option.ite_none_right_eq_some] at hs
      obtain ⟨⟨w, m₁⟩, hload, heq⟩ := Option.map_eq_some_iff.mp hs.2
      simp only [Prod.mk.injEq] at heq
      obtain ⟨rfl, rfl⟩ := heq
      exact .push v k w _ hs.1 hload
  | pop k =>
      simp only [step, Option.ite_none_right_eq_some] at hs
      obtain ⟨⟨r, m₁⟩, hload, heq⟩ := Option.map_eq_some_iff.mp hs.2
      simp only [Prod.mk.injEq] at heq
      obtain ⟨rfl, rfl⟩ := heq
      exact .pop k r _ hs.1 hload
  | producer k =>
      simp only [step] at hs
      obtain ⟨⟨m₁, pc, result⟩, ha, heq⟩ := Option.map_eq_some_iff.mp hs
      simp only [Prod.mk.injEq] at heq
      obtain ⟨rfl, rfl⟩ := heq
      rcases pushAccess_cases ha with ⟨v, w, r, hpc, hload, rfl, hresult⟩
        | ⟨v, w, hpc, rfl, rfl, rfl⟩ | ⟨v, w, hpc, rfl, rfl, rfl⟩
      · rw [if_neg hresult]
        simp only [hpc, made, List.append_nil]
        exact .loadReadPos k v w r _ hpc hload
      · simp only [reduceCtorEq, if_false]
        exact .storeSlot k v w hpc
      · simp only [hpc, made, List.append_nil, if_true, PushPc.value, Option.toList_some]
        exact .publish k v w hpc
  | consumer k =>
      simp only [step] at hs
      obtain ⟨⟨m₁, pc, result⟩, ha, heq⟩ := Option.map_eq_some_iff.mp hs
      simp only [Prod.mk.injEq] at heq
      obtain ⟨rfl, rfl⟩ := heq
      rcases popAccess_cases ha with ⟨r, w, hpc, hload, rfl, hresult⟩
        | ⟨r, v, hpc, hload, rfl, rfl⟩ | ⟨r, v, hpc, rfl, rfl, rfl⟩
      · rw [hresult]
        simp only [Option.toList_none, List.append_nil]
        exact .loadWritePos k r w _ hpc hload
      · simp only [Option.bind_none, Option.toList_none, List.append_nil]
        exact .loadSlot k r v _ hpc hload
      · exact .consume k r v hpc

/-- **The step lemma.** -/
theorem Inv.step (h : Inv q m f) {f' : Flow L} {a : Act}
    (hs : SpscWeak.step q m f a = some (m', f')) : Inv q m' f' := by
  cases step_cases hs with
  | push v k w _ hidle hload => exact h.loadOwnWrite hidle hload v
  | loadReadPos k v w r _ hpc hload => exact h.loadReadPos hpc hload
  | storeSlot k v w hpc => exact h.storeSlot hpc
  | publish k v w hpc => exact h.publish hpc
  | pop k r _ _ hload => exact h.loadOwnRead hload
  | loadWritePos k r w _ hpc hload => exact h.loadWritePos hpc hload
  | loadSlot k r v _ hpc hload => exact h.loadSlot hpc hload
  | consume k r v hpc => exact h.consume hpc

/-- Nothing is lost or lowered by an access of the queue. -/
theorem Inv.step_grows (h : Inv q m f) {f' : Flow L} {a : Act}
    (hs : SpscWeak.step q m f a = some (m', f')) : m.Grows m' := by
  cases step_cases hs with
  | storeSlot | publish | consume => exact Memory.store_grows h.ok
  | push _ _ _ _ _ hload | pop _ _ _ _ hload => exact Memory.load_grows hload
  | loadReadPos _ _ _ _ _ _ hload | loadWritePos _ _ _ _ _ hload | loadSlot _ _ _ _ _ hload =>
      exact Memory.load_grows hload

/-- The accesses of the queue touch nothing outside it. -/
theorem step_stores_other {f' : Flow L} {a : Act} (hs : step q m f a = some (m', f')) {l : L}
    (hl : ∀ x, q.loc x ≠ l) : m'.stores l = m.stores l := by
  cases step_cases hs with
  | storeSlot | publish | consume => exact Memory.store_stores_ne m _ _ _ (hl _).symm
  | push _ _ _ _ _ hload | pop _ _ _ _ hload => rw [Memory.load_stores hload]
  | loadReadPos _ _ _ _ _ _ hload | loadWritePos _ _ _ _ _ hload | loadSlot _ _ _ _ _ hload =>
      rw [Memory.load_stores hload]

/-! ## §9. A queue in a memory that is used for other things as well. -/

section Alone

variable {R : Type} [DecidableEq R]

/-- `SpscQueue::new`, next to the locations `R` of everything else. -/
def alone (R : Type) (capacity : Nat) (producer consumer : T) : Layout (QueueLoc ⊕ R) T where
  capacity := max (nextPowerOfTwo capacity) 2
  loc := Sum.inl
  producer := producer
  consumer := consumer
  capacity_pow := max_two_pow capacity
  loc_inj := Sum.inl_injective

/-- The queue in a memory of which it has some locations and other code the rest. -/
structure State (R T : Type) where
  mem : Memory (QueueLoc ⊕ R) U64 T
  flow : Flow (QueueLoc ⊕ R)

/-- An access of the queue, or of anything else by any thread. -/
inductive SystemAct (R T : Type) where
  | queue (a : Act)
  | load (ord : WeakMemory.Ordering) (t : T) (x : R) (k : Nat)
  | store (ord : WeakMemory.Ordering) (t : T) (x : R) (value : U64)

def systemStep (q : Layout (QueueLoc ⊕ R) T) (s : State R T) :
    SystemAct R T → Option (State R T)
  | .queue a => (step q s.mem s.flow a).map (fun r => ⟨r.1, r.2⟩)
  | .load ord t x k => (s.mem.load ord t (.inr x) k).map (fun r => { s with mem := r.2 })
  | .store ord t x v => some { s with mem := s.mem.store ord t (.inr x) v }

def systemInit (R T : Type) : State R T :=
  { mem := .init (fun _ => 0#64), flow := .init _ }

theorem systemStep_inv {capacity : Nat} {producer consumer : T} {s s' : State R T}
    {a : SystemAct R T} (h : Inv (alone R capacity producer consumer) s.mem s.flow)
    (hs : systemStep (alone R capacity producer consumer) s a = some s') :
    Inv (alone R capacity producer consumer) s'.mem s'.flow := by
  cases a with
  | queue a =>
      simp only [systemStep] at hs
      obtain ⟨⟨m', f'⟩, hstep, rfl⟩ := Option.map_eq_some_iff.mp hs
      exact h.step hstep
  | load ord t x k =>
      simp only [systemStep] at hs
      obtain ⟨⟨v, m'⟩, hload, rfl⟩ := Option.map_eq_some_iff.mp hs
      exact h.load hload
  | store ord t x v =>
      simp only [systemStep, Option.some.injEq] at hs
      subst hs
      exact h.storeElsewhere ord t v (fun y hy => absurd hy (by simp [alone]))

/-- **`SpscQueue` works on release/acquire memory.**  Whatever the threads do elsewhere
and however old the positions they load: what comes out is what went in, in that order,
never more than the capacity is inside, and whoever has taken a value out knows of every
store, to any location, that the producer knew of when it stored the value. -/
theorem spsc_release_acquire (capacity : Nat) (hcap : capacity ≤ 2 ^ 63) (producer consumer : T)
    (s : State R T)
    (hs : Reach (systemStep (alone R capacity producer consumer)) anyStep (systemInit R T) s) :
    IsLeast { c | (∃ k, c = 2 ^ k) ∧ capacity ≤ c ∧ 2 ≤ c }
        (alone R capacity producer consumer).capacity
      ∧ s.flow.popped <+: s.flow.pushed
      ∧ s.flow.pushed.length - s.flow.popped.length ≤ (alone R capacity producer consumer).capacity
      ∧ ∀ i store, i < s.flow.popped.length → s.flow.ring[i]? = some store →
          s.flow.popped[i]? = some store.value ∧ store.view ≤ s.mem.view consumer := by
  have hinv : Inv (alone R capacity producer consumer) s.mem s.flow :=
    hs.invariant (fun s => Inv (alone R capacity producer consumer) s.mem s.flow)
      (inv_init _ _ (fun _ => rfl)) (fun _ _ _ hi _ hstep => systemStep_inv hi hstep)
  refine ⟨SpscSteps.capacity_isLeast hcap, ?_, ?_, ?_⟩
  · rw [hinv.fifo]
    exact List.take_prefix _ _
  · have hbound := hinv.bound
    omega
  · intro i store hi hstore
    have hle := hinv.popped_le
    refine ⟨?_, hinv.learnt i store hi hstore⟩
    rw [hinv.fifo, List.getElem?_take_of_lt hi]
    exact hinv.pushed_get (by omega) hstore

/-- The producer stores elsewhere and pushes; the first `pop` sees the old `write_pos`,
the second one gets the value and the store elsewhere. -/
def staleRun : List (SystemAct Unit Bool) :=
  [.store .relaxed true () 5#64, .queue (.push 7#64 0), .queue (.producer 0), .queue (.producer 0),
   .queue (.producer 0), .queue (.pop 0), .queue (.consumer 0), .queue (.pop 0),
   .queue (.consumer 1), .queue (.consumer 1), .queue (.consumer 0)]

theorem spsc_release_acquire_stale :
    ∃ s : State Unit Bool, Reach (systemStep (alone Unit 2 true false)) anyStep (systemInit _ _) s
      ∧ s.flow.popped = [7#64] ∧ s.mem.view false (.inr ()) = 1
      ∧ s.flow.popped <+: s.flow.pushed := by
  have hrun : (exec (systemStep (alone Unit 2 true false)) (systemInit _ _) staleRun).map
      (fun s => (s.flow.popped, s.mem.view false (.inr ()))) = some ([7#64], 1) := by
    decide
  obtain ⟨s, hs, hf⟩ := Option.map_eq_some_iff.mp hrun
  obtain ⟨hpopped, hview⟩ := Prod.mk.inj hf
  have hreach := Reach.of_exec staleRun .refl hs
  obtain ⟨_, hprefix, _⟩ := spsc_release_acquire 2 (by decide) true false s hreach
  exact ⟨s, hreach, hpopped, hview, hprefix⟩

end Alone

end Entangle.Lockfree.SpscWeak
