/-
  Entangle.Lockfree.SpscSteps — `push` and `pop` of `SpscQueue` as sequences of
  atomic accesses, and one producer and one consumer interleaved.

  `pushAccess` and `popAccess` perform the next access of a call, on any queue
  and for any thread (they are also what `SharedSubscriber` runs on many
  threads).  `step` interleaves one thread that pushes with one that pops; the
  history `pushed` lists the values whose `push` returned `true`, `popped` the
  values that `pop` returned.

  Main results:
    * `pushAccess_spec`, `popAccess_spec` — one access of a caller whose
      knowledge (`ProducerOk`, `ConsumerOk`) is right;
    * `step_cases` — what one step of the two threads can do;
    * `Inv.step` — every access keeps the invariant, whatever the positions;
    * `spsc_linearizable` — the queue is a bounded FIFO in every interleaving.
-/
import Entangle.Lib.Transition
import Entangle.Lockfree.SpscQueue
import Mathlib.Order.Bounds.Basic

namespace Entangle.Lockfree

open Entangle.Lib

/-! ## §1. The accesses of one call. -/

/-- Where a thread stands inside `push`; `write` is the position it loaded. -/
inductive PushPc where
  | idle
  -- write_pos loaded, read_pos to be loaded
  | loadedWrite (value write : U64)
  -- room found, the slot to be stored
  | checked (value write : U64)
  -- slot stored, write_pos to be stored
  | stored (value write : U64)
  deriving Repr, DecidableEq

/-- Where a thread stands inside `pop`; `read` is the position it loaded. -/
inductive PopPc where
  | idle
  -- read_pos loaded, write_pos to be loaded
  | loadedRead (read : U64)
  -- not empty, the slot to be loaded
  | checked (read : U64)
  -- slot loaded, read_pos to be stored
  | loadedValue (read value : U64)
  deriving Repr, DecidableEq

/-- The next access of a `push`; the last component is what the call returns. -/
def pushAccess (q : SpscQueue) : PushPc → Option (SpscQueue × PushPc × Option Bool)
  | .idle => none
  | .loadedWrite v w =>
      if (w - q.readPos).toNat ≥ q.capacity then some (q, .idle, some false)
      else some (q, .checked v w, none)
  | .checked v w => some (q.setSlot w v, .stored v w, none)
  | .stored _ w => some ({ q with writePos := w + 1 }, .idle, some true)

/-- The next access of a `pop`; the last component is what the call returns. -/
def popAccess (q : SpscQueue) : PopPc → Option (SpscQueue × PopPc × Option (Option U64))
  | .idle => none
  | .loadedRead r =>
      if r = q.writePos then some (q, .idle, some none)
      else some (q, .checked r, none)
  | .checked r => some (q, .loadedValue r (q.getSlot r), none)
  | .loadedValue r v => some ({ q with readPos := r + 1 }, .idle, some (some v))

/-- The value a `push` in progress carries. -/
def PushPc.value : PushPc → Option U64
  | .idle => none
  | .loadedWrite v _ | .checked v _ | .stored v _ => some v

/-- An access that ends the call leaves the thread idle. -/
theorem pushAccess_returned {q q' : SpscQueue} {pc pc' : PushPc} {ok : Bool}
    (h : pushAccess q pc = some (q', pc', some ok)) : pc' = .idle := by
  unfold pushAccess at h
  split at h
  next => exact absurd h (by simp)
  next =>
    split at h
    next =>
      simp only [Option.some.injEq, Prod.mk.injEq] at h
      exact h.2.1.symm
    next => exact absurd h (by simp)
  next => exact absurd h (by simp)
  next =>
    simp only [Option.some.injEq, Prod.mk.injEq] at h
    exact h.2.1.symm

theorem popAccess_returned {q q' : SpscQueue} {pc pc' : PopPc} {value : Option U64}
    (h : popAccess q pc = some (q', pc', some value)) : pc' = .idle := by
  unfold popAccess at h
  split at h
  next => exact absurd h (by simp)
  next =>
    split at h
    next =>
      simp only [Option.some.injEq, Prod.mk.injEq] at h
      exact h.2.1.symm
    next => exact absurd h (by simp)
  next => exact absurd h (by simp)
  next =>
    simp only [Option.some.injEq, Prod.mk.injEq] at h
    exact h.2.1.symm

/-- A producer moves neither the start of the window nor the capacity. -/
theorem pushAccess_keeps {q q' : SpscQueue} {pc pc' : PushPc} {result : Option Bool}
    (h : pushAccess q pc = some (q', pc', result)) :
    q'.readPos = q.readPos ∧ q'.capacity = q.capacity := by
  unfold pushAccess at h
  split at h
  next => exact absurd h (by simp)
  next =>
    split at h <;>
      (simp only [Option.some.injEq, Prod.mk.injEq] at h; rw [← h.1]; exact ⟨rfl, rfl⟩)
  next =>
    simp only [Option.some.injEq, Prod.mk.injEq] at h
    rw [← h.1]
    exact ⟨rfl, rfl⟩
  next =>
    simp only [Option.some.injEq, Prod.mk.injEq] at h
    rw [← h.1]
    exact ⟨rfl, rfl⟩

/-- A consumer does not change the capacity. -/
theorem popAccess_capacity {q q' : SpscQueue} {pc pc' : PopPc} {result : Option (Option U64)}
    (h : popAccess q pc = some (q', pc', result)) : q'.capacity = q.capacity := by
  unfold popAccess at h
  split at h
  next => exact absurd h (by simp)
  next =>
    split at h <;>
      (simp only [Option.some.injEq, Prod.mk.injEq] at h; rw [← h.1])
  next =>
    simp only [Option.some.injEq, Prod.mk.injEq] at h
    rw [← h.1]
  next =>
    simp only [Option.some.injEq, Prod.mk.injEq] at h
    rw [← h.1]

/-- `push` run without interruption is `SpscQueue.push`. -/
theorem pushAccess_alone (q : SpscQueue) (v : U64) :
    (q.push v = (false, q)
        ∧ pushAccess q (.loadedWrite v q.writePos) = some (q, .idle, some false))
      ∨ ((q.push v).1 = true
        ∧ pushAccess q (.loadedWrite v q.writePos) = some (q, .checked v q.writePos, none)
        ∧ pushAccess q (.checked v q.writePos)
            = some (q.setSlot q.writePos v, .stored v q.writePos, none)
        ∧ pushAccess (q.setSlot q.writePos v) (.stored v q.writePos)
            = some ((q.push v).2, .idle, some true)) := by
  by_cases h : (q.writePos - q.readPos).toNat ≥ q.capacity
  · left
    simp only [SpscQueue.push, pushAccess, if_pos h, and_self]
  · right
    simp only [SpscQueue.push, pushAccess, if_neg h, and_self]

/-- `pop` run without interruption is `SpscQueue.pop`. -/
theorem popAccess_alone (q : SpscQueue) :
    (q.pop = (none, q) ∧ popAccess q (.loadedRead q.readPos) = some (q, .idle, some none))
      ∨ (popAccess q (.loadedRead q.readPos) = some (q, .checked q.readPos, none)
        ∧ popAccess q (.checked q.readPos)
            = some (q, .loadedValue q.readPos (q.getSlot q.readPos), none)
        ∧ popAccess q (.loadedValue q.readPos (q.getSlot q.readPos))
            = some (q.pop.2, .idle, some q.pop.1)) := by
  by_cases h : q.readPos = q.writePos
  · left
    simp [SpscQueue.pop, popAccess, h]
  · right
    simp [SpscQueue.pop, popAccess, h]

/-! ## §2. What a caller in the middle of a call knows. -/

/-- What the producer knows: its position is the end of the window, and once
it has seen room there is room, because only the consumer moves the start. -/
def ProducerOk (q : SpscQueue) (pushed : List U64) (r : Nat) : PushPc → Prop
  | .idle => True
  | .loadedWrite _ w => w = BitVec.ofNat 64 pushed.length
  | .checked _ w => w = BitVec.ofNat 64 pushed.length ∧ pushed.length < r + q.capacity
  | .stored v w =>
      w = BitVec.ofNat 64 pushed.length ∧ pushed.length < r + q.capacity ∧ q.getSlot w = v

/-- What the consumer knows. -/
def ConsumerOk (pushed : List U64) (r : Nat) : PopPc → Prop
  | .idle => True
  | .loadedRead rd => rd = BitVec.ofNat 64 r
  | .checked rd => rd = BitVec.ofNat 64 r ∧ r < pushed.length
  | .loadedValue rd v => rd = BitVec.ofNat 64 r ∧ pushed[r]? = some v

/-- The consumer's knowledge survives a longer history. -/
theorem ConsumerOk.append {pushed : List U64} {r : Nat} {pc : PopPc}
    (h : ConsumerOk pushed r pc) (v : U64) : ConsumerOk (pushed ++ [v]) r pc := by
  cases pc with
  | idle => trivial
  | loadedRead rd => exact h
  | checked rd =>
      refine ⟨h.1, ?_⟩
      have := h.2
      rw [List.length_append]
      omega
  | loadedValue rd w =>
      exact ⟨h.1, append_of_some [v] h.2⟩

/-- The producer's knowledge survives the consumer's progress. -/
theorem ProducerOk.consume {q : SpscQueue} {pushed : List U64} {r : Nat} {pc : PushPc}
    (h : ProducerOk q pushed r pc) (pos : U64) :
    ProducerOk { q with readPos := pos } pushed (r + 1) pc := by
  cases pc with
  | idle => trivial
  | loadedWrite v w => exact h
  | checked v w => exact ⟨h.1, by have := h.2; show _ < r + 1 + q.capacity; omega⟩
  | stored v w =>
      exact ⟨h.1, by have := h.2.1; show _ < r + 1 + q.capacity; omega, h.2.2⟩

/-- A producer that finds no room finds the queue exactly full. -/
theorem full_iff {q : SpscQueue} {pushed : List U64} {r : Nat} (h : q.Holds pushed r) :
    (BitVec.ofNat 64 pushed.length - q.readPos).toNat ≥ q.capacity
      ↔ pushed.length = r + q.capacity := by
  have hb := h.bound
  have hsub := h.sub_toNat
  rw [h.write] at hsub
  rw [hsub]
  have := h.le
  omega

/-- The access stores into the ring or into `write_pos`. -/
def PushPc.stores : PushPc → Bool
  | .idle | .loadedWrite _ _ => false
  | .checked _ _ | .stored _ _ => true

/-- **One access of a `push`** by a caller whose knowledge is right.  Either the
value is published, or the window is as before and the caller still knows. -/
theorem pushAccess_spec {q q' : SpscQueue} {pushed : List U64} {r : Nat} {pc pc' : PushPc}
    {result : Option Bool} (h : q.Holds pushed r) (hp : ProducerOk q pushed r pc)
    (ha : pushAccess q pc = some (q', pc', result)) :
    (result = some true ∧ pc' = .idle ∧ ∃ v, pc.value = some v ∧ q'.Holds (pushed ++ [v]) r)
      ∨ (result = some false ∧ pc' = .idle ∧ q' = q ∧ pushed.length = r + q.capacity)
      ∨ (result = none ∧ pc'.value = pc.value ∧ q'.Holds pushed r ∧ ProducerOk q' pushed r pc'
          ∧ (pc.stores = false → q' = q)) := by
  cases pc with
  | idle => simp [pushAccess] at ha
  | loadedWrite v w =>
      obtain rfl : w = BitVec.ofNat 64 pushed.length := hp
      simp only [pushAccess] at ha
      split at ha
      next hfull =>
        simp only [Option.some.injEq, Prod.mk.injEq] at ha
        obtain ⟨rfl, rfl, rfl⟩ := ha
        exact .inr (.inl ⟨rfl, rfl, rfl, (full_iff h).mp hfull⟩)
      next hroom =>
        simp only [Option.some.injEq, Prod.mk.injEq] at ha
        obtain ⟨rfl, rfl, rfl⟩ := ha
        have hne := (full_iff h).not.mp hroom
        have hbound := h.bound
        exact .inr (.inr ⟨rfl, rfl, h, ⟨rfl, by omega⟩, fun _ => rfl⟩)
  | checked v w =>
      obtain ⟨rfl, hroom⟩ := hp
      simp only [pushAccess, Option.some.injEq, Prod.mk.injEq] at ha
      obtain ⟨rfl, rfl, rfl⟩ := ha
      exact .inr (.inr ⟨rfl, rfl, h.store v hroom,
        ⟨rfl, hroom, q.getSlot_setSlot_self _ v⟩, fun hs => by simp [PushPc.stores] at hs⟩)
  | stored v w =>
      obtain ⟨rfl, hroom, hslot⟩ := hp
      simp only [pushAccess, Option.some.injEq, Prod.mk.injEq] at ha
      obtain ⟨rfl, rfl, rfl⟩ := ha
      have hpub := h.publish hroom hslot
      rw [h.write] at hpub
      exact .inl ⟨rfl, rfl, v, rfl, hpub⟩

/-- **One access of a `pop`** by a caller whose knowledge is right. -/
theorem popAccess_spec {q q' : SpscQueue} {pushed : List U64} {r : Nat} {pc pc' : PopPc}
    {result : Option (Option U64)} (h : q.Holds pushed r) (hc : ConsumerOk pushed r pc)
    (ha : popAccess q pc = some (q', pc', result)) :
    (∃ v pos, result = some (some v) ∧ pc' = .idle ∧ pushed[r]? = some v
        ∧ q' = { q with readPos := pos } ∧ q'.Holds pushed (r + 1))
      ∨ (result = some none ∧ pc' = .idle ∧ q' = q ∧ r = pushed.length)
      ∨ (result = none ∧ q' = q ∧ ConsumerOk pushed r pc') := by
  cases pc with
  | idle => simp [popAccess] at ha
  | loadedRead rd =>
      obtain rfl : rd = BitVec.ofNat 64 r := hc
      simp only [popAccess] at ha
      split at ha
      next hpos =>
        simp only [Option.some.injEq, Prod.mk.injEq] at ha
        obtain ⟨rfl, rfl, rfl⟩ := ha
        exact .inr (.inl ⟨rfl, rfl, rfl, h.pos_eq_iff.mp (h.read.trans hpos)⟩)
      next hpos =>
        simp only [Option.some.injEq, Prod.mk.injEq] at ha
        obtain ⟨rfl, rfl, rfl⟩ := ha
        have hne : r ≠ pushed.length := fun he => by
          rw [← h.read] at hpos
          exact hpos (h.pos_eq_iff.mpr he)
        have hle := h.le
        exact .inr (.inr ⟨rfl, rfl, rfl, by omega⟩)
  | checked rd =>
      obtain ⟨rfl, hlt⟩ := hc
      simp only [popAccess, Option.some.injEq, Prod.mk.injEq] at ha
      obtain ⟨rfl, rfl, rfl⟩ := ha
      have hv : pushed[r]? = some (pushed.get ⟨r, hlt⟩) := List.getElem?_eq_getElem hlt
      refine .inr (.inr ⟨rfl, rfl, rfl, ?_⟩)
      rw [h.data _ _ (Nat.le_refl _) hv]
      exact hv
  | loadedValue rd v =>
      obtain ⟨rfl, hv⟩ := hc
      simp only [popAccess, Option.some.injEq, Prod.mk.injEq] at ha
      obtain ⟨rfl, rfl, rfl⟩ := ha
      have hcons := h.consume (List.getElem?_eq_some_iff.mp hv).1
      rw [h.read] at hcons
      exact .inl ⟨v, _, rfl, rfl, hv, rfl, hcons⟩

/-- What one of many producers knows: what the only one would know, unless the
store of another has overtaken it.  `stores` counts the stores made, `stamp` is
their number at its load of `write_pos`. -/
def StampOk (q : SpscQueue) (pushed : List U64) (r stores stamp : Nat) (pc : PushPc) : Prop :=
  stamp ≤ stores ∧ (stamp = stores → ProducerOk q pushed r pc)

/-- Whatever another producer stores, this one has been overtaken by it. -/
theorem StampOk.overtaken {q q' : SpscQueue} {pushed pushed' : List U64}
    {r r' stores stamp : Nat} {pc : PushPc} (h : StampOk q pushed r stores stamp pc) :
    StampOk q' pushed' r' (stores + 1) stamp pc := by
  have hle := h.1
  refine ⟨by omega, fun he => ?_⟩
  omega

theorem StampOk.consume {q : SpscQueue} {pushed : List U64} {r stores stamp : Nat} {pc : PushPc}
    (h : StampOk q pushed r stores stamp pc) (pos : U64) :
    StampOk { q with readPos := pos } pushed (r + 1) stores stamp pc :=
  ⟨h.1, fun he => (h.2 he).consume pos⟩

/-- **One access of a `push` by one of many producers**, which stores only if it
has not been overtaken. -/
theorem pushAccess_stamped {q q' : SpscQueue} {pushed : List U64} {r stores stamp : Nat}
    {pc pc' : PushPc} {result : Option Bool} (h : q.Holds pushed r)
    (hp : StampOk q pushed r stores stamp pc) (hok : pc.stores = true → stamp = stores)
    (ha : pushAccess q pc = some (q', pc', result)) :
    (result = some true ∧ pc.stores = true ∧ ∃ v, pc.value = some v ∧ q'.Holds (pushed ++ [v]) r)
      ∨ (result = some false ∧ pc.stores = false)
      ∨ (result = none ∧ pc'.value = pc.value ∧ q'.Holds pushed r ∧ pc' ≠ .idle
          ∧ (pc.stores = false → q' = q ∧ StampOk q' pushed r stores stamp pc')
          ∧ (pc.stores = true → StampOk q' pushed r (stores + 1) (stores + 1) pc')) := by
  cases pc with
  | idle => simp [pushAccess] at ha
  | loadedWrite v w =>
      have ha' := ha
      simp only [pushAccess] at ha
      split at ha
      next =>
        simp only [Option.some.injEq, Prod.mk.injEq] at ha
        obtain ⟨rfl, rfl, rfl⟩ := ha
        exact .inr (.inl ⟨rfl, rfl⟩)
      next =>
        simp only [Option.some.injEq, Prod.mk.injEq] at ha
        obtain ⟨rfl, rfl, rfl⟩ := ha
        refine .inr (.inr ⟨rfl, rfl, h, by simp, fun _ => ⟨rfl, hp.1, fun he => ?_⟩, ?_⟩)
        · rcases pushAccess_spec h (hp.2 he) ha' with ⟨hn, _⟩ | ⟨hn, _⟩ | ⟨_, _, _, hp', _⟩
          · exact absurd hn (by simp)
          · exact absurd hn (by simp)
          · exact hp'
        · intro hs
          exact absurd hs (by simp [PushPc.stores])
  | checked v w =>
      have hp' := hp.2 (hok rfl)
      rcases pushAccess_spec h hp' ha with ⟨rfl, _⟩ | ⟨rfl, _⟩ | ⟨rfl, hv, hholds, hknown, _⟩
      · simp [pushAccess] at ha
      · simp [pushAccess] at ha
      · simp only [pushAccess, Option.some.injEq, Prod.mk.injEq] at ha
        obtain ⟨_, rfl, _⟩ := ha
        refine .inr (.inr ⟨rfl, hv, hholds, by simp, ?_, fun _ => ⟨Nat.le_refl _, fun _ => hknown⟩⟩)
        intro hs
        exact absurd hs (by simp [PushPc.stores])
  | stored v w =>
      have hp' := hp.2 (hok rfl)
      rcases pushAccess_spec h hp' ha with ⟨rfl, _, hpub⟩ | ⟨rfl, _⟩ | ⟨rfl, _⟩
      · exact .inl ⟨rfl, rfl, hpub⟩
      · simp [pushAccess] at ha
      · simp [pushAccess] at ha

/-- Taking the next value keeps the popped ones a beginning of the pushed ones. -/
theorem take_succ_of_fifo {popped pushed : List U64} {v : U64}
    (hfifo : popped = pushed.take popped.length) (hv : pushed[popped.length]? = some v) :
    popped ++ [v] = pushed.take (popped ++ [v]).length := by
  rw [List.length_append, List.length_singleton, List.take_add_one, hv, ← hfifo]
  rfl

theorem take_append_of_fifo {popped pushed : List U64} (v : U64)
    (hfifo : popped = pushed.take popped.length) (hle : popped.length ≤ pushed.length) :
    popped = (pushed ++ [v]).take popped.length := by
  rw [List.take_append_of_le_length hle]
  exact hfifo

namespace SpscSteps

/-! ## §3. One producer, one consumer. -/

/-- The queue, where its two ends stand, and a record of what has gone in and come out. -/
structure State where
  queue : SpscQueue
  producer : PushPc
  consumer : PopPc
  -- values whose `push` returned true, in that order
  pushed : List U64
  -- values that `pop` returned, in that order
  popped : List U64

/-- A call begins, or an end of the queue makes its next access. -/
inductive Act where
  | push (value : U64)
  | producer
  | pop
  | consumer
  deriving Repr, DecidableEq

/-- One access.  A call starts with the load of the caller's own position. -/
def step (s : State) : Act → Option State
  | .push v =>
      if s.producer = .idle then
        some { s with producer := .loadedWrite v s.queue.writePos }
      else none
  | .producer =>
      (pushAccess s.queue s.producer).map (fun r =>
        { s with
          queue := r.1
          producer := r.2.1
          pushed := if r.2.2 = some true then s.pushed ++ s.producer.value.toList else s.pushed })
  | .pop =>
      if s.consumer = .idle then
        some { s with consumer := .loadedRead s.queue.readPos }
      else none
  | .consumer =>
      (popAccess s.queue s.consumer).map (fun r =>
        { s with
          queue := r.1
          consumer := r.2.1
          popped := s.popped ++ (r.2.2.bind id).toList })

def init (capacity : Nat) : State :=
  { queue := .new capacity, producer := .idle, consumer := .idle, pushed := [], popped := [] }

/-! ## §4. The invariant. -/

/-- **The invariant.**  The ring holds what has been pushed and not yet popped, what has
been popped is the beginning of what has been pushed, and what each end has loaded fits
its place: its own position is exact, that of the other end may be behind. -/
structure Inv (s : State) : Prop where
  holds : s.queue.Holds s.pushed s.popped.length
  fifo : s.popped = s.pushed.take s.popped.length
  producer : ProducerOk s.queue s.pushed s.popped.length s.producer
  consumer : ConsumerOk s.pushed s.popped.length s.consumer

theorem inv_init (capacity : Nat) : Inv (init capacity) where
  holds := SpscQueue.holds_new capacity
  fifo := rfl
  producer := trivial
  consumer := trivial

/-- What one step can do. -/
theorem step_cases {s s' : State} {a : Act} (hs : step s a = some s') :
    (∃ v, a = .push v ∧ s.producer = .idle
        ∧ s' = { s with producer := .loadedWrite v s.queue.writePos })
      ∨ (a = .pop ∧ s.consumer = .idle ∧ s' = { s with consumer := .loadedRead s.queue.readPos })
      ∨ (∃ q pc result, a = .producer ∧ pushAccess s.queue s.producer = some (q, pc, result)
        ∧ s' = { s with
            queue := q
            producer := pc
            pushed := if result = some true then s.pushed ++ s.producer.value.toList
              else s.pushed })
      ∨ (∃ q pc result, a = .consumer ∧ popAccess s.queue s.consumer = some (q, pc, result)
        ∧ s' = { s with
            queue := q
            consumer := pc
            popped := s.popped ++ (result.bind id).toList }) := by
  cases a with
  | push v =>
      simp only [SpscSteps.step, Option.ite_none_right_eq_some, Option.some.injEq] at hs
      exact .inl ⟨v, rfl, hs.1, hs.2.symm⟩
  | pop =>
      simp only [SpscSteps.step, Option.ite_none_right_eq_some, Option.some.injEq] at hs
      exact .inr (.inl ⟨rfl, hs.1, hs.2.symm⟩)
  | producer =>
      simp only [SpscSteps.step] at hs
      obtain ⟨⟨q, pc, result⟩, ha, rfl⟩ := Option.map_eq_some_iff.mp hs
      exact .inr (.inr (.inl ⟨q, pc, result, rfl, ha, rfl⟩))
  | consumer =>
      simp only [SpscSteps.step] at hs
      obtain ⟨⟨q, pc, result⟩, ha, rfl⟩ := Option.map_eq_some_iff.mp hs
      exact .inr (.inr (.inr ⟨q, pc, result, rfl, ha, rfl⟩))

/-- **The step lemma.** -/
theorem Inv.step {s s' : State} {a : Act} (h : Inv s) (hs : step s a = some s') : Inv s' := by
  rcases step_cases hs with ⟨v, rfl, _, rfl⟩ | ⟨rfl, _, rfl⟩ | ⟨q, pc, result, rfl, ha, rfl⟩
    | ⟨q, pc, result, rfl, ha, rfl⟩
  · exact ⟨h.holds, h.fifo, h.holds.write, h.consumer⟩
  · exact ⟨h.holds, h.fifo, h.producer, h.holds.read⟩
  · rcases pushAccess_spec h.holds h.producer ha with
      ⟨rfl, rfl, v, hv, hholds⟩ | ⟨rfl, rfl, rfl, _⟩ | ⟨rfl, _, hholds, hp, _⟩
    · simp only [hv, if_true, Option.toList_some]
      exact ⟨hholds, take_append_of_fifo v h.fifo h.holds.le, trivial, h.consumer.append v⟩
    · exact ⟨h.holds, h.fifo, trivial, h.consumer⟩
    · exact ⟨hholds, h.fifo, hp, h.consumer⟩
  · rcases popAccess_spec h.holds h.consumer ha with
      ⟨v, pos, rfl, rfl, hv, rfl, hholds⟩ | ⟨rfl, rfl, rfl, _⟩ | ⟨rfl, rfl, hc⟩
    · have hlen : (s.popped ++ [v]).length = s.popped.length + 1 := by simp
      simp only [Option.bind_some, id_eq, Option.toList_some]
      refine ⟨?_, take_succ_of_fifo h.fifo hv, ?_, trivial⟩
      · rw [hlen]
        exact hholds
      · rw [hlen]
        exact h.producer.consume pos
    · simp only [Option.bind_some, id_eq, Option.toList_none, List.append_nil]
      exact ⟨h.holds, h.fifo, h.producer, trivial⟩
    · simp only [Option.bind_none, Option.toList_none, List.append_nil]
      exact ⟨h.holds, h.fifo, h.producer, hc⟩

/-! ## §5. Every run. -/

theorem inv_of_reach {capacity : Nat} {s : State} (hs : Reach step anyStep (init capacity) s) :
    Inv s :=
  hs.invariant Inv (inv_init capacity) (fun _ _ _ hi _ hstep => hi.step hstep)

/-- No step changes the capacity. -/
theorem step_capacity {s s' : State} {a : Act} (hs : step s a = some s') :
    s'.queue.capacity = s.queue.capacity := by
  rcases step_cases hs with ⟨v, rfl, _, rfl⟩ | ⟨rfl, _, rfl⟩ | ⟨q, pc, result, rfl, ha, rfl⟩
    | ⟨q, pc, result, rfl, ha, rfl⟩
  · rfl
  · rfl
  · exact (pushAccess_keeps ha).2
  · exact popAccess_capacity ha

/-- The histories only grow. -/
theorem step_grows {s s' : State} {a : Act} (hs : step s a = some s') :
    s.pushed <+: s'.pushed ∧ s.popped <+: s'.popped := by
  rcases step_cases hs with ⟨v, rfl, _, rfl⟩ | ⟨rfl, _, rfl⟩ | ⟨q, pc, result, rfl, ha, rfl⟩
    | ⟨q, pc, result, rfl, ha, rfl⟩
  · exact ⟨List.prefix_refl _, List.prefix_refl _⟩
  · exact ⟨List.prefix_refl _, List.prefix_refl _⟩
  · refine ⟨?_, List.prefix_refl _⟩
    show s.pushed <+: if _ then _ else _
    split
    · exact List.prefix_append _ _
    · exact List.prefix_refl _
  · exact ⟨List.prefix_refl _, List.prefix_append _ _⟩

/-- An idle producer pushes nothing, and stays idle unless it calls `push`. -/
theorem step_of_producer_idle {s s' : State} {a : Act} (hs : step s a = some s')
    (hidle : s.producer = .idle) :
    s'.pushed = s.pushed ∧ ((∃ v, a = .push v) ∨ s'.producer = .idle) := by
  rcases step_cases hs with ⟨v, rfl, _, rfl⟩ | ⟨rfl, _, rfl⟩ | ⟨q, pc, result, rfl, ha, rfl⟩
    | ⟨q, pc, result, rfl, ha, rfl⟩
  · exact ⟨rfl, .inl ⟨v, rfl⟩⟩
  · exact ⟨rfl, .inr hidle⟩
  · rw [hidle] at ha
    exact absurd ha (by simp [pushAccess])
  · exact ⟨rfl, .inr hidle⟩

/-- An idle consumer pops nothing, and stays idle unless it calls `pop`. -/
theorem step_of_consumer_idle {s s' : State} {a : Act} (hs : step s a = some s')
    (hidle : s.consumer = .idle) :
    s'.popped = s.popped ∧ (a = .pop ∨ s'.consumer = .idle) := by
  rcases step_cases hs with ⟨v, rfl, _, rfl⟩ | ⟨rfl, _, rfl⟩ | ⟨q, pc, result, rfl, ha, rfl⟩
    | ⟨q, pc, result, rfl, ha, rfl⟩
  · exact ⟨rfl, .inr hidle⟩
  · exact ⟨rfl, .inl rfl⟩
  · exact ⟨rfl, .inr hidle⟩
  · rw [hidle] at ha
    exact absurd ha (by simp [popAccess])

theorem capacity_of_reach {capacity : Nat} {s : State}
    (hs : Reach step anyStep (init capacity) s) :
    s.queue.capacity = max (nextPowerOfTwo capacity) 2 :=
  hs.invariant (fun s => s.queue.capacity = max (nextPowerOfTwo capacity) 2) rfl
    (fun _ _ _ hi _ hstep => (step_capacity hstep).trans hi)

/-- The capacity `new` chooses. -/
theorem capacity_isLeast {capacity : Nat} (hcap : capacity ≤ 2 ^ 63) :
    IsLeast { c | (∃ k, c = 2 ^ k) ∧ capacity ≤ c ∧ 2 ≤ c }
      (max (nextPowerOfTwo capacity) 2) := by
  obtain ⟨hge, hleast⟩ := nextPowerOfTwo_least capacity hcap
  constructor
  · obtain ⟨k, _, _, hk⟩ := max_two_pow capacity
    exact ⟨⟨k, hk⟩, hge.trans (Nat.le_max_left _ _), Nat.le_max_right _ _⟩
  · rintro c ⟨⟨k, rfl⟩, hreq, htwo⟩
    exact Nat.max_le.mpr ⟨hleast k hreq, htwo⟩

/-- A `push` that returns `false` has just read the positions of a full queue. -/
theorem Inv.full_of_push_false {s : State} (h : Inv s) {q : SpscQueue} {pc : PushPc}
    (hpush : pushAccess s.queue s.producer = some (q, pc, some false)) :
    s.pushed.length = s.popped.length + s.queue.capacity := by
  rcases pushAccess_spec h.holds h.producer hpush with ⟨hr, _⟩ | ⟨_, _, _, hfull⟩ | ⟨hr, _⟩
  · exact absurd hr (by simp)
  · exact hfull
  · exact absurd hr (by simp)

/-- A `pop` that returns `None` has just read the positions of an empty queue. -/
theorem Inv.empty_of_pop_none {s : State} (h : Inv s) {q : SpscQueue} {pc : PopPc}
    (hpop : popAccess s.queue s.consumer = some (q, pc, some none)) : s.popped = s.pushed := by
  rcases popAccess_spec h.holds h.consumer hpop with ⟨_, _, hr, _⟩ | ⟨_, _, _, hlen⟩ | ⟨hr, _⟩
  · exact absurd hr (by simp)
  · rw [h.fifo, hlen, List.take_length]
  · exact absurd hr (by simp)

/-- **`SpscQueue` is a bounded FIFO under every interleaving of its accesses.**
Runs are of any length, so the positions wrap as often as they like. -/
theorem spsc_linearizable (capacity : Nat) (hcap : capacity ≤ 2 ^ 63) (s : State)
    (hs : Reach step anyStep (init capacity) s) :
    IsLeast { c | (∃ k, c = 2 ^ k) ∧ capacity ≤ c ∧ 2 ≤ c } s.queue.capacity
      ∧ s.popped <+: s.pushed
      ∧ s.pushed.length - s.popped.length ≤ s.queue.capacity
      ∧ (∀ q pc, pushAccess s.queue s.producer = some (q, pc, some false) →
          s.pushed.length = s.popped.length + s.queue.capacity)
      ∧ (∀ q pc, popAccess s.queue s.consumer = some (q, pc, some none) →
          s.popped = s.pushed) := by
  have hinv := inv_of_reach hs
  refine ⟨?_, ?_, ?_, fun q pc hq => hinv.full_of_push_false hq,
    fun q pc hq => hinv.empty_of_pop_none hq⟩
  · rw [capacity_of_reach hs]
    exact capacity_isLeast hcap
  · rw [hinv.fifo]
    exact List.take_prefix _ _
  · have := hinv.holds.bound
    omega

/-- A queue of one slot is a queue of two: the third `push` is refused, and the
consumer, which had found something before, takes the oldest value. -/
def fullRun : List Act :=
  [.push 7#64, .producer, .producer, .producer, .push 8#64, .pop, .producer, .consumer,
   .producer, .producer, .push 9#64, .producer, .consumer, .consumer, .push 9#64]

theorem spsc_linearizable_full :
    ∃ s : State, Reach step anyStep (init 1) s
      ∧ s.pushed = [7#64, 8#64] ∧ s.popped = [7#64]
      ∧ IsLeast { c | (∃ k, c = 2 ^ k) ∧ 1 ≤ c ∧ 2 ≤ c } s.queue.capacity
      ∧ s.popped <+: s.pushed
      ∧ s.pushed.length - s.popped.length ≤ s.queue.capacity := by
  have hrun : (exec step (init 1) fullRun).map (fun s => (s.pushed, s.popped))
      = some ([7#64, 8#64], [7#64]) := by decide
  obtain ⟨s, hs, hf⟩ := Option.map_eq_some_iff.mp hrun
  obtain ⟨hpushed, hpopped⟩ := Prod.mk.inj hf
  have hreach := Reach.of_exec fullRun .refl hs
  obtain ⟨hleast, hprefix, hbound, _⟩ := spsc_linearizable 1 (by decide) s hreach
  exact ⟨s, hreach, hpushed, hpopped, hleast, hprefix, hbound⟩

end SpscSteps

end Entangle.Lockfree
