/-
  Entangle.Transport.WeakChannel — the zero-copy hand-off over a `ZeroCopyChannel`
  (entangle-transport/src/channel.rs), on release/acquire memory.

  A sender and a receiver, each one thread, share two queues and the chunks of a
  segment.  Only offsets go through the queues; the payload of a chunk is read and
  written by plain accesses, by whoever has the chunk in hand.  Nothing orders
  these accesses but the orderings inside `push` and `pop`.  `send` and
  `return_offset` are a `push` here, `receive` and `reclaim` a `pop`; a `push` that
  finds no room leaves the offset where it was (`return_offset` then tries again).

  Main results:
    * `Inv.step` — every access keeps the invariant: each chunk is in one place, and
      what has it in hand, or on its way, knows of every access made to it;
    * `handoff_race_free` — no access to a payload races, and what the receiver finds in
      the chunks it is handed is what the sender had put there.
-/
import Entangle.Lib.Ownership
import Entangle.Lockfree.SpscWeak
import Mathlib.Data.Finset.Basic

namespace Entangle.Transport.WeakChannel

open Entangle.Lib Entangle.Lib.WeakMemory Entangle.Lockfree

/-! ## §1. The two threads, the queues and the chunks. -/

inductive Side where
  | sender
  | receiver
  deriving Repr, DecidableEq

inductive Dir where
  | sendQueue
  | returnQueue
  deriving Repr, DecidableEq

/-- The words of the queues, and for each chunk all of its payload. -/
inductive Loc where
  | queue (d : Dir) (x : SpscWeak.QueueLoc)
  | chunk (c : U64)
  deriving Repr, DecidableEq

def Dir.producer : Dir → Side
  | .sendQueue => .sender
  | .returnQueue => .receiver

def Dir.consumer : Dir → Side
  | .sendQueue => .receiver
  | .returnQueue => .sender

theorem queue_injective (d : Dir) : Function.Injective (Loc.queue d) := by
  intro x y h
  injection h

/-- `ZeroCopyChannel::new`: two queues of the same capacity. -/
def layout (capacity : Nat) (d : Dir) : SpscWeak.Layout Loc Side where
  capacity := max (nextPowerOfTwo capacity) 2
  loc := Loc.queue d
  producer := d.producer
  consumer := d.consumer
  capacity_pow := max_two_pow capacity
  loc_inj := queue_injective d

variable {P : Type}

/-- Both queues of a channel in one memory, the chunks with their payloads, and which side
has which chunk in hand.  The payloads are plain memory: the model says what they hold,
and the views who may know it. -/
structure State (P : Type) where
  mem : Memory Loc U64 Side
  flow : Dir → SpscWeak.Flow Loc
  -- the chunks a side has in hand
  held : Side → Finset U64
  -- the payloads
  content : U64 → P
  -- offset and payload at each `push` that returned true, and at each `pop`
  given : Dir → List (U64 × P)
  got : Dir → List (U64 × P)

inductive Act (P : Type) where
  -- the calls, and the next access of each
  | push (d : Dir) (c : U64) (k : Nat)
  | producer (d : Dir) (k : Nat)
  | pop (d : Dir) (k : Nat)
  | consumer (d : Dir) (k : Nat)
  -- a plain access to a payload: a read, or a write of a new one
  | access (t : Side) (c : U64) (payload : Option P)

/-- A thread in none of its calls. -/
def State.idle (s : State P) : Side → Bool
  | .sender => (s.flow .sendQueue).producer = .idle ∧ (s.flow .returnQueue).consumer = .idle
  | .receiver => (s.flow .returnQueue).producer = .idle ∧ (s.flow .sendQueue).consumer = .idle

/-- The offset of a `push` that has stored nothing yet. -/
def calls : PushPc → Option U64
  | .loadedWrite v _ | .checked v _ => some v
  | _ => none

/-- The offset that a `push` gives up. -/
def refused : PushPc → PushPc → Finset U64
  | .loadedWrite v _, .idle => {v}
  | _, _ => ∅

/-- What is at the end of `l'` that was not in `l`, with the payloads. -/
def news (content : U64 → P) (l l' : List U64) : List (U64 × P) :=
  (l'.drop l.length).map (fun c => (c, content c))

/-- An access of queue `d`, with what the side that makes it has in hand afterwards. -/
def State.queueStep (s : State P) (capacity : Nat) (d : Dir) (a : SpscWeak.Act) :
    Option (State P) :=
  (SpscWeak.step (layout capacity d) s.mem (s.flow d) a).map (fun r =>
    { s with
      mem := r.1
      flow := Function.update s.flow d r.2
      given := Function.update s.given d
        (s.given d ++ news s.content (s.flow d).pushed r.2.pushed)
      got := Function.update s.got d
        (s.got d ++ news s.content (s.flow d).popped r.2.popped) })

def State.give (s : State P) (t : Side) (cs : Finset U64) : State P :=
  { s with held := Function.update s.held t (s.held t ∪ cs) }

def State.take (s : State P) (t : Side) (c : U64) : State P :=
  { s with held := Function.update s.held t ((s.held t).erase c) }

/-- One access of one of the two threads. -/
def step (capacity : Nat) (s : State P) : Act P → Option (State P)
  | .push d c k =>
      if s.idle d.producer ∧ c ∈ s.held d.producer then
        (s.queueStep capacity d (.push c k)).map (fun s' => s'.take d.producer c)
      else none
  | .producer d k =>
      (s.queueStep capacity d (.producer k)).map (fun s' =>
        s'.give d.producer (refused (s.flow d).producer (s'.flow d).producer))
  | .pop d k => if s.idle d.consumer then s.queueStep capacity d (.pop k) else none
  | .consumer d k =>
      (s.queueStep capacity d (.consumer k)).map (fun s' =>
        s'.give d.consumer ((s'.flow d).popped.drop (s.flow d).popped.length).toFinset)
  | .access t c payload =>
      if s.idle t ∧ c ∈ s.held t then
        some { s with
          mem := s.mem.store .relaxed t (.chunk c) 0#64
          content := (payload.elim s.content (Function.update s.content c)) }
      else none

/-- A new channel: the sender has all the chunks. -/
def init (chunks : Finset U64) (content : U64 → P) : State P where
  mem := .init (fun _ => 0#64)
  flow _ := .init Loc
  held
    | .sender => chunks
    | .receiver => ∅
  content := content
  given _ := []
  got _ := []

/-! ## §2. Where a chunk is. -/

/-- Where a chunk can be. -/
inductive Place where
  -- a side has it in hand
  | held (t : Side)
  -- its offset is in a `push` that has not stored it yet
  | calling (d : Dir)
  -- its offset is in a slot of the queue, at this position
  | inRing (d : Dir) (i : Nat)
  deriving DecidableEq

def State.At (s : State P) (c : U64) : Place → Prop
  | .held t => c ∈ s.held t
  | .calling d => calls (s.flow d).producer = some c
  | .inRing d i =>
      (s.flow d).popped.length ≤ i ∧ ∃ store, (s.flow d).ring[i]? = some store ∧ store.value = c

/-- What has the chunk knows of every access made to it. -/
def State.Known (s : State P) (c : U64) : Place → Prop
  | .held t => s.mem.Latest t (.chunk c)
  | .calling d => s.mem.Latest d.producer (.chunk c)
  | .inRing d i =>
      ∃ store, (s.flow d).ring[i]? = some store
        ∧ store.view (.chunk c) + 1 = (s.mem.stores (.chunk c)).length

/-- **The invariant.**  Both queues are in order; every chunk is in one place, in a hand or
in a queue, and whoever has it in hand knows its latest payload, as does the store
through which it will be handed over. -/
structure Inv (capacity : Nat) (chunks : Finset U64) (s : State P) : Prop where
  queue : ∀ d, SpscWeak.Inv (layout capacity d) s.mem (s.flow d)
  placed : Partition (· ∈ chunks) s.At
  known : ∀ c p, s.At c p → s.Known c p
  offsets : ∀ d, (s.given d).map Prod.fst = (s.flow d).pushed
  contents : ∀ d i c p, (s.flow d).popped.length ≤ i → (s.given d)[i]? = some (c, p) →
    s.content c = p
  got : ∀ d, s.got d = (s.given d).take (s.flow d).popped.length

theorem inv_init (capacity : Nat) (chunks : Finset U64) (content : U64 → P) :
    Inv capacity chunks (init chunks content) where
  queue d := SpscWeak.inv_init _ _ (fun _ => rfl)
  placed := by
    constructor
    · intro c p hp
      cases p with
      | held t =>
          cases t with
          | sender => exact hp
          | receiver => simp [State.At, init] at hp
      | calling d => simp [State.At, init, SpscWeak.Flow.init, calls] at hp
      | inRing d i => simp [State.At, init, SpscWeak.Flow.init] at hp
    · intro c hc
      exact ⟨.held .sender, hc⟩
    · intro c p p' hp hp'
      have hheld : ∀ p, (init chunks content).At c p → p = .held .sender := by
        intro p hp
        cases p with
        | held t =>
            cases t with
            | sender => rfl
            | receiver => simp [State.At, init] at hp
        | calling d => simp [State.At, init, SpscWeak.Flow.init, calls] at hp
        | inRing d i => simp [State.At, init, SpscWeak.Flow.init] at hp
      rw [hheld p hp, hheld p' hp']
  known c p hp := by
    cases p with
    | held t => rfl
    | calling d => rfl
    | inRing d i => simp [State.At, init, SpscWeak.Flow.init] at hp
  offsets d := rfl
  contents d i c p _ h := by simp [init] at h
  got d := rfl

/-! ## §3. What survives an access. -/

/-- What is known of a chunk stays known while it is not accessed. -/
theorem State.Known.mono {s s' : State P} {c : U64} {p : Place} (h : s.Known c p)
    (hok : s'.mem.Ok) (hgrow : s.mem.Grows s'.mem)
    (hstores : s'.mem.stores (.chunk c) = s.mem.stores (.chunk c))
    (hring : ∀ d (i : Nat) (store : Store Loc U64), (s.flow d).ring[i]? = some store →
      (s'.flow d).ring[i]? = some store) : s'.Known c p := by
  cases p with
  | held t => exact Memory.Latest.mono h hok (hgrow.view_le _ _) hstores
  | calling d => exact Memory.Latest.mono h hok (hgrow.view_le _ _) hstores
  | inRing d i =>
      obtain ⟨store, hstore, hview⟩ := h
      refine ⟨store, hring d i store hstore, ?_⟩
      rw [hstores]
      exact hview

variable {capacity : Nat} {chunks : Finset U64} {s : State P}

theorem queue_ne_chunk (capacity : Nat) (d : Dir) (c : U64) (x : SpscWeak.QueueLoc) :
    (layout capacity d).loc x ≠ .chunk c := by
  simp [layout]

theorem queue_ne_queue (capacity : Nat) {d d' : Dir} (hd : d' ≠ d) (x y : SpscWeak.QueueLoc) :
    (layout capacity d).loc x ≠ (layout capacity d').loc y := by
  intro heq
  simp only [layout, Loc.queue.injEq] at heq
  exact hd heq.1.symm

/-- An access of one queue keeps the invariants of both. -/
theorem queues_step (h : ∀ d, SpscWeak.Inv (layout capacity d) s.mem (s.flow d)) {d : Dir}
    {a : SpscWeak.Act} {m' : Memory Loc U64 Side} {f' : SpscWeak.Flow Loc}
    (hs : SpscWeak.step (layout capacity d) s.mem (s.flow d) a = some (m', f')) (d' : Dir) :
    SpscWeak.Inv (layout capacity d') m' (Function.update s.flow d f' d') := by
  have hstep := (h d).step hs
  by_cases hd : d' = d
  · subst hd
    rw [Function.update_self]
    exact hstep
  · rw [Function.update_of_ne hd]
    refine (h d').frame hstep.ok ((h d).step_grows hs) (fun x => ?_)
    exact SpscWeak.step_stores_other hs (fun y => queue_ne_queue capacity hd y x)

/-! ## §4. Where the chunks are after an access of queue `d`. -/

variable {s' : State P} {d : Dir} {f' : SpscWeak.Flow Loc}

/-- Only the flow of queue `d` and what is in hand have changed. -/
theorem at_other {p : Place} {c : U64} (hflow : s'.flow = Function.update s.flow d f')
    (hheld : ∀ t, p = .held t → s'.held t = s.held t)
    (hcalls : p = .calling d → calls f'.producer = calls (s.flow d).producer)
    (hring : ∀ i, p = .inRing d i →
      ((f'.popped.length ≤ i ∧ ∃ store, f'.ring[i]? = some store ∧ store.value = c) ↔ s.At c p)) :
    s'.At c p ↔ s.At c p := by
  cases p with
  | held t =>
      simp only [State.At]
      rw [hheld t rfl]
  | calling d' =>
      simp only [State.At]
      by_cases hd : d' = d
      · subst hd
        rw [hflow, Function.update_self, hcalls rfl]
      · rw [hflow, Function.update_of_ne hd]
  | inRing d' i =>
      by_cases hd : d' = d
      · subst hd
        rw [← hring i rfl]
        simp only [State.At]
        rw [hflow, Function.update_self]
      · simp only [State.At]
        rw [hflow, Function.update_of_ne hd]

/-- No chunk has moved. -/
theorem at_quiet (hflow : s'.flow = Function.update s.flow d f') (hheld : s'.held = s.held)
    (hcalls : calls f'.producer = calls (s.flow d).producer)
    (hring : f'.ring = (s.flow d).ring) (hpopped : f'.popped = (s.flow d).popped) (c : U64)
    (p : Place) : s'.At c p ↔ s.At c p := by
  refine at_other hflow (fun t _ => by rw [hheld]) (fun _ => hcalls) (fun i hp => ?_)
  rw [hp, hring, hpopped]
  rfl

/-- A `push` starts: the chunk goes from the hand into the call. -/
theorem moved_push {c : U64} (hcalls : calls (s.flow d).producer = none)
    (hflow : s'.flow = Function.update s.flow d f')
    (hheld : s'.held = Function.update s.held d.producer ((s.held d.producer).erase c))
    (hcalls' : calls f'.producer = some c) (hring : f'.ring = (s.flow d).ring)
    (hpopped : f'.popped = (s.flow d).popped) :
    Moved s.At s'.At c (.held d.producer) (.calling d) := by
  refine ⟨?_, ?_, ?_⟩
  · intro c'
    show c' ∈ s'.held d.producer ↔ _
    rw [hheld, Function.update_self, Finset.mem_erase]
    rfl
  · intro c'
    show calls (s'.flow d).producer = some c' ↔ c' = c ∨ calls (s.flow d).producer = some c'
    rw [hflow, Function.update_self, hcalls', hcalls]
    simp only [Option.some.injEq, reduceCtorEq, or_false]
    exact eq_comm
  · intro c' p hsrc hdst
    refine at_other hflow (fun t hp => ?_) (fun hp => absurd hp hdst) (fun i hp => ?_)
    · rw [hheld, Function.update_of_ne]
      rintro rfl
      exact hsrc hp
    · rw [hp, hring, hpopped]
      rfl

/-- A `push` is refused: the chunk goes back into the hand. -/
theorem moved_refused {c : U64}
    (hcalls : calls (s.flow d).producer = some c)
    (hflow : s'.flow = Function.update s.flow d f')
    (hheld : s'.held = Function.update s.held d.producer (s.held d.producer ∪ {c}))
    (hcalls' : calls f'.producer = none) (hring : f'.ring = (s.flow d).ring)
    (hpopped : f'.popped = (s.flow d).popped) :
    Moved s.At s'.At c (.calling d) (.held d.producer) := by
  refine ⟨?_, ?_, ?_⟩
  · intro c'
    show calls (s'.flow d).producer = some c' ↔ c' ≠ c ∧ calls (s.flow d).producer = some c'
    rw [hflow, Function.update_self, hcalls', hcalls]
    simp only [reduceCtorEq, Option.some.injEq, false_iff, not_and]
    exact fun hne heq => hne heq.symm
  · intro c'
    show c' ∈ s'.held d.producer ↔ c' = c ∨ c' ∈ s.held d.producer
    rw [hheld, Function.update_self, Finset.mem_union, Finset.mem_singleton]
    exact or_comm
  · intro c' p hsrc hdst
    refine at_other hflow (fun t hp => ?_) (fun hp => absurd hp hsrc) (fun i hp => ?_)
    · rw [hheld, Function.update_of_ne]
      rintro rfl
      exact hdst hp
    · rw [hp, hring, hpopped]
      rfl

/-- The offset is stored: the chunk goes from the call into the ring. -/
theorem moved_store {c : U64} {made : Store Loc U64}
    (hcalls : calls (s.flow d).producer = some c) (hmade : made.value = c)
    (hle : (s.flow d).popped.length ≤ (s.flow d).ring.length)
    (hflow : s'.flow = Function.update s.flow d f') (hheld : s'.held = s.held)
    (hcalls' : calls f'.producer = none) (hring : f'.ring = (s.flow d).ring ++ [made])
    (hpopped : f'.popped = (s.flow d).popped) :
    Moved s.At s'.At c (.calling d) (.inRing d (s.flow d).ring.length) := by
  refine ⟨?_, ?_, ?_⟩
  · intro c'
    show calls (s'.flow d).producer = some c' ↔ c' ≠ c ∧ calls (s.flow d).producer = some c'
    rw [hflow, Function.update_self, hcalls', hcalls]
    simp only [reduceCtorEq, Option.some.injEq, false_iff, not_and]
    exact fun hne heq => hne heq.symm
  · intro c'
    simp only [State.At]
    rw [hflow, Function.update_self, hring, hpopped, List.getElem?_concat_length,
      List.getElem?_eq_none (Nat.le_refl _)]
    constructor
    · rintro ⟨_, store, heq, hc'⟩
      obtain rfl := Option.some.inj heq
      exact .inl (hc'.symm.trans hmade)
    · rintro (rfl | ⟨_, store, heq, _⟩)
      · exact ⟨hle, made, rfl, hmade⟩
      · exact absurd heq (by simp)
  · intro c' p hsrc hdst
    refine at_other hflow (fun t _ => by rw [hheld]) (fun hp => absurd hp hsrc) (fun i hp => ?_)
    have hi : i ≠ (s.flow d).ring.length := by
      rintro rfl
      exact hdst hp
    rw [hp, hring, hpopped, SpscWeak.getElem?_concat_ne hi]
    rfl

/-- A `pop` returns: the chunk goes from the ring into the hand. -/
theorem moved_consume {store : Store Loc U64}
    (hstore : (s.flow d).ring[(s.flow d).popped.length]? = some store)
    (hflow : s'.flow = Function.update s.flow d f')
    (hheld : s'.held = Function.update s.held d.consumer (s.held d.consumer ∪ {store.value}))
    (hcalls : calls f'.producer = calls (s.flow d).producer)
    (hring : f'.ring = (s.flow d).ring)
    (hpopped : f'.popped = (s.flow d).popped ++ [store.value]) :
    Moved s.At s'.At store.value (.inRing d (s.flow d).popped.length) (.held d.consumer) := by
  refine ⟨?_, ?_, ?_⟩
  · intro c'
    simp only [State.At]
    rw [hflow, Function.update_self, hpopped, List.length_append, List.length_singleton, hstore]
    constructor
    · rintro ⟨hle, _⟩
      omega
    · rintro ⟨hne, _, store', heq, hc'⟩
      obtain rfl := Option.some.inj heq
      exact absurd hc'.symm hne
  · intro c'
    show c' ∈ s'.held d.consumer ↔ c' = store.value ∨ c' ∈ s.held d.consumer
    rw [hheld, Function.update_self, Finset.mem_union, Finset.mem_singleton]
    exact or_comm
  · intro c' p hsrc hdst
    refine at_other hflow (fun t hp => ?_) (fun _ => hcalls) (fun i hp => ?_)
    · rw [hheld, Function.update_of_ne]
      rintro rfl
      exact hdst hp
    · have hi : i ≠ (s.flow d).popped.length := by
        rintro rfl
        exact hsrc hp
      rw [hp, hring, hpopped, List.length_append, List.length_singleton]
      constructor
      · rintro ⟨hle, hex⟩
        exact ⟨by omega, hex⟩
      · rintro ⟨hle, hex⟩
        exact ⟨by omega, hex⟩

/-! ## §5. What has gone through. -/

theorem map_fst_news (content : U64 → P) (l rest : List U64) :
    (news content l (l ++ rest)).map Prod.fst = rest := by
  simp [news, Function.comp_def]

/-- What a `pop` gets is what was given at that position. -/
theorem got_eq {content : U64 → P} {given : List (U64 × P)} {pushed popped rest : List U64}
    (hoffsets : given.map Prod.fst = pushed)
    (hfifo : popped ++ rest = pushed.take (popped ++ rest).length)
    (hcontents : ∀ i c p, popped.length ≤ i → given[i]? = some (c, p) → content c = p) :
    given.take popped.length ++ news content popped (popped ++ rest)
      = given.take (popped ++ rest).length := by
  have hnews : news content popped (popped ++ rest)
      = (given.drop popped.length).take rest.length := by
    apply List.ext_getElem?
    intro i
    simp only [news, List.drop_left, List.getElem?_map]
    by_cases hi : i < rest.length
    · have hget : (popped ++ rest)[popped.length + i]? = some rest[i] := by
        rw [List.getElem?_append_right (by omega), Nat.add_sub_cancel_left,
          List.getElem?_eq_getElem hi]
      rw [hfifo, List.getElem?_take_of_lt (by rw [List.length_append]; omega), ← hoffsets,
        List.getElem?_map] at hget
      obtain ⟨⟨c, p⟩, hgiven, hc⟩ := Option.map_eq_some_iff.mp hget
      have hp := hcontents _ c p (Nat.le_add_right _ _) hgiven
      rw [List.getElem?_take_of_lt hi, List.getElem?_drop, hgiven, List.getElem?_eq_getElem hi,
        Option.map_some, ← hc, ← hp]
    · rw [List.getElem?_eq_none (by omega),
        List.getElem?_eq_none (by rw [List.length_take]; omega)]
      rfl
  rw [hnews, List.length_append, List.take_add]

/-- A step of a queue adds to what has gone through it. -/
theorem flow_grows {q : SpscWeak.Layout Loc Side} {m m' : Memory Loc U64 Side}
    {f : SpscWeak.Flow Loc} {a : SpscWeak.Act}
    (hs : SpscWeak.step q m f a = some (m', f')) :
    f.ring <+: f'.ring ∧ f.pushed <+: f'.pushed ∧ f.popped <+: f'.popped := by
  cases SpscWeak.step_cases hs with
  | storeSlot => exact ⟨List.prefix_append _ _, List.prefix_refl _, List.prefix_refl _⟩
  | publish => exact ⟨List.prefix_refl _, List.prefix_append _ _, List.prefix_refl _⟩
  | consume => exact ⟨List.prefix_refl _, List.prefix_refl _, List.prefix_append _ _⟩
  | _ => exact ⟨List.prefix_refl _, List.prefix_refl _, List.prefix_refl _⟩

/-- **One access of a queue**, once it is known where the chunks are afterwards. -/
theorem Inv.queueStep (h : Inv capacity chunks s) {a : SpscWeak.Act} {m' : Memory Loc U64 Side}
    (hs : SpscWeak.step (layout capacity d) s.mem (s.flow d) a = some (m', f'))
    (hmem : s'.mem = m') (hflow : s'.flow = Function.update s.flow d f')
    (hcontent : s'.content = s.content)
    (hgiven : s'.given = Function.update s.given d
      (s.given d ++ news s.content (s.flow d).pushed f'.pushed))
    (hgot : s'.got = Function.update s.got d
      (s.got d ++ news s.content (s.flow d).popped f'.popped))
    (hplaced : Partition (· ∈ chunks) s'.At)
    (hnew : ∀ c p, s'.At c p → s.At c p ∨ s'.Known c p) : Inv capacity chunks s' := by
  subst hmem
  have hqueue : ∀ d', SpscWeak.Inv (layout capacity d') s'.mem (s'.flow d') := by
    intro d'
    rw [hflow]
    exact queues_step h.queue hs d'
  obtain ⟨hring, ⟨pushed, hpushed⟩, ⟨popped, hpopped⟩⟩ := flow_grows hs
  have hoffsets : (s.given d ++ news s.content (s.flow d).pushed f'.pushed).map Prod.fst
      = f'.pushed := by
    rw [← hpushed, List.map_append, map_fst_news, h.offsets d]
  have hcontents : ∀ i c p, (s.flow d).popped.length ≤ i →
      (s.given d ++ news s.content (s.flow d).pushed f'.pushed)[i]? = some (c, p) →
      s.content c = p := by
    intro i c p hi hget
    by_cases hold : i < (s.given d).length
    · rw [List.getElem?_append_left hold] at hget
      exact h.contents d i c p hi hget
    · rw [List.getElem?_append_right (by omega)] at hget
      simp only [news, List.getElem?_map, Option.map_eq_some_iff, Prod.mk.injEq] at hget
      obtain ⟨c', _, rfl, rfl⟩ := hget
      rfl
  refine ⟨hqueue, hplaced, ?_, ?_, ?_, ?_⟩
  · intro c p hp
    rcases hnew c p hp with hold | hknown
    · refine (h.known c p hold).mono (hqueue d).ok ((h.queue d).step_grows hs) ?_ ?_
      · exact SpscWeak.step_stores_other hs (queue_ne_chunk capacity d c)
      · intro d' i store hstore
        rw [hflow]
        by_cases hd : d' = d
        · subst hd
          rw [Function.update_self]
          obtain ⟨rest, hrest⟩ := hring
          rw [← hrest]
          exact append_of_some _ hstore
        · rw [Function.update_of_ne hd]
          exact hstore
    · exact hknown
  · intro d'
    rw [hgiven, hflow]
    by_cases hd : d' = d
    · subst hd
      rw [Function.update_self, Function.update_self]
      exact hoffsets
    · rw [Function.update_of_ne hd, Function.update_of_ne hd]
      exact h.offsets d'
  · intro d' i c p
    rw [hgiven, hflow, hcontent]
    by_cases hd : d' = d
    · subst hd
      rw [Function.update_self, Function.update_self]
      intro hi hget
      refine hcontents i c p ?_ hget
      rw [← hpopped, List.length_append] at hi
      omega
    · rw [Function.update_of_ne hd, Function.update_of_ne hd]
      exact h.contents d' i c p
  · intro d'
    rw [hgot, hgiven, hflow]
    by_cases hd : d' = d
    · subst hd
      rw [Function.update_self, Function.update_self, Function.update_self, h.got d']
      have hfifo := (hqueue d').fifo
      rw [hflow, Function.update_self, ← hpopped] at hfifo
      have hgoteq := got_eq hoffsets hfifo hcontents
      rw [List.take_append_of_le_length ?_, hpopped] at hgoteq
      · exact hgoteq
      · have hle := (h.queue d').popped_le
        rw [← h.offsets d', List.length_map] at hle
        exact hle
    · rw [Function.update_of_ne hd, Function.update_of_ne hd, Function.update_of_ne hd]
      exact h.got d'

/-- An access of a queue that takes the chunk `c` from the place `src` to `dst`. -/
theorem Inv.moveStep (h : Inv capacity chunks s) {a : SpscWeak.Act} {m' : Memory Loc U64 Side}
    (hs : SpscWeak.step (layout capacity d) s.mem (s.flow d) a = some (m', f'))
    (hmem : s'.mem = m') (hflow : s'.flow = Function.update s.flow d f')
    (hcontent : s'.content = s.content)
    (hgiven : s'.given = Function.update s.given d
      (s.given d ++ news s.content (s.flow d).pushed f'.pushed))
    (hgot : s'.got = Function.update s.got d
      (s.got d ++ news s.content (s.flow d).popped f'.popped))
    {c : U64} {src dst : Place} (hmoved : Moved s.At s'.At c src dst) (hne : src ≠ dst)
    (hsrc : s.At c src) (hdst : s'.Known c dst) : Inv capacity chunks s' := by
  refine h.queueStep hs hmem hflow hcontent hgiven hgot
    (hmoved.partition h.placed hne hsrc) ?_
  intro c' p hp
  rcases hmoved.cases hp with hold | ⟨rfl, rfl⟩
  · exact .inl hold
  · exact .inr hdst

/-- An access of a queue leaves what is known of a chunk as it was. -/
theorem latest_step (h : Inv capacity chunks s) {a : SpscWeak.Act} {m' : Memory Loc U64 Side}
    (hs : SpscWeak.step (layout capacity d) s.mem (s.flow d) a = some (m', f')) {t : Side}
    {c : U64} (hlatest : s.mem.Latest t (.chunk c)) : m'.Latest t (.chunk c) := by
  refine Memory.Latest.mono hlatest ((h.queue d).step hs).ok ?_ ?_
  · exact ((h.queue d).step_grows hs).view_le _ _
  · exact SpscWeak.step_stores_other hs (queue_ne_chunk capacity d c)

/-- An access of a queue that takes no chunk from one place to another. -/
theorem Inv.quiet (h : Inv capacity chunks s) {a : SpscWeak.Act} {m' : Memory Loc U64 Side}
    (hs : SpscWeak.step (layout capacity d) s.mem (s.flow d) a = some (m', f'))
    (hmem : s'.mem = m') (hflow : s'.flow = Function.update s.flow d f')
    (hheld : s'.held = s.held) (hcontent : s'.content = s.content)
    (hgiven : s'.given = Function.update s.given d
      (s.given d ++ news s.content (s.flow d).pushed f'.pushed))
    (hgot : s'.got = Function.update s.got d
      (s.got d ++ news s.content (s.flow d).popped f'.popped))
    (hcalls : calls f'.producer = calls (s.flow d).producer)
    (hring : f'.ring = (s.flow d).ring) (hpopped : f'.popped = (s.flow d).popped) :
    Inv capacity chunks s' := by
  have hquiet := at_quiet hflow hheld hcalls hring hpopped
  exact h.queueStep hs hmem hflow hcontent hgiven hgot (h.placed.congr hquiet)
    (fun c p hp => .inl ((hquiet c p).mp hp))

/-! ## §6. Every access, and every run. -/

/-- What an access of a queue leaves behind, before anything changes hands. -/
theorem queueStep_cases {a : SpscWeak.Act} (hs : s.queueStep capacity d a = some s') :
    ∃ m' f', SpscWeak.step (layout capacity d) s.mem (s.flow d) a = some (m', f')
      ∧ s' = { s with
          mem := m'
          flow := Function.update s.flow d f'
          given := Function.update s.given d
            (s.given d ++ news s.content (s.flow d).pushed f'.pushed)
          got := Function.update s.got d
            (s.got d ++ news s.content (s.flow d).popped f'.popped) } := by
  unfold State.queueStep at hs
  obtain ⟨⟨m', f'⟩, hstep, rfl⟩ := Option.map_eq_some_iff.mp hs
  exact ⟨m', f', hstep, rfl⟩

/-- A `push` starts. -/
theorem Inv.push (h : Inv capacity chunks s) {c : U64} {k : Nat} {s₁ : State P}
    (hc : c ∈ s.held d.producer) (hs : s.queueStep capacity d (.push c k) = some s₁) :
    Inv capacity chunks (s₁.take d.producer c) := by
  obtain ⟨m', f', hstep, rfl⟩ := queueStep_cases hs
  have hqueue := hstep
  cases SpscWeak.step_cases hstep with
  | push _ _ w _ hidle hload =>
      have hcalls : calls (s.flow d).producer = none := by rw [hidle]; rfl
      exact h.moveStep hqueue rfl rfl rfl rfl rfl (moved_push hcalls rfl rfl rfl rfl rfl)
        (by simp) hc (latest_step h hqueue (h.known c (.held d.producer) hc))

/-- A store into a slot keeps what its thread knows of the chunks. -/
theorem made_cases (capacity : Nat) {v w : U64} (hpc : (s.flow d).producer = .checked v w) :
    ∃ store, SpscWeak.made (layout capacity d) s.mem (s.flow d).producer = [store]
      ∧ store.value = v ∧ ∀ c, store.view (.chunk c) = s.mem.view d.producer (.chunk c) := by
  rw [hpc]
  refine ⟨_, rfl, rfl, fun c => ?_⟩
  simp only [kept]
  rw [see_of_ne (queue_ne_chunk capacity d c _).symm]
  rfl

/-- Nothing is put into a hand. -/
theorem give_empty (s : State P) (t : Side) : (s.give t ∅).held = s.held := by
  simp [State.give]

/-- The next access of a `push`. -/
theorem Inv.producer (h : Inv capacity chunks s) {k : Nat} {s₁ : State P}
    (hs : s.queueStep capacity d (.producer k) = some s₁) :
    Inv capacity chunks
      (s₁.give d.producer (refused (s.flow d).producer (s₁.flow d).producer)) := by
  obtain ⟨m', f', hstep, rfl⟩ := queueStep_cases hs
  have hqueue := hstep
  simp only [Function.update_self]
  cases SpscWeak.step_cases hstep with
  | loadReadPos _ v w r _ hpc hload =>
      have hcalls : calls (s.flow d).producer = some v := by rw [hpc]; rfl
      by_cases hfull : (w - r).toNat ≥ (layout capacity d).capacity
      · -- refused: the chunk goes back into the hand
        simp only [if_pos hfull, hpc, refused] at hqueue ⊢
        exact h.moveStep hqueue rfl rfl rfl rfl rfl (moved_refused hcalls rfl rfl rfl rfl rfl)
          (by simp) hcalls (latest_step h hqueue (h.known v (.calling d) hcalls))
      · simp only [if_neg hfull, hpc, refused] at hqueue ⊢
        exact h.quiet hqueue rfl rfl (give_empty _ _) rfl rfl rfl hcalls.symm rfl rfl
  | storeSlot _ v w hpc =>
      have hcalls : calls (s.flow d).producer = some v := by rw [hpc]; rfl
      have hrefused : refused (s.flow d).producer (.stored v w) = ∅ := by rw [hpc]; rfl
      have hle : (s.flow d).popped.length ≤ (s.flow d).ring.length := by
        have hpopped := (h.queue d).popped_le
        have hring := (h.queue d).ring_length
        omega
      obtain ⟨store, hmade, hvalue, hview⟩ := made_cases capacity hpc
      rw [hrefused]
      refine h.moveStep hqueue rfl rfl rfl rfl rfl
        (moved_store hcalls hvalue hle rfl (give_empty _ _) rfl (congrArg _ hmade) rfl)
        (by simp) hcalls ?_
      -- the store keeps what the sender knows, and it knows of all accesses to the chunk
      have hlatest : s.mem.Latest d.producer (.chunk v) := h.known v (.calling d) hcalls
      refine ⟨store, ?_, ?_⟩
      · show (Function.update s.flow d _ d).ring[(s.flow d).ring.length]? = some store
        rw [Function.update_self, hmade]
        exact List.getElem?_concat_length
      · have hsame := SpscWeak.step_stores_other hqueue (queue_ne_chunk capacity d v)
        rw [hview]
        exact hlatest.trans (congrArg List.length hsame.symm)
  | publish _ v w hpc =>
      have hrefused : refused (s.flow d).producer .idle = ∅ := by rw [hpc]; rfl
      rw [hrefused]
      exact h.quiet hqueue rfl rfl (give_empty _ _) rfl rfl rfl (by rw [hpc]; rfl) rfl rfl

/-- A `pop` starts. -/
theorem Inv.pop (h : Inv capacity chunks s) {k : Nat}
    (hs : s.queueStep capacity d (.pop k) = some s') : Inv capacity chunks s' := by
  obtain ⟨m', f', hstep, rfl⟩ := queueStep_cases hs
  have hqueue := hstep
  cases SpscWeak.step_cases hstep with
  | pop _ r _ _ hload => exact h.quiet hqueue rfl rfl rfl rfl rfl rfl rfl rfl rfl

/-- The next access of a `pop`. -/
theorem Inv.consumer (h : Inv capacity chunks s) {k : Nat} {s₁ : State P}
    (hs : s.queueStep capacity d (.consumer k) = some s₁) :
    Inv capacity chunks
      (s₁.give d.consumer ((s₁.flow d).popped.drop (s.flow d).popped.length).toFinset) := by
  obtain ⟨m', f', hstep, rfl⟩ := queueStep_cases hs
  have hqueue := hstep
  simp only [Function.update_self]
  cases SpscWeak.step_cases hstep with
  | loadWritePos _ r w _ hpc hload =>
      simp only [List.drop_length, List.toFinset_nil]
      exact h.quiet hqueue rfl rfl (give_empty _ _) rfl rfl rfl rfl rfl rfl
  | loadSlot _ r v _ hpc hload =>
      simp only [List.drop_length, List.toFinset_nil]
      exact h.quiet hqueue rfl rfl (give_empty _ _) rfl rfl rfl rfl rfl rfl
  | consume _ r v hpc =>
      have hc := (h.queue d).consumer
      rw [hpc] at hc
      obtain ⟨_, _, store, hstore, rfl, hview⟩ := hc
      simp only [List.drop_left, List.toFinset_cons, List.toFinset_nil, insert_empty_eq]
      have hring : s.At store.value (.inRing d (s.flow d).popped.length) :=
        ⟨Nat.le_refl _, store, hstore, rfl⟩
      refine h.moveStep hqueue rfl rfl rfl rfl rfl (moved_consume hstore rfl rfl rfl rfl rfl)
        (by simp) hring ?_
      -- what the store has kept is known to the one that has loaded it
      obtain ⟨store', hstore', hlatest⟩ := h.known store.value _ hring
      rw [hstore] at hstore'
      obtain rfl := Option.some.inj hstore'
      have hok := ((h.queue d).step hqueue).ok
      have hsame := SpscWeak.step_stores_other hqueue (queue_ne_chunk capacity d store.value)
      have hseen := (hview (.chunk store.value)).trans
        (((h.queue d).step_grows hqueue).view_le (layout capacity d).consumer _)
      have hlt := hok.view d.consumer (.chunk store.value)
      rw [hsame] at hlt
      refine Eq.trans ?_ (congrArg List.length hsame.symm)
      exact Nat.le_antisymm hlt (hlatest.symm.le.trans (Nat.succ_le_succ hseen))

/-- A plain access to a payload, by the side that has the chunk in hand. -/
theorem Inv.access (h : Inv capacity chunks s) {t : Side} {c : U64} (hc : c ∈ s.held t)
    (payload : Option P) :
    Inv capacity chunks { s with
      mem := s.mem.store .relaxed t (.chunk c) 0#64
      content := payload.elim s.content (Function.update s.content c) } := by
  have hcontent : ∀ c', c' ≠ c →
      (payload.elim s.content (Function.update s.content c)) c' = s.content c' := by
    intro c' hne
    cases payload with
    | none => rfl
    | some p => exact Function.update_of_ne hne p s.content
  have hok : ∀ d, (s.mem.store .relaxed t (.chunk c) 0#64).Ok := fun d => (h.queue d).ok.store
  refine ⟨fun d => ?_, h.placed, ?_, h.offsets, ?_, h.got⟩
  · exact (h.queue d).storeElsewhere .relaxed t 0#64 (queue_ne_chunk capacity d c)
  · intro c' p hp
    by_cases hcc : c' = c
    · -- it is in the hand that accesses it, and nowhere else
      subst hcc
      obtain rfl := h.placed.single c' p (.held t) hp hc
      exact Memory.latest_store _ _ _ _ _
    · refine (h.known c' p hp).mono (hok .sendQueue)
        (Memory.store_grows (h.queue .sendQueue).ok) ?_ (fun _ _ _ hstore => hstore)
      exact Memory.store_stores_ne _ _ _ _ (by simpa using hcc)
  · intro d i c' p hi hget
    have hold := h.contents d i c' p hi hget
    by_cases hcc : c' = c
    · -- a chunk on its way is in nobody's hand
      subst hcc
      have hpushed : (s.flow d).pushed[i]? = some c' := by
        rw [← h.offsets d, List.getElem?_map, hget]
        rfl
      have hring : s.At c' (.inRing d i) := by
        have hvalues := (h.queue d).values
        have hlt := (List.getElem?_eq_some_iff.mp hpushed).1
        have hget' : ((s.flow d).ring.map Store.value)[i]? = some c' := by
          rw [hvalues, List.getElem?_append_left hlt, hpushed]
        rw [List.getElem?_map] at hget'
        obtain ⟨store, hstore, hv⟩ := Option.map_eq_some_iff.mp hget'
        exact ⟨hi, store, hstore, hv⟩
      exact absurd hc (h.placed.not_at (q := .held t) hring (by simp))
    · rw [← hold]
      exact hcontent c' hcc

/-- **The step lemma.** -/
theorem Inv.step (h : Inv capacity chunks s) {a : Act P}
    (hs : WeakChannel.step capacity s a = some s') : Inv capacity chunks s' := by
  cases a with
  | push d c k =>
      simp only [WeakChannel.step, Option.ite_none_right_eq_some] at hs
      obtain ⟨s₁, hqueue, rfl⟩ := Option.map_eq_some_iff.mp hs.2
      exact h.push hs.1.2 hqueue
  | producer d k =>
      simp only [WeakChannel.step] at hs
      obtain ⟨s₁, hqueue, rfl⟩ := Option.map_eq_some_iff.mp hs
      exact h.producer hqueue
  | pop d k =>
      simp only [WeakChannel.step, Option.ite_none_right_eq_some] at hs
      exact h.pop hs.2
  | consumer d k =>
      simp only [WeakChannel.step] at hs
      obtain ⟨s₁, hqueue, rfl⟩ := Option.map_eq_some_iff.mp hs
      exact h.consumer hqueue
  | access t c payload =>
      simp only [WeakChannel.step, Option.ite_none_right_eq_some, Option.some.injEq] at hs
      obtain ⟨⟨_, hc⟩, rfl⟩ := hs
      exact h.access hc payload

/-- **The zero-copy hand-off is free of data races**, whatever the capacity, the chunks
and the interleaving, and however old the positions that are loaded.  Whoever has a chunk
in hand knows of every access made to its payload, no chunk is ever in two places or
lost, and the payloads that the receiver finds in the chunks it takes out are those that
the sender had put there, in that order. -/
theorem handoff_race_free (capacity : Nat) (chunks : Finset U64) (content : U64 → P) (s : State P)
    (hs : Reach (WeakChannel.step capacity) anyStep (init chunks content) s) :
    (∀ t c, c ∈ s.held t → s.mem.Latest t (.chunk c))
      ∧ (∀ c, c ∈ chunks ↔ ∃! p, s.At c p)
      ∧ ∀ d, s.got d <+: s.given d := by
  have hinv : Inv capacity chunks s :=
    hs.invariant (Inv capacity chunks) (inv_init capacity chunks content)
      (fun _ _ _ hi _ hstep => hi.step hstep)
  refine ⟨fun t c hc => hinv.known c (.held t) hc, fun c => ?_, fun d => ?_⟩
  · constructor
    · exact fun hc => hinv.placed.existsUnique hc
    · rintro ⟨p, hp, _⟩
      exact hinv.placed.inDom c p hp
  · rw [hinv.got d]
    exact List.take_prefix _ _

/-- One chunk goes to the receiver and comes back, and its payload is written again. -/
def roundTrip : List (Act Bool) :=
  [.access .sender 7#64 (some true),
   .push .sendQueue 7#64 0, .producer .sendQueue 0, .producer .sendQueue 0, .producer .sendQueue 0,
   .pop .sendQueue 0, .consumer .sendQueue 1, .consumer .sendQueue 1, .consumer .sendQueue 0,
   .access .receiver 7#64 none,
   .push .returnQueue 7#64 0, .producer .returnQueue 0, .producer .returnQueue 0,
   .producer .returnQueue 0,
   .pop .returnQueue 0, .consumer .returnQueue 1, .consumer .returnQueue 1,
   .consumer .returnQueue 0,
   .access .sender 7#64 (some false)]

theorem handoff_race_free_round :
    ∃ s : State Bool, Reach (WeakChannel.step 1) anyStep (init {7#64} (fun _ => false)) s
      ∧ s.got .sendQueue = [(7#64, true)] ∧ s.mem.Latest .sender (.chunk 7#64)
      ∧ ∃! p, s.At 7#64 p := by
  have hrun : (exec (WeakChannel.step 1) (init {7#64} (fun _ => false)) roundTrip).map
      (fun s => (s.got .sendQueue, decide (7#64 ∈ s.held .sender)))
      = some ([(7#64, true)], true) := by
    decide
  obtain ⟨s, hs, hf⟩ := Option.map_eq_some_iff.mp hrun
  obtain ⟨hgot, hheld⟩ := Prod.mk.inj hf
  have hreach := Reach.of_exec roundTrip .refl hs
  obtain ⟨hlatest, hplaces, _⟩ := handoff_race_free 1 {7#64} (fun _ => false) s hreach
  exact ⟨s, hreach, hgot, hlatest .sender _ (of_decide_eq_true hheld),
    (hplaces 7#64).mp (Finset.mem_singleton_self _)⟩

end Entangle.Transport.WeakChannel
