/-
  Entangle.ReqRes.WorkersSerialised — worker threads may answer the requests of
  one client as long as they do not overtake each other.

  A thread that has not been overtaken knows what the only producer of the
  response queue would know (`StampOk`), so what is in the queue is what was
  answered and not yet popped.  The chunks are apart: each is free, or with the
  rest of the service, or with one thread, in the queue, or with the client.

  Main results:
    * `Inv.step` — every step that meets `serialised` keeps the invariant;
    * `workers_serialised` — in runs that keep to `serialised` no response is
      taken twice or lost, and they are taken in the order of the answers.
-/
import Entangle.Lib.Ownership
import Entangle.ReqRes.Workers

namespace Entangle.ReqRes.Workers

open Entangle.Lib Entangle.Lockfree Entangle.Transport

variable {resSize : Nat} {Tid : Type}

/-! ## §1. The invariant. -/

/-- Where a chunk that is not free can be. -/
inductive Place (Tid : Type) where
  | others
  | worker (t : Tid)
  | queue
  | client
  deriving DecidableEq

def WorkerPc.held : WorkerPc resSize → List PointerOffset
  | .idle => []
  | .writing offset _ | .pushing offset _ _ _ => [offset]

/-- The response that `try_receive` has popped and not yet returned. -/
def ClientPc.inHand (segment : DataSegment) :
    ClientPc resSize → List (PointerOffset × Payload resSize)
  | .idle | .popping _ => []
  | .reading offset => [(offset, segment.read resSize offset)]
  | .releasing offset response => [(offset, response)]

/-- The responses popped so far. -/
def State.popped (s : State resSize Tid) : List (PointerOffset × Payload resSize) :=
  s.taken ++ s.client.inHand s.segment

/-- The responses in the queue. -/
def State.waiting (s : State resSize Tid) : List (PointerOffset × Payload resSize) :=
  s.answered.drop s.popped.length

/-- What has been pushed, as the queue stores it. -/
def State.pushed (s : State resSize Tid) : List U64 := s.answered.map (fun x => x.1.raw)

def State.held (s : State resSize Tid) : Place Tid → List PointerOffset
  | .others => s.others
  | .worker t => (s.worker t).held
  | .queue => s.waiting.map Prod.fst
  | .client => (s.client.inHand s.segment).map Prod.fst

/-- What holds of a thread at each point of its call. -/
def WorkerOk (s : State resSize Tid) : WorkerPc resSize → Prop
  | .idle | .writing _ _ => True
  | .pushing offset response pc stamp =>
      s.segment.read resSize offset = response ∧ (pc = .idle ∨ pc.value = some offset.raw)
        ∧ StampOk s.responseQueue s.pushed s.popped.length s.stores stamp pc

def ClientOk (s : State resSize Tid) : Prop :=
  match s.client with
  | .popping pc => ConsumerOk s.pushed s.popped.length pc
  | _ => True

/-- **The invariant**, with `l` the free list.  A chunk is free or in one place only: in a
worker's hand, in the queue, in the client's hand, or somebody else's.  The queue
holds what has been pushed and not yet popped, and what is popped is a beginning of
what has been answered, in the order of the answers; a chunk that waits still holds its
response.  A worker whose loads nobody has overtaken finds the queue as it saw it, and
the client frees exactly what it takes. -/
structure Inv (s : State resSize Tid) (l : List U32) : Prop where
  free : s.segment.Free l
  fits : resSize ≤ s.segment.layout.chunkSize
  apart : Apart (Taken s.segment.layout l) s.held
  queue : s.responseQueue.Holds s.pushed s.popped.length
  fifo : s.popped <+: s.answered
  values : ∀ x ∈ s.waiting, s.segment.read resSize x.1 = x.2
  worker : ∀ t, WorkerOk s (s.worker t)
  client : ClientOk s
  freed : s.freed = s.taken.map Prod.fst

/-- Initially every chunk is free. -/
theorem inv_init {reqSize : Nat} {qos : ReqResQos} {service : Service reqSize resSize}
    (h : Service.create reqSize resSize qos = some service) :
    ∃ l, Inv (init service : State resSize Tid) l := by
  obtain ⟨segment, hseg, rfl⟩ := Option.map_eq_some_iff.mp h
  obtain ⟨hfree, _, hsize⟩ := DataSegment.create_free hseg
  refine ⟨_, hfree, ?_, ?_, SpscQueue.holds_new _, List.nil_prefix, ?_, fun _ => trivial, trivial,
    rfl⟩
  · show resSize ≤ segment.layout.chunkSize
    rw [hsize]
    unfold DataSegment.aligned
    omega
  · constructor
    · intro p
      cases p <;> exact List.nodup_nil
    · intro p q x hx
      cases p <;> exact absurd hx (by simp [State.held, init, WorkerPc.held, State.waiting,
        ClientPc.inHand])
    · intro p x hx
      cases p <;> exact absurd hx (by simp [State.held, init, WorkerPc.held, State.waiting,
        ClientPc.inHand])
  · intro x hx
    exact absurd hx (by simp [State.waiting, init])

/-! ## §2. What stays when the queue is left alone. -/

theorem popped_congr (s s' : State resSize Tid) (htaken : s'.taken = s.taken)
    (hclient : s'.client = s.client)
    (hread : ∀ o ∈ s.held .client, s'.segment.read resSize o = s.segment.read resSize o) :
    s'.popped = s.popped := by
  have hhand : s.client.inHand s'.segment = s.client.inHand s.segment := by
    cases hpc : s.client with
    | reading offset =>
        have hmem : offset ∈ s.held .client := by
          simp [State.held, hpc, ClientPc.inHand]
        simp only [ClientPc.inHand, hread offset hmem]
    | _ => rfl
  unfold State.popped
  rw [htaken, hclient, hhand]

/-- What a thread knows is as before if its chunk is. -/
theorem WorkerOk.congr {s s' : State resSize Tid} {pc : WorkerPc resSize} (h : WorkerOk s pc)
    (hread : ∀ o ∈ pc.held, s'.segment.read resSize o = s.segment.read resSize o)
    (hqueue : s'.responseQueue = s.responseQueue) (hanswered : s'.answered = s.answered)
    (hpopped : s'.popped = s.popped) (hstores : s'.stores = s.stores) : WorkerOk s' pc := by
  cases pc with
  | idle => trivial
  | writing offset response => trivial
  | pushing offset response pc stamp =>
      obtain ⟨hvalue, hoffset, hstamp⟩ := h
      refine ⟨?_, hoffset, ?_⟩
      · rw [hread offset (List.mem_singleton.mpr rfl)]
        exact hvalue
      · unfold State.pushed
        rw [hqueue, hanswered, hpopped, hstores]
        exact hstamp

/-- **The frame rule**: a step that leaves what is in the queue, the client and
the record alone, and the chunks in the queue and with the client as they are. -/
theorem Inv.update {s s' : State resSize Tid} {l l' : List U32} (h : Inv s l)
    (hfree : s'.segment.Free l') (hlayout : s'.segment.layout = s.segment.layout)
    (hapart : Apart (Taken s'.segment.layout l') s'.held)
    (hqueue : s'.responseQueue.Holds s.pushed s.popped.length) (hclient : s'.client = s.client)
    (hrecord : s'.answered = s.answered ∧ s'.taken = s.taken ∧ s'.freed = s.freed)
    (hread : ∀ p, p = .queue ∨ p = .client → ∀ o ∈ s.held p,
      s'.segment.read resSize o = s.segment.read resSize o)
    (hworker : ∀ t, WorkerOk s' (s'.worker t)) : Inv s' l' := by
  obtain ⟨hanswered, htaken, hfreed⟩ := hrecord
  have hpopped := popped_congr s s' htaken hclient (hread .client (.inr rfl))
  have hwaiting : s'.waiting = s.waiting := by
    unfold State.waiting
    rw [hanswered, hpopped]
  have hpushed : s'.pushed = s.pushed := by
    unfold State.pushed
    rw [hanswered]
  constructor
  case free => exact hfree
  case apart => exact hapart
  case worker => exact hworker
  case fits =>
    rw [hlayout]
    exact h.fits
  case queue =>
    rw [hpushed, hpopped]
    exact hqueue
  case fifo =>
    rw [hpopped, hanswered]
    exact h.fifo
  case values =>
    intro x hx
    rw [hwaiting] at hx
    rw [hread .queue (.inl rfl) x.1 (List.mem_map_of_mem hx)]
    exact h.values x hx
  case client =>
    have hc := h.client
    unfold ClientOk at hc ⊢
    rw [hclient, hpushed, hpopped]
    exact hc
  case freed =>
    rw [hfreed, htaken]
    exact h.freed

/-- The first free chunk is nobody's. -/
theorem Inv.not_held_of_free {s : State resSize Tid} {i : U32} {l : List U32}
    (h : Inv s (i :: l)) (p : Place Tid) : s.segment.layout.chunk i ∉ s.held p := by
  intro hmem
  exact (h.apart.allowed p _ hmem).ne_free (h.free.lt List.mem_cons_self) rfl

/-- A write to the chunk of one place is not seen at another. -/
theorem Inv.read_write {s : State resSize Tid} {l : List U32} (h : Inv s l) {p q : Place Tid}
    {x y : PointerOffset} (hx : x ∈ s.held p) (hy : y ∈ s.held q) (hne : q ≠ p) {n : Nat}
    (hn : n ≤ s.segment.layout.chunkSize) (v : Payload n) :
    (s.segment.write x v).read resSize y = s.segment.read resSize y := by
  refine read_write_of_ne hn h.fits (h.apart.allowed p x hx) (h.apart.allowed q y hy) ?_ v
  intro he
  subst he
  exact hne (h.apart.single q p y hy hx)

/-- Where the chunks of the queue and of the client are does not depend on what
is in them. -/
theorem held_of_record (s s' : State resSize Tid) (hanswered : s'.answered = s.answered)
    (htaken : s'.taken = s.taken) (hclient : s'.client = s.client) :
    s'.held .queue = s.held .queue ∧ s'.held .client = s.held .client := by
  have hhand : (s'.client.inHand s'.segment).map Prod.fst
      = (s.client.inHand s.segment).map Prod.fst := by
    rw [hclient]
    cases s.client <;> rfl
  have hlen : s'.popped.length = s.popped.length := by
    have hhand' := congrArg List.length hhand
    simp only [List.length_map] at hhand'
    unfold State.popped
    rw [List.length_append, List.length_append, htaken, hhand']
  refine ⟨?_, hhand⟩
  show (s'.answered.drop s'.popped.length).map Prod.fst = s.waiting.map Prod.fst
  rw [hanswered, hlen]
  rfl

/-- **A chunk is allocated** for the place `dst`. -/
theorem Inv.allocated {s s' : State resSize Tid} {l : List U32} (h : Inv s l)
    {offset : PointerOffset} {dst : Place Tid}
    (halloc : s.segment.allocate = some (.ok offset, s'.segment))
    (hdst : s'.held dst = offset :: s.held dst)
    (hother : ∀ p, p ≠ dst → p ≠ .queue → p ≠ .client → s'.held p = s.held p)
    (hqueue : s'.responseQueue = s.responseQueue) (hclient : s'.client = s.client)
    (hrecord : s'.answered = s.answered ∧ s'.taken = s.taken ∧ s'.freed = s.freed)
    (hstores : s'.stores = s.stores) (hworker : ∀ t, WorkerOk s (s'.worker t)) :
    ∃ l', Inv s' l' := by
  obtain ⟨i, rest, rfl, rfl, hfree, hlayout, hmemory⟩ := h.free.allocated halloc
  obtain ⟨hanswered, htaken, hfreed⟩ := hrecord
  obtain ⟨hheldQueue, hheldClient⟩ := held_of_record s s' hanswered htaken hclient
  have hread := read_of_memory hmemory resSize
  have hpopped := popped_congr s s' htaken hclient (fun o _ => congrFun hread o)
  have hnodup := List.nodup_cons.mp h.free.list.nodup
  refine ⟨rest, h.update hfree hlayout ?_ ?_ hclient ⟨hanswered, htaken, hfreed⟩
    (fun _ _ o _ => congrFun hread o) (fun t => ?_)⟩
  · rw [hlayout]
    refine h.apart.add h.not_held_of_free (fun _ hy => hy.of_cons)
      ⟨i, h.free.lt List.mem_cons_self, hnodup.1, rfl⟩ (.of_eq hdst) (fun p hp => ?_)
    by_cases hq : p = .queue
    · rw [hq]
      exact hheldQueue
    · by_cases hc : p = .client
      · rw [hc]
        exact hheldClient
      · exact hother p hp hq hc
  · rw [hqueue]
    exact h.queue
  · exact (hworker t).congr (fun o _ => congrFun hread o) hqueue hanswered hpopped hstores

/-! ## §3. The rest of the service. -/

theorem Inv.othersAllocate {s : State resSize Tid} {l : List U32} (h : Inv s l)
    {offset : PointerOffset} {segment : DataSegment}
    (halloc : s.segment.allocate = some (.ok offset, segment)) :
    ∃ l', Inv { s with segment := segment, others := offset :: s.others } l' := by
  have hdst : State.held { s with segment := segment, others := offset :: s.others } .others
      = offset :: s.held .others := rfl
  refine h.allocated halloc hdst ?_ rfl rfl ⟨rfl, rfl, rfl⟩ rfl h.worker
  intro p hne hq hc
  cases p with
  | others => exact absurd rfl hne
  | worker t => rfl
  | queue => exact absurd rfl hq
  | client => exact absurd rfl hc

theorem Inv.othersWrite {s : State resSize Tid} {l : List U32} (h : Inv s l)
    {offset : PointerOffset} (hmem : offset ∈ s.others) {n : Nat}
    (hn : n ≤ s.segment.layout.chunkSize) (v : Payload n) :
    Inv { s with segment := s.segment.write offset v } l := by
  have hread : ∀ p, p ≠ .others → ∀ o ∈ s.held p,
      (s.segment.write offset v).read resSize o = s.segment.read resSize o :=
    fun p hne o ho => h.read_write (p := .others) hmem ho hne hn v
  have hpopped := popped_congr s { s with segment := s.segment.write offset v } rfl rfl
    (hread .client (by simp))
  obtain ⟨hheldQueue, hheldClient⟩ :=
    held_of_record s { s with segment := s.segment.write offset v } rfl rfl rfl
  refine h.update (h.free.write offset v) rfl (h.apart.congr (fun p => ?_)) h.queue rfl
    ⟨rfl, rfl, rfl⟩ (fun p hp => hread p ?_) (fun t => ?_)
  · cases p with
    | others => rfl
    | worker t => rfl
    | queue => exact hheldQueue
    | client => exact hheldClient
  · rcases hp with rfl | rfl <;> simp
  · exact (h.worker t).congr (hread (.worker t) (by simp)) rfl rfl hpopped rfl

theorem Inv.othersDeallocate {s s' : State resSize Tid} {l : List U32} (h : Inv s l)
    {offset : PointerOffset} {segment : DataSegment} (hmem : offset ∈ s.others)
    (hdealloc : s.segment.deallocate offset = some segment)
    (hs : s' = { s with segment := segment, others := s.others.erase offset }) :
    ∃ l', Inv s' l' := by
  obtain ⟨i, rfl, hfree, hlayout, hmemory⟩ :=
    h.free.deallocated (h.apart.allowed .others offset hmem) hdealloc
  have hsrc : (s.held .others).Perm (s.segment.layout.chunk i :: s'.held .others) := by
    rw [hs]
    exact List.perm_cons_erase hmem
  have hheld := held_of_record s s' (by rw [hs]) (by rw [hs]) (by rw [hs])
  have hother : ∀ p, p ≠ .others → s'.held p = s.held p := by
    intro p hp
    cases p with
    | others => exact absurd rfl hp
    | worker t =>
        rw [hs]
        rfl
    | queue => exact hheld.1
    | client => exact hheld.2
  have hread := read_of_memory hmemory resSize
  have hgone := h.apart.remove hsrc (fun _ hy hne => hy.cons (i := i) hne) hother
  have hpopped := popped_congr s s' (by rw [hs]) (by rw [hs])
    (fun o _ => by rw [hs]; exact congrFun hread o)
  subst hs
  refine ⟨i :: l, h.update hfree hlayout ?_ h.queue rfl ⟨rfl, rfl, rfl⟩
    (fun _ _ o _ => congrFun hread o) (fun t => ?_)⟩
  · show Apart (Taken segment.layout (i :: l)) _
    rw [hlayout]
    exact hgone.1
  · exact (h.worker t).congr (fun o _ => congrFun hread o) rfl rfl hpopped rfl

/-! ## §4. The threads. -/

variable [DecidableEq Tid]

/-- Only the chunks of the thread that moves change place. -/
theorem held_setWorker {s s' : State resSize Tid} {t : Tid} {pc : WorkerPc resSize}
    (hworker : s'.worker = Function.update s.worker t pc) (hothers : s'.others = s.others)
    (hanswered : s'.answered = s.answered) (htaken : s'.taken = s.taken)
    (hclient : s'.client = s.client) :
    s'.held (.worker t) = pc.held ∧ ∀ p, p ≠ .worker t → s'.held p = s.held p := by
  obtain ⟨hqueue, hheldClient⟩ := held_of_record s s' hanswered htaken hclient
  constructor
  · simp only [State.held, hworker, Function.update_self]
  · intro p hp
    cases p with
    | others => exact hothers
    | worker t' =>
        have ht : t' ≠ t := fun he => hp (by rw [he])
        simp only [State.held, hworker, Function.update_of_ne ht]
    | queue => exact hqueue
    | client => exact hheldClient

theorem Inv.respond {s s' : State resSize Tid} {l : List U32} (h : Inv s l) {t : Tid}
    {response : Payload resSize} {offset : PointerOffset} {segment : DataSegment}
    (ht : s.worker t = .idle) (halloc : s.segment.allocate = some (.ok offset, segment))
    (hs : s' = { s with active := s.active - 1, segment := segment }.setWorker t
      (.writing offset response)) : ∃ l', Inv s' l' := by
  have hworker : s'.worker = Function.update s.worker t (.writing offset response) := by
    rw [hs]
    rfl
  obtain ⟨hself, hother⟩ := held_setWorker hworker (by rw [hs]; rfl) (by rw [hs]; rfl)
    (by rw [hs]; rfl) (by rw [hs]; rfl)
  have hdst : s'.held (.worker t) = offset :: s.held (.worker t) := by
    rw [hself]
    simp only [State.held, ht, WorkerPc.held]
  subst hs
  refine h.allocated halloc hdst (fun p hp _ _ => hother p hp) rfl rfl ⟨rfl, rfl, rfl⟩ rfl ?_
  exact Function.forall_update_iff s.worker (fun _ pc => WorkerOk s pc) |>.mpr
    ⟨trivial, fun t' _ => h.worker t'⟩

/-- The response is copied into the thread's chunk, which nobody else looks at. -/
theorem Inv.written {s s' : State resSize Tid} {l : List U32} (h : Inv s l) {t : Tid}
    {response : Payload resSize} {offset : PointerOffset}
    (ht : s.worker t = .writing offset response)
    (hs : s' = { s with segment := s.segment.write offset response }.setWorker t
      (.pushing offset response .idle 0)) : Inv s' l := by
  have hmem : offset ∈ s.held (.worker t) := by
    simp only [State.held, ht, WorkerPc.held, List.mem_singleton]
  have hworker : s'.worker = Function.update s.worker t (.pushing offset response .idle 0) := by
    rw [hs]
    rfl
  obtain ⟨hself, hother⟩ := held_setWorker hworker (by rw [hs]; rfl) (by rw [hs]; rfl)
    (by rw [hs]; rfl) (by rw [hs]; rfl)
  have hheld : ∀ p, s'.held p = s.held p := by
    intro p
    by_cases hp : p = .worker t
    · rw [hp, hself]
      simp only [State.held, ht, WorkerPc.held]
    · exact hother p hp
  have hread : ∀ p, p ≠ .worker t → ∀ o ∈ s.held p,
      (s.segment.write offset response).read resSize o = s.segment.read resSize o :=
    fun p hne o ho => h.read_write hmem ho hne h.fits response
  have hpopped := popped_congr s s' (by rw [hs]; rfl) (by rw [hs]; rfl)
    (by rw [hs]; exact hread .client (by simp))
  subst hs
  refine h.update (h.free.write offset response) rfl (h.apart.congr hheld) h.queue rfl
    ⟨rfl, rfl, rfl⟩ (fun p hp => hread p ?_) ?_
  · rcases hp with rfl | rfl <;> simp
  · refine Function.forall_update_iff s.worker (fun _ pc => WorkerOk _ pc) |>.mpr
      ⟨⟨s.segment.read_write offset response, .inl rfl, Nat.zero_le _, fun _ => trivial⟩,
        fun t' hne => ?_⟩
    refine (h.worker t').congr (hread (.worker t') ?_) rfl rfl hpopped rfl
    intro he
    injection he with he
    exact hne he

omit [DecidableEq Tid] in
theorem WorkerOk.overtaken {s s' : State resSize Tid} {pc : WorkerPc resSize} (h : WorkerOk s pc)
    (hsegment : s'.segment = s.segment) (hstores : s'.stores = s.stores + 1) : WorkerOk s' pc := by
  cases pc with
  | idle => trivial
  | writing offset response => trivial
  | pushing offset response pc stamp =>
      obtain ⟨hvalue, hoffset, hstamp⟩ := h
      refine ⟨?_, hoffset, ?_⟩
      · rw [hsegment]
        exact hvalue
      · rw [hstores]
        exact hstamp.overtaken

/-- An access of `push` after which the thread still has its chunk. -/
theorem Inv.pushing {s s' : State resSize Tid} {l : List U32} (h : Inv s l) {t : Tid}
    {offset : PointerOffset} {response : Payload resSize} {pc pc' : PushPc}
    {stamp stamp' stores : Nat} {q : SpscQueue}
    (ht : s.worker t = .pushing offset response pc stamp)
    (hs : s' = { s with responseQueue := q, stores := stores }.setWorker t
      (.pushing offset response pc' stamp'))
    (hqueue : q.Holds s.pushed s.popped.length)
    (hself : (pc' = .idle ∨ pc'.value = some offset.raw)
      ∧ StampOk q s.pushed s.popped.length stores stamp' pc')
    (hother : ∀ t', t' ≠ t → WorkerOk s' (s.worker t')) : Inv s' l := by
  have hworker : s'.worker = Function.update s.worker t (.pushing offset response pc' stamp') := by
    rw [hs]
    rfl
  obtain ⟨hheldSelf, hheld⟩ := held_setWorker hworker (by rw [hs]; rfl) (by rw [hs]; rfl)
    (by rw [hs]; rfl) (by rw [hs]; rfl)
  have hpopped := popped_congr s s' (by rw [hs]; rfl) (by rw [hs]; rfl)
    (fun o _ => by rw [hs]; rfl)
  have hvalue := h.worker t
  rw [ht] at hvalue
  refine h.update (by rw [hs]; exact h.free) (by rw [hs]; rfl) ?_ (by rw [hs]; exact hqueue)
    (by rw [hs]; rfl) (by rw [hs]; exact ⟨rfl, rfl, rfl⟩) (fun _ _ _ _ => by rw [hs]; rfl) ?_
  · have hlayout : s'.segment = s.segment := by rw [hs]; rfl
    rw [hlayout]
    refine h.apart.congr (fun p => ?_)
    by_cases hp : p = .worker t
    · rw [hp, hheldSelf]
      simp only [State.held, ht, WorkerPc.held]
    · exact hheld p hp
  · rw [hworker]
    refine Function.forall_update_iff s.worker (fun _ pc => WorkerOk s' pc) |>.mpr ⟨?_, hother⟩
    refine ⟨by rw [hs]; exact hvalue.1, hself.1, ?_⟩
    rw [hpopped]
    subst hs
    exact hself.2

/-- `QueueFull`: the thread forgets its chunk. -/
theorem Inv.pushFailed {s s' : State resSize Tid} {l : List U32} (h : Inv s l) {t : Tid}
    {offset : PointerOffset} {response : Payload resSize} {pc : PushPc} {stamp : Nat}
    (ht : s.worker t = .pushing offset response pc stamp) (hs : s' = s.setWorker t .idle) :
    Inv s' l := by
  have hworker : s'.worker = Function.update s.worker t .idle := by
    rw [hs]
    rfl
  obtain ⟨hheldSelf, hheld⟩ := held_setWorker hworker (by rw [hs]; rfl) (by rw [hs]; rfl)
    (by rw [hs]; rfl) (by rw [hs]; rfl)
  have hsrc : (s.held (.worker t)).Perm (offset :: s'.held (.worker t)) := by
    rw [hheldSelf]
    simp only [State.held, ht, WorkerPc.held]
    exact .refl _
  have hgone := h.apart.remove hsrc (fun _ hy _ => hy) hheld
  have hpopped := popped_congr s s' (by rw [hs]; rfl) (by rw [hs]; rfl)
    (fun o _ => by rw [hs]; rfl)
  subst hs
  refine h.update h.free rfl hgone.1 h.queue rfl ⟨rfl, rfl, rfl⟩ (fun _ _ _ _ => rfl) ?_
  refine Function.forall_update_iff s.worker (fun _ pc => WorkerOk _ pc) |>.mpr
    ⟨trivial, fun t' _ => ?_⟩
  exact (h.worker t').congr (fun _ _ => rfl) rfl rfl hpopped rfl

/-- The response is published: its chunk is in the queue now. -/
theorem Inv.published {s s' : State resSize Tid} {l : List U32} (h : Inv s l) {t : Tid}
    {offset : PointerOffset} {response : Payload resSize} {pc : PushPc} {stamp : Nat}
    {q : SpscQueue} (ht : s.worker t = .pushing offset response pc stamp)
    (hs : s' = { s with
      responseQueue := q
      stores := s.stores + 1
      answered := s.answered ++ [(offset, response)] }.setWorker t .idle)
    (hqueue : q.Holds (s.pushed ++ [offset.raw]) s.popped.length) : Inv s' l := by
  have hvalue := h.worker t
  rw [ht] at hvalue
  have hpopped := popped_congr s s' (by rw [hs]; rfl) (by rw [hs]; rfl)
    (fun o _ => by rw [hs]; rfl)
  have hpushed : s'.pushed = s.pushed ++ [offset.raw] := by
    rw [hs]
    show (s.answered ++ [(offset, response)]).map _ = _
    rw [List.map_append]
    rfl
  have hwaiting : s'.waiting = s.waiting ++ [(offset, response)] := by
    unfold State.waiting
    rw [hpopped, hs]
    show (s.answered ++ [(offset, response)]).drop _ = _
    rw [List.drop_append_of_le_length h.fifo.length_le]
  have hworker : s'.worker = Function.update s.worker t .idle := by
    rw [hs]
    rfl
  have hsrc : (s.held (.worker t)).Perm (offset :: s'.held (.worker t)) := by
    simp only [State.held, hworker, Function.update_self, ht, WorkerPc.held]
    exact .refl _
  have hdst : (s'.held .queue).Perm (offset :: s.held .queue) := by
    show (s'.waiting.map Prod.fst).Perm _
    rw [hwaiting, List.map_append]
    exact List.perm_append_singleton _ _
  have hother : ∀ p, p ≠ .worker t → p ≠ .queue → s'.held p = s.held p := by
    intro p hp hq
    cases p with
    | others => rw [hs]; rfl
    | queue => exact absurd rfl hq
    | client => rw [hs]; rfl
    | worker t' =>
        have ht' : t' ≠ t := fun he => hp (by rw [he])
        simp only [State.held, hworker, Function.update_of_ne ht']
  have hsegment : s'.segment = s.segment := by
    rw [hs]
    rfl
  constructor
  case free =>
    rw [hsegment]
    exact h.free
  case fits =>
    rw [hsegment]
    exact h.fits
  case apart =>
    rw [hsegment]
    exact h.apart.move (by simp) hsrc hdst hother
  case queue =>
    rw [hpushed, hpopped, hs]
    exact hqueue
  case fifo =>
    rw [hpopped, hs]
    exact h.fifo.trans (List.prefix_append _ _)
  case values =>
    intro x hx
    rw [hwaiting] at hx
    rw [hsegment]
    rcases List.mem_append.mp hx with hx | hx
    · exact h.values x hx
    · obtain rfl := List.mem_singleton.mp hx
      exact hvalue.1
  case worker =>
    rw [hworker]
    refine Function.forall_update_iff s.worker (fun _ pc => WorkerOk s' pc) |>.mpr
      ⟨trivial, fun t' _ => (h.worker t').overtaken hsegment (by rw [hs]; rfl)⟩
  case client =>
    have hclient := h.client
    unfold ClientOk at hclient ⊢
    rw [hpushed, hpopped, show s'.client = s.client by rw [hs]; rfl]
    cases hpc : s.client with
    | popping pc =>
        rw [hpc] at hclient
        exact ConsumerOk.append hclient _
    | _ => trivial
  case freed =>
    rw [hs]
    exact h.freed

omit [DecidableEq Tid] in
theorem stamp_of_notOvertaken {offset : PointerOffset} {response : Payload resSize} {pc : PushPc}
    {stamp stores : Nat}
    (h : (WorkerPc.pushing offset response pc stamp).NotOvertaken stores) (hpc : pc.stores = true) :
    stamp = stores := by
  cases pc with
  | idle => exact absurd hpc (by simp [PushPc.stores])
  | loadedWrite v w => exact absurd hpc (by simp [PushPc.stores])
  | checked v w => exact h
  | stored v w => exact h

/-- **One access of a thread inside `push`.** -/
theorem Inv.pushStep {s s' : State resSize Tid} {l : List U32} (h : Inv s l) {t : Tid}
    {offset : PointerOffset} {response : Payload resSize} {pc : PushPc} {stamp : Nat}
    (ht : s.worker t = .pushing offset response pc stamp) (hok : serialised s (.worker t))
    (hs : pushStep s t offset response pc stamp = some s') : Inv s' l := by
  have hworker := h.worker t
  simp only [serialised] at hok
  rw [ht] at hworker hok
  obtain ⟨hvalue, hoffset, hstamp⟩ := hworker
  have hstores := stamp_of_notOvertaken hok
  unfold Workers.pushStep at hs
  split at hs
  next =>
    injection hs with hs
    refine h.pushing ht hs.symm h.queue ⟨.inr rfl, Nat.le_refl _, fun _ => h.queue.write⟩ ?_
    intro t' _
    rw [← hs]
    exact (h.worker t').congr (fun _ _ => rfl) rfl rfl rfl rfl
  next hidle =>
    have hvalue' := hoffset.resolve_left hidle
    obtain ⟨⟨q, pc', result⟩, ha, hs'⟩ := Option.map_eq_some_iff.mp hs
    rcases pushAccess_stamped h.queue hstamp hstores ha with
      ⟨rfl, hst, v, hv, hholds⟩ | ⟨rfl, hst⟩ | ⟨rfl, hv, hholds, hne, hkeep, hstore⟩
    · obtain rfl : v = offset.raw := Option.some.inj (hv.symm.trans hvalue')
      simp only [hst, if_true] at hs'
      exact h.published ht hs'.symm hholds
    · exact h.pushFailed ht hs'.symm
    · cases hst : pc.stores with
      | true =>
          simp only [hst, if_true] at hs'
          refine h.pushing ht hs'.symm hholds ⟨.inr (hv.trans hvalue'), hstore hst⟩ ?_
          intro t' _
          rw [← hs']
          exact (h.worker t').overtaken rfl rfl
      | false =>
          obtain ⟨rfl, hstamp'⟩ := hkeep hst
          simp only [hst, Bool.false_eq_true, if_false] at hs'
          refine h.pushing ht hs'.symm hholds ⟨.inr (hv.trans hvalue'), hstamp'⟩ ?_
          intro t' _
          rw [← hs']
          exact (h.worker t').congr (fun _ _ => rfl) rfl rfl rfl rfl

/-! ## §5. The client. -/

omit [DecidableEq Tid] in
/-- A step of the client that takes no chunk and gives none back. -/
theorem Inv.clientMoves {s : State resSize Tid} {l : List U32} (h : Inv s l)
    {client : ClientPc resSize}
    (hhand : client.inHand s.segment = s.client.inHand s.segment)
    (hclient : ClientOk { s with client := client }) : Inv { s with client := client } l := by
  have hpopped : State.popped { s with client := client } = s.popped := by
    unfold State.popped
    rw [hhand]
  have hwaiting : State.waiting { s with client := client } = s.waiting := by
    unfold State.waiting
    rw [hpopped]
  constructor
  case free => exact h.free
  case fits => exact h.fits
  case client => exact hclient
  case freed => exact h.freed
  case apart =>
    apply h.apart.congr
    intro p
    cases p with
    | others => rfl
    | worker t => rfl
    | queue =>
        show (State.waiting { s with client := client }).map Prod.fst = s.waiting.map Prod.fst
        rw [hwaiting]
    | client => exact congrArg (List.map Prod.fst) hhand
  case queue =>
    rw [hpopped]
    exact h.queue
  case fifo =>
    rw [hpopped]
    exact h.fifo
  case values =>
    rw [hwaiting]
    exact h.values
  case worker =>
    intro t
    exact (h.worker t).congr (fun _ _ => rfl) rfl rfl hpopped rfl

omit [DecidableEq Tid] in
theorem WorkerOk.consume {s s' : State resSize Tid} {pc : WorkerPc resSize} (h : WorkerOk s pc)
    (pos : U64) (hsegment : s'.segment = s.segment)
    (hqueue : s'.responseQueue = { s.responseQueue with readPos := pos })
    (hanswered : s'.answered = s.answered) (hpopped : s'.popped.length = s.popped.length + 1)
    (hstores : s'.stores = s.stores) : WorkerOk s' pc := by
  cases pc with
  | idle => trivial
  | writing offset response => trivial
  | pushing offset response pc stamp =>
      obtain ⟨hvalue, hoffset, hstamp⟩ := h
      refine ⟨?_, hoffset, ?_⟩
      · rw [hsegment]
        exact hvalue
      · unfold State.pushed
        rw [hqueue, hanswered, hpopped, hstores]
        exact hstamp.consume pos

/-- The oldest response of the queue is popped. -/
theorem Inv.pop {s : State resSize Tid} {l : List U32} (h : Inv s l) {pc : PopPc} {v pos : U64}
    (hpc : s.client = .popping pc) (hv : s.pushed[s.popped.length]? = some v)
    (hqueue : { s.responseQueue with readPos := pos }.Holds s.pushed (s.popped.length + 1)) :
    Inv { s with
      responseQueue := { s.responseQueue with readPos := pos }
      client := .reading (.fromRaw v) } l := by
  -- the value is the chunk of the first response that waits
  obtain ⟨x, hx, hraw⟩ : ∃ x, s.answered[s.popped.length]? = some x ∧ x.1.raw = v := by
    unfold State.pushed at hv
    rw [List.getElem?_map] at hv
    exact Option.map_eq_some_iff.mp hv
  have hcons : s.waiting = x :: s.answered.drop (s.popped.length + 1) := by
    unfold State.waiting
    exact List.drop_eq_getElem?_toList_append.trans (by rw [hx]; rfl)
  have hread : s.segment.read resSize x.1 = x.2 :=
    h.values x (by rw [hcons]; exact List.mem_cons_self)
  have hempty : s.client.inHand s.segment = [] := by
    rw [hpc]
    rfl
  subst hraw
  obtain ⟨offset, response⟩ := x
  -- what was the first of the waiting responses is the last of the popped ones
  have hpopped : State.popped { s with
      responseQueue := { s.responseQueue with readPos := pos }
      client := .reading offset } = s.popped ++ [(offset, response)] := by
    show s.taken ++ [(offset, s.segment.read resSize offset)] = _
    unfold State.popped
    rw [hempty, List.append_nil, hread]
  have hlen : (s.popped ++ [(offset, response)]).length = s.popped.length + 1 := by simp
  have hwaiting : State.waiting { s with
      responseQueue := { s.responseQueue with readPos := pos }
      client := .reading offset } = s.answered.drop (s.popped.length + 1) := by
    unfold State.waiting
    rw [hpopped, hlen]
  constructor
  case free => exact h.free
  case fits => exact h.fits
  case client => trivial
  case freed => exact h.freed
  case apart =>
    refine h.apart.move (x := offset) (show Place.queue ≠ .client by simp) ?_ ?_ ?_
    · show (s.waiting.map Prod.fst).Perm (offset :: (State.waiting _).map Prod.fst)
      rw [PointerOffset.fromRaw_raw, hwaiting, hcons]
      exact .refl _
    · show [offset].Perm (offset :: (s.client.inHand s.segment).map Prod.fst)
      rw [hempty]
      exact .refl _
    · intro p hsrc hdst
      cases p with
      | others => rfl
      | worker t => rfl
      | queue => exact absurd rfl hsrc
      | client => exact absurd rfl hdst
  case queue =>
    show SpscQueue.Holds _ s.pushed _
    rw [PointerOffset.fromRaw_raw, hpopped, hlen]
    exact hqueue
  case fifo =>
    rw [PointerOffset.fromRaw_raw, hpopped]
    refine List.prefix_iff_eq_take.mpr ?_
    rw [hlen, List.take_add_one, hx, ← List.prefix_iff_eq_take.mp h.fifo]
    rfl
  case values =>
    intro y hy
    rw [PointerOffset.fromRaw_raw, hwaiting] at hy
    exact h.values y (by rw [hcons]; exact List.mem_cons_of_mem _ hy)
  case worker =>
    intro t
    refine (h.worker t).consume pos rfl ?_ rfl ?_ rfl
    · rw [PointerOffset.fromRaw_raw]
    · rw [PointerOffset.fromRaw_raw, hpopped, hlen]

omit [DecidableEq Tid] in
/-- The response has been copied, and its chunk is given back. -/
theorem Inv.released {s s' : State resSize Tid} {l : List U32} (h : Inv s l)
    {offset : PointerOffset} {response : Payload resSize} {segment : DataSegment}
    (hpc : s.client = .releasing offset response)
    (hdealloc : s.segment.deallocate offset = some segment)
    (hs : s' = { s with
      segment := segment
      client := .idle
      taken := s.taken ++ [(offset, response)]
      freed := s.freed ++ [offset] }) : ∃ l', Inv s' l' := by
  have hmem : offset ∈ s.held .client := by
    simp only [State.held, hpc, ClientPc.inHand, List.map_singleton, List.mem_singleton]
  obtain ⟨i, rfl, hfree, hlayout, hmemory⟩ :=
    h.free.deallocated (h.apart.allowed .client offset hmem) hdealloc
  have hread := read_of_memory hmemory resSize
  have hpopped : s'.popped = s.popped := by
    unfold State.popped
    rw [hs, hpc]
    exact List.append_nil _
  have hwaiting : s'.waiting = s.waiting := by
    unfold State.waiting
    rw [hpopped, hs]
  have hsrc : (s.held .client).Perm (s.segment.layout.chunk i :: s'.held .client) := by
    rw [hs]
    simp only [State.held, hpc, ClientPc.inHand]
    exact .refl _
  have hother : ∀ p, p ≠ .client → s'.held p = s.held p := by
    intro p hp
    cases p with
    | others => rw [hs]; rfl
    | worker t => rw [hs]; rfl
    | queue => exact congrArg (List.map Prod.fst) hwaiting
    | client => exact absurd rfl hp
  have hgone := h.apart.remove hsrc (fun _ hy hne => hy.cons (i := i) hne) hother
  refine ⟨i :: l, ?_⟩
  constructor
  case free =>
    rw [hs]
    exact hfree
  case fits =>
    rw [hs]
    show resSize ≤ segment.layout.chunkSize
    rw [hlayout]
    exact h.fits
  case apart =>
    have hlayout' : s'.segment.layout = s.segment.layout := by
      rw [hs]
      exact hlayout
    rw [hlayout']
    exact hgone.1
  case queue =>
    rw [hpopped, hs]
    exact h.queue
  case fifo =>
    rw [hpopped, hs]
    exact h.fifo
  case values =>
    rw [hwaiting, hs]
    intro x hx
    exact (congrFun hread x.1).trans (h.values x hx)
  case worker =>
    intro t
    rw [show s'.worker = s.worker by rw [hs]]
    exact (h.worker t).congr (fun o _ => by rw [hs]; exact congrFun hread o) (by rw [hs])
      (by rw [hs]) hpopped (by rw [hs])
  case client =>
    rw [hs]
    trivial
  case freed =>
    rw [hs]
    show s.freed ++ [s.segment.layout.chunk i] = _
    rw [h.freed, List.map_append]
    rfl

/-- **One access of the client.** -/
theorem Inv.clientStep {s s' : State resSize Tid} {l : List U32} (h : Inv s l)
    (hs : step s .client = some s') : ∃ l', Inv s' l' := by
  simp only [Workers.step] at hs
  split at hs
  next => exact absurd hs (by simp)
  next pc hpc =>
    obtain ⟨⟨q, pc', result⟩, ha, rfl⟩ := Option.map_eq_some_iff.mp hs
    have hclient := h.client
    unfold ClientOk at hclient
    rw [hpc] at hclient
    rcases popAccess_spec h.queue hclient ha with
      ⟨v, pos, rfl, _, hv, rfl, hholds⟩ | ⟨rfl, _, _, _⟩ | ⟨rfl, rfl, hknown⟩
    · exact ⟨l, h.pop hpc hv hholds⟩
    · refine ⟨l, h.clientMoves ?_ trivial⟩
      rw [hpc]
      rfl
    · have hmoved : Inv { s with client := .popping pc' } l := by
        apply h.clientMoves
        · rw [hpc]
          rfl
        · show ConsumerOk s.pushed (State.popped { s with client := .popping pc' }).length pc'
          unfold State.popped at hknown ⊢
          rw [hpc] at hknown
          exact hknown
      exact ⟨l, hmoved⟩
  next offset hpc =>
    injection hs with hs
    subst hs
    refine ⟨l, h.clientMoves ?_ trivial⟩
    rw [hpc]
    rfl
  next offset response hpc =>
    obtain ⟨segment, hdealloc, rfl⟩ := Option.map_eq_some_iff.mp hs
    exact h.released hpc hdealloc rfl

/-! ## §6. Whole runs. -/

/-- **The step lemma.** -/
theorem Inv.step {s s' : State resSize Tid} {l : List U32} {a : Act resSize Tid} (h : Inv s l)
    (hok : serialised s a) (hs : step s a = some s') : ∃ l', Inv s' l' := by
  cases a with
  | receive =>
      injection hs with hs
      subst hs
      exact ⟨l, h.update h.free rfl h.apart h.queue rfl ⟨rfl, rfl, rfl⟩ (fun _ _ _ _ => rfl)
        h.worker⟩
  | respond t response =>
      simp only [Workers.step] at hs
      split at hs
      next hidle =>
        split at hs
        next =>
          split at hs
          next => exact absurd hs (by simp)
          next =>
            injection hs with hs
            subst hs
            exact ⟨l, h.update h.free rfl h.apart h.queue rfl ⟨rfl, rfl, rfl⟩
              (fun _ _ _ _ => rfl) h.worker⟩
          next offset segment halloc => exact h.respond hidle halloc (Option.some.inj hs).symm
        next => exact absurd hs (by simp)
      next => exact absurd hs (by simp)
  | worker t =>
      simp only [Workers.step] at hs
      split at hs
      next => exact absurd hs (by simp)
      next offset response ht => exact ⟨l, h.written ht (Option.some.inj hs).symm⟩
      next offset response pc stamp ht => exact ⟨l, h.pushStep ht hok hs⟩
  | poll =>
      simp only [Workers.step] at hs
      split at hs
      next hidle =>
        injection hs with hs
        subst hs
        refine ⟨l, h.clientMoves ?_ ?_⟩
        · rw [hidle]
          rfl
        · show s.responseQueue.readPos = BitVec.ofNat 64 (s.taken ++ []).length
          have hread := h.queue.read
          unfold State.popped at hread
          rw [hidle] at hread
          exact hread
      next => exact absurd hs (by simp)
  | client => exact h.clientStep hs
  | allocate =>
      simp only [Workers.step] at hs
      split at hs
      next => exact absurd hs (by simp)
      next =>
        injection hs with hs
        exact ⟨l, hs ▸ h⟩
      next offset segment halloc =>
        injection hs with hs
        subst hs
        exact h.othersAllocate halloc
  | write offset n v =>
      simp only [Workers.step] at hs
      split at hs
      next hmem =>
        injection hs with hs
        subst hs
        exact ⟨l, h.othersWrite hmem.1 hmem.2 v⟩
      next => exact absurd hs (by simp)
  | deallocate offset =>
      simp only [Workers.step] at hs
      split at hs
      next hmem =>
        obtain ⟨segment, hdealloc, he⟩ := Option.map_eq_some_iff.mp hs
        exact h.othersDeallocate hmem hdealloc he.symm
      next => exact absurd hs (by simp)

omit [DecidableEq Tid] in
theorem Inv.taken_prefix {s : State resSize Tid} {l : List U32} (h : Inv s l) :
    s.taken <+: s.answered :=
  (List.prefix_append _ _).trans h.fifo

omit [DecidableEq Tid] in
/-- When `try_receive` returns `None`, everything answered has been taken. -/
theorem Inv.taken_eq {s : State resSize Tid} {l : List U32} (h : Inv s l) (hnone : ReturnsNone s) :
    s.taken = s.answered := by
  obtain ⟨r, hpc, hr⟩ : ∃ r, s.client = .popping (.loadedRead r)
      ∧ r = s.responseQueue.writePos := by
    unfold ReturnsNone ClientPc.loadedRead at hnone
    split at hnone
    next r hpc => exact ⟨r, hpc, Option.some.inj hnone⟩
    next => exact absurd hnone (by simp)
  have hclient := h.client
  unfold ClientOk at hclient
  rw [hpc] at hclient
  have hempty : s.popped.length = s.pushed.length := by
    have hpos : s.responseQueue.readPos = s.responseQueue.writePos := by
      rw [h.queue.read, ← hr]
      exact hclient.symm
    exact h.queue.pos_eq_iff.mp hpos
  have hpopped : s.popped = s.taken := by
    unfold State.popped
    rw [hpc]
    exact List.append_nil _
  have hlen : s.pushed.length = s.answered.length := List.length_map _
  rw [← hpopped]
  exact h.fifo.eq_of_length (hempty.trans hlen)

omit [DecidableEq Tid] in
theorem Inv.safe {s : State resSize Tid} {l : List U32} (h : Inv s l) : Safe s where
  once := fun x => h.taken_prefix.sublist.count_le x
  all := fun _ hnone => by
    rw [h.taken_eq hnone]
  freed := fun _ hnone => by
    rw [h.freed, h.taken_eq hnone]

/-- **In every serialised run answering from many threads is safe**, and the
responses are taken in the order in which the responds returned. -/
theorem workers_serialised {reqSize : Nat} (qos : ReqResQos) (service : Service reqSize resSize)
    (hcreate : Service.create reqSize resSize qos = some service) (s : State resSize Tid)
    (hs : Reach Workers.step serialised (init service) s) :
    Safe s ∧ s.taken <+: s.answered := by
  obtain ⟨l, hinv⟩ : ∃ l, Inv s l := hs.invariant (fun s => ∃ l, Inv s l) (inv_init hcreate)
    (fun _ _ _ hi hok hstep => by
      obtain ⟨l, hl⟩ := hi
      exact hl.step hok hstep)
  exact ⟨hinv.safe, hinv.taken_prefix⟩

/-- Two threads: the second loads `write_pos` after the first has returned. -/
def inTurnRun : List (Act 1 Bool) :=
  [.receive, .receive, .respond true (fun _ => 10#8), .respond false (fun _ => 20#8),
   .worker true, .worker false, .worker true, .worker true, .worker true, .worker true,
   .worker false, .worker false, .worker false, .worker false,
   .poll, .client, .client, .client, .client, .client,
   .poll, .client, .client, .client, .client, .client, .poll]

theorem workers_serialised_inTurn :
    ∃ service : Service 1 1, Service.create 1 1 ⟨2⟩ = some service
      ∧ ∃ s : State 1 Bool, Reach Workers.step serialised (init service) s
        ∧ Quiet s ∧ ReturnsNone s ∧ s.taken.map Prod.snd = [fun _ => 10#8, fun _ => 20#8]
        ∧ Safe s ∧ s.taken <+: s.answered := by
  have hrun : ((Service.create 1 1 ⟨2⟩).bind (fun service =>
      execOk Workers.step serialised (init service : State 1 Bool) inTurnRun)).map (fun s =>
        decide ((∀ t, (s.worker t).isIdle = true)
          ∧ s.client.loadedRead = some s.responseQueue.writePos)
        && decide (s.taken.map Prod.snd = [fun _ => 10#8, fun _ => 20#8])) = some true := by decide
  obtain ⟨s, hs, hend⟩ := Option.map_eq_some_iff.mp hrun
  obtain ⟨service, hcreate, hexec⟩ := Option.bind_eq_some_iff.mp hs
  simp only [Bool.and_eq_true, decide_eq_true_eq] at hend
  have hreach := Reach.of_execOk inTurnRun .refl hexec
  exact ⟨service, hcreate, s, hreach, hend.1.1, hend.1.2, hend.2,
    workers_serialised ⟨2⟩ service hcreate s hreach⟩

end Entangle.ReqRes.Workers
