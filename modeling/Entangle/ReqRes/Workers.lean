/-
  Entangle.ReqRes.Workers — the requests of one client, answered by many
  threads.

  `Server::receive` hands out `ActiveRequest`s that own the response channel of
  their client and are `Send`, so any number of threads may be inside
  `ActiveRequest::respond` for the same client.  Each allocates a chunk, copies
  the response into it and pushes its offset into the one response queue; the
  client polls with `try_receive`.  Every load and store inside
  `SpscQueue::push` and `pop` is one step (`pushAccess`, `popAccess`).

  The rest of the service (requests, other clients and their responses) uses
  the same segment: `others` are the chunks it has, which it allocates, writes
  and deallocates in any order.

  The lists `answered`, `taken` and `freed` and the stamps are a record of the
  past that no access reads.

  Main definitions:
    * `Safe` — no response is taken twice or lost;
    * `serialised` — every store into the response queue is made by a thread
      that no other thread's store has overtaken since it loaded the position.

  Main result:
    * `responses_lost` — two threads that answer at once lose a response, and
      can make the client take one twice.
-/
import Entangle.Lockfree.SpscSteps
import Entangle.ReqRes.Service

namespace Entangle.ReqRes.Workers

open Entangle.Lib Entangle.Lockfree Entangle.Transport

/-! ## §1. The threads. -/

/-- Where a thread stands inside `respond`. -/
inductive WorkerPc (resSize : Nat) where
  | idle
  -- the response is to be copied into the chunk
  | writing (offset : PointerOffset) (response : Payload resSize)
  -- inside `push`; `stamp` is the number of stores into the queue when it
  -- loaded `write_pos`
  | pushing (offset : PointerOffset) (response : Payload resSize) (pc : PushPc) (stamp : Nat)

/-- Where the client stands inside `try_receive`. -/
inductive ClientPc (resSize : Nat) where
  | idle
  | popping (pc : PopPc)
  -- the response is to be copied out of the chunk
  | reading (offset : PointerOffset)
  -- the chunk is to be deallocated
  | releasing (offset : PointerOffset) (response : Payload resSize)

/-- The response channel of one client, and the threads of the server that answer into it.
`others` are the chunks that have been allocated for something else.  What comes after
them is a record of the past; `stores` tells whether another thread has been there since
a position was loaded. -/
structure State (resSize : Nat) (Tid : Type) where
  segment : DataSegment
  responseQueue : SpscQueue
  -- the active requests of the client that have not been answered
  active : Nat
  worker : Tid → WorkerPc resSize
  client : ClientPc resSize
  others : List PointerOffset
  -- the responds that returned Ok: the chunk and the response
  answered : List (PointerOffset × Payload resSize)
  -- what `try_receive` returned, and the chunk it came from
  taken : List (PointerOffset × Payload resSize)
  -- the chunks that `try_receive` deallocated
  freed : List PointerOffset
  -- stores made into the response queue
  stores : Nat

inductive Act (resSize : Nat) (Tid : Type) where
  -- `Server::receive` returns an active request of the client
  | receive
  | respond (t : Tid) (response : Payload resSize)
  | worker (t : Tid)
  | poll
  | client
  -- the rest of the service
  | allocate
  | write (offset : PointerOffset) (n : Nat) (v : Payload n)
  | deallocate (offset : PointerOffset)

variable {resSize : Nat} {Tid : Type}

def State.setWorker [DecidableEq Tid] (s : State resSize Tid) (t : Tid) (pc : WorkerPc resSize) :
    State resSize Tid :=
  { s with worker := Function.update s.worker t pc }

/-- The next access of a thread inside `push`. -/
def pushStep [DecidableEq Tid] (s : State resSize Tid) (t : Tid) (offset : PointerOffset)
    (response : Payload resSize) (pc : PushPc) (stamp : Nat) : Option (State resSize Tid) :=
  match pc with
  | .idle =>
      some (s.setWorker t
        (.pushing offset response (.loadedWrite offset.raw s.responseQueue.writePos) s.stores))
  | pc =>
      let stores := if pc.stores then s.stores + 1 else s.stores
      let stamp' := if pc.stores then s.stores + 1 else stamp
      (pushAccess s.responseQueue pc).map (fun r =>
        match r.2.2 with
        | none =>
            { s with responseQueue := r.1, stores := stores }.setWorker t
              (.pushing offset response r.2.1 stamp')
        -- `QueueFull`: the chunk is not given back
        | some false => s.setWorker t .idle
        | some true =>
            { s with
              responseQueue := r.1
              stores := stores
              answered := s.answered ++ [(offset, response)] }.setWorker t .idle)

/-- One step of a thread, of the client or of the rest of the service. -/
def step [DecidableEq Tid] (s : State resSize Tid) :
    Act resSize Tid → Option (State resSize Tid)
  | .receive => some { s with active := s.active + 1 }
  | .respond t response =>
      match s.worker t with
      | .idle =>
          if 0 < s.active then
            match s.segment.allocate with
            | none => none
            | some (.error _, _) => some { s with active := s.active - 1 }
            | some (.ok offset, segment) =>
                some ({ s with active := s.active - 1, segment := segment }.setWorker t
                  (.writing offset response))
          else none
      | _ => none
  | .worker t =>
      match s.worker t with
      | .idle => none
      | .writing offset response =>
          some ({ s with segment := s.segment.write offset response }.setWorker t
            (.pushing offset response .idle 0))
      | .pushing offset response pc stamp => pushStep s t offset response pc stamp
  | .poll =>
      match s.client with
      | .idle => some { s with client := .popping (.loadedRead s.responseQueue.readPos) }
      | _ => none
  | .client =>
      match s.client with
      | .idle => none
      | .popping pc =>
          (popAccess s.responseQueue pc).map (fun r =>
            match r.2.2 with
            | none => { s with responseQueue := r.1, client := .popping r.2.1 }
            | some none => { s with client := .idle }
            | some (some v) => { s with responseQueue := r.1, client := .reading (.fromRaw v) })
      | .reading offset =>
          some { s with client := .releasing offset (s.segment.read resSize offset) }
      | .releasing offset response =>
          (s.segment.deallocate offset).map (fun segment =>
            { s with
              segment := segment
              client := .idle
              taken := s.taken ++ [(offset, response)]
              freed := s.freed ++ [offset] })
  | .allocate =>
      match s.segment.allocate with
      | none => none
      | some (.error _, _) => some s
      | some (.ok offset, segment) =>
          some { s with segment := segment, others := offset :: s.others }
  | .write offset n v =>
      if offset ∈ s.others ∧ n ≤ s.segment.layout.chunkSize then
        some { s with segment := s.segment.write offset v }
      else none
  | .deallocate offset =>
      if offset ∈ s.others then
        (s.segment.deallocate offset).map (fun segment =>
          { s with segment := segment, others := s.others.erase offset })
      else none

/-- The server has been created, and one client with its channels. -/
def init {reqSize : Nat} (service : Service reqSize resSize) : State resSize Tid :=
  { segment := service.segment
    responseQueue :=
      (Client.create service.qos : Client reqSize resSize).responseChannel.sendQueue
    active := 0
    worker := fun _ => .idle
    client := .idle
    others := []
    answered := []
    taken := []
    freed := []
    stores := 0 }

/-! ## §2. What answering from many threads should keep, and when it does. -/

def WorkerPc.isIdle : WorkerPc resSize → Bool
  | .idle => true
  | .writing _ _ | .pushing _ _ _ _ => false

/-- The `read_pos` that `try_receive` has loaded, before it loads `write_pos`. -/
def ClientPc.loadedRead : ClientPc resSize → Option U64
  | .popping (.loadedRead r) => some r
  | _ => none

/-- Every respond has returned. -/
def Quiet (s : State resSize Tid) : Prop := ∀ t, (s.worker t).isIdle = true

/-- The client's next access makes `try_receive` return `None`. -/
def ReturnsNone (s : State resSize Tid) : Prop :=
  s.client.loadedRead = some s.responseQueue.writePos

/-- No response whose respond returned Ok is taken twice; and once every respond
has returned and the client gets `None`, each has been taken, and its chunk
deallocated, exactly once. -/
structure Safe (s : State resSize Tid) : Prop where
  once : ∀ x, s.taken.count x ≤ s.answered.count x
  all : Quiet s → ReturnsNone s → s.taken.Perm s.answered
  freed : Quiet s → ReturnsNone s → s.freed.Perm (s.answered.map Prod.fst)

/-- The next access of the thread is no store, or no other thread has stored
into the queue since this one loaded `write_pos`. -/
def WorkerPc.NotOvertaken (stores : Nat) : WorkerPc resSize → Prop
  | .pushing _ _ (.checked _ _) stamp => stamp = stores
  | .pushing _ _ (.stored _ _) stamp => stamp = stores
  | _ => True

/-- A respond stores into the response queue only if no other respond has
stored there since its load of `write_pos`. -/
def serialised (s : State resSize Tid) : Act resSize Tid → Prop
  | .worker t => (s.worker t).NotOvertaken s.stores
  | _ => True

instance decidableNotOvertaken (stores : Nat) :
    (pc : WorkerPc resSize) → Decidable (pc.NotOvertaken stores)
  | .idle => isTrue trivial
  | .writing _ _ => isTrue trivial
  | .pushing _ _ .idle _ => isTrue trivial
  | .pushing _ _ (.loadedWrite _ _) _ => isTrue trivial
  | .pushing _ _ (.checked _ _) stamp => inferInstanceAs (Decidable (stamp = stores))
  | .pushing _ _ (.stored _ _) stamp => inferInstanceAs (Decidable (stamp = stores))

instance decidableSerialised (s : State resSize Tid) :
    (a : Act resSize Tid) → Decidable (serialised s a)
  | .worker t => inferInstanceAs (Decidable ((s.worker t).NotOvertaken s.stores))
  | .receive => isTrue trivial
  | .respond _ _ => isTrue trivial
  | .poll => isTrue trivial
  | .client => isTrue trivial
  | .allocate => isTrue trivial
  | .write _ _ _ => isTrue trivial
  | .deallocate _ => isTrue trivial

/-! ## §3. What goes wrong. -/

/-- Two active requests, answered by two threads that load the same `write_pos`;
then the client takes what there is. -/
def lostRun : List (Act 1 Bool) :=
  [.receive, .receive, .respond true (fun _ => 10#8), .respond false (fun _ => 20#8),
   .worker true, .worker false, .worker true, .worker false, .worker true, .worker false,
   .worker true, .worker false, .worker true, .worker false,
   .poll, .client, .client, .client, .client, .client, .poll]

/-- One thread stops before its last store, another answers twice meanwhile; the
store then sets `write_pos` back. -/
def twiceRun : List (Act 1 Bool) :=
  [.receive, .receive, .receive, .respond true (fun _ => 10#8),
   .worker true, .worker true, .worker true, .worker true,
   .respond false (fun _ => 20#8),
   .worker false, .worker false, .worker false, .worker false, .worker false,
   .respond false (fun _ => 30#8),
   .worker false, .worker false, .worker false, .worker false, .worker false,
   .poll, .client, .client, .client, .client, .client,
   .poll, .client, .client, .client, .client, .client,
   .worker true,
   .poll, .client, .client, .client, .client, .client]

/-- **Answering from two threads is not safe.**  Of two responses whose responds
return Ok at the same time only one is in the queue, so that the other is lost;
and a respond that is overtaken makes the client take a response twice. -/
theorem responses_lost :
    ∃ service : Service 1 1, Service.create 1 1 ⟨2⟩ = some service
      ∧ (∃ s : State 1 Bool, Reach step anyStep (init service) s ∧ Quiet s ∧ ReturnsNone s
          ∧ s.answered.length = 2 ∧ s.taken.length = 1 ∧ ¬ Safe s)
      ∧ (∃ s : State 1 Bool, Reach step anyStep (init service) s
          ∧ ∃ x ∈ s.answered, s.answered.count x = 1 ∧ s.taken.count x = 2 ∧ ¬ Safe s) := by
  have hlost : ((Service.create 1 1 ⟨2⟩).bind (fun service =>
      exec step (init service : State 1 Bool) lostRun)).map (fun s =>
        decide ((∀ t, (s.worker t).isIdle = true)
          ∧ s.client.loadedRead = some s.responseQueue.writePos)
        && decide (s.answered.length = 2 ∧ s.taken.length = 1)) = some true := by decide
  have htwice : ((Service.create 1 1 ⟨2⟩).bind (fun service =>
      exec step (init service : State 1 Bool) twiceRun)).map (fun s =>
        s.answered.any (fun x => decide (s.answered.count x = 1 ∧ s.taken.count x = 2)))
      = some true := by decide
  obtain ⟨s, hs, hend⟩ := Option.map_eq_some_iff.mp hlost
  obtain ⟨s', hs', hend'⟩ := Option.map_eq_some_iff.mp htwice
  obtain ⟨service, hcreate, hexec⟩ := Option.bind_eq_some_iff.mp hs
  obtain ⟨service', hcreate', hexec'⟩ := Option.bind_eq_some_iff.mp hs'
  obtain rfl : service = service' := Option.some.inj (hcreate.symm.trans hcreate')
  simp only [Bool.and_eq_true, decide_eq_true_eq] at hend
  simp only [List.any_eq_true, decide_eq_true_eq] at hend'
  obtain ⟨⟨hquiet, hnone⟩, hansw, htaken⟩ := hend
  obtain ⟨x, hx, hone, htwo⟩ := hend'
  refine ⟨service, hcreate, ⟨s, Reach.of_exec lostRun .refl hexec, hquiet, hnone, hansw, htaken,
    fun hsafe => ?_⟩, s', Reach.of_exec twiceRun .refl hexec', x, hx, hone, htwo, fun hsafe => ?_⟩
  · have hlen := (hsafe.all hquiet hnone).length_eq
    omega
  · have hle := hsafe.once x
    omega

end Entangle.ReqRes.Workers
