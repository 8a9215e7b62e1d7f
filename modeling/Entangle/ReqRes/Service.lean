/-
  Entangle.ReqRes.Service — a request-response service: one server and any
  number of clients (entangle/src/port/client.rs, server.rs,
  service/reqres.rs).

  All ports allocate from one segment.  Each port is used by one thread; the
  handles of a client (`PendingResponse`) belong to the client's thread, the
  active requests to the server's.  A step is one queue operation, one
  allocator operation or one copy of a payload.

  The handles carry no state: `Client.step` lets every handle be polled that a
  successful send has produced, named by the number of that send.  A blocking
  `receive` on a handle is a sequence of such polls.

  A record of the past that no step reads (`sentOk`, `received`, `answered`,
  `taken`, `ActiveRequest.index`) is kept beside the state.
-/
import Entangle.Lib.Transition
import Entangle.Transport.Channel

namespace Entangle.ReqRes

open Entangle.Lib Entangle.Transport

/-! ## §1. State. -/

/-- The field of `ReqResQos` that the ports read. -/
structure ReqResQos where
  maxPendingRequests : Nat
  deriving Repr, DecidableEq

/-- Where a client's thread stands. -/
inductive ClientPc (reqSize resSize : Nat) where
  | idle
  -- inside `send`: the request is to be copied into the chunk
  | writing (offset : PointerOffset) (request : Payload reqSize)
  -- inside `send`: the offset is to be pushed
  | pushing (offset : PointerOffset) (request : Payload reqSize)
  -- inside `try_receive`: the response is to be copied out of the chunk
  | reading (handle : Nat) (offset : PointerOffset)
  -- inside `try_receive`: the chunk is to be deallocated
  | releasing (handle : Nat) (offset : PointerOffset) (response : Payload resSize)

/-- A `Client` and its `ClientWire` at the server. -/
structure Client (reqSize resSize : Nat) where
  requestChannel : ZeroCopyChannel
  responseChannel : ZeroCopyChannel
  pc : ClientPc reqSize resSize
  -- the requests whose `send` returned Ok
  sentOk : List (Payload reqSize)
  -- the requests the server has received from this client
  received : List (Payload reqSize)
  -- the responds that returned Ok: which request, and the response
  answered : List (Nat × Payload resSize)
  -- the responses taken: through which handle, and the value
  taken : List (Nat × Payload resSize)

/-- An `ActiveRequest`; it is request number `index` of its client. -/
structure ActiveRequest (reqSize : Nat) where
  client : Nat
  index : Nat
  request : Payload reqSize

instance decidableEqActiveRequest (reqSize : Nat) : DecidableEq (ActiveRequest reqSize) :=
  fun a b => decidable_of_iff (a.client = b.client ∧ a.index = b.index ∧ a.request = b.request) (by
    cases a
    cases b
    simp)

instance (reqSize : Nat) : LawfulBEq (ActiveRequest reqSize) := inferInstance

/-- Where the server's thread stands. -/
inductive ServerPc (reqSize resSize : Nat) where
  | idle
  -- inside `receive`, at client `k`
  | receiving (k : Nat)
  -- inside `receive`: the request of client `k` is to be copied out of the chunk
  | reading (k : Nat) (offset : PointerOffset)
  -- inside `receive`: the chunk is to be deallocated
  | releasing (k : Nat) (offset : PointerOffset) (request : Payload reqSize)
  -- inside `respond`: the response is to be copied into the chunk
  | writing (r : ActiveRequest reqSize) (offset : PointerOffset) (response : Payload resSize)
  -- inside `respond`: the offset is to be pushed
  | pushing (r : ActiveRequest reqSize) (offset : PointerOffset) (response : Payload resSize)

/-- A request-response service: the one server's segment, from which clients too take
their chunks, the clients in the order in which they have connected, and the requests
that have been received and not yet answered. -/
structure Service (reqSize resSize : Nat) where
  qos : ReqResQos
  segment : DataSegment
  clients : List (Client reqSize resSize)
  server : ServerPc reqSize resSize
  active : List (ActiveRequest reqSize)

variable {reqSize resSize : Nat}

/-- `receive` holds the mutex of the client list. -/
def ServerPc.holdsClients : ServerPc reqSize resSize → Bool
  | .receiving _ | .reading _ _ | .releasing _ _ _ => true
  | .idle | .writing _ _ _ | .pushing _ _ _ => false

/-! ## §2. The client. -/

/-- The steps of a client.  A call is begun by one step; its access to the queue and what
comes after it are others. -/
inductive ClientAct (reqSize : Nat) where
  | send (request : Payload reqSize)
  -- `try_receive` on the handle of send number `handle`
  | poll (handle : Nat)
  -- the next step of `send` or `try_receive`
  | next

/-- `ClientBuilder::create`: two fresh channels. -/
def Client.create (qos : ReqResQos) : Client reqSize resSize :=
  { requestChannel := (ZeroCopyChannel.new qos.maxPendingRequests).connect
    responseChannel := (ZeroCopyChannel.new qos.maxPendingRequests).connect
    pc := .idle
    sentOk := []
    received := []
    answered := []
    taken := [] }

/-- One step of a client on the shared segment. -/
def Client.step (cl : Client reqSize resSize) (segment : DataSegment) :
    ClientAct reqSize → Option (DataSegment × Client reqSize resSize)
  | .send request =>
      match cl.pc with
      | .idle =>
          match segment.allocate with
          | none => none
          | some (.error _, _) => some (segment, cl)
          | some (.ok offset, segment') => some (segment', { cl with pc := .writing offset request })
      | _ => none
  | .poll handle =>
      match cl.pc with
      | .idle =>
          if handle < cl.sentOk.length then
            match cl.responseChannel.receive with
            | (.ok offset, channel) =>
                some (segment, { cl with responseChannel := channel, pc := .reading handle offset })
            | (.error _, channel) => some (segment, { cl with responseChannel := channel })
          else none
      | _ => none
  | .next =>
      match cl.pc with
      | .idle => none
      | .writing offset request =>
          some (segment.write offset request, { cl with pc := .pushing offset request })
      | .pushing offset request =>
          match cl.requestChannel.send offset with
          | (.ok _, channel) =>
              some (segment,
                { cl with requestChannel := channel, pc := .idle, sentOk := cl.sentOk ++ [request] })
          -- the chunk is not given back
          | (.error _, channel) => some (segment, { cl with requestChannel := channel, pc := .idle })
      | .reading handle offset =>
          some (segment, { cl with pc := .releasing handle offset (segment.read resSize offset) })
      | .releasing handle offset response =>
          (segment.deallocate offset).map (fun segment' =>
            (segment', { cl with pc := .idle, taken := cl.taken ++ [(handle, response)] }))

/-! ## §3. The server and the service. -/

/-- The steps of a service: those of its clients, and those of its server. -/
inductive Act (reqSize resSize : Nat) where
  | createClient
  | client (c : Nat) (a : ClientAct reqSize)
  | receive
  | respond (r : ActiveRequest reqSize) (response : Payload resSize)
  -- an active request is dropped unanswered
  | dropRequest (r : ActiveRequest reqSize)
  -- the next step of `receive` or `respond`
  | next

namespace Service

/-- `ServerBuilder::create`; `none` where the segment cannot be made. -/
def create (reqSize resSize : Nat) (qos : ReqResQos) : Option (Service reqSize resSize) :=
  (DataSegment.create (max (max reqSize resSize) 8)
    (max (qos.maxPendingRequests * 2 % 2 ^ 64) 16 % 2 ^ 32) 0#16).map (fun segment =>
      { qos := qos, segment := segment, clients := [], server := .idle, active := [] })

def setClient (s : Service reqSize resSize) (c : Nat) (cl : Client reqSize resSize) :
    Service reqSize resSize :=
  { s with clients := s.clients.set c cl }

/-- One round of the loop in `Server::receive`. -/
def receiveNext (s : Service reqSize resSize) (k : Nat) : Option (Service reqSize resSize) :=
  s.clients[k]?.map (fun cl =>
    match cl.requestChannel.receive with
    | (.ok offset, channel) =>
        { s.setClient k { cl with requestChannel := channel } with server := .reading k offset }
    | (.error .empty, channel) =>
        { s.setClient k { cl with requestChannel := channel } with
          server := if k + 1 < s.clients.length then .receiving (k + 1) else .idle }
    | (.error .connectionBroken, channel) =>
        { s.setClient k { cl with requestChannel := channel } with server := .idle })

/-- The end of `Server::receive`: the request becomes active. -/
def received (s : Service reqSize resSize) (k : Nat) (offset : PointerOffset)
    (request : Payload reqSize) : Option (Service reqSize resSize) :=
  s.clients[k]?.bind (fun cl =>
    (s.segment.deallocate offset).map (fun segment =>
      { s.setClient k { cl with received := cl.received ++ [request] } with
        segment := segment
        server := .idle
        active := s.active ++ [⟨k, cl.received.length, request⟩] }))

/-- The call of `ActiveRequest::respond`, which uses up the active request. -/
def respond (s : Service reqSize resSize) (r : ActiveRequest reqSize)
    (response : Payload resSize) : Option (Service reqSize resSize) :=
  match s.segment.allocate with
  | none => none
  | some (.error _, _) => some { s with active := s.active.erase r }
  | some (.ok offset, segment) =>
      some { s with
        segment := segment
        active := s.active.erase r
        server := .writing r offset response }

/-- The end of `ActiveRequest::respond`. -/
def respondNext (s : Service reqSize resSize) (r : ActiveRequest reqSize) (offset : PointerOffset)
    (response : Payload resSize) : Option (Service reqSize resSize) :=
  s.clients[r.client]?.map (fun cl =>
    match cl.responseChannel.send offset with
    | (.ok _, channel) =>
        { s.setClient r.client
            { cl with
              responseChannel := channel
              answered := cl.answered ++ [(r.index, response)] } with
          server := .idle }
    -- the chunk is not given back
    | (.error _, channel) =>
        { s.setClient r.client { cl with responseChannel := channel } with server := .idle })

def step (s : Service reqSize resSize) : Act reqSize resSize → Option (Service reqSize resSize)
  | .createClient =>
      if s.server.holdsClients then none
      else some { s with clients := s.clients ++ [Client.create s.qos] }
  | .client c a =>
      s.clients[c]?.bind (fun cl =>
        (cl.step s.segment a).map (fun x => { s.setClient c x.2 with segment := x.1 }))
  | .receive =>
      match s.server with
      | .idle => some (if s.clients = [] then s else { s with server := .receiving 0 })
      | _ => none
  | .respond r response =>
      match s.server with
      | .idle => if r ∈ s.active then s.respond r response else none
      | _ => none
  | .dropRequest r =>
      match s.server with
      | .idle => if r ∈ s.active then some { s with active := s.active.erase r } else none
      | _ => none
  | .next =>
      match s.server with
      | .idle => none
      | .receiving k => s.receiveNext k
      | .reading k offset =>
          some { s with server := .releasing k offset (s.segment.read reqSize offset) }
      | .releasing k offset request => s.received k offset request
      | .writing r offset response =>
          some { s with
            segment := s.segment.write offset response
            server := .pushing r offset response }
      | .pushing r offset response => s.respondNext r offset response

end Service

/-! ## §4. What a step does. -/

/-- Everything a step of a client can do. -/
inductive ClientStep (segment : DataSegment) (cl : Client reqSize resSize) :
    ClientAct reqSize → DataSegment → Client reqSize resSize → Prop
  | sendFailed (request : Payload reqSize) : cl.pc = .idle →
      ClientStep segment cl (.send request) segment cl
  | sendBegun (request : Payload reqSize) (offset : PointerOffset) (segment' : DataSegment) :
      cl.pc = .idle → segment.allocate = some (.ok offset, segment') →
      ClientStep segment cl (.send request) segment' { cl with pc := .writing offset request }
  | pollEmpty (handle : Nat) (e : ReceiveError) (channel : ZeroCopyChannel) : cl.pc = .idle →
      cl.responseChannel.receive = (.error e, channel) →
      ClientStep segment cl (.poll handle) segment { cl with responseChannel := channel }
  | polled (handle : Nat) (offset : PointerOffset) (channel : ZeroCopyChannel) : cl.pc = .idle →
      handle < cl.sentOk.length → cl.responseChannel.receive = (.ok offset, channel) →
      ClientStep segment cl (.poll handle) segment
        { cl with responseChannel := channel, pc := .reading handle offset }
  | written (offset : PointerOffset) (request : Payload reqSize) :
      cl.pc = .writing offset request →
      ClientStep segment cl .next (segment.write offset request)
        { cl with pc := .pushing offset request }
  | pushed (offset : PointerOffset) (request : Payload reqSize) (u : Unit)
      (channel : ZeroCopyChannel) : cl.pc = .pushing offset request →
      cl.requestChannel.send offset = (.ok u, channel) →
      ClientStep segment cl .next segment
        { cl with requestChannel := channel, pc := .idle, sentOk := cl.sentOk ++ [request] }
  | pushFailed (offset : PointerOffset) (request : Payload reqSize) (e : SendError)
      (channel : ZeroCopyChannel) : cl.pc = .pushing offset request →
      cl.requestChannel.send offset = (.error e, channel) →
      ClientStep segment cl .next segment { cl with requestChannel := channel, pc := .idle }
  | copied (handle : Nat) (offset : PointerOffset) : cl.pc = .reading handle offset →
      ClientStep segment cl .next segment
        { cl with pc := .releasing handle offset (segment.read resSize offset) }
  | taken (handle : Nat) (offset : PointerOffset) (response : Payload resSize)
      (segment' : DataSegment) : cl.pc = .releasing handle offset response →
      segment.deallocate offset = some segment' →
      ClientStep segment cl .next segment'
        { cl with pc := .idle, taken := cl.taken ++ [(handle, response)] }

theorem client_step_cases {cl cl' : Client reqSize resSize} {segment segment' : DataSegment}
    {a : ClientAct reqSize} (hs : cl.step segment a = some (segment', cl')) :
    ClientStep segment cl a segment' cl' := by
  cases a with
  | send request =>
      simp only [Client.step] at hs
      split at hs
      next hidle =>
        split at hs
        next => exact absurd hs (by simp)
        next =>
          simp only [Option.some.injEq, Prod.mk.injEq] at hs
          obtain ⟨rfl, rfl⟩ := hs
          exact .sendFailed request hidle
        next offset seg halloc =>
          simp only [Option.some.injEq, Prod.mk.injEq] at hs
          obtain ⟨rfl, rfl⟩ := hs
          exact .sendBegun request offset seg hidle halloc
      next => exact absurd hs (by simp)
  | poll handle =>
      simp only [Client.step] at hs
      split at hs
      next hidle =>
        split at hs
        next hlt =>
          split at hs
          next offset channel hrecv =>
            simp only [Option.some.injEq, Prod.mk.injEq] at hs
            obtain ⟨rfl, rfl⟩ := hs
            exact .polled handle offset channel hidle hlt hrecv
          next e channel hrecv =>
            simp only [Option.some.injEq, Prod.mk.injEq] at hs
            obtain ⟨rfl, rfl⟩ := hs
            exact .pollEmpty handle e channel hidle hrecv
        next => exact absurd hs (by simp)
      next => exact absurd hs (by simp)
  | next =>
      simp only [Client.step] at hs
      split at hs
      next => exact absurd hs (by simp)
      next offset request hpc =>
        simp only [Option.some.injEq, Prod.mk.injEq] at hs
        obtain ⟨rfl, rfl⟩ := hs
        exact .written offset request hpc
      next offset request hpc =>
        split at hs
        next u channel hsend =>
          simp only [Option.some.injEq, Prod.mk.injEq] at hs
          obtain ⟨rfl, rfl⟩ := hs
          exact .pushed offset request u channel hpc hsend
        next e channel hsend =>
          simp only [Option.some.injEq, Prod.mk.injEq] at hs
          obtain ⟨rfl, rfl⟩ := hs
          exact .pushFailed offset request e channel hpc hsend
      next handle offset hpc =>
        simp only [Option.some.injEq, Prod.mk.injEq] at hs
        obtain ⟨rfl, rfl⟩ := hs
        exact .copied handle offset hpc
      next handle offset response hpc =>
        obtain ⟨seg, hdealloc, hpair⟩ := Option.map_eq_some_iff.mp hs
        obtain ⟨rfl, rfl⟩ := Prod.mk.inj hpair
        exact .taken handle offset response seg hpc hdealloc

/-- Everything a step of the service can do. -/
inductive ServiceStep (s : Service reqSize resSize) :
    Act reqSize resSize → Service reqSize resSize → Prop
  | createClient : s.server.holdsClients = false →
      ServiceStep s .createClient { s with clients := s.clients ++ [Client.create s.qos] }
  | client (c : Nat) (a : ClientAct reqSize) (cl cl' : Client reqSize resSize)
      (segment : DataSegment) : s.clients[c]? = some cl →
      ClientStep s.segment cl a segment cl' →
      ServiceStep s (.client c a) { s.setClient c cl' with segment := segment }
  | receiveNothing : ServiceStep s .receive s
  | receive : s.server = .idle → ServiceStep s .receive { s with server := .receiving 0 }
  | popped (k : Nat) (cl : Client reqSize resSize) (offset : PointerOffset)
      (channel : ZeroCopyChannel) : s.server = .receiving k → s.clients[k]? = some cl →
      cl.requestChannel.receive = (.ok offset, channel) →
      ServiceStep s .next
        { s.setClient k { cl with requestChannel := channel } with server := .reading k offset }
  | passed (k : Nat) (cl : Client reqSize resSize) (e : ReceiveError) (channel : ZeroCopyChannel)
      (pc : ServerPc reqSize resSize) : s.server = .receiving k → s.clients[k]? = some cl →
      cl.requestChannel.receive = (.error e, channel) → (pc = .idle ∨ ∃ j, pc = .receiving j) →
      ServiceStep s .next
        { s.setClient k { cl with requestChannel := channel } with server := pc }
  | copied (k : Nat) (offset : PointerOffset) : s.server = .reading k offset →
      ServiceStep s .next
        { s with server := .releasing k offset (s.segment.read reqSize offset) }
  | received (k : Nat) (offset : PointerOffset) (request : Payload reqSize)
      (cl : Client reqSize resSize) (segment : DataSegment) :
      s.server = .releasing k offset request → s.clients[k]? = some cl →
      s.segment.deallocate offset = some segment →
      ServiceStep s .next
        { s.setClient k { cl with received := cl.received ++ [request] } with
          segment := segment
          server := .idle
          active := s.active ++ [⟨k, cl.received.length, request⟩] }
  | respondFailed (r : ActiveRequest reqSize) (response : Payload resSize) : s.server = .idle →
      r ∈ s.active → ServiceStep s (.respond r response) { s with active := s.active.erase r }
  | respondBegun (r : ActiveRequest reqSize) (response : Payload resSize) (offset : PointerOffset)
      (segment : DataSegment) : s.server = .idle → r ∈ s.active →
      s.segment.allocate = some (.ok offset, segment) →
      ServiceStep s (.respond r response)
        { s with
          segment := segment
          active := s.active.erase r
          server := .writing r offset response }
  | dropRequest (r : ActiveRequest reqSize) : s.server = .idle → r ∈ s.active →
      ServiceStep s (.dropRequest r) { s with active := s.active.erase r }
  | written (r : ActiveRequest reqSize) (offset : PointerOffset) (response : Payload resSize) :
      s.server = .writing r offset response →
      ServiceStep s .next
        { s with
          segment := s.segment.write offset response
          server := .pushing r offset response }
  | answered (r : ActiveRequest reqSize) (offset : PointerOffset) (response : Payload resSize)
      (cl : Client reqSize resSize) (u : Unit) (channel : ZeroCopyChannel) :
      s.server = .pushing r offset response → s.clients[r.client]? = some cl →
      cl.responseChannel.send offset = (.ok u, channel) →
      ServiceStep s .next
        { s.setClient r.client
            { cl with
              responseChannel := channel
              answered := cl.answered ++ [(r.index, response)] } with
          server := .idle }
  | answerFailed (r : ActiveRequest reqSize) (offset : PointerOffset) (response : Payload resSize)
      (cl : Client reqSize resSize) (e : SendError) (channel : ZeroCopyChannel) :
      s.server = .pushing r offset response → s.clients[r.client]? = some cl →
      cl.responseChannel.send offset = (.error e, channel) →
      ServiceStep s .next
        { s.setClient r.client { cl with responseChannel := channel } with server := .idle }

/-- **The steps of the service.** -/
theorem step_cases {s s' : Service reqSize resSize} {a : Act reqSize resSize}
    (hs : s.step a = some s') : ServiceStep s a s' := by
  cases a with
  | createClient =>
      simp only [Service.step] at hs
      split at hs
      next => exact absurd hs (by simp)
      next hfree =>
        injection hs with hs
        subst hs
        exact .createClient (by simpa using hfree)
  | client c a =>
      obtain ⟨cl, hcl, hmap⟩ := Option.bind_eq_some_iff.mp hs
      obtain ⟨⟨segment, cl'⟩, hstep, rfl⟩ := Option.map_eq_some_iff.mp hmap
      exact .client c a cl cl' segment hcl (client_step_cases hstep)
  | receive =>
      simp only [Service.step] at hs
      split at hs
      next hidle =>
        injection hs with hs
        subst hs
        split
        next => exact .receiveNothing
        next => exact .receive hidle
      next => exact absurd hs (by simp)
  | respond r response =>
      simp only [Service.step] at hs
      split at hs
      next hidle =>
        split at hs
        next hmem =>
          unfold Service.respond at hs
          split at hs
          next => exact absurd hs (by simp)
          next =>
            injection hs with hs
            subst hs
            exact .respondFailed r response hidle hmem
          next offset segment halloc =>
            injection hs with hs
            subst hs
            exact .respondBegun r response offset segment hidle hmem halloc
        next => exact absurd hs (by simp)
      next => exact absurd hs (by simp)
  | dropRequest r =>
      simp only [Service.step] at hs
      split at hs
      next hidle =>
        split at hs
        next hmem =>
          injection hs with hs
          subst hs
          exact .dropRequest r hidle hmem
        next => exact absurd hs (by simp)
      next => exact absurd hs (by simp)
  | next =>
      simp only [Service.step] at hs
      split at hs
      next => exact absurd hs (by simp)
      next k hpc =>
        obtain ⟨cl, hcl, rfl⟩ := Option.map_eq_some_iff.mp hs
        dsimp only
        split
        next offset channel hrecv => exact .popped k cl offset channel hpc hcl hrecv
        next channel hrecv =>
          refine .passed k cl _ channel _ hpc hcl hrecv ?_
          split
          next => exact .inr ⟨_, rfl⟩
          next => exact .inl rfl
        next channel hrecv => exact .passed k cl _ channel .idle hpc hcl hrecv (.inl rfl)
      next k offset hpc =>
        injection hs with hs
        subst hs
        exact .copied k offset hpc
      next k offset request hpc =>
        obtain ⟨cl, hcl, hmap⟩ := Option.bind_eq_some_iff.mp hs
        obtain ⟨segment, hdealloc, rfl⟩ := Option.map_eq_some_iff.mp hmap
        exact .received k offset request cl segment hpc hcl hdealloc
      next r offset response hpc =>
        injection hs with hs
        subst hs
        exact .written r offset response hpc
      next r offset response hpc =>
        obtain ⟨cl, hcl, rfl⟩ := Option.map_eq_some_iff.mp hs
        dsimp only
        split
        next u channel hsend => exact .answered r offset response cl u channel hpc hcl hsend
        next e channel hsend => exact .answerFailed r offset response cl e channel hpc hcl hsend

end Entangle.ReqRes
