/-
  Entangle.ReqRes.FailedCalls — what `Client::send` and
  `ActiveRequest::respond` leave in the shared pool when they fail
  (entangle/src/port/client.rs, server.rs).

  Both allocate a chunk, copy the payload into it and push its offset
  (`handOver`).  Without a free chunk nothing has happened when they return;
  if the push is refused the chunk has been taken and nobody gives it back.
  A run in which no push is refused keeps every chunk in sight: it is free, in
  a queue, or in the hands of a call that is under way (`Covered`).

  Main results:
    * `handOver_empty`, `handOver_accepts`, `handOver_refuses` — one call;
    * `exec_send`, `exec_respond` — the calls are runs of `Service.step`;
    * `Covered.step` — the run invariant;
    * `failed_calls` — when a failed call leaves the pool as it was, and which
      chunks are allocated between calls;
    * `request_chunk_lost` — a request into a full queue.
-/
import Entangle.ReqRes.Ownership
import Entangle.Port.Error

namespace Entangle.ReqRes

open Entangle.Lib Entangle.Lockfree Entangle.Transport Entangle.Port

variable {reqSize resSize : Nat}

/-! ## §1. The two calls. -/

/-- Allocate a chunk, copy the payload into it, push the offset. -/
def handOver {n : Nat} (segment : DataSegment) (channel : ZeroCopyChannel) (value : Payload n) :
    Option (Except PortError Unit × DataSegment × ZeroCopyChannel) :=
  match segment.allocate with
  | none => none
  | some (.error e, _) => some (.error (.loan e), segment, channel)
  | some (.ok offset, segment') =>
      match channel.send offset with
      | (.error e, channel') => some (.error (.send e), segment'.write offset value, channel')
      | (.ok _, channel') => some (.ok (), segment'.write offset value, channel')

namespace Service

/-- The state when `Client::send` returns. -/
def afterSend (s : Service reqSize resSize) (c : Nat) (cl : Client reqSize resSize)
    (request : Payload reqSize) :
    Except PortError Unit × DataSegment × ZeroCopyChannel → Service reqSize resSize
  | (.ok _, segment, channel) =>
      { s.setClient c
          { cl with requestChannel := channel, sentOk := cl.sentOk ++ [request] } with
        segment := segment }
  | (.error _, segment, channel) =>
      { s.setClient c { cl with requestChannel := channel } with segment := segment }

/-- `Client::send` of client `c`. -/
def send (s : Service reqSize resSize) (c : Nat) (request : Payload reqSize) :
    Option (Except PortError Unit × Service reqSize resSize) :=
  s.clients[c]?.bind (fun cl =>
    (handOver s.segment cl.requestChannel request).map (fun r =>
      (r.1, s.afterSend c cl request r)))

/-- The state when `ActiveRequest::respond` returns; the active request is used up. -/
def afterRespond (s : Service reqSize resSize) (q : ActiveRequest reqSize)
    (cl : Client reqSize resSize) (response : Payload resSize) :
    Except PortError Unit × DataSegment × ZeroCopyChannel → Service reqSize resSize
  | (.ok _, segment, channel) =>
      { s.setClient q.client
          { cl with
            responseChannel := channel
            answered := cl.answered ++ [(q.index, response)] } with
        segment := segment
        active := s.active.erase q }
  | (.error _, segment, channel) =>
      { s.setClient q.client { cl with responseChannel := channel } with
        segment := segment
        active := s.active.erase q }

/-- `ActiveRequest::respond` of the active request `q`. -/
def respondTo (s : Service reqSize resSize) (q : ActiveRequest reqSize)
    (response : Payload resSize) : Option (Except PortError Unit × Service reqSize resSize) :=
  s.clients[q.client]?.bind (fun cl =>
    (handOver s.segment cl.responseChannel response).map (fun r =>
      (r.1, s.afterRespond q cl response r)))

end Service

/-! ## §2. One call, by what it finds. -/

section HandOver

variable {n : Nat} {segment : DataSegment} {channel : ZeroCopyChannel}

/-- No chunk is free: `OutOfMemory`, and nothing has changed. -/
theorem handOver_empty (h : segment.Free []) (value : Payload n) :
    handOver segment channel value = some (.error (.loan .outOfMemory), segment, channel) := by
  unfold handOver
  rw [DataSegment.allocate_err h]

/-- A chunk is free and the channel takes it. -/
theorem handOver_accepts {i : U32} {l : List U32} (h : segment.Free (i :: l))
    (hch : channel.Accepts) (value : Payload n) :
    ∃ segment' channel', handOver segment channel value = some (.ok (), segment', channel')
      ∧ segment'.Free l ∧ segment'.layout = segment.layout
      ∧ channel'.pending = channel.pending ++ [segment.layout.chunk i] := by
  obtain ⟨seg, halloc, hfree, hlayout, _⟩ := DataSegment.allocate_ok h
  obtain ⟨hok, hpend⟩ := ZeroCopyChannel.send_of_accepts hch (segment.layout.chunk i)
  refine ⟨seg.write (segment.layout.chunk i) value, (channel.send (segment.layout.chunk i)).2, ?_,
    hfree.write _ _, hlayout, hpend⟩
  unfold handOver
  rw [halloc]
  simp only
  rw [← Prod.eta (channel.send (segment.layout.chunk i)), hok]

/-- A chunk is free and the channel refuses it: the chunk is taken all the same. -/
theorem handOver_refuses {i : U32} {l : List U32} (h : segment.Free (i :: l))
    (hch : ¬ channel.Accepts) (value : Payload n) :
    ∃ e segment', handOver segment channel value = some (.error (.send e), segment', channel)
      ∧ segment'.Free l ∧ segment'.layout = segment.layout := by
  obtain ⟨seg, halloc, hfree, hlayout, _⟩ := DataSegment.allocate_ok h
  obtain ⟨e, he⟩ := ZeroCopyChannel.send_of_refuses hch (segment.layout.chunk i)
  refine ⟨e, seg.write (segment.layout.chunk i) value, ?_, hfree.write _ _, hlayout⟩
  unfold handOver
  rw [halloc]
  simp only [he]

end HandOver

/-! ## §3. The pool as it was. -/

/-- What the request and response queues hold, client by client. -/
def Service.queues (s : Service reqSize resSize) : List (List PointerOffset × List PointerOffset) :=
  s.clients.map (fun cl => (cl.requestChannel.pending, cl.responseChannel.pending))

/-- The free list has the same chunks and the queues are unchanged. -/
structure PoolAsBefore (s s' : Service reqSize resSize) : Prop where
  free : ∀ i, s'.segment.OnFreeChain i ↔ s.segment.OnFreeChain i
  queues : s'.queues = s.queues

/-- If the call returns Err it leaves the pool as it was. -/
def FailsClean (s : Service reqSize resSize)
    (call : Option (Except PortError Unit × Service reqSize resSize)) : Prop :=
  ∀ e s', call = some (.error e, s') → PoolAsBefore s s'

/-- No chunk is free. -/
def Exhausted (s : Service reqSize resSize) : Prop := ∀ i, ¬ s.segment.OnFreeChain i

theorem exhausted_iff {s : Service reqSize resSize} {l : List U32} (h : s.segment.Free l) :
    Exhausted s ↔ l = [] := by
  constructor
  · intro hnone
    by_contra hne
    obtain ⟨i, rest, rfl⟩ := List.exists_cons_of_ne_nil hne
    exact hnone i ((h.onFreeChain_iff i).mpr List.mem_cons_self)
  · rintro rfl i hon
    exact absurd ((h.onFreeChain_iff i).mp hon) (by simp)

/-- The queues do not change if those of the one client that is replaced do not. -/
theorem queues_setClient {s s' : Service reqSize resSize} {c : Nat}
    {cl cl' : Client reqSize resSize} (hc : s.clients[c]? = some cl)
    (hclients : s'.clients = s.clients.set c cl')
    (hreq : cl'.requestChannel.pending = cl.requestChannel.pending)
    (hres : cl'.responseChannel.pending = cl.responseChannel.pending) : s'.queues = s.queues := by
  unfold Service.queues
  rw [hclients, List.map_set, hreq, hres]
  conv_rhs => rw [← set_same hc, List.map_set]

/-- A call on one channel of client `c`, as both calls are. -/
theorem failsClean_iff {n : Nat} {s : Service reqSize resSize} {l : List U32}
    (h : s.segment.Free l) {channel : ZeroCopyChannel} (value : Payload n)
    {call : Option (Except PortError Unit × Service reqSize resSize)}
    (after : Except PortError Unit × DataSegment × ZeroCopyChannel → Service reqSize resSize)
    (hcall : call = (handOver s.segment channel value).map (fun r => (r.1, after r)))
    (hsegment : ∀ r, (after r).segment = r.2.1)
    (hqueues : ∀ e segment, (after (.error e, segment, channel)).queues = s.queues) :
    FailsClean s call ↔ Exhausted s ∨ channel.Accepts := by
  rw [exhausted_iff h]
  cases l with
  | nil =>
      simp only [true_or, iff_true]
      intro e s' hs'
      rw [hcall, handOver_empty h, Option.map_some, Option.some.injEq, Prod.mk.injEq] at hs'
      obtain ⟨_, rfl⟩ := hs'
      refine ⟨fun i => ?_, hqueues _ _⟩
      rw [hsegment]
  | cons i rest =>
      by_cases hch : channel.Accepts
      · simp only [hch, or_true, iff_true]
        obtain ⟨segment', channel', hhand, _⟩ := handOver_accepts h hch value
        intro e s' hs'
        rw [hcall, hhand] at hs'
        exact absurd hs' (by simp)
      · simp only [hch, or_false, reduceCtorEq, iff_false]
        obtain ⟨e, segment', hhand, hfree, _⟩ := handOver_refuses h hch value
        intro hclean
        have hsame := (hclean _ _ (by rw [hcall, hhand, Option.map_some])).free i
        rw [hsegment, hfree.onFreeChain_iff, h.onFreeChain_iff] at hsame
        exact (List.nodup_cons.mp h.list.nodup).1 (hsame.mpr List.mem_cons_self)

theorem send_failsClean_iff {s : Service reqSize resSize} {l : List U32} (h : s.segment.Free l)
    {c : Nat} {cl : Client reqSize resSize} (hc : s.clients[c]? = some cl)
    (request : Payload reqSize) :
    FailsClean s (s.send c request) ↔ Exhausted s ∨ cl.requestChannel.Accepts := by
  refine failsClean_iff h request (s.afterSend c cl request) ?_ ?_ ?_
  · rw [Service.send, hc, Option.bind_some]
  · rintro ⟨_ | _, _, _⟩ <;> rfl
  · exact fun _ _ => queues_setClient hc rfl rfl rfl

theorem respond_failsClean_iff {s : Service reqSize resSize} {l : List U32} (h : s.segment.Free l)
    {q : ActiveRequest reqSize} {cl : Client reqSize resSize}
    (hc : s.clients[q.client]? = some cl) (response : Payload resSize) :
    FailsClean s (s.respondTo q response) ↔ Exhausted s ∨ cl.responseChannel.Accepts := by
  refine failsClean_iff h response (s.afterRespond q cl response) ?_ ?_ ?_
  · rw [Service.respondTo, hc, Option.bind_some]
  · rintro ⟨_ | _, _, _⟩ <;> rfl
  · exact fun _ _ => queues_setClient hc rfl rfl rfl

/-! ## §4. The calls as runs of steps. -/

/-- Client `c` after its steps so far, on the segment as it is then. -/
def Service.withClient (s : Service reqSize resSize) (c : Nat) (cl : Client reqSize resSize)
    (segment : DataSegment) : Service reqSize resSize :=
  { s.setClient c cl with segment := segment }

theorem withClient_step {s : Service reqSize resSize} {c : Nat} (hc : c < s.clients.length)
    {cl cl' : Client reqSize resSize} {segment segment' : DataSegment} {a : ClientAct reqSize}
    (hstep : cl.step segment a = some (segment', cl')) :
    (s.withClient c cl segment).step (.client c a) = some (s.withClient c cl' segment') := by
  have hget : (s.clients.set c cl)[c]? = some cl := List.getElem?_set_self hc
  simp only [Service.step, Service.withClient, Service.setClient, hget, Option.bind_some, hstep,
    Option.map_some, List.set_set]

theorem withClient_self {s : Service reqSize resSize} {c : Nat} {cl : Client reqSize resSize}
    (hc : s.clients[c]? = some cl) : s.withClient c cl s.segment = s := by
  simp only [Service.withClient, Service.setClient, set_same hc]

/-- **`Client::send` is a run of the client's steps** with nothing in between. -/
theorem exec_send {s : Service reqSize resSize} {c : Nat} {cl : Client reqSize resSize}
    (hc : s.clients[c]? = some cl) (hidle : cl.pc = .idle) (request : Payload reqSize) :
    ∃ n, exec Service.step s (.client c (.send request) :: List.replicate n (.client c .next))
      = (s.send c request).map Prod.snd := by
  have hlt := (List.getElem?_eq_some_iff.mp hc).1
  have hself := withClient_self hc
  have hsend : s.send c request = (handOver s.segment cl.requestChannel request).map (fun r =>
      (r.1, s.afterSend c cl request r)) := by
    rw [Service.send, hc, Option.bind_some]
  cases halloc : s.segment.allocate with
  | none =>
      refine ⟨0, ?_⟩
      have hstep : s.step (.client c (.send request)) = none := by
        simp only [Service.step, hc, Option.bind_some, Client.step, hidle, halloc, Option.map_none]
      rw [exec, hstep, hsend, handOver, halloc]
      rfl
  | some r =>
      obtain ⟨result, segment⟩ := r
      cases result with
      | error e =>
          refine ⟨0, ?_⟩
          have hfirst : cl.step s.segment (.send request) = some (s.segment, cl) := by
            simp only [Client.step, hidle, halloc]
          have hstep := withClient_step hlt hfirst
          rw [hself] at hstep
          rw [exec, hstep, hsend, handOver, halloc]
          simp only [List.replicate_zero, Option.bind_some, exec, Option.map_some,
            Service.afterSend]
          exact congrArg some hself.symm
      | ok offset =>
          refine ⟨2, ?_⟩
          have hfirst : cl.step s.segment (.send request)
              = some (segment, { cl with pc := .writing offset request }) := by
            simp only [Client.step, hidle, halloc]
          have hstep := withClient_step hlt hfirst
          rw [hself] at hstep
          have hwrite : (s.withClient c { cl with pc := .writing offset request } segment).step
              (.client c .next) = some (s.withClient c { cl with pc := .pushing offset request }
                (segment.write offset request)) := withClient_step hlt rfl
          rw [hsend, handOver, halloc]
          rw [exec, hstep, Option.bind_some, List.replicate_succ, exec, hwrite, Option.bind_some,
            List.replicate_one, exec]
          cases hch : cl.requestChannel.send offset with
          | mk result channel =>
              cases result with
              | ok u =>
                  have hpush : ({ cl with pc := .pushing offset request } :
                      Client reqSize resSize).step (segment.write offset request) .next
                      = some (segment.write offset request,
                          { cl with
                            requestChannel := channel
                            pc := .idle
                            sentOk := cl.sentOk ++ [request] }) := by
                    simp only [Client.step, hch]
                  rw [withClient_step hlt hpush, ← hidle]
                  simp only [Option.bind_some, exec, hch, Option.map_some]
                  rfl
              | error e =>
                  have hpush : ({ cl with pc := .pushing offset request } :
                      Client reqSize resSize).step (segment.write offset request) .next
                      = some (segment.write offset request,
                          { cl with requestChannel := channel, pc := .idle }) := by
                    simp only [Client.step, hch]
                  rw [withClient_step hlt hpush, ← hidle]
                  simp only [Option.bind_some, exec, hch, Option.map_some]
                  rfl

/-- **`ActiveRequest::respond` is a run of the server's steps** with nothing in between. -/
theorem exec_respond {s : Service reqSize resSize} {q : ActiveRequest reqSize}
    {cl : Client reqSize resSize} (hidle : s.server = .idle) (hq : q ∈ s.active)
    (hc : s.clients[q.client]? = some cl) (response : Payload resSize) :
    ∃ n, exec Service.step s (.respond q response :: List.replicate n .next)
      = (s.respondTo q response).map Prod.snd := by
  have hrespond : s.respondTo q response
      = (handOver s.segment cl.responseChannel response).map (fun r =>
          (r.1, s.afterRespond q cl response r)) := by
    rw [Service.respondTo, hc, Option.bind_some]
  have hcall : s.step (.respond q response) = s.respond q response := by
    simp only [Service.step, hidle, if_pos hq]
  rw [hrespond]
  cases halloc : s.segment.allocate with
  | none =>
      refine ⟨0, ?_⟩
      rw [exec, hcall, Service.respond, halloc, handOver, halloc]
      rfl
  | some r =>
      obtain ⟨result, segment⟩ := r
      cases result with
      | error e =>
          refine ⟨0, ?_⟩
          rw [exec, hcall, Service.respond, halloc, handOver, halloc]
          simp only [List.replicate_zero, Option.bind_some, exec, Option.map_some,
            Service.afterRespond]
          simp only [Service.setClient, set_same hc]
      | ok offset =>
          refine ⟨2, ?_⟩
          rw [exec, hcall, Service.respond, halloc, handOver, halloc]
          simp only [Option.bind_some, List.replicate_succ, List.replicate_zero, exec, Service.step,
            Service.respondNext, hc, Option.map_some]
          cases hch : cl.responseChannel.send offset with
          | mk result channel =>
              cases result with
              | ok u =>
                  simp only [Option.map_some, Service.afterRespond, ← hidle]
                  rfl
              | error e =>
                  simp only [Option.map_some, Service.afterRespond, ← hidle]
                  rfl

/-! ## §5. Every chunk in sight. -/

/-- The chunk with this offset is at some place. -/
def Service.Holds (s : Service reqSize resSize) (x : PointerOffset) : Prop := ∃ p, x ∈ s.held p

/-- Every chunk that is not free is at some place. -/
def Covered (s : Service reqSize resSize) : Prop :=
  ∀ i : U32, i.toNat < s.segment.layout.chunkCount → ¬ s.segment.OnFreeChain i →
    s.Holds (s.segment.layout.chunk i)

/-- Only the chunk allocated leaves the free list. -/
theorem onFreeChain_of_allocated {seg seg' : DataSegment} {l : List U32} (h : seg.Free l)
    {offset : PointerOffset} (hs : seg.allocate = some (.ok offset, seg')) {j : U32}
    (hj : ¬ seg'.OnFreeChain j) : seg.layout.chunk j = offset ∨ ¬ seg.OnFreeChain j := by
  obtain ⟨i, rest, rfl, rfl, hfree, _⟩ := h.allocated hs
  rw [hfree.onFreeChain_iff] at hj
  rw [h.onFreeChain_iff]
  by_cases he : j = i
  · exact .inl (by rw [he])
  · refine .inr (fun hmem => ?_)
    rcases List.mem_cons.mp hmem with hji | hrest
    · exact he hji
    · exact hj hrest

/-- The chunk deallocated is free again. -/
theorem onFreeChain_of_deallocated {seg seg' : DataSegment} {l : List U32} (h : seg.Free l)
    {offset : PointerOffset} (ht : Taken seg.layout l offset)
    (hs : seg.deallocate offset = some seg') {j : U32} (hlt : j.toNat < seg.layout.chunkCount)
    (hj : ¬ seg'.OnFreeChain j) : seg.layout.chunk j ≠ offset ∧ ¬ seg.OnFreeChain j := by
  obtain ⟨i, hi, hil, rfl⟩ := ht
  obtain ⟨seg₁, hdealloc, hfree, _⟩ := DataSegment.deallocate_ok h hi hil
  rw [hdealloc] at hs
  obtain rfl := Option.some.inj hs
  rw [hfree.onFreeChain_iff] at hj
  rw [h.onFreeChain_iff]
  refine ⟨fun he => ?_, fun hmem => hj (List.mem_cons_of_mem i hmem)⟩
  rw [seg.layout.chunk_inj hlt hi he] at hj
  exact hj List.mem_cons_self

/-- What the client that has moved holds. -/
theorem holds_of_client {s s' : Service reqSize resSize} {c : Nat} {cl cl' : Client reqSize resSize}
    (hc : s.clients[c]? = some cl) (hclients : s'.clients = s.clients.set c cl') (part : ClientPart)
    {x : PointerOffset} (hx : x ∈ cl'.held part) : s'.Holds x := by
  refine ⟨.client c part, ?_⟩
  rw [held_client_self hc hclients]
  exact hx

/-- Where a chunk is after client `c` has moved: where it was, unless it was
with that client or the server. -/
theorem Service.Holds.set {s s' : Service reqSize resSize} {c : Nat}
    {cl cl' : Client reqSize resSize} {x : PointerOffset} (h : s.Holds x)
    (hc : s.clients[c]? = some cl) (hclients : s'.clients = s.clients.set c cl')
    (hcl : ∀ part, x ∈ cl.held part → s'.Holds x)
    (hserver : ∀ part, x ∈ s.server.held part → s'.Holds x) : s'.Holds x := by
  obtain ⟨p, hp⟩ := h
  cases p with
  | client d part =>
      by_cases hd : c = d
      · subst hd
        rw [held_client hc] at hp
        exact hcl part hp
      · refine ⟨.client d part, ?_⟩
        rw [held_client_ne hclients hd]
        exact hp
  | server part => exact hserver part hp

/-- The same when no client has moved. -/
theorem Service.Holds.server {s s' : Service reqSize resSize} {x : PointerOffset} (h : s.Holds x)
    (hclients : s'.clients = s.clients)
    (hserver : ∀ part, x ∈ s.server.held part → s'.Holds x) : s'.Holds x := by
  obtain ⟨p, hp⟩ := h
  cases p with
  | client c part =>
      refine ⟨.client c part, ?_⟩
      simp only [Service.held, hclients]
      exact hp
  | server part => exact hserver part hp

def ClientPc.isPushing : ClientPc reqSize resSize → Bool
  | .pushing _ _ => true
  | .idle | .writing _ _ | .reading _ _ | .releasing _ _ _ => false

/-- The client whose response channel the server is about to push into. -/
def ServerPc.pushingTo : ServerPc reqSize resSize → Option Nat
  | .pushing q _ _ => some q.client
  | .idle | .receiving _ | .reading _ _ | .releasing _ _ _ | .writing _ _ _ => none

/-- No push is refused. -/
def Unrefused (s : Service reqSize resSize) : Act reqSize resSize → Prop
  | .client c .next =>
      ∀ cl ∈ s.clients[c]?, cl.pc.isPushing = true → cl.requestChannel.Accepts
  | .next => ∀ c ∈ s.server.pushingTo, ∀ cl ∈ s.clients[c]?, cl.responseChannel.Accepts
  | _ => True

instance decidableUnrefused (s : Service reqSize resSize) :
    (a : Act reqSize resSize) → Decidable (Unrefused s a)
  | .client c .next => inferInstanceAs (Decidable
      (∀ cl ∈ s.clients[c]?, cl.pc.isPushing = true → cl.requestChannel.Accepts))
  | .next => inferInstanceAs (Decidable
      (∀ c ∈ s.server.pushingTo, ∀ cl ∈ s.clients[c]?, cl.responseChannel.Accepts))
  | .createClient => isTrue trivial
  | .client _ (.send _) => isTrue trivial
  | .client _ (.poll _) => isTrue trivial
  | .receive => isTrue trivial
  | .respond _ _ => isTrue trivial
  | .dropRequest _ => isTrue trivial

/-- A channel that accepts does not fail. -/
theorem not_failed_of_accepts {channel channel' : ZeroCopyChannel} {offset : PointerOffset}
    {e : SendError} (h : channel.Accepts) (hs : channel.send offset = (.error e, channel')) :
    False := by
  have hok := (ZeroCopyChannel.send_of_accepts h offset).1
  rw [hs] at hok
  exact absurd hok (by simp)

/-- The layout of a segment stays. -/
theorem covered_of_layout {s s' : Service reqSize resSize}
    (hlayout : s'.segment.layout = s.segment.layout)
    (h : ∀ j : U32, j.toNat < s.segment.layout.chunkCount → ¬ s'.segment.OnFreeChain j →
      s'.Holds (s.segment.layout.chunk j)) : Covered s' := by
  intro j hj hfree
  rw [hlayout] at hj ⊢
  exact h j hj hfree

/-- A client has moved: each chunk not free afterwards is with it, or was not
free before and, if it was with it then, is so still. -/
theorem Covered.of_client {s : Service reqSize resSize} (h : Covered s) {c : Nat}
    {cl cl' : Client reqSize resSize} {segment : DataSegment} (hc : s.clients[c]? = some cl)
    (hlayout : segment.layout = s.segment.layout)
    (hmove : ∀ j : U32, j.toNat < s.segment.layout.chunkCount → ¬ segment.OnFreeChain j →
      (∃ part, s.segment.layout.chunk j ∈ cl'.held part)
        ∨ (¬ s.segment.OnFreeChain j ∧ ∀ part, s.segment.layout.chunk j ∈ cl.held part →
            ∃ part', s.segment.layout.chunk j ∈ cl'.held part')) :
    Covered { s.setClient c cl' with segment := segment } := by
  refine covered_of_layout hlayout (fun j hj hfree => ?_)
  have hmine : (∃ part, s.segment.layout.chunk j ∈ cl'.held part) →
      Service.Holds { s.setClient c cl' with segment := segment } (s.segment.layout.chunk j) := by
    rintro ⟨part, hpart⟩
    exact holds_of_client hc rfl part hpart
  rcases hmove j hj hfree with hnew | ⟨hold, hkept⟩
  · exact hmine hnew
  · refine (h j hj hold).set hc rfl (fun part hpart => hmine (hkept part hpart)) ?_
    exact fun part hpart => ⟨.server part, hpart⟩

theorem Covered.client {s : Service reqSize resSize} {l : List U32} (hown : Owned s l)
    (h : Covered s) {c : Nat} {a : ClientAct reqSize} {cl cl' : Client reqSize resSize}
    {segment : DataSegment} (hc : s.clients[c]? = some cl)
    (hok : Unrefused s (.client c a)) (hstep : ClientStep s.segment cl a segment cl') :
    Covered { s.setClient c cl' with segment := segment } := by
  obtain ⟨hreq, hres⟩ := hown.ready cl (List.mem_of_getElem? hc)
  cases hstep with
  | sendFailed request _ =>
      exact h.of_client hc rfl (fun j _ hj => .inr ⟨hj, fun part hpart => ⟨part, hpart⟩⟩)
  | sendBegun request offset _ hpc halloc =>
      obtain ⟨i, rest, _, _, _, hlayout, _⟩ := hown.free.allocated halloc
      refine h.of_client hc hlayout (fun j _ hj => ?_)
      rcases onFreeChain_of_allocated hown.free halloc hj with he | hj
      · left
        refine ⟨.writing, ?_⟩
        rw [he]
        simp [Client.held, ClientPc.held]
      · right
        refine ⟨hj, fun part hpart => ⟨part, ?_⟩⟩
        cases part <;> simp_all [Client.held, ClientPc.held]
  | pollEmpty handle e channel _ hrecv =>
      obtain ⟨rfl, _⟩ := ZeroCopyChannel.receive_err hres hrecv
      exact h.of_client hc rfl (fun j _ hj => .inr ⟨hj, fun part hpart => ⟨part, hpart⟩⟩)
  | polled handle offset channel hpc _ hrecv =>
      obtain ⟨_, hpend⟩ := ZeroCopyChannel.receive_ok hres hrecv
      refine h.of_client hc rfl (fun j _ hj => .inr ⟨hj, fun part hpart => ?_⟩)
      cases part with
      | writing => simp [Client.held, ClientPc.held, hpc] at hpart
      | requestQueue => exact ⟨.requestQueue, hpart⟩
      | responseQueue =>
          -- the chunk at the front of the queue is now being read
          have hpart' : s.segment.layout.chunk j ∈ cl.responseChannel.pending := hpart
          rw [hpend] at hpart'
          rcases List.mem_cons.mp hpart' with he | hrest
          · exact ⟨.reading, by simp [Client.held, ClientPc.held, he]⟩
          · exact ⟨.responseQueue, hrest⟩
      | reading => simp [Client.held, ClientPc.held, hpc] at hpart
  | written offset request hpc =>
      refine h.of_client hc rfl (fun j _ hj => .inr ⟨hj, fun part hpart => ⟨part, ?_⟩⟩)
      cases part <;> simp_all [Client.held, ClientPc.held]
  | pushed offset request u channel hpc hsend =>
      obtain ⟨_, hpend⟩ := ZeroCopyChannel.send_ok hreq hsend
      refine h.of_client hc rfl (fun j _ hj => .inr ⟨hj, fun part hpart => ?_⟩)
      cases part with
      | writing =>
          refine ⟨.requestQueue, ?_⟩
          show s.segment.layout.chunk j ∈ channel.pending
          simp only [Client.held, ClientPc.held, hpc, List.mem_singleton] at hpart
          rw [hpend, hpart]
          exact List.mem_append_right _ List.mem_cons_self
      | requestQueue =>
          refine ⟨.requestQueue, ?_⟩
          show s.segment.layout.chunk j ∈ channel.pending
          rw [hpend]
          exact List.mem_append_left _ hpart
      | responseQueue => exact ⟨.responseQueue, hpart⟩
      | reading => simp [Client.held, ClientPc.held, hpc] at hpart
  | pushFailed offset request e channel hpc hsend =>
      exact (not_failed_of_accepts (hok cl hc (by rw [hpc]; rfl)) hsend).elim
  | copied handle offset hpc =>
      refine h.of_client hc rfl (fun j _ hj => .inr ⟨hj, fun part hpart => ⟨part, ?_⟩⟩)
      cases part <;> simp_all [Client.held, ClientPc.held]
  | taken handle offset response _ hpc hdealloc =>
      have ht := hown.apart.allowed _ _ (held_of_releasing hc hpc)
      obtain ⟨_, _, _, hlayout, _⟩ := hown.free.deallocated ht hdealloc
      refine h.of_client hc hlayout (fun j hlt hj => ?_)
      obtain ⟨hne, hj⟩ := onFreeChain_of_deallocated hown.free ht hdealloc hlt hj
      refine .inr ⟨hj, fun part hpart => ⟨part, ?_⟩⟩
      cases part <;> simp_all [Client.held, ClientPc.held]

/-- The server has moved without touching the segment's free list or a queue. -/
theorem Covered.of_server {s s' : Service reqSize resSize} (h : Covered s)
    (hclients : s'.clients = s.clients) (hlayout : s'.segment.layout = s.segment.layout)
    (hfree : ∀ j, ¬ s'.segment.OnFreeChain j → ¬ s.segment.OnFreeChain j)
    (hserver : ∀ part x, x ∈ s.server.held part → x ∈ s'.server.held part) : Covered s' := by
  refine covered_of_layout hlayout (fun j hj hj' => ?_)
  refine (h j hj (hfree j hj')).server hclients (fun part hpart => ?_)
  exact ⟨.server part, hserver part _ hpart⟩

/-- **The step lemma**: as long as no push is refused, every chunk stays in sight. -/
theorem Covered.step {s s' : Service reqSize resSize} {l : List U32} {a : Act reqSize resSize}
    (hown : Owned s l) (h : Covered s) (hok : Unrefused s a) (hstep : ServiceStep s a s') :
    Covered s' := by
  cases hstep with
  | createClient _ =>
      intro j hj hfree
      obtain ⟨p, hp⟩ := h j hj hfree
      cases p with
      | client c part =>
          refine ⟨.client c part, ?_⟩
          unfold Service.held at hp ⊢
          dsimp only at hp ⊢
          split at hp
          next cl hc =>
            rw [List.getElem?_append_left (List.getElem?_eq_some_iff.mp hc).1, hc]
            exact hp
          next => exact absurd hp (by simp)
      | server part => exact ⟨.server part, hp⟩
  | client c a cl cl' segment hc hstep => exact h.client hown hc hok hstep
  | receiveNothing => exact h
  | receive hpc =>
      refine h.of_server rfl rfl (fun _ hj => hj) (fun part x hx => ?_)
      cases part <;> simp_all [ServerPc.held]
  | popped k cl offset channel hpc hc hrecv =>
      obtain ⟨hreq, _⟩ := hown.ready cl (List.mem_of_getElem? hc)
      obtain ⟨_, hpend⟩ := ZeroCopyChannel.receive_ok hreq hrecv
      have hmine : ∀ part x, x ∈ Client.held { cl with requestChannel := channel } part →
          Service.Holds { s.setClient k { cl with requestChannel := channel } with
            server := .reading k offset } x :=
        fun part _ hx => holds_of_client hc rfl part hx
      intro j hj hfree
      refine (h j hj hfree).set hc rfl (fun part hpart => ?_) (fun part hpart => ?_)
      · cases part with
        | requestQueue =>
            have hpart' : s.segment.layout.chunk j ∈ cl.requestChannel.pending := hpart
            rw [hpend] at hpart'
            rcases List.mem_cons.mp hpart' with he | hrest
            · exact ⟨.server .reading, by rw [he]; exact List.mem_cons_self⟩
            · exact hmine .requestQueue _ hrest
        | writing => exact hmine .writing _ hpart
        | responseQueue => exact hmine .responseQueue _ hpart
        | reading => exact hmine .reading _ hpart
      · cases part <;> simp [ServerPc.held, hpc] at hpart
  | passed k cl e channel pc hpc hc hrecv hpc' =>
      obtain ⟨hreq, _⟩ := hown.ready cl (List.mem_of_getElem? hc)
      obtain ⟨rfl, _⟩ := ZeroCopyChannel.receive_err hreq hrecv
      refine h.of_server (set_same hc) rfl (fun _ hj => hj) (fun part x hx => ?_)
      cases part <;> simp [ServerPc.held, hpc] at hx
  | copied k offset hpc =>
      refine h.of_server rfl rfl (fun _ hj => hj) (fun part x hx => ?_)
      cases part <;> simp_all [ServerPc.held]
  | received k offset request cl segment hpc hc hdealloc =>
      have hmem : offset ∈ s.held (.server .reading) := by
        simp [Service.held, ServerPc.held, hpc]
      have ht := hown.apart.allowed _ _ hmem
      obtain ⟨_, _, _, hlayout, _⟩ := hown.free.deallocated ht hdealloc
      refine covered_of_layout hlayout (fun j hj hfree => ?_)
      obtain ⟨hne, hold⟩ := onFreeChain_of_deallocated hown.free ht hdealloc hj hfree
      refine (h j hj hold).set hc rfl (fun part hpart => ?_) (fun part hpart => ?_)
      · refine holds_of_client hc rfl part ?_
        cases part <;> exact hpart
      · cases part <;> simp_all [ServerPc.held]
  | respondFailed q response hpc _ => exact h
  | respondBegun q response offset segment hpc _ halloc =>
      obtain ⟨_, _, _, _, _, hlayout, _⟩ := hown.free.allocated halloc
      refine covered_of_layout hlayout (fun j hj hfree => ?_)
      rcases onFreeChain_of_allocated hown.free halloc hfree with he | hold
      · exact ⟨.server .writing, by rw [he]; exact List.mem_cons_self⟩
      · refine (h j hj hold).server rfl (fun part hpart => ?_)
        cases part <;> simp [ServerPc.held, hpc] at hpart
  | dropRequest q _ _ => exact h
  | written q offset response hpc =>
      refine h.of_server rfl rfl (fun _ hj => hj) (fun part x hx => ?_)
      cases part <;> simp_all [ServerPc.held]
  | answered q offset response cl u channel hpc hc hsend =>
      obtain ⟨_, hres⟩ := hown.ready cl (List.mem_of_getElem? hc)
      obtain ⟨_, hpend⟩ := ZeroCopyChannel.send_ok hres hsend
      intro j hj hfree
      have hmine : ∀ part x,
          x ∈ Client.held
            { cl with
              responseChannel := channel
              answered := cl.answered ++ [(q.index, response)] } part →
          Service.Holds { s.setClient q.client
            { cl with
              responseChannel := channel
              answered := cl.answered ++ [(q.index, response)] } with server := .idle } x :=
        fun part _ hx => holds_of_client hc rfl part hx
      refine (h j hj hfree).set hc rfl (fun part hpart => ?_) (fun part hpart => ?_)
      · cases part with
        | responseQueue =>
            apply hmine .responseQueue
            show s.segment.layout.chunk j ∈ channel.pending
            rw [hpend]
            exact List.mem_append_left _ hpart
        | writing => exact hmine .writing _ hpart
        | requestQueue => exact hmine .requestQueue _ hpart
        | reading => exact hmine .reading _ hpart
      · cases part with
        | reading => simp [ServerPc.held, hpc] at hpart
        | writing =>
            simp only [ServerPc.held, hpc, List.mem_singleton] at hpart
            apply hmine .responseQueue
            show s.segment.layout.chunk j ∈ channel.pending
            rw [hpend]
            exact List.mem_append_right _ (List.mem_singleton.mpr hpart)
  | answerFailed q offset response cl e channel hpc hc hsend =>
      refine (not_failed_of_accepts (hok q.client ?_ cl hc) hsend).elim
      rw [hpc]
      rfl

/-! ## §6. Between calls. -/

def ClientPc.isIdle : ClientPc reqSize resSize → Bool
  | .idle => true
  | .writing _ _ | .pushing _ _ | .reading _ _ | .releasing _ _ _ => false

def ServerPc.isIdle : ServerPc reqSize resSize → Bool
  | .idle => true
  | .receiving _ | .reading _ _ | .releasing _ _ _ | .writing _ _ _ | .pushing _ _ _ => false

/-- No call is in progress. -/
def Quiescent (s : Service reqSize resSize) : Prop :=
  s.server.isIdle = true ∧ ∀ cl ∈ s.clients, cl.pc.isIdle = true

instance decidableQuiescent (s : Service reqSize resSize) : Decidable (Quiescent s) :=
  inferInstanceAs (Decidable (_ ∧ _))

/-- The offset is in a request or a response queue. -/
def Queued (s : Service reqSize resSize) (x : PointerOffset) : Prop :=
  ∃ cl ∈ s.clients, x ∈ cl.requestChannel.pending ∨ x ∈ cl.responseChannel.pending

/-- Between calls the queues are the only places that hold anything. -/
theorem Quiescent.holds_iff {s : Service reqSize resSize} (h : Quiescent s) (x : PointerOffset) :
    s.Holds x ↔ Queued s x := by
  constructor
  · rintro ⟨p, hp⟩
    cases p with
    | client c part =>
        unfold Service.held at hp
        dsimp only at hp
        split at hp
        next cl hc =>
          have hmem := List.mem_of_getElem? hc
          have hidle := h.2 cl hmem
          cases part with
          | requestQueue => exact ⟨cl, hmem, .inl hp⟩
          | responseQueue => exact ⟨cl, hmem, .inr hp⟩
          | writing =>
              cases hpc : cl.pc <;> simp_all [Client.held, ClientPc.held, ClientPc.isIdle]
          | reading =>
              cases hpc : cl.pc <;> simp_all [Client.held, ClientPc.held, ClientPc.isIdle]
        next => exact absurd hp (by simp)
    | server part =>
        have hidle := h.1
        cases part <;> cases hpc : s.server <;>
          simp_all [Service.held, ServerPc.held, ServerPc.isIdle]
  · rintro ⟨cl, hmem, hx⟩
    obtain ⟨c, hc⟩ := List.getElem?_of_mem hmem
    rcases hx with hx | hx
    · refine ⟨.client c .requestQueue, ?_⟩
      rw [held_client hc]
      exact hx
    · refine ⟨.client c .responseQueue, ?_⟩
      rw [held_client hc]
      exact hx

/-- What is held is not free. -/
theorem Owned.not_free_of_holds {s : Service reqSize resSize} {l : List U32} (h : Owned s l)
    {i : U32} (hi : i.toNat < s.segment.layout.chunkCount)
    (hx : s.Holds (s.segment.layout.chunk i)) : ¬ s.segment.OnFreeChain i := by
  obtain ⟨p, hp⟩ := hx
  obtain ⟨j, hj, hjl, he⟩ := h.apart.allowed p _ hp
  rw [h.free.onFreeChain_iff, s.segment.layout.chunk_inj hi hj he]
  exact hjl

/-! ## §7. The steps that return Err. -/

/-- The step makes `Client::send` return Err. -/
def Client.ReturnsErr (cl : Client reqSize resSize) (segment : DataSegment) :
    ClientAct reqSize → Prop
  | .send _ => cl.pc = .idle ∧ ∃ e segment', segment.allocate = some (.error e, segment')
  | .next => ∃ offset request e channel, cl.pc = .pushing offset request
      ∧ cl.requestChannel.send offset = (.error e, channel)
  | .poll _ => False

/-- The step makes `Client::send` or `ActiveRequest::respond` return Err. -/
def Service.ReturnsErr (s : Service reqSize resSize) : Act reqSize resSize → Prop
  | .client c a => ∃ cl, s.clients[c]? = some cl ∧ cl.ReturnsErr s.segment a
  | .respond _ _ => s.server = .idle ∧ ∃ e segment', s.segment.allocate = some (.error e, segment')
  | .next => ∃ q offset response cl e channel, s.server = .pushing q offset response
      ∧ s.clients[q.client]? = some cl ∧ cl.responseChannel.send offset = (.error e, channel)
  | .createClient | .receive | .dropRequest _ => False

/-- The step is the first of a `send` or a `respond`. -/
def Act.begins : Act reqSize resSize → Bool
  | .client _ (.send _) | .respond _ _ => true
  | .client _ (.poll _) | .client _ .next | .createClient | .receive | .dropRequest _
  | .next => false

/-- If no push is refused, a call that returns Err does so in its first step,
and that step changes nothing in the pool. -/
theorem pool_of_returnsErr {s s' : Service reqSize resSize} {a : Act reqSize resSize}
    (hok : Unrefused s a) (herr : s.ReturnsErr a) (hs : s.step a = some s') :
    a.begins = true ∧ PoolAsBefore s s' := by
  cases a with
  | createClient => exact absurd herr id
  | client c a =>
      obtain ⟨cl, hc, hcl⟩ := herr
      cases a with
      | send request =>
          obtain ⟨hidle, e, segment, halloc⟩ := hcl
          have hsame : s' = s.withClient c cl s.segment := by
            simp only [Service.step, hc, Option.bind_some, Client.step, hidle, halloc,
              Option.map_some, Option.some.injEq] at hs
            exact hs.symm
          rw [hsame, withClient_self hc]
          exact ⟨rfl, fun i => Iff.rfl, rfl⟩
      | poll handle => exact absurd hcl id
      | next =>
          obtain ⟨offset, request, e, channel, hpc, hsend⟩ := hcl
          exact (not_failed_of_accepts (hok cl hc (by rw [hpc]; rfl)) hsend).elim
  | receive => exact absurd herr id
  | respond q response =>
      obtain ⟨hidle, e, segment, halloc⟩ := herr
      simp only [Service.step, hidle, Service.respond, halloc] at hs
      split at hs
      next =>
        injection hs with hs
        subst hs
        exact ⟨rfl, fun i => Iff.rfl, rfl⟩
      next => exact absurd hs (by simp)
  | dropRequest q => exact absurd herr id
  | next =>
      obtain ⟨q, offset, response, cl, e, channel, hpc, hc, hsend⟩ := herr
      refine (not_failed_of_accepts (hok q.client ?_ cl hc) hsend).elim
      rw [hpc]
      rfl

/-! ## §8. Failed calls and the pool. -/

theorem covered_of_reach {qos : ReqResQos} {s₀ s : Service reqSize resSize}
    (hcreate : Service.create reqSize resSize qos = some s₀)
    (hs : Reach Service.step Unrefused s₀ s) : Covered s := by
  refine hs.invariant_of_reach Covered ?_ ?_
  · obtain ⟨seg, hseg, rfl⟩ := Option.map_eq_some_iff.mp hcreate
    obtain ⟨hfree, hcount, _⟩ := DataSegment.create_free hseg
    intro i hi hon
    refine absurd ((hfree.onFreeChain_iff i).mpr ?_) hon
    refine List.mem_map.mpr ⟨i.toNat, List.mem_range.mpr ?_, ?_⟩
    · rw [← hcount]
      exact hi
    · rw [BitVec.ofNat_toNat, BitVec.setWidth_eq]
  · intro t a t' hr hcov hok hstep
    obtain ⟨l, hl⟩ := owned_of_reach hcreate hr
    exact hcov.step hl hok (step_cases hstep)

/-- **When failed calls leave the pool as it was.**  From every reachable state,
a `send` that returns Err does so exactly if no chunk was free or the request
channel takes the offset, and likewise a `respond`.  In every run in which no
push is refused, a call that returns Err changes nothing, and between calls the
allocated chunks are those in the queues. -/
theorem failed_calls (qos : ReqResQos) (s₀ : Service reqSize resSize)
    (hcreate : Service.create reqSize resSize qos = some s₀) :
    (∀ s, Reach Service.step anyStep s₀ s →
        (∀ c cl, s.clients[c]? = some cl → ∀ request,
          (FailsClean s (s.send c request) ↔ Exhausted s ∨ cl.requestChannel.Accepts))
        ∧ ∀ q cl, s.clients[q.client]? = some cl → ∀ response,
          (FailsClean s (s.respondTo q response) ↔ Exhausted s ∨ cl.responseChannel.Accepts))
      ∧ ∀ s, Reach Service.step Unrefused s₀ s →
        (∀ a s', Unrefused s a → s.step a = some s' → s.ReturnsErr a →
          a.begins = true ∧ PoolAsBefore s s')
        ∧ (Quiescent s → ∀ i : U32, i.toNat < s.segment.layout.chunkCount →
          (¬ s.segment.OnFreeChain i ↔ Queued s (s.segment.layout.chunk i))) := by
  constructor
  · intro s hs
    obtain ⟨l, hl⟩ := owned_of_reach hcreate hs
    exact ⟨fun c cl hc request => send_failsClean_iff hl.free hc request,
      fun q cl hc response => respond_failsClean_iff hl.free hc response⟩
  · intro s hs
    obtain ⟨l, hl⟩ := owned_of_reach hcreate hs
    have hcov := covered_of_reach hcreate hs
    refine ⟨fun a s' hok hstep herr => pool_of_returnsErr hok herr hstep, fun hquiet i hi => ?_⟩
    rw [← hquiet.holds_iff]
    exact ⟨hcov i hi, hl.not_free_of_holds hi⟩

/-- `Client::send` of a one-byte request. -/
def sendSteps : List (Act 1 1) :=
  [.client 0 (.send fun _ => 0#8), .client 0 .next, .client 0 .next]

theorem failed_calls_sent :
    ∃ s₀ s : Service 1 1, Service.create 1 1 ⟨1⟩ = some s₀
      ∧ Reach Service.step Unrefused s₀ s ∧ Quiescent s ∧ s.queues = [([⟨64#64⟩], [])]
      ∧ ∀ i : U32, i.toNat < s.segment.layout.chunkCount →
          (¬ s.segment.OnFreeChain i ↔ Queued s (s.segment.layout.chunk i)) := by
  have hrun : ((Service.create 1 1 ⟨1⟩).bind (fun s =>
      execOk Service.step Unrefused s (.createClient :: sendSteps))).map (fun s =>
        decide (Quiescent s ∧ s.queues = [([⟨64#64⟩], [])])) = some true := by decide
  obtain ⟨s, hs, hprops⟩ := Option.map_eq_some_iff.mp hrun
  obtain ⟨s₀, hcreate, hexec⟩ := Option.bind_eq_some_iff.mp hs
  obtain ⟨hquiet, hqueues⟩ := of_decide_eq_true hprops
  have hreach := Reach.of_execOk _ .refl hexec
  exact ⟨s₀, s, hcreate, hreach, hquiet, hqueues,
    ((failed_calls ⟨1⟩ s₀ hcreate).2 s hreach).2 hquiet⟩

/-- A request into a channel that refuses it: the first free chunk is taken and
is in no queue, and no call is in progress. -/
theorem send_loses_chunk {s : Service reqSize resSize} {i : U32} {l : List U32}
    (hown : Owned s (i :: l)) (hquiet : Quiescent s) {c : Nat} {cl : Client reqSize resSize}
    (hc : s.clients[c]? = some cl) (hch : ¬ cl.requestChannel.Accepts)
    (request : Payload reqSize) :
    ∃ e s', s.send c request = some (.error (.send e), s') ∧ Quiescent s'
      ∧ s'.segment.layout = s.segment.layout ∧ ¬ s'.segment.OnFreeChain i
      ∧ ¬ Queued s' (s.segment.layout.chunk i) := by
  obtain ⟨e, segment', hhand, hfree, hlayout⟩ := handOver_refuses hown.free hch request
  have hsame : s.afterSend c cl request (.error (.send e), segment', cl.requestChannel)
      = { s with segment := segment' } := by
    have hclients : s.clients.set c cl = s.clients :=
      congrArg Service.clients (withClient_self hc)
    simp only [Service.afterSend, Service.setClient, hclients]
  refine ⟨e, { s with segment := segment' }, ?_, hquiet, hlayout, ?_, ?_⟩
  · rw [Service.send, hc, Option.bind_some, hhand, Option.map_some, hsame]
  · rw [hfree.onFreeChain_iff]
    exact (List.nodup_cons.mp hown.free.list.nodup).1
  · intro hqueued
    obtain ⟨p, hp⟩ := (hquiet.holds_iff _).mpr hqueued
    exact hown.not_held_of_free p hp

/-- **A chunk is lost**: two requests wait in the queue, the third does not fit.
`send` returns Err, the chunk it took is not free and in no queue, and no call
is in progress. -/
theorem request_chunk_lost :
    ∃ s₀ s s' : Service 1 1, Service.create 1 1 ⟨1⟩ = some s₀
      ∧ Reach Service.step anyStep s₀ s ∧ Reach Service.step anyStep s₀ s'
      ∧ s.send 0 (fun _ => 0#8) = some (.error (.send .queueFull), s')
      ∧ ¬ PoolAsBefore s s' ∧ Quiescent s'
      ∧ ∃ i : U32, i.toNat < s'.segment.layout.chunkCount ∧ ¬ s'.segment.OnFreeChain i
          ∧ ¬ Queued s' (s'.segment.layout.chunk i) := by
  have hrun : ((Service.create 1 1 ⟨1⟩).bind (fun s =>
      exec Service.step s (.createClient :: (sendSteps ++ sendSteps)))).map (fun s =>
        decide (Quiescent s ∧ extractHead s.segment.allocator.indexSet.head ≠ SENTINEL)
          && s.clients[0]?.any (fun cl => cl.pc.isIdle && decide (¬ cl.requestChannel.Accepts))
          && decide ((s.send 0 (fun _ => 0#8)).map Prod.fst = some (.error (.send .queueFull))))
      = some true := by decide
  obtain ⟨s, hs, hprops⟩ := Option.map_eq_some_iff.mp hrun
  obtain ⟨s₀, hcreate, hexec⟩ := Option.bind_eq_some_iff.mp hs
  simp only [Bool.and_eq_true, decide_eq_true_eq] at hprops
  obtain ⟨⟨⟨hquiet, hhead⟩, hclient⟩, hresult⟩ := hprops
  obtain ⟨cl, hc, hclosed⟩ := (Option.any_eq_true _ _).mp hclient
  simp only [Bool.and_eq_true, decide_eq_true_eq] at hclosed
  have hreach := Reach.of_exec _ .refl hexec
  obtain ⟨l, hown⟩ := owned_of_reach hcreate hreach
  cases l with
  | nil => exact absurd hown.free.list hhead
  | cons i rest =>
      obtain ⟨e, s', hsend, hquiet', hlayout, hlost, hnot⟩ :=
        send_loses_chunk hown hquiet hc hclosed.2 (fun _ => 0#8)
      have hi := hown.free.lt (i := i) List.mem_cons_self
      refine ⟨s₀, s, s', hcreate, hreach, ?_, ?_, ?_, hquiet', i, ?_, hlost, ?_⟩
      · have hidle : cl.pc = .idle := by
          cases hpc : cl.pc <;> simp_all [ClientPc.isIdle]
        obtain ⟨n, hn⟩ := exec_send hc hidle (fun _ => 0#8)
        rw [hsend, Option.map_some] at hn
        exact Reach.of_exec _ hreach hn
      · rw [hsend] at hresult ⊢
        simp only [Option.map_some, Option.some.injEq] at hresult
        rw [hresult]
      · intro hsame
        exact hlost ((hsame.free i).mpr ((hown.free.onFreeChain_iff i).mpr List.mem_cons_self))
      · rw [hlayout]
        exact hi
      · rw [hlayout]
        exact hnot

end Entangle.ReqRes
