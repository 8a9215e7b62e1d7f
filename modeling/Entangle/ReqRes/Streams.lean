/-
  Entangle.ReqRes.Streams — the requests and responses of each client.

  What a client has sent is what the server has received from it, what the
  server has in hand and what is in the request queue, in this order; likewise
  for the responses.  Payloads are read where the queues point, so the
  equations hold only because nobody writes a chunk that somebody else owns.

  Main result: `reqres_streams`.
-/
import Entangle.ReqRes.Ownership

namespace Entangle.ReqRes

open Entangle.Lib Entangle.Transport

variable {reqSize resSize : Nat}

/-! ## §1. The invariant. -/

/-- The request of client `c` that the server has popped and not yet returned. -/
def ServerPc.inHand (server : ServerPc reqSize resSize) (segment : DataSegment) (c : Nat) :
    List (Payload reqSize) :=
  match server with
  | .reading k offset => if k = c then [segment.read reqSize offset] else []
  | .releasing k _ request => if k = c then [request] else []
  | _ => []

/-- The response that the client has popped and not yet returned. -/
def ClientPc.inHand (pc : ClientPc reqSize resSize) (segment : DataSegment) :
    List (Payload resSize) :=
  match pc with
  | .reading _ offset => [segment.read resSize offset]
  | .releasing _ _ response => [response]
  | _ => []

/-- What client `c` has sent is what the server has received, then what is on its way; and
the same of the answers, the other way. -/
structure ClientStreams (segment : DataSegment) (server : ServerPc reqSize resSize) (c : Nat)
    (cl : Client reqSize resSize) : Prop where
  requests : cl.sentOk = cl.received
    ++ (server.inHand segment c ++ cl.requestChannel.pending.map (segment.read reqSize))
  responses : cl.answered.map Prod.snd = cl.taken.map Prod.snd
    ++ (cl.pc.inHand segment ++ cl.responseChannel.pending.map (segment.read resSize))
  written : ∀ offset request, cl.pc = .pushing offset request →
    segment.read reqSize offset = request

/-- Both streams of every client are whole, and the response that the server is pushing is
what the chunk holds. -/
structure Streams (s : Service reqSize resSize) : Prop where
  clients : ∀ c cl, s.clients[c]? = some cl → ClientStreams s.segment s.server c cl
  written : ∀ r offset response, s.server = .pushing r offset response →
    s.segment.read resSize offset = response

/-! ## §2. What a step leaves alone. -/

/-- **The frame rule**: a client's streams are as before if its chunks, and the
chunk the server reads, are. -/
theorem ClientStreams.frame {segment segment' : DataSegment} {server : ServerPc reqSize resSize}
    {c : Nat} {cl : Client reqSize resSize} (h : ClientStreams segment server c cl)
    (hserver : ∀ o ∈ server.held .reading, segment'.read reqSize o = segment.read reqSize o)
    (hreq : ∀ o ∈ cl.held .requestQueue ++ cl.held .writing,
      segment'.read reqSize o = segment.read reqSize o)
    (hres : ∀ o ∈ cl.held .responseQueue ++ cl.held .reading,
      segment'.read resSize o = segment.read resSize o) :
    ClientStreams segment' server c cl where
  requests := by
    have hhand : server.inHand segment' c = server.inHand segment c := by
      cases server with
      | reading k offset =>
          simp only [ServerPc.inHand]
          rw [hserver offset (List.mem_singleton.mpr rfl)]
      | _ => rfl
    have hpend : cl.requestChannel.pending.map (segment'.read reqSize)
        = cl.requestChannel.pending.map (segment.read reqSize) :=
      List.map_congr_left (fun o ho => hreq o (List.mem_append_left _ ho))
    rw [hhand, hpend]
    exact h.requests
  responses := by
    have hhand : cl.pc.inHand segment' = cl.pc.inHand segment := by
      cases hpc : cl.pc with
      | reading handle offset =>
          simp only [ClientPc.inHand]
          rw [hres offset (List.mem_append_right _ (by simp [Client.held, ClientPc.held, hpc]))]
      | _ => rfl
    have hpend : cl.responseChannel.pending.map (segment'.read resSize)
        = cl.responseChannel.pending.map (segment.read resSize) :=
      List.map_congr_left (fun o ho => hres o (List.mem_append_left _ ho))
    rw [hhand, hpend]
    exact h.responses
  written := by
    intro offset request hpc
    rw [hreq offset (List.mem_append_right _ (by simp [Client.held, ClientPc.held, hpc]))]
    exact h.written offset request hpc

theorem ClientStreams.sameMemory {segment segment' : DataSegment}
    {server : ServerPc reqSize resSize} {c : Nat} {cl : Client reqSize resSize}
    (h : ClientStreams segment server c cl) (hm : segment'.memory = segment.memory) :
    ClientStreams segment' server c cl := by
  refine h.frame (fun o _ => ?_) (fun o _ => ?_) (fun o _ => ?_)
  · rw [read_of_memory hm]
  · rw [read_of_memory hm]
  · rw [read_of_memory hm]

/-- Only what the server has in hand matters to a client. -/
theorem ClientStreams.sameHand {segment : DataSegment} {server server' : ServerPc reqSize resSize}
    {c : Nat} {cl : Client reqSize resSize} (h : ClientStreams segment server c cl)
    (hhand : server'.inHand segment c = server.inHand segment c) :
    ClientStreams segment server' c cl := by
  refine ⟨?_, h.responses, h.written⟩
  rw [hhand]
  exact h.requests

/-- **A write is not seen elsewhere**: a chunk in another place is another chunk. -/
theorem Owned.read_write {s : Service reqSize resSize} {l : List U32} (h : Owned s l)
    {p q : Place} {x y : PointerOffset} (hx : x ∈ s.held p) (hy : y ∈ s.held q) (hne : q ≠ p)
    {n k : Nat} (hn : n ≤ s.segment.layout.chunkSize) (hk : k ≤ s.segment.layout.chunkSize)
    (v : Payload n) : (s.segment.write x v).read k y = s.segment.read k y :=
  read_write_of_ne hn hk (h.apart.allowed p x hx) (h.apart.allowed q y hy)
    (fun he => hne (h.apart.single q p x (he ▸ hy) hx)) v

/-- A write to a place that is not the client's is not seen in its streams. -/
theorem ClientStreams.write {s : Service reqSize resSize} {l : List U32} (ho : Owned s l)
    {c : Nat} {cl : Client reqSize resSize} (h : ClientStreams s.segment s.server c cl)
    (hc : s.clients[c]? = some cl) {p : Place} {x : PointerOffset} (hx : x ∈ s.held p)
    (hp : ∀ part, p ≠ .client c part) (hp' : p ≠ .server .reading) {n : Nat}
    (hn : n ≤ s.segment.layout.chunkSize) (v : Payload n) :
    ClientStreams (s.segment.write x v) s.server c cl := by
  have hown : ∀ part, ∀ o ∈ cl.held part, o ∈ s.held (.client c part) := by
    intro part o hmem
    rw [held_client hc]
    exact hmem
  refine h.frame (fun o hmem => ?_) (fun o hmem => ?_) (fun o hmem => ?_)
  · exact ho.read_write hx (q := .server .reading) hmem (fun he => hp' he.symm) hn ho.fitsReq v
  · rcases List.mem_append.mp hmem with hmem | hmem
    · exact ho.read_write hx (hown _ o hmem) (fun he => hp _ he.symm) hn ho.fitsReq v
    · exact ho.read_write hx (hown _ o hmem) (fun he => hp _ he.symm) hn ho.fitsReq v
  · rcases List.mem_append.mp hmem with hmem | hmem
    · exact ho.read_write hx (hown _ o hmem) (fun he => hp _ he.symm) hn ho.fitsRes v
    · exact ho.read_write hx (hown _ o hmem) (fun he => hp _ he.symm) hn ho.fitsRes v

/-! ## §3. Steps. -/

/-- A client's own step keeps its streams, provided that what it writes is not
seen in its queues. -/
theorem ClientStreams.step {s : Service reqSize resSize} {l : List U32} (ho : Owned s l) {c : Nat}
    {a : ClientAct reqSize} {cl cl' : Client reqSize resSize} {segment : DataSegment}
    (h : ClientStreams s.segment s.server c cl) (hc : s.clients[c]? = some cl)
    (hstep : ClientStep s.segment cl a segment cl') :
    ClientStreams segment s.server c cl' := by
  obtain ⟨hready, hready'⟩ := ho.ready cl (List.mem_of_getElem? hc)
  have hresponses := h.responses
  cases hstep with
  | sendFailed request _ => exact h
  | sendBegun request offset _ hpc halloc =>
      obtain ⟨_, _, _, _, _, _, hm⟩ := ho.free.allocated halloc
      have h' := h.sameMemory hm
      refine ⟨h'.requests, ?_, fun _ _ he => absurd he (by simp)⟩
      have hres := h'.responses
      rw [hpc] at hres
      exact hres
  | pollEmpty handle e channel _ hrecv =>
      obtain ⟨rfl, _⟩ := ZeroCopyChannel.receive_err hready' hrecv
      exact h
  | polled handle offset channel hpc _ hrecv =>
      obtain ⟨_, hpend⟩ := ZeroCopyChannel.receive_ok hready' hrecv
      refine ⟨h.requests, ?_, fun _ _ he => absurd he (by simp)⟩
      rw [hpc, hpend] at hresponses
      exact hresponses
  | written offset request hpc =>
      have hx := held_of_writing hc hpc
      have hown : ∀ part, ∀ o ∈ cl.held part, o ∈ s.held (.client c part) := by
        intro part o hmem
        rw [held_client hc]
        exact hmem
      -- the client itself has nothing else in the place it writes to
      have hidle : ClientStreams s.segment s.server c { cl with pc := .idle } := by
        refine ⟨h.requests, ?_, fun _ _ he => absurd he (by simp)⟩
        rw [hpc] at hresponses
        exact hresponses
      have hframe : ClientStreams (s.segment.write offset request) s.server c
          { cl with pc := .idle } := by
        refine hidle.frame (fun o hmem => ?_) (fun o hmem => ?_) (fun o hmem => ?_)
        · exact ho.read_write hx (q := .server .reading) hmem (by simp) ho.fitsReq ho.fitsReq _
        · rcases List.mem_append.mp hmem with hmem | hmem
          · exact ho.read_write hx (hown .requestQueue o hmem) (by simp) ho.fitsReq ho.fitsReq _
          · exact absurd hmem (by simp [Client.held, ClientPc.held])
        · rcases List.mem_append.mp hmem with hmem | hmem
          · exact ho.read_write hx (hown .responseQueue o hmem) (by simp) ho.fitsReq ho.fitsRes _
          · exact absurd hmem (by simp [Client.held, ClientPc.held])
      refine ⟨hframe.requests, hframe.responses, fun o v he => ?_⟩
      injection he with he hv
      rw [← he, ← hv]
      exact s.segment.read_write offset request
  | pushed offset request u channel hpc hsend =>
      obtain ⟨_, hpend⟩ := ZeroCopyChannel.send_ok hready hsend
      refine ⟨?_, ?_, fun _ _ he => absurd he (by simp)⟩
      · show cl.sentOk ++ [request]
          = cl.received ++ (s.server.inHand s.segment c ++ channel.pending.map _)
        rw [hpend, List.map_append, List.map_singleton, h.written offset request hpc, h.requests]
        simp only [List.append_assoc]
      · rw [hpc] at hresponses
        exact hresponses
  | pushFailed offset request e channel hpc hsend =>
      obtain rfl := ZeroCopyChannel.send_err hready hsend
      refine ⟨h.requests, ?_, fun _ _ he => absurd he (by simp)⟩
      rw [hpc] at hresponses
      exact hresponses
  | copied handle offset hpc =>
      refine ⟨h.requests, ?_, fun _ _ he => absurd he (by simp)⟩
      rw [hpc] at hresponses
      exact hresponses
  | taken handle offset response _ hpc hdealloc =>
      have hx := held_of_releasing hc hpc
      obtain ⟨_, _, _, _, hm⟩ := ho.free.deallocated (ho.apart.allowed _ _ hx) hdealloc
      have h' := h.sameMemory hm
      have hres := h'.responses
      rw [hpc] at hres
      refine ⟨h'.requests, ?_, fun _ _ he => absurd he (by simp)⟩
      rw [hres]
      show _ = (cl.taken ++ [(handle, response)]).map Prod.snd ++ ([] ++ _)
      rw [List.map_append, List.map_singleton, List.append_assoc]
      rfl

/-- What a client writes, or gives back, is not seen by the others. -/
theorem Streams.client {s : Service reqSize resSize} {l : List U32} (ho : Owned s l)
    (h : Streams s) {c : Nat} {a : ClientAct reqSize} {cl cl' : Client reqSize resSize}
    {segment : DataSegment} (hc : s.clients[c]? = some cl)
    (hstep : ClientStep s.segment cl a segment cl') :
    Streams { s.setClient c cl' with segment := segment } := by
  have hself := (h.clients c cl hc).step ho hc hstep
  -- a step either leaves the memory alone or writes the chunk of client `c`
  have hmemory : segment.memory = s.segment.memory
      ∨ ∃ offset request, offset ∈ s.held (.client c .writing)
        ∧ segment = s.segment.write offset (request : Payload reqSize) := by
    cases hstep with
    | sendBegun request offset _ _ halloc =>
        obtain ⟨_, _, _, _, _, _, hm⟩ := ho.free.allocated halloc
        exact .inl hm
    | written offset request hpc =>
        exact .inr ⟨offset, request, held_of_writing hc hpc, rfl⟩
    | taken handle offset response _ hpc hdealloc =>
        have hx := held_of_releasing hc hpc
        obtain ⟨_, _, _, _, hm⟩ := ho.free.deallocated (ho.apart.allowed _ _ hx) hdealloc
        exact .inl hm
    | _ => exact .inl rfl
  rcases hmemory with hm | ⟨offset, request, hx, rfl⟩
  · refine ⟨forall_set hself (fun d m _ hd => (h.clients d m hd).sameMemory hm), ?_⟩
    intro r offset response hpc
    show segment.read resSize offset = response
    rw [read_of_memory hm]
    exact h.written r offset response hpc
  · refine ⟨forall_set hself (fun d m hne hd => ?_), fun r o response hpc => ?_⟩
    · refine (h.clients d m hd).write ho hd hx (fun part he => ?_) (by simp) ho.fitsReq request
      injection he with he
      exact hne he.symm
    · have hpc' : s.server = .pushing r o response := hpc
      have hy : o ∈ s.held (.server .writing) := by
        simp [Service.held, ServerPc.held, hpc']
      show (s.segment.write offset request).read resSize o = response
      rw [ho.read_write hx hy (by simp) ho.fitsReq ho.fitsRes]
      exact h.written r o response hpc'

/-- **The step lemma**: the streams stay in order. -/
theorem Streams.step {s s' : Service reqSize resSize} {l : List U32} {a : Act reqSize resSize}
    (h : Streams s) (ho : Owned s l) (hstep : ServiceStep s a s') : Streams s' := by
  cases hstep with
  | createClient hfree =>
      refine ⟨forall_concat h.clients ?_, h.written⟩
      -- `receive` holds the client list, so the server has no request in hand
      have hhand : s.server.inHand s.segment s.clients.length = [] := by
        cases hpc : s.server with
        | reading k offset =>
            rw [hpc] at hfree
            exact absurd hfree (by simp [ServerPc.holdsClients])
        | releasing k offset request =>
            rw [hpc] at hfree
            exact absurd hfree (by simp [ServerPc.holdsClients])
        | _ => rfl
      refine ⟨?_, ?_, fun _ _ he => absurd he (by simp [Client.create])⟩
      · rw [hhand]
        simp [Client.create]
      · simp [Client.create, ClientPc.inHand]
  | client c a cl cl' segment hc hstep => exact h.client ho hc hstep
  | receiveNothing => exact h
  | receive hpc =>
      refine ⟨fun c cl hc => (h.clients c cl hc).sameHand ?_, fun _ _ _ he => absurd he (by simp)⟩
      rw [hpc]
      rfl
  | popped k cl offset channel hpc hc hrecv =>
      obtain ⟨hready, _⟩ := ho.ready cl (List.mem_of_getElem? hc)
      obtain ⟨_, hpend⟩ := ZeroCopyChannel.receive_ok hready hrecv
      refine ⟨forall_set ?_ (fun d m hne hd => ?_), fun _ _ _ he => absurd he (by simp)⟩
      · have hself := h.clients k cl hc
        refine ⟨?_, hself.responses, hself.written⟩
        have hreq := hself.requests
        rw [hpc, hpend] at hreq
        rw [hreq]
        show _ = cl.received ++ ((if k = k then _ else _) ++ _)
        rw [if_pos rfl]
        rfl
      · refine (h.clients d m hd).sameHand ?_
        rw [hpc]
        show (if k = d then _ else _) = _
        rw [if_neg hne.symm]
        rfl
  | passed k cl e channel pc hpc hc hrecv hpc' =>
      obtain ⟨hready, _⟩ := ho.ready cl (List.mem_of_getElem? hc)
      obtain ⟨rfl, _⟩ := ZeroCopyChannel.receive_err hready hrecv
      have hhand : ∀ d, pc.inHand s.segment d = s.server.inHand s.segment d := by
        intro d
        rw [hpc]
        rcases hpc' with rfl | ⟨j, rfl⟩ <;> rfl
      refine ⟨forall_set ?_ (fun d m _ hd => ?_), fun r o response he => ?_⟩
      · exact (h.clients k cl hc).sameHand (hhand k)
      · exact (h.clients d m hd).sameHand (hhand d)
      · have he' : pc = .pushing r o response := he
        rcases hpc' with rfl | ⟨j, rfl⟩ <;> exact absurd he' (by simp)
  | copied k offset hpc =>
      refine ⟨fun c cl hc => (h.clients c cl hc).sameHand ?_, fun _ _ _ he => absurd he (by simp)⟩
      rw [hpc]
      rfl
  | received k offset request cl segment hpc hc hdealloc =>
      have hx : offset ∈ s.held (.server .reading) := by
        simp [Service.held, ServerPc.held, hpc]
      obtain ⟨_, _, _, _, hm⟩ := ho.free.deallocated (ho.apart.allowed _ _ hx) hdealloc
      refine ⟨forall_set ?_ (fun d m hne hd => ?_), fun _ _ _ he => absurd he (by simp)⟩
      · have hself := (h.clients k cl hc).sameMemory hm
        refine ⟨?_, hself.responses, hself.written⟩
        have hreq := hself.requests
        rw [hpc] at hreq
        rw [hreq]
        show cl.received ++ ((if k = k then _ else _) ++ _) = cl.received ++ [request] ++ ([] ++ _)
        rw [if_pos rfl, List.append_assoc]
        rfl
      · refine ((h.clients d m hd).sameMemory hm).sameHand ?_
        rw [hpc]
        show _ = if k = d then _ else _
        rw [if_neg hne.symm]
        rfl
  | respondFailed r response hpc _ => exact ⟨h.clients, h.written⟩
  | respondBegun r response offset segment hpc _ halloc =>
      obtain ⟨_, _, _, _, _, _, hm⟩ := ho.free.allocated halloc
      refine ⟨fun c cl hc => ((h.clients c cl hc).sameMemory hm).sameHand ?_,
        fun _ _ _ he => absurd he (by simp)⟩
      rw [hpc]
      rfl
  | dropRequest r _ _ => exact ⟨h.clients, h.written⟩
  | written r offset response hpc =>
      have hx : offset ∈ s.held (.server .writing) := by
        simp [Service.held, ServerPc.held, hpc]
      refine ⟨fun c cl hc => ?_, fun r' o v he => ?_⟩
      · refine ((h.clients c cl hc).write ho hc hx (by simp) (by simp) ho.fitsRes response).sameHand
          ?_
        rw [hpc]
        rfl
      · injection he with _ he hv
        rw [← he, ← hv]
        exact s.segment.read_write offset response
  | answered r offset response cl u channel hpc hc hsend =>
      obtain ⟨_, hready⟩ := ho.ready cl (List.mem_of_getElem? hc)
      obtain ⟨_, hpend⟩ := ZeroCopyChannel.send_ok hready hsend
      have hhand : ∀ d, ServerPc.inHand (.idle : ServerPc reqSize resSize) s.segment d
          = s.server.inHand s.segment d := by
        intro d
        rw [hpc]
        rfl
      refine ⟨forall_set ?_ (fun d m _ hd => ?_), fun _ _ _ he => absurd he (by simp)⟩
      · have hself := (h.clients r.client cl hc).sameHand (hhand r.client)
        refine ⟨hself.requests, ?_, hself.written⟩
        show (cl.answered ++ [(r.index, response)]).map Prod.snd
          = cl.taken.map Prod.snd
            ++ (cl.pc.inHand s.segment ++ channel.pending.map (s.segment.read resSize))
        rw [hpend, List.map_append, List.map_append, hself.responses, List.map_singleton,
          List.map_singleton, h.written r offset response hpc]
        simp only [List.append_assoc]
      · exact (h.clients d m hd).sameHand (hhand d)
  | answerFailed r offset response cl e channel hpc hc hsend =>
      obtain ⟨_, hready⟩ := ho.ready cl (List.mem_of_getElem? hc)
      obtain rfl := ZeroCopyChannel.send_err hready hsend
      have hhand : ∀ d, ServerPc.inHand (.idle : ServerPc reqSize resSize) s.segment d
          = s.server.inHand s.segment d := by
        intro d
        rw [hpc]
        rfl
      refine ⟨forall_set ?_ (fun d m _ hd => ?_), fun _ _ _ he => absurd he (by simp)⟩
      · exact (h.clients r.client cl hc).sameHand (hhand r.client)
      · exact (h.clients d m hd).sameHand (hhand d)

/-! ## §4. Every run. -/

theorem streams_of_reach {ok : Service reqSize resSize → Act reqSize resSize → Prop}
    {qos : ReqResQos} {s₀ s : Service reqSize resSize}
    (hcreate : Service.create reqSize resSize qos = some s₀) (hs : Reach Service.step ok s₀ s) :
    Streams s := by
  refine hs.invariant_of_reach Streams ?_ ?_
  · obtain ⟨seg, _, rfl⟩ := Option.map_eq_some_iff.mp hcreate
    exact ⟨fun c cl hc => absurd hc (by simp), fun _ _ _ he => absurd he (by simp)⟩
  · intro t a t' hr hI _ hstep
    obtain ⟨l, hl⟩ := owned_of_reach hcreate hr
    exact hI.step hl (step_cases hstep)

/-- **Requests and responses arrive in order, unaltered, at the right client**,
and no chunk is in two places: neither twice at one place nor at two of them,
nor at one of them and on the free list. -/
theorem reqres_streams (qos : ReqResQos) (s₀ s : Service reqSize resSize)
    (hcreate : Service.create reqSize resSize qos = some s₀)
    (hs : Reach Service.step anyStep s₀ s) :
    (∀ cl ∈ s.clients, cl.received <+: cl.sentOk
        ∧ cl.taken.map Prod.snd <+: cl.answered.map Prod.snd)
      ∧ (∀ p, (s.held p).Nodup)
      ∧ (∀ p q x, x ∈ s.held p → x ∈ s.held q → p = q)
      ∧ ∀ p, ∀ x ∈ s.held p, ∃ i : U32, i.toNat < s.segment.layout.chunkCount
          ∧ x = s.segment.layout.chunk i ∧ ¬ s.segment.OnFreeChain i := by
  obtain ⟨l, hl⟩ := owned_of_reach hcreate hs
  have hstreams := streams_of_reach hcreate hs
  refine ⟨fun cl hcl => ?_, hl.apart.nodup, hl.apart.single, fun p x hx => ?_⟩
  · obtain ⟨c, hc⟩ := List.mem_iff_getElem?.mp hcl
    have h := hstreams.clients c cl hc
    constructor
    · rw [h.requests]
      exact List.prefix_append _ _
    · rw [h.responses]
      exact List.prefix_append _ _
  · obtain ⟨i, hi, hfree, he⟩ := hl.apart.allowed p x hx
    exact ⟨i, hi, he, fun hon => hfree ((hl.free.onFreeChain_iff i).mp hon)⟩

/-- Two clients; the server answers the second one's request while the first
sends another one. -/
def twoClients : List (Act 1 1) :=
  [.createClient, .createClient,
   .client 0 (.send (fun _ => 1#8)), .client 1 (.send (fun _ => 2#8)), .client 0 .next,
   .client 1 .next, .client 1 .next, .client 0 .next,
   .receive, .next, .next, .client 0 (.send (fun _ => 3#8)), .next,
   .receive, .next, .client 0 .next, .next, .next, .next,
   .respond ⟨1, 0, fun _ => 2#8⟩ (fun _ => 20#8), .next, .client 0 .next, .next,
   .client 1 (.poll 0), .client 1 .next, .client 1 .next,
   .respond ⟨0, 0, fun _ => 1#8⟩ (fun _ => 10#8), .next]

theorem reqres_streams_two :
    ∃ s₀ s : Service 1 1, Service.create 1 1 ⟨2⟩ = some s₀ ∧ Reach Service.step anyStep s₀ s
      ∧ s.clients.map (fun cl => (cl.sentOk.length, cl.received, cl.taken))
          = [(2, [fun _ => 1#8], []), (1, [fun _ => 2#8], [(0, fun _ => 20#8)])]
      ∧ s.held (.server .writing) = [⟨72#64⟩]
      ∧ ∀ cl ∈ s.clients, cl.received <+: cl.sentOk
          ∧ cl.taken.map Prod.snd <+: cl.answered.map Prod.snd := by
  have hrun : ((Service.create 1 1 ⟨2⟩).bind (fun s₀ => exec Service.step s₀ twoClients)).map
      (fun s =>
        decide (s.clients.map (fun cl => (cl.sentOk.length, cl.received, cl.taken))
          = [(2, [fun _ => 1#8], []), (1, [fun _ => 2#8], [(0, fun _ => 20#8)])])
        && decide (s.held (.server .writing) = [⟨72#64⟩])) = some true := by decide
  obtain ⟨s, hs, hend⟩ := Option.map_eq_some_iff.mp hrun
  simp only [Bool.and_eq_true, decide_eq_true_eq] at hend
  obtain ⟨s₀, hcreate, hexec⟩ := Option.bind_eq_some_iff.mp hs
  have hreach := Reach.of_exec twoClients .refl hexec
  exact ⟨s₀, s, hcreate, hreach, hend.1, hend.2,
    (reqres_streams ⟨2⟩ s₀ s hcreate hreach).1⟩

end Entangle.ReqRes
