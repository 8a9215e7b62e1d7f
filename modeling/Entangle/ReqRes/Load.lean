/-
  Entangle.ReqRes.Load — is the pool large enough for the configured load?

  A run keeps to the load of `maxClients` clients with `maxPending` requests
  each if no more clients are created, no client sends while it has
  `maxPending` requests outstanding (sent, and the response not yet taken), and
  every request is answered.  `ServerBuilder::create` sizes the pool from
  `max_pending_requests` alone (`poolSize`).

  A request, from the beginning of its send until its response is taken, uses
  at most one chunk (`chunksFor_le`).  So the load uses at most
  `maxClients * maxPending` chunks, and if nobody receives it uses them all.

  Main results:
    * `Loaded.step` — the chunks in use are those of the requests;
    * `pool_sufficient_iff` — no operation fails under the load exactly if the
      pool has a chunk for each request of each client.
-/
import Entangle.ReqRes.Correlation
import Mathlib.Algebra.BigOperators.Group.Finset.Basic
import Mathlib.Algebra.Order.BigOperators.Group.Finset

namespace Entangle.ReqRes

open Entangle.Lib Entangle.Lockfree Entangle.Transport

variable {reqSize resSize : Nat}

/-! ## §1. The load, and the failures it should not meet. -/

/-- The chunk count of `ServerBuilder::create`, for values that do not wrap. -/
def poolSize (maxPending : Nat) : Nat := max (maxPending * 2) 16

/-- A run keeps to the load. -/
def load (maxClients maxPending : Nat) (s : Service reqSize resSize) : Act reqSize resSize → Prop
  | .createClient => s.clients.length < maxClients
  | .client c (.send _) => ∀ cl ∈ s.clients[c]?, cl.sentOk.length < cl.taken.length + maxPending
  | .dropRequest _ => False
  | _ => True

/-- `allocate` returns `OutOfMemory`. -/
def outOfMemory (segment : DataSegment) : Bool :=
  match segment.allocate with
  | some (.error .outOfMemory, _) => true
  | _ => false

/-- `ZeroCopyChannel::send` returns `QueueFull`. -/
def queueFull (channel : ZeroCopyChannel) (offset : PointerOffset) : Bool :=
  match channel.send offset with
  | (.error .queueFull, _) => true
  | _ => false

/-- The step makes `Client::send` fail. -/
def Client.fails (cl : Client reqSize resSize) (segment : DataSegment) :
    ClientAct reqSize → Bool
  | .send _ =>
      match cl.pc with
      | .idle => outOfMemory segment
      | _ => false
  | .next =>
      match cl.pc with
      | .pushing offset _ => queueFull cl.requestChannel offset
      | _ => false
  | .poll _ => false

/-- The step makes `Client::send` or `ActiveRequest::respond` fail. -/
def Service.fails (s : Service reqSize resSize) : Act reqSize resSize → Bool
  | .client c a => s.clients[c]?.any (fun cl => cl.fails s.segment a)
  | .respond r _ =>
      match s.server with
      | .idle => decide (r ∈ s.active) && outOfMemory s.segment
      | _ => false
  | .next =>
      match s.server with
      | .pushing r offset _ =>
          s.clients[r.client]?.any (fun cl => queueFull cl.responseChannel offset)
      | _ => false
  | _ => false

instance decidableLoad (maxClients maxPending : Nat) (s : Service reqSize resSize) :
    (a : Act reqSize resSize) → Decidable (load maxClients maxPending s a)
  | .createClient => inferInstanceAs (Decidable (s.clients.length < maxClients))
  | .client c (.send _) => inferInstanceAs
      (Decidable (∀ cl ∈ s.clients[c]?, cl.sentOk.length < cl.taken.length + maxPending))
  | .client _ (.poll _) => isTrue trivial
  | .client _ .next => isTrue trivial
  | .dropRequest _ => isFalse id
  | .receive => isTrue trivial
  | .respond _ _ => isTrue trivial
  | .next => isTrue trivial

/-! ## §2. The chunks of a client's requests. -/

/-- The chunk a client's thread has in hand. -/
def ClientPc.chunks : ClientPc reqSize resSize → Nat
  | .idle => 0
  | .writing _ _ | .pushing _ _ | .reading _ _ | .releasing _ _ _ => 1

/-- The send that has begun and not returned. -/
def ClientPc.sending : ClientPc reqSize resSize → Nat
  | .writing _ _ | .pushing _ _ => 1
  | .idle | .reading _ _ | .releasing _ _ _ => 0

def Client.chunks (cl : Client reqSize resSize) : Nat :=
  cl.pc.chunks + cl.requestChannel.pending.length + cl.responseChannel.pending.length

/-- The chunk the server has in hand for client `c`. -/
def ServerPc.chunksFor (c : Nat) : ServerPc reqSize resSize → Nat
  | .reading k _ | .releasing k _ _ => if k = c then 1 else 0
  | .writing r _ _ | .pushing r _ _ => if r.client = c then 1 else 0
  | .idle | .receiving _ => 0

/-- The chunks used for the requests of client `c`, wherever they are. -/
def Service.chunksFor (s : Service reqSize resSize) (c : Nat) : Nat :=
  (s.clients[c]?.map Client.chunks).getD 0 + s.server.chunksFor c

def Service.chunks (s : Service reqSize resSize) : Nat :=
  ∑ c ∈ Finset.range s.clients.length, s.chunksFor c

theorem chunksFor_some {s : Service reqSize resSize} {c : Nat} {cl : Client reqSize resSize}
    (hc : s.clients[c]? = some cl) : s.chunksFor c = cl.chunks + s.server.chunksFor c := by
  unfold Service.chunksFor
  rw [hc]
  rfl

/-- The requests of a client that are with the server have numbers below those
it has received, and other numbers than those answered. -/
theorem Numbered.unanswered_le {s : Service reqSize resSize} (h : Numbered s) {c : Nat}
    {cl : Client reqSize resSize} (hc : s.clients[c]? = some cl) :
    s.unanswered.countP (fun r => r.client = c) + cl.answered.length ≤ cl.received.length := by
  have hmem := List.mem_of_getElem? hc
  have hawait : ∀ r ∈ s.unanswered.filter (fun r => r.client = c),
      r.index < cl.received.length ∧ r.index ∉ cl.answered.map Prod.fst := by
    intro r hr
    obtain ⟨hr, hclient⟩ := List.mem_filter.mp hr
    obtain ⟨cl', hc', hrecv, hnew⟩ := h.awaits r hr
    rw [of_decide_eq_true hclient, hc] at hc'
    obtain rfl := Option.some.inj hc'
    exact ⟨(List.getElem?_eq_some_iff.mp hrecv).1, hnew⟩
  -- the numbers of the unanswered and of the answered requests are all different
  have hnodup : ((s.unanswered.filter (fun r => r.client = c)).map ActiveRequest.index
      ++ cl.answered.map Prod.fst).Nodup := by
    refine List.nodup_append.mpr ⟨?_, h.once cl hmem, ?_⟩
    · have hkeys : ((s.unanswered.filter (fun r => r.client = c)).map
          ActiveRequest.key).Nodup := h.distinct.sublist (List.filter_sublist.map _)
      refine List.Nodup.map_on (fun r hr q hq he => ?_) hkeys.of_map
      apply List.inj_on_of_nodup_map hkeys hr hq
      have hrc := of_decide_eq_true (List.mem_filter.mp hr).2
      have hqc := of_decide_eq_true (List.mem_filter.mp hq).2
      unfold ActiveRequest.key
      rw [hrc, hqc, he]
    · intro n hn m hm he
      subst he
      obtain ⟨r, hr, rfl⟩ := List.mem_map.mp hn
      exact (hawait r hr).2 hm
  have hsub : (s.unanswered.filter (fun r => r.client = c)).map ActiveRequest.index
      ++ cl.answered.map Prod.fst ⊆ List.range cl.received.length := by
    intro n hn
    apply List.mem_range.mpr
    rcases List.mem_append.mp hn with hn | hn
    · obtain ⟨r, hr, rfl⟩ := List.mem_map.mp hn
      exact (hawait r hr).1
    · exact h.below cl hmem n hn
  have hle := (hnodup.subperm hsub).length_le
  rw [List.length_append, List.length_map, List.length_map, List.length_range,
    ← List.countP_eq_length_filter] at hle
  exact hle

/-- **A request uses at most one chunk**, from the beginning of its send until
its response is taken, and none while it is active. -/
theorem chunksFor_le {s : Service reqSize resSize} (hstreams : Streams s) (hnumbered : Numbered s)
    {c : Nat} {cl : Client reqSize resSize} (hc : s.clients[c]? = some cl) :
    s.chunksFor c + s.active.countP (fun r => r.client = c) + cl.taken.length
      ≤ cl.sentOk.length + cl.pc.sending := by
  have hreq := congrArg List.length (hstreams.clients c cl hc).requests
  have hres := congrArg List.length (hstreams.clients c cl hc).responses
  have hnum := hnumbered.unanswered_le hc
  simp only [List.length_append, List.length_map] at hreq hres
  rw [Service.unanswered, List.countP_append] at hnum
  rw [chunksFor_some hc, Client.chunks]
  have hpc : cl.pc.chunks = cl.pc.sending + (cl.pc.inHand s.segment).length := by
    cases cl.pc <;> rfl
  have hserver : s.server.chunksFor c ≤ (s.server.inHand s.segment c).length
      + s.server.responding.countP (fun r => r.client = c) := by
    cases s.server with
    | reading k offset =>
        simp only [ServerPc.chunksFor, ServerPc.inHand]
        split <;> simp
    | releasing k offset request =>
        simp only [ServerPc.chunksFor, ServerPc.inHand]
        split <;> simp
    | writing r offset response => simp [ServerPc.chunksFor, ServerPc.responding, List.countP_cons]
    | pushing r offset response => simp [ServerPc.chunksFor, ServerPc.responding, List.countP_cons]
    | _ => simp [ServerPc.chunksFor]
  omega

/-! ## §3. The accounts. -/

theorem chunks_congr {s s' : Service reqSize resSize} (hclients : s'.clients = s.clients)
    (hserver : ∀ c, s'.server.chunksFor c = s.server.chunksFor c) : s'.chunks = s.chunks := by
  unfold Service.chunks
  rw [hclients]
  refine Finset.sum_congr rfl (fun c _ => ?_)
  unfold Service.chunksFor
  rw [hclients, hserver]

/-- What the requests of client `k` use changes; the others' use does not. -/
theorem chunks_set {s s' : Service reqSize resSize} {k : Nat} {cl cl' : Client reqSize resSize}
    (hc : s.clients[k]? = some cl) (hclients : s'.clients = s.clients.set k cl')
    (hserver : ∀ c, c ≠ k → s'.server.chunksFor c = s.server.chunksFor c) :
    s'.chunks + (cl.chunks + s.server.chunksFor k)
      = s.chunks + (cl'.chunks + s'.server.chunksFor k) := by
  have hlt := (List.getElem?_eq_some_iff.mp hc).1
  have hlen : s'.clients.length = s.clients.length := by rw [hclients, List.length_set]
  have hc' : s'.clients[k]? = some cl' := by rw [hclients, List.getElem?_set_self hlt]
  have hold := Finset.add_sum_erase (Finset.range s.clients.length) s.chunksFor
    (Finset.mem_range.mpr hlt)
  have hnew := Finset.add_sum_erase (Finset.range s.clients.length) s'.chunksFor
    (Finset.mem_range.mpr hlt)
  have hother : ∑ c ∈ (Finset.range s.clients.length).erase k, s'.chunksFor c
      = ∑ c ∈ (Finset.range s.clients.length).erase k, s.chunksFor c := by
    refine Finset.sum_congr rfl (fun c hmem => ?_)
    have hne := Finset.ne_of_mem_erase hmem
    unfold Service.chunksFor
    rw [hclients, List.getElem?_set_ne hne.symm, hserver c hne]
  rw [chunksFor_some hc] at hold
  rw [chunksFor_some hc'] at hnew
  unfold Service.chunks
  rw [hlen]
  omega

/-- A step of a client that does not fail loses no chunk. -/
theorem client_balanced {s : Service reqSize resSize} {l : List U32} (ho : Owned s l) {c : Nat}
    {a : ClientAct reqSize} {cl cl' : Client reqSize resSize} {segment : DataSegment}
    (hc : s.clients[c]? = some cl) (hok : cl.fails s.segment a = false)
    (hstep : ClientStep s.segment cl a segment cl') :
    segment.allocatedCount.toNat + cl.chunks = s.segment.allocatedCount.toNat + cl'.chunks := by
  obtain ⟨hready, hready'⟩ := ho.ready cl (List.mem_of_getElem? hc)
  unfold Client.chunks
  cases hstep with
  | sendFailed request _ => rfl
  | sendBegun request offset _ hpc halloc =>
      rw [ho.free.count_allocated halloc, hpc]
      simp only [ClientPc.chunks]
      omega
  | pollEmpty handle e channel _ hrecv =>
      obtain ⟨rfl, _⟩ := ZeroCopyChannel.receive_err hready' hrecv
      rfl
  | polled handle offset channel hpc _ hrecv =>
      obtain ⟨_, hpend⟩ := ZeroCopyChannel.receive_ok hready' hrecv
      rw [hpc, hpend, List.length_cons]
      simp only [ClientPc.chunks]
      omega
  | written offset request hpc =>
      rw [hpc]
      rfl
  | pushed offset request u channel hpc hsend =>
      obtain ⟨_, hpend⟩ := ZeroCopyChannel.send_ok hready hsend
      rw [hpc, hpend, List.length_append, List.length_singleton]
      simp only [ClientPc.chunks]
      omega
  | pushFailed offset request e channel hpc hsend =>
      -- a push that fails finds the queue full
      rcases ZeroCopyChannel.send_cases hready offset with ⟨_, hfull⟩ | ⟨d, hsent, _⟩
      · simp only [Client.fails, hpc, queueFull, hfull] at hok
        exact absurd hok (by simp)
      · rw [hsent] at hsend
        exact absurd hsend (by simp)
  | copied handle offset hpc =>
      rw [hpc]
      rfl
  | taken handle offset response _ hpc hdealloc =>
      have htaken := ho.apart.allowed _ _ (held_of_releasing hc hpc)
      have hcount := ho.free.count_deallocated htaken hdealloc
      rw [hpc]
      simp only [ClientPc.chunks]
      omega

/-- Room is kept by a client's steps. -/
theorem client_room {segment segment' : DataSegment} {a : ClientAct reqSize}
    {cl cl' : Client reqSize resSize} (hready : cl.requestChannel.Ready ∧ cl.responseChannel.Ready)
    (hstep : ClientStep segment cl a segment' cl') :
    cl'.requestChannel.sendQueue.capacity = cl.requestChannel.sendQueue.capacity
      ∧ cl'.responseChannel.sendQueue.capacity = cl.responseChannel.sendQueue.capacity := by
  cases hstep with
  | pollEmpty handle e channel _ hrecv =>
      exact ⟨rfl, (ZeroCopyChannel.receive_ends hready.2 hrecv).sendCapacity⟩
  | polled handle offset channel _ _ hrecv =>
      exact ⟨rfl, (ZeroCopyChannel.receive_ends hready.2 hrecv).sendCapacity⟩
  | pushed offset request u channel _ hsend =>
      exact ⟨(ZeroCopyChannel.send_ends hready.1 hsend).sendCapacity, rfl⟩
  | pushFailed offset request e channel _ hsend =>
      exact ⟨(ZeroCopyChannel.send_ends hready.1 hsend).sendCapacity, rfl⟩
  | _ => exact ⟨rfl, rfl⟩

/-! ## §4. The invariant. -/

/-- What holds under the load as long as nothing has failed. -/
structure Loaded (maxClients maxPending : Nat) (s : Service reqSize resSize) : Prop where
  qos : s.qos.maxPendingRequests = maxPending
  few : s.clients.length ≤ maxClients
  outstanding : ∀ cl ∈ s.clients,
    cl.sentOk.length + cl.pc.sending ≤ cl.taken.length + maxPending
  room : ∀ cl ∈ s.clients, maxPending ≤ cl.requestChannel.sendQueue.capacity
    ∧ maxPending ≤ cl.responseChannel.sendQueue.capacity
  balanced : s.segment.allocatedCount.toNat = s.chunks

variable {maxClients maxPending : Nat}

/-- The queues of a new client have room for all its requests. -/
theorem create_room (hpending : maxPending < 2 ^ 31) {qos : ReqResQos}
    (hqos : qos.maxPendingRequests = maxPending) :
    maxPending ≤ (Client.create qos :
        Client reqSize resSize).requestChannel.sendQueue.capacity
      ∧ maxPending ≤ (Client.create qos :
        Client reqSize resSize).responseChannel.sendQueue.capacity := by
  have hge := (nextPowerOfTwo_least maxPending (by omega)).1
  have hcap : maxPending ≤ max (nextPowerOfTwo qos.maxPendingRequests) 2 := by
    rw [hqos]
    omega
  exact ⟨hcap, hcap⟩

/-- A client's own step under the load. -/
theorem outstanding_step {s : Service reqSize resSize} {c : Nat} {a : ClientAct reqSize}
    {cl cl' : Client reqSize resSize} {segment : DataSegment} (hc : s.clients[c]? = some cl)
    (hload : load maxClients maxPending s (.client c a))
    (h : cl.sentOk.length + cl.pc.sending ≤ cl.taken.length + maxPending)
    (hstep : ClientStep s.segment cl a segment cl') :
    cl'.sentOk.length + cl'.pc.sending ≤ cl'.taken.length + maxPending := by
  cases hstep with
  | sendBegun request offset _ _ _ =>
      have hlt : cl.sentOk.length < cl.taken.length + maxPending := hload cl hc
      show cl.sentOk.length + 1 ≤ cl.taken.length + maxPending
      omega
  | written offset request hpc =>
      rw [hpc] at h
      exact h
  | pushed offset request u channel hpc _ =>
      rw [hpc] at h
      show (cl.sentOk ++ [request]).length + 0 ≤ _
      rw [List.length_append]
      exact h
  | pushFailed offset request e channel hpc _ =>
      rw [hpc] at h
      exact Nat.le_of_succ_le h
  | polled handle offset channel hpc _ _ =>
      rw [hpc] at h
      exact h
  | copied handle offset hpc =>
      rw [hpc] at h
      exact h
  | taken handle offset response _ hpc _ =>
      rw [hpc] at h
      have h' : cl.sentOk.length + 0 ≤ cl.taken.length + maxPending := h
      show cl.sentOk.length + 0 ≤ (cl.taken ++ [(handle, response)]).length + maxPending
      rw [List.length_append, List.length_singleton]
      omega
  | _ => exact h

/-- One client moves, and the pool by as much as its requests' use. -/
theorem Loaded.set {s s' : Service reqSize resSize} (h : Loaded maxClients maxPending s) {k : Nat}
    {cl cl' : Client reqSize resSize} (hc : s.clients[k]? = some cl)
    (hclients : s'.clients = s.clients.set k cl') (hqos : s'.qos = s.qos)
    (hout : cl'.sentOk.length + cl'.pc.sending ≤ cl'.taken.length + maxPending)
    (hroom : cl'.requestChannel.sendQueue.capacity = cl.requestChannel.sendQueue.capacity
      ∧ cl'.responseChannel.sendQueue.capacity = cl.responseChannel.sendQueue.capacity)
    (hserver : ∀ c, c ≠ k → s'.server.chunksFor c = s.server.chunksFor c)
    (hcount : s'.segment.allocatedCount.toNat + (cl.chunks + s.server.chunksFor k)
      = s.segment.allocatedCount.toNat + (cl'.chunks + s'.server.chunksFor k)) :
    Loaded maxClients maxPending s' where
  qos := by
    rw [hqos]
    exact h.qos
  few := by
    rw [hclients, List.length_set]
    exact h.few
  outstanding := by
    intro m hm
    rw [hclients] at hm
    rcases List.mem_or_eq_of_mem_set hm with hm | rfl
    · exact h.outstanding m hm
    · exact hout
  room := by
    intro m hm
    rw [hclients] at hm
    rcases List.mem_or_eq_of_mem_set hm with hm | rfl
    · exact h.room m hm
    · rw [hroom.1, hroom.2]
      exact h.room cl (List.mem_of_getElem? hc)
  balanced := by
    have hset := chunks_set hc hclients hserver
    have hbalanced := h.balanced
    omega

/-- No client moves, and neither does the pool. -/
theorem Loaded.same {s s' : Service reqSize resSize} (h : Loaded maxClients maxPending s)
    (hclients : s'.clients = s.clients) (hqos : s'.qos = s.qos)
    (hserver : ∀ c, s'.server.chunksFor c = s.server.chunksFor c)
    (hcount : s'.segment.allocatedCount = s.segment.allocatedCount) :
    Loaded maxClients maxPending s' := by
  constructor
  case qos =>
    rw [hqos]
    exact h.qos
  case few =>
    rw [hclients]
    exact h.few
  case outstanding =>
    rw [hclients]
    exact h.outstanding
  case room =>
    rw [hclients]
    exact h.room
  case balanced =>
    rw [hcount, chunks_congr hclients hserver]
    exact h.balanced

theorem Loaded.createClient {s : Service reqSize resSize} (h : Loaded maxClients maxPending s)
    (hnumbered : Numbered s) (hpending : maxPending < 2 ^ 31)
    (hload : s.clients.length < maxClients) (hfree : s.server.holdsClients = false) :
    Loaded maxClients maxPending { s with clients := s.clients ++ [Client.create s.qos] } := by
  refine ⟨h.qos, ?_, fun cl hcl => ?_, fun cl hcl => ?_, ?_⟩
  · show (s.clients ++ [Client.create s.qos]).length ≤ maxClients
    rw [List.length_append]
    exact hload
  · rcases List.mem_append.mp hcl with hcl | hcl
    · exact h.outstanding cl hcl
    · rw [List.mem_singleton.mp hcl]
      exact Nat.zero_le _
  · rcases List.mem_append.mp hcl with hcl | hcl
    · exact h.room cl hcl
    · rw [List.mem_singleton.mp hcl]
      exact create_room hpending h.qos
  · -- the server has nothing in hand for the new client
    have hserver : s.server.chunksFor s.clients.length = 0 := by
      have hknown : ∀ r ∈ s.server.responding, r.client ≠ s.clients.length := by
        intro r hr he
        obtain ⟨cl, hc, _⟩ := hnumbered.awaits r (List.mem_append_right _ hr)
        rw [he, List.getElem?_eq_none (Nat.le_refl _)] at hc
        exact absurd hc (by simp)
      cases hpc : s.server with
      | reading k offset =>
          rw [hpc] at hfree
          exact absurd hfree (by simp [ServerPc.holdsClients])
      | releasing k offset request =>
          rw [hpc] at hfree
          exact absurd hfree (by simp [ServerPc.holdsClients])
      | writing r offset response =>
          rw [hpc] at hknown
          exact if_neg (hknown r (List.mem_singleton.mpr rfl))
      | pushing r offset response =>
          rw [hpc] at hknown
          exact if_neg (hknown r (List.mem_singleton.mpr rfl))
      | _ => rfl
    show s.segment.allocatedCount.toNat = _
    rw [h.balanced]
    unfold Service.chunks
    rw [List.length_append, List.length_singleton, Finset.sum_range_succ]
    have hnew : Service.chunksFor { s with clients := s.clients ++ [Client.create s.qos] }
        s.clients.length = 0 := by
      unfold Service.chunksFor
      rw [List.getElem?_concat_length, hserver]
      simp [Client.create, Client.chunks, ClientPc.chunks]
    rw [hnew, Nat.add_zero]
    refine Finset.sum_congr rfl (fun c hmem => ?_)
    unfold Service.chunksFor
    rw [List.getElem?_append_left (Finset.mem_range.mp hmem)]

theorem fails_client {s : Service reqSize resSize} {c : Nat} {a : ClientAct reqSize}
    {cl : Client reqSize resSize} (hc : s.clients[c]? = some cl)
    (hok : s.fails (.client c a) = false) : cl.fails s.segment a = false := by
  simp only [Service.fails, hc, Option.any_some] at hok
  exact hok

/-- **The step lemma**: a step under the load that does not fail. -/
theorem Loaded.step {s s' : Service reqSize resSize} {l : List U32} {a : Act reqSize resSize}
    (h : Loaded maxClients maxPending s) (hpending : maxPending < 2 ^ 31) (ho : Owned s l)
    (hnumbered : Numbered s) (hload : load maxClients maxPending s a) (hok : s.fails a = false)
    (hstep : ServiceStep s a s') : Loaded maxClients maxPending s' := by
  cases hstep with
  | createClient hfree => exact h.createClient hnumbered hpending hload hfree
  | client c a cl cl' segment hc hstep =>
      have hmem := List.mem_of_getElem? hc
      have hclient := client_balanced ho hc (fails_client hc hok) hstep
      refine h.set hc rfl rfl (outstanding_step hc hload (h.outstanding cl hmem) hstep)
        (client_room (ho.ready cl hmem) hstep) (fun _ _ => rfl) ?_
      show segment.allocatedCount.toNat + (cl.chunks + s.server.chunksFor c)
        = s.segment.allocatedCount.toNat + (cl'.chunks + s.server.chunksFor c)
      omega
  | receiveNothing => exact h
  | receive hpc =>
      refine h.same rfl rfl (fun c => ?_) rfl
      rw [hpc]
      rfl
  | popped k cl offset channel hpc hc hrecv =>
      have hmem := List.mem_of_getElem? hc
      obtain ⟨hready, _⟩ := ho.ready cl hmem
      obtain ⟨_, hpend⟩ := ZeroCopyChannel.receive_ok hready hrecv
      refine h.set hc rfl rfl (h.outstanding cl hmem)
        ⟨(ZeroCopyChannel.receive_ends hready hrecv).sendCapacity, rfl⟩ (fun c hne => ?_) ?_
      · rw [hpc]
        exact if_neg hne.symm
      · -- the chunk goes from the request queue into the server's hand
        show s.segment.allocatedCount.toNat + (cl.chunks + s.server.chunksFor k)
          = s.segment.allocatedCount.toNat + (Client.chunks { cl with requestChannel := channel }
            + ServerPc.chunksFor k (.reading k offset : ServerPc reqSize resSize))
        simp only [Client.chunks, hpend, List.length_cons, hpc, ServerPc.chunksFor, if_true]
        omega
  | passed k cl e channel pc hpc hc hrecv hpc' =>
      have hmem := List.mem_of_getElem? hc
      obtain ⟨hready, _⟩ := ho.ready cl hmem
      obtain ⟨rfl, _⟩ := ZeroCopyChannel.receive_err hready hrecv
      have hserver : ∀ c, pc.chunksFor c = s.server.chunksFor c := by
        intro c
        rw [hpc]
        rcases hpc' with rfl | ⟨j, rfl⟩ <;> rfl
      refine h.set hc rfl rfl (h.outstanding cl hmem) ⟨rfl, rfl⟩ (fun c _ => hserver c) ?_
      show s.segment.allocatedCount.toNat + (cl.chunks + s.server.chunksFor k)
        = s.segment.allocatedCount.toNat + (cl.chunks + pc.chunksFor k)
      rw [hserver]
  | copied k offset hpc =>
      refine h.same rfl rfl (fun c => ?_) rfl
      rw [hpc]
      rfl
  | received k offset request cl segment hpc hc hdealloc =>
      have hmem := List.mem_of_getElem? hc
      have hx : offset ∈ s.held (.server .reading) := by
        simp [Service.held, ServerPc.held, hpc]
      have hcount := ho.free.count_deallocated (ho.apart.allowed _ _ hx) hdealloc
      refine h.set hc rfl rfl (h.outstanding cl hmem) ⟨rfl, rfl⟩ (fun c hne => ?_) ?_
      · rw [hpc]
        exact (if_neg hne.symm).symm
      · show segment.allocatedCount.toNat + (cl.chunks + s.server.chunksFor k)
          = s.segment.allocatedCount.toNat + (cl.chunks + 0)
        simp only [hpc, ServerPc.chunksFor, if_true]
        omega
  | respondFailed r response _ _ => exact h.same rfl rfl (fun _ => rfl) rfl
  | respondBegun r response offset segment hpc hr halloc =>
      have hcount := ho.free.count_allocated halloc
      obtain ⟨cl, hc, _⟩ := hnumbered.awaits r (List.mem_append_left _ hr)
      refine h.set hc (set_same hc).symm rfl (h.outstanding cl (List.mem_of_getElem? hc)) ⟨rfl, rfl⟩
        (fun c hne => ?_) ?_
      · rw [hpc]
        exact if_neg hne.symm
      · show segment.allocatedCount.toNat + (cl.chunks + s.server.chunksFor r.client)
          = s.segment.allocatedCount.toNat + (cl.chunks
            + ServerPc.chunksFor r.client (.writing r offset response : ServerPc reqSize resSize))
        simp only [hpc, ServerPc.chunksFor, if_true]
        omega
  | dropRequest r _ _ => exact absurd hload id
  | written r offset response hpc =>
      refine h.same rfl rfl (fun c => ?_) rfl
      rw [hpc]
      rfl
  | answered r offset response cl u channel hpc hc hsend =>
      have hmem := List.mem_of_getElem? hc
      obtain ⟨_, hready⟩ := ho.ready cl hmem
      obtain ⟨_, hpend⟩ := ZeroCopyChannel.send_ok hready hsend
      refine h.set hc rfl rfl (h.outstanding cl hmem)
        ⟨rfl, (ZeroCopyChannel.send_ends hready hsend).sendCapacity⟩ (fun c hne => ?_) ?_
      · rw [hpc]
        exact (if_neg hne.symm).symm
      · show s.segment.allocatedCount.toNat + (cl.chunks + s.server.chunksFor r.client)
          = s.segment.allocatedCount.toNat
            + (cl.pc.chunks + cl.requestChannel.pending.length + channel.pending.length + 0)
        simp only [Client.chunks, hpend, List.length_append, List.length_singleton, hpc,
          ServerPc.chunksFor, if_true]
        omega
  | answerFailed r offset response cl e channel hpc hc hsend =>
      obtain ⟨_, hready⟩ := ho.ready cl (List.mem_of_getElem? hc)
      rcases ZeroCopyChannel.send_cases hready offset with ⟨_, hfull⟩ | ⟨d, hsent, _⟩
      · simp only [Service.fails, hpc, hc, Option.any_some, queueFull, hfull] at hok
        exact absurd hok (by simp)
      · rw [hsent] at hsend
        exact absurd hsend (by simp)

/-! ## §5. The pool. -/

/-- No step changes the layout of the segment. -/
theorem step_layout {s s' : Service reqSize resSize} {l : List U32} {a : Act reqSize resSize}
    (ho : Owned s l) (hstep : ServiceStep s a s') : s'.segment.layout = s.segment.layout := by
  cases hstep with
  | client c a cl cl' segment hc hstep =>
      cases hstep with
      | sendBegun request offset _ _ halloc =>
          obtain ⟨_, _, _, _, _, hlayout, _⟩ := ho.free.allocated halloc
          exact hlayout
      | taken handle offset response _ hpc hdealloc =>
          obtain ⟨_, _, _, hlayout, _⟩ :=
            ho.free.deallocated (ho.apart.allowed _ _ (held_of_releasing hc hpc)) hdealloc
          exact hlayout
      | _ => rfl
  | received k offset request cl segment hpc _ hdealloc =>
      have hx : offset ∈ s.held (.server .reading) := by
        simp [Service.held, ServerPc.held, hpc]
      obtain ⟨_, _, _, hlayout, _⟩ := ho.free.deallocated (ho.apart.allowed _ _ hx) hdealloc
      exact hlayout
  | respondBegun r response offset segment _ _ halloc =>
      obtain ⟨_, _, _, _, _, hlayout, _⟩ := ho.free.allocated halloc
      exact hlayout
  | _ => rfl

/-- The segment has `poolSize` chunks, from the creation of the server on. -/
theorem pool_of_reach {ok : Service reqSize resSize → Act reqSize resSize → Prop}
    {s₀ s : Service reqSize resSize} (hpending : maxPending < 2 ^ 31)
    (hcreate : Service.create reqSize resSize ⟨maxPending⟩ = some s₀)
    (hs : Reach Service.step ok s₀ s) : s.segment.layout.chunkCount = poolSize maxPending := by
  refine hs.invariant_of_reach (fun s => s.segment.layout.chunkCount = poolSize maxPending) ?_ ?_
  · obtain ⟨seg, hseg, rfl⟩ := Option.map_eq_some_iff.mp hcreate
    obtain ⟨_, hcount, _⟩ := DataSegment.create_free hseg
    show seg.layout.chunkCount = poolSize maxPending
    rw [hcount]
    show max (maxPending * 2 % 2 ^ 64) 16 % 2 ^ 32 = max (maxPending * 2) 16
    omega
  · intro t a t' hr hI _ hstep
    obtain ⟨l, hl⟩ := owned_of_reach hcreate hr
    rw [step_layout hl (step_cases hstep)]
    exact hI

theorem allocated_of_outOfMemory {segment : DataSegment} {l : List U32} (h : segment.Free l)
    (hfail : outOfMemory segment = true) :
    segment.allocatedCount.toNat = segment.layout.chunkCount := by
  cases l with
  | nil => exact h.borrowed
  | cons i rest =>
      obtain ⟨seg', halloc, _⟩ := DataSegment.allocate_ok h
      unfold outOfMemory at hfail
      rw [halloc] at hfail
      exact absurd hfail (by simp)

theorem full_of_queueFull {channel : ZeroCopyChannel} (h : channel.Ready) {offset : PointerOffset}
    (hfail : queueFull channel offset = true) :
    channel.sendQueue.capacity ≤ channel.pending.length := by
  rcases ZeroCopyChannel.send_cases h offset with ⟨hfull, _⟩ | ⟨d, hsend, _⟩
  · exact hfull
  · unfold queueFull at hfail
    rw [hsend] at hfail
    exact absurd hfail (by simp)

/-- Under the load no client uses more chunks than it may have requests. -/
theorem Loaded.chunksFor_le {s : Service reqSize resSize} (h : Loaded maxClients maxPending s)
    (hstreams : Streams s) (hnumbered : Numbered s) {c : Nat} {cl : Client reqSize resSize}
    (hc : s.clients[c]? = some cl) :
    s.chunksFor c + s.active.countP (fun r => r.client = c) ≤ maxPending := by
  have hle := ReqRes.chunksFor_le hstreams hnumbered hc
  have hout := h.outstanding cl (List.mem_of_getElem? hc)
  omega

/-- If one client uses fewer, there is a chunk to spare. -/
theorem Loaded.not_outOfMemory {s : Service reqSize resSize} {l : List U32}
    (h : Loaded maxClients maxPending s) (ho : Owned s l) (hstreams : Streams s)
    (hnumbered : Numbered s) (hpool : s.segment.layout.chunkCount = poolSize maxPending)
    (henough : maxClients * maxPending ≤ poolSize maxPending) {k : Nat}
    (hk : k < s.clients.length) (hlt : s.chunksFor k < maxPending) :
    outOfMemory s.segment = false := by
  by_contra hfail
  have hfull := allocated_of_outOfMemory ho.free (Bool.not_eq_false _ ▸ hfail)
  have hsum : s.chunks < ∑ _c ∈ Finset.range s.clients.length, maxPending := by
    refine Finset.sum_lt_sum (fun c hc => ?_) ⟨k, Finset.mem_range.mpr hk, hlt⟩
    have hlt' := Finset.mem_range.mp hc
    have hle := h.chunksFor_le hstreams hnumbered (List.getElem?_eq_getElem hlt')
    omega
  rw [Finset.sum_const_nat (fun _ _ => rfl), Finset.card_range] at hsum
  have hclients := Nat.mul_le_mul_right maxPending h.few
  have hbalanced := h.balanced
  omega

/-- **Under the load nothing fails, if the pool has a chunk for each request.** -/
theorem Loaded.not_fails {s : Service reqSize resSize} {l : List U32} {a : Act reqSize resSize}
    (h : Loaded maxClients maxPending s) (ho : Owned s l) (hstreams : Streams s)
    (hnumbered : Numbered s) (hpool : s.segment.layout.chunkCount = poolSize maxPending)
    (henough : maxClients * maxPending ≤ poolSize maxPending)
    (hload : load maxClients maxPending s a) : s.fails a = false := by
  cases a with
  | client c a =>
      cases hc : s.clients[c]? with
      | none => simp only [Service.fails, hc, Option.any_none]
      | some cl =>
          have hmem := List.mem_of_getElem? hc
          have hle := h.chunksFor_le hstreams hnumbered hc
          simp only [Service.fails, hc, Option.any_some]
          cases a with
          | poll handle => rfl
          | send request =>
              cases hpc : cl.pc with
              | idle =>
                  have hlt : cl.sentOk.length < cl.taken.length + maxPending := hload cl hc
                  have huse := ReqRes.chunksFor_le hstreams hnumbered hc
                  rw [hpc] at huse
                  simp only [ClientPc.sending] at huse
                  simp only [Client.fails, hpc]
                  exact h.not_outOfMemory ho hstreams hnumbered hpool henough
                    (List.getElem?_eq_some_iff.mp hc).1 (by omega)
              | _ => simp only [Client.fails, hpc]
          | next =>
              cases hpc : cl.pc with
              | pushing offset request =>
                  simp only [Client.fails, hpc]
                  by_contra hfail
                  have hfull := full_of_queueFull (ho.ready cl hmem).1 (Bool.not_eq_false _ ▸ hfail)
                  have hroom := (h.room cl hmem).1
                  rw [chunksFor_some hc, Client.chunks, hpc] at hle
                  simp only [ClientPc.chunks] at hle
                  omega
              | _ => simp only [Client.fails, hpc]
  | respond r response =>
      cases hpc : s.server with
      | idle =>
          simp only [Service.fails, hpc]
          by_cases hr : r ∈ s.active
          · -- the request is one of its client's, and uses no chunk yet
            obtain ⟨cl, hc, _⟩ := hnumbered.awaits r (List.mem_append_left _ hr)
            have hle := h.chunksFor_le hstreams hnumbered hc
            have hpos : 0 < s.active.countP (fun q => q.client = r.client) :=
              List.countP_pos_iff.mpr ⟨r, hr, by simp⟩
            rw [h.not_outOfMemory ho hstreams hnumbered hpool henough
              (List.getElem?_eq_some_iff.mp hc).1 (by omega), Bool.and_false]
          · simp only [hr, decide_false, Bool.false_and]
      | _ => simp only [Service.fails, hpc]
  | next =>
      cases hpc : s.server with
      | pushing r offset response =>
          simp only [Service.fails, hpc]
          cases hc : s.clients[r.client]? with
          | none => rfl
          | some cl =>
              have hmem := List.mem_of_getElem? hc
              have hle := h.chunksFor_le hstreams hnumbered hc
              simp only [Option.any_some]
              by_contra hfail
              have hfull := full_of_queueFull (ho.ready cl hmem).2 (Bool.not_eq_false _ ▸ hfail)
              have hroom := (h.room cl hmem).2
              rw [chunksFor_some hc, Client.chunks, hpc] at hle
              simp only [ServerPc.chunksFor, if_true] at hle
              omega
      | _ => simp only [Service.fails, hpc]
  | createClient => rfl
  | receive => rfl
  | dropRequest r => rfl

/-! ## §6. The load can be reached. -/

/-- Every client has only sent, and nobody has received. -/
structure OnlySent (s : Service reqSize resSize) (n k : Nat) : Prop where
  server : s.server = .idle
  clients : s.clients.length = n
  each : ∀ cl ∈ s.clients, cl.pc = .idle ∧ cl.taken = [] ∧ cl.chunks = cl.sentOk.length
  total : s.chunks = k

theorem OnlySent.createClient {s : Service reqSize resSize} {n : Nat} (h : OnlySent s n 0) :
    s.step .createClient = some { s with clients := s.clients ++ [Client.create s.qos] }
      ∧ OnlySent { s with clients := s.clients ++ [Client.create s.qos] } (n + 1) 0 := by
  have hnew : (Client.create s.qos : Client reqSize resSize).chunks = 0 := by
    simp [Client.create, Client.chunks, ClientPc.chunks]
  refine ⟨?_, h.server, ?_, fun cl hcl => ?_, ?_⟩
  · simp only [Service.step, h.server, ServerPc.holdsClients, Bool.false_eq_true, if_false]
  · show (s.clients ++ [Client.create s.qos]).length = n + 1
    rw [List.length_append, h.clients]
    rfl
  · rcases List.mem_append.mp hcl with hcl | hcl
    · exact h.each cl hcl
    · rw [List.mem_singleton.mp hcl]
      exact ⟨rfl, rfl, hnew⟩
  · have hzero : ∀ c, Service.chunksFor { s with clients := s.clients ++ [Client.create s.qos] } c
        = s.chunksFor c := by
      intro c
      unfold Service.chunksFor
      rw [concat_default (fun o => (o.map Client.chunks).getD 0) hnew]
    have hlast : s.chunksFor s.clients.length = 0 := by
      unfold Service.chunksFor
      rw [List.getElem?_eq_none (Nat.le_refl _), h.server]
      rfl
    have htotal := h.total
    unfold Service.chunks at htotal ⊢
    rw [List.length_append, List.length_singleton, Finset.sum_range_succ,
      Finset.sum_congr rfl (fun c _ => hzero c), hzero, hlast, htotal]

/-- A client's send, run to its end without a failure. -/
theorem send_runs {s : Service reqSize resSize} {c : Nat} {cl : Client reqSize resSize}
    (hc : s.clients[c]? = some cl) (hidle : cl.pc = .idle) {offset : PointerOffset}
    {segment : DataSegment} (halloc : s.segment.allocate = some (.ok offset, segment))
    {channel : ZeroCopyChannel} (hsend : cl.requestChannel.send offset = (.ok (), channel))
    (request : Payload reqSize) :
    ∃ s₁ s₂ s₃, s.step (.client c (.send request)) = some s₁ ∧ s₁.step (.client c .next) = some s₂
      ∧ s₂.step (.client c .next) = some s₃ ∧ s₃.server = s.server
      ∧ s₃.clients = s.clients.set c { cl with
          requestChannel := channel
          pc := .idle
          sentOk := cl.sentOk ++ [request] } := by
  have hlt := (List.getElem?_eq_some_iff.mp hc).1
  refine ⟨{ s.setClient c { cl with pc := .writing offset request } with segment := segment },
    { s.setClient c { cl with pc := .pushing offset request } with
      segment := segment.write offset request },
    { s with
      segment := segment.write offset request
      clients := s.clients.set c { cl with
        requestChannel := channel
        pc := .idle
        sentOk := cl.sentOk ++ [request] } }, ?_, ?_, ?_, rfl, rfl⟩
  · simp [Service.step, Client.step, Service.setClient, hc, hidle, halloc]
  · simp [Service.step, Client.step, Service.setClient, List.getElem?_set_self hlt]
  · simp [Service.step, Client.step, Service.setClient, List.getElem?_set_self hlt, hsend]

/-- While a request is missing some client can send it. -/
theorem OnlySent.send {s : Service reqSize resSize} {l : List U32} {n k : Nat}
    (h : OnlySent s n k) (hl : Loaded maxClients maxPending s) (ho : Owned s l)
    (hk : k < n * maxPending)
    (hnever : ∀ a, load maxClients maxPending s a → s.fails a = false) :
    ∃ s', Reach Service.step (load maxClients maxPending) s s' ∧ OnlySent s' n (k + 1) := by
  have huse : ∀ c cl, s.clients[c]? = some cl → s.chunksFor c = cl.sentOk.length := by
    intro c cl hc
    rw [chunksFor_some hc, h.server, (h.each cl (List.mem_of_getElem? hc)).2.2]
    rfl
  -- not every client has sent all it may
  obtain ⟨c, hmem, hlt⟩ : ∃ c ∈ Finset.range s.clients.length, s.chunksFor c < maxPending := by
    refine Finset.exists_lt_of_sum_lt ?_
    rw [Finset.sum_const_nat (fun _ _ => rfl), Finset.card_range, h.clients]
    have htotal := h.total
    unfold Service.chunks at htotal
    rw [h.clients] at htotal
    omega
  have hlt' := Finset.mem_range.mp hmem
  have hc := List.getElem?_eq_getElem hlt'
  have hcl := List.getElem_mem hlt'
  obtain ⟨hidle, htaken, hchunks⟩ := h.each _ hcl
  rw [huse c _ hc] at hlt
  have hload : load maxClients maxPending s (.client c (.send fun _ => 0#8)) := by
    intro m hm
    have hm' : s.clients[c]? = some m := hm
    rw [hc] at hm'
    obtain rfl := Option.some.inj hm'
    omega
  -- its send gets a chunk, because nothing fails, and finds room in its queue
  have hok := fails_client hc (hnever _ hload)
  simp only [Client.fails, hidle] at hok
  obtain ⟨offset, segment, halloc⟩ : ∃ offset segment,
      s.segment.allocate = some (.ok offset, segment) := by
    cases l with
    | nil =>
        unfold outOfMemory at hok
        rw [DataSegment.allocate_err ho.free] at hok
        exact absurd hok (by simp)
    | cons i rest =>
        obtain ⟨segment, halloc, _⟩ := DataSegment.allocate_ok ho.free
        exact ⟨_, segment, halloc⟩
  obtain ⟨channel, hsend, hpend⟩ : ∃ channel,
      (s.clients[c]).requestChannel.send offset = (.ok (), channel)
        ∧ channel.pending = (s.clients[c]).requestChannel.pending ++ [offset] := by
    rcases ZeroCopyChannel.send_cases (ho.ready _ hcl).1 offset with
      ⟨hfull, _⟩ | ⟨channel, hsend, _, hpend, _⟩
    · have hroom := (hl.room _ hcl).1
      rw [Client.chunks] at hchunks
      omega
    · exact ⟨channel, hsend, hpend⟩
  obtain ⟨s₁, s₂, s₃, h₁, h₂, h₃, hserver, hclients⟩ :=
    send_runs hc hidle halloc hsend (fun _ => 0#8)
  have hreach₂ : Reach Service.step (load maxClients maxPending) s s₂ :=
    (Reach.refl.tail hload h₁).tail (a := .client c .next) trivial h₂
  refine ⟨s₃, hreach₂.tail (a := .client c .next) trivial h₃, ?_, ?_, fun m hm => ?_, ?_⟩
  · rw [hserver]
    exact h.server
  · rw [hclients, List.length_set]
    exact h.clients
  · rw [hclients] at hm
    rcases List.mem_or_eq_of_mem_set hm with hm | rfl
    · exact h.each m hm
    · refine ⟨rfl, htaken, ?_⟩
      rw [Client.chunks, hidle] at hchunks
      simp only [Client.chunks, ClientPc.chunks, hpend, List.length_append,
        List.length_singleton] at hchunks ⊢
      omega
  · have hset := chunks_set hc hclients (fun _ _ => by rw [hserver])
    have htotal := h.total
    rw [hserver] at hset
    simp only [Client.chunks, ClientPc.chunks, hidle, hpend, List.length_append,
      List.length_singleton] at hset
    omega

/-! ## §7. The pool is large enough exactly if it has a chunk for each request. -/

theorem loaded_of_reach {s₀ s : Service reqSize resSize} (hpending : maxPending < 2 ^ 31)
    (hcreate : Service.create reqSize resSize ⟨maxPending⟩ = some s₀)
    (hnofail : ∀ s a, Reach Service.step (load maxClients maxPending) s₀ s →
      Loaded maxClients maxPending s → load maxClients maxPending s a → s.fails a = false)
    (hs : Reach Service.step (load maxClients maxPending) s₀ s) :
    Loaded maxClients maxPending s := by
  refine hs.invariant_of_reach (Loaded maxClients maxPending) ?_ ?_
  · obtain ⟨seg, hseg, rfl⟩ := Option.map_eq_some_iff.mp hcreate
    obtain ⟨hfree, hcount, _⟩ := DataSegment.create_free hseg
    refine ⟨rfl, Nat.zero_le _, fun cl hcl => absurd hcl (by simp),
      fun cl hcl => absurd hcl (by simp), ?_⟩
    -- a new segment is all free
    have hborrowed := hfree.borrowed
    rw [hcount, List.length_map, List.length_range] at hborrowed
    show seg.allocatedCount.toNat = 0
    omega
  · intro t a t' hr hI hok hstep
    obtain ⟨l, hl⟩ := owned_of_reach hcreate hr
    exact hI.step hpending hl (numbered_of_reach hcreate hr) hok (hnofail t a hr hI hok)
      (step_cases hstep)

/-- If nothing ever fails, every client can have all its requests sent. -/
theorem onlySent_of_reach {s₀ : Service reqSize resSize} (hpending : maxPending < 2 ^ 31)
    (hcreate : Service.create reqSize resSize ⟨maxPending⟩ = some s₀)
    (hnever : ∀ s, Reach Service.step (load maxClients maxPending) s₀ s → ∀ a,
      load maxClients maxPending s a → s.fails a = false) :
    ∃ s, Reach Service.step (load maxClients maxPending) s₀ s
      ∧ OnlySent s maxClients (maxClients * maxPending) := by
  have hclients : ∀ n, n ≤ maxClients →
      ∃ s, Reach Service.step (load maxClients maxPending) s₀ s ∧ OnlySent s n 0 := by
    intro n
    induction n with
    | zero =>
        intro _
        obtain ⟨seg, _, rfl⟩ := Option.map_eq_some_iff.mp hcreate
        exact ⟨_, .refl, rfl, rfl, fun cl hcl => absurd hcl (by simp), rfl⟩
    | succ n ih =>
        intro hn
        obtain ⟨s, hs, hsent⟩ := ih (by omega)
        obtain ⟨hstep, hsent'⟩ := hsent.createClient
        refine ⟨_, hs.tail (a := .createClient) ?_ hstep, hsent'⟩
        show s.clients.length < maxClients
        rw [hsent.clients]
        omega
  have hsends : ∀ k, k ≤ maxClients * maxPending →
      ∃ s, Reach Service.step (load maxClients maxPending) s₀ s ∧ OnlySent s maxClients k := by
    intro k
    induction k with
    | zero => exact fun _ => hclients maxClients (Nat.le_refl _)
    | succ k ih =>
        intro hk
        obtain ⟨s, hs, hsent⟩ := ih (by omega)
        obtain ⟨l, hl⟩ := owned_of_reach hcreate hs
        have hloaded := loaded_of_reach hpending hcreate
          (fun s a hr _ hload => hnever s hr a hload) hs
        obtain ⟨s', hs', hsent'⟩ := hsent.send hloaded hl (by omega) (hnever s hs)
        exact ⟨s', hs.trans hs', hsent'⟩
  exact hsends _ (Nat.le_refl _)

/-- **No operation fails under the load exactly if the pool has a chunk for
each request of each client.** -/
theorem pool_sufficient_iff (maxClients maxPending : Nat) (hpending : maxPending < 2 ^ 31)
    (s₀ : Service reqSize resSize)
    (hcreate : Service.create reqSize resSize ⟨maxPending⟩ = some s₀) :
    (∀ s, Reach Service.step (load maxClients maxPending) s₀ s →
        ∀ a, load maxClients maxPending s a → s.fails a = false)
      ↔ maxClients * maxPending ≤ poolSize maxPending := by
  constructor
  · intro hnever
    obtain ⟨s, hs, hsent⟩ := onlySent_of_reach hpending hcreate hnever
    obtain ⟨l, hl⟩ := owned_of_reach hcreate hs
    have hloaded := loaded_of_reach hpending hcreate
      (fun s a hr _ hload => hnever s hr a hload) hs
    -- as many chunks are in use as requests, and no more than there are
    have hbalanced := hloaded.balanced
    have hborrowed := hl.free.borrowed
    rw [pool_of_reach hpending hcreate hs] at hborrowed
    rw [hsent.total] at hbalanced
    omega
  · intro henough
    have hnofail : ∀ s a, Reach Service.step (load maxClients maxPending) s₀ s →
        Loaded maxClients maxPending s → load maxClients maxPending s a → s.fails a = false := by
      intro s a hs hloaded hload
      obtain ⟨l, hl⟩ := owned_of_reach hcreate hs
      exact hloaded.not_fails hl (streams_of_reach hcreate hs) (numbered_of_reach hcreate hs)
        (pool_of_reach hpending hcreate hs) henough hload
    intro s hs a hload
    exact hnofail s a hs (loaded_of_reach hpending hcreate hnofail hs) hload

/-- With the default of 16 pending requests the pool has 32 chunks, enough for
two clients. -/
theorem pool_sufficient_two :
    ∃ s₀ : Service 1 1, Service.create 1 1 ⟨16⟩ = some s₀
      ∧ ∀ s, Reach Service.step (load 2 16) s₀ s → ∀ a, load 2 16 s a → s.fails a = false := by
  have hcreate : (Service.create 1 1 ⟨16⟩).isSome = true := by decide
  obtain ⟨s₀, hs₀⟩ := Option.isSome_iff_exists.mp hcreate
  exact ⟨s₀, hs₀, (pool_sufficient_iff 2 16 (by decide) s₀ hs₀).mpr (by decide)⟩

/-- Of the 8 clients of the default, three send: two of them all they may. -/
def manySends : List (Act 1 1) :=
  List.replicate 3 .createClient
    ++ (List.replicate 16
      [.client 0 (.send (fun _ => 0#8)), .client 0 .next, .client 0 .next]).flatten
    ++ (List.replicate 16
      [.client 1 (.send (fun _ => 0#8)), .client 1 .next, .client 1 .next]).flatten

/-- **With the defaults a third client's first send finds no memory**, although
every client keeps to the load. -/
theorem pool_exhausted :
    ∃ s₀ s : Service 1 1, Service.create 1 1 ⟨16⟩ = some s₀
      ∧ Reach Service.step (load 8 16) s₀ s ∧ load 8 16 s (.client 2 (.send (fun _ => 0#8)))
      ∧ s.fails (.client 2 (.send (fun _ => 0#8))) = true := by
  have hrun : ((Service.create 1 1 ⟨16⟩).bind (fun s₀ =>
      execOk Service.step (load 8 16) s₀ manySends)).map (fun s =>
        decide (load 8 16 s (.client 2 (.send (fun _ => 0#8))))
        && s.fails (.client 2 (.send (fun _ => 0#8)))) = some true := by decide
  obtain ⟨s, hs, hend⟩ := Option.map_eq_some_iff.mp hrun
  obtain ⟨s₀, hcreate, hexec⟩ := Option.bind_eq_some_iff.mp hs
  rw [Bool.and_eq_true] at hend
  exact ⟨s₀, s, hcreate, Reach.of_execOk manySends .refl hexec, of_decide_eq_true hend.1, hend.2⟩

end Entangle.ReqRes
