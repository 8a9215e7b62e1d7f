/-
  Entangle.ReqRes.Ownership — who owns which chunk of the shared segment.

  A chunk in use is being written or read by one client or by the server, or
  it is in one of the queues; the six kinds of places are `Place`.  No chunk is
  in two of them (`Apart`), and none of the free chunks is in any.  A chunk
  whose push failed is in none of them and not free either.

  Main result: `Owned.step`.
-/
import Entangle.Lib.Ownership
import Entangle.Lib.Tables
import Entangle.ReqRes.Service

namespace Entangle.ReqRes

open Entangle.Lib Entangle.Transport

variable {reqSize resSize : Nat}

/-! ## §1. Places. -/

inductive ClientPart where
  | writing
  | requestQueue
  | responseQueue
  | reading
  deriving Repr, DecidableEq

inductive ServerPart where
  | reading
  | writing
  deriving Repr, DecidableEq

/-- Where a chunk that is not free can be. -/
inductive Place where
  | client (c : Nat) (part : ClientPart)
  | server (part : ServerPart)
  deriving Repr, DecidableEq

def ClientPc.held : ClientPc reqSize resSize → ClientPart → List PointerOffset
  | .writing offset _, .writing => [offset]
  | .pushing offset _, .writing => [offset]
  | .reading _ offset, .reading => [offset]
  | .releasing _ offset _, .reading => [offset]
  | _, _ => []

def Client.held (cl : Client reqSize resSize) : ClientPart → List PointerOffset
  | .requestQueue => cl.requestChannel.pending
  | .responseQueue => cl.responseChannel.pending
  | part => cl.pc.held part

def ServerPc.held : ServerPc reqSize resSize → ServerPart → List PointerOffset
  | .reading _ offset, .reading => [offset]
  | .releasing _ offset _, .reading => [offset]
  | .writing _ offset _, .writing => [offset]
  | .pushing _ offset _, .writing => [offset]
  | _, _ => []

/-- The offsets at a place. -/
def Service.held (s : Service reqSize resSize) : Place → List PointerOffset
  | .client c part =>
      match s.clients[c]? with
      | some cl => cl.held part
      | none => []
  | .server part => s.server.held part

theorem held_client {s : Service reqSize resSize} {c : Nat} {cl : Client reqSize resSize}
    (hc : s.clients[c]? = some cl) (part : ClientPart) :
    s.held (.client c part) = cl.held part := by
  simp only [Service.held, hc]

theorem held_of_writing {s : Service reqSize resSize} {c : Nat} {cl : Client reqSize resSize}
    {offset : PointerOffset} {request : Payload reqSize} (hc : s.clients[c]? = some cl)
    (hpc : cl.pc = .writing offset request) : offset ∈ s.held (.client c .writing) := by
  rw [held_client hc]
  simp [Client.held, ClientPc.held, hpc]

theorem held_of_releasing {s : Service reqSize resSize} {c handle : Nat}
    {cl : Client reqSize resSize} {offset : PointerOffset} {response : Payload resSize}
    (hc : s.clients[c]? = some cl) (hpc : cl.pc = .releasing handle offset response) :
    offset ∈ s.held (.client c .reading) := by
  rw [held_client hc]
  simp [Client.held, ClientPc.held, hpc]

theorem held_client_self {s s' : Service reqSize resSize} {c : Nat}
    {cl cl' : Client reqSize resSize} (hc : s.clients[c]? = some cl)
    (hclients : s'.clients = s.clients.set c cl') (part : ClientPart) :
    s'.held (.client c part) = cl'.held part := by
  apply held_client
  rw [hclients, List.getElem?_set_self (List.getElem?_eq_some_iff.mp hc).1]

theorem held_client_ne {s s' : Service reqSize resSize} {c d : Nat} {cl' : Client reqSize resSize}
    (hclients : s'.clients = s.clients.set c cl') (hne : c ≠ d) (part : ClientPart) :
    s'.held (.client d part) = s.held (.client d part) := by
  simp only [Service.held, hclients, List.getElem?_set_ne hne]

/-! ## §2. Moves. -/

section Moves

variable {s s' : Service reqSize resSize} {ok ok' : PointerOffset → Prop} {c : Nat}
  {cl cl' : Client reqSize resSize} (x : PointerOffset)

/-- What a client does to its own places leaves the others alone. -/
theorem held_other (hc : s.clients[c]? = some cl) (hclients : s'.clients = s.clients.set c cl')
    {q : ClientPart → Prop} (hsame : ∀ part, ¬ q part → cl'.held part = cl.held part) {p : Place}
    (hserver : ∀ part, p = .server part → s'.server.held part = s.server.held part)
    (hp : ∀ part, p = .client c part → ¬ q part) : s'.held p = s.held p := by
  cases p with
  | client d part =>
      by_cases hd : c = d
      · subst hd
        rw [held_client_self hc hclients, held_client hc]
        exact hsame part (hp part rfl)
      · exact held_client_ne hclients hd part
  | server part => exact hserver part rfl

/-- Nothing moves. -/
theorem apart_same (h : Apart ok s.held) (hc : s.clients[c]? = some cl)
    (hclients : s'.clients = s.clients.set c cl') (hserver : s'.server = s.server)
    (hsame : ∀ part, cl'.held part = cl.held part) : Apart ok s'.held := by
  refine h.congr (fun p => ?_)
  refine held_other hc hclients (q := fun _ => False) (fun part _ => hsame part) ?_ ?_
  · intro part _
    rw [hserver]
  · exact fun _ _ hf => hf

/-- A chunk moves from one place of a client to another. -/
theorem apart_client_move (src dst : ClientPart) (h : Apart ok s.held)
    (hc : s.clients[c]? = some cl)
    (hclients : s'.clients = s.clients.set c cl') (hserver : s'.server = s.server)
    (hne : src ≠ dst) (hsrc : (cl.held src).Perm (x :: cl'.held src))
    (hdst : (cl'.held dst).Perm (x :: cl.held dst))
    (hsame : ∀ part, part ≠ src → part ≠ dst → cl'.held part = cl.held part) :
    Apart ok s'.held := by
  have hsrc' : (s.held (.client c src)).Perm (x :: s'.held (.client c src)) := by
    rw [held_client hc, held_client_self hc hclients]
    exact hsrc
  have hdst' : (s'.held (.client c dst)).Perm (x :: s.held (.client c dst)) := by
    rw [held_client hc, held_client_self hc hclients]
    exact hdst
  refine h.move (fun he => hne (by injection he)) hsrc' hdst' (fun p hp hp' => ?_)
  refine held_other hc hclients (q := fun part => part = src ∨ part = dst) ?_ ?_ ?_
  · exact fun part hq => hsame part (fun he => hq (.inl he)) (fun he => hq (.inr he))
  · intro part _
    rw [hserver]
  · intro part he hq
    rcases hq with rfl | rfl
    · exact hp he
    · exact hp' he

/-- A client gets a chunk that nobody holds. -/
theorem apart_client_add (dst : ClientPart) (h : Apart ok s.held) (hc : s.clients[c]? = some cl)
    (hclients : s'.clients = s.clients.set c cl') (hserver : s'.server = s.server)
    (hnew : ∀ p, x ∉ s.held p) (hok : ∀ y, ok y → ok' y) (hx : ok' x)
    (hdst : (cl'.held dst).Perm (x :: cl.held dst))
    (hsame : ∀ part, part ≠ dst → cl'.held part = cl.held part) : Apart ok' s'.held := by
  have hdst' : (s'.held (.client c dst)).Perm (x :: s.held (.client c dst)) := by
    rw [held_client hc, held_client_self hc hclients]
    exact hdst
  refine h.add hnew hok hx hdst' (fun p hp => ?_)
  refine held_other hc hclients (q := fun part => part = dst) hsame ?_ ?_
  · intro part _
    rw [hserver]
  · intro part he hq
    subst hq
    exact hp he

/-- A client lets go of a chunk. -/
theorem apart_client_remove (src : ClientPart) (h : Apart ok s.held) (hc : s.clients[c]? = some cl)
    (hclients : s'.clients = s.clients.set c cl') (hserver : s'.server = s.server)
    (hok : ∀ y, ok y → y ≠ x → ok' y)
    (hsrc : (cl.held src).Perm (x :: cl'.held src))
    (hsame : ∀ part, part ≠ src → cl'.held part = cl.held part) : Apart ok' s'.held := by
  have hsrc' : (s.held (.client c src)).Perm (x :: s'.held (.client c src)) := by
    rw [held_client hc, held_client_self hc hclients]
    exact hsrc
  refine (h.remove hsrc' hok (fun p hp => ?_)).1
  refine held_other hc hclients (q := fun part => part = src) hsame ?_ ?_
  · intro part _
    rw [hserver]
  · intro part he hq
    subst hq
    exact hp he

/-- The server gets a chunk that nobody holds. -/
theorem apart_server_add (dst : ServerPart) (h : Apart ok s.held)
    (hclients : s'.clients = s.clients) (hnew : ∀ p, x ∉ s.held p) (hok : ∀ y, ok y → ok' y)
    (hx : ok' x)
    (hdst : (s'.server.held dst).Perm (x :: s.server.held dst))
    (hsame : ∀ part, part ≠ dst → s'.server.held part = s.server.held part) :
    Apart ok' s'.held := by
  have hdst' : (s'.held (.server dst)).Perm (x :: s.held (.server dst)) := hdst
  refine h.add hnew hok hx hdst' (fun p hp => ?_)
  cases p with
  | client d part =>
      simp only [Service.held, hclients]
  | server part => exact hsame part (fun he => hp (by rw [he]))

/-- The server lets go of a chunk; client `c` keeps its places. -/
theorem apart_server_remove (src : ServerPart) (h : Apart ok s.held)
    (hc : s.clients[c]? = some cl) (hclients : s'.clients = s.clients.set c cl')
    (hok : ∀ y, ok y → y ≠ x → ok' y)
    (hsrc : (s.server.held src).Perm (x :: s'.server.held src))
    (hsame : ∀ part, part ≠ src → s'.server.held part = s.server.held part)
    (hsame' : ∀ part, cl'.held part = cl.held part) : Apart ok' s'.held := by
  have hsrc' : (s.held (.server src)).Perm (x :: s'.held (.server src)) := hsrc
  refine (h.remove hsrc' hok (fun p hp => ?_)).1
  refine held_other hc hclients (q := fun _ => False) (fun part _ => hsame' part) ?_ ?_
  · intro part he
    exact hsame part (fun he' => hp (by rw [he, he']))
  · exact fun _ _ hf => hf

/-- The server takes a chunk from a client's place. -/
theorem apart_to_server (src : ClientPart) (dst : ServerPart) (h : Apart ok s.held)
    (hc : s.clients[c]? = some cl) (hclients : s'.clients = s.clients.set c cl')
    (hsrc : (cl.held src).Perm (x :: cl'.held src))
    (hsame : ∀ part, part ≠ src → cl'.held part = cl.held part)
    (hdst : (s'.server.held dst).Perm (x :: s.server.held dst))
    (hsame' : ∀ part, part ≠ dst → s'.server.held part = s.server.held part) :
    Apart ok s'.held := by
  have hsrc' : (s.held (.client c src)).Perm (x :: s'.held (.client c src)) := by
    rw [held_client hc, held_client_self hc hclients]
    exact hsrc
  have hdst' : (s'.held (.server dst)).Perm (x :: s.held (.server dst)) := hdst
  refine h.move (by simp) hsrc' hdst' (fun p hp hp' => ?_)
  refine held_other hc hclients (q := fun part => part = src) hsame ?_ ?_
  · intro part he
    exact hsame' part (fun he' => hp' (by rw [he, he']))
  · intro part he hq
    subst hq
    exact hp he

/-- The server puts a chunk into a client's place. -/
theorem apart_to_client (src : ServerPart) (dst : ClientPart) (h : Apart ok s.held)
    (hc : s.clients[c]? = some cl) (hclients : s'.clients = s.clients.set c cl')
    (hsrc : (s.server.held src).Perm (x :: s'.server.held src))
    (hsame : ∀ part, part ≠ src → s'.server.held part = s.server.held part)
    (hdst : (cl'.held dst).Perm (x :: cl.held dst))
    (hsame' : ∀ part, part ≠ dst → cl'.held part = cl.held part) : Apart ok s'.held := by
  have hsrc' : (s.held (.server src)).Perm (x :: s'.held (.server src)) := hsrc
  have hdst' : (s'.held (.client c dst)).Perm (x :: s.held (.client c dst)) := by
    rw [held_client hc, held_client_self hc hclients]
    exact hdst
  refine h.move (by simp) hsrc' hdst' (fun p hp hp' => ?_)
  refine held_other hc hclients (q := fun part => part = dst) hsame' ?_ ?_
  · intro part he
    exact hsame part (fun he' => hp (by rw [he, he']))
  · intro part he hq
    subst hq
    exact hp' he

end Moves

/-! ## §3. The invariant. -/

/-- **The ownership invariant**, with `l` the free list: a chunk is free or in one of the
places of `held`, and in one of them only. -/
structure Owned (s : Service reqSize resSize) (l : List U32) : Prop where
  free : s.segment.Free l
  fitsReq : reqSize ≤ s.segment.layout.chunkSize
  fitsRes : resSize ≤ s.segment.layout.chunkSize
  ready : ∀ cl ∈ s.clients, cl.requestChannel.Ready ∧ cl.responseChannel.Ready
  apart : Apart (Taken s.segment.layout l) s.held

/-- The sizes do not change, so they need not be looked at again. -/
theorem Owned.update {s s' : Service reqSize resSize} {l l' : List U32} (h : Owned s l)
    (hlayout : s'.segment.layout = s.segment.layout) (hfree : s'.segment.Free l')
    (hready : ∀ cl ∈ s'.clients, cl.requestChannel.Ready ∧ cl.responseChannel.Ready)
    (hapart : Apart (Taken s'.segment.layout l') s'.held) : Owned s' l' where
  free := hfree
  fitsReq := by
    rw [hlayout]
    exact h.fitsReq
  fitsRes := by
    rw [hlayout]
    exact h.fitsRes
  ready := hready
  apart := hapart

/-- The channels are in order if those of the one client that moved are. -/
theorem ready_set {clients : List (Client reqSize resSize)} {c : Nat}
    {cl' : Client reqSize resSize}
    (h : ∀ cl ∈ clients, cl.requestChannel.Ready ∧ cl.responseChannel.Ready)
    (h' : cl'.requestChannel.Ready ∧ cl'.responseChannel.Ready) :
    ∀ cl ∈ clients.set c cl', cl.requestChannel.Ready ∧ cl.responseChannel.Ready := by
  intro cl hcl
  rcases List.mem_or_eq_of_mem_set hcl with hcl | rfl
  · exact h cl hcl
  · exact h'

/-- The first free chunk is nobody's. -/
theorem Owned.not_held_of_free {s : Service reqSize resSize} {i : U32} {l : List U32}
    (h : Owned s (i :: l)) (p : Place) : s.segment.layout.chunk i ∉ s.held p := by
  intro hmem
  exact (h.apart.allowed p _ hmem).ne_free (h.free.lt List.mem_cons_self) rfl

/-- A chunk that is given back stays apart from those still in use. -/
theorem taken_cons {layout layout' : Layout} {i : U32} {l : List U32} (he : layout' = layout)
    (y : PointerOffset) (hy : Taken layout l y) (hne : y ≠ layout.chunk i) :
    Taken layout' (i :: l) y := by
  rw [he]
  exact hy.cons hne

theorem Owned.client {s : Service reqSize resSize} {l : List U32} (h : Owned s l) {c : Nat}
    {a : ClientAct reqSize} {cl cl' : Client reqSize resSize} {segment : DataSegment}
    (hc : s.clients[c]? = some cl) (hstep : ClientStep s.segment cl a segment cl') :
    ∃ l', Owned { s.setClient c cl' with segment := segment } l' := by
  obtain ⟨hreq, hres⟩ := h.ready cl (List.mem_of_getElem? hc)
  cases hstep with
  | sendFailed request _ =>
      refine ⟨l, h.update rfl h.free (ready_set h.ready ⟨hreq, hres⟩) ?_⟩
      exact apart_same h.apart hc rfl rfl (fun _ => rfl)
  | sendBegun request offset _ hpc halloc =>
      obtain ⟨i, rest, rfl, rfl, hfree, hlayout, _⟩ := h.free.allocated halloc
      have hfresh : Taken segment.layout rest (s.segment.layout.chunk i) := by
        rw [hlayout]
        exact ⟨i, h.free.lt List.mem_cons_self, (List.nodup_cons.mp h.free.list.nodup).1, rfl⟩
      refine ⟨rest, h.update hlayout hfree (ready_set h.ready ⟨hreq, hres⟩) ?_⟩
      refine apart_client_add _ .writing h.apart hc rfl rfl h.not_held_of_free ?_ hfresh ?_ ?_
      · intro y hy
        show Taken segment.layout rest y
        rw [hlayout]
        exact hy.of_cons
      · simp [Client.held, ClientPc.held, hpc]
      · intro part hpart
        cases part <;> simp_all [Client.held, ClientPc.held]
  | pollEmpty handle e channel _ hrecv =>
      obtain ⟨rfl, _⟩ := ZeroCopyChannel.receive_err hres hrecv
      refine ⟨l, h.update rfl h.free (ready_set h.ready ⟨hreq, hres⟩) ?_⟩
      exact apart_same h.apart hc rfl rfl (fun _ => rfl)
  | polled handle offset channel hpc _ hrecv =>
      obtain ⟨hready, hpend⟩ := ZeroCopyChannel.receive_ok hres hrecv
      refine ⟨l, h.update rfl h.free (ready_set h.ready ⟨hreq, hready⟩) ?_⟩
      refine apart_client_move offset .responseQueue .reading h.apart hc rfl rfl
        (by simp) ?_ ?_ ?_
      · show cl.responseChannel.pending.Perm (offset :: channel.pending)
        rw [hpend]
      · simp [Client.held, ClientPc.held, hpc]
      · intro part hsrc hdst
        cases part <;> simp_all [Client.held, ClientPc.held]
  | written offset request hpc =>
      refine ⟨l, h.update rfl (h.free.write _ _) (ready_set h.ready ⟨hreq, hres⟩) ?_⟩
      refine apart_same h.apart hc rfl rfl (fun part => ?_)
      cases part <;> simp [Client.held, ClientPc.held, hpc]
  | pushed offset request u channel hpc hsend =>
      obtain ⟨hready, hpend⟩ := ZeroCopyChannel.send_ok hreq hsend
      refine ⟨l, h.update rfl h.free (ready_set h.ready ⟨hready, hres⟩) ?_⟩
      refine apart_client_move offset .writing .requestQueue h.apart hc rfl rfl
        (by simp) ?_ ?_ ?_
      · simp [Client.held, ClientPc.held, hpc]
      · show channel.pending.Perm (offset :: cl.requestChannel.pending)
        rw [hpend]
        exact List.perm_append_singleton _ _
      · intro part hsrc hdst
        cases part <;> simp_all [Client.held, ClientPc.held]
  | pushFailed offset request e channel hpc hsend =>
      obtain rfl := ZeroCopyChannel.send_err hreq hsend
      refine ⟨l, h.update rfl h.free (ready_set h.ready ⟨hreq, hres⟩) ?_⟩
      -- the chunk is lost: nobody holds it, and it is not free
      refine apart_client_remove offset .writing h.apart hc rfl rfl (fun _ hy _ => hy) ?_ ?_
      · simp [Client.held, ClientPc.held, hpc]
      · intro part hsrc
        cases part <;> simp_all [Client.held, ClientPc.held]
  | copied handle offset hpc =>
      refine ⟨l, h.update rfl h.free (ready_set h.ready ⟨hreq, hres⟩) ?_⟩
      refine apart_same h.apart hc rfl rfl (fun part => ?_)
      cases part <;> simp [Client.held, ClientPc.held, hpc]
  | taken handle offset response _ hpc hdealloc =>
      have hmem := held_of_releasing hc hpc
      obtain ⟨i, rfl, hfree, hlayout, _⟩ :=
        h.free.deallocated (h.apart.allowed _ _ hmem) hdealloc
      refine ⟨i :: l, h.update hlayout hfree (ready_set h.ready ⟨hreq, hres⟩) ?_⟩
      refine apart_client_remove _ .reading h.apart hc rfl rfl (taken_cons hlayout) ?_ ?_
      · simp [Client.held, ClientPc.held, hpc]
      · intro part hsrc
        cases part <;> simp_all [Client.held, ClientPc.held]

/-- Nothing moves between the places of the server. -/
theorem apart_server_same {s s' : Service reqSize resSize} {ok : PointerOffset → Prop}
    (h : Apart ok s.held) (hclients : s'.clients = s.clients)
    (hserver : ∀ part, s'.server.held part = s.server.held part) : Apart ok s'.held := by
  refine h.congr (fun p => ?_)
  cases p with
  | client c part => simp only [Service.held, hclients]
  | server part => exact hserver part

/-- A new client holds nothing. -/
theorem create_held (qos : ReqResQos) (part : ClientPart) :
    (Client.create qos : Client reqSize resSize).held part = [] := by
  cases part with
  | writing => rfl
  | requestQueue => exact ZeroCopyChannel.new_pending _
  | responseQueue => exact ZeroCopyChannel.new_pending _
  | reading => rfl

theorem Owned.createClient {s : Service reqSize resSize} {l : List U32} (h : Owned s l) :
    Owned { s with clients := s.clients ++ [Client.create s.qos] } l := by
  refine h.update rfl h.free ?_ (h.apart.congr (fun p => ?_))
  · intro cl hcl
    rcases List.mem_append.mp hcl with hcl | hcl
    · exact h.ready cl hcl
    · rw [List.mem_singleton.mp hcl]
      exact ⟨ZeroCopyChannel.new_ready _, ZeroCopyChannel.new_ready _⟩
  · cases p with
    | client c part =>
        unfold Service.held
        exact concat_default
          (fun o : Option (Client reqSize resSize) => match o with
            | some cl => cl.held part
            | none => [])
          (create_held s.qos part) c
    | server part => rfl

/-- **The step lemma**: ownership is kept. -/
theorem Owned.step {s s' : Service reqSize resSize} {l : List U32} {a : Act reqSize resSize}
    (h : Owned s l) (hstep : ServiceStep s a s') : ∃ l', Owned s' l' := by
  cases hstep with
  | createClient _ => exact ⟨l, h.createClient⟩
  | client c a cl cl' segment hc hstep => exact h.client hc hstep
  | receiveNothing => exact ⟨l, h⟩
  | receive hpc =>
      refine ⟨l, h.update rfl h.free h.ready (apart_server_same h.apart rfl (fun part => ?_))⟩
      cases part <;> simp [ServerPc.held, hpc]
  | popped k cl offset channel hpc hc hrecv =>
      obtain ⟨hreq, hres⟩ := h.ready cl (List.mem_of_getElem? hc)
      obtain ⟨hready, hpend⟩ := ZeroCopyChannel.receive_ok hreq hrecv
      refine ⟨l, h.update rfl h.free (ready_set h.ready ⟨hready, hres⟩) ?_⟩
      refine apart_to_server offset .requestQueue .reading h.apart hc rfl ?_ ?_ ?_ ?_
      · show cl.requestChannel.pending.Perm (offset :: channel.pending)
        rw [hpend]
      · intro part hsrc
        cases part <;> simp_all [Client.held]
      · simp [ServerPc.held, hpc]
      · intro part hdst
        cases part <;> simp_all [ServerPc.held]
  | passed k cl e channel pc hpc hc hrecv hpc' =>
      obtain ⟨hreq, hres⟩ := h.ready cl (List.mem_of_getElem? hc)
      obtain ⟨rfl, _⟩ := ZeroCopyChannel.receive_err hreq hrecv
      refine ⟨l, h.update rfl h.free (ready_set h.ready ⟨hreq, hres⟩)
        (apart_server_same h.apart (set_same hc) (fun part => ?_))⟩
      rcases hpc' with rfl | ⟨j, rfl⟩
      · cases part <;> simp [ServerPc.held, hpc]
      · cases part <;> simp [ServerPc.held, hpc]
  | copied k offset hpc =>
      refine ⟨l, h.update rfl h.free h.ready (apart_server_same h.apart rfl (fun part => ?_))⟩
      cases part <;> simp [ServerPc.held, hpc]
  | received k offset request cl segment hpc hc hdealloc =>
      obtain ⟨hreq, hres⟩ := h.ready cl (List.mem_of_getElem? hc)
      have hmem : offset ∈ s.held (.server .reading) := by
        simp [Service.held, ServerPc.held, hpc]
      obtain ⟨i, rfl, hfree, hlayout, _⟩ :=
        h.free.deallocated (h.apart.allowed _ _ hmem) hdealloc
      refine ⟨i :: l, h.update hlayout hfree (ready_set h.ready ⟨hreq, hres⟩) ?_⟩
      refine apart_server_remove _ .reading h.apart hc rfl (taken_cons hlayout) ?_ ?_ ?_
      · simp [ServerPc.held, hpc]
      · intro part hsrc
        cases part <;> simp_all [ServerPc.held]
      · intro part
        cases part <;> rfl
  | respondFailed r response hpc _ =>
      exact ⟨l, h.update rfl h.free h.ready (apart_server_same h.apart rfl (fun _ => rfl))⟩
  | respondBegun r response offset segment hpc _ halloc =>
      obtain ⟨i, rest, rfl, rfl, hfree, hlayout, _⟩ := h.free.allocated halloc
      have hfresh : Taken segment.layout rest (s.segment.layout.chunk i) := by
        rw [hlayout]
        exact ⟨i, h.free.lt List.mem_cons_self, (List.nodup_cons.mp h.free.list.nodup).1, rfl⟩
      refine ⟨rest, h.update hlayout hfree h.ready ?_⟩
      refine apart_server_add _ .writing h.apart rfl h.not_held_of_free ?_ hfresh ?_ ?_
      · intro y hy
        show Taken segment.layout rest y
        rw [hlayout]
        exact hy.of_cons
      · simp [ServerPc.held, hpc]
      · intro part hdst
        cases part <;> simp_all [ServerPc.held]
  | dropRequest r _ _ =>
      exact ⟨l, h.update rfl h.free h.ready (apart_server_same h.apart rfl (fun _ => rfl))⟩
  | written r offset response hpc =>
      refine ⟨l, h.update rfl (h.free.write _ _) h.ready
        (apart_server_same h.apart rfl (fun part => ?_))⟩
      cases part <;> simp [ServerPc.held, hpc]
  | answered r offset response cl u channel hpc hc hsend =>
      obtain ⟨hreq, hres⟩ := h.ready cl (List.mem_of_getElem? hc)
      obtain ⟨hready, hpend⟩ := ZeroCopyChannel.send_ok hres hsend
      refine ⟨l, h.update rfl h.free (ready_set h.ready ⟨hreq, hready⟩) ?_⟩
      refine apart_to_client offset .writing .responseQueue h.apart hc rfl ?_ ?_ ?_ ?_
      · simp [ServerPc.held, hpc]
      · intro part hsrc
        cases part <;> simp_all [ServerPc.held]
      · show channel.pending.Perm (offset :: cl.responseChannel.pending)
        rw [hpend]
        exact List.perm_append_singleton _ _
      · intro part hdst
        cases part <;> simp_all [Client.held]
  | answerFailed r offset response cl e channel hpc hc hsend =>
      obtain ⟨hreq, hres⟩ := h.ready cl (List.mem_of_getElem? hc)
      obtain rfl := ZeroCopyChannel.send_err hres hsend
      refine ⟨l, h.update rfl h.free (ready_set h.ready ⟨hreq, hres⟩) ?_⟩
      refine apart_server_remove offset .writing h.apart hc rfl (fun _ hy _ => hy) ?_ ?_ ?_
      · simp [ServerPc.held, hpc]
      · intro part hsrc
        cases part <;> simp_all [ServerPc.held]
      · intro part
        cases part <;> rfl

theorem create_owned {qos : ReqResQos} {s : Service reqSize resSize}
    (h : Service.create reqSize resSize qos = some s) : ∃ l, Owned s l := by
  obtain ⟨seg, hseg, rfl⟩ := Option.map_eq_some_iff.mp h
  obtain ⟨hfree, _, hchunk⟩ := DataSegment.create_free hseg
  have hheld : ∀ p, (⟨qos, seg, [], .idle, []⟩ : Service reqSize resSize).held p = [] := by
    intro p
    cases p with
    | client c part => rfl
    | server part => cases part <;> rfl
  refine ⟨_, ⟨hfree, ?_, ?_, fun cl hcl => absurd hcl (by simp), ?_⟩⟩
  · show reqSize ≤ seg.layout.chunkSize
    rw [hchunk, DataSegment.aligned]
    omega
  · show resSize ≤ seg.layout.chunkSize
    rw [hchunk, DataSegment.aligned]
    omega
  · refine ⟨fun p => ?_, fun p q x hp => ?_, fun p x hp => ?_⟩
    · rw [hheld]
      exact List.nodup_nil
    · rw [hheld] at hp
      exact absurd hp (by simp)
    · rw [hheld] at hp
      exact absurd hp (by simp)

/-- Every reachable state has its chunks in order. -/
theorem owned_of_reach {ok : Service reqSize resSize → Act reqSize resSize → Prop}
    {qos : ReqResQos} {s₀ s : Service reqSize resSize}
    (hcreate : Service.create reqSize resSize qos = some s₀)
    (hs : Reach Service.step ok s₀ s) : ∃ l, Owned s l := by
  refine hs.invariant (fun s => ∃ l, Owned s l) (create_owned hcreate) ?_
  intro t a t' hI _ hstep
  obtain ⟨l, hl⟩ := hI
  exact hl.step (step_cases hstep)

end Entangle.ReqRes
