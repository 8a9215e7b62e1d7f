/-
  Entangle.ReqRes.Correlation — is the response a handle returns the one given
  to its request?

  Not with two requests in flight: all handles of a client take from one queue,
  so the second handle, polled first, gets the first answer
  (`response_mismatched`).  A poll returns the oldest response not yet taken,
  whatever the handle; the handles get their own responses as long as each is
  polled when that oldest response is its own (`responses_correlated`).
-/
import Entangle.ReqRes.Streams

namespace Entangle.ReqRes

open Entangle.Lib Entangle.Transport

variable {reqSize resSize : Nat}

/-! ## §1. Every request has a number, and at most one answer. -/

/-- The request is identified by its client and its number there. -/
def ActiveRequest.key (r : ActiveRequest reqSize) : Nat × Nat := (r.client, r.index)

/-- The request inside `respond`. -/
def ServerPc.responding : ServerPc reqSize resSize → List (ActiveRequest reqSize)
  | .writing r _ _ => [r]
  | .pushing r _ _ => [r]
  | _ => []

def Service.unanswered (s : Service reqSize resSize) : List (ActiveRequest reqSize) :=
  s.active ++ s.server.responding

/-- The request is one its client has sent, and has no answer yet. -/
def Awaits (clients : List (Client reqSize resSize)) (r : ActiveRequest reqSize) : Prop :=
  ∃ cl, clients[r.client]? = some cl ∧ cl.received[r.index]? = some r.request
    ∧ r.index ∉ cl.answered.map Prod.fst

/-- Active requests are distinct, each awaits its answer at its client, and no request is
answered twice or before it was received. -/
structure Numbered (s : Service reqSize resSize) : Prop where
  distinct : (s.unanswered.map ActiveRequest.key).Nodup
  awaits : ∀ r ∈ s.unanswered, Awaits s.clients r
  once : ∀ cl ∈ s.clients, (cl.answered.map Prod.fst).Nodup
  below : ∀ cl ∈ s.clients, ∀ n ∈ cl.answered.map Prod.fst, n < cl.received.length

/-- The clients have received and been answered the same, new ones nothing. -/
structure SameAnswers (clients clients' : List (Client reqSize resSize)) : Prop where
  kept : ∀ (c : Nat) (cl : Client reqSize resSize), clients[c]? = some cl →
    ∃ cl' : Client reqSize resSize, clients'[c]? = some cl' ∧ cl'.received = cl.received
      ∧ cl'.answered = cl.answered
  back : ∀ cl' ∈ clients', cl'.answered = []
    ∨ ∃ cl ∈ clients, cl'.received = cl.received ∧ cl'.answered = cl.answered

theorem SameAnswers.refl (clients : List (Client reqSize resSize)) : SameAnswers clients clients :=
  ⟨fun _ cl hc => ⟨cl, hc, rfl, rfl⟩, fun cl hcl => .inr ⟨cl, hcl, rfl, rfl⟩⟩

theorem SameAnswers.set {clients : List (Client reqSize resSize)} {c : Nat}
    {cl cl' : Client reqSize resSize} (hc : clients[c]? = some cl)
    (hrecv : cl'.received = cl.received) (hansw : cl'.answered = cl.answered) :
    SameAnswers clients (clients.set c cl') := by
  constructor
  · intro d m hd
    rcases set_of_some cl' hc hd with ⟨rfl, rfl, hset⟩ | ⟨_, hset⟩
    · exact ⟨cl', hset, hrecv, hansw⟩
    · exact ⟨m, hset, rfl, rfl⟩
  · intro m hm
    rcases List.mem_or_eq_of_mem_set hm with hm | rfl
    · exact .inr ⟨m, hm, rfl, rfl⟩
    · exact .inr ⟨cl, List.mem_of_getElem? hc, hrecv, hansw⟩

/-- No request gets a number or an answer; some may be dropped. -/
theorem Numbered.update {s s' : Service reqSize resSize} (h : Numbered s)
    (hsub : s'.unanswered.Subperm s.unanswered) (hsame : SameAnswers s.clients s'.clients) :
    Numbered s' where
  distinct := by
    obtain ⟨l, hperm, hl⟩ := hsub
    have hnodup := h.distinct.sublist (hl.map ActiveRequest.key)
    exact (hperm.map ActiveRequest.key).nodup_iff.mp hnodup
  awaits := by
    intro r hr
    obtain ⟨cl, hc, hrecv, hansw⟩ := h.awaits r (hsub.subset hr)
    obtain ⟨cl', hc', hrecv', hansw'⟩ := hsame.kept _ cl hc
    refine ⟨cl', hc', ?_, ?_⟩
    · rw [hrecv']
      exact hrecv
    · rw [hansw']
      exact hansw
  once := by
    intro cl' hcl'
    rcases hsame.back cl' hcl' with hnil | ⟨cl, hcl, _, hansw⟩
    · rw [hnil]
      exact List.nodup_nil
    · rw [hansw]
      exact h.once cl hcl
  below := by
    intro cl' hcl'
    rcases hsame.back cl' hcl' with hnil | ⟨cl, hcl, hrecv, hansw⟩
    · rw [hnil]
      exact fun n hn => absurd hn (by simp)
    · rw [hansw, hrecv]
      exact h.below cl hcl

/-- A client's own step changes neither what was received from it nor its answers. -/
theorem client_step_same {segment segment' : DataSegment} {cl cl' : Client reqSize resSize}
    {a : ClientAct reqSize} (hstep : ClientStep segment cl a segment' cl') :
    cl'.received = cl.received ∧ cl'.answered = cl.answered := by
  cases hstep <;> exact ⟨rfl, rfl⟩

/-- A request gets the next number of its client. -/
theorem Numbered.received {s : Service reqSize resSize} (h : Numbered s) {k : Nat}
    {offset : PointerOffset} {request : Payload reqSize} {cl : Client reqSize resSize}
    (segment : DataSegment) (hpc : s.server = .releasing k offset request)
    (hc : s.clients[k]? = some cl) :
    Numbered
      { s.setClient k { cl with received := cl.received ++ [request] } with
        segment := segment
        server := .idle
        active := s.active ++ [⟨k, cl.received.length, request⟩] } := by
  have hlt := (List.getElem?_eq_some_iff.mp hc).1
  have hmem := List.mem_of_getElem? hc
  have hopen : s.unanswered = s.active := by
    unfold Service.unanswered
    rw [hpc]
    exact List.append_nil _
  have hdistinct := h.distinct
  have hawaits := h.awaits
  rw [hopen] at hdistinct hawaits
  constructor
  · show ((s.active ++ [_] ++ []).map ActiveRequest.key).Nodup
    rw [List.append_nil, List.map_append, List.map_singleton]
    refine (List.perm_append_singleton _ _).nodup_iff.mpr (List.nodup_cons.mpr ⟨?_, hdistinct⟩)
    -- a request with that number would already have been received
    intro hkey
    obtain ⟨r, hr, he⟩ := List.mem_map.mp hkey
    obtain ⟨cl₁, hc₁, hrecv, _⟩ := hawaits r hr
    injection he with hclient hindex
    rw [hclient, hc] at hc₁
    obtain rfl := Option.some.inj hc₁
    rw [hindex, List.getElem?_eq_none (Nat.le_refl _)] at hrecv
    exact absurd hrecv (by simp)
  · intro r hr
    have hr' : r ∈ s.active ++ [⟨k, cl.received.length, request⟩] ++ [] := hr
    rw [List.append_nil] at hr'
    rcases List.mem_append.mp hr' with hr' | hr'
    · obtain ⟨cl₁, hc₁, hrecv, hansw⟩ := hawaits r hr'
      rcases set_of_some { cl with received := cl.received ++ [request] } hc hc₁ with
        ⟨_, rfl, hset⟩ | ⟨_, hset⟩
      · exact ⟨_, hset, append_of_some [request] hrecv, hansw⟩
      · exact ⟨cl₁, hset, hrecv, hansw⟩
    · rw [List.mem_singleton.mp hr']
      refine ⟨{ cl with received := cl.received ++ [request] }, ?_, ?_, ?_⟩
      · exact List.getElem?_set_self hlt
      · exact List.getElem?_concat_length
      · exact fun hn => Nat.lt_irrefl _ (h.below cl hmem _ hn)
  · intro m hm
    rcases List.mem_or_eq_of_mem_set hm with hm | rfl
    · exact h.once m hm
    · exact h.once cl hmem
  · intro m hm
    rcases List.mem_or_eq_of_mem_set hm with hm | rfl
    · exact h.below m hm
    · intro n hn
      have hn' := h.below cl hmem n hn
      rw [List.length_append]
      omega

/-- A request gets its answer. -/
theorem Numbered.answer {s : Service reqSize resSize} (h : Numbered s)
    {r : ActiveRequest reqSize} {offset : PointerOffset} {response : Payload resSize}
    {cl : Client reqSize resSize} (channel : ZeroCopyChannel)
    (hpc : s.server = .pushing r offset response) (hc : s.clients[r.client]? = some cl) :
    Numbered
      { s.setClient r.client
          { cl with
            responseChannel := channel
            answered := cl.answered ++ [(r.index, response)] } with
        server := .idle } := by
  have hmem := List.mem_of_getElem? hc
  have hopen : s.unanswered = s.active ++ [r] := by
    unfold Service.unanswered
    rw [hpc]
    rfl
  have hdistinct := h.distinct
  have hawaits := h.awaits
  rw [hopen] at hdistinct hawaits
  rw [List.map_append, List.map_singleton] at hdistinct
  have hkeys := List.nodup_cons.mp ((List.perm_append_singleton _ _).nodup_iff.mp hdistinct)
  obtain ⟨cl₀, hc₀, hrecv, hnew⟩ := hawaits r (by simp)
  rw [hc] at hc₀
  obtain rfl := Option.some.inj hc₀
  have hfst : (cl.answered ++ [(r.index, response)]).map Prod.fst
      = cl.answered.map Prod.fst ++ [r.index] := by
    rw [List.map_append, List.map_singleton]
  constructor
  · show ((s.active ++ []).map ActiveRequest.key).Nodup
    rw [List.append_nil]
    exact hkeys.2
  · intro q hq
    have hq' : q ∈ s.active ++ [] := hq
    rw [List.append_nil] at hq'
    obtain ⟨cl₁, hc₁, hrecv₁, hnew₁⟩ := hawaits q (List.mem_append_left _ hq')
    rcases set_of_some { cl with
        responseChannel := channel
        answered := cl.answered ++ [(r.index, response)] } hc hc₁ with
      ⟨hk, rfl, hset⟩ | ⟨_, hset⟩
    · refine ⟨_, hset, hrecv₁, ?_⟩
      show q.index ∉ (cl₁.answered ++ [(r.index, response)]).map Prod.fst
      rw [hfst]
      intro hn
      rcases List.mem_append.mp hn with hn | hn
      · exact hnew₁ hn
      · -- the same client and the same number: the request just answered
        have hkey : q.key = r.key := by
          unfold ActiveRequest.key
          rw [hk, List.mem_singleton.mp hn]
        exact hkeys.1 (hkey ▸ List.mem_map_of_mem hq')
    · exact ⟨cl₁, hset, hrecv₁, hnew₁⟩
  · intro m hm
    rcases List.mem_or_eq_of_mem_set hm with hm | rfl
    · exact h.once m hm
    · show ((cl.answered ++ [(r.index, response)]).map Prod.fst).Nodup
      rw [hfst]
      exact (List.perm_append_singleton _ _).nodup_iff.mpr
        (List.nodup_cons.mpr ⟨hnew, h.once cl hmem⟩)
  · intro m hm
    rcases List.mem_or_eq_of_mem_set hm with hm | rfl
    · exact h.below m hm
    · show ∀ n ∈ (cl.answered ++ [(r.index, response)]).map Prod.fst, n < cl.received.length
      rw [hfst]
      intro n hn
      rcases List.mem_append.mp hn with hn | hn
      · exact h.below cl hmem n hn
      · rw [List.mem_singleton.mp hn]
        exact (List.getElem?_eq_some_iff.mp hrecv).1

/-- **The step lemma**: numbers stay distinct, and every request has at most one
answer. -/
theorem Numbered.step {s s' : Service reqSize resSize} {a : Act reqSize resSize}
    (h : Numbered s) (hstep : ServiceStep s a s') : Numbered s' := by
  -- the server is not inside `respond`, before or after
  have hidle : ∀ {t : Service reqSize resSize}, t.active = s.active →
      t.server.responding = s.server.responding → t.unanswered.Subperm s.unanswered := by
    intro t hactive hserver
    unfold Service.unanswered
    rw [hactive, hserver]
  have herase : ∀ {t : Service reqSize resSize} {r : ActiveRequest reqSize},
      t.active = s.active.erase r → t.server = s.server →
      t.unanswered.Subperm s.unanswered := by
    intro t r hactive hserver
    unfold Service.unanswered
    rw [hactive, hserver]
    exact (List.erase_sublist.append_right _).subperm
  cases hstep with
  | createClient _ =>
      refine h.update (hidle rfl rfl)
        ⟨fun c cl hc => ⟨cl, append_of_some _ hc, rfl, rfl⟩, fun cl hcl => ?_⟩
      · rcases List.mem_append.mp hcl with hcl | hcl
        · exact .inr ⟨cl, hcl, rfl, rfl⟩
        · rw [List.mem_singleton.mp hcl]
          exact .inl rfl
  | client c a cl cl' segment hc hstep =>
      obtain ⟨hrecv, hansw⟩ := client_step_same hstep
      exact h.update (hidle rfl rfl) (.set hc hrecv hansw)
  | receiveNothing => exact h
  | receive hpc =>
      refine h.update (hidle rfl ?_) (.refl _)
      rw [hpc]
      rfl
  | popped k cl offset channel hpc hc _ =>
      refine h.update (hidle rfl ?_) (.set hc rfl rfl)
      rw [hpc]
      rfl
  | passed k cl e channel pc hpc hc _ hpc' =>
      refine h.update (hidle rfl ?_) (.set hc rfl rfl)
      rw [hpc]
      rcases hpc' with rfl | ⟨j, rfl⟩ <;> rfl
  | copied k offset hpc =>
      refine h.update (hidle rfl ?_) (.refl _)
      rw [hpc]
      rfl
  | received k offset request cl segment hpc hc _ => exact h.received segment hpc hc
  | respondFailed r response _ _ => exact h.update (herase rfl rfl) (.refl _)
  | respondBegun r response offset segment hpc hmem _ =>
      refine h.update ?_ (.refl _)
      have hopen : s.unanswered = s.active := by
        unfold Service.unanswered
        rw [hpc]
        exact List.append_nil _
      rw [hopen]
      -- the request has only moved from the active ones into `respond`
      have hperm : (s.active.erase r ++ [r]).Perm s.active :=
        (List.perm_append_singleton _ _).trans (List.perm_cons_erase hmem).symm
      exact hperm.subperm
  | dropRequest r _ _ => exact h.update (herase rfl rfl) (.refl _)
  | written r offset response hpc =>
      refine h.update (hidle rfl ?_) (.refl _)
      rw [hpc]
      rfl
  | answered r offset response cl u channel hpc hc _ => exact h.answer channel hpc hc
  | answerFailed r offset response cl e channel hpc hc _ =>
      refine h.update ?_ (.set hc rfl rfl)
      show (s.active ++ []).Subperm s.unanswered
      exact ((List.nil_sublist _).append_left _).subperm

/-! ## §2. Handles polled in the order of the answers. -/

/-- A handle is polled, while a response is waiting, only if the oldest response
not yet taken is the answer to its request. -/
def inOrder (s : Service reqSize resSize) : Act reqSize resSize → Prop
  | .client c (.poll handle) =>
      ∀ cl ∈ s.clients[c]?, ∀ x ∈ cl.answered[cl.taken.length]?, x.1 = handle
  | _ => True

instance decidableInOrder (s : Service reqSize resSize) :
    (a : Act reqSize resSize) → Decidable (inOrder s a)
  | .client c (.poll handle) => inferInstanceAs
      (Decidable (∀ cl ∈ s.clients[c]?, ∀ x ∈ cl.answered[cl.taken.length]?, x.1 = handle))
  | .client _ (.send _) => isTrue trivial
  | .client _ .next => isTrue trivial
  | .createClient => isTrue trivial
  | .receive => isTrue trivial
  | .respond _ _ => isTrue trivial
  | .dropRequest _ => isTrue trivial
  | .next => isTrue trivial

/-- The handle inside `try_receive`. -/
def ClientPc.handle : ClientPc reqSize resSize → List Nat
  | .reading handle _ => [handle]
  | .releasing handle _ _ => [handle]
  | _ => []

/-- The handles have been served in the order of the answers. -/
def Served (cl : Client reqSize resSize) : Prop :=
  cl.taken.map Prod.fst ++ cl.pc.handle <+: cl.answered.map Prod.fst

theorem prefix_concat {α : Type} {l m : List α} {x : α} (h : l <+: m)
    (hx : m[l.length]? = some x) : l ++ [x] <+: m := by
  obtain ⟨rest, rfl⟩ := h
  rw [List.getElem?_append_right (Nat.le_refl _), Nat.sub_self] at hx
  cases rest with
  | nil => exact absurd hx (by simp)
  | cons y rest =>
      obtain rfl : y = x := Option.some.inj hx
      exact ⟨rest, by simp⟩

/-- A client's own step. -/
theorem Served.client {s : Service reqSize resSize} {l : List U32} (ho : Owned s l)
    (hs : Streams s) {c : Nat} {a : ClientAct reqSize} {cl cl' : Client reqSize resSize}
    {segment : DataSegment} (h : Served cl) (hc : s.clients[c]? = some cl)
    (hok : inOrder s (.client c a)) (hstep : ClientStep s.segment cl a segment cl') :
    Served cl' := by
  unfold Served at h
  cases hstep with
  | sendFailed request _ => exact h
  | sendBegun request offset _ hpc _ =>
      rw [hpc] at h
      exact h
  | pollEmpty handle e channel hpc _ =>
      rw [hpc] at h
      unfold Served
      rw [hpc]
      exact h
  | polled handle offset channel hpc _ hrecv =>
      -- a response is waiting, so there is an answer not yet taken: the handle's own
      obtain ⟨_, hready⟩ := ho.ready cl (List.mem_of_getElem? hc)
      obtain ⟨_, hpend⟩ := ZeroCopyChannel.receive_ok hready hrecv
      have hresponses := congrArg List.length (hs.clients c cl hc).responses
      rw [hpend] at hresponses
      simp only [List.length_append, List.length_map, List.length_cons] at hresponses
      have hlt : cl.taken.length < cl.answered.length := by omega
      have hown : (cl.answered[cl.taken.length]).1 = handle :=
        hok cl hc _ (List.getElem?_eq_getElem hlt)
      rw [hpc] at h
      have h' : cl.taken.map Prod.fst <+: cl.answered.map Prod.fst := by
        rw [← List.append_nil (cl.taken.map Prod.fst)]
        exact h
      refine prefix_concat h' ?_
      rw [List.length_map, List.getElem?_map, List.getElem?_eq_getElem hlt, Option.map_some, hown]
  | written offset request hpc =>
      rw [hpc] at h
      exact h
  | pushed offset request u channel hpc _ =>
      rw [hpc] at h
      exact h
  | pushFailed offset request e channel hpc _ =>
      rw [hpc] at h
      exact h
  | copied handle offset hpc =>
      rw [hpc] at h
      exact h
  | taken handle offset response _ hpc _ =>
      rw [hpc] at h
      show (cl.taken ++ [(handle, response)]).map Prod.fst ++ [] <+: _
      rw [List.map_append, List.append_nil]
      exact h

theorem served_step {s s' : Service reqSize resSize} {l : List U32} {a : Act reqSize resSize}
    (ho : Owned s l) (hs : Streams s) (h : ∀ cl ∈ s.clients, Served cl) (hok : inOrder s a)
    (hstep : ServiceStep s a s') : ∀ cl ∈ s'.clients, Served cl := by
  -- one client is replaced
  have hset : ∀ {c : Nat} {cl' : Client reqSize resSize}, Served cl' →
      ∀ m ∈ s.clients.set c cl', Served m := by
    intro c cl' hcl' m hm
    rcases List.mem_or_eq_of_mem_set hm with hm | rfl
    · exact h m hm
    · exact hcl'
  cases hstep with
  | createClient _ =>
      intro m hm
      rcases List.mem_append.mp hm with hm | hm
      · exact h m hm
      · rw [List.mem_singleton.mp hm]
        exact List.prefix_refl _
  | client c a cl cl' segment hc hstep =>
      exact hset ((h cl (List.mem_of_getElem? hc)).client ho hs hc hok hstep)
  | popped k cl offset channel _ hc _ => exact hset (h cl (List.mem_of_getElem? hc))
  | passed k cl e channel pc _ hc _ _ => exact hset (h cl (List.mem_of_getElem? hc))
  | received k offset request cl segment _ hc _ => exact hset (h cl (List.mem_of_getElem? hc))
  | answered r offset response cl u channel _ hc _ =>
      refine hset ((h cl (List.mem_of_getElem? hc)).trans ?_)
      show cl.answered.map Prod.fst <+: (cl.answered ++ [(r.index, response)]).map Prod.fst
      rw [List.map_append]
      exact List.prefix_append _ _
  | answerFailed r offset response cl e channel _ hc _ =>
      exact hset (h cl (List.mem_of_getElem? hc))
  | _ => exact h

/-! ## §3. Every run. -/

theorem numbered_of_reach {ok : Service reqSize resSize → Act reqSize resSize → Prop}
    {qos : ReqResQos} {s₀ s : Service reqSize resSize}
    (hcreate : Service.create reqSize resSize qos = some s₀) (hs : Reach Service.step ok s₀ s) :
    Numbered s := by
  refine hs.invariant Numbered ?_ (fun t a t' hI _ hstep => hI.step (step_cases hstep))
  obtain ⟨seg, _, rfl⟩ := Option.map_eq_some_iff.mp hcreate
  exact ⟨List.nodup_nil, fun r hr => absurd hr (by simp [Service.unanswered, ServerPc.responding]),
    fun cl hcl => absurd hcl (by simp), fun cl hcl => absurd hcl (by simp)⟩

theorem served_of_reach {qos : ReqResQos} {s₀ s : Service reqSize resSize}
    (hcreate : Service.create reqSize resSize qos = some s₀)
    (hs : Reach Service.step inOrder s₀ s) : ∀ cl ∈ s.clients, Served cl := by
  refine hs.invariant_of_reach (fun s => ∀ cl ∈ s.clients, Served cl) ?_ ?_
  · obtain ⟨seg, _, rfl⟩ := Option.map_eq_some_iff.mp hcreate
    exact fun cl hcl => absurd hcl (by simp)
  · intro t a t' hr hI hok hstep
    obtain ⟨l, hl⟩ := owned_of_reach hcreate hr
    exact served_step hl (streams_of_reach hcreate hr) hI hok (step_cases hstep)

/-- Two lists of pairs agree if their components do. -/
theorem prefix_of_components {α β : Type} {l m : List (α × β)}
    (hfst : l.map Prod.fst <+: m.map Prod.fst) (hsnd : l.map Prod.snd <+: m.map Prod.snd) :
    l <+: m := by
  rw [List.prefix_iff_eq_take] at hfst hsnd ⊢
  rw [List.length_map, ← List.map_take] at hfst hsnd
  exact (List.zip_of_prod hfst hsnd).trans (List.zip_of_prod rfl rfl).symm

/-- **Every handle returns the response to its own request**, in every run in
which each is polled when the oldest waiting response is its own.  A request is
the one its number says, and has no second answer. -/
theorem responses_correlated (qos : ReqResQos) (s₀ s : Service reqSize resSize)
    (hcreate : Service.create reqSize resSize qos = some s₀)
    (hs : Reach Service.step inOrder s₀ s) :
    (∀ r ∈ s.active, ∃ cl, s.clients[r.client]? = some cl
        ∧ cl.sentOk[r.index]? = some r.request)
      ∧ ∀ cl ∈ s.clients, ∀ handle response, (handle, response) ∈ cl.taken →
          (handle, response) ∈ cl.answered
            ∧ ∀ other, (handle, other) ∈ cl.answered → other = response := by
  have hnumbered := numbered_of_reach hcreate hs
  have hstreams := streams_of_reach hcreate hs
  refine ⟨fun r hr => ?_, fun cl hcl handle response hmem => ?_⟩
  · obtain ⟨cl, hc, hrecv, _⟩ := hnumbered.awaits r (List.mem_append_left _ hr)
    refine ⟨cl, hc, ?_⟩
    rw [(hstreams.clients r.client cl hc).requests]
    exact append_of_some _ hrecv
  · obtain ⟨c, hc⟩ := List.mem_iff_getElem?.mp hcl
    have hfst : cl.taken.map Prod.fst <+: cl.answered.map Prod.fst :=
      (List.prefix_append _ _).trans (served_of_reach hcreate hs cl hcl)
    have hsnd : cl.taken.map Prod.snd <+: cl.answered.map Prod.snd := by
      rw [(hstreams.clients c cl hc).responses]
      exact List.prefix_append _ _
    have hansw := (prefix_of_components hfst hsnd).subset hmem
    refine ⟨hansw, fun other hother => ?_⟩
    exact congrArg Prod.snd
      (List.inj_on_of_nodup_map (hnumbered.once cl hcl) hother hansw rfl)

/-! ## §4. Runs. -/

/-- Two requests of one client, both received. -/
def twoRequests : List (Act 1 1) :=
  [.createClient,
   .client 0 (.send (fun _ => 1#8)), .client 0 .next, .client 0 .next,
   .client 0 (.send (fun _ => 2#8)), .client 0 .next, .client 0 .next,
   .receive, .next, .next, .next, .receive, .next, .next, .next]

/-- The second request is answered first, and its handle is polled first. -/
def answeredBackwards : List (Act 1 1) :=
  twoRequests ++
  [.respond ⟨0, 1, fun _ => 2#8⟩ (fun _ => 20#8), .next, .next,
   .respond ⟨0, 0, fun _ => 1#8⟩ (fun _ => 10#8), .next, .next,
   .client 0 (.poll 1), .client 0 .next, .client 0 .next,
   .client 0 (.poll 0), .client 0 .next, .client 0 .next]

theorem responses_correlated_backwards :
    ∃ s₀ s : Service 1 1, Service.create 1 1 ⟨2⟩ = some s₀ ∧ Reach Service.step inOrder s₀ s
      ∧ ∃ cl ∈ s.clients, cl.taken = [(1, fun _ => 20#8), (0, fun _ => 10#8)]
          ∧ ((0, fun _ => 10#8) ∈ cl.answered
            ∧ ∀ other, (0, other) ∈ cl.answered → other = fun _ => 10#8) := by
  have hrun : ((Service.create 1 1 ⟨2⟩).bind (fun s₀ =>
      execOk Service.step inOrder s₀ answeredBackwards)).map
      (fun s => s.clients.any (fun cl =>
        decide (cl.taken = [(1, fun _ => 20#8), (0, fun _ => 10#8)]))) = some true := by decide
  obtain ⟨s, hs, hend⟩ := Option.map_eq_some_iff.mp hrun
  simp only [List.any_eq_true, decide_eq_true_eq] at hend
  obtain ⟨cl, hcl, htaken⟩ := hend
  obtain ⟨s₀, hcreate, hexec⟩ := Option.bind_eq_some_iff.mp hs
  have hreach := Reach.of_execOk answeredBackwards .refl hexec
  refine ⟨s₀, s, hcreate, hreach, cl, hcl, htaken, ?_⟩
  refine (responses_correlated ⟨2⟩ s₀ s hcreate hreach).2 cl hcl 0 (fun _ => 10#8) ?_
  rw [htaken]
  simp

/-- The requests are answered in order, and the second handle is polled first. -/
def polledBackwards : List (Act 1 1) :=
  twoRequests ++
  [.respond ⟨0, 0, fun _ => 1#8⟩ (fun _ => 10#8), .next, .next,
   .respond ⟨0, 1, fun _ => 2#8⟩ (fun _ => 20#8), .next, .next,
   .client 0 (.poll 1), .client 0 .next, .client 0 .next]

/-- **The handle of the second request returns the answer to the first.** -/
theorem response_mismatched :
    ∃ s₀ s : Service 1 1, Service.create 1 1 ⟨2⟩ = some s₀ ∧ Reach Service.step anyStep s₀ s
      ∧ ∃ cl ∈ s.clients, ∃ response, (1, response) ∈ cl.taken
          ∧ (0, response) ∈ cl.answered ∧ (1, response) ∉ cl.answered
          ∧ ∃ other, (1, other) ∈ cl.answered := by
  have hrun : ((Service.create 1 1 ⟨2⟩).bind (fun s₀ =>
      exec Service.step s₀ polledBackwards)).map
      (fun s => s.clients.any (fun cl =>
        decide (cl.taken = [(1, fun _ => 10#8)])
        && decide (cl.answered = [(0, fun _ => 10#8), (1, fun _ => 20#8)]))) = some true := by
    decide
  obtain ⟨s, hs, hend⟩ := Option.map_eq_some_iff.mp hrun
  simp only [List.any_eq_true, Bool.and_eq_true, decide_eq_true_eq] at hend
  obtain ⟨cl, hcl, htaken, hansw⟩ := hend
  obtain ⟨s₀, hcreate, hexec⟩ := Option.bind_eq_some_iff.mp hs
  refine ⟨s₀, s, hcreate, Reach.of_exec polledBackwards .refl hexec, cl, hcl, fun _ => 10#8, ?_⟩
  rw [htaken, hansw]
  exact ⟨by decide, by decide, by decide, fun _ => 20#8, by decide⟩

end Entangle.ReqRes
