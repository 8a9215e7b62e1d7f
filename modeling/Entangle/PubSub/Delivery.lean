/-
  Entangle.PubSub.Delivery — what the only subscriber of a service receives.

  Publishers are created first, then one subscriber; from then on every
  publisher has one channel.  Its send queue holds exactly what was sent and
  not yet received, so what has been received is a prefix of what was sent,
  and all of it when a round over all channels finds nothing.

  Main result: `end_to_end_delivery`.
-/
import Entangle.PubSub.Accounting

namespace Entangle.PubSub

open Entangle.Lib Entangle.Lockfree Entangle.Transport

variable {size : Nat}

/-! ## §1. One channel is a queue of values. -/

/-- The channel has received, or will receive, what was sent since it was made. -/
structure LinkFifo (sentOk : List (Payload size)) (link : Link size) : Prop where
  base : link.base ≤ sentOk.length
  order : link.received ++ link.inFlight = sentOk.drop link.base
  samples : (link.samples.map Sample.sent).Subperm link.received

def Fifo (pub : Publisher size) : Prop := ∀ link ∈ pub.links, LinkFifo pub.sentOk link

theorem Fifo.congr {pub pub' : Publisher size} (h : Fifo pub) (hlinks : pub'.links = pub.links)
    (hsent : pub'.sentOk = pub.sentOk) : Fifo pub' := by
  unfold Fifo at h ⊢
  rw [hlinks, hsent]
  exact h

/-- One channel is replaced, and nothing is sent. -/
theorem Fifo.setLink {pub pub' : Publisher size} (h : Fifo pub) {k : Nat} {link' : Link size}
    (hlinks : pub'.links = pub.links.set k link') (hsent : pub'.sentOk = pub.sentOk)
    (hlink : LinkFifo pub.sentOk link') : Fifo pub' := by
  unfold Fifo
  rw [hlinks, hsent]
  intro m hm
  rcases List.mem_or_eq_of_mem_set hm with hm | rfl
  · exact h m hm
  · exact hlink

/-- The value of a send goes to the end of the queue. -/
theorem LinkFifo.pushed {sentOk : List (Payload size)} {link link' : Link size}
    {new : List PointerOffset} {v : Payload size} (h : LinkFifo sentOk link)
    (hext : link.Extended .all link' new) (hflight : link'.inFlight = link.inFlight ++ [v]) :
    LinkFifo (sentOk ++ [v]) link' where
  base := by
    have := h.base
    rw [hext.base, List.length_append]
    omega
  order := by
    rw [hext.received, hext.base, hflight, ← List.append_assoc, h.order,
      List.drop_append_of_le_length h.base]
  samples := by
    rw [hext.samples, hext.received]
    exact h.samples

/-- A receive takes the value at the front. -/
theorem LinkFifo.received {sentOk : List (Payload size)} {link link' : Link size}
    {v : Payload size} (h : LinkFifo sentOk link) (hrecv : link.Received .all link' v) :
    LinkFifo sentOk link' where
  base := by
    rw [hrecv.base]
    exact h.base
  order := by
    have horder := h.order
    rw [hrecv.inFlight] at horder
    rw [hrecv.received, hrecv.base, List.append_assoc]
    exact horder
  samples := by
    obtain ⟨offset, _, hsamples⟩ := hrecv.pending
    rw [hsamples, hrecv.received, List.map_cons]
    have hperm : (link.received ++ [v]).Perm (v :: link.received) := List.perm_append_singleton _ _
    exact ((List.subperm_cons v).mpr h.samples).trans hperm.symm.subperm

/-- Dropping samples changes neither what was sent nor what was received. -/
theorem LinkFifo.rearranged {sentOk : List (Payload size)} {link link' : Link size}
    (h : LinkFifo sentOk link) (hre : link.Rearranged .all link')
    (hsamples : link'.samples.Subperm link.samples) : LinkFifo sentOk link' where
  base := by
    rw [hre.base]
    exact h.base
  order := by
    rw [hre.received, hre.inFlight, hre.base]
    exact h.order
  samples := by
    obtain ⟨xs, hperm, hsub⟩ := hsamples
    have hmap : (link'.samples.map Sample.sent).Subperm (link.samples.map Sample.sent) :=
      ⟨xs.map Sample.sent, hperm.map Sample.sent, hsub.map Sample.sent⟩
    rw [hre.received]
    exact hmap.trans h.samples

/-- **Every step of a publisher with at most one channel keeps the order.** -/
theorem Fifo.step {pub pub' : Publisher size} {a : PublisherAct size} {l l' : List U32}
    (h : Fifo pub) (hk : Keeps .all pub pub' a l l') (hone : pub.links.length ≤ 1) : Fifo pub' := by
  cases hk.effect with
  | same he =>
      subst he
      exact h
  | lent i _ hlinks hsent _ => exact h.congr hlinks hsent
  | wrote _ hlinks hsent _ => exact h.congr hlinks hsent
  | dropped i _ _ hlinks hsent _ => exact h.congr hlinks hsent
  | sentNowhere offset v _ _ _ hnil _ _ _ =>
      unfold Fifo
      rw [hnil]
      exact fun link hlink => absurd hlink (by simp)
  | sendBegun offset v _ _ hlinks hsent _ _ => exact h.congr hlinks hsent
  | pushed offset v k link link' _ _ hlk _ hlinks hext hflight _ hcase =>
      have hlt := (List.getElem?_eq_some_iff.mp hlk).1
      rcases hcase with ⟨hmore, _, _⟩ | ⟨_, _, hsent⟩
      · -- there is no further channel
        omega
      · unfold Fifo
        rw [hlinks, hsent]
        intro m hm
        obtain ⟨j, hj⟩ := List.mem_iff_getElem?.mp hm
        have hjlt := (List.getElem?_eq_some_iff.mp hj).1
        rw [List.length_set] at hjlt
        obtain rfl : j = k := by omega
        rw [List.getElem?_set_self hlt] at hj
        rw [← Option.some.inj hj]
        exact (h link (List.mem_of_getElem? hlk)).pushed hext hflight
  | sendFailed offset v k link _ _ _ _ _ hlinks hsent _ => exact h.congr hlinks hsent
  | reclaimMoved _ hlinks hsent _ _ => exact h.congr hlinks hsent
  | reclaimed offset k link link' _ hlk _ hlinks hext _ hflight hsent _ =>
      have hlink := h link (List.mem_of_getElem? hlk)
      refine h.setLink hlinks hsent ⟨?_, ?_, ?_⟩
      · rw [← hext.base]
        exact hlink.base
      · rw [← hext.received, ← hext.base, hflight]
        exact hlink.order
      · rw [← hext.received, ← hext.samples]
        exact hlink.samples
  | released i k _ _ hlinks hsent _ => exact h.congr hlinks hsent
  | connected subscriber he _ =>
      subst he
      intro m hm
      rcases List.mem_append.mp hm with hm | hm
      · exact h m hm
      · rw [List.mem_singleton.mp hm]
        refine ⟨Nat.le_refl _, ?_, List.nil_subperm⟩
        show [] = pub.sentOk.drop pub.sentOk.length
        rw [List.drop_length]
  | received k link link' v hlk he hrecv =>
      subst he
      exact h.setLink rfl rfl ((h link (List.mem_of_getElem? hlk)).received hrecv)
  | dropBegun k link link' x hlk he hre hsamples _ _ =>
      subst he
      refine h.setLink rfl rfl ((h link (List.mem_of_getElem? hlk)).rearranged hre ?_)
      exact (List.sublist_cons_self x _).subperm.trans hsamples.symm.subperm
  | returned k link link' x _ hlk he hre hsamples _ _ =>
      subst he
      refine h.setLink rfl rfl ((h link (List.mem_of_getElem? hlk)).rearranged hre ?_)
      rw [hsamples]
  | closed subscriber _ he =>
      subst he
      intro m hm
      obtain ⟨m₀, hmem, he⟩ := mem_close hm
      rw [he]
      have hlink := h m₀ hmem
      exact ⟨hlink.base, hlink.order, hlink.samples⟩

/-- A publisher with at most one channel keeps the order in every run. -/
theorem fifo_of_reach {ok : Service size → Act size → Prop} {qos : PubSubQos} {s : Service size}
    (hs : Reach Service.step ok (Service.init qos) s) :
    ∀ pub ∈ s.publishers, pub.links.length ≤ 1 → (∃ l, PubOk .all pub l) ∧ Fifo pub := by
  refine publishers_invariant (localises_trivial ok)
    (I := fun pub => pub.links.length ≤ 1 → (∃ l, PubOk .all pub l) ∧ Fifo pub) ?_ ?_ hs
  · intro pub hpub _
    refine ⟨⟨_, create_ok hpub⟩, ?_⟩
    obtain ⟨seg, _, rfl⟩ := Option.map_eq_some_iff.mp hpub
    exact fun link hlink => absurd hlink (by simp)
  · intro pub a pub' hI _ hstep hone
    have hone' := (links_length_le hstep).trans hone
    obtain ⟨l, l', _, hl'⟩ := single_step (fun h => (hI h).1) hstep hone
    exact ⟨⟨l', hl'.ok⟩, (hI hone').2.step hl' hone'⟩

/-! ## §2. The wiring of the service. -/

/-- Publishers are created before the subscriber, and there is only one of it. -/
def oneSubscriber (s : Service size) : Act size → Prop
  | .createPublisher => s.subscribers = []
  | .createSubscriber => s.subscribers = []
  | _ => True

instance decidableOneSubscriber (s : Service size) : (a : Act size) → Decidable (oneSubscriber s a)
  | .createPublisher => inferInstanceAs (Decidable (s.subscribers = []))
  | .createSubscriber => inferInstanceAs (Decidable (s.subscribers = []))
  | .publisher _ _ => isTrue trivial
  | .connectNext _ => isTrue trivial
  | .receive _ => isTrue trivial
  | .receiveNext _ => isTrue trivial
  | .dropSample _ _ _ _ => isTrue trivial
  | .returnNext _ => isTrue trivial
  | .dropSubscriber _ => isTrue trivial

/-- How many of the `n` publishers the subscriber is connected to. -/
def Subscriber.connected (u : Subscriber) (n : Nat) : Nat :=
  match u.pc with
  | .creating next => next
  | _ => n

/-- The channels of the first `n` publishers have nothing under way. -/
def Drained (publishers : List (Publisher size)) (n : Nat) : Prop :=
  ∀ p pub, p < n → publishers[p]? = some pub → ∀ link ∈ pub.links, link.channel.pending = []

/-- The subscriber and its channels, in the order of the publishers. -/
structure Wired (publishers : List (Publisher size)) (u : Subscriber) : Prop where
  bound : u.connected publishers.length ≤ publishers.length
  connections : u.connections = (List.range (u.connected publishers.length)).map (fun p => (p, 0))
  links : ∀ p pub, publishers[p]? = some pub →
    pub.links.length = if p < u.connected publishers.length then 1 else 0
  quiet : ∀ next, u.pc = .receiving next true →
    (∀ pub ∈ publishers, pub.pc.isSending = false) ∧ Drained publishers next

/-- No subscriber yet and no channel, or the only subscriber with its channels. -/
def Topology (s : Service size) : Prop :=
  (s.subscribers = [] ∧ ∀ pub ∈ s.publishers, pub.links = [])
    ∨ ∃ u, s.subscribers = [u] ∧ Wired s.publishers u

theorem Wired.links_le {publishers : List (Publisher size)} {u : Subscriber}
    (h : Wired publishers u) : ∀ pub ∈ publishers, pub.links.length ≤ 1 := by
  intro pub hpub
  obtain ⟨p, hp⟩ := List.mem_iff_getElem?.mp hpub
  rw [h.links p pub hp]
  split <;> omega

theorem Topology.links_le {s : Service size} (h : Topology s) :
    ∀ pub ∈ s.publishers, pub.links.length ≤ 1 := by
  intro pub hpub
  rcases h with ⟨_, hnil⟩ | ⟨u, _, hw⟩
  · rw [hnil pub hpub]
    exact Nat.zero_le _
  · exact hw.links_le pub hpub

/-- Without a send in between, a publisher that is not sending stays so, and
its empty channels stay empty. -/
theorem quiet_step {pub pub' : Publisher size} {a : PublisherAct size} {l l' : List U32}
    (hk : Keeps .all pub pub' a l l') (hsend : ∀ offset, a ≠ .send offset)
    (hquiet : pub.pc.isSending = false) :
    pub'.pc.isSending = false
      ∧ ((∀ link ∈ pub.links, link.channel.pending = []) →
          ∀ link ∈ pub'.links, link.channel.pending = []) := by
  -- one channel is replaced by one with nothing under way either
  have hset : ∀ {k : Nat} {link link' : Link size}, pub.links[k]? = some link →
      (link.channel.pending = [] → link'.channel.pending = []) →
      (∀ m ∈ pub.links, m.channel.pending = []) →
      ∀ m ∈ pub.links.set k link', m.channel.pending = [] := by
    intro k link link' hlk hlink hall m hm
    rcases List.mem_or_eq_of_mem_set hm with hm | rfl
    · exact hall m hm
    · exact hlink (hall link (List.mem_of_getElem? hlk))
  have hkeep : pub'.links = pub.links → pub'.pc = pub.pc →
      pub'.pc.isSending = false
        ∧ ((∀ link ∈ pub.links, link.channel.pending = []) →
            ∀ link ∈ pub'.links, link.channel.pending = []) := by
    intro hlinks hpc
    rw [hlinks, hpc]
    exact ⟨hquiet, fun hall => hall⟩
  cases hk.effect with
  | same he =>
      subst he
      exact ⟨hquiet, fun hall => hall⟩
  | lent i _ hlinks _ hpc => exact hkeep hlinks hpc
  | wrote _ hlinks _ hpc => exact hkeep hlinks hpc
  | dropped i _ _ hlinks _ hpc => exact hkeep hlinks hpc
  | sentNowhere offset v ha => exact absurd ha (hsend offset)
  | sendBegun offset v ha => exact absurd ha (hsend offset)
  | pushed offset v k link link' _ hpc =>
      rw [hpc] at hquiet
      exact absurd hquiet (by simp [PublisherPc.isSending])
  | sendFailed offset v k link _ hpc =>
      rw [hpc] at hquiet
      exact absurd hquiet (by simp [PublisherPc.isSending])
  | reclaimMoved _ hlinks _ _ hpc' =>
      rw [hlinks]
      refine ⟨?_, fun hall => hall⟩
      rcases hpc' with hpc' | ⟨k, hpc'⟩
      · rw [hpc']
        rfl
      · rw [hpc']
        rfl
  | reclaimed offset k link link' _ hlk _ hlinks _ hpend _ _ hpc' =>
      rw [hlinks, hpc']
      exact ⟨rfl, hset hlk (fun hnil => hpend.trans hnil)⟩
  | released i k _ _ hlinks _ hpc' =>
      rw [hlinks, hpc']
      exact ⟨rfl, fun hall => hall⟩
  | connected subscriber he hpc =>
      subst he
      refine ⟨hquiet, fun hall m hm => ?_⟩
      rcases List.mem_append.mp hm with hm | hm
      · exact hall m hm
      · rw [List.mem_singleton.mp hm]
        exact ZeroCopyChannel.new_pending _
  | received k link link' v hlk he hrecv =>
      subst he
      obtain ⟨offset, hpend, _⟩ := hrecv.pending
      refine ⟨hquiet, hset hlk (fun hnil => ?_)⟩
      rw [hnil] at hpend
      exact absurd hpend (by simp)
  | dropBegun k link link' x hlk he hre _ _ _ =>
      subst he
      exact ⟨hquiet, hset hlk (fun hnil => hre.pending.trans hnil)⟩
  | returned k link link' x _ hlk he hre _ _ _ =>
      subst he
      exact ⟨hquiet, hset hlk (fun hnil => hre.pending.trans hnil)⟩
  | closed subscriber _ he =>
      subst he
      refine ⟨hquiet, fun hall m hm => ?_⟩
      obtain ⟨m₀, hmem, he⟩ := mem_close hm
      rw [he]
      exact hall m₀ hmem

theorem connects_of_byPublisher {a : PublisherAct size} (h : a.byPublisher = true) :
    a.connects = 0 := by
  cases a with
  | connect _ => exact absurd h (by simp [PublisherAct.byPublisher])
  | _ => rfl

/-- The step of a publisher that has at most one channel. -/
theorem Wired.keeps {publishers : List (Publisher size)} {u : Subscriber}
    (h : Wired publishers u) (hok : ∀ pub ∈ publishers, ∃ l, PubOk .all pub l) {p : Nat}
    {a : PublisherAct size} {pub pub' : Publisher size} (hpub : publishers[p]? = some pub)
    (hstep : pub.step a = some pub') : ∃ l l', Keeps .all pub pub' a l l' := by
  have hmem := List.mem_of_getElem? hpub
  obtain ⟨l, hl⟩ := hok pub hmem
  obtain ⟨l', hl'⟩ := hl.step (exclusiveReclaim_of_single hl (h.links_le pub hmem) a)
    (receivesCounted_all pub a) hstep
  exact ⟨l, l', hl'⟩

/-- A quiet receive is not disturbed by what is not a send. -/
theorem Wired.quiet_set {publishers : List (Publisher size)} {u : Subscriber}
    (h : Wired publishers u) (hok : ∀ pub ∈ publishers, ∃ l, PubOk .all pub l) {p : Nat}
    {a : PublisherAct size} {pub pub' : Publisher size} (hpub : publishers[p]? = some pub)
    (hstep : pub.step a = some pub') (hsend : ∀ offset, a ≠ .send offset) {next : Nat}
    (hpc : u.pc = .receiving next true) :
    (∀ m ∈ publishers.set p pub', m.pc.isSending = false)
      ∧ Drained (publishers.set p pub') next := by
  obtain ⟨hidle, hdrained⟩ := h.quiet next hpc
  obtain ⟨l, l', hk⟩ := h.keeps hok hpub hstep
  obtain ⟨hidle', hdrained'⟩ := quiet_step hk hsend (hidle pub (List.mem_of_getElem? hpub))
  constructor
  · intro m hm
    rcases List.mem_or_eq_of_mem_set hm with hm | rfl
    · exact hidle m hm
    · exact hidle'
  · intro q m hq hm
    rcases set_cases hm with ⟨rfl, rfl⟩ | ⟨_, hold⟩
    · exact hdrained' (hdrained q pub hq hpub)
    · exact hdrained q m hq hold

/-- One publisher moves without a new channel; the subscriber stays as connected. -/
theorem Wired.moved {publishers : List (Publisher size)} {u u' : Subscriber}
    (h : Wired publishers u) {p : Nat} {a : PublisherAct size} {pub pub' : Publisher size}
    (hpub : publishers[p]? = some pub) (hstep : pub.step a = some pub') (hnew : a.connects = 0)
    (hconnections : u'.connections = u.connections)
    (hconnected : u'.connected publishers.length = u.connected publishers.length)
    (hquiet : ∀ next, u'.pc = .receiving next true →
      (∀ m ∈ publishers.set p pub', m.pc.isSending = false)
        ∧ Drained (publishers.set p pub') next) :
    Wired (publishers.set p pub') u' where
  bound := by
    rw [List.length_set, hconnected]
    exact h.bound
  connections := by
    rw [List.length_set, hconnected, hconnections]
    exact h.connections
  links := by
    intro q m hm
    rw [List.length_set, hconnected]
    rcases set_cases hm with ⟨rfl, rfl⟩ | ⟨_, hold⟩
    · rw [links_length_step hstep, hnew]
      exact h.links q pub hpub
    · exact h.links q m hold
  quiet := hquiet

/-- The round of `create` at publisher `next` gives it its channel. -/
theorem Wired.connectNext {publishers : List (Publisher size)} {u : Subscriber}
    (h : Wired publishers u) {next i : Nat} {pub pub' : Publisher size}
    (hpc : u.pc = .creating next) (hpub : publishers[next]? = some pub)
    (hstep : pub.step (.connect i) = some pub') :
    Wired (publishers.set next pub')
      { u with
        connections := u.connections ++ [(next, pub.links.length)]
        pc := .creating (next + 1) } := by
  have hlt := (List.getElem?_eq_some_iff.mp hpub).1
  have hn : u.connected publishers.length = next := by
    unfold Subscriber.connected
    rw [hpc]
  have hzero : pub.links.length = 0 := by
    rw [h.links next pub hpub, hn, if_neg (Nat.lt_irrefl next)]
  have hconns := h.connections
  rw [hn] at hconns
  refine ⟨?_, ?_, ?_, fun _ he => absurd he (by simp)⟩
  · show next + 1 ≤ (publishers.set next pub').length
    rw [List.length_set]
    exact hlt
  · show u.connections ++ [(next, pub.links.length)]
      = (List.range (next + 1)).map (fun p => (p, 0))
    rw [hzero, hconns, List.range_succ, List.map_append]
    rfl
  · intro q m hm
    show m.links.length = if q < next + 1 then 1 else 0
    rcases set_cases hm with ⟨rfl, rfl⟩ | ⟨hqn, hm⟩
    · rw [links_length_step hstep, hzero, if_pos (Nat.lt_succ_self q)]
      rfl
    · have hold := h.links q m hm
      rw [hn] at hold
      rw [hold]
      by_cases hq : q < next
      · rw [if_pos hq, if_pos (by omega)]
      · rw [if_neg hq, if_neg (by omega)]

/-- A round of `receive` that finds nothing finds an empty queue. -/
theorem pending_nil_of_noSample {s : Service size} {c : Nat × Nat} {pub : Publisher size}
    {l : List U32} (hl : PubOk .all pub l) (hpub : s.publishers[c.1]? = some pub) {link : Link size}
    (hlink : pub.links[c.2]? = some link) (hnone : s.hasSample c = false) :
    link.channel.pending = [] := by
  have hready := (hl.links link (List.mem_of_getElem? hlink)).ready
  rcases ZeroCopyChannel.receive_cases hready with ⟨hnil, _⟩ | ⟨offset, rest, c', hrecv, _⟩
  · exact hnil
  · unfold Service.hasSample at hnone
    rw [hpub, Option.bind_some, hlink] at hnone
    simp only [hrecv] at hnone
    exact absurd hnone (by simp)

theorem Wired.connection_eq {publishers : List (Publisher size)} {u : Subscriber}
    (h : Wired publishers u) {next : Nat} {c : Nat × Nat} (hc : u.connections[next]? = some c) :
    c = (next, 0) := by
  rw [h.connections, List.getElem?_map] at hc
  obtain ⟨r, hr, rfl⟩ := Option.map_eq_some_iff.mp hc
  have hlt := (List.getElem?_eq_some_iff.mp hr).1
  rw [List.length_range] at hlt
  rw [List.getElem?_range hlt] at hr
  rw [← Option.some.inj hr]

/-- The round of `receive` at connection `next`. -/
theorem Wired.receiveNext {s : Service size} {u : Subscriber} (h : Wired s.publishers u)
    (hok : ∀ pub ∈ s.publishers, ∃ l, PubOk .all pub l) {next : Nat} {quiet : Bool} {c : Nat × Nat}
    {pub pub' : Publisher size} (hpc : u.pc = .receiving next quiet)
    (hc : u.connections[next]? = some c) (hpub : s.publishers[c.1]? = some pub)
    (hstep : pub.step (.receive c.2) = some pub') :
    Wired (s.publishers.set c.1 pub')
      { u with
        pc :=
          if s.hasSample c then .idle
          else if next + 1 < u.connections.length then .receiving (next + 1) quiet
          else .idle } := by
  have hn : u.connected s.publishers.length = s.publishers.length := by
    unfold Subscriber.connected
    rw [hpc]
  refine h.moved hpub hstep rfl rfl ?_ ?_
  · rw [hn]
    unfold Subscriber.connected
    dsimp only
    split
    next hcreating =>
      split at hcreating
      next => exact absurd hcreating (by simp)
      next =>
        split at hcreating <;> simp at hcreating
    next => rfl
  · intro next' hpc'
    dsimp only at hpc'
    split at hpc'
    next => exact absurd hpc' (by simp)
    next hsample =>
      split at hpc'
      next =>
        injection hpc' with hnext hquiet
        subst hnext
        subst hquiet
        obtain ⟨hidle, hdrained⟩ := h.quiet_set hok hpub hstep (by simp) hpc
        refine ⟨hidle, fun q m hq hm link hlink => ?_⟩
        by_cases hqn : q < next
        · exact hdrained q m hqn hm link hlink
        · -- the channel just found empty
          obtain rfl : q = next := by omega
          obtain rfl := h.connection_eq hc
          obtain ⟨l, hl⟩ := hok pub (List.mem_of_getElem? hpub)
          have hall : ∀ m₀ ∈ pub.links, m₀.channel.pending = [] := by
            intro m₀ hm₀
            obtain ⟨j, hj⟩ := List.mem_iff_getElem?.mp hm₀
            have hjlt := (List.getElem?_eq_some_iff.mp hj).1
            have hle := h.links_le pub (List.mem_of_getElem? hpub)
            obtain rfl : j = 0 := by omega
            exact pending_nil_of_noSample hl hpub hj (by simpa using hsample)
          obtain ⟨_, l', hk⟩ := h.keeps hok hpub hstep
          rw [List.getElem?_set_self (List.getElem?_eq_some_iff.mp hpub).1] at hm
          have hquiet := (h.quiet q hpc).1 pub (List.mem_of_getElem? hpub)
          obtain rfl := Option.some.inj hm
          exact (quiet_step hk (by simp) hquiet).2 hall link hlink
      next => exact absurd hpc' (by simp)

/-- Outside `create` the subscriber is connected to every publisher. -/
theorem Subscriber.connected_eq {u : Subscriber} (h : u.pc.isCreating = false) (n : Nat) :
    u.connected n = n := by
  unfold Subscriber.connected
  split
  next hpc =>
    rw [hpc] at h
    exact absurd h (by simp [SubscriberPc.isCreating])
  next => rfl

@[simp] theorem Subscriber.disturbed_connections (u : Subscriber) :
    u.disturbed.connections = u.connections := by
  unfold Subscriber.disturbed
  split <;> rfl

@[simp] theorem Subscriber.disturbed_connected (u : Subscriber) (n : Nat) :
    u.disturbed.connected n = u.connected n := by
  unfold Subscriber.disturbed
  split
  next hpc =>
    unfold Subscriber.connected
    rw [hpc]
  next => rfl

theorem Subscriber.disturbed_not_quiet (u : Subscriber) (next : Nat) :
    u.disturbed.pc ≠ .receiving next true := by
  unfold Subscriber.disturbed
  split
  next => simp
  next hne => exact hne next true

/-- The last round of `create` has found every publisher connected. -/
theorem Wired.created {publishers : List (Publisher size)} {u : Subscriber}
    (h : Wired publishers u) {next : Nat} (hpc : u.pc = .creating next)
    (hnone : publishers[next]? = none) : Wired publishers { u with pc := .idle } := by
  have hlen := List.getElem?_eq_none_iff.mp hnone
  have hbound := h.bound
  have hn : u.connected publishers.length = next := by
    unfold Subscriber.connected
    rw [hpc]
  have heq : publishers.length = u.connected publishers.length := by omega
  refine ⟨Nat.le_refl _, ?_, ?_, fun _ he => absurd he (by simp)⟩
  · show u.connections = (List.range publishers.length).map _
    rw [heq]
    exact h.connections
  · intro p pub hpub
    show pub.links.length = if p < publishers.length then 1 else 0
    rw [heq]
    exact h.links p pub hpub

/-- A receive begins. -/
theorem Wired.receive {publishers : List (Publisher size)} {u : Subscriber}
    (h : Wired publishers u) (hpc : u.pc = .idle) :
    Wired publishers
      { u with pc := .receiving 0 (publishers.all (fun pub => !pub.pc.isSending)) } := by
  have hn := u.connected_eq (by rw [hpc]; rfl) publishers.length
  have hconns := h.connections
  have hlinks := h.links
  rw [hn] at hconns hlinks
  refine ⟨Nat.le_refl _, hconns, hlinks, fun next hnext => ?_⟩
  injection hnext with hzero hquiet
  subst hzero
  refine ⟨fun pub hpub => ?_, fun p pub hp => absurd hp (Nat.not_lt_zero p)⟩
  have hidle := List.all_eq_true.mp hquiet pub hpub
  simpa using hidle

/-- The subscriber goes away; its channels stay. -/
theorem Wired.closed {publishers : List (Publisher size)} {u : Subscriber}
    (h : Wired publishers u) (hpc : u.pc = .idle) (i : Nat) :
    Wired (publishers.map (fun pub => pub.close i)) { u with alive := false } := by
  have hn : ∀ n, Subscriber.connected { u with alive := false } n = n :=
    fun n => Subscriber.connected_eq (by rw [hpc]; rfl) n
  have hconns := h.connections
  have hlinks := h.links
  rw [u.connected_eq (by rw [hpc]; rfl)] at hconns hlinks
  refine ⟨?_, ?_, ?_, fun next he => ?_⟩
  · rw [hn]
  · rw [hn, List.length_map]
    exact hconns
  · intro p m hm
    rw [List.getElem?_map] at hm
    obtain ⟨pub, hpub, rfl⟩ := Option.map_eq_some_iff.mp hm
    rw [hn, List.length_map]
    show (pub.links.map _).length = _
    rw [List.length_map]
    exact hlinks p pub hpub
  · have he' : u.pc = .receiving next true := he
    rw [hpc] at he'
    exact absurd he' (by simp)

/-- While nobody is subscribed there is no channel, until a subscriber comes. -/
theorem Topology.step_of_nobody {s s' : Service size} {a : Act size} (hnil : s.subscribers = [])
    (hlinks : ∀ pub ∈ s.publishers, pub.links = []) (hs : s.step a = some s') : Topology s' := by
  have hnobody : ∀ {i : Nat} {u : Subscriber}, s.subscribers[i]? ≠ some u := by
    intro i u hi
    rw [hnil] at hi
    exact absurd hi (by simp)
  have hown : ∀ {p : Nat} {b : PublisherAct size} {pub pub' : Publisher size},
      b.connects = 0 → s.publishers[p]? = some pub → pub.step b = some pub' →
      ∀ m ∈ s.publishers.set p pub', m.links = [] := by
    intro p b pub pub' hb hpub hstep m hm
    rcases List.mem_or_eq_of_mem_set hm with hm | rfl
    · exact hlinks m hm
    · apply List.eq_nil_of_length_eq_zero
      rw [links_length_step hstep, hb, hlinks pub (List.mem_of_getElem? hpub)]
      rfl
  cases step_cases hs with
  | createPublisher pub _ hpub =>
      refine .inl ⟨hnil, fun m hm => ?_⟩
      rcases List.mem_append.mp hm with hm | hm
      · exact hlinks m hm
      · obtain ⟨seg, _, rfl⟩ := Option.map_eq_some_iff.mp hpub
        rw [List.mem_singleton.mp hm]
  | publisher p b pub pub' hby hpub hstep _ =>
      exact .inl ⟨hnil, hown (connects_of_byPublisher hby) hpub hstep⟩
  | send p offset pub pub' hpub hstep =>
      refine .inl ⟨?_, hown rfl hpub hstep⟩
      show s.subscribers.map Subscriber.disturbed = []
      rw [hnil]
      rfl
  | createSubscriber _ =>
      refine .inr ⟨{ connections := [], pc := .creating 0, alive := true }, ?_, ?_⟩
      · show s.subscribers ++ _ = _
        rw [hnil]
        rfl
      · refine ⟨Nat.zero_le _, rfl, fun p pub hpub => ?_, fun _ he => absurd he (by simp)⟩
        show pub.links.length = if p < 0 then 1 else 0
        rw [hlinks pub (List.mem_of_getElem? hpub), if_neg (Nat.not_lt_zero p)]
        rfl
  | connectNext i u next pub pub' hi => exact absurd hi hnobody
  | created i u next hi => exact absurd hi hnobody
  | receiveNothing i u hi => exact absurd hi hnobody
  | receive i u hi => exact absurd hi hnobody
  | receiveNext i u next quiet c pub pub' hi => exact absurd hi hnobody
  | dropSample i p k sample u pub pub' hi => exact absurd hi hnobody
  | returnNext i p k u pub pub' hi => exact absurd hi hnobody
  | dropSubscriber i u hi => exact absurd hi hnobody

/-- The only subscriber, replaced. -/
theorem set_single {α : Type} {l : List α} {u v w : α} {i : Nat} (hl : l = [u])
    (hi : l[i]? = some v) : v = u ∧ l.set i w = [w] := by
  subst hl
  have hlt := (List.getElem?_eq_some_iff.mp hi).1
  obtain rfl : i = 0 := by
    rw [List.length_singleton] at hlt
    omega
  exact ⟨(Option.some.inj hi).symm, rfl⟩

/-- **Every step keeps the wiring** while publishers come first and there is one
subscriber. -/
theorem Topology.step {s s' : Service size} {a : Act size} (h : Topology s)
    (hok : ∀ pub ∈ s.publishers, ∃ l, PubOk .all pub l) (ha : oneSubscriber s a)
    (hs : s.step a = some s') : Topology s' := by
  rcases h with ⟨hnil, hlinks⟩ | ⟨u, hu, hw⟩
  · exact Topology.step_of_nobody hnil hlinks hs
  · right
    cases step_cases hs with
    | createPublisher pub _ _ =>
        have hno : s.subscribers = [] := ha
        rw [hu] at hno
        exact absurd hno (by simp)
    | publisher p b pub pub' hby hpub hstep hsend =>
        refine ⟨u, hu, hw.moved hpub hstep (connects_of_byPublisher hby) rfl rfl ?_⟩
        exact fun next hpc => hw.quiet_set hok hpub hstep hsend hpc
    | send p offset pub pub' hpub hstep =>
        refine ⟨u.disturbed, ?_, hw.moved hpub hstep rfl (by simp) (by simp) ?_⟩
        · show s.subscribers.map Subscriber.disturbed = [u.disturbed]
          rw [hu]
          rfl
        · exact fun next hpc => absurd hpc (u.disturbed_not_quiet next)
    | createSubscriber _ =>
        have hno : s.subscribers = [] := ha
        rw [hu] at hno
        exact absurd hno (by simp)
    | connectNext i v next pub pub' hi hpc hpub hstep =>
        obtain ⟨rfl, hset⟩ := set_single hu hi
        exact ⟨_, hset, hw.connectNext hpc hpub hstep⟩
    | created i v next hi hpc hnone =>
        obtain ⟨rfl, hset⟩ := set_single hu hi
        exact ⟨_, hset, hw.created hpc hnone⟩
    | receiveNothing i v hi _ _ => exact ⟨u, hu, hw⟩
    | receive i v hi _ hpc _ =>
        obtain ⟨rfl, hset⟩ := set_single hu hi
        exact ⟨_, hset, hw.receive hpc⟩
    | receiveNext i v next quiet c pub pub' hi hpc hc hpub hstep =>
        obtain ⟨rfl, hset⟩ := set_single hu hi
        exact ⟨_, hset, hw.receiveNext hok hpc hc hpub hstep⟩
    | dropSample i p k sample v pub pub' hi hpc hpub hstep =>
        obtain ⟨rfl, hset⟩ := set_single hu hi
        refine ⟨_, hset, hw.moved hpub hstep rfl rfl ?_ (fun _ he => absurd he (by simp))⟩
        rw [v.connected_eq (by rw [hpc]; rfl)]
        rfl
    | returnNext i p k v pub pub' hi hpc hpub hstep =>
        obtain ⟨rfl, hset⟩ := set_single hu hi
        refine ⟨_, hset, hw.moved hpub hstep rfl rfl ?_ (fun _ he => ?_)⟩
        · rw [v.connected_eq (by rw [hpc]; rfl)]
          apply Subscriber.connected_eq
          dsimp only
          split <;> rfl
        · dsimp only at he
          split at he <;> simp at he
    | dropSubscriber i v hi hpc =>
        obtain ⟨rfl, hset⟩ := set_single hu hi
        exact ⟨_, hset, hw.closed hpc i⟩

/-! ## §3. Every run. -/

/-- At this step a receive that no send has overlapped returns `Ok(None)`: there
is no channel, or the last one has no sample either. -/
def Service.returnsNone (s : Service size) : Act size → Prop
  | .receive i => ∃ u, s.subscribers[i]? = some u ∧ u.pc = .idle ∧ u.connections = []
  | .receiveNext i => ∃ u next c, s.subscribers[i]? = some u ∧ u.pc = .receiving next true
      ∧ u.connections[next]? = some c ∧ next + 1 = u.connections.length
      ∧ s.hasSample c = false
  | _ => False

/-- Whatever is connected has been drained when a quiet receive returns `None`. -/
theorem Wired.drained_of_none {s : Service size} {u : Subscriber} (hu : s.subscribers = [u])
    (h : Wired s.publishers u) (hok : ∀ pub ∈ s.publishers, ∃ l, PubOk .all pub l) {a : Act size}
    (hnone : s.returnsNone a) :
    ∀ pub ∈ s.publishers, ∃ link, pub.links = [link] ∧ link.channel.pending = [] := by
  -- one channel each, and the round over them has seen them all empty
  have hall : u.pc.isCreating = false ∧ Drained s.publishers s.publishers.length := by
    cases a with
    | receive i =>
        obtain ⟨v, hi, hpc, hnil⟩ := hnone
        obtain ⟨rfl, _⟩ := set_single (w := v) hu hi
        have hcreating : v.pc.isCreating = false := by
          rw [hpc]
          rfl
        refine ⟨hcreating, fun p pub hp => ?_⟩
        have hconns := h.connections
        rw [hnil, v.connected_eq hcreating] at hconns
        have hlen := congrArg List.length hconns
        rw [List.length_nil, List.length_map, List.length_range] at hlen
        omega
    | receiveNext i =>
        obtain ⟨v, next, c, hi, hpc, hc, hlast, hsample⟩ := hnone
        obtain ⟨rfl, _⟩ := set_single (w := v) hu hi
        have hcreating : v.pc.isCreating = false := by
          rw [hpc]
          rfl
        have hlen := congrArg List.length h.connections
        rw [v.connected_eq hcreating, List.length_map, List.length_range] at hlen
        refine ⟨hcreating, fun p pub hp hpub link hlink => ?_⟩
        by_cases hpn : p < next
        · exact (h.quiet next hpc).2 p pub hpn hpub link hlink
        · obtain rfl : p = next := by omega
          obtain rfl := h.connection_eq hc
          have hmem := List.mem_of_getElem? hpub
          obtain ⟨l, hl⟩ := hok pub hmem
          obtain ⟨j, hj⟩ := List.mem_iff_getElem?.mp hlink
          have hjlt := (List.getElem?_eq_some_iff.mp hj).1
          have hle := h.links_le pub hmem
          obtain rfl : j = 0 := by omega
          exact pending_nil_of_noSample hl hpub hj hsample
    | _ => exact absurd hnone (fun hf => hf)
  intro pub hpub
  obtain ⟨p, hp⟩ := List.mem_iff_getElem?.mp hpub
  have hplt := (List.getElem?_eq_some_iff.mp hp).1
  have hlen := h.links p pub hp
  rw [u.connected_eq hall.1, if_pos hplt] at hlen
  obtain ⟨link, hlink⟩ := List.length_eq_one_iff.mp hlen
  refine ⟨link, hlink, hall.2 p pub hplt hp link ?_⟩
  rw [hlink]
  exact List.mem_singleton_self link

theorem topology_of_reach {qos : PubSubQos} {s : Service size}
    (hs : Reach Service.step oneSubscriber (Service.init qos) s) : Topology s := by
  refine hs.invariant_of_reach Topology ?_ ?_
  · exact .inl ⟨rfl, fun pub hpub => absurd hpub (by simp [Service.init])⟩
  · intro t a t' hr hI ha hstep
    refine hI.step (fun pub hpub => ?_) ha hstep
    exact single_ok hr pub hpub (hI.links_le pub hpub)

/-- **End-to-end delivery to the only subscriber**: what it has received from a
publisher is a prefix of what that publisher has sent since, its samples stay
what they were when they were received, and a receive that overlaps no send
finds nothing only if everything has been received. -/
theorem end_to_end_delivery (qos : PubSubQos) (s : Service size)
    (hs : Reach Service.step oneSubscriber (Service.init qos) s) :
    (∀ pub ∈ s.publishers, ∀ link ∈ pub.links,
        link.received <+: pub.sentOk.drop link.base
          ∧ (∀ x ∈ link.samples, pub.segment.read size x.offset = x.sent)
          ∧ (link.samples.map Sample.sent).Subperm link.received)
      ∧ ∀ a, s.returnsNone a → ∀ pub ∈ s.publishers,
          ∃ link, pub.links = [link] ∧ link.received = pub.sentOk.drop link.base := by
  have htop := topology_of_reach hs
  have hok : ∀ pub ∈ s.publishers, (∃ l, PubOk .all pub l) ∧ Fifo pub :=
    fun pub hpub => fifo_of_reach hs pub hpub (htop.links_le pub hpub)
  constructor
  · intro pub hpub link hlink
    obtain ⟨⟨l, hl⟩, hfifo⟩ := hok pub hpub
    have hf := hfifo link hlink
    refine ⟨?_, (hl.links link hlink).samples, hf.samples⟩
    rw [← hf.order]
    exact List.prefix_append _ _
  · intro a hnone pub hpub
    obtain ⟨u, hu, hw⟩ : ∃ u, s.subscribers = [u] ∧ Wired s.publishers u := by
      rcases htop with ⟨hnil, _⟩ | h
      · cases a with
        | receive i =>
            obtain ⟨u, hi, _⟩ := hnone
            rw [hnil] at hi
            exact absurd hi (by simp)
        | receiveNext i =>
            obtain ⟨u, _, _, hi, _⟩ := hnone
            rw [hnil] at hi
            exact absurd hi (by simp)
        | _ => exact absurd hnone (fun hf => hf)
      · exact h
    obtain ⟨link, hlinks, hpend⟩ :=
      hw.drained_of_none hu (fun m hm => (hok m hm).1) hnone pub hpub
    obtain ⟨⟨l, hl⟩, hfifo⟩ := hok pub hpub
    have hmem : link ∈ pub.links := by
      rw [hlinks]
      exact List.mem_singleton_self link
    have hflight := (hl.links link hmem).inFlight rfl
    have horder := (hfifo link hmem).order
    rw [hpend, List.map_nil] at hflight
    rw [← hflight, List.append_nil] at horder
    exact ⟨link, hlinks, horder⟩

/-- Two publishers; samples are sent out of the order of their loans, one of the
first publisher's before the subscriber exists, and dropped out of order. -/
def twoPublishers : List (Act 1) :=
  [.createPublisher, .createPublisher,
   .publisher 0 .loan, .publisher 0 (.write ⟨64#64⟩ (fun _ => 9#8)), .publisher 0 (.send ⟨64#64⟩),
   .createSubscriber, .connectNext 0, .connectNext 0, .connectNext 0,
   .publisher 0 .loan, .publisher 0 .loan, .publisher 0 (.write ⟨80#64⟩ (fun _ => 7#8)),
   .publisher 0 (.send ⟨80#64⟩), .publisher 0 .next, .receive 0, .receiveNext 0,
   .publisher 0 (.write ⟨72#64⟩ (fun _ => 8#8)), .publisher 0 (.send ⟨72#64⟩), .publisher 0 .next,
   .publisher 1 .loan, .publisher 1 (.send ⟨64#64⟩), .publisher 1 .next,
   .receive 0, .receiveNext 0, .dropSample 0 0 0 ⟨⟨72#64⟩, fun _ => 8#8⟩, .returnNext 0,
   .publisher 0 .reclaim, .publisher 0 .next,
   .receive 0, .receiveNext 0, .receiveNext 0, .receive 0, .receiveNext 0]

/-- Everything has been received, and the receive is about to find that out. -/
theorem end_to_end_delivery_two :
    ∃ s : Service 1, Reach Service.step oneSubscriber (Service.init ⟨4, 4⟩) s
      ∧ s.publishers.map (fun pub => (pub.sentOk.length, pub.links.map (fun link => link.received)))
          = [(3, [[fun _ => 7#8, fun _ => 8#8]]), (1, [[fun _ => 0#8]])]
      ∧ s.returnsNone (.receiveNext 0)
      ∧ ∀ pub ∈ s.publishers, ∃ link, pub.links = [link]
          ∧ link.received = pub.sentOk.drop link.base := by
  have hrun : (execOk Service.step oneSubscriber (Service.init ⟨4, 4⟩) twoPublishers).map
      (fun s => (s.publishers.map (fun pub =>
          (pub.sentOk.length, pub.links.map (fun link => link.received))),
        s.subscribers, s.hasSample (1, 0)))
      = some ([(3, [[fun _ => 7#8, fun _ => 8#8]]), (1, [[fun _ => 0#8]])],
          [{ connections := [(0, 0), (1, 0)], pc := .receiving 1 true, alive := true }], false) := by
    decide
  obtain ⟨s, hs, hend⟩ := Option.map_eq_some_iff.mp hrun
  simp only [Prod.mk.injEq] at hend
  obtain ⟨hreceived, hsubs, hsample⟩ := hend
  have hreach := Reach.of_execOk twoPublishers .refl hs
  have hnone : s.returnsNone (.receiveNext 0) := by
    refine ⟨_, 1, (1, 0), by rw [hsubs]; rfl, rfl, rfl, rfl, hsample⟩
  exact ⟨s, hreach, hreceived, hnone,
    (end_to_end_delivery ⟨4, 4⟩ s hreach).2 (.receiveNext 0) hnone⟩

end Entangle.PubSub
