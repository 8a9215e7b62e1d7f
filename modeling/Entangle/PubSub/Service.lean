/-
  Entangle.PubSub.Service — a publish-subscribe service: any number of
  publishers and subscribers, created and dropped while others run.

  Each port is used by one thread; a step is one step of one thread.  The
  wiring mutex of `PubSubShared` is held by a subscriber that is being created
  (`SubscriberPc.creating`), so nothing else is created meanwhile.

  Main results:
    * `step_cases` — everything a step of the service can do;
    * `publishers_invariant` — what one publisher keeps holds of every
      publisher in every reachable state of the service;
    * `attached_of_reach` — a subscriber and its channels agree on whether it
      still exists.
-/
import Entangle.Lib.Tables
import Entangle.Lib.Transition
import Entangle.PubSub.Publisher

namespace Entangle.PubSub

open Entangle.Lib Entangle.Transport

/-! ## §1. Ports and steps. -/

/-- Where a subscriber's thread stands. -/
inductive SubscriberPc where
  -- inside `create`, about to connect to publisher `next`
  | creating (next : Nat)
  | idle
  -- inside `receive`, at connection `next`; `quiet`: no send has overlapped it
  | receiving (next : Nat) (quiet : Bool)
  -- inside the drop of a sample from channel `k` of publisher `p`
  | returning (p k : Nat)
  deriving Repr, DecidableEq

/-- A subscriber: the channels it has got from the publishers that existed when it was
created, and where it stands in `create`, `receive` or the drop of a sample. -/
structure Subscriber where
  -- publisher and position in its channel list
  connections : List (Nat × Nat)
  pc : SubscriberPc
  alive : Bool
  deriving Repr, DecidableEq

/-- A publish-subscribe service in one process: publishers are added at the end and stay,
and so do subscribers, dropped ones included. -/
structure Service (size : Nat) where
  qos : PubSubQos
  publishers : List (Publisher size)
  subscribers : List Subscriber

variable {size : Nat}

/-- The steps of a service.  The creation of a subscriber and a `receive` go through the
publishers, and other steps may come between one publisher and the next. -/
inductive Act (size : Nat) where
  | createPublisher
  -- a step of publisher `p` itself
  | publisher (p : Nat) (a : PublisherAct size)
  | createSubscriber
  | connectNext (i : Nat)
  | receive (i : Nat)
  | receiveNext (i : Nat)
  | dropSample (i p k : Nat) (sample : Sample size)
  | returnNext (i : Nat)
  | dropSubscriber (i : Nat)

/-- The steps of a publisher that its own thread takes. -/
def PublisherAct.byPublisher : PublisherAct size → Bool
  | .loan | .write _ _ | .send _ | .dropMut _ | .reclaim | .next => true
  | .connect _ | .receive _ | .dropSample _ _ | .returnNext _ | .close _ => false

def PublisherPc.isSending : PublisherPc size → Bool
  | .sending _ _ _ => true
  | _ => false

def PublisherPc.isIdle : PublisherPc size → Bool
  | .idle => true
  | _ => false

theorem PublisherPc.isIdle_iff {pc : PublisherPc size} : pc.isIdle = true ↔ pc = .idle := by
  cases pc <;> simp [PublisherPc.isIdle]

def SubscriberPc.isCreating : SubscriberPc → Bool
  | .creating _ => true
  | _ => false

/-- A send begins: every receive under way has been overlapped. -/
def Subscriber.disturbed (s : Subscriber) : Subscriber :=
  match s.pc with
  | .receiving next _ => { s with pc := .receiving next false }
  | _ => s

namespace Service

/-- Nobody holds the wiring mutex. -/
def wiringFree (s : Service size) : Bool := s.subscribers.all (fun u => !u.pc.isCreating)

def setPublisher (s : Service size) (p : Nat) (pub : Publisher size) : Service size :=
  { s with publishers := s.publishers.set p pub }

def setSubscriber (s : Service size) (i : Nat) (u : Subscriber) : Service size :=
  { s with subscribers := s.subscribers.set i u }

/-- A step of publisher `p`, or of the other end of one of its channels. -/
def onPublisher (s : Service size) (p : Nat) (a : PublisherAct size) : Option (Service size) :=
  s.publishers[p]?.bind (fun pub => (pub.step a).map (s.setPublisher p))

/-- `channel.receive()` on connection `c` would return a sample. -/
def hasSample (s : Service size) (c : Nat × Nat) : Bool :=
  match s.publishers[c.1]?.bind (fun pub => pub.links[c.2]?) with
  | some link =>
      match link.channel.receive.1 with
      | .ok _ => true
      | .error _ => false
  | none => false

/-- One round of the loop in `Subscriber::receive`. -/
def receiveNext (s : Service size) (i : Nat) (u : Subscriber) (next : Nat) (quiet : Bool) :
    Option (Service size) :=
  u.connections[next]?.bind (fun c =>
    (s.onPublisher c.1 (.receive c.2)).map (fun s' =>
      let pc :=
        if s.hasSample c then .idle
        else if next + 1 < u.connections.length then .receiving (next + 1) quiet
        else .idle
      s'.setSubscriber i { u with pc := pc }))

/-- One round of the loop in `SubscriberBuilder::create`, or its end. -/
def connectNext (s : Service size) (i : Nat) (u : Subscriber) (next : Nat) :
    Option (Service size) :=
  match s.publishers[next]? with
  | some pub =>
      (s.onPublisher next (.connect i)).map (fun s' =>
        s'.setSubscriber i
          { u with
            connections := u.connections ++ [(next, pub.links.length)]
            pc := .creating (next + 1) })
  | none => some (s.setSubscriber i { u with pc := .idle })

/-- The sample of channel `k` of publisher `p` is still inside `return_offset`. -/
def stillDropping (s : Service size) (p k : Nat) : Bool :=
  match s.publishers[p]?.bind (fun pub => pub.links[k]?) with
  | some link => link.dropping.isSome
  | none => false

def step (s : Service size) : Act size → Option (Service size)
  | .createPublisher =>
      if s.wiringFree then
        (Publisher.create size s.qos).map (fun pub =>
          { s with publishers := s.publishers ++ [pub] })
      else none
  | .publisher p a =>
      if a.byPublisher then
        (s.onPublisher p a).map (fun s' =>
          match a with
          | .send _ => { s' with subscribers := s'.subscribers.map Subscriber.disturbed }
          | _ => s')
      else none
  | .createSubscriber =>
      if s.wiringFree then
        some { s with
          subscribers := s.subscribers ++ [{ connections := [], pc := .creating 0, alive := true }] }
      else none
  | .connectNext i =>
      match s.subscribers[i]? with
      | some u =>
          match u.pc with
          | .creating next => s.connectNext i u next
          | _ => none
      | none => none
  | .receive i =>
      match s.subscribers[i]? with
      | some u =>
          if u.alive ∧ u.pc = .idle then
            if u.connections = [] then some s
            else
              let quiet := s.publishers.all (fun pub => !pub.pc.isSending)
              some (s.setSubscriber i { u with pc := .receiving 0 quiet })
          else none
      | none => none
  | .receiveNext i =>
      match s.subscribers[i]? with
      | some u =>
          match u.pc with
          | .receiving next quiet => s.receiveNext i u next quiet
          | _ => none
      | none => none
  | .dropSample i p k sample =>
      match s.subscribers[i]? with
      | some u =>
          if u.pc = .idle ∧ (p, k) ∈ u.connections then
            (s.onPublisher p (.dropSample k sample)).map (fun s' =>
              s'.setSubscriber i { u with pc := .returning p k })
          else none
      | none => none
  | .returnNext i =>
      match s.subscribers[i]? with
      | some u =>
          match u.pc with
          | .returning p k =>
              (s.onPublisher p (.returnNext k)).map (fun s' =>
                s'.setSubscriber i
                  { u with pc := if s'.stillDropping p k then .returning p k else .idle })
          | _ => none
      | none => none
  | .dropSubscriber i =>
      match s.subscribers[i]? with
      | some u =>
          if u.alive ∧ u.pc = .idle then
            some { s.setSubscriber i { u with alive := false } with
              publishers := s.publishers.map (fun pub => pub.close i) }
          else none
      | none => none

/-- A new service. -/
def init (qos : PubSubQos) : Service size := { qos := qos, publishers := [], subscribers := [] }

end Service

/-! ## §2. What a step does. -/

open Service

/-- The step of a publisher, or of the other end of one of its channels, that a
step of the service is. -/
def Service.moved (s : Service size) : Act size → Option (Nat × PublisherAct size)
  | .publisher p a => some (p, a)
  | .connectNext i =>
      match s.subscribers[i]?.map Subscriber.pc with
      | some (.creating next) => some (next, .connect i)
      | _ => none
  | .receiveNext i =>
      s.subscribers[i]?.bind (fun u =>
        match u.pc with
        | .receiving next _ => u.connections[next]?.map (fun c => (c.1, .receive c.2))
        | _ => none)
  | .dropSample _ p k sample => some (p, .dropSample k sample)
  | .returnNext i =>
      match s.subscribers[i]?.map Subscriber.pc with
      | some (.returning p k) => some (p, .returnNext k)
      | _ => none
  | _ => none

/-- The subscriber a step drops. -/
def Act.dropped : Act size → Option Nat
  | .dropSubscriber i => some i
  | _ => none

/-- Everything a step of the service can do. -/
inductive ServiceStep (s : Service size) : Act size → Service size → Prop
  | createPublisher (pub : Publisher size) : s.wiringFree = true →
      Publisher.create size s.qos = some pub →
      ServiceStep s .createPublisher { s with publishers := s.publishers ++ [pub] }
  | publisher (p : Nat) (a : PublisherAct size) (pub pub' : Publisher size) :
      a.byPublisher = true → s.publishers[p]? = some pub → pub.step a = some pub' →
      (∀ offset, a ≠ .send offset) → ServiceStep s (.publisher p a) (s.setPublisher p pub')
  | send (p : Nat) (offset : PointerOffset) (pub pub' : Publisher size) :
      s.publishers[p]? = some pub → pub.step (.send offset) = some pub' →
      ServiceStep s (.publisher p (.send offset))
        { s.setPublisher p pub' with subscribers := s.subscribers.map Subscriber.disturbed }
  | createSubscriber : s.wiringFree = true →
      ServiceStep s .createSubscriber
        { s with subscribers :=
            s.subscribers ++ [{ connections := [], pc := .creating 0, alive := true }] }
  | connectNext (i : Nat) (u : Subscriber) (next : Nat) (pub pub' : Publisher size) :
      s.subscribers[i]? = some u → u.pc = .creating next → s.publishers[next]? = some pub →
      pub.step (.connect i) = some pub' →
      ServiceStep s (.connectNext i)
        ((s.setPublisher next pub').setSubscriber i
          { u with
            connections := u.connections ++ [(next, pub.links.length)]
            pc := .creating (next + 1) })
  | created (i : Nat) (u : Subscriber) (next : Nat) :
      s.subscribers[i]? = some u → u.pc = .creating next → s.publishers[next]? = none →
      ServiceStep s (.connectNext i) (s.setSubscriber i { u with pc := .idle })
  | receiveNothing (i : Nat) (u : Subscriber) :
      s.subscribers[i]? = some u → u.pc = .idle → u.connections = [] →
      ServiceStep s (.receive i) s
  | receive (i : Nat) (u : Subscriber) :
      s.subscribers[i]? = some u → u.alive = true → u.pc = .idle → u.connections ≠ [] →
      ServiceStep s (.receive i)
        (s.setSubscriber i
          { u with pc := .receiving 0 (s.publishers.all (fun pub => !pub.pc.isSending)) })
  | receiveNext (i : Nat) (u : Subscriber) (next : Nat) (quiet : Bool) (c : Nat × Nat)
      (pub pub' : Publisher size) :
      s.subscribers[i]? = some u → u.pc = .receiving next quiet →
      u.connections[next]? = some c → s.publishers[c.1]? = some pub →
      pub.step (.receive c.2) = some pub' →
      ServiceStep s (.receiveNext i)
        ((s.setPublisher c.1 pub').setSubscriber i
          { u with
            pc :=
              if s.hasSample c then .idle
              else if next + 1 < u.connections.length then .receiving (next + 1) quiet
              else .idle })
  | dropSample (i p k : Nat) (sample : Sample size) (u : Subscriber) (pub pub' : Publisher size) :
      s.subscribers[i]? = some u → u.pc = .idle → s.publishers[p]? = some pub →
      pub.step (.dropSample k sample) = some pub' →
      ServiceStep s (.dropSample i p k sample)
        ((s.setPublisher p pub').setSubscriber i { u with pc := .returning p k })
  | returnNext (i p k : Nat) (u : Subscriber) (pub pub' : Publisher size) :
      s.subscribers[i]? = some u → u.pc = .returning p k → s.publishers[p]? = some pub →
      pub.step (.returnNext k) = some pub' →
      ServiceStep s (.returnNext i)
        ((s.setPublisher p pub').setSubscriber i
          { u with
            pc := if (s.setPublisher p pub').stillDropping p k then .returning p k else .idle })
  | dropSubscriber (i : Nat) (u : Subscriber) :
      s.subscribers[i]? = some u → u.pc = .idle →
      ServiceStep s (.dropSubscriber i)
        { s.setSubscriber i { u with alive := false } with
          publishers := s.publishers.map (fun pub => pub.close i) }

theorem onPublisher_eq {s s' : Service size} {p : Nat} {a : PublisherAct size}
    (h : s.onPublisher p a = some s') :
    ∃ pub pub', s.publishers[p]? = some pub ∧ pub.step a = some pub'
      ∧ s' = s.setPublisher p pub' := by
  obtain ⟨pub, hpub, hstep⟩ := Option.bind_eq_some_iff.mp h
  obtain ⟨pub', hpub', rfl⟩ := Option.map_eq_some_iff.mp hstep
  exact ⟨pub, pub', hpub, hpub', rfl⟩

/-- **The steps of the service.** -/
theorem step_cases {s s' : Service size} {a : Act size} (hs : s.step a = some s') :
    ServiceStep s a s' := by
  cases a with
  | createPublisher =>
      simp only [Service.step] at hs
      split at hs
      next hfree =>
        obtain ⟨pub, hpub, rfl⟩ := Option.map_eq_some_iff.mp hs
        exact .createPublisher pub hfree hpub
      next => exact absurd hs (by simp)
  | publisher p a =>
      simp only [Service.step] at hs
      split at hs
      next hby =>
        obtain ⟨t, ht, rfl⟩ := Option.map_eq_some_iff.mp hs
        obtain ⟨pub, pub', hpub, hstep, rfl⟩ := onPublisher_eq ht
        -- only `send` also touches the subscribers
        split
        next offset => exact .send p offset pub pub' hpub hstep
        next hne => exact .publisher p _ pub pub' hby hpub hstep hne
      next => exact absurd hs (by simp)
  | createSubscriber =>
      simp only [Service.step] at hs
      split at hs
      next hfree =>
        injection hs with hs
        subst hs
        exact .createSubscriber hfree
      next => exact absurd hs (by simp)
  | connectNext i =>
      simp only [Service.step] at hs
      split at hs
      next u hu =>
        split at hs
        next next hpc =>
          unfold Service.connectNext at hs
          split at hs
          next pub₀ hpub₀ =>
            obtain ⟨t, ht, rfl⟩ := Option.map_eq_some_iff.mp hs
            obtain ⟨pub, pub', hpub, hstep, rfl⟩ := onPublisher_eq ht
            rw [hpub] at hpub₀
            obtain rfl := Option.some.inj hpub₀
            exact .connectNext i u next pub pub' hu hpc hpub hstep
          next hnone =>
            injection hs with hs
            subst hs
            exact .created i u next hu hpc hnone
        next => exact absurd hs (by simp)
      next => exact absurd hs (by simp)
  | receive i =>
      simp only [Service.step] at hs
      split at hs
      next u hu =>
        split at hs
        next hidle =>
          split at hs
          next hnil =>
            injection hs with hs
            subst hs
            exact .receiveNothing i u hu hidle.2 hnil
          next hne =>
            injection hs with hs
            subst hs
            exact .receive i u hu hidle.1 hidle.2 hne
        next => exact absurd hs (by simp)
      next => exact absurd hs (by simp)
  | receiveNext i =>
      simp only [Service.step] at hs
      split at hs
      next u hu =>
        split at hs
        next next quiet hpc =>
          obtain ⟨c, hc, hmap⟩ := Option.bind_eq_some_iff.mp hs
          obtain ⟨t, ht, rfl⟩ := Option.map_eq_some_iff.mp hmap
          obtain ⟨pub, pub', hpub, hstep, rfl⟩ := onPublisher_eq ht
          exact .receiveNext i u next quiet c pub pub' hu hpc hc hpub hstep
        next => exact absurd hs (by simp)
      next => exact absurd hs (by simp)
  | dropSample i p k sample =>
      simp only [Service.step] at hs
      split at hs
      next u hu =>
        split at hs
        next hidle =>
          obtain ⟨t, ht, rfl⟩ := Option.map_eq_some_iff.mp hs
          obtain ⟨pub, pub', hpub, hstep, rfl⟩ := onPublisher_eq ht
          exact .dropSample i p k sample u pub pub' hu hidle.1 hpub hstep
        next => exact absurd hs (by simp)
      next => exact absurd hs (by simp)
  | returnNext i =>
      simp only [Service.step] at hs
      split at hs
      next u hu =>
        split at hs
        next p k hpc =>
          obtain ⟨t, ht, rfl⟩ := Option.map_eq_some_iff.mp hs
          obtain ⟨pub, pub', hpub, hstep, rfl⟩ := onPublisher_eq ht
          exact .returnNext i p k u pub pub' hu hpc hpub hstep
        next => exact absurd hs (by simp)
      next => exact absurd hs (by simp)
  | dropSubscriber i =>
      simp only [Service.step] at hs
      split at hs
      next u hu =>
        split at hs
        next hidle =>
          injection hs with hs
          subst hs
          exact .dropSubscriber i u hu hidle.2
        next => exact absurd hs (by simp)
      next => exact absurd hs (by simp)

/-! ## §3. The publishers of a service. -/

/-- What a step of the service is for its publishers. -/
inductive PublishersStep (s s' : Service size) : Act size → Prop
  | created (pub : Publisher size) : Publisher.create size s.qos = some pub →
      s'.publishers = s.publishers ++ [pub] → PublishersStep s s' .createPublisher
  | moved {act : Act size} (p : Nat) (a : PublisherAct size) (pub pub' : Publisher size) :
      s.moved act = some (p, a) → s.publishers[p]? = some pub → pub.step a = some pub' →
      s'.publishers = s.publishers.set p pub' → PublishersStep s s' act
  | none {act : Act size} : s'.publishers = s.publishers → PublishersStep s s' act
  | closed (i : Nat) : s'.publishers = s.publishers.map (fun pub => pub.close i) →
      PublishersStep s s' (.dropSubscriber i)

theorem step_publishers {s s' : Service size} {a : Act size} (hs : s.step a = some s') :
    PublishersStep s s' a ∧ s'.qos = s.qos := by
  cases step_cases hs with
  | createPublisher pub _ hpub => exact ⟨.created pub hpub rfl, rfl⟩
  | publisher p b pub pub' _ hpub hstep _ => exact ⟨.moved p b pub pub' rfl hpub hstep rfl, rfl⟩
  | send p offset pub pub' hpub hstep =>
      exact ⟨.moved p (.send offset) pub pub' rfl hpub hstep rfl, rfl⟩
  | createSubscriber _ => exact ⟨.none rfl, rfl⟩
  | connectNext i u next pub pub' hu hpc hpub hstep =>
      refine ⟨.moved next (.connect i) pub pub' ?_ hpub hstep rfl, rfl⟩
      simp only [Service.moved, hu, Option.map_some, hpc]
  | created i u next _ _ _ => exact ⟨.none rfl, rfl⟩
  | receiveNothing i u _ _ _ => exact ⟨.none rfl, rfl⟩
  | receive i u _ _ _ _ => exact ⟨.none rfl, rfl⟩
  | receiveNext i u next quiet c pub pub' hu hpc hc hpub hstep =>
      refine ⟨.moved c.1 (.receive c.2) pub pub' ?_ hpub hstep rfl, rfl⟩
      simp only [Service.moved, hu, Option.bind_some, hpc, hc, Option.map_some]
  | dropSample i p k sample u pub pub' _ _ hpub hstep =>
      exact ⟨.moved p (.dropSample k sample) pub pub' rfl hpub hstep rfl, rfl⟩
  | returnNext i p k u pub pub' hu hpc hpub hstep =>
      refine ⟨.moved p (.returnNext k) pub pub' ?_ hpub hstep rfl, rfl⟩
      simp only [Service.moved, hu, Option.map_some, hpc]
  | dropSubscriber i u _ _ => exact ⟨.closed i rfl, rfl⟩

/-- A condition on the steps of one publisher, from one on the steps of the service. -/
structure Localises (ok : Service size → Act size → Prop)
    (okLocal : Publisher size → PublisherAct size → Prop) : Prop where
  moved : ∀ s act p a pub, ok s act → s.moved act = some (p, a) → s.publishers[p]? = some pub →
    okLocal pub a
  closed : ∀ s i pub, ok s (.dropSubscriber i) → pub ∈ s.publishers → okLocal pub (.close i)

/-- One step keeps what every publisher keeps. -/
theorem publishers_step {ok : Service size → Act size → Prop}
    {okLocal : Publisher size → PublisherAct size → Prop} (hok : Localises ok okLocal)
    {I : Publisher size → Prop} {s s' : Service size} {a : Act size}
    (hcreate : ∀ pub, Publisher.create size s.qos = some pub → I pub)
    (hstep : ∀ pub a pub', I pub → okLocal pub a → pub.step a = some pub' → I pub')
    (hinv : ∀ pub ∈ s.publishers, I pub) (ha : ok s a) (hs : s.step a = some s') :
    ∀ pub ∈ s'.publishers, I pub := by
  obtain ⟨hp, _⟩ := step_publishers hs
  intro pub hpub
  cases hp with
  | created new hnew he =>
      rw [he] at hpub
      rcases List.mem_append.mp hpub with hpub | hpub
      · exact hinv pub hpub
      · rw [List.mem_singleton.mp hpub]
        exact hcreate new hnew
  | moved p b old new hmoved hold hb he =>
      rw [he] at hpub
      rcases List.mem_or_eq_of_mem_set hpub with hpub | rfl
      · exact hinv pub hpub
      · exact hstep old b pub (hinv old (List.mem_of_getElem? hold))
          (hok.moved s a p b old ha hmoved hold) hb
  | none he =>
      rw [he] at hpub
      exact hinv pub hpub
  | closed i he =>
      rw [he] at hpub
      obtain ⟨old, hold, rfl⟩ := List.mem_map.mp hpub
      exact hstep old (.close i) _ (hinv old hold) (hok.closed s i old ha hold) rfl

theorem qos_of_reach {ok : Service size → Act size → Prop} {qos : PubSubQos} {s : Service size}
    (hs : Reach Service.step ok (Service.init qos) s) : s.qos = qos :=
  hs.invariant (fun s => s.qos = qos) rfl
    (fun _ _ _ hi _ hstep => (step_publishers hstep).2.trans hi)

/-- **What one publisher keeps holds of every publisher of the service.** -/
theorem publishers_invariant {ok : Service size → Act size → Prop}
    {okLocal : Publisher size → PublisherAct size → Prop} (hok : Localises ok okLocal)
    {I : Publisher size → Prop} {qos : PubSubQos}
    (hcreate : ∀ pub, Publisher.create size qos = some pub → I pub)
    (hstep : ∀ pub a pub', I pub → okLocal pub a → pub.step a = some pub' → I pub')
    {s : Service size} (hs : Reach Service.step ok (Service.init qos) s) :
    ∀ pub ∈ s.publishers, I pub := by
  refine hs.invariant_of_reach (fun s => ∀ pub ∈ s.publishers, I pub) ?_ ?_
  · intro pub hpub
    exact absurd hpub (by simp [Service.init])
  · intro t a t' hr hinv ha ht
    refine publishers_step hok ?_ hstep hinv ha ht
    rw [qos_of_reach hr]
    exact hcreate

/-! ## §4. The other ends of the channels. -/

/-- Which subscriber is at the other end of each channel, and whether it still exists. -/
def Publisher.ends (p : Publisher size) : List (Nat × Bool) :=
  p.links.map (fun link => (link.subscriber, link.alive))

/-- What a step of the publisher makes of them. -/
def PublisherAct.endsAfter (ends : List (Nat × Bool)) : PublisherAct size → List (Nat × Bool)
  | .connect i => ends ++ [(i, true)]
  | .close i => ends.map (fun e => if e.1 = i then (e.1, false) else e)
  | _ => ends

theorem ends_congr {p p' : Publisher size} (h : p'.links = p.links) : p'.ends = p.ends := by
  unfold Publisher.ends
  rw [h]

/-- A channel is replaced by one with the same end. -/
theorem ends_setLink {p p' : Publisher size} {k : Nat} {link link' : Link size}
    (hk : p.links[k]? = some link) (hlinks : p'.links = p.links.set k link')
    (hsubscriber : link'.subscriber = link.subscriber) (halive : link'.alive = link.alive) :
    p'.ends = p.ends := by
  unfold Publisher.ends
  rw [hlinks, List.map_set, hsubscriber, halive]
  apply set_same
  rw [List.getElem?_map, hk, Option.map_some]

theorem ends_step {p p' : Publisher size} {a : PublisherAct size} (hs : p.step a = some p') :
    p'.ends = a.endsAfter p.ends := by
  cases Publisher.step_cases hs with
  | loan result _ _ hloan => exact ends_congr (Publisher.loan_links hloan)
  | write offset value _ _ => rfl
  | send offset _ _ => exact ends_congr (p.send_links offset)
  | dropMut offset q _ _ hq =>
      have hlinks : q.links = p.links := Publisher.release_links hq
      exact ends_congr hlinks
  | reclaimNothing _ _ => rfl
  | reclaim _ _ => rfl
  | sendNext offset value k _ _ hs =>
      obtain ⟨link, hk, rfl⟩ := Option.map_eq_some_iff.mp hs
      dsimp only
      split
      next => rfl
      next => split <;> exact ends_setLink hk rfl rfl rfl
  | reclaimNext k _ _ hs =>
      obtain ⟨link, hk, rfl⟩ := Option.map_eq_some_iff.mp hs
      dsimp only
      split
      next => exact ends_setLink hk rfl rfl rfl
      next => rfl
  | released k offset q _ hq =>
      have hlinks : q.links = p.links := Publisher.release_links hq
      exact ends_congr hlinks
  | connect subscriber _ =>
      unfold Publisher.ends Publisher.connect PublisherAct.endsAfter
      rw [List.map_append, List.map_singleton]
  | receive k _ hs =>
      obtain ⟨link, hk, rfl⟩ := Option.map_eq_some_iff.mp hs
      dsimp only
      split
      next => exact ends_setLink hk rfl rfl rfl
      next => rfl
  | dropSample k sample _ hs =>
      obtain ⟨link, hk, hcond⟩ := Option.bind_eq_some_iff.mp hs
      split at hcond
      next =>
        injection hcond with hcond
        subst hcond
        exact ends_setLink hk rfl rfl rfl
      next => exact absurd hcond (by simp)
  | returnNext k _ hs =>
      obtain ⟨link, hk, hdrop⟩ := Option.bind_eq_some_iff.mp hs
      obtain ⟨x, _, rfl⟩ := Option.map_eq_some_iff.mp hdrop
      split
      next => exact ends_setLink hk rfl rfl rfl
      next => rfl
  | close subscriber =>
      show List.map _ (List.map _ p.links) = List.map _ (List.map _ p.links)
      rw [List.map_map, List.map_map]
      apply List.map_congr_left
      intro link _
      simp only [Function.comp_apply]
      split <;> rfl

/-- The subscriber creates or receives: it has not been dropped. -/
def SubscriberPc.ofLiving : SubscriberPc → Bool
  | .creating _ | .receiving _ _ => true
  | .idle | .returning _ _ => false

/-- The end of the channel that a subscriber knows as connection `c`. -/
def Service.endAt (s : Service size) (c : Nat × Nat) : Option (Nat × Bool) :=
  s.publishers[c.1]?.bind (fun pub => pub.ends[c.2]?)

/-- A subscriber and its channels agree on whether it still exists, and one that is
gone neither creates nor receives. -/
structure Attached (s : Service size) : Prop where
  living : ∀ (i : Nat) (u : Subscriber), s.subscribers[i]? = some u → u.pc.ofLiving = true →
    u.alive = true
  ends : ∀ (i : Nat) (u : Subscriber), s.subscribers[i]? = some u → ∀ c ∈ u.connections,
    s.endAt c = some (i, u.alive)

/-- The connections stay where they are. -/
theorem endAt_setPublisher {s : Service size} {p : Nat} {pub pub' : Publisher size}
    {new : List (Nat × Bool)} (hpub : s.publishers[p]? = some pub)
    (hends : pub'.ends = pub.ends ++ new) {c : Nat × Nat} {e : Nat × Bool}
    (h : s.endAt c = some e) : (s.setPublisher p pub').endAt c = some e := by
  obtain ⟨q, hq, he⟩ := Option.bind_eq_some_iff.mp h
  show (s.publishers.set p pub')[c.1]?.bind (fun pub => pub.ends[c.2]?) = some e
  rcases set_of_some pub' hpub hq with ⟨_, rfl, hset⟩ | ⟨_, hset⟩
  · rw [hset, Option.bind_some, hends]
    exact append_of_some _ he
  · rw [hset, Option.bind_some]
    exact he

/-- One subscriber moves on. -/
theorem Attached.setSubscriber {s s' : Service size} (h : Attached s) {i : Nat} {u u' : Subscriber}
    (hu : s.subscribers[i]? = some u) (hsubscribers : s'.subscribers = s.subscribers.set i u')
    (hends : ∀ c e, s.endAt c = some e → s'.endAt c = some e)
    (halive : u'.alive = u.alive) (hliving : u'.pc.ofLiving = true → u'.alive = true)
    (hnew : ∀ c ∈ u'.connections, c ∈ u.connections ∨ s'.endAt c = some (i, u'.alive)) :
    Attached s' := by
  constructor
  · rw [hsubscribers]
    exact forall_set (fun hpc => hliving hpc) (fun j w _ hw => h.living j w hw)
  · rw [hsubscribers]
    refine forall_set (fun c hc => ?_) (fun j w _ hw c hc => hends c _ (h.ends j w hw c hc))
    rcases hnew c hc with hold | hnew
    · rw [halive]
      exact hends c _ (h.ends i u hu c hold)
    · exact hnew

/-- The publishers move on. -/
theorem Attached.publishers {s s' : Service size} (h : Attached s)
    (hsubscribers : s'.subscribers = s.subscribers)
    (hends : ∀ c e, s.endAt c = some e → s'.endAt c = some e) : Attached s' := by
  constructor
  · rw [hsubscribers]
    exact h.living
  · rw [hsubscribers]
    exact fun i u hu c hc => hends c _ (h.ends i u hu c hc)

theorem Attached.disturbed {s : Service size} (h : Attached s) :
    Attached { s with subscribers := s.subscribers.map Subscriber.disturbed } := by
  have hsame : ∀ u : Subscriber, u.disturbed.alive = u.alive
      ∧ u.disturbed.connections = u.connections
      ∧ u.disturbed.pc.ofLiving = u.pc.ofLiving := by
    intro u
    unfold Subscriber.disturbed
    split
    next hpc =>
      rw [hpc]
      exact ⟨rfl, rfl, rfl⟩
    next => exact ⟨rfl, rfl, rfl⟩
  constructor
  · intro i u hu hpc
    rw [List.getElem?_map] at hu
    obtain ⟨w, hw, rfl⟩ := Option.map_eq_some_iff.mp hu
    obtain ⟨halive, _, hliving⟩ := hsame w
    rw [halive]
    exact h.living i w hw (hliving.symm.trans hpc)
  · intro i u hu c hc
    rw [List.getElem?_map] at hu
    obtain ⟨w, hw, rfl⟩ := Option.map_eq_some_iff.mp hu
    obtain ⟨halive, hconnections, _⟩ := hsame w
    rw [halive]
    rw [hconnections] at hc
    exact h.ends i w hw c hc

/-- Subscriber `i` is dropped, and its channels are closed. -/
theorem Attached.closed {s : Service size} (h : Attached s) {i : Nat} {u : Subscriber}
    (hu : s.subscribers[i]? = some u) (hpc : u.pc = .idle) :
    Attached { s.setSubscriber i { u with alive := false } with
      publishers := s.publishers.map (fun pub => pub.close i) } := by
  have hend : ∀ c e, s.endAt c = some e →
      (s.publishers.map (fun pub => pub.close i))[c.1]?.bind (fun pub => pub.ends[c.2]?)
        = some (if e.1 = i then (e.1, false) else e) := by
    intro c e he
    obtain ⟨pub, hpub, he⟩ := Option.bind_eq_some_iff.mp he
    have hclose : (pub.close i).ends = _ := ends_step (a := .close i) rfl
    rw [List.getElem?_map, hpub, Option.map_some, Option.bind_some, hclose,
      PublisherAct.endsAfter, List.getElem?_map, he, Option.map_some]
  constructor
  · refine forall_set (fun hliving => ?_) (fun j w _ hw => h.living j w hw)
    rw [hpc] at hliving
    exact absurd hliving (by simp [SubscriberPc.ofLiving])
  · refine forall_set (fun c hc => ?_) (fun j w hj hw c hc => ?_)
    · exact (hend c _ (h.ends i u hu c hc)).trans (by rw [if_pos rfl])
    · exact (hend c _ (h.ends j w hw c hc)).trans (by rw [if_neg hj])

theorem Attached.step {s s' : Service size} {a : Act size} (h : Attached s)
    (hs : s.step a = some s') : Attached s' := by
  -- a step of a publisher that is neither a connection nor a closing
  have hmove : ∀ {p : Nat} {b : PublisherAct size} {pub pub' : Publisher size},
      s.publishers[p]? = some pub → pub.step b = some pub' → b.endsAfter pub.ends = pub.ends →
      ∀ c e, s.endAt c = some e → (s.setPublisher p pub').endAt c = some e := by
    intro p b pub pub' hpub hb hsame c e he
    have hends : pub'.ends = pub.ends ++ [] := by rw [ends_step hb, hsame, List.append_nil]
    exact endAt_setPublisher hpub hends he
  cases step_cases hs with
  | createPublisher pub _ _ =>
      refine h.publishers rfl (fun c e he => ?_)
      obtain ⟨q, hq, he⟩ := Option.bind_eq_some_iff.mp he
      show (s.publishers ++ [pub])[c.1]?.bind (fun pub => pub.ends[c.2]?) = some e
      rw [append_of_some _ hq, Option.bind_some]
      exact he
  | publisher p b pub pub' hby hpub hb _ =>
      refine h.publishers rfl (hmove hpub hb ?_)
      cases b <;> first | rfl | exact absurd hby (by simp [PublisherAct.byPublisher])
  | send p offset pub pub' hpub hb =>
      have hmoved : Attached (s.setPublisher p pub') := h.publishers rfl (hmove hpub hb rfl)
      exact hmoved.disturbed
  | createSubscriber _ =>
      constructor
      · exact forall_concat (fun i u hu => h.living i u hu) (fun _ => rfl)
      · exact forall_concat (fun i u hu => h.ends i u hu) (fun c hc => absurd hc (by simp))
  | connectNext i u next pub pub' hu hpc hpub hb =>
      have halive : u.alive = true := h.living i u hu (by rw [hpc]; rfl)
      have hends : pub'.ends = pub.ends ++ [(i, true)] := ends_step hb
      refine h.setSubscriber hu rfl (fun c e => endAt_setPublisher hpub hends) rfl
        (fun _ => halive) (fun c hc => ?_)
      rcases List.mem_append.mp hc with hc | hc
      · exact .inl hc
      · right
        obtain rfl := List.mem_singleton.mp hc
        show (s.publishers.set next pub')[next]?.bind (fun pub => pub.ends[_]?) = some (i, u.alive)
        have hlen : pub.links.length = pub.ends.length := (List.length_map _).symm
        rw [List.getElem?_set_self (List.getElem?_eq_some_iff.mp hpub).1, Option.bind_some, hends,
          halive, hlen, List.getElem?_concat_length]
  | created i u next hu _ _ =>
      exact h.setSubscriber hu rfl (fun _ _ he => he) rfl
        (fun hf => absurd hf (by simp [SubscriberPc.ofLiving])) (fun c hc => .inl hc)
  | receiveNothing i u _ _ _ => exact h
  | receive i u hu halive _ _ =>
      exact h.setSubscriber hu rfl (fun _ _ he => he) rfl (fun _ => halive) (fun c hc => .inl hc)
  | receiveNext i u next quiet c pub pub' hu hpc _ hpub hb =>
      have halive : u.alive = true := h.living i u hu (by rw [hpc]; rfl)
      exact h.setSubscriber hu rfl (hmove hpub hb rfl) rfl (fun _ => halive) (fun c hc => .inl hc)
  | dropSample i p k sample u pub pub' hu _ hpub hb =>
      exact h.setSubscriber hu rfl (hmove hpub hb rfl) rfl
        (fun hf => absurd hf (by simp [SubscriberPc.ofLiving])) (fun c hc => .inl hc)
  | returnNext i p k u pub pub' hu _ hpub hb =>
      refine h.setSubscriber hu rfl (hmove hpub hb rfl) rfl (fun hf => ?_) (fun c hc => .inl hc)
      dsimp only at hf
      split at hf <;> exact absurd hf (by simp [SubscriberPc.ofLiving])
  | dropSubscriber i u hu hpc => exact h.closed hu hpc

/-- What is received from is the channel of an existing subscriber. -/
theorem Attached.receives_alive {s s' : Service size} {a : Act size} (h : Attached s)
    (hs : s.step a = some s') {p k : Nat} (hmoved : s.moved a = some (p, .receive k))
    {pub : Publisher size} (hpub : s.publishers[p]? = some pub) {link : Link size}
    (hlink : pub.links[k]? = some link) : link.alive = true := by
  have hfound : ∃ (i : Nat) (u : Subscriber), s.subscribers[i]? = some u ∧ u.alive = true
      ∧ (p, k) ∈ u.connections := by
    cases a with
    | receiveNext i =>
        obtain ⟨u, hu, hmoved⟩ := Option.bind_eq_some_iff.mp hmoved
        split at hmoved
        next next quiet hpc =>
          obtain ⟨c, hc, he⟩ := Option.map_eq_some_iff.mp hmoved
          simp only [Prod.mk.injEq, PublisherAct.receive.injEq] at he
          obtain ⟨rfl, rfl⟩ := he
          exact ⟨i, u, hu, h.living i u hu (by rw [hpc]; rfl), List.mem_of_getElem? hc⟩
        next => exact absurd hmoved (by simp)
    | publisher q b =>
        -- the publisher's own thread does not receive
        simp only [Service.moved, Option.some.injEq, Prod.mk.injEq] at hmoved
        obtain ⟨_, rfl⟩ := hmoved
        exact absurd hs (by simp [Service.step, PublisherAct.byPublisher])
    | connectNext i =>
        simp only [Service.moved] at hmoved
        split at hmoved <;> simp at hmoved
    | returnNext i =>
        simp only [Service.moved] at hmoved
        split at hmoved <;> simp at hmoved
    | _ => exact absurd hmoved (by simp [Service.moved])
  obtain ⟨i, u, hu, halive, hc⟩ := hfound
  have hend := h.ends i u hu (p, k) hc
  unfold Service.endAt Publisher.ends at hend
  rw [hpub, Option.bind_some, List.getElem?_map, hlink, Option.map_some, halive] at hend
  exact (Prod.mk.inj (Option.some.inj hend)).2

/-- **A subscriber and its channels agree on whether it still exists.** -/
theorem attached_of_reach {ok : Service size → Act size → Prop} {qos : PubSubQos}
    {s : Service size} (hs : Reach Service.step ok (Service.init qos) s) : Attached s := by
  refine hs.invariant Attached ?_ (fun _ _ _ hi _ hstep => hi.step hstep)
  exact ⟨fun i u hu => absurd hu (by simp [Service.init]),
    fun i u hu => absurd hu (by simp [Service.init])⟩

end Entangle.PubSub
