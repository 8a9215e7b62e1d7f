/-
  Entangle.Port.SharedSubscriber — one `Subscriber` used by many threads.

  `Subscriber::receive` takes `&self` and `Sample` is `Send`, so any number of
  threads may pop the send queue of a connection, and drop the samples they
  got, which pushes into its return queue.  The publisher of each connection
  sends and reclaims.  Every load and store inside `SpscQueue::push` and `pop`
  is one step (`pushAccess`, `popAccess`).

  Samples are numbered, per connection, in the order in which `receive`
  returned them.  The lists `sent`, `delivered`, `returned`, `reclaimed`, the
  numbers and the stamps are a record of the past that no access reads.

  Main definitions:
    * `Safe` — nothing is delivered twice, lost or overwritten;
    * `serialised` — every store is made by a thread that no other thread's
      store has overtaken since it loaded the position it stores to.

  Main result:
    * `shared_subscriber_unsafe` — two threads receive the same offset, and two
      drops leave one.
-/
import Entangle.Lockfree.SpscSteps
import Mathlib.Data.List.Nodup

namespace Entangle.Port.SharedSubscriber

open Entangle.Lib Entangle.Lockfree

/-! ## §1. The threads of a subscriber and its publishers. -/

/-- A connection with its publisher's end. -/
structure Connection where
  sendQueue : SpscQueue
  returnQueue : SpscQueue
  sender : PushPc
  reclaimer : PopPc
  sent : List U64
  delivered : List U64
  -- number and offset of each sample put into the return queue
  returned : List (Nat × U64)
  reclaimed : List U64
  -- stores made into the return queue by subscriber threads
  returnStores : Nat

/-- Where a thread stands.  `stamp` is the number of stores that had been made
to the position when the thread loaded it: deliveries for `receiving`,
`returnStores` for `returning`. -/
inductive ThreadPc (m : Nat) where
  | idle
  -- in the loop of `receive`, at connection `k`
  | receiving (k : Fin m) (pc : PopPc) (stamp : Nat)
  -- in the drop of sample `id`; `return_offset` tries until `push` succeeds
  | returning (k : Fin m) (id : Nat) (offset : U64) (pc : PushPc) (stamp : Nat)

/-- The connections of one subscriber, the threads that share it, and the samples they
have received. -/
structure State (m : Nat) (Tid : Type) where
  conn : Fin m → Connection
  thread : Tid → ThreadPc m
  -- the samples that exist: connection, number, offset
  live : List (Fin m × Nat × U64)

/-- A call begins, or one that is under way makes its next access: the publisher's `send`
and `reclaim`, and what the threads do with the subscriber. -/
inductive Act (m : Nat) (Tid : Type) where
  | send (k : Fin m) (offset : U64)
  | sender (k : Fin m)
  | reclaim (k : Fin m)
  | reclaimer (k : Fin m)
  | receive (t : Tid)
  | drop (t : Tid) (k : Fin m) (id : Nat) (offset : U64)
  | thread (t : Tid)
  deriving DecidableEq

variable {m : Nat} {Tid : Type}

def State.setConn (s : State m Tid) (k : Fin m) (c : Connection) : State m Tid :=
  { s with conn := Function.update s.conn k c }

def State.setThread [DecidableEq Tid] (s : State m Tid) (t : Tid) (pc : ThreadPc m) : State m Tid :=
  { s with thread := Function.update s.thread t pc }

/-- The next connection of the loop in `receive`; after the last it returns `None`. -/
def nextConnection (k : Fin m) : ThreadPc m :=
  if h : k.val + 1 < m then .receiving ⟨k.val + 1, h⟩ .idle 0 else .idle

/-- The next access of a thread inside `receive`. -/
def receiveStep [DecidableEq Tid] (s : State m Tid) (t : Tid) (k : Fin m) (pc : PopPc) (stamp : Nat) :
    Option (State m Tid) :=
  let c := s.conn k
  match pc with
  | .idle =>
      some (s.setThread t (.receiving k (.loadedRead c.sendQueue.readPos) c.delivered.length))
  | pc =>
      (popAccess c.sendQueue pc).map (fun r =>
        match r.2.2 with
        | none => s.setThread t (.receiving k r.2.1 stamp)
        | some none => s.setThread t (nextConnection k)
        | some (some v) =>
            { (s.setConn k { c with sendQueue := r.1, delivered := c.delivered ++ [v] }).setThread
                t .idle with
              live := (k, c.delivered.length, v) :: s.live })

/-- The next access of a thread inside the drop of a sample. -/
def returnStep [DecidableEq Tid] (s : State m Tid) (t : Tid) (k : Fin m) (id : Nat)
    (offset : U64) (pc : PushPc) (stamp : Nat) : Option (State m Tid) :=
  let c := s.conn k
  match pc with
  | .idle =>
      some (s.setThread t
        (.returning k id offset (.loadedWrite offset c.returnQueue.writePos) c.returnStores))
  | pc =>
      let stores := if pc.stores then c.returnStores + 1 else c.returnStores
      let stamp' := if pc.stores then c.returnStores + 1 else stamp
      (pushAccess c.returnQueue pc).map (fun r =>
        match r.2.2 with
        | none =>
            (s.setConn k { c with returnQueue := r.1, returnStores := stores }).setThread t
              (.returning k id offset r.2.1 stamp')
        | some false => s.setThread t (.returning k id offset .idle 0)
        | some true =>
            (s.setConn k
              { c with
                returnQueue := r.1
                returnStores := stores
                returned := c.returned ++ [(id, offset)] }).setThread t .idle)

/-- One access. -/
def step [DecidableEq Tid] (s : State m Tid) : Act m Tid → Option (State m Tid)
  | .send k v =>
      if (s.conn k).sender = .idle then
        some (s.setConn k
          { s.conn k with sender := .loadedWrite v (s.conn k).sendQueue.writePos })
      else none
  | .sender k =>
      let c := s.conn k
      (pushAccess c.sendQueue c.sender).map (fun r =>
        s.setConn k
          { c with
            sendQueue := r.1
            sender := r.2.1
            sent := if r.2.2 = some true then c.sent ++ c.sender.value.toList else c.sent })
  | .reclaim k =>
      if (s.conn k).reclaimer = .idle then
        some (s.setConn k
          { s.conn k with reclaimer := .loadedRead (s.conn k).returnQueue.readPos })
      else none
  | .reclaimer k =>
      let c := s.conn k
      (popAccess c.returnQueue c.reclaimer).map (fun r =>
        s.setConn k
          { c with
            returnQueue := r.1
            reclaimer := r.2.1
            reclaimed := c.reclaimed ++ (r.2.2.bind id).toList })
  | .receive t =>
      match s.thread t with
      | .idle =>
          if h : 0 < m then some (s.setThread t (.receiving ⟨0, h⟩ .idle 0)) else some s
      | _ => none
  | .drop t k id offset =>
      match s.thread t with
      | .idle =>
          if (k, id, offset) ∈ s.live then
            some { s.setThread t (.returning k id offset .idle 0) with
              live := s.live.erase (k, id, offset) }
          else none
      | _ => none
  | .thread t =>
      match s.thread t with
      | .idle => none
      | .receiving k pc stamp => receiveStep s t k pc stamp
      | .returning k id offset pc stamp => returnStep s t k id offset pc stamp

/-- A connection as `SubscriberBuilder::create` makes it. -/
def Connection.new (bufferSize : Nat) : Connection :=
  { sendQueue := .new bufferSize, returnQueue := .new bufferSize
    sender := .idle, reclaimer := .idle
    sent := [], delivered := [], returned := [], reclaimed := [], returnStores := 0 }

def init (m bufferSize : Nat) : State m Tid :=
  { conn := fun _ => .new bufferSize, thread := fun _ => .idle, live := [] }

/-! ## §2. What sharing should keep, and when it does. -/

/-- Where a sample number of a connection is. -/
inductive Place (Tid : Type) where
  | notYet
  | live
  | returning (t : Tid)
  | put

/-- The sample `a.2` of connection `a.1` is at `p`. -/
def At (s : State m Tid) (a : Fin m × Nat) : Place Tid → Prop
  | .notYet => (s.conn a.1).delivered.length ≤ a.2
  | .live => ∃ offset, (a.1, a.2, offset) ∈ s.live
  | .returning t => ∃ offset pc stamp, s.thread t = .returning a.1 a.2 offset pc stamp
  | .put => ∃ offset, (a.2, offset) ∈ (s.conn a.1).returned

/-- Every sent offset is delivered at most once, every delivered sample is put
into the return queue exactly once, and what was put stays there until it is
reclaimed. -/
structure Safe (s : State m Tid) : Prop where
  once : ∀ k x, (s.conn k).delivered.count x ≤ (s.conn k).sent.count x
  place : ∀ k i, i < (s.conn k).delivered.length → ∃! p : Place Tid, At s (k, i) p
  putOnce : ∀ k, ((s.conn k).returned.map Prod.fst).Nodup
  putOffset : ∀ k i x, (i, x) ∈ (s.conn k).returned → (s.conn k).delivered[i]? = some x
  kept : ∀ k, (s.conn k).reclaimed ++ (s.conn k).returnQueue.contents
    = (s.conn k).returned.map Prod.snd

/-- The next access of the thread is no store, or no other thread has stored to
that position since this one loaded it. -/
def ThreadPc.NotOvertaken (conn : Fin m → Connection) : ThreadPc m → Prop
  | .receiving k (.loadedValue _ _) stamp => stamp = (conn k).delivered.length
  | .returning k _ _ (.checked _ _) stamp => stamp = (conn k).returnStores
  | .returning k _ _ (.stored _ _) stamp => stamp = (conn k).returnStores
  | _ => True

/-- A receive stores `read_pos` only if no other receive has stored it since
its load of it, and the drop of a sample stores into the return queue only if
no other drop has stored there since its load of `write_pos`. -/
def serialised (s : State m Tid) : Act m Tid → Prop
  | .thread t => (s.thread t).NotOvertaken s.conn
  | _ => True

instance decidableNotOvertaken (conn : Fin m → Connection) :
    (pc : ThreadPc m) → Decidable (pc.NotOvertaken conn)
  | .idle => isTrue trivial
  | .receiving _ .idle _ => isTrue trivial
  | .receiving _ (.loadedRead _) _ => isTrue trivial
  | .receiving _ (.checked _) _ => isTrue trivial
  | .receiving k (.loadedValue _ _) stamp =>
      inferInstanceAs (Decidable (stamp = (conn k).delivered.length))
  | .returning _ _ _ .idle _ => isTrue trivial
  | .returning _ _ _ (.loadedWrite _ _) _ => isTrue trivial
  | .returning k _ _ (.checked _ _) stamp =>
      inferInstanceAs (Decidable (stamp = (conn k).returnStores))
  | .returning k _ _ (.stored _ _) stamp =>
      inferInstanceAs (Decidable (stamp = (conn k).returnStores))

instance decidableSerialised (s : State m Tid) : (a : Act m Tid) → Decidable (serialised s a)
  | .thread t => inferInstanceAs (Decidable ((s.thread t).NotOvertaken s.conn))
  | .send _ _ => isTrue trivial
  | .sender _ => isTrue trivial
  | .reclaim _ => isTrue trivial
  | .reclaimer _ => isTrue trivial
  | .receive _ => isTrue trivial
  | .drop _ _ _ _ => isTrue trivial

/-! ## §3. What goes wrong. -/

/-- Both threads load the same `read_pos`. -/
def twiceRun : List (Act 1 Bool) :=
  [.send 0 64#64, .sender 0, .sender 0, .sender 0, .receive true, .receive false,
   .thread true, .thread false, .thread true, .thread false, .thread true, .thread false,
   .thread true, .thread false]

/-- Both threads find the same free slot of the return queue. -/
def overwriteRun : List (Act 1 Bool) :=
  [.send 0 64#64, .sender 0, .sender 0, .sender 0, .send 0 72#64, .sender 0, .sender 0, .sender 0,
   .receive true, .thread true, .thread true, .thread true, .thread true,
   .receive true, .thread true, .thread true, .thread true, .thread true,
   .drop true 0 0 64#64, .drop false 0 1 72#64,
   .thread true, .thread false, .thread true, .thread false,
   .thread true, .thread false, .thread true, .thread false]

/-- **A shared handle is not safe.**  Two threads that receive at once both get
the only offset that was sent; and of the offsets of two samples that are
dropped at once only one is left in the return queue. -/
theorem shared_subscriber_unsafe :
    (∃ s : State 1 Bool, Reach step anyStep (init 1 2) s
      ∧ (s.conn 0).sent = [64#64] ∧ (s.conn 0).delivered = [64#64, 64#64] ∧ ¬ Safe s)
    ∧ (∃ s : State 1 Bool, Reach step anyStep (init 1 2) s
      ∧ (s.conn 0).returned = [(0, 64#64), (1, 72#64)]
      ∧ (s.conn 0).returnQueue.contents = [72#64] ∧ ¬ Safe s) := by
  constructor
  · have hrun : (exec step (init 1 2 : State 1 Bool) twiceRun).map
        (fun s => ((s.conn 0).sent, (s.conn 0).delivered))
          = some ([64#64], [64#64, 64#64]) := by decide
    obtain ⟨s, hs, hf⟩ := Option.map_eq_some_iff.mp hrun
    obtain ⟨hsent, hdel⟩ := Prod.mk.inj hf
    refine ⟨s, Reach.of_exec twiceRun .refl hs, hsent, hdel, fun hsafe => ?_⟩
    have hcount := hsafe.once 0 64#64
    rw [hsent, hdel] at hcount
    exact absurd hcount (by decide)
  · have hrun : (exec step (init 1 2 : State 1 Bool) overwriteRun).map
        (fun s => ((s.conn 0).returned, (s.conn 0).returnQueue.contents, (s.conn 0).reclaimed))
          = some ([(0, 64#64), (1, 72#64)], [72#64], []) := by decide
    obtain ⟨s, hs, hf⟩ := Option.map_eq_some_iff.mp hrun
    obtain ⟨hret, hrest⟩ := Prod.mk.inj hf
    obtain ⟨hcont, hrecl⟩ := Prod.mk.inj hrest
    refine ⟨s, Reach.of_exec overwriteRun .refl hs, hret, hcont, fun hsafe => ?_⟩
    have hkept := hsafe.kept 0
    rw [hret, hcont, hrecl] at hkept
    exact absurd hkept (by decide)

end Entangle.Port.SharedSubscriber
