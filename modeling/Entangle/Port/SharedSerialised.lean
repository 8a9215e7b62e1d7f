/-
  Entangle.Port.SharedSerialised — a shared subscriber is safe as long as its
  threads do not overtake each other.

  A thread that has not been overtaken knows what the only consumer (or
  producer) of the queue would know, so each access is the one that
  `SpscSteps` speaks of; a thread that has been overtaken knows nothing, and
  `serialised` keeps it from storing.

  Main results:
    * `Inv.step` — every access that meets `serialised` keeps the invariant;
    * `shared_subscriber_serialised` — in runs that keep to `serialised`
      nothing is delivered twice, lost or overwritten.
-/
import Entangle.Lib.Ownership
import Entangle.Port.SharedSubscriber

namespace Entangle.Port.SharedSubscriber

open Entangle.Lib Entangle.Lockfree

variable {m : Nat} {Tid : Type}

/-! ## §1. The invariant of serialised runs. -/

/-- The two queues of a connection, its publisher's end, and what was put. -/
structure ConnOk (c : Connection) : Prop where
  send : c.sendQueue.Holds c.sent c.delivered.length
  sendFifo : c.delivered = c.sent.take c.delivered.length
  sender : ProducerOk c.sendQueue c.sent c.delivered.length c.sender
  ret : c.returnQueue.Holds (c.returned.map Prod.snd) c.reclaimed.length
  retFifo : c.reclaimed = (c.returned.map Prod.snd).take c.reclaimed.length
  reclaimer : ConsumerOk (c.returned.map Prod.snd) c.reclaimed.length c.reclaimer
  putOnce : (c.returned.map Prod.fst).Nodup
  putOffset : ∀ i x, (i, x) ∈ c.returned → c.delivered[i]? = some x

/-- A receiver that has not been overtaken knows what the only consumer of a
queue knows; one that has been overtaken knows nothing. -/
def ReceivingOk (c : Connection) (pc : PopPc) (stamp : Nat) : Prop :=
  stamp ≤ c.delivered.length
    ∧ (stamp = c.delivered.length → ConsumerOk c.sent c.delivered.length pc)

/-- The same for the drop of sample `id`. -/
def ReturningOk (c : Connection) (id : Nat) (offset : U64) (pc : PushPc) (stamp : Nat) : Prop :=
  c.delivered[id]? = some offset ∧ (pc = .idle ∨ pc.value = some offset)
    ∧ stamp ≤ c.returnStores
    ∧ (stamp = c.returnStores →
        ProducerOk c.returnQueue (c.returned.map Prod.snd) c.reclaimed.length pc)

def ThreadOk (conn : Fin m → Connection) : ThreadPc m → Prop
  | .idle => True
  | .receiving k pc stamp => ReceivingOk (conn k) pc stamp
  | .returning k id offset pc stamp => ReturningOk (conn k) id offset pc stamp

/-- **The invariant.**  Both queues of every connection are in order, and a thread that
nobody has overtaken finds them as it has loaded them.  Of every connection each number
is in exactly one place: not yet received, a live sample, in the hand of a thread that
drops it, or returned. -/
structure Inv (s : State m Tid) : Prop where
  conn : ∀ k, ConnOk (s.conn k)
  thread : ∀ t, ThreadOk s.conn (s.thread t)
  liveOnce : s.live.Nodup
  liveOffset : ∀ k i x, (k, i, x) ∈ s.live → (s.conn k).delivered[i]? = some x
  place : Partition (fun _ => True) (At s)

theorem connOk_new (bufferSize : Nat) : ConnOk (.new bufferSize) where
  send := SpscQueue.holds_new bufferSize
  sendFifo := rfl
  sender := trivial
  ret := SpscQueue.holds_new bufferSize
  retFifo := rfl
  reclaimer := trivial
  putOnce := List.nodup_nil
  putOffset := by
    intro i x hx
    simp [Connection.new] at hx

theorem inv_init (bufferSize : Nat) : Inv (init m bufferSize : State m Tid) where
  conn := fun _ => connOk_new bufferSize
  thread := fun _ => trivial
  liveOnce := List.nodup_nil
  liveOffset := by
    intro k i x hx
    simp [init] at hx
  place := by
    constructor
    · exact fun _ _ _ => trivial
    · exact fun a _ => ⟨.notYet, Nat.zero_le a.2⟩
    · intro i p q hp hq
      cases p <;> cases q <;> simp_all [At, init, Connection.new]

/-- What threads know carries over to a changed connection. -/
theorem ThreadOk.setConn {conn : Fin m → Connection} {k : Fin m} {c : Connection} {pc : ThreadPc m}
    (h : ThreadOk conn pc)
    (hrecv : ∀ pc stamp, ReceivingOk (conn k) pc stamp → ReceivingOk c pc stamp)
    (hret : ∀ id offset pc stamp,
      ReturningOk (conn k) id offset pc stamp → ReturningOk c id offset pc stamp) :
    ThreadOk (Function.update conn k c) pc := by
  cases pc with
  | idle => trivial
  | receiving j pc stamp =>
      by_cases hj : j = k
      · subst hj
        simp only [ThreadOk, Function.update_self]
        exact hrecv pc stamp h
      · simpa only [ThreadOk, Function.update_of_ne hj] using h
  | returning j id offset pc stamp =>
      by_cases hj : j = k
      · subst hj
        simp only [ThreadOk, Function.update_self]
        exact hret id offset pc stamp h
      · simpa only [ThreadOk, Function.update_of_ne hj] using h

/-- A drop is overtaken by the store of another. -/
theorem ReturningOk.overtaken {c c' : Connection} {id : Nat} {offset : U64} {pc : PushPc}
    {stamp : Nat} (h : ReturningOk c id offset pc stamp) (hdel : c'.delivered = c.delivered)
    (hstores : c'.returnStores = c.returnStores + 1) : ReturningOk c' id offset pc stamp := by
  obtain ⟨hid, hval, hstamp⟩ := h
  have hstamp' : StampOk c.returnQueue (c.returned.map Prod.snd) c.reclaimed.length
      c.returnStores stamp pc := hstamp
  unfold ReturningOk
  rw [hdel, hstores]
  exact ⟨hid, hval, hstamp'.overtaken⟩

/-- A connection changes, but not what was delivered from it or put into it. -/
theorem Inv.setConn {s : State m Tid} (h : Inv s) (k : Fin m) {c : Connection} (hc : ConnOk c)
    (hdel : c.delivered = (s.conn k).delivered) (hput : c.returned = (s.conn k).returned)
    (hrecv : ∀ pc stamp, ReceivingOk (s.conn k) pc stamp → ReceivingOk c pc stamp)
    (hret : ∀ id offset pc stamp,
      ReturningOk (s.conn k) id offset pc stamp → ReturningOk c id offset pc stamp) :
    Inv (s.setConn k c) := by
  have hdel' := update_field Connection.delivered s.conn k c hdel
  have hput' := update_field Connection.returned s.conn k c hput
  refine ⟨?_, fun t => (h.thread t).setConn hrecv hret, h.liveOnce, ?_, ?_⟩
  · exact Function.forall_update_iff s.conn (fun _ c => ConnOk c) |>.mpr
      ⟨hc, fun j _ => h.conn j⟩
  · intro j i x hx
    rw [State.setConn, hdel']
    exact h.liveOffset j i x hx
  · refine h.place.congr (fun a p => ?_)
    cases p with
    | notYet => simp only [At, State.setConn, hdel']
    | live => rfl
    | returning t => rfl
    | put => simp only [At, State.setConn, hput']

/-! ## §2. One access keeps it. -/

theorem Inv.senderAccess {s : State m Tid} (h : Inv s) (k : Fin m) {q : SpscQueue} {pc : PushPc}
    {result : Option Bool}
    (ha : pushAccess (s.conn k).sendQueue (s.conn k).sender = some (q, pc, result)) :
    Inv (s.setConn k
      { s.conn k with
        sendQueue := q
        sender := pc
        sent := if result = some true then (s.conn k).sent ++ (s.conn k).sender.value.toList
          else (s.conn k).sent }) := by
  have hc := h.conn k
  rcases pushAccess_spec hc.send hc.sender ha with
    ⟨rfl, rfl, v, hv, hholds⟩ | ⟨rfl, rfl, rfl, _⟩ | ⟨rfl, _, hholds, hp, _⟩
  · simp only [hv, if_true, Option.toList_some]
    refine h.setConn k ?_ rfl rfl ?_ (fun _ _ _ _ hr => hr)
    · exact ⟨hholds, take_append_of_fifo v hc.sendFifo hc.send.le, trivial, hc.ret, hc.retFifo,
        hc.reclaimer, hc.putOnce, hc.putOffset⟩
    · exact fun pc stamp hr => ⟨hr.1, fun hcur => (hr.2 hcur).append v⟩
  · exact h.setConn k ⟨hc.send, hc.sendFifo, trivial, hc.ret, hc.retFifo, hc.reclaimer,
      hc.putOnce, hc.putOffset⟩ rfl rfl (fun _ _ hr => hr) (fun _ _ _ _ hr => hr)
  · exact h.setConn k ⟨hholds, hc.sendFifo, hp, hc.ret, hc.retFifo, hc.reclaimer,
      hc.putOnce, hc.putOffset⟩ rfl rfl (fun _ _ hr => hr) (fun _ _ _ _ hr => hr)

theorem Inv.reclaimerAccess {s : State m Tid} (h : Inv s) (k : Fin m) {q : SpscQueue} {pc : PopPc}
    {result : Option (Option U64)}
    (ha : popAccess (s.conn k).returnQueue (s.conn k).reclaimer = some (q, pc, result)) :
    Inv (s.setConn k
      { s.conn k with
        returnQueue := q
        reclaimer := pc
        reclaimed := (s.conn k).reclaimed ++ (result.bind id).toList }) := by
  have hc := h.conn k
  rcases popAccess_spec hc.ret hc.reclaimer ha with
    ⟨v, pos, rfl, rfl, hv, rfl, hholds⟩ | ⟨rfl, rfl, rfl, _⟩ | ⟨rfl, rfl, hp⟩
  · have hlen : ((s.conn k).reclaimed ++ [v]).length = (s.conn k).reclaimed.length + 1 := by simp
    simp only [Option.bind_some, id_eq, Option.toList_some]
    refine h.setConn k ?_ rfl rfl (fun _ _ hr => hr) ?_
    · refine ⟨hc.send, hc.sendFifo, hc.sender, ?_, take_succ_of_fifo hc.retFifo hv, trivial,
        hc.putOnce, hc.putOffset⟩
      rw [hlen]
      exact hholds
    · -- room found by a thread stays room
      rintro id offset pc stamp ⟨hid, hval, hle, hcur⟩
      refine ⟨hid, hval, hle, fun he => ?_⟩
      show ProducerOk _ _ ((s.conn k).reclaimed ++ [v]).length pc
      rw [hlen]
      exact (hcur he).consume pos
  · simp only [Option.bind_some, id_eq, Option.toList_none, List.append_nil]
    exact h.setConn k ⟨hc.send, hc.sendFifo, hc.sender, hc.ret, hc.retFifo, trivial,
      hc.putOnce, hc.putOffset⟩ rfl rfl (fun _ _ hr => hr) (fun _ _ _ _ hr => hr)
  · simp only [Option.bind_none, Option.toList_none, List.append_nil]
    exact h.setConn k ⟨hc.send, hc.sendFifo, hc.sender, hc.ret, hc.retFifo, hp,
      hc.putOnce, hc.putOffset⟩ rfl rfl (fun _ _ hr => hr) (fun _ _ _ _ hr => hr)

variable [DecidableEq Tid]

/-- A thread moves without taking up or giving away a sample. -/
theorem Inv.setThread {s : State m Tid} (h : Inv s) (t : Tid) {pc : ThreadPc m}
    (hpc : ThreadOk s.conn pc)
    (hsame : ∀ k i, (∃ x p st, pc = .returning k i x p st)
      ↔ ∃ x p st, s.thread t = .returning k i x p st) :
    Inv (s.setThread t pc) := by
  refine ⟨h.conn, ?_, h.liveOnce, h.liveOffset, ?_⟩
  · exact Function.forall_update_iff s.thread (fun _ pc => ThreadOk s.conn pc) |>.mpr
      ⟨hpc, fun t' _ => h.thread t'⟩
  · refine h.place.congr (fun a p => ?_)
    cases p with
    | notYet => rfl
    | live => rfl
    | put => rfl
    | returning t' =>
        by_cases ht : t' = t
        · subst ht
          simpa only [At, State.setThread, Function.update_self] using hsame a.1 a.2
        · simp only [At, State.setThread, Function.update_of_ne ht]

/-- A thread that holds no sample while it receives, before and after. -/
theorem Inv.setReceiving {s : State m Tid} (h : Inv s) {t : Tid} {pc : ThreadPc m}
    (hold : ∀ k i x p st, s.thread t ≠ .returning k i x p st)
    (hnew : ∀ k i x p st, pc ≠ .returning k i x p st) (hpc : ThreadOk s.conn pc) :
    Inv (s.setThread t pc) := by
  refine h.setThread t hpc (fun k i => ?_)
  constructor
  · rintro ⟨x, p, st, he⟩
    exact absurd he (hnew k i x p st)
  · rintro ⟨x, p, st, he⟩
    exact absurd he (hold k i x p st)

theorem threadOk_nextConnection (conn : Fin m → Connection) (k : Fin m) :
    ThreadOk conn (nextConnection k) := by
  unfold nextConnection
  split
  next => exact ⟨Nat.zero_le _, fun _ => trivial⟩
  next => trivial

theorem nextConnection_ne_returning (k : Fin m) (j : Fin m) (i : Nat) (x : U64) (p : PushPc)
    (st : Nat) : nextConnection k ≠ .returning j i x p st := by
  unfold nextConnection
  split <;> simp

/-- The connection after a receive has stored `read_pos`. -/
theorem ConnOk.deliver {c : Connection} (hc : ConnOk c) {v pos : U64}
    (hv : c.sent[c.delivered.length]? = some v)
    (hholds : { c.sendQueue with readPos := pos }.Holds c.sent (c.delivered.length + 1)) :
    ConnOk { c with
      sendQueue := { c.sendQueue with readPos := pos }
      delivered := c.delivered ++ [v] } := by
  have hlen : (c.delivered ++ [v]).length = c.delivered.length + 1 := by simp
  refine ⟨?_, take_succ_of_fifo hc.sendFifo hv, ?_, hc.ret, hc.retFifo, hc.reclaimer,
    hc.putOnce, fun i x hx => append_of_some [v] (hc.putOffset i x hx)⟩
  · rw [hlen]
    exact hholds
  · show ProducerOk _ _ (c.delivered ++ [v]).length _
    rw [hlen]
    exact hc.sender.consume pos

/-- The next number of connection `k` goes from "not yet" to "live". -/
theorem place_deliver {s s' : State m Tid} {t : Tid} {k : Fin m} {c : Connection} {v : U64}
    (h : Partition (fun _ => True) (At s)) (hold : ∀ k i x p st, s.thread t ≠ .returning k i x p st)
    (hconn : s'.conn = Function.update s.conn k c)
    (hdel : c.delivered = (s.conn k).delivered ++ [v]) (hput : c.returned = (s.conn k).returned)
    (hthread : s'.thread = Function.update s.thread t .idle)
    (hlive : s'.live = (k, (s.conn k).delivered.length, v) :: s.live) :
    Partition (fun _ => True) (At s') := by
  have hlen : c.delivered.length = (s.conn k).delivered.length + 1 := by
    rw [hdel]
    simp
  refine h.move (k, (s.conn k).delivered.length) .notYet .live (by simp) (Nat.le_refl _) ?_ ?_ ?_
  · rintro ⟨j, i⟩
    by_cases hj : j = k
    · subst hj
      simp only [At, hconn, Function.update_self, hlen, ne_eq, Prod.mk.injEq, true_and]
      omega
    · simp [At, hconn, hj]
  · rintro ⟨j, i⟩
    simp only [At, hlive, List.mem_cons, Prod.mk.injEq]
    constructor
    · rintro ⟨x, ⟨rfl, rfl, _⟩ | hx⟩
      · exact .inl ⟨rfl, rfl⟩
      · exact .inr ⟨x, hx⟩
    · rintro (⟨rfl, rfl⟩ | ⟨x, hx⟩)
      · exact ⟨v, .inl ⟨rfl, rfl, rfl⟩⟩
      · exact ⟨x, .inr hx⟩
  · intro a p hsrc hdst
    cases p with
    | notYet => exact absurd rfl hsrc
    | live => exact absurd rfl hdst
    | put => simp only [At, hconn, update_field Connection.returned s.conn k c hput]
    | returning t' =>
        by_cases ht : t' = t
        · subst ht
          simp [At, hthread, hold]
        · simp [At, hthread, Function.update_of_ne ht]

/-- A receive returns sample `delivered.length`: it is live now. -/
theorem Inv.deliver {s : State m Tid} (h : Inv s) {t : Tid} {k : Fin m} {v pos : U64}
    (hold : ∀ k i x p st, s.thread t ≠ .returning k i x p st)
    (hv : (s.conn k).sent[(s.conn k).delivered.length]? = some v)
    (hholds : { (s.conn k).sendQueue with readPos := pos }.Holds (s.conn k).sent
      ((s.conn k).delivered.length + 1)) :
    Inv { (s.setConn k
            { s.conn k with
              sendQueue := { (s.conn k).sendQueue with readPos := pos }
              delivered := (s.conn k).delivered ++ [v] }).setThread t .idle with
          live := (k, (s.conn k).delivered.length, v) :: s.live } := by
  have hlen : ((s.conn k).delivered ++ [v]).length = (s.conn k).delivered.length + 1 := by simp
  refine ⟨?_, ?_, ?_, ?_, place_deliver h.place hold rfl rfl rfl rfl rfl⟩
  · exact Function.forall_update_iff s.conn (fun _ c => ConnOk c) |>.mpr
      ⟨(h.conn k).deliver hv hholds, fun j _ => h.conn j⟩
  · refine Function.forall_update_iff s.thread (fun _ pc => ThreadOk _ pc) |>.mpr
      ⟨trivial, fun t' _ => (h.thread t').setConn ?_ ?_⟩
    · -- whoever else is receiving here has now been overtaken
      rintro pc stamp ⟨hle, _⟩
      refine ⟨?_, fun he => ?_⟩
      · show stamp ≤ ((s.conn k).delivered ++ [v]).length
        omega
      · have he' : stamp = ((s.conn k).delivered ++ [v]).length := he
        omega
    · exact fun id offset pc stamp hr => ⟨append_of_some [v] hr.1, hr.2⟩
  · refine List.nodup_cons.mpr ⟨fun hmem => ?_, h.liveOnce⟩
    have := (List.getElem?_eq_some_iff.mp (h.liveOffset _ _ _ hmem)).1
    omega
  · intro j i x hx
    rcases List.mem_cons.mp hx with heq | hx
    · simp only [Prod.mk.injEq] at heq
      obtain ⟨rfl, rfl, rfl⟩ := heq
      simp [State.setThread, State.setConn]
    · exact Function.forall_update_iff s.conn
        (fun j c => (j, i, x) ∈ s.live → c.delivered[i]? = some x) |>.mpr
        ⟨fun hm => append_of_some [v] (h.liveOffset k i x hm), fun j _ => h.liveOffset j i x⟩ j hx

/-- A sample starts to be dropped. -/
theorem Inv.startDrop {s : State m Tid} (h : Inv s) {t : Tid} {k : Fin m} {id : Nat}
    {offset : U64} (hidle : s.thread t = .idle) (hmem : (k, id, offset) ∈ s.live) :
    Inv { s.setThread t (.returning k id offset .idle 0) with
          live := s.live.erase (k, id, offset) } := by
  have hmem' : ∀ x, x ∈ s.live.erase (k, id, offset) ↔ x ≠ (k, id, offset) ∧ x ∈ s.live :=
    fun x => h.liveOnce.mem_erase_iff
  refine ⟨h.conn, ?_, h.liveOnce.erase _, ?_, ?_⟩
  · exact Function.forall_update_iff s.thread (fun _ pc => ThreadOk s.conn pc) |>.mpr
      ⟨⟨h.liveOffset k id offset hmem, .inl rfl, Nat.zero_le _, fun _ => trivial⟩,
        fun t' _ => h.thread t'⟩
  · exact fun j i x hx => h.liveOffset j i x ((hmem' _).mp hx).2
  · refine h.place.move (k, id) .live (.returning t) (by simp) ⟨offset, hmem⟩ ?_ ?_ ?_
    · rintro ⟨j, i⟩
      simp only [At, hmem', ne_eq, Prod.mk.injEq]
      constructor
      · rintro ⟨x, hne, hx⟩
        refine ⟨?_, x, hx⟩
        rintro ⟨rfl, rfl⟩
        -- one number has one offset
        have := (h.liveOffset _ _ _ hx).symm.trans (h.liveOffset _ _ _ hmem)
        exact hne ⟨rfl, rfl, Option.some.inj this⟩
      · rintro ⟨hne, x, hx⟩
        exact ⟨x, fun he => hne ⟨he.1, he.2.1⟩, hx⟩
    · rintro ⟨j, i⟩
      simp only [At, State.setThread, Function.update_self, ThreadPc.returning.injEq, hidle,
        Prod.mk.injEq]
      constructor
      · rintro ⟨x, p, st, rfl, rfl, _⟩
        exact .inl ⟨rfl, rfl⟩
      · rintro (⟨rfl, rfl⟩ | ⟨x, p, st, he⟩)
        · exact ⟨offset, .idle, 0, rfl, rfl, rfl, rfl, rfl⟩
        · exact absurd he (by simp)
    · intro a p hsrc hdst
      cases p with
      | notYet => rfl
      | live => exact absurd rfl hsrc
      | put => rfl
      | returning t' =>
          have ht : t' ≠ t := fun he => hdst (by rw [he])
          simp only [At, State.setThread, Function.update_of_ne ht]

/-- The connection after a drop has stored `write_pos` of the return queue. -/
theorem ConnOk.put {c : Connection} (hc : ConnOk c) {id : Nat} {offset : U64} {q : SpscQueue}
    (hid : c.delivered[id]? = some offset) (hnew : id ∉ c.returned.map Prod.fst)
    (hholds : q.Holds (c.returned.map Prod.snd ++ [offset]) c.reclaimed.length) :
    ConnOk { c with
      returnQueue := q
      returnStores := c.returnStores + 1
      returned := c.returned ++ [(id, offset)] } := by
  have hmap : (c.returned ++ [(id, offset)]).map Prod.snd
      = c.returned.map Prod.snd ++ [offset] := by simp
  refine ⟨hc.send, hc.sendFifo, hc.sender, ?_, ?_, ?_, ?_, ?_⟩
  · show q.Holds ((c.returned ++ [(id, offset)]).map Prod.snd) _
    rw [hmap]
    exact hholds
  · show _ = ((c.returned ++ [(id, offset)]).map Prod.snd).take _
    rw [hmap]
    exact take_append_of_fifo offset hc.retFifo hc.ret.le
  · show ConsumerOk ((c.returned ++ [(id, offset)]).map Prod.snd) _ _
    rw [hmap]
    exact hc.reclaimer.append offset
  · show ((c.returned ++ [(id, offset)]).map Prod.fst).Nodup
    rw [List.map_append]
    refine List.Nodup.append hc.putOnce (List.nodup_singleton _) ?_
    exact List.disjoint_singleton.mpr hnew
  · intro i x hx
    rcases List.mem_append.mp hx with hx | hx
    · exact hc.putOffset i x hx
    · simp only [List.mem_singleton, Prod.mk.injEq] at hx
      obtain ⟨rfl, rfl⟩ := hx
      exact hid

/-- Sample `id` of connection `k` goes from the hands of thread `t` to "put". -/
theorem place_put {s s' : State m Tid} {t : Tid} {k : Fin m} {c : Connection} {id : Nat}
    {offset : U64} {pc : PushPc} {stamp : Nat} (h : Partition (fun _ => True) (At s))
    (ht : s.thread t = .returning k id offset pc stamp)
    (hconn : s'.conn = Function.update s.conn k c) (hdel : c.delivered = (s.conn k).delivered)
    (hput : c.returned = (s.conn k).returned ++ [(id, offset)])
    (hthread : s'.thread = Function.update s.thread t .idle) (hlive : s'.live = s.live) :
    Partition (fun _ => True) (At s') := by
  refine h.move (k, id) (.returning t) .put (by simp) ⟨offset, pc, stamp, ht⟩ ?_ ?_ ?_
  · rintro ⟨j, i⟩
    simp only [At, hthread, Function.update_self, ht, ThreadPc.returning.injEq, ne_eq,
      Prod.mk.injEq]
    constructor
    · rintro ⟨x, p, st, he⟩
      exact absurd he (by simp)
    · rintro ⟨hne, x, p, st, rfl, rfl, _⟩
      exact absurd ⟨rfl, rfl⟩ hne
  · rintro ⟨j, i⟩
    by_cases hj : j = k
    · subst hj
      simp only [At, hconn, Function.update_self, hput, List.mem_append, List.mem_singleton,
        Prod.mk.injEq, true_and]
      constructor
      · rintro ⟨x, hx | ⟨rfl, _⟩⟩
        · exact .inr ⟨x, hx⟩
        · exact .inl rfl
      · rintro (rfl | ⟨x, hx⟩)
        · exact ⟨offset, .inr ⟨rfl, rfl⟩⟩
        · exact ⟨x, .inl hx⟩
    · simp [At, hconn, hj]
  · intro a p hsrc hdst
    cases p with
    | notYet => simp only [At, hconn, update_field Connection.delivered s.conn k c hdel]
    | live => simp only [At, hlive]
    | put => exact absurd rfl hdst
    | returning t' =>
        have ht' : t' ≠ t := fun he => hsrc (by rw [he])
        simp only [At, hthread, Function.update_of_ne ht']

/-- A sample has been put into the return queue. -/
theorem Inv.put {s : State m Tid} (h : Inv s) {t : Tid} {k : Fin m} {id : Nat} {offset : U64}
    {pc : PushPc} {stamp : Nat} (ht : s.thread t = .returning k id offset pc stamp)
    {q : SpscQueue}
    (hholds : q.Holds ((s.conn k).returned.map Prod.snd ++ [offset])
      (s.conn k).reclaimed.length) :
    Inv ((s.setConn k
      { s.conn k with
        returnQueue := q
        returnStores := (s.conn k).returnStores + 1
        returned := (s.conn k).returned ++ [(id, offset)] }).setThread t .idle) := by
  have hret := h.thread t
  rw [ht] at hret
  -- the sample is in this thread's hands, so it has not been put before
  have hnew : id ∉ (s.conn k).returned.map Prod.fst := by
    intro hmem
    obtain ⟨⟨i, x⟩, hx, rfl⟩ := List.mem_map.mp hmem
    exact absurd (h.place.single (k, i) (.returning t) .put ⟨offset, pc, stamp, ht⟩ ⟨x, hx⟩)
      (by simp)
  refine ⟨?_, ?_, h.liveOnce, ?_, place_put h.place ht rfl rfl rfl rfl rfl⟩
  · exact Function.forall_update_iff s.conn (fun _ c => ConnOk c) |>.mpr
      ⟨(h.conn k).put hret.1 hnew hholds, fun j _ => h.conn j⟩
  · refine Function.forall_update_iff s.thread (fun _ pc => ThreadOk _ pc) |>.mpr
      ⟨trivial, fun t' _ => (h.thread t').setConn (fun _ _ hr => hr) ?_⟩
    -- whoever else is returning here has now been overtaken
    exact fun i x p st hr => hr.overtaken rfl rfl
  · intro j i x hx
    simp only [State.setThread, State.setConn]
    by_cases hj : j = k
    · subst hj
      rw [Function.update_self]
      exact h.liveOffset j i x hx
    · rw [Function.update_of_ne hj]
      exact h.liveOffset j i x hx

/-- A thread inside the drop of a sample stays inside it. -/
theorem Inv.setReturning {s : State m Tid} (h : Inv s) {t : Tid} {k : Fin m} {id : Nat}
    {offset : U64} {pc pc' : PushPc} {stamp stamp' : Nat}
    (ht : s.thread t = .returning k id offset pc stamp)
    (hpc : ReturningOk (s.conn k) id offset pc' stamp') :
    Inv (s.setThread t (.returning k id offset pc' stamp')) := by
  refine h.setThread t hpc (fun j i => ?_)
  rw [ht]
  constructor
  · rintro ⟨x, p, st, he⟩
    simp only [ThreadPc.returning.injEq] at he
    obtain ⟨rfl, rfl, rfl, _⟩ := he
    exact ⟨offset, pc, stamp, rfl⟩
  · rintro ⟨x, p, st, he⟩
    simp only [ThreadPc.returning.injEq] at he
    obtain ⟨rfl, rfl, rfl, _⟩ := he
    exact ⟨offset, pc', stamp', rfl⟩

/-- An access inside `receive`. -/
theorem Inv.receiveStep {s s' : State m Tid} (h : Inv s) {t : Tid} {k : Fin m} {pc : PopPc}
    {stamp : Nat} (ht : s.thread t = .receiving k pc stamp)
    (hok : serialised s (.thread t)) (hs : receiveStep s t k pc stamp = some s') : Inv s' := by
  have hr := h.thread t
  simp only [serialised] at hok
  rw [ht] at hr hok
  have hc := h.conn k
  have hold : ∀ j i x p st, s.thread t ≠ .returning j i x p st := by
    intro j i x p st
    rw [ht]
    simp
  -- steps that only move the thread
  have hmove : ∀ pc' st, ReceivingOk (s.conn k) pc' st →
      Inv (s.setThread t (.receiving k pc' st)) :=
    fun pc' st hpc => h.setReceiving hold (by simp) hpc
  cases pc with
  | idle =>
      simp only [SharedSubscriber.receiveStep] at hs
      injection hs with hs
      subst hs
      exact hmove _ _ ⟨Nat.le_refl _, fun _ => hc.send.read⟩
  | loadedRead r =>
      simp only [SharedSubscriber.receiveStep, popAccess] at hs
      split at hs
      next =>
        simp only [Option.map_some] at hs
        injection hs with hs
        subst hs
        exact h.setReceiving hold (nextConnection_ne_returning k)
          (threadOk_nextConnection s.conn k)
      next hpos =>
        simp only [Option.map_some] at hs
        injection hs with hs
        subst hs
        refine hmove _ _ ⟨hr.1, fun he => ?_⟩
        have ha : popAccess (s.conn k).sendQueue (.loadedRead r)
            = some ((s.conn k).sendQueue, .checked r, none) := by
          simp only [popAccess, if_neg hpos]
        rcases popAccess_spec hc.send (hr.2 he) ha with ⟨_, _, hn, _⟩ | ⟨hn, _⟩ | ⟨_, _, hok'⟩
        · exact absurd hn (by simp)
        · exact absurd hn (by simp)
        · exact hok'
  | checked r =>
      simp only [SharedSubscriber.receiveStep, popAccess, Option.map_some] at hs
      injection hs with hs
      subst hs
      refine hmove _ _ ⟨hr.1, fun he => ?_⟩
      rcases popAccess_spec hc.send (hr.2 he) rfl with ⟨_, _, hn, _⟩ | ⟨hn, _⟩ | ⟨_, _, hok'⟩
      · exact absurd hn (by simp)
      · exact absurd hn (by simp)
      · exact hok'
  | loadedValue r v =>
      simp only [SharedSubscriber.receiveStep, popAccess, Option.map_some] at hs
      injection hs with hs
      subst hs
      rcases popAccess_spec hc.send (hr.2 hok) rfl with
        ⟨w, pos, hw, _, hv, hq, hholds⟩ | ⟨hn, _⟩ | ⟨hn, _⟩
      · simp only [Option.some.injEq] at hw
        subst hw
        exact h.deliver hold hv hholds
      · exact absurd hn (by simp)
      · exact absurd hn (by simp)

omit [DecidableEq Tid] in
theorem stamp_of_notOvertaken {conn : Fin m → Connection} {k : Fin m} {id : Nat} {offset : U64}
    {pc : PushPc} {stamp : Nat}
    (h : (ThreadPc.returning k id offset pc stamp).NotOvertaken conn) :
    pc.stores = true → stamp = (conn k).returnStores := by
  intro hpc
  cases pc with
  | idle => exact absurd hpc (by simp [PushPc.stores])
  | loadedWrite v w => exact absurd hpc (by simp [PushPc.stores])
  | checked v w => exact h
  | stored v w => exact h

/-- The drop has stored into a slot of the return queue. -/
theorem Inv.slotWritten {s : State m Tid} (h : Inv s) {t : Tid} {k : Fin m} {id : Nat}
    {offset : U64} {pc pc' : PushPc} {stamp : Nat} {q : SpscQueue}
    (ht : s.thread t = .returning k id offset pc stamp) (hval : pc'.value = some offset)
    (hholds : q.Holds ((s.conn k).returned.map Prod.snd) (s.conn k).reclaimed.length)
    (hstamp : StampOk q ((s.conn k).returned.map Prod.snd) (s.conn k).reclaimed.length
      ((s.conn k).returnStores + 1) ((s.conn k).returnStores + 1) pc') :
    Inv ((s.setConn k
      { s.conn k with
        returnQueue := q
        returnStores := (s.conn k).returnStores + 1 }).setThread t
          (.returning k id offset pc' ((s.conn k).returnStores + 1))) := by
  have hc := h.conn k
  have hid : (s.conn k).delivered[id]? = some offset := by
    have hr := h.thread t
    rw [ht] at hr
    exact hr.1
  -- every other drop on this connection is overtaken
  have hconn := h.setConn k
    (c := { s.conn k with returnQueue := q, returnStores := (s.conn k).returnStores + 1 })
    ⟨hc.send, hc.sendFifo, hc.sender, hholds, hc.retFifo, hc.reclaimer, hc.putOnce,
      hc.putOffset⟩ rfl rfl (fun _ _ hr => hr) (fun _ _ _ _ hr => hr.overtaken rfl rfl)
  refine hconn.setReturning (show State.thread _ t = .returning k id offset pc stamp from ht) ?_
  simp only [State.setConn, Function.update_self]
  exact ⟨hid, .inr hval, hstamp⟩

/-- An access inside the drop of a sample. -/
theorem Inv.returnStep {s s' : State m Tid} (h : Inv s) {t : Tid} {k : Fin m} {id : Nat}
    {offset : U64} {pc : PushPc} {stamp : Nat}
    (ht : s.thread t = .returning k id offset pc stamp) (hok : serialised s (.thread t))
    (hs : returnStep s t k id offset pc stamp = some s') : Inv s' := by
  have hr := h.thread t
  simp only [serialised] at hok
  rw [ht] at hr hok
  have hc := h.conn k
  obtain ⟨hid, hval, hstamp⟩ := hr
  have hstores := stamp_of_notOvertaken hok
  unfold SharedSubscriber.returnStep at hs
  split at hs
  next =>
    injection hs with hs
    rw [← hs]
    exact h.setReturning ht ⟨hid, .inr rfl, Nat.le_refl _, fun _ => hc.ret.write⟩
  next hidle =>
    have hval' := hval.resolve_left hidle
    obtain ⟨⟨q, pc', result⟩, ha, hs'⟩ := Option.map_eq_some_iff.mp hs
    rcases pushAccess_stamped hc.ret hstamp hstores ha with
      ⟨rfl, hst, v, hv, hholds⟩ | ⟨rfl, hst⟩ | ⟨rfl, hv, hholds, _, hkeep, hstore⟩
    · obtain rfl : v = offset := Option.some.inj (hv.symm.trans hval')
      simp only [hst, if_true] at hs'
      rw [← hs']
      exact h.put ht hholds
    · simp only at hs'
      rw [← hs']
      exact h.setReturning ht ⟨hid, .inl rfl, Nat.zero_le _, fun _ => trivial⟩
    · cases hst : pc.stores with
      | true =>
          simp only [hst, if_true] at hs'
          rw [← hs']
          exact h.slotWritten ht (hv.trans hval') hholds (hstore hst)
      | false =>
          obtain ⟨rfl, hstamp'⟩ := hkeep hst
          simp only [hst, Bool.false_eq_true, if_false] at hs'
          -- nothing stored: the connection is put back as it is
          have hsame : s.setConn k (s.conn k) = s := by
            simp only [State.setConn, Function.update_eq_self]
          change (s.setConn k (s.conn k)).setThread t _ = s' at hs'
          rw [hsame] at hs'
          rw [← hs']
          exact h.setReturning ht ⟨hid, .inr (hv.trans hval'), hstamp'⟩

/-- **The step lemma.** -/
theorem Inv.step {s s' : State m Tid} {a : Act m Tid} (h : Inv s) (hok : serialised s a)
    (hs : step s a = some s') : Inv s' := by
  cases a with
  | send k v =>
      simp only [SharedSubscriber.step] at hs
      split at hs
      next =>
        injection hs with hs
        subst hs
        have hc := h.conn k
        exact h.setConn k ⟨hc.send, hc.sendFifo, hc.send.write, hc.ret, hc.retFifo,
          hc.reclaimer, hc.putOnce, hc.putOffset⟩ rfl rfl (fun _ _ hr => hr)
          (fun _ _ _ _ hr => hr)
      next => exact absurd hs (by simp)
  | sender k =>
      simp only [SharedSubscriber.step] at hs
      obtain ⟨⟨q, pc, result⟩, ha, rfl⟩ := Option.map_eq_some_iff.mp hs
      exact h.senderAccess k ha
  | reclaim k =>
      simp only [SharedSubscriber.step] at hs
      split at hs
      next =>
        injection hs with hs
        subst hs
        have hc := h.conn k
        exact h.setConn k ⟨hc.send, hc.sendFifo, hc.sender, hc.ret, hc.retFifo,
          hc.ret.read, hc.putOnce, hc.putOffset⟩ rfl rfl (fun _ _ hr => hr)
          (fun _ _ _ _ hr => hr)
      next => exact absurd hs (by simp)
  | reclaimer k =>
      simp only [SharedSubscriber.step] at hs
      obtain ⟨⟨q, pc, result⟩, ha, rfl⟩ := Option.map_eq_some_iff.mp hs
      exact h.reclaimerAccess k ha
  | receive t =>
      simp only [SharedSubscriber.step] at hs
      split at hs
      next hidle =>
        split at hs
        next =>
          injection hs with hs
          subst hs
          refine h.setReceiving ?_ (by simp) ⟨Nat.zero_le _, fun _ => trivial⟩
          intro k i x p st
          rw [hidle]
          simp
        next =>
          injection hs with hs
          exact hs ▸ h
      next => exact absurd hs (by simp)
  | drop t k id offset =>
      simp only [SharedSubscriber.step] at hs
      split at hs
      next hidle =>
        split at hs
        next hmem =>
          injection hs with hs
          subst hs
          exact h.startDrop hidle hmem
        next => exact absurd hs (by simp)
      next => exact absurd hs (by simp)
  | thread t =>
      simp only [SharedSubscriber.step] at hs
      split at hs
      next => exact absurd hs (by simp)
      next k pc stamp ht => exact h.receiveStep ht hok hs
      next k id offset pc stamp ht => exact h.returnStep ht hok hs

/-! ## §3. Whole runs. -/

omit [DecidableEq Tid] in
theorem Inv.safe {s : State m Tid} (h : Inv s) : Safe s where
  once := by
    intro k x
    rw [(h.conn k).sendFifo]
    exact ((List.take_sublist _ _).count_le x)
  place := fun k i _ => h.place.existsUnique (i := (k, i)) trivial
  putOnce := fun k => (h.conn k).putOnce
  putOffset := fun k => (h.conn k).putOffset
  kept := by
    intro k
    have hc := h.conn k
    rw [hc.ret.contents_eq]
    nth_rewrite 1 [hc.retFifo]
    exact List.take_append_drop _ _

/-- **In every serialised run sharing is safe**, and the samples come in the
order in which they were sent. -/
theorem shared_subscriber_serialised (bufferSize : Nat) (s : State m Tid)
    (hs : Reach step serialised (init m bufferSize) s) :
    Safe s ∧ ∀ k, (s.conn k).delivered <+: (s.conn k).sent := by
  have hinv : Inv s := hs.invariant Inv (inv_init bufferSize)
    (fun _ _ _ hi hok hstep => hi.step hok hstep)
  refine ⟨hinv.safe, fun k => ?_⟩
  rw [(hinv.conn k).sendFifo]
  exact List.take_prefix _ _

/-- Two threads on one sample that stay out of each other's way. -/
def handOverRun : List (Act 1 Bool) :=
  [.send (.last 0) 64#64, .sender (.last 0), .sender (.last 0), .sender (.last 0),
   .receive true, .receive false, .thread true, .thread true, .thread true, .thread true,
   .thread false, .thread false, .drop false (.last 0) 0 64#64,
   .thread false, .thread false, .thread false, .thread false,
   .reclaim (.last 0), .reclaimer (.last 0)]

theorem shared_subscriber_serialised_handOver :
    ∃ s : State 1 Bool, Reach step serialised (init 1 2) s
      ∧ (s.conn 0).delivered = [64#64] ∧ (s.conn 0).returned = [(0, 64#64)]
      ∧ Safe s ∧ ∀ k, (s.conn k).delivered <+: (s.conn k).sent := by
  have hrun : (execOk step serialised (init 1 2 : State 1 Bool) handOverRun).map
      (fun s => ((s.conn 0).delivered, (s.conn 0).returned))
        = some ([64#64], [(0, 64#64)]) := by decide
  obtain ⟨s, hs, hf⟩ := Option.map_eq_some_iff.mp hrun
  obtain ⟨hdel, hret⟩ := Prod.mk.inj hf
  have hreach := Reach.of_execOk handOverRun .refl hs
  exact ⟨s, hreach, hdel, hret, shared_subscriber_serialised 2 s hreach⟩

end Entangle.Port.SharedSubscriber
