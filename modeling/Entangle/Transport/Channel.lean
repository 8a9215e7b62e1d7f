/-
  Entangle.Transport.Channel — `ZeroCopyChannel` of
  entangle-transport/src/channel.rs.

  Two queues of pointer offsets: `send_queue` towards the receiver,
  `return_queue` back to the sender.  Each call is one step here; what happens
  inside a push or a pop is the subject of `Entangle.Lockfree.SpscSteps`.

  Each operation has one specification, by cases on the list of offsets under
  way (`pending`) or given back (`returned`): `send_cases`, `receive_cases`,
  `returnOffset_cases`, `reclaim_cases`.
-/
import Entangle.Lockfree.SpscQueue
import Entangle.Transport.DataSegment

namespace Entangle.Transport

open Entangle.Lockfree

/-- `ChannelState`. -/
inductive ChannelState where
  | creating
  | connected
  | disconnected
  deriving Repr, DecidableEq

/-- `ZeroCopyChannel`: the offsets on their way there and back. -/
structure ZeroCopyChannel where
  sendQueue : SpscQueue
  returnQueue : SpscQueue
  state : ChannelState

namespace ZeroCopyChannel

/-! ## §1. The operations. -/

def new (capacity : Nat) : ZeroCopyChannel :=
  { sendQueue := .new capacity, returnQueue := .new capacity, state := .creating }

def connect (c : ZeroCopyChannel) : ZeroCopyChannel := { c with state := .connected }

/-- `ZeroCopyChannel::send`. -/
def send (c : ZeroCopyChannel) (offset : PointerOffset) :
    Except SendError Unit × ZeroCopyChannel :=
  if c.state = .disconnected then (.error .connectionBroken, c)
  else
    let r := c.sendQueue.push offset.raw
    if r.1 then (.ok (), { c with sendQueue := r.2 }) else (.error .queueFull, c)

/-- `ZeroCopyChannel::receive`. -/
def receive (c : ZeroCopyChannel) : Except ReceiveError PointerOffset × ZeroCopyChannel :=
  if c.state = .disconnected ∧ c.sendQueue.isEmpty then (.error .connectionBroken, c)
  else
    let r := c.sendQueue.pop
    match r.1 with
    | some raw => (.ok (.fromRaw raw), { c with sendQueue := r.2 })
    | none => (.error .empty, { c with sendQueue := r.2 })

/-- One round of the loop of `return_offset`; `false` means that it spins. -/
def returnOffset (c : ZeroCopyChannel) (offset : PointerOffset) : Bool × ZeroCopyChannel :=
  let r := c.returnQueue.push offset.raw
  (r.1, { c with returnQueue := r.2 })

/-- `ZeroCopyChannel::reclaim`. -/
def reclaim (c : ZeroCopyChannel) : Option PointerOffset × ZeroCopyChannel :=
  let r := c.returnQueue.pop
  (r.1.map .fromRaw, { c with returnQueue := r.2 })

/-! ## §2. Their specifications. -/

/-- The offsets sent and not received, oldest first. -/
def pending (c : ZeroCopyChannel) : List PointerOffset := c.sendQueue.contents.map .fromRaw

/-- The offsets returned and not reclaimed, oldest first. -/
def returned (c : ZeroCopyChannel) : List PointerOffset := c.returnQueue.contents.map .fromRaw

/-- A channel in use. -/
structure Ready (c : ZeroCopyChannel) : Prop where
  state : c.state = .connected
  send : c.sendQueue.WF
  ret : c.returnQueue.WF

theorem new_ready (capacity : Nat) : (new capacity).connect.Ready :=
  ⟨rfl, SpscQueue.new_wf capacity, SpscQueue.new_wf capacity⟩

@[simp] theorem new_pending (capacity : Nat) : (new capacity).connect.pending = [] := by
  show (SpscQueue.new capacity).contents.map _ = []
  rw [SpscQueue.new_contents]
  rfl

@[simp] theorem new_returned (capacity : Nat) : (new capacity).connect.returned = [] := by
  show (SpscQueue.new capacity).contents.map _ = []
  rw [SpscQueue.new_contents]
  rfl

/-- What no operation changes. -/
structure SameEnds (c c' : ZeroCopyChannel) : Prop where
  sendCapacity : c'.sendQueue.capacity = c.sendQueue.capacity
  returnCapacity : c'.returnQueue.capacity = c.returnQueue.capacity

theorem length_map_contents (q : SpscQueue) :
    (q.contents.map PointerOffset.fromRaw).length = q.contents.length := List.length_map _

/-- `send` appends the offset, or finds the queue full. -/
theorem send_cases {c : ZeroCopyChannel} (h : c.Ready) (offset : PointerOffset) :
    (c.sendQueue.capacity ≤ c.pending.length ∧ c.send offset = (.error .queueFull, c))
      ∨ ∃ c', c.send offset = (.ok (), c') ∧ c'.Ready ∧ c'.pending = c.pending ++ [offset]
          ∧ c'.returned = c.returned ∧ SameEnds c c' ∧ c.pending.length < c.sendQueue.capacity := by
  have hstate : c.state ≠ .disconnected := by
    rw [h.state]
    simp
  unfold send
  rw [if_neg hstate]
  by_cases hroom : c.sendQueue.contents.length < c.sendQueue.capacity
  · right
    obtain ⟨hok, hcont, hwf, hcap⟩ := SpscQueue.push_room h.send hroom offset.raw
    refine ⟨{ c with sendQueue := (c.sendQueue.push offset.raw).2 }, ?_, ⟨h.state, hwf, h.ret⟩,
      ?_, rfl, ⟨hcap, rfl⟩, ?_⟩
    · simp only [hok, if_true]
    · show (c.sendQueue.push offset.raw).2.contents.map _ = _
      rw [hcont, List.map_append]
      rfl
    · rw [pending, length_map_contents]
      exact hroom
  · left
    have hfull : c.sendQueue.capacity ≤ c.sendQueue.contents.length := Nat.not_lt.mp hroom
    refine ⟨?_, ?_⟩
    · rw [pending, length_map_contents]
      exact hfull
    · simp [SpscQueue.push_full hfull]

/-- `receive` takes the oldest offset, or finds none. -/
theorem receive_cases {c : ZeroCopyChannel} (h : c.Ready) :
    (c.pending = [] ∧ c.receive = (.error .empty, c))
      ∨ ∃ offset rest c', c.receive = (.ok offset, c') ∧ c'.Ready ∧ c.pending = offset :: rest
          ∧ c'.pending = rest ∧ c'.returned = c.returned ∧ SameEnds c c' := by
  have hstate : ¬ (c.state = .disconnected ∧ c.sendQueue.isEmpty = true) := by
    rw [h.state]
    simp
  unfold receive
  rw [if_neg hstate]
  cases hc : c.sendQueue.contents with
  | nil =>
      left
      have hpop := SpscQueue.pop_empty h.send hc
      simp [pending, hc, hpop]
  | cons raw rest =>
      right
      obtain ⟨hval, hcont, hwf, hcap⟩ := SpscQueue.pop_cons h.send hc
      refine ⟨.fromRaw raw, rest.map .fromRaw, { c with sendQueue := c.sendQueue.pop.2 }, ?_,
        ⟨h.state, hwf, h.ret⟩, ?_, ?_, rfl, ⟨hcap, rfl⟩⟩
      · simp only [hval]
      · simp only [pending, hc, List.map_cons]
      · show c.sendQueue.pop.2.contents.map _ = _
        rw [hcont]

/-- A send that succeeds, by its result. -/
theorem send_ok {c c' : ZeroCopyChannel} (h : c.Ready) {offset : PointerOffset} {u : Unit}
    (hs : c.send offset = (.ok u, c')) : c'.Ready ∧ c'.pending = c.pending ++ [offset] := by
  rcases send_cases h offset with ⟨_, hfull⟩ | ⟨d, hsend, hready, hpend, _⟩
  · rw [hfull] at hs
    exact absurd hs (by simp)
  · rw [hsend] at hs
    obtain rfl : d = c' := (Prod.mk.inj hs).2
    exact ⟨hready, hpend⟩

/-- A send that fails changes nothing. -/
theorem send_err {c c' : ZeroCopyChannel} (h : c.Ready) {offset : PointerOffset} {e : SendError}
    (hs : c.send offset = (.error e, c')) : c' = c := by
  rcases send_cases h offset with ⟨_, hfull⟩ | ⟨d, hsend, _⟩
  · rw [hfull] at hs
    exact ((Prod.mk.inj hs).2).symm
  · rw [hsend] at hs
    exact absurd hs (by simp)

/-- A receive that succeeds, by its result. -/
theorem receive_ok {c c' : ZeroCopyChannel} (h : c.Ready) {offset : PointerOffset}
    (hs : c.receive = (.ok offset, c')) : c'.Ready ∧ c.pending = offset :: c'.pending := by
  rcases receive_cases h with ⟨_, hempty⟩ | ⟨o, rest, d, hrecv, hready, hpend, hpend', _⟩
  · rw [hempty] at hs
    exact absurd hs (by simp)
  · rw [hrecv] at hs
    obtain ⟨ho, rfl⟩ := Prod.mk.inj hs
    obtain rfl : o = offset := Except.ok.inj ho
    rw [hpend']
    exact ⟨hready, hpend⟩

/-- A receive that fails has found nothing and changes nothing. -/
theorem receive_err {c c' : ZeroCopyChannel} (h : c.Ready) {e : ReceiveError}
    (hs : c.receive = (.error e, c')) : c' = c ∧ c.pending = [] := by
  rcases receive_cases h with ⟨hnil, hempty⟩ | ⟨o, rest, d, hrecv, _⟩
  · rw [hempty] at hs
    exact ⟨((Prod.mk.inj hs).2).symm, hnil⟩
  · rw [hrecv] at hs
    exact absurd hs (by simp)

/-- No send or receive changes how much the queues hold. -/
theorem send_ends {c c' : ZeroCopyChannel} (h : c.Ready) {offset : PointerOffset}
    {r : Except SendError Unit} (hs : c.send offset = (r, c')) : SameEnds c c' := by
  rcases send_cases h offset with ⟨_, hfull⟩ | ⟨d, hsend, _, _, _, hends, _⟩
  · rw [hfull] at hs
    obtain rfl := (Prod.mk.inj hs).2
    exact ⟨rfl, rfl⟩
  · rw [hsend] at hs
    obtain rfl := (Prod.mk.inj hs).2
    exact hends

theorem receive_ends {c c' : ZeroCopyChannel} (h : c.Ready) {r : Except ReceiveError PointerOffset}
    (hs : c.receive = (r, c')) : SameEnds c c' := by
  rcases receive_cases h with ⟨_, hempty⟩ | ⟨_, _, d, hrecv, _, _, _, _, hends⟩
  · rw [hempty] at hs
    obtain rfl := (Prod.mk.inj hs).2
    exact ⟨rfl, rfl⟩
  · rw [hrecv] at hs
    obtain rfl := (Prod.mk.inj hs).2
    exact hends

/-- `return_offset` appends the offset, or finds the queue full and spins. -/
theorem returnOffset_cases {c : ZeroCopyChannel} (h : c.Ready) (offset : PointerOffset) :
    (c.returnQueue.capacity ≤ c.returned.length ∧ c.returnOffset offset = (false, c))
      ∨ ∃ c', c.returnOffset offset = (true, c') ∧ c'.Ready
          ∧ c'.returned = c.returned ++ [offset] ∧ c'.pending = c.pending ∧ SameEnds c c'
          ∧ c.returned.length < c.returnQueue.capacity := by
  unfold returnOffset
  by_cases hroom : c.returnQueue.contents.length < c.returnQueue.capacity
  · right
    obtain ⟨hok, hcont, hwf, hcap⟩ := SpscQueue.push_room h.ret hroom offset.raw
    refine ⟨{ c with returnQueue := (c.returnQueue.push offset.raw).2 }, ?_,
      ⟨h.state, h.send, hwf⟩, ?_, rfl, ⟨rfl, hcap⟩, ?_⟩
    · simp only [hok]
    · show (c.returnQueue.push offset.raw).2.contents.map _ = _
      rw [hcont, List.map_append]
      rfl
    · rw [returned, length_map_contents]
      exact hroom
  · left
    have hfull : c.returnQueue.capacity ≤ c.returnQueue.contents.length := Nat.not_lt.mp hroom
    refine ⟨?_, ?_⟩
    · rw [returned, length_map_contents]
      exact hfull
    · rw [SpscQueue.push_full hfull]

/-- `reclaim` takes the oldest returned offset, or finds none. -/
theorem reclaim_cases {c : ZeroCopyChannel} (h : c.Ready) :
    (c.returned = [] ∧ c.reclaim = (none, c))
      ∨ ∃ offset rest c', c.reclaim = (some offset, c') ∧ c'.Ready
          ∧ c.returned = offset :: rest ∧ c'.returned = rest ∧ c'.pending = c.pending
          ∧ SameEnds c c' := by
  unfold reclaim
  cases hc : c.returnQueue.contents with
  | nil =>
      left
      have hpop := SpscQueue.pop_empty h.ret hc
      simp [returned, hc, hpop]
  | cons raw rest =>
      right
      obtain ⟨hval, hcont, hwf, hcap⟩ := SpscQueue.pop_cons h.ret hc
      refine ⟨.fromRaw raw, rest.map .fromRaw, { c with returnQueue := c.returnQueue.pop.2 }, ?_,
        ⟨h.state, h.send, hwf⟩, ?_, ?_, rfl, ⟨rfl, hcap⟩⟩
      · simp only [hval, Option.map_some]
      · simp only [returned, hc, List.map_cons]
      · show c.returnQueue.pop.2.contents.map _ = _
        rw [hcont]

/-! ## §3. Channels that take one more offset. -/

/-- The receiver is there and the send queue has room. -/
def Accepts (c : ZeroCopyChannel) : Prop :=
  c.state ≠ .disconnected ∧ c.pending.length < c.sendQueue.capacity

instance decidableAccepts (c : ZeroCopyChannel) : Decidable c.Accepts :=
  inferInstanceAs (Decidable (_ ∧ _))

/-- A send into a channel that accepts appends the offset. -/
theorem send_of_accepts {c : ZeroCopyChannel} (h : c.Accepts) (offset : PointerOffset) :
    (c.send offset).1 = .ok () ∧ (c.send offset).2.pending = c.pending ++ [offset] := by
  have hroom : c.sendQueue.contents.length < c.sendQueue.capacity := by
    rw [← length_map_contents]
    exact h.2
  have hwf : c.sendQueue.WF := by
    show c.sendQueue.len ≤ c.sendQueue.capacity
    rw [← c.sendQueue.contents_length]
    exact Nat.le_of_lt hroom
  obtain ⟨hok, hcont, _, _⟩ := SpscQueue.push_room hwf hroom offset.raw
  unfold send
  simp only [if_neg h.1, hok, if_true, true_and]
  show (c.sendQueue.push offset.raw).2.contents.map _ = _
  rw [hcont, List.map_append]
  rfl

/-- A send into a channel that does not accept changes nothing. -/
theorem send_of_refuses {c : ZeroCopyChannel} (h : ¬ c.Accepts) (offset : PointerOffset) :
    ∃ e, c.send offset = (.error e, c) := by
  unfold send
  by_cases hstate : c.state = .disconnected
  · exact ⟨.connectionBroken, by rw [if_pos hstate]⟩
  · have hfull : c.sendQueue.capacity ≤ c.sendQueue.contents.length := by
      by_contra hroom
      refine h ⟨hstate, ?_⟩
      rw [pending, length_map_contents]
      exact Nat.lt_of_not_le hroom
    refine ⟨.queueFull, ?_⟩
    rw [if_neg hstate, SpscQueue.push_full hfull]
    rfl

end ZeroCopyChannel

end Entangle.Transport
