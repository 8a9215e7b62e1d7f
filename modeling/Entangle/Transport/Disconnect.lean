/-
  Entangle.Transport.Disconnect — `ZeroCopyChannel::disconnect` against a `send`
  and a `receive` in progress (entangle-transport/src/channel.rs).

  One thread sends, one receives, and somebody disconnects the channel at any
  moment.  Every access to the state byte and to the positions and slots of the
  send queue is one step; the accesses of `push` and `pop` are those of
  `SpscSteps`, which this system refines (`step_queue`).

  `receive` answers `ConnectionBroken` when it has seen the channel disconnected
  and then found the queue empty.  A `send` that has seen the channel connected
  may push after that.

  Not in the source: the last results, the offsets sent and received, and
  `broken`, what had been received when `ConnectionBroken` was first returned.

  Main definitions:
    * `Safe` — nothing is stranded, and later calls fail;
    * `noneSending` — an empty queue is looked at only when no send is under way.

  Main results:
    * `disconnect_strands` — an offset is sent after `ConnectionBroken`;
    * `disconnect_safe` — not in a run that meets `noneSending`.
-/
import Entangle.Lockfree.SpscSteps
import Entangle.Transport.Channel

namespace Entangle.Transport.Disconnect

open Entangle.Lib Entangle.Lockfree

/-! ## §1. Sender, receiver and disconnect. -/

/-- Where the sender stands. -/
inductive SendPc where
  | idle
  -- state loaded, not disconnected: `push` is called
  | checked (offset : PointerOffset)
  | pushing (pc : PushPc)
  deriving Repr, DecidableEq

/-- Where the receiver stands. -/
inductive ReceivePc where
  | idle
  -- state loaded, disconnected: is_empty is called
  | disconnected
  -- is_empty: read_pos loaded, write_pos to be loaded
  | loadedRead (read : U64)
  -- `pop` is called
  | popCalled
  | popping (pc : PopPc)
  deriving Repr, DecidableEq

/-- The access of `push` the sender makes next. -/
def SendPc.push : SendPc → PushPc
  | .pushing pc => pc
  | .idle | .checked _ => .idle

/-- The access of `pop` the receiver makes next. -/
def ReceivePc.pop : ReceivePc → PopPc
  | .popping pc => pc
  | _ => .idle

/-- One channel, its sender and its receiver, each at most in one call.  `disconnect` may
come from any thread at any moment, between two accesses of either.

The last three fields are a record of the past; `broken` remembers how far the receiver
had got when it was first told that the connection is broken, which is what it may not
go beyond. -/
structure State where
  channel : ZeroCopyChannel
  sender : SendPc
  receiver : ReceivePc
  -- what the last calls have returned
  sendResult : Option (Except SendError Unit)
  receiveResult : Option (Except ReceiveError PointerOffset)
  -- the offsets whose `send` returned Ok, and those that `receive` returned
  sentOk : List PointerOffset
  received : List PointerOffset
  -- what had been received when `receive` first returned ConnectionBroken
  broken : Option (List PointerOffset)

inductive Act where
  | send (offset : PointerOffset)
  -- the next access of the send in progress
  | sender
  | receive
  -- the next access of the receive in progress
  | receiver
  | disconnect
  deriving Repr, DecidableEq

/-- The send queue becomes `queue`. -/
def State.setQueue (s : State) (queue : SpscQueue) : State :=
  { s with channel := { s.channel with sendQueue := queue } }

/-- The next access of `send`, after its load of the state. -/
def senderStep (s : State) : Option State :=
  match s.sender with
  | .idle => none
  | .checked offset =>
      some { s with
        sender := .pushing (.loadedWrite offset.raw s.channel.sendQueue.writePos) }
  | .pushing pc =>
      (pushAccess s.channel.sendQueue pc).map (fun r =>
        match r.2.2 with
        | none => { s.setQueue r.1 with sender := .pushing r.2.1 }
        | some true =>
            { s.setQueue r.1 with
              sender := .idle
              sendResult := some (.ok ())
              sentOk := s.sentOk ++ pc.value.toList.map .fromRaw }
        | some false =>
            { s.setQueue r.1 with sender := .idle, sendResult := some (.error .queueFull) })

/-- The next access of `receive`, after its load of the state. -/
def receiverStep (s : State) : Option State :=
  match s.receiver with
  | .idle => none
  | .disconnected => some { s with receiver := .loadedRead s.channel.sendQueue.readPos }
  | .loadedRead r =>
      if r = s.channel.sendQueue.writePos then
        some { s with
          receiver := .idle
          receiveResult := some (.error .connectionBroken)
          broken := s.broken.orElse (fun _ => some s.received) }
      else some { s with receiver := .popCalled }
  | .popCalled => some { s with receiver := .popping (.loadedRead s.channel.sendQueue.readPos) }
  | .popping pc =>
      (popAccess s.channel.sendQueue pc).map (fun r =>
        match r.2.2 with
        | none => { s.setQueue r.1 with receiver := .popping r.2.1 }
        | some (some raw) =>
            { s.setQueue r.1 with
              receiver := .idle
              receiveResult := some (.ok (.fromRaw raw))
              received := s.received ++ [.fromRaw raw] }
        | some none =>
            { s.setQueue r.1 with receiver := .idle, receiveResult := some (.error .empty) })

/-- One access; a call starts with its load of the state. -/
def step (s : State) : Act → Option State
  | .send offset =>
      if s.sender = .idle then
        if s.channel.state = .disconnected then
          some { s with sendResult := some (.error .connectionBroken) }
        else some { s with sender := .checked offset }
      else none
  | .sender => senderStep s
  | .receive =>
      if s.receiver = .idle then
        if s.channel.state = .disconnected then some { s with receiver := .disconnected }
        else some { s with receiver := .popCalled }
      else none
  | .receiver => receiverStep s
  | .disconnect =>
      if s.channel.state = .disconnected then none
      else some { s with channel := { s.channel with state := .disconnected } }

/-- A channel on which `connect` has been called. -/
def init (capacity : Nat) : State :=
  { channel := (ZeroCopyChannel.new capacity).connect
    sender := .idle
    receiver := .idle
    sendResult := none
    receiveResult := none
    sentOk := []
    received := []
    broken := none }

/-! ## §2. Stranded offsets. -/

/-- **Disconnecting strands nothing**: once `receive` has returned
`ConnectionBroken`, what is sent is what had been received then, and `receive`
returns nothing else; and a send that starts on a disconnected channel fails and
leaves the channel. -/
structure Safe (s : State) : Prop where
  drained : ∀ l, s.broken = some l → s.sentOk = l ∧ s.received = l
  later : s.broken ≠ none → s.receiveResult = some (.error .connectionBroken)
  refused : ∀ offset s', s.channel.state = .disconnected → step s (.send offset) = some s' →
    s'.sendResult = some (.error .connectionBroken) ∧ s'.sender = .idle ∧ s'.channel = s.channel

/-- The sender has looked at the state before the disconnect, and pushes after
the receiver has found the queue empty. -/
theorem disconnect_strands :
    ∃ s, Reach step anyStep (init 4) s
      ∧ s.broken = some [] ∧ s.sentOk = [.new 0#16 64] ∧ s.receiveResult = some (.ok (.new 0#16 64))
      ∧ ¬ Safe s := by
  have hrun : (exec step (init 4)
      [.send (.new 0#16 64), .disconnect, .receive, .receiver, .receiver, .sender, .sender,
       .sender, .sender, .receive, .receiver, .receiver, .receiver, .receiver, .receiver,
       .receiver]).map (fun s => (s.broken, s.sentOk, s.receiveResult))
      = some (some [], [.new 0#16 64], some (.ok (.new 0#16 64))) := by
    decide
  obtain ⟨s, hs, hends⟩ := Option.map_eq_some_iff.mp hrun
  simp only [Prod.mk.injEq] at hends
  obtain ⟨hbroken, hsent, hresult⟩ := hends
  refine ⟨s, Reach.of_exec _ .refl hs, hbroken, hsent, hresult, fun hsafe => ?_⟩
  have hnil := (hsafe.drained [] hbroken).1
  rw [hsent] at hnil
  exact absurd hnil (by simp)

/-! ## §3. The send queue is a queue of one producer and one consumer. -/

/-- The send queue with its producer and its consumer. -/
def State.spsc (s : State) : SpscSteps.State :=
  { queue := s.channel.sendQueue
    producer := s.sender.push
    consumer := s.receiver.pop
    pushed := s.sentOk.map PointerOffset.raw
    popped := s.received.map PointerOffset.raw }

theorem map_raw_fromRaw (raws : List U64) :
    (raws.map PointerOffset.fromRaw).map PointerOffset.raw = raws := by
  rw [List.map_map]
  exact List.map_id'' (fun _ => rfl) raws

theorem senderStep_queue {s s' : State} (hs : senderStep s = some s') :
    ∃ b, SpscSteps.step s.spsc b = some s'.spsc := by
  unfold senderStep at hs
  split at hs
  next => exact absurd hs (by simp)
  next offset hpc =>
    injection hs with hs
    subst hs
    refine ⟨.push offset.raw, ?_⟩
    simp [SpscSteps.step, State.spsc, hpc, SendPc.push]
  next pc hpc =>
    obtain ⟨⟨queue, pc', result⟩, ha, rfl⟩ := Option.map_eq_some_iff.mp hs
    refine ⟨.producer, ?_⟩
    have hpush : s.spsc.producer = pc := by
      simp only [State.spsc, hpc, SendPc.push]
    simp only [SpscSteps.step, hpush]
    show (pushAccess s.channel.sendQueue pc).map _ = _
    rw [ha]
    cases result with
    | none => rfl
    | some ok =>
        have hidle := pushAccess_returned ha
        subst hidle
        cases ok with
        | false => rfl
        | true =>
            simp only [State.spsc, State.setQueue, SendPc.push, List.map_append, map_raw_fromRaw,
              Option.map_some, if_true]

theorem receiverStep_queue {s s' : State} (hs : receiverStep s = some s') :
    s'.spsc = s.spsc ∨ ∃ b, SpscSteps.step s.spsc b = some s'.spsc := by
  unfold receiverStep at hs
  split at hs
  next => exact absurd hs (by simp)
  next hpc =>
    injection hs with hs
    subst hs
    left
    simp [State.spsc, hpc, ReceivePc.pop]
  next r hpc =>
    left
    split at hs
    next =>
      injection hs with hs
      subst hs
      simp [State.spsc, hpc, ReceivePc.pop]
    next =>
      injection hs with hs
      subst hs
      simp [State.spsc, hpc, ReceivePc.pop]
  next hpc =>
    injection hs with hs
    subst hs
    refine .inr ⟨.pop, ?_⟩
    simp [SpscSteps.step, State.spsc, hpc, ReceivePc.pop]
  next pc hpc =>
    obtain ⟨⟨queue, pc', result⟩, ha, rfl⟩ := Option.map_eq_some_iff.mp hs
    refine .inr ⟨.consumer, ?_⟩
    have hpop : s.spsc.consumer = pc := by
      simp only [State.spsc, hpc, ReceivePc.pop]
    simp only [SpscSteps.step, hpop]
    show (popAccess s.channel.sendQueue pc).map _ = _
    rw [ha]
    cases result with
    | none => simp [State.spsc, State.setQueue, ReceivePc.pop]
    | some value =>
        have hidle := popAccess_returned ha
        subst hidle
        cases value with
        | none => simp [State.spsc, State.setQueue, ReceivePc.pop]
        | some raw => simp [State.spsc, State.setQueue, ReceivePc.pop, PointerOffset.fromRaw]

/-- **Every access is one of `SpscSteps` on the send queue, or leaves it.** -/
theorem step_queue {s s' : State} {a : Act} (hs : step s a = some s') :
    s'.spsc = s.spsc ∨ ∃ b, SpscSteps.step s.spsc b = some s'.spsc := by
  cases a with
  | sender => exact .inr (senderStep_queue hs)
  | receiver => exact receiverStep_queue hs
  | send offset =>
      left
      simp only [step, Option.ite_none_right_eq_some] at hs
      obtain ⟨hidle, hs⟩ := hs
      split at hs <;>
        (injection hs with hs; subst hs; simp [State.spsc, hidle, SendPc.push])
  | receive =>
      left
      simp only [step, Option.ite_none_right_eq_some] at hs
      obtain ⟨hidle, hs⟩ := hs
      split at hs <;>
        (injection hs with hs; subst hs; simp [State.spsc, hidle, ReceivePc.pop])
  | disconnect =>
      left
      simp only [step, Option.ite_none_left_eq_some, Option.some.injEq] at hs
      obtain ⟨_, rfl⟩ := hs
      rfl

/-! ## §4. Runs in which nobody is sending when the queue is found empty. -/

/-- A receiver that has seen the channel disconnected finds the queue empty only
when no send is between its load of the state and its end. -/
def noneSending (s : State) : Act → Prop
  | .receiver => s.receiver = .loadedRead s.channel.sendQueue.writePos → s.sender = .idle
  | _ => True

instance decidableNoneSending (s : State) : (a : Act) → Decidable (noneSending s a)
  | .receiver => inferInstanceAs
      (Decidable (s.receiver = .loadedRead s.channel.sendQueue.writePos → s.sender = .idle))
  | .send _ => isTrue trivial
  | .sender => isTrue trivial
  | .receive => isTrue trivial
  | .disconnect => isTrue trivial

/-- What the receiver knows while it looks whether the queue is empty. -/
def ReceiverOk (s : State) : Prop :=
  match s.receiver with
  | .disconnected => s.channel.state = .disconnected
  | .loadedRead r => s.channel.state = .disconnected ∧ r = s.channel.sendQueue.readPos
  | .idle | .popCalled | .popping _ => True

/-- The receiver is in `receive`, before `pop`. -/
def ReceivePc.looking : ReceivePc → Bool
  | .idle | .disconnected | .loadedRead _ => true
  | .popCalled | .popping _ => false

/-- `ConnectionBroken` has been returned: nobody sends, and the queue is drained. -/
structure Drained (s : State) (l : List PointerOffset) : Prop where
  state : s.channel.state = .disconnected
  sender : s.sender = .idle
  looking : s.receiver.looking = true
  sent : s.sentOk = l
  received : s.received = l
  result : s.receiveResult = some (.error .connectionBroken)

/-- The send queue is in order, what the receiver has loaded fits its place, and the queue
was drained when the receiver was told that the connection is broken. -/
structure Inv (s : State) : Prop where
  queue : SpscSteps.Inv s.spsc
  receiver : ReceiverOk s
  broken : ∀ l, s.broken = some l → Drained s l

/-- The positions agree exactly if everything sent has been received. -/
theorem Inv.drained_iff {s : State} (h : Inv s) :
    s.channel.sendQueue.readPos = s.channel.sendQueue.writePos ↔ s.received = s.sentOk := by
  have hraw : Function.Injective PointerOffset.raw := by
    intro a b hab
    cases a
    cases b
    exact congrArg PointerOffset.mk hab
  have hlen : s.spsc.popped.length = s.spsc.pushed.length ↔ s.received = s.sentOk := by
    constructor
    · intro he
      have hfifo := h.queue.fifo
      rw [he, List.take_length] at hfifo
      exact List.map_injective_iff.mpr hraw hfifo
    · intro he
      show (s.received.map _).length = (s.sentOk.map _).length
      rw [he]
  exact h.queue.holds.pos_eq_iff.trans hlen

/-- The sender moves: it is in a call, so `ConnectionBroken` has not been
returned. -/
theorem Inv.senderStep {s s' : State} (h : Inv s) (hs : senderStep s = some s') : Inv s' := by
  have hqueue : SpscSteps.Inv s'.spsc := by
    obtain ⟨b, hb⟩ := senderStep_queue hs
    exact h.queue.step hb
  have hnone : ∀ l, s.broken ≠ some l := by
    intro l hl
    have hidle := (h.broken l hl).sender
    rw [Disconnect.senderStep, hidle] at hs
    exact absurd hs (by simp)
  have hrec := h.receiver
  obtain ⟨hsame, hstate, hread, hbroken⟩ : s'.receiver = s.receiver
      ∧ s'.channel.state = s.channel.state
      ∧ s'.channel.sendQueue.readPos = s.channel.sendQueue.readPos ∧ s'.broken = s.broken := by
    unfold Disconnect.senderStep at hs
    split at hs
    next => exact absurd hs (by simp)
    next =>
      injection hs with hs
      subst hs
      exact ⟨rfl, rfl, rfl, rfl⟩
    next pc _ =>
      obtain ⟨⟨queue, pc', result⟩, ha, rfl⟩ := Option.map_eq_some_iff.mp hs
      have hread := (pushAccess_keeps ha).1
      cases result with
      | none => exact ⟨rfl, rfl, hread, rfl⟩
      | some ok => cases ok <;> exact ⟨rfl, rfl, hread, rfl⟩
  refine ⟨hqueue, ?_, fun l hl => ?_⟩
  · unfold ReceiverOk at hrec ⊢
    rw [hsame, hstate, hread]
    exact hrec
  · rw [hbroken] at hl
    exact absurd hl (hnone l)

/-- A receiver in `pop` has never returned `ConnectionBroken`. -/
theorem Inv.not_broken {s : State} (h : Inv s) (hpc : s.receiver.looking = false)
    (l : List PointerOffset) : s.broken ≠ some l := by
  intro hl
  rw [(h.broken l hl).looking] at hpc
  exact absurd hpc (by simp)

/-- The receiver's look at `write_pos` in `is_empty`. -/
theorem Inv.looks {s : State} (h : Inv s) {r : U64} (hpc : s.receiver = .loadedRead r)
    (hnone : r = s.channel.sendQueue.writePos → s.sender = .idle) {s' : State}
    (hs : receiverStep s = some s') (hqueue : SpscSteps.Inv s'.spsc) : Inv s' := by
  have hrec := h.receiver
  unfold ReceiverOk at hrec
  simp only [hpc] at hrec
  obtain ⟨hstate, hread⟩ := hrec
  unfold receiverStep at hs
  simp only [hpc] at hs
  split at hs
  next hempty =>
    injection hs with hs
    subst hs
    have hdrained : s.received = s.sentOk := h.drained_iff.mp (hread.symm.trans hempty)
    refine ⟨hqueue, trivial, fun l hl => ?_⟩
    have hl' : l = s.received := by
      cases hb : s.broken with
      | none =>
          rw [hb] at hl
          exact (Option.some.inj hl).symm
      | some l₀ =>
          rw [hb] at hl
          obtain rfl : l₀ = l := Option.some.inj hl
          exact (h.broken l₀ hb).received.symm
    exact ⟨hstate, hnone hempty, rfl, hdrained.symm.trans hl'.symm, hl'.symm, rfl⟩
  next hmore =>
    injection hs with hs
    subst hs
    refine ⟨hqueue, trivial, fun l hl => ?_⟩
    have hd := h.broken l hl
    have hpos := h.drained_iff.mpr (hd.received.trans hd.sent.symm)
    exact absurd (hread.trans hpos) hmore

/-- The receiver moves. -/
theorem Inv.receiverStep {s s' : State} (h : Inv s) (hok : noneSending s .receiver)
    (hs : receiverStep s = some s') : Inv s' := by
  have hqueue : SpscSteps.Inv s'.spsc := by
    rcases receiverStep_queue hs with he | ⟨b, hb⟩
    · rw [he]
      exact h.queue
    · exact h.queue.step hb
  cases hpc : s.receiver with
  | idle =>
      rw [Disconnect.receiverStep, hpc] at hs
      exact absurd hs (by simp)
  | disconnected =>
      have hrec := h.receiver
      unfold ReceiverOk at hrec
      simp only [hpc] at hrec
      simp only [Disconnect.receiverStep, hpc, Option.some.injEq] at hs
      subst hs
      refine ⟨hqueue, ⟨hrec, rfl⟩, fun l hl => ?_⟩
      have hd := h.broken l hl
      exact ⟨hd.state, hd.sender, rfl, hd.sent, hd.received, hd.result⟩
  | loadedRead r => exact h.looks hpc (fun he => hok (by rw [hpc, he])) hs hqueue
  | popCalled =>
      have hnot := h.not_broken (by rw [hpc]; rfl)
      simp only [Disconnect.receiverStep, hpc, Option.some.injEq] at hs
      subst hs
      exact ⟨hqueue, trivial, fun l hl => absurd hl (hnot l)⟩
  | popping pc =>
      have hnot := h.not_broken (by rw [hpc]; rfl)
      simp only [Disconnect.receiverStep, hpc] at hs
      obtain ⟨⟨queue, pc', result⟩, _, rfl⟩ := Option.map_eq_some_iff.mp hs
      cases result with
      | none => exact ⟨hqueue, trivial, fun l hl => absurd hl (hnot l)⟩
      | some value =>
          cases value <;> exact ⟨hqueue, trivial, fun l hl => absurd hl (hnot l)⟩

/-- **The step lemma.** -/
theorem Inv.step {s s' : State} {a : Act} (h : Inv s) (hok : noneSending s a)
    (hs : step s a = some s') : Inv s' := by
  cases a with
  | sender => exact h.senderStep hs
  | receiver => exact h.receiverStep hok hs
  | send offset =>
      have hqueue : SpscSteps.Inv s'.spsc := by
        rcases step_queue hs with he | ⟨b, hb⟩
        · rw [he]
          exact h.queue
        · exact h.queue.step hb
      simp only [Disconnect.step, Option.ite_none_right_eq_some] at hs
      obtain ⟨hidle, hs⟩ := hs
      split at hs
      next =>
        injection hs with hs
        subst hs
        refine ⟨hqueue, h.receiver, fun l hl => ?_⟩
        have hd := h.broken l hl
        exact ⟨hd.state, hd.sender, hd.looking, hd.sent, hd.received, hd.result⟩
      next hconnected =>
        injection hs with hs
        subst hs
        exact ⟨hqueue, h.receiver, fun l hl => absurd (h.broken l hl).state hconnected⟩
  | receive =>
      have hqueue : SpscSteps.Inv s'.spsc := by
        rcases step_queue hs with he | ⟨b, hb⟩
        · rw [he]
          exact h.queue
        · exact h.queue.step hb
      simp only [Disconnect.step, Option.ite_none_right_eq_some] at hs
      obtain ⟨_, hs⟩ := hs
      split at hs
      next hstate =>
        injection hs with hs
        subst hs
        refine ⟨hqueue, hstate, fun l hl => ?_⟩
        have hd := h.broken l hl
        exact ⟨hd.state, hd.sender, rfl, hd.sent, hd.received, hd.result⟩
      next hconnected =>
        injection hs with hs
        subst hs
        exact ⟨hqueue, trivial, fun l hl => absurd (h.broken l hl).state hconnected⟩
  | disconnect =>
      simp only [Disconnect.step, Option.ite_none_left_eq_some, Option.some.injEq] at hs
      obtain ⟨hconnected, rfl⟩ := hs
      refine ⟨h.queue, ?_, fun l hl => absurd (h.broken l hl).state hconnected⟩
      have hrec := h.receiver
      unfold ReceiverOk at hrec ⊢
      dsimp only
      cases hpc : s.receiver with
      | disconnected => rfl
      | loadedRead r =>
          simp only [hpc] at hrec
          exact ⟨rfl, hrec.2⟩
      | _ => trivial

/-! ## §5. Every run. -/

theorem inv_init (capacity : Nat) : Inv (init capacity) where
  queue := SpscSteps.inv_init capacity
  receiver := trivial
  broken := fun _ hl => absurd hl (by simp [init])

/-- A send that starts on a disconnected channel fails and leaves the channel. -/
theorem send_refused {s s' : State} {offset : PointerOffset}
    (hstate : s.channel.state = .disconnected) (hs : step s (.send offset) = some s') :
    s'.sendResult = some (.error .connectionBroken) ∧ s'.sender = .idle
      ∧ s'.channel = s.channel := by
  simp only [step, Option.ite_none_right_eq_some, hstate, if_true, Option.some.injEq] at hs
  obtain ⟨hidle, rfl⟩ := hs
  exact ⟨rfl, hidle, rfl⟩

theorem Inv.safe {s : State} (h : Inv s) : Safe s where
  drained := fun l hl => ⟨(h.broken l hl).sent, (h.broken l hl).received⟩
  later := by
    intro hne
    obtain ⟨l, hl⟩ := Option.ne_none_iff_exists'.mp hne
    exact (h.broken l hl).result
  refused := fun _ _ => send_refused

/-- **Disconnecting a channel strands nothing**, in any run in which a receiver
finds the queue empty, after it has seen the channel disconnected, only when no
send is under way. -/
theorem disconnect_safe (capacity : Nat) (s : State)
    (h : Reach step noneSending (init capacity) s) : Safe s :=
  (h.invariant Inv (inv_init capacity) (fun _ _ _ hi hok hs => hi.step hok hs)).safe

/-- One offset is sent and received around the disconnect. -/
theorem disconnect_safe_one :
    ∃ s, Reach step noneSending (init 4) s ∧ s.broken = some [.new 0#16 64] ∧ Safe s := by
  have hrun : (execOk step noneSending (init 4)
      [.send (.new 0#16 64), .sender, .disconnect, .sender, .sender, .sender, .receive,
       .receiver, .receiver, .receiver, .receiver, .receiver, .receiver, .receive, .receiver,
       .receiver]).map (fun s => s.broken)
      = some (some [.new 0#16 64]) := by
    decide
  obtain ⟨s, hs, hbroken⟩ := Option.map_eq_some_iff.mp hrun
  have hreach := Reach.of_execOk _ .refl hs
  exact ⟨s, hreach, hbroken, disconnect_safe 4 s hreach⟩

end Entangle.Transport.Disconnect
