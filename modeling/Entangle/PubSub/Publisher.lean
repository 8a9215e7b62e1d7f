/-
  Entangle.PubSub.Publisher — one publisher and the channels connected to it
  (entangle/src/port/publisher.rs, sample.rs, and the per-connection part of
  subscriber.rs).

  A `Link` is an entry of the publisher's channel list together with the other
  end of the channel: the samples received through it that still exist.  The
  steps are single queue operations and single allocator operations; the loops
  of `send` and `reclaim` over the channel list are in `PublisherPc`.  Both
  hold the mutex of the list, so a subscriber connects only in between.

  A record of the past that no step reads (`inFlight`, `received`, `base`,
  `Sample.sent`, `sentOk`, `loaned`, `dropped`, `reclaimed`) is kept beside the
  state, to state what is delivered and counted.
-/
import Entangle.Transport.Channel

namespace Entangle.PubSub

open Entangle.Lib Entangle.Transport

/-! ## §1. State. -/

/-- The fields of `PubSubQos` that the ports read. -/
structure PubSubQos where
  bufferSize : Nat
  maxLoanedSamples : Nat
  deriving Repr, DecidableEq

/-- A live `Sample`; `sent` is what its chunk held when it was sent. -/
structure Sample (size : Nat) where
  offset : PointerOffset
  sent : Payload size

instance decidableEqSample (size : Nat) : DecidableEq (Sample size) := fun a b =>
  decidable_of_iff (a.offset = b.offset ∧ a.sent = b.sent) (by
    cases a
    cases b
    simp)

/-- One channel of a publisher, with everything at its other end that refers to the
publisher's chunks.  A chunk goes round in it: `send` puts its offset into the send
queue, `receive` takes it out into a live sample, the drop of the sample puts it into
the return queue, and `reclaim` takes it from there.

The channel stays when its subscriber is dropped (`alive`): `send` goes on filling the
send queue, and samples that outlive the subscriber still come back. -/
structure Link (size : Nat) where
  channel : ZeroCopyChannel
  -- the subscriber at the other end, and whether it still exists
  subscriber : Nat
  alive : Bool
  samples : List (Sample size)
  -- the sample whose drop is inside `return_offset`
  dropping : Option (Sample size)
  -- what the chunks in the send queue held when they were sent
  inFlight : List (Payload size)
  -- what `receive` has read from the chunks it returned
  received : List (Payload size)
  -- how many sends had succeeded when the link was made
  base : Nat

/-- Where the publisher's thread stands. -/
inductive PublisherPc (size : Nat) where
  | idle
  -- inside `send`: `value` is what the sample holds, channel `k` is next
  | sending (offset : PointerOffset) (value : Payload size) (k : Nat)
  -- inside `reclaim`, at channel `k`
  | reclaiming (k : Nat)
  -- an offset reclaimed from channel `k`, to be deallocated
  | releasing (k : Nat) (offset : PointerOffset)

/-- A publisher: its segment, its channels in the order in which subscribers have connected,
and the loans that are neither sent nor dropped.  `send` and `reclaim` lock the list of
channels and go through it one channel at a time; `pc` says how far they have got.

The last four fields are a record of the past that no operation reads. -/
structure Publisher (size : Nat) where
  segment : DataSegment
  qos : PubSubQos
  links : List (Link size)
  activeLoans : U64
  -- the offsets of the `SampleMut`s that exist
  loans : List PointerOffset
  pc : PublisherPc size
  -- the payloads whose `send` returned Ok
  sentOk : List (Payload size)
  loaned : Nat
  dropped : Nat
  reclaimed : Nat

variable {size : Nat}

/-! ## §2. The operations of the publisher. -/

namespace Publisher

/-- `PublisherBuilder::create`; `none` where the segment cannot be made. -/
def create (size : Nat) (qos : PubSubQos) : Option (Publisher size) :=
  (DataSegment.create (max size 8) (qos.bufferSize % 2 ^ 32) 0#16).map (fun segment =>
    { segment := segment, qos := qos, links := [], activeLoans := 0#64, loans := [], pc := .idle
      sentOk := [], loaned := 0, dropped := 0, reclaimed := 0 })

/-- `Publisher::loan`: the budget, the allocation, the zeroed payload. -/
def loan (p : Publisher size) : Option (Except LoanError PointerOffset × Publisher size) :=
  if p.activeLoans.toNat ≥ p.qos.maxLoanedSamples then
    some (.error (.exceedsMaxLoans p.qos.maxLoanedSamples), p)
  else
    match p.segment.allocate with
    | none => none
    | some (.error e, _) => some (.error e, p)
    | some (.ok offset, segment) =>
        some (.ok offset,
          { p with
            segment := segment.write offset (fun _ : Fin size => 0#8)
            activeLoans := p.activeLoans + 1
            loans := offset :: p.loans
            loaned := p.loaned + 1 })

/-- `deallocate` and `fetch_sub`, as in the drop of a `SampleMut` and in `reclaim`. -/
def release (p : Publisher size) (offset : PointerOffset) : Option (Publisher size) :=
  (p.segment.deallocate offset).map (fun segment =>
    { p with segment := segment, activeLoans := p.activeLoans - 1 })

def setLink (p : Publisher size) (k : Nat) (link : Link size) : Publisher size :=
  { p with links := p.links.set k link }

/-- The call of `SampleMut::send`: without a channel it returns Ok at once. -/
def send (p : Publisher size) (offset : PointerOffset) : Publisher size :=
  let value := p.segment.read size offset
  let p' := { p with loans := p.loans.erase offset }
  if p.links = [] then { p' with sentOk := p.sentOk ++ [value] }
  else { p' with pc := .sending offset value 0 }

/-- One round of the loop in `send`; the first failure ends it. -/
def sendNext (p : Publisher size) (offset : PointerOffset) (value : Payload size) (k : Nat) :
    Option (Publisher size) :=
  p.links[k]?.map (fun link =>
    match link.channel.send offset with
    | (.error _, _) => { p with pc := .idle }
    | (.ok _, channel) =>
        let p' := p.setLink k { link with channel := channel, inFlight := link.inFlight ++ [value] }
        if k + 1 < p.links.length then { p' with pc := .sending offset value (k + 1) }
        else { p' with pc := .idle, sentOk := p.sentOk ++ [value] })

/-- One round of the loops in `reclaim`. -/
def reclaimNext (p : Publisher size) (k : Nat) : Option (Publisher size) :=
  p.links[k]?.map (fun link =>
    match link.channel.reclaim with
    | (some offset, channel) =>
        { p.setLink k { link with channel := channel } with pc := .releasing k offset }
    | (none, _) =>
        { p with pc := if k + 1 < p.links.length then .reclaiming (k + 1) else .idle })

/-! ## §3. The other ends of the channels. -/

/-- A subscriber adds its channel to the list. -/
def connect (p : Publisher size) (subscriber : Nat) : Publisher size :=
  { p with
    links := p.links ++
      [{ channel := (ZeroCopyChannel.new p.qos.bufferSize).connect
         subscriber := subscriber
         alive := true
         samples := []
         dropping := none
         inFlight := []
         received := []
         base := p.sentOk.length }] }

/-- `channel.receive()` in the loop of `Subscriber::receive`; a sample if there is one. -/
def receive (p : Publisher size) (k : Nat) : Option (Publisher size) :=
  p.links[k]?.map (fun link =>
    match link.channel.receive with
    | (.ok offset, channel) =>
        let value := p.segment.read size offset
        p.setLink k
          { link with
            channel := channel
            samples := ⟨offset, link.inFlight.headD value⟩ :: link.samples
            inFlight := link.inFlight.tail
            received := link.received ++ [value] }
    | (.error _, _) => p)

/-- A `Sample` begins to be dropped. -/
def dropSample (p : Publisher size) (k : Nat) (sample : Sample size) : Option (Publisher size) :=
  p.links[k]?.bind (fun link =>
    if sample ∈ link.samples ∧ link.dropping = none then
      some (p.setLink k
        { link with samples := link.samples.erase sample, dropping := some sample })
    else none)

/-- One round of `return_offset`. -/
def returnNext (p : Publisher size) (k : Nat) : Option (Publisher size) :=
  p.links[k]?.bind (fun link =>
    link.dropping.map (fun sample =>
      match link.channel.returnOffset sample.offset with
      | (true, channel) => p.setLink k { link with channel := channel, dropping := none }
      | (false, _) => p))

/-- The `Subscriber` is dropped.  Its channels stay in the lists they are in. -/
def close (p : Publisher size) (subscriber : Nat) : Publisher size :=
  { p with
    links := p.links.map (fun link =>
      if link.subscriber = subscriber then { link with alive := false } else link) }

end Publisher

/-! ## §4. The steps. -/

/-- The steps that touch a publisher.  The first six are its own; `connect` is the part that
a subscriber's `create` plays in it, and the rest belong to the subscriber at the other
end of channel `k`.  A `send`, a `reclaim` and the drop of a sample are begun by one step
and go on in others. -/
inductive PublisherAct (size : Nat) where
  | loan
  | write (offset : PointerOffset) (value : Payload size)
  | send (offset : PointerOffset)
  | dropMut (offset : PointerOffset)
  | reclaim
  -- the next round of `send` or `reclaim`
  | next
  | connect (subscriber : Nat)
  | receive (k : Nat)
  | dropSample (k : Nat) (sample : Sample size)
  | returnNext (k : Nat)
  | close (subscriber : Nat)

/-- One step of the publisher or of the other end of one of its channels. -/
def Publisher.step (p : Publisher size) : PublisherAct size → Option (Publisher size)
  | .loan =>
      match p.pc with
      | .idle => p.loan.map Prod.snd
      | _ => none
  | .write offset value =>
      match p.pc with
      | .idle =>
          if offset ∈ p.loans then some { p with segment := p.segment.write offset value }
          else none
      | _ => none
  | .send offset =>
      match p.pc with
      | .idle => if offset ∈ p.loans then some (p.send offset) else none
      | _ => none
  | .dropMut offset =>
      match p.pc with
      | .idle =>
          if offset ∈ p.loans then
            (p.release offset).map (fun p' =>
              { p' with loans := p.loans.erase offset, dropped := p.dropped + 1 })
          else none
      | _ => none
  | .reclaim =>
      match p.pc with
      | .idle => some (if p.links = [] then p else { p with pc := .reclaiming 0 })
      | _ => none
  | .next =>
      match p.pc with
      | .idle => none
      | .sending offset value k => p.sendNext offset value k
      | .reclaiming k => p.reclaimNext k
      | .releasing k offset =>
          (p.release offset).map (fun p' =>
            { p' with pc := .reclaiming k, reclaimed := p.reclaimed + 1 })
  | .connect subscriber =>
      match p.pc with
      | .idle => some (p.connect subscriber)
      | _ => none
  | .receive k => p.receive k
  | .dropSample k sample => p.dropSample k sample
  | .returnNext k => p.returnNext k
  | .close subscriber => some (p.close subscriber)

/-- The operation behind each step, with its guard. -/
inductive PublisherStep (p : Publisher size) : PublisherAct size → Publisher size → Prop
  | loan (result : Except LoanError PointerOffset) (p' : Publisher size) :
      p.pc = .idle → p.loan = some (result, p') → PublisherStep p .loan p'
  | write (offset : PointerOffset) (value : Payload size) :
      p.pc = .idle → offset ∈ p.loans →
      PublisherStep p (.write offset value) { p with segment := p.segment.write offset value }
  | send (offset : PointerOffset) :
      p.pc = .idle → offset ∈ p.loans → PublisherStep p (.send offset) (p.send offset)
  | dropMut (offset : PointerOffset) (q : Publisher size) :
      p.pc = .idle → offset ∈ p.loans → p.release offset = some q →
      PublisherStep p (.dropMut offset)
        { q with loans := p.loans.erase offset, dropped := p.dropped + 1 }
  | reclaimNothing : p.pc = .idle → p.links = [] → PublisherStep p .reclaim p
  | reclaim : p.pc = .idle → p.links ≠ [] → PublisherStep p .reclaim { p with pc := .reclaiming 0 }
  | sendNext (offset : PointerOffset) (value : Payload size) (k : Nat) (p' : Publisher size) :
      p.pc = .sending offset value k → p.sendNext offset value k = some p' →
      PublisherStep p .next p'
  | reclaimNext (k : Nat) (p' : Publisher size) :
      p.pc = .reclaiming k → p.reclaimNext k = some p' → PublisherStep p .next p'
  | released (k : Nat) (offset : PointerOffset) (q : Publisher size) :
      p.pc = .releasing k offset → p.release offset = some q →
      PublisherStep p .next { q with pc := .reclaiming k, reclaimed := p.reclaimed + 1 }
  | connect (subscriber : Nat) :
      p.pc = .idle → PublisherStep p (.connect subscriber) (p.connect subscriber)
  | receive (k : Nat) (p' : Publisher size) :
      p.receive k = some p' → PublisherStep p (.receive k) p'
  | dropSample (k : Nat) (sample : Sample size) (p' : Publisher size) :
      p.dropSample k sample = some p' → PublisherStep p (.dropSample k sample) p'
  | returnNext (k : Nat) (p' : Publisher size) :
      p.returnNext k = some p' → PublisherStep p (.returnNext k) p'
  | close (subscriber : Nat) : PublisherStep p (.close subscriber) (p.close subscriber)

/-- **The steps of the publisher and of the other ends.** -/
theorem Publisher.step_cases {p p' : Publisher size} {a : PublisherAct size}
    (hs : p.step a = some p') : PublisherStep p a p' := by
  cases a with
  | loan =>
      simp only [Publisher.step] at hs
      split at hs
      next hidle =>
        obtain ⟨⟨result, q⟩, hloan, rfl⟩ := Option.map_eq_some_iff.mp hs
        exact .loan result q hidle hloan
      next => exact absurd hs (by simp)
  | write offset value =>
      simp only [Publisher.step] at hs
      split at hs
      next hidle =>
        split at hs
        next hmem =>
          injection hs with hs
          subst hs
          exact .write offset value hidle hmem
        next => exact absurd hs (by simp)
      next => exact absurd hs (by simp)
  | send offset =>
      simp only [Publisher.step] at hs
      split at hs
      next hidle =>
        split at hs
        next hmem =>
          injection hs with hs
          subst hs
          exact .send offset hidle hmem
        next => exact absurd hs (by simp)
      next => exact absurd hs (by simp)
  | dropMut offset =>
      simp only [Publisher.step] at hs
      split at hs
      next hidle =>
        split at hs
        next hmem =>
          obtain ⟨q, hq, rfl⟩ := Option.map_eq_some_iff.mp hs
          exact .dropMut offset q hidle hmem hq
        next => exact absurd hs (by simp)
      next => exact absurd hs (by simp)
  | reclaim =>
      simp only [Publisher.step] at hs
      split at hs
      next hidle =>
        injection hs with hs
        subst hs
        split
        next hnil => exact .reclaimNothing hidle hnil
        next hne => exact .reclaim hidle hne
      next => exact absurd hs (by simp)
  | next =>
      simp only [Publisher.step] at hs
      split at hs
      next => exact absurd hs (by simp)
      next offset value k hpc => exact .sendNext offset value k p' hpc hs
      next k hpc => exact .reclaimNext k p' hpc hs
      next k offset hpc =>
        obtain ⟨q, hq, rfl⟩ := Option.map_eq_some_iff.mp hs
        exact .released k offset q hpc hq
  | connect subscriber =>
      simp only [Publisher.step] at hs
      split at hs
      next hidle =>
        injection hs with hs
        subst hs
        exact .connect subscriber hidle
      next => exact absurd hs (by simp)
  | receive k => exact .receive k p' hs
  | dropSample k sample => exact .dropSample k sample p' hs
  | returnNext k => exact .returnNext k p' hs
  | close subscriber =>
      simp only [Publisher.step] at hs
      injection hs with hs
      subst hs
      exact .close subscriber

/-! ## §5. The list of channels. -/

/-- How many channels a step adds. -/
def PublisherAct.connects : PublisherAct size → Nat
  | .connect _ => 1
  | _ => 0

namespace Publisher

theorem setLink_links_length (p : Publisher size) (k : Nat) (link : Link size) :
    (p.setLink k link).links.length = p.links.length :=
  List.length_set

theorem loan_links {p p' : Publisher size} {result : Except LoanError PointerOffset}
    (h : p.loan = some (result, p')) : p'.links = p.links := by
  unfold loan at h
  split at h
  next =>
    simp only [Option.some.injEq, Prod.mk.injEq] at h
    rw [h.2]
  next =>
    split at h
    next => exact absurd h (by simp)
    next =>
      simp only [Option.some.injEq, Prod.mk.injEq] at h
      rw [h.2]
    next =>
      simp only [Option.some.injEq, Prod.mk.injEq] at h
      rw [← h.2]

theorem release_links {p p' : Publisher size} {offset : PointerOffset}
    (h : p.release offset = some p') : p'.links = p.links := by
  obtain ⟨segment, _, rfl⟩ := Option.map_eq_some_iff.mp h
  rfl

theorem send_links (p : Publisher size) (offset : PointerOffset) :
    (p.send offset).links = p.links := by
  unfold send
  dsimp only
  split <;> rfl

theorem sendNext_links_length {p p' : Publisher size} {offset : PointerOffset}
    {value : Payload size} {k : Nat} (h : p.sendNext offset value k = some p') :
    p'.links.length = p.links.length := by
  obtain ⟨link, _, rfl⟩ := Option.map_eq_some_iff.mp h
  dsimp only
  split
  next => rfl
  next => split <;> exact p.setLink_links_length _ _

theorem reclaimNext_links_length {p p' : Publisher size} {k : Nat}
    (h : p.reclaimNext k = some p') : p'.links.length = p.links.length := by
  obtain ⟨link, _, rfl⟩ := Option.map_eq_some_iff.mp h
  dsimp only
  split
  next => exact p.setLink_links_length _ _
  next => rfl

theorem receive_links_length {p p' : Publisher size} {k : Nat} (h : p.receive k = some p') :
    p'.links.length = p.links.length := by
  obtain ⟨link, _, rfl⟩ := Option.map_eq_some_iff.mp h
  dsimp only
  split
  next => exact p.setLink_links_length _ _
  next => rfl

theorem dropSample_links_length {p p' : Publisher size} {k : Nat} {sample : Sample size}
    (h : p.dropSample k sample = some p') : p'.links.length = p.links.length := by
  obtain ⟨link, _, hcond⟩ := Option.bind_eq_some_iff.mp h
  split at hcond
  next =>
    injection hcond with hcond
    rw [← hcond]
    exact p.setLink_links_length _ _
  next => exact absurd hcond (by simp)

theorem returnNext_links_length {p p' : Publisher size} {k : Nat} (h : p.returnNext k = some p') :
    p'.links.length = p.links.length := by
  obtain ⟨link, _, hdrop⟩ := Option.bind_eq_some_iff.mp h
  obtain ⟨x, _, rfl⟩ := Option.map_eq_some_iff.mp hdrop
  split
  next => exact p.setLink_links_length _ _
  next => rfl

end Publisher

/-- Channels are only added, by `connect`. -/
theorem links_length_step {p p' : Publisher size} {a : PublisherAct size}
    (hs : p.step a = some p') : p'.links.length = p.links.length + a.connects := by
  cases Publisher.step_cases hs with
  | loan result _ _ hloan => exact congrArg List.length (Publisher.loan_links hloan)
  | write offset value _ _ => rfl
  | send offset _ _ => exact congrArg List.length (p.send_links offset)
  | dropMut offset q _ _ hq =>
      show q.links.length = p.links.length
      rw [Publisher.release_links hq]
  | reclaimNothing _ _ => rfl
  | reclaim _ _ => rfl
  | sendNext offset value k _ _ hs => exact Publisher.sendNext_links_length hs
  | reclaimNext k _ _ hs => exact Publisher.reclaimNext_links_length hs
  | released k offset q _ hq =>
      show q.links.length = p.links.length
      rw [Publisher.release_links hq]
  | connect subscriber _ => simp [Publisher.connect, PublisherAct.connects]
  | receive k _ hs => exact Publisher.receive_links_length hs
  | dropSample k sample _ hs => exact Publisher.dropSample_links_length hs
  | returnNext k _ hs => exact Publisher.returnNext_links_length hs
  | close subscriber => exact List.length_map _

theorem links_length_le {p p' : Publisher size} {a : PublisherAct size}
    (hs : p.step a = some p') : p.links.length ≤ p'.links.length := by
  rw [links_length_step hs]
  exact Nat.le_add_right _ _

end Entangle.PubSub
