/-
  Entangle.PubSub.Ownership — who holds which chunk of a publisher's segment.

  The free list, the unsent samples and the offset in the publisher's hand are
  pairwise apart, and apart from what the channels hold.  Inside one channel a
  chunk is in one place only; several channels may hold the same chunk, since
  `send` pushes one offset to all of them.  `ExclusiveReclaim` says that a
  chunk is taken back only when no other channel holds it.

  The send queue of a channel whose subscriber is gone is still filled by `send`,
  but nothing in it comes back.  Whether it counts as holding its chunks is left
  open (`Scope`): `.all` counts the queues of all channels, `.live` only those
  whose subscriber exists.

  Main definitions:
    * `PubOk scope p l` — the ownership invariant, with `l` the free list;
    * `ExclusiveReclaim` — the condition on a step that keeps it;
    * `Effect` — everything a step can do to the chunks and the channels.

  Main result:
    * `exclusiveReclaim_of_single` — with one channel every step meets the
      condition.
-/
import Entangle.PubSub.Publisher
import Mathlib.Data.List.Nodup
import Mathlib.Data.List.Perm.Subperm

namespace Entangle.PubSub

open Entangle.Lib Entangle.Lockfree Entangle.Transport

variable {size : Nat}

/-! ## §1. The chunks a channel holds. -/

/-- Whose send queues count as holding their chunks: those of all channels, or only
those from which a subscriber still takes. -/
inductive Scope where
  | all
  | live
  deriving Repr, DecidableEq

/-- The send queue of the channel counts. -/
def Link.counts (scope : Scope) (link : Link size) : Bool :=
  match scope with
  | .all => true
  | .live => link.alive

/-- Send queue, if it counts, live samples, the sample being dropped, return queue. -/
def Link.places (scope : Scope) (link : Link size) : List PointerOffset :=
  (if link.counts scope then link.channel.pending else [])
    ++ (link.samples.map Sample.offset
      ++ ((link.dropping.map Sample.offset).toList ++ link.channel.returned))

/-- One channel, seen from the segment and the unsent samples: a chunk is in one place
of it only, is allocated and not lent out, and holds what was sent. -/
structure LinkOk (scope : Scope) (qos : PubSubQos) (seg : DataSegment) (l : List U32)
    (loans : List PointerOffset) (link : Link size) : Prop where
  ready : link.channel.Ready
  sendCapacity : link.channel.sendQueue.capacity = max (nextPowerOfTwo qos.bufferSize) 2
  returnCapacity : link.channel.returnQueue.capacity = max (nextPowerOfTwo qos.bufferSize) 2
  nodup : (link.places scope).Nodup
  taken : ∀ offset ∈ link.places scope, Taken seg.layout l offset
  unloaned : ∀ offset ∈ link.places scope, offset ∉ loans
  inFlight : link.counts scope = true →
    link.channel.pending.map (seg.read size) = link.inFlight
  samples : ∀ x ∈ link.samples, seg.read size x.offset = x.sent
  dropping : ∀ x ∈ link.dropping, seg.read size x.offset = x.sent

theorem Link.places_of_counts {scope : Scope} {link : Link size}
    (h : link.counts scope = true) :
    link.places scope = link.channel.pending ++ (link.samples.map Sample.offset
      ++ ((link.dropping.map Sample.offset).toList ++ link.channel.returned)) := by
  unfold Link.places
  rw [if_pos h]

theorem Link.places_of_not_counts {scope : Scope} {link : Link size}
    (h : link.counts scope = false) :
    link.places scope = link.samples.map Sample.offset
      ++ ((link.dropping.map Sample.offset).toList ++ link.channel.returned) := by
  unfold Link.places
  rw [h]
  rfl

theorem Link.counts_congr {scope : Scope} {link link' : Link size}
    (h : link'.alive = link.alive) : link'.counts scope = link.counts scope := by
  unfold Link.counts
  rw [h]

theorem Link.pending_subset {scope : Scope} (link : Link size) {offset : PointerOffset}
    (hcounts : link.counts scope = true) (h : offset ∈ link.channel.pending) :
    offset ∈ link.places scope := by
  rw [Link.places_of_counts hcounts]
  exact List.mem_append_left _ h

theorem Link.sample_mem {scope : Scope} (link : Link size) {x : Sample size}
    (h : x ∈ link.samples) : x.offset ∈ link.places scope :=
  List.mem_append_right _ (List.mem_append_left _ (List.mem_map_of_mem h))

theorem Link.dropping_mem {scope : Scope} (link : Link size) {x : Sample size}
    (h : x ∈ link.dropping) : x.offset ∈ link.places scope := by
  refine List.mem_append_right _ (List.mem_append_right _ (List.mem_append_left _ ?_))
  rw [Option.mem_def.mp h]
  exact List.mem_singleton.mpr rfl

/-- **The frame rule**: the channel is as before if its chunks stay allocated,
unlent and unwritten. -/
theorem LinkOk.frame {scope : Scope} {qos : PubSubQos} {seg seg' : DataSegment}
    {l l' : List U32} {loans loans' : List PointerOffset} {link : Link size}
    (h : LinkOk scope qos seg l loans link)
    (htaken : ∀ offset ∈ link.places scope, Taken seg'.layout l' offset)
    (hloans : ∀ offset ∈ link.places scope, offset ∉ loans')
    (hread : ∀ offset ∈ link.places scope, seg'.read size offset = seg.read size offset) :
    LinkOk scope qos seg' l' loans' link where
  ready := h.ready
  sendCapacity := h.sendCapacity
  returnCapacity := h.returnCapacity
  nodup := h.nodup
  taken := htaken
  unloaned := hloans
  inFlight := by
    intro hcounts
    rw [← h.inFlight hcounts]
    exact List.map_congr_left (fun o ho => hread o (link.pending_subset hcounts ho))
  samples := fun x hx => (hread _ (link.sample_mem hx)).trans (h.samples x hx)
  dropping := fun x hx => (hread _ (link.dropping_mem hx)).trans (h.dropping x hx)

/-! ## §2. The invariant. -/

/-- What the publisher holds in its hand: inside `send` a chunk that the channels
before `k` have got, inside `reclaim` one that no channel has any more. -/
def HandOk (scope : Scope) (p : Publisher size) (l : List U32) : Prop :=
  match p.pc with
  | .idle => True
  | .sending offset value k =>
      k < p.links.length ∧ Taken p.segment.layout l offset ∧ offset ∉ p.loans
        ∧ p.segment.read size offset = value
        ∧ ∀ j link, p.links[j]? = some link →
            (offset ∈ link.places scope → j < k)
              ∧ (link.counts scope = true → j < k → offset ∈ link.places scope)
  | .reclaiming k => k < p.links.length
  | .releasing k offset =>
      k < p.links.length ∧ Taken p.segment.layout l offset ∧ offset ∉ p.loans
        ∧ ∀ link ∈ p.links, offset ∉ link.places scope

/-- **The ownership invariant** of a publisher, with `l` the free list of its segment:
every chunk is free, lent to an unsent sample, in the publisher's hand, or where the
channels have it, and the two counts of the loans agree. -/
structure PubOk (scope : Scope) (p : Publisher size) (l : List U32) : Prop where
  free : p.segment.Free l
  fits : size ≤ p.segment.layout.chunkSize
  count : p.segment.layout.chunkCount = p.qos.bufferSize % 2 ^ 32
  loansNodup : p.loans.Nodup
  loansTaken : ∀ offset ∈ p.loans, Taken p.segment.layout l offset
  links : ∀ link ∈ p.links, LinkOk scope p.qos p.segment l p.loans link
  hand : HandOk scope p l
  active : p.activeLoans.toNat = p.segment.allocatedCount.toNat
  counted : p.loaned = p.dropped + p.reclaimed + p.activeLoans.toNat
  budget : p.activeLoans.toNat ≤ p.qos.maxLoanedSamples

/-- The offset the next round of `reclaim` takes, and from which channel. -/
def Publisher.reclaimable (p : Publisher size) : Option (Nat × PointerOffset) :=
  match p.pc with
  | .reclaiming k => (p.links[k]?.bind (fun link => link.channel.reclaim.1)).map (fun o => (k, o))
  | _ => none

/-- `reclaim` takes an offset only if no other channel holds it. -/
def ExclusiveReclaim (scope : Scope) (p : Publisher size) : PublisherAct size → Prop
  | .next => ∀ x ∈ p.reclaimable, ∀ link ∈ p.links.eraseIdx x.1, x.2 ∉ link.places scope
  | _ => True

/-- `receive` is called on a channel whose send queue counts. -/
def ReceivesCounted (scope : Scope) (p : Publisher size) : PublisherAct size → Prop
  | .receive k => ∀ link ∈ p.links[k]?, link.counts scope = true
  | _ => True

theorem receivesCounted_all (p : Publisher size) (a : PublisherAct size) :
    ReceivesCounted .all p a := by
  cases a with
  | receive k => exact fun _ _ => rfl
  | _ => trivial

instance decidableExclusiveReclaim (scope : Scope) (p : Publisher size) :
    (a : PublisherAct size) → Decidable (ExclusiveReclaim scope p a)
  | .next => inferInstanceAs
      (Decidable (∀ x ∈ p.reclaimable, ∀ link ∈ p.links.eraseIdx x.1, x.2 ∉ link.places scope))
  | .loan => isTrue trivial
  | .write _ _ => isTrue trivial
  | .send _ => isTrue trivial
  | .dropMut _ => isTrue trivial
  | .reclaim => isTrue trivial
  | .connect _ => isTrue trivial
  | .receive _ => isTrue trivial
  | .dropSample _ _ => isTrue trivial
  | .returnNext _ => isTrue trivial
  | .close _ => isTrue trivial

/-- With at most one channel there is no other channel. -/
theorem exclusiveReclaim_of_single {scope : Scope} {p : Publisher size} {l : List U32}
    (h : PubOk scope p l) (hone : p.links.length ≤ 1) (a : PublisherAct size) :
    ExclusiveReclaim scope p a := by
  cases a with
  | next =>
      intro x hx link hlink
      have hhand := h.hand
      unfold Publisher.reclaimable at hx
      unfold HandOk at hhand
      split at hx
      next k hpc =>
        rw [hpc] at hhand
        have hk : k < p.links.length := hhand
        obtain ⟨o, _, rfl⟩ := Option.map_eq_some_iff.mp hx
        have hnil : p.links.eraseIdx k = [] := by
          apply List.eq_nil_of_length_eq_zero
          rw [List.length_eraseIdx_of_lt hk]
          omega
        rw [hnil] at hlink
        exact absurd hlink (by simp)
      next => exact absurd hx (by simp)
  | _ => trivial

/-- A new publisher has all its chunks free. -/
theorem create_ok {scope : Scope} {qos : PubSubQos} {p : Publisher size}
    (h : Publisher.create size qos = some p) :
    PubOk scope p ((List.range p.segment.layout.chunkCount).map (BitVec.ofNat 32)) := by
  obtain ⟨seg, hseg, rfl⟩ := Option.map_eq_some_iff.mp h
  obtain ⟨hfree, hcount, hchunk⟩ := DataSegment.create_free hseg
  rw [← hcount] at hfree
  have hzero : seg.allocatedCount.toNat = 0 := by
    have hb := hfree.borrowed
    rw [List.length_map, List.length_range] at hb
    omega
  refine ⟨hfree, ?_, hcount, List.nodup_nil, by simp, by simp, trivial, hzero.symm, rfl,
    Nat.zero_le _⟩
  show size ≤ seg.layout.chunkSize
  rw [hchunk, DataSegment.aligned]
  omega

/-! ## §3. What a step does. -/

/-- The channel has the chunks of `new` more; nothing else is changed. -/
structure Link.Extended (scope : Scope) (link link' : Link size) (new : List PointerOffset) :
    Prop where
  perm : (link'.places scope).Perm (new ++ link.places scope)
  samples : link'.samples = link.samples
  dropping : link'.dropping = link.dropping
  received : link'.received = link.received
  base : link'.base = link.base
  subscriber : link'.subscriber = link.subscriber
  alive : link'.alive = link.alive

/-- Nothing is sent or received on the channel; chunks may move inside it. -/
structure Link.Rearranged (scope : Scope) (link link' : Link size) : Prop where
  perm : (link'.places scope).Perm (link.places scope)
  pending : link'.channel.pending = link.channel.pending
  inFlight : link'.inFlight = link.inFlight
  received : link'.received = link.received
  base : link'.base = link.base
  subscriber : link'.subscriber = link.subscriber
  alive : link'.alive = link.alive

/-- The oldest chunk sent is received, and read as `v`. -/
structure Link.Received (scope : Scope) (link link' : Link size) (v : Payload size) : Prop where
  perm : (link'.places scope).Perm (link.places scope)
  pending : ∃ offset, link.channel.pending = offset :: link'.channel.pending
    ∧ link'.samples = ⟨offset, v⟩ :: link.samples
  dropping : link'.dropping = link.dropping
  inFlight : link.inFlight = v :: link'.inFlight
  received : link'.received = link.received ++ [v]
  base : link'.base = link.base
  subscriber : link'.subscriber = link.subscriber
  alive : link'.alive = link.alive

/-- Everything a step can do to the chunks, the channels and the record of the
sends, by the free lists before and after. -/
inductive Effect (scope : Scope) (p p' : Publisher size) (a : PublisherAct size) :
    List U32 → List U32 → Prop
  | same {l : List U32} : p' = p → Effect scope p p' a l l
  | lent {l : List U32} (i : U32) : p'.loans = p.segment.layout.chunk i :: p.loans →
      p'.links = p.links → p'.sentOk = p.sentOk → p'.pc = p.pc → Effect scope p p' a (i :: l) l
  | wrote {l : List U32} : p'.loans = p.loans → p'.links = p.links → p'.sentOk = p.sentOk →
      p'.pc = p.pc → Effect scope p p' a l l
  | dropped {l : List U32} (i : U32) : p.segment.layout.chunk i ∈ p.loans →
      p'.loans = p.loans.erase (p.segment.layout.chunk i) → p'.links = p.links →
      p'.sentOk = p.sentOk → p'.pc = p.pc → Effect scope p p' a l (i :: l)
  | sentNowhere {l : List U32} (offset : PointerOffset) (v : Payload size) :
      a = .send offset → offset ∈ p.loans → p.links = [] → p'.links = [] →
      p'.sentOk = p.sentOk ++ [v] → p'.pc = .idle → p.pc = .idle → Effect scope p p' a l l
  | sendBegun {l : List U32} (offset : PointerOffset) (v : Payload size) : a = .send offset →
      p'.loans = p.loans.erase offset → p'.links = p.links →
      p'.sentOk = p.sentOk → p'.pc = .sending offset v 0 → p.pc = .idle → Effect scope p p' a l l
  | pushed {l : List U32} (offset : PointerOffset) (v : Payload size) (k : Nat)
      (link link' : Link size) : a = .next → p.pc = .sending offset v k →
      p.links[k]? = some link → p'.loans = p.loans → p'.links = p.links.set k link' →
      link.Extended scope link' (if link.counts scope then [offset] else []) →
      link'.inFlight = link.inFlight ++ [v] →
      link.channel.pending.length < link.channel.sendQueue.capacity →
      (k + 1 < p.links.length ∧ p'.pc = .sending offset v (k + 1) ∧ p'.sentOk = p.sentOk
        ∨ k + 1 = p.links.length ∧ p'.pc = .idle ∧ p'.sentOk = p.sentOk ++ [v]) →
      Effect scope p p' a l l
  | sendFailed {l : List U32} (offset : PointerOffset) (v : Payload size) (k : Nat)
      (link : Link size) : a = .next → p.pc = .sending offset v k → p.links[k]? = some link →
      link.channel.sendQueue.capacity ≤ link.channel.pending.length →
      p'.loans = p.loans → p'.links = p.links → p'.sentOk = p.sentOk → p'.pc = .idle →
      Effect scope p p' a l l
  | reclaimMoved {l : List U32} : p'.loans = p.loans → p'.links = p.links →
      p'.sentOk = p.sentOk → (p.pc = .idle ∨ ∃ k, p.pc = .reclaiming k) →
      (p'.pc = .idle ∨ ∃ k, p'.pc = .reclaiming k) → Effect scope p p' a l l
  | reclaimed {l : List U32} (offset : PointerOffset) (k : Nat) (link link' : Link size) :
      p.pc = .reclaiming k → p.links[k]? = some link → p'.loans = p.loans →
      p'.links = p.links.set k link' → link'.Extended scope link [offset] →
      link'.channel.pending = link.channel.pending → link'.inFlight = link.inFlight →
      p'.sentOk = p.sentOk →
      p'.pc = .releasing k offset → Effect scope p p' a l l
  | released {l : List U32} (i : U32) (k : Nat) :
      p.pc = .releasing k (p.segment.layout.chunk i) → p'.loans = p.loans →
      p'.links = p.links → p'.sentOk = p.sentOk → p'.pc = .reclaiming k →
      Effect scope p p' a l (i :: l)
  | connected {l : List U32} (subscriber : Nat) : p' = p.connect subscriber → p.pc = .idle →
      Effect scope p p' a l l
  | received {l : List U32} (k : Nat) (link link' : Link size) (v : Payload size) :
      p.links[k]? = some link → p' = p.setLink k link' → link.Received scope link' v →
      Effect scope p p' a l l
  | dropBegun {l : List U32} (k : Nat) (link link' : Link size) (x : Sample size) :
      p.links[k]? = some link → p' = p.setLink k link' → link.Rearranged scope link' →
      link.samples.Perm (x :: link'.samples) → link.dropping = none → link'.dropping = some x →
      Effect scope p p' a l l
  | returned {l : List U32} (k : Nat) (link link' : Link size) (x : Sample size) :
      a = .returnNext k → p.links[k]? = some link → p' = p.setLink k link' →
      link.Rearranged scope link' → link'.samples = link.samples → link.dropping = some x →
      link'.dropping = none → Effect scope p p' a l l
  | closed {l : List U32} (subscriber : Nat) : a = .close subscriber →
      p' = p.close subscriber → Effect scope p p' a l l

/-- Ownership is kept, the layout stays, and the step did one of those things. -/
structure Keeps (scope : Scope) (p p' : Publisher size) (a : PublisherAct size)
    (l l' : List U32) : Prop where
  ok : PubOk scope p' l'
  layout : p'.segment.layout = p.segment.layout
  qos : p'.qos = p.qos
  effect : Effect scope p p' a l l'

end Entangle.PubSub
