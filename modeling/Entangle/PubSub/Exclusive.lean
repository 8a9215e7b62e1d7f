/-
  Entangle.PubSub.Exclusive — is a chunk reused while a subscriber can still
  see it?

  Yes, with two subscribers: a sample comes back once per channel, and
  `reclaim` deallocates its chunk the first time (`chunk_reused`).  As long as
  `reclaim` takes an offset only when no other channel holds it, no chunk is
  reused (`visible_chunks_exclusive`).
-/
import Entangle.PubSub.OwnershipSteps
import Entangle.PubSub.Service

namespace Entangle.PubSub

open Entangle.Lib Entangle.Transport

variable {size : Nat}

/-- A subscriber can still see the chunk: it is in the send queue or in a `Sample`. -/
def Link.Visible (link : Link size) (offset : PointerOffset) : Prop :=
  offset ∈ link.channel.pending ∨ (∃ x ∈ link.samples, x.offset = offset)
    ∨ ∃ x ∈ link.dropping, x.offset = offset

/-- Visible chunks are neither free nor lent out, and samples read what was sent. -/
def Exclusive (pub : Publisher size) : Prop :=
  ∀ link ∈ pub.links,
    (∀ offset, link.Visible offset → offset ∉ pub.loans
      ∧ ∃ i : U32, i.toNat < pub.segment.layout.chunkCount
          ∧ offset = pub.segment.layout.chunk i ∧ ¬ pub.segment.OnFreeChain i)
    ∧ ∀ x ∈ link.samples, pub.segment.read size x.offset = x.sent

/-- In the service: every round of every publisher's `reclaim` takes an offset
only if no other channel of that publisher holds it. -/
def exclusiveReclaim (s : Service size) : Act size → Prop
  | .publisher p a => ∀ pub ∈ s.publishers[p]?, ExclusiveReclaim .all pub a
  | _ => True

instance decidableServiceExclusiveReclaim (s : Service size) :
    (a : Act size) → Decidable (exclusiveReclaim s a)
  | .publisher p a => inferInstanceAs
      (Decidable (∀ pub ∈ s.publishers[p]?, ExclusiveReclaim .all pub a))
  | .createPublisher => isTrue trivial
  | .createSubscriber => isTrue trivial
  | .connectNext _ => isTrue trivial
  | .receive _ => isTrue trivial
  | .receiveNext _ => isTrue trivial
  | .dropSample _ _ _ _ => isTrue trivial
  | .returnNext _ => isTrue trivial
  | .dropSubscriber _ => isTrue trivial

theorem exclusiveReclaim_localises :
    Localises exclusiveReclaim (@ExclusiveReclaim size .all) where
  moved := by
    intro s act p a pub hok hmoved hpub
    cases a with
    | next =>
        -- a round of `reclaim` is a step of the publisher itself
        cases act with
        | publisher q b =>
            injection hmoved with hmoved
            injection hmoved with hq hb
            subst hq
            subst hb
            exact hok pub hpub
        | dropSample i q k sample => exact absurd hmoved (by simp [Service.moved])
        | connectNext i =>
            simp only [Service.moved] at hmoved
            split at hmoved <;> simp at hmoved
        | receiveNext i =>
            obtain ⟨u, _, hu⟩ := Option.bind_eq_some_iff.mp hmoved
            split at hu
            next =>
              obtain ⟨c, _, hc⟩ := Option.map_eq_some_iff.mp hu
              exact absurd hc (by simp)
            next => exact absurd hu (by simp)
        | returnNext i =>
            simp only [Service.moved] at hmoved
            split at hmoved <;> simp at hmoved
        | _ => exact absurd hmoved (by simp [Service.moved])
    | _ => trivial
  closed := fun _ _ _ _ _ => trivial

theorem Link.Visible.mem_places {link : Link size} {offset : PointerOffset}
    (h : link.Visible offset) : offset ∈ link.places .all := by
  rcases h with h | ⟨x, hx, rfl⟩ | ⟨x, hx, rfl⟩
  · exact link.pending_subset rfl h
  · exact link.sample_mem hx
  · exact link.dropping_mem hx

theorem PubOk.exclusive {pub : Publisher size} {l : List U32} (h : PubOk .all pub l) :
    Exclusive pub := by
  intro link hlink
  have hl := h.links link hlink
  refine ⟨fun offset hvis => ?_, hl.samples⟩
  have hplace := hvis.mem_places
  obtain ⟨i, hi, hfree, he⟩ := hl.taken offset hplace
  exact ⟨hl.unloaned offset hplace, i, hi, he, fun hon => hfree ((h.free.onFreeChain_iff i).mp hon)⟩

/-- **No chunk is reused while a subscriber can see it**, in every run in which
`reclaim` takes only offsets that no other channel holds. -/
theorem visible_chunks_exclusive (qos : PubSubQos) (s : Service size)
    (hs : Reach Service.step exclusiveReclaim (Service.init qos) s) :
    ∀ pub ∈ s.publishers, Exclusive pub := by
  have hinv := publishers_invariant exclusiveReclaim_localises
    (I := fun pub => ∃ l, PubOk .all pub l) (fun _ hpub => ⟨_, create_ok hpub⟩)
    (fun pub a pub' hok ha hstep => by
      obtain ⟨l, hl⟩ := hok
      obtain ⟨l', hl'⟩ := hl.step ha (receivesCounted_all pub a) hstep
      exact ⟨l', hl'.ok⟩) hs
  intro pub hpub
  obtain ⟨l, hl⟩ := hinv pub hpub
  exact hl.exclusive

/-! ## Runs. -/

/-- One publisher and two subscribers; one sample is sent to both. -/
def twoSubscribers : List (Act 1) :=
  [.createPublisher, .createSubscriber, .connectNext 0, .connectNext 0,
   .createSubscriber, .connectNext 1, .connectNext 1,
   .publisher 0 .loan, .publisher 0 (.write ⟨64#64⟩ (fun _ => 7#8)),
   .publisher 0 (.send ⟨64#64⟩), .publisher 0 .next, .publisher 0 .next]

/-- Both receive the sample, the first drops it, and `reclaim` takes it back. -/
def returnedOnce : List (Act 1) :=
  twoSubscribers ++
  [.receive 0, .receiveNext 0, .receive 1, .receiveNext 1,
   .dropSample 0 0 0 ⟨⟨64#64⟩, fun _ => 7#8⟩, .returnNext 0,
   .publisher 0 .reclaim, .publisher 0 .next, .publisher 0 .next, .publisher 0 .next,
   .publisher 0 .next, .publisher 0 .loan]

/-- A sample goes to the only subscriber and comes back; the next one goes to two. -/
def secondSubscriber : List (Act 1) :=
  [.createPublisher, .createSubscriber, .connectNext 0, .connectNext 0,
   .publisher 0 .loan, .publisher 0 (.write ⟨64#64⟩ (fun _ => 7#8)),
   .publisher 0 (.send ⟨64#64⟩), .publisher 0 .next, .receive 0, .receiveNext 0,
   .dropSample 0 0 0 ⟨⟨64#64⟩, fun _ => 7#8⟩, .returnNext 0,
   .publisher 0 .reclaim, .publisher 0 .next, .publisher 0 .next, .publisher 0 .next,
   .createSubscriber, .connectNext 1, .connectNext 1,
   .publisher 0 .loan, .publisher 0 (.write ⟨64#64⟩ (fun _ => 8#8)),
   .publisher 0 (.send ⟨64#64⟩), .publisher 0 .next, .publisher 0 .next,
   .receive 0, .receiveNext 0, .receive 1, .receiveNext 1, .publisher 0 .loan]

/-- The samples both subscribers hold at the end of `secondSubscriber`. -/
theorem visible_chunks_exclusive_second :
    ∃ s : Service 1, Reach Service.step exclusiveReclaim (Service.init ⟨2, 2⟩) s
      ∧ s.publishers.map (fun pub => pub.links.map (fun link => link.samples))
          = [[[⟨⟨64#64⟩, fun _ => 8#8⟩], [⟨⟨64#64⟩, fun _ => 8#8⟩]]]
      ∧ ∀ pub ∈ s.publishers, Exclusive pub := by
  have hrun : (execOk Service.step exclusiveReclaim (Service.init ⟨2, 2⟩) secondSubscriber).map
      (fun s => s.publishers.map (fun pub => pub.links.map (fun link => link.samples)))
        = some [[[⟨⟨64#64⟩, fun _ => 8#8⟩], [⟨⟨64#64⟩, fun _ => 8#8⟩]]] := by decide
  obtain ⟨s, hs, hsamples⟩ := Option.map_eq_some_iff.mp hrun
  have hreach := Reach.of_execOk secondSubscriber .refl hs
  exact ⟨s, hreach, hsamples, visible_chunks_exclusive ⟨2, 2⟩ s hreach⟩

/-- A live sample whose chunk is lent out again and reads something else. -/
def overwritten (s : Service 1) : Bool :=
  s.publishers.any (fun pub => pub.links.any (fun link => link.samples.any (fun x =>
    decide (x.offset ∈ pub.loans) && decide (pub.segment.read 1 x.offset ≠ x.sent))))

/-- **A chunk is reused while a subscriber still holds its sample.** -/
theorem chunk_reused :
    ∃ s : Service 1, Reach Service.step anyStep (Service.init ⟨2, 2⟩) s
      ∧ ∃ pub ∈ s.publishers, ∃ link ∈ pub.links, ∃ x ∈ link.samples,
          x.offset ∈ pub.loans ∧ pub.segment.read 1 x.offset ≠ x.sent ∧ ¬ Exclusive pub := by
  have hrun : (exec Service.step (Service.init ⟨2, 2⟩) returnedOnce).map overwritten
      = some true := by decide
  obtain ⟨s, hs, hover⟩ := Option.map_eq_some_iff.mp hrun
  refine ⟨s, Reach.of_exec returnedOnce .refl hs, ?_⟩
  simp only [overwritten, List.any_eq_true, Bool.and_eq_true, decide_eq_true_eq] at hover
  obtain ⟨pub, hpub, link, hlink, x, hx, hloan, hread⟩ := hover
  exact ⟨pub, hpub, link, hlink, x, hx, hloan, hread,
    fun hex => hread ((hex link hlink).2 x hx)⟩

end Entangle.PubSub
