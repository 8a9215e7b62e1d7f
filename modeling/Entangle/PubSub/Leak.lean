/-
  Entangle.PubSub.Leak — does every allocated chunk find its way back?

  Not if a sample is sent while there is no channel: the chunk is then held by
  nobody, and the budget shrinks for good (`chunk_leaked`).  `NoLeak` says when
  the ways out of the publisher's hands have a way back: a send ends in at
  least one channel of an existing subscriber, a subscriber that goes away (or
  a sample that outlives it) leaves nothing in its queues that nobody else
  holds, and `reclaim` takes an offset only if it cannot come back from another
  channel.  Then nothing leaks (`no_chunk_leaks`).

  What lies in the send queue of a dropped subscriber never comes back, so it
  holds nothing here (`Scope.live`): its chunk is in order again as soon as the
  others have returned it, although `send` goes on filling the queue.
-/
import Entangle.PubSub.Accounting

namespace Entangle.PubSub

open Entangle.Lib Entangle.Lockfree Entangle.Transport

variable {size : Nat}

/-! ## §1. Who can give a chunk back. -/

/-- The offset is in a queue of the channel. -/
def Link.Queued (link : Link size) (offset : PointerOffset) : Prop :=
  offset ∈ link.channel.pending ∨ offset ∈ link.channel.returned

/-- The offset belongs to a live `Sample`, be it one that is being dropped. -/
def Link.InSample (link : Link size) (offset : PointerOffset) : Prop :=
  (∃ x ∈ link.samples, x.offset = offset) ∨ ∃ x ∈ link.dropping, x.offset = offset

/-- A queue of a channel whose `Subscriber` exists, or a live `Sample`. -/
def Link.Holds (link : Link size) (offset : PointerOffset) : Prop :=
  (link.alive = true ∧ link.Queued offset) ∨ link.InSample offset

/-- An unsent `SampleMut` or a channel refers to the chunk. -/
def Held (pub : Publisher size) (offset : PointerOffset) : Prop :=
  offset ∈ pub.loans ∨ ∃ link ∈ pub.links, link.Holds offset

/-- The offset is in the publisher's hand, inside `send` or `reclaim`. -/
def InHand (pub : Publisher size) (offset : PointerOffset) : Prop :=
  match pub.pc with
  | .sending o _ _ => o = offset
  | .releasing _ o => o = offset
  | _ => False

/-- Every allocated chunk is held, or is in the publisher's hand. -/
def Covered (pub : Publisher size) (l : List U32) : Prop :=
  ∀ i : U32, i.toNat < pub.segment.layout.chunkCount → i ∉ l →
    Held pub (pub.segment.layout.chunk i) ∨ InHand pub (pub.segment.layout.chunk i)

/-- The send queue of channel `k` has room. -/
def Publisher.hasRoom (pub : Publisher size) (k : Nat) : Bool :=
  match pub.links[k]? with
  | some link => decide (link.channel.pending.length < link.channel.sendQueue.capacity)
  | none => false

/-- The channels that have the offset after the round of `send` at channel `k`. -/
def Publisher.reached (pub : Publisher size) (k : Nat) : List (Link size) :=
  pub.links.take (if pub.hasRoom k then k + 1 else k)

/-- The round at channel `k` is the last one of its `send`. -/
def Publisher.lastRound (pub : Publisher size) (k : Nat) : Prop :=
  pub.hasRoom k = false ∨ k + 1 = pub.links.length

/-- A send ends in a channel whose subscriber exists. -/
def SendsToSubscriber (pub : Publisher size) : PublisherAct size → Prop
  | .send _ => pub.links ≠ []
  | .next =>
      match pub.pc with
      | .sending _ _ k => pub.lastRound k → ∃ link ∈ pub.reached k, link.alive = true
      | _ => True
  | _ => True

/-- What a subscriber that goes away leaves in the queues of its channels, and
what a sample that outlives its subscriber puts there, is also held elsewhere. -/
def LeavesHeld (pub : Publisher size) : PublisherAct size → Prop
  | .close subscriber =>
      ∀ link ∈ pub.links, link.subscriber = subscriber → link.alive = true →
        ∀ offset ∈ link.channel.pending ++ link.channel.returned,
          Held (pub.close subscriber) offset
  | .returnNext k =>
      ∀ link ∈ pub.links[k]?, link.alive = false → ∀ x ∈ link.dropping,
        ∃ other ∈ pub.links.eraseIdx k, other.Holds x.offset
  | _ => True

/-- Every way out of the publisher's hands has a way back. -/
def NoLeak (pub : Publisher size) (a : PublisherAct size) : Prop :=
  ExclusiveReclaim .live pub a ∧ SendsToSubscriber pub a ∧ LeavesHeld pub a

instance decidableHolds (link : Link size) (offset : PointerOffset) :
    Decidable (link.Holds offset) :=
  inferInstanceAs (Decidable ((_ ∧ (_ ∨ _)) ∨ ((∃ x ∈ link.samples, _) ∨ ∃ x ∈ link.dropping, _)))

instance decidableHeld (pub : Publisher size) (offset : PointerOffset) :
    Decidable (Held pub offset) :=
  inferInstanceAs (Decidable (_ ∨ _))

instance decidableLastRound (pub : Publisher size) (k : Nat) : Decidable (pub.lastRound k) :=
  inferInstanceAs (Decidable (_ ∨ _))

instance decidableSendsToSubscriber (pub : Publisher size) :
    (a : PublisherAct size) → Decidable (SendsToSubscriber pub a)
  | .send _ => inferInstanceAs (Decidable (pub.links ≠ []))
  | .next =>
      match h : pub.pc with
      | .sending _ _ k =>
          decidable_of_iff (pub.lastRound k → ∃ link ∈ pub.reached k, link.alive = true)
            (by simp only [SendsToSubscriber, h])
      | .idle => isTrue (by simp only [SendsToSubscriber, h])
      | .reclaiming _ => isTrue (by simp only [SendsToSubscriber, h])
      | .releasing _ _ => isTrue (by simp only [SendsToSubscriber, h])
  | .loan => isTrue trivial
  | .write _ _ => isTrue trivial
  | .dropMut _ => isTrue trivial
  | .reclaim => isTrue trivial
  | .connect _ => isTrue trivial
  | .receive _ => isTrue trivial
  | .dropSample _ _ => isTrue trivial
  | .returnNext _ => isTrue trivial
  | .close _ => isTrue trivial

instance decidableLeavesHeld (pub : Publisher size) :
    (a : PublisherAct size) → Decidable (LeavesHeld pub a)
  | .close subscriber => inferInstanceAs
      (Decidable (∀ link ∈ pub.links, link.subscriber = subscriber → link.alive = true →
        ∀ offset ∈ link.channel.pending ++ link.channel.returned,
          Held (pub.close subscriber) offset))
  | .returnNext k => inferInstanceAs
      (Decidable (∀ link ∈ pub.links[k]?, link.alive = false → ∀ x ∈ link.dropping,
        ∃ other ∈ pub.links.eraseIdx k, other.Holds x.offset))
  | .send _ => isTrue trivial
  | .next => isTrue trivial
  | .loan => isTrue trivial
  | .write _ _ => isTrue trivial
  | .dropMut _ => isTrue trivial
  | .reclaim => isTrue trivial
  | .connect _ => isTrue trivial
  | .receive _ => isTrue trivial
  | .dropSample _ _ => isTrue trivial

instance decidableNoLeak (pub : Publisher size) (a : PublisherAct size) :
    Decidable (NoLeak pub a) :=
  inferInstanceAs (Decidable (_ ∧ _))

/-! ## §2. What a channel holds. -/

theorem Link.mem_places_iff (link : Link size) (offset : PointerOffset) :
    offset ∈ link.places .live
      ↔ (link.alive = true ∧ offset ∈ link.channel.pending) ∨ offset ∈ link.channel.returned
        ∨ link.InSample offset := by
  have hqueue : offset ∈ (if link.counts .live then link.channel.pending else [])
      ↔ link.alive = true ∧ offset ∈ link.channel.pending := by
    show offset ∈ (if link.alive = true then link.channel.pending else []) ↔ _
    split
    next halive => simp only [halive, true_and]
    next hdead => simp [hdead]
  simp only [Link.places, hqueue, Link.InSample, List.mem_append, List.mem_map,
    Option.mem_toList, Option.mem_def, Option.map_eq_some_iff]
  constructor
  · intro h
    rcases h with h | h | h | h
    · exact .inl h
    · exact .inr (.inr (.inl h))
    · exact .inr (.inr (.inr h))
    · exact .inr (.inl h)
  · intro h
    rcases h with h | h | h | h
    · exact .inl h
    · exact .inr (.inr (.inr h))
    · exact .inr (.inl h)
    · exact .inr (.inr (.inl h))

/-- While the subscriber exists, a channel holds all its chunks. -/
theorem Link.holds_of_alive {link : Link size} (halive : link.alive = true)
    (offset : PointerOffset) : link.Holds offset ↔ offset ∈ link.places .live := by
  rw [link.mem_places_iff, Link.Holds, Link.Queued]
  simp only [halive, true_and, or_assoc]

theorem Link.Holds.mem_places {link : Link size} {offset : PointerOffset}
    (h : link.Holds offset) : offset ∈ link.places .live := by
  rw [link.mem_places_iff]
  rcases h with ⟨halive, h | h⟩ | h
  · exact .inl ⟨halive, h⟩
  · exact .inr (.inl h)
  · exact .inr (.inr h)

/-- A channel that keeps its chunks and its samples holds what it held. -/
theorem Link.Holds.of_places {link link' : Link size} {offset : PointerOffset}
    (h : link.Holds offset) (halive : link'.alive = link.alive)
    (hplace : offset ∈ link.places .live → offset ∈ link'.places .live)
    (hsample : link.alive = false → link.InSample offset → link'.InSample offset) :
    link'.Holds offset := by
  cases ha : link.alive with
  | true =>
      rw [Link.holds_of_alive (halive.trans ha)]
      exact hplace h.mem_places
  | false =>
      rcases h with h | h
      · rw [ha] at h
        exact absurd h.1 (by simp)
      · exact .inr (hsample ha h)

/-- A channel with chunks more holds what it held ... -/
theorem Link.Extended.holds {link link' : Link size} {new : List PointerOffset}
    {o : PointerOffset} (hext : link.Extended .live link' new) (h : link.Holds o) :
    link'.Holds o := by
  refine h.of_places hext.alive (fun hp => ?_) ?_
  · exact hext.perm.mem_iff.mpr (List.mem_append_right _ hp)
  · unfold Link.InSample
    rw [hext.samples, hext.dropping]
    exact fun _ hs => hs

/-- ... and one with a chunk less everything but that chunk. -/
theorem Link.Extended.holds_of_ne {link link' : Link size} {offset o : PointerOffset}
    (hext : link.Extended .live link' [offset]) (h : link'.Holds o) (hne : o ≠ offset) :
    link.Holds o := by
  refine h.of_places hext.alive.symm (fun hp => ?_) ?_
  · rcases List.mem_cons.mp (hext.perm.mem_iff.mp hp) with he | hp
    · exact absurd he hne
    · exact hp
  · unfold Link.InSample
    rw [hext.samples, hext.dropping]
    exact fun _ hs => hs

theorem Link.Received.holds {link link' : Link size} {v : Payload size} {o : PointerOffset}
    (hrecv : link.Received .live link' v) (h : link.Holds o) : link'.Holds o := by
  refine h.of_places hrecv.alive (fun hp => hrecv.perm.mem_iff.mpr hp) ?_
  -- the samples that were there still are
  obtain ⟨offset, _, hsamples⟩ := hrecv.pending
  unfold Link.InSample
  rw [hsamples, hrecv.dropping]
  rintro _ (⟨x, hx, hxo⟩ | hs)
  · exact .inl ⟨x, List.mem_cons_of_mem _ hx, hxo⟩
  · exact .inr hs

/-- A sample that begins to be dropped is still one of the channel's. -/
theorem Link.Rearranged.holds_of_dropBegun {link link' : Link size} {x : Sample size}
    {o : PointerOffset} (hre : link.Rearranged .live link')
    (hsamples : link.samples.Perm (x :: link'.samples)) (hnone : link.dropping = none)
    (hsome : link'.dropping = some x) (h : link.Holds o) : link'.Holds o := by
  refine h.of_places hre.alive (fun hp => hre.perm.mem_iff.mpr hp) ?_
  unfold Link.InSample
  rw [hnone, hsome]
  rintro _ (⟨y, hy, hyo⟩ | ⟨y, hy, _⟩)
  · rcases List.mem_cons.mp (hsamples.mem_iff.mp hy) with rfl | hy
    · exact .inr ⟨y, rfl, hyo⟩
    · exact .inl ⟨y, hy, hyo⟩
  · exact absurd hy (by simp)

/-- A sample that is put into the return queue is held there while the
subscriber exists; every other chunk is held as it was. -/
theorem Link.Rearranged.holds_of_returned {link link' : Link size} {x : Sample size}
    {o : PointerOffset} (hre : link.Rearranged .live link')
    (hsamples : link'.samples = link.samples) (hsome : link.dropping = some x) (h : link.Holds o)
    (hdead : link.alive = false → x.offset ≠ o) : link'.Holds o := by
  refine h.of_places hre.alive (fun hp => hre.perm.mem_iff.mpr hp) ?_
  intro hgone hs
  rcases hs with ⟨y, hy, hyo⟩ | ⟨y, hy, hyo⟩
  · refine .inl ⟨y, ?_, hyo⟩
    rw [hsamples]
    exact hy
  · rw [hsome] at hy
    obtain rfl := Option.some.inj hy
    exact absurd hyo (hdead hgone)

/-! ## §3. What a publisher holds. -/

/-- One channel is replaced by another that still holds the offset. -/
theorem Held.setLink {pub pub' : Publisher size} {k : Nat} {link link' : Link size}
    {offset : PointerOffset} (h : Held pub offset) (hk : pub.links[k]? = some link)
    (hloans : pub'.loans = pub.loans) (hlinks : pub'.links = pub.links.set k link')
    (hholds : link.Holds offset → link'.Holds offset) : Held pub' offset := by
  unfold Held at h ⊢
  rw [hloans, hlinks]
  rcases h with h | ⟨m, hm, hm'⟩
  · exact .inl h
  · right
    rcases mem_set_or_eq link' hk hm with rfl | hm
    · exact ⟨link', List.mem_set (List.getElem?_eq_some_iff.mp hk).1 link', hholds hm'⟩
    · exact ⟨m, hm, hm'⟩

theorem Held.congr {pub pub' : Publisher size} {offset : PointerOffset} (h : Held pub offset)
    (hloans : pub'.loans = pub.loans) (hlinks : pub'.links = pub.links) : Held pub' offset := by
  unfold Held at h ⊢
  rw [hloans, hlinks]
  exact h

/-- The publisher is between two sends: nothing of a send is in its hand. -/
theorem not_inHand_of_idle {pub : Publisher size} {offset : PointerOffset}
    (h : pub.pc = .idle ∨ ∃ k, pub.pc = .reclaiming k) : ¬ InHand pub offset := by
  unfold InHand
  rcases h with h | ⟨k, h⟩
  · rw [h]
    exact fun hf => hf
  · rw [h]
    exact fun hf => hf

theorem inHand_sending {pub : Publisher size} {offset o : PointerOffset} {v : Payload size}
    {k : Nat} (hpc : pub.pc = .sending offset v k) : InHand pub o ↔ offset = o := by
  unfold InHand
  rw [hpc]

theorem inHand_releasing {pub : Publisher size} {offset o : PointerOffset} {k : Nat}
    (hpc : pub.pc = .releasing k offset) : InHand pub o ↔ offset = o := by
  unfold InHand
  rw [hpc]

theorem InHand.congr {pub pub' : Publisher size} {offset : PointerOffset} (h : InHand pub offset)
    (hpc : pub'.pc = pub.pc) : InHand pub' offset := by
  unfold InHand at h ⊢
  rw [hpc]
  exact h

/-- A channel before the one a send is at has the offset. -/
theorem held_of_before {pub pub' : Publisher size} {l : List U32} (h : PubOk .live pub l)
    {offset : PointerOffset} {v : Payload size} {j k : Nat} {m : Link size}
    (hpc : pub.pc = .sending offset v k) (hj : j < k) (hm : pub.links[j]? = some m)
    (halive : m.alive = true) (hmem : m ∈ pub'.links) : Held pub' offset := by
  have hhand := h.hand
  unfold HandOk at hhand
  rw [hpc] at hhand
  obtain ⟨_, _, _, _, hplaces⟩ := hhand
  exact .inr ⟨m, hmem, (Link.holds_of_alive halive offset).mpr ((hplaces j m hm).2 halive hj)⟩

/-- An existing subscriber among those the send has reached, by its position. -/
theorem SendsToSubscriber.position {pub : Publisher size} {offset : PointerOffset}
    {v : Payload size} {k : Nat} (h : SendsToSubscriber pub .next)
    (hpc : pub.pc = .sending offset v k) (hlast : pub.lastRound k) :
    ∃ j m, pub.links[j]? = some m ∧ j < (if pub.hasRoom k then k + 1 else k)
      ∧ m.alive = true := by
  simp only [SendsToSubscriber, hpc] at h
  obtain ⟨m, hm, halive⟩ := h hlast
  obtain ⟨j, hj⟩ := List.mem_iff_getElem?.mp hm
  have hlt : j < (if pub.hasRoom k then k + 1 else k) := by
    have := (List.getElem?_eq_some_iff.mp hj).1
    rw [Publisher.reached, List.length_take] at this
    omega
  rw [Publisher.reached, List.getElem?_take_of_lt hlt] at hj
  exact ⟨j, m, hj, hlt, halive⟩

/-- The last round of a send leaves the offset with an existing subscriber. -/
theorem held_of_pushed {pub pub' : Publisher size} {l : List U32} (h : PubOk .live pub l)
    {offset : PointerOffset} {v : Payload size} {k : Nat} {link link' : Link size}
    (hsends : SendsToSubscriber pub .next) (hpc : pub.pc = .sending offset v k)
    (hlk : pub.links[k]? = some link) (hlinks : pub'.links = pub.links.set k link')
    (hext : link.Extended .live link' (if link.counts .live then [offset] else []))
    (hroom : link.channel.pending.length < link.channel.sendQueue.capacity)
    (hlast : k + 1 = pub.links.length) : Held pub' offset := by
  have hroom' : pub.hasRoom k = true := by
    unfold Publisher.hasRoom
    rw [hlk]
    exact decide_eq_true hroom
  obtain ⟨j, m, hm, hjk, halive⟩ := hsends.position hpc (.inr hlast)
  rw [hroom', if_pos rfl] at hjk
  by_cases hj : j < k
  · -- an earlier round pushed it
    refine held_of_before h hpc hj hm halive ?_
    rw [hlinks]
    refine List.mem_iff_getElem?.mpr ⟨j, ?_⟩
    rw [List.getElem?_set_ne (by omega)]
    exact hm
  · -- this round did
    obtain rfl : j = k := by omega
    rw [hlk] at hm
    obtain rfl := Option.some.inj hm
    refine .inr ⟨link', ?_, ?_⟩
    · rw [hlinks]
      exact List.mem_set (List.getElem?_eq_some_iff.mp hlk).1 link'
    · rw [Link.holds_of_alive (hext.alive.trans halive)]
      refine hext.perm.mem_iff.mpr (List.mem_append_left _ ?_)
      have hcounts : link.counts .live = true := halive
      rw [if_pos hcounts]
      exact List.mem_singleton_self offset

/-- So does a send that fails on a full queue. -/
theorem held_of_sendFailed {pub pub' : Publisher size} {l : List U32} (h : PubOk .live pub l)
    {offset : PointerOffset} {v : Payload size} {k : Nat} {link : Link size}
    (hsends : SendsToSubscriber pub .next) (hpc : pub.pc = .sending offset v k)
    (hlk : pub.links[k]? = some link) (hlinks : pub'.links = pub.links)
    (hfull : link.channel.sendQueue.capacity ≤ link.channel.pending.length) :
    Held pub' offset := by
  have hroom : pub.hasRoom k = false := by
    unfold Publisher.hasRoom
    rw [hlk]
    exact decide_eq_false (Nat.not_lt.mpr hfull)
  obtain ⟨j, m, hm, hjk, halive⟩ := hsends.position hpc (.inl hroom)
  rw [hroom, if_neg Bool.false_ne_true] at hjk
  refine held_of_before h hpc hjk hm halive ?_
  rw [hlinks]
  exact List.mem_of_getElem? hm

/-- A sample that outlives its subscriber goes back only if another channel
holds its chunk; that channel is not touched. -/
theorem Held.returned {pub : Publisher size} {k : Nat} {link link' : Link size}
    {x : Sample size} {o : PointerOffset} (h : Held pub o)
    (hleaves : LeavesHeld pub (.returnNext k)) (hlk : pub.links[k]? = some link)
    (hre : link.Rearranged .live link') (hsamples : link'.samples = link.samples)
    (hsome : link.dropping = some x) : Held (pub.setLink k link') o := by
  by_cases hother : ∃ other ∈ pub.links.eraseIdx k, other.Holds o
  · obtain ⟨other, hmem, hholds⟩ := hother
    obtain ⟨j, hjk, hj⟩ := List.mem_eraseIdx_iff_getElem?.mp hmem
    refine .inr ⟨other, List.mem_iff_getElem?.mpr ⟨j, ?_⟩, hholds⟩
    show (pub.links.set k link')[j]? = some other
    rw [List.getElem?_set_ne hjk.symm]
    exact hj
  · refine h.setLink hlk rfl rfl (fun hh => hre.holds_of_returned hsamples hsome hh ?_)
    intro hdead he
    have hheld := hleaves link hlk hdead x hsome
    rw [he] at hheld
    exact hother hheld

theorem Held.closed {pub : Publisher size} {subscriber : Nat} {o : PointerOffset}
    (h : Held pub o) (hleaves : LeavesHeld pub (.close subscriber)) :
    Held (pub.close subscriber) o := by
  rcases h with h | ⟨m, hm, hholds⟩
  · exact .inl h
  · have hmem : (if m.subscriber = subscriber then { m with alive := false } else m)
        ∈ (pub.close subscriber).links := List.mem_map.mpr ⟨m, hm, rfl⟩
    by_cases hsub : m.subscriber = subscriber
    · rw [if_pos hsub] at hmem
      rcases hholds with ⟨halive, hq⟩ | hs
      · exact hleaves m hm hsub halive o (List.mem_append.mpr hq)
      · exact .inr ⟨_, hmem, .inr hs⟩
    · rw [if_neg hsub] at hmem
      exact .inr ⟨m, hmem, hholds⟩

/-! ## §4. Steps keep the cover. -/

/-- Over the same free list it is enough to compare chunk by chunk. -/
theorem Covered.same {pub pub' : Publisher size} {l : List U32} (hc : Covered pub l)
    (hlayout : pub'.segment.layout = pub.segment.layout)
    (hheld : ∀ o, Held pub o → Held pub' o ∨ InHand pub' o)
    (hhand : ∀ o, InHand pub o → Held pub' o ∨ InHand pub' o) : Covered pub' l := by
  intro i hi hil
  rw [hlayout] at hi ⊢
  rcases hc i hi hil with h | h
  · exact hheld _ h
  · exact hhand _ h

/-- A chunk goes back to the free list: the other chunks stay where they are. -/
theorem Covered.freed {pub pub' : Publisher size} {l : List U32} {i : U32} (hc : Covered pub l)
    (hok' : PubOk .live pub' (i :: l)) (hlayout : pub'.segment.layout = pub.segment.layout)
    (hheld : ∀ o, o ≠ pub.segment.layout.chunk i → Held pub o → Held pub' o ∨ InHand pub' o)
    (hhand : ∀ o, o ≠ pub.segment.layout.chunk i → InHand pub o → Held pub' o ∨ InHand pub' o) :
    Covered pub' (i :: l) := by
  intro j hj hjl
  have hi : i.toNat < pub.segment.layout.chunkCount := by
    rw [← hlayout]
    exact hok'.free.lt List.mem_cons_self
  rw [hlayout] at hj ⊢
  have hji : j ≠ i := fun he => hjl (by rw [he]; exact List.mem_cons_self)
  have hne : pub.segment.layout.chunk j ≠ pub.segment.layout.chunk i :=
    fun he => hji (pub.segment.layout.chunk_inj hj hi he)
  rcases hc j hj (fun hm => hjl (List.mem_cons_of_mem _ hm)) with h | h
  · exact hheld _ hne h
  · exact hhand _ hne h

/-- A chunk leaves the free list for an unsent sample. -/
theorem Covered.lent {pub pub' : Publisher size} {l : List U32} {i : U32}
    (hc : Covered pub (i :: l)) (hlayout : pub'.segment.layout = pub.segment.layout)
    (hloans : pub'.loans = pub.segment.layout.chunk i :: pub.loans)
    (hlinks : pub'.links = pub.links) (hpc : pub'.pc = pub.pc) : Covered pub' l := by
  intro j hj hjl
  rw [hlayout] at hj ⊢
  by_cases hji : j = i
  · subst hji
    refine .inl (.inl ?_)
    rw [hloans]
    exact List.mem_cons_self
  · have hjl' : j ∉ i :: l := fun hm => (List.mem_cons.mp hm).elim hji hjl
    rcases hc j hj hjl' with (h | h) | h
    · refine .inl (.inl ?_)
      rw [hloans]
      exact List.mem_cons_of_mem _ h
    · refine .inl (.inr ?_)
      rw [hlinks]
      exact h
    · exact .inr (h.congr hpc)

/-- Taking an unsent sample away leaves the other chunks held. -/
theorem Held.eraseLoan {pub pub' : Publisher size} {l : List U32} {offset o : PointerOffset}
    (h : Held pub o) (hok : PubOk .live pub l) (hloans : pub'.loans = pub.loans.erase offset)
    (hlinks : pub'.links = pub.links) (hne : o ≠ offset) : Held pub' o := by
  unfold Held at h ⊢
  rw [hloans, hlinks]
  rcases h with h | h
  · exact .inl ((mem_erase_loans hok).mpr ⟨hne, h⟩)
  · exact .inr h

/-- **The step lemma**: a step that meets `NoLeak` keeps every chunk covered. -/
theorem Covered.step {pub pub' : Publisher size} {l l' : List U32} {a : PublisherAct size}
    (hc : Covered pub l) (hok : PubOk .live pub l) (hk : Keeps .live pub pub' a l l')
    (hno : NoLeak pub a) :
    Covered pub' l' := by
  obtain ⟨_, hsends, hleaves⟩ := hno
  have hok' := hk.ok
  have hlayout := hk.layout
  cases hk.effect with
  | same he =>
      subst he
      exact hc
  | lent i hloans hlinks _ hpc => exact hc.lent hlayout hloans hlinks hpc
  | wrote hloans hlinks _ hpc =>
      exact hc.same hlayout (fun o h => .inl (h.congr hloans hlinks))
        (fun o h => .inr (h.congr hpc))
  | dropped i hmem hloans hlinks _ hpc =>
      exact hc.freed hok' hlayout (fun o hne h => .inl (h.eraseLoan hok hloans hlinks hne))
        (fun o _ h => .inr (h.congr hpc))
  | sentNowhere offset v ha _ hnil =>
      subst ha
      exact absurd hnil hsends
  | sendBegun offset v _ hloans hlinks _ hpc' hpc =>
      refine hc.same hlayout (fun o h => ?_) (fun o h => ?_)
      · by_cases ho : o = offset
        · exact .inr ((inHand_sending hpc').mpr ho.symm)
        · exact .inl (h.eraseLoan hok hloans hlinks ho)
      · exact absurd h (not_inHand_of_idle (.inl hpc))
  | pushed offset v k link link' ha hpc hlk hloans hlinks hext _ hroom hcase =>
      subst ha
      refine hc.same hlayout
        (fun o h => .inl (h.setLink hlk hloans hlinks hext.holds)) (fun o h => ?_)
      obtain rfl := (inHand_sending hpc).mp h
      rcases hcase with ⟨_, hpc', _⟩ | ⟨hlast, _, _⟩
      · exact .inr ((inHand_sending hpc').mpr rfl)
      · exact .inl (held_of_pushed hok hsends hpc hlk hlinks hext hroom hlast)
  | sendFailed offset v k link ha hpc hlk hfull hloans hlinks _ _ =>
      subst ha
      refine hc.same hlayout (fun o h => .inl (h.congr hloans hlinks)) (fun o h => .inl ?_)
      obtain rfl := (inHand_sending hpc).mp h
      exact held_of_sendFailed hok hsends hpc hlk hlinks hfull
  | reclaimMoved hloans hlinks _ hpc _ =>
      refine hc.same hlayout (fun o h => .inl (h.congr hloans hlinks)) (fun o h => ?_)
      exact absurd h (not_inHand_of_idle hpc)
  | reclaimed offset k link link' hpc hlk hloans hlinks hext _ _ _ hpc' =>
      refine hc.same hlayout (fun o h => ?_) (fun o h => ?_)
      · by_cases ho : o = offset
        · exact .inr ((inHand_releasing hpc').mpr ho.symm)
        · exact .inl (h.setLink hlk hloans hlinks (fun hh => hext.holds_of_ne hh ho))
      · exact absurd h (not_inHand_of_idle (.inr ⟨k, hpc⟩))
  | released i k hpc hloans hlinks _ _ =>
      refine hc.freed hok' hlayout (fun o _ h => .inl (h.congr hloans hlinks)) (fun o hne h => ?_)
      exact absurd ((inHand_releasing hpc).mp h).symm hne
  | connected subscriber he hpc =>
      subst he
      refine hc.same hlayout (fun o h => .inl ?_) (fun o h => ?_)
      · rcases h with h | ⟨m, hm, hholds⟩
        · exact .inl h
        · exact .inr ⟨m, List.mem_append_left _ hm, hholds⟩
      · exact absurd h (not_inHand_of_idle (.inl hpc))
  | received k link link' v hlk he hrecv =>
      subst he
      exact hc.same hlayout (fun o h => .inl (h.setLink hlk rfl rfl hrecv.holds))
        (fun o h => .inr h)
  | dropBegun k link link' x hlk he hre hsamples hnone hsome =>
      subst he
      exact hc.same hlayout
        (fun o h => .inl (h.setLink hlk rfl rfl
          (hre.holds_of_dropBegun hsamples hnone hsome)))
        (fun o h => .inr h)
  | returned k link link' x ha hlk he hre hsamples hsome _ =>
      subst ha
      subst he
      exact hc.same hlayout (fun o h => .inl (h.returned hleaves hlk hre hsamples hsome))
        (fun o h => .inr h)
  | closed subscriber ha he =>
      subst ha
      subst he
      exact hc.same hlayout (fun o h => .inl (h.closed hleaves)) (fun o h => .inr h)

/-! ## §5. Every run. -/

/-- In the service. -/
def noLeak (s : Service size) (a : Act size) : Prop :=
  (∀ x ∈ s.moved a, ∀ pub ∈ s.publishers[x.1]?, NoLeak pub x.2)
    ∧ ∀ i ∈ a.dropped, ∀ pub ∈ s.publishers, NoLeak pub (.close i)

instance decidableServiceNoLeak (s : Service size) (a : Act size) : Decidable (noLeak s a) :=
  inferInstanceAs (Decidable (_ ∧ _))

theorem noLeak_localises : Localises noLeak (@NoLeak size) where
  moved := fun _ _ _ _ pub hok hmoved hpub => hok.1 _ hmoved pub hpub
  closed := fun _ _ pub hok hpub => hok.2 _ rfl pub hpub

theorem covered_of_create {qos : PubSubQos} {pub : Publisher size}
    (h : Publisher.create size qos = some pub) : ∃ l, PubOk .live pub l ∧ Covered pub l := by
  refine ⟨_, create_ok h, fun i hi hil => ?_⟩
  have hmem : i ∈ (List.range pub.segment.layout.chunkCount).map (BitVec.ofNat 32) := by
    refine List.mem_map.mpr ⟨i.toNat, List.mem_range.mpr hi, ?_⟩
    rw [BitVec.ofNat_toNat, BitVec.setWidth_eq]
  exact absurd hmem hil

/-- In the service: what is received from counts. -/
def receivesCounted (s : Service size) (a : Act size) : Prop :=
  ∀ x ∈ s.moved a, ∀ pub ∈ s.publishers[x.1]?, ReceivesCounted .live pub x.2

theorem Attached.receivesCounted {s s' : Service size} {a : Act size} (h : Attached s)
    (hs : s.step a = some s') : receivesCounted s a := by
  rintro ⟨p, b⟩ hmoved pub hpub
  cases b with
  | receive k => exact fun link hlink => h.receives_alive hs hmoved hpub hlink
  | _ => trivial

theorem covers_localises :
    Localises (fun (s : Service size) a => noLeak s a ∧ receivesCounted s a)
      (fun pub a => NoLeak pub a ∧ ReceivesCounted .live pub a) where
  moved := fun s act p a pub hok hmoved hpub =>
    ⟨noLeak_localises.moved s act p a pub hok.1 hmoved hpub, hok.2 _ hmoved pub hpub⟩
  closed := fun s i pub hok hpub => ⟨noLeak_localises.closed s i pub hok.1 hpub, trivial⟩

theorem covered_of_reach {qos : PubSubQos} {s : Service size}
    (hs : Reach Service.step noLeak (Service.init qos) s) :
    ∀ pub ∈ s.publishers, ∃ l, PubOk .live pub l ∧ Covered pub l := by
  refine hs.invariant_of_reach
    (fun s => ∀ pub ∈ s.publishers, ∃ l, PubOk .live pub l ∧ Covered pub l)
    (fun pub hpub => absurd hpub (by simp [Service.init])) ?_
  intro t a t' hr hinv ha ht
  refine publishers_step covers_localises (fun _ => covered_of_create) ?_ hinv
    ⟨ha, (attached_of_reach hr).receivesCounted ht⟩ ht
  rintro pub b pub' ⟨l, hl, hc⟩ ⟨hno, hcounted⟩ hstep
  obtain ⟨l', hl'⟩ := hl.step hno.1 hcounted hstep
  exact ⟨l', hl'.ok, hc.step hl hl' hno⟩

/-- With no active loan there is a free chunk, and `loan` gives it out. -/
theorem PubOk.loan_ok {pub : Publisher size} {l : List U32} (h : PubOk .live pub l)
    (hactive : pub.activeLoans = 0#64) (hmax : 0 < pub.qos.maxLoanedSamples) :
    ∃ offset pub', pub.loan = some (.ok offset, pub') := by
  have hpos := pub.segment.allocator.indexSet.capacity_pos
  rw [pub.segment.allocator.capacity_eq] at hpos
  have hborrowed := h.free.borrowed
  have hcount := h.active
  rw [hactive, BitVec.toNat_zero] at hcount
  cases l with
  | nil =>
      rw [List.length_nil] at hborrowed
      have : 0 < pub.segment.layout.chunkCount := hpos
      omega
  | cons i rest =>
      obtain ⟨seg, halloc, _⟩ := DataSegment.allocate_ok h.free
      unfold Publisher.loan
      rw [if_neg (by rw [hactive, BitVec.toNat_zero]; omega), halloc]
      exact ⟨_, _, rfl⟩

/-- **No chunk leaks**, in every run in which every way out of the publisher's
hands has a way back: an allocated chunk is held by someone or, inside `send`
and `reclaim`, by the publisher itself.  Between operations, when nobody holds
anything any more, the whole budget is there again. -/
theorem no_chunk_leaks (qos : PubSubQos) (s : Service size)
    (hs : Reach Service.step noLeak (Service.init qos) s) (pub : Publisher size)
    (hpub : pub ∈ s.publishers) :
    (∀ i : U32, i.toNat < pub.segment.layout.chunkCount → ¬ pub.segment.OnFreeChain i →
        Held pub (pub.segment.layout.chunk i) ∨ InHand pub (pub.segment.layout.chunk i))
      ∧ (pub.pc = .idle →
          (∀ i : U32, i.toNat < pub.segment.layout.chunkCount → ¬ pub.segment.OnFreeChain i →
            Held pub (pub.segment.layout.chunk i))
          ∧ ((∀ offset, ¬ Held pub offset) →
              pub.activeLoans = 0#64
                ∧ (0 < pub.qos.maxLoanedSamples →
                    ∃ offset pub', pub.loan = some (.ok offset, pub')))) := by
  obtain ⟨l, hl, hc⟩ := covered_of_reach hs pub hpub
  have hcover : ∀ i : U32, i.toNat < pub.segment.layout.chunkCount →
      ¬ pub.segment.OnFreeChain i →
      Held pub (pub.segment.layout.chunk i) ∨ InHand pub (pub.segment.layout.chunk i) :=
    fun i hi hfree => hc i hi (fun hm => hfree ((hl.free.onFreeChain_iff i).mpr hm))
  refine ⟨hcover, fun hidle => ?_⟩
  have hheld : ∀ i : U32, i.toNat < pub.segment.layout.chunkCount →
      ¬ pub.segment.OnFreeChain i → Held pub (pub.segment.layout.chunk i) :=
    fun i hi hfree => (hcover i hi hfree).resolve_right (not_inHand_of_idle (.inl hidle))
  refine ⟨hheld, fun hnone => ?_⟩
  have hzero : pub.segment.allocatedCount.toNat = 0 := by
    apply hl.free.allocatedCount_eq_zero
    intro i hi
    by_contra hil
    exact hnone _ (hheld i hi (fun hon => hil ((hl.free.onFreeChain_iff i).mp hon)))
  have hactive : pub.activeLoans = 0#64 := by
    apply BitVec.eq_of_toNat_eq
    rw [hl.active, hzero, BitVec.toNat_zero]
  exact ⟨hactive, hl.loan_ok hactive⟩

/-! ## §6. Runs. -/

/-- Two subscribers; one goes away holding a sample the other gets too.  The next
sample lies in the queue it has left behind as well: the other one takes it and drops
it, and `reclaim` frees its chunk.  Last the sample that has outlived its subscriber is
dropped. -/
def outlived : List (Act 1) :=
  [.createPublisher, .createSubscriber, .connectNext 0, .connectNext 0,
   .createSubscriber, .connectNext 1, .connectNext 1,
   .publisher 0 .loan, .publisher 0 (.send ⟨64#64⟩), .publisher 0 .next, .publisher 0 .next,
   .receive 0, .receiveNext 0, .dropSubscriber 0,
   .publisher 0 .loan, .publisher 0 (.send ⟨72#64⟩), .publisher 0 .next, .publisher 0 .next,
   .receive 1, .receiveNext 1, .receive 1, .receiveNext 1,
   .dropSample 1 0 1 ⟨⟨72#64⟩, fun _ => 0#8⟩, .returnNext 1,
   .publisher 0 .reclaim, .publisher 0 .next, .publisher 0 .next, .publisher 0 .next,
   .publisher 0 .next, .dropSample 0 0 0 ⟨⟨64#64⟩, fun _ => 0#8⟩, .returnNext 0]

theorem no_chunk_leaks_outlived :
    ∃ s : Service 1, Reach Service.step noLeak (Service.init ⟨2, 2⟩) s
      ∧ ∃ pub ∈ s.publishers, pub.pc = .idle ∧ pub.reclaimed = 1 ∧ pub.activeLoans = 1#64
          ∧ ∀ i : U32, i.toNat < pub.segment.layout.chunkCount → ¬ pub.segment.OnFreeChain i →
              Held pub (pub.segment.layout.chunk i) := by
  have hrun : (execOk Service.step noLeak (Service.init ⟨2, 2⟩) outlived).map
      (fun s => s.publishers.any (fun pub =>
        pub.pc.isIdle && (decide (pub.reclaimed = 1) && decide (pub.activeLoans = 1#64))))
        = some true := by decide
  obtain ⟨s, hs, hany⟩ := Option.map_eq_some_iff.mp hrun
  simp only [List.any_eq_true, Bool.and_eq_true, decide_eq_true_eq] at hany
  obtain ⟨pub, hpub, hidle, hreclaimed, hactive⟩ := hany
  have hreach := Reach.of_execOk outlived .refl hs
  have hidle' := PublisherPc.isIdle_iff.mp hidle
  exact ⟨s, hreach, pub, hpub, hidle', hreclaimed, hactive,
    ((no_chunk_leaks ⟨2, 2⟩ s hreach pub hpub).2 hidle').1⟩

/-- A sample sent while there is no channel. -/
def sentToNobody : List (Act 1) :=
  [.createPublisher, .publisher 0 .loan, .publisher 0 (.send ⟨64#64⟩)]

/-- **A chunk leaks**: nobody holds anything, yet one of the two loans stays
active and its chunk is not free. -/
theorem chunk_leaked :
    ∃ s : Service 1, Reach Service.step anyStep (Service.init ⟨2, 2⟩) s
      ∧ ∃ pub ∈ s.publishers, pub.pc = .idle ∧ (∀ offset, ¬ Held pub offset)
          ∧ pub.activeLoans = 1#64
          ∧ ∃ i : U32, i.toNat < pub.segment.layout.chunkCount ∧ ¬ pub.segment.OnFreeChain i := by
  have hrun : (exec Service.step (Service.init ⟨2, 2⟩) sentToNobody).map
      (fun s : Service 1 => s.publishers.any (fun pub =>
        pub.pc.isIdle && (pub.loans.isEmpty && (pub.links.isEmpty
          && decide (pub.activeLoans = 1#64))))) = some true := by decide
  obtain ⟨s, hs, hany⟩ := Option.map_eq_some_iff.mp hrun
  simp only [List.any_eq_true, Bool.and_eq_true, decide_eq_true_eq, List.isEmpty_iff] at hany
  obtain ⟨pub, hpub, hidle, hloans, hlinks, hactive⟩ := hany
  have hreach := Reach.of_exec sentToNobody .refl hs
  refine ⟨s, hreach, pub, hpub, PublisherPc.isIdle_iff.mp hidle, ?_, hactive, ?_⟩
  · intro offset hheld
    unfold Held at hheld
    rw [hloans, hlinks] at hheld
    exact absurd hheld (by simp)
  · obtain ⟨l, hl⟩ := single_ok hreach pub hpub (by rw [hlinks]; exact Nat.zero_le _)
    by_contra hall
    have hzero : pub.segment.allocatedCount.toNat = 0 := by
      apply hl.free.allocatedCount_eq_zero
      intro i hi
      by_contra hil
      exact hall ⟨i, hi, fun hon => hil ((hl.free.onFreeChain_iff i).mp hon)⟩
    have hcount := hl.active
    rw [hactive, hzero] at hcount
    exact absurd hcount (by decide)

end Entangle.PubSub
