/-
  Entangle.PubSub.FailedSend — `SampleMut::send` as one call, and what a call
  that fails leaves behind (entangle/src/port/publisher.rs, sample.rs).

  `send` disarms the drop closure and then walks the channel list; the first
  channel that is full ends the walk.  The channels before it have the offset,
  those after it do not, and nobody gives the chunk back: `sendFn_failed`.  So
  the call is all-or-nothing exactly when no channel refuses.

  Main results:
    * `sendAll_ok`, `sendAll_failed` — the loop over the channels, by the first
      channel that refuses;
    * `exec_send` — the call is the run of the steps `.send`, `.next`, … of
      `Publisher.step` with nothing in between;
    * `send_allOrNothing_iff` — all-or-nothing iff every channel accepts;
    * `send_half_done` — a second channel that is full.
-/
import Entangle.PubSub.Service
import Entangle.PubSub.Ownership
import Entangle.Port.Error

namespace Entangle.PubSub

open Entangle.Lib Entangle.Lockfree Entangle.Transport Entangle.Port

variable {size : Nat}

/-! ## §1. The loop of the send closure. -/

/-- The entry of the list after the channel has taken the offset. -/
def Link.served (link : Link size) (offset : PointerOffset) (value : Payload size) : Link size :=
  { link with channel := (link.channel.send offset).2, inFlight := link.inFlight ++ [value] }

/-- `for ch in channels.iter() { ch.send(offset)?; }`. -/
def sendAll (offset : PointerOffset) (value : Payload size) :
    List (Link size) → Except SendError Unit × List (Link size)
  | [] => (.ok (), [])
  | link :: links =>
      match link.channel.send offset with
      | (.error e, _) => (.error e, link :: links)
      | (.ok _, _) =>
          let r := sendAll offset value links
          (r.1, link.served offset value :: r.2)

theorem sendAll_cons_accepts {link : Link size} (h : link.channel.Accepts)
    (offset : PointerOffset) (value : Payload size) (links : List (Link size)) :
    sendAll offset value (link :: links)
      = ((sendAll offset value links).1,
          link.served offset value :: (sendAll offset value links).2) := by
  rw [sendAll, ← Prod.eta (link.channel.send offset),
    (ZeroCopyChannel.send_of_accepts h offset).1]

theorem sendAll_cons_refuses {link : Link size} (h : ¬ link.channel.Accepts)
    (offset : PointerOffset) (value : Payload size) (links : List (Link size)) :
    ∃ e, link.channel.send offset = (.error e, link.channel)
      ∧ sendAll offset value (link :: links) = (.error e, link :: links) := by
  obtain ⟨e, he⟩ := ZeroCopyChannel.send_of_refuses h offset
  exact ⟨e, he, by rw [sendAll, he]⟩

/-- With every channel accepting, every channel is served. -/
theorem sendAll_ok {links : List (Link size)} (h : ∀ link ∈ links, link.channel.Accepts)
    (offset : PointerOffset) (value : Payload size) :
    sendAll offset value links = (.ok (), links.map (fun link => link.served offset value)) := by
  induction links with
  | nil => rfl
  | cons link links ih =>
      have hlink := h link List.mem_cons_self
      have hlinks := ih (fun x hx => h x (List.mem_cons_of_mem link hx))
      rw [sendAll_cons_accepts hlink, hlinks, List.map_cons]

/-- Otherwise the channels before the first that refuses are served, the call
fails and nothing else happens. -/
theorem sendAll_failed {links : List (Link size)} (h : ¬ ∀ link ∈ links, link.channel.Accepts)
    (offset : PointerOffset) (value : Payload size) :
    ∃ before link after e, links = before ++ link :: after
      ∧ (∀ x ∈ before, x.channel.Accepts) ∧ ¬ link.channel.Accepts
      ∧ sendAll offset value links
          = (.error e, before.map (fun x => x.served offset value) ++ link :: after) := by
  induction links with
  | nil => exact absurd (fun link hlink => absurd hlink (by simp)) h
  | cons link links ih =>
      by_cases hlink : link.channel.Accepts
      · have hrest : ¬ ∀ x ∈ links, x.channel.Accepts := by
          intro hall
          apply h
          intro x hx
          rcases List.mem_cons.mp hx with rfl | hx
          · exact hlink
          · exact hall x hx
        obtain ⟨before, bad, after, e, hsplit, hbefore, hbad, hall⟩ := ih hrest
        refine ⟨link :: before, bad, after, e, ?_, ?_, hbad, ?_⟩
        · rw [hsplit, List.cons_append]
        · intro x hx
          rcases List.mem_cons.mp hx with rfl | hx
          · exact hlink
          · exact hbefore x hx
        · rw [sendAll_cons_accepts hlink, hall, List.map_cons, List.cons_append]
      · obtain ⟨e, _, hall⟩ := sendAll_cons_refuses hlink offset value links
        exact ⟨[], link, links, e, rfl, fun x hx => absurd hx (by simp), hlink, hall⟩

/-! ## §2. The sample and its two closures. -/

/-- `SampleMut`: its offset, and which of its closures are still there. -/
structure SampleMut where
  offset : PointerOffset
  sendFn : Bool
  dropFn : Bool
  deriving Repr, DecidableEq

/-- What the closure returns after its loop, and the record of what was sent. -/
def Publisher.afterLoop (p : Publisher size) (value : Payload size) :
    Except SendError Unit × List (Link size) → Except PortError Unit × Publisher size
  | (.ok _, links) => (.ok (), { p with links := links, sentOk := p.sentOk ++ [value] })
  | (.error e, links) => (.error (.send e), { p with links := links })

/-- The send closure made by `loan`. -/
def Publisher.sendFn (p : Publisher size) (offset : PointerOffset) :
    Except PortError Unit × Publisher size :=
  let value := p.segment.read size offset
  { p with loans := p.loans.erase offset }.afterLoop value (sendAll offset value p.links)

/-- The drop closure made by `loan`. -/
def Publisher.dropFn (p : Publisher size) (offset : PointerOffset) : Option (Publisher size) :=
  (p.release offset).map (fun p' =>
    { p' with loans := p.loans.erase offset, dropped := p.dropped + 1 })

namespace SampleMut

/-- The sample that `Publisher::loan` returns for an offset. -/
def new (offset : PointerOffset) : SampleMut := { offset := offset, sendFn := true, dropFn := true }

/-- `Drop for SampleMut`. -/
def drop (s : SampleMut) (p : Publisher size) : Option (Publisher size) :=
  if s.dropFn then p.dropFn s.offset else some p

/-- `SampleMut::send`: both closures are taken, the first is called, and the
sample is dropped at the end; `none` where the `unwrap` panics. -/
def send (s : SampleMut) (p : Publisher size) :
    Option (Except PortError Unit × Publisher size) :=
  if s.sendFn then
    let r := p.sendFn s.offset
    ({ s with sendFn := false, dropFn := false }.drop r.2).map (fun p' => (r.1, p'))
  else none

/-- The drop at the end of `send` does nothing: its closure is gone. -/
theorem send_new (p : Publisher size) (offset : PointerOffset) :
    (new offset).send p = some (p.sendFn offset) := rfl

end SampleMut

/-! ## §3. All or nothing. -/

/-- The chunk an offset names is in the free list again. -/
def ChunkFree (seg : DataSegment) (offset : PointerOffset) : Prop :=
  ∃ i : U32, seg.layout.chunk i = offset ∧ seg.OnFreeChain i

/-- What a failed call is to leave behind: the send queues as they were, the
chunk free and one active loan less. -/
structure NothingSent (p p' : Publisher size) (offset : PointerOffset) : Prop where
  queues : p'.links.map (fun link => link.channel.pending)
    = p.links.map (fun link => link.channel.pending)
  chunk : ChunkFree p'.segment offset
  loans : p'.activeLoans.toNat + 1 = p.activeLoans.toNat

/-- What a call that succeeds is to leave behind: every channel has the offset
appended once. -/
def AllSent (p p' : Publisher size) (offset : PointerOffset) : Prop :=
  p'.links.map (fun link => link.channel.pending)
    = p.links.map (fun link => link.channel.pending ++ [offset])

/-- `send` of a sample with this offset returns, with one of the two outcomes. -/
def AllOrNothing (p : Publisher size) (offset : PointerOffset) : Prop :=
  ∃ result p', (SampleMut.new offset).send p = some (result, p')
    ∧ (result = .ok () → AllSent p p' offset)
    ∧ (∀ e, result = .error e → NothingSent p p' offset)

theorem served_pending {link : Link size} (h : link.channel.Accepts) (offset : PointerOffset)
    (value : Payload size) :
    (link.served offset value).channel.pending = link.channel.pending ++ [offset] :=
  (ZeroCopyChannel.send_of_accepts h offset).2

theorem sendFn_ok {p : Publisher size} (h : ∀ link ∈ p.links, link.channel.Accepts)
    (offset : PointerOffset) :
    (p.sendFn offset).1 = .ok () ∧ AllSent p (p.sendFn offset).2 offset := by
  unfold Publisher.sendFn
  simp only [sendAll_ok h, Publisher.afterLoop, true_and]
  show (p.links.map (fun link => link.served offset (p.segment.read size offset))).map
    (fun link => link.channel.pending) = _
  rw [List.map_map]
  exact List.map_congr_left (fun link hlink => served_pending (h link hlink) offset _)

/-- **What a failed call leaves behind**: the channels before the first that
refuses have the offset; the segment and the count of loans are as before. -/
theorem sendFn_failed {p : Publisher size} (h : ¬ ∀ link ∈ p.links, link.channel.Accepts)
    (offset : PointerOffset) :
    ∃ before link after e, p.links = before ++ link :: after ∧ ¬ link.channel.Accepts
      ∧ (p.sendFn offset).1 = .error (.send e)
      ∧ (p.sendFn offset).2.segment = p.segment
      ∧ (p.sendFn offset).2.activeLoans = p.activeLoans
      ∧ (p.sendFn offset).2.links.map (fun x => x.channel.pending)
          = before.map (fun x => x.channel.pending ++ [offset])
            ++ (link :: after).map (fun x => x.channel.pending) := by
  obtain ⟨before, link, after, e, hsplit, hbefore, hlink, hall⟩ :=
    sendAll_failed h offset (p.segment.read size offset)
  refine ⟨before, link, after, e, hsplit, hlink, ?_⟩
  unfold Publisher.sendFn
  simp only [hall, Publisher.afterLoop, true_and]
  rw [List.map_append, List.map_map]
  congr 1
  exact List.map_congr_left (fun x hx => served_pending (hbefore x hx) offset _)

theorem allOrNothing_of_accepts {p : Publisher size}
    (h : ∀ link ∈ p.links, link.channel.Accepts) (offset : PointerOffset) :
    AllOrNothing p offset := by
  obtain ⟨hok, hsent⟩ := sendFn_ok h offset
  refine ⟨(p.sendFn offset).1, (p.sendFn offset).2, SampleMut.send_new p offset,
    fun _ => hsent, fun e he => ?_⟩
  rw [hok] at he
  exact absurd he (by simp)

/-- A failed call leaves the count of loans where it was. -/
theorem not_allOrNothing_of_refuses {p : Publisher size}
    (h : ¬ ∀ link ∈ p.links, link.channel.Accepts) (offset : PointerOffset) :
    ¬ AllOrNothing p offset := by
  rintro ⟨result, p', hsend, _, hfailed⟩
  obtain ⟨_, _, _, e, _, _, herr, _, hactive, _⟩ := sendFn_failed h offset
  rw [SampleMut.send_new, Option.some.injEq] at hsend
  simp only [hsend] at herr hactive
  have hloans := (hfailed _ herr).loans
  rw [hactive] at hloans
  omega

/-! ## §4. The call as a run of steps. -/

/-- The state between two rounds of the loop: `done` is served, `rest` is not. -/
def atRound (p : Publisher size) (offset : PointerOffset) (value : Payload size)
    (done rest : List (Link size)) : Publisher size :=
  { p with links := done ++ rest, pc := .sending offset value done.length }

theorem atRound_next_accepts (p : Publisher size) (offset : PointerOffset) (value : Payload size)
    (done : List (Link size)) {link : Link size} (h : link.channel.Accepts)
    (rest : List (Link size)) :
    (atRound p offset value done (link :: rest)).step .next
      = some (if rest = [] then
          { p with
            links := done ++ [link.served offset value]
            pc := .idle
            sentOk := p.sentOk ++ [value] }
        else atRound p offset value (done ++ [link.served offset value]) rest) := by
  obtain ⟨channel, hsend⟩ : ∃ channel, link.channel.send offset = (.ok (), channel) :=
    ⟨_, Prod.ext (ZeroCopyChannel.send_of_accepts h offset).1 rfl⟩
  have hserved : link.served offset value
      = { link with channel := channel, inFlight := link.inFlight ++ [value] } := by
    rw [Link.served, hsend]
  have hget : (done ++ link :: rest)[done.length]? = some link := by simp
  have hset : (done ++ link :: rest).set done.length (link.served offset value)
      = (done ++ [link.served offset value]) ++ rest := by simp
  show Publisher.sendNext _ offset value done.length = _
  unfold Publisher.sendNext
  simp only [atRound, hget, Option.map_some, hsend, Publisher.setLink]
  rw [← hserved, hset]
  cases rest with
  | nil => simp
  | cons x xs => simp

theorem atRound_next_refuses (p : Publisher size) (offset : PointerOffset) (value : Payload size)
    (done : List (Link size)) {link : Link size} (h : ¬ link.channel.Accepts)
    (rest : List (Link size)) :
    (atRound p offset value done (link :: rest)).step .next
      = some { p with links := done ++ link :: rest, pc := .idle } := by
  obtain ⟨e, he⟩ := ZeroCopyChannel.send_of_refuses h offset
  have hget : (done ++ link :: rest)[done.length]? = some link := by simp
  show Publisher.sendNext _ offset value done.length = _
  unfold Publisher.sendNext
  simp only [atRound, hget, Option.map_some, he]

/-- The state after the loop has gone through `rest`. -/
def afterRounds (p : Publisher size) (offset : PointerOffset) (value : Payload size)
    (done rest : List (Link size)) : Publisher size :=
  let r := sendAll offset value rest
  ({ p with pc := .idle }.afterLoop value (r.1, done ++ r.2)).2

/-- The loop, by induction on the channels not yet served. -/
theorem exec_rounds (p : Publisher size) (offset : PointerOffset) (value : Payload size)
    (rest : List (Link size)) : ∀ done, rest ≠ [] →
      ∃ n, exec Publisher.step (atRound p offset value done rest)
          (List.replicate n PublisherAct.next) = some (afterRounds p offset value done rest) := by
  induction rest with
  | nil => exact fun _ hne => absurd rfl hne
  | cons link rest ih =>
      intro done _
      by_cases hlink : link.channel.Accepts
      · have hstep := atRound_next_accepts p offset value done hlink rest
        have hall := sendAll_cons_accepts hlink offset value rest
        by_cases hrest : rest = []
        · refine ⟨1, ?_⟩
          rw [List.replicate_one, exec, hstep, if_pos hrest, Option.bind_some, exec, afterRounds,
            hall, hrest]
          rfl
        · obtain ⟨n, hn⟩ := ih (done ++ [link.served offset value]) hrest
          refine ⟨n + 1, ?_⟩
          rw [List.replicate_succ, exec, hstep, if_neg hrest, Option.bind_some, hn]
          simp only [afterRounds, hall, List.append_assoc, List.singleton_append]
      · obtain ⟨e, _, hall⟩ := sendAll_cons_refuses hlink offset value rest
        refine ⟨1, ?_⟩
        simp only [List.replicate_one, exec, atRound_next_refuses p offset value done hlink rest,
          Option.bind_some]
        simp only [afterRounds, hall, Publisher.afterLoop]

/-- **The call is a run of the publisher's steps** with nothing in between. -/
theorem exec_send {p : Publisher size} {offset : PointerOffset} (hidle : p.pc = .idle)
    (hloan : offset ∈ p.loans) :
    ∃ n, exec Publisher.step p (.send offset :: List.replicate n .next)
      = ((SampleMut.new offset).send p).map Prod.snd := by
  have hsend : p.step (.send offset) = some (p.send offset) := by
    simp only [Publisher.step, hidle, if_pos hloan]
  by_cases hlinks : p.links = []
  · refine ⟨0, ?_⟩
    simp only [List.replicate_zero, exec, hsend, Option.bind_some, SampleMut.send_new,
      Option.map_some, Publisher.send, Publisher.sendFn, hlinks, if_true, sendAll,
      Publisher.afterLoop]
  · obtain ⟨n, hn⟩ := exec_rounds { p with loans := p.loans.erase offset } offset
      (p.segment.read size offset) p.links [] hlinks
    refine ⟨n, ?_⟩
    have hround : p.send offset = atRound { p with loans := p.loans.erase offset } offset
        (p.segment.read size offset) [] p.links := by
      simp only [Publisher.send, if_neg hlinks]
      rfl
    rw [exec, hsend, Option.bind_some, hround, hn, SampleMut.send_new, Option.map_some]
    unfold afterRounds Publisher.sendFn
    rw [← hidle]
    rfl

/-! ## §5. All or nothing, and when. -/

/-- **A send is all-or-nothing iff every connected channel takes the offset.** -/
theorem send_allOrNothing_iff (p : Publisher size) (offset : PointerOffset) :
    AllOrNothing p offset ↔ ∀ link ∈ p.links, link.channel.Accepts := by
  constructor
  · intro hall
    by_contra hrefuses
    exact not_allOrNothing_of_refuses hrefuses offset hall
  · intro haccepts
    exact allOrNothing_of_accepts haccepts offset

/-- Loan, send to both channels, and the first subscriber gives the chunk back. -/
def sentAndReturned : List (Act 1) :=
  [.publisher 0 .loan, .publisher 0 (.send ⟨64#64⟩), .publisher 0 .next, .publisher 0 .next,
   .receive 0, .receiveNext 0, .dropSample 0 0 0 ⟨⟨64#64⟩, fun _ => 0#8⟩, .returnNext 0,
   .publisher 0 .reclaim, .publisher 0 .next, .publisher 0 .next, .publisher 0 .next,
   .publisher 0 .next]

/-- Two subscribers, of which the second never receives; a third sample is lent. -/
def secondFull : List (Act 1) :=
  [.createPublisher, .createSubscriber, .connectNext 0, .connectNext 0,
   .createSubscriber, .connectNext 1, .connectNext 1]
    ++ sentAndReturned ++ sentAndReturned ++ [.publisher 0 .loan]

/-- **A send fails half done**: the queue of the second channel is full, the
first has the offset, the only chunk is not free and the loan stays active. -/
theorem send_half_done :
    ∃ s : Service 1, Reach Service.step anyStep (Service.init ⟨1, 2⟩) s
      ∧ ∃ pub ∈ s.publishers, ∃ offset ∈ pub.loans, pub.pc = .idle
          ∧ ¬ AllOrNothing pub offset
          ∧ ∃ pub', (SampleMut.new offset).send pub = some (.error (.send .queueFull), pub')
              ∧ pub.links.map (fun link => link.channel.pending) = [[], [offset, offset]]
              ∧ pub'.links.map (fun link => link.channel.pending) = [[offset], [offset, offset]]
              ∧ ¬ ChunkFree pub'.segment offset
              ∧ pub'.activeLoans = pub.activeLoans := by
  have hrun : (exec Service.step (Service.init ⟨1, 2⟩) secondFull).map
      (fun s : Service 1 => s.publishers.any (fun pub =>
        pub.pc.isIdle
          && decide (pub.loans = [⟨64#64⟩]
            ∧ pub.links.map (fun link => link.channel.pending) = [[], [⟨64#64⟩, ⟨64#64⟩]]
            ∧ (¬ ∀ link ∈ pub.links, link.channel.Accepts)
            ∧ (pub.sendFn ⟨64#64⟩).1 = .error (.send .queueFull)
            ∧ (pub.sendFn ⟨64#64⟩).2.links.map (fun link => link.channel.pending)
                = [[⟨64#64⟩], [⟨64#64⟩, ⟨64#64⟩]]
            ∧ extractHead pub.segment.allocator.indexSet.head = SENTINEL))) = some true := by
    decide
  obtain ⟨s, hs, hany⟩ := Option.map_eq_some_iff.mp hrun
  simp only [List.any_eq_true, Bool.and_eq_true, decide_eq_true_eq] at hany
  obtain ⟨pub, hpub, hidle, hloans, hbefore, hrefuses, herr, hafter, hhead⟩ := hany
  obtain ⟨_, _, _, _, _, _, _, hsegment, hactive, _⟩ := sendFn_failed hrefuses ⟨64#64⟩
  refine ⟨s, Reach.of_exec secondFull .refl hs, pub, hpub, ⟨64#64⟩, ?_,
    PublisherPc.isIdle_iff.mp hidle, not_allOrNothing_of_refuses hrefuses _,
    (pub.sendFn ⟨64#64⟩).2, ?_, hbefore, hafter, ?_, hactive⟩
  · rw [hloans]
    exact List.mem_singleton.mpr rfl
  · rw [SampleMut.send_new, ← herr]
  · rintro ⟨i, _, hon⟩
    rw [hsegment] at hon
    have hnil : Linked pub.segment.allocator.indexSet.nextAt SENTINEL
        (extractHead pub.segment.allocator.indexSet.head) [] := linked_nil.mpr hhead
    exact absurd ((Linked.onChain_iff hnil).mp hon) (by simp)

end Entangle.PubSub
