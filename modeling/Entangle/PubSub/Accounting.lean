/-
  Entangle.PubSub.Accounting — the loan budget of a publisher with at most one
  channel.

  `active_loans` and the segment's own count agree and never wrap, and neither
  queue of the channel can fill up: every offset in it is a distinct allocated
  chunk, and the queues have room for all chunks.

  Main result: `loan_accounting`.
-/
import Entangle.PubSub.OwnershipSteps
import Entangle.PubSub.Service

namespace Entangle.PubSub

open Entangle.Lib Entangle.Lockfree Entangle.Transport

variable {size : Nat}

/-! ## §1. Room in the queues. -/

/-- The queues are at least as long as there are chunks. -/
theorem PubOk.chunkCount_le {pub : Publisher size} {l : List U32} (h : PubOk .all pub l)
    (hbuf : pub.qos.bufferSize < 2 ^ 32 - 1) :
    pub.segment.layout.chunkCount ≤ max (nextPowerOfTwo pub.qos.bufferSize) 2 := by
  have hmod : pub.qos.bufferSize % 2 ^ 32 = pub.qos.bufferSize := Nat.mod_eq_of_lt (by omega)
  have hge := (nextPowerOfTwo_least pub.qos.bufferSize (by omega)).1
  rw [h.count, hmod]
  exact hge.trans (Nat.le_max_left _ _)

/-- The publisher's next push finds room: the offset in its hand is one more
chunk beside those the channel holds. -/
theorem PubOk.send_ok {pub : Publisher size} {l : List U32} (h : PubOk .all pub l)
    (hbuf : pub.qos.bufferSize < 2 ^ 32 - 1) {offset : PointerOffset} {v : Payload size} {k : Nat}
    {link : Link size} (hpc : pub.pc = .sending offset v k) (hk : pub.links[k]? = some link) :
    ∃ channel, link.channel.send offset = (.ok (), channel) := by
  have hl := h.links link (List.mem_of_getElem? hk)
  have hhand := h.hand
  unfold HandOk at hhand
  rw [hpc] at hhand
  obtain ⟨_, htaken, _, _, hplaces⟩ := hhand
  have hnew : offset ∉ link.places .all := fun hm => Nat.lt_irrefl k ((hplaces k link hk).1 hm)
  have hlen : (offset :: link.places .all).length ≤ pub.segment.layout.chunkCount :=
    length_le_of_taken (List.nodup_cons.mpr ⟨hnew, hl.nodup⟩)
      (List.forall_mem_cons.mpr ⟨htaken, hl.taken⟩)
  have hcap := h.chunkCount_le hbuf
  rcases ZeroCopyChannel.send_cases hl.ready offset with ⟨hfull, _⟩ | ⟨c, hc, _⟩
  · -- a full queue would hold more chunks than there are
    rw [hl.sendCapacity] at hfull
    have hpend : link.channel.pending.length ≤ (link.places .all).length := by
      rw [Link.places_of_counts rfl, List.length_append]
      omega
    rw [List.length_cons] at hlen
    omega
  · exact ⟨c, hc⟩

/-- The first push of `return_offset` finds room. -/
theorem PubOk.return_ok {pub : Publisher size} {l : List U32} (h : PubOk .all pub l)
    (hbuf : pub.qos.bufferSize < 2 ^ 32 - 1) {link : Link size} (hlink : link ∈ pub.links)
    {x : Sample size} (hx : x ∈ link.dropping) :
    (link.channel.returnOffset x.offset).1 = true := by
  have hl := h.links link hlink
  have hlen := length_le_of_taken hl.nodup hl.taken
  have hcap := h.chunkCount_le hbuf
  rcases ZeroCopyChannel.returnOffset_cases hl.ready x.offset with ⟨hfull, _⟩ | ⟨c, hc, _⟩
  · rw [hl.returnCapacity] at hfull
    have hret : link.channel.returned.length + 1 ≤ (link.places .all).length := by
      rw [Link.places_of_counts rfl, Option.mem_def.mp hx]
      simp only [List.length_append, Option.map_some, Option.toList_some, List.length_singleton]
      omega
    omega
  · rw [hc]

/-- So with one channel the first round of a `send` is its last, and the call returns
`Ok`. -/
theorem PubOk.sendNext_returns {pub : Publisher size} {l : List U32} (h : PubOk .all pub l)
    (hbuf : pub.qos.bufferSize < 2 ^ 32 - 1) (hone : pub.links.length ≤ 1)
    {offset : PointerOffset} {v : Payload size} {k : Nat} (hpc : pub.pc = .sending offset v k) :
    ∃ pub', pub.sendNext offset v k = some pub' ∧ pub'.pc = .idle
      ∧ pub'.sentOk = pub.sentOk ++ [v] := by
  have hhand := h.hand
  unfold HandOk at hhand
  rw [hpc] at hhand
  have hlt : k < pub.links.length := hhand.1
  have hk : pub.links[k]? = some pub.links[k] := List.getElem?_eq_getElem hlt
  obtain ⟨channel, hsend⟩ := h.send_ok hbuf hpc hk
  have hlast : ¬ k + 1 < pub.links.length := by omega
  unfold Publisher.sendNext
  simp only [hk, Option.map_some, hsend, if_neg hlast]
  exact ⟨_, rfl, rfl, rfl⟩

/-- The drop of a sample is over with its first round. -/
theorem PubOk.returnNext_returns {pub : Publisher size} {l : List U32} (h : PubOk .all pub l)
    (hbuf : pub.qos.bufferSize < 2 ^ 32 - 1) {k : Nat} {link : Link size}
    (hk : pub.links[k]? = some link) {x : Sample size} (hx : x ∈ link.dropping) :
    ∃ pub' link', pub.returnNext k = some pub' ∧ pub'.links[k]? = some link'
      ∧ link'.dropping = none := by
  have hlt := (List.getElem?_eq_some_iff.mp hk).1
  have hret := h.return_ok hbuf (List.mem_of_getElem? hk) hx
  unfold Publisher.returnNext
  rw [hk, Option.bind_some, Option.mem_def.mp hx, Option.map_some]
  split
  next channel hfirst =>
    refine ⟨_, { link with channel := channel, dropping := none }, rfl, ?_, rfl⟩
    exact List.getElem?_set_self hlt
  next channel hfirst =>
    rw [hfirst] at hret
    exact absurd hret (by simp)

/-! ## §2. Every run. -/

theorem localises_trivial (ok : Service size → Act size → Prop) :
    Localises ok (fun _ _ => True) :=
  ⟨fun _ _ _ _ _ _ _ _ => trivial, fun _ _ _ _ _ => trivial⟩

/-- A publisher with at most one channel has its chunks in order. -/
theorem single_ok {ok : Service size → Act size → Prop} {qos : PubSubQos} {s : Service size}
    (hs : Reach Service.step ok (Service.init qos) s) :
    ∀ pub ∈ s.publishers, pub.links.length ≤ 1 → ∃ l, PubOk .all pub l := by
  refine publishers_invariant (localises_trivial ok)
    (I := fun pub => pub.links.length ≤ 1 → ∃ l, PubOk .all pub l) ?_ ?_ hs
  · intro pub hpub _
    exact ⟨_, create_ok hpub⟩
  · intro pub a pub' hI _ hstep hone
    obtain ⟨_, l', _, hl'⟩ := single_step hI hstep hone
    exact ⟨l', hl'.ok⟩

/-- The qos of a publisher is that of its service. -/
theorem publisher_qos {ok : Service size → Act size → Prop} {qos : PubSubQos} {s : Service size}
    (hs : Reach Service.step ok (Service.init qos) s) :
    ∀ pub ∈ s.publishers, pub.links.length ≤ 1 → pub.qos = qos := by
  intro pub hpub hone
  have hinv := publishers_invariant (localises_trivial ok)
    (I := fun pub => pub.links.length ≤ 1 → (∃ l, PubOk .all pub l) ∧ pub.qos = qos) ?_ ?_ hs
  · exact (hinv pub hpub hone).2
  · intro pub hpub _
    refine ⟨⟨_, create_ok hpub⟩, ?_⟩
    obtain ⟨seg, _, rfl⟩ := Option.map_eq_some_iff.mp hpub
    rfl
  · intro pub a pub' hI _ hstep hone
    obtain ⟨_, l', _, hl'⟩ := single_step (fun h => (hI h).1) hstep hone
    exact ⟨⟨l', hl'.ok⟩, hl'.qos.trans (hI ((links_length_le hstep).trans hone)).2⟩

/-- **With at most one channel the accounts are exact and no queue overflows**: every
`send` that has begun ends with its next round and returns `Ok`, and every drop of a
sample ends with the first push. -/
theorem loan_accounting (qos : PubSubQos) (hbuf : qos.bufferSize < 2 ^ 32 - 1) (s : Service size)
    (hs : Reach Service.step anyStep (Service.init qos) s) (pub : Publisher size)
    (hpub : pub ∈ s.publishers) (hone : pub.links.length ≤ 1) :
    pub.activeLoans.toNat = pub.segment.allocatedCount.toNat
      ∧ pub.dropped + pub.reclaimed ≤ pub.loaned
      ∧ pub.activeLoans.toNat = pub.loaned - (pub.dropped + pub.reclaimed)
      ∧ pub.activeLoans.toNat ≤ pub.qos.maxLoanedSamples
      ∧ pub.activeLoans.toNat ≤ pub.segment.layout.chunkCount
      ∧ (∀ offset v k link, pub.pc = .sending offset v k → pub.links[k]? = some link →
          ∃ channel, link.channel.send offset = (.ok (), channel))
      ∧ (∀ link ∈ pub.links, ∀ x ∈ link.dropping,
          (link.channel.returnOffset x.offset).1 = true)
      ∧ (∀ offset v k, pub.pc = .sending offset v k →
          ∃ pub', pub.sendNext offset v k = some pub' ∧ pub'.pc = .idle
            ∧ pub'.sentOk = pub.sentOk ++ [v])
      ∧ (∀ (k : Nat) (link : Link size) (x : Sample size), pub.links[k]? = some link →
          x ∈ link.dropping →
          ∃ pub' link', pub.returnNext k = some pub' ∧ pub'.links[k]? = some link'
            ∧ link'.dropping = none) := by
  obtain ⟨l, hl⟩ := single_ok hs pub hpub hone
  have hbuf' : pub.qos.bufferSize < 2 ^ 32 - 1 := by
    rw [publisher_qos hs pub hpub hone]
    exact hbuf
  have hcounted := hl.counted
  have hactive := hl.active
  have hborrowed := hl.free.borrowed
  refine ⟨hactive, by omega, by omega, hl.budget, by omega, ?_, ?_, ?_, ?_⟩
  · intro offset v k link hpc hk
    exact hl.send_ok hbuf' hpc hk
  · intro link hlink x hx
    exact hl.return_ok hbuf' hlink hx
  · intro offset v k hpc
    exact hl.sendNext_returns hbuf' hone hpc
  · intro k link x hk hx
    exact hl.returnNext_returns hbuf' hk hx

/-- Two samples under way and a third being dropped, in a pool of four. -/
def threeLoans : List (Act 1) :=
  [.createPublisher, .createSubscriber, .connectNext 0, .connectNext 0,
   .publisher 0 .loan, .publisher 0 (.send ⟨64#64⟩), .publisher 0 .next, .publisher 0 .loan,
   .receive 0, .receiveNext 0, .dropSample 0 0 0 ⟨⟨64#64⟩, fun _ => 0#8⟩,
   .publisher 0 (.send ⟨72#64⟩), .publisher 0 .next, .publisher 0 .loan, .publisher 0 .loan]

theorem loan_accounting_three :
    ∃ s : Service 1, Reach Service.step anyStep (Service.init ⟨4, 3⟩) s
      ∧ ∃ pub ∈ s.publishers, pub.links.length ≤ 1 ∧ pub.loaned = 3
          ∧ pub.activeLoans.toNat = pub.segment.allocatedCount.toNat
          ∧ pub.activeLoans.toNat = pub.loaned - (pub.dropped + pub.reclaimed)
          ∧ (∀ link ∈ pub.links, ∀ x ∈ link.dropping,
              (link.channel.returnOffset x.offset).1 = true)
          ∧ (∀ (k : Nat) (link : Link 1) (x : Sample 1), pub.links[k]? = some link →
              x ∈ link.dropping →
              ∃ pub' link', pub.returnNext k = some pub' ∧ pub'.links[k]? = some link'
                ∧ link'.dropping = none) := by
  have hrun : (exec Service.step (Service.init ⟨4, 3⟩ : Service 1) threeLoans).map
      (fun s => s.publishers.any (fun pub =>
        decide (pub.links.length ≤ 1) && decide (pub.loaned = 3))) = some true := by decide
  obtain ⟨s, hs, hany⟩ := Option.map_eq_some_iff.mp hrun
  simp only [List.any_eq_true, Bool.and_eq_true, decide_eq_true_eq] at hany
  obtain ⟨pub, hpub, hone, hloaned⟩ := hany
  have hreach := Reach.of_exec threeLoans .refl hs
  obtain ⟨hactive, _, hcount, _, _, _, hret, _, hends⟩ :=
    loan_accounting ⟨4, 3⟩ (by decide) s hreach pub hpub hone
  exact ⟨s, hreach, pub, hpub, hone, hloaned, hactive, hcount, hret, hends⟩

end Entangle.PubSub
