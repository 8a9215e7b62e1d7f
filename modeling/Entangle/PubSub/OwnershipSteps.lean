/-
  Entangle.PubSub.OwnershipSteps — every step of a publisher and of the other
  ends of its channels keeps `PubOk` and is one of the cases of `Effect`.

  One lemma for each operation; `PubOk.step` puts them together along
  `Publisher.step_cases`.

  Main results:
    * `PubOk.step` — every step that meets `ExclusiveReclaim` keeps the
      ownership invariant, if `receive` is called on queues that count;
    * `single_step` — so does every step of a publisher with one channel.
-/
import Entangle.PubSub.Ownership

namespace Entangle.PubSub

open Entangle.Lib Entangle.Lockfree Entangle.Transport

variable {size : Nat} {scope : Scope}

/-! ## §1. Moves inside one channel. -/

/-- One channel changes in place, with the same chunks in it. -/
theorem PubOk.setLink {p : Publisher size} {l : List U32} (h : PubOk scope p l) {k : Nat}
    {link link' : Link size} (hk : p.links[k]? = some link)
    (hok : LinkOk scope p.qos p.segment l p.loans link')
    (halive : link'.alive = link.alive)
    (hmem : ∀ offset, offset ∈ link'.places scope ↔ offset ∈ link.places scope) :
    PubOk scope (p.setLink k link') l := by
  have hlinks : ∀ m ∈ p.links.set k link', LinkOk scope p.qos p.segment l p.loans m := by
    intro m hm
    rcases List.mem_or_eq_of_mem_set hm with hm | rfl
    · exact h.links m hm
    · exact hok
  refine ⟨h.free, h.fits, h.count, h.loansNodup, h.loansTaken, hlinks, ?_, h.active, h.counted,
    h.budget⟩
  have hhand := h.hand
  have hpc : (p.setLink k link').pc = p.pc := rfl
  have hlen : (p.setLink k link').links.length = p.links.length := List.length_set
  unfold HandOk at hhand ⊢
  rw [hpc]
  split
  next => trivial
  next offset value j hpc =>
    rw [hpc] at hhand
    obtain ⟨hj, htaken, hloan, hread, hplaces⟩ := hhand
    refine ⟨by omega, htaken, hloan, hread, fun i m hm => ?_⟩
    rcases set_cases hm with ⟨rfl, rfl⟩ | ⟨_, hold⟩
    · rw [hmem, Link.counts_congr halive]
      exact hplaces i link hk
    · exact hplaces i m hold
  next j hpc =>
    rw [hpc] at hhand
    have : j < p.links.length := hhand
    omega
  next j offset hpc =>
    rw [hpc] at hhand
    obtain ⟨hj, htaken, hloan, hplaces⟩ := hhand
    refine ⟨by omega, htaken, hloan, fun m hm => ?_⟩
    rcases List.mem_or_eq_of_mem_set hm with hm | rfl
    · exact hplaces m hm
    · rw [hmem]
      exact hplaces link (List.mem_of_getElem? hk)

/-- A channel whose chunks are the same ones, elsewhere in it. -/
theorem LinkOk.moved {qos : PubSubQos} {seg : DataSegment} {l : List U32}
    {loans : List PointerOffset} {link link' : Link size} (h : LinkOk scope qos seg l loans link)
    (hready : link'.channel.Ready) (hends : ZeroCopyChannel.SameEnds link.channel link'.channel)
    (hperm : (link'.places scope).Perm (link.places scope))
    (hflight : link'.counts scope = true →
      link'.channel.pending.map (seg.read size) = link'.inFlight)
    (hsamples : ∀ x ∈ link'.samples, seg.read size x.offset = x.sent)
    (hdropping : ∀ x ∈ link'.dropping, seg.read size x.offset = x.sent) :
    LinkOk scope qos seg l loans link' where
  ready := hready
  sendCapacity := hends.sendCapacity.trans h.sendCapacity
  returnCapacity := hends.returnCapacity.trans h.returnCapacity
  nodup := hperm.nodup_iff.mpr h.nodup
  taken := fun o ho => h.taken o (hperm.mem_iff.mp ho)
  unloaned := fun o ho => h.unloaned o (hperm.mem_iff.mp ho)
  inFlight := hflight
  samples := hsamples
  dropping := hdropping

/-- A channel that is not touched. -/
theorem sameEnds_refl (c : ZeroCopyChannel) : ZeroCopyChannel.SameEnds c c :=
  ⟨rfl, rfl⟩

/-- `receive` moves the oldest chunk of a send queue that counts into a sample, and
what it reads there is what was sent. -/
theorem PubOk.receive {p p' : Publisher size} {l : List U32} (h : PubOk scope p l) {k : Nat}
    (hcounted : ReceivesCounted scope p (.receive k)) (hs : p.receive k = some p') :
    Keeps scope p p' (.receive k) l l := by
  obtain ⟨link, hk, rfl⟩ := Option.map_eq_some_iff.mp hs
  have hl := h.links link (List.mem_of_getElem? hk)
  have hcounts : link.counts scope = true := hcounted link hk
  rcases ZeroCopyChannel.receive_cases hl.ready with
    ⟨_, hrecv⟩ | ⟨offset, rest, c', hrecv, hready, hpend, hpend', hret, hends⟩
  · rw [hrecv]
    exact ⟨h, rfl, rfl, .same rfl⟩
  · rw [hrecv]
    have hflight := hl.inFlight hcounts
    rw [hpend, List.map_cons] at hflight
    have hhead : link.inFlight.headD (p.segment.read size offset) = p.segment.read size offset := by
      rw [← hflight]
      rfl
    have hperm : (Link.places scope
        { link with
          channel := c'
          samples := ⟨offset, link.inFlight.headD (p.segment.read size offset)⟩ :: link.samples
          inFlight := link.inFlight.tail
          received := link.received ++ [p.segment.read size offset] }).Perm
        (link.places scope) := by
      rw [Link.places_of_counts hcounts, Link.places_of_counts]
      · simp only [hpend, hpend', hret, List.map_cons]
        exact List.perm_middle
      · exact hcounts
    refine ⟨h.setLink hk (hl.moved hready hends hperm ?_ ?_ hl.dropping) rfl
      (fun _ => hperm.mem_iff), rfl, rfl, .received k link _ (p.segment.read size offset) hk rfl
      ⟨hperm, ?_, rfl, ?_, rfl, rfl, rfl, rfl⟩⟩
    · intro _
      show c'.pending.map (p.segment.read size) = link.inFlight.tail
      rw [hpend', ← hflight]
      rfl
    · intro x hx
      rcases List.mem_cons.mp hx with rfl | hx
      · exact hhead.symm
      · exact hl.samples x hx
    · refine ⟨offset, ?_, ?_⟩
      · rw [hpend, hpend']
      · show ⟨offset, _⟩ :: link.samples = _
        rw [hhead]
    · show link.inFlight = _ :: link.inFlight.tail
      rw [← hflight]
      rfl

/-- The drop of a sample takes it out of the samples. -/
theorem PubOk.dropSample {p p' : Publisher size} {l : List U32} (h : PubOk scope p l) {k : Nat}
    {sample : Sample size} (hs : p.dropSample k sample = some p') :
    Keeps scope p p' (.dropSample k sample) l l := by
  obtain ⟨link, hk, hcond⟩ := Option.bind_eq_some_iff.mp hs
  split at hcond
  next hmem =>
    injection hcond with hcond
    subst hcond
    have hl := h.links link (List.mem_of_getElem? hk)
    have hperm : (Link.places scope
        { link with samples := link.samples.erase sample, dropping := some sample }).Perm
        (link.places scope) := by
      have hsplit := (List.perm_cons_erase hmem.1).map Sample.offset
      simp only [Link.places, Link.counts, hmem.2, Option.map_some, Option.map_none,
        Option.toList_some, Option.toList_none, List.nil_append]
      refine List.Perm.append_left _ ?_
      exact List.perm_middle.trans (hsplit.symm.append_right _)
    refine ⟨h.setLink hk ?_ rfl (fun _ => hperm.mem_iff), rfl, rfl,
      .dropBegun k link _ sample hk rfl ⟨hperm, rfl, rfl, rfl, rfl, rfl, rfl⟩
        (List.perm_cons_erase hmem.1) hmem.2 rfl⟩
    refine hl.moved hl.ready (sameEnds_refl _) hperm hl.inFlight ?_ ?_
    · exact fun x hx => hl.samples x (List.mem_of_mem_erase hx)
    · intro x hx
      obtain rfl : sample = x := Option.some.inj (Option.mem_def.mp hx)
      exact hl.samples sample hmem.1
  next => exact absurd hcond (by simp)

/-- A round of `return_offset` puts the offset into the return queue, or spins. -/
theorem PubOk.returnNext {p p' : Publisher size} {l : List U32} (h : PubOk scope p l) {k : Nat}
    (hs : p.returnNext k = some p') : Keeps scope p p' (.returnNext k) l l := by
  obtain ⟨link, hk, hdrop⟩ := Option.bind_eq_some_iff.mp hs
  obtain ⟨x, hx, rfl⟩ := Option.map_eq_some_iff.mp hdrop
  have hl := h.links link (List.mem_of_getElem? hk)
  rcases ZeroCopyChannel.returnOffset_cases hl.ready x.offset with
    ⟨_, hret⟩ | ⟨c', hret, hready, hret', hpend, hends, _⟩
  · rw [hret]
    exact ⟨h, rfl, rfl, .same rfl⟩
  · rw [hret]
    have hperm : (Link.places scope { link with channel := c', dropping := none }).Perm
        (link.places scope) := by
      simp only [Link.places, Link.counts, hpend, hret', hx, Option.map_some, Option.map_none,
        Option.toList_some, Option.toList_none, List.nil_append]
      refine List.Perm.append_left _ (List.Perm.append_left _ ?_)
      exact List.perm_append_comm
    refine ⟨h.setLink hk ?_ rfl (fun _ => hperm.mem_iff), rfl, rfl,
      .returned k link _ x rfl hk rfl ⟨hperm, hpend, rfl, rfl, rfl, rfl, rfl⟩ rfl hx rfl⟩
    refine hl.moved hready hends hperm ?_ hl.samples ?_
    · rw [hpend]
      exact hl.inFlight
    · intro y hy
      exact absurd hy (by simp)

/-! ## §2. Chunks that change hands. -/

/-- Taking a lent sample back from the list of loans. -/
theorem mem_erase_loans {p : Publisher size} {l : List U32} (h : PubOk scope p l)
    {offset o : PointerOffset} : o ∈ p.loans.erase offset ↔ o ≠ offset ∧ o ∈ p.loans :=
  h.loansNodup.mem_erase_iff

theorem PubOk.loan {p p' : Publisher size} {l : List U32} (h : PubOk scope p l)
    (hidle : p.pc = .idle) {r : Except LoanError PointerOffset} (hs : p.loan = some (r, p')) :
    ∃ l', Keeps scope p p' .loan l l' := by
  unfold Publisher.loan at hs
  split at hs
  next =>
    simp only [Option.some.injEq, Prod.mk.injEq] at hs
    rw [← hs.2]
    exact ⟨l, h, rfl, rfl, .same rfl⟩
  next hbudget =>
    cases l with
    | nil =>
        rw [DataSegment.allocate_err h.free] at hs
        simp only [Option.some.injEq, Prod.mk.injEq] at hs
        rw [← hs.2]
        exact ⟨[], h, rfl, rfl, .same rfl⟩
    | cons i rest =>
        obtain ⟨seg, halloc, hfree, hlayout, hmemory, hcount⟩ := DataSegment.allocate_ok h.free
        rw [halloc] at hs
        simp only [Option.some.injEq, Prod.mk.injEq] at hs
        obtain ⟨rfl, rfl⟩ := hs
        have hi := h.free.lt (List.mem_cons_self (a := i) (l := rest))
        have hrest : i ∉ rest := (List.nodup_cons.mp h.free.list.nodup).1
        have hchunk : Taken seg.layout rest (p.segment.layout.chunk i) := by
          rw [hlayout]
          exact ⟨i, hi, hrest, rfl⟩
        -- the other allocated chunks are not the new one, so zeroing leaves them alone
        have hother : ∀ o, Taken p.segment.layout (i :: rest) o →
            Taken (seg.write (p.segment.layout.chunk i) (fun _ : Fin size => 0#8)).layout rest o
              ∧ o ≠ p.segment.layout.chunk i
              ∧ (seg.write (p.segment.layout.chunk i) (fun _ : Fin size => 0#8)).read size o
                = p.segment.read size o := by
          intro o ho
          have hne := ho.ne_free hi
          have ho' : Taken seg.layout rest o := by
            rw [hlayout]
            exact ho.of_cons
          refine ⟨ho', hne, ?_⟩
          have hfits : size ≤ seg.layout.chunkSize := by
            rw [hlayout]
            exact h.fits
          rw [read_write_of_ne hfits hfits hchunk ho' hne]
          unfold DataSegment.read
          rw [hmemory]
        have hactive : (p.activeLoans + 1).toNat = p.activeLoans.toNat + 1 := by
          have hlt := seg.chunkCount_lt
          have hb := hfree.borrowed
          have ha := h.active
          rw [BitVec.toNat_add]
          exact Nat.mod_eq_of_lt (by show p.activeLoans.toNat + 1 < 2 ^ 64; omega)
        refine ⟨rest, ?_, hlayout, rfl, .lent i rfl rfl rfl rfl⟩
        constructor
        case free => exact hfree.write _ _
        case fits =>
          show size ≤ seg.layout.chunkSize
          rw [hlayout]
          exact h.fits
        case count =>
          show seg.layout.chunkCount = _
          rw [hlayout]
          exact h.count
        case loansNodup =>
          refine List.nodup_cons.mpr ⟨fun hm => ?_, h.loansNodup⟩
          exact (hother _ (h.loansTaken _ hm)).2.1 rfl
        case loansTaken =>
          intro o ho
          rcases List.mem_cons.mp ho with rfl | ho
          · exact hchunk
          · exact (hother o (h.loansTaken o ho)).1
        case links =>
          intro link hlink
          have hl := h.links link hlink
          refine hl.frame (fun o ho => (hother o (hl.taken o ho)).1) ?_
            (fun o ho => (hother o (hl.taken o ho)).2.2)
          intro o ho hm
          rcases List.mem_cons.mp hm with he | hm
          · exact (hother o (hl.taken o ho)).2.1 he
          · exact hl.unloaned o ho hm
        case hand =>
          unfold HandOk
          simp only [hidle]
        case active =>
          show (p.activeLoans + 1).toNat = seg.allocatedCount.toNat
          rw [hactive, hcount, h.active]
        case counted =>
          show p.loaned + 1 = p.dropped + p.reclaimed + (p.activeLoans + 1).toNat
          have := h.counted
          omega
        case budget =>
          show (p.activeLoans + 1).toNat ≤ p.qos.maxLoanedSamples
          omega

theorem PubOk.write {p : Publisher size} {l : List U32} (h : PubOk scope p l) (hidle : p.pc = .idle)
    {offset : PointerOffset} (hmem : offset ∈ p.loans) (v : Payload size) :
    PubOk scope { p with segment := p.segment.write offset v } l := by
  refine ⟨h.free.write _ _, h.fits, h.count, h.loansNodup, h.loansTaken, ?_, ?_, h.active,
    h.counted, h.budget⟩
  · intro link hlink
    have hl := h.links link hlink
    refine hl.frame hl.taken hl.unloaned (fun o ho => ?_)
    exact read_write_of_ne h.fits h.fits (h.loansTaken _ hmem) (hl.taken o ho)
      (fun he => hl.unloaned o ho (he ▸ hmem)) v
  · unfold HandOk
    simp only [hidle]

/-- The chunk of a sample that is sent leaves the loans. -/
theorem PubOk.eraseLoan {p : Publisher size} {l : List U32} (h : PubOk scope p l)
    (offset : PointerOffset) {link : Link size} (hlink : link ∈ p.links) :
    LinkOk scope p.qos p.segment l (p.loans.erase offset) link := by
  have hl := h.links link hlink
  exact hl.frame hl.taken (fun o ho hm => hl.unloaned o ho (List.mem_of_mem_erase hm))
    (fun _ _ => rfl)

theorem PubOk.send {p : Publisher size} {l : List U32} (h : PubOk scope p l) (hidle : p.pc = .idle)
    {offset : PointerOffset} (hmem : offset ∈ p.loans) :
    Keeps scope p (p.send offset) (.send offset) l l := by
  have htaken : ∀ o ∈ p.loans.erase offset, Taken p.segment.layout l o :=
    fun o ho => h.loansTaken o (List.mem_of_mem_erase ho)
  unfold Publisher.send
  dsimp only
  split
  next hnil =>
    refine ⟨⟨h.free, h.fits, h.count, h.loansNodup.erase _, htaken, ?_, ?_, h.active, h.counted,
      h.budget⟩, rfl, rfl, .sentNowhere offset _ rfl hmem hnil hnil rfl hidle hidle⟩
    · exact fun link hlink => h.eraseLoan offset hlink
    · unfold HandOk
      simp only [hidle]
  next hne =>
    refine ⟨⟨h.free, h.fits, h.count, h.loansNodup.erase _, htaken, ?_, ?_, h.active, h.counted,
      h.budget⟩, rfl, rfl, .sendBegun offset _ rfl rfl rfl rfl rfl hidle⟩
    · exact fun link hlink => h.eraseLoan offset hlink
    · refine ⟨List.length_pos_iff.mpr hne, h.loansTaken _ hmem, ?_, rfl, fun j link hj => ?_⟩
      · exact fun hm => ((mem_erase_loans h).mp hm).1 rfl
      · constructor
        · intro hplace
          exact absurd hmem ((h.links link (List.mem_of_getElem? hj)).unloaned _ hplace)
        · intro _ hlt
          exact absurd hlt (Nat.not_lt_zero _)

/-- A channel that is sent one more chunk has it, if its send queue counts. -/
theorem LinkOk.pushed {qos : PubSubQos} {seg : DataSegment} {l : List U32}
    {loans : List PointerOffset} {link : Link size} (h : LinkOk scope qos seg l loans link)
    {offset : PointerOffset} {c : ZeroCopyChannel} (hready : c.Ready)
    (hends : ZeroCopyChannel.SameEnds link.channel c)
    (hpend : c.pending = link.channel.pending ++ [offset])
    (hret : c.returned = link.channel.returned)
    (hnew : offset ∉ link.places scope)
    (htaken : Taken seg.layout l offset) (hloan : offset ∉ loans) :
    LinkOk scope qos seg l loans
        { link with channel := c, inFlight := link.inFlight ++ [seg.read size offset] }
      ∧ link.Extended scope
        { link with channel := c, inFlight := link.inFlight ++ [seg.read size offset] }
        (if link.counts scope then [offset] else []) := by
  have hperm : (Link.places scope
      { link with channel := c, inFlight := link.inFlight ++ [seg.read size offset] }).Perm
      ((if link.counts scope then [offset] else []) ++ link.places scope) := by
    cases hcounts : link.counts scope with
    | true =>
        rw [Link.places_of_counts hcounts, Link.places_of_counts]
        · simp only [hpend, hret, List.append_assoc, List.singleton_append, if_true]
          exact List.perm_middle
        · exact hcounts
    | false =>
        rw [Link.places_of_not_counts hcounts, Link.places_of_not_counts]
        · simp only [hret]
          exact List.Perm.refl _
        · exact hcounts
  have hmem : ∀ o, o ∈ Link.places scope
      { link with channel := c, inFlight := link.inFlight ++ [seg.read size offset] } →
      o = offset ∨ o ∈ link.places scope := by
    intro o ho
    rcases List.mem_append.mp (hperm.mem_iff.mp ho) with ho | ho
    · split at ho
      next => exact .inl (List.mem_singleton.mp ho)
      next => exact absurd ho (by simp)
    · exact .inr ho
  refine ⟨⟨hready, hends.sendCapacity.trans h.sendCapacity,
    hends.returnCapacity.trans h.returnCapacity, ?_, ?_, ?_, ?_, h.samples, h.dropping⟩,
    ⟨hperm, rfl, rfl, rfl, rfl, rfl, rfl⟩⟩
  · rw [hperm.nodup_iff]
    split
    next => exact List.nodup_cons.mpr ⟨hnew, h.nodup⟩
    next => exact h.nodup
  · intro o ho
    rcases hmem o ho with rfl | ho
    · exact htaken
    · exact h.taken o ho
  · intro o ho
    rcases hmem o ho with rfl | ho
    · exact hloan
    · exact h.unloaned o ho
  · intro hcounts
    show c.pending.map (seg.read size) = link.inFlight ++ [seg.read size offset]
    rw [hpend, List.map_append, h.inFlight hcounts]
    rfl

theorem PubOk.sendNext {p p' : Publisher size} {l : List U32} (h : PubOk scope p l)
    {offset : PointerOffset} {v : Payload size} {k : Nat} (hpc : p.pc = .sending offset v k)
    (hs : p.sendNext offset v k = some p') : Keeps scope p p' .next l l := by
  obtain ⟨link, hk, rfl⟩ := Option.map_eq_some_iff.mp hs
  have hl := h.links link (List.mem_of_getElem? hk)
  have hhand := h.hand
  unfold HandOk at hhand
  rw [hpc] at hhand
  obtain ⟨hlt, htaken, hloan, hread, hplaces⟩ := hhand
  rcases ZeroCopyChannel.send_cases hl.ready offset with
    ⟨hfull, hsend⟩ | ⟨c', hsend, hready, hpend, hret, hends, hroom⟩
  · rw [hsend]
    exact ⟨⟨h.free, h.fits, h.count, h.loansNodup, h.loansTaken, h.links, trivial, h.active,
      h.counted, h.budget⟩, rfl, rfl, .sendFailed offset v k link rfl hpc hk hfull rfl rfl rfl rfl⟩
  · rw [hsend]
    have hnew : offset ∉ link.places scope :=
      fun hm => Nat.lt_irrefl k ((hplaces k link hk).1 hm)
    obtain ⟨hok, hext⟩ := hl.pushed hready hends hpend hret hnew htaken hloan
    rw [hread] at hok hext
    have hlinks : ∀ m ∈ p.links.set k { link with channel := c', inFlight := link.inFlight ++ [v] },
        LinkOk scope p.qos p.segment l p.loans m := by
      intro m hm
      rcases List.mem_or_eq_of_mem_set hm with hm | rfl
      · exact h.links m hm
      · exact hok
    dsimp only
    split
    next hmore =>
      refine ⟨⟨h.free, h.fits, h.count, h.loansNodup, h.loansTaken, hlinks, ?_, h.active,
        h.counted, h.budget⟩, rfl, rfl, .pushed offset v k link _ rfl hpc hk rfl rfl hext rfl hroom
        (.inl ⟨hmore, rfl, rfl⟩)⟩
      refine ⟨?_, htaken, hloan, hread, fun j m hm => ?_⟩
      · show k + 1 < (p.links.set k _).length
        rw [List.length_set]
        exact hmore
      · rcases set_cases hm with ⟨rfl, rfl⟩ | ⟨hjk, hold⟩
        · refine ⟨fun _ => Nat.lt_succ_self j, fun hcounts _ => hext.perm.mem_iff.mpr ?_⟩
          rw [if_pos]
          · exact List.mem_cons_self
          · exact hcounts
        · obtain ⟨hbefore, hafter⟩ := hplaces j m hold
          refine ⟨fun hm => ?_, fun hcounts hlt => hafter hcounts (by omega)⟩
          have := hbefore hm
          omega
    next hlast =>
      exact ⟨⟨h.free, h.fits, h.count, h.loansNodup, h.loansTaken, hlinks, trivial, h.active,
        h.counted, h.budget⟩, rfl, rfl, .pushed offset v k link _ rfl hpc hk rfl rfl hext rfl hroom
        (.inr ⟨by omega, rfl, rfl⟩)⟩

/-- Deallocating a chunk that is in nobody's hands any more. -/
theorem PubOk.release {p p' : Publisher size} {l : List U32} (h : PubOk scope p l)
    {offset : PointerOffset} (htaken : Taken p.segment.layout l offset)
    (hplaces : ∀ link ∈ p.links, offset ∉ link.places scope) (hs : p.release offset = some p') :
    ∃ i, offset = p.segment.layout.chunk i
      ∧ p' = { p with segment := p'.segment, activeLoans := p'.activeLoans }
      ∧ p'.segment.layout = p.segment.layout
      ∧ p'.segment.Free (i :: l)
      ∧ p'.activeLoans.toNat + 1 = p.activeLoans.toNat
      ∧ p'.activeLoans.toNat = p'.segment.allocatedCount.toNat
      ∧ (∀ o, Taken p.segment.layout l o → o ≠ offset → Taken p'.segment.layout (i :: l) o)
      ∧ ∀ loans, (∀ o ∈ loans, o ∈ p.loans) → ∀ link ∈ p.links,
          LinkOk scope p.qos p'.segment (i :: l) loans link := by
  obtain ⟨i, hi, hil, rfl⟩ := htaken
  obtain ⟨seg, hdealloc, hfree, hlayout, hmemory, hcount⟩ :=
    DataSegment.deallocate_ok h.free hi hil
  unfold Publisher.release at hs
  rw [hdealloc, Option.map_some] at hs
  injection hs with hs
  subst hs
  have hactive : (p.activeLoans - 1).toNat = p.activeLoans.toNat - 1 :=
    BitVec.toNat_sub_of_le (show (1#64).toNat ≤ _ by
      have := h.active
      show 1 ≤ p.activeLoans.toNat
      omega)
  have ha := h.active
  have hkeep : ∀ o, Taken p.segment.layout l o → o ≠ p.segment.layout.chunk i →
      Taken seg.layout (i :: l) o := by
    intro o ho hne
    rw [hlayout]
    exact ho.cons hne
  refine ⟨i, rfl, rfl, hlayout, hfree, ?_, ?_, hkeep, ?_⟩
  · show (p.activeLoans - 1).toNat + 1 = _
    omega
  · show (p.activeLoans - 1).toNat = seg.allocatedCount.toNat
    omega
  · intro loans hsub link hlink
    have hl := h.links link hlink
    refine hl.frame (fun o ho => hkeep o (hl.taken o ho) ?_)
      (fun o ho hm => hl.unloaned o ho (hsub o hm)) (fun o _ => ?_)
    · exact fun he => hplaces link hlink (he ▸ ho)
    · show readAt size seg.memory o.offset = _
      rw [hmemory]
      rfl

theorem PubOk.dropMut {p p' : Publisher size} {l : List U32} (h : PubOk scope p l)
    (hidle : p.pc = .idle) {offset : PointerOffset} (hmem : offset ∈ p.loans)
    (hs : p.release offset = some p') :
    ∃ l', Keeps scope p { p' with loans := p.loans.erase offset, dropped := p.dropped + 1 }
      (.dropMut offset) l l' := by
  obtain ⟨i, rfl, hp', hlayout, hfree, hcount, hactive, hkeep, hlinks⟩ :=
    h.release (h.loansTaken _ hmem)
      (fun link hlink hplace => (h.links link hlink).unloaned _ hplace hmem) hs
  rw [hp']
  refine ⟨i :: l, ?_, hlayout, rfl, .dropped i hmem rfl rfl rfl rfl⟩
  constructor
  case free => exact hfree
  case active => exact hactive
  case loansNodup => exact h.loansNodup.erase _
  case fits =>
    show size ≤ p'.segment.layout.chunkSize
    rw [hlayout]
    exact h.fits
  case count =>
    show p'.segment.layout.chunkCount = _
    rw [hlayout]
    exact h.count
  case loansTaken =>
    intro o ho
    obtain ⟨hne, ho⟩ := (mem_erase_loans h).mp ho
    exact hkeep o (h.loansTaken o ho) hne
  case links =>
    exact hlinks _ (fun o ho => List.mem_of_mem_erase ho)
  case hand =>
    unfold HandOk
    simp only [hidle]
  case counted =>
    show p.loaned = p.dropped + 1 + p.reclaimed + p'.activeLoans.toNat
    have := h.counted
    omega
  case budget =>
    show p'.activeLoans.toNat ≤ p.qos.maxLoanedSamples
    have := h.budget
    omega

theorem PubOk.released {p p' : Publisher size} {l : List U32} (h : PubOk scope p l) {k : Nat}
    {offset : PointerOffset} (hpc : p.pc = .releasing k offset) (hs : p.release offset = some p') :
    ∃ l',
      Keeps scope p { p' with pc := .reclaiming k, reclaimed := p.reclaimed + 1 } .next l l' := by
  have hhand := h.hand
  unfold HandOk at hhand
  rw [hpc] at hhand
  obtain ⟨hk, htaken, hloan, hplaces⟩ := hhand
  obtain ⟨i, rfl, hp', hlayout, hfree, hcount, hactive, hkeep, hlinks⟩ :=
    h.release htaken hplaces hs
  rw [hp']
  refine ⟨i :: l, ?_, hlayout, rfl, .released i k hpc rfl rfl rfl rfl⟩
  constructor
  case free => exact hfree
  case hand => exact hk
  case active => exact hactive
  case loansNodup => exact h.loansNodup
  case fits =>
    show size ≤ p'.segment.layout.chunkSize
    rw [hlayout]
    exact h.fits
  case count =>
    show p'.segment.layout.chunkCount = _
    rw [hlayout]
    exact h.count
  case loansTaken =>
    intro o ho
    exact hkeep o (h.loansTaken o ho) (fun he => hloan (he ▸ ho))
  case links =>
    exact hlinks _ (fun o ho => ho)
  case counted =>
    show p.loaned = p.dropped + (p.reclaimed + 1) + p'.activeLoans.toNat
    have := h.counted
    omega
  case budget =>
    show p'.activeLoans.toNat ≤ p.qos.maxLoanedSamples
    have := h.budget
    omega

/-- A round of `reclaim` that takes an offset no other channel holds. -/
theorem PubOk.reclaimNext {p p' : Publisher size} {l : List U32} (h : PubOk scope p l) {k : Nat}
    (hpc : p.pc = .reclaiming k) (hok : ExclusiveReclaim scope p .next)
    (hs : p.reclaimNext k = some p') : Keeps scope p p' .next l l := by
  obtain ⟨link, hk, rfl⟩ := Option.map_eq_some_iff.mp hs
  have hl := h.links link (List.mem_of_getElem? hk)
  have hlt := (List.getElem?_eq_some_iff.mp hk).1
  rcases ZeroCopyChannel.reclaim_cases hl.ready with
    ⟨_, hrecl⟩ | ⟨offset, rest, c', hrecl, hready, hret, hret', hpend, hends⟩
  · rw [hrecl]
    refine ⟨⟨h.free, h.fits, h.count, h.loansNodup, h.loansTaken, h.links, ?_, h.active, h.counted,
      h.budget⟩, rfl, rfl, .reclaimMoved rfl rfl rfl (.inr ⟨k, hpc⟩) ?_⟩
    · unfold HandOk
      dsimp only
      split
      next => trivial
      next _ _ _ he =>
        split at he <;> simp at he
      next j he =>
        split at he
        next hmore =>
          injection he with he
          omega
        next => exact absurd he (by simp)
      next _ _ he =>
        split at he <;> simp at he
    · dsimp only
      split
      next => exact .inr ⟨_, rfl⟩
      next => exact .inl rfl
  · rw [hrecl]
    have hperm : (link.places scope).Perm
        (offset :: Link.places scope { link with channel := c' }) := by
      simp only [Link.places, Link.counts, hpend, hret, hret']
      rw [← List.append_assoc, ← List.append_assoc, ← List.append_assoc, ← List.append_assoc]
      exact List.perm_middle
    have hnodup := hperm.nodup_iff.mp hl.nodup
    have hmem : offset ∈ link.places scope := hperm.mem_iff.mpr List.mem_cons_self
    have hsub : ∀ o ∈ Link.places scope { link with channel := c' }, o ∈ link.places scope :=
      fun o ho => hperm.mem_iff.mpr (List.mem_cons_of_mem _ ho)
    have hok' : LinkOk scope p.qos p.segment l p.loans { link with channel := c' } := by
      refine ⟨hready, hends.sendCapacity.trans hl.sendCapacity, ?_,
        (List.nodup_cons.mp hnodup).2, fun o ho => hl.taken o (hsub o ho),
        fun o ho => hl.unloaned o (hsub o ho), ?_, hl.samples, hl.dropping⟩
      · exact hends.returnCapacity.trans hl.returnCapacity
      · rw [hpend]
        exact hl.inFlight
    refine ⟨⟨h.free, h.fits, h.count, h.loansNodup, h.loansTaken, ?_, ?_, h.active, h.counted,
      h.budget⟩, rfl, rfl, .reclaimed offset k link _ hpc hk rfl rfl
        ⟨hperm, rfl, rfl, rfl, rfl, rfl, rfl⟩ hpend rfl rfl rfl⟩
    · intro m hm
      rcases List.mem_or_eq_of_mem_set hm with hm | rfl
      · exact h.links m hm
      · exact hok'
    · refine ⟨?_, hl.taken offset hmem, hl.unloaned offset hmem, fun m hm hplace => ?_⟩
      · show k < (p.links.set k _).length
        rw [List.length_set]
        exact hlt
      · -- `m` is another channel, or this one without the offset
        obtain ⟨j, hj⟩ := List.mem_iff_getElem?.mp hm
        rcases set_cases hj with ⟨rfl, rfl⟩ | ⟨hjk, hold⟩
        · exact (List.nodup_cons.mp hnodup).1 hplace
        · have hrec : p.reclaimable = some (k, offset) := by
            unfold Publisher.reclaimable
            simp only [hpc, hk, Option.bind_some, hrecl, Option.map_some]
          refine hok _ hrec m ?_ hplace
          exact List.mem_eraseIdx_iff_getElem?.mpr ⟨j, hjk, hold⟩

/-! ## §3. Connections, and every step. -/

theorem PubOk.connect {p : Publisher size} {l : List U32} (h : PubOk scope p l)
    (hidle : p.pc = .idle) (subscriber : Nat) : PubOk scope (p.connect subscriber) l := by
  refine ⟨h.free, h.fits, h.count, h.loansNodup, h.loansTaken, ?_, ?_, h.active, h.counted,
    h.budget⟩
  · intro link hlink
    rcases List.mem_append.mp hlink with hlink | hlink
    · exact h.links link hlink
    · rw [List.mem_singleton.mp hlink]
      refine ⟨ZeroCopyChannel.new_ready _, rfl, rfl, ?_, ?_, ?_, ?_, ?_, ?_⟩ <;>
        simp [Link.places]
  · unfold HandOk
    simp only [Publisher.connect, hidle]

/-- Closing changes nobody's chunks. -/
theorem mem_close {p : Publisher size} {subscriber : Nat} {link : Link size}
    (h : link ∈ (p.close subscriber).links) :
    ∃ link₀ ∈ p.links, link = { link₀ with alive := link.alive } := by
  obtain ⟨link₀, hmem, rfl⟩ := List.mem_map.mp h
  refine ⟨link₀, hmem, ?_⟩
  split <;> rfl

/-- A channel whose subscriber goes away has at most the chunks it had. -/
theorem Link.closed_sublist (link : Link size) :
    (Link.places scope { link with alive := false }).Sublist (link.places scope) := by
  refine List.Sublist.append ?_ (List.Sublist.refl _)
  cases scope with
  | all => exact List.Sublist.refl _
  | live => exact List.nil_sublist _

/-- If its queue counts after that, it has all the chunks it had. -/
theorem Link.closed_of_counts {link : Link size}
    (h : Link.counts scope { link with alive := false } = true) :
    link.counts scope = true
      ∧ Link.places scope { link with alive := false } = link.places scope := by
  cases scope with
  | all => exact ⟨rfl, rfl⟩
  | live => exact absurd h Bool.false_ne_true

theorem LinkOk.closed {qos : PubSubQos} {seg : DataSegment} {l : List U32}
    {loans : List PointerOffset} {link : Link size} (h : LinkOk scope qos seg l loans link) :
    LinkOk scope qos seg l loans { link with alive := false } where
  ready := h.ready
  sendCapacity := h.sendCapacity
  returnCapacity := h.returnCapacity
  nodup := link.closed_sublist.nodup h.nodup
  taken := fun o ho => h.taken o (link.closed_sublist.subset ho)
  unloaned := fun o ho => h.unloaned o (link.closed_sublist.subset ho)
  inFlight := fun hcounts => h.inFlight (Link.closed_of_counts hcounts).1
  samples := h.samples
  dropping := h.dropping

theorem PubOk.close {p : Publisher size} {l : List U32} (h : PubOk scope p l) (subscriber : Nat) :
    PubOk scope (p.close subscriber) l := by
  have hlen : (p.close subscriber).links.length = p.links.length := List.length_map _
  refine ⟨h.free, h.fits, h.count, h.loansNodup, h.loansTaken, ?_, ?_, h.active, h.counted,
    h.budget⟩
  · intro link hlink
    obtain ⟨link₀, hmem, rfl⟩ := List.mem_map.mp hlink
    split
    next => exact (h.links link₀ hmem).closed
    next => exact h.links link₀ hmem
  · have hhand := h.hand
    have hpc : (p.close subscriber).pc = p.pc := rfl
    unfold HandOk at hhand ⊢
    rw [hpc]
    split
    next => trivial
    next offset value k hpc =>
      rw [hpc] at hhand
      obtain ⟨hk, htaken, hloan, hread, hplaces⟩ := hhand
      refine ⟨by omega, htaken, hloan, hread, fun j link hj => ?_⟩
      have hj' : (p.links.map _)[j]? = some link := hj
      rw [List.getElem?_map] at hj'
      obtain ⟨link₀, hj₀, rfl⟩ := Option.map_eq_some_iff.mp hj'
      obtain ⟨hbefore, hafter⟩ := hplaces j link₀ hj₀
      split
      next =>
        refine ⟨fun hm => hbefore (link₀.closed_sublist.subset hm), fun hcounts => ?_⟩
        obtain ⟨hcounted, hsame⟩ := Link.closed_of_counts hcounts
        rw [hsame]
        exact hafter hcounted
      next => exact ⟨hbefore, hafter⟩
    next k hpc =>
      rw [hpc] at hhand
      have : k < p.links.length := hhand
      omega
    next k offset hpc =>
      rw [hpc] at hhand
      obtain ⟨hk, htaken, hloan, hplaces⟩ := hhand
      refine ⟨by omega, htaken, hloan, fun link hlink => ?_⟩
      obtain ⟨link₀, hmem, rfl⟩ := List.mem_map.mp hlink
      split
      next => exact fun hm => hplaces link₀ hmem (link₀.closed_sublist.subset hm)
      next => exact hplaces link₀ hmem

/-- **The step lemma**: ownership is kept, and the step does one of the things
`Effect` lists. -/
theorem PubOk.step {p p' : Publisher size} {l : List U32} {a : PublisherAct size}
    (h : PubOk scope p l) (hok : ExclusiveReclaim scope p a) (hcounted : ReceivesCounted scope p a)
    (hs : p.step a = some p') : ∃ l', Keeps scope p p' a l l' := by
  cases Publisher.step_cases hs with
  | loan result _ hidle hloan => exact h.loan hidle hloan
  | write offset value hidle hmem =>
      exact ⟨l, h.write hidle hmem value, rfl, rfl, .wrote rfl rfl rfl rfl⟩
  | send offset hidle hmem => exact ⟨l, h.send hidle hmem⟩
  | dropMut offset q hidle hmem hq => exact h.dropMut hidle hmem hq
  | reclaimNothing _ _ => exact ⟨l, h, rfl, rfl, .same rfl⟩
  | reclaim hidle hne =>
      exact ⟨l, ⟨h.free, h.fits, h.count, h.loansNodup, h.loansTaken, h.links,
        List.length_pos_iff.mpr hne, h.active, h.counted, h.budget⟩, rfl, rfl,
        .reclaimMoved rfl rfl rfl (.inl hidle) (.inr ⟨0, rfl⟩)⟩
  | sendNext offset value k _ hpc hnext => exact ⟨l, h.sendNext hpc hnext⟩
  | reclaimNext k _ hpc hnext => exact ⟨l, h.reclaimNext hpc hok hnext⟩
  | released k offset q hpc hq => exact h.released hpc hq
  | connect subscriber hidle =>
      exact ⟨l, h.connect hidle subscriber, rfl, rfl, .connected subscriber rfl hidle⟩
  | receive k _ hnext => exact ⟨l, h.receive hcounted hnext⟩
  | dropSample k sample _ hnext => exact ⟨l, h.dropSample hnext⟩
  | returnNext k _ hnext => exact ⟨l, h.returnNext hnext⟩
  | close subscriber =>
      exact ⟨l, h.close subscriber, rfl, rfl, .closed subscriber rfl rfl⟩

/-- A publisher with at most one channel has had at most one all along, so its
ownership is in order whatever the steps were. -/
theorem single_step {p p' : Publisher size} {a : PublisherAct size}
    (h : p.links.length ≤ 1 → ∃ l, PubOk .all p l) (hs : p.step a = some p')
    (hone : p'.links.length ≤ 1) : ∃ l l', PubOk .all p l ∧ Keeps .all p p' a l l' := by
  have hone' : p.links.length ≤ 1 := (links_length_le hs).trans hone
  obtain ⟨l, hl⟩ := h hone'
  obtain ⟨l', hl'⟩ := hl.step (exclusiveReclaim_of_single hl hone' a) (receivesCounted_all p a) hs
  exact ⟨l, l', hl, hl'⟩

end Entangle.PubSub
