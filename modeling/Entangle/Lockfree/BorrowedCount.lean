/-
  Entangle.Lockfree.BorrowedCount — the counter `borrowed` of `UniqueIndexSet`
  (entangle-lockfree/src/index_set.rs), any number of threads interleaved.

  `acquire` adds to the counter after its compare-exchange and `release`
  subtracts after its own, so the counter runs behind the free list on both
  sides.  An index is counted from the addition of the `acquire` that has handed
  it out to the subtraction of the `release` that takes it back: at every moment
  the counter is the number of held indices plus the number of releases that
  have begun and not yet subtracted.

  Main results:
    * `Counted.step` — every step keeps that equation, in the 32-bit word;
    * `borrowed_counts` — the counter neither wraps nor under-reports.
-/
import Entangle.Lib.Counting
import Entangle.Lockfree.IndexSetSteps

namespace Entangle.Lockfree.IndexSetSteps

open Entangle.Lib

/-! ## §1. Releases. -/

/-- The thread is inside `release`, before its subtraction. -/
def Pc.inRelease : Pc → Bool
  | .relCalled _ | .relRead _ _ _ | .relStored _ _ _ | .relWon => true
  | _ => false

/-- Its compare-exchange has succeeded. -/
def Pc.hasReleased : Pc → Bool
  | .relWon => true
  | _ => false

variable {Tid : Type} [DecidableEq Tid] [Fintype Tid]

/-- The releases that have begun and not yet subtracted. -/
def State.releases (s : State Tid) : Nat := countAt Pc.inRelease s.pc

omit [DecidableEq Tid] [Fintype Tid] in
theorem Pc.not_inRelease_of_resting {pc : Pc} (hrest : pc.resting = true) :
    pc.inRelease = false := by
  cases pc with
  | idle => rfl
  | acqFailed => rfl
  | _ => exact absurd hrest (by simp [Pc.resting])

/-! ## §2. The counter. -/

/-- The counter is the number of held indices and of open releases, in 32 bits. -/
def Counted (s : State Tid) : Prop :=
  s.set.borrowed = BitVec.ofNat 32 (s.held.length + s.releases)

theorem Counted.keep {s s' : State Tid} {t : Tid} {pc' : Pc} (h : Counted s)
    (hborrowed : s'.set.borrowed = s.set.borrowed) (hheld : s'.held = s.held)
    (hpc : s'.pc = Function.update s.pc t pc') (hin : pc'.inRelease = (s.pc t).inRelease) :
    Counted s' := by
  unfold Counted State.releases at h ⊢
  rw [hborrowed, hheld, hpc, countAt_same hin]
  exact h

theorem Counted.acquireRead {s : State Tid} (h : Counted s) (t : Tid)
    (hin : (s.pc t).inRelease = false) : Counted (s.acquireRead t) := by
  unfold State.acquireRead
  split
  next => exact h.keep rfl rfl rfl hin.symm
  next => exact h.keep rfl rfl rfl hin.symm

/-- **The step lemma**: the addition comes with a held index, the subtraction
with the end of a release. -/
theorem Counted.step {s s' : State Tid} {l : List U32} {a : Act Tid} (h : Counted s)
    (hinv : Inv s l) (hs : step s a = some s') : Counted s' := by
  cases step_cases hs with
  | acquire t hrest => exact h.acquireRead t (Pc.not_inRelease_of_resting hrest)
  | release t i hrest hi =>
      have hlen := List.length_erase_add_one hi
      have hopen : countAt Pc.inRelease (Function.update s.pc t (.relCalled i))
          = countAt Pc.inRelease s.pc + 1 :=
        countAt_gains (Pc.not_inRelease_of_resting hrest) rfl
      unfold Counted State.releases at h ⊢
      rw [h, hopen, ← hlen, Nat.add_right_comm, Nat.add_assoc]
  | acqRead t spurious old ver n hpc _ => exact h.keep rfl rfl rfl (by rw [hpc]; rfl)
  | acqPanic t spurious old ver hpc _ => exact h.keep rfl rfl rfl (by rw [hpc]; rfl)
  | acqExchange t ver n hpc => exact h.keep rfl rfl rfl (by rw [hpc]; rfl)
  | acqRetry t spurious old ver n hpc _ => exact h.acquireRead t (by rw [hpc]; rfl)
  | acqReturn t spurious i hpc =>
      have hsame : countAt Pc.inRelease (Function.update s.pc t .idle)
          = countAt Pc.inRelease s.pc := countAt_same (by rw [hpc]; rfl)
      unfold Counted State.releases at h ⊢
      rw [h, hsame, List.length_cons, Nat.add_right_comm, ofNat_succ]
  | relCalled t spurious i hpc => exact h.keep rfl rfl rfl (by rw [hpc]; rfl)
  | relStore t spurious i old ver hpc _ => exact h.keep rfl rfl rfl (by rw [hpc]; rfl)
  | relPanic t spurious i old ver hpc hout =>
      -- an index that is being released is below the capacity
      have hrel : (s.pc t).releasing = some i := by rw [hpc]; rfl
      exact absurd (hinv.partition.inDom i (.releasing t) hrel) hout
  | relExchange t i ver hpc => exact h.keep rfl rfl rfl (by rw [hpc]; rfl)
  | relRetry t spurious i old ver hpc _ => exact h.keep rfl rfl rfl (by rw [hpc]; rfl)
  | relReturn t spurious hpc =>
      have hclosed : countAt Pc.inRelease (Function.update s.pc t .idle) + 1
          = countAt Pc.inRelease s.pc := countAt_loses (by rw [hpc]; rfl) rfl
      unfold Counted State.releases at h ⊢
      rw [h, ← hclosed, ← Nat.add_assoc, ofNat_succ, BitVec.add_sub_cancel]

omit [DecidableEq Tid] in
theorem counted_init (capacity : Nat) (hpos : 0 < capacity) (hlt : capacity < SENTINEL.toNat) :
    Counted (init (UniqueIndexSet.new capacity hpos hlt) : State Tid) := by
  have hnone : countAt Pc.inRelease (init (UniqueIndexSet.new capacity hpos hlt) : State Tid).pc
      = 0 := countAt_eq_zero (fun _ => rfl)
  unfold Counted State.releases
  rw [hnone]
  rfl

theorem counted_of_reach {capacity : Nat} {hpos : 0 < capacity}
    {hlt : capacity < SENTINEL.toNat} {s : State Tid}
    (h : Reach step fewUpdates (init (UniqueIndexSet.new capacity hpos hlt)) s) : Counted s := by
  refine h.invariant_of_reach Counted (counted_init capacity hpos hlt) ?_
  intro s a s' hr hcounted _ hs
  obtain ⟨_, l, hinv⟩ := reach_inv hr
  exact hcounted.step hinv hs

/-! ## §3. How many indices there are in each place. -/

omit [DecidableEq Tid] [Fintype Tid] in
theorem Inv.held_lt {s : State Tid} {l : List U32} (hinv : Inv s l) :
    ∀ i ∈ s.held, i.toNat < s.set.capacity :=
  fun i hi => hinv.partition.inDom i .held hi

omit [DecidableEq Tid] [Fintype Tid] in
/-- An index that has just been acquired is not held, so there is room for it. -/
theorem Inv.held_length_lt {s : State Tid} {l : List U32} (hinv : Inv s l) {t : Tid} {i : U32}
    (hpc : s.pc t = .acqWon i) : s.held.length + 1 ≤ s.set.capacity := by
  have hat : At s l i (.acquiring t) := by
    show (s.pc t).acquired = some i
    rw [hpc]
    rfl
  have hnot : i ∉ s.held := hinv.partition.not_at (q := .held) hat (by simp)
  have hnodup : (i :: s.held).Nodup := List.nodup_cons.mpr ⟨hnot, hinv.heldNodup⟩
  refine length_le_of_nodup_lt hnodup ?_
  intro j hj
  rcases List.mem_cons.mp hj with rfl | hj
  · exact hinv.partition.inDom j (.acquiring t) hat
  · exact hinv.held_lt j hj

omit [DecidableEq Tid] in
/-- Held indices and indices being released are different indices. -/
theorem Inv.held_add_releasing_le {s : State Tid} {l : List U32} (hinv : Inv s l) :
    s.held.length + countAt (fun pc : Pc => pc.releasing.isSome) s.pc ≤ s.set.capacity := by
  -- the threads that are releasing, and what they release
  let threads := (Finset.univ.filter (fun t => (s.pc t).releasing.isSome = true)).toList
  let index := fun t => (s.pc t).releasing.getD 0#32
  have hat : ∀ t ∈ threads, At s l (index t) (.releasing t) := by
    intro t ht
    have hsome := (Finset.mem_filter.mp (Finset.mem_toList.mp ht)).2
    obtain ⟨i, hi⟩ := Option.isSome_iff_exists.mp hsome
    show (s.pc t).releasing = some ((s.pc t).releasing.getD 0#32)
    rw [hi]
    rfl
  have hreleasing : (threads.map index).Nodup := by
    refine (List.nodup_map_iff_inj_on (Finset.nodup_toList _)).mpr ?_
    intro t ht u hu he
    have hu' := hat u hu
    rw [← he] at hu'
    exact Place.releasing.inj (hinv.partition.single _ _ _ (hat t ht) hu')
  have hnodup : (s.held ++ threads.map index).Nodup := by
    refine List.nodup_append'.mpr ⟨hinv.heldNodup, hreleasing, ?_⟩
    intro i hheld hi
    obtain ⟨t, ht, rfl⟩ := List.mem_map.mp hi
    exact hinv.partition.not_at (p := .releasing t) (q := .held) (hat t ht) (by simp) hheld
  have hlen : (s.held ++ threads.map index).length ≤ s.set.capacity := by
    refine length_le_of_nodup_lt hnodup ?_
    intro i hi
    rcases List.mem_append.mp hi with hi | hi
    · exact hinv.held_lt i hi
    · obtain ⟨t, ht, rfl⟩ := List.mem_map.mp hi
      exact hinv.partition.inDom _ _ (hat t ht)
  rw [List.length_append, List.length_map, Finset.length_toList] at hlen
  exact hlen

omit [DecidableEq Tid] [Fintype Tid] in
/-- When no call is in progress every index is free or held. -/
theorem Inv.free_add_held {s : State Tid} {l : List U32} (hinv : Inv s l)
    (hrest : ∀ t, (s.pc t).resting = true) : l.length + s.held.length = s.set.capacity := by
  have hnodup : (l ++ s.held).Nodup := by
    refine List.nodup_append'.mpr ⟨hinv.free.nodup, hinv.heldNodup, ?_⟩
    intro i hi hheld
    exact hinv.partition.not_at (p := .free) (q := .held) hi (by simp) hheld
  have hplace : ∀ i : U32, i ∈ l ++ s.held ↔ i.toNat < s.set.capacity := by
    intro i
    rw [List.mem_append]
    constructor
    · rintro (hi | hi)
      · exact hinv.partition.inDom i .free hi
      · exact hinv.held_lt i hi
    · intro hi
      obtain ⟨p, hp⟩ := hinv.partition.placed i hi
      cases p with
      | free => exact .inl hp
      | held => exact .inr hp
      | acquiring t =>
          have hp' : (s.pc t).acquired = some i := hp
          rw [(Pc.none_of_resting (hrest t)).1] at hp'
          exact absurd hp' (by simp)
      | releasing t =>
          have hp' : (s.pc t).releasing = some i := hp
          rw [(Pc.none_of_resting (hrest t)).2] at hp'
          exact absurd hp' (by simp)
  have hperm : ((l ++ s.held).map BitVec.toNat).Perm (List.range s.set.capacity) := by
    refine (List.perm_ext_iff_of_nodup ?_ List.nodup_range).mpr ?_
    · exact hnodup.map (fun _ _ he => BitVec.eq_of_toNat_eq he)
    · intro k
      rw [List.mem_map, List.mem_range]
      constructor
      · rintro ⟨i, hi, rfl⟩
        exact (hplace i).mp hi
      · intro hk
        have hcap := s.set.capacity_lt
        have hs : SENTINEL.toNat < 2 ^ 32 := SENTINEL.isLt
        have hk' : (BitVec.ofNat 32 k).toNat = k := by
          rw [BitVec.toNat_ofNat, Nat.mod_eq_of_lt (by omega)]
        exact ⟨BitVec.ofNat 32 k, (hplace _).mpr (by rw [hk']; exact hk), hk'⟩
  have hlen := hperm.length_eq
  rwa [List.length_map, List.length_append, List.length_range] at hlen

/-! ## §4. The counter in every run. -/

omit [DecidableEq Tid] in
/-- The open releases: those that still have their index, and those that have put it back. -/
theorem releases_eq (s : State Tid) :
    s.releases = countAt (fun pc : Pc => pc.releasing.isSome) s.pc
      + countAt Pc.hasReleased s.pc :=
  countAt_split (fun pc => by cases pc <;> rfl) s.pc

omit [DecidableEq Tid] in
/-- The counter as a number: there are too few indices and threads to wrap it. -/
theorem Counted.toNat {s : State Tid} {l : List U32} (h : Counted s) (hinv : Inv s l)
    (hsmall : s.set.capacity + Fintype.card Tid < 2 ^ 32) :
    s.set.borrowed.toNat = s.held.length + s.releases := by
  have hheld := hinv.held_add_releasing_le
  have hopen : s.releases ≤ Fintype.card Tid := countAt_le_card _ _
  rw [h, BitVec.toNat_ofNat, Nat.mod_eq_of_lt (by omega)]

/-- **The counter `borrowed` neither wraps nor under-reports.**  In every state
reached by any interleaving of the atomic accesses within the tag's range it is
the number of held indices plus the number of open releases; so it is at least
the number of held indices, the addition of an `acquire` does not overflow, the
subtraction of a `release` does not go below zero, the capacity is exceeded by at
most the releases between their compare-exchange and their subtraction, and at
rest the counter is exact and `available` is the length of the free list. -/
theorem borrowed_counts (capacity : Nat) (hpos : 0 < capacity) (hlt : capacity < SENTINEL.toNat)
    (hthreads : capacity + Fintype.card Tid < 2 ^ 32) (s : State Tid)
    (h : Reach step fewUpdates (init (UniqueIndexSet.new capacity hpos hlt)) s) :
    s.set.borrowedCount.toNat = s.held.length + s.releases
      ∧ s.held.length ≤ s.set.borrowedCount.toNat
      ∧ (∀ t i, s.pc t = .acqWon i → s.set.borrowedCount.toNat + 1 < 2 ^ 32)
      ∧ (∀ t, s.pc t = .relWon → 0 < s.set.borrowedCount.toNat)
      ∧ s.set.borrowedCount.toNat ≤ capacity + countAt Pc.hasReleased s.pc
      ∧ ((∀ t, (s.pc t).resting = true) → s.set.borrowedCount.toNat = s.held.length
          ∧ ∃ l, s.set.FreeList l ∧ s.set.available = l.length) := by
  obtain ⟨hcap, l, hinv⟩ := reach_inv h
  have hcount : s.set.borrowedCount.toNat = s.held.length + s.releases :=
    (counted_of_reach h).toNat hinv (by rw [hcap]; exact hthreads)
  have hopen : s.releases ≤ Fintype.card Tid := countAt_le_card _ _
  have hsplit := releases_eq s
  have hheld := hinv.held_add_releasing_le
  rw [hcap] at hheld
  refine ⟨hcount, by omega, ?_, ?_, by omega, ?_⟩
  · intro t i hpc
    have hroom := hinv.held_length_lt hpc
    omega
  · intro t hpc
    have hthis : 0 < countAt Pc.hasReleased s.pc := countAt_pos (t := t) (by rw [hpc]; rfl)
    omega
  · intro hrest
    have hnone : s.releases = 0 :=
      countAt_eq_zero (fun t => Pc.not_inRelease_of_resting (hrest t))
    have hfree := hinv.free_add_held hrest
    refine ⟨by omega, l, hinv.free, ?_⟩
    show s.set.capacity - s.set.borrowedCount.toNat = l.length
    omega

/-- One index goes out and comes back; before the first thread has subtracted it
is out again. -/
def overlapRun : List (Act Bool) :=
  [.acquire true, .access true false, .access true false, .access true false,
   .release true 0#32, .access true false, .access true false, .access true false,
   .acquire false, .access false false, .access false false, .access false false]

/-- The counter is two, with a capacity of one. -/
theorem borrowed_counts_overlap :
    ∃ s : State Bool,
      Reach step fewUpdates (init (UniqueIndexSet.new 1 (by decide) (by decide))) s
        ∧ s.held = [0#32] ∧ s.set.borrowedCount = 2#32
        ∧ s.set.borrowedCount.toNat = s.held.length + s.releases
        ∧ s.set.borrowedCount.toNat ≤ 1 + countAt Pc.hasReleased s.pc := by
  have hrun : (execOk step fewUpdates
      (init (UniqueIndexSet.new 1 (by decide) (by decide)) : State Bool) overlapRun).map
      (fun s => (s.held, s.set.borrowedCount)) = some ([0#32], 2#32) := by decide
  obtain ⟨s, hs, hf⟩ := Option.map_eq_some_iff.mp hrun
  obtain ⟨hheld, hborrowed⟩ := Prod.mk.inj hf
  have hreach := Reach.of_execOk overlapRun .refl hs
  obtain ⟨hcount, _, _, _, hbound, _⟩ :=
    borrowed_counts 1 (by decide) (by decide) (by decide) s hreach
  exact ⟨s, hreach, hheld, hborrowed, hcount, hbound⟩

end Entangle.Lockfree.IndexSetSteps
