/-
  Entangle.Port.BlackboardProgress — the retry loop of `Reader::read`
  (entangle/src/port/reader.rs): how many accesses a reader makes.

  A pass of the loop is thrown away for one of two reasons: its first load came
  in the middle of a write (`spins`), or a write began while it copied
  (`begins`).  The end of a write spoils no copy, because a copy only starts at
  an even count.  So whatever the scheduler does:
    * `read_pays` — one access is paid by a return, by a write that begins, by a
      load in the middle of a write, or by the reader's own progress;
    * `read_bounded` — the accesses of one reader in a whole run.
-/
import Entangle.Lib.LockFree
import Entangle.Port.Blackboard
import Mathlib.Data.Finset.Card

namespace Entangle.Port.Blackboard

open Entangle.Lib

variable {n : Nat} {W Tid : Type}

/-! ## §1. What is counted. -/

/-- The writer has stored the odd count and not yet the even one. -/
def WritePc.inPhase : WritePc n W → Bool
  | .writing _ _ _ => true
  | _ => false

/-- An access of reader `r`. -/
def moves (r : Tid) [DecidableEq Tid] (_ : State n W Tid) (a : Act n W Tid) : Nat :=
  (a.reads r).toNat

/-- A write begins. -/
def begins (_ : State n W Tid) : Act n W Tid → Nat
  | .beginPhase => 1
  | _ => 0

/-- A first load of reader `r` that comes in the middle of a write. -/
def spins (r : Tid) [DecidableEq Tid] (s : State n W Tid) : Act n W Tid → Nat
  | .read r' | .again r' => (decide (r' = r) && s.writer.inPhase).toNat
  | _ => 0

/-- A call of `read` by reader `r` returns. -/
def returns (r : Tid) [DecidableEq Tid] (s : State n W Tid) (a : Act n W Tid) : Nat :=
  (a.reads r && (step s a).any (fun s' => (s'.reader r).resting)).toNat

/-- The words still to be copied. -/
def missing (buf : Fin n → Option W) : Nat := (Finset.univ.filter (fun i => (buf i).isNone)).card

/-- What a reader has ahead of it: the rest of its pass, and a whole pass if that
one is already spoilt. -/
def ahead (sequence : U64) : ReadPc n W → Nat
  | .idle | .retry | .returned _ => n + 2
  | .copying s1 buf => missing buf + 1 + (n + 2) * (s1 != sequence).toNat

theorem missing_empty : missing (fun _ : Fin n => (none : Option W)) = n := by
  simp [missing]

/-- One more word copied. -/
theorem missing_update {buf : Fin n → Option W} {i : Fin n} (hi : buf i = none) (w : W) :
    missing (Function.update buf i (some w)) + 1 = missing buf := by
  have hset : Finset.univ.filter (fun j => (Function.update buf i (some w) j).isNone)
      = (Finset.univ.filter (fun j => (buf j).isNone)).erase i := by
    ext j
    by_cases hji : j = i
    · subst hji
      simp
    · simp [hji]
  have hmem : i ∈ Finset.univ.filter (fun j => (buf j).isNone) := by
    simp [hi]
  unfold missing
  rw [hset]
  exact Finset.card_erase_add_one hmem

/-! ## §2. Even and odd counts. -/

/-- In the middle of a write the count is odd. -/
theorem Inv.odd_of_writing {s : State n W Tid} (h : Inv s) (hphase : s.writer.inPhase = true) :
    s.sequence &&& 1#64 ≠ 0#64 := by
  have hwriter := h.writer
  unfold WriterOk at hwriter
  rw [h.sequence, Ne, ofNat_and_one]
  split at hwriter
  next hpc => simp [hpc, WritePc.inPhase] at hphase
  next hpc => simp [hpc, WritePc.inPhase] at hphase
  next => omega

/-- ... and outside of one it is even. -/
theorem Inv.even_of_not_writing {s : State n W Tid} (h : Inv s)
    (hphase : s.writer.inPhase = false) : s.sequence &&& 1#64 = 0#64 := by
  have hwriter := h.writer
  unfold WriterOk at hwriter
  rw [h.sequence, ofNat_and_one]
  split at hwriter
  next => omega
  next => omega
  next hpc => simp [hpc, WritePc.inPhase] at hphase

/-- A copy started at an even count. -/
theorem ReaderOk.even {s : State n W Tid} {s1 : U64} {buf : Fin n → Option W}
    (h : ReaderOk s (.copying s1 buf)) : s1 &&& 1#64 = 0#64 := by
  obtain ⟨k, _, rfl, _⟩ := h
  rw [ofNat_and_one]
  omega

/-! ## §3. One access. -/

/-- A write that begins spoils at most one pass. -/
theorem ahead_begin (seq : U64) (pc : ReadPc n W) (sequence : U64) :
    ahead seq pc ≤ ahead sequence pc + (n + 2) := by
  cases pc with
  | copying s1 buf =>
      have hone := Bool.toNat_le (s1 != seq)
      have hmul := Nat.mul_le_mul_left (n + 2) hone
      simp only [ahead]
      omega
  | _ => exact Nat.le_add_right _ _

/-- The end of a write spoils no copy. -/
theorem ahead_end {s : State n W Tid} (h : Inv s) (hphase : s.writer.inPhase = true) (r : Tid)
    (seq : U64) : ahead seq (s.reader r) ≤ ahead s.sequence (s.reader r) := by
  have hreader := h.reader r
  have hodd := h.odd_of_writing hphase
  generalize s.reader r = pc at hreader
  cases pc with
  | copying s1 buf =>
      have hspoilt : (s1 != s.sequence) = true := by
        rw [bne_iff_ne]
        intro heq
        rw [← heq] at hodd
        exact hodd hreader.even
      have hone := Bool.toNat_le (s1 != seq)
      have hmul := Nat.mul_le_mul_left (n + 2) hone
      simp only [ahead, hspoilt, Bool.toNat_true]
      omega
  | _ => exact Nat.le_refl _

/-- What a first load comes to: the call returns, it spins because a write is in
progress, or it starts a copy that nothing has spoilt. -/
theorem load_ahead {s : State n W Tid} (h : Inv s) :
    (∃ v, afterLoad s.sequence = (.returned v : ReadPc n W))
      ∨ (s.writer.inPhase = true ∧ afterLoad s.sequence = (.retry : ReadPc n W))
      ∨ ahead s.sequence (afterLoad s.sequence : ReadPc n W) = n + 1
        ∧ (afterLoad s.sequence : ReadPc n W).resting = false := by
  unfold Blackboard.afterLoad
  split
  next => exact .inl ⟨none, rfl⟩
  next =>
    split
    next hodd =>
      refine .inr (.inl ⟨?_, rfl⟩)
      by_contra hphase
      exact hodd (h.even_of_not_writing (by simpa using hphase))
    next =>
      refine .inr (.inr ⟨?_, rfl⟩)
      simp [ahead, missing_empty]

variable [DecidableEq Tid]

/-- A first load pays. -/
theorem load_pays {s : State n W Tid} (h : Inv s) {r : Tid} {a : Act n W Tid}
    (hs : step s a = some (s.setReader r (afterLoad s.sequence))) (ha : a.reads r = true)
    (hspins : spins r s a = s.writer.inPhase.toNat) (hpc : ahead s.sequence (s.reader r) = n + 2) :
    1 + ahead s.sequence (afterLoad s.sequence : ReadPc n W)
      ≤ (n + 2) * returns r s a + spins r s a + ahead s.sequence (s.reader r) := by
  rcases load_ahead h with ⟨v, hload⟩ | ⟨hphase, hload⟩ | ⟨hload, _⟩
  · have hone : returns r s a = 1 := by
      simp [returns, hs, ha, State.setReader, hload, ReadPc.resting]
    rw [hone, hpc, hload]
    simp only [ahead]
    omega
  · rw [hspins, hphase, hpc, hload]
    simp only [ahead, Bool.toNat_true]
    omega
  · rw [hload, hpc]
    omega

/-- A reader that does not move pays nothing, except for a write that begins. -/
theorem others_pay {s s' : State n W Tid} {r : Tid} {a : Act n W Tid}
    (ha : a.reads r = false) (hreader : s'.reader r = s.reader r)
    (hahead : ahead s'.sequence (s.reader r)
      ≤ ahead s.sequence (s.reader r) + (n + 2) * begins s a) :
    moves r s a + ahead s'.sequence (s'.reader r)
      ≤ (n + 2) * (returns r s a + begins s a) + spins r s a
        + ahead s.sequence (s.reader r) := by
  rw [hreader]
  simp only [moves, ha, Bool.toNat_false, Nat.mul_add]
  omega

/-- **Every access is paid for.** -/
theorem read_pays {s s' : State n W Tid} {a : Act n W Tid} (h : Inv s) (hs : step s a = some s')
    (r : Tid) :
    moves r s a + ahead s'.sequence (s'.reader r)
      ≤ (n + 2) * (returns r s a + begins s a) + spins r s a
        + ahead s.sequence (s.reader r) := by
  have hstay : ∀ (r' : Tid) (pc : ReadPc n W), r' ≠ r →
      (s.setReader r' pc).reader r = s.reader r :=
    fun r' pc hne => Function.update_of_ne hne.symm _ _
  have hself : ∀ (pc : ReadPc n W), (s.setReader r pc).reader r = pc :=
    fun pc => by simp only [State.setReader, Function.update_self]
  cases step_cases hs with
  | write v hpc => exact others_pay rfl rfl (Nat.le_add_right _ _)
  | beginPhase v seq hpc =>
      refine others_pay rfl rfl ?_
      simp only [begins, Nat.mul_one]
      exact ahead_begin _ _ _
  | storeWord v seq todo i hpc hi => exact others_pay rfl rfl (Nat.le_add_right _ _)
  | endPhase v seq hpc =>
      refine others_pay rfl rfl ?_
      simp only [begins, Nat.mul_zero, Nat.add_zero]
      exact ahead_end h (by rw [hpc]; rfl) r _
  | read r' hrest =>
      by_cases hr : r' = r
      · subst hr
        have hpc : ahead s.sequence (s.reader r') = n + 2 := by
          generalize s.reader r' = pc at hrest
          cases pc with
          | idle | returned _ => rfl
          | retry | copying _ _ => exact absurd hrest (by simp [ReadPc.resting])
        have hpaid := load_pays h hs (by simp [Act.reads]) (by simp [spins]) hpc
        rw [hself]
        simp only [moves, begins, Act.reads, decide_true, Bool.toNat_true, Nat.add_zero]
        exact hpaid
      · exact others_pay (by simp [Act.reads, hr]) (hstay r' _ hr) (Nat.le_add_right _ _)
  | again r' hretry =>
      by_cases hr : r' = r
      · subst hr
        have hpaid := load_pays h hs (by simp [Act.reads]) (by simp [spins]) (by rw [hretry]; rfl)
        rw [hself]
        simp only [moves, begins, Act.reads, decide_true, Bool.toNat_true, Nat.add_zero]
        exact hpaid
      · exact others_pay (by simp [Act.reads, hr]) (hstay r' _ hr) (Nat.le_add_right _ _)
  | copyWord r' i s1 buf hpc hi =>
      by_cases hr : r' = r
      · subst hr
        have hone := missing_update hi (s.words i)
        rw [hself, hpc]
        simp only [ahead, moves, Act.reads, decide_true, Bool.toNat_true, State.setReader]
        omega
      · exact others_pay (by simp [Act.reads, hr]) (hstay r' _ hr) (Nat.le_add_right _ _)
  | recheck r' s1 buf v hpc hv =>
      by_cases hr : r' = r
      · subst hr
        rw [hself, hpc]
        by_cases heq : s1 = s.sequence
        · -- the call returns
          have hone : returns r' s (.recheck r') = 1 := by
            simp [returns, hs, Act.reads, hself, heq, ReadPc.resting]
          rw [if_pos heq, hone]
          simp only [ahead, moves, begins, spins, Act.reads, decide_true, Bool.toNat_true]
          omega
        · -- the pass was spoilt, and a whole one is already paid for
          have hspoilt : (s1 != s.sequence) = true := by
            rw [bne_iff_ne]
            exact heq
          rw [if_neg heq]
          simp only [ahead, moves, Act.reads, hspoilt, decide_true, Bool.toNat_true]
          omega
      · exact others_pay (by simp [Act.reads, hr]) (hstay r' _ hr) (Nat.le_add_right _ _)

/-! ## §4. Whole runs. -/

omit [DecidableEq Tid] in
/-- A reader has at most a spoilt pass and a whole one ahead. -/
theorem ahead_le (sequence : U64) (pc : ReadPc n W) : ahead sequence pc ≤ (n + 2) * 2 := by
  cases pc with
  | copying s1 buf =>
      have hmissing : missing buf ≤ n := by
        have hcard := Finset.card_filter_le Finset.univ (fun i => (buf i).isNone)
        rwa [Finset.card_univ, Fintype.card_fin] at hcard
      have hone := Bool.toNat_le (s1 != sequence)
      have hmul := Nat.mul_le_mul_left (n + 2) hone
      simp only [ahead]
      omega
  | _ =>
      simp only [ahead]
      omega

/-- **A reader retries only for a write.**  With any number of readers, from any
reachable state and in every run, the accesses of reader `r` are at most `n + 2` for
each of its calls that returns and for each write that begins, and one for each load
that comes in the middle of a write, apart from the two passes it may be left with at
the ends of the run. -/
theorem read_bounded (memory : Fin n → W) {s : State n W Tid}
    (hs : Reach step anyStep (init memory) s) (as : List (Act n W Tid)) (r : Tid) :
    total step (moves r) s as
      ≤ (n + 2) * (total step (returns r) s as + total step begins s as + 2)
        + total step (spins r) s as := by
  have hinv : Inv s := hs.invariant Inv (inv_init memory) (fun _ _ _ hi _ hstep => hi.step hstep)
  have hpaid : total step (moves r) s as
      ≤ total step (fun s a => (n + 2) * (returns r s a + begins s a) + spins r s a) s as
        + ahead s.sequence (s.reader r) :=
    total_le_of_potential Inv (fun s => ahead s.sequence (s.reader r)) (moves r) _
      (fun _ _ _ hi hstep => hi.step hstep) (fun _ _ _ hi hstep => read_pays hi hstep r) as s hinv
  have hstart : ahead s.sequence (s.reader r) ≤ (n + 2) * 2 := ahead_le _ _
  rw [total_add, total_mul, total_add] at hpaid
  rw [Nat.mul_add]
  omega

/-- In `overlapRun` the reader makes nine accesses and returns once: the second write
begins during its copy, and its next load comes before that write has ended. -/
theorem read_bounded_overlap :
    total step (moves ()) (init (fun _ => false) : State 2 Bool Unit) overlapRun = 9
      ∧ total step (moves ()) (init (fun _ => false) : State 2 Bool Unit) overlapRun
        ≤ (2 + 2) * (total step (returns ()) (init (fun _ => false)) overlapRun
            + total step begins (init (fun _ => false)) overlapRun + 2)
          + total step (spins ()) (init (fun _ => false)) overlapRun := by
  refine ⟨by decide, read_bounded (fun _ => false) .refl overlapRun ()⟩

end Entangle.Port.Blackboard
