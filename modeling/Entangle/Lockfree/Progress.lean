/-
  Entangle.Lockfree.Progress — the retry loops of the lock-free structures get
  through: how many steps a run can take for the calls it completes.

  Every step of the interleaved models counts, the calls themselves included.  A
  compare-exchange fails for one of two reasons: somebody else has exchanged the
  word since it was read, or, `compare_exchange_weak`, for no reason.  The second
  kind is counted (`spuriousFailure`); the first is paid by the exchange that made
  the read stale, which belongs to a call that gets through.  So with `n` threads
  and whatever the scheduler does, a bounded number of steps after another some
  call returns:
    * `acquire_release_lock_free` — `UniqueIndexSet`;
    * `add_remove_lock_free` — `MpmcContainer`;
    * `bit_operations_lock_free` — `AtomicBitSet`.
-/
import Entangle.Lib.LockFree
import Entangle.Lockfree.IndexSetSteps
import Entangle.Lockfree.MpmcSteps
import Entangle.Lockfree.BitSetSteps

/-! ## §1. The index set. -/

namespace Entangle.Lockfree.IndexSetSteps

open Entangle.Lib

/-- The thread's next access is a compare-exchange. -/
def Pc.exchanging : Pc → Bool
  | .acqNext _ _ _ | .relStored _ _ _ => true
  | _ => false

/-- The head word is no longer the one the thread has read. -/
def stale (head : U64) : Pc → Bool
  | .acqRead old _ | .acqNext old _ _ | .relRead _ old _ | .relStored _ old _ => head != old
  | _ => false

/-- The steps to the end of the call, and two for each of the `rivals` that its
exchange can make stale. -/
def work (rivals : Nat) : Pc → Nat
  | .idle | .acqFailed => 5 + 2 * rivals
  | .relCalled _ => 4 + 2 * rivals
  | .acqRead _ _ | .relRead _ _ _ => 3 + 2 * rivals
  | .acqNext _ _ _ | .relStored _ _ _ => 2 + 2 * rivals
  | .acqWon _ | .relWon => 1
  | .panicked => 0

variable {Tid : Type} [DecidableEq Tid]

/-- The step ends a call. -/
def returned (s : State Tid) (a : Act Tid) : Nat :=
  ((step s a).any (fun s' => (s'.pc a.thread).resting)).toNat

/-- A compare-exchange that fails although the head word is the expected one. -/
def spuriousFailure (s : State Tid) : Act Tid → Nat
  | .access t true => ((s.pc t).exchanging && !stale s.set.head (s.pc t)).toNat
  | _ => 0

/-- `acquire` and `release` as retry loops on the head word. -/
def retrySystem (rivals : Nat) : RetrySystem (State Tid) (Act Tid) Tid Pc U64 where
  step := step
  thread := Act.thread
  pc := State.pc
  mem s := s.set.head
  resting := Pc.resting
  stale := stale
  work := work rivals
  penalty := 2
  call := 5 + 2 * rivals
  spurious := spuriousFailure

omit [DecidableEq Tid] in
/-- The weight of a place, in numbers. -/
theorem weight_eq [DecidableEq Tid] (rivals : Nat) (head : U64) (pc : Pc) :
    (retrySystem rivals : RetrySystem (State Tid) (Act Tid) Tid Pc U64).weight head pc
      = work rivals pc + 2 * (stale head pc).toNat := rfl

/-- No thread has more ahead of it than a whole call. -/
theorem weight_le_call (rivals : Nat) (head : U64) (pc : Pc) :
    (retrySystem rivals : RetrySystem (State Tid) (Act Tid) Tid Pc U64).weight head pc
      ≤ 5 + 2 * rivals := by
  have hone := Bool.toNat_le (stale head pc)
  rw [weight_eq]
  cases pc with
  | idle | acqFailed | relCalled _ => simp [work, stale]
  | _ =>
      simp only [work]
      omega

omit [DecidableEq Tid] in
/-- A failed compare-exchange has its penalty ready, or is counted as spurious. -/
theorem failed_weight {s : State Tid} {t : Tid} {spurious : Bool} {old : U64}
    (hpc : (s.pc t).exchanging = true) (hold : stale s.set.head (s.pc t) = (s.set.head != old))
    (hfail : ¬ (s.set.head = old ∧ spurious = false)) :
    1 ≤ spuriousFailure s (.access t spurious) + (stale s.set.head (s.pc t)).toNat := by
  by_cases hhead : s.set.head = old
  · have hfresh : stale s.set.head (s.pc t) = false := by
      rw [hold, hhead, bne_self_eq_false]
    have hspurious : spurious = true := by
      cases spurious with
      | false => exact absurd ⟨hhead, rfl⟩ hfail
      | true => rfl
    have hone : spuriousFailure s (.access t spurious) = 1 := by
      simp [spuriousFailure, hspurious, hpc, hfresh]
    omega
  · have hstale : stale s.set.head (s.pc t) = true := by
      rw [hold, bne_iff_ne]
      exact hhead
    rw [hstale]
    exact Nat.le_add_left _ _

omit [DecidableEq Tid] in
/-- `acquire` has read the head word: it returns, or goes on to `next`. -/
theorem acquireRead_eq [DecidableEq Tid] (s : State Tid) (t : Tid) :
    ∃ pc', s.acquireRead t = s.goto t pc'
      ∧ (pc' = .acqFailed ∨ pc' = .acqRead s.set.head s.updates) := by
  unfold State.acquireRead
  split
  next => exact ⟨_, rfl, .inl rfl⟩
  next => exact ⟨_, rfl, .inr rfl⟩

/-- A thread that can start a call has the longest call ahead of it. -/
theorem work_of_resting (rivals : Nat) {pc : Pc} (hrest : pc.resting = true) :
    work rivals pc = 5 + 2 * rivals := by
  cases pc with
  | idle | acqFailed => rfl
  | _ => exact absurd hrest (by simp [Pc.resting])

variable [Fintype Tid]

/-- A step that leaves the head word alone pays. -/
theorem goto_pays {s s' : State Tid} {a : Act Tid} {pc' : Pc} (hs : step s a = some s')
    (hhead : s'.set.head = s.set.head) (hpc : s'.pc = Function.update s.pc a.thread pc')
    (h : 1 + (work (Fintype.card Tid - 1) pc' + 2 * (stale s.set.head pc').toNat)
          ≤ 2 * spuriousFailure s a + (work (Fintype.card Tid - 1) (s.pc a.thread)
            + 2 * (stale s.set.head (s.pc a.thread)).toNat)
        ∨ pc'.resting = true ∧ 1 ≤ work (Fintype.card Tid - 1) (s.pc a.thread)) :
    (retrySystem (Fintype.card Tid - 1)).Pays s a s' := by
  refine RetrySystem.pays_of_move _ hs (congrArg stale hhead) hpc ?_
  rcases h with hstep | ⟨hrest, hone⟩
  · exact .inl hstep
  · refine .inr ⟨hrest, weight_le_call _ _ _, ?_⟩
    exact hone.trans (Nat.le_add_right _ _)

/-- **Every step is paid for.** -/
theorem step_pays {s s' : State Tid} {a : Act Tid} (hs : step s a = some s') :
    (retrySystem (Fintype.card Tid - 1)).Pays s a s' := by
  cases step_cases hs with
  | acquire t hrest =>
      have hw := work_of_resting (Fintype.card Tid - 1) hrest
      obtain ⟨pc', heq, rfl | rfl⟩ := acquireRead_eq s t
      · rw [heq] at hs ⊢
        refine goto_pays hs rfl rfl (.inr ⟨rfl, ?_⟩)
        simp only [Act.thread, hw]
        omega
      · rw [heq] at hs ⊢
        refine goto_pays hs rfl rfl (.inl ?_)
        simp only [Act.thread]
        rw [hw]
        simp only [work, stale, bne_self_eq_false, Bool.toNat_false]
        omega
  | release t i hrest hheld =>
      refine goto_pays hs rfl rfl (.inl ?_)
      simp only [Act.thread]
      rw [work_of_resting _ hrest]
      simp only [work, stale, Bool.toNat_false]
      omega
  | acqRead t spurious old ver n hpc hn =>
      refine goto_pays hs rfl rfl (.inl ?_)
      simp only [Act.thread, hpc, work, stale]
      omega
  | acqPanic t spurious old ver hpc hnone =>
      refine goto_pays hs rfl rfl (.inl ?_)
      simp only [Act.thread, hpc, work, stale, Bool.toNat_false]
      omega
  | acqExchange t ver n hpc =>
      refine RetrySystem.pays_of_write _ hs rfl rfl (.inl ?_)
      simp only [RetrySystem.weight, retrySystem, Act.thread, hpc, work, stale]
      omega
  | acqRetry t spurious old ver n hpc hfail =>
      have hpaid := failed_weight (by rw [hpc]; rfl) (by rw [hpc]; rfl) hfail
      obtain ⟨pc', heq, rfl | rfl⟩ := acquireRead_eq s t
      · rw [heq] at hs ⊢
        refine goto_pays hs rfl rfl (.inr ⟨rfl, ?_⟩)
        simp only [Act.thread, hpc, work]
        omega
      · rw [heq] at hs ⊢
        rw [hpc] at hpaid
        refine goto_pays hs rfl rfl (.inl ?_)
        simp only [Act.thread, hpc, work, stale, bne_self_eq_false, Bool.toNat_false] at hpaid ⊢
        omega
  | acqReturn t spurious i hpc =>
      refine goto_pays hs rfl rfl (.inr ⟨rfl, ?_⟩)
      simp [Act.thread, hpc, work]
  | relCalled t spurious i hpc =>
      refine goto_pays hs rfl rfl (.inl ?_)
      simp only [Act.thread, hpc, work, stale, bne_self_eq_false, Bool.toNat_false]
      omega
  | relStore t spurious i old ver hpc _ =>
      refine goto_pays hs rfl rfl (.inl ?_)
      simp only [Act.thread, hpc, work, stale]
      omega
  | relPanic t spurious i old ver hpc hout =>
      refine goto_pays hs rfl rfl (.inl ?_)
      simp only [Act.thread, hpc, work, stale, Bool.toNat_false]
      omega
  | relExchange t i ver hpc =>
      refine RetrySystem.pays_of_write _ hs rfl rfl (.inl ?_)
      simp only [RetrySystem.weight, retrySystem, Act.thread, hpc, work, stale]
      omega
  | relRetry t spurious i old ver hpc hfail =>
      have hpaid := failed_weight (by rw [hpc]; rfl) (by rw [hpc]; rfl) hfail
      rw [hpc] at hpaid
      refine goto_pays hs rfl rfl (.inl ?_)
      simp only [Act.thread, hpc, work, stale, bne_self_eq_false, Bool.toNat_false] at hpaid ⊢
      omega
  | relReturn t spurious hpc =>
      refine goto_pays hs rfl rfl (.inr ⟨rfl, ?_⟩)
      simp [Act.thread, hpc, work]

/-- **The index set is lock-free.**  In any run of any number `n` of threads, from
any state, the steps taken are bounded by the calls that return: `2 n + 3` for each
of these, as much again for each thread, which may be inside a call, and two for
each spurious failure.  So no schedule keeps all callers retrying: of any
`n * (2 n + 3) + 1` steps without a spurious failure one ends a call. -/
theorem acquire_release_lock_free (s : State Tid) (as : List (Act Tid))
    (hrun : (exec step s as).isSome) :
    as.length
      ≤ (2 * Fintype.card Tid + 3) * (total step returned s as + Fintype.card Tid)
        + 2 * total step spuriousFailure s as := by
  refine (retrySystem (Fintype.card Tid - 1)).steps_le (fun _ => True) (fun _ _ _ _ _ => trivial)
    (fun s a s' _ hs => step_pays hs) (weight_le_call _) (fun t => ?_) trivial hrun
  have hpos : 0 < Fintype.card Tid := Fintype.card_pos_iff.mpr ⟨t⟩
  show 5 + 2 * (Fintype.card Tid - 1) ≤ 2 * Fintype.card Tid + 3
  omega

/-- Two threads race for two indices, one of them fails spuriously. -/
theorem acquire_release_lock_free_race :
    raceRun.length
      ≤ (2 * Fintype.card Bool + 3)
          * (total step returned (init (UniqueIndexSet.new 2 (by decide) (by decide)) : State Bool)
              raceRun + Fintype.card Bool)
        + 2 * total step spuriousFailure
          (init (UniqueIndexSet.new 2 (by decide) (by decide)) : State Bool) raceRun :=
  acquire_release_lock_free _ raceRun (by decide)

end Entangle.Lockfree.IndexSetSteps

/-! ## §2. The container. -/

namespace Entangle.Lockfree.MpmcSteps

open Entangle.Lib

/-- The thread's next access is a compare-exchange. -/
def Pc.exchanging : Pc → Bool
  | .allocNext _ _ _ _ | .setRead _ _ _ | .clearRead _ _ | .freeStored _ _ _ _ => true
  | _ => false

/-- The word that the thread has read, `free_head` or the one of its slot's bit, is
no longer there. -/
def stale (c : MpmcContainer) : Pc → Bool
  | .allocRead _ old _ | .allocNext _ old _ _ | .freeRead _ _ old _ | .freeStored _ _ old _ =>
      c.freeHead != old
  | .setRead _ slot old | .clearRead slot old => !decide (c.occupied.load slot = some old)
  | _ => false

/-- The steps to the end of the call, and two for each of the `rivals` and each of
the two exchanges that a call makes. -/
def work (rivals : Nat) : Pc → Nat
  | .idle | .returned _ => 7 + 4 * rivals
  | .allocRead _ _ _ | .clearRead _ _ => 5 + 4 * rivals
  | .allocNext _ _ _ _ => 4 + 4 * rivals
  | .cleared _ => 4 + 2 * rivals
  | .allocated _ _ | .loaded _ _ => 3 + 2 * rivals
  | .stored _ _ | .freeRead _ _ _ _ => 2 + 2 * rivals
  | .setRead _ _ _ | .freeStored _ _ _ _ => 1 + 2 * rivals
  | .panicked => 0

variable {Tid : Type} [DecidableEq Tid]

/-- The step ends a call. -/
def returned (s : State Tid) (a : Act Tid) : Nat :=
  ((step s a).any (fun s' => (s'.pc a.thread).resting)).toNat

/-- A compare-exchange that fails although the word is the expected one. -/
def spuriousFailure (s : State Tid) : Act Tid → Nat
  | .access t true => ((s.pc t).exchanging && !stale s.container (s.pc t)).toNat
  | _ => 0

/-- `add` and `remove` as retry loops on `free_head` and the words of `occupied`. -/
def retrySystem (rivals : Nat) : RetrySystem (State Tid) (Act Tid) Tid Pc MpmcContainer where
  step := step
  thread := Act.thread
  pc := State.pc
  mem := State.container
  resting := Pc.resting
  stale := stale
  work := work rivals
  penalty := 2
  call := 7 + 4 * rivals
  spurious := spuriousFailure

/-- No thread has more ahead of it than a whole call. -/
theorem weight_le_call (rivals : Nat) (c : MpmcContainer) (pc : Pc) :
    (retrySystem rivals : RetrySystem (State Tid) (Act Tid) Tid Pc MpmcContainer).weight c pc
      ≤ 7 + 4 * rivals := by
  have hone := Bool.toNat_le (stale c pc)
  show work rivals pc + 2 * (stale c pc).toNat ≤ 7 + 4 * rivals
  cases pc with
  | idle | returned _ => simp [work, stale]
  | _ =>
      simp only [work]
      omega

omit [DecidableEq Tid] in
/-- A failed compare-exchange has its penalty ready, or is counted as spurious. -/
theorem failed_weight {s : State Tid} {t : Tid} {spurious : Bool} {found : Prop} [Decidable found]
    (hpc : (s.pc t).exchanging = true) (hfound : stale s.container (s.pc t) = !decide found)
    (hfail : ¬ (found ∧ spurious = false)) :
    1 ≤ spuriousFailure s (.access t spurious) + (stale s.container (s.pc t)).toNat := by
  by_cases hsame : found
  · have hfresh : stale s.container (s.pc t) = false := by
      rw [hfound, decide_eq_true hsame]
      rfl
    have hspurious : spurious = true := by
      cases spurious with
      | false => exact absurd ⟨hsame, rfl⟩ hfail
      | true => rfl
    have hone : spuriousFailure s (.access t spurious) = 1 := by
      simp [spuriousFailure, hspurious, hpc, hfresh]
    omega
  · rw [hfound, decide_eq_false hsame]
    exact Nat.le_add_left _ _

/-- A thread that can start a call has the longest call ahead of it. -/
theorem work_of_resting (rivals : Nat) {pc : Pc} (hrest : pc.resting = true) :
    work rivals pc = 7 + 4 * rivals := by
  cases pc with
  | idle | returned _ => rfl
  | _ => exact absurd hrest (by simp [Pc.resting])

/-- What a load leaves the thread with: the call is over, or the word it has read is
the one that is there. -/
def Loads (rivals b : Nat) (s s' : State Tid) (t : Tid) : Prop :=
  s'.container = s.container ∧ ∃ pc', s'.pc = Function.update s.pc t pc'
    ∧ (pc'.resting = true ∨ work rivals pc' ≤ b ∧ stale s.container pc' = false)

theorem loads_alloc (rivals : Nat) (s : State Tid) (t : Tid) (value : U64) :
    Loads rivals (5 + 4 * rivals) s (s.allocLoad t value) t := by
  unfold State.allocLoad
  split
  next => exact ⟨rfl, _, rfl, .inl rfl⟩
  next => exact ⟨rfl, _, rfl, .inr ⟨Nat.le_refl _, bne_self_eq_false _⟩⟩

theorem loads_set (rivals : Nat) (s : State Tid) (t : Tid) (value : U64) (slot : U32) :
    Loads rivals (1 + 2 * rivals) s (s.setLoad t value slot) t := by
  unfold State.setLoad
  split
  next => exact ⟨rfl, _, rfl, .inr ⟨Nat.zero_le _, rfl⟩⟩
  next old hload =>
    split
    next => exact ⟨rfl, _, rfl, .inl rfl⟩
    next =>
      refine ⟨rfl, _, rfl, .inr ⟨Nat.le_refl _, ?_⟩⟩
      simp [stale, hload]

theorem loads_clear (rivals : Nat) (s : State Tid) (t : Tid) (slot : U32) :
    Loads rivals (5 + 4 * rivals) s (s.clearLoad t slot) t := by
  unfold State.clearLoad
  split
  next => exact ⟨rfl, _, rfl, .inr ⟨Nat.zero_le _, rfl⟩⟩
  next old hload =>
    split
    next => exact ⟨rfl, _, rfl, .inl rfl⟩
    next =>
      refine ⟨rfl, _, rfl, .inr ⟨Nat.le_refl _, ?_⟩⟩
      simp [stale, hload]

variable [Fintype Tid]

/-- A load pays, if what it leaves the thread with is less than it had. -/
theorem loads_pays {s s' : State Tid} {a : Act Tid} {b : Nat} (hs : step s a = some s')
    (hload : Loads (Fintype.card Tid - 1) b s s' a.thread)
    (h : 1 + b ≤ 2 * spuriousFailure s a + (work (Fintype.card Tid - 1) (s.pc a.thread)
      + 2 * (stale s.container (s.pc a.thread)).toNat))
    (hone : 1 ≤ work (Fintype.card Tid - 1) (s.pc a.thread)) :
    (retrySystem (Fintype.card Tid - 1)).Pays s a s' := by
  obtain ⟨hcont, pc', hpc, hback | ⟨hle, hfresh⟩⟩ := hload
  · refine RetrySystem.pays_of_move _ hs (congrArg stale hcont) hpc
      (.inr ⟨hback, weight_le_call _ _ _, ?_⟩)
    exact hone.trans (Nat.le_add_right _ _)
  · refine RetrySystem.pays_of_move _ hs (congrArg stale hcont) hpc (.inl ?_)
    rw [RetrySystem.weight_of_fresh _ hfresh]
    exact (Nat.add_le_add_left hle 1).trans h

/-- A step that loads nothing and leaves the expected words alone. -/
theorem goto_pays {s s' : State Tid} {a : Act Tid} {pc' : Pc} (hs : step s a = some s')
    (hstale : stale s'.container = stale s.container)
    (hpc : s'.pc = Function.update s.pc a.thread pc')
    (h : 1 + (work (Fintype.card Tid - 1) pc' + 2 * (stale s.container pc').toNat)
          ≤ work (Fintype.card Tid - 1) (s.pc a.thread)
            + 2 * (stale s.container (s.pc a.thread)).toNat) :
    (retrySystem (Fintype.card Tid - 1)).Pays s a s' := by
  refine RetrySystem.pays_of_move _ hs hstale hpc (.inl ?_)
  exact h.trans (Nat.le_add_left _ _)

/-- **Every access is paid for.** -/
theorem access_pays {s s' : State Tid} {t : Tid} {spurious : Bool}
    (hs : step s (.access t spurious) = some s') :
    (retrySystem (Fintype.card Tid - 1)).Pays s (.access t spurious) s' := by
  have hacc : access s t spurious = some s' := hs
  unfold access at hacc
  split at hacc
  next value old ver hpc =>
    split at hacc
    next nextIdx hn =>
      injection hacc with hacc
      subst hacc
      refine goto_pays hs rfl rfl ?_
      simp only [Act.thread, hpc, work, stale]
      omega
    next hn =>
      injection hacc with hacc
      subst hacc
      refine goto_pays hs rfl rfl ?_
      simp only [Act.thread, hpc, work, stale, Bool.toNat_false]
      omega
  next value old ver nextIdx hpc =>
    split at hacc
    next hcas =>
      injection hacc with hacc
      subst hacc
      refine RetrySystem.pays_of_write _ hs rfl rfl (.inl ?_)
      simp only [RetrySystem.weight, retrySystem, Act.thread, hpc, work, stale]
      omega
    next hfail =>
      injection hacc with hacc
      subst hacc
      have hpaid := failed_weight (by rw [hpc]; rfl) (by rw [hpc]; rfl) hfail
      refine loads_pays hs (loads_alloc _ s t value) ?_ ?_
      · simp only [Act.thread, hpc, work] at hpaid ⊢
        omega
      · simp only [Act.thread, hpc, work]
        omega
  next value slot hpc =>
    split at hacc
    next =>
      injection hacc with hacc
      subst hacc
      refine goto_pays hs rfl rfl ?_
      simp only [Act.thread, hpc, work, stale, Bool.toNat_false]
      omega
    next hlt =>
      injection hacc with hacc
      subst hacc
      refine goto_pays hs rfl rfl ?_
      simp only [Act.thread, hpc, work, stale, Bool.toNat_false]
      omega
  next value slot hpc =>
    injection hacc with hacc
    subst hacc
    refine loads_pays hs (loads_set _ s t value slot) ?_ ?_
    · simp only [Act.thread, hpc, work]
      omega
    · simp only [Act.thread, hpc, work]
      omega
  next value slot old hpc =>
    split at hacc
    next hcas =>
      injection hacc with hacc
      subst hacc
      refine RetrySystem.pays_of_write _ hs rfl rfl (.inr ⟨rfl, Nat.le_refl _, ?_⟩)
      simp only [RetrySystem.weight, retrySystem, Act.thread, hpc, work]
      omega
    next hfail =>
      injection hacc with hacc
      subst hacc
      have hpaid := failed_weight (by rw [hpc]; rfl) (by rw [hpc]; rfl) hfail
      refine loads_pays hs (loads_set _ s t value slot) ?_ ?_
      · simp only [Act.thread, hpc, work] at hpaid ⊢
        omega
      · simp only [Act.thread, hpc, work]
        omega
  next slot old hpc =>
    split at hacc
    next hcas =>
      injection hacc with hacc
      subst hacc
      refine RetrySystem.pays_of_write _ hs rfl rfl (.inl ?_)
      simp only [RetrySystem.weight, retrySystem, Act.thread, hpc, work]
      omega
    next hfail =>
      injection hacc with hacc
      subst hacc
      have hpaid := failed_weight (by rw [hpc]; rfl) (by rw [hpc]; rfl) hfail
      refine loads_pays hs (loads_clear _ s t slot) ?_ ?_
      · simp only [Act.thread, hpc, work] at hpaid ⊢
        omega
      · simp only [Act.thread, hpc, work]
        omega
  next slot hpc =>
    split at hacc
    next value hv =>
      injection hacc with hacc
      subst hacc
      refine goto_pays hs rfl rfl ?_
      simp only [Act.thread, hpc, work, stale, Bool.toNat_false]
      omega
    next hv =>
      injection hacc with hacc
      subst hacc
      refine goto_pays hs rfl rfl ?_
      simp only [Act.thread, hpc, work, stale, Bool.toNat_false]
      omega
  next slot value hpc =>
    injection hacc with hacc
    subst hacc
    refine goto_pays hs rfl rfl ?_
    simp only [Act.thread, hpc, work, stale, bne_self_eq_false, Bool.toNat_false]
    omega
  next slot value old ver hpc =>
    split at hacc
    next =>
      injection hacc with hacc
      subst hacc
      refine goto_pays hs rfl rfl ?_
      simp only [Act.thread, hpc, work, stale]
      omega
    next hlt =>
      injection hacc with hacc
      subst hacc
      refine goto_pays hs rfl rfl ?_
      simp only [Act.thread, hpc, work, stale, Bool.toNat_false]
      omega
  next slot value old ver hpc =>
    split at hacc
    next hcas =>
      injection hacc with hacc
      subst hacc
      refine RetrySystem.pays_of_write _ hs rfl rfl (.inr ⟨rfl, Nat.le_refl _, ?_⟩)
      simp only [RetrySystem.weight, retrySystem, Act.thread, hpc, work]
      omega
    next hfail =>
      injection hacc with hacc
      subst hacc
      have hpaid := failed_weight (by rw [hpc]; rfl) (by rw [hpc]; rfl) hfail
      refine RetrySystem.pays_of_move _ hs rfl rfl (.inl ?_)
      simp only [RetrySystem.weight, retrySystem, Act.thread, hpc, work, stale,
        bne_self_eq_false, Bool.toNat_false] at hpaid ⊢
      omega
  all_goals exact absurd hacc (by simp)

/-- **Every step is paid for.** -/
theorem step_pays {s s' : State Tid} {a : Act Tid} (hs : step s a = some s') :
    (retrySystem (Fintype.card Tid - 1)).Pays s a s' := by
  cases a with
  | add t value =>
      have hadd := hs
      simp only [step, Option.ite_none_right_eq_some, Option.some.injEq] at hadd
      obtain ⟨hrest, rfl⟩ := hadd
      have hw := work_of_resting (Fintype.card Tid - 1) hrest
      refine loads_pays hs (loads_alloc _ s t value) ?_ ?_
      · simp only [Act.thread]
        omega
      · simp only [Act.thread]
        omega
  | remove t slot =>
      have hremove := hs
      simp only [step, Option.ite_none_right_eq_some, Option.some.injEq] at hremove
      obtain ⟨⟨hrest, _⟩, rfl⟩ := hremove
      have hw := work_of_resting (Fintype.card Tid - 1) hrest
      refine loads_pays hs (loads_clear _ s t slot) ?_ ?_
      · simp only [Act.thread]
        omega
      · simp only [Act.thread]
        omega
  | access t spurious => exact access_pays hs

/-- **The container is lock-free.**  In any run of any number `n` of threads that
call `add` and `remove`, from any state, the steps taken are bounded by the calls
that return: `4 n + 3` for each of these, as much again for each thread, which may
be inside a call, and two for each spurious failure. -/
theorem add_remove_lock_free (s : State Tid) (as : List (Act Tid))
    (hrun : (exec step s as).isSome) :
    as.length
      ≤ (4 * Fintype.card Tid + 3) * (total step returned s as + Fintype.card Tid)
        + 2 * total step spuriousFailure s as := by
  refine (retrySystem (Fintype.card Tid - 1)).steps_le (fun _ => True) (fun _ _ _ _ _ => trivial)
    (fun s a s' _ hs => step_pays hs) (weight_le_call _) (fun t => ?_) trivial hrun
  have hpos : 0 < Fintype.card Tid := Fintype.card_pos_iff.mpr ⟨t⟩
  show 7 + 4 * (Fintype.card Tid - 1) ≤ 4 * Fintype.card Tid + 3
  omega

/-- Two threads race to remove one slot. -/
theorem add_remove_lock_free_race :
    removeRaceRun.length
      ≤ (4 * Fintype.card Bool + 3)
          * (total step returned (init (MpmcContainer.new 2 (by decide) (by decide)) : State Bool)
              removeRaceRun + Fintype.card Bool)
        + 2 * total step spuriousFailure
          (init (MpmcContainer.new 2 (by decide) (by decide)) : State Bool) removeRaceRun :=
  add_remove_lock_free _ removeRaceRun (by decide)

end Entangle.Lockfree.MpmcSteps

/-! ## §3. The bit set. -/

namespace Entangle.Lockfree.BitSetSteps

open Entangle.Lib

/-- The thread's next access is a compare-exchange. -/
def Pc.exchanging : Pc → Bool
  | .setRead _ _ | .clearRead _ _ | .findRead _ _ => true
  | _ => false

/-- The word that the thread has read is no longer there. -/
def stale (b : AtomicBitSet) : Pc → Bool
  | .setRead i old | .clearRead i old => !decide (b.load i = some old)
  | .findRead k old => !decide (b.loadWord k = some old)
  | _ => false

/-- The steps to the end of the call, of which a search takes one for each of the
words it has not looked at, and one for each of the `rivals` and each exchange. -/
def work (rivals words : Nat) : Pc → Nat
  | .idle | .returned _ => words + 4 + 2 * rivals
  | .findNext k => words - k + 3 + 2 * rivals
  | .findRead k _ => words - k + 2 + 2 * rivals
  | .setRead _ _ | .clearRead _ _ | .findOver _ _ => 1 + rivals
  | .panicked => 0

variable {Tid : Type} [DecidableEq Tid]

/-- The step ends a call. -/
def returned (s : State Tid) (a : Act Tid) : Nat :=
  ((step s a).any (fun s' => (s'.pc a.thread).resting)).toNat

/-- A compare-exchange that fails although the word is the expected one. -/
def spuriousFailure (s : State Tid) : Act Tid → Nat
  | .access t true => ((s.pc t).exchanging && !stale s.bits (s.pc t)).toNat
  | _ => 0

/-- `set`, `clear` and `find_and_clear_first_set` as retry loops on the words. -/
def retrySystem (rivals words : Nat) : RetrySystem (State Tid) (Act Tid) Tid Pc AtomicBitSet where
  step := step
  thread := Act.thread
  pc := State.pc
  mem := State.bits
  resting := Pc.resting
  stale := stale
  work := work rivals words
  penalty := 1
  call := words + 4 + 2 * rivals
  spurious := spuriousFailure

/-- No thread has more ahead of it than a whole call. -/
theorem weight_le_call (rivals words : Nat) (b : AtomicBitSet) (pc : Pc) :
    (retrySystem rivals words : RetrySystem (State Tid) (Act Tid) Tid Pc AtomicBitSet).weight b pc
      ≤ words + 4 + 2 * rivals := by
  have hone := Bool.toNat_le (stale b pc)
  show work rivals words pc + 1 * (stale b pc).toNat ≤ words + 4 + 2 * rivals
  cases pc with
  | idle | returned _ | findNext _ =>
      simp only [work, stale, Bool.toNat_false]
      omega
  | _ =>
      simp only [work]
      omega

omit [DecidableEq Tid] in
/-- A failed compare-exchange has its penalty ready, or is counted as spurious. -/
theorem failed_weight {s : State Tid} {t : Tid} {spurious : Bool} {found : Prop} [Decidable found]
    (hpc : (s.pc t).exchanging = true) (hfound : stale s.bits (s.pc t) = !decide found)
    (hfail : ¬ (found ∧ spurious = false)) :
    1 ≤ spuriousFailure s (.access t spurious) + (stale s.bits (s.pc t)).toNat := by
  by_cases hsame : found
  · have hfresh : stale s.bits (s.pc t) = false := by
      rw [hfound, decide_eq_true hsame]
      rfl
    have hspurious : spurious = true := by
      cases spurious with
      | false => exact absurd ⟨hsame, rfl⟩ hfail
      | true => rfl
    have hone : spuriousFailure s (.access t spurious) = 1 := by
      simp [spuriousFailure, hspurious, hpc, hfresh]
    omega
  · rw [hfound, decide_eq_false hsame]
    exact Nat.le_add_left _ _

/-- A thread that can start a call has the longest call ahead of it. -/
theorem work_of_resting (rivals words : Nat) {pc : Pc} (hrest : pc.resting = true) :
    work rivals words pc = words + 4 + 2 * rivals := by
  cases pc with
  | idle | returned _ => rfl
  | _ => exact absurd hrest (by simp [Pc.resting])

/-- What a load leaves a thread with: the call is over, or the word it has read is
the one that is there and no more than `bound` is left. -/
def LoadsTo (rivals words bound : Nat) (b : AtomicBitSet) (pc : Pc) : Prop :=
  pc.resting = true ∨ work rivals words pc ≤ bound ∧ stale b pc = false

theorem loadsTo_afterSet (rivals words : Nat) (b : AtomicBitSet) (i : U32) :
    LoadsTo rivals words (1 + rivals) b (afterSet b i) := by
  unfold afterSet
  split
  next old hload =>
    split
    next => exact .inl rfl
    next => exact .inr ⟨Nat.le_refl _, by simp [stale, hload]⟩
  next => exact .inr ⟨Nat.zero_le _, rfl⟩

theorem loadsTo_afterClear (rivals words : Nat) (b : AtomicBitSet) (i : U32) :
    LoadsTo rivals words (1 + rivals) b (afterClear b i) := by
  unfold afterClear
  split
  next old hload =>
    split
    next => exact .inl rfl
    next => exact .inr ⟨Nat.le_refl _, by simp [stale, hload]⟩
  next => exact .inr ⟨Nat.zero_le _, rfl⟩

/-- A word that is there is one of those that the search has not looked at. -/
theorem loadsTo_afterFind (rivals : Nat) (b : AtomicBitSet) (k : Nat) :
    LoadsTo rivals ((b.capacity + 63) / 64) ((b.capacity + 63) / 64 - k + 2 + 2 * rivals) b
      (afterFind b k) := by
  unfold afterFind
  split
  next old hload =>
    have hk : k < (b.capacity + 63) / 64 := (Vector.getElem?_eq_some_iff.mp hload).1
    split
    next =>
      refine .inr ⟨?_, rfl⟩
      simp only [work]
      omega
    next => exact .inr ⟨Nat.le_refl _, by simp [stale, hload]⟩
  next => exact .inl rfl

/-- No step changes the number of words. -/
theorem step_capacity {s s' : State Tid} {a : Act Tid} (hs : step s a = some s') :
    s'.bits.capacity = s.bits.capacity := by
  cases a with
  | set t i | clear t i =>
      simp only [step, Option.ite_none_right_eq_some, Option.some.injEq] at hs
      obtain ⟨_, rfl⟩ := hs
      rfl
  | find t =>
      simp only [step, Option.ite_none_right_eq_some, Option.some.injEq] at hs
      obtain ⟨_, rfl⟩ := hs
      rfl
  | access t spurious =>
      have hdone : ∀ {s₁ : State Tid}, some s₁ = some s' → s₁.bits.capacity = s.bits.capacity →
          s'.bits.capacity = s.bits.capacity := by
        rintro s₁ ⟨⟩ hcap
        exact hcap
      simp only [step, access] at hs
      split at hs
      next => split at hs <;> exact hdone hs rfl
      next => split at hs <;> exact hdone hs rfl
      next => exact hdone hs rfl
      next =>
        split at hs
        next => split at hs <;> exact hdone hs rfl
        next => exact hdone hs rfl
      next k old hpc =>
        obtain ⟨word, _, rfl⟩ := Option.map_eq_some_iff.mp hs
        rfl
      all_goals exact absurd hs (by simp)

variable [Fintype Tid]

/-- A load pays, if what it leaves the thread with is less than it had. -/
theorem loads_pays {s : State Tid} {a : Act Tid} {pc' : Pc} {words bound : Nat}
    (hs : step s a = some (s.goto a.thread pc'))
    (hload : LoadsTo (Fintype.card Tid - 1) words bound s.bits pc')
    (h : 1 + bound ≤ spuriousFailure s a + (work (Fintype.card Tid - 1) words (s.pc a.thread)
      + (stale s.bits (s.pc a.thread)).toNat))
    (hone : 1 ≤ work (Fintype.card Tid - 1) words (s.pc a.thread)) :
    (retrySystem (Fintype.card Tid - 1) words).Pays s a (s.goto a.thread pc') := by
  rcases hload with hback | ⟨hle, hfresh⟩
  · refine RetrySystem.pays_of_move _ hs rfl rfl (.inr ⟨hback, weight_le_call _ _ _ _, ?_⟩)
    exact hone.trans (Nat.le_add_right _ _)
  · refine RetrySystem.pays_of_move _ hs rfl rfl (.inl ?_)
    rw [RetrySystem.weight_of_fresh _ hfresh]
    simp only [RetrySystem.weight, retrySystem, Nat.one_mul]
    exact (Nat.add_le_add_left hle 1).trans h

/-- **Every access is paid for.** -/
theorem access_pays {s s' : State Tid} {t : Tid} {spurious : Bool} {words : Nat}
    (hwords : (s.bits.capacity + 63) / 64 = words) (hs : step s (.access t spurious) = some s') :
    (retrySystem (Fintype.card Tid - 1) words).Pays s (.access t spurious) s' := by
  have hfind := loadsTo_afterFind (Fintype.card Tid - 1) s.bits
  rw [hwords] at hfind
  have hacc : access s t spurious = some s' := hs
  unfold access at hacc
  split at hacc
  next i old hpc =>
    split at hacc
    next hcas =>
      injection hacc with hacc
      subst hacc
      refine RetrySystem.pays_of_write _ hs rfl rfl (.inr ⟨rfl, Nat.le_refl _, ?_⟩)
      simp only [RetrySystem.weight, retrySystem, Act.thread, hpc, work]
      omega
    next hfail =>
      injection hacc with hacc
      subst hacc
      have hpaid := failed_weight (by rw [hpc]; rfl) (by rw [hpc]; rfl) hfail
      refine loads_pays hs (loadsTo_afterSet _ _ _ i) ?_ ?_
      · simp only [Act.thread, hpc, work] at hpaid ⊢
        omega
      · simp only [Act.thread, hpc, work]
        omega
  next i old hpc =>
    split at hacc
    next hcas =>
      injection hacc with hacc
      subst hacc
      refine RetrySystem.pays_of_write _ hs rfl rfl (.inr ⟨rfl, Nat.le_refl _, ?_⟩)
      simp only [RetrySystem.weight, retrySystem, Act.thread, hpc, work]
      omega
    next hfail =>
      injection hacc with hacc
      subst hacc
      have hpaid := failed_weight (by rw [hpc]; rfl) (by rw [hpc]; rfl) hfail
      refine loads_pays hs (loadsTo_afterClear _ _ _ i) ?_ ?_
      · simp only [Act.thread, hpc, work] at hpaid ⊢
        omega
      · simp only [Act.thread, hpc, work]
        omega
  next k hpc =>
    injection hacc with hacc
    subst hacc
    refine loads_pays hs (hfind k) ?_ ?_
    · simp only [Act.thread, hpc, work]
      omega
    · simp only [Act.thread, hpc, work]
      omega
  next k old hpc =>
    split at hacc
    next hcas =>
      split at hacc
      next hlt =>
        injection hacc with hacc
        subst hacc
        refine RetrySystem.pays_of_write _ hs rfl rfl (.inr ⟨rfl, Nat.le_refl _, ?_⟩)
        simp only [RetrySystem.weight, retrySystem, Act.thread, hpc, work]
        omega
      next hge =>
        injection hacc with hacc
        subst hacc
        refine RetrySystem.pays_of_write _ hs rfl rfl (.inl ?_)
        simp only [RetrySystem.weight, retrySystem, Act.thread, hpc, work]
        omega
    next hfail =>
      injection hacc with hacc
      subst hacc
      have hpaid := failed_weight (by rw [hpc]; rfl) (by rw [hpc]; rfl) hfail
      refine loads_pays hs (hfind k) ?_ ?_
      · simp only [Act.thread, hpc, work] at hpaid ⊢
        omega
      · simp only [Act.thread, hpc, work]
        omega
  next k old hpc =>
    obtain ⟨word, _, rfl⟩ := Option.map_eq_some_iff.mp hacc
    refine RetrySystem.pays_of_write _ hs rfl rfl (.inr ⟨rfl, Nat.le_refl _, ?_⟩)
    simp only [RetrySystem.weight, retrySystem, Act.thread, hpc, work]
    omega
  all_goals exact absurd hacc (by simp)

/-- **Every step is paid for.** -/
theorem step_pays {s s' : State Tid} {a : Act Tid} {words : Nat}
    (hwords : (s.bits.capacity + 63) / 64 = words) (hs : step s a = some s') :
    (retrySystem (Fintype.card Tid - 1) words).Pays s a s' := by
  have hw : ∀ t, (s.pc t).resting = true → work (Fintype.card Tid - 1) words (s.pc t)
      = words + 4 + 2 * (Fintype.card Tid - 1) := fun t hrest =>
    work_of_resting _ _ hrest
  cases a with
  | set t i =>
      have hset := hs
      simp only [step, Option.ite_none_right_eq_some, Option.some.injEq] at hset
      obtain ⟨⟨hrest, _⟩, rfl⟩ := hset
      refine loads_pays hs (loadsTo_afterSet _ _ _ i) ?_ ?_
      · simp only [Act.thread, hw t hrest]
        omega
      · simp only [Act.thread, hw t hrest]
        omega
  | clear t i =>
      have hclear := hs
      simp only [step, Option.ite_none_right_eq_some, Option.some.injEq] at hclear
      obtain ⟨⟨hrest, _⟩, rfl⟩ := hclear
      refine loads_pays hs (loadsTo_afterClear _ _ _ i) ?_ ?_
      · simp only [Act.thread, hw t hrest]
        omega
      · simp only [Act.thread, hw t hrest]
        omega
  | find t =>
      have hcall := hs
      simp only [step, Option.ite_none_right_eq_some, Option.some.injEq] at hcall
      obtain ⟨hrest, rfl⟩ := hcall
      have hfind := loadsTo_afterFind (Fintype.card Tid - 1) s.bits 0
      rw [hwords] at hfind
      refine loads_pays hs hfind ?_ ?_
      · simp only [Act.thread, hw t hrest]
        omega
      · simp only [Act.thread, hw t hrest]
        omega
  | access t spurious => exact access_pays hwords hs

/-- **The bit set is lock-free.**  In any run of any number `n` of threads that call
`set`, `clear` and `find_and_clear_first_set` on a set of `w` words, from any state,
the steps taken are bounded by the calls that return: `w + 2 n + 2` for each of
these, as much again for each thread, which may be inside a call, and one for each
spurious failure. -/
theorem bit_operations_lock_free (s : State Tid) (as : List (Act Tid))
    (hrun : (exec step s as).isSome) :
    as.length
      ≤ ((s.bits.capacity + 63) / 64 + 2 * Fintype.card Tid + 2)
          * (total step returned s as + Fintype.card Tid)
        + total step spuriousFailure s as := by
  rw [← Nat.one_mul (total step spuriousFailure s as)]
  refine (retrySystem (Fintype.card Tid - 1) ((s.bits.capacity + 63) / 64)).steps_le
    (fun s' => (s'.bits.capacity + 63) / 64 = (s.bits.capacity + 63) / 64)
    (fun s₁ a s' h hs => ?_) (fun s₁ a s' h hs => step_pays h hs) (weight_le_call _ _)
    (fun t => ?_) rfl hrun
  · rw [step_capacity hs]
    exact h
  · have hpos : 0 < Fintype.card Tid := Fintype.card_pos_iff.mpr ⟨t⟩
    show (s.bits.capacity + 63) / 64 + 4 + 2 * (Fintype.card Tid - 1) ≤ _
    omega

/-- Two threads race for the bits of two words. -/
theorem bit_operations_lock_free_race :
    raceRun.length
      ≤ (((init (AtomicBitSet.new 70) : State Bool).bits.capacity + 63) / 64
            + 2 * Fintype.card Bool + 2)
          * (total step returned (init (AtomicBitSet.new 70) : State Bool) raceRun
              + Fintype.card Bool)
        + total step spuriousFailure (init (AtomicBitSet.new 70) : State Bool) raceRun :=
  bit_operations_lock_free _ raceRun (by decide +kernel)

end Entangle.Lockfree.BitSetSteps
