/-
  Entangle.Platform.EventBackends — do the eventfd and the pipe of
  `EventNotification` give the same results?  (entangle-platform/src/event.rs)

  One thread calls `notify` and `try_wait`; a call is the run of its accesses in
  `EventNotification`.  What `try_wait` returns depends on the notifications
  pending, and these differ: one read takes all of an eventfd and one byte of a
  pipe.  After a burst the pipe still has some when the eventfd has none, which
  shows as soon as `try_wait` is called twice in a row.

  Main results:
    * `results_eq` — what a sequence of calls returns, on either backend;
    * `backends_agree_iff` — for which sequences the backends agree;
    * `backends_differ` — two notifications, then two polls.
-/
import Entangle.Platform.EventNotification
import Mathlib.Data.List.Infix

namespace Entangle.Platform.EventNotification

open Entangle.Lib

/-! ## §1. Calls of one thread. -/

inductive Call where
  | notify
  | tryWait
  deriving Repr, DecidableEq

/-- The accesses of a call that does not block; no system call fails for a
reason of its own. -/
def Call.acts : Call → List (Act Unit)
  | .notify => [.notify () none]
  | .tryWait => [.tryWait (), .access () none, .access () none, .access () none, .access () none]

/-- What the calls return, one after another; `none` where one does not return. -/
def results (b : Backend) : State Unit → List Call → Option (List Ret)
  | _, [] => some []
  | s, call :: calls =>
      (exec (step b) s call.acts).bind (fun s' =>
        match s'.pc () with
        | .returned r => (results b s' calls).map (fun rs => r :: rs)
        | _ => none)

/-- The notifications pending after a call. -/
def Backend.after (b : Backend) (pending : Nat) : Call → Nat
  | .notify => pending + 1
  | .tryWait => b.left pending

/-- The notifications pending after a sequence of calls. -/
def Backend.pendingAfter (b : Backend) (pending : Nat) (calls : List Call) : Nat :=
  calls.foldl b.after pending

/-- What a call returns while so many notifications are pending. -/
def Call.returns (pending : Nat) : Call → Ret
  | .notify => .notified (.ok ())
  | .tryWait => .tried (.ok (decide (0 < pending)))

/-- What a sequence of calls returns. -/
def outcomes (b : Backend) : Nat → List Call → List Ret
  | _, [] => []
  | pending, call :: calls => call.returns pending :: outcomes b (b.after pending call) calls

/-! ## §2. One call. -/

/-- The thread is in no call, the flag is clear, so many notifications are pending. -/
structure Rests (b : Backend) (s : State Unit) (pending : Nat) : Prop where
  pending : s.pending = pending
  flag : ¬ s.nonblocking b
  pc : (s.pc ()).resting = true

theorem rests_init (b : Backend) : Rests b (init b) 0 where
  pending := rfl
  flag := not_nonblocking_init b
  pc := rfl

@[simp] theorem left_zero (b : Backend) : b.left 0 = 0 := by
  cases b <;> rfl

/-- `notify` finds room. -/
theorem Rests.notify {b : Backend} {s : State Unit} {n : Nat} (h : Rests b s n)
    (hroom : n < b.limit) :
    ∃ s', exec (step b) s Call.notify.acts = some s'
      ∧ s'.pc () = .returned (Call.notify.returns n) ∧ Rests b s' (b.after n .notify) := by
  have hwrite : issueWrite b s none = some (.done, n + 1) := by
    simp only [issueWrite, h.pending, if_pos hroom]
  refine ⟨s.put () (n + 1) (.returned (.notified (.ok ()))), ?_, ?_, ?_⟩
  · simp only [Call.acts, exec, step, h.pc, if_true, hwrite, notifyResult, Option.bind_some]
  · simp [State.put, Call.returns]
  · exact ⟨rfl, h.flag, by simp [State.put, Pc.resting]⟩

/-- The read of a `try_wait` takes what is pending, or finds the flag set. -/
theorem issueRead_nonblocking {b : Backend} {s : State Unit} (hset : s.nonblocking b) :
    issueRead b s none = some (if 0 < s.pending then .done else .wouldBlock, b.left s.pending) := by
  unfold issueRead
  by_cases hpos : 0 < s.pending
  · simp only [if_pos hpos]
  · have h0 : b.left s.pending = s.pending := by
      rw [Nat.eq_zero_of_not_pos hpos, left_zero]
    simp only [if_neg hpos, if_pos hset, h0]

/-- `try_wait` sets the flag, reads and clears the flag. -/
theorem Rests.tryWait {b : Backend} {s : State Unit} {n : Nat} (h : Rests b s n) :
    ∃ s', exec (step b) s Call.tryWait.acts = some s'
      ∧ s'.pc () = .returned (Call.tryWait.returns n) ∧ Rests b s' (b.after n .tryWait) := by
  have hread : issueRead b (((s.goto () (.setting s.flags)).setFlags () (s.flags ||| b.nonblock)
      .set)) none = some (if 0 < s.pending then .done else .wouldBlock, b.left s.pending) :=
    issueRead_nonblocking (set_nonblock b s.flags)
  have hresult : tryWaitResult (if 0 < s.pending then .done else .wouldBlock)
      = .ok (decide (0 < s.pending)) := by
    by_cases hpos : 0 < s.pending <;> simp [hpos, tryWaitResult]
  have hpending := h.pending
  subst hpending
  simp only [Call.acts, exec, step, h.pc, if_true, Option.bind_some]
  simp only [access, State.goto, State.setFlags, State.put, Function.update_self] at hread ⊢
  simp only [hread, Option.bind_some, Function.update_self]
  refine ⟨_, rfl, ?_, rfl, ?_, ?_⟩
  · simp only [Function.update_self, hresult, Call.returns]
  · intro hset
    exact hset (clear_nonblock b _)
  · simp [Pc.resting]

/-! ## §3. Sequences of calls. -/

/-- There is room at every `notify` of the sequence. -/
def HasRoom (b : Backend) (pending : Nat) (calls : List Call) : Prop :=
  ∀ before, before ++ [.notify] <+: calls → b.pendingAfter pending before < b.limit

theorem HasRoom.tail {b : Backend} {pending : Nat} {call : Call} {calls : List Call}
    (h : HasRoom b pending (call :: calls)) : HasRoom b (b.after pending call) calls := by
  intro before hb
  exact h (call :: before) (List.prefix_cons_inj call |>.mpr hb)

theorem results_of_rests {b : Backend} {calls : List Call} : ∀ {s : State Unit} {n : Nat},
    Rests b s n → HasRoom b n calls → results b s calls = some (outcomes b n calls) := by
  induction calls with
  | nil => exact fun _ _ => rfl
  | cons call calls ih =>
      intro s n h hroom
      have hcall : ∃ s', exec (step b) s call.acts = some s'
          ∧ s'.pc () = .returned (call.returns n) ∧ Rests b s' (b.after n call) := by
        cases call with
        | notify => exact h.notify (hroom [] (by simp))
        | tryWait => exact h.tryWait
      obtain ⟨s', hexec, hpc, hrests⟩ := hcall
      simp only [results, hexec, Option.bind_some, hpc, ih hrests hroom.tail, Option.map_some,
        outcomes]

/-- **Every call returns, and what it returns depends on what is pending.** -/
theorem results_eq (b : Backend) (calls : List Call) (hroom : HasRoom b 0 calls) :
    results b (init b) calls = some (outcomes b 0 calls) :=
  results_of_rests (rests_init b) hroom

/-! ## §4. Two backends side by side. -/

@[simp] theorem pendingAfter_nil (b : Backend) (n : Nat) : b.pendingAfter n [] = n := rfl

@[simp] theorem pendingAfter_cons (b : Backend) (n : Nat) (call : Call) (calls : List Call) :
    b.pendingAfter n (call :: calls) = b.pendingAfter (b.after n call) calls := rfl

theorem pendingAfter_append (b : Backend) (n : Nat) (calls calls' : List Call) :
    b.pendingAfter n (calls ++ calls') = b.pendingAfter (b.pendingAfter n calls) calls' :=
  List.foldl_append

theorem pendingAfter_concat (b : Backend) (n : Nat) (calls : List Call) (call : Call) :
    b.pendingAfter n (calls ++ [call]) = b.after (b.pendingAfter n calls) call := by
  rw [pendingAfter_append]
  rfl

/-- Two backends give the same results iff every `try_wait` finds something in
both or in neither. -/
theorem outcomes_eq_iff {b b' : Backend} (calls : List Call) : ∀ (n n' : Nat),
    outcomes b n calls = outcomes b' n' calls
      ↔ ∀ before, before ++ [.tryWait] <+: calls →
          (0 < b.pendingAfter n before ↔ 0 < b'.pendingAfter n' before) := by
  induction calls with
  | nil => simp [outcomes]
  | cons call calls ih =>
      intro n n'
      -- a prefix that ends before a `try_wait` is empty or starts with `call`
      have hsplit : (∀ before, before ++ [.tryWait] <+: call :: calls →
            (0 < b.pendingAfter n before ↔ 0 < b'.pendingAfter n' before))
          ↔ (call = .tryWait → (0 < n ↔ 0 < n'))
            ∧ ∀ before, before ++ [.tryWait] <+: calls →
              (0 < b.pendingAfter (b.after n call) before
                ↔ 0 < b'.pendingAfter (b'.after n' call) before) := by
        constructor
        · intro h
          refine ⟨?_, fun before hb => h (call :: before) ((List.prefix_cons_inj call).mpr hb)⟩
          rintro rfl
          exact h [] (by simp)
        · rintro ⟨hhead, htail⟩ before hb
          cases before with
          | nil =>
              obtain ⟨rfl, _⟩ := List.cons_prefix_cons.mp hb
              exact hhead rfl
          | cons first before =>
              obtain ⟨rfl, hb'⟩ := List.cons_prefix_cons.mp hb
              exact htail before hb'
      have hreturns : call.returns n = call.returns n'
          ↔ (call = .tryWait → (0 < n ↔ 0 < n')) := by
        cases call with
        | notify => simp [Call.returns]
        | tryWait => simp [Call.returns]
      simp only [outcomes, List.cons.injEq, hreturns, ih, hsplit]

/-! ## §5. What is pending in the eventfd and in the pipe. -/

variable (capacity : Nat)

/-- The eventfd never has more than the pipe. -/
theorem eventfd_le_pipe (calls : List Call) : ∀ {n n' : Nat}, n ≤ n' →
    Backend.eventfd.pendingAfter n calls ≤ (Backend.pipe capacity).pendingAfter n' calls := by
  induction calls with
  | nil => exact fun hle => hle
  | cons call calls ih =>
      intro n n' hle
      simp only [pendingAfter_cons]
      apply ih
      cases call with
      | notify => exact Nat.succ_le_succ hle
      | tryWait => exact Nat.zero_le _

/-- A `try_wait` takes at most one byte off a pipe. -/
theorem le_pipe_pendingAfter (n : Nat) (calls : List Call) :
    n + calls.count .notify
      ≤ (Backend.pipe capacity).pendingAfter n calls + calls.count .tryWait := by
  induction calls generalizing n with
  | nil => simp
  | cons call calls ih =>
      have hrest := ih ((Backend.pipe capacity).after n call)
      cases call with
      | notify =>
          simp only [pendingAfter_cons, Backend.after, List.count_cons_self, ne_eq,
            reduceCtorEq, not_false_eq_true, List.count_cons_of_ne] at hrest ⊢
          omega
      | tryWait =>
          simp only [pendingAfter_cons, Backend.after, Backend.left, List.count_cons_self, ne_eq,
            reduceCtorEq, not_false_eq_true, List.count_cons_of_ne] at hrest ⊢
          omega

theorem count_notify_tryWait : List.count Call.notify [Call.tryWait] = 0 := rfl

theorem count_tryWait_notify : List.count Call.tryWait [Call.notify] = 0 := rfl

/-- Since the pipe was last empty, every `try_wait` has taken a byte. -/
theorem pipe_since_empty (calls : List Call) :
    ∃ early late, calls = early ++ late
      ∧ (Backend.pipe capacity).pendingAfter 0 calls + late.count .tryWait
        = late.count .notify := by
  induction calls using List.reverseRecOn with
  | nil => exact ⟨[], [], rfl, rfl⟩
  | append_singleton calls call ih =>
      obtain ⟨early, late, hsplit, hcount⟩ := ih
      rw [pendingAfter_concat]
      cases call with
      | notify =>
          refine ⟨early, late ++ [.notify], by rw [hsplit, List.append_assoc], ?_⟩
          simp only [Backend.after, List.count_append, count_tryWait_notify,
            List.count_singleton_self]
          omega
      | tryWait =>
          by_cases hpos : 0 < (Backend.pipe capacity).pendingAfter 0 calls
          · refine ⟨early, late ++ [.tryWait], by rw [hsplit, List.append_assoc], ?_⟩
            simp only [Backend.after, Backend.left, List.count_append, count_notify_tryWait,
              List.count_singleton_self]
            omega
          · refine ⟨calls ++ [.tryWait], [], (List.append_nil _).symm, ?_⟩
            simp only [Backend.after, Backend.left, List.count_nil]
            omega

/-- Only a `try_wait` empties an eventfd. -/
theorem eventfd_pos_concat (n : Nat) (calls : List Call) (call : Call) :
    0 < Backend.eventfd.pendingAfter n (calls ++ [call]) ↔ call = .notify := by
  rw [pendingAfter_concat]
  cases call with
  | notify => simp [Backend.after]
  | tryWait => simp [Backend.after, Backend.left]

/-- The backends differ iff a `try_wait` finds the eventfd empty and the pipe not. -/
theorem outcomes_ne_iff (calls : List Call) :
    outcomes .eventfd 0 calls ≠ outcomes (.pipe capacity) 0 calls
      ↔ ∃ before, before ++ [.tryWait] <+: calls ∧ Backend.eventfd.pendingAfter 0 before = 0
        ∧ 0 < (Backend.pipe capacity).pendingAfter 0 before := by
  rw [ne_eq, outcomes_eq_iff]
  push Not
  constructor
  · rintro ⟨before, hb, hdiff⟩
    have hle := eventfd_le_pipe capacity before (Nat.le_refl 0)
    refine ⟨before, hb, ?_⟩
    omega
  · rintro ⟨before, hb, hempty, hpos⟩
    exact ⟨before, hb, .inr ⟨by omega, hpos⟩⟩

/-- Two polls in a row, and before them a block of calls with two more
notifications than polls. -/
def Overtakes (calls : List Call) : Prop :=
  ∃ pre mid post, calls = pre ++ mid ++ [.tryWait, .tryWait] ++ post
    ∧ mid.count .tryWait + 2 ≤ mid.count .notify

/-- **Where the backends differ**: the burst that the block has put into the
pipe outlasts its polls, the eventfd is emptied by the last of them. -/
theorem differ_iff_overtakes (calls : List Call) :
    (∃ before, before ++ [.tryWait] <+: calls ∧ Backend.eventfd.pendingAfter 0 before = 0
        ∧ 0 < (Backend.pipe capacity).pendingAfter 0 before)
      ↔ Overtakes calls := by
  constructor
  · rintro ⟨before, ⟨post, rfl⟩, hempty, hpos⟩
    obtain ⟨pre, late, rfl, hcount⟩ := pipe_since_empty capacity before
    rcases List.eq_nil_or_concat' late with rfl | ⟨mid, last, rfl⟩
    · simp only [List.count_nil] at hcount
      omega
    · have hlast : last = .tryWait := by
        rw [← List.append_assoc] at hempty
        have hiff := eventfd_pos_concat 0 (pre ++ mid) last
        cases last with
        | notify => exact absurd (hiff.mpr rfl) (by omega)
        | tryWait => rfl
      subst hlast
      simp only [List.count_append, count_notify_tryWait, List.count_singleton_self] at hcount
      refine ⟨pre, mid, post, by simp, ?_⟩
      omega
  · rintro ⟨pre, mid, post, rfl, hcount⟩
    refine ⟨pre ++ mid ++ [.tryWait], ⟨post, by simp⟩, ?_, ?_⟩
    · have hiff := eventfd_pos_concat 0 (pre ++ mid) .tryWait
      simp only [reduceCtorEq, iff_false] at hiff
      omega
    · rw [List.append_assoc, pendingAfter_append]
      have hle := le_pipe_pendingAfter capacity
        ((Backend.pipe capacity).pendingAfter 0 pre) (mid ++ [.tryWait])
      simp only [List.count_append, count_notify_tryWait, List.count_singleton_self] at hle
      omega

/-! ## §6. The results. -/

theorem pendingAfter_le (b : Backend) (calls : List Call) (n : Nat) :
    b.pendingAfter n calls ≤ n + calls.length := by
  induction calls generalizing n with
  | nil => exact Nat.le_refl n
  | cons call calls ih =>
      have hafter : b.after n call ≤ n + 1 := by
        cases call with
        | notify => exact Nat.le_refl _
        | tryWait => cases b <;> simp only [Backend.after, Backend.left] <;> omega
      have hrest := ih (b.after n call)
      simp only [pendingAfter_cons, List.length_cons]
      omega

/-- A sequence that is not longer than the limit finds room. -/
theorem HasRoom.of_length {b : Backend} {calls : List Call} (h : calls.length ≤ b.limit) :
    HasRoom b 0 calls := by
  intro before hb
  have hlen := hb.length_le
  have hle := pendingAfter_le b before 0
  simp only [List.length_append, List.length_singleton] at hlen
  omega

/-- **The eventfd and the pipe give the same results iff no block of calls with
two more notifications than polls is followed by two polls in a row.** -/
theorem backends_agree_iff (capacity : Nat) (calls : List Call)
    (heventfd : HasRoom .eventfd 0 calls) (hpipe : HasRoom (.pipe capacity) 0 calls) :
    ∃ eventfd pipe, results .eventfd (init .eventfd) calls = some eventfd
      ∧ results (.pipe capacity) (init (.pipe capacity)) calls = some pipe
      ∧ (eventfd = pipe ↔ ¬ Overtakes calls) := by
  refine ⟨_, _, results_eq .eventfd calls heventfd, results_eq (.pipe capacity) calls hpipe, ?_⟩
  rw [← differ_iff_overtakes capacity, ← outcomes_ne_iff, not_not]

/-- Polls that keep up with the notifications: the backends agree. -/
theorem backends_agree_alternating :
    ∃ eventfd pipe,
      results .eventfd (init .eventfd) [.notify, .tryWait, .tryWait, .notify, .tryWait]
          = some eventfd
        ∧ results (.pipe 65536) (init (.pipe 65536))
            [.notify, .tryWait, .tryWait, .notify, .tryWait] = some pipe
        ∧ (eventfd = pipe
          ↔ ¬ Overtakes [.notify, .tryWait, .tryWait, .notify, .tryWait]) :=
  backends_agree_iff 65536 _ (HasRoom.of_length (by decide)) (HasRoom.of_length (by decide))

/-- Two notifications, then two polls: the eventfd has nothing for the second. -/
theorem backends_differ :
    HasRoom .eventfd 0 [.notify, .notify, .tryWait, .tryWait]
      ∧ HasRoom (.pipe 65536) 0 [.notify, .notify, .tryWait, .tryWait]
      ∧ results .eventfd (init .eventfd) [.notify, .notify, .tryWait, .tryWait]
          = some [.notified (.ok ()), .notified (.ok ()), .tried (.ok true), .tried (.ok false)]
      ∧ results (.pipe 65536) (init (.pipe 65536)) [.notify, .notify, .tryWait, .tryWait]
          = some [.notified (.ok ()), .notified (.ok ()), .tried (.ok true), .tried (.ok true)] :=
  ⟨HasRoom.of_length (by decide), HasRoom.of_length (by decide), by decide, by decide⟩

end Entangle.Platform.EventNotification
