/-
  Entangle.Platform.EventLinearization — `notify`, `wait` and `try_wait` of
  `EventNotification` (entangle-platform/src/event.rs) as calls on a counter.

  A call that reads or writes the descriptor takes effect at that system call.  A
  `try_wait` goes on after its read, to clear the flag; what it returns has been
  settled by then.  Whether `O_NONBLOCK` is set when a read is issued decides only
  whether a call without a notification waits or returns.

  A read or a write may fail; the `fcntl` calls succeed, as they do on an open
  descriptor.  A `try_wait` whose clearing `fcntl` failed after a successful read
  would return `Err` and keep what it has taken.

  Main results:
    * `event_linearizable` — the calls are those of a counter of notifications;
    * `sent_eq` — a pipe gives out each notification once;
    * `sent_since_taken` — an eventfd gives out all there are at once.
-/
import Entangle.Lib.Linearizable
import Entangle.Platform.EventNotification

namespace Entangle.Platform.EventNotification

open Entangle.Lib (Atomic CallerView Phase Sequential Traced traceOk anyStep)

/-! ## §1. The counter. -/

/-- The calls. -/
inductive Op where
  | notify
  | wait
  | tryWait
  deriving Repr, DecidableEq

/-- A read while so many notifications are pending, and how many it leaves. -/
inductive Reads (b : Backend) : Nat → IoResult → Nat → Prop
  | done (n : Nat) : 0 < n → Reads b n .done (b.left n)
  | nothing : Reads b 0 .wouldBlock 0
  | failed (n : Nat) (e : String) : Reads b n (.failed e) n

/-- A write while so many notifications are pending, and how many there are then. -/
inductive Writes (b : Backend) : Nat → IoResult → Nat → Prop
  | done (n : Nat) : n < b.limit → Writes b n .done (n + 1)
  | full (n : Nat) : b.limit ≤ n → Writes b n .wouldBlock n
  | failed (n : Nat) (e : String) : Writes b n (.failed e) n

/-- The sequential object: a number of notifications. -/
inductive CounterCall (b : Backend) : Nat → Op → Ret → Nat → Prop
  | notify (n n' : Nat) (r : IoResult) : Writes b n r n' →
      CounterCall b n .notify (.notified (notifyResult b r)) n'
  | wait (n n' : Nat) (r : IoResult) : Reads b n r n' →
      CounterCall b n .wait (.waited (waitResult b r)) n'
  | tryWait (n n' : Nat) (r : IoResult) : Reads b n r n' →
      CounterCall b n .tryWait (.tried (tryWaitResult r)) n'

section SystemCalls

variable {Tid : Type} {b : Backend} {s : State Tid} {failure : Option String} {r : IoResult}
  {n : Nat}

theorem reads_of_issueRead (h : issueRead b s failure = some (r, n)) :
    Reads b s.pending r n := by
  unfold issueRead at h
  split at h
  next e =>
    injection h with h
    injection h with hr hn
    subst hr hn
    exact .failed _ e
  next =>
    split at h
    next hpos =>
      injection h with h
      injection h with hr hn
      subst hr hn
      exact .done _ hpos
    next hzero =>
      split at h
      next =>
        injection h with h
        injection h with hr hn
        subst hr hn
        rw [Nat.eq_zero_of_not_pos hzero]
        exact .nothing
      next => exact absurd h (by simp)

theorem reads_of_resumeRead (h : resumeRead b s failure = some (r, n)) :
    Reads b s.pending r n := by
  unfold resumeRead at h
  split at h
  next => exact reads_of_issueRead h
  next e =>
    injection h with h
    injection h with hr hn
    subst hr hn
    exact .failed _ e
  next =>
    split at h
    next hpos =>
      injection h with h
      injection h with hr hn
      subst hr hn
      exact .done _ hpos
    next => exact absurd h (by simp)

theorem writes_of_resumeWrite (h : resumeWrite b s failure = some (r, n)) :
    Writes b s.pending r n := by
  unfold resumeWrite at h
  split at h
  next e =>
    injection h with h
    injection h with hr hn
    subst hr hn
    exact .failed _ e
  next =>
    split at h
    next hroom =>
      injection h with h
      injection h with hr hn
      subst hr hn
      exact .done _ hroom
    next => exact absurd h (by simp)

theorem writes_of_issueWrite (h : issueWrite b s failure = some (r, n)) :
    Writes b s.pending r n := by
  unfold issueWrite at h
  split at h
  next e =>
    injection h with h
    injection h with hr hn
    subst hr hn
    exact .failed _ e
  next =>
    split at h
    next hroom =>
      injection h with h
      injection h with hr hn
      subst hr hn
      exact .done _ hroom
    next hfull =>
      split at h
      next =>
        injection h with h
        injection h with hr hn
        subst hr hn
        exact .full _ (Nat.le_of_not_lt hfull)
      next => exact absurd h (by simp)

end SystemCalls

/-! ## §2. The calls as their callers see them. -/

/-- How far a thread is with its call. -/
def Pc.phase : Pc → Phase Op Ret
  | .idle | .returned _ => .idle
  | .waiting => .called .wait
  | .notifying => .called .notify
  | .setting _ | .set | .stuck => .called .tryWait
  | .tried r | .clearing r _ => .done (.tried (tryWaitResult r))

/-- What a call returns that gets to the second place. -/
def Pc.returns : Pc → Pc → Option Ret
  | _, .returned r => some r
  | _, _ => none

theorem Pc.phase_of_resting {pc : Pc} (hrest : pc.resting = true) : pc.phase = .idle := by
  cases pc with
  | idle | returned _ => rfl
  | _ => exact absurd hrest (by simp [Pc.resting])

/-- The call that a step starts. -/
def Act.calls {Tid : Type} : Act Tid → Option Op
  | .wait _ _ => some .wait
  | .tryWait _ => some .tryWait
  | .notify _ _ => some .notify
  | .access _ _ => none

/-- The thread that moves. -/
def Act.thread {Tid : Type} : Act Tid → Tid
  | .wait t _ | .tryWait t | .notify t _ | .access t _ => t

variable {Tid : Type} [DecidableEq Tid]

def view (b : Backend) (Tid : Type) [DecidableEq Tid] :
    CallerView (State Tid) (Act Tid) Tid Pc Op Ret where
  step := step b
  thread := Act.thread
  pc := State.pc
  calls := Act.calls
  returns := Pc.returns
  phase _ := Pc.phase

variable {b : Backend} {h : List (Lib.Event Tid Op Ret)} {l : List (Tid × Op × Ret)}
  {s s' : State Tid} {n : Nat}

/-- A step takes its thread from one place to another. -/
theorem view_moves {a : Act Tid} {pc' : Pc} (hs : step b s a = some s')
    (hpc : s'.pc = Function.update s.pc a.thread pc') :
    (view b Tid).Moves s a s' pc' pc'.phase :=
  .of_update (view b Tid) hs hpc (fun _ _ => rfl)

/-- **The step lemma**: the counter can follow every step. -/
theorem step_follows {a : Act Tid} (hs : step b s a = some s')
    (ha : Atomic (CounterCall b) 0 h l s.pending ((view b Tid).phases s)) :
    ∃ l', Atomic (CounterCall b) 0 (h ++ (view b Tid).shows s a) l' s'.pending
      ((view b Tid).phases s') := by
  have hgo : ∀ pc', s'.pc = Function.update s.pc a.thread pc' →
      (view b Tid).Moves s a s' pc' pc'.phase := fun pc' hpc => view_moves hs hpc
  cases step_cases hs with
  | wait t failure r pending hrest hr =>
      exact ⟨_, (hgo _ rfl).immediate ha rfl rfl (Pc.phase_of_resting hrest)
        (.wait _ _ r (reads_of_issueRead hr))⟩
  | waitBlocks t failure hrest _ =>
      exact ⟨l, (hgo _ rfl).call ha rfl rfl (Pc.phase_of_resting hrest)⟩
  | tryWait t hrest => exact ⟨l, (hgo _ rfl).call ha rfl rfl (Pc.phase_of_resting hrest)⟩
  | notify t failure r pending hrest hr =>
      exact ⟨_, (hgo _ rfl).immediate ha rfl rfl (Pc.phase_of_resting hrest)
        (.notify _ _ r (writes_of_issueWrite hr))⟩
  | notifyBlocks t failure hrest _ =>
      exact ⟨l, (hgo _ rfl).call ha rfl rfl (Pc.phase_of_resting hrest)⟩
  | waitResumes t failure r pending hpc hr =>
      exact ⟨_, (hgo _ rfl).finish ha rfl rfl (congrArg Pc.phase hpc)
        (.wait _ _ r (reads_of_resumeRead hr))⟩
  | notifyResumes t failure r pending hpc hr =>
      exact ⟨_, (hgo _ rfl).finish ha rfl rfl (congrArg Pc.phase hpc)
        (.notify _ _ r (writes_of_resumeWrite hr))⟩
  | set t failure flags hpc =>
      exact ⟨l, (hgo _ rfl).silent ha rfl rfl (congrArg Pc.phase hpc).symm⟩
  | read t failure r pending hpc hr =>
      exact ⟨_, (hgo _ rfl).effect ha rfl rfl (congrArg Pc.phase hpc)
        (.tryWait _ _ r (reads_of_issueRead hr))⟩
  | readBlocks t failure hpc _ =>
      exact ⟨l, (hgo _ rfl).silent ha rfl rfl (congrArg Pc.phase hpc).symm⟩
  | readResumes t failure r pending hpc hr =>
      exact ⟨_, (hgo _ rfl).effect ha rfl rfl (congrArg Pc.phase hpc)
        (.tryWait _ _ r (reads_of_resumeRead hr))⟩
  | getFlags t failure r hpc =>
      exact ⟨l, (hgo _ rfl).silent ha rfl rfl (congrArg Pc.phase hpc).symm⟩
  | clear t failure r flags hpc =>
      exact ⟨l, (hgo _ rfl).ret ha rfl rfl (congrArg Pc.phase hpc)⟩

/-! ## §3. Notifications sent and taken. -/

/-- A notification has been added. -/
def Ret.sent : Ret → Bool
  | .notified (.ok _) => true
  | _ => false

/-- A read has found notifications. -/
def Ret.took : Ret → Bool
  | .waited (.ok _) | .tried (.ok true) => true
  | _ => false

/-- How many calls of a list have sent a notification. -/
def sent (l : List (Tid × Op × Ret)) : Nat := l.countP (fun c => c.2.2.sent)

/-- How many have found some. -/
def taken (l : List (Tid × Op × Ret)) : Nat := l.countP (fun c => c.2.2.took)

omit [DecidableEq Tid] in
theorem sent_concat (l : List (Tid × Op × Ret)) (c : Tid × Op × Ret) :
    sent (l ++ [c]) = sent l + if c.2.2.sent then 1 else 0 := by
  simp [sent, List.countP_append, List.countP_singleton]

omit [DecidableEq Tid] in
theorem taken_concat (l : List (Tid × Op × Ret)) (c : Tid × Op × Ret) :
    taken (l ++ [c]) = taken l + if c.2.2.took then 1 else 0 := by
  simp [taken, List.countP_append, List.countP_singleton]

/-- What a call on the counter does: it sends, takes, or changes nothing. -/
theorem counterCall_cases {n n' : Nat} {op : Op} {r : Ret} (h : CounterCall b n op r n') :
    (r.sent = true ∧ r.took = false ∧ n < b.limit ∧ n' = n + 1)
      ∨ (r.sent = false ∧ r.took = true ∧ 0 < n ∧ n' = b.left n)
      ∨ (r.sent = false ∧ r.took = false ∧ n' = n) := by
  cases h with
  | notify _ r hw =>
      cases hw with
      | done hroom => exact .inl ⟨rfl, rfl, hroom, rfl⟩
      | full | failed => exact .inr (.inr ⟨rfl, rfl, rfl⟩)
  | wait _ r hr =>
      cases hr with
      | done _ hpos => exact .inr (.inl ⟨rfl, rfl, hpos, rfl⟩)
      | nothing | failed => exact .inr (.inr ⟨rfl, rfl, rfl⟩)
  | tryWait _ r hr =>
      cases hr with
      | done _ hpos => exact .inr (.inl ⟨rfl, rfl, hpos, rfl⟩)
      | nothing | failed => exact .inr (.inr ⟨rfl, rfl, rfl⟩)

theorem left_lt (b : Backend) {n : Nat} (h : 0 < n) : b.left n < n := by
  cases b with
  | eventfd => exact h
  | pipe capacity =>
      show n - 1 < n
      omega

omit [DecidableEq Tid] in
/-- **No notification is taken twice**, and never are more pending than there is room for. -/
theorem taken_le (hseq : Sequential (CounterCall b) 0 l n) :
    taken l + n ≤ sent l ∧ n ≤ b.limit := by
  induction hseq with
  | nil => exact ⟨Nat.le_refl _, Nat.zero_le _⟩
  | snoc t op r _ hspec ih =>
      rw [taken_concat, sent_concat]
      rcases counterCall_cases hspec with ⟨hsent, htook, hroom, rfl⟩ | ⟨hsent, htook, hpos, rfl⟩
        | ⟨hsent, htook, rfl⟩
      · simp only [hsent, htook, Bool.false_eq_true, if_true, if_false]
        omega
      · have hleft := left_lt b hpos
        simp only [hsent, htook, Bool.false_eq_true, if_true, if_false]
        omega
      · simp only [hsent, htook, Bool.false_eq_true, if_false]
        omega

omit [DecidableEq Tid] in
/-- **A pipe gives out each notification once.** -/
theorem sent_eq {capacity : Nat} (hseq : Sequential (CounterCall (.pipe capacity)) 0 l n) :
    sent l = taken l + n := by
  induction hseq with
  | nil => rfl
  | snoc t op r _ hspec ih =>
      rw [taken_concat, sent_concat]
      rcases counterCall_cases hspec with ⟨hsent, htook, _, rfl⟩ | ⟨hsent, htook, hpos, rfl⟩
        | ⟨hsent, htook, rfl⟩
      · simp only [hsent, htook, Bool.false_eq_true, if_true, if_false]
        omega
      · simp only [hsent, htook, Backend.left, Bool.false_eq_true, if_true, if_false]
        omega
      · simp only [hsent, htook, Bool.false_eq_true, if_false]
        omega

omit [DecidableEq Tid] in
/-- **An eventfd gives out all there are**: pending is what has been sent since a call
last took any. -/
theorem sent_since_taken (hseq : Sequential (CounterCall .eventfd) 0 l n) :
    ∃ before since, l = before ++ since ∧ taken since = 0 ∧ sent since = n
      ∧ (before = [] ∨ ∃ c, before.getLast? = some c ∧ c.2.2.took = true) := by
  induction hseq with
  | nil => exact ⟨[], [], rfl, rfl, rfl, .inl rfl⟩
  | snoc t op r _ hspec ih =>
      obtain ⟨before, since, rfl, htaken, hsent, hlast⟩ := ih
      rcases counterCall_cases hspec with ⟨hsent', htook, _, rfl⟩ | ⟨_, htook, _, rfl⟩
        | ⟨hsent', htook, rfl⟩
      · refine ⟨before, since ++ [(t, op, r)], List.append_assoc _ _ _, ?_, ?_, hlast⟩
        · rw [taken_concat, htaken]
          simp [htook]
        · rw [sent_concat, hsent]
          simp [hsent']
      · -- everything has been taken
        refine ⟨before ++ since ++ [(t, op, r)], [], (List.append_nil _).symm, rfl, rfl, .inr ?_⟩
        exact ⟨(t, op, r), List.getLast?_concat, htook⟩
      · refine ⟨before, since ++ [(t, op, r)], List.append_assoc _ _ _, ?_, ?_, hlast⟩
        · rw [taken_concat, htaken]
          simp [htook]
        · rw [sent_concat, hsent]
          simp [hsent']

/-! ## §4. Every run. -/

/-- **`EventNotification` is an atomic counter.**  Whatever the interleaving of the
system calls, of which any read or write may fail, the invocations and returns that the
callers see are those of a number of notifications, first none, on which each call acts
at one moment between its invocation and its return: a `notify` that returns `Ok` adds
one, a `wait` or `try_wait` that finds some takes what the backend gives out, `try_wait`
returns `Ok(false)` only when there are none, and a call that returns `Err` changes
nothing.  So no notification is lost and none is taken twice: what is pending on a pipe
is what has been sent less what has been taken, and on an eventfd what has been sent
since some were taken. -/
theorem event_linearizable (b : Backend) (h : List (Lib.Event Tid Op Ret)) (s : State Tid)
    (htraced : Traced (step b) anyStep (view b Tid).shows (init b) h s) :
    ∃ l, Atomic (CounterCall b) 0 h l s.pending ((view b Tid).phases s)
      ∧ Sequential (CounterCall b) 0 l s.pending
      ∧ taken l + s.pending ≤ sent l ∧ s.pending ≤ b.limit
      ∧ (∀ capacity, b = .pipe capacity → sent l = taken l + s.pending)
      ∧ (b = .eventfd → ∃ before since, l = before ++ since ∧ taken since = 0
          ∧ sent since = s.pending
          ∧ (before = [] ∨ ∃ c, before.getLast? = some c ∧ c.2.2.took = true)) := by
  obtain ⟨l, q, f, ha, rfl, rfl⟩ := Atomic.of_traced
    (fun (s : State Tid) q f => q = s.pending ∧ f = (view b Tid).phases s)
    ⟨rfl, rfl⟩
    (by
      rintro s a s' h l q f ⟨rfl, rfl⟩ _ hs ha
      obtain ⟨l', ha'⟩ := step_follows hs ha
      exact ⟨l', _, _, ha', rfl, rfl⟩)
    htraced
  obtain ⟨htaken, hlimit⟩ := taken_le ha.order
  refine ⟨l, ha, ha.order, htaken, hlimit, ?_, ?_⟩
  · rintro capacity rfl
    exact sent_eq ha.order
  · rintro rfl
    exact sent_since_taken ha.order

/-- A `try_wait` takes both notifications; a `wait` that finds its flag still set fails. -/
def takenRun : List (Act Bool) :=
  [.notify true none, .tryWait false, .notify true none, .access false none, .access false none,
   .wait true none, .access false none, .access false none]

theorem event_linearizable_taken :
    ∃ (h : List (Lib.Event Bool Op Ret)) (s : State Bool),
      h = [.call true .notify, .ret true (.notified (.ok ())), .call false .tryWait,
          .call true .notify, .ret true (.notified (.ok ())), .call true .wait,
          .ret true (.waited (.error (.event
            "eventfd read failed: Resource temporarily unavailable (os error 11)"))),
          .ret false (.tried (.ok true))]
        ∧ ∃ l, Atomic (CounterCall .eventfd) 0 h l s.pending ((view .eventfd Bool).phases s)
          ∧ taken l + s.pending ≤ sent l := by
  have hrun : (traceOk (step .eventfd) anyStep (view .eventfd Bool).shows
      (([], init .eventfd) : List (Lib.Event Bool Op Ret) × State Bool) takenRun).map Prod.fst
        = some [.call true .notify, .ret true (.notified (.ok ())), .call false .tryWait,
          .call true .notify, .ret true (.notified (.ok ())), .call true .wait,
          .ret true (.waited (.error (.event
            "eventfd read failed: Resource temporarily unavailable (os error 11)"))),
          .ret false (.tried (.ok true))] := by
    decide +kernel
  obtain ⟨p, hp, hh⟩ := Option.map_eq_some_iff.mp hrun
  have htraced := Traced.of_traceOk takenRun .refl hp
  obtain ⟨l, ha, _, hle, _⟩ := event_linearizable .eventfd p.1 p.2 htraced
  exact ⟨p.1, p.2, hh, l, ha, hle⟩

end Entangle.Platform.EventNotification
