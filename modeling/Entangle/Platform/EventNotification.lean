/-
  Entangle.Platform.EventNotification — `EventNotification` of
  entangle-platform/src/event.rs, shared by any number of threads.

  Every `fcntl`, `read` and `write` is one step.  `try_wait` sets `O_NONBLOCK`
  on the descriptor, reads, and clears it again; setting and clearing are a
  load and a store of all status flags (`set_nonblocking`).  The flag belongs to
  the open file and so to all threads.  It is looked at when a read is issued; a
  blocked read of a pipe looks again when it is woken up, one of an eventfd
  does not.  `fcntl` does not fail on an open descriptor; a read or write may
  fail for reasons of its own (the label says so).

  Main results:
    * `flag_clear_at_rest` — in every run, the flag is clear when no `try_wait`
      is in progress;
    * `reads_in_turn` — when the reads find the flag as they need it;
    * `try_wait_blocks` — two runs in which they do not.
-/
import Entangle.Lib.Transition
import Entangle.Lib.Word
import Entangle.Platform.Error
import Mathlib.Logic.Function.Basic
import Mathlib.Data.Fintype.Basic

namespace Entangle.Platform.EventNotification

open Entangle.Lib

/-! ## §1. The descriptor. -/

/-- What the event is made of: an eventfd on Linux, elsewhere a pipe, which
holds so many bytes. -/
inductive Backend where
  | eventfd
  | pipe (capacity : Nat)
  deriving Repr, DecidableEq

/-- `O_NONBLOCK`. -/
def Backend.nonblock : Backend → U32
  | .eventfd => 0x800#32
  | .pipe _ => 0x4#32

/-- The status flags of a new descriptor: `O_RDWR`, and `O_RDONLY` of the
reading end. -/
def Backend.newFlags : Backend → U32
  | .eventfd => 2#32
  | .pipe _ => 0#32

/-- The largest number of notifications pending. -/
def Backend.limit : Backend → Nat
  | .eventfd => 2 ^ 64 - 2
  | .pipe capacity => capacity

/-- The notifications that a read leaves: it takes all of an eventfd, one byte of a pipe. -/
def Backend.left : Backend → Nat → Nat
  | .eventfd, _ => 0
  | .pipe _, pending => pending - 1

/-- The backend's name in the error texts. -/
def Backend.name : Backend → String
  | .eventfd => "eventfd"
  | .pipe _ => "pipe"

/-- `std::io::Error` for `EAGAIN`. -/
def Backend.again : Backend → String
  | .eventfd => wouldBlock
  | .pipe _ => "Resource temporarily unavailable (os error 35)"

/-- What a system call has returned; `wouldBlock` is `EAGAIN`. -/
inductive IoResult where
  | done
  | wouldBlock
  | failed (reason : String)
  deriving Repr, DecidableEq

/-- What `wait` makes of its read. -/
def waitResult (b : Backend) : IoResult → Except PlatformError Unit
  | .done => .ok ()
  | .wouldBlock => .error (.event s!"{b.name} read failed: {b.again}")
  | .failed e => .error (.event s!"{b.name} read failed: {e}")

/-- What `try_wait` makes of its read, which is a call of `wait`. -/
def tryWaitResult : IoResult → Except PlatformError Bool
  | .done => .ok true
  | .wouldBlock => .ok false
  | .failed e => .error (.event s!"try_wait failed: {e}")

/-- What `notify` makes of its write. -/
def notifyResult (b : Backend) : IoResult → Except PlatformError Unit
  | .done => .ok ()
  | .wouldBlock => .error (.event s!"{b.name} write failed: {b.again}")
  | .failed e => .error (.event s!"{b.name} write failed: {e}")

/-! ## §2. Threads and steps. -/

/-- What a call has returned. -/
inductive Ret where
  | waited (r : Except PlatformError Unit)
  | tried (r : Except PlatformError Bool)
  | notified (r : Except PlatformError Unit)
  deriving DecidableEq

/-- Where a thread stands. -/
inductive Pc where
  -- no call made yet
  | idle
  | returned (r : Ret)
  -- wait: blocked in its read
  | waiting
  -- notify: blocked in its write
  | notifying
  -- set_nonblocking(true): flags read, F_SETFL to be made
  | setting (flags : U32)
  -- try_wait: the read to be issued
  | set
  -- try_wait: blocked in its read
  | stuck
  -- set_nonblocking(false): F_GETFL to be made
  | tried (r : IoResult)
  -- set_nonblocking(false): flags read, F_SETFL to be made
  | clearing (r : IoResult) (flags : U32)
  deriving DecidableEq

/-- A new call may start. -/
def Pc.resting : Pc → Bool
  | .idle | .returned _ => true
  | _ => false

/-- A `try_wait` between its setting `F_SETFL` and its clearing one. -/
def Pc.between : Pc → Bool
  | .set | .stuck | .tried _ | .clearing _ _ => true
  | _ => false

/-- A `try_wait` is in progress. -/
def Pc.trying : Pc → Bool
  | .setting _ => true
  | pc => pc.between

/-- The open file, and where each thread stands.  Of the status flags only those of the
readable end are here: nobody sets a flag of the writing end of a pipe. -/
structure State (Tid : Type) where
  -- the status flags of the readable end
  flags : U32
  -- notifications not yet consumed
  pending : Nat
  pc : Tid → Pc

/-- Who moves, and whether a read or write fails for a reason of its own.  A call starts with
its first system call. -/
inductive Act (Tid : Type) where
  | wait (t : Tid) (failure : Option String)
  | tryWait (t : Tid)
  | notify (t : Tid) (failure : Option String)
  | access (t : Tid) (failure : Option String)
  deriving Repr, DecidableEq

variable {Tid : Type} [DecidableEq Tid]

/-- `O_NONBLOCK` is set. -/
def State.nonblocking (s : State Tid) (b : Backend) : Prop := s.flags &&& b.nonblock ≠ 0#32

instance decidableNonblocking (s : State Tid) (b : Backend) : Decidable (s.nonblocking b) :=
  inferInstanceAs (Decidable (_ ≠ _))

/-- Thread `t` gets to `pc`. -/
def State.goto (s : State Tid) (t : Tid) (pc : Pc) : State Tid :=
  { s with pc := Function.update s.pc t pc }

/-- A read or write of thread `t` returns and leaves so many notifications. -/
def State.put (s : State Tid) (t : Tid) (pending : Nat) (pc : Pc) : State Tid :=
  { s with pending := pending, pc := Function.update s.pc t pc }

/-- `F_SETFL`. -/
def State.setFlags (s : State Tid) (t : Tid) (flags : U32) (pc : Pc) : State Tid :=
  { s with flags := flags, pc := Function.update s.pc t pc }

/-- A read that is issued: its result and the notifications left; `none` where it blocks. -/
def issueRead (b : Backend) (s : State Tid) : Option String → Option (IoResult × Nat)
  | some e => some (.failed e, s.pending)
  | none =>
      if 0 < s.pending then some (.done, b.left s.pending)
      else if s.nonblocking b then some (.wouldBlock, s.pending)
      else none

/-- A read that was blocked. -/
def resumeRead (b : Backend) (s : State Tid) (failure : Option String) :
    Option (IoResult × Nat) :=
  match b, failure with
  | .pipe _, failure => issueRead b s failure
  | .eventfd, some e => some (.failed e, s.pending)
  | .eventfd, none => if 0 < s.pending then some (.done, b.left s.pending) else none

/-- A write that is issued.  The eventfd is one descriptor for reading and
writing, the writing end of the pipe has flags of its own. -/
def issueWrite (b : Backend) (s : State Tid) : Option String → Option (IoResult × Nat)
  | some e => some (.failed e, s.pending)
  | none =>
      if s.pending < b.limit then some (.done, s.pending + 1)
      else if b = .eventfd ∧ s.nonblocking b then some (.wouldBlock, s.pending)
      else none

/-- A write that was blocked. -/
def resumeWrite (b : Backend) (s : State Tid) : Option String → Option (IoResult × Nat)
  | some e => some (.failed e, s.pending)
  | none => if s.pending < b.limit then some (.done, s.pending + 1) else none

/-- The next system call of thread `t`, or the end of one that was blocked. -/
def access (b : Backend) (s : State Tid) (t : Tid) (failure : Option String) :
    Option (State Tid) :=
  match s.pc t with
  | .waiting =>
      (resumeRead b s failure).map
        (fun (r, pending) => s.put t pending (.returned (.waited (waitResult b r))))
  | .notifying =>
      (resumeWrite b s failure).map
        (fun (r, pending) => s.put t pending (.returned (.notified (notifyResult b r))))
  | .setting flags => some (s.setFlags t (flags ||| b.nonblock) .set)
  | .set =>
      match issueRead b s failure with
      | some (r, pending) => some (s.put t pending (.tried r))
      | none => some (s.goto t .stuck)
  | .stuck => (resumeRead b s failure).map (fun (r, pending) => s.put t pending (.tried r))
  | .tried r => some (s.goto t (.clearing r s.flags))
  | .clearing r flags =>
      some (s.setFlags t (flags &&& ~~~ b.nonblock) (.returned (.tried (tryWaitResult r))))
  | .idle | .returned _ => none

def step (b : Backend) (s : State Tid) : Act Tid → Option (State Tid)
  | .wait t failure =>
      if (s.pc t).resting then
        match issueRead b s failure with
        | some (r, pending) => some (s.put t pending (.returned (.waited (waitResult b r))))
        | none => some (s.goto t .waiting)
      else none
  | .tryWait t => if (s.pc t).resting then some (s.goto t (.setting s.flags)) else none
  | .notify t failure =>
      if (s.pc t).resting then
        match issueWrite b s failure with
        | some (r, pending) => some (s.put t pending (.returned (.notified (notifyResult b r))))
        | none => some (s.goto t .notifying)
      else none
  | .access t failure => access b s t failure

/-- `EventNotification::new`, nobody in a call. -/
def init (b : Backend) : State Tid := { flags := b.newFlags, pending := 0, pc := fun _ => .idle }

/-! ## §3. Reads, and who disturbs them. -/

/-- The step issues the read of a `try_wait`. -/
def Act.tryReads (s : State Tid) : Act Tid → Bool
  | .access t _ => s.pc t = .set
  | _ => false

/-- In this step the read of a `wait` looks at the flag: it is issued, or it is
woken up in a pipe. -/
def Act.waitReads (b : Backend) (s : State Tid) : Act Tid → Bool
  | .wait _ _ => true
  | .access t _ => b ≠ .eventfd ∧ s.pc t = .waiting
  | _ => false

/-- The step is the clearing `F_SETFL` of a `try_wait`. -/
def Act.clears (s : State Tid) : Act Tid → Bool
  | .access t _ =>
      match s.pc t with
      | .clearing _ _ => true
      | _ => false
  | _ => false

/-- A `try_wait` clears the flag only while no other is between its setting
`F_SETFL` and its read; the read of a `wait` looks at the flag only while no
`try_wait` is between its setting and its clearing `F_SETFL`.  That refuses some steps
that do no harm: a `wait` that comes when another `try_wait` has cleared the flag
already, and a clearing `F_SETFL` after which a third `try_wait` sets the flag again
before the read. -/
def inTurn (b : Backend) (s : State Tid) (a : Act Tid) : Prop :=
  (a.clears s → ∀ t, s.pc t ≠ .set) ∧ (a.waitReads b s → ∀ t, (s.pc t).between = false)

instance decidableInTurn [Fintype Tid] (b : Backend) (s : State Tid) (a : Act Tid) :
    Decidable (inTurn b s a) :=
  inferInstanceAs (Decidable (_ ∧ _))

/-! ## §4. Everything a step can do. -/

inductive Moves (b : Backend) (s : State Tid) : Act Tid → State Tid → Prop
  | wait (t : Tid) (failure : Option String) (r : IoResult) (pending : Nat) :
      (s.pc t).resting = true → issueRead b s failure = some (r, pending) →
      Moves b s (.wait t failure) (s.put t pending (.returned (.waited (waitResult b r))))
  | waitBlocks (t : Tid) (failure : Option String) :
      (s.pc t).resting = true → issueRead b s failure = none →
      Moves b s (.wait t failure) (s.goto t .waiting)
  | tryWait (t : Tid) : (s.pc t).resting = true →
      Moves b s (.tryWait t) (s.goto t (.setting s.flags))
  | notify (t : Tid) (failure : Option String) (r : IoResult) (pending : Nat) :
      (s.pc t).resting = true → issueWrite b s failure = some (r, pending) →
      Moves b s (.notify t failure) (s.put t pending (.returned (.notified (notifyResult b r))))
  | notifyBlocks (t : Tid) (failure : Option String) :
      (s.pc t).resting = true → issueWrite b s failure = none →
      Moves b s (.notify t failure) (s.goto t .notifying)
  | waitResumes (t : Tid) (failure : Option String) (r : IoResult) (pending : Nat) :
      s.pc t = .waiting → resumeRead b s failure = some (r, pending) →
      Moves b s (.access t failure) (s.put t pending (.returned (.waited (waitResult b r))))
  | notifyResumes (t : Tid) (failure : Option String) (r : IoResult) (pending : Nat) :
      s.pc t = .notifying → resumeWrite b s failure = some (r, pending) →
      Moves b s (.access t failure) (s.put t pending (.returned (.notified (notifyResult b r))))
  | set (t : Tid) (failure : Option String) (flags : U32) : s.pc t = .setting flags →
      Moves b s (.access t failure) (s.setFlags t (flags ||| b.nonblock) .set)
  | read (t : Tid) (failure : Option String) (r : IoResult) (pending : Nat) :
      s.pc t = .set → issueRead b s failure = some (r, pending) →
      Moves b s (.access t failure) (s.put t pending (.tried r))
  | readBlocks (t : Tid) (failure : Option String) :
      s.pc t = .set → issueRead b s failure = none → Moves b s (.access t failure) (s.goto t .stuck)
  | readResumes (t : Tid) (failure : Option String) (r : IoResult) (pending : Nat) :
      s.pc t = .stuck → resumeRead b s failure = some (r, pending) →
      Moves b s (.access t failure) (s.put t pending (.tried r))
  | getFlags (t : Tid) (failure : Option String) (r : IoResult) : s.pc t = .tried r →
      Moves b s (.access t failure) (s.goto t (.clearing r s.flags))
  | clear (t : Tid) (failure : Option String) (r : IoResult) (flags : U32) :
      s.pc t = .clearing r flags →
      Moves b s (.access t failure)
        (s.setFlags t (flags &&& ~~~ b.nonblock) (.returned (.tried (tryWaitResult r))))

theorem access_cases {b : Backend} {s s' : State Tid} {t : Tid} {failure : Option String}
    (hs : access b s t failure = some s') : Moves b s (.access t failure) s' := by
  unfold access at hs
  split at hs
  next hpc =>
    obtain ⟨⟨r, pending⟩, hr, rfl⟩ := Option.map_eq_some_iff.mp hs
    exact .waitResumes t failure r pending hpc hr
  next hpc =>
    obtain ⟨⟨r, pending⟩, hr, rfl⟩ := Option.map_eq_some_iff.mp hs
    exact .notifyResumes t failure r pending hpc hr
  next flags hpc =>
    obtain rfl := Option.some.inj hs
    exact .set t failure flags hpc
  next hpc =>
    split at hs
    next r pending hr =>
      obtain rfl := Option.some.inj hs
      exact .read t failure r pending hpc hr
    next hr =>
      obtain rfl := Option.some.inj hs
      exact .readBlocks t failure hpc hr
  next hpc =>
    obtain ⟨⟨r, pending⟩, hr, rfl⟩ := Option.map_eq_some_iff.mp hs
    exact .readResumes t failure r pending hpc hr
  next r hpc =>
    obtain rfl := Option.some.inj hs
    exact .getFlags t failure r hpc
  next r flags hpc =>
    obtain rfl := Option.some.inj hs
    exact .clear t failure r flags hpc
  next => exact absurd hs (by simp)
  next => exact absurd hs (by simp)

theorem step_cases {b : Backend} {s s' : State Tid} {a : Act Tid} (hs : step b s a = some s') :
    Moves b s a s' := by
  cases a with
  | wait t failure =>
      simp only [step] at hs
      split at hs
      next hrest =>
        split at hs
        next r pending hr =>
          obtain rfl := Option.some.inj hs
          exact .wait t failure r pending hrest hr
        next hr =>
          obtain rfl := Option.some.inj hs
          exact .waitBlocks t failure hrest hr
      next => exact absurd hs (by simp)
  | tryWait t =>
      simp only [step] at hs
      split at hs
      next hrest =>
        obtain rfl := Option.some.inj hs
        exact .tryWait t hrest
      next => exact absurd hs (by simp)
  | notify t failure =>
      simp only [step] at hs
      split at hs
      next hrest =>
        split at hs
        next r pending hr =>
          obtain rfl := Option.some.inj hs
          exact .notify t failure r pending hrest hr
        next hr =>
          obtain rfl := Option.some.inj hs
          exact .notifyBlocks t failure hrest hr
      next => exact absurd hs (by simp)
  | access t failure => exact access_cases hs

/-! ## §5. The flag in every run. -/

theorem nonblock_ne_zero (b : Backend) : b.nonblock ≠ 0#32 := by
  cases b with
  | eventfd =>
      show 0x800#32 ≠ 0#32
      decide
  | pipe capacity =>
      show 0x4#32 ≠ 0#32
      decide

/-- `flags | O_NONBLOCK` has the flag set. -/
theorem set_nonblock (b : Backend) (flags : U32) :
    (flags ||| b.nonblock) &&& b.nonblock ≠ 0#32 := by
  have habsorb : (flags ||| b.nonblock) &&& b.nonblock = b.nonblock := by
    ext i hi
    rw [BitVec.getElem_and, BitVec.getElem_or]
    cases b.nonblock[i] with
    | true => rw [Bool.or_true, Bool.and_true]
    | false => rw [Bool.and_false]
  rw [habsorb]
  exact nonblock_ne_zero b

/-- `flags & !O_NONBLOCK` has it clear. -/
theorem clear_nonblock (b : Backend) (flags : U32) :
    flags &&& ~~~ b.nonblock &&& b.nonblock = 0#32 := by
  ext i hi
  simp

/-- If the flag is set, some `try_wait` has set it and not yet cleared it. -/
def FlagOwned (b : Backend) (s : State Tid) : Prop :=
  s.nonblocking b → ∃ t, (s.pc t).between = true

/-- A step of `t` that leaves the flags alone, and `t` between if it was. -/
theorem FlagOwned.keep {b : Backend} {s s' : State Tid} {t : Tid} {pc' : Pc} (h : FlagOwned b s)
    (hflags : s'.flags = s.flags) (hpc : s'.pc = Function.update s.pc t pc')
    (hbetween : (s.pc t).between = true → pc'.between = true) : FlagOwned b s' := by
  intro hset
  unfold State.nonblocking at hset
  rw [hflags] at hset
  obtain ⟨u, hu⟩ := h hset
  refine ⟨u, ?_⟩
  rw [hpc]
  by_cases hut : u = t
  · subst hut
    rw [Function.update_self]
    exact hbetween hu
  · rw [Function.update_of_ne hut]
    exact hu

theorem Pc.not_between_of_resting {pc : Pc} (h : pc.resting = true) : pc.between = false := by
  cases pc with
  | idle => rfl
  | returned r => rfl
  | _ => exact absurd h (by simp [Pc.resting])

theorem FlagOwned.step {b : Backend} {s s' : State Tid} {a : Act Tid} (h : FlagOwned b s)
    (hs : step b s a = some s') : FlagOwned b s' := by
  have hstart : ∀ {t : Tid} {pc' : Pc}, (s.pc t).resting = true →
      (s.pc t).between = true → pc'.between = true := by
    intro t pc' hrest hbetween
    rw [Pc.not_between_of_resting hrest] at hbetween
    exact absurd hbetween (by simp)
  cases step_cases hs with
  | wait t failure r pending hrest _ => exact h.keep rfl rfl (hstart hrest)
  | waitBlocks t failure hrest _ => exact h.keep rfl rfl (hstart hrest)
  | tryWait t hrest => exact h.keep rfl rfl (hstart hrest)
  | notify t failure r pending hrest _ => exact h.keep rfl rfl (hstart hrest)
  | notifyBlocks t failure hrest _ => exact h.keep rfl rfl (hstart hrest)
  | waitResumes t failure r pending hpc _ =>
      exact h.keep rfl rfl (fun hbetween => absurd hbetween (by simp [hpc, Pc.between]))
  | notifyResumes t failure r pending hpc _ =>
      exact h.keep rfl rfl (fun hbetween => absurd hbetween (by simp [hpc, Pc.between]))
  | set t failure flags _ =>
      intro _
      refine ⟨t, ?_⟩
      show (Function.update s.pc t Pc.set t).between = true
      rw [Function.update_self]
      rfl
  | read t failure r pending _ _ => exact h.keep rfl rfl (fun _ => rfl)
  | readBlocks t failure _ _ => exact h.keep rfl rfl (fun _ => rfl)
  | readResumes t failure r pending _ _ => exact h.keep rfl rfl (fun _ => rfl)
  | getFlags t failure r _ => exact h.keep rfl rfl (fun _ => rfl)
  | clear t failure r flags _ => exact fun hset => absurd (clear_nonblock b flags) hset

omit [DecidableEq Tid] in
theorem not_nonblocking_init (b : Backend) : ¬ (init b : State Tid).nonblocking b := by
  cases b with
  | eventfd =>
      show ¬ 2#32 &&& 0x800#32 ≠ 0#32
      decide
  | pipe capacity =>
      show ¬ 0#32 &&& 0x4#32 ≠ 0#32
      decide

/-- **When no `try_wait` is in progress the flag is clear**, in every run. -/
theorem flag_clear_at_rest {b : Backend} {ok : State Tid → Act Tid → Prop} {s : State Tid}
    (h : Reach (step b) ok (init b) s) (hrest : ∀ t, (s.pc t).between = false) :
    ¬ s.nonblocking b := by
  have howned : FlagOwned b s :=
    h.invariant (FlagOwned b) (fun hset => absurd hset (not_nonblocking_init b))
      (fun _ _ _ hinv _ hs => hinv.step hs)
  intro hset
  obtain ⟨t, ht⟩ := howned hset
  rw [hrest t] at ht
  exact absurd ht (by simp)

/-! ## §6. Runs in turn. -/

/-- A `try_wait` about to read finds the flag set, and none is blocked in its read. -/
structure Undisturbed (b : Backend) (s : State Tid) : Prop where
  set : ∀ t, s.pc t = .set → s.nonblocking b
  unstuck : ∀ t, s.pc t ≠ .stuck

omit [DecidableEq Tid] in
/-- With the flag set a read does not block. -/
theorem issueRead_ne_none {b : Backend} {s : State Tid} (hset : s.nonblocking b)
    (failure : Option String) : issueRead b s failure ≠ none := by
  cases failure with
  | some e => exact Option.some_ne_none _
  | none =>
      unfold issueRead
      by_cases hpending : 0 < s.pending
      · rw [if_pos hpending]
        exact Option.some_ne_none _
      · rw [if_neg hpending, if_pos hset]
        exact Option.some_ne_none _

/-- A thread that stands where the step did not bring anyone was there before. -/
theorem stood_before {s s' : State Tid} {t u : Tid} {pc pc' : Pc}
    (hpc : s'.pc = Function.update s.pc t pc') (hne : pc' ≠ pc) (hu : s'.pc u = pc) :
    s.pc u = pc := by
  rw [hpc] at hu
  by_cases hut : u = t
  · subst hut
    rw [Function.update_self] at hu
    exact absurd hu hne
  · rw [Function.update_of_ne hut] at hu
    exact hu

/-- A step of `t` that leaves the flags alone and does not bring it to its read. -/
theorem Undisturbed.keep {b : Backend} {s s' : State Tid} {t : Tid} {pc' : Pc}
    (h : Undisturbed b s) (hflags : s'.flags = s.flags)
    (hpc : s'.pc = Function.update s.pc t pc') (hset : pc' ≠ .set) (hstuck : pc' ≠ .stuck) :
    Undisturbed b s' := by
  constructor
  · intro u hu
    unfold State.nonblocking
    rw [hflags]
    exact h.set u (stood_before hpc hset hu)
  · intro u hu
    exact h.unstuck u (stood_before hpc hstuck hu)

theorem Undisturbed.step {b : Backend} {s s' : State Tid} {a : Act Tid} (h : Undisturbed b s)
    (hok : inTurn b s a) (hs : step b s a = some s') : Undisturbed b s' := by
  cases step_cases hs with
  | wait t failure r pending _ _ => exact h.keep rfl rfl (by simp) (by simp)
  | waitBlocks t failure _ _ => exact h.keep rfl rfl (by simp) (by simp)
  | tryWait t _ => exact h.keep rfl rfl (by simp) (by simp)
  | notify t failure r pending _ _ => exact h.keep rfl rfl (by simp) (by simp)
  | notifyBlocks t failure _ _ => exact h.keep rfl rfl (by simp) (by simp)
  | waitResumes t failure r pending _ _ => exact h.keep rfl rfl (by simp) (by simp)
  | notifyResumes t failure r pending _ _ => exact h.keep rfl rfl (by simp) (by simp)
  | set t failure flags _ =>
      refine ⟨fun _ _ => set_nonblock b flags, fun u hu => ?_⟩
      exact h.unstuck u (stood_before rfl (by simp) hu)
  | read t failure r pending _ _ => exact h.keep rfl rfl (by simp) (by simp)
  | readBlocks t failure hpc hr => exact absurd hr (issueRead_ne_none (h.set t hpc) failure)
  | readResumes t failure r pending _ _ => exact h.keep rfl rfl (by simp) (by simp)
  | getFlags t failure r _ => exact h.keep rfl rfl (by simp) (by simp)
  | clear t failure r flags hpc =>
      -- nobody is left whose read would find the flag clear
      have hnone : ∀ u, s.pc u ≠ .set := hok.1 (by simp [Act.clears, hpc])
      constructor
      · intro u hu
        exact absurd (stood_before rfl (by simp) hu) (hnone u)
      · intro u hu
        exact h.unstuck u (stood_before rfl (by simp) hu)

/-- **The reads find the flag as they need it** in every run in turn: the read
of a `try_wait` is issued while `O_NONBLOCK` is set, the read of a `wait` looks
at the flag while it is clear, the flag is clear whenever no `try_wait` is in
progress, and no `try_wait` is ever blocked. -/
theorem reads_in_turn (b : Backend) (s : State Tid) (h : Reach (step b) (inTurn b) (init b) s) :
    (∀ a s', inTurn b s a → step b s a = some s' →
        (a.tryReads s = true → s.nonblocking b) ∧ (a.waitReads b s = true → ¬ s.nonblocking b))
      ∧ ((∀ t, (s.pc t).trying = false) → ¬ s.nonblocking b)
      ∧ ∀ t, s.pc t ≠ .stuck := by
  have hinv : Undisturbed b s := by
    apply h.invariant (Undisturbed b)
    · exact ⟨fun t ht => absurd ht (by simp [init]), fun t ht => absurd ht (by simp [init])⟩
    · exact fun _ _ _ hinv hok hs => hinv.step hok hs
  refine ⟨fun a s' hok _ => ⟨fun htry => ?_, fun hwait => ?_⟩, fun hrest => ?_, hinv.unstuck⟩
  · cases a with
    | access t failure => exact hinv.set t (by simpa [Act.tryReads] using htry)
    | _ => exact absurd htry (by simp [Act.tryReads])
  · exact flag_clear_at_rest h (hok.2 hwait)
  · apply flag_clear_at_rest h
    intro t
    have htrying := hrest t
    cases hpc : s.pc t with
    | setting flags => rfl
    | _ => simpa [hpc, Pc.trying] using htrying

/-! ## §7. Two threads. -/

/-- Both are between setting and clearing at the same time, both read, then both
clear; then one notifies and the other waits. -/
def inTurnRun : List (Act Bool) :=
  [.tryWait true, .tryWait false, .access true none, .access false none,
   .access true none, .access false none, .access true none, .access true none,
   .access false none, .access false none, .notify true none, .wait false none]

theorem reads_in_turn_overlap :
    ∃ s : State Bool, Reach (step .eventfd) (inTurn .eventfd) (init .eventfd) s
      ∧ s.pc false = .returned (.waited (.ok ()))
      ∧ (∀ a s', inTurn .eventfd s a → step .eventfd s a = some s' →
          (a.tryReads s = true → s.nonblocking .eventfd)
            ∧ (a.waitReads .eventfd s = true → ¬ s.nonblocking .eventfd))
      ∧ ((∀ t, (s.pc t).trying = false) → ¬ s.nonblocking .eventfd)
      ∧ ∀ t, s.pc t ≠ .stuck := by
  have hrun : (execOk (step .eventfd) (inTurn .eventfd) (init .eventfd : State Bool)
      inTurnRun).map (fun s => s.pc false) = some (.returned (.waited (.ok ()))) := by
    decide
  obtain ⟨s, hs, hends⟩ := Option.map_eq_some_iff.mp hrun
  have hreach := Reach.of_execOk inTurnRun .refl hs
  exact ⟨s, hreach, hends, reads_in_turn .eventfd s hreach⟩

/-- `false` sets the flag, reads and clears it while `true` is between its
setting and its read. -/
def clearedRun : List (Act Bool) :=
  [.tryWait true, .access true none, .tryWait false, .access false none, .access false none,
   .access false none, .access false none]

/-- `true` sets the flag. -/
def setRun : List (Act Bool) := [.tryWait true, .access true none]

/-- **`try_wait` blocks and `wait` fails**: after `clearedRun` the read of the
`try_wait` of `true` is issued with the flag clear, and blocks; after `setRun`
the read of a `wait` of `false` is issued with the flag set, and fails. -/
theorem try_wait_blocks :
    (∃ s s' : State Bool, Reach (step .eventfd) anyStep (init .eventfd) s
        ∧ (Act.access true none).tryReads s = true ∧ ¬ s.nonblocking .eventfd
        ∧ step .eventfd s (.access true none) = some s' ∧ s'.pc true = .stuck)
      ∧ ∃ s s' : State Bool, Reach (step .eventfd) anyStep (init .eventfd) s
        ∧ s.nonblocking .eventfd ∧ step .eventfd s (.wait false none) = some s'
        ∧ s'.pc false = .returned (.waited (.error (.event
            "eventfd read failed: Resource temporarily unavailable (os error 11)"))) := by
  have hcleared : (exec (step .eventfd) (init .eventfd : State Bool) clearedRun).any (fun s =>
      (Act.access true none).tryReads s && !decide (s.nonblocking .eventfd)
        && (step .eventfd s (.access true none)).any (fun s' => s'.pc true = .stuck)) := by
    decide
  have hset : (exec (step .eventfd) (init .eventfd : State Bool) setRun).any (fun s =>
      decide (s.nonblocking .eventfd)
        && (step .eventfd s (.wait false none)).any (fun s' => s'.pc false
          = .returned (.waited (.error (.event
            "eventfd read failed: Resource temporarily unavailable (os error 11)"))))) := by
    decide
  simp only [Option.any_eq_true, Bool.and_eq_true, Bool.not_eq_true', decide_eq_false_iff_not,
    decide_eq_true_eq] at hcleared hset
  obtain ⟨s, hs, ⟨htry, hclear⟩, s', hs', hstuck⟩ := hcleared
  obtain ⟨u, hu, hnonblock, u', hu', hfails⟩ := hset
  exact ⟨⟨s, s', .of_exec clearedRun .refl hs, htry, hclear, hs', hstuck⟩,
    ⟨u, u', .of_exec setRun .refl hu, hnonblock, hu', hfails⟩⟩

end Entangle.Platform.EventNotification
