/-
  Entangle.Registry.OpenOrCreate — `ServiceLifecycle::open_or_create` by several
  processes at once (entangle/src/service/lifecycle.rs over registry.rs).

  A call reads the file of the service; if there is none it creates the file,
  empty, and then writes the config into it.  Each of the three is one step, and
  the processes interleave.  `registered` lists the processes whose creation
  succeeded.

  Between a failed read and the end of the write the service is neither absent
  nor there.  A second read in that time finds no file, and its creation fails,
  or finds an empty one, which does not decode.

  Main definitions:
    * `settled` — nobody is between its failed read and the end of its write.

  Main results:
    * `open_or_create_races`, `open_or_create_corrupted` — two processes do not converge;
    * `open_or_create_converges` — runs that read only when all is settled do.
-/
import Entangle.Registry.ServiceRegistry

namespace Entangle.Registry.OpenOrCreate

open Entangle.Lib

/-! ## §1. Processes and steps. -/

/-- Where a process stands. -/
inductive Pc where
  -- no call made yet
  | idle
  -- `NotFound`: the file is to be created
  | notFound
  -- the file is created, its text to be written
  | created (serialized : String)
  | returned (r : Except ServiceError StaticConfig)
  deriving DecidableEq

/-- A new call may start. -/
def Pc.resting : Pc → Bool
  | .idle | .returned _ => true
  | _ => false

/-- How many accesses are left of the call. -/
def Pc.remaining : Pc → Nat
  | .notFound => 2
  | .created _ => 1
  | _ => 0

/-- The files of the registry, and where each process stands in `open_or_create`. -/
structure State (Pid : Type) where
  files : Files
  pc : Pid → Pc
  -- the processes whose creation of the file succeeded
  registered : List Pid

/-- Who moves: a call starts with its read. -/
inductive Act (Pid : Type) where
  | openOrCreate (p : Pid)
  | access (p : Pid)
  deriving Repr, DecidableEq

variable {Pid : Type} [DecidableEq Pid]

/-- Process `p` gets to `pc`. -/
def State.goto (s : State Pid) (p : Pid) (pc : Pc) : State Pid :=
  { s with pc := Function.update s.pc p pc }

/-- The read of `open`, and what `open_or_create` makes of it. -/
def State.read (ron : Ron) (config : StaticConfig) (s : State Pid) (p : Pid) : State Pid :=
  match openService ron s.files config with
  | .ok existing => s.goto p (.returned (.ok existing))
  | .error (.notFound _) => s.goto p .notFound
  | .error e => s.goto p (.returned (.error e))

/-- One step; every process opens the service with the same config. -/
def step (ron : Ron) (config : StaticConfig) (s : State Pid) : Act Pid → Option (State Pid)
  | .openOrCreate p => if (s.pc p).resting then some (s.read ron config p) else none
  | .access p =>
      match s.pc p with
      | .notFound =>
          match ron.toStr config with
          | .error e =>
              some (s.goto p (.returned (.error (.corrupted s!"serialization failed: {e}"))))
          | .ok serialized =>
              match createNew s.files (servicePath config.serviceName) with
              | none => some (s.goto p (.returned (.error (.alreadyExists config.serviceName))))
              | some files =>
                  some { files := files
                         pc := Function.update s.pc p (.created serialized)
                         registered := p :: s.registered }
      | .created serialized =>
          some { s with
            files := writeAll s.files (servicePath config.serviceName) serialized
            pc := Function.update s.pc p (.returned (.ok config)) }
      | .idle | .returned _ => none

/-- Nobody in a call. -/
def init (files : Files) : State Pid :=
  { files := files, pc := fun _ => .idle, registered := [] }

/-- A call that is not interrupted is `openOrCreate`. -/
theorem openOrCreate_alone (ron : Ron) (config : StaticConfig) (s : State Pid) (p : Pid)
    (hrest : (s.pc p).resting = true) :
    ∃ acts s', exec (step ron config) s acts = some s'
      ∧ s'.files = (openOrCreate ron s.files config).2
      ∧ s'.pc p = .returned (openOrCreate ron s.files config).1 := by
  unfold openOrCreate
  cases hopen : openService ron s.files config with
  | ok existing =>
      refine ⟨[.openOrCreate p], ?_⟩
      simp [exec, step, hrest, State.read, hopen, State.goto]
  | error e =>
      cases e with
      | notFound name =>
          unfold createService register
          cases henc : ron.toStr config with
          | error e =>
              refine ⟨[.openOrCreate p, .access p], ?_⟩
              simp [exec, step, hrest, State.read, hopen, State.goto, henc]
          | ok serialized =>
              cases hnew : createNew s.files (servicePath config.serviceName) with
              | none =>
                  refine ⟨[.openOrCreate p, .access p], ?_⟩
                  simp [exec, step, hrest, State.read, hopen, State.goto, henc, hnew]
              | some files =>
                  refine ⟨[.openOrCreate p, .access p, .access p], ?_⟩
                  simp [exec, step, hrest, State.read, hopen, State.goto, henc, hnew]
      | _ =>
          refine ⟨[.openOrCreate p], ?_⟩
          simp [exec, step, hrest, State.read, hopen, State.goto]

/-! ## §2. Two processes at once. -/

/-- RON for the one service. -/
def oneRon : Ron := ronOf [u64Config "a"]

theorem oneRon_encodes : oneRon.Encodes (u64Config "a") (ronText (u64Config "a")) :=
  ⟨rfl, by decide⟩

/-- Both read before either creates the file: the second creation fails. -/
theorem open_or_create_races :
    oneRon.Encodes (u64Config "a") (ronText (u64Config "a"))
      ∧ oneRon.fromStr "" = .error expectedStruct
      ∧ ∃ s : State Bool, Reach (step oneRon (u64Config "a")) anyStep (init (fun _ => none)) s
        ∧ s.pc true = .returned (.ok (u64Config "a"))
        ∧ s.pc false = .returned (.error (.alreadyExists "a")) := by
  have hrun : (exec (step oneRon (u64Config "a")) (init (fun _ => none) : State Bool)
      [.openOrCreate true, .openOrCreate false, .access true, .access true, .access false]).map
        (fun s => (s.pc true, s.pc false))
      = some (.returned (.ok (u64Config "a")), .returned (.error (.alreadyExists "a"))) := by
    decide
  obtain ⟨s, hs, hends⟩ := Option.map_eq_some_iff.mp hrun
  exact ⟨oneRon_encodes, by decide, s, Reach.of_exec _ .refl hs, congrArg Prod.fst hends,
    congrArg Prod.snd hends⟩

/-- The second reads between the creation and the write: the empty file does not
decode. -/
theorem open_or_create_corrupted :
    ∃ s : State Bool, Reach (step oneRon (u64Config "a")) anyStep (init (fun _ => none)) s
      ∧ s.pc false = .returned (.error
          (.corrupted ("deserialization failed: " ++ expectedStruct))) := by
  have hrun : (exec (step oneRon (u64Config "a")) (init (fun _ => none) : State Bool)
      [.openOrCreate true, .access true, .openOrCreate false]).map (fun s => s.pc false)
      = some (.returned (.error
          (.corrupted ("deserialization failed: " ++ expectedStruct)))) := by
    decide
  obtain ⟨s, hs, hend⟩ := Option.map_eq_some_iff.mp hrun
  exact ⟨s, Reach.of_exec _ .refl hs, hend⟩

/-! ## §3. Runs that read when all is settled. -/

/-- A read is made only when nobody is between its failed read and the end of
its write. -/
def settled (s : State Pid) : Act Pid → Prop
  | .openOrCreate _ => ∀ q, (s.pc q).remaining = 0
  | .access _ => True

/-- How far the service is: no file and at most one process about to create it;
an empty file that one process is about to fill; the complete file. -/
inductive Phase (config : StaticConfig) (text : String) (s : State Pid) : Prop
  | absent : s.files (servicePath config.serviceName) = none → s.registered = [] →
      (∀ p, (s.pc p).remaining ≠ 0 → s.pc p = .notFound) →
      (∀ p q, (s.pc p).remaining ≠ 0 → (s.pc q).remaining ≠ 0 → p = q) →
      (∀ p r, s.pc p ≠ .returned r) → Phase config text s
  | empty (w : Pid) : s.files (servicePath config.serviceName) = some "" →
      s.registered = [w] → s.pc w = .created text →
      (∀ p, (s.pc p).remaining ≠ 0 → p = w) → Phase config text s
  | complete (w : Pid) : s.files (servicePath config.serviceName) = some text →
      s.registered = [w] → (∀ p, (s.pc p).remaining = 0) → Phase config text s

/-- Whoever has returned has the config, and the file and those still inside are at one
of the stages of `Phase`. -/
structure Inv (config : StaticConfig) (text : String) (s : State Pid) : Prop where
  returned : ∀ p r, s.pc p = .returned r → r = .ok config
  phase : Phase config text s

/-- What `open` gives, by the file of the service. -/
theorem openService_of_none (ron : Ron) {files : Files} {config : StaticConfig}
    (h : files (servicePath config.serviceName) = none) :
    openService ron files config = .error (.notFound config.serviceName) := by
  unfold openService
  rw [lookup_of_none ron h]

theorem openService_of_text {ron : Ron} {files : Files} {config : StaticConfig} {text : String}
    (h : files (servicePath config.serviceName) = some text)
    (hdec : ron.fromStr text = .ok config) : openService ron files config = .ok config := by
  unfold openService
  rw [lookup_of_text h hdec]
  simp only [config.validateCompatibility_self]

/-- A process moved on: the others are where they were. -/
theorem pc_cases {s : State Pid} {p q : Pid} {pc pc' : Pc}
    (h : Function.update s.pc p pc q = pc') : (q = p ∧ pc = pc') ∨ (q ≠ p ∧ s.pc q = pc') := by
  by_cases hq : q = p
  · subst hq
    rw [Function.update_self] at h
    exact .inl ⟨rfl, h⟩
  · rw [Function.update_of_ne hq] at h
    exact .inr ⟨hq, h⟩

/-- **A read that is made when all is settled** finds the complete file, or none
and is then the only one to create it. -/
theorem Inv.read {ron : Ron} {config : StaticConfig} {text : String} {s : State Pid}
    (hinv : Inv config text s) (hencodes : ron.Encodes config text) {p : Pid}
    (hsettled : ∀ q, (s.pc q).remaining = 0) :
    Inv config text (s.read ron config p) := by
  unfold State.read
  cases hinv.phase with
  | absent hfile hreg hpc hone hnone =>
      rw [openService_of_none ron hfile]
      show Inv config text (s.goto p .notFound)
      constructor
      · intro q r hq
        rcases pc_cases hq with ⟨_, he⟩ | ⟨_, hold⟩
        · exact absurd he (by simp)
        · exact hinv.returned q r hold
      · have honly : ∀ q, (Function.update s.pc p .notFound q).remaining ≠ 0 → q = p := by
          intro q hq
          by_cases hqp : q = p
          · exact hqp
          · rw [Function.update_of_ne hqp] at hq
            exact absurd (hsettled q) hq
        refine Phase.absent hfile hreg ?_ ?_ ?_
        · intro q hq
          rw [honly q hq]
          exact Function.update_self _ _ _
        · intro q q' hq hq'
          rw [honly q hq, honly q' hq']
        · intro q r hq
          rcases pc_cases hq with ⟨_, he⟩ | ⟨_, hold⟩
          · exact absurd he (by simp)
          · exact hnone q r hold
  | empty w hfile hreg hw honly =>
      have hzero := hsettled w
      rw [hw] at hzero
      exact absurd hzero (by simp [Pc.remaining])
  | complete w hfile hreg hzero =>
      rw [openService_of_text hfile hencodes.2]
      show Inv config text (s.goto p (.returned (.ok config)))
      constructor
      · intro q r hq
        rcases pc_cases hq with ⟨_, he⟩ | ⟨_, hold⟩
        · injection he with he
          exact he.symm
        · exact hinv.returned q r hold
      · refine Phase.complete w hfile hreg ?_
        intro q
        show (Function.update s.pc p (.returned (.ok config)) q).remaining = 0
        by_cases hqp : q = p
        · rw [hqp, Function.update_self]
          rfl
        · rw [Function.update_of_ne hqp]
          exact hzero q

/-- The creation: the file was absent, and nobody else is about to create it. -/
theorem Inv.creates {config : StaticConfig} {text : String} {s : State Pid}
    (hinv : Inv config text s) {p : Pid} (hpc : s.pc p = .notFound) :
    ∃ files, createNew s.files (servicePath config.serviceName) = some files
      ∧ Inv config text
        { files := files
          pc := Function.update s.pc p (.created text)
          registered := p :: s.registered } := by
  have hbusy : (s.pc p).remaining ≠ 0 := by
    rw [hpc]
    simp [Pc.remaining]
  cases hinv.phase with
  | absent hfile hreg _ hone hnone =>
      refine ⟨_, createNew_of_none hfile, ?_, ?_⟩
      · intro q r hq
        rcases pc_cases hq with ⟨_, he⟩ | ⟨_, hold⟩
        · exact absurd he (by simp)
        · exact hinv.returned q r hold
      · refine Phase.empty p ?_ ?_ ?_ ?_
        · exact Function.update_self _ _ _
        · show p :: s.registered = [p]
          rw [hreg]
        · exact Function.update_self _ _ _
        · intro q hq
          by_cases hqp : q = p
          · exact hqp
          · have hold : (Function.update s.pc p (.created text) q).remaining ≠ 0 := hq
            rw [Function.update_of_ne hqp] at hold
            exact hone q p hold hbusy
  | empty w _ _ hw honly =>
      obtain rfl := honly p hbusy
      rw [hpc] at hw
      exact absurd hw (by simp)
  | complete w _ _ hzero => exact absurd (hzero p) hbusy

/-- The write: from now on the file is complete. -/
theorem Inv.writes {config : StaticConfig} {text serialized : String} {s : State Pid}
    (hinv : Inv config text s) {p : Pid} (hpc : s.pc p = .created serialized) :
    Inv config text { s with
      files := writeAll s.files (servicePath config.serviceName) serialized
      pc := Function.update s.pc p (.returned (.ok config)) } := by
  have hbusy : (s.pc p).remaining ≠ 0 := by
    rw [hpc]
    simp [Pc.remaining]
  cases hinv.phase with
  | absent _ _ hall _ _ =>
      have hnot := hall p hbusy
      rw [hpc] at hnot
      exact absurd hnot (by simp)
  | empty w _ hreg hw honly =>
      obtain rfl := honly p hbusy
      obtain rfl : serialized = text := by
        rw [hpc] at hw
        exact Pc.created.inj hw
      constructor
      · intro q r hq
        rcases pc_cases hq with ⟨_, he⟩ | ⟨_, hold⟩
        · injection he with he
          exact he.symm
        · exact hinv.returned q r hold
      · refine Phase.complete p ?_ hreg ?_
        · exact Function.update_self _ _ _
        · intro q
          show (Function.update s.pc p (.returned (.ok config)) q).remaining = 0
          by_cases hqp : q = p
          · rw [hqp, Function.update_self]
            rfl
          · rw [Function.update_of_ne hqp]
            exact Classical.not_not.mp (fun hne => hqp (honly q hne))
  | complete w _ _ hzero => exact absurd (hzero p) hbusy

/-- **The step lemma**: a step that keeps to `settled` keeps the invariant. -/
theorem Inv.step {ron : Ron} {config : StaticConfig} {text : String} {s s' : State Pid}
    {a : Act Pid} (hinv : Inv config text s) (hencodes : ron.Encodes config text)
    (hsettled : settled s a) (hs : step ron config s a = some s') : Inv config text s' := by
  cases a with
  | openOrCreate p =>
      unfold OpenOrCreate.step at hs
      simp only at hs
      split at hs
      next =>
        injection hs with hs
        subst hs
        exact hinv.read hencodes hsettled
      next => exact absurd hs (by simp)
  | access p =>
      unfold OpenOrCreate.step at hs
      simp only at hs
      cases hpc : s.pc p with
      | notFound =>
          obtain ⟨files, hnew, hinv'⟩ := hinv.creates hpc
          simp only [hpc, hencodes.1, hnew] at hs
          injection hs with hs
          subst hs
          exact hinv'
      | created serialized =>
          simp only [hpc] at hs
          injection hs with hs
          subst hs
          exact hinv.writes hpc
      | idle =>
          rw [hpc] at hs
          exact absurd hs (by simp)
      | returned r =>
          rw [hpc] at hs
          exact absurd hs (by simp)

/-! ## §4. Every run. -/

omit [DecidableEq Pid] in
theorem inv_init {config : StaticConfig} {text : String} {files : Files}
    (hnone : files (servicePath config.serviceName) = none) :
    Inv config text (init files : State Pid) := by
  constructor
  · intro p r h
    exact absurd h (by simp [init])
  · refine Phase.absent hnone rfl ?_ ?_ ?_
    · intro p hp
      exact absurd rfl hp
    · intro p q hp
      exact absurd rfl hp
    · intro p r h
      exact absurd h (by simp [init])

/-- A process in a call can always go on, and has one access less to go. -/
theorem access_progress (ron : Ron) (config : StaticConfig) (s : State Pid) (p : Pid)
    (h : (s.pc p).remaining ≠ 0) :
    ∃ s', step ron config s (.access p) = some s'
      ∧ (s'.pc p).remaining < (s.pc p).remaining := by
  unfold step
  simp only
  cases hpc : s.pc p with
  | notFound =>
      simp only
      split
      next =>
        refine ⟨_, rfl, ?_⟩
        simp [State.goto, Pc.remaining]
      next =>
        split
        next =>
          refine ⟨_, rfl, ?_⟩
          simp [State.goto, Pc.remaining]
        next =>
          refine ⟨_, rfl, ?_⟩
          simp [Pc.remaining]
  | created serialized =>
      refine ⟨_, rfl, ?_⟩
      simp [Pc.remaining]
  | idle =>
      rw [hpc] at h
      exact absurd rfl h
  | returned r =>
      rw [hpc] at h
      exact absurd rfl h

/-- **Calls that read when all is settled converge.**  In every run in which a
process reads the file only when nobody is between its failed read and the end
of its write: whatever a call has returned is the config, at most one process
has registered the service, and exactly one as soon as a call has returned; and
a process in a call can always go on, and returns after two more accesses at
most. -/
theorem open_or_create_converges (ron : Ron) (config : StaticConfig) (text : String)
    (files : Files) (s : State Pid) (hencodes : ron.Encodes config text)
    (hnone : files (servicePath config.serviceName) = none)
    (h : Reach (step ron config) settled (init files) s) :
    (∀ p r, s.pc p = .returned r → r = .ok config)
      ∧ s.registered.length ≤ 1
      ∧ (∀ p r, s.pc p = .returned r → s.registered.length = 1)
      ∧ (∀ p, (s.pc p).remaining ≤ 2
          ∧ ((s.pc p).remaining ≠ 0 → ∃ s', step ron config s (.access p) = some s'
            ∧ (s'.pc p).remaining < (s.pc p).remaining)) := by
  have hinv : Inv config text s :=
    h.invariant (Inv config text) (inv_init hnone)
      (fun _ _ _ hi hsettled hs => hi.step hencodes hsettled hs)
  refine ⟨hinv.returned, ?_, ?_, ?_⟩
  · cases hinv.phase with
    | absent _ hreg _ _ _ =>
        rw [hreg]
        exact Nat.zero_le 1
    | empty w _ hreg _ _ =>
        rw [hreg]
        exact Nat.le_refl 1
    | complete w _ hreg _ =>
        rw [hreg]
        exact Nat.le_refl 1
  · intro p r hp
    cases hinv.phase with
    | absent _ _ _ _ hno => exact absurd hp (hno p r)
    | empty w _ hreg _ _ =>
        rw [hreg]
        rfl
    | complete w _ hreg _ =>
        rw [hreg]
        rfl
  · intro p
    constructor
    · cases s.pc p with
      | notFound => exact Nat.le_refl 2
      | created serialized => exact Nat.le_succ 1
      | idle => exact Nat.zero_le 2
      | returned r => exact Nat.zero_le 2
    · exact access_progress ron config s p

instance decidableSettled (s : State Bool) : (a : Act Bool) → Decidable (settled s a)
  | .openOrCreate _ => inferInstanceAs (Decidable (∀ q, (s.pc q).remaining = 0))
  | .access _ => isTrue trivial

/-- One process registers the service, and then the other opens it. -/
theorem open_or_create_converges_inTurn :
    ∃ s : State Bool, Reach (step oneRon (u64Config "a")) settled (init (fun _ => none)) s
      ∧ s.pc true = .returned (.ok (u64Config "a"))
      ∧ s.pc false = .returned (.ok (u64Config "a"))
      ∧ s.registered.length = 1 := by
  have hrun : (execOk (step oneRon (u64Config "a")) settled (init (fun _ => none) : State Bool)
      [.openOrCreate true, .access true, .access true, .openOrCreate false]).map
        (fun s => (s.pc true, s.pc false))
      = some (.returned (.ok (u64Config "a")), .returned (.ok (u64Config "a"))) := by
    decide
  obtain ⟨s, hs, hends⟩ := Option.map_eq_some_iff.mp hrun
  have hreach := Reach.of_execOk _ .refl hs
  have htrue := congrArg Prod.fst hends
  have hconv := open_or_create_converges oneRon (u64Config "a") (ronText (u64Config "a"))
    (fun _ => none) s oneRon_encodes rfl hreach
  exact ⟨s, hreach, htrue, congrArg Prod.snd hends, hconv.2.2.1 true _ htrue⟩

end Entangle.Registry.OpenOrCreate
