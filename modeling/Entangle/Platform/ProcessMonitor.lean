/-
  Entangle.Platform.ProcessMonitor — the liveness monitor of
  entangle-platform/src/process_monitor.rs, over the file locks of file_lock.rs.

  A node is alive while its process holds the lock of the file
  `{root}/nodes/{node_id}`.  Every open, flock, unlock, directory read and
  unlink is one step, and any number of processes interleave.  The file name is
  the node id in 32 hexadecimal digits, so files are named by ids here; the
  directory exists, and closing, unlocking and opening do not fail for other
  reasons than the ones modelled.

  `register` opens the file and locks it in two steps, and the lock is on the
  inode.  `cleanup_dead_nodes` and `deregister` remove the file by its name,
  after they have seen, or made, the lock free.  Between the two a register may
  have locked the file they remove.

  Main definitions:
    * `NodesSafe` — what holds of every registered node;
    * `apart` — a register and a removal of the same file do not overlap.

  Main results:
    * `live_node_removed` — a registered node can lose its file;
    * `live_node_safe` — not in a run in which registers and removals are apart.
-/
import Entangle.Lib.LockedFiles
import Entangle.Lib.Transition
import Entangle.Platform.Error
import Mathlib.Data.List.Perm.Basic

namespace Entangle.Platform.ProcessMonitor

open Entangle.Lib

/-! ## §1. Processes. -/

/-- `NodeId`. -/
structure NodeId where
  value : BitVec 128
  deriving Repr, DecidableEq

/-- `format!("{:032x}", node_id.0)`. -/
def NodeId.fileName (id : NodeId) : String :=
  let digits := Nat.toDigits 16 id.value.toNat
  String.ofList (List.replicate (32 - digits.length) '0' ++ digits)

/-- The path of the lock file, as the error texts print it. -/
def lockPath (root : String) (id : NodeId) : String := s!"{root}/nodes/{id.fileName}"

/-- A `ProcessMonitor`: the lock it holds, and the node it stands for. -/
structure Monitor (Pid : Type) where
  nodeId : NodeId
  fd : Descriptor Pid
  inode : Nat
  deriving DecidableEq

/-- Who calls `FileLock::is_locked`. -/
inductive Probe where
  | isAlive
  -- the nodes still to be looked at, and those found dead
  | cleanup (rest dead : List NodeId)
  deriving DecidableEq

/-- What a call has returned. -/
inductive Ret where
  | registered (r : Except PlatformError Unit)
  | isAlive (r : Bool)
  | nodes (r : List NodeId)
  | cleaned (dead : List NodeId)
  | deregistered (r : Except PlatformError Unit)
  deriving DecidableEq

/-- Where a process stands. -/
inductive Pc where
  -- no call made yet
  | idle
  | returned (r : Ret)
  -- register: file opened, the lock to be tried
  | locking (id : NodeId) (number inode : Nat)
  -- is_locked: file opened, the lock to be tried
  | probing (id : NodeId) (number inode : Nat) (caller : Probe)
  -- is_locked: lock taken, to be released
  | probed (id : NodeId) (number inode : Nat) (caller : Probe)
  -- cleanup_dead_nodes: the file of the node is to be opened
  | cleaning (id : NodeId) (rest dead : List NodeId)
  -- cleanup_dead_nodes: the node is not alive, its file to be removed
  | removing (id : NodeId) (rest dead : List NodeId)
  -- deregister: lock released, the file to be removed
  | deregistering (id : NodeId)
  | exited
  deriving DecidableEq

/-- A new call may start. -/
def Pc.resting : Pc → Bool
  | .idle | .returned _ => true
  | _ => false

/-- The process is in `register`, between its open and its flock. -/
def Pc.registering (id : NodeId) : Pc → Prop
  | .locking id' _ _ => id' = id
  | _ => False

/-- The process has found the node dead, or deregistered it, and removes the
file next. -/
def Pc.condemns (id : NodeId) : Pc → Prop
  | .probed id' _ _ (.cleanup _ _) => id' = id
  | .removing id' _ _ => id' = id
  | .deregistering id' => id' = id
  | _ => False

/-- The process has opened, or unlocked, a file that it may remove next. -/
def Pc.removes (id : NodeId) : Pc → Prop
  | .probing id' _ _ (.cleanup _ _) => id' = id
  | pc => pc.condemns id

/-- The node whose file a cleanup opens next. -/
def Pc.looksAt : Pc → Option NodeId
  | .cleaning id _ _ => some id
  | _ => none

instance decidableRegistering (id : NodeId) (pc : Pc) : Decidable (pc.registering id) := by
  unfold Pc.registering
  split <;> infer_instance

instance decidableCondemns (id : NodeId) (pc : Pc) : Decidable (pc.condemns id) := by
  unfold Pc.condemns
  split <;> infer_instance

instance decidableRemoves (id : NodeId) (pc : Pc) : Decidable (pc.removes id) := by
  unfold Pc.removes
  split <;> infer_instance

/-- The directory of lock files, where each process stands in its call, and the
`ProcessMonitor`s that `register` has returned and nobody has dropped. -/
structure State (Pid : Type) where
  nodes : Directory NodeId Pid
  pc : Pid → Pc
  -- the monitors that exist
  monitors : List (Monitor Pid)

/-- Who moves; a call starts with its first system call, and `order` is the
order in which the directory is read. -/
inductive Act (Pid : Type) where
  | register (p : Pid) (id : NodeId)
  | isAlive (p : Pid) (id : NodeId)
  | listNodes (p : Pid) (order : List NodeId)
  | cleanup (p : Pid) (order : List NodeId)
  | deregister (p : Pid) (m : Monitor Pid)
  -- the monitor goes out of scope: its lock is released, the file stays
  | drop (p : Pid) (m : Monitor Pid)
  | exit (p : Pid)
  -- the next system call of the call in progress
  | next (p : Pid)
  deriving DecidableEq

/-- The process that moves. -/
def Act.process {Pid : Type} : Act Pid → Pid
  | .register p _ | .isAlive p _ | .listNodes p _ | .cleanup p _ => p
  | .deregister p _ | .drop p _ | .exit p | .next p => p

/-! ## §2. Steps. -/

variable {Pid : Type} [DecidableEq Pid]

/-- Process `p` gets to `pc`. -/
def State.goto (s : State Pid) (p : Pid) (pc : Pc) : State Pid :=
  { s with pc := Function.update s.pc p pc }

/-- Process `p` gets to `pc`, the directory becomes `nodes`. -/
def State.write (s : State Pid) (p : Pid) (nodes : Directory NodeId Pid) (pc : Pc) : State Pid :=
  { s with nodes := nodes, pc := Function.update s.pc p pc }

/-- The loop of `cleanup_dead_nodes`, with `rest` still to be looked at. -/
def cleanFrom (rest dead : List NodeId) : Pc :=
  match rest with
  | [] => .returned (.cleaned dead)
  | id :: rest => .cleaning id rest dead

/-- What becomes of the caller of `is_locked` when it returns. -/
def afterProbe (id : NodeId) (locked : Bool) : Probe → Pc
  | .isAlive => .returned (.isAlive locked)
  | .cleanup rest dead => if locked then cleanFrom rest dead else .removing id rest dead

/-- The `File::open` of `is_locked`. -/
def State.probeOpen (s : State Pid) (p : Pid) (id : NodeId) (caller : Probe) : State Pid :=
  match s.nodes.openExisting p id with
  | none => s.goto p (afterProbe id false caller)
  | some (fd, inode, nodes) => s.write p nodes (.probing id fd.number inode caller)

/-- The `flock` of `FileLock::acquire`; `register` wraps its error. -/
def State.acquire (root : String) (s : State Pid) (p : Pid) (id : NodeId) (number inode : Nat) :
    State Pid :=
  match s.nodes.tryLock ⟨p, number⟩ inode with
  | some nodes =>
      { nodes := nodes
        pc := Function.update s.pc p (.returned (.registered (.ok ())))
        monitors := ⟨id, ⟨p, number⟩, inode⟩ :: s.monitors }
  | none =>
      let e := PlatformError.fileLock s!"cannot lock {lockPath root id}: {wouldBlock}"
      s.goto p (.returned (.registered
        (.error (.processMonitor s!"cannot acquire node lock: {e.message}"))))

/-- The `remove_file` of `cleanup_dead_nodes`; a failure is only logged. -/
def State.removeDead (s : State Pid) (p : Pid) (id : NodeId) (rest dead : List NodeId) :
    State Pid :=
  match s.nodes.unlink id with
  | some nodes => s.write p nodes (cleanFrom rest (dead ++ [id]))
  | none => s.goto p (cleanFrom rest dead)

/-- The `remove_file` of `release_and_remove`; `deregister` wraps its error. -/
def State.removeOwn (root : String) (s : State Pid) (p : Pid) (id : NodeId) : State Pid :=
  match s.nodes.unlink id with
  | some nodes => s.write p nodes (.returned (.deregistered (.ok ())))
  | none =>
      let e := PlatformError.fileLock s!"cannot remove {lockPath root id}: {noSuchFile}"
      s.goto p (.returned (.deregistered
        (.error (.processMonitor s!"deregister failed: {e.message}"))))

/-- The next system call of process `p`. -/
def access (root : String) (s : State Pid) (p : Pid) : Option (State Pid) :=
  match s.pc p with
  | .locking id number inode => some (s.acquire root p id number inode)
  | .probing id number inode caller =>
      match s.nodes.tryLock ⟨p, number⟩ inode with
      | some nodes => some (s.write p nodes (.probed id number inode caller))
      | none => some (s.goto p (afterProbe id true caller))
  | .probed id number inode caller =>
      some (s.write p (s.nodes.unlock ⟨p, number⟩ inode) (afterProbe id false caller))
  | .cleaning id rest dead => some (s.probeOpen p id (.cleanup rest dead))
  | .removing id rest dead => some (s.removeDead p id rest dead)
  | .deregistering id => some (s.removeOwn root p id)
  | .idle | .returned _ | .exited => none

def step (root : String) (s : State Pid) : Act Pid → Option (State Pid)
  | .register p id =>
      if (s.pc p).resting then
        match s.nodes.openCreate p id with
        | (fd, inode, nodes) => some (s.write p nodes (.locking id fd.number inode))
      else none
  | .isAlive p id => if (s.pc p).resting then some (s.probeOpen p id .isAlive) else none
  | .listNodes p order =>
      if (s.pc p).resting ∧ order.Perm s.nodes.names.keys then
        some (s.goto p (.returned (.nodes order)))
      else none
  | .cleanup p order =>
      if (s.pc p).resting ∧ order.Perm s.nodes.names.keys then some (s.goto p (cleanFrom order []))
      else none
  | .deregister p m =>
      if (s.pc p).resting ∧ m ∈ s.monitors ∧ m.fd.process = p then
        some { nodes := s.nodes.unlock m.fd m.inode
               pc := Function.update s.pc p (.deregistering m.nodeId)
               monitors := s.monitors.erase m }
      else none
  | .drop p m =>
      if (s.pc p).resting ∧ m ∈ s.monitors ∧ m.fd.process = p then
        some { s with
          nodes := s.nodes.unlock m.fd m.inode
          monitors := s.monitors.erase m }
      else none
  | .exit p =>
      some { nodes := s.nodes.exit p
             pc := Function.update s.pc p .exited
             monitors := s.monitors.filter (fun m => m.fd.process ≠ p) }
  | .next p => access root s p

/-- No node registered yet, nobody in a call. -/
def init : State Pid := { nodes := .empty, pc := fun _ => .idle, monitors := [] }

/-- The nodes a cleanup has found dead so far, or has reported. -/
def Pc.dead : Pc → List NodeId
  | .probing _ _ _ (.cleanup _ dead) | .probed _ _ _ (.cleanup _ dead) => dead
  | .cleaning _ _ dead | .removing _ _ dead => dead
  | .returned (.cleaned dead) => dead
  | _ => []

/-- The step by which the monitor ends. -/
def Act.ends (m : Monitor Pid) : Act Pid → Prop
  | .deregister _ m' | .drop _ m' => m' = m
  | .exit p => m.fd.process = p
  | _ => False

/-- **What holds of a registered node**: its file is the inode its process holds
locked, and stays so until the process ends it; `is_alive`, called now and
returning before the end, returns true; no cleanup adds it to its report; and a
second register of it fails. -/
structure NodeSafe (root : String) (ok : State Pid → Act Pid → Prop) (s : State Pid)
    (m : Monitor Pid) : Prop where
  file : s.nodes.names.lookup m.nodeId = some m.inode
  locked : s.nodes.lock m.inode = some m.fd
  kept : ∀ a s', ok s a → step root s a = some s' → ¬ a.ends m → m ∈ s'.monitors
    ∧ s'.nodes.names.lookup m.nodeId = some m.inode
  alive : ∀ p s₁ s₂ s₃, step root s (.isAlive p m.nodeId) = some s₁ →
    Reach (step root) (fun t a => ok t a ∧ a.process ≠ p) s₁ s₂ → m ∈ s₂.monitors →
    step root s₂ (.next p) = some s₃ → s₃.pc p = .returned (.isAlive true)
  unreported : ∀ a s' p, step root s a = some s' → m.nodeId ∈ (s'.pc p).dead →
    m.nodeId ∈ (s.pc p).dead
  only : ∀ m' ∈ s.monitors, m'.nodeId = m.nodeId → m' = m
  refused : ∀ p number inode s', s.pc p = .locking m.nodeId number inode →
    step root s (.next p) = some s' → ∃ e, s'.pc p = .returned (.registered (.error e))

/-- A cleanup finds the lock free before the register has taken it, and removes
the file of the node that is registered then. -/
theorem live_node_removed :
    ∃ s : State Bool, Reach (step "/tmp") anyStep init s
      ∧ s.monitors = [⟨⟨42⟩, ⟨true, 0⟩, 0⟩]
      ∧ s.pc true = .returned (.registered (.ok ()))
      ∧ s.nodes.names.lookup ⟨42⟩ = none
      ∧ s.pc false = .returned (.cleaned [⟨42⟩])
      ∧ ¬ NodeSafe "/tmp" anyStep s ⟨⟨42⟩, ⟨true, 0⟩, 0⟩ := by
  have hrun : (exec (step "/tmp") (init : State Bool)
      [.register true ⟨42⟩, .cleanup false [⟨42⟩], .next false, .next false, .next false,
       .next true, .next false]).map
        (fun s => (s.monitors, s.pc true, s.nodes.names.lookup ⟨42⟩, s.pc false))
      = some ([⟨⟨42⟩, ⟨true, 0⟩, 0⟩], .returned (.registered (.ok ())), none,
          .returned (.cleaned [⟨42⟩])) := by
    decide
  obtain ⟨s, hs, hends⟩ := Option.map_eq_some_iff.mp hrun
  simp only [Prod.mk.injEq] at hends
  obtain ⟨hmonitors, htrue, hname, hfalse⟩ := hends
  refine ⟨s, Reach.of_exec _ .refl hs, hmonitors, htrue, hname, hfalse, fun hsafe => ?_⟩
  have hfile := hsafe.file
  rw [hname] at hfile
  exact absurd hfile (by simp)

/-! ## §3. Everything a step can do, with its guard. -/

inductive Moves (root : String) (s : State Pid) : Act Pid → State Pid → Prop
  | registerOpen (p : Pid) (id : NodeId) (fd : Descriptor Pid) (inode : Nat)
      (nodes : Directory NodeId Pid) : (s.pc p).resting = true →
      s.nodes.openCreate p id = (fd, inode, nodes) →
      Moves root s (.register p id) (s.write p nodes (.locking id fd.number inode))
  | isAlive (p : Pid) (id : NodeId) : (s.pc p).resting = true →
      Moves root s (.isAlive p id) (s.probeOpen p id .isAlive)
  | listNodes (p : Pid) (order : List NodeId) : (s.pc p).resting = true →
      Moves root s (.listNodes p order) (s.goto p (.returned (.nodes order)))
  | cleanup (p : Pid) (order : List NodeId) : (s.pc p).resting = true →
      Moves root s (.cleanup p order) (s.goto p (cleanFrom order []))
  | deregister (p : Pid) (m : Monitor Pid) : (s.pc p).resting = true → m ∈ s.monitors →
      m.fd.process = p →
      Moves root s (.deregister p m)
        { nodes := s.nodes.unlock m.fd m.inode
          pc := Function.update s.pc p (.deregistering m.nodeId)
          monitors := s.monitors.erase m }
  | drop (p : Pid) (m : Monitor Pid) : (s.pc p).resting = true → m ∈ s.monitors →
      m.fd.process = p →
      Moves root s (.drop p m)
        { s with nodes := s.nodes.unlock m.fd m.inode, monitors := s.monitors.erase m }
  | exit (p : Pid) :
      Moves root s (.exit p)
        { nodes := s.nodes.exit p
          pc := Function.update s.pc p .exited
          monitors := s.monitors.filter (fun m => m.fd.process ≠ p) }
  | acquire (p : Pid) (id : NodeId) (number inode : Nat) : s.pc p = .locking id number inode →
      Moves root s (.next p) (s.acquire root p id number inode)
  | probeLocked (p : Pid) (id : NodeId) (number inode : Nat) (caller : Probe)
      (nodes : Directory NodeId Pid) : s.pc p = .probing id number inode caller →
      s.nodes.tryLock ⟨p, number⟩ inode = some nodes →
      Moves root s (.next p) (s.write p nodes (.probed id number inode caller))
  | probeHeld (p : Pid) (id : NodeId) (number inode : Nat) (caller : Probe) :
      s.pc p = .probing id number inode caller →
      Moves root s (.next p) (s.goto p (afterProbe id true caller))
  | probeUnlock (p : Pid) (id : NodeId) (number inode : Nat) (caller : Probe) :
      s.pc p = .probed id number inode caller →
      Moves root s (.next p)
        (s.write p (s.nodes.unlock ⟨p, number⟩ inode) (afterProbe id false caller))
  | cleanOpen (p : Pid) (id : NodeId) (rest dead : List NodeId) :
      s.pc p = .cleaning id rest dead →
      Moves root s (.next p) (s.probeOpen p id (.cleanup rest dead))
  | removeDead (p : Pid) (id : NodeId) (rest dead : List NodeId) :
      s.pc p = .removing id rest dead → Moves root s (.next p) (s.removeDead p id rest dead)
  | removeOwn (p : Pid) (id : NodeId) : s.pc p = .deregistering id →
      Moves root s (.next p) (s.removeOwn root p id)

theorem access_cases {root : String} {s s' : State Pid} {p : Pid}
    (hs : access root s p = some s') : Moves root s (.next p) s' := by
  unfold access at hs
  split at hs
  next id number inode hpc =>
    injection hs with hs
    subst hs
    exact .acquire p id number inode hpc
  next id number inode caller hpc =>
    split at hs
    next nodes hlock =>
      injection hs with hs
      subst hs
      exact .probeLocked p id number inode caller nodes hpc hlock
    next =>
      injection hs with hs
      subst hs
      exact .probeHeld p id number inode caller hpc
  next id number inode caller hpc =>
    injection hs with hs
    subst hs
    exact .probeUnlock p id number inode caller hpc
  next id rest dead hpc =>
    injection hs with hs
    subst hs
    exact .cleanOpen p id rest dead hpc
  next id rest dead hpc =>
    injection hs with hs
    subst hs
    exact .removeDead p id rest dead hpc
  next id hpc =>
    injection hs with hs
    subst hs
    exact .removeOwn p id hpc
  next => exact absurd hs (by simp)
  next => exact absurd hs (by simp)
  next => exact absurd hs (by simp)

theorem step_cases {root : String} {s s' : State Pid} {a : Act Pid}
    (hs : step root s a = some s') : Moves root s a s' := by
  cases a with
  | next p => exact access_cases hs
  | exit p =>
      injection hs with hs
      subst hs
      exact .exit p
  | register p id =>
      simp only [step] at hs
      split at hs
      next hrest =>
        injection hs with hs
        subst hs
        exact .registerOpen p id _ _ _ hrest rfl
      next => exact absurd hs (by simp)
  | isAlive p id =>
      simp only [step, Option.ite_none_right_eq_some, Option.some.injEq] at hs
      obtain ⟨hrest, rfl⟩ := hs
      exact .isAlive p id hrest
  | listNodes p order =>
      simp only [step, Option.ite_none_right_eq_some, Option.some.injEq] at hs
      obtain ⟨⟨hrest, _⟩, rfl⟩ := hs
      exact .listNodes p order hrest
  | cleanup p order =>
      simp only [step, Option.ite_none_right_eq_some, Option.some.injEq] at hs
      obtain ⟨⟨hrest, _⟩, rfl⟩ := hs
      exact .cleanup p order hrest
  | deregister p m =>
      simp only [step, Option.ite_none_right_eq_some, Option.some.injEq] at hs
      obtain ⟨⟨hrest, hm, hp⟩, rfl⟩ := hs
      exact .deregister p m hrest hm hp
  | drop p m =>
      simp only [step, Option.ite_none_right_eq_some, Option.some.injEq] at hs
      obtain ⟨⟨hrest, hm, hp⟩, rfl⟩ := hs
      exact .drop p m hrest hm hp

/-- Nobody moves but the process of the step. -/
theorem step_pc_other {root : String} {s s' : State Pid} {a : Act Pid}
    (hs : step root s a = some s') {q : Pid} (hq : q ≠ a.process) : s'.pc q = s.pc q := by
  cases step_cases hs with
  | drop => rfl
  | isAlive p id _ =>
      unfold State.probeOpen
      split <;> exact Function.update_of_ne hq _ _
  | cleanOpen p id rest dead _ =>
      unfold State.probeOpen
      split <;> exact Function.update_of_ne hq _ _
  | acquire p id number inode _ =>
      unfold State.acquire
      split <;> exact Function.update_of_ne hq _ _
  | removeDead p id rest dead _ =>
      unfold State.removeDead
      split <;> exact Function.update_of_ne hq _ _
  | removeOwn p id _ =>
      unfold State.removeOwn
      split <;> exact Function.update_of_ne hq _ _
  | _ => exact Function.update_of_ne hq _ _

/-! ## §4. Registers and removals apart. -/

/-- A register opens the file of its node only when nobody is about to remove
it, and a file that may be removed is opened, or unlocked, only when no register
of its node is between its open and its flock.  That refuses some steps that do no
harm: a cleanup that opens the file but whose `flock` of it fails removes nothing. -/
def apart (s : State Pid) : Act Pid → Prop
  | .register _ id => ∀ q, ¬ (s.pc q).removes id
  | .deregister _ m => ∀ q, ¬ (s.pc q).registering m.nodeId
  | .next p => ∀ id ∈ (s.pc p).looksAt, ∀ q, ¬ (s.pc q).registering id
  | _ => True

/-- No monitor stands for the node. -/
def NoMonitor (monitors : List (Monitor Pid)) (id : NodeId) : Prop :=
  ∀ m ∈ monitors, m.nodeId ≠ id

/-- The description `number` of process `p` is open, and no monitor's. -/
def Own (nodes : Directory NodeId Pid) (monitors : List (Monitor Pid)) (p : Pid) (number : Nat) :
    Prop :=
  number < nodes.nextNumber ∧ ∀ m ∈ monitors, m.fd ≠ ⟨p, number⟩

/-- What is known of the files where process `p` stands. -/
def PcOk (nodes : Directory NodeId Pid) (monitors : List (Monitor Pid)) (p : Pid) : Pc → Prop
  | .locking id number inode => nodes.names.lookup id = some inode ∧ Own nodes monitors p number
  | .probing id number inode (.cleanup _ _) =>
      (∀ m ∈ monitors, m.nodeId = id → m.inode = inode) ∧ Own nodes monitors p number
  | .probed id number _ (.cleanup _ _) => NoMonitor monitors id ∧ Own nodes monitors p number
  | .probing _ number _ .isAlive | .probed _ number _ .isAlive => Own nodes monitors p number
  | .removing id _ _ | .deregistering id => NoMonitor monitors id
  | .idle | .returned _ | .cleaning _ _ _ | .exited => True

/-- Every registered node has its file, which is the inode its process holds. -/
structure Inv (s : State Pid) : Prop where
  registered : ∀ m ∈ s.monitors, s.nodes.names.lookup m.nodeId = some m.inode
    ∧ s.nodes.lock m.inode = some m.fd
  nodup : (s.monitors.map Monitor.fd).Nodup
  numbered : ∀ m ∈ s.monitors, m.fd.number < s.nodes.nextNumber
  pcs : ∀ p, PcOk s.nodes s.monitors p (s.pc p)
  apart : ∀ p q id, (s.pc p).registering id → ¬ (s.pc q).removes id

theorem Pc.not_removes_of_registering {pc : Pc} {id id' : NodeId} (h : pc.registering id) :
    ¬ pc.removes id' := by
  cases pc <;> simp [registering, removes, condemns] at h ⊢

theorem Pc.quiet_of_resting {pc : Pc} (h : pc.resting = true) (id : NodeId) :
    ¬ pc.registering id ∧ ¬ pc.removes id := by
  cases pc <;> simp [resting, registering, removes, condemns] at h ⊢

omit [DecidableEq Pid] in
theorem NoMonitor.mono {monitors monitors' : List (Monitor Pid)} {id : NodeId}
    (h : NoMonitor monitors id)
    (hmon : ∀ m ∈ monitors', m ∈ monitors ∨ m.nodeId ≠ id) : NoMonitor monitors' id := by
  intro m hm
  rcases hmon m hm with hold | hnew
  · exact h m hold
  · exact hnew

omit [DecidableEq Pid] in
theorem Own.mono {nodes nodes' : Directory NodeId Pid} {monitors monitors' : List (Monitor Pid)}
    {p : Pid} {number : Nat} (h : Own nodes monitors p number)
    (hnext : nodes.nextNumber ≤ nodes'.nextNumber)
    (hmon : ∀ m ∈ monitors', m ∈ monitors ∨ m.fd.process ≠ p) : Own nodes' monitors' p number := by
  refine ⟨Nat.lt_of_lt_of_le h.1 hnext, fun m hm => ?_⟩
  rcases hmon m hm with hold | hnew
  · exact h.2 m hold
  · intro he
    rw [he] at hnew
    exact hnew rfl

omit [DecidableEq Pid] in
/-- **What another process knows survives a step** that leaves the file it
registers, and registers no node it may remove. -/
theorem PcOk.frame {nodes nodes' : Directory NodeId Pid} {monitors monitors' : List (Monitor Pid)}
    {p : Pid} {pc : Pc} (h : PcOk nodes monitors p pc)
    (hnames : ∀ id inode, pc.registering id → nodes.names.lookup id = some inode →
      nodes'.names.lookup id = some inode)
    (hnext : nodes.nextNumber ≤ nodes'.nextNumber)
    (hmon : ∀ m ∈ monitors', m ∈ monitors ∨ (m.fd.process ≠ p ∧ ¬ pc.removes m.nodeId)) :
    PcOk nodes' monitors' p pc := by
  have hown : ∀ number, Own nodes monitors p number → Own nodes' monitors' p number :=
    fun _ ho => ho.mono hnext (fun m hm => (hmon m hm).imp_right And.left)
  have hno : ∀ id, pc.removes id → NoMonitor monitors id → NoMonitor monitors' id := by
    intro id hid hn
    refine hn.mono (fun m hm => (hmon m hm).imp_right (fun hnew he => ?_))
    rw [he] at hnew
    exact hnew.2 hid
  cases pc with
  | idle => trivial
  | returned r => trivial
  | cleaning id rest dead => trivial
  | exited => trivial
  | locking id number inode => exact ⟨hnames id inode rfl h.1, hown _ h.2⟩
  | removing id rest dead => exact hno id rfl h
  | deregistering id => exact hno id rfl h
  | probed id number inode caller =>
      cases caller with
      | isAlive => exact hown _ h
      | cleanup rest dead => exact ⟨hno id rfl h.1, hown _ h.2⟩
  | probing id number inode caller =>
      cases caller with
      | isAlive => exact hown _ h
      | cleanup rest dead =>
          refine ⟨fun m hm hid => ?_, hown _ h.2⟩
          rcases hmon m hm with hold | hnew
          · exact h.1 m hold hid
          · exact absurd hid.symm hnew.2

omit [DecidableEq Pid] in
/-- Nobody has registered a node whose file is to be removed. -/
theorem PcOk.noMonitor {nodes : Directory NodeId Pid} {monitors : List (Monitor Pid)} {p : Pid}
    {pc : Pc} (h : PcOk nodes monitors p pc) {id : NodeId} (hid : pc.condemns id) :
    NoMonitor monitors id := by
  cases pc with
  | removing id' rest dead =>
      obtain rfl : id' = id := hid
      exact h
  | deregistering id' =>
      obtain rfl : id' = id := hid
      exact h
  | probed id' number inode caller =>
      cases caller with
      | isAlive => exact absurd hid (by simp [Pc.condemns])
      | cleanup rest dead =>
          obtain rfl : id' = id := hid
          exact h.1
  | _ => exact absurd hid (by simp [Pc.condemns])

theorem Pc.removes_of_condemns {pc : Pc} {id : NodeId} (h : pc.condemns id) : pc.removes id := by
  cases pc with
  | probing id' number inode caller =>
      cases caller with
      | isAlive => exact h
      | cleanup rest dead => exact absurd h (by simp [condemns])
  | _ => exact h

/-! ## §5. The invariant, step by step. -/

/-- **Process `p` moves.**  The others lose nothing they know, and the monitors
are as they should be. -/
theorem Inv.move {s s' : State Pid} (h : Inv s) {p : Pid} {pc : Pc}
    (hpc : s'.pc = Function.update s.pc p pc)
    (hregistered : ∀ m ∈ s'.monitors, s'.nodes.names.lookup m.nodeId = some m.inode
      ∧ s'.nodes.lock m.inode = some m.fd)
    (hnodup : (s'.monitors.map Monitor.fd).Nodup)
    (hnumbered : ∀ m ∈ s'.monitors, m.fd.number < s'.nodes.nextNumber)
    (hnames : ∀ q id inode, q ≠ p → (s.pc q).registering id →
      s.nodes.names.lookup id = some inode → s'.nodes.names.lookup id = some inode)
    (hnext : s.nodes.nextNumber ≤ s'.nodes.nextNumber)
    (hmon : ∀ m ∈ s'.monitors, m ∈ s.monitors
      ∨ (m.fd.process = p ∧ ∀ q, ¬ (s.pc q).removes m.nodeId))
    (hok : PcOk s'.nodes s'.monitors p pc)
    (hapart : ∀ q id, q ≠ p → (pc.registering id → ¬ (s.pc q).removes id)
      ∧ (pc.removes id → ¬ (s.pc q).registering id)) : Inv s' where
  registered := hregistered
  nodup := hnodup
  numbered := hnumbered
  pcs := by
    intro q
    rw [hpc]
    by_cases hq : q = p
    · subst hq
      rw [Function.update_self]
      exact hok
    · rw [Function.update_of_ne hq]
      refine (h.pcs q).frame (fun id inode => hnames q id inode hq) hnext (fun m hm => ?_)
      rcases hmon m hm with hold | ⟨hproc, hrem⟩
      · exact .inl hold
      · exact .inr ⟨fun he => hq (he.symm.trans hproc), hrem q⟩
  apart := by
    intro q q' id hreg
    rw [hpc] at hreg ⊢
    by_cases hq : q = p
    · subst hq
      rw [Function.update_self] at hreg
      by_cases hq' : q' = q
      · subst hq'
        rw [Function.update_self]
        exact Pc.not_removes_of_registering hreg
      · rw [Function.update_of_ne hq']
        exact (hapart q' id hq').1 hreg
    · rw [Function.update_of_ne hq] at hreg
      by_cases hq' : q' = p
      · subst hq'
        rw [Function.update_self]
        exact fun hrem => (hapart q id hq).2 hrem hreg
      · rw [Function.update_of_ne hq']
        exact h.apart q q' id hreg

/-- Process `p` moves and registers nothing; names and locks of registered nodes
stay. -/
theorem Inv.write {s : State Pid} (h : Inv s) {p : Pid} {nodes : Directory NodeId Pid} {pc : Pc}
    (hnames : ∀ id inode, (∀ q, ¬ (s.pc q).condemns id) →
      s.nodes.names.lookup id = some inode → nodes.names.lookup id = some inode)
    (hlock : ∀ m ∈ s.monitors, s.nodes.lock m.inode = some m.fd → nodes.lock m.inode = some m.fd)
    (hnext : s.nodes.nextNumber ≤ nodes.nextNumber)
    (hok : PcOk nodes s.monitors p pc)
    (hapart : ∀ q id, q ≠ p → (pc.registering id → ¬ (s.pc q).removes id)
      ∧ (pc.removes id → ¬ (s.pc q).registering id)) : Inv (s.write p nodes pc) := by
  refine h.move rfl ?_ h.nodup ?_ ?_ hnext (fun m hm => .inl hm) hok hapart
  · intro m hm
    obtain ⟨hname, hheld⟩ := h.registered m hm
    refine ⟨hnames _ _ (fun q hq => ?_) hname, hlock m hm hheld⟩
    exact (h.pcs q).noMonitor hq m hm rfl
  · exact fun m hm => Nat.lt_of_lt_of_le (h.numbered m hm) hnext
  · intro q id inode _ hreg hname
    exact hnames id inode (fun q' hq' => h.apart q q' id hreg (Pc.removes_of_condemns hq')) hname

/-- Process `p` gets to where it registers and removes nothing. -/
theorem Inv.goto {s : State Pid} (h : Inv s) {p : Pid} {pc : Pc}
    (hok : PcOk s.nodes s.monitors p pc)
    (hquiet : ∀ id, ¬ pc.registering id ∧ ∀ q, pc.removes id → ¬ (s.pc q).registering id) :
    Inv (s.goto p pc) := by
  show Inv (s.write p s.nodes pc)
  exact h.write (fun _ _ _ hname => hname) (fun _ _ hheld => hheld) (Nat.le_refl _) hok
    (fun q id _ => ⟨fun hreg => absurd hreg (hquiet id).1, (hquiet id).2 q⟩)

theorem Inv.returned {s : State Pid} (h : Inv s) {p : Pid} (r : Ret) :
    Inv (s.goto p (.returned r)) :=
  h.goto trivial (fun _ => ⟨fun hreg => hreg, fun _ hrem => False.elim hrem⟩)

omit [DecidableEq Pid] in
/-- Back in the loop of `cleanup_dead_nodes` the process removes nothing. -/
theorem cleanFrom_ok (nodes : Directory NodeId Pid) (monitors : List (Monitor Pid)) (p : Pid)
    (rest dead : List NodeId) :
    PcOk nodes monitors p (cleanFrom rest dead)
      ∧ ∀ id, ¬ (cleanFrom rest dead).registering id ∧ ¬ (cleanFrom rest dead).removes id := by
  cases rest with
  | nil => exact ⟨trivial, fun _ => ⟨fun h => h, fun h => h⟩⟩
  | cons id rest => exact ⟨trivial, fun _ => ⟨fun h => h, fun h => h⟩⟩

theorem Inv.cleanFrom {s : State Pid} (h : Inv s) {p : Pid} (rest dead : List NodeId) :
    Inv (s.goto p (cleanFrom rest dead)) := by
  obtain ⟨hok, hquiet⟩ := cleanFrom_ok s.nodes s.monitors p rest dead
  exact h.goto hok (fun id => ⟨(hquiet id).1, fun _ hrem => absurd hrem (hquiet id).2⟩)

/-- The open of `register`: nobody is about to remove the file. -/
theorem Inv.registerOpen {s : State Pid} (h : Inv s) {p : Pid} {id : NodeId} {fd : Descriptor Pid}
    {inode : Nat} {nodes : Directory NodeId Pid}
    (hopen : s.nodes.openCreate p id = (fd, inode, nodes))
    (hapart : ∀ q, ¬ (s.pc q).removes id) :
    Inv (s.write p nodes (.locking id fd.number inode)) := by
  obtain ⟨rfl, hname, hold, hlock, hnext⟩ := Directory.openCreate_spec hopen
  refine h.write (fun id inode _ hn => hold id inode hn) (fun m _ hheld => ?_) ?_ ?_ ?_
  · rw [hlock]
    exact hheld
  · omega
  · refine ⟨hname, ?_, fun m hm he => ?_⟩
    · show s.nodes.nextNumber < nodes.nextNumber
      omega
    · have hlt := h.numbered m hm
      rw [he] at hlt
      exact Nat.lt_irrefl _ hlt
  · intro q id' _
    refine ⟨fun hreg => ?_, fun hrem => absurd hrem (Pc.not_removes_of_registering rfl)⟩
    obtain rfl : id = id' := hreg
    exact hapart q

/-- The open of `is_locked`: a cleanup makes it only when nobody registers the
node. -/
theorem Inv.probeOpen {s : State Pid} (h : Inv s) {p : Pid} {id : NodeId} {caller : Probe}
    (hapart : caller ≠ .isAlive → ∀ q, ¬ (s.pc q).registering id) :
    Inv (s.probeOpen p id caller) := by
  unfold State.probeOpen
  split
  next hnone =>
    cases caller with
    | isAlive => exact h.returned _
    | cleanup rest dead =>
        -- there is no such file, so no node of that id is registered
        refine h.goto (fun m hm he => ?_) (fun id' => ⟨fun hreg => hreg, fun q hrem => ?_⟩)
        · have hname := (h.registered m hm).1
          rw [he, Directory.openExisting_none hnone] at hname
          exact absurd hname (by simp)
        · obtain rfl : id = id' := hrem
          exact hapart (by simp) q
  next fd inode nodes hopen =>
    obtain ⟨rfl, hname, hnames, hlock, hnext⟩ := Directory.openExisting_spec hopen
    have hown : Own nodes s.monitors p s.nodes.nextNumber := by
      refine ⟨by omega, fun m hm he => ?_⟩
      have hlt := h.numbered m hm
      rw [he] at hlt
      exact Nat.lt_irrefl _ hlt
    refine h.write (fun id inode _ hn => ?_) (fun m _ hheld => ?_) (by omega) ?_ ?_
    · rw [hnames]
      exact hn
    · rw [hlock]
      exact hheld
    · cases caller with
      | isAlive => exact hown
      | cleanup rest dead =>
          refine ⟨fun m hm he => ?_, hown⟩
          have hm' := (h.registered m hm).1
          rw [he, hname] at hm'
          exact (Option.some.inj hm').symm
    · intro q id' _
      refine ⟨fun hreg => False.elim hreg, fun hrem => ?_⟩
      cases caller with
      | isAlive => exact False.elim hrem
      | cleanup rest dead =>
          obtain rfl : id = id' := hrem
          exact hapart (by simp) q

/-- The flock of `register`: from now on the node is registered. -/
theorem Inv.acquire {root : String} {s : State Pid} (h : Inv s) {p : Pid} {id : NodeId}
    {number inode : Nat} (hpc : s.pc p = .locking id number inode) :
    Inv (s.acquire root p id number inode) := by
  have hok := h.pcs p
  rw [hpc] at hok
  obtain ⟨hname, hnumber, hdistinct⟩ := hok
  unfold State.acquire
  split
  next nodes hlock =>
    obtain ⟨hfree, htaken, hothers, hnames, hnext⟩ := Directory.tryLock_spec hlock
    refine h.move rfl ?_ ?_ ?_ ?_ ?_ ?_ trivial ?_
    · intro m hm
      rcases List.mem_cons.mp hm with rfl | hm
      · rw [hnames]
        exact ⟨hname, htaken⟩
      · obtain ⟨hname', hheld⟩ := h.registered m hm
        -- the lock just taken was free, or the description's own
        have hne : m.inode ≠ inode := by
          intro he
          rw [he] at hheld
          rcases hfree with hfree | hfree
          · rw [hfree] at hheld
            exact absurd hheld (by simp)
          · rw [hfree] at hheld
            exact hdistinct m hm (Option.some.inj hheld).symm
        rw [hnames, hothers _ hne]
        exact ⟨hname', hheld⟩
    · refine List.nodup_cons.mpr ⟨fun hm => ?_, h.nodup⟩
      obtain ⟨m, hm, he⟩ := List.mem_map.mp hm
      exact hdistinct m hm he
    · intro m hm
      rw [hnext]
      rcases List.mem_cons.mp hm with rfl | hm
      · exact hnumber
      · exact h.numbered m hm
    · intro q id' inode' _ _ hn
      rw [hnames]
      exact hn
    · exact Nat.le_of_eq hnext.symm
    · intro m hm
      rcases List.mem_cons.mp hm with rfl | hm
      · exact .inr ⟨rfl, fun q => h.apart p q id (by rw [hpc]; rfl)⟩
      · exact .inl hm
    · exact fun q id' _ => ⟨fun hreg => False.elim hreg, fun hrem => False.elim hrem⟩
  next => exact h.returned _

/-- The flock of `is_locked` succeeds: nobody has registered the node. -/
theorem Inv.probeLocked {s : State Pid} (h : Inv s) {p : Pid} {id : NodeId} {number inode : Nat}
    {caller : Probe} {nodes : Directory NodeId Pid}
    (hpc : s.pc p = .probing id number inode caller)
    (hlock : s.nodes.tryLock ⟨p, number⟩ inode = some nodes) :
    Inv (s.write p nodes (.probed id number inode caller)) := by
  have hok := h.pcs p
  rw [hpc] at hok
  obtain ⟨hfree, htaken, hothers, hnames, hnext⟩ := Directory.tryLock_spec hlock
  have hown : Own s.nodes s.monitors p number := by
    cases caller with
    | isAlive => exact hok
    | cleanup rest dead => exact hok.2
  have hnot : ∀ m ∈ s.monitors, m.inode ≠ inode := by
    intro m hm he
    have hheld := (h.registered m hm).2
    rw [he] at hheld
    rcases hfree with hfree | hfree
    · rw [hfree] at hheld
      exact absurd hheld (by simp)
    · rw [hfree] at hheld
      exact hown.2 m hm (Option.some.inj hheld).symm
  have hown' : Own nodes s.monitors p number :=
    hown.mono (Nat.le_of_eq hnext.symm) (fun m hm => .inl hm)
  refine h.write (fun id inode _ hn => ?_) (fun m hm hheld => ?_) (Nat.le_of_eq hnext.symm) ?_ ?_
  · rw [hnames]
    exact hn
  · rw [hothers _ (hnot m hm)]
    exact hheld
  · cases caller with
    | isAlive => exact hown'
    | cleanup rest dead => exact ⟨fun m hm he => hnot m hm (hok.1 m hm he), hown'⟩
  · intro q id' hq
    refine ⟨fun hreg => False.elim hreg, fun hrem hreg => ?_⟩
    refine h.apart q p id' hreg ?_
    rw [hpc]
    cases caller with
    | isAlive => exact False.elim hrem
    | cleanup rest dead => exact hrem

theorem Inv.probeHeld {s : State Pid} (h : Inv s) {p : Pid} (id : NodeId) (caller : Probe) :
    Inv (s.goto p (afterProbe id true caller)) := by
  cases caller with
  | isAlive => exact h.returned _
  | cleanup rest dead => exact h.cleanFrom rest dead

/-- The unlock of `is_locked`: a cleanup removes the file next. -/
theorem Inv.probeUnlock {s : State Pid} (h : Inv s) {p : Pid} {id : NodeId} {number inode : Nat}
    {caller : Probe} (hpc : s.pc p = .probed id number inode caller) :
    Inv (s.write p (s.nodes.unlock ⟨p, number⟩ inode) (afterProbe id false caller)) := by
  have hok := h.pcs p
  rw [hpc] at hok
  have hown : Own s.nodes s.monitors p number := by
    cases caller with
    | isAlive => exact hok
    | cleanup rest dead => exact hok.2
  refine h.write (fun id inode _ hn => ?_) (fun m hm hheld => ?_) ?_ ?_ ?_
  · rw [Directory.unlock_names]
    exact hn
  · exact Directory.unlock_lock hheld (hown.2 m hm)
  · rw [Directory.unlock_nextNumber]
  · cases caller with
    | isAlive => trivial
    | cleanup rest dead => exact hok.1
  · intro q id' hq
    cases caller with
    | isAlive => exact ⟨fun hreg => False.elim hreg, fun hrem => False.elim hrem⟩
    | cleanup rest dead =>
        refine ⟨fun hreg => False.elim hreg, fun hrem hreg => ?_⟩
        refine h.apart q p id' hreg ?_
        rw [hpc]
        exact hrem

/-- A `remove_file`: the node of the file is not registered. -/
theorem Inv.unlinked {s : State Pid} (h : Inv s) {p : Pid} {id : NodeId}
    {nodes : Directory NodeId Pid} {pc : Pc} (hcond : (s.pc p).condemns id)
    (hunlink : s.nodes.unlink id = some nodes) (hok : PcOk nodes s.monitors p pc)
    (hquiet : ∀ id, ¬ pc.registering id ∧ ¬ pc.removes id) : Inv (s.write p nodes pc) := by
  obtain ⟨hothers, hlock, hnext⟩ := Directory.unlink_spec hunlink
  refine h.write (fun id' inode hno hn => ?_) (fun m _ hheld => ?_) (Nat.le_of_eq hnext.symm) hok
    (fun q id' _ => ⟨fun hreg => absurd hreg (hquiet id').1,
      fun hrem => absurd hrem (hquiet id').2⟩)
  · rw [hothers id' (fun he => hno p (he ▸ hcond))]
    exact hn
  · rw [hlock]
    exact hheld

theorem Inv.removeDead {s : State Pid} (h : Inv s) {p : Pid} {id : NodeId} {rest dead : List NodeId}
    (hpc : s.pc p = .removing id rest dead) : Inv (s.removeDead p id rest dead) := by
  unfold State.removeDead
  split
  next nodes hunlink =>
    obtain ⟨hok, hquiet⟩ := cleanFrom_ok nodes s.monitors p rest (dead ++ [id])
    exact h.unlinked (by rw [hpc]; rfl) hunlink hok hquiet
  next => exact h.cleanFrom rest dead

theorem Inv.removeOwn {root : String} {s : State Pid} (h : Inv s) {p : Pid} {id : NodeId}
    (hpc : s.pc p = .deregistering id) : Inv (s.removeOwn root p id) := by
  unfold State.removeOwn
  split
  next nodes hunlink =>
    exact h.unlinked (by rw [hpc]; rfl) hunlink trivial (fun _ => ⟨fun h => h, fun h => h⟩)
  next => exact h.returned _

/-- The monitors that are left when `m` has released its lock. -/
theorem Inv.erase {s : State Pid} (h : Inv s) {m : Monitor Pid} (hm : m ∈ s.monitors) :
    (∀ m' ∈ s.monitors.erase m, (s.nodes.unlock m.fd m.inode).names.lookup m'.nodeId = some m'.inode
      ∧ (s.nodes.unlock m.fd m.inode).lock m'.inode = some m'.fd)
      ∧ NoMonitor (s.monitors.erase m) m.nodeId
      ∧ ((s.monitors.erase m).map Monitor.fd).Nodup := by
  have hnodup : s.monitors.Nodup := h.nodup.of_map _
  have hdistinct : ∀ m' ∈ s.monitors.erase m, m' ∈ s.monitors ∧ m'.fd ≠ m.fd := by
    intro m' hm'
    obtain ⟨hne, hmem⟩ := (hnodup.mem_erase_iff).mp hm'
    exact ⟨hmem, fun he => hne (List.inj_on_of_nodup_map h.nodup hmem hm he)⟩
  refine ⟨fun m' hm' => ?_, fun m' hm' he => ?_, h.nodup.sublist (List.erase_sublist.map _)⟩
  · obtain ⟨hmem, hne⟩ := hdistinct m' hm'
    obtain ⟨hname, hheld⟩ := h.registered m' hmem
    rw [Directory.unlock_names]
    exact ⟨hname, Directory.unlock_lock hheld hne⟩
  · -- two monitors of one node would hold the lock of one inode
    obtain ⟨hmem, hne⟩ := hdistinct m' hm'
    obtain ⟨hname, hheld⟩ := h.registered m hm
    obtain ⟨hname', hheld'⟩ := h.registered m' hmem
    rw [he, hname] at hname'
    rw [← Option.some.inj hname', hheld] at hheld'
    exact hne (Option.some.inj hheld').symm

theorem Inv.deregister {s : State Pid} (h : Inv s) {p : Pid} {m : Monitor Pid}
    (hm : m ∈ s.monitors) (hapart : ∀ q, ¬ (s.pc q).registering m.nodeId) :
    Inv { nodes := s.nodes.unlock m.fd m.inode
          pc := Function.update s.pc p (.deregistering m.nodeId)
          monitors := s.monitors.erase m } := by
  obtain ⟨hregistered, hno, hnodup⟩ := h.erase hm
  refine h.move rfl hregistered hnodup (fun m' hm' => ?_) (fun q id inode _ _ hn => ?_) ?_
    (fun m' hm' => .inl (List.mem_of_mem_erase hm')) hno (fun q id _ => ?_)
  · rw [Directory.unlock_nextNumber]
    exact h.numbered m' (List.mem_of_mem_erase hm')
  · rw [Directory.unlock_names]
    exact hn
  · rw [Directory.unlock_nextNumber]
  · refine ⟨fun hreg => False.elim hreg, fun hrem => ?_⟩
    obtain rfl : m.nodeId = id := hrem
    exact hapart q

theorem Inv.drop {s : State Pid} (h : Inv s) {p : Pid} {m : Monitor Pid}
    (hrest : (s.pc p).resting = true) (hm : m ∈ s.monitors) :
    Inv { s with nodes := s.nodes.unlock m.fd m.inode, monitors := s.monitors.erase m } := by
  obtain ⟨hregistered, _, hnodup⟩ := h.erase hm
  have hquiet := Pc.quiet_of_resting hrest
  refine h.move (Function.update_eq_self p s.pc).symm hregistered hnodup (fun m' hm' => ?_)
    (fun q id inode _ _ hn => ?_) ?_ (fun m' hm' => .inl (List.mem_of_mem_erase hm')) ?_
    (fun q id _ => ⟨fun hreg => absurd hreg (hquiet id).1, fun hrem => absurd hrem (hquiet id).2⟩)
  · rw [Directory.unlock_nextNumber]
    exact h.numbered m' (List.mem_of_mem_erase hm')
  · rw [Directory.unlock_names]
    exact hn
  · rw [Directory.unlock_nextNumber]
  · cases hpc : s.pc p with
    | idle => trivial
    | returned r => trivial
    | _ =>
        rw [hpc] at hrest
        exact absurd hrest (by simp [Pc.resting])

theorem Inv.exit {s : State Pid} (h : Inv s) (p : Pid) :
    Inv { nodes := s.nodes.exit p
          pc := Function.update s.pc p .exited
          monitors := s.monitors.filter (fun m => m.fd.process ≠ p) } := by
  refine h.move rfl (fun m hm => ?_) ?_ (fun m hm => ?_) (fun _ _ _ _ _ hn => hn) (Nat.le_refl _)
    (fun m hm => .inl (List.mem_of_mem_filter hm)) trivial
    (fun _ _ _ => ⟨fun hreg => False.elim hreg, fun hrem => False.elim hrem⟩)
  · obtain ⟨hmem, hproc⟩ := List.mem_filter.mp hm
    obtain ⟨hname, hheld⟩ := h.registered m hmem
    exact ⟨hname, Directory.exit_lock hheld (by simpa using hproc)⟩
  · exact h.nodup.sublist (List.filter_sublist.map _)
  · exact h.numbered m (List.mem_of_mem_filter hm)

/-- **The step lemma.** -/
theorem Inv.step {root : String} {s s' : State Pid} {a : Act Pid} (h : Inv s)
    (hapart : ProcessMonitor.apart s a) (hs : step root s a = some s') : Inv s' := by
  cases step_cases hs with
  | registerOpen p id fd inode nodes _ hopen => exact h.registerOpen hopen hapart
  | isAlive p id _ => exact h.probeOpen (fun hne => absurd rfl hne)
  | listNodes p order _ => exact h.returned _
  | cleanup p order _ => exact h.cleanFrom order []
  | deregister p m _ hm _ => exact h.deregister hm hapart
  | drop p m hrest hm _ => exact h.drop hrest hm
  | exit p => exact h.exit p
  | acquire p id number inode hpc => exact h.acquire hpc
  | probeLocked p id number inode caller nodes hpc hlock => exact h.probeLocked hpc hlock
  | probeHeld p id number inode caller _ => exact h.probeHeld id caller
  | probeUnlock p id number inode caller hpc => exact h.probeUnlock hpc
  | cleanOpen p id rest dead hpc =>
      refine h.probeOpen (fun _ => hapart id ?_)
      rw [hpc]
      rfl
  | removeDead p id rest dead hpc => exact h.removeDead hpc
  | removeOwn p id hpc => exact h.removeOwn hpc

/-! ## §6. Every run. -/

omit [DecidableEq Pid] in
theorem inv_init : Inv (init : State Pid) where
  registered := fun _ hm => absurd hm List.not_mem_nil
  nodup := List.nodup_nil
  numbered := fun _ hm => absurd hm List.not_mem_nil
  pcs := fun _ => trivial
  apart := fun _ _ _ hreg => False.elim hreg

/-- A monitor stays until it is ended. -/
theorem monitor_kept {root : String} {s s' : State Pid} {a : Act Pid} {m : Monitor Pid}
    (hs : step root s a = some s') (hm : m ∈ s.monitors) (hends : ¬ a.ends m) :
    m ∈ s'.monitors := by
  cases step_cases hs with
  | deregister p m' _ _ _ => exact (List.mem_erase_of_ne (fun he => hends he.symm)).mpr hm
  | drop p m' _ _ _ => exact (List.mem_erase_of_ne (fun he => hends he.symm)).mpr hm
  | exit p =>
      have hne : m.fd.process ≠ p := hends
      exact List.mem_filter.mpr ⟨hm, by simpa using hne⟩
  | isAlive p id _ =>
      unfold State.probeOpen
      split <;> exact hm
  | cleanOpen p id rest dead _ =>
      unfold State.probeOpen
      split <;> exact hm
  | acquire p id number inode _ =>
      unfold State.acquire
      split
      next => exact List.mem_cons_of_mem _ hm
      next => exact hm
  | removeDead p id rest dead _ =>
      unfold State.removeDead
      split <;> exact hm
  | removeOwn p id _ =>
      unfold State.removeOwn
      split <;> exact hm
  | _ => exact hm

omit [DecidableEq Pid] in
theorem cleanFrom_dead (rest dead : List NodeId) : (cleanFrom rest dead).dead = dead := by
  cases rest <;> rfl

/-- What an `is_locked` that returns leaves in the report of its caller. -/
theorem afterProbe_dead (id : NodeId) (locked : Bool) (caller : Probe) (id' : NodeId)
    (number inode : Nat) :
    (afterProbe id locked caller).dead = (Pc.probing id' number inode caller).dead := by
  cases caller with
  | isAlive => rfl
  | cleanup rest dead =>
      cases locked with
      | false => rfl
      | true => exact cleanFrom_dead rest dead

theorem probeOpen_dead (s : State Pid) (p : Pid) (id : NodeId) (caller : Probe) (id' : NodeId)
    (number inode : Nat) :
    ((s.probeOpen p id caller).pc p).dead = (Pc.probing id' number inode caller).dead := by
  unfold State.probeOpen
  split
  next =>
    show (Function.update s.pc p _ p).dead = _
    rw [Function.update_self]
    exact afterProbe_dead id false caller id' number inode
  next fd inode' nodes _ =>
    show (Function.update s.pc p _ p).dead = _
    rw [Function.update_self]
    cases caller <;> rfl

/-- A call of `register` or `deregister` ends without a report. -/
theorem acquire_dead (root : String) (s : State Pid) (p : Pid) (id : NodeId)
    (number inode : Nat) : ((s.acquire root p id number inode).pc p).dead = [] := by
  unfold State.acquire
  split
  next =>
    show (Function.update s.pc p _ p).dead = []
    rw [Function.update_self]
    rfl
  next =>
    show (Function.update s.pc p _ p).dead = []
    rw [Function.update_self]
    rfl

theorem removeOwn_dead (root : String) (s : State Pid) (p : Pid) (id : NodeId) :
    ((s.removeOwn root p id).pc p).dead = [] := by
  unfold State.removeOwn
  split
  next =>
    show (Function.update s.pc p _ p).dead = []
    rw [Function.update_self]
    rfl
  next =>
    show (Function.update s.pc p _ p).dead = []
    rw [Function.update_self]
    rfl

/-- A cleanup reports the node whose file it has removed. -/
theorem removeDead_dead (s : State Pid) (p : Pid) {id id' : NodeId} {rest dead : List NodeId}
    (h : id ∈ ((s.removeDead p id' rest dead).pc p).dead) : id ∈ dead ∨ id' = id := by
  unfold State.removeDead at h
  split at h
  next =>
    have hnew : id ∈ (Function.update s.pc p (cleanFrom rest (dead ++ [id'])) p).dead := h
    rw [Function.update_self, cleanFrom_dead] at hnew
    rcases List.mem_append.mp hnew with hold | hone
    · exact .inl hold
    · exact .inr (List.mem_singleton.mp hone).symm
  next =>
    have hnew : id ∈ (Function.update s.pc p (cleanFrom rest dead) p).dead := h
    rw [Function.update_self, cleanFrom_dead] at hnew
    exact .inl hnew

/-- Only the `remove_file` of a cleanup makes its report longer. -/
theorem dead_grows {root : String} {s s' : State Pid} {a : Act Pid} {p : Pid} {id : NodeId}
    (hs : step root s a = some s') (hid : id ∈ (s'.pc p).dead) :
    id ∈ (s.pc p).dead ∨ (s.pc p).condemns id := by
  by_cases hp : p ≠ a.process
  · rw [step_pc_other hs hp] at hid
    exact .inl hid
  obtain rfl : a.process = p := (not_not.mp hp).symm
  -- a call that begins or ends without a report
  have hnone : ∀ pc : Pc, pc.dead = [] → s'.pc a.process = pc → False := by
    intro pc hdead hpc
    rw [hpc, hdead] at hid
    exact absurd hid List.not_mem_nil
  cases step_cases hs with
  | drop p m _ _ _ => exact .inl hid
  | registerOpen p id' fd inode nodes _ _ => exact (hnone _ rfl (Function.update_self _ _ _)).elim
  | listNodes p order _ => exact (hnone _ rfl (Function.update_self _ _ _)).elim
  | deregister p m _ _ _ => exact (hnone _ rfl (Function.update_self _ _ _)).elim
  | exit p => exact (hnone _ rfl (Function.update_self _ _ _)).elim
  | cleanup p order _ =>
      exact (hnone _ (cleanFrom_dead order []) (Function.update_self _ _ _)).elim
  | isAlive p id' _ => exact (hnone _ (probeOpen_dead s p id' .isAlive id' 0 0) rfl).elim
  | acquire p id' number inode _ =>
      exact (hnone _ (acquire_dead root s p id' number inode) rfl).elim
  | removeOwn p id' _ => exact (hnone _ (removeOwn_dead root s p id') rfl).elim
  | probeLocked p id' number inode caller nodes hpc _ =>
      left
      show id ∈ (s.pc p).dead
      have hnew : id ∈ (Function.update s.pc p (.probed id' number inode caller) p).dead := hid
      rw [Function.update_self] at hnew
      rw [hpc]
      cases caller <;> exact hnew
  | probeHeld p id' number inode caller hpc =>
      left
      show id ∈ (s.pc p).dead
      have hnew : id ∈ (Function.update s.pc p (afterProbe id' true caller) p).dead := hid
      rw [Function.update_self, afterProbe_dead id' true caller id' number inode] at hnew
      rw [hpc]
      exact hnew
  | probeUnlock p id' number inode caller hpc =>
      left
      show id ∈ (s.pc p).dead
      have hnew : id ∈ (Function.update s.pc p (afterProbe id' false caller) p).dead := hid
      rw [Function.update_self, afterProbe_dead id' false caller id' number inode] at hnew
      rw [hpc]
      cases caller <;> exact hnew
  | cleanOpen p id' rest dead hpc =>
      left
      show id ∈ (s.pc p).dead
      have hnew : id ∈ ((s.probeOpen p id' (.cleanup rest dead)).pc p).dead := hid
      rw [probeOpen_dead s p id' (.cleanup rest dead) id' 0 0] at hnew
      rw [hpc]
      exact hnew
  | removeDead p id' rest dead hpc =>
      show id ∈ (s.pc p).dead ∨ (s.pc p).condemns id
      rw [hpc]
      exact removeDead_dead s p hid

/-- An `is_alive` that opens the file of a registered node and tries its lock
before the node ends finds it locked. -/
theorem Inv.alive {root : String} {s s₁ s₂ s₃ : State Pid} (h : Inv s) {m : Monitor Pid}
    (hm : m ∈ s.monitors) {p : Pid}
    (hopen : ProcessMonitor.step root s (.isAlive p m.nodeId) = some s₁)
    (hmid : Reach (ProcessMonitor.step root)
      (fun t a => ProcessMonitor.apart t a ∧ a.process ≠ p) s₁ s₂)
    (hm₂ : m ∈ s₂.monitors) (hnext : ProcessMonitor.step root s₂ (.next p) = some s₃) :
    s₃.pc p = .returned (.isAlive true) := by
  have hinv₁ : Inv s₁ := h.step (a := .isAlive p m.nodeId) trivial hopen
  obtain ⟨hname, _⟩ := h.registered m hm
  -- the file opened is the node's inode
  have hpc₁ : ∃ number, s₁.pc p = .probing m.nodeId number m.inode .isAlive := by
    simp only [ProcessMonitor.step, Option.ite_none_right_eq_some, Option.some.injEq] at hopen
    obtain ⟨_, rfl⟩ := hopen
    unfold State.probeOpen
    split
    next hnone =>
      rw [Directory.openExisting_none hnone] at hname
      exact absurd hname (by simp)
    next fd inode nodes hsome =>
      obtain ⟨rfl, hname', _⟩ := Directory.openExisting_spec hsome
      rw [hname'] at hname
      obtain rfl := Option.some.inj hname
      exact ⟨_, Function.update_self _ _ _⟩
  obtain ⟨number, hpc₁⟩ := hpc₁
  obtain ⟨hinv₂, hpc₂⟩ : Inv s₂ ∧ s₂.pc p = .probing m.nodeId number m.inode .isAlive := by
    refine hmid.invariant (fun t => Inv t ∧ t.pc p = .probing m.nodeId number m.inode .isAlive)
      ⟨hinv₁, hpc₁⟩ (fun t a t' ht hok hs => ⟨ht.1.step hok.1 hs, ?_⟩)
    rw [step_pc_other hs (Ne.symm hok.2)]
    exact ht.2
  have hown := hinv₂.pcs p
  rw [hpc₂] at hown
  have hheld := Directory.tryLock_held (hinv₂.registered m hm₂).2 (hown.2 m hm₂)
  simp only [ProcessMonitor.step, access, hpc₂, hheld, Option.some.injEq] at hnext
  subst hnext
  exact Function.update_self _ _ _

theorem Inv.safe {root : String} {s : State Pid} (h : Inv s) {m : Monitor Pid}
    (hm : m ∈ s.monitors) : NodeSafe root ProcessMonitor.apart s m where
  file := (h.registered m hm).1
  locked := (h.registered m hm).2
  kept := by
    intro a s' hapart hs hends
    have hm' := monitor_kept hs hm hends
    exact ⟨hm', ((h.step hapart hs).registered m hm').1⟩
  alive := fun p s₁ s₂ s₃ hopen hmid hm₂ hnext => h.alive hm hopen hmid hm₂ hnext
  unreported := by
    intro a s' p hs hid
    rcases dead_grows hs hid with hold | hcond
    · exact hold
    · exact absurd rfl ((h.pcs p).noMonitor hcond m hm)
  only := by
    intro m' hm' he
    obtain ⟨hname, hheld⟩ := h.registered m hm
    obtain ⟨hname', hheld'⟩ := h.registered m' hm'
    rw [he, hname] at hname'
    rw [← Option.some.inj hname', hheld] at hheld'
    exact List.inj_on_of_nodup_map h.nodup hm' hm (Option.some.inj hheld').symm
  refused := by
    intro p number inode s' hpc hs
    have hok := h.pcs p
    rw [hpc] at hok
    obtain ⟨hname, hheld⟩ := h.registered m hm
    obtain ⟨hname', _, hdistinct⟩ := hok
    rw [hname] at hname'
    obtain rfl := Option.some.inj hname'
    have hnone := Directory.tryLock_held hheld (hdistinct m hm)
    simp only [ProcessMonitor.step, access, hpc, State.acquire, hnone, Option.some.injEq] at hs
    subst hs
    exact ⟨_, Function.update_self _ _ _⟩

/-- **A live node is never cleaned up**, in any run in which a register and a
removal of the same file do not overlap. -/
theorem live_node_safe (root : String) (s : State Pid) (m : Monitor Pid)
    (h : Reach (step root) apart init s) (hm : m ∈ s.monitors) : NodeSafe root apart s m :=
  (h.invariant Inv inv_init (fun _ _ _ hi hok hs => hi.step hok hs)).safe hm

instance decidableApart (s : State Bool) : (a : Act Bool) → Decidable (apart s a)
  | .register _ id => inferInstanceAs (Decidable (∀ q, ¬ (s.pc q).removes id))
  | .deregister _ m => inferInstanceAs (Decidable (∀ q, ¬ (s.pc q).registering m.nodeId))
  | .next p =>
      inferInstanceAs (Decidable (∀ id ∈ (s.pc p).looksAt, ∀ q, ¬ (s.pc q).registering id))
  | .isAlive _ _ | .listNodes _ _ | .cleanup _ _ | .drop _ _ | .exit _ => isTrue trivial

/-- A node whose process has died is cleaned up, and then registered anew. -/
theorem live_node_safe_again :
    ∃ s : State Bool, Reach (step "/tmp") apart init s
      ∧ s.pc false = .returned (.registered (.ok ()))
      ∧ NodeSafe "/tmp" apart s ⟨⟨42⟩, ⟨false, 2⟩, 1⟩ := by
  have hrun : (execOk (step "/tmp") apart (init : State Bool)
      [.register true ⟨42⟩, .next true, .exit true, .cleanup false [⟨42⟩], .next false,
       .next false, .next false, .next false, .register false ⟨42⟩, .next false]).map
        (fun s => (s.monitors, s.pc false))
      = some ([⟨⟨42⟩, ⟨false, 2⟩, 1⟩], .returned (.registered (.ok ()))) := by
    decide
  obtain ⟨s, hs, hends⟩ := Option.map_eq_some_iff.mp hrun
  simp only [Prod.mk.injEq] at hends
  have hreach := Reach.of_execOk _ .refl hs
  refine ⟨s, hreach, hends.2, live_node_safe "/tmp" s _ hreach ?_⟩
  rw [hends.1]
  exact List.mem_singleton.mpr rfl

end Entangle.Platform.ProcessMonitor
