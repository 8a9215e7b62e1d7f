/-
  Entangle.Platform.SharedMemory — `SharedMemory` of
  entangle-platform/src/shm.rs over the global table of shared-memory names.

  `create` makes the name with its first system call and builds the value
  whose drop unlinks it with its last.  What each system call answers is given
  (`Os`); a call that fails in between leaves the name behind, and nobody is
  left to unlink it (`Stale.run`).

  Main results:
    * `create_openFails`, `create_fails`, `create_completes` — one call;
    * `create_noTrace_iff` — when a failed `create` leaves no trace;
    * `create_zero_leaves_name` — a segment of size zero.
-/
import Entangle.Platform.Error
import Mathlib.Logic.Function.Basic

namespace Entangle.Platform.SharedMemory

/-! ## §1. Names, objects and system calls. -/

/-- The platform compiled for; on macOS long names are replaced by a hash. -/
structure Target where
  macos : Bool
  hashed : String → String

/-- `normalize_name`. -/
def normalizeName (target : Target) (name : String) : String :=
  let n := if name.toList.head? = some '/' then name else "/" ++ name
  if target.macos ∧ n.utf8ByteSize > 30 then target.hashed n else n

/-- A shared-memory object: its `st_size`, and what it holds. -/
structure Object (α : Type) where
  size : Nat
  content : α
  deriving Repr, DecidableEq

/-- The shared-memory names that exist. -/
abbrev Names (α : Type) := String → Option (Object α)

/-- What the system calls answer, beyond what the names decide; `none` is success. -/
structure Os where
  shmOpen : Option String
  ftruncate : Nat → Option String
  fstat : Option String
  mmap : Nat → Option String

/-- `EEXIST` and `ENOENT`, as they are printed. -/
def fileExists : String := "EEXIST: File exists"

def noEntry : String := "ENOENT: No such file or directory"

/-- `SharedMemory`. -/
structure Mapping where
  size : Nat
  name : String
  isOwner : Bool
  deriving Repr, DecidableEq

variable {α : Type} (target : Target)

/-! ## §2. The calls. -/

/-- `do_mmap`. -/
def doMmap (os : Os) (size : Nat) (name : String) : Except PlatformError Unit :=
  if size = 0 then .error (.mmap "size must be non-zero")
  else
    match os.mmap size with
    | some e => .error (.mmap s!"mmap for '{name}': {e}")
    | none => .ok ()

/-- `SharedMemory::create`; `zero` is what the zeroed memory holds. -/
def create (zero : α) (os : Os) (names : Names α) (name : String) (size : Nat) :
    Except PlatformError Mapping × Names α :=
  let shmName := normalizeName target name
  match names shmName, os.shmOpen with
  | some _, _ => (.error (.sharedMemoryCreate shmName fileExists), names)
  | none, some e => (.error (.sharedMemoryCreate shmName e), names)
  | none, none =>
      -- the name exists from here on
      let opened := Function.update names shmName (some ⟨0, zero⟩)
      match os.ftruncate size with
      | some e => (.error (.sharedMemoryCreate shmName s!"ftruncate: {e}"), opened)
      | none =>
          let sized := Function.update names shmName (some ⟨size, zero⟩)
          match doMmap os size shmName with
          | .error e => (.error e, sized)
          | .ok _ => (.ok { size := size, name := shmName, isOwner := true }, sized)

/-- `SharedMemory::open`. -/
def openExisting (os : Os) (names : Names α) (name : String) : Except PlatformError Mapping :=
  let shmName := normalizeName target name
  match names shmName, os.shmOpen, os.fstat with
  | none, _, _ => .error (.sharedMemoryOpen shmName noEntry)
  | some _, some e, _ => .error (.sharedMemoryOpen shmName e)
  | some _, none, some e => .error (.sharedMemoryOpen shmName s!"fstat: {e}")
  | some object, none, none =>
      match doMmap os object.size shmName with
      | .error e => .error e
      | .ok _ => .ok { size := object.size, name := shmName, isOwner := false }

/-- `Drop for SharedMemory`: an owner unlinks the name. -/
def drop (shm : Mapping) (names : Names α) : Names α :=
  if shm.isOwner then Function.update names shm.name none else names

/-! ## §3. One `create`. -/

/-- The `shm_open` of `create` fails. -/
def OpenFails (os : Os) (names : Names α) (name : String) : Prop :=
  (names (normalizeName target name)).isSome ∨ os.shmOpen.isSome

/-- The steps of `create` after `shm_open` succeed. -/
def Completes (os : Os) (size : Nat) : Prop :=
  os.ftruncate size = none ∧ size ≠ 0 ∧ os.mmap size = none

theorem create_openFails (zero : α) {os : Os} {names : Names α} {name : String}
    (h : OpenFails target os names name) (size : Nat) :
    ∃ e, create target zero os names name size = (.error e, names) := by
  unfold create
  dsimp only
  cases hname : names (normalizeName target name) with
  | some object => exact ⟨_, rfl⟩
  | none =>
      cases hopen : os.shmOpen with
      | some e => exact ⟨_, rfl⟩
      | none => exact absurd h (by simp [OpenFails, hname, hopen])

theorem doMmap_ok {os : Os} {size : Nat} (hsize : size ≠ 0) (hmmap : os.mmap size = none)
    (name : String) : doMmap os size name = .ok () := by
  unfold doMmap
  rw [if_neg hsize, hmmap]

theorem doMmap_error {os : Os} {size : Nat} (h : ¬ (size ≠ 0 ∧ os.mmap size = none))
    (name : String) : ∃ e, doMmap os size name = .error e := by
  unfold doMmap
  by_cases hsize : size = 0
  · exact ⟨_, if_pos hsize⟩
  · rw [if_neg hsize]
    cases hmmap : os.mmap size with
    | some e => exact ⟨_, rfl⟩
    | none => exact absurd ⟨hsize, hmmap⟩ h

/-- Once `shm_open` has succeeded, a failure leaves the name behind. -/
theorem create_fails (zero : α) {os : Os} {names : Names α} {name : String} {size : Nat}
    (hopen : ¬ OpenFails target os names name) (h : ¬ Completes os size) :
    ∃ e object, create target zero os names name size
      = (.error e, Function.update names (normalizeName target name) (some object)) := by
  simp only [OpenFails, not_or, Option.not_isSome_iff_eq_none] at hopen
  unfold create
  simp only [hopen.1, hopen.2]
  cases htrunc : os.ftruncate size with
  | some e => exact ⟨_, _, rfl⟩
  | none =>
      obtain ⟨e, he⟩ := doMmap_error (fun hm => h ⟨htrunc, hm⟩) (normalizeName target name)
      simp only [he]
      exact ⟨_, _, rfl⟩

theorem create_completes (zero : α) {os : Os} {names : Names α} {name : String} {size : Nat}
    (hopen : ¬ OpenFails target os names name) (h : Completes os size) :
    create target zero os names name size
      = (.ok { size := size, name := normalizeName target name, isOwner := true },
          Function.update names (normalizeName target name) (some ⟨size, zero⟩)) := by
  simp only [OpenFails, not_or, Option.not_isSome_iff_eq_none] at hopen
  unfold create
  simp only [hopen.1, hopen.2, h.1, doMmap_ok h.2.1 h.2.2]

/-- A handle made by `open` is no owner. -/
theorem openExisting_isOwner {os : Os} {names : Names α} {name : String} {shm : Mapping}
    (h : openExisting target os names name = .ok shm) : shm.isOwner = false := by
  unfold openExisting at h
  dsimp only at h
  split at h
  next => exact absurd h (by simp)
  next => exact absurd h (by simp)
  next => exact absurd h (by simp)
  next =>
    split at h
    next => exact absurd h (by simp)
    next =>
      injection h with h
      rw [← h]

/-- Making a name takes no other away. -/
theorem isSome_update {names : Names α} {n : String} (h : (names n).isSome) (m : String)
    (object : Object α) : (Function.update names m (some object) n).isSome := by
  by_cases hn : n = m
  · subst hn
    rw [Function.update_self]
    rfl
  · rw [Function.update_of_ne hn]
    exact h

/-! ## §4. Sequences of calls. -/

/-- The names there are, and the `SharedMemory` handles that exist. -/
structure State (α : Type) where
  names : Names α
  handles : List Mapping

inductive Call where
  | create (os : Os) (name : String) (size : Nat)
  | openExisting (os : Os) (name : String)
  | drop (shm : Mapping)

/-- One call; a handle is dropped only if there is one. -/
def Call.run (zero : α) (s : State α) : Call → State α
  | .create os name size =>
      match SharedMemory.create target zero os s.names name size with
      | (.ok shm, names) => { names := names, handles := shm :: s.handles }
      | (.error _, names) => { s with names := names }
  | .openExisting os name =>
      match SharedMemory.openExisting target os s.names name with
      | .ok shm => { s with handles := shm :: s.handles }
      | .error _ => s
  | .drop shm =>
      if shm ∈ s.handles then
        { names := SharedMemory.drop shm s.names, handles := s.handles.erase shm }
      else s

def run (zero : α) (s : State α) (calls : List Call) : State α :=
  calls.foldl (Call.run target zero) s

/-- A `create` of the name, of any size but zero, succeeds as soon as the system calls do. -/
def Creatable (zero : α) (s : State α) (name : String) : Prop :=
  ∀ os size, os.shmOpen = none → Completes os size →
    ∃ shm names, create target zero os s.names name size = (.ok shm, names)

theorem creatable_iff (zero : α) (s : State α) (name : String) :
    Creatable target zero s name ↔ s.names (normalizeName target name) = none := by
  constructor
  · intro h
    by_contra hname
    have hsome : (s.names (normalizeName target name)).isSome := Option.isSome_iff_ne_none.mpr hname
    obtain ⟨shm, names, hok⟩ := h ⟨none, fun _ => none, none, fun _ => none⟩ 1 rfl
      ⟨rfl, Nat.one_ne_zero, rfl⟩
    have hfails : OpenFails target ⟨none, fun _ => none, none, fun _ => none⟩ s.names name :=
      .inl hsome
    obtain ⟨e, herr⟩ := create_openFails target zero hfails 1
    rw [hok] at herr
    exact absurd herr (by simp)
  · intro hname os size hopen hcompletes
    have hfree : ¬ OpenFails target os s.names name := by
      simp [OpenFails, hname, hopen]
    exact ⟨_, _, create_completes target zero hfree hcompletes⟩

/-- The name exists and no handle will unlink it. -/
structure Stale (s : State α) (n : String) : Prop where
  taken : (s.names n).isSome
  unowned : ∀ shm ∈ s.handles, shm.isOwner = true → shm.name ≠ n

/-- **A name nobody owns stays**: no call removes it. -/
theorem Stale.call {s : State α} {n : String} (h : Stale s n) (zero : α) (c : Call) :
    Stale (c.run target zero s) n := by
  cases c with
  | create os name size =>
      by_cases hopen : OpenFails target os s.names name
      · obtain ⟨e, he⟩ := create_openFails target zero hopen size
        simp only [Call.run, he]
        exact h
      · by_cases hcompletes : Completes os size
        · simp only [Call.run, create_completes target zero hopen hcompletes]
          refine ⟨isSome_update h.taken _ _, fun shm hshm howner => ?_⟩
          rcases List.mem_cons.mp hshm with rfl | hshm
          · -- the name created was not taken
            rintro rfl
            exact hopen (.inl h.taken)
          · exact h.unowned shm hshm howner
        · obtain ⟨e, object, he⟩ := create_fails target zero hopen hcompletes
          simp only [Call.run, he]
          exact ⟨isSome_update h.taken _ _, h.unowned⟩
  | openExisting os name =>
      unfold Call.run
      dsimp only
      split
      next shm hshm =>
        refine ⟨h.taken, fun x hx howner => ?_⟩
        rcases List.mem_cons.mp hx with rfl | hx
        · rw [openExisting_isOwner target hshm] at howner
          exact absurd howner (by simp)
        · exact h.unowned x hx howner
      next => exact h
  | drop shm =>
      unfold Call.run
      dsimp only
      split
      next hshm =>
        refine ⟨?_, fun x hx => h.unowned x (List.mem_of_mem_erase hx)⟩
        unfold SharedMemory.drop
        split
        next howner =>
          show (Function.update s.names shm.name none n).isSome
          rw [Function.update_of_ne (h.unowned shm hshm howner).symm]
          exact h.taken
        next => exact h.taken
      next => exact h

theorem Stale.run {s : State α} {n : String} (h : Stale s n) (zero : α) (calls : List Call) :
    Stale (SharedMemory.run target zero s calls) n := by
  induction calls generalizing s with
  | nil => exact h
  | cons c calls ih => exact ih (h.call target zero c)

/-- After a `create` that fails past `shm_open`, no sequence of calls makes the
name creatable again, unless a handle that owns it was there before. -/
theorem create_blocks_name (zero : α) {os : Os} {s : State α} {name : String} {size : Nat}
    (hopen : ¬ OpenFails target os s.names name) (h : ¬ Completes os size)
    (hunowned : ∀ shm ∈ s.handles, shm.isOwner = true → shm.name ≠ normalizeName target name)
    (calls : List Call) :
    ¬ Creatable target zero
      (run target zero (Call.run target zero s (.create os name size)) calls) name := by
  obtain ⟨e, object, he⟩ := create_fails target zero hopen h
  have hstale : Stale (Call.run target zero s (.create os name size))
      (normalizeName target name) := by
    simp only [Call.run, he]
    refine ⟨?_, hunowned⟩
    dsimp only
    rw [Function.update_self]
    rfl
  rw [creatable_iff]
  exact Option.isSome_iff_ne_none.mp (hstale.run target zero calls).taken

/-! ## §5. A failed `create` and its trace. -/

/-- If `create` returns Err, the names that exist are those of before, and after
every later sequence of calls the name can be created if it could without the
failed call. -/
def NoTrace (zero : α) (os : Os) (s : State α) (name : String) (size : Nat) : Prop :=
  ∀ e names, create target zero os s.names name size = (.error e, names) →
    (∀ n, (names n).isSome = (s.names n).isSome)
      ∧ ∀ calls, Creatable target zero (run target zero { s with names := names } calls) name
          ↔ Creatable target zero (run target zero s calls) name

/-- **A failed `create` leaves no trace iff** it is `shm_open` that fails, or
nothing does. -/
theorem create_noTrace_iff (zero : α) (os : Os) (s : State α) (name : String) (size : Nat) :
    NoTrace target zero os s name size
      ↔ OpenFails target os s.names name ∨ Completes os size := by
  constructor
  · intro htrace
    by_contra hneither
    obtain ⟨hopen, hcompletes⟩ := not_or.mp hneither
    obtain ⟨e, object, he⟩ := create_fails target zero hopen hcompletes
    have hsame := (htrace e _ he).1 (normalizeName target name)
    rw [Function.update_self] at hsame
    exact hopen (.inl hsame.symm)
  · intro h e names he
    by_cases hopen : OpenFails target os s.names name
    · obtain ⟨e', he'⟩ := create_openFails target zero hopen size
      rw [he'] at he
      obtain ⟨_, rfl⟩ := Prod.mk.inj he
      exact ⟨fun n => rfl, fun calls => Iff.rfl⟩
    · rw [create_completes target zero hopen (h.resolve_left hopen)] at he
      exact absurd he (by simp)

/-- No names, no handles. -/
def noNames : State Unit := { names := fun _ => none, handles := [] }

/-- System calls that succeed. -/
def working : Os :=
  { shmOpen := none, ftruncate := fun _ => none, fstat := none, mmap := fun _ => none }

/-- **A failed `create` leaves its name behind**: size zero.  The name exists
afterwards, and no later sequence of calls makes it creatable again. -/
theorem create_zero_leaves_name :
    ¬ NoTrace ⟨false, id⟩ () working noNames "a" 0
      ∧ (create ⟨false, id⟩ () working noNames.names "a" 0).1
        = .error (.mmap "size must be non-zero")
      ∧ ((create ⟨false, id⟩ () working noNames.names "a" 0).2 "/a").isSome
      ∧ ∀ calls, ¬ Creatable ⟨false, id⟩ ()
          (run ⟨false, id⟩ () (Call.run ⟨false, id⟩ () noNames (.create working "a" 0)) calls)
          "a" := by
  have hopen : ¬ OpenFails ⟨false, id⟩ working noNames.names "a" := by
    simp [OpenFails, noNames, working]
  have hsize : ¬ Completes working 0 := fun h => h.2.1 rfl
  have herr : (create ⟨false, id⟩ () working noNames.names "a" 0).1
      = .error (.mmap "size must be non-zero") := rfl
  have hname : ((create ⟨false, id⟩ () working noNames.names "a" 0).2 "/a").isSome := by decide
  refine ⟨fun htrace => ?_, herr, hname, fun calls => ?_⟩
  · have hsame := (htrace _ (create ⟨false, id⟩ () working noNames.names "a" 0).2
      (Prod.ext herr rfl)).1 "/a"
    rw [hname] at hsame
    exact absurd hsame (by simp [noNames])
  · exact create_blocks_name ⟨false, id⟩ () hopen hsize (fun shm hshm => absurd hshm (by
      simp [noNames])) calls

end Entangle.Platform.SharedMemory
