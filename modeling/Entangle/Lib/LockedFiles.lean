/-
  Entangle.Lib.LockedFiles — the files of one directory and their `flock` locks.

  A name stands for an inode as long as it is not unlinked; the inode stays
  what it is for those who have it open.  A lock is held by an open file
  description on an inode, not on a name, and ends when it is released or when
  the process that opened the description exits.

  Main definitions:
    * `Directory` — names, locks, and how many inodes and descriptions there were;
    * `openCreate`, `openExisting`, `tryLock`, `unlock`, `unlink`, `exit` — the calls.

  Every call has one lemma for each of `names.lookup` and `lock` after it.
-/
import Mathlib.Data.List.AList

namespace Entangle.Lib

/-- An open file description, by the process that opened it. -/
structure Descriptor (Pid : Type) where
  process : Pid
  number : Nat
  deriving Repr, DecidableEq

/-- A directory of files that are locked by `flock`.  A lock is on the inode and belongs
to an open description; the name of an inode may go, or stand for a new one, while the
old one is still locked.  Inodes and descriptions are numbered as they are made, and no
number is used twice. -/
structure Directory (Name Pid : Type) [DecidableEq Name] where
  -- the inode under each name
  names : AList (fun _ : Name => Nat)
  -- who holds the lock of each inode
  lock : Nat → Option (Descriptor Pid)
  nextInode : Nat
  nextNumber : Nat

namespace Directory

variable {Name Pid : Type} [DecidableEq Name] [DecidableEq Pid]

/-! ## §1. The calls. -/

/-- An empty directory. -/
def empty : Directory Name Pid :=
  { names := ∅, lock := fun _ => none, nextInode := 0, nextNumber := 0 }

/-- `open` with `O_CREAT`: the description, its inode, and the directory. -/
def openCreate (d : Directory Name Pid) (p : Pid) (name : Name) :
    Descriptor Pid × Nat × Directory Name Pid :=
  match d.names.lookup name with
  | some inode => (⟨p, d.nextNumber⟩, inode, { d with nextNumber := d.nextNumber + 1 })
  | none =>
      (⟨p, d.nextNumber⟩, d.nextInode,
        { d with
          names := d.names.insert name d.nextInode
          nextInode := d.nextInode + 1
          nextNumber := d.nextNumber + 1 })

/-- `open` of an existing file. -/
def openExisting (d : Directory Name Pid) (p : Pid) (name : Name) :
    Option (Descriptor Pid × Nat × Directory Name Pid) :=
  (d.names.lookup name).map (fun inode =>
    (⟨p, d.nextNumber⟩, inode, { d with nextNumber := d.nextNumber + 1 }))

/-- `flock(LOCK_EX | LOCK_NB)`. -/
def tryLock (d : Directory Name Pid) (fd : Descriptor Pid) (inode : Nat) :
    Option (Directory Name Pid) :=
  if d.lock inode = none ∨ d.lock inode = some fd then
    some { d with lock := Function.update d.lock inode (some fd) }
  else none

/-- `flock(LOCK_UN)`. -/
def unlock (d : Directory Name Pid) (fd : Descriptor Pid) (inode : Nat) : Directory Name Pid :=
  if d.lock inode = some fd then { d with lock := Function.update d.lock inode none } else d

/-- `unlink`: the name goes, the inode and its lock stay. -/
def unlink (d : Directory Name Pid) (name : Name) : Option (Directory Name Pid) :=
  if name ∈ d.names then some { d with names := d.names.erase name } else none

/-- A process exits: its descriptions are closed. -/
def exit (d : Directory Name Pid) (p : Pid) : Directory Name Pid :=
  { d with lock := fun inode => (d.lock inode).filter (fun fd => fd.process ≠ p) }

/-! ## §2. What they do to names and locks. -/

variable {d d' : Directory Name Pid} {p : Pid} {name name' : Name} {fd fd' : Descriptor Pid}
  {inode inode' : Nat}

omit [DecidableEq Pid] in
/-- The description is new, the file is there, other files are as before. -/
theorem openCreate_spec (h : d.openCreate p name = (fd, inode, d')) :
    fd = ⟨p, d.nextNumber⟩ ∧ d'.names.lookup name = some inode
      ∧ (∀ n i, d.names.lookup n = some i → d'.names.lookup n = some i)
      ∧ d'.lock = d.lock ∧ d'.nextNumber = d.nextNumber + 1 := by
  unfold openCreate at h
  split at h
  next i hi =>
    simp only [Prod.mk.injEq] at h
    obtain ⟨rfl, rfl, rfl⟩ := h
    exact ⟨rfl, hi, fun _ _ hn => hn, rfl, rfl⟩
  next hnone =>
    simp only [Prod.mk.injEq] at h
    obtain ⟨rfl, rfl, rfl⟩ := h
    refine ⟨rfl, AList.lookup_insert _, fun n i hn => ?_, rfl, rfl⟩
    have hne : n ≠ name := by
      rintro rfl
      rw [hnone] at hn
      exact absurd hn (by simp)
    exact (AList.lookup_insert_ne hne).trans hn

omit [DecidableEq Pid] in
theorem openExisting_spec (h : d.openExisting p name = some (fd, inode, d')) :
    fd = ⟨p, d.nextNumber⟩ ∧ d.names.lookup name = some inode ∧ d'.names = d.names
      ∧ d'.lock = d.lock ∧ d'.nextNumber = d.nextNumber + 1 := by
  obtain ⟨i, hi, he⟩ := Option.map_eq_some_iff.mp h
  simp only [Prod.mk.injEq] at he
  obtain ⟨rfl, rfl, rfl⟩ := he
  exact ⟨rfl, hi, rfl, rfl, rfl⟩

omit [DecidableEq Pid] in
theorem openExisting_none (h : d.openExisting p name = none) : d.names.lookup name = none :=
  Option.map_eq_none_iff.mp h

/-- The lock was free, or the caller's already. -/
theorem tryLock_spec (h : d.tryLock fd inode = some d') :
    (d.lock inode = none ∨ d.lock inode = some fd) ∧ d'.lock inode = some fd
      ∧ (∀ i, i ≠ inode → d'.lock i = d.lock i)
      ∧ d'.names = d.names ∧ d'.nextNumber = d.nextNumber := by
  unfold tryLock at h
  split at h
  next hfree =>
    injection h with h
    subst h
    exact ⟨hfree, Function.update_self _ _ _, fun i hi => Function.update_of_ne hi _ _, rfl, rfl⟩
  next => exact absurd h (by simp)

/-- A lock that another holds cannot be taken. -/
theorem tryLock_held (h : d.lock inode = some fd') (hne : fd' ≠ fd) :
    d.tryLock fd inode = none := by
  unfold tryLock
  rw [h, if_neg]
  simpa using hne

/-- Nothing but the caller's own lock is released. -/
theorem unlock_lock (hheld : d.lock inode' = some fd') (hne : fd' ≠ fd) :
    (d.unlock fd inode).lock inode' = some fd' := by
  unfold unlock
  split
  next hown =>
    have hi : inode' ≠ inode := by
      rintro rfl
      rw [hheld] at hown
      exact hne (Option.some.inj hown)
    exact (Function.update_of_ne hi _ _).trans hheld
  next => exact hheld

@[simp] theorem unlock_names : (d.unlock fd inode).names = d.names := by
  unfold unlock
  split <;> rfl

@[simp] theorem unlock_nextNumber : (d.unlock fd inode).nextNumber = d.nextNumber := by
  unfold unlock
  split <;> rfl

omit [DecidableEq Pid] in
theorem unlink_spec (h : d.unlink name = some d') :
    (∀ n, n ≠ name → d'.names.lookup n = d.names.lookup n) ∧ d'.lock = d.lock
      ∧ d'.nextNumber = d.nextNumber := by
  unfold unlink at h
  split at h
  next =>
    injection h with h
    subst h
    exact ⟨fun n hn => AList.lookup_erase_ne hn, rfl, rfl⟩
  next => exact absurd h (by simp)

/-- The locks of the other processes stay. -/
theorem exit_lock (hheld : d.lock inode = some fd) (hne : fd.process ≠ p) :
    (d.exit p).lock inode = some fd := by
  show (d.lock inode).filter _ = some fd
  rw [hheld, Option.filter_some]
  simp [hne]

@[simp] theorem exit_names : (d.exit p).names = d.names := rfl

@[simp] theorem exit_nextNumber : (d.exit p).nextNumber = d.nextNumber := rfl

end Directory

end Entangle.Lib
