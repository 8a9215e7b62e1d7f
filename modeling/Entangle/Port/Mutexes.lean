/-
  Entangle.Port.Mutexes — the mutexes of the ports, over all three patterns
  (`inner` of service/pubsub.rs, service/reqres.rs and service/blackboard.rs; `channels`
  of port/publisher.rs; `clients` of port/server.rs).

  Creating a port locks the wiring (`inner`); connecting to the registered ones locks,
  one after the other, the list of each of them inside that.  Sending, reclaiming and
  receiving requests lock one list and go through it.  Locking, unlocking and what is
  done with one entry of a list are one step each; nothing done under a lock panics, so
  no lock is poisoned.  A `reclaim` goes on as long as offsets come back; that it ends is
  said of schedules in which no more of them do.

  Main results:
    * `Inv.ordered` — a list is locked inside the wiring, never the other way round;
    * `access_lt` — every step of a call takes something off the potential;
    * `ports_never_deadlock` — whatever the schedule, the calls under way all end.
-/
import Entangle.Lib.Locks
import Entangle.Lib.Tables
import Mathlib.Algebra.BigOperators.Group.List.Basic
import Mathlib.Algebra.Order.Ring.Nat

namespace Entangle.Port.Mutexes

open Entangle.Lib

/-! ## §1. Calls, and their steps under the locks. -/

/-- `PubSubWiring`, `ReqResWiring` and `BlackboardWiring`. -/
inductive Wiring where
  | pubSub
  | reqRes
  | blackboard
  deriving Repr, DecidableEq

/-- `create` of a publisher, server or writer; of a subscriber, client or reader. -/
inductive Creation where
  | register
  | connect
  deriving Repr, DecidableEq

/-- `SampleMut::send`, `Publisher::reclaim`, `Server::receive`. -/
inductive Visit where
  | send
  | reclaim
  | receive
  deriving Repr, DecidableEq

/-- Where a thread stands. -/
inductive Pc where
  | idle
  -- create: `inner` to be locked
  | wantInner (c : Creation)
  -- create: `inner` locked; `next`: the registration whose turn it is
  | inside (c : Creation) (next : Nat)
  -- create: the list of `next` locked too, and then the new channel pushed
  | listed (next : Nat)
  | pushed (next : Nat)
  -- create: `inner` to be unlocked
  | leaving
  -- a list to be locked; locked, and entry `j` is next; to be unlocked
  | wantList (v : Visit) (p : Nat)
  | visiting (v : Visit) (p j : Nat)
  | visited (p : Nat)
  deriving Repr, DecidableEq

/-- The mutexes with their owners, the lists they guard, and where each thread stands.  Of
a list only the length matters, and how many offsets wait at each of its channels. -/
structure State (Tid : Type) where
  -- for each registration its list: of every channel, the offsets that have come back
  regs : List (List Nat)
  inner : Option Tid
  lists : Nat → Option Tid
  pc : Tid → Pc

inductive Act (Tid : Type) where
  -- a call starts
  | create (t : Tid) (c : Creation)
  | visit (t : Tid) (v : Visit) (p : Nat)
  -- an offset comes back on channel `j` of registration `p`
  | comeBack (p j : Nat)
  -- the next step of a call; `stop`: an error, or a request that was found, ends its loop
  | access (t : Tid) (stop : Bool)
  deriving Repr, DecidableEq

def Act.isAccess {Tid : Type} : Act Tid → Bool
  | .access _ _ => true
  | _ => false

/-- There is room for one more registration. -/
def Wiring.registers (w : Wiring) (regs : List (List Nat)) : Bool :=
  match w with
  | .pubSub => true
  | .reqRes | .blackboard => regs.isEmpty

/-- The calls that go through a list, where there are lists. -/
def Wiring.visits : Wiring → Visit → Bool
  | .pubSub, .send | .pubSub, .reclaim | .reqRes, .receive => true
  | _, _ => false

/-- A new port gets a channel on the list of a registration. -/
def Wiring.hasLists : Wiring → Bool
  | .pubSub | .reqRes => true
  | .blackboard => false

variable {Tid : Type} [DecidableEq Tid]

/-- Thread `t` gets to `pc`. -/
def State.goto (s : State Tid) (t : Tid) (pc : Pc) : State Tid :=
  { s with pc := Function.update s.pc t pc }

/-- The list of registration `p` is locked by `o`, or unlocked. -/
def State.setList (s : State Tid) (p : Nat) (o : Option Tid) : State Tid :=
  { s with lists := Function.update s.lists p o }

/-- Entry `j` of list `p`. -/
def entry (regs : List (List Nat)) (p j : Nat) : Option Nat := regs[p]?.bind (fun l => l[j]?)

/-- What `reclaim` does with a channel, and the others with theirs. -/
def State.visitEntry (s : State Tid) (t : Tid) (v : Visit) (p j n : Nat) (stop : Bool) :
    State Tid :=
  match v with
  | .reclaim =>
      if n = 0 then s.goto t (.visiting v p (j + 1))
      else { s with regs := s.regs.modify p (fun l => l.set j (n - 1)) }
  | .send | .receive => if stop then s.goto t (.visited p) else s.goto t (.visiting v p (j + 1))

/-- The next step of thread `t`. -/
def access (w : Wiring) (s : State Tid) (t : Tid) (stop : Bool) : Option (State Tid) :=
  match s.pc t with
  | .wantInner c =>
      if s.inner = none then some { s.goto t (.inside c 0) with inner := some t } else none
  | .inside .register _ =>
      if w.registers s.regs then some { s.goto t .leaving with regs := s.regs ++ [[]] }
      else some (s.goto t .leaving)
  | .inside .connect next =>
      if next < s.regs.length ∧ w.hasLists then
        if s.lists next = none then some ((s.goto t (.listed next)).setList next (some t))
        else none
      else some (s.goto t .leaving)
  | .listed next =>
      some { s.goto t (.pushed next) with regs := s.regs.modify next (fun l => l ++ [0]) }
  | .pushed next => some ((s.goto t (.inside .connect (next + 1))).setList next none)
  | .leaving => some { s.goto t .idle with inner := none }
  | .wantList v p =>
      if s.lists p = none then some ((s.goto t (.visiting v p 0)).setList p (some t)) else none
  | .visiting v p j =>
      match entry s.regs p j with
      | some n => some (s.visitEntry t v p j n stop)
      | none => some (s.goto t (.visited p))
  | .visited p => some ((s.goto t .idle).setList p none)
  | .idle => none

def step (w : Wiring) (s : State Tid) : Act Tid → Option (State Tid)
  | .create t c => if s.pc t = .idle then some (s.goto t (.wantInner c)) else none
  | .visit t v p =>
      if s.pc t = .idle ∧ p < s.regs.length ∧ w.visits v then some (s.goto t (.wantList v p))
      else none
  | .comeBack p j =>
      (entry s.regs p j).map (fun n =>
        { s with regs := s.regs.modify p (fun l => l.set j (n + 1)) })
  | .access t stop => access w s t stop

/-- A new service, nobody in a call. -/
def init : State Tid := { regs := [], inner := none, lists := fun _ => none, pc := fun _ => .idle }

/-! ## §2. Who holds what. -/

def Pc.holdsInner : Pc → Bool
  | .inside _ _ | .listed _ | .pushed _ | .leaving => true
  | _ => false

/-- The list that a thread has locked. -/
def Pc.list : Pc → Option Nat
  | .listed p | .pushed p | .visiting _ p _ | .visited p => some p
  | _ => none

/-- The registration whose list a thread has locked, or will lock. -/
def Pc.target : Pc → Option Nat
  | .wantList _ p => some p
  | pc => pc.list

inductive Lock where
  | inner
  | list (p : Nat)
  deriving Repr, DecidableEq

/-- `inner` first. -/
def Lock.rank : Lock → Nat
  | .inner => 0
  | .list _ => 1

/-- The lock that the next step of a thread takes. -/
def wants (w : Wiring) (s : State Tid) (t : Tid) : Option Lock :=
  match s.pc t with
  | .wantInner _ => some .inner
  | .inside .connect next => if next < s.regs.length ∧ w.hasLists then some (.list next) else none
  | .wantList _ p => some (.list p)
  | _ => none

def State.waiting (s : State Tid) (w : Wiring) : Waiting Tid Lock where
  owner
    | .inner => s.inner
    | .list p => s.lists p
  wants := wants w s

/-- The locks are held by the threads that have locked them. -/
structure Inv (s : State Tid) : Prop where
  inner : ∀ t, s.inner = some t ↔ (s.pc t).holdsInner = true
  lists : ∀ p t, s.lists p = some t ↔ (s.pc t).list = some p
  target : ∀ t p, (s.pc t).target = some p → p < s.regs.length

/-! ## §3. Every step keeps the locks in order. -/

section Steps

variable {w : Wiring} {s s' : State Tid} {t : Tid}

/-- Thread `t` gets to `pc'`, and no lock of another thread changes hands. -/
theorem Inv.update (h : Inv s) {pc' : Pc} (hpc : s'.pc = Function.update s.pc t pc')
    (hinner : s'.inner = some t ↔ pc'.holdsInner = true)
    (hinners : ∀ u, u ≠ t → (s'.inner = some u ↔ s.inner = some u))
    (hlist : ∀ p, s'.lists p = some t ↔ pc'.list = some p)
    (hlists : ∀ p u, u ≠ t → (s'.lists p = some u ↔ s.lists p = some u))
    (hlen : s.regs.length ≤ s'.regs.length)
    (htarget : ∀ p, pc'.target = some p → p < s'.regs.length) : Inv s' := by
  have hother : ∀ u, u ≠ t → s'.pc u = s.pc u := by
    intro u hu
    rw [hpc, Function.update_of_ne hu]
  have hself : s'.pc t = pc' := by rw [hpc, Function.update_self]
  constructor
  · intro u
    by_cases hu : u = t
    · subst hu
      rw [hself]
      exact hinner
    · rw [hother u hu, hinners u hu]
      exact h.inner u
  · intro p u
    by_cases hu : u = t
    · subst hu
      rw [hself]
      exact hlist p
    · rw [hother u hu, hlists p u hu]
      exact h.lists p u
  · intro u p hp
    by_cases hu : u = t
    · subst hu
      rw [hself] at hp
      exact htarget p hp
    · rw [hother u hu] at hp
      exact Nat.lt_of_lt_of_le (h.target u p hp) hlen

/-- Thread `t` moves on with the locks that it has. -/
theorem Inv.goto (h : Inv s) {pc' : Pc} (hpc : s'.pc = Function.update s.pc t pc')
    (hinner : s'.inner = s.inner) (hlists : s'.lists = s.lists)
    (hlen : s.regs.length ≤ s'.regs.length)
    (hholds : pc'.holdsInner = (s.pc t).holdsInner) (hlist : pc'.list = (s.pc t).list)
    (htarget : ∀ p, pc'.target = some p → p < s'.regs.length) : Inv s' := by
  refine h.update hpc ?_ (fun u _ => by rw [hinner]) (fun p => ?_) (fun p u _ => by rw [hlists])
    hlen htarget
  · rw [hinner, hholds]
    exact h.inner t
  · rw [hlists, hlist]
    exact h.lists p t

/-- Thread `t` locks the list of `p`, which nobody has locked. -/
theorem Inv.lockList (h : Inv s) {p : Nat} {pc' : Pc} (hfree : s.lists p = none)
    (hnone : (s.pc t).list = none) (hholds : pc'.holdsInner = (s.pc t).holdsInner)
    (hlist : pc'.list = some p) (htarget : pc'.target = some p) (hlt : p < s.regs.length) :
    Inv ((s.goto t pc').setList p (some t)) := by
  refine h.update rfl ?_ (fun _ _ => Iff.rfl) (fun q => ?_) (fun q u hu => ?_) (Nat.le_refl _)
    (fun q hq => ?_)
  · rw [hholds]
    exact h.inner t
  · show Function.update s.lists p (some t) q = some t ↔ pc'.list = some q
    rw [hlist]
    by_cases hq : q = p
    · subst hq
      rw [Function.update_self]
      simp
    · rw [Function.update_of_ne hq, h.lists q t, hnone]
      simp [Ne.symm hq]
  · show Function.update s.lists p (some t) q = some u ↔ s.lists q = some u
    by_cases hq : q = p
    · subst hq
      rw [Function.update_self, hfree]
      simp [Ne.symm hu]
    · rw [Function.update_of_ne hq]
  · rw [htarget] at hq
    obtain rfl := Option.some.inj hq
    exact hlt

/-- Thread `t` unlocks the list that it has locked. -/
theorem Inv.unlockList (h : Inv s) {p : Nat} {pc' : Pc} (hheld : (s.pc t).list = some p)
    (hholds : pc'.holdsInner = (s.pc t).holdsInner) (htarget : pc'.target = none) :
    Inv ((s.goto t pc').setList p none) := by
  have howner : s.lists p = some t := (h.lists p t).mpr hheld
  have hlist : pc'.list = none := by
    cases pc' with
    | wantList v q => exact absurd htarget (by simp [Pc.target])
    | _ => exact htarget
  refine h.update rfl ?_ (fun _ _ => Iff.rfl) (fun q => ?_) (fun q u hu => ?_) (Nat.le_refl _)
    (fun q hq => ?_)
  · rw [hholds]
    exact h.inner t
  · show Function.update s.lists p none q = some t ↔ pc'.list = some q
    rw [hlist]
    by_cases hq : q = p
    · subst hq
      rw [Function.update_self]
      simp
    · rw [Function.update_of_ne hq, h.lists q t, hheld]
      simp [Ne.symm hq]
  · show Function.update s.lists p none q = some u ↔ s.lists q = some u
    by_cases hq : q = p
    · subst hq
      rw [Function.update_self, howner]
      simp [Ne.symm hu]
    · rw [Function.update_of_ne hq]
  · rw [htarget] at hq
    exact absurd hq (by simp)

theorem length_modify (l : List (List Nat)) (p : Nat) (f : List Nat → List Nat) :
    l.length ≤ (l.modify p f).length := by
  rw [List.length_modify]

/-- The next step of a call. -/
theorem Inv.access (h : Inv s) {stop : Bool} (hs : access w s t stop = some s') : Inv s' := by
  unfold Mutexes.access at hs
  cases hpc : s.pc t with
  | idle => simp [hpc] at hs
  | wantInner c =>
      simp only [hpc, Option.ite_none_right_eq_some, Option.some.injEq] at hs
      obtain ⟨hfree, rfl⟩ := hs
      refine h.update rfl ⟨fun _ => rfl, fun _ => rfl⟩ (fun u hu => ?_) (fun p => ?_)
        (fun _ _ _ => Iff.rfl) (Nat.le_refl _) (fun p hp => by simp [Pc.target, Pc.list] at hp)
      · rw [hfree]
        simp [Ne.symm hu]
      · show s.lists p = some t ↔ _
        rw [h.lists p t, hpc]
        rfl
  | inside c next =>
      cases c with
      | register =>
          simp only [hpc] at hs
          split at hs
          all_goals
            obtain rfl := Option.some.inj hs
            refine h.goto rfl rfl rfl (by simp [State.goto]) (by rw [hpc]; rfl) (by rw [hpc]; rfl)
              (fun p hp => by simp [Pc.target, Pc.list] at hp)
      | connect =>
          simp only [hpc] at hs
          split at hs
          next hnext =>
            split at hs
            next hfree =>
              obtain rfl := Option.some.inj hs
              exact h.lockList hfree (by rw [hpc]; rfl) (by rw [hpc]; rfl) rfl rfl hnext.1
            next => exact absurd hs (by simp)
          next =>
            obtain rfl := Option.some.inj hs
            exact h.goto rfl rfl rfl (Nat.le_refl _) (by rw [hpc]; rfl) (by rw [hpc]; rfl)
              (fun p hp => by simp [Pc.target, Pc.list] at hp)
  | listed next =>
      simp only [hpc, Option.some.injEq] at hs
      subst hs
      refine h.goto rfl rfl rfl (length_modify _ _ _) (by rw [hpc]; rfl) (by rw [hpc]; rfl)
        (fun p hp => ?_)
      exact Nat.lt_of_lt_of_le (h.target t p (by rw [hpc]; exact hp)) (length_modify _ _ _)
  | pushed next =>
      simp only [hpc, Option.some.injEq] at hs
      subst hs
      exact h.unlockList (by rw [hpc]; rfl) (by rw [hpc]; rfl) rfl
  | leaving =>
      simp only [hpc, Option.some.injEq] at hs
      subst hs
      have howner : s.inner = some t := (h.inner t).mpr (by rw [hpc]; rfl)
      refine h.update rfl ?_ (fun u hu => ?_) (fun p => ?_) (fun _ _ _ => Iff.rfl)
        (Nat.le_refl _) (fun p hp => by simp [Pc.target, Pc.list] at hp)
      · simp [Pc.holdsInner]
      · rw [howner]
        simp [Ne.symm hu]
      · show s.lists p = some t ↔ _
        rw [h.lists p t, hpc]
        rfl
  | wantList v p =>
      simp only [hpc, Option.ite_none_right_eq_some, Option.some.injEq] at hs
      obtain ⟨hfree, rfl⟩ := hs
      exact h.lockList hfree (by rw [hpc]; rfl) (by rw [hpc]; rfl) rfl rfl
        (h.target t p (by rw [hpc]; rfl))
  | visiting v p j =>
      have htarget : p < s.regs.length := h.target t p (by rw [hpc]; rfl)
      have hstay : ∀ {pc' : Pc}, pc'.holdsInner = false → pc'.list = some p →
          pc'.target = some p → Inv (s.goto t pc') := by
        intro pc' hholds hlist hpc'
        refine h.goto rfl rfl rfl (Nat.le_refl _) (by rw [hpc]; exact hholds)
          (by rw [hpc]; exact hlist) (fun q hq => ?_)
        rw [hpc'] at hq
        obtain rfl := Option.some.inj hq
        exact htarget
      simp only [hpc] at hs
      split at hs
      next n _ =>
        obtain rfl := Option.some.inj hs
        cases v with
        | reclaim =>
            simp only [State.visitEntry]
            split
            next => exact hstay rfl rfl rfl
            next =>
              refine h.goto (t := t) (Function.update_eq_self t s.pc).symm rfl rfl
                (length_modify _ _ _) rfl rfl (fun q hq => ?_)
              exact Nat.lt_of_lt_of_le (h.target t q hq) (length_modify _ _ _)
        | send | receive =>
            simp only [State.visitEntry]
            split
            next => exact hstay rfl rfl rfl
            next => exact hstay rfl rfl rfl
      next =>
        obtain rfl := Option.some.inj hs
        exact hstay rfl rfl rfl
  | visited p =>
      simp only [hpc, Option.some.injEq] at hs
      subst hs
      exact h.unlockList (by rw [hpc]; rfl) (by rw [hpc]; rfl) rfl

/-- **The step lemma.** -/
theorem Inv.step {a : Act Tid} (h : Inv s) (hs : Mutexes.step w s a = some s') : Inv s' := by
  cases a with
  | create t c =>
      simp only [Mutexes.step, Option.ite_none_right_eq_some, Option.some.injEq] at hs
      obtain ⟨hidle, rfl⟩ := hs
      exact h.goto rfl rfl rfl (Nat.le_refl _) (by rw [hidle]; rfl) (by rw [hidle]; rfl)
        (fun p hp => by simp [Pc.target, Pc.list] at hp)
  | visit t v p =>
      simp only [Mutexes.step, Option.ite_none_right_eq_some, Option.some.injEq] at hs
      obtain ⟨⟨hidle, hlt, _⟩, rfl⟩ := hs
      refine h.goto rfl rfl rfl (Nat.le_refl _) (by rw [hidle]; rfl) (by rw [hidle]; rfl)
        (fun q hq => ?_)
      obtain rfl := Option.some.inj hq
      exact hlt
  | comeBack p j =>
      simp only [Mutexes.step] at hs
      obtain ⟨n, _, rfl⟩ := Option.map_eq_some_iff.mp hs
      refine ⟨h.inner, h.lists, fun t q hq => ?_⟩
      exact Nat.lt_of_lt_of_le (h.target t q hq) (length_modify _ _ _)
  | access t stop => exact h.access hs

omit [DecidableEq Tid] in
theorem inv_init : Inv (init : State Tid) where
  inner t := by simp [init, Pc.holdsInner]
  lists p t := by simp [init, Pc.list]
  target t p hp := by simp [init, Pc.target, Pc.list] at hp

omit [DecidableEq Tid] in
/-- **A list is locked inside the wiring**, and nothing inside a list. -/
theorem Inv.ordered (h : Inv s) (w : Wiring) : (s.waiting w).Ordered Lock.rank := by
  intro t k k' howner hwants
  have hlist : ∀ p, k = .list p → (s.pc t).list = some p := by
    rintro p rfl
    exact (h.lists p t).mp howner
  have hinner : k = .inner → (s.pc t).holdsInner = true := by
    rintro rfl
    exact (h.inner t).mp howner
  replace hwants : wants w s t = some k' := hwants
  unfold wants at hwants
  split at hwants
  next c hpc =>
    cases k with
    | inner => exact absurd (hinner rfl) (by simp [hpc, Pc.holdsInner])
    | list p => exact absurd (hlist p rfl) (by simp [hpc, Pc.list])
  next next hpc =>
    simp only [Option.ite_none_right_eq_some, Option.some.injEq] at hwants
    obtain ⟨_, rfl⟩ := hwants
    cases k with
    | inner => exact Nat.zero_lt_one
    | list p => exact absurd (hlist p rfl) (by simp [hpc, Pc.list])
  next v p hpc =>
    cases k with
    | inner => exact absurd (hinner rfl) (by simp [hpc, Pc.holdsInner])
    | list q => exact absurd (hlist q rfl) (by simp [hpc, Pc.list])
  next => exact absurd hwants (by simp)

/-- A thread in a call, whose lock is not held by anybody, can take its next step. -/
theorem access_isSome (hcall : s.pc t ≠ .idle) (hfree : ¬ (s.waiting w).Blocked t) (stop : Bool) :
    (Mutexes.access w s t stop).isSome := by
  have hnone : ∀ k, wants w s t = some k → (s.waiting w).owner k = none := by
    intro k hk
    by_contra hne
    obtain ⟨u, hu⟩ := Option.ne_none_iff_exists'.mp hne
    exact hfree ⟨k, u, hk, hu⟩
  unfold Mutexes.access
  unfold wants at hnone
  cases hpc : s.pc t with
  | idle => exact absurd hpc hcall
  | wantInner c =>
      simp only [hpc] at hnone
      have hinner : s.inner = none := hnone .inner rfl
      simp [hinner]
  | inside c next =>
      cases c with
      | register =>
          simp only
          split <;> rfl
      | connect =>
          simp only [hpc] at hnone
          simp only
          split
          next hnext =>
            have hlist : s.lists next = none := hnone (.list next) (if_pos hnext)
            simp [hlist]
          next => rfl
  | wantList v p =>
      simp only [hpc] at hnone
      have hlist : s.lists p = none := hnone (.list p) rfl
      simp [hlist]
  | visiting v p j =>
      simp only
      split <;> rfl
  | listed next | pushed next | leaving | visited p => rfl

end Steps

/-! ## §4. What a call has ahead of it. -/

/-- The channels on the list of `p`. -/
def entries (regs : List (List Nat)) (p : Nat) : Nat := (regs[p]?.getD []).length

/-- The steps that a thread still makes, the list it goes through growing by no more than
one channel for each of `n` threads. -/
def cost (n : Nat) (regs : List (List Nat)) : Pc → Nat
  | .idle => 0
  | .wantInner .register => 3 + n * (n + 3)
  | .inside .register _ => 2 + n * (n + 3)
  | .wantInner .connect => 3 + regs.length * (n + 3)
  | .inside .connect next => 2 + (regs.length - next) * (n + 3)
  | .listed next => 2 + (regs.length - (next + 1)) * (n + 3) + (n + 2)
  | .pushed next => 2 + (regs.length - (next + 1)) * (n + 3) + 1
  | .leaving => 1
  | .wantList _ p => 3 + entries regs p
  | .visiting _ p j => 2 + (entries regs p - j)
  | .visited _ => 1

/-- The offsets that have come back. -/
def cameBack (regs : List (List Nat)) : Nat := (regs.map List.sum).sum

def potential [Fintype Tid] (s : State Tid) : Nat :=
  ∑ t, cost (Fintype.card Tid) s.regs (s.pc t) + cameBack s.regs

theorem entries_concat (regs : List (List Nat)) (p : Nat) :
    entries (regs ++ [[]]) p = entries regs p := by
  unfold entries
  rcases Nat.lt_trichotomy p regs.length with hlt | rfl | hgt
  · rw [List.getElem?_append_left hlt]
  · rw [List.getElem?_concat_length, List.getElem?_eq_none (Nat.le_refl _)]
    rfl
  · rw [List.getElem?_eq_none (by simp; omega), List.getElem?_eq_none (by omega)]

theorem entries_modify_le (regs : List (List Nat)) (q p : Nat) :
    entries (regs.modify q (fun l => l ++ [0])) p ≤ entries regs p + 1 := by
  unfold entries
  rw [List.getElem?_modify]
  split
  next =>
    cases regs[p]? with
    | none => simp
    | some l => simp
  next =>
    cases regs[p]? with
    | none => simp
    | some l => simp

theorem entries_modify_set (regs : List (List Nat)) (q j n p : Nat) :
    entries (regs.modify q (fun l => l.set j n)) p = entries regs p := by
  unfold entries
  rw [List.getElem?_modify]
  split
  next =>
    cases regs[p]? with
    | none => rfl
    | some l => simp
  next =>
    cases regs[p]? with
    | none => rfl
    | some l => rfl

/-- One registration more makes no call longer by more than its round. -/
theorem cost_concat_le (n : Nat) (regs : List (List Nat)) (pc : Pc) :
    cost n (regs ++ [[]]) pc ≤ cost n regs pc + (n + 3) := by
  have hround : ∀ k, (regs.length + 1 - k) * (n + 3) ≤ (regs.length - k) * (n + 3) + (n + 3) := by
    intro k
    rw [← Nat.succ_mul]
    exact Nat.mul_le_mul_right _ (by omega)
  cases pc with
  | wantInner c =>
      cases c with
      | register => exact Nat.le_add_right _ _
      | connect =>
          simp only [cost, List.length_append, List.length_singleton]
          have hzero := hround 0
          simp only [Nat.sub_zero] at hzero
          omega
  | inside c next =>
      cases c with
      | register => exact Nat.le_add_right _ _
      | connect =>
          simp only [cost, List.length_append, List.length_singleton]
          have hk := hround next
          omega
  | listed next | pushed next =>
      simp only [cost, List.length_append, List.length_singleton]
      have hk := hround (next + 1)
      omega
  | wantList v p | visiting v p j =>
      simp only [cost, entries_concat]
      omega
  | idle | leaving | visited p => exact Nat.le_add_right _ _

/-- One channel more makes no call longer by more than one step. -/
theorem cost_modify_le (n : Nat) (regs : List (List Nat)) (q : Nat) (pc : Pc) :
    cost n (regs.modify q (fun l => l ++ [0])) pc ≤ cost n regs pc + 1 := by
  cases pc with
  | wantInner c | inside c next => cases c <;> simp [cost]
  | wantList v p | visiting v p j =>
      have hle := entries_modify_le regs q p
      simp only [cost]
      omega
  | _ => simp [cost]

/-- A channel that is popped makes no call longer. -/
theorem cost_modify_set (n : Nat) (regs : List (List Nat)) (q j k : Nat) (pc : Pc) :
    cost n (regs.modify q (fun l => l.set j k)) pc = cost n regs pc := by
  cases pc with
  | wantInner c | inside c next => cases c <;> simp [cost]
  | wantList v p | visiting v p j => simp only [cost, entries_modify_set]
  | _ => simp [cost]

theorem cameBack_concat (regs : List (List Nat)) : cameBack (regs ++ [[]]) = cameBack regs := by
  simp [cameBack]

theorem cameBack_push (regs : List (List Nat)) :
    ∀ p, cameBack (regs.modify p (fun l => l ++ [0])) = cameBack regs := by
  induction regs with
  | nil =>
      intro p
      simp
  | cons l regs ih =>
      intro p
      cases p with
      | zero => simp [cameBack]
      | succ p =>
          have hrest := ih p
          simp only [cameBack] at hrest
          simp [cameBack, hrest]

theorem sum_set_pred (l : List Nat) : ∀ {j n : Nat}, l[j]? = some (n + 1) →
    (l.set j n).sum + 1 = l.sum := by
  induction l with
  | nil =>
      intro j n h
      simp at h
  | cons x l ih =>
      intro j n h
      cases j with
      | zero =>
          obtain rfl : x = n + 1 := by simpa using h
          simp only [List.set_cons_zero, List.sum_cons]
          omega
      | succ j =>
          have hrest := ih (by simpa using h)
          simp only [List.set_cons_succ, List.sum_cons]
          omega

/-- An offset is reclaimed. -/
theorem cameBack_pop (regs : List (List Nat)) : ∀ {p j n : Nat},
    entry regs p j = some (n + 1) →
    cameBack (regs.modify p (fun l => l.set j n)) + 1 = cameBack regs := by
  induction regs with
  | nil =>
      intro p j n h
      simp [entry] at h
  | cons l regs ih =>
      intro p j n h
      cases p with
      | zero =>
          have hpop := sum_set_pred l (j := j) (by simpa [entry] using h)
          simp only [cameBack, List.modify_zero_cons, List.map_cons, List.sum_cons]
          omega
      | succ p =>
          have hrest := ih (p := p) (j := j) (n := n) (by simpa [entry] using h)
          simp only [cameBack] at hrest
          simp only [cameBack, List.modify_succ_cons, List.map_cons, List.sum_cons]
          omega

section Ends

variable [Fintype Tid] {w : Wiring} {s s' : State Tid} {t : Tid}

/-- Thread `t` goes on, the registrations staying what they are. -/
theorem potential_move (hregs : s'.regs = s.regs) {pc' : Pc}
    (hpc : s'.pc = Function.update s.pc t pc')
    (hlt : cost (Fintype.card Tid) s.regs pc' < cost (Fintype.card Tid) s.regs (s.pc t)) :
    potential s' < potential s := by
  have hsum : ∑ u, cost (Fintype.card Tid) s.regs (Function.update s.pc t pc' u)
      < ∑ u, cost (Fintype.card Tid) s.regs (s.pc u) :=
    sum_update_lt 0 (fun u _ => Nat.le_refl _) (by omega)
  unfold potential
  rw [hregs, hpc]
  omega

/-- Thread `t` goes on, and what it does makes the calls of the others longer by `d`. -/
theorem potential_grow {pc' : Pc} (d : Nat) (hpc : s'.pc = Function.update s.pc t pc')
    (hback : cameBack s'.regs = cameBack s.regs)
    (hother : ∀ pc, cost (Fintype.card Tid) s'.regs pc ≤ cost (Fintype.card Tid) s.regs pc + d)
    (hlt : cost (Fintype.card Tid) s'.regs pc' + Fintype.card Tid * d
      < cost (Fintype.card Tid) s.regs (s.pc t)) : potential s' < potential s := by
  have hsum : ∑ u, cost (Fintype.card Tid) s'.regs (Function.update s.pc t pc' u)
      < ∑ u, cost (Fintype.card Tid) s.regs (s.pc u) :=
    sum_update_lt d (fun u _ => hother (s.pc u)) hlt
  unfold potential
  rw [hpc, hback]
  omega

/-- **Every step of a call takes something off the potential.** -/
theorem access_lt {stop : Bool} (hs : access w s t stop = some s') :
    potential s' < potential s := by
  unfold access at hs
  cases hpc : s.pc t with
  | idle => simp [hpc] at hs
  | wantInner c =>
      simp only [hpc, Option.ite_none_right_eq_some, Option.some.injEq] at hs
      obtain ⟨_, rfl⟩ := hs
      refine potential_move rfl rfl ?_
      rw [hpc]
      cases c with
      | register => simp [cost]
      | connect => simp [cost]
  | inside c next =>
      cases c with
      | register =>
          simp only [hpc] at hs
          split at hs
          next =>
            obtain rfl := Option.some.inj hs
            refine potential_grow (Fintype.card Tid + 3) rfl (cameBack_concat _)
              (cost_concat_le _ _) ?_
            rw [hpc]
            simp only [cost]
            omega
          next =>
            obtain rfl := Option.some.inj hs
            refine potential_move rfl rfl ?_
            rw [hpc]
            simp only [cost]
            omega
      | connect =>
          simp only [hpc] at hs
          split at hs
          next hnext =>
            simp only [Option.ite_none_right_eq_some, Option.some.injEq] at hs
            obtain ⟨_, rfl⟩ := hs
            refine potential_move rfl rfl ?_
            have hround : s.regs.length - next = s.regs.length - (next + 1) + 1 := by omega
            rw [hpc]
            simp only [cost]
            rw [hround, Nat.add_mul]
            omega
          next =>
            obtain rfl := Option.some.inj hs
            refine potential_move rfl rfl ?_
            rw [hpc]
            simp only [cost]
            omega
  | listed next =>
      simp only [hpc, Option.some.injEq] at hs
      subst hs
      refine potential_grow 1 rfl (cameBack_push _ _) (cost_modify_le _ _ _) ?_
      rw [hpc]
      simp only [cost, List.length_modify]
      omega
  | pushed next =>
      simp only [hpc, Option.some.injEq] at hs
      subst hs
      refine potential_move rfl rfl ?_
      rw [hpc]
      simp only [cost]
      omega
  | leaving =>
      simp only [hpc, Option.some.injEq] at hs
      subst hs
      refine potential_move rfl rfl ?_
      rw [hpc]
      exact Nat.zero_lt_one
  | wantList v p =>
      simp only [hpc, Option.ite_none_right_eq_some, Option.some.injEq] at hs
      obtain ⟨_, rfl⟩ := hs
      refine potential_move rfl rfl ?_
      rw [hpc]
      simp only [cost]
      omega
  | visiting v p j =>
      simp only [hpc] at hs
      split at hs
      next n hentry =>
        obtain rfl := Option.some.inj hs
        -- entry `j` is there, so the thread has it ahead of it
        have hj : j < entries s.regs p := by
          unfold entry at hentry
          obtain ⟨l, hl, hn⟩ := Option.bind_eq_some_iff.mp hentry
          unfold entries
          rw [hl]
          exact (List.getElem?_eq_some_iff.mp hn).1
        have hnext : ∀ v, cost (Fintype.card Tid) s.regs (.visiting v p (j + 1))
            < cost (Fintype.card Tid) s.regs (s.pc t) := by
          intro v
          rw [hpc]
          simp only [cost]
          omega
        have hstop : cost (Fintype.card Tid) s.regs (.visited p)
            < cost (Fintype.card Tid) s.regs (s.pc t) := by
          rw [hpc]
          simp only [cost]
          omega
        cases v with
        | reclaim =>
            simp only [State.visitEntry]
            split
            next => exact potential_move rfl rfl (hnext _)
            next hn =>
              obtain ⟨k, rfl⟩ := Nat.exists_eq_succ_of_ne_zero hn
              have hpop := cameBack_pop s.regs hentry
              simp only [potential, cost_modify_set, Nat.succ_eq_add_one, Nat.add_sub_cancel]
              omega
        | send | receive =>
            simp only [State.visitEntry]
            split
            next => exact potential_move rfl rfl hstop
            next => exact potential_move rfl rfl (hnext _)
      next =>
        obtain rfl := Option.some.inj hs
        refine potential_move rfl rfl ?_
        rw [hpc]
        simp only [cost]
        omega
  | visited p =>
      simp only [hpc, Option.some.injEq] at hs
      subst hs
      refine potential_move rfl rfl ?_
      rw [hpc]
      exact Nat.zero_lt_one

omit [DecidableEq Tid] [Fintype Tid] in
/-- Whoever holds a lock is in a call. -/
theorem Inv.holder_calls (h : Inv s) {k : Lock} {u : Tid}
    (howner : (s.waiting w).owner k = some u) : s.pc u ≠ .idle := by
  intro hidle
  cases k with
  | inner =>
      have hholds := (h.inner u).mp howner
      rw [hidle] at hholds
      exact absurd hholds (by simp [Pc.holdsInner])
  | list p =>
      have hlist := (h.lists p u).mp howner
      rw [hidle] at hlist
      exact absurd hlist (by simp [Pc.list])

omit [Fintype Tid] in
/-- While a call is under way, some call can take its next step. -/
theorem Inv.progress (h : Inv s) (w : Wiring) (hcall : s.pc t ≠ .idle) (stop : Bool) :
    ∃ u, (Mutexes.access w s u stop).isSome := by
  have hrank : ∀ k : Lock, k.rank < 2 := by
    intro k
    cases k <;> simp [Lock.rank]
  obtain ⟨u, hu, hfree⟩ := (h.ordered w).exists_unblocked hrank t
  have hbusy : s.pc u ≠ .idle := by
    rcases hu with rfl | ⟨k, howner⟩
    · exact hcall
    · exact h.holder_calls howner
  exact ⟨u, access_isSome hbusy hfree stop⟩

/-- **The ports never deadlock.**  In every reachable state of a service of any of the three
patterns, with any number of threads: no thread waits for a lock that it holds; as long
as a call is under way, some call can take its next step; and once no new calls are
made, and no more offsets come back (`comeBack`, which would keep a `reclaim` going),
every schedule takes a bounded number of steps and ends with all calls done and all
locks free. -/
theorem ports_never_deadlock (w : Wiring) (s : State Tid)
    (hs : Reach (step w) anyStep init s) :
    (∀ t k, (s.waiting w).wants t = some k → (s.waiting w).owner k ≠ some t)
      ∧ (∀ t, s.pc t ≠ .idle → ∃ u stop, (step w s (.access u stop)).isSome)
      ∧ ∃ bound, ∀ as s', (∀ a ∈ as, a.isAccess = true) → exec (step w) s as = some s' →
          as.length ≤ bound
            ∧ ((∀ t stop, step w s' (.access t stop) = none) →
              (∀ t, s'.pc t = .idle) ∧ ∀ k, (s'.waiting w).owner k = none) := by
  have hinv : Inv s := hs.invariant Inv inv_init (fun _ _ _ hi _ hstep => hi.step hstep)
  refine ⟨fun t k hk => (hinv.ordered w).not_self hk, fun t ht => ?_, potential s, ?_⟩
  · obtain ⟨u, hsome⟩ := hinv.progress w ht false
    exact ⟨u, false, hsome⟩
  · intro as s' hown hrun
    have hdown : ∀ r (a : Act Tid) r', Inv r → a.isAccess = true → step w r a = some r' →
        potential r' < potential r := by
      intro r a r' _ ha hr
      cases a with
      | access t stop => exact access_lt hr
      | _ => exact absurd ha (by simp [Act.isAccess])
    have hlen := length_add_le Inv potential (fun a => a.isAccess = true)
      (fun _ _ _ hi hr => hi.step hr) hdown as hinv hown hrun
    refine ⟨by omega, fun hstuck => ?_⟩
    have hinv' : Inv s' := (Reach.of_exec as .refl hrun).invariant Inv hinv
      (fun _ _ _ hi _ hr => hi.step hr)
    have hidle : ∀ t, s'.pc t = .idle := by
      intro t
      by_contra hne
      obtain ⟨u, hsome⟩ := hinv'.progress w hne false
      have hnone : access w s' u false = none := hstuck u false
      rw [hnone] at hsome
      exact absurd hsome (by simp)
    refine ⟨hidle, fun k => ?_⟩
    by_contra hne
    obtain ⟨u, hu⟩ := Option.ne_none_iff_exists'.mp hne
    exact hinv'.holder_calls hu (hidle u)

end Ends

/-- A publisher is there; a subscriber is being created and has locked the wiring, and a
sample is about to be sent. -/
def nested : List (Act Bool) :=
  [.create true .register, .access true false, .access true false, .access true false,
   .create false .connect, .access false false, .visit true .send 0, .access true false]

theorem ports_never_deadlock_nested :
    ∃ s : State Bool, Reach (step .pubSub) anyStep init s
      ∧ s.inner = some false ∧ s.lists 0 = some true
      ∧ step .pubSub s (.access false false) = none
      ∧ ∃ u stop, (step .pubSub s (.access u stop)).isSome := by
  have hrun : (exec (step .pubSub) (init : State Bool) nested).map
      (fun s => (s.inner, s.lists 0, (step .pubSub s (.access false false)).isNone,
        decide (s.pc true = .idle))) = some (some false, some true, true, false) := by
    decide
  obtain ⟨s, hs, hf⟩ := Option.map_eq_some_iff.mp hrun
  simp only [Prod.mk.injEq] at hf
  obtain ⟨hinner, hlist, hblocked, hbusy⟩ := hf
  have hreach := Reach.of_exec nested .refl hs
  obtain ⟨_, hprogress, _⟩ := ports_never_deadlock .pubSub s hreach
  exact ⟨s, hreach, hinner, hlist, Option.isNone_iff_eq_none.mp hblocked,
    hprogress true (of_decide_eq_false hbusy)⟩

end Entangle.Port.Mutexes
