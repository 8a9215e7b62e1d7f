/-
  Entangle.Port.Events — the Event pattern: `Notifier` (port/notifier.rs), `Listener`
  (port/listener.rs) and `WaitSet` (waitset.rs), any number of each, used by any number
  of threads.

  `NotifierBuilder::create` and `ListenerBuilder::create` each make an
  `EventNotification` of their own; nothing else ties a port to its service.  A
  `WaitSet` polls descriptors, in the order in which they have been attached.

  Each port is a run of its own of `EventNotification`, in which only the calls occur
  that the port has (`port_reach`).  On a listener that is no `notify`, on a notifier
  nothing else.

  Ports outlive the sets they are attached to: no descriptor is closed and none is used
  again for something else.  (The descriptor of a listener that has been dropped is ready
  at once, with `POLLNVAL`, and `wait` returns no id for it.)  What is attached is the
  descriptor of a listener or of an `EventNotification` that is used as it is.

  Main results:
    * `timeoutMs_neg` — the timeouts for which a `WaitSet` waits for ever;
    * `events_never_arrive` — no listener hears of anything, alone or in a `WaitSet`.
-/
import Entangle.Lib.Tables
import Entangle.Platform.EventLinearization

namespace Entangle.Port.Events

open Entangle.Lib
open Entangle.Platform.EventNotification (Backend IoResult Pc Reads)
open Entangle.Platform

/-! ## §1. Ports and sets. -/

/-- What has made an `EventNotification`, and for which service. -/
inductive Kind where
  | notifier (service : String)
  | listener (service : String)
  -- used as it is, not by a port
  | source
  deriving Repr, DecidableEq

/-- The calls there are. -/
def Kind.admits {Tid : Type} : Kind → EventNotification.Act Tid → Bool
  | _, .access _ _ => true
  | .notifier _, .notify _ _ => true
  | .listener _, .wait _ _ | .listener _, .tryWait _ => true
  | .source, _ => true
  | .notifier _, .wait _ _ | .notifier _, .tryWait _ => false
  | .listener _, .notify _ _ => false

/-- The readable descriptor can be had, by `raw_fd` or `read_raw_fd`. -/
def Kind.hasFd : Kind → Bool
  | .notifier _ => false
  | .listener _ | .source => true

/-- A port and its `EventNotification`. -/
structure EventPort (Tid : Type) where
  kind : Kind
  event : EventNotification.State Tid

/-- Where a thread stands in `WaitSet::wait`. -/
inductive PollPc where
  | idle
  -- in poll(2)
  | polling (fds : List Nat) (timeoutMs : Int)
  | returned (fds : List Nat) (ids : List Nat)
  deriving Repr, DecidableEq

/-- The thread is not in `WaitSet::wait`. -/
def PollPc.resting : PollPc → Bool
  | .idle | .returned _ _ => true
  | .polling _ _ => false

/-- All ports of all services, the `WaitSet`s, and the threads inside `WaitSet::wait`. -/
structure State (Tid : Type) where
  -- the descriptor of a port is its number
  ports : List (EventPort Tid)
  -- the descriptors attached to each `WaitSet`
  sets : List (List Nat)
  poll : Tid → PollPc

/-- How `poll(2)` returns. -/
inductive PollEnd where
  | ready
  | timedOut
  -- -1: EINTR, EINVAL, ENOMEM
  | failed
  deriving Repr, DecidableEq

/-- What threads do: make a port or a set, begin a call or make its next access, attach a
descriptor, and wait.  `poll(2)` returns in a step of its own. -/
inductive Act (Tid : Type) where
  -- `EventNotification::new` may fail
  | create (kind : Kind) (failure : Option String)
  | call (k : Nat) (a : EventNotification.Act Tid)
  | newSet
  -- `attach_listener`, `attach_fd`
  | attach (w k : Nat)
  | wait (t : Tid) (w : Nat) (timeout : Option Nat)
  | pollReturns (t : Tid) (e : PollEnd)
  deriving Repr, DecidableEq

/-- The timeout of `poll(2)`: `d.as_millis() as i32`, or -1. -/
def timeoutMs : Option Nat → Int
  | some millis => (BitVec.ofNat 32 millis).toInt
  | none => -1

variable {Tid : Type} [DecidableEq Tid]

/-- `POLLIN`. -/
def State.readable (s : State Tid) (fd : Nat) : Bool :=
  (s.ports[fd]?).any (fun p => 0 < p.event.pending)

/-- The positions of the descriptors with `POLLIN`. -/
def State.ready (s : State Tid) (fds : List Nat) : List Nat :=
  (fds.zipIdx.filter (fun p => s.readable p.1)).map Prod.snd

/-- The thread is in no call. -/
def State.free (s : State Tid) (t : Tid) : Bool :=
  s.ports.all (fun p => (p.event.pc t).resting) && (s.poll t).resting

def State.setPoll (s : State Tid) (t : Tid) (pc : PollPc) : State Tid :=
  { s with poll := Function.update s.poll t pc }

/-- The step begins a call. -/
def begins : EventNotification.Act Tid → Bool
  | .access _ _ => false
  | .wait _ _ | .tryWait _ | .notify _ _ => true

/-- One step. -/
def step (b : Backend) (s : State Tid) : Act Tid → Option (State Tid)
  | .create kind none =>
      some { s with ports := s.ports ++ [⟨kind, EventNotification.init b⟩] }
  | .create _ (some _) => some s
  | .call k a =>
      (s.ports[k]?).bind (fun p =>
        if p.kind.admits a && (!begins a || s.free a.thread) then
          (EventNotification.step b p.event a).map (fun event =>
            { s with ports := s.ports.set k { p with event := event } })
        else none)
  | .newSet => some { s with sets := s.sets ++ [[]] }
  | .attach w k =>
      (s.ports[k]?).bind (fun p => (s.sets[w]?).bind (fun fds =>
        if p.kind.hasFd then some { s with sets := s.sets.set w (fds ++ [k]) } else none))
  | .wait t w timeout =>
      (s.sets[w]?).bind (fun fds =>
        if s.free t then
          some (s.setPoll t
            (if fds = [] then .returned [] [] else .polling fds (timeoutMs timeout)))
        else none)
  | .pollReturns t e =>
      match s.poll t, e with
      | .polling fds _, .ready =>
          if s.ready fds = [] then none else some (s.setPoll t (.returned fds (s.ready fds)))
      | .polling fds ms, .timedOut =>
          if 0 ≤ ms ∧ s.ready fds = [] then some (s.setPoll t (.returned fds [])) else none
      | .polling fds _, .failed => some (s.setPoll t (.returned fds []))
      | .idle, _ | .returned _ _, _ => none

def init : State Tid := { ports := [], sets := [], poll := fun _ => .idle }

/-- **A `WaitSet` waits for ever** without a timeout, and where the milliseconds of the
timeout have bit 31 set. -/
theorem timeoutMs_neg (timeout : Option Nat) :
    timeoutMs timeout < 0
      ↔ ∀ millis, timeout = some millis → 2 ^ 31 ≤ millis % 2 ^ 32 := by
  cases timeout with
  | none => simp [timeoutMs]
  | some millis =>
      simp only [timeoutMs, Option.some.injEq, forall_eq']
      rw [BitVec.toInt_eq_toNat_bmod, BitVec.toNat_ofNat, Int.bmod_def]
      omega

/-! ## §2. What a step can do. -/

inductive Moves (b : Backend) (s : State Tid) : Act Tid → State Tid → Prop
  | create (kind : Kind) : Moves b s (.create kind none)
      { s with ports := s.ports ++ [⟨kind, EventNotification.init b⟩] }
  | createFails (kind : Kind) (e : String) : Moves b s (.create kind (some e)) s
  | call (k : Nat) (a : EventNotification.Act Tid) (p : EventPort Tid)
      (event : EventNotification.State Tid) : s.ports[k]? = some p → p.kind.admits a = true →
      EventNotification.step b p.event a = some event →
      Moves b s (.call k a) { s with ports := s.ports.set k { p with event := event } }
  | newSet : Moves b s .newSet { s with sets := s.sets ++ [[]] }
  | attach (w k : Nat) (p : EventPort Tid) (fds : List Nat) : s.ports[k]? = some p →
      s.sets[w]? = some fds → p.kind.hasFd = true →
      Moves b s (.attach w k) { s with sets := s.sets.set w (fds ++ [k]) }
  | emptySet (t : Tid) (w : Nat) (timeout : Option Nat) : (s.poll t).resting = true →
      Moves b s (.wait t w timeout) (s.setPoll t (.returned [] []))
  | poll (t : Tid) (w : Nat) (timeout : Option Nat) (fds : List Nat) : s.sets[w]? = some fds →
      (s.poll t).resting = true →
      Moves b s (.wait t w timeout) (s.setPoll t (.polling fds (timeoutMs timeout)))
  | ready (t : Tid) (fds : List Nat) (ms : Int) : s.poll t = .polling fds ms →
      s.ready fds ≠ [] →
      Moves b s (.pollReturns t .ready) (s.setPoll t (.returned fds (s.ready fds)))
  | timedOut (t : Tid) (fds : List Nat) (ms : Int) : s.poll t = .polling fds ms → 0 ≤ ms →
      Moves b s (.pollReturns t .timedOut) (s.setPoll t (.returned fds []))
  | failed (t : Tid) (fds : List Nat) (ms : Int) : s.poll t = .polling fds ms →
      Moves b s (.pollReturns t .failed) (s.setPoll t (.returned fds []))

theorem step_cases {b : Backend} {s s' : State Tid} {a : Act Tid} (hs : step b s a = some s') :
    Moves b s a s' := by
  cases a with
  | create kind failure =>
      cases failure with
      | none =>
          obtain rfl := Option.some.inj hs
          exact .create kind
      | some e =>
          obtain rfl := Option.some.inj hs
          exact .createFails kind e
  | call k a =>
      obtain ⟨p, hp, hs⟩ := Option.bind_eq_some_iff.mp hs
      rw [Option.ite_none_right_eq_some, Bool.and_eq_true] at hs
      obtain ⟨⟨hadmits, _⟩, hs⟩ := hs
      obtain ⟨event, hevent, rfl⟩ := Option.map_eq_some_iff.mp hs
      exact .call k a p event hp hadmits hevent
  | newSet =>
      obtain rfl := Option.some.inj hs
      exact .newSet
  | attach w k =>
      obtain ⟨p, hp, hs⟩ := Option.bind_eq_some_iff.mp hs
      obtain ⟨fds, hfds, hs⟩ := Option.bind_eq_some_iff.mp hs
      rw [Option.ite_none_right_eq_some, Option.some.injEq] at hs
      obtain ⟨hfd, rfl⟩ := hs
      exact .attach w k p fds hp hfds hfd
  | wait t w timeout =>
      obtain ⟨fds, hfds, hs⟩ := Option.bind_eq_some_iff.mp hs
      rw [Option.ite_none_right_eq_some, Option.some.injEq] at hs
      obtain ⟨hfree, rfl⟩ := hs
      have hrest := (Bool.and_eq_true_iff.mp hfree).2
      split
      next => exact .emptySet t w timeout hrest
      next => exact .poll t w timeout fds hfds hrest
  | pollReturns t e =>
      simp only [step] at hs
      split at hs
      next fds ms hpoll =>
        split at hs
        next => exact absurd hs (by simp)
        next hne =>
          obtain rfl := Option.some.inj hs
          exact .ready t fds ms hpoll hne
      next fds ms hpoll =>
        split at hs
        next hms =>
          obtain rfl := Option.some.inj hs
          exact .timedOut t fds ms hpoll hms.1
        next => exact absurd hs (by simp)
      next fds ms hpoll =>
        obtain rfl := Option.some.inj hs
        exact .failed t fds ms hpoll
      next => exact absurd hs (by simp)
      next => exact absurd hs (by simp)

/-- A port stays what it is. -/
theorem kind_kept {b : Backend} {s s' : State Tid} {a : Act Tid} (hs : step b s a = some s')
    {k : Nat} {p : EventPort Tid} (hp : s.ports[k]? = some p) :
    ∃ p', s'.ports[k]? = some p' ∧ p'.kind = p.kind := by
  cases step_cases hs with
  | create kind => exact ⟨p, append_of_some _ hp, rfl⟩
  | call j c q event hq _ _ =>
      rcases set_of_some { q with event := event } hq hp with ⟨rfl, rfl, hset⟩ | ⟨_, hkeep⟩
      · exact ⟨_, hset, rfl⟩
      · exact ⟨p, hkeep, rfl⟩
  | _ => exact ⟨p, hp, rfl⟩

/-! ## §3. One port. -/

/-- The runs of one port. -/
def PortRun (b : Backend) (p : EventPort Tid) : Prop :=
  Reach (EventNotification.step b) (fun _ a => p.kind.admits a = true) (EventNotification.init b)
    p.event

/-- **Each port is a run of its own** of `EventNotification`. -/
theorem port_reach {b : Backend} {s : State Tid} (h : Reach (step b) anyStep init s) (k : Nat)
    (p : EventPort Tid) (hp : s.ports[k]? = some p) : PortRun b p := by
  have hall : ∀ (k : Nat) (p : EventPort Tid), s.ports[k]? = some p → PortRun b p := by
    apply h.invariant
      (fun s => ∀ (k : Nat) (p : EventPort Tid), s.ports[k]? = some p → PortRun b p)
    · intro k p hp
      simp [init] at hp
    · intro s a s' hinv _ hs
      cases step_cases hs with
      | create kind => exact forall_concat hinv .refl
      | call j c q event hq hadmits hstep =>
          exact forall_set ((hinv j q hq).tail hadmits hstep) (fun i p _ hp => hinv i p hp)
      | _ => exact hinv
  exact hall k p hp

/-- The thread has not been told of a notification, and is not about to be. -/
def Unheard : Pc → Prop
  | .notifying | .returned (.waited (.ok _)) | .returned (.tried (.ok true)) => False
  | .tried r | .clearing r _ => r ≠ .done
  | _ => True

/-- Nothing is pending, and nobody has been told of anything. -/
structure Silent (ev : EventNotification.State Tid) : Prop where
  pending : ev.pending = 0
  places : ∀ t, Unheard (ev.pc t)

section Silence

variable {b : Backend} {ev ev' : EventNotification.State Tid} {t : Tid} {pc' : Pc}

/-- Thread `t` gets to `pc'`, and nothing is pending. -/
theorem Silent.move (h : Silent ev) (hpending : ev'.pending = 0)
    (hpc : ev'.pc = Function.update ev.pc t pc') (hunheard : Unheard pc') : Silent ev' := by
  refine ⟨hpending, ?_⟩
  rw [hpc]
  exact (Function.forall_update_iff ev.pc (fun _ pc => Unheard pc)).mpr
    ⟨hunheard, fun u _ => h.places u⟩

omit [DecidableEq Tid] in
/-- A read finds nothing. -/
theorem Silent.read (h : Silent ev) {m n : Nat} {r : IoResult} (hr : Reads b m r n)
    (hm : m = ev.pending) : n = 0 ∧ r ≠ .done := by
  rw [h.pending] at hm
  cases hr with
  | done _ hpos => exact absurd hpos (by omega)
  | nothing => exact ⟨rfl, by simp⟩
  | failed _ e => exact ⟨hm, by simp⟩

theorem unheard_waited {r : IoResult} (hr : r ≠ .done) :
    Unheard (.returned (.waited (EventNotification.waitResult b r))) := by
  cases r with
  | done => exact absurd rfl hr
  | wouldBlock | failed => trivial

theorem unheard_tried {r : IoResult} (hr : r ≠ .done) :
    Unheard (.returned (.tried (EventNotification.tryWaitResult r))) := by
  cases r with
  | done => exact absurd rfl hr
  | wouldBlock | failed => trivial

/-- **Without `notify` there is silence.** -/
theorem Silent.step {service : String} {a : EventNotification.Act Tid} (h : Silent ev)
    (hadmits : (Kind.listener service).admits a = true)
    (hs : EventNotification.step b ev a = some ev') : Silent ev' := by
  cases EventNotification.step_cases hs with
  | wait t failure r pending _ hr =>
      obtain ⟨rfl, hne⟩ := h.read (EventNotification.reads_of_issueRead hr) rfl
      exact h.move rfl rfl (unheard_waited hne)
  | waitBlocks t failure _ _ => exact h.move h.pending rfl trivial
  | tryWait t _ => exact h.move h.pending rfl trivial
  | notify | notifyBlocks => exact absurd hadmits (by simp [Kind.admits])
  | waitResumes t failure r pending _ hr =>
      obtain ⟨rfl, hne⟩ := h.read (EventNotification.reads_of_resumeRead hr) rfl
      exact h.move rfl rfl (unheard_waited hne)
  | notifyResumes t failure r pending hpc _ =>
      have hunheard := h.places t
      rw [hpc] at hunheard
      exact hunheard.elim
  | set t failure flags _ => exact h.move h.pending rfl trivial
  | read t failure r pending _ hr =>
      obtain ⟨rfl, hne⟩ := h.read (EventNotification.reads_of_issueRead hr) rfl
      exact h.move rfl rfl hne
  | readBlocks t failure _ _ => exact h.move h.pending rfl trivial
  | readResumes t failure r pending _ hr =>
      obtain ⟨rfl, hne⟩ := h.read (EventNotification.reads_of_resumeRead hr) rfl
      exact h.move rfl rfl hne
  | getFlags t failure r hpc =>
      have hne := h.places t
      rw [hpc] at hne
      exact h.move h.pending rfl hne
  | clear t failure r flags hpc =>
      have hne := h.places t
      rw [hpc] at hne
      exact h.move h.pending rfl (unheard_tried hne)

end Silence

/-- **A listener hears nothing.** -/
theorem listener_silent {b : Backend} {p : EventPort Tid} {service : String} (h : PortRun b p)
    (hkind : p.kind = .listener service) : Silent p.event := by
  unfold PortRun at h
  rw [hkind] at h
  have hinit : Silent (EventNotification.init b : EventNotification.State Tid) :=
    ⟨rfl, fun t => (trivial : Unheard .idle)⟩
  exact h.invariant Silent hinit (fun _ _ _ hinv hok hs => hinv.step hok hs)

/-- Where a thread can be with the calls of a notifier. -/
def Sending : Pc → Prop
  | .idle | .notifying | .returned (.notified _) => True
  | _ => False

theorem notifier_sending {b : Backend} {p : EventPort Tid} {service : String} (h : PortRun b p)
    (hkind : p.kind = .notifier service) (t : Tid) : Sending (p.event.pc t) := by
  unfold PortRun at h
  rw [hkind] at h
  revert t
  have hinit : ∀ t, Sending ((EventNotification.init b : EventNotification.State Tid).pc t) :=
    fun t => (trivial : Sending .idle)
  apply h.invariant (fun ev => ∀ t, Sending (ev.pc t)) hinit
  intro ev a ev' hinv hok hs
  have hmove : ∀ t pc', ev'.pc = Function.update ev.pc t pc' → Sending pc' →
      ∀ u, Sending (ev'.pc u) := by
    intro t pc' hpc hsending
    rw [hpc]
    exact (Function.forall_update_iff ev.pc (fun _ pc => Sending pc)).mpr
      ⟨hsending, fun u _ => hinv u⟩
  cases EventNotification.step_cases hs with
  | wait | waitBlocks | tryWait => exact absurd hok (by simp [Kind.admits])
  | notify t failure r pending _ _ => exact hmove t _ rfl trivial
  | notifyBlocks t failure _ _ => exact hmove t _ rfl trivial
  | notifyResumes t failure r pending _ _ => exact hmove t _ rfl trivial
  | waitResumes t failure r pending hpc _ | set t failure r hpc | read t failure r pending hpc _
  | readBlocks t failure hpc _ | readResumes t failure r pending hpc _
  | getFlags t failure r hpc | clear t failure r flags hpc =>
      have hsending := hinv t
      rw [hpc] at hsending
      exact hsending.elim

/-! ## §4. The sets. -/

/-- All descriptors are those of ports that have one to give. -/
def Attached (s : State Tid) (fds : List Nat) : Prop :=
  ∀ k ∈ fds, ∃ p, s.ports[k]? = some p ∧ p.kind.hasFd = true

/-- The ids are in order, and all belong to descriptors that are no port's. -/
def Reported (s : State Tid) (fds ids : List Nat) : Prop :=
  ids.Pairwise (· < ·)
    ∧ ∀ i ∈ ids, ∃ k p, fds[i]? = some k ∧ s.ports[k]? = some p ∧ p.kind = .source

section Sets

variable {b : Backend} {s s' : State Tid} {a : Act Tid} {fds ids : List Nat}

omit [DecidableEq Tid] in
/-- The ids that `WaitSet::wait` returns. -/
theorem mem_ready (i : Nat) :
    i ∈ s.ready fds ↔ ∃ k, fds[i]? = some k ∧ s.readable k = true := by
  unfold State.ready
  simp only [List.mem_map, List.mem_filter, Prod.exists, List.mem_zipIdx_iff_getElem?,
    exists_eq_right]

omit [DecidableEq Tid] in
theorem ready_pairwise : (s.ready fds).Pairwise (· < ·) := by
  have hsub : (s.ready fds).Sublist (fds.zipIdx.map Prod.snd) := List.filter_sublist.map _
  rw [List.zipIdx_map_snd] at hsub
  apply List.Pairwise.sublist hsub
  rw [← List.range_eq_range']
  exact List.pairwise_lt_range

theorem Attached.kept (h : Attached s fds) (hs : step b s a = some s') : Attached s' fds := by
  intro k hk
  obtain ⟨p, hp, hfd⟩ := h k hk
  obtain ⟨p', hp', hkind⟩ := kind_kept hs hp
  exact ⟨p', hp', by rw [hkind]; exact hfd⟩

theorem Reported.kept (h : Reported s fds ids) (hs : step b s a = some s') :
    Reported s' fds ids := by
  refine ⟨h.1, fun i hi => ?_⟩
  obtain ⟨k, p, hk, hp, hsource⟩ := h.2 i hi
  obtain ⟨p', hp', hkind⟩ := kind_kept hs hp
  exact ⟨k, p', hk, hp', hkind.trans hsource⟩

omit [DecidableEq Tid] in
theorem Reported.nothing : Reported s fds [] := ⟨List.Pairwise.nil, fun i hi => by simp at hi⟩

/-- What is in a set, or has been given to `poll(2)`, are readable descriptors of ports
that exist; what has been returned are ids of descriptors that are no port's. -/
structure Inv (s : State Tid) : Prop where
  sets : ∀ (w : Nat) (fds : List Nat), s.sets[w]? = some fds → Attached s fds
  polling : ∀ t fds ms, s.poll t = .polling fds ms → Attached s fds
  returned : ∀ t fds ids, s.poll t = .returned fds ids → Reported s fds ids

/-- What is ready belongs to no port. -/
theorem reported_ready (hreach : Reach (step b) anyStep init s) (h : Attached s fds) :
    Reported s fds (s.ready fds) := by
  refine ⟨ready_pairwise, fun i hi => ?_⟩
  obtain ⟨k, hk, hread⟩ := (mem_ready i).mp hi
  obtain ⟨p, hp, hfd⟩ := h k (List.mem_of_getElem? hk)
  refine ⟨k, p, hk, hp, ?_⟩
  simp only [State.readable, hp, Option.any_some, decide_eq_true_eq] at hread
  cases hkind : p.kind with
  | source => rfl
  | notifier service =>
      rw [hkind] at hfd
      exact absurd hfd (by simp [Kind.hasFd])
  | listener service =>
      have hsilent := (listener_silent (port_reach hreach k p hp) hkind).pending
      omega

/-- One thread is at another place in its `wait`. -/
theorem Inv.setPoll {t : Tid} {pc : PollPc} (h : Inv s)
    (hpolling : ∀ fds ms, pc = .polling fds ms → Attached s fds)
    (hreturned : ∀ fds ids, pc = .returned fds ids → Reported s fds ids) :
    Inv (s.setPoll t pc) where
  sets := h.sets
  polling u fds ms hu := by
    by_cases hut : u = t
    · subst hut
      exact hpolling fds ms (by simpa [State.setPoll] using hu)
    · exact h.polling u fds ms (by simpa [State.setPoll, Function.update_of_ne hut] using hu)
  returned u fds ids hu := by
    by_cases hut : u = t
    · subst hut
      exact hreturned fds ids (by simpa [State.setPoll] using hu)
    · exact h.returned u fds ids (by simpa [State.setPoll, Function.update_of_ne hut] using hu)

/-- A step that leaves the sets and the threads in `wait` alone. -/
theorem Inv.keep (h : Inv s) (hs : step b s a = some s') (hsets : s'.sets = s.sets)
    (hpoll : s'.poll = s.poll) : Inv s' where
  sets w fds hw := by
    rw [hsets] at hw
    exact (h.sets w fds hw).kept hs
  polling t fds ms ht := by
    rw [hpoll] at ht
    exact (h.polling t fds ms ht).kept hs
  returned t fds ids ht := by
    rw [hpoll] at ht
    exact (h.returned t fds ids ht).kept hs

theorem Inv.step (h : Inv s) (hreach : Reach (step b) anyStep init s)
    (hs : step b s a = some s') : Inv s' := by
  cases step_cases hs with
  | create | createFails | call => exact h.keep hs rfl rfl
  | newSet =>
      refine ⟨forall_concat h.sets ?_, h.polling, h.returned⟩
      intro k hk
      simp at hk
  | attach w k p fds hp hfds hfd =>
      refine ⟨forall_set ?_ (fun j fds' _ hj => h.sets j fds' hj), h.polling, h.returned⟩
      intro j hj
      rcases List.mem_append.mp hj with hj | hj
      · exact h.sets w fds hfds j hj
      · rw [List.mem_singleton.mp hj]
        exact ⟨p, hp, hfd⟩
  | emptySet t w timeout _ =>
      apply h.setPoll (by simp)
      intro fds ids hpc
      injection hpc with hfds hids
      subst hfds hids
      exact .nothing
  | poll t w timeout fds hfds _ =>
      refine h.setPoll (fun fds' ms hpc => ?_) (by simp)
      injection hpc with hfds' _
      subst hfds'
      exact h.sets w fds hfds
  | ready t fds ms hpoll _ =>
      refine h.setPoll (by simp) (fun fds' ids hpc => ?_)
      injection hpc with hfds' hids
      subst hfds' hids
      exact reported_ready hreach (h.polling t fds ms hpoll)
  | timedOut t fds ms hpoll _ | failed t fds ms hpoll =>
      refine h.setPoll (by simp) (fun fds' ids hpc => ?_)
      injection hpc with hfds' hids
      subst hfds' hids
      exact .nothing

theorem inv_of_reach (h : Reach (Events.step b) anyStep init s) : Inv s := by
  apply h.invariant_of_reach Inv
  · exact ⟨by simp [init], by simp [init], by simp [init]⟩
  · exact fun _ _ _ hreach hinv _ hs => hinv.step hreach hs

/-- **A `WaitSet` of listeners waits for ever** where its timeout is none. -/
theorem returns_only_failed (hreach : Reach (Events.step b) anyStep init s) {t : Tid} {ms : Int}
    (hpoll : s.poll t = .polling fds ms) (hms : ms < 0)
    (hfds : ∀ k ∈ fds, ∃ p service, s.ports[k]? = some p ∧ p.kind = .listener service)
    (hs : Events.step b s a = some s') :
    s'.poll t = s.poll t ∨ a = .pollReturns t .failed := by
  have hother : ∀ {u : Tid} {pc : PollPc}, t ≠ u → (s.setPoll u pc).poll t = s.poll t :=
    fun hne => Function.update_of_ne hne _ _
  have hbusy : ∀ {u : Tid}, (s.poll u).resting = true → t ≠ u := by
    rintro u hrest rfl
    rw [hpoll] at hrest
    exact absurd hrest (by simp [PollPc.resting])
  cases step_cases hs with
  | create | createFails | call | newSet | attach => exact .inl rfl
  | emptySet u w timeout hrest => exact .inl (hother (hbusy hrest))
  | poll u w timeout fds' _ hrest => exact .inl (hother (hbusy hrest))
  | ready u fds' ms' hpoll' hne =>
      by_cases hu : t = u
      · subst hu
        rw [hpoll] at hpoll'
        injection hpoll' with hfds' _
        subst hfds'
        -- a listener would have to be readable
        obtain ⟨i, hi⟩ := List.exists_mem_of_ne_nil _ hne
        obtain ⟨_, hsource⟩ := reported_ready hreach ((inv_of_reach hreach).polling t fds ms hpoll)
        obtain ⟨k, p, hk, hp, hsource⟩ := hsource i hi
        obtain ⟨p', service, hp', hlistener⟩ := hfds k (List.mem_of_getElem? hk)
        rw [hp] at hp'
        obtain rfl := Option.some.inj hp'
        rw [hsource] at hlistener
        exact absurd hlistener (by simp)
      · exact .inl (hother hu)
  | timedOut u fds' ms' hpoll' hle =>
      by_cases hu : t = u
      · subst hu
        rw [hpoll] at hpoll'
        injection hpoll' with _ hms'
        omega
      · exact .inl (hother hu)
  | failed u fds' ms' _ =>
      by_cases hu : t = u
      · subst hu
        exact .inr rfl
      · exact .inl (hother hu)

end Sets

/-! ## §5. The Event pattern. -/

theorem writes_le {b : Backend} {n n' : Nat} {r : IoResult}
    (h : EventNotification.Writes b n r n') : n ≤ n' := by
  cases h with
  | done => exact Nat.le_succ n
  | full | failed => exact Nat.le_refl n

/-- What is pending at a notifier only grows. -/
theorem notifier_grows {b : Backend} {p : EventPort Tid} {service : String}
    {a : EventNotification.Act Tid} {event : EventNotification.State Tid} (h : PortRun b p)
    (hkind : p.kind = .notifier service) (hadmits : p.kind.admits a = true)
    (hs : EventNotification.step b p.event a = some event) :
    p.event.pending ≤ event.pending := by
  rw [hkind] at hadmits
  cases EventNotification.step_cases hs with
  | wait | waitBlocks | tryWait => exact absurd hadmits (by simp [Kind.admits])
  | notify t failure r pending _ hw => exact writes_le (EventNotification.writes_of_issueWrite hw)
  | notifyBlocks => exact Nat.le_refl _
  | notifyResumes t failure r pending _ hw =>
      exact writes_le (EventNotification.writes_of_resumeWrite hw)
  | waitResumes t failure r pending hpc _ | set t failure r hpc | read t failure r pending hpc _
  | readBlocks t failure hpc _ | readResumes t failure r pending hpc _
  | getFlags t failure r hpc | clear t failure r flags hpc =>
      have hsending := notifier_sending h hkind t
      rw [hpc] at hsending
      exact hsending.elim

/-- **Events never arrive.**  In every run of any number of notifiers, listeners and
`WaitSet`s: nothing is ever pending at a listener, no `wait` of one returns `Ok` and no
`try_wait` returns `Ok(true)`, though the notifiers of its service have notified; the ids
that a `WaitSet` returns are in ascending order and never those of listeners; a
`WaitSet` that has only listeners, waiting without a timeout (or with one that is
negative as an `i32`), returns only when `poll(2)` itself fails, as on a signal; and what
a notifier has sent stays pending at the notifier itself.  No port is dropped in these
runs. -/
theorem events_never_arrive (b : Backend) (s : State Tid)
    (h : Reach (step b) anyStep init s) :
    (∀ (k : Nat) (p : EventPort Tid) (service : String), s.ports[k]? = some p →
        p.kind = .listener service →
        p.event.pending = 0 ∧ ∀ t, p.event.pc t ≠ .returned (.waited (.ok ()))
          ∧ p.event.pc t ≠ .returned (.tried (.ok true)))
      ∧ (∀ t fds ids, s.poll t = .returned fds ids → Reported s fds ids)
      ∧ (∀ t fds ms, s.poll t = .polling fds ms → ms < 0 →
          (∀ k ∈ fds, ∃ p service, s.ports[k]? = some p ∧ p.kind = .listener service) →
          ∀ a s', step b s a = some s' →
            s'.poll t = s.poll t ∨ a = .pollReturns t .failed)
      ∧ ∀ (a : Act Tid) (s' : State Tid) (k : Nat) (p : EventPort Tid) (service : String),
          step b s a = some s' → s.ports[k]? = some p → p.kind = .notifier service →
          ∃ p', s'.ports[k]? = some p' ∧ p'.kind = p.kind
            ∧ p.event.pending ≤ p'.event.pending := by
  refine ⟨?_, (inv_of_reach h).returned, ?_, ?_⟩
  · intro k p service hp hkind
    have hsilent := listener_silent (port_reach h k p hp) hkind
    refine ⟨hsilent.pending, fun t => ⟨fun hpc => ?_, fun hpc => ?_⟩⟩
    · have hunheard := hsilent.places t
      rw [hpc] at hunheard
      exact hunheard
    · have hunheard := hsilent.places t
      rw [hpc] at hunheard
      exact hunheard
  · intro t fds ms hpoll hms hfds a s' hs
    exact returns_only_failed h hpoll hms hfds hs
  · intro a s' k p service hs hp hkind
    cases step_cases hs with
    | create kind => exact ⟨p, append_of_some _ hp, rfl, Nat.le_refl _⟩
    | call j c q event hq hadmits hstep =>
        rcases set_of_some { q with event := event } hq hp with ⟨rfl, rfl, hset⟩ | ⟨_, hkeep⟩
        · exact ⟨_, hset, rfl, notifier_grows (port_reach h k p hp) hkind hadmits hstep⟩
        · exact ⟨p, hkeep, rfl, Nat.le_refl _⟩
    | _ => exact ⟨p, hp, rfl, Nat.le_refl _⟩

/-- A notifier and a listener of one service: the notifier notifies, then the listener
polls and a `WaitSet` waits for it, with a timeout of 2^31 milliseconds. -/
def unheardRun : List (Act Unit) :=
  [.create (.notifier "alarm") none, .create (.listener "alarm") none, .newSet, .attach 0 1,
   .call 0 (.notify () none), .call 1 (.tryWait ()), .call 1 (.access () none),
   .call 1 (.access () none), .call 1 (.access () none), .call 1 (.access () none),
   .wait () 0 (some (2 ^ 31))]

theorem events_never_arrive_unheard :
    ∃ s : State Unit, Reach (step .eventfd) anyStep init s
      ∧ (s.ports.map (fun p => (p.event.pending, p.event.pc ())))
          = [(1, .returned (.notified (.ok ()))), (0, .returned (.tried (.ok false)))]
      ∧ s.poll () = .polling [1] (-2 ^ 31)
      ∧ ∀ a s', step .eventfd s a = some s' →
          s'.poll () = s.poll () ∨ a = .pollReturns () .failed := by
  have hrun : (exec (step .eventfd) init unheardRun).any (fun s =>
      s.ports.map (fun p => (p.event.pending, p.event.pc ()))
          = [(1, .returned (.notified (.ok ()))), (0, .returned (.tried (.ok false)))]
        && s.poll () = .polling [1] (-2 ^ 31)
        && (s.ports[1]?).any (fun p => p.kind = .listener "alarm")) := by
    decide +kernel
  simp only [Option.any_eq_true, Bool.and_eq_true, decide_eq_true_eq] at hrun
  obtain ⟨s, hs, ⟨hports, hpoll⟩, p, hp, hkind⟩ := hrun
  have hreach := Reach.of_exec unheardRun .refl hs
  refine ⟨s, hreach, hports, hpoll, ?_⟩
  apply (events_never_arrive .eventfd s hreach).2.2.1 () [1] (-2 ^ 31) hpoll (by decide)
  intro k hk
  rw [List.mem_singleton.mp hk]
  exact ⟨p, "alarm", hp, hkind⟩

end Entangle.Port.Events
