/-
  Entangle.PubSub.ServiceHandles — several handles of one publish-subscribe
  service (the builders in entangle/src/service/pubsub.rs, with the `create` of
  port/publisher.rs and of port/subscriber.rs).

  A service is known by its file in the registry, but its publishers are listed
  in the `PubSubShared` of a handle, and every successful `open_or_create`,
  `create` and `open` makes a new one.  The counter that keeps the segment names
  apart is in there too.

  A publisher, a channel or a handle that the source holds by `Arc` is its
  position in a list of the state.  Handles and ports are not dropped, so the
  names of shared memory that exist are the `segName`s of the publishers.

  Main results:
    * `handles_apart` — two handles of one service do not act as one;
    * `Inv.step` — with all ports on one handle, every step keeps the invariant;
    * `handles_act_as_one` — runs of that kind, and no others, are right.
-/
import Entangle.Lib.Tables
import Entangle.PubSub.Publisher
import Entangle.Registry.PayloadTypes
import Mathlib.Data.List.Nodup

namespace Entangle.PubSub.ServiceHandles

open Entangle.Lib Entangle.Lockfree Entangle.Transport Entangle.Registry
open Entangle.Registry.PayloadTypes

/-! ## §1. Handles and ports. -/

/-- The fields of `PubSubBuilder` that a node gives to every handle. -/
structure PubSubBuilder where
  serviceName : String
  nodeId : BitVec 128
  qos : PubSubQos

/-- The `StaticConfig::new` of the builder. -/
def PubSubBuilder.config (b : PubSubBuilder) (T : PayloadType) : StaticConfig :=
  (Description.pubSub T).config b.serviceName

/-- `{:016x}`. -/
def hex16 (n : U64) : String := String.ofList ((Nat.toDigits 16 n.toNat).leftpad 16 '0')

/-- The `seg_name` of the publisher with index `pubIdx`. -/
def PubSubBuilder.segName (b : PubSubBuilder) (pubIdx : U32) : String :=
  s!"entangle_{safeName b.serviceName}_p{pubIdx.toNat}_{hex16 (b.nodeId.setWidth 64)}"

/-- `PublisherRegistration`, with the name of its shared memory. -/
structure PublisherRegistration where
  segName : String
  segment : DataSegment
  channels : List Nat
  -- the handle the publisher was created on
  handle : Nat

/-- One connection of a subscriber. -/
structure SubscriberConnection where
  -- the publisher whose segment it is
  publisher : Nat
  channel : Nat
  deriving Repr, DecidableEq

/-- A subscriber, with what it has connected to. -/
structure Subscriber where
  connections : List SubscriberConnection
  -- how many publishers there were when it was created
  earlier : Nat
  deriving Repr, DecidableEq

/-- `PubSubShared`, with the payload type of its handle. -/
structure PubSubShared where
  payload : PayloadType
  publishers : List Nat
  publisherCounter : U32

/-- The `PubSubShared` that every builder makes. -/
def PubSubShared.new (T : PayloadType) : PubSubShared :=
  { payload := T, publishers := [], publisherCounter := 0#32 }

/-- The registry, and the handles of `open_or_create` with what has been wired through
each.  `PubSubShared` is made by every call anew, so two handles of one name know
nothing of each other's ports. -/
structure State where
  files : Files
  handles : List PubSubShared
  publishers : List PublisherRegistration
  channels : List ZeroCopyChannel
  subscribers : List Subscriber
  -- how many creations of publishers have returned an error
  failed : Nat

def init (files : Files) : State :=
  { files := files, handles := [], publishers := [], channels := [], subscribers := []
    failed := 0 }

/-! ## §2. The operations. -/

/-- How a handle is obtained. -/
inductive Opening where
  | openOrCreate
  | create
  | openExisting
  deriving Repr, DecidableEq

/-- The call on the lifecycle. -/
def Opening.run (ron : Ron) (files : Files) (config : StaticConfig) :
    Opening → Except ServiceError Unit × Files
  | .openOrCreate =>
      let r := Registry.openOrCreate ron files config
      (r.1.map (fun _ => ()), r.2)
  | .create => createService ron files config
  | .openExisting => ((openService ron files config).map (fun _ => ()), files)

namespace State

/-- `PubSubBuilder::open_or_create`, `create` or `open`. -/
def openHandle (ron : Ron) (b : PubSubBuilder) (s : State) (how : Opening) (T : PayloadType) :
    State :=
  match how.run ron s.files (b.config T) with
  | (.ok (), files) => { s with files := files, handles := s.handles ++ [.new T] }
  | (.error _, files) => { s with files := files }

/-- `fetch_add` on the counter of a handle. -/
def bump (s : State) (h : Nat) (shared : PubSubShared) : State :=
  { s with
    handles := s.handles.set h
      { shared with publisherCounter := shared.publisherCounter + 1 } }

/-- The publisher `p` enters the wiring of its handle. -/
def addPublisher (s : State) (h : Nat) (shared : PubSubShared) (name : String)
    (segment : DataSegment) : State :=
  { s with
    handles := s.handles.set h
      { shared with
        publishers := shared.publishers ++ [s.publishers.length]
        publisherCounter := shared.publisherCounter + 1 }
    publishers := s.publishers ++
      [{ segName := name, segment := segment, channels := [], handle := h }] }

/-- `PublisherBuilder::create` on handle `h`.  `SharedMemory::create` fails if the
name exists; `none` where there is no such handle, or the segment cannot be made
for another reason. -/
def createPublisher (b : PubSubBuilder) (s : State) (h : Nat) : Option State :=
  s.handles[h]?.bind (fun shared =>
    let name := b.segName shared.publisherCounter
    if s.publishers.any (fun r => r.segName == name) then
      some { s.bump h shared with failed := s.failed + 1 }
    else
      (DataSegment.create (max shared.payload.size 8) (b.qos.bufferSize % 2 ^ 32) 0#16).map
        (s.addPublisher h shared name))

/-- One round of the loop in `SubscriberBuilder::create`. -/
def connect (b : PubSubBuilder) (s : State) (p : Nat) : State :=
  { s with
    channels := s.channels ++ [(ZeroCopyChannel.new b.qos.bufferSize).connect]
    publishers := s.publishers.modify p (fun r =>
      { r with channels := r.channels ++ [s.channels.length] }) }

/-- The loop in `SubscriberBuilder::create` over the registered publishers. -/
def connectAll (b : PubSubBuilder) :
    List Nat → State → List SubscriberConnection → List SubscriberConnection × State
  | [], s, connections => (connections, s)
  | p :: ps, s, connections =>
      connectAll b ps (s.connect b p) (connections ++ [⟨p, s.channels.length⟩])

/-- `SubscriberBuilder::create` on handle `h`. -/
def createSubscriber (b : PubSubBuilder) (s : State) (h : Nat) : Option State :=
  s.handles[h]?.map (fun shared =>
    let r := connectAll b shared.publishers s []
    { r.2 with
      subscribers := s.subscribers ++ [{ connections := r.1, earlier := s.publishers.length }] })

end State

inductive Act where
  | openHandle (how : Opening) (T : PayloadType)
  | createPublisher (h : Nat)
  | createSubscriber (h : Nat)
  deriving Repr, DecidableEq

def step (ron : Ron) (b : PubSubBuilder) (s : State) : Act → Option State
  | .openHandle how T => some (s.openHandle ron b how T)
  | .createPublisher h => s.createPublisher b h
  | .createSubscriber h => s.createSubscriber b h

/-! ## §3. One service. -/

namespace State

/-- The channels from publisher `p` to a subscriber: `p` sends to them, and the
subscriber receives from them what lies in the segment of `p`. -/
def links (s : State) (p : Nat) (u : Subscriber) : List Nat :=
  match s.publishers[p]? with
  | some r => r.channels.filter (fun c => ⟨p, c⟩ ∈ u.connections)
  | none => []

/-- A subscriber has one channel from every publisher there was, and no other. -/
structure Connected (s : State) (u : Subscriber) : Prop where
  publishers : u.connections.map (fun c => c.publisher) = List.range u.earlier
  links : ∀ p, (s.links p u).length = if p < u.earlier then 1 else 0
  channels : ∀ c ∈ u.connections,
    s.channels[c.channel]?.map (fun ch => ch.state) = some .connected

/-- The handles act as one service. -/
structure OneService (s : State) : Prop where
  succeed : s.failed = 0
  names : (s.publishers.map (fun r => r.segName)).Nodup
  connected : ∀ u ∈ s.subscribers, s.Connected u

/-- Every publisher was created on handle `h`. -/
def AllOn (s : State) (h : Nat) : Prop := ∀ r ∈ s.publishers, r.handle = h

/-- The segment of a publisher on handle `h` can be made: its number of chunks is
a capacity of an index set, and its bytes have offsets. -/
def Fits (b : PubSubBuilder) (s : State) (h : Nat) : Prop :=
  ∀ shared ∈ s.handles[h]?,
    (0 < b.qos.bufferSize % 2 ^ 32 ∧ b.qos.bufferSize % 2 ^ 32 < SENTINEL.toNat)
      ∧ HEADER_SIZE + b.qos.bufferSize % 2 ^ 32 * DataSegment.aligned (max shared.payload.size 8)
        ≤ 2 ^ 48

end State

/-- The side condition of `handles_act_as_one`. -/
def oneHandle (b : PubSubBuilder) (s : State) : Act → Prop
  | .openHandle _ _ => True
  | .createPublisher h => s.AllOn h ∧ s.publishers.length < 2 ^ 32 ∧ s.Fits b h
  | .createSubscriber h => s.AllOn h

instance decidableAllOn (s : State) (h : Nat) : Decidable (s.AllOn h) :=
  inferInstanceAs (Decidable (∀ r ∈ s.publishers, r.handle = h))

instance decidableFits (b : PubSubBuilder) (s : State) (h : Nat) : Decidable (s.Fits b h) :=
  inferInstanceAs (Decidable (∀ shared ∈ s.handles[h]?, _ ∧ _))

instance decidableOneHandle (b : PubSubBuilder) (s : State) : ∀ a, Decidable (oneHandle b s a)
  | .openHandle _ _ => isTrue trivial
  | .createPublisher h =>
      inferInstanceAs (Decidable (s.AllOn h ∧ s.publishers.length < 2 ^ 32 ∧ s.Fits b h))
  | .createSubscriber h => inferInstanceAs (Decidable (s.AllOn h))

/-- The act is on a handle that exists. -/
def State.HasHandle (s : State) : Act → Prop
  | .openHandle _ _ => True
  | .createPublisher h | .createSubscriber h => h < s.handles.length

/-! ## §4. Two handles. -/

/-- A builder for samples of `u64`, with two chunks. -/
def tempBuilder : PubSubBuilder := ⟨"temp", 7#128, ⟨2, 2⟩⟩

def tempRon : Ron := ronOf [tempBuilder.config u64Type]

/-- Two handles, a publisher on each, and a subscriber on the second. -/
theorem handles_apart :
    ∃ s : State, Reach (step tempRon tempBuilder) anyStep (init (fun _ => none)) s
      ∧ s.handles.length = 2
      -- the second publisher could not be created
      ∧ s.publishers.length = 1 ∧ s.failed = 1
      -- the subscriber is not connected to the first
      ∧ s.subscribers = [⟨[], 1⟩] ∧ ¬ s.OneService := by
  have hrun : ∃ s, exec (step tempRon tempBuilder) (init (fun _ => none))
      [.openHandle .openOrCreate u64Type, .openHandle .openOrCreate u64Type,
        .createPublisher 0, .createPublisher 1, .createSubscriber 1] = some s
      ∧ (s.handles.length, s.publishers.length, s.failed, s.subscribers)
        = (2, 1, 1, [⟨[], 1⟩]) := by
    refine ⟨_, rfl, ?_⟩
    decide
  obtain ⟨s, hs, hfields⟩ := hrun
  simp only [Prod.mk.injEq] at hfields
  obtain ⟨hhandles, hpublishers, hfailed, hsubscribers⟩ := hfields
  refine ⟨s, Reach.of_exec _ .refl hs, hhandles, hpublishers, hfailed, hsubscribers, ?_⟩
  intro hone
  rw [hone.succeed] at hfailed
  exact absurd hfailed (by decide)


/-! ## §5. Names and segments. -/

/-- The counter tells the segment names of a service apart. -/
theorem PubSubBuilder.segName_inj (b : PubSubBuilder) {i j : U32}
    (h : b.segName i = b.segName j) : i = j := by
  unfold PubSubBuilder.segName at h
  have hprefix := (String.append_left_inj _).mp ((String.append_left_inj _).mp h)
  have hnum : toString i.toNat = toString j.toNat := (String.append_right_inj _).mp hprefix
  have hdigits := congrArg String.toList hnum
  rw [Nat.toString_eq_repr, Nat.toString_eq_repr, Nat.toList_repr, Nat.toList_repr] at hdigits
  have hvalue := congrArg (fun l => Nat.ofDigitChars 10 l 0) hdigits
  simp only [Nat.ofDigitChars_ten_toDigits] at hvalue
  exact BitVec.eq_of_toNat_eq hvalue

namespace State

/-- What `Fits` says is what the segment needs. -/
theorem Fits.create {b : PubSubBuilder} {s : State} {h : Nat} {shared : PubSubShared}
    (hfits : s.Fits b h) (hshared : s.handles[h]? = some shared) :
    ∃ segment, DataSegment.create (max shared.payload.size 8) (b.qos.bufferSize % 2 ^ 32) 0#16
      = some segment := by
  obtain ⟨hcount, hbytes⟩ := hfits shared hshared
  have haligned : 0 < DataSegment.aligned (max shared.payload.size 8) := by
    unfold DataSegment.aligned
    omega
  unfold DataSegment.create
  rw [dif_pos ⟨hcount, haligned, hbytes⟩]
  exact ⟨_, rfl⟩

theorem Fits.of_create {b : PubSubBuilder} {s : State} {h : Nat} {shared : PubSubShared}
    {segment : DataSegment} (hshared : s.handles[h]? = some shared)
    (hcreate : DataSegment.create (max shared.payload.size 8) (b.qos.bufferSize % 2 ^ 32) 0#16
      = some segment) : s.Fits b h := by
  intro other hother
  obtain rfl : shared = other := Option.some.inj (hshared.symm.trans hother)
  unfold DataSegment.create at hcreate
  split at hcreate
  next hok => exact ⟨hok.1, hok.2.2⟩
  next => exact absurd hcreate (by simp)

/-! ## §6. The loop of a new subscriber. -/

/-- The channels are numbered on from those that exist. -/
theorem connectAll_connections (b : PubSubBuilder) (ps : List Nat) :
    ∀ (s : State) (cs : List SubscriberConnection), (s.connectAll b ps cs).1
      = cs ++ (ps.zipIdx s.channels.length).map (fun pc => ⟨pc.1, pc.2⟩) := by
  induction ps with
  | nil =>
      intro s cs
      simp [connectAll]
  | cons p ps ih =>
      intro s cs
      unfold connectAll
      rw [ih]
      simp [connect]

theorem connectAll_channels (b : PubSubBuilder) (ps : List Nat) :
    ∀ (s : State) (cs : List SubscriberConnection), (s.connectAll b ps cs).2.channels
      = s.channels ++ List.replicate ps.length (ZeroCopyChannel.new b.qos.bufferSize).connect := by
  induction ps with
  | nil =>
      intro s cs
      simp [connectAll]
  | cons p ps ih =>
      intro s cs
      unfold connectAll
      rw [ih]
      simp [connect, List.replicate_succ]

/-- A publisher gets the channels whose connections are to it, and keeps the
rest of its registration. -/
theorem connectAll_publishers (b : PubSubBuilder) (ps : List Nat) :
    ∀ (s : State) (cs : List SubscriberConnection) (p : Nat),
      (s.connectAll b ps cs).2.publishers[p]? = s.publishers[p]?.map (fun r =>
        { r with channels := r.channels ++
            ((ps.zipIdx s.channels.length).filter (fun pc => pc.1 = p)).map Prod.snd }) := by
  induction ps with
  | nil =>
      intro s cs p
      simp [connectAll]
  | cons q ps ih =>
      intro s cs p
      unfold connectAll
      rw [ih]
      simp only [connect, List.getElem?_modify, List.length_append, List.length_singleton,
        List.zipIdx_cons, List.filter_cons]
      by_cases hq : q = p
      · simp [hq, Function.comp_def]
      · simp [hq]

theorem connectAll_others (b : PubSubBuilder) (ps : List Nat) :
    ∀ (s : State) (cs : List SubscriberConnection),
      (s.connectAll b ps cs).2.handles = s.handles
        ∧ (s.connectAll b ps cs).2.failed = s.failed := by
  induction ps with
  | nil =>
      intro s cs
      exact ⟨rfl, rfl⟩
  | cons p ps ih =>
      intro s cs
      exact ih (s.connect b p) (cs ++ [⟨p, s.channels.length⟩])

theorem range_zipIdx (m n : Nat) :
    (List.range m).zipIdx n = (List.range m).map (fun p => (p, n + p)) := by
  apply List.ext_getElem
  · simp
  · intro i h h'
    simp

/-- Publisher `p` below `m` is connected to once. -/
theorem filter_range_zipIdx (m n p : Nat) :
    (((List.range m).zipIdx n).filter (fun pc => pc.1 = p)).map Prod.snd
      = if p < m then [n + p] else [] := by
  induction m with
  | zero => simp
  | succ m ih =>
      rw [List.range_succ, List.zipIdx_append, List.filter_append, List.map_append, ih]
      by_cases hp : m = p
      · simp [hp]
      · have hlt : p < m + 1 ↔ p < m := by omega
        simp [hp, hlt]

theorem createSubscriber_eq (b : PubSubBuilder) {s : State} {h : Nat} {shared : PubSubShared}
    (hshared : s.handles[h]? = some shared) :
    s.createSubscriber b h = some
      { (s.connectAll b shared.publishers []).2 with
        subscribers := s.subscribers ++
          [{ connections := (s.connectAll b shared.publishers []).1
             earlier := s.publishers.length }] } := by
  unfold createSubscriber
  rw [hshared]
  rfl

/-- **A new subscriber** on a handle that lists every publisher. -/
theorem createSubscriber_all {b : PubSubBuilder} {s : State} {h : Nat} {shared : PubSubShared}
    (hshared : s.handles[h]? = some shared)
    (hall : shared.publishers = List.range s.publishers.length) :
    ∃ s', s.createSubscriber b h = some s' ∧ s'.handles = s.handles ∧ s'.failed = s.failed
      ∧ s'.publishers = s.publishers.mapIdx (fun p r =>
          { r with channels := r.channels ++ [s.channels.length + p] })
      ∧ s'.channels = s.channels ++ List.replicate s.publishers.length
          (ZeroCopyChannel.new b.qos.bufferSize).connect
      ∧ s'.subscribers = s.subscribers ++
          [{ connections := (List.range s.publishers.length).map
              (fun p => ⟨p, s.channels.length + p⟩)
             earlier := s.publishers.length }] := by
  obtain ⟨hhandles, hfailed⟩ := connectAll_others b shared.publishers s []
  refine ⟨_, createSubscriber_eq b hshared, hhandles, hfailed, ?_, ?_, ?_⟩
  · apply List.ext_getElem?
    intro p
    show (s.connectAll b shared.publishers []).2.publishers[p]? = _
    rw [connectAll_publishers, hall, filter_range_zipIdx, List.getElem?_mapIdx]
    by_cases hp : p < s.publishers.length
    · rw [if_pos hp]
    · rw [List.getElem?_eq_none (by omega)]
      rfl
  · show (s.connectAll b shared.publishers []).2.channels = _
    rw [connectAll_channels, hall, List.length_range]
  · show s.subscribers ++ [_] = _
    rw [connectAll_connections, hall, range_zipIdx]
    simp

/-! ## §7. The invariant. -/

theorem allOn_of_nil {s : State} (hnil : s.publishers = []) (h : Nat) : s.AllOn h := by
  intro r hr
  rw [hnil] at hr
  exact absurd hr (by simp)

/-- All publishers are on both handles only if there is none. -/
theorem AllOn.nil_of_ne {s : State} {h h' : Nat} (hall : s.AllOn h) (hall' : s.AllOn h')
    (hne : h ≠ h') : s.publishers = [] := by
  apply List.eq_nil_iff_forall_not_mem.mpr
  intro r hr
  exact hne ((hall r hr).symm.trans (hall' r hr))

theorem allOn_iff_map (s : State) (h : Nat) :
    s.AllOn h ↔ ∀ h' ∈ s.publishers.map (fun r => r.handle), h' = h := by
  unfold AllOn
  rw [List.forall_mem_map]

/-- What holds as long as all ports are on one handle. -/
structure Inv (b : PubSubBuilder) (s : State) : Prop where
  here : ∀ h shared, s.handles[h]? = some shared → s.AllOn h →
    shared.publishers = List.range s.publishers.length
      ∧ shared.publisherCounter = BitVec.ofNat 32 s.publishers.length
  elsewhere : ∀ h shared, s.handles[h]? = some shared → ¬ s.AllOn h →
    shared.publishers = [] ∧ shared.publisherCounter = 0#32
  handle : ∀ r ∈ s.publishers, r.handle < s.handles.length
  names : s.publishers.map (fun r => r.segName)
    = (List.range s.publishers.length).map (fun p => b.segName (BitVec.ofNat 32 p))
  few : s.publishers.length ≤ 2 ^ 32
  fresh : ∀ r ∈ s.publishers, ∀ c ∈ r.channels, c < s.channels.length
  earlier : ∀ u ∈ s.subscribers, u.earlier ≤ s.publishers.length
  connected : ∀ u ∈ s.subscribers, s.Connected u
  succeed : s.failed = 0

theorem inv_init (b : PubSubBuilder) (files : Files) : Inv b (init files) where
  here h shared hshared := absurd hshared (by simp [init])
  elsewhere h shared hshared := absurd hshared (by simp [init])
  handle r hr := absurd hr (by simp [init])
  names := rfl
  few := Nat.zero_le _
  fresh r hr := absurd hr (by simp [init])
  earlier u hu := absurd hu (by simp [init])
  connected u hu := absurd hu (by simp [init])
  succeed := rfl

/-- The indices below `2 ^ 32` are apart. -/
theorem ofNat_inj {p q : Nat} (hp : p < 2 ^ 32) (hq : q < 2 ^ 32)
    (h : BitVec.ofNat 32 p = BitVec.ofNat 32 q) : p = q := by
  have hval := congrArg BitVec.toNat h
  rw [BitVec.toNat_ofNat, BitVec.toNat_ofNat, Nat.mod_eq_of_lt hp, Nat.mod_eq_of_lt hq] at hval
  exact hval

theorem Inv.oneService {b : PubSubBuilder} {s : State} (hinv : Inv b s) : s.OneService where
  succeed := hinv.succeed
  names := by
    rw [hinv.names]
    apply List.Nodup.map_on _ List.nodup_range
    intro p hp q hq h
    have hfew := hinv.few
    have hp' := List.mem_range.mp hp
    have hq' := List.mem_range.mp hq
    exact ofNat_inj (by omega) (by omega) (b.segName_inj h)
  connected := hinv.connected

/-- **When the name of the next publisher of a handle is taken**: when there are
publishers on another handle, or the counter has come back to zero. -/
theorem Inv.name_taken_iff {b : PubSubBuilder} {s : State} (hinv : Inv b s) {h : Nat}
    {shared : PubSubShared} (hshared : s.handles[h]? = some shared) :
    s.publishers.any (fun r => r.segName == b.segName shared.publisherCounter) = true
      ↔ ¬ (s.AllOn h ∧ s.publishers.length < 2 ^ 32) := by
  have hmem : s.publishers.any (fun r => r.segName == b.segName shared.publisherCounter) = true
      ↔ ∃ p < s.publishers.length, BitVec.ofNat 32 p = shared.publisherCounter := by
    have hany : s.publishers.any (fun r => r.segName == b.segName shared.publisherCounter) = true
        ↔ b.segName shared.publisherCounter ∈ s.publishers.map (fun r => r.segName) := by
      simp
    rw [hany, hinv.names, List.mem_map]
    constructor
    · rintro ⟨p, hp, hname⟩
      exact ⟨p, List.mem_range.mp hp, b.segName_inj hname⟩
    · rintro ⟨p, hp, hcounter⟩
      exact ⟨p, List.mem_range.mpr hp, by rw [hcounter]⟩
  rw [hmem]
  by_cases hall : s.AllOn h
  · have hcounter := (hinv.here h shared hshared hall).2
    rw [hcounter]
    have hfew := hinv.few
    constructor
    · rintro ⟨p, hp, hpc⟩ ⟨_, hlt⟩
      have := ofNat_inj (by omega) hlt hpc
      omega
    · intro hnot
      have hfull : s.publishers.length = 2 ^ 32 := by
        have hnlt : ¬ s.publishers.length < 2 ^ 32 := fun hlt => hnot ⟨hall, hlt⟩
        omega
      rw [hfull]
      exact ⟨0, by decide, by decide⟩
  · have hcounter := (hinv.elsewhere h shared hshared hall).2
    have hpos : 0 < s.publishers.length := by
      apply List.length_pos_of_ne_nil
      intro hnil
      exact hall (allOn_of_nil hnil h)
    constructor
    · intro _ hnot
      exact hall hnot.1
    · intro _
      exact ⟨0, hpos, hcounter.symm⟩

/-- A connected subscriber stays so while its links do. -/
theorem Connected.of_links {s s' : State} {u : Subscriber} (hu : s.Connected u)
    (hlinks : ∀ p, (s'.links p u).length = (s.links p u).length)
    (hchannels : ∀ (c : Nat) (ch : ZeroCopyChannel),
      s.channels[c]? = some ch → s'.channels[c]? = some ch) :
    s'.Connected u where
  publishers := hu.publishers
  links p := by rw [hlinks, hu.links]
  channels c hc := by
    obtain ⟨ch, hch, hstate⟩ := Option.map_eq_some_iff.mp (hu.channels c hc)
    rw [hchannels _ _ hch, Option.map_some, hstate]

/-- A connection is to a channel that exists. -/
theorem Connected.channel_lt {s : State} {u : Subscriber} (hu : s.Connected u)
    {c : SubscriberConnection} (hc : c ∈ u.connections) : c.channel < s.channels.length := by
  obtain ⟨ch, hch, _⟩ := Option.map_eq_some_iff.mp (hu.channels c hc)
  exact (List.getElem?_eq_some_iff.mp hch).1

/-! ## §8. What a step keeps. -/

theorem openHandle_cases (ron : Ron) (b : PubSubBuilder) (s : State) (how : Opening)
    (T : PayloadType) : ∃ files,
      s.openHandle ron b how T = { s with files := files, handles := s.handles ++ [.new T] }
        ∨ s.openHandle ron b how T = { s with files := files } := by
  unfold openHandle
  split
  next files _ => exact ⟨files, .inl rfl⟩
  next files _ => exact ⟨files, .inr rfl⟩

/-- A new handle lists no publisher, and no publisher is on it. -/
theorem Inv.openHandle {b : PubSubBuilder} {s : State} (hinv : Inv b s) (ron : Ron)
    (how : Opening) (T : PayloadType) : Inv b (s.openHandle ron b how T) := by
  obtain ⟨files, heq | heq⟩ := openHandle_cases ron b s how T
  · rw [heq]
    refine ⟨?_, ?_, ?_, hinv.names, hinv.few, hinv.fresh, hinv.earlier, ?_, hinv.succeed⟩
    · intro h shared hshared hall
      rcases concat_cases hshared with hold | ⟨rfl, rfl⟩
      · exact hinv.here h shared hold hall
      · -- nothing can be on the new handle
        have hnil : s.publishers = [] := by
          apply List.eq_nil_iff_forall_not_mem.mpr
          intro r hr
          have hlt := hinv.handle r hr
          have hon : r.handle = s.handles.length := hall r hr
          omega
        show [] = List.range s.publishers.length ∧ 0#32 = BitVec.ofNat 32 s.publishers.length
        rw [hnil]
        exact ⟨rfl, rfl⟩
    · intro h shared hshared hall
      rcases concat_cases hshared with hold | ⟨_, rfl⟩
      · exact hinv.elsewhere h shared hold hall
      · exact ⟨rfl, rfl⟩
    · intro r hr
      have := hinv.handle r hr
      simp only [List.length_append, List.length_singleton]
      omega
    · intro u hu
      exact (hinv.connected u hu).of_links (fun _ => rfl) (fun _ _ h => h)
  · rw [heq]
    exact ⟨hinv.here, hinv.elsewhere, hinv.handle, hinv.names, hinv.few, hinv.fresh, hinv.earlier,
      fun u hu => (hinv.connected u hu).of_links (fun _ => rfl) (fun _ _ h => h), hinv.succeed⟩

/-- A publisher without channels leads nowhere. -/
theorem links_addPublisher (s : State) (h : Nat) (shared : PubSubShared) (name : String)
    (segment : DataSegment) (p : Nat) (u : Subscriber) :
    ((s.addPublisher h shared name segment).links p u).length = (s.links p u).length := by
  unfold links
  exact concat_default
    (fun o : Option PublisherRegistration => List.length (match o with
      | some r => r.channels.filter (fun c => ⟨p, c⟩ ∈ u.connections)
      | none => []))
    rfl p

/-- **A new publisher** on the one handle. -/
theorem Inv.addPublisher {b : PubSubBuilder} {s : State} (hinv : Inv b s) {h : Nat}
    {shared : PubSubShared} (hshared : s.handles[h]? = some shared) (hall : s.AllOn h)
    (hlt : s.publishers.length < 2 ^ 32) (segment : DataSegment) :
    Inv b (s.addPublisher h shared (b.segName shared.publisherCounter) segment) := by
  obtain ⟨hwiring, hcounter⟩ := hinv.here h shared hshared hall
  have hbound := (List.getElem?_eq_some_iff.mp hshared).1
  constructor
  case here =>
    intro h' shared' hshared' hall'
    have hon : h = h' := hall' _ (List.mem_append_right _ (List.mem_singleton_self _))
    subst hon
    simp only [State.addPublisher, List.getElem?_set_self hbound, Option.some.injEq] at hshared'
    subst hshared'
    simp only [State.addPublisher, List.length_append, List.length_singleton, List.range_succ,
      hwiring, hcounter, BitVec.ofNat_add]
    exact ⟨trivial, rfl⟩
  case elsewhere =>
    intro h' shared' hshared' hall'
    have hne : h ≠ h' := by
      intro he
      apply hall'
      intro r hr
      rcases List.mem_append.mp hr with hold | hnew
      · rw [hall r hold, he]
      · rw [List.mem_singleton.mp hnew]
        exact he
    simp only [State.addPublisher, List.getElem?_set_ne hne] at hshared'
    by_cases hother : s.AllOn h'
    · have hnil := hall.nil_of_ne hother hne
      obtain ⟨hp, hc⟩ := hinv.here h' shared' hshared' hother
      rw [hp, hc, hnil]
      exact ⟨rfl, rfl⟩
    · exact hinv.elsewhere h' shared' hshared' hother
  case handle =>
    intro r hr
    simp only [State.addPublisher, List.length_set]
    rcases List.mem_append.mp hr with hold | hnew
    · exact hinv.handle r hold
    · rw [List.mem_singleton.mp hnew]
      exact hbound
  case names =>
    simp only [State.addPublisher, List.map_append, List.length_append, List.length_singleton,
      List.range_succ, hinv.names, hcounter, List.map_cons, List.map_nil]
  case few =>
    simp only [State.addPublisher, List.length_append, List.length_singleton]
    omega
  case fresh =>
    intro r hr
    rcases List.mem_append.mp hr with hold | hnew
    · exact hinv.fresh r hold
    · rw [List.mem_singleton.mp hnew]
      intro c hc
      exact absurd hc (by simp)
  case earlier =>
    intro u hu
    have := hinv.earlier u hu
    simp only [State.addPublisher, List.length_append, List.length_singleton]
    omega
  case connected =>
    intro u hu
    exact (hinv.connected u hu).of_links (fun p => links_addPublisher s h shared _ segment p u)
      (fun _ _ hc => hc)
  case succeed =>
    exact hinv.succeed

/-- Every publisher has one channel more, with a number of its own. -/
theorem links_mapIdx {s s' : State}
    (hpublishers : s'.publishers = s.publishers.mapIdx (fun p r =>
      { r with channels := r.channels ++ [s.channels.length + p] }))
    (p : Nat) (u : Subscriber) :
    (s'.links p u).length = (s.links p u).length
      + if p < s.publishers.length ∧ ⟨p, s.channels.length + p⟩ ∈ u.connections then 1 else 0 := by
  unfold links
  rw [hpublishers, List.getElem?_mapIdx]
  by_cases hp : p < s.publishers.length
  · rw [List.getElem?_eq_getElem hp]
    simp only [Option.map_some, List.filter_append, List.length_append, List.filter_singleton, hp,
      true_and]
    by_cases hmem : ⟨p, s.channels.length + p⟩ ∈ u.connections
    · simp [hmem]
    · simp [hmem]
  · rw [List.getElem?_eq_none (by omega)]
    simp [hp]

/-- The rest of a registration stays. -/
theorem map_mapIdx {α : Type} (f : PublisherRegistration → α)
    (hf : ∀ r cs, f { r with channels := cs } = f r) (publishers : List PublisherRegistration)
    (n : Nat) :
    (publishers.mapIdx (fun p r => { r with channels := r.channels ++ [n + p] })).map f
      = publishers.map f := by
  apply List.ext_getElem
  · simp
  · intro p h h'
    simp [hf]

/-- What `createSubscriber_all` gives the new subscriber. -/
theorem Inv.connected_new {b : PubSubBuilder} {s s' : State} (hinv : Inv b s)
    (hpublishers : s'.publishers = s.publishers.mapIdx (fun p r =>
      { r with channels := r.channels ++ [s.channels.length + p] }))
    (hchannels : s'.channels = s.channels ++ List.replicate s.publishers.length
      (ZeroCopyChannel.new b.qos.bufferSize).connect) :
    s'.Connected
      { connections := (List.range s.publishers.length).map (fun p => ⟨p, s.channels.length + p⟩)
        earlier := s.publishers.length } where
  publishers := by
    rw [List.map_map]
    exact List.map_id _
  links p := by
    have hold : s.links p
        { connections := (List.range s.publishers.length).map (fun p => ⟨p, s.channels.length + p⟩)
          earlier := s.publishers.length } = [] := by
      unfold links
      cases hr : s.publishers[p]? with
      | none => rfl
      | some r =>
          apply List.filter_eq_nil_iff.mpr
          intro c hc
          have hlt := hinv.fresh r (List.mem_of_getElem? hr) c hc
          simp only [List.mem_map, SubscriberConnection.mk.injEq, decide_eq_true_eq]
          rintro ⟨q, _, _, hq⟩
          omega
    rw [links_mapIdx hpublishers, hold]
    simp
  channels c hc := by
    obtain ⟨p, hp, rfl⟩ := List.mem_map.mp hc
    rw [hchannels, List.getElem?_append_right (by simp)]
    have hlt := List.mem_range.mp hp
    simp [hlt, ZeroCopyChannel.connect]

/-- **A new subscriber** on the one handle. -/
theorem Inv.createSubscriber {b : PubSubBuilder} {s : State} (hinv : Inv b s) {h : Nat}
    (hh : h < s.handles.length) (hall : s.AllOn h) :
    ∃ s', s.createSubscriber b h = some s' ∧ Inv b s' := by
  have hshared := List.getElem?_eq_getElem hh
  obtain ⟨s', hs', hhandles, hfailed, hpublishers, hchannels, hsubscribers⟩ :=
    createSubscriber_all (b := b) hshared (hinv.here h _ hshared hall).1
  have hlength : s'.publishers.length = s.publishers.length := by
    rw [hpublishers, List.length_mapIdx]
  have hmem : ∀ r' ∈ s'.publishers, ∃ p, ∃ r ∈ s.publishers, p < s.publishers.length
      ∧ r' = { r with channels := r.channels ++ [s.channels.length + p] } := by
    intro r' hr'
    rw [hpublishers] at hr'
    obtain ⟨p, hp, rfl⟩ := List.mem_mapIdx.mp hr'
    exact ⟨p, _, List.getElem_mem hp, hp, rfl⟩
  have hon : ∀ h', s'.AllOn h' ↔ s.AllOn h' := by
    intro h'
    have hmap := map_mapIdx (fun r => r.handle) (fun _ _ => rfl) s.publishers s.channels.length
    rw [← hpublishers] at hmap
    rw [allOn_iff_map, allOn_iff_map, hmap]
  refine ⟨s', hs', ?_⟩
  constructor
  case here =>
    intro h' shared' hshared' hall'
    rw [hhandles] at hshared'
    rw [hlength]
    exact hinv.here h' shared' hshared' ((hon h').mp hall')
  case elsewhere =>
    intro h' shared' hshared' hall'
    rw [hhandles] at hshared'
    exact hinv.elsewhere h' shared' hshared' (fun hold => hall' ((hon h').mpr hold))
  case handle =>
    intro r' hr'
    obtain ⟨p, r, hr, _, rfl⟩ := hmem r' hr'
    rw [hhandles]
    exact hinv.handle r hr
  case names =>
    rw [hlength, ← hinv.names, hpublishers]
    exact map_mapIdx _ (fun _ _ => rfl) _ _
  case few =>
    rw [hlength]
    exact hinv.few
  case fresh =>
    intro r' hr' c hc
    obtain ⟨p, r, hr, hp, rfl⟩ := hmem r' hr'
    rw [hchannels, List.length_append, List.length_replicate]
    rcases List.mem_append.mp hc with hold | hnew
    · have := hinv.fresh r hr c hold
      omega
    · rw [List.mem_singleton.mp hnew]
      omega
  case earlier =>
    intro u hu
    rw [hlength]
    rw [hsubscribers] at hu
    rcases List.mem_append.mp hu with hold | hnew
    · exact hinv.earlier u hold
    · rw [List.mem_singleton.mp hnew]
  case connected =>
    intro u hu
    rw [hsubscribers] at hu
    rcases List.mem_append.mp hu with hold | hnew
    · apply (hinv.connected u hold).of_links
      · intro p
        -- the new channel is not one of its connections
        have hnot : ⟨p, s.channels.length + p⟩ ∉ u.connections := by
          intro hc
          have hlt := (hinv.connected u hold).channel_lt hc
          simp only at hlt
          omega
        rw [links_mapIdx hpublishers, if_neg (fun hand => hnot hand.2), Nat.add_zero]
      · intro c ch hch
        rw [hchannels]
        exact append_of_some _ hch
    · rw [List.mem_singleton.mp hnew]
      exact hinv.connected_new hpublishers hchannels
  case succeed =>
    rw [hfailed]
    exact hinv.succeed

/-- **A step on the one handle** goes through, and keeps the invariant. -/
theorem Inv.step {b : PubSubBuilder} {s : State} (hinv : Inv b s) (ron : Ron) {a : Act}
    (hhandle : s.HasHandle a) (hone : oneHandle b s a) :
    ∃ s', step ron b s a = some s' ∧ Inv b s' := by
  cases a with
  | openHandle how T => exact ⟨_, rfl, hinv.openHandle ron how T⟩
  | createPublisher h =>
      obtain ⟨hall, hlt, hfits⟩ := hone
      have hshared : s.handles[h]? = some s.handles[h] := List.getElem?_eq_getElem hhandle
      obtain ⟨segment, hsegment⟩ := hfits.create hshared
      have hfree : ¬ _ := fun htaken => (hinv.name_taken_iff hshared).mp htaken ⟨hall, hlt⟩
      refine ⟨_, ?_, hinv.addPublisher hshared hall hlt segment⟩
      show s.createPublisher b h = _
      unfold State.createPublisher
      rw [hshared, Option.bind_some]
      simp only [hsegment, if_neg hfree, Option.map_some]
  | createSubscriber h => exact hinv.createSubscriber hhandle hone

/-- **Any other step** breaks the service or does not go through. -/
theorem Inv.oneHandle_of_step {b : PubSubBuilder} {s s' : State} (hinv : Inv b s) (ron : Ron)
    {a : Act} (hs : ServiceHandles.step ron b s a = some s') (hservice : s'.OneService) :
    oneHandle b s a := by
  cases a with
  | openHandle how T => trivial
  | createPublisher h =>
      change s.createPublisher b h = some s' at hs
      unfold State.createPublisher at hs
      obtain ⟨shared, hshared, hcreate⟩ := Option.bind_eq_some_iff.mp hs
      simp only at hcreate
      split at hcreate
      next htaken =>
        -- a failed creation is counted
        injection hcreate with hcreate
        have hfailed := hservice.succeed
        rw [← hcreate] at hfailed
        exact absurd hfailed (Nat.succ_ne_zero _)
      next hfree =>
        obtain ⟨segment, hsegment, _⟩ := Option.map_eq_some_iff.mp hcreate
        rw [hinv.name_taken_iff hshared, not_not] at hfree
        exact ⟨hfree.1, hfree.2, Fits.of_create hshared hsegment⟩
  | createSubscriber h =>
      change s.createSubscriber b h = some s' at hs
      cases hshared : s.handles[h]? with
      | none =>
          unfold State.createSubscriber at hs
          rw [hshared] at hs
          exact absurd hs (by simp)
      | some shared =>
          rw [createSubscriber_eq b hshared] at hs
          injection hs with hs
          rw [← hs] at hservice
          -- the connections of the new subscriber are to the wiring of the handle
          have hnew := (hservice.connected _
            (List.mem_append_right _ (List.mem_singleton_self _))).publishers
          simp only at hnew
          rw [connectAll_connections] at hnew
          by_contra hall
          rw [(hinv.elsewhere h shared hshared hall).1] at hnew
          have hlength := congrArg List.length hnew
          rw [List.length_range] at hlength
          exact hall (allOn_of_nil (List.eq_nil_of_length_eq_zero hlength.symm) h)

/-- Only handles that exist are used. -/
theorem hasHandle_of_step {ron : Ron} {b : PubSubBuilder} {s s' : State} {a : Act}
    (hs : step ron b s a = some s') : s.HasHandle a := by
  cases a with
  | openHandle how T => trivial
  | createPublisher h =>
      obtain ⟨shared, hshared, _⟩ := Option.bind_eq_some_iff.mp hs
      exact (List.getElem?_eq_some_iff.mp hshared).1
  | createSubscriber h =>
      obtain ⟨shared, hshared, _⟩ := Option.map_eq_some_iff.mp hs
      exact (List.getElem?_eq_some_iff.mp hshared).1

end State

/-! ## §9. Runs on one handle. -/

/-- **When all handles of a service act as one**: in the runs that create ports
on one handle only. -/
theorem handles_act_as_one (ron : Ron) (b : PubSubBuilder) (files : Files) {s : State}
    (h : Reach (step ron b) (oneHandle b) (init files) s) :
    s.OneService ∧ ∀ a, s.HasHandle a →
      ((∃ s', step ron b s a = some s' ∧ s'.OneService) ↔ oneHandle b s a) := by
  have hinv : s.Inv b := by
    apply h.invariant (State.Inv b) (State.inv_init b files)
    intro s a s' hinv hone hs
    obtain ⟨s'', hs'', hinv''⟩ := hinv.step ron (State.hasHandle_of_step hs) hone
    rw [hs] at hs''
    injection hs'' with hs''
    rw [hs'']
    exact hinv''
  refine ⟨hinv.oneService, ?_⟩
  intro a hhandle
  constructor
  · rintro ⟨s', hs', hservice⟩
    exact hinv.oneHandle_of_step ron hs' hservice
  · intro hone
    obtain ⟨s', hs', hinv'⟩ := hinv.step ron hhandle hone
    exact ⟨s', hs', hinv'.oneService⟩

/-- A run with two handles, where the ports are on the second. -/
theorem handles_act_as_one_second :
    ∃ s : State, s.handles.length = 2 ∧ s.publishers.length = 2
      ∧ s.subscribers.map (fun u => u.earlier) = [1, 2]
      ∧ s.OneService ∧ ∀ a, s.HasHandle a →
        ((∃ s', step tempRon tempBuilder s a = some s' ∧ s'.OneService)
          ↔ oneHandle tempBuilder s a) := by
  have hrun : (execOk (step tempRon tempBuilder) (oneHandle tempBuilder) (init (fun _ => none))
      [.openHandle .create u64Type, .openHandle .openExisting u64Type, .createPublisher 1,
        .createSubscriber 1, .createPublisher 1, .createSubscriber 1]).map
        (fun s => (s.handles.length, s.publishers.length, s.subscribers.map (fun u => u.earlier)))
      = some (2, 2, [1, 2]) := by
    decide
  obtain ⟨s, hs, hfields⟩ := Option.map_eq_some_iff.mp hrun
  simp only [Prod.mk.injEq] at hfields
  obtain ⟨hhandles, hpublishers, hsubscribers⟩ := hfields
  exact ⟨s, hhandles, hpublishers, hsubscribers,
    handles_act_as_one tempRon tempBuilder (fun _ => none) (Reach.of_execOk _ .refl hs)⟩

end Entangle.PubSub.ServiceHandles
