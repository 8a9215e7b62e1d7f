/-
  Entangle.Transport.SegmentManager — a pool that grows by whole segments
  (segment_mgr.rs of entangle-transport, over data_segment.rs, pool_alloc.rs and
  the `create` of entangle-platform/src/shm.rs).

  When every segment is used up, `allocate` creates one more.  Its id is the
  number of segments cast to `u16`, and goes into every `PointerOffset` it hands
  out; `deallocate` and `resolve_ptr` use the id as a position in the list.  With
  65536 segments the cast would wrap to 0, and what keeps a second segment 0
  away is that its name is the name of a shared memory that still exists.

  Not in the source: the position of the segment that gave a chunk (kept by
  `allocateAt`, dropped by `allocate`), and the list of live offsets.

  Main results:
    * `Inv.step` — every step keeps the invariant;
    * `segments_apart` — ids are positions, live offsets are distinct and lead to
      the chunk they were allocated for, and a failed `allocate` changes nothing.
-/
import Entangle.Lib.Tables
import Entangle.Lib.Transition
import Entangle.Transport.DataSegment

namespace Entangle.Transport

open Entangle.Lib Entangle.Lockfree

/-! ## §1. The manager. -/

/-- A data segment with the name of the shared memory it owns. -/
structure NamedSegment where
  name : String
  data : DataSegment

/-- `SegmentManager`: the segments it has made, in order, and what the next one is made
with. -/
structure SegmentManager where
  segments : List NamedSegment
  namePrefix : String
  chunkSize : Nat
  chunksPerSegment : Nat

namespace SegmentManager

/-- `format!("{}_seg_{seg_id}", self.name_prefix)`. -/
def segName (namePrefix : String) (segId : U16) : String := s!"{namePrefix}_seg_{segId.toNat}"

/-- `SegmentManager::create`; `none` where the initial segment cannot be created. -/
def create (namePrefix : String) (chunkSize chunksPerSegment : Nat) : Option SegmentManager :=
  (DataSegment.create chunkSize chunksPerSegment 0#16).map (fun initial =>
    { segments := [⟨segName namePrefix 0#16, initial⟩]
      namePrefix := namePrefix
      chunkSize := chunkSize
      chunksPerSegment := chunksPerSegment })

/-- The loop of `allocate` over the existing segments: the first that has a
chunk gives it.  `none` where a segment panics. -/
def tryExisting : List NamedSegment → Option (Option (Nat × PointerOffset) × List NamedSegment)
  | [] => some (none, [])
  | seg :: rest =>
      match seg.data.allocate with
      | none => none
      | some (.ok offset, data) => some (some (0, offset), { seg with data := data } :: rest)
      | some (.error _, data) =>
          (tryExisting rest).map (fun r =>
            (r.1.map (fun found => (found.1 + 1, found.2)), { seg with data := data } :: r.2))

/-- `allocate`, with the position of the segment that gave the chunk.
`SharedMemory::create` fails if one of the segments has the name, and for any
other reason if `fails`.  `none` where a slice access or an assertion panics. -/
def allocateAt (m : SegmentManager) (fails : Bool) :
    Option (Except LoanError (Nat × PointerOffset) × SegmentManager) :=
  match tryExisting m.segments with
  | none => none
  | some (some r, segments) => some (.ok r, { m with segments := segments })
  | some (none, segments) =>
      let segId := BitVec.ofNat 16 segments.length
      let name := segName m.namePrefix segId
      if segments.any (fun seg => seg.name == name) || fails then
        some (.error .outOfMemory, { m with segments := segments })
      else
        match DataSegment.create m.chunkSize m.chunksPerSegment segId with
        | none => none
        | some newSeg =>
            match newSeg.allocate with
            | none => none
            | some (.error e, _) => some (.error e, { m with segments := segments })
            | some (.ok offset, data) =>
                some (.ok (segments.length, offset),
                  { m with segments := segments ++ [⟨name, data⟩] })

/-- `SegmentManager::allocate`. -/
def allocate (m : SegmentManager) (fails : Bool) :
    Option (Except LoanError PointerOffset × SegmentManager) :=
  (m.allocateAt fails).map (fun r => (r.1.map Prod.snd, r.2))

/-- `SegmentManager::deallocate`; `none` where the segment panics. -/
def deallocate (m : SegmentManager) (offset : PointerOffset) : Option SegmentManager :=
  let segId := offset.segmentId.toNat
  match m.segments[segId]? with
  | some seg =>
      (seg.data.deallocate offset).map (fun data =>
        { m with segments := m.segments.set segId { seg with data := data } })
  | none => some m

/-- `SegmentManager::resolve_ptr`, `resolve_ref` and `resolve_mut`: the position
of the segment and the byte in it; `none` where the slice access panics. -/
def resolvePtr (m : SegmentManager) (offset : PointerOffset) : Option (Nat × Nat) :=
  let segId := offset.segmentId.toNat
  (m.segments[segId]?).map (fun _ => (segId, offset.offset))

end SegmentManager

/-! ## §2. Runs. -/

namespace SegmentSteps

/-- An offset that is allocated, and the position of the segment it is from. -/
structure Live where
  offset : PointerOffset
  home : Nat
  deriving Repr, DecidableEq

/-- The manager, and the offsets it has given out. -/
structure State where
  manager : SegmentManager
  live : List Live

inductive Act where
  | allocate (fails : Bool)
  | deallocate (o : Live)
  deriving Repr, DecidableEq

/-- One call; only live offsets are given to `deallocate`. -/
def step (s : State) : Act → Option State
  | .allocate fails =>
      (s.manager.allocateAt fails).map (fun r =>
        match r.1 with
        | .ok (home, offset) => { manager := r.2, live := ⟨offset, home⟩ :: s.live }
        | .error _ => { s with manager := r.2 })
  | .deallocate o =>
      if o ∈ s.live then
        (s.manager.deallocate o.offset).map (fun m => { manager := m, live := s.live.erase o })
      else none

def init (m : SegmentManager) : State := { manager := m, live := [] }

/-! ## §3. The invariant. -/

/-- What holds of the segment at position `k`. -/
structure SegmentOk (m : SegmentManager) (k : Nat) (seg : NamedSegment) : Prop where
  name : seg.name = SegmentManager.segName m.namePrefix (BitVec.ofNat 16 k)
  id : seg.data.layout.segmentId = BitVec.ofNat 16 k
  chunkSize : seg.data.layout.chunkSize = DataSegment.aligned m.chunkSize
  free : ∃ l, seg.data.Free l

/-- The offset is that of the allocated chunk `c` of the segment at its home. -/
structure Routed (m : SegmentManager) (o : Live) (seg : NamedSegment) (c : U32) : Prop where
  home : m.segments[o.home]? = some seg
  chunk : o.offset = seg.data.layout.chunk c
  lt : c.toNat < seg.data.layout.chunkCount
  taken : ¬ seg.data.OnFreeChain c

/-- **The invariant.**  Segment number `k` has the id and the name of `k`; a live offset
leads by its id to the segment it was allocated from, and no two are the same. -/
structure Inv (s : State) : Prop where
  nonempty : 0 < s.manager.segments.length
  -- the u16 id never wraps
  length_le : s.manager.segments.length ≤ 2 ^ 16
  creatable : ∀ id, ∃ seg,
    DataSegment.create s.manager.chunkSize s.manager.chunksPerSegment id = some seg
  segments : ∀ k seg, s.manager.segments[k]? = some seg → SegmentOk s.manager k seg
  routed : ∀ o ∈ s.live, ∃ seg c, Routed s.manager o seg c
  nodup : (s.live.map Live.offset).Nodup

/-! ## §4. The loop over the existing segments. -/

/-- Either every segment is used up and nothing changes, or the segment at one
position gives its first free chunk. -/
theorem tryExisting_cases {segs : List NamedSegment}
    (hfree : ∀ seg ∈ segs, ∃ l, seg.data.Free l) :
    (SegmentManager.tryExisting segs = some (none, segs)) ∨
    ∃ (k : Nat) (seg : NamedSegment) (data : DataSegment) (i : U32) (rest : List U32),
      segs[k]? = some seg ∧ seg.data.Free (i :: rest) ∧ data.Free rest
        ∧ data.layout = seg.data.layout
        ∧ SegmentManager.tryExisting segs
          = some (some (k, seg.data.layout.chunk i), segs.set k { seg with data := data }) := by
  induction segs with
  | nil => exact .inl rfl
  | cons seg segs ih =>
      obtain ⟨l, hl⟩ := hfree seg List.mem_cons_self
      cases l with
      | cons i rest =>
          obtain ⟨data, halloc, hdata, hlayout, _, _⟩ := DataSegment.allocate_ok hl
          refine .inr ⟨0, seg, data, i, rest, rfl, hl, hdata, hlayout, ?_⟩
          unfold SegmentManager.tryExisting
          rw [halloc]
          rfl
      | nil =>
          have hfull := DataSegment.allocate_err hl
          rcases ih (fun s hs => hfree s (List.mem_cons_of_mem _ hs)) with
            hnone | ⟨k, seg', data, i, rest, hk, hseg', hdata, hlayout, hsome⟩
          · left
            unfold SegmentManager.tryExisting
            rw [hfull]
            show Option.map _ (SegmentManager.tryExisting segs) = _
            rw [hnone]
            rfl
          · refine .inr ⟨k + 1, seg', data, i, rest, hk, hseg', hdata, hlayout, ?_⟩
            unfold SegmentManager.tryExisting
            rw [hfull]
            show Option.map _ (SegmentManager.tryExisting segs) = _
            rw [hsome]
            rfl

/-! ## §5. Offsets and their segments. -/

/-- The conditions of `create` do not depend on the id. -/
theorem create_layout {chunkSize chunkCount : Nat} {id : U16} {seg : DataSegment}
    (h : DataSegment.create chunkSize chunkCount id = some seg) :
    seg.layout.segmentId = id ∧ 0 < chunkCount
      ∧ ∀ id', ∃ seg', DataSegment.create chunkSize chunkCount id' = some seg' := by
  unfold DataSegment.create at h
  split at h
  next hok =>
    injection h with h
    subst h
    refine ⟨rfl, hok.1.1, ?_⟩
    intro id'
    unfold DataSegment.create
    rw [dif_pos hok]
    exact ⟨_, rfl⟩
  next => exact absurd h (by simp)

theorem Inv.free {s : State} (hinv : Inv s) :
    ∀ seg ∈ s.manager.segments, ∃ l, seg.data.Free l := by
  intro seg hseg
  obtain ⟨k, hk⟩ := List.getElem?_of_mem hseg
  exact (hinv.segments k seg hk).free

/-- The id in a live offset is the position of its segment. -/
theorem Inv.segmentId_eq_home {s : State} (hinv : Inv s) {o : Live} {seg : NamedSegment} {c : U32}
    (hr : Routed s.manager o seg c) : o.offset.segmentId.toNat = o.home := by
  have hlen := hinv.length_le
  have hlt : o.home < s.manager.segments.length := (List.getElem?_eq_some_iff.mp hr.home).1
  rw [hr.chunk]
  unfold Layout.chunk
  rw [PointerOffset.segmentId_new, (hinv.segments _ _ hr.home).id, BitVec.toNat_ofNat]
  omega

/-- Replacing one segment by one with the same layout, on whose free chain the
chunk is not. -/
theorem Routed.set {m : SegmentManager} {o : Live} {seg seg₀ : NamedSegment} {c : U32}
    {k : Nat} (hr : Routed m o seg c) (data : DataSegment) (hk : m.segments[k]? = some seg₀)
    (hlayout : data.layout = seg₀.data.layout) (htaken : o.home = k → ¬ data.OnFreeChain c) :
    ∃ seg', Routed { m with segments := m.segments.set k { seg₀ with data := data } } o seg' c := by
  rcases set_of_some { seg₀ with data := data } hk hr.home with ⟨he, rfl, hset⟩ | ⟨_, hset⟩
  · refine ⟨_, hset, ?_, ?_, htaken he⟩
    · rw [hr.chunk, hlayout]
    · rw [hlayout]
      exact hr.lt
  · exact ⟨seg, hset, hr.chunk, hr.lt, hr.taken⟩

/-- What holds of the segments when one is replaced by one with the same layout. -/
theorem segments_set {m m' : SegmentManager} {k : Nat} {seg₀ : NamedSegment} {data : DataSegment}
    (hsegs : ∀ j seg, m.segments[j]? = some seg → SegmentOk m j seg)
    (hk : m.segments[k]? = some seg₀)
    (hm : m' = { m with segments := m.segments.set k { seg₀ with data := data } })
    (hlayout : data.layout = seg₀.data.layout) (hfree : ∃ l, data.Free l) :
    ∀ j seg, m'.segments[j]? = some seg → SegmentOk m' j seg := by
  intro j seg hj
  subst hm
  rcases set_cases hj with ⟨rfl, rfl⟩ | ⟨_, hold⟩
  · have hok := hsegs j seg₀ hk
    constructor
    · exact hok.name
    · rw [← hok.id, ← hlayout]
    · rw [← hok.chunkSize, ← hlayout]
    · exact hfree
  · have hok := hsegs j seg hold
    exact ⟨hok.name, hok.id, hok.chunkSize, hok.free⟩

/-! ## §6. What an allocation can do. -/

/-- The three outcomes of `allocate`: a chunk of an existing segment, an error
that changes nothing, a chunk of a new segment whose id is not yet taken. -/
inductive Allocates (m : SegmentManager) :
    Except LoanError (Nat × PointerOffset) × SegmentManager → Prop
  | existing (k : Nat) (seg : NamedSegment) (data : DataSegment) (i : U32) (rest : List U32) :
      m.segments[k]? = some seg → seg.data.Free (i :: rest) → data.Free rest →
      data.layout = seg.data.layout →
      Allocates m (.ok (k, seg.data.layout.chunk i),
        { m with segments := m.segments.set k { seg with data := data } })
  | failed : Allocates m (.error .outOfMemory, m)
  | expanded (data : DataSegment) (i : U32) (rest : List U32) :
      m.segments.length < 2 ^ 16 →
      data.layout.segmentId = BitVec.ofNat 16 m.segments.length →
      data.layout.chunkSize = DataSegment.aligned m.chunkSize →
      data.Free rest → i.toNat < data.layout.chunkCount → i ∉ rest →
      Allocates m (.ok (m.segments.length, data.layout.chunk i),
        { m with segments := m.segments ++
          [⟨SegmentManager.segName m.namePrefix (BitVec.ofNat 16 m.segments.length), data⟩] })

/-- At 65536 segments the name of the next one is that of segment 0. -/
theorem Inv.name_taken {s : State} (hinv : Inv s) (hfull : s.manager.segments.length = 2 ^ 16) :
    s.manager.segments.any (fun seg => seg.name ==
      SegmentManager.segName s.manager.namePrefix
        (BitVec.ofNat 16 s.manager.segments.length)) = true := by
  obtain ⟨seg, hseg⟩ : ∃ seg, s.manager.segments[0]? = some seg :=
    ⟨_, List.getElem?_eq_getElem hinv.nonempty⟩
  have hwrap : BitVec.ofNat 16 s.manager.segments.length = BitVec.ofNat 16 0 := by
    rw [hfull]
    rfl
  rw [List.any_eq_true]
  refine ⟨seg, List.mem_of_getElem? hseg, ?_⟩
  rw [hwrap, (hinv.segments 0 seg hseg).name]
  exact beq_self_eq_true _

/-- **`allocate` by its outcomes**: it never panics. -/
theorem Inv.allocates {s : State} (hinv : Inv s) (fails : Bool) :
    ∃ r, s.manager.allocateAt fails = some r ∧ Allocates s.manager r := by
  unfold SegmentManager.allocateAt
  rcases tryExisting_cases hinv.free with
    hnone | ⟨k, seg, data, i, rest, hk, hseg, hdata, hlayout, hsome⟩
  · rw [hnone]
    simp only
    split
    next => exact ⟨_, rfl, .failed⟩
    next hfree =>
      have hlt : s.manager.segments.length < 2 ^ 16 := by
        have hle := hinv.length_le
        have hne : s.manager.segments.length ≠ 2 ^ 16 := by
          intro hfull
          apply hfree
          rw [hinv.name_taken hfull]
          rfl
        omega
      obtain ⟨newSeg, hnew⟩ := hinv.creatable (BitVec.ofNat 16 s.manager.segments.length)
      obtain ⟨hid, hpos, _⟩ := create_layout hnew
      obtain ⟨hall, hcount, hsize⟩ := DataSegment.create_free hnew
      -- a new segment has a first free chunk
      obtain ⟨i, rest, hlist⟩ :
          ∃ i rest, (List.range s.manager.chunksPerSegment).map (BitVec.ofNat 32) = i :: rest := by
        cases hl : (List.range s.manager.chunksPerSegment).map (BitVec.ofNat 32) with
        | nil =>
            have hlen := congrArg List.length hl
            rw [List.length_map, List.length_range, List.length_nil] at hlen
            omega
        | cons i rest => exact ⟨i, rest, rfl⟩
      rw [hlist] at hall
      obtain ⟨data, halloc, hdata, hlayout, _, _⟩ := DataSegment.allocate_ok hall
      rw [hnew]
      simp only [halloc]
      refine ⟨_, rfl, ?_⟩
      rw [← hlayout]
      apply Allocates.expanded data i rest hlt
      · rw [hlayout]
        exact hid
      · rw [hlayout]
        exact hsize
      · exact hdata
      · rw [hlayout]
        exact hall.lt List.mem_cons_self
      · exact (List.nodup_cons.mp hall.list.nodup).1
  · rw [hsome]
    exact ⟨_, rfl, .existing k seg data i rest hk hseg hdata hlayout⟩

/-! ## §7. Every step keeps the invariant. -/

/-- An allocation from the segment at position `k`. -/
theorem Inv.existing {s : State} (hinv : Inv s) {k : Nat} {seg : NamedSegment}
    {data : DataSegment} {i : U32} {rest : List U32} (hk : s.manager.segments[k]? = some seg)
    (hseg : seg.data.Free (i :: rest)) (hdata : data.Free rest)
    (hlayout : data.layout = seg.data.layout) :
    Inv { manager :=
            { s.manager with segments := s.manager.segments.set k { seg with data := data } }
          live := ⟨seg.data.layout.chunk i, k⟩ :: s.live } := by
  have hlt : k < s.manager.segments.length := (List.getElem?_eq_some_iff.mp hk).1
  have hchain : ∀ c, data.OnFreeChain c → seg.data.OnFreeChain c := by
    intro c hc
    rw [hseg.onFreeChain_iff]
    exact List.mem_cons_of_mem _ ((hdata.onFreeChain_iff c).mp hc)
  constructor
  · show 0 < (s.manager.segments.set k _).length
    rw [List.length_set]
    exact hinv.nonempty
  · show (s.manager.segments.set k _).length ≤ 2 ^ 16
    rw [List.length_set]
    exact hinv.length_le
  · exact hinv.creatable
  · exact segments_set hinv.segments hk rfl hlayout ⟨rest, hdata⟩
  · intro o ho
    rcases List.mem_cons.mp ho with rfl | ho
    · -- the new offset
      refine ⟨{ seg with data := data }, i, ?_, ?_, ?_, ?_⟩
      · exact List.getElem?_set_self hlt
      · rw [hlayout]
      · rw [hlayout]
        exact hseg.lt List.mem_cons_self
      · rw [hdata.onFreeChain_iff]
        exact (List.nodup_cons.mp hseg.list.nodup).1
    · obtain ⟨seg', c, hr⟩ := hinv.routed o ho
      have htaken : o.home = k → ¬ data.OnFreeChain c := by
        intro he hc
        have hhome := hr.home
        rw [he, hk] at hhome
        obtain rfl : seg = seg' := Option.some.inj hhome
        exact hr.taken (hchain c hc)
      obtain ⟨seg'', hr''⟩ := hr.set data hk hlayout htaken
      exact ⟨seg'', c, hr''⟩
  · show (seg.data.layout.chunk i :: s.live.map Live.offset).Nodup
    apply List.nodup_cons.mpr ⟨?_, hinv.nodup⟩
    intro hmem
    obtain ⟨o, ho, heq⟩ := List.mem_map.mp hmem
    obtain ⟨seg', c, hr⟩ := hinv.routed o ho
    -- an offset of the same segment is not the first free chunk; others have another id
    have hhome : o.home = k := by
      have hid := hinv.segmentId_eq_home hr
      have hlen := hinv.length_le
      rw [heq] at hid
      unfold Layout.chunk at hid
      rw [PointerOffset.segmentId_new, (hinv.segments k seg hk).id, BitVec.toNat_ofNat] at hid
      omega
    have hseg' := hr.home
    rw [hhome, hk] at hseg'
    obtain rfl : seg = seg' := Option.some.inj hseg'
    have hc : c = i := by
      apply seg.data.layout.chunk_inj hr.lt (hseg.lt List.mem_cons_self)
      rw [← hr.chunk, heq]
    apply hr.taken
    rw [hseg.onFreeChain_iff, hc]
    exact List.mem_cons_self

/-- An allocation that brings a new segment. -/
theorem Inv.expanded {s : State} (hinv : Inv s) {data : DataSegment} {i : U32} {rest : List U32}
    (hlen : s.manager.segments.length < 2 ^ 16)
    (hid : data.layout.segmentId = BitVec.ofNat 16 s.manager.segments.length)
    (hsize : data.layout.chunkSize = DataSegment.aligned s.manager.chunkSize)
    (hdata : data.Free rest) (hi : i.toNat < data.layout.chunkCount) (hrest : i ∉ rest) :
    Inv { manager := { s.manager with segments := s.manager.segments ++
            [⟨SegmentManager.segName s.manager.namePrefix
              (BitVec.ofNat 16 s.manager.segments.length), data⟩] }
          live := ⟨data.layout.chunk i, s.manager.segments.length⟩ :: s.live } := by
  constructor
  · show 0 < (s.manager.segments ++ [_]).length
    rw [List.length_append]
    exact Nat.lt_add_left _ Nat.one_pos
  · show (s.manager.segments ++ [_]).length ≤ 2 ^ 16
    rw [List.length_append]
    exact hlen
  · exact hinv.creatable
  · intro k seg hk
    rcases concat_cases hk with hold | ⟨rfl, rfl⟩
    · have hok := hinv.segments k seg hold
      exact ⟨hok.name, hok.id, hok.chunkSize, hok.free⟩
    · exact ⟨rfl, hid, hsize, ⟨rest, hdata⟩⟩
  · intro o ho
    rcases List.mem_cons.mp ho with rfl | ho
    · refine ⟨_, i, List.getElem?_concat_length, rfl, hi, ?_⟩
      rw [hdata.onFreeChain_iff]
      exact hrest
    · obtain ⟨seg, c, hr⟩ := hinv.routed o ho
      exact ⟨seg, c, append_of_some _ hr.home, hr.chunk, hr.lt, hr.taken⟩
  · show (data.layout.chunk i :: s.live.map Live.offset).Nodup
    apply List.nodup_cons.mpr ⟨?_, hinv.nodup⟩
    intro hmem
    obtain ⟨o, ho, heq⟩ := List.mem_map.mp hmem
    obtain ⟨seg, c, hr⟩ := hinv.routed o ho
    have hlt : o.home < s.manager.segments.length := (List.getElem?_eq_some_iff.mp hr.home).1
    -- every older offset has an older id
    have hhome := hinv.segmentId_eq_home hr
    rw [heq] at hhome
    unfold Layout.chunk at hhome
    rw [PointerOffset.segmentId_new, hid, BitVec.toNat_ofNat] at hhome
    omega

/-- The offset is given back: its chunk `c` is free again, and nothing else has
changed. -/
structure Returns (m m' : SegmentManager) (o : Live) (seg : NamedSegment) (c : U32)
    (data : DataSegment) : Prop where
  call : m.deallocate o.offset = some m'
  manager : m' = { m with segments := m.segments.set o.home { seg with data := data } }
  layout : data.layout = seg.data.layout
  memory : data.memory = seg.data.memory
  chain : ∀ i, data.OnFreeChain i ↔ i = c ∨ seg.data.OnFreeChain i

/-- **`deallocate` by its outcome**: the chunk goes back to its own segment. -/
theorem Inv.returns {s : State} (hinv : Inv s) {o : Live} {seg : NamedSegment} {c : U32}
    (hr : Routed s.manager o seg c) :
    ∃ m' data, Returns s.manager m' o seg c data ∧ ∃ l, data.Free l := by
  obtain ⟨l, hl⟩ := (hinv.segments _ _ hr.home).free
  have hc : c ∉ l := by
    intro hmem
    exact hr.taken ((hl.onFreeChain_iff c).mpr hmem)
  obtain ⟨data, hdealloc, hdata, hlayout, hmemory, _⟩ := DataSegment.deallocate_ok hl hr.lt hc
  refine ⟨{ s.manager with segments := s.manager.segments.set o.home { seg with data := data } },
    data, ⟨?_, rfl, hlayout, hmemory, ?_⟩, c :: l, hdata⟩
  · unfold SegmentManager.deallocate
    simp only
    rw [hinv.segmentId_eq_home hr, hr.home, hr.chunk]
    show Option.map _ (seg.data.deallocate (seg.data.layout.chunk c)) = _
    rw [hdealloc]
    rfl
  · intro i
    rw [hdata.onFreeChain_iff, hl.onFreeChain_iff, List.mem_cons]

/-- A live offset is given back. -/
theorem Inv.deallocated {s : State} (hinv : Inv s) {o : Live} (ho : o ∈ s.live)
    {seg : NamedSegment} {c : U32} (hr : Routed s.manager o seg c) {m' : SegmentManager}
    {data : DataSegment} (hret : Returns s.manager m' o seg c data) (hfree : ∃ l, data.Free l) :
    Inv { manager := m', live := s.live.erase o } := by
  have hlive : s.live.Nodup := hinv.nodup.of_map _
  have hm := hret.manager
  constructor
  · show 0 < m'.segments.length
    rw [hm, List.length_set]
    exact hinv.nonempty
  · show m'.segments.length ≤ 2 ^ 16
    rw [hm, List.length_set]
    exact hinv.length_le
  · show ∀ id, ∃ seg, DataSegment.create m'.chunkSize m'.chunksPerSegment id = some seg
    rw [hm]
    exact hinv.creatable
  · exact segments_set hinv.segments hr.home hm hret.layout hfree
  · intro o' ho'
    obtain ⟨hne, ho'⟩ := hlive.mem_erase_iff.mp ho'
    obtain ⟨seg', c', hr'⟩ := hinv.routed o' ho'
    -- another offset of the same segment is another chunk
    have htaken : o'.home = o.home → ¬ data.OnFreeChain c' := by
      intro he hc
      have hhome := hr'.home
      rw [he, hr.home] at hhome
      obtain rfl : seg = seg' := Option.some.inj hhome
      rcases (hret.chain c').mp hc with rfl | hold
      · apply hne
        apply List.inj_on_of_nodup_map hinv.nodup ho' ho
        rw [hr.chunk, hr'.chunk]
      · exact hr'.taken hold
    obtain ⟨seg'', hr''⟩ := hr'.set data hr.home hret.layout htaken
    rw [← hm] at hr''
    exact ⟨seg'', c', hr''⟩
  · exact hinv.nodup.sublist (List.erase_sublist.map _)

/-- **The step lemma.** -/
theorem Inv.step {s s' : State} {a : Act} (hinv : Inv s) (hs : step s a = some s') : Inv s' := by
  cases a with
  | allocate fails =>
      obtain ⟨r, hr, houtcome⟩ := hinv.allocates fails
      unfold SegmentSteps.step at hs
      simp only [hr, Option.map_some, Option.some.injEq] at hs
      subst hs
      cases houtcome with
      | existing k seg data i rest hk hseg hdata hlayout =>
          exact hinv.existing hk hseg hdata hlayout
      | failed => exact hinv
      | expanded data i rest hlen hid hsize hdata hi hrest =>
          exact hinv.expanded hlen hid hsize hdata hi hrest
  | deallocate o =>
      unfold SegmentSteps.step at hs
      simp only at hs
      split at hs
      next ho =>
        obtain ⟨seg, c, hr⟩ := hinv.routed o ho
        obtain ⟨m', data, hret, hfree⟩ := hinv.returns hr
        rw [hret.call] at hs
        injection hs with hs
        subst hs
        exact hinv.deallocated ho hr hret hfree
      next => exact absurd hs (by simp)

/-! ## §8. Every run. -/

/-- A new manager. -/
theorem inv_init {namePrefix : String} {chunkSize chunksPerSegment : Nat} {m : SegmentManager}
    (h : SegmentManager.create namePrefix chunkSize chunksPerSegment = some m) : Inv (init m) := by
  obtain ⟨initial, hcreate, rfl⟩ := Option.map_eq_some_iff.mp h
  obtain ⟨hid, _, hagain⟩ := create_layout hcreate
  obtain ⟨hfree, _, hsize⟩ := DataSegment.create_free hcreate
  constructor
  · exact Nat.one_pos
  · show 1 ≤ 2 ^ 16
    omega
  · exact hagain
  · intro k seg hk
    cases k with
    | zero =>
        obtain rfl : _ = seg := Option.some.inj hk
        exact ⟨rfl, hid, hsize, ⟨_, hfree⟩⟩
    | succ k => exact absurd hk (by simp [init])
  · intro o ho
    exact absurd ho (by simp [init])
  · exact List.nodup_nil

/-- **Segments are kept apart.**  Whatever calls are made on a manager, and
however often it grows: the segment at position `i` has the id `i` and there are
at most `2 ^ 16` of them; live offsets differ as 64-bit values; a live offset
resolves to the bytes of a chunk that is not free, in the segment that gave it,
and `deallocate` frees that chunk and changes nothing else; the bytes of two
live offsets do not overlap; and `allocate` does not panic and, where it fails,
changes nothing. -/
theorem segments_apart (namePrefix : String) (chunkSize chunksPerSegment : Nat)
    (m : SegmentManager) (s : State)
    (hcreate : SegmentManager.create namePrefix chunkSize chunksPerSegment = some m)
    (h : Reach step anyStep (init m) s) :
    s.manager.segments.length ≤ 2 ^ 16
      ∧ (∀ (i : Nat) (seg : NamedSegment), s.manager.segments[i]? = some seg →
          seg.data.layout.segmentId.toNat = i)
      ∧ (s.live.map (fun o => o.offset.raw)).Nodup
      ∧ (∀ o ∈ s.live, ∃ (seg : NamedSegment) (c : U32), Routed s.manager o seg c
          ∧ s.manager.resolvePtr o.offset = some (o.home, (seg.data.layout.chunk c).offset)
          ∧ ∃ m' data, Returns s.manager m' o seg c data)
      ∧ (∀ a ∈ s.live, ∀ b ∈ s.live, a ≠ b → a.home ≠ b.home
          ∨ a.offset.offset + DataSegment.aligned s.manager.chunkSize ≤ b.offset.offset
          ∨ b.offset.offset + DataSegment.aligned s.manager.chunkSize ≤ a.offset.offset)
      ∧ (∀ fails, s.manager.allocate fails ≠ none)
      ∧ (∀ fails e m', s.manager.allocate fails = some (.error e, m') → m' = s.manager) := by
  have hinv : Inv s := h.invariant Inv (inv_init hcreate) (fun _ _ _ hi _ hs => hi.step hs)
  refine ⟨hinv.length_le, ?_, ?_, ?_, ?_, ?_, ?_⟩
  · intro i seg hi
    have hlt : i < s.manager.segments.length := (List.getElem?_eq_some_iff.mp hi).1
    have hlen := hinv.length_le
    rw [(hinv.segments i seg hi).id, BitVec.toNat_ofNat]
    omega
  · have hraw : s.live.map (fun o => o.offset.raw)
        = (s.live.map Live.offset).map PointerOffset.raw := by
      rw [List.map_map]
      rfl
    rw [hraw]
    apply hinv.nodup.map
    rintro ⟨a⟩ ⟨b⟩ he
    exact congrArg PointerOffset.mk he
  · intro o ho
    obtain ⟨seg, c, hr⟩ := hinv.routed o ho
    obtain ⟨m', data, hret, _⟩ := hinv.returns hr
    refine ⟨seg, c, hr, ?_, m', data, hret⟩
    unfold SegmentManager.resolvePtr
    simp only
    rw [hinv.segmentId_eq_home hr, hr.home, ← hr.chunk]
    rfl
  · intro a ha b hb hne
    by_cases hhome : a.home = b.home
    · obtain ⟨seg, c, hra⟩ := hinv.routed a ha
      obtain ⟨seg', d, hrb⟩ := hinv.routed b hb
      have hseg := hra.home
      rw [hhome, hrb.home] at hseg
      obtain rfl : seg' = seg := Option.some.inj hseg
      have hcd : c ≠ d := by
        rintro rfl
        apply hne
        apply List.inj_on_of_nodup_map hinv.nodup ha hb
        rw [hra.chunk, hrb.chunk]
      have hapart := seg'.data.layout.chunk_apart hra.lt hrb.lt hcd
      rw [← hra.chunk, ← hrb.chunk, (hinv.segments _ _ hra.home).chunkSize] at hapart
      exact .inr hapart
    · exact .inl hhome
  · intro fails
    obtain ⟨r, hr, _⟩ := hinv.allocates fails
    unfold SegmentManager.allocate
    rw [hr]
    exact Option.some_ne_none _
  · intro fails e m' herr
    obtain ⟨r, hr, houtcome⟩ := hinv.allocates fails
    unfold SegmentManager.allocate at herr
    rw [hr] at herr
    cases houtcome with
    | existing k seg data i rest _ _ _ _ => exact absurd herr (by simp [Except.map])
    | failed =>
        simp only [Option.map_some, Option.some.injEq, Prod.mk.injEq] at herr
        exact herr.2.symm
    | expanded data i rest _ _ _ _ _ _ => exact absurd herr (by simp [Except.map])

/-- Two chunks a segment: the third allocation fails to grow the manager, the
fourth does grow it, and a chunk of the first segment is given back. -/
def growRun : List Act :=
  [.allocate false, .allocate false, .allocate true, .allocate false,
   .deallocate ⟨.new 0#16 64, 0⟩]

/-- The chunks at byte 72 of segment 0 and byte 64 of segment 1 are live. -/
theorem segments_apart_grow :
    ∃ m s, SegmentManager.create "p" 8 2 = some m ∧ Reach step anyStep (init m) s
      ∧ s.live = [⟨.new 1#16 64, 1⟩, ⟨.new 0#16 72, 0⟩]
      ∧ (s.live.map (fun o => o.offset.raw)).Nodup := by
  have hrun : ((SegmentManager.create "p" 8 2).bind (fun m => exec step (init m) growRun)).map
      State.live = some [⟨.new 1#16 64, 1⟩, ⟨.new 0#16 72, 0⟩] := by
    decide
  obtain ⟨s, hs, hlive⟩ := Option.map_eq_some_iff.mp hrun
  obtain ⟨m, hm, hexec⟩ := Option.bind_eq_some_iff.mp hs
  have hreach := Reach.of_exec growRun .refl hexec
  have hapart := segments_apart "p" 8 2 m s hm hreach
  exact ⟨m, s, hm, hreach, hlive, hapart.2.2.1⟩

end SegmentSteps

end Entangle.Transport
