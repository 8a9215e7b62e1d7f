/-
  Entangle.Port.Alignment — are the payload references of the ports aligned?
  (entangle/src/port/publisher.rs, subscriber.rs, writer.rs, reader.rs,
  server.rs, client.rs over entangle-transport/src/data_segment.rs)

  A port sizes its chunks by the sizes of the payload types alone.  Chunk `i`
  lies at `base + 64 + i * stride`, the base at a page boundary, so a type whose
  alignment divides 64 is aligned in chunk 0 and, from the second chunk on, iff
  its alignment divides the stride (`aligned_iff`).  Two types of a request and
  a response share a stride that is made for the larger.

  Main results:
    * `aligned_iff` — alignment in every chunk, by the stride;
    * `references_aligned_iff` — alignment of every access of a port;
    * `request_misaligned` — `u128` requests with responses of 24 bytes.
-/
import Entangle.PubSub.Publisher
import Entangle.ReqRes.Service

namespace Entangle.Port.Alignment

open Entangle.Lockfree Entangle.Transport

/-! ## §1. Payload types. -/

/-- `size_of` and `align_of` of a payload type. -/
structure TypeLayout where
  size : Nat
  align : Nat
  align_pow : ∃ k ≤ 6, align = 2 ^ k
  align_dvd : align ∣ size

namespace TypeLayout

theorem align_dvd_64 (T : TypeLayout) : T.align ∣ 64 := by
  obtain ⟨k, hk, he⟩ := T.align_pow
  rw [he]
  exact Nat.pow_dvd_pow 2 hk

/-- An alignment divides 8 or is divided by 16. -/
theorem align_cases (T : TypeLayout) : T.align ∣ 8 ∨ 16 ∣ T.align := by
  obtain ⟨k, hk, he⟩ := T.align_pow
  rw [he]
  by_cases h3 : k ≤ 3
  · exact .inl (Nat.pow_dvd_pow 2 h3)
  · exact .inr (Nat.pow_dvd_pow 2 (Nat.lt_of_not_le h3))

end TypeLayout

/-! ## §2. The segments of the ports, and the accesses to them. -/

/-- A segment, by the builder that creates it. -/
inductive PortSegment where
  | publisher (T : TypeLayout) (bufferSize : Nat)
  | writer (T : TypeLayout)
  | server (Req Res : TypeLayout) (maxPendingRequests : Nat)

inductive Access where
  -- `SampleMut` and `Sample`
  | loan
  | sample
  -- `Writer::write` and `Reader::read`
  | write
  | read
  -- `Client::send`, `Server::receive`, `ActiveRequest::respond`, `try_receive`
  | send
  | receive
  | respond
  | tryReceive
  deriving Repr, DecidableEq

namespace PortSegment

def chunkSize : PortSegment → Nat
  | .publisher T _ | .writer T => max T.size 8
  | .server Req Res _ => max (max Req.size Res.size) 8

def chunkCount : PortSegment → Nat
  | .publisher _ bufferSize => bufferSize % 2 ^ 32
  | .writer _ => 1
  | .server _ _ maxPendingRequests => max (maxPendingRequests * 2 % 2 ^ 64) 16 % 2 ^ 32

/-- The `DataSegment::create` of the builder. -/
def segment (p : PortSegment) : Option DataSegment :=
  DataSegment.create p.chunkSize p.chunkCount 0#16

/-- The typed accesses the ports make, at any chunk of the segment. -/
def accesses : PortSegment → List (Access × TypeLayout)
  | .publisher T _ => [(.loan, T), (.sample, T)]
  | .writer T => [(.write, T), (.read, T)]
  | .server Req Res _ => [(.send, Req), (.receive, Req), (.respond, Res), (.tryReceive, Res)]

end PortSegment

/-- The segment of a publisher is the one its model allocates from. -/
theorem publisher_segment (T : TypeLayout) (qos : PubSub.PubSubQos) :
    (PubSub.Publisher.create T.size qos).map PubSub.Publisher.segment
      = (PortSegment.publisher T qos.bufferSize).segment := by
  rw [PubSub.Publisher.create, Option.map_map]
  exact Option.map_id'

/-- And so is that of a request-response service. -/
theorem server_segment (Req Res : TypeLayout) (qos : ReqRes.ReqResQos) :
    (ReqRes.Service.create Req.size Res.size qos).map ReqRes.Service.segment
      = (PortSegment.server Req Res qos.maxPendingRequests).segment := by
  rw [ReqRes.Service.create, Option.map_map]
  exact Option.map_id'

/-! ## §3. Addresses. -/

/-- `self.shm.as_mut_ptr().add(offset.offset())`. -/
def address (base : Nat) (offset : PointerOffset) : Nat := base + offset.offset

/-- A reference to a value with this alignment, at any chunk of the segment. -/
def AlignedIn (seg : DataSegment) (align : Nat) : Prop :=
  ∀ base, 4096 ∣ base → ∀ i : U32, i.toNat < seg.layout.chunkCount →
    align ∣ address base (seg.layout.chunk i)

theorem create_layout {chunkSize chunkCount : Nat} {segmentId : U16} {seg : DataSegment}
    (h : DataSegment.create chunkSize chunkCount segmentId = some seg) :
    seg.layout.baseOffset = 64 ∧ seg.layout.chunkCount = chunkCount
      ∧ seg.layout.chunkSize = DataSegment.aligned chunkSize := by
  unfold DataSegment.create at h
  split at h
  next =>
    injection h with h
    subst h
    exact ⟨rfl, rfl, rfl⟩
  next => exact absurd h (by simp)

/-- **Alignment is a matter of the stride**, from the second chunk on. -/
theorem aligned_iff {seg : DataSegment} (hbase : seg.layout.baseOffset = 64) {align : Nat}
    (h64 : align ∣ 64) :
    AlignedIn seg align ↔ seg.layout.chunkCount ≤ 1 ∨ align ∣ seg.layout.chunkSize := by
  constructor
  · intro haligned
    by_cases hone : seg.layout.chunkCount ≤ 1
    · exact .inl hone
    · right
      have hlt : (1#32).toNat < seg.layout.chunkCount := Nat.lt_of_not_le hone
      have hsecond := haligned 0 (Nat.dvd_zero 4096) 1#32 hlt
      rw [address, Layout.chunk_offset _ hlt, hbase, Nat.zero_add, Nat.dvd_add_right h64] at hsecond
      rw [← Nat.one_mul seg.layout.chunkSize]
      exact hsecond
  · intro h base hpage i hi
    have h4096 : align ∣ base := (h64.trans (by decide)).trans hpage
    rw [address, Layout.chunk_offset _ hi, hbase, Nat.dvd_add_right h4096, Nat.dvd_add_right h64]
    rcases h with hone | hstride
    · have hzero : i.toNat = 0 := by omega
      rw [hzero, Nat.zero_mul]
      exact Nat.dvd_zero _
    · exact hstride.mul_left _

/-- A chunk made for the type alone has its alignment, unless the type has no
bytes and asks for more than 8. -/
theorem dvd_stride_iff (T : TypeLayout) :
    T.align ∣ DataSegment.aligned (max T.size 8) ↔ T.size ≠ 0 ∨ T.align ≤ 8 := by
  have h8 : 8 ∣ DataSegment.aligned (max T.size 8) := Nat.dvd_mul_left 8 _
  rcases T.align_cases with hsmall | hlarge
  · have hle : T.align ≤ 8 := Nat.le_of_dvd (by decide) hsmall
    exact ⟨fun _ => .inr hle, fun _ => hsmall.trans h8⟩
  · have hdvd : 16 ∣ T.size := hlarge.trans T.align_dvd
    have hpos : 0 < T.align := Nat.pos_of_dvd_of_pos T.align_dvd_64 (by decide)
    have h16 : 16 ≤ T.align := Nat.le_of_dvd hpos hlarge
    constructor
    · intro hstride
      left
      intro hzero
      rw [hzero] at hstride
      have hle : T.align ≤ 8 := Nat.le_of_dvd (by decide) hstride
      omega
    · intro h
      have hsize : DataSegment.aligned (max T.size 8) = T.size := by
        unfold DataSegment.aligned
        omega
      rw [hsize]
      exact T.align_dvd

/-! ## §4. Every access of a port. -/

/-- The stride fits the alignments of the types. -/
def PortSegment.StrideFits : PortSegment → Prop
  | .publisher T bufferSize => bufferSize % 2 ^ 32 = 1 ∨ T.size ≠ 0 ∨ T.align ≤ 8
  | .writer _ => True
  | .server Req Res _ =>
      Req.align ∣ DataSegment.aligned (max (max Req.size Res.size) 8)
        ∧ Res.align ∣ DataSegment.aligned (max (max Req.size Res.size) 8)

/-- The pool of a server has at least two chunks. -/
theorem server_chunkCount {Req Res : TypeLayout} {maxPendingRequests : Nat}
    (hpos : 0 < (PortSegment.server Req Res maxPendingRequests).chunkCount) :
    ¬ (PortSegment.server Req Res maxPendingRequests).chunkCount ≤ 1 := by
  simp only [PortSegment.chunkCount] at hpos ⊢
  omega

/-- **Every reference is aligned iff the stride fits.** -/
theorem references_aligned_iff (p : PortSegment) (seg : DataSegment) (hseg : p.segment = some seg) :
    (∀ access ∈ p.accesses, AlignedIn seg access.2.align) ↔ p.StrideFits := by
  obtain ⟨hbase, hcount, hsize⟩ := create_layout hseg
  have hpos : 0 < p.chunkCount := by
    have hcap := seg.allocator.indexSet.capacity_pos
    rw [seg.allocator.capacity_eq] at hcap
    rw [← hcount]
    exact hcap
  have hiff : ∀ T : TypeLayout, AlignedIn seg T.align
      ↔ p.chunkCount ≤ 1 ∨ T.align ∣ DataSegment.aligned p.chunkSize := by
    intro T
    rw [aligned_iff hbase T.align_dvd_64, hcount, hsize]
  cases p with
  | publisher T bufferSize =>
      simp only [PortSegment.accesses, List.forall_mem_cons, List.not_mem_nil, false_implies,
        implies_true, and_true, and_self]
      rw [hiff T]
      show _ ≤ 1 ∨ T.align ∣ DataSegment.aligned (max T.size 8) ↔ _
      rw [dvd_stride_iff]
      have hone : (PortSegment.publisher T bufferSize).chunkCount ≤ 1
          ↔ bufferSize % 2 ^ 32 = 1 := by
        simp only [PortSegment.chunkCount] at hpos ⊢
        omega
      rw [hone]
      rfl
  | writer T =>
      simp only [PortSegment.accesses, List.forall_mem_cons, List.not_mem_nil, false_implies,
        implies_true, and_true, and_self]
      rw [hiff T]
      exact ⟨fun _ => trivial, fun _ => .inl (Nat.le_refl 1)⟩
  | server Req Res maxPendingRequests =>
      have hmany := server_chunkCount hpos
      simp only [PortSegment.accesses, List.forall_mem_cons, List.not_mem_nil, false_implies,
        implies_true, and_true]
      rw [hiff Req, hiff Res]
      simp only [hmany, false_or]
      exact ⟨fun h => ⟨h.1, h.2.2.1⟩, fun h => ⟨h.1, h.1, h.2, h.2⟩⟩

def u128 : TypeLayout := ⟨16, 16, ⟨4, by decide, by decide⟩, by decide⟩

/-- `[u8; 24]`. -/
def bytes24 : TypeLayout := ⟨24, 1, ⟨0, by decide, by decide⟩, by decide⟩

/-- A publisher of `u128` samples. -/
theorem references_aligned_iff_u128 :
    ∃ seg, (PortSegment.publisher u128 4).segment = some seg
      ∧ ∀ access ∈ (PortSegment.publisher u128 4).accesses, AlignedIn seg access.2.align := by
  have hsome : (PortSegment.publisher u128 4).segment.isSome := by decide
  obtain ⟨seg, hseg⟩ := Option.isSome_iff_exists.mp hsome
  exact ⟨seg, hseg, (references_aligned_iff _ seg hseg).mpr (.inr (.inl (by decide)))⟩

/-- **A request reference is misaligned**: `u128` requests, responses of 24
bytes, the second chunk of a mapping at 4096. -/
theorem request_misaligned :
    ∃ seg, (PortSegment.server u128 bytes24 8).segment = some seg
      ∧ (.send, u128) ∈ (PortSegment.server u128 bytes24 8).accesses
      ∧ (1#32).toNat < seg.layout.chunkCount
      ∧ address 4096 (seg.layout.chunk 1#32) = 4184 ∧ ¬ u128.align ∣ 4184
      ∧ ¬ ∀ access ∈ (PortSegment.server u128 bytes24 8).accesses,
          AlignedIn seg access.2.align := by
  have hrun : (PortSegment.server u128 bytes24 8).segment.map (fun seg =>
      decide ((1#32).toNat < seg.layout.chunkCount
        ∧ address 4096 (seg.layout.chunk 1#32) = 4184)) = some true := by decide
  obtain ⟨seg, hseg, hprops⟩ := Option.map_eq_some_iff.mp hrun
  obtain ⟨hlt, haddress⟩ := of_decide_eq_true hprops
  refine ⟨seg, hseg, List.mem_cons_self, hlt, haddress, by decide, fun haligned => ?_⟩
  have hsecond := haligned (.send, u128) List.mem_cons_self 4096 (by decide) 1#32 hlt
  rw [haddress] at hsecond
  exact absurd hsecond (by decide)

end Entangle.Port.Alignment
