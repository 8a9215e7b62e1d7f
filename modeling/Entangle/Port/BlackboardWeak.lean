/-
  Entangle.Port.BlackboardWeak — the seqlock of the blackboard service
  (`Writer::write` in entangle/src/port/writer.rs and `Reader::read` in
  entangle/src/port/reader.rs) with the orderings that the code gives to its
  accesses, on release/acquire memory.

  `sequence` is stored with `Release` and loaded with `Acquire`.  The words of the
  payload are copied by plain accesses; they are taken as relaxed ones here, which
  is the best that can be said of them.  A release store holds back what comes
  before it and an acquire load what comes after it, but it is the other way round
  that the seqlock needs: nothing keeps the words from being seen before the odd
  count, and nothing keeps the second load of the count from being out of date.

  Main results:
    * `Written.write` — what a `write` leaves in memory;
    * `torn_read` — a `read` begun after all the writes may return any mixture of
      what has ever been written.
-/
import Entangle.Lib.Transition
import Entangle.Lib.WeakMemory
import Entangle.Port.Blackboard
import Mathlib.Data.Finset.Card

namespace Entangle.Port.BlackboardWeak

open Entangle.Lib Entangle.Lib.WeakMemory Entangle.Port.Blackboard

/-! ## §1. The accesses. -/

inductive Loc (n : Nat) where
  | sequence
  | word (i : Fin n)
  deriving DecidableEq

inductive Cell (W : Type) where
  | count (c : U64)
  | word (w : W)

variable {n : Nat} {W Tid : Type}

def Cell.count? : Cell W → Option U64
  | .count c => some c
  | .word _ => none

def Cell.word? : Cell W → Option W
  | .count _ => none
  | .word w => some w

/-- The writer is the thread `none`. -/
structure State (n : Nat) (W Tid : Type) where
  mem : Memory (Loc n) (Cell W) (Option Tid)
  writer : WritePc n W
  reader : Tid → ReadPc n W
  completed : List (Fin n → W)

/-- The number of a load says which of the stores it returns. -/
inductive Act (n : Nat) (W Tid : Type) where
  | write (value : Fin n → W) (k : Nat)
  | beginPhase
  | storeWord (i : Fin n)
  | endPhase
  | read (r : Tid) (k : Nat)
  | again (r : Tid) (k : Nat)
  | copyWord (r : Tid) (i : Fin n) (k : Nat)
  | recheck (r : Tid) (k : Nat)

section Accesses

variable [DecidableEq Tid]

/-- `self.sequence.load(ord)`. -/
def loadCount (m : Memory (Loc n) (Cell W) (Option Tid)) (ord : WeakMemory.Ordering)
    (t : Option Tid) (k : Nat) : Option (U64 × Memory (Loc n) (Cell W) (Option Tid)) :=
  (m.load ord t .sequence k).bind (fun r => r.1.count?.map (fun c => (c, r.2)))

/-- A word of the copy out of `resolve_ref`. -/
def loadWord (m : Memory (Loc n) (Cell W) (Option Tid)) (t : Option Tid) (i : Fin n) (k : Nat) :
    Option (W × Memory (Loc n) (Cell W) (Option Tid)) :=
  (m.load .relaxed t (.word i) k).bind (fun r => r.1.word?.map (fun w => (w, r.2)))

def State.setReader (s : State n W Tid) (m : Memory (Loc n) (Cell W) (Option Tid)) (r : Tid)
    (pc : ReadPc n W) : State n W Tid :=
  { s with mem := m, reader := Function.update s.reader r pc }

/-- One access of one thread. -/
def step (s : State n W Tid) : Act n W Tid → Option (State n W Tid)
  | .write v k =>
      match s.writer with
      | .idle =>
          (loadCount s.mem .relaxed none k).map (fun c =>
            { s with mem := c.2, writer := .loaded v c.1 })
      | _ => none
  | .beginPhase =>
      match s.writer with
      | .loaded v seq =>
          some { s with
            mem := s.mem.store .release none .sequence (.count (seq + 1))
            writer := .writing v seq Finset.univ }
      | _ => none
  | .storeWord i =>
      match s.writer with
      | .writing v seq todo =>
          if i ∈ todo then
            some { s with
              mem := s.mem.store .relaxed none (.word i) (.word (v i))
              writer := .writing v seq (todo.erase i) }
          else none
      | _ => none
  | .endPhase =>
      match s.writer with
      | .writing v seq todo =>
          if todo = ∅ then
            some { s with
              mem := s.mem.store .release none .sequence (.count (seq + 2))
              writer := .idle
              completed := s.completed ++ [v] }
          else none
      | _ => none
  | .read r k =>
      if (s.reader r).resting then
        (loadCount s.mem .acquire (some r) k).map (fun c => s.setReader c.2 r (afterLoad c.1))
      else none
  | .again r k =>
      match s.reader r with
      | .retry =>
          (loadCount s.mem .acquire (some r) k).map (fun c => s.setReader c.2 r (afterLoad c.1))
      | _ => none
  | .copyWord r i k =>
      match s.reader r with
      | .copying s1 buf =>
          if (buf i).isSome then none
          else (loadWord s.mem (some r) i k).map (fun w =>
            s.setReader w.2 r (.copying s1 (Function.update buf i (some w.1))))
      | _ => none
  | .recheck r k =>
      match s.reader r with
      | .copying s1 buf =>
          (loadCount s.mem .acquire (some r) k).bind (fun s2 =>
            (assemble buf).map (fun v =>
              s.setReader s2.2 r (if s1 = s2.1 then .returned (some v) else .retry)))
      | _ => none

end Accesses

/-- A new writer: nothing written, whatever the segment holds. -/
def init (memory : Fin n → W) : State n W Tid where
  mem := .init (fun
    | .sequence => .count 0#64
    | .word i => .word (memory i))
  writer := .idle
  reader _ := .idle
  completed := []

/-- The accesses of a call of `read` by `r` after its first load. -/
def insideRead (r : Tid) (_ : State n W Tid) : Act n W Tid → Prop
  | .again q _ => q = r
  | .copyWord q _ _ => q = r
  | .recheck q _ => q = r
  | _ => False

/-! ## §2. What the writes leave in memory. -/

/-- After the writes of `ws`, with no reader having looked yet.  Store number `2 * m` of
`sequence` is the end of the `m`th write, and with it go the words up to that one. -/
structure Written (memory : Fin n → W) (ws : List (Fin n → W)) (s : State n W Tid) : Prop where
  writer : s.writer = .idle
  completed : s.completed = ws
  reader : ∀ r, s.reader r = .idle
  unseen : ∀ r l, s.mem.view (some r) l = 0
  counts : (s.mem.stores .sequence).map Store.value
    = (List.range (2 * ws.length + 1)).map (fun k => .count (BitVec.ofNat 64 k))
  words : ∀ i, (s.mem.stores (.word i)).map Store.value
    = .word (memory i) :: ws.map (fun w => .word (w i))
  own : s.mem.view none .sequence = 2 * ws.length
  ownWords : ∀ i, s.mem.view none (.word i) = ws.length
  ends : ∀ m store, m ≤ ws.length → (s.mem.stores .sequence)[2 * m]? = some store →
    store.view .sequence = 2 * m ∧ ∀ i, store.view (.word i) = m

theorem written_init (memory : Fin n → W) :
    Written memory [] (init memory : State n W Tid) where
  writer := rfl
  completed := rfl
  reader _ := rfl
  unseen _ _ := rfl
  counts := rfl
  words _ := rfl
  own := rfl
  ownWords _ := rfl
  ends m store hm hstore := by
    obtain rfl : m = 0 := Nat.le_zero.mp hm
    obtain rfl := Option.some.inj hstore
    exact ⟨rfl, fun _ => rfl⟩

/-- In the middle of the write of `v`, the words of `todo` still to be stored. -/
structure Storing (memory : Fin n → W) (ws : List (Fin n → W)) (v : Fin n → W)
    (todo : Finset (Fin n)) (s : State n W Tid) : Prop where
  writer : s.writer = .writing v (BitVec.ofNat 64 (2 * ws.length)) todo
  completed : s.completed = ws
  reader : ∀ r, s.reader r = .idle
  unseen : ∀ r l, s.mem.view (some r) l = 0
  counts : (s.mem.stores .sequence).map Store.value
    = (List.range (2 * ws.length + 2)).map (fun k => .count (BitVec.ofNat 64 k))
  words : ∀ i, (s.mem.stores (.word i)).map Store.value
    = .word (memory i)
      :: ((if i ∈ todo then ws else ws ++ [v]).map (fun w => .word (w i)))
  own : s.mem.view none .sequence = 2 * ws.length + 1
  ownWords : ∀ i, s.mem.view none (.word i) = if i ∈ todo then ws.length else ws.length + 1
  ends : ∀ m store, m ≤ ws.length → (s.mem.stores .sequence)[2 * m]? = some store →
    store.view .sequence = 2 * m ∧ ∀ i, store.view (.word i) = m

variable {memory : Fin n → W} {ws : List (Fin n → W)} {v : Fin n → W} {todo : Finset (Fin n)}
  {s s' : State n W Tid}

theorem length_of_values {V : Type} {l : List (Store (Loc n) V)} {l' : List V}
    (h : l.map Store.value = l') : l.length = l'.length := by
  rw [← h, List.length_map]

/-- One more store, one more value. -/
theorem values_concat {V : Type} {l : List (Store (Loc n) V)} {l' : List V}
    (h : l.map Store.value = l') (store : Store (Loc n) V) :
    (l ++ [store]).map Store.value = l' ++ [store.value] := by
  rw [List.map_append, h]
  rfl

variable [DecidableEq Tid]

/-- The writer loads its own count and stores the odd one. -/
theorem Written.begins (h : Written memory ws s) (v : Fin n → W) :
    ∃ s', Reach step anyStep s s' ∧ Storing memory ws v Finset.univ s' := by
  have hlen : (s.mem.stores .sequence).length = 2 * ws.length + 1 := by
    rw [length_of_values h.counts, List.length_map, List.length_range]
  obtain ⟨store, hstore⟩ : ∃ store, (s.mem.stores .sequence)[2 * ws.length]? = some store :=
    ⟨_, List.getElem?_eq_getElem (by omega)⟩
  have hvalue : store.value = .count (BitVec.ofNat 64 (2 * ws.length)) := by
    have hget : ((s.mem.stores .sequence).map Store.value)[2 * ws.length]? = some store.value := by
      rw [List.getElem?_map, hstore]
      rfl
    rw [h.counts, List.getElem?_map, List.getElem?_range (by omega)] at hget
    exact (Option.some.inj hget).symm
  let m₁ : Memory (Loc n) (Cell W) (Option Tid) :=
    { s.mem with
      view := Function.update s.mem.view none
        (learn .relaxed (s.mem.view none) .sequence (2 * ws.length) store) }
  have hload : loadCount s.mem .relaxed none (2 * ws.length)
      = some (BitVec.ofNat 64 (2 * ws.length), m₁) := by
    simp only [loadCount, Memory.load, h.own, Nat.le_refl, if_true, hstore, Option.map_some,
      Option.bind_some, hvalue, Cell.count?, m₁]
  have hwrite : step s (.write v (2 * ws.length))
      = some { s with mem := m₁, writer := .loaded v (BitVec.ofNat 64 (2 * ws.length)) } := by
    simp only [step, h.writer, hload, Option.map_some]
  have hview : ∀ l, l ≠ .sequence → m₁.view none l = s.mem.view none l := by
    intro l hl
    show Function.update s.mem.view none (see (s.mem.view none) .sequence _) none l = _
    rw [Function.update_self, see_of_ne hl]
  refine ⟨{ s with
    mem := m₁.store .release none .sequence (.count (BitVec.ofNat 64 (2 * ws.length) + 1))
    writer := .writing v (BitVec.ofNat 64 (2 * ws.length)) Finset.univ },
    (Reach.tail .refl trivial hwrite).tail (a := .beginPhase) trivial rfl, ?_⟩
  refine ⟨rfl, h.completed, h.reader, ?_, ?_, ?_, ?_, ?_, ?_⟩
  · intro r l
    rw [Memory.store_view_ne _ _ _ _ (by simp)]
    exact h.unseen r l
  · rw [Memory.store_stores_self, values_concat h.counts, List.range_succ (n := 2 * ws.length + 1),
      List.map_append, List.map_singleton, BitVec.ofNat_add]
    rfl
  · intro i
    rw [Memory.store_stores_ne _ _ _ _ (by simp), if_pos (Finset.mem_univ i)]
    exact h.words i
  · rw [Memory.store_view_self, see_self]
    exact hlen
  · intro i
    rw [Memory.store_view_self, see_of_ne (by simp), hview _ (by simp),
      if_pos (Finset.mem_univ i)]
    exact h.ownWords i
  · intro m store' hm hstore'
    have hlt : 2 * m < (m₁.stores .sequence).length := by
      show 2 * m < (s.mem.stores .sequence).length
      omega
    rw [Memory.store_stores_self, List.getElem?_append_left hlt] at hstore'
    exact h.ends m store' hm hstore'

/-- One word is stored. -/
theorem Storing.storeWord (h : Storing memory ws v todo s) {i : Fin n} (hi : i ∈ todo) :
    ∃ s', step s (.storeWord i) = some s' ∧ Storing memory ws v (todo.erase i) s' := by
  have hlen : (s.mem.stores (.word i)).length = ws.length + 1 := by
    rw [length_of_values (h.words i), if_pos hi, List.length_cons, List.length_map]
  refine ⟨{ s with
    mem := s.mem.store .relaxed none (.word i) (.word (v i))
    writer := .writing v (BitVec.ofNat 64 (2 * ws.length)) (todo.erase i) }, ?_, ?_⟩
  · simp only [step, h.writer, if_pos hi]
  · refine ⟨rfl, h.completed, h.reader, ?_, ?_, ?_, ?_, ?_, ?_⟩
    · intro r l
      rw [Memory.store_view_ne _ _ _ _ (by simp)]
      exact h.unseen r l
    · rw [Memory.store_stores_ne _ _ _ _ (by simp)]
      exact h.counts
    · intro j
      by_cases hj : j = i
      · subst hj
        have hbefore := h.words j
        rw [if_pos hi] at hbefore
        rw [Memory.store_stores_self, if_neg (Finset.notMem_erase j todo), values_concat hbefore,
          List.map_append]
        rfl
      · rw [Memory.store_stores_ne _ _ _ _ (by simpa using hj), h.words j]
        simp only [Finset.mem_erase, ne_eq, hj, not_false_eq_true, true_and]
    · rw [Memory.store_view_self, see_of_ne (by simp)]
      exact h.own
    · intro j
      by_cases hj : j = i
      · subst hj
        rw [Memory.store_view_self, see_self, hlen, if_neg (Finset.notMem_erase j todo)]
      · rw [Memory.store_view_self, see_of_ne (by simpa using hj), h.ownWords j]
        simp only [Finset.mem_erase, ne_eq, hj, not_false_eq_true, true_and]
    · intro m store hm hstore
      rw [Memory.store_stores_ne _ _ _ _ (by simp)] at hstore
      exact h.ends m store hm hstore

/-- ... and so they are all. -/
theorem Storing.storeAll (h : Storing memory ws v todo s) :
    ∃ s', Reach step anyStep s s' ∧ Storing memory ws v ∅ s' := by
  induction todo using Finset.strongInduction generalizing s with
  | H todo ih =>
      rcases Finset.eq_empty_or_nonempty todo with rfl | ⟨i, hi⟩
      · exact ⟨s, .refl, h⟩
      · obtain ⟨s₁, hstep, h₁⟩ := h.storeWord hi
        obtain ⟨s₂, hreach, h₂⟩ := ih _ (Finset.erase_ssubset hi) h₁
        exact ⟨s₂, (Reach.tail .refl trivial hstep).trans hreach, h₂⟩

/-- The writer stores the even count. -/
theorem Storing.endPhase (h : Storing memory ws v ∅ s) :
    ∃ s', step s .endPhase = some s' ∧ Written memory (ws ++ [v]) s' := by
  have hlen : (s.mem.stores .sequence).length = 2 * ws.length + 2 := by
    rw [length_of_values h.counts, List.length_map, List.length_range]
  have hws : (ws ++ [v]).length = ws.length + 1 := by simp
  refine ⟨{ s with
    mem := s.mem.store .release none .sequence (.count (BitVec.ofNat 64 (2 * ws.length) + 2))
    writer := .idle
    completed := s.completed ++ [v] }, ?_, ?_⟩
  · simp only [step, h.writer, if_true]
  · refine ⟨rfl, congrArg (· ++ [v]) h.completed, h.reader, ?_, ?_, ?_, ?_, ?_, ?_⟩
    · intro r l
      rw [Memory.store_view_ne _ _ _ _ (by simp)]
      exact h.unseen r l
    · rw [Memory.store_stores_self, values_concat h.counts, hws, Nat.mul_add,
        List.range_succ (n := 2 * ws.length + 2), List.map_append, List.map_singleton,
        BitVec.ofNat_add]
      rfl
    · intro i
      rw [Memory.store_stores_ne _ _ _ _ (by simp)]
      exact h.words i
    · rw [Memory.store_view_self, see_self, hlen, hws]
      rfl
    · intro i
      rw [Memory.store_view_self, see_of_ne (by simp), hws]
      exact h.ownWords i
    · intro m store hm hstore
      rw [Memory.store_stores_self] at hstore
      rcases concat_cases hstore with hold | ⟨hlast, rfl⟩
      · have hlt := (List.getElem?_eq_some_iff.mp hold).1
        exact h.ends m store (by omega) hold
      · have hm' : m = ws.length + 1 := by omega
        refine ⟨?_, fun i => ?_⟩
        · simp only [kept, see_self]
          exact hlast.symm
        · simp only [kept]
          rw [see_of_ne (by simp), hm']
          exact h.ownWords i

/-- **What a `write` leaves in memory.** -/
theorem Written.write (h : Written memory ws s) (v : Fin n → W) :
    ∃ s', Reach step anyStep s s' ∧ Written memory (ws ++ [v]) s' := by
  obtain ⟨s₁, hbegin, h₁⟩ := h.begins v
  obtain ⟨s₂, hstore, h₂⟩ := h₁.storeAll
  obtain ⟨s₃, hend, h₃⟩ := h₂.endPhase
  exact ⟨s₃, (hbegin.trans hstore).tail trivial hend, h₃⟩

/-- ... and any number of them. -/
theorem Written.writeAll (h : Written memory ws s) (vs : List (Fin n → W)) :
    ∃ s', Reach step anyStep s s' ∧ Written memory (ws ++ vs) s' := by
  induction vs generalizing ws s with
  | nil =>
      rw [List.append_nil]
      exact ⟨s, .refl, h⟩
  | cons v vs ih =>
      obtain ⟨s₁, hwrite, h₁⟩ := h.write v
      obtain ⟨s₂, hreach, h₂⟩ := ih h₁
      rw [List.append_assoc] at h₂
      exact ⟨s₂, hwrite.trans hreach, h₂⟩

/-! ## §3. A read of any mixture. -/

/-- Reader `r` has begun at the end of the first write, and has yet to copy the words of
`todo`; those it has are what it chose to see. -/
structure Copying (ws : List (Fin n → W)) (mix : Fin n → W) (r : Tid) (todo : Finset (Fin n))
    (s : State n W Tid) : Prop where
  reader : s.reader r = .copying 2#64 (fun i => if i ∈ todo then none else some (mix i))
  completed : s.completed = ws
  seen : s.mem.view (some r) .sequence = 2
  seenWords : ∀ i, i ∈ todo → s.mem.view (some r) (.word i) = 1
  count : ((s.mem.stores .sequence)[2]?).map Store.value = some (.count 2#64)
  chosen : ∀ i, ∃ k, 1 ≤ k ∧ ((s.mem.stores (.word i))[k]?).map Store.value = some (.word (mix i))

/-- The first load sees the end of the first write, however many have followed. -/
theorem Written.read (h : Written memory ws s) (r : Tid) {mix : Fin n → W}
    (hpos : 1 ≤ ws.length) (hmix : ∀ i, ∃ w ∈ ws, mix i = w i) :
    ∃ s', step s (.read r 2) = some s' ∧ Copying ws mix r Finset.univ s' := by
  have hlen : (s.mem.stores .sequence).length = 2 * ws.length + 1 := by
    rw [length_of_values h.counts, List.length_map, List.length_range]
  obtain ⟨store, hstore⟩ : ∃ store, (s.mem.stores .sequence)[2]? = some store :=
    ⟨_, List.getElem?_eq_getElem (by omega)⟩
  have hvalue : store.value = .count 2#64 := by
    have hget : ((s.mem.stores .sequence).map Store.value)[2]? = some store.value := by
      rw [List.getElem?_map, hstore]
      rfl
    rw [h.counts, List.getElem?_map, List.getElem?_range (by omega)] at hget
    exact (Option.some.inj hget).symm
  obtain ⟨hsequence, hwords⟩ := h.ends 1 store hpos hstore
  let m₁ : Memory (Loc n) (Cell W) (Option Tid) :=
    { s.mem with
      view := Function.update s.mem.view (some r)
        (learn .acquire (s.mem.view (some r)) .sequence 2 store) }
  have hload : loadCount s.mem .acquire (some r) 2 = some (2#64, m₁) := by
    simp only [loadCount, Memory.load, h.unseen r, Nat.zero_le, if_true, hstore, Option.map_some,
      Option.bind_some, hvalue, Cell.count?, m₁]
  have hview : m₁.view (some r) = see (s.mem.view (some r)) .sequence 2 ⊔ store.view := by
    show Function.update s.mem.view (some r) _ (some r) = _
    rw [Function.update_self]
    rfl
  have hidle : (s.reader r).resting = true := by
    rw [h.reader r]
    rfl
  refine ⟨s.setReader m₁ r (.copying 2#64 (fun _ => none)), ?_, ?_, h.completed, ?_, ?_, ?_, ?_⟩
  · simp only [step, hidle, if_true, hload, Option.map_some]
    rfl
  · show Function.update s.reader r _ r = _
    rw [Function.update_self]
    simp
  · show m₁.view (some r) .sequence = 2
    rw [hview, Pi.sup_apply, see_self, hsequence]
    rfl
  · intro i _
    show m₁.view (some r) (.word i) = 1
    rw [hview, Pi.sup_apply, see_of_ne (by simp), hwords i, h.unseen r]
    rfl
  · show ((s.mem.stores .sequence)[2]?).map Store.value = _
    rw [hstore, Option.map_some, hvalue]
  · intro i
    obtain ⟨w, hw, hi⟩ := hmix i
    obtain ⟨k, hk⟩ := List.mem_iff_getElem?.mp hw
    refine ⟨k + 1, Nat.le_add_left _ _, ?_⟩
    show ((s.mem.stores (.word i))[k + 1]?).map Store.value = _
    rw [← List.getElem?_map, h.words i, List.getElem?_cons_succ, List.getElem?_map, hk, hi]
    rfl

/-- One word is copied, as old or as new as the reader likes. -/
theorem Copying.copyWord {mix : Fin n → W} {r : Tid} (h : Copying ws mix r todo s) {i : Fin n}
    (hi : i ∈ todo) :
    ∃ k s', step s (.copyWord r i k) = some s' ∧ Copying ws mix r (todo.erase i) s' := by
  obtain ⟨k, hk, hchosen⟩ := h.chosen i
  obtain ⟨store, hstore, hvalue⟩ := Option.map_eq_some_iff.mp hchosen
  let m₁ : Memory (Loc n) (Cell W) (Option Tid) :=
    { s.mem with
      view := Function.update s.mem.view (some r)
        (learn .relaxed (s.mem.view (some r)) (.word i) k store) }
  have hload : loadWord s.mem (some r) i k = some (mix i, m₁) := by
    simp only [loadWord, Memory.load, h.seenWords i hi, hk, if_true, hstore, Option.map_some,
      Option.bind_some, hvalue, Cell.word?, m₁]
  have hview : m₁.view (some r) = see (s.mem.view (some r)) (.word i) k := by
    show Function.update s.mem.view (some r) _ (some r) = _
    rw [Function.update_self]
    rfl
  let buf : Fin n → Option W := fun j => if j ∈ todo then none else some (mix j)
  refine ⟨k, s.setReader m₁ r (.copying 2#64 (Function.update buf i (some (mix i)))),
    ?_, ?_, h.completed, ?_, ?_, h.count, h.chosen⟩
  · simp only [step, h.reader, if_pos hi, Option.isSome_none, Bool.false_eq_true, if_false, hload,
      Option.map_some]
    rfl
  · show Function.update s.reader r _ r = _
    rw [Function.update_self]
    congr 1
    funext j
    by_cases hj : j = i
    · subst hj
      rw [Function.update_self, if_neg (Finset.notMem_erase j todo)]
    · rw [Function.update_of_ne hj]
      simp [buf, hj]
  · show m₁.view (some r) .sequence = 2
    rw [hview, see_of_ne (by simp)]
    exact h.seen
  · intro j hj
    obtain ⟨hne, hmem⟩ := Finset.mem_erase.mp hj
    show m₁.view (some r) (.word j) = 1
    rw [hview, see_of_ne (by simpa using hne)]
    exact h.seenWords j hmem

theorem Copying.copyAll {mix : Fin n → W} {r : Tid} (h : Copying ws mix r todo s) :
    ∃ s', Reach step (insideRead r) s s' ∧ Copying ws mix r ∅ s' := by
  induction todo using Finset.strongInduction generalizing s with
  | H todo ih =>
      rcases Finset.eq_empty_or_nonempty todo with rfl | ⟨i, hi⟩
      · exact ⟨s, .refl, h⟩
      · obtain ⟨k, s₁, hstep, h₁⟩ := h.copyWord hi
        obtain ⟨s₂, hreach, h₂⟩ := ih _ (Finset.erase_ssubset hi) h₁
        have hinside : insideRead r s (.copyWord r i k) := rfl
        exact ⟨s₂, (Reach.tail .refl hinside hstep).trans hreach, h₂⟩

/-- The second load still sees the end of the first write: nothing seems to have
changed. -/
theorem Copying.recheck {mix : Fin n → W} {r : Tid} (h : Copying ws mix r ∅ s) :
    ∃ s', step s (.recheck r 2) = some s' ∧ s'.reader r = .returned (some mix)
      ∧ s'.completed = ws := by
  obtain ⟨store, hstore, hvalue⟩ := Option.map_eq_some_iff.mp h.count
  let m₁ : Memory (Loc n) (Cell W) (Option Tid) :=
    { s.mem with
      view := Function.update s.mem.view (some r)
        (learn .acquire (s.mem.view (some r)) .sequence 2 store) }
  have hload : loadCount s.mem .acquire (some r) 2 = some (2#64, m₁) := by
    simp only [loadCount, Memory.load, h.seen, Nat.le_refl, if_true, hstore, Option.map_some,
      Option.bind_some, hvalue, Cell.count?, m₁]
  have hwhole : assemble (fun i => if i ∈ (∅ : Finset (Fin n)) then none else some (mix i))
      = some mix := by
    simp [assemble]
  refine ⟨s.setReader m₁ r (.returned (some mix)), ?_, ?_, h.completed⟩
  · simp only [step, h.reader, hload, Option.bind_some, hwhole, Option.map_some, if_true]
  · show Function.update s.reader r _ r = _
    rw [Function.update_self]

/-- **A `read` may return any mixture of what has ever been written.**  Whatever the
writes are, there is a run in which all of them have been made (`s`: the writer and all
readers are idle) and in which `r` then calls `read`: between `s` and `t` there are only
the accesses of this one call, the first load and those inside it.  The orderings of the
code allow it to return for each word what any of the writes had put there. -/
theorem torn_read (memory : Fin n → W) (ws : List (Fin n → W)) (mix : Fin n → W) (r : Tid)
    (hmix : ∀ i, ∃ w ∈ ws, mix i = w i) (hws : ws ≠ []) :
    ∃ s : State n W Tid, Reach step anyStep (init memory) s
      ∧ s.completed = ws ∧ s.writer = .idle ∧ (∀ q, s.reader q = .idle)
      ∧ ∃ k s₁ t, step s (.read r k) = some s₁ ∧ Reach step (insideRead r) s₁ t
          ∧ t.completed = ws ∧ t.reader r = .returned (some mix) := by
  have hinit : Written memory [] (init memory : State n W Tid) := written_init memory
  obtain ⟨s, hwrites, h⟩ := hinit.writeAll ws
  rw [List.nil_append] at h
  obtain ⟨s₁, hread, h₁⟩ := h.read r (List.length_pos_iff.mpr hws) hmix
  obtain ⟨s₂, hcopy, h₂⟩ := h₁.copyAll
  obtain ⟨t, hrecheck, hreturned, hcompleted⟩ := h₂.recheck
  have hinside : insideRead r s₂ (.recheck r 2) := rfl
  exact ⟨s, hwrites, h.completed, h.writer, h.reader, 2, s₁, t, hread,
    hcopy.tail hinside hrecheck, hcompleted, hreturned⟩

/-- Two words, written as `00` and then as `11`, and then read as `01`. -/
theorem torn_read_two :
    ∃ s : State 2 Nat Unit, Reach step anyStep (init (fun _ => 7)) s
      ∧ s.completed = [fun _ => 0, fun _ => 1] ∧ s.writer = .idle ∧ (∀ q, s.reader q = .idle)
      ∧ ∃ k s₁ t, step s (.read () k) = some s₁ ∧ Reach step (insideRead ()) s₁ t
          ∧ t.completed = [fun _ => 0, fun _ => 1]
          ∧ t.reader () = .returned (some (fun i => i.val)) := by
  refine torn_read (fun _ => 7) [fun _ => 0, fun _ => 1] (fun i => i.val) () ?_ (by simp)
  intro i
  by_cases hi : i.val = 0
  · exact ⟨fun _ => 0, by simp, hi⟩
  · refine ⟨fun _ => 1, by simp, ?_⟩
    show i.val = 1
    omega

end Entangle.Port.BlackboardWeak
