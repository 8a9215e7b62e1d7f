/-
  Entangle.Port.Blackboard — the seqlock of the blackboard service
  (`Writer::write` in entangle/src/port/writer.rs and `Reader::read` in
  entangle/src/port/reader.rs), access by access.

  The payload is `n` words of any type.  `ptr::write` and the copy out of
  `resolve_ref` move it word by word, in any order; between two of these
  accesses, or of the accesses to `sequence`, any other thread may run.

  `begun` and `completed` are a record of the past that no access reads: the
  number of begin phases (`sequence` became odd) and the values of the end
  phases (`sequence` became even again), in order.

  Main results:
    * `Inv.step` — every access keeps the invariant;
    * `returned_some` — a value returned is the last one completed at the
      second load of `sequence`;
    * `blackboard_atomic` — the blackboard is an atomic register.
-/
import Entangle.Lib.Transition
import Entangle.Lib.Word
import Mathlib.Data.Fintype.Basic
import Mathlib.Data.List.Basic

namespace Entangle.Port.Blackboard

open Entangle.Lib

/-! ## §1. The accesses. -/

/-- Where the writer stands inside `write`; `seq` is the value it loaded. -/
inductive WritePc (n : Nat) (W : Type) where
  | idle
  -- sequence loaded, the begin store to come
  | loaded (value : Fin n → W) (seq : U64)
  -- begin stored, the words of `todo` still to be stored
  | writing (value : Fin n → W) (seq : U64) (todo : Finset (Fin n))

/-- Where a reader stands inside `read`; `s1` is its last first load. -/
inductive ReadPc (n : Nat) (W : Type) where
  | idle
  -- spin_loop, the next first load to come
  | retry
  -- the words copied so far
  | copying (s1 : U64) (buf : Fin n → Option W)
  | returned (result : Option (Fin n → W))

/-- What writer and readers share, where each stands, and a record of the past: how many
writes have begun and the values of those that are over. -/
structure State (n : Nat) (W Tid : Type) where
  sequence : U64
  words : Fin n → W
  writer : WritePc n W
  reader : Tid → ReadPc n W
  begun : Nat
  completed : List (Fin n → W)

/-- The accesses of the writer and of the readers, one by one. -/
inductive Act (n : Nat) (W Tid : Type) where
  | write (value : Fin n → W)
  | beginPhase
  | storeWord (i : Fin n)
  | endPhase
  -- the first access of a call of `read`
  | read (r : Tid)
  | again (r : Tid)
  | copyWord (r : Tid) (i : Fin n)
  | recheck (r : Tid)

variable {n : Nat} {W Tid : Type}

/-- A reader between two calls. -/
def ReadPc.resting : ReadPc n W → Bool
  | .idle | .returned _ => true
  | .retry | .copying _ _ => false

/-- What a reader does with its first load of `sequence`. -/
def afterLoad (s1 : U64) : ReadPc n W :=
  if s1 = 0#64 then .returned none
  else if s1 &&& 1#64 ≠ 0#64 then .retry
  else .copying s1 (fun _ => none)

/-- The copy, once every word is there. -/
def assemble (buf : Fin n → Option W) : Option (Fin n → W) :=
  if h : ∀ i, (buf i).isSome then some (fun i => (buf i).get (h i)) else none

def State.setReader [DecidableEq Tid] (s : State n W Tid) (r : Tid) (pc : ReadPc n W) : State n W Tid :=
  { s with reader := Function.update s.reader r pc }

/-- One access of one thread. -/
def step [DecidableEq Tid] (s : State n W Tid) : Act n W Tid → Option (State n W Tid)
  | .write v =>
      match s.writer with
      | .idle => some { s with writer := .loaded v s.sequence }
      | _ => none
  | .beginPhase =>
      match s.writer with
      | .loaded v seq =>
          some { s with
            sequence := seq + 1
            writer := .writing v seq Finset.univ
            begun := s.begun + 1 }
      | _ => none
  | .storeWord i =>
      match s.writer with
      | .writing v seq todo =>
          if i ∈ todo then
            some { s with
              words := Function.update s.words i (v i)
              writer := .writing v seq (todo.erase i) }
          else none
      | _ => none
  | .endPhase =>
      match s.writer with
      | .writing v seq todo =>
          if todo = ∅ then
            some { s with
              sequence := seq + 2
              writer := .idle
              completed := s.completed ++ [v] }
          else none
      | _ => none
  | .read r =>
      if (s.reader r).resting then some (s.setReader r (afterLoad s.sequence)) else none
  | .again r =>
      match s.reader r with
      | .retry => some (s.setReader r (afterLoad s.sequence))
      | _ => none
  | .copyWord r i =>
      match s.reader r with
      | .copying s1 buf =>
          if (buf i).isSome then none
          else some (s.setReader r (.copying s1 (Function.update buf i (some (s.words i)))))
      | _ => none
  | .recheck r =>
      match s.reader r with
      | .copying s1 buf =>
          (assemble buf).map (fun v =>
            s.setReader r (if s1 = s.sequence then .returned (some v) else .retry))
      | _ => none

/-- A new writer: nothing written, whatever the segment holds. -/
def init (memory : Fin n → W) : State n W Tid :=
  { sequence := 0#64, words := memory, writer := .idle, reader := fun _ => .idle
    begun := 0, completed := [] }

/-- Everything an access can do, with its guard. -/
inductive Access [DecidableEq Tid] (s : State n W Tid) : Act n W Tid → State n W Tid → Prop
  | write (v : Fin n → W) :
      s.writer = .idle → Access s (.write v) { s with writer := .loaded v s.sequence }
  | beginPhase (v : Fin n → W) (seq : U64) :
      s.writer = .loaded v seq →
      Access s .beginPhase
        { s with sequence := seq + 1, writer := .writing v seq Finset.univ, begun := s.begun + 1 }
  | storeWord (v : Fin n → W) (seq : U64) (todo : Finset (Fin n)) (i : Fin n) :
      s.writer = .writing v seq todo → i ∈ todo →
      Access s (.storeWord i)
        { s with
          words := Function.update s.words i (v i)
          writer := .writing v seq (todo.erase i) }
  | endPhase (v : Fin n → W) (seq : U64) :
      s.writer = .writing v seq ∅ →
      Access s .endPhase
        { s with sequence := seq + 2, writer := .idle, completed := s.completed ++ [v] }
  | read (r : Tid) :
      (s.reader r).resting = true → Access s (.read r) (s.setReader r (afterLoad s.sequence))
  | again (r : Tid) :
      s.reader r = .retry → Access s (.again r) (s.setReader r (afterLoad s.sequence))
  | copyWord (r : Tid) (i : Fin n) (s1 : U64) (buf : Fin n → Option W) :
      s.reader r = .copying s1 buf → buf i = none →
      Access s (.copyWord r i)
        (s.setReader r (.copying s1 (Function.update buf i (some (s.words i)))))
  | recheck (r : Tid) (s1 : U64) (buf : Fin n → Option W) (v : Fin n → W) :
      s.reader r = .copying s1 buf → assemble buf = some v →
      Access s (.recheck r)
        (s.setReader r (if s1 = s.sequence then .returned (some v) else .retry))

theorem step_cases [DecidableEq Tid] {s s' : State n W Tid} {a : Act n W Tid}
    (hs : step s a = some s') : Access s a s' := by
  cases a with
  | write v =>
      simp only [step] at hs
      split at hs
      next hpc =>
        injection hs with hs
        subst hs
        exact .write v hpc
      next => exact absurd hs (by simp)
  | beginPhase =>
      simp only [step] at hs
      split at hs
      next v seq hpc =>
        injection hs with hs
        subst hs
        exact .beginPhase v seq hpc
      next => exact absurd hs (by simp)
  | storeWord i =>
      simp only [step] at hs
      split at hs
      next v seq todo hpc =>
        split at hs
        next hi =>
          injection hs with hs
          subst hs
          exact .storeWord v seq todo i hpc hi
        next => exact absurd hs (by simp)
      next => exact absurd hs (by simp)
  | endPhase =>
      simp only [step] at hs
      split at hs
      next v seq todo hpc =>
        split at hs
        next htodo =>
          injection hs with hs
          subst hs htodo
          exact .endPhase v seq hpc
        next => exact absurd hs (by simp)
      next => exact absurd hs (by simp)
  | read r =>
      simp only [step] at hs
      split at hs
      next hrest =>
        injection hs with hs
        subst hs
        exact .read r hrest
      next => exact absurd hs (by simp)
  | again r =>
      simp only [step] at hs
      split at hs
      next hpc =>
        injection hs with hs
        subst hs
        exact .again r hpc
      next => exact absurd hs (by simp)
  | copyWord r i =>
      simp only [step] at hs
      split at hs
      next s1 buf hpc =>
        split at hs
        next => exact absurd hs (by simp)
        next hnew =>
          injection hs with hs
          subst hs
          exact .copyWord r i s1 buf hpc (Option.not_isSome_iff_eq_none.mp hnew)
      next => exact absurd hs (by simp)
  | recheck r =>
      simp only [step] at hs
      split at hs
      next s1 buf hpc =>
        obtain ⟨v, hv, rfl⟩ := Option.map_eq_some_iff.mp hs
        exact .recheck r s1 buf v hpc hv
      next => exact absurd hs (by simp)

/-! ## §2. The invariant. -/

/-- The writer's part.  Outside a phase the words are those of the last
completed write; inside, the words already stored are those of the new one. -/
def WriterOk (s : State n W Tid) : Prop :=
  match s.writer with
  | .idle => s.begun = s.completed.length
  | .loaded _ seq => s.begun = s.completed.length ∧ seq = s.sequence
  | .writing v seq todo =>
      s.begun = s.completed.length + 1 ∧ seq + 1 = s.sequence
        ∧ ∀ i, i ∉ todo → s.words i = v i

/-- A reader's part: it started at an even count, and as long as that is still
the count what it copied is what the words are. -/
def ReaderOk (s : State n W Tid) : ReadPc n W → Prop
  | .copying s1 buf =>
      ∃ k, 0 < k ∧ s1 = BitVec.ofNat 64 (2 * k) ∧ 2 * k ≤ s.begun + s.completed.length
        ∧ (2 * k = s.begun + s.completed.length →
            ∀ i w, buf i = some w → s.words i = w)
  | _ => True

/-- The same with the count spelled out: the copy began after `k` writes. -/
def CopiedSince (s : State n W Tid) (k : Nat) : ReadPc n W → Prop
  | .copying s1 buf =>
      0 < k ∧ s1 = BitVec.ofNat 64 (2 * k) ∧ 2 * k ≤ s.begun + s.completed.length
        ∧ (2 * k = s.begun + s.completed.length →
            ∀ i w, buf i = some w → s.words i = w)
  | _ => True

theorem CopiedSince.readerOk {s : State n W Tid} {k : Nat} {pc : ReadPc n W}
    (h : CopiedSince s k pc) : ReaderOk s pc := by
  cases pc with
  | copying s1 buf => exact ⟨k, h⟩
  | _ => trivial

theorem ReaderOk.since {s : State n W Tid} {pc : ReadPc n W} (h : ReaderOk s pc) :
    ∃ k, CopiedSince s k pc := by
  cases pc with
  | copying s1 buf => exact h
  | _ => exact ⟨0, trivial⟩

/-- **The invariant.**  `sequence` counts the beginnings and the ends, so it is odd during a
write; while there is none the words are those of the last write.  A reader that has
loaded an even count has copied words of that write as long as no other has begun. -/
structure Inv (s : State n W Tid) : Prop where
  sequence : s.sequence = BitVec.ofNat 64 (s.begun + s.completed.length)
  writer : WriterOk s
  words : s.begun = s.completed.length →
    ∀ v, s.completed.getLast? = some v → s.words = v
  reader : ∀ r, ReaderOk s (s.reader r)

theorem inv_init (memory : Fin n → W) : Inv (init memory : State n W Tid) where
  sequence := rfl
  writer := rfl
  words := by
    intro _ v hv
    simp [init] at hv
  reader := fun _ => trivial

/-- An odd count is seen as odd, also when the word has wrapped. -/
theorem ofNat_and_one (c : Nat) : BitVec.ofNat 64 c &&& 1#64 = 0#64 ↔ c % 2 = 0 := by
  have h := and_mask 64 1 c (by omega)
  have hone : BitVec.ofNat 64 (2 ^ 1 - 1) = 1#64 := rfl
  rw [hone] at h
  constructor
  · intro hz
    rw [hz] at h
    exact h.symm
  · intro hz
    apply BitVec.eq_of_toNat_eq
    rw [h]
    exact hz

theorem begun_cases {s : State n W Tid} (h : Inv s) :
    s.begun = s.completed.length ∨ s.begun = s.completed.length + 1 := by
  have hw := h.writer
  unfold WriterOk at hw
  split at hw
  next => exact .inl hw
  next => exact .inl hw.1
  next => exact .inr hw.1

/-- A first load leaves the reader in order: the copy begins now. -/
theorem Inv.afterLoad {s : State n W Tid} (h : Inv s) :
    CopiedSince s s.begun (afterLoad s.sequence) := by
  unfold Blackboard.afterLoad
  split
  next => trivial
  next hne =>
    split
    next => trivial
    next heven =>
      -- the count is even, so no phase is open and it is twice the completed writes
      rw [not_not, h.sequence, ofNat_and_one] at heven
      have hb : s.begun = s.completed.length := by
        rcases begun_cases h with hb | hb
        · exact hb
        · omega
      refine ⟨?_, ?_, ?_, ?_⟩
      · by_contra hz
        have hz' : s.begun + s.completed.length = 0 := by omega
        rw [h.sequence, hz'] at hne
        exact hne rfl
      · rw [h.sequence, ← hb, Nat.two_mul]
      · omega
      · intro _ i w hw
        simp at hw

/-- What the readers know survives any move of the writer that raises the count. -/
theorem CopiedSince.raise {s s' : State n W Tid} {k : Nat} {pc : ReadPc n W}
    (h : CopiedSince s k pc)
    (hlt : s.begun + s.completed.length < s'.begun + s'.completed.length) :
    CopiedSince s' k pc := by
  cases pc with
  | copying s1 buf =>
      obtain ⟨hk, hs1, hle, _⟩ := h
      exact ⟨hk, hs1, by omega, by omega⟩
  | _ => trivial

/-- ... and any move that changes neither the count nor, at an even count, the words. -/
theorem CopiedSince.keep {s s' : State n W Tid} {k : Nat} {pc : ReadPc n W}
    (h : CopiedSince s k pc)
    (hcount : s'.begun + s'.completed.length = s.begun + s.completed.length)
    (hwords : (s.begun + s.completed.length) % 2 = 0 → s'.words = s.words) :
    CopiedSince s' k pc := by
  cases pc with
  | copying s1 buf =>
      obtain ⟨hk, hs1, hle, hbuf⟩ := h
      refine ⟨hk, hs1, by omega, fun heq i w hw => ?_⟩
      rw [hwords (by omega)]
      exact hbuf (by omega) i w hw
  | _ => trivial

theorem ReaderOk.raise {s s' : State n W Tid} {pc : ReadPc n W} (h : ReaderOk s pc)
    (hlt : s.begun + s.completed.length < s'.begun + s'.completed.length) : ReaderOk s' pc := by
  obtain ⟨k, hk⟩ := h.since
  exact (hk.raise hlt).readerOk

theorem ReaderOk.keep {s s' : State n W Tid} {pc : ReadPc n W} (h : ReaderOk s pc)
    (hcount : s'.begun + s'.completed.length = s.begun + s.completed.length)
    (hwords : (s.begun + s.completed.length) % 2 = 0 → s'.words = s.words) : ReaderOk s' pc := by
  obtain ⟨k, hk⟩ := h.since
  exact (hk.keep hcount hwords).readerOk

/-- **A value is returned only if it is the last completed write at the second
load**: equal loads mean equal counts, so nothing was written in between. -/
theorem CopiedSince.last {s : State n W Tid} (h : Inv s) {k : Nat} (hfew : s.begun < k + 2 ^ 63)
    {buf : Fin n → Option W} {v : Fin n → W} (hk : CopiedSince s k (.copying s.sequence buf))
    (hv : assemble buf = some v) : s.completed.getLast? = some v := by
  obtain ⟨hk, hs1, hle, hbuf⟩ := hk
  have hcases := begun_cases h
  have hcount : 2 * k = s.begun + s.completed.length := by
    rw [h.sequence] at hs1
    exact ofNat_inj_of_close 64 _ _ hle (by omega) hs1
  have hb : s.begun = s.completed.length := by omega
  have hne : s.completed ≠ [] := by
    intro hnil
    rw [hnil] at hb hcount
    simp at hb hcount
    omega
  obtain ⟨last, hlast⟩ : ∃ last, s.completed.getLast? = some last :=
    ⟨_, List.getLast?_eq_some_getLast hne⟩
  have hwords := h.words hb last hlast
  unfold assemble at hv
  split at hv
  next hall =>
    injection hv with hv
    have : last = v := by
      rw [← hwords, ← hv]
      funext i
      exact hbuf hcount i _ (Option.some_get (hall i)).symm
    rw [hlast, this]
  next => exact absurd hv (by simp)

theorem returned_some {s : State n W Tid} (h : Inv s) (hfew : s.begun < 2 ^ 63) {r : Tid}
    {buf : Fin n → Option W} {v : Fin n → W} (hpc : s.reader r = .copying s.sequence buf)
    (hv : assemble buf = some v) : s.completed.getLast? = some v := by
  have hr := h.reader r
  rw [hpc] at hr
  obtain ⟨k, hk⟩ := hr.since
  exact hk.last h (by omega) hv

/-- `None` is returned only before the first begin phase. -/
theorem returned_none {s : State n W Tid} (h : Inv s) (hfew : s.begun < 2 ^ 63)
    (hz : s.sequence = 0#64) : s.begun = 0 := by
  have hcases := begun_cases h
  rw [h.sequence] at hz
  have := ofNat_inj_of_close 64 0 _ (Nat.zero_le _) (by omega) hz
  omega

theorem Inv.beginPhase {s : State n W Tid} (h : Inv s) {v : Fin n → W} {seq : U64}
    (hpc : s.writer = .loaded v seq) :
    Inv { s with
      sequence := seq + 1, writer := .writing v seq Finset.univ, begun := s.begun + 1 } := by
  have hwriter := h.writer
  unfold WriterOk at hwriter
  rw [hpc] at hwriter
  obtain ⟨hb, rfl⟩ := hwriter
  refine ⟨?_, ⟨congrArg (· + 1) hb, rfl, by simp⟩, ?_, ?_⟩
  · show s.sequence + 1 = BitVec.ofNat 64 (s.begun + 1 + s.completed.length)
    rw [h.sequence, ← ofNat_succ]
    congr 1
    omega
  · intro hb'
    have : s.begun + 1 = s.completed.length := hb'
    omega
  · intro r
    refine (h.reader r).raise ?_
    show s.begun + s.completed.length < s.begun + 1 + s.completed.length
    omega

theorem Inv.storeWord {s : State n W Tid} (h : Inv s) {v : Fin n → W} {seq : U64}
    {todo : Finset (Fin n)} (hpc : s.writer = .writing v seq todo) (i : Fin n) :
    Inv { s with
      words := Function.update s.words i (v i)
      writer := .writing v seq (todo.erase i) } := by
  have hwriter := h.writer
  unfold WriterOk at hwriter
  rw [hpc] at hwriter
  obtain ⟨hb, hseq, hstored⟩ := hwriter
  refine ⟨h.sequence, ⟨hb, hseq, ?_⟩, ?_, ?_⟩
  · intro j hj
    show Function.update s.words i (v i) j = v j
    by_cases hji : j = i
    · subst hji
      rw [Function.update_self]
    · rw [Function.update_of_ne hji]
      exact hstored j (fun hmem => hj (Finset.mem_erase.mpr ⟨hji, hmem⟩))
  · intro hb'
    have : s.begun = s.completed.length := hb'
    omega
  · -- the count is odd, so no reader relies on the words
    intro r
    exact (h.reader r).keep rfl (fun heven => by omega)

theorem Inv.endPhase {s : State n W Tid} (h : Inv s) {v : Fin n → W} {seq : U64}
    (hpc : s.writer = .writing v seq ∅) :
    Inv { s with sequence := seq + 2, writer := .idle, completed := s.completed ++ [v] } := by
  have hwriter := h.writer
  unfold WriterOk at hwriter
  rw [hpc] at hwriter
  obtain ⟨hb, hseq, hstored⟩ := hwriter
  have hlen : (s.completed ++ [v]).length = s.completed.length + 1 := by simp
  refine ⟨?_, ?_, ?_, ?_⟩
  · show seq + 2 = BitVec.ofNat 64 (s.begun + (s.completed ++ [v]).length)
    have h2 : seq + 2 = s.sequence + 1 := by
      rw [← hseq, BitVec.add_assoc]
      rfl
    rw [h2, h.sequence, ← ofNat_succ, hlen]
    rfl
  · show s.begun = (s.completed ++ [v]).length
    omega
  · intro _ w hw
    have hvw : v = w := by simpa using hw
    subst hvw
    funext i
    exact hstored i (by simp)
  · intro r
    refine (h.reader r).raise ?_
    show s.begun + s.completed.length < s.begun + (s.completed ++ [v]).length
    omega

/-- One more word copied: it is what the word is now. -/
theorem CopiedSince.copyWord {s : State n W Tid} {k : Nat} {s1 : U64} {buf : Fin n → Option W}
    (h : CopiedSince s k (.copying s1 buf)) (i : Fin n) :
    CopiedSince s k (.copying s1 (Function.update buf i (some (s.words i)))) := by
  obtain ⟨hk, hs1, hle, hbuf⟩ := h
  refine ⟨hk, hs1, hle, fun heq j w hw => ?_⟩
  by_cases hji : j = i
  · subst hji
    rw [Function.update_self] at hw
    exact Option.some.inj hw
  · rw [Function.update_of_ne hji] at hw
    exact hbuf heq j w hw

variable [DecidableEq Tid]

/-- A move of one reader. -/
theorem Inv.setReader {s : State n W Tid} (h : Inv s) (r : Tid) {pc : ReadPc n W}
    (hpc : ReaderOk s pc) : Inv (s.setReader r pc) where
  sequence := h.sequence
  writer := h.writer
  words := h.words
  reader := by
    intro r'
    have hsame : ∀ {pc'}, ReaderOk s pc' → ReaderOk (s.setReader r pc) pc' :=
      fun hok => hok.keep rfl (fun _ => rfl)
    by_cases hr : r' = r
    · subst hr
      simp only [State.setReader, Function.update_self]
      exact hsame hpc
    · simp only [State.setReader, Function.update_of_ne hr]
      exact hsame (h.reader r')

/-- **The step lemma.** -/
theorem Inv.step {s s' : State n W Tid} {a : Act n W Tid} (h : Inv s)
    (hs : step s a = some s') : Inv s' := by
  cases step_cases hs with
  | write v hpc =>
      have hwriter := h.writer
      unfold WriterOk at hwriter
      rw [hpc] at hwriter
      exact ⟨h.sequence, ⟨hwriter, rfl⟩, h.words,
        fun r => (h.reader r).keep rfl (fun _ => rfl)⟩
  | beginPhase v seq hpc => exact h.beginPhase hpc
  | storeWord v seq todo i hpc _ => exact h.storeWord hpc i
  | endPhase v seq hpc => exact h.endPhase hpc
  | read r _ => exact h.setReader r h.afterLoad.readerOk
  | again r _ => exact h.setReader r h.afterLoad.readerOk
  | copyWord r i s1 buf hpc _ =>
      have hr := h.reader r
      rw [hpc] at hr
      obtain ⟨k, hk⟩ := hr.since
      exact h.setReader r (hk.copyWord i).readerOk
  | recheck r s1 buf v _ _ =>
      refine h.setReader r ?_
      split <;> trivial

theorem inv_of_execution {memory : Fin n → W} (e : Execution step (init memory : State n W Tid))
    (i : Nat) : Inv (e.state i) :=
  e.invariant Inv (inv_init memory) (fun _ _ _ hi hs => hi.step hs) i

/-! ## §3. The step that returns. -/

/-- Thread `r` is the one that takes the step. -/
def Act.reads (r : Tid) : Act n W Tid → Bool
  | .read r' | .again r' | .copyWord r' _ | .recheck r' => r' = r
  | _ => false

/-- A step that makes a running or starting `read` return. -/
theorem returns_cases {s s' : State n W Tid} {a : Act n W Tid} {r : Tid}
    {result : Option (Fin n → W)} (ha : a.reads r = true) (hs : step s a = some s')
    (hret : s'.reader r = .returned result) :
    (result = none ∧ s.sequence = 0#64)
      ∨ ∃ s1 buf v, s.reader r = .copying s1 buf ∧ assemble buf = some v
          ∧ s1 = s.sequence ∧ result = some v := by
  have hload : (s.setReader r (afterLoad s.sequence)).reader r = .returned result →
      result = none ∧ s.sequence = 0#64 := by
    intro hr
    simp only [State.setReader, Function.update_self, afterLoad] at hr
    split at hr
    next hz =>
      injection hr with hr
      exact ⟨hr.symm, hz⟩
    next =>
      split at hr
      next => exact absurd hr (by simp)
      next => exact absurd hr (by simp)
  cases step_cases hs with
  | read r' _ =>
      obtain rfl : r' = r := by simpa [Act.reads] using ha
      exact .inl (hload hret)
  | again r' _ =>
      obtain rfl : r' = r := by simpa [Act.reads] using ha
      exact .inl (hload hret)
  | copyWord r' i s1 buf _ _ =>
      obtain rfl : r' = r := by simpa [Act.reads] using ha
      simp [State.setReader] at hret
  | recheck r' s1 buf v hpc hv =>
      obtain rfl : r' = r := by simpa [Act.reads] using ha
      simp only [State.setReader, Function.update_self] at hret
      split at hret
      next heq =>
        injection hret with hret
        exact .inr ⟨s1, buf, v, hpc, hv, heq, hret.symm⟩
      next => exact absurd hret (by simp)
  | _ => simp [Act.reads] at ha

/-! ## §4. Whole runs. -/

/-- Along a run the record of the writer only grows. -/
theorem step_begun_le {s s' : State n W Tid} {a : Act n W Tid} (hs : step s a = some s') :
    s.begun ≤ s'.begun ∧ s.completed.length ≤ s'.completed.length := by
  cases step_cases hs with
  | beginPhase v seq _ => exact ⟨Nat.le_succ _, Nat.le_refl _⟩
  | endPhase v seq _ =>
      refine ⟨Nat.le_refl _, ?_⟩
      show s.completed.length ≤ (s.completed ++ [v]).length
      rw [List.length_append]
      exact Nat.le_add_right _ _
  | _ => exact ⟨Nat.le_refl _, Nat.le_refl _⟩

/-- In the run `e`, reader `r` calls `read` at the instant `start` (its first
load) and the call returns `result` at the instant `finish`. -/
structure ReadSpan {memory : Fin n → W} (e : Execution step (init memory : State n W Tid))
    (r : Tid) (start finish : Nat) (result : Option (Fin n → W)) : Prop where
  called : e.act start = some (.read r)
  running : ∀ i, start < i → i ≤ finish → ((e.state i).reader r).resting = false
  le : start ≤ finish
  moved : ∃ a, e.act finish = some a ∧ a.reads r = true
  returned : (e.state (finish + 1)).reader r = .returned result

/-- The step at which a read returns, and what it has seen there. -/
theorem ReadSpan.at_finish {memory : Fin n → W}
    {e : Execution step (init memory : State n W Tid)} {r : Tid} {start finish : Nat}
    {result : Option (Fin n → W)} (h : ReadSpan e r start finish result)
    (hfew : (e.state finish).begun < 2 ^ 63) :
    (result = none ∧ (e.state finish).begun = 0)
      ∨ ∃ v, result = some v ∧ (e.state finish).completed.getLast? = some v := by
  obtain ⟨a, hact, hreads⟩ := h.moved
  have hinv := inv_of_execution e finish
  rcases returns_cases hreads (e.move finish a hact) h.returned with
    ⟨rfl, hz⟩ | ⟨s1, buf, v, hpc, hv, rfl, rfl⟩
  · exact .inl ⟨rfl, returned_none hinv hfew hz⟩
  · exact .inr ⟨v, rfl, returned_some hinv hfew hpc hv⟩

/-- **The blackboard is an atomic register.**  `number` gives, for the instant
at which a read returns, the number of the write it returns: that write is the
last one completed at an instant of the read, and a read that starts after
another one has returned gets the same write or a later one. -/
theorem blackboard_atomic (memory : Fin n → W)
    (e : Execution step (init memory : State n W Tid))
    (hfew : ∀ i, (e.state i).begun < 2 ^ 63) :
    ∃ number : Nat → Nat,
      (∀ r start finish v, ReadSpan e r start finish (some v) →
        ∃ i, start ≤ i ∧ i ≤ finish ∧ (e.state i).completed.length = number finish
          ∧ (e.state i).completed.getLast? = some v)
      ∧ (∀ r start finish result r' start' finish' result',
          ReadSpan e r start finish result → ReadSpan e r' start' finish' result' →
          finish < start' → number finish ≤ number finish')
      ∧ (∀ r start finish, ReadSpan e r start finish none → (e.state start).begun = 0) := by
  refine ⟨fun i => (e.state i).completed.length, ?_, ?_, ?_⟩
  · intro r start finish v h
    refine ⟨finish, h.le, Nat.le_refl _, rfl, ?_⟩
    rcases h.at_finish (hfew finish) with ⟨hnone, _⟩ | ⟨w, hw, hlast⟩
    · exact absurd hnone (by simp)
    · injection hw with hw
      rw [hw]
      exact hlast
  · intro r start finish result r' start' finish' result' _ h' hlt
    have hmono := e.mono_of_step (fun s => s.completed.length)
      (fun _ _ _ hs => (step_begun_le hs).2)
    exact hmono (by have := h'.le; omega)
  · intro r start finish h
    rcases h.at_finish (hfew finish) with ⟨_, hz⟩ | ⟨w, hw, _⟩
    · have hmono := e.mono_of_step (fun s => s.begun) (fun _ _ _ hs => (step_begun_le hs).1)
      have : (e.state start).begun ≤ (e.state finish).begun := hmono h.le
      omega
    · exact absurd hw (by simp)

/-- The words of a memory of two. -/
def firstWord : Fin 2 := Fin.castSucc (Fin.last 0)

def secondWord : Fin 2 := Fin.last 1

/-- A read of two words that overlaps a write: the first copy mixes old and new
and is thrown away, the second one is the new value. -/
def overlapRun : List (Act 2 Bool Unit) :=
  [.write (fun _ => true), .beginPhase, .storeWord secondWord, .storeWord firstWord, .endPhase,
   .read (), .copyWord () firstWord, .write (fun _ => false), .beginPhase,
   .storeWord secondWord, .copyWord () secondWord, .recheck (), .again (),
   .storeWord firstWord, .endPhase, .again (), .copyWord () secondWord,
   .copyWord () firstWord, .recheck ()]

theorem overlapRun_goes :
    (exec step (init (fun _ => false) : State 2 Bool Unit) overlapRun).isSome = true := by
  decide

/-- The run of `overlapRun`. -/
def overlap : Execution step (init (fun _ => false) : State 2 Bool Unit) :=
  .ofExec step _ overlapRun overlapRun_goes

theorem overlap_span : ReadSpan overlap () 5 18 (some (fun _ => false)) where
  called := rfl
  running := by
    have hrun : ∀ i, i < 19 → 5 < i → ((overlap.state i).reader ()).resting = false := by
      decide
    exact fun i hlow hhigh => hrun i (by omega) hlow
  le := by decide
  moved := ⟨.recheck (), rfl, rfl⟩
  returned := by
    show ReadPc.returned (some _) = _
    congr 2
    funext i
    match i with
    | 0 => rfl
    | 1 => rfl

/-- The read of `overlap` returns the second write, last completed at its end. -/
theorem blackboard_atomic_overlap :
    ∃ number : Nat → Nat,
      ∃ i, 5 ≤ i ∧ i ≤ 18 ∧ (overlap.state i).completed.length = number 18
        ∧ (overlap.state i).completed.getLast? = some (fun _ => false) := by
  have hfew : ∀ i, (overlap.state i).begun < 2 ^ 63 := by
    intro i
    by_cases hi : i < 19
    · revert i
      decide
    · rw [overlap, Execution.ofExec_state_of_le _ (Nat.not_lt.mp hi)]
      decide
  obtain ⟨number, hsome, _⟩ := blackboard_atomic _ overlap hfew
  exact ⟨number, hsome () 5 18 _ overlap_span⟩

end Entangle.Port.Blackboard
