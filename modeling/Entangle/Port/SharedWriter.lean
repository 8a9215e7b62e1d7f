/-
  Entangle.Port.SharedWriter — many threads that write through one `Writer`.

  `Writer::write` takes `&self`, so threads that share the writer may be inside
  it at once.  Each runs the accesses of `Blackboard.step` with its own program
  counter, on the one sequence and the one set of words.

  `begun` and `completed` count as before; `called` lists the values `write`
  has been called with, and `since` is, for each reader, the number of begin
  phases before its last first load.  No access reads them.

  Main definitions:
    * `Safe` — a value returned is the value of one call, and the sequence is
      even when nobody is writing;
    * `serialised` — a write begins its phase only if nobody is inside one and
      the sequence is still what it loaded.

  Main results:
    * `shared_writer_torn` — two threads that write at once can make a reader
      return a mixture, and can leave the sequence odd;
    * `shared_writer_serialised` — runs that keep to `serialised` are safe.
-/
import Entangle.Port.Blackboard

namespace Entangle.Port.SharedWriter

open Entangle.Lib
open Entangle.Port.Blackboard (WritePc ReadPc afterLoad assemble CopiedSince)

/-! ## §1. The threads. -/

/-- As for one writer, but with any number of them.  Beside `begun` and `completed` the
record has the values that `write` was called with, and for every reader how many writes
had begun when its call made its first load. -/
structure State (n : Nat) (W Wid Rid : Type) where
  sequence : U64
  words : Fin n → W
  writer : Wid → WritePc n W
  reader : Rid → ReadPc n W
  begun : Nat
  completed : List (Fin n → W)
  called : List (Fin n → W)
  since : Rid → Nat

variable {n : Nat} {W Wid Rid : Type}

/-- The blackboard as a thread with the program counter `pc` sees it. -/
def State.view (s : State n W Wid Rid) (pc : WritePc n W) : Blackboard.State n W Rid :=
  { sequence := s.sequence
    words := s.words
    writer := pc
    reader := s.reader
    begun := s.begun
    completed := s.completed }

/-- The value `write` is called with. -/
def argument : Blackboard.Act n W Rid → Option (Fin n → W)
  | .write v => some v
  | _ => none

/-- The reader that makes a first load. -/
def firstLoad : Blackboard.Act n W Rid → Option Rid
  | .read r | .again r => some r
  | _ => none

variable [DecidableEq Wid] [DecidableEq Rid]

/-- One access, made by the thread `w`; a reader is used by any thread. -/
def step (s : State n W Wid Rid) (a : Wid × Blackboard.Act n W Rid) :
    Option (State n W Wid Rid) :=
  (Blackboard.step (s.view (s.writer a.1)) a.2).map (fun t =>
    { sequence := t.sequence
      words := t.words
      writer := Function.update s.writer a.1 t.writer
      reader := t.reader
      begun := t.begun
      completed := t.completed
      called := s.called ++ (argument a.2).toList
      since := fun r => if firstLoad a.2 = some r then s.begun else s.since r })

omit [DecidableEq Wid] [DecidableEq Rid] in
def init (memory : Fin n → W) : State n W Wid Rid :=
  { sequence := 0#64, words := memory, writer := fun _ => .idle, reader := fun _ => .idle
    begun := 0, completed := [], called := [], since := fun _ => 0 }

/-! ## §2. What sharing should keep, and when it does. -/

/-- The thread is between its begin store and its end store. -/
def inPhase : WritePc n W → Bool
  | .idle | .loaded _ _ => false
  | .writing _ _ _ => true

def idle : WritePc n W → Bool
  | .idle => true
  | .loaded _ _ | .writing _ _ _ => false

/-- What a reader gets is the value of one `write`, and `sequence` is even when nobody
writes. -/
structure Safe (s : State n W Wid Rid) : Prop where
  returned : ∀ r v, s.reader r = .returned (some v) → v ∈ s.called
  even : (∀ w, idle (s.writer w) = true) → s.sequence &&& 1#64 = 0#64

/-- The sequence is still what the thread has loaded. -/
def Current (sequence : U64) : WritePc n W → Prop
  | .loaded _ seq => seq = sequence
  | _ => True

/-- A write begins its phase only while nobody is inside one and the sequence is
what it loaded; and a read is rechecked before 2^63 writes have begun. -/
def serialised (s : State n W Wid Rid) (a : Wid × Blackboard.Act n W Rid) : Prop :=
  match a.2 with
  | .beginPhase =>
      (∀ w, inPhase (s.writer w) = false) ∧ Current s.sequence (s.writer a.1)
  | .recheck r => s.begun < s.since r + 2 ^ 63
  | _ => True

instance decidableCurrent (sequence : U64) : (pc : WritePc n W) → Decidable (Current sequence pc)
  | .idle => isTrue trivial
  | .loaded _ seq => inferInstanceAs (Decidable (seq = sequence))
  | .writing _ _ _ => isTrue trivial

instance decidableSerialised [Fintype Wid] (s : State n W Wid Rid) :
    (a : Wid × Blackboard.Act n W Rid) → Decidable (serialised s a)
  | (w, .beginPhase) => inferInstanceAs (Decidable
      ((∀ w, inPhase (s.writer w) = false) ∧ Current s.sequence (s.writer w)))
  | (_, .recheck r) => inferInstanceAs (Decidable (s.begun < s.since r + 2 ^ 63))
  | (_, .write _) => isTrue trivial
  | (_, .storeWord _) => isTrue trivial
  | (_, .endPhase) => isTrue trivial
  | (_, .read _) => isTrue trivial
  | (_, .again _) => isTrue trivial
  | (_, .copyWord _ _) => isTrue trivial

/-! ## §3. What goes wrong. -/

/-- Both threads load 0 and begin; one ends while the other is half done, and
the reader copies one word before and one after its last store. -/
def tornRun : List (Bool × Blackboard.Act 2 Bool Unit) :=
  [(true, .write (fun _ => true)), (false, .write (fun _ => false)),
   (true, .beginPhase), (false, .beginPhase), (true, .storeWord 0),
   (false, .storeWord 0), (false, .storeWord 1), (false, .endPhase),
   (true, .read ()), (true, .copyWord () 0), (true, .storeWord 1), (true, .copyWord () 1),
   (true, .recheck ())]

/-- One thread loads the odd sequence of the other, and ends at an odd one. -/
def oddRun : List (Bool × Blackboard.Act 2 Bool Unit) :=
  [(true, .write (fun _ => true)), (true, .beginPhase), (false, .write (fun _ => false)),
   (true, .storeWord 0), (true, .storeWord 1), (true, .endPhase),
   (false, .beginPhase), (false, .storeWord 0), (false, .storeWord 1), (false, .endPhase)]

/-- **Writing from two threads is not safe.**  A reader returns a value that
nobody has written, and nobody is writing but the sequence is odd. -/
theorem shared_writer_torn :
    (∃ s : State 2 Bool Bool Unit, Reach step anyStep (init (fun _ => false)) s
        ∧ (∃ v, s.reader () = .returned (some v) ∧ v ∉ s.called) ∧ ¬ Safe s)
      ∧ (∃ s : State 2 Bool Bool Unit, Reach step anyStep (init (fun _ => false)) s
        ∧ (∀ w, idle (s.writer w) = true) ∧ s.sequence = 3#64 ∧ ¬ Safe s) := by
  have htorn : (exec step (init (fun _ => false) : State 2 Bool Bool Unit) tornRun).map (fun s =>
      match s.reader () with
      | .returned (some v) => decide (v ∉ s.called)
      | _ => false) = some true := by decide
  have hodd : (exec step (init (fun _ => false) : State 2 Bool Bool Unit) oddRun).map (fun s =>
      decide ((∀ w, idle (s.writer w) = true) ∧ s.sequence = 3#64)) = some true := by decide
  obtain ⟨s, hs, hend⟩ := Option.map_eq_some_iff.mp htorn
  obtain ⟨s', hs', hend'⟩ := Option.map_eq_some_iff.mp hodd
  constructor
  · obtain ⟨v, hret, hnew⟩ : ∃ v, s.reader () = .returned (some v) ∧ v ∉ s.called := by
      split at hend
      next v hret => exact ⟨v, hret, of_decide_eq_true hend⟩
      next => exact absurd hend (by simp)
    exact ⟨s, Reach.of_exec tornRun .refl hs, ⟨v, hret, hnew⟩,
      fun hsafe => hnew (hsafe.returned () v hret)⟩
  · obtain ⟨hidle, hseq⟩ := of_decide_eq_true hend'
    refine ⟨s', Reach.of_exec oddRun .refl hs', hidle, hseq, fun hsafe => ?_⟩
    have heven := hsafe.even hidle
    rw [hseq] at heven
    exact absurd heven (by decide)

/-! ## §4. The invariant of serialised runs. -/

omit [DecidableEq Wid] [DecidableEq Rid] in
/-- The blackboard as its only writer would see it: nobody is inside a phase, or
one thread is and the others are not. -/
inductive Sole (s : State n W Wid Rid) : Prop
  | nobody : (∀ w, inPhase (s.writer w) = false) → Blackboard.Inv (s.view .idle) → Sole s
  | one (w : Wid) : inPhase (s.writer w) = true →
      (∀ w', w' ≠ w → inPhase (s.writer w') = false) →
      Blackboard.Inv (s.view (s.writer w)) → Sole s

/-- The value that a thread inside `write` carries. -/
def carried : WritePc n W → Option (Fin n → W)
  | .idle => none
  | .loaded v _ | .writing v _ _ => some v

/-- **The invariant.**  At most one writer is between its two stores of the count, and seen
with that one only the state is one of the blackboard; every value that is carried,
completed or returned is one that `write` was called with. -/
structure Inv (s : State n W Wid Rid) : Prop where
  sole : Sole s
  since : ∀ r, CopiedSince (s.view .idle) (s.since r) (s.reader r)
  carried : ∀ w v, carried (s.writer w) = some v → v ∈ s.called
  completed : ∀ v ∈ s.completed, v ∈ s.called
  returned : ∀ r v, s.reader r = .returned (some v) → v ∈ s.called

omit [DecidableEq Wid] [DecidableEq Rid] in
theorem inv_init (memory : Fin n → W) : Inv (init memory : State n W Wid Rid) where
  sole := .nobody (fun _ => rfl) (Blackboard.inv_init memory)
  since := fun _ => trivial
  carried := by
    intro w v hv
    exact absurd hv (by simp [init, SharedWriter.carried])
  completed := by
    intro v hv
    exact absurd hv (by simp [init])
  returned := by
    intro r v hv
    exact absurd hv (by simp [init])

omit [DecidableEq Rid] in
/-- A thread that is inside a phase is the one. -/
theorem Sole.of_writing {s : State n W Wid Rid} (h : Sole s) {w : Wid}
    (hw : inPhase (s.writer w) = true) :
    (∀ w', w' ≠ w → inPhase (s.writer w') = false) ∧ Blackboard.Inv (s.view (s.writer w)) := by
  cases h with
  | nobody hnone _ =>
      rw [hnone w] at hw
      exact absurd hw (by simp)
  | one w₀ _ hother hi =>
      by_cases he : w = w₀
      · subst he
        exact ⟨hother, hi⟩
      · rw [hother w he] at hw
        exact absurd hw (by simp)

omit [DecidableEq Wid] [DecidableEq Rid] in
/-- What a reader has copied is looked at without the writers. -/
theorem copiedSince_view {s : State n W Wid Rid} {pc pc' : WritePc n W} {k : Nat}
    {rpc : ReadPc n W} (h : CopiedSince (s.view pc) k rpc) : CopiedSince (s.view pc') k rpc :=
  h.keep rfl (fun _ => rfl)

/-! ## §5. One access keeps it. -/

omit [DecidableEq Rid] in
/-- The thread `w` moves outside a phase, before and after. -/
theorem Sole.outside {s s' : State n W Wid Rid} (h : Sole s) {w : Wid} {pc : WritePc n W}
    (hwriter : s'.writer = Function.update s.writer w pc)
    (hw : inPhase (s.writer w) = false) (hpc : inPhase pc = false)
    (hview : ∀ q, s'.view q = s.view q) : Sole s' := by
  have hrest : ∀ w', inPhase (s.writer w') = false → inPhase (s'.writer w') = false := by
    intro w' hw'
    rw [hwriter]
    by_cases he : w' = w
    · subst he
      rw [Function.update_self]
      exact hpc
    · rw [Function.update_of_ne he]
      exact hw'
  cases h with
  | nobody hnone hi =>
      refine .nobody (fun w' => hrest w' (hnone w')) ?_
      rw [hview]
      exact hi
  | one w₀ hin hother hi =>
      have hne : w₀ ≠ w := by
        intro he
        subst he
        rw [hin] at hw
        exact absurd hw (by simp)
      have hsame : s'.writer w₀ = s.writer w₀ := by
        rw [hwriter, Function.update_of_ne hne]
      refine .one w₀ ?_ (fun w' he => hrest w' (hother w' he)) ?_
      · rw [hsame]
        exact hin
      · rw [hsame, hview]
        exact hi

omit [DecidableEq Wid] in
/-- A reader moves; the writers do not. -/
theorem Sole.setReader {s s' : State n W Wid Rid} (h : Sole s) (hwriter : s'.writer = s.writer)
    {r : Rid} {rpc : ReadPc n W}
    (hview : ∀ pc, s'.view pc = (s.view pc).setReader r rpc)
    (hok : ∀ pc, Blackboard.Inv (s.view pc) → Blackboard.ReaderOk (s.view pc) rpc) : Sole s' := by
  cases h with
  | nobody hnone hi =>
      refine .nobody (by rw [hwriter]; exact hnone) ?_
      rw [hview]
      exact hi.setReader r (hok _ hi)
  | one w₀ hin hother hi =>
      refine .one w₀ (by rw [hwriter]; exact hin) (by rw [hwriter]; exact hother) ?_
      rw [hwriter, hview]
      exact hi.setReader r (hok _ hi)

omit [DecidableEq Wid] [DecidableEq Rid] in
theorem Sole.view {s : State n W Wid Rid} (h : Sole s) : ∃ pc, Blackboard.Inv (s.view pc) := by
  cases h with
  | nobody _ hi => exact ⟨_, hi⟩
  | one w _ _ hi => exact ⟨_, hi⟩

omit [DecidableEq Wid] [DecidableEq Rid] in
/-- The record of the calls only grows. -/
theorem Inv.record {s s' : State n W Wid Rid} (h : Inv s) (hsole : Sole s')
    (hsince : ∀ r, CopiedSince (s'.view .idle) (s'.since r) (s'.reader r))
    (hcalled : ∀ v ∈ s.called, v ∈ s'.called)
    (hcarried : ∀ w v, SharedWriter.carried (s'.writer w) = some v →
      SharedWriter.carried (s.writer w) = some v ∨ v ∈ s'.called)
    (hcompleted : ∀ v ∈ s'.completed, v ∈ s.completed ∨ v ∈ s'.called)
    (hreturned : ∀ r v, s'.reader r = .returned (some v) →
      s.reader r = .returned (some v) ∨ v ∈ s'.called) : Inv s' where
  sole := hsole
  since := hsince
  carried := by
    intro w v hv
    rcases hcarried w v hv with hv | hv
    · exact hcalled v (h.carried w v hv)
    · exact hv
  completed := by
    intro v hv
    rcases hcompleted v hv with hv | hv
    · exact hcalled v (h.completed v hv)
    · exact hv
  returned := by
    intro r v hv
    rcases hreturned r v hv with hv | hv
    · exact hcalled v (h.returned r v hv)
    · exact hv

omit [DecidableEq Rid] in
/-- What one thread carries. -/
theorem carried_update {s s' : State n W Wid Rid} {w : Wid} {pc : WritePc n W}
    (hwriter : s'.writer = Function.update s.writer w pc)
    (hpc : ∀ v, carried pc = some v → carried (s.writer w) = some v ∨ v ∈ s'.called) :
    ∀ w' v, carried (s'.writer w') = some v →
      carried (s.writer w') = some v ∨ v ∈ s'.called := by
  intro w' v hv
  rw [hwriter] at hv
  by_cases he : w' = w
  · subst he
    rw [Function.update_self] at hv
    exact hpc v hv
  · rw [Function.update_of_ne he] at hv
    exact .inl hv

omit [DecidableEq Rid] in
/-- `write` is called, and loads the sequence. -/
theorem Inv.call {s s' : State n W Wid Rid} (h : Inv s) {w : Wid} {v : Fin n → W}
    (hw : s.writer w = .idle)
    (hs : s' = { s with
      writer := Function.update s.writer w (.loaded v s.sequence)
      called := s.called ++ [v] }) : Inv s' := by
  have hwriter : s'.writer = Function.update s.writer w (.loaded v s.sequence) := by rw [hs]
  have hcalled : s'.called = s.called ++ [v] := by rw [hs]
  refine h.record (h.sole.outside hwriter (by rw [hw]; rfl) rfl (fun q => by rw [hs]; rfl)) ?_ ?_
    (carried_update hwriter ?_) ?_ ?_
  · rw [hs]
    exact h.since
  · intro u hu
    rw [hcalled]
    exact List.mem_append_left _ hu
  · intro u hu
    obtain rfl : v = u := Option.some.inj hu
    rw [hcalled]
    exact .inr (List.mem_append_right _ (List.mem_singleton.mpr rfl))
  · rw [hs]
    exact fun u hu => .inl hu
  · rw [hs]
    exact fun r u hu => .inl hu

omit [DecidableEq Rid] in
/-- **A begin store that meets the condition**: the thread is now the one. -/
theorem Inv.beginPhase {s s' : State n W Wid Rid} (h : Inv s) {w : Wid} {v : Fin n → W}
    {seq : U64} (hw : s.writer w = .loaded v seq)
    (hnone : ∀ w', inPhase (s.writer w') = false) (hseq : seq = s.sequence)
    (hs : s' = { s with
      sequence := seq + 1
      writer := Function.update s.writer w (.writing v seq Finset.univ)
      begun := s.begun + 1 }) : Inv s' := by
  have hwriter : s'.writer = Function.update s.writer w (.writing v seq Finset.univ) := by rw [hs]
  have hself : s'.writer w = .writing v seq Finset.univ := by rw [hwriter, Function.update_self]
  -- nobody is inside a phase, so the blackboard is as if this were its only writer
  have hinv : Blackboard.Inv (s.view .idle) := by
    cases h.sole with
    | nobody _ hi => exact hi
    | one w₀ hin _ _ =>
        rw [hnone w₀] at hin
        exact absurd hin (by simp)
  have hloaded : Blackboard.Inv (s.view (.loaded v seq)) :=
    ⟨hinv.sequence, ⟨hinv.writer, hseq⟩, hinv.words,
      fun r => (hinv.reader r).keep rfl (fun _ => rfl)⟩
  refine h.record (.one w ?_ (fun w' he => ?_) ?_) (fun r => ?_) ?_ (carried_update hwriter ?_)
    ?_ ?_
  · rw [hself]
    rfl
  · rw [hwriter, Function.update_of_ne he]
    exact hnone w'
  · rw [hself, hs]
    exact hloaded.beginPhase rfl
  · rw [hs]
    refine (h.since r).raise ?_
    show s.begun + s.completed.length < s.begun + 1 + s.completed.length
    omega
  · rw [hs]
    exact fun u hu => hu
  · intro u hu
    rw [hw]
    exact .inl hu
  · rw [hs]
    exact fun u hu => .inl hu
  · rw [hs]
    exact fun r u hu => .inl hu

omit [DecidableEq Rid] in
theorem Inv.storeWord {s s' : State n W Wid Rid} (h : Inv s) {w : Wid} {v : Fin n → W}
    {seq : U64} {todo : Finset (Fin n)} (hw : s.writer w = .writing v seq todo) {i : Fin n}
    (hs : s' = { s with
      words := Function.update s.words i (v i)
      writer := Function.update s.writer w (.writing v seq (todo.erase i)) }) : Inv s' := by
  have hwriter : s'.writer = Function.update s.writer w (.writing v seq (todo.erase i)) := by
    rw [hs]
  have hself : s'.writer w = .writing v seq (todo.erase i) := by
    rw [hwriter, Function.update_self]
  obtain ⟨hother, hinv⟩ := h.sole.of_writing (w := w) (by rw [hw]; rfl)
  rw [hw] at hinv
  have hodd : s.begun = s.completed.length + 1 := hinv.writer.1
  refine h.record (.one w ?_ (fun w' he => ?_) ?_) (fun r => ?_) ?_ (carried_update hwriter ?_)
    ?_ ?_
  · rw [hself]
    rfl
  · rw [hwriter, Function.update_of_ne he]
    exact hother w' he
  · rw [hself, hs]
    exact hinv.storeWord rfl i
  · rw [hs]
    refine (h.since r).keep rfl (fun heven => ?_)
    have heven' : (s.begun + s.completed.length) % 2 = 0 := heven
    omega
  · rw [hs]
    exact fun u hu => hu
  · intro u hu
    rw [hw]
    exact .inl hu
  · rw [hs]
    exact fun u hu => .inl hu
  · rw [hs]
    exact fun r u hu => .inl hu

omit [DecidableEq Rid] in
theorem Inv.endPhase {s s' : State n W Wid Rid} (h : Inv s) {w : Wid} {v : Fin n → W}
    {seq : U64} (hw : s.writer w = .writing v seq ∅)
    (hs : s' = { s with
      sequence := seq + 2
      writer := Function.update s.writer w .idle
      completed := s.completed ++ [v] }) : Inv s' := by
  have hwriter : s'.writer = Function.update s.writer w .idle := by rw [hs]
  obtain ⟨hother, hinv⟩ := h.sole.of_writing (w := w) (by rw [hw]; rfl)
  rw [hw] at hinv
  refine h.record (.nobody (fun w' => ?_) ?_) (fun r => ?_) ?_ (carried_update hwriter ?_) ?_ ?_
  · rw [hwriter]
    by_cases he : w' = w
    · rw [he, Function.update_self]
      rfl
    · rw [Function.update_of_ne he]
      exact hother w' he
  · rw [hs]
    exact hinv.endPhase rfl
  · rw [hs]
    refine (h.since r).raise ?_
    show s.begun + s.completed.length < s.begun + (s.completed ++ [v]).length
    rw [List.length_append, List.length_singleton]
    omega
  · rw [hs]
    exact fun u hu => hu
  · exact fun u hu => absurd hu (by simp [SharedWriter.carried])
  · rw [hs]
    intro u hu
    rcases List.mem_append.mp hu with hu | hu
    · exact .inl hu
    · obtain rfl := List.mem_singleton.mp hu
      exact .inr (h.carried w u (by rw [hw]; rfl))
  · rw [hs]
    exact fun r u hu => .inl hu

omit [DecidableEq Wid] in
/-- A reader moves: what it knows, and what it returns if it returns. -/
theorem Inv.readerMoves {s s' : State n W Wid Rid} (h : Inv s) (r : Rid) (rpc : ReadPc n W)
    (k : Nat)
    (hs : s' = { s with
      reader := Function.update s.reader r rpc
      since := Function.update s.since r k })
    (hok : ∀ pc, Blackboard.Inv (s.view pc) → CopiedSince (s.view pc) k rpc)
    (hret : ∀ v, rpc = .returned (some v) → v ∈ s.called) : Inv s' := by
  obtain ⟨pc, hpc⟩ := h.sole.view
  refine h.record (h.sole.setReader (by rw [hs]) (fun q => by rw [hs]; rfl)
    (fun q hq => (hok q hq).readerOk)) (fun r' => ?_) ?_ ?_ ?_ ?_
  · rw [hs]
    show CopiedSince _ (Function.update s.since r k r') (Function.update s.reader r rpc r')
    by_cases he : r' = r
    · rw [he, Function.update_self, Function.update_self]
      exact (hok pc hpc).keep rfl (fun _ => rfl)
    · rw [Function.update_of_ne he, Function.update_of_ne he]
      exact (h.since r').keep rfl (fun _ => rfl)
  · rw [hs]
    exact fun u hu => hu
  · rw [hs]
    exact fun w u hu => .inl hu
  · rw [hs]
    exact fun u hu => .inl hu
  · rw [hs]
    intro r' u hu
    have hu' : Function.update s.reader r rpc r' = .returned (some u) := hu
    by_cases he : r' = r
    · rw [he, Function.update_self] at hu'
      exact .inr (hret u hu')
    · rw [Function.update_of_ne he] at hu'
      exact .inl hu'

omit [DecidableEq Rid] [DecidableEq Wid] in
theorem afterLoad_not_returned (s1 : U64) (v : Fin n → W) :
    (afterLoad s1 : ReadPc n W) ≠ .returned (some v) := by
  unfold afterLoad
  split
  next => simp
  next => split <;> simp

omit [DecidableEq Wid] in
/-- The reader that loads is the one whose count starts anew. -/
theorem since_load (since : Rid → Nat) (begun : Nat) (r : Rid) :
    (fun r' => if r = r' then begun else since r') = Function.update since r begun := by
  funext r'
  by_cases he : r' = r
  · rw [he, Function.update_self, if_pos rfl]
  · rw [Function.update_of_ne he, if_neg (fun h => he h.symm)]

/-- **The step lemma.** -/
theorem Inv.step {s s' : State n W Wid Rid} {a : Wid × Blackboard.Act n W Rid} (h : Inv s)
    (hok : serialised s a) (hs : step s a = some s') : Inv s' := by
  obtain ⟨w, a⟩ := a
  obtain ⟨t, ht, rfl⟩ := Option.map_eq_some_iff.mp hs
  cases Blackboard.step_cases ht with
  | write v hpc => exact h.call hpc rfl
  | beginPhase v seq hpc =>
      have hw : s.writer w = .loaded v seq := hpc
      obtain ⟨hnone, hcur⟩ := hok
      rw [hw] at hcur
      exact h.beginPhase hw hnone hcur (by simp [State.view, argument, firstLoad])
  | storeWord v seq todo i hpc _ =>
      have hw : s.writer w = .writing v seq todo := hpc
      exact h.storeWord hw (i := i) (by simp [State.view, argument, firstLoad])
  | endPhase v seq hpc =>
      have hw : s.writer w = .writing v seq ∅ := hpc
      exact h.endPhase hw (by simp [State.view, argument, firstLoad])
  | read r _ =>
      refine h.readerMoves r (afterLoad s.sequence) s.begun ?_ (fun pc hpc => hpc.afterLoad)
        (fun v hv => absurd hv (afterLoad_not_returned _ v))
      simp [State.view, Blackboard.State.setReader, argument, firstLoad, since_load]
  | again r _ =>
      refine h.readerMoves r (afterLoad s.sequence) s.begun ?_ (fun pc hpc => hpc.afterLoad)
        (fun v hv => absurd hv (afterLoad_not_returned _ v))
      simp [State.view, Blackboard.State.setReader, argument, firstLoad, since_load]
  | copyWord r i s1 buf hpc _ =>
      have hr := h.since r
      rw [show s.reader r = .copying s1 buf from hpc] at hr
      refine h.readerMoves r (.copying s1 (Function.update buf i (some (s.words i)))) (s.since r)
        ?_ (fun pc _ => (copiedSince_view hr).copyWord i) (fun v hv => absurd hv (by simp))
      simp [State.view, Blackboard.State.setReader, argument, firstLoad]
  | recheck r s1 buf v hpc hv =>
      have hr := h.since r
      rw [show s.reader r = .copying s1 buf from hpc] at hr
      refine h.readerMoves r (if s1 = (s.view (s.writer w)).sequence then .returned (some v)
        else .retry) (s.since r) ?_ (fun pc _ => ?_) (fun u hu => ?_)
      · simp [State.view, Blackboard.State.setReader, argument, firstLoad]
      · split <;> trivial
      · -- equal loads: the copy is the last completed write, which somebody called
        split at hu
        next heq =>
          injection hu with hu
          obtain rfl := Option.some.inj hu
          subst heq
          obtain ⟨pc, hinv⟩ := h.sole.view
          have hlast := CopiedSince.last hinv hok (copiedSince_view hr) hv
          exact h.completed v (List.mem_of_getLast? hlast)
        next => exact absurd hu (by simp)

/-! ## §6. Whole runs. -/

omit [DecidableEq Wid] [DecidableEq Rid] in
theorem Inv.safe {s : State n W Wid Rid} (h : Inv s) : Safe s where
  returned := h.returned
  even := by
    intro hidle
    have hinv : Blackboard.Inv (s.view .idle) := by
      cases h.sole with
      | nobody _ hi => exact hi
      | one w hin _ _ =>
          have hw := hidle w
          cases hpc : s.writer w with
          | writing v seq todo =>
              rw [hpc] at hw
              exact absurd hw (by simp [idle])
          | _ =>
              rw [hpc] at hin
              exact absurd hin (by simp [inPhase])
    have hcount : s.begun = s.completed.length := hinv.writer
    have hseq : s.sequence = BitVec.ofNat 64 (s.begun + s.completed.length) := hinv.sequence
    rw [hseq, Blackboard.ofNat_and_one]
    omega

/-- **In every serialised run sharing the writer is safe.** -/
theorem shared_writer_serialised (memory : Fin n → W) (s : State n W Wid Rid)
    (hs : Reach step serialised (init memory) s) : Safe s := by
  have hinv : Inv s := hs.invariant Inv (inv_init memory)
    (fun _ _ _ hi hok hstep => hi.step hok hstep)
  exact hinv.safe

/-- Two threads write in turn while a reader copies: its first copy is a mixture
and is thrown away. -/
def inTurnRun : List (Bool × Blackboard.Act 2 Bool Unit) :=
  [(true, .write (fun _ => true)), (true, .beginPhase), (true, .storeWord 1), (true, .storeWord 0),
   (true, .endPhase), (false, .write (fun _ => false)), (true, .read ()),
   (true, .copyWord () 0), (false, .beginPhase), (false, .storeWord 0), (false, .storeWord 1),
   (true, .copyWord () 1), (true, .recheck ()), (false, .endPhase), (true, .again ()),
   (true, .copyWord () 0), (true, .copyWord () 1), (true, .recheck ())]

theorem shared_writer_serialised_inTurn :
    ∃ s : State 2 Bool Bool Unit, Reach step serialised (init (fun _ => false)) s
      ∧ s.called.length = 2 ∧ s.sequence = 4#64
      ∧ (∃ v, s.reader () = .returned (some v) ∧ v 0 = false ∧ v 1 = false) ∧ Safe s := by
  have hrun : (execOk step serialised (init (fun _ => false) : State 2 Bool Bool Unit)
      inTurnRun).map (fun s =>
        decide (s.called.length = 2 ∧ s.sequence = 4#64) && match s.reader () with
          | .returned (some v) => decide (v 0 = false ∧ v 1 = false)
          | _ => false) = some true := by decide
  obtain ⟨s, hs, hend⟩ := Option.map_eq_some_iff.mp hrun
  have hreach := Reach.of_execOk inTurnRun .refl hs
  simp only [Bool.and_eq_true, decide_eq_true_eq] at hend
  obtain ⟨⟨hcalled, hseq⟩, hret⟩ := hend
  refine ⟨s, hreach, hcalled, hseq, ?_, shared_writer_serialised _ s hreach⟩
  split at hret
  next v hv => exact ⟨v, hv, of_decide_eq_true hret⟩
  next => exact absurd hret (by simp)

end Entangle.Port.SharedWriter
