/-
  Entangle.Lib.Calls — an object that one thread uses, call by call.

  An object is a partial function `call : S → C → Option (R × S)`: a call in a
  state gives a result and the next state; `none` says that the call must not be
  made (in a specification) or does not return normally (in an implementation).

    * `runCalls` — the results of a sequence of calls, and the last state;
    * `runCalls_simulates` — an implementation that simulates a specification
      call by call gives its results on every sequence the specification admits.
-/
import Mathlib.Data.List.Basic

namespace Entangle.Lib

variable {S T C R : Type*}

/-- The results of the calls, one after another, and the last state. -/
def runCalls (call : S → C → Option (R × S)) : S → List C → Option (List R × S)
  | s, [] => some ([], s)
  | s, c :: cs =>
      (call s c).bind (fun p => (runCalls call p.2 cs).map (fun q => (p.1 :: q.1, q.2)))

theorem runCalls_cons {call : S → C → Option (R × S)} {s s' : S} {c : C} {cs : List C}
    {rs : List R} :
    runCalls call s (c :: cs) = some (rs, s')
      ↔ ∃ r t rs', call s c = some (r, t) ∧ runCalls call t cs = some (rs', s')
          ∧ rs = r :: rs' := by
  simp only [runCalls, Option.bind_eq_some_iff, Option.map_eq_some_iff, Prod.exists,
    Prod.mk.injEq]
  constructor
  · rintro ⟨r, t, hc, rs', s₁, hrest, rfl, rfl⟩
    exact ⟨r, t, rs', hc, hrest, rfl⟩
  · rintro ⟨r, t, rs', hc, hrest, rfl⟩
    exact ⟨r, t, hc, rs', s', hrest, rfl, rfl⟩

/-- **The simulation rule.** -/
theorem runCalls_simulates (impl : S → C → Option (R × S)) (spec : T → C → Option (R × T))
    (Rel : S → T → Prop)
    (hcall : ∀ {s t c r t'}, Rel s t → spec t c = some (r, t') →
      ∃ s', impl s c = some (r, s') ∧ Rel s' t') (cs : List C) :
    ∀ {s : S} {t t' : T} {rs : List R}, Rel s t → runCalls spec t cs = some (rs, t') →
      ∃ s', runCalls impl s cs = some (rs, s') ∧ Rel s' t' := by
  induction cs with
  | nil =>
      intro s t t' rs hrel h
      simp only [runCalls, Option.some.injEq, Prod.mk.injEq] at h
      obtain ⟨rfl, rfl⟩ := h
      exact ⟨s, rfl, hrel⟩
  | cons c cs ih =>
      intro s t t' rs hrel h
      obtain ⟨r, t₁, rs', hc, hrest, rfl⟩ := runCalls_cons.mp h
      obtain ⟨s₁, hs₁, hrel₁⟩ := hcall hrel hc
      obtain ⟨s', hs', hrel'⟩ := ih hrel₁ hrest
      exact ⟨s', runCalls_cons.mpr ⟨r, s₁, rs', hs₁, hs', rfl⟩, hrel'⟩

end Entangle.Lib
