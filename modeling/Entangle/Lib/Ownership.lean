/-
  Entangle.Lib.Ownership — every item is in exactly one place.

  `Partition dom At` says that the items of `dom`, and only they, have a place
  (`At i p`), and that no item has two.  Protocols that hand items around keep
  it because a step moves at most one item from one place to another:

    * `Partition.congr` — a step that moves nothing;
    * `Partition.move` — a step that moves one item (`Moved` puts its conditions
      together).

  `Apart held` is the same for places that are lists and items that may also be
  in no place: no list has an item twice, and no two lists share one.  Its
  rules are `Apart.congr`, `Apart.move`, `Apart.add` and `Apart.remove`.
-/
import Mathlib.Data.List.Nodup
import Mathlib.Logic.Basic
import Mathlib.Logic.ExistsUnique

namespace Entangle.Lib

variable {I P : Type*}

/-- Exactly the items of `dom` have a place, and each has only one. -/
structure Partition (dom : I → Prop) (At : I → P → Prop) : Prop where
  inDom : ∀ i p, At i p → dom i
  placed : ∀ i, dom i → ∃ p, At i p
  single : ∀ i p q, At i p → At i q → p = q

namespace Partition

variable {dom : I → Prop} {At At' : I → P → Prop}

/-- Each item of the domain has a unique place. -/
theorem existsUnique (h : Partition dom At) {i : I} (hi : dom i) : ∃! p, At i p := by
  obtain ⟨p, hp⟩ := h.placed i hi
  exact ⟨p, hp, fun q hq => h.single i q p hq hp⟩

/-- An item in one place is in no other. -/
theorem not_at (h : Partition dom At) {i : I} {p q : P} (hp : At i p) (hne : q ≠ p) :
    ¬ At i q :=
  fun hq => hne (h.single i q p hq hp)

/-- Nothing moves. -/
theorem congr (h : Partition dom At) (heq : ∀ i p, At' i p ↔ At i p) : Partition dom At' where
  inDom i p hp := h.inDom i p ((heq i p).mp hp)
  placed i hi := by
    obtain ⟨p, hp⟩ := h.placed i hi
    exact ⟨p, (heq i p).mpr hp⟩
  single i p q hp hq := h.single i p q ((heq i p).mp hp) ((heq i q).mp hq)

/-- **One item `j` moves from the place `src` to the place `dst`.** -/
theorem move (h : Partition dom At) (j : I) (src dst : P) (hne : src ≠ dst) (hj : At j src)
    (hsrc : ∀ i, At' i src ↔ i ≠ j ∧ At i src)
    (hdst : ∀ i, At' i dst ↔ i = j ∨ At i dst)
    (hother : ∀ i p, p ≠ src → p ≠ dst → (At' i p ↔ At i p)) : Partition dom At' := by
  -- after the step, `j` is at `dst` and everything else is where it was
  have heq : ∀ i p, At' i p ↔ (i = j ∧ p = dst) ∨ (i ≠ j ∧ At i p) := by
    intro i p
    by_cases hd : p = dst
    · subst hd
      rw [hdst]
      constructor
      · rintro (rfl | hi)
        · exact .inl ⟨rfl, rfl⟩
        · exact .inr ⟨fun he => h.not_at hj hne.symm (he ▸ hi), hi⟩
      · rintro (⟨hi, _⟩ | ⟨_, hi⟩)
        · exact .inl hi
        · exact .inr hi
    · by_cases hs : p = src
      · subst hs
        rw [hsrc]
        simp [hd]
      · rw [hother i p hs hd]
        simp only [hd, and_false, false_or]
        exact ⟨fun hi => ⟨fun he => h.not_at hj hs (he ▸ hi), hi⟩, fun hi => hi.2⟩
  constructor
  · intro i p hp
    rcases (heq i p).mp hp with ⟨rfl, _⟩ | ⟨_, hold⟩
    · exact h.inDom i src hj
    · exact h.inDom i p hold
  · intro i hi
    by_cases hij : i = j
    · exact ⟨dst, (heq i dst).mpr (.inl ⟨hij, rfl⟩)⟩
    · obtain ⟨p, hp⟩ := h.placed i hi
      exact ⟨p, (heq i p).mpr (.inr ⟨hij, hp⟩)⟩
  · intro i p q hp hq
    rcases (heq i p).mp hp with ⟨rfl, rfl⟩ | ⟨hni, hold⟩
    · rcases (heq i q).mp hq with ⟨_, rfl⟩ | ⟨hni, _⟩
      · rfl
      · exact absurd rfl hni
    · rcases (heq i q).mp hq with ⟨rfl, _⟩ | ⟨_, hold'⟩
      · exact absurd rfl hni
      · exact h.single i p q hold hold'

end Partition

/-- The step takes item `j` from the place `src` to the place `dst`, and nothing else. -/
structure Moved (At At' : I → P → Prop) (j : I) (src dst : P) : Prop where
  leaves : ∀ i, At' i src ↔ i ≠ j ∧ At i src
  arrives : ∀ i, At' i dst ↔ i = j ∨ At i dst
  other : ∀ i p, p ≠ src → p ≠ dst → (At' i p ↔ At i p)

/-- An item is where it was, or it is the one that has moved. -/
theorem Moved.cases {At At' : I → P → Prop} {j : I} {src dst : P}
    (h : Moved At At' j src dst) {i : I} {p : P} (hp : At' i p) :
    At i p ∨ (i = j ∧ p = dst) := by
  by_cases hd : p = dst
  · subst hd
    rcases (h.arrives i).mp hp with hi | hold
    · exact .inr ⟨hi, rfl⟩
    · exact .inl hold
  · by_cases hs : p = src
    · subst hs
      exact .inl ((h.leaves i).mp hp).2
    · exact .inl ((h.other i p hs hd).mp hp)

theorem Moved.partition {dom : I → Prop} {At At' : I → P → Prop} {j : I} {src dst : P}
    (h : Moved At At' j src dst) (hpart : Partition dom At) (hne : src ≠ dst) (hj : At j src) :
    Partition dom At' :=
  hpart.move j src dst hne hj h.leaves h.arrives h.other

/-! ## Items held by threads. -/

section Threads

variable {T Q β : Type*} [DecidableEq T] {pc : T → Q} {t : T} {q : Q} {j : I}

/-- Thread `t` moves on, holding what it held. -/
theorem update_field (f : Q → β) (pc : T → Q) (t : T) (q : Q) (h : f q = f (pc t)) (t' : T) :
    f (Function.update pc t q t') = f (pc t') := by
  by_cases ht : t' = t
  · subst ht
    rw [Function.update_self, h]
  · rw [Function.update_of_ne ht]

/-- Thread `t`, which held nothing, comes to hold `j`. -/
theorem update_gains (f : Q → Option I) (hold : f (pc t) = none) (hnew : f q = some j) (i : I) :
    f (Function.update pc t q t) = some i ↔ i = j ∨ f (pc t) = some i := by
  rw [Function.update_self, hold, hnew]
  simp [eq_comm]

/-- Thread `t`, which held `j`, comes to hold nothing. -/
theorem update_loses (f : Q → Option I) (hold : f (pc t) = some j) (hnew : f q = none) (i : I) :
    f (Function.update pc t q t) = some i ↔ i ≠ j ∧ f (pc t) = some i := by
  rw [Function.update_self, hold, hnew]
  simp [eq_comm]

end Threads

/-! ## Places that are lists. -/

/-- No place holds an item twice, no two places hold the same item, and every
item held is one of those that may be (`ok`). -/
structure Apart {X : Type*} (ok : X → Prop) (held : P → List X) : Prop where
  nodup : ∀ p, (held p).Nodup
  single : ∀ p q x, x ∈ held p → x ∈ held q → p = q
  allowed : ∀ p, ∀ x ∈ held p, ok x

namespace Apart

variable {X : Type*} {ok ok' : X → Prop} {held held' : P → List X}

/-- Every place holds what it held. -/
theorem congr (h : Apart ok held) (heq : ∀ p, held' p = held p) : Apart ok held' := by
  obtain rfl : held' = held := funext heq
  exact h

/-- **An item nobody holds comes to the place `dst`.** -/
theorem add (h : Apart ok held) {x : X} {dst : P} (hnew : ∀ p, x ∉ held p)
    (hok : ∀ y, ok y → ok' y) (hx : ok' x) (hdst : (held' dst).Perm (x :: held dst))
    (hother : ∀ p, p ≠ dst → held' p = held p) : Apart ok' held' := by
  -- the item is at `dst` only, and everything else is where it was
  have hmem : ∀ p y, y ∈ held' p → (y = x ∧ p = dst) ∨ (y ≠ x ∧ y ∈ held p) := by
    intro p y hy
    by_cases hp : p = dst
    · subst hp
      rcases List.mem_cons.mp (hdst.mem_iff.mp hy) with rfl | hy
      · exact .inl ⟨rfl, rfl⟩
      · exact .inr ⟨fun he => hnew p (he ▸ hy), hy⟩
    · rw [hother p hp] at hy
      exact .inr ⟨fun he => hnew p (he ▸ hy), hy⟩
  constructor
  · intro p
    by_cases hp : p = dst
    · subst hp
      exact hdst.nodup_iff.mpr (List.nodup_cons.mpr ⟨hnew p, h.nodup p⟩)
    · rw [hother p hp]
      exact h.nodup p
  · intro p q y hp hq
    rcases hmem p y hp with ⟨rfl, rfl⟩ | ⟨hne, hp⟩
    · rcases hmem q y hq with ⟨_, rfl⟩ | ⟨hne, _⟩
      · rfl
      · exact absurd rfl hne
    · rcases hmem q y hq with ⟨he, _⟩ | ⟨_, hq⟩
      · exact absurd he hne
      · exact h.single p q y hp hq
  · intro p y hy
    rcases hmem p y hy with ⟨rfl, _⟩ | ⟨_, hy⟩
    · exact hx
    · exact hok y (h.allowed p y hy)

/-- **The item `x` leaves the place `src`**, and is then held by nobody. -/
theorem remove (h : Apart ok held) {x : X} {src : P} (hsrc : (held src).Perm (x :: held' src))
    (hok : ∀ y, ok y → y ≠ x → ok' y) (hother : ∀ p, p ≠ src → held' p = held p) :
    Apart ok' held' ∧ ∀ p, x ∉ held' p := by
  have hx : x ∈ held src := hsrc.mem_iff.mpr List.mem_cons_self
  have hcons := List.nodup_cons.mp (hsrc.nodup_iff.mp (h.nodup src))
  have hmem : ∀ p y, y ∈ held' p → y ∈ held p := by
    intro p y hy
    by_cases hp : p = src
    · subst hp
      exact hsrc.mem_iff.mpr (List.mem_cons_of_mem _ hy)
    · rw [hother p hp] at hy
      exact hy
  have hgone : ∀ p, x ∉ held' p := by
    intro p hp
    have hps := h.single p src x (hmem p x hp) hx
    subst hps
    exact hcons.1 hp
  refine ⟨⟨fun p => ?_, fun p q y hp hq => h.single p q y (hmem p y hp) (hmem q y hq),
    fun p y hy => ?_⟩, hgone⟩
  · by_cases hp : p = src
    · subst hp
      exact hcons.2
    · rw [hother p hp]
      exact h.nodup p
  · exact hok y (h.allowed p y (hmem p y hy)) (fun he => hgone p (he ▸ hy))

/-- **The item `x` goes from the place `src` to the place `dst`.** -/
theorem move [DecidableEq P] (h : Apart ok held) {x : X} {src dst : P} (hne : src ≠ dst)
    (hsrc : (held src).Perm (x :: held' src)) (hdst : (held' dst).Perm (x :: held dst))
    (hother : ∀ p, p ≠ src → p ≠ dst → held' p = held p) : Apart ok held' := by
  -- through the state in which the item has left `src` only
  have hmid : Apart ok (Function.update held src (held' src))
      ∧ ∀ p, x ∉ Function.update held src (held' src) p :=
    h.remove (by simpa using hsrc) (fun _ hy _ => hy) (fun p hp => Function.update_of_ne hp _ _)
  have hdst' : (held' dst).Perm (x :: Function.update held src (held' src) dst) := by
    rw [Function.update_of_ne hne.symm]
    exact hdst
  have hx : ok x := h.allowed src x (hsrc.mem_iff.mpr List.mem_cons_self)
  refine hmid.1.add hmid.2 (fun _ hy => hy) hx hdst' (fun p hp => ?_)
  by_cases hps : p = src
  · subst hps
    rw [Function.update_self]
  · rw [Function.update_of_ne hps]
    exact hother p hps hp

end Apart

end Entangle.Lib
