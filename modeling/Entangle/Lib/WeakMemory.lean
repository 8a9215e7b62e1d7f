/-
  Entangle.Lib.WeakMemory — release/acquire memory.

  A location keeps all its stores, in the order in which they were made; a location
  is meant to be stored to by one thread, or by threads that know of each other's
  stores, or by read-modify-writes only.  A thread has a view: of every location, the
  number of the newest store that it knows of.  A load may return that store or any
  newer one, so what it returns may be out of date; a read-modify-write finds the
  newest of all.  Accesses to different locations are ordered by nothing but this:
    * a store that releases keeps the view of its thread,
    * a load that acquires such a store takes in the view that the store has kept, and
    * a read-modify-write keeps on what the store before it has kept.

  An access that is not atomic must not race: the thread has to know of all that
  was done at the location before (`Memory.Latest`).  Such accesses are recorded
  as stores, the reads among them too.

  Main rules:
    * `Memory.load_cases` — what a load can return and teach;
    * `Memory.modify_cases` — what a read-modify-write finds and leaves;
    * `Memory.Ok` — views point at stores that are there, and every access keeps
      them so (`Ok.load`, `Ok.store`, `Ok.exchange`);
    * `Memory.Grows` — no access loses a store or lowers a view (`load_grows`,
      `store_grows`, `exchange_grows`).
-/
import Entangle.Lib.Tables
import Mathlib.Order.Lattice
import Mathlib.Order.Nat

namespace Entangle.Lib.WeakMemory

/-! ## §1. Accesses. -/

/-- The orderings of atomic accesses. -/
inductive Ordering where
  | relaxed
  | acquire
  | release
  | acqRel
  deriving Repr, DecidableEq

/-- Of every location, the number of the newest store known. -/
abbrev View (L : Type*) := L → Nat

/-- A store that has been made: its value, and the view that an acquire load of it
passes on. -/
structure Store (L V : Type*) where
  value : V
  view : View L

/-- All stores that have been made to each location, in their modification order, and for
each thread which of them it knows of.  A load may return any store that is no older
than what the thread knows of; nothing is forgotten. -/
structure Memory (L V T : Type*) where
  stores : L → List (Store L V)
  view : T → View L

variable {L V T : Type*}

/-- Every location has one store, which everybody knows. -/
def Memory.init (value : L → V) : Memory L V T where
  stores l := [⟨value l, fun _ => 0⟩]
  view _ := fun _ => 0

/-- Thread `t` knows of everything that was done at `l`. -/
def Memory.Latest (m : Memory L V T) (t : T) (l : L) : Prop :=
  m.view t l + 1 = (m.stores l).length

instance decidableLatest (m : Memory L V T) (t : T) (l : L) : Decidable (m.Latest t l) :=
  inferInstanceAs (Decidable (_ = _))

variable [DecidableEq L]

/-- Number `k` of `l` is the newest store known. -/
def see (view : View L) (l : L) (k : Nat) : View L := Function.update view l k

/-- What a thread knows after it has loaded number `k` of `l`. -/
def learn (ord : Ordering) (view : View L) (l : L) (k : Nat) (store : Store L V) : View L :=
  match ord with
  | .acquire | .acqRel => see view l k ⊔ store.view
  | _ => see view l k

/-- What a store keeps of the view of its thread. -/
def kept (ord : Ordering) (view : View L) (l : L) (k : Nat) : View L :=
  match ord with
  | .release | .acqRel => see view l k
  | _ => see (fun _ => 0) l k

section Accesses

variable [DecidableEq T]

/-- Thread `t` loads number `k` of `l`, if there is one and it is not older than what
the thread knows. -/
def Memory.load (m : Memory L V T) (ord : Ordering) (t : T) (l : L) (k : Nat) :
    Option (V × Memory L V T) :=
  if m.view t l ≤ k then
    ((m.stores l)[k]?).map (fun store =>
      (store.value,
        { m with view := Function.update m.view t (learn ord (m.view t) l k store) }))
  else none

/-- Thread `t` stores `value` to `l`. -/
def Memory.store (m : Memory L V T) (ord : Ordering) (t : T) (l : L) (value : V) :
    Memory L V T :=
  let k := (m.stores l).length
  { stores := Function.update m.stores l (m.stores l ++ [⟨value, kept ord (m.view t) l k⟩])
    view := Function.update m.view t (see (m.view t) l k) }

/-- Thread `t` finds the newest store of `l`, which is `store`, and stores `value` right
after it. -/
def Memory.exchange (m : Memory L V T) (ord : Ordering) (t : T) (l : L) (store : Store L V)
    (value : V) : Memory L V T :=
  let k := (m.stores l).length
  let view := learn ord (m.view t) l (k - 1) store
  { stores :=
      Function.update m.stores l (m.stores l ++ [⟨value, store.view ⊔ kept ord view l k⟩])
    view := Function.update m.view t (see view l k) }

/-- A read-modify-write of thread `t`: what it has found, if `f` gives something to store
for it. -/
def Memory.modify (m : Memory L V T) (ord : Ordering) (t : T) (l : L) (f : V → Option V) :
    Option (V × Memory L V T) :=
  (m.stores l).getLast?.bind (fun store =>
    (f store.value).map (fun value => (store.value, m.exchange ord t l store value)))

/-- Thread `u` takes in all that thread `t` knows. -/
def Memory.sync (m : Memory L V T) (t u : T) : Memory L V T :=
  { m with view := Function.update m.view u (m.view u ⊔ m.view t) }

end Accesses

/-! ## §2. Views. -/

@[simp] theorem see_self (view : View L) (l : L) (k : Nat) : see view l k l = k := by
  unfold see
  rw [Function.update_self]

theorem see_of_ne {view : View L} {l l' : L} (h : l' ≠ l) (k : Nat) :
    see view l k l' = view l' := by
  unfold see
  rw [Function.update_of_ne h]

/-- Seeing something newer raises the view. -/
theorem le_see {view : View L} {l : L} {k : Nat} (h : view l ≤ k) : view ≤ see view l k := by
  intro l'
  by_cases hl : l' = l
  · subst hl
    rw [see_self]
    exact h
  · rw [see_of_ne hl]

theorem see_le_learn (ord : Ordering) (view : View L) (l : L) (k : Nat) (store : Store L V) :
    see view l k ≤ learn ord view l k store := by
  cases ord with
  | acquire => exact le_sup_left
  | acqRel => exact le_sup_left
  | _ => exact le_refl _

/-- An acquire load teaches all that the store has kept. -/
theorem view_le_learn (view : View L) (l : L) (k : Nat) (store : Store L V) :
    store.view ≤ learn .acquire view l k store := le_sup_right

theorem learn_lt {ord : Ordering} {view : View L} {l : L} {k : Nat} {store : Store L V}
    {bound : L → Nat} (hview : ∀ l', view l' < bound l') (hk : k < bound l)
    (hstore : ∀ l', store.view l' < bound l') (l' : L) :
    learn ord view l k store l' < bound l' := by
  have hsee : see view l k l' < bound l' := by
    by_cases hl : l' = l
    · subst hl
      rw [see_self]
      exact hk
    · rw [see_of_ne hl]
      exact hview l'
  cases ord with
  | acquire => exact max_lt hsee (hstore l')
  | acqRel => exact max_lt hsee (hstore l')
  | _ => exact hsee

namespace Memory

variable {m m' m'' : Memory L V T}

/-! ## §3. Growth. -/

omit [DecidableEq L] in
/-- No store of `m` is lost and no view lowered. -/
structure Grows (m m' : Memory L V T) : Prop where
  stores : ∀ l (k : Nat) (store : Store L V), (m.stores l)[k]? = some store →
    (m'.stores l)[k]? = some store
  view : ∀ t, m.view t ≤ m'.view t

omit [DecidableEq L] in
theorem Grows.refl (m : Memory L V T) : m.Grows m := ⟨fun _ _ _ h => h, fun _ => le_refl _⟩

omit [DecidableEq L] in
theorem Grows.trans (h : m.Grows m') (h' : m'.Grows m'') : m.Grows m'' where
  stores l k store hk := h'.stores l k store (h.stores l k store hk)
  view t := (h.view t).trans (h'.view t)

omit [DecidableEq L] in
theorem Grows.view_le (h : m.Grows m') (t : T) (l : L) : m.view t l ≤ m'.view t l := h.view t l

variable [DecidableEq T]

/-- **What a load can return and teach.** -/
theorem load_cases {ord : Ordering} {t : T} {l : L} {k : Nat} {v : V}
    (h : m.load ord t l k = some (v, m')) :
    ∃ store, (m.stores l)[k]? = some store ∧ m.view t l ≤ k ∧ v = store.value
      ∧ m' = { m with view := Function.update m.view t (learn ord (m.view t) l k store) } := by
  unfold load at h
  split at h
  next hle =>
    obtain ⟨store, hk, heq⟩ := Option.map_eq_some_iff.mp h
    simp only [Prod.mk.injEq] at heq
    exact ⟨store, hk, hle, heq.1.symm, heq.2.symm⟩
  next => exact absurd h (by simp)

theorem load_stores {ord : Ordering} {t : T} {l : L} {k : Nat} {v : V}
    (h : m.load ord t l k = some (v, m')) : m'.stores = m.stores := by
  obtain ⟨store, _, _, _, rfl⟩ := load_cases h
  rfl

/-- A thread's own view rises to what it has loaded. -/
theorem load_view {ord : Ordering} {t : T} {l : L} {k : Nat} {v : V}
    (h : m.load ord t l k = some (v, m')) : k ≤ m'.view t l := by
  obtain ⟨store, _, _, _, rfl⟩ := load_cases h
  have hsee := see_le_learn ord (m.view t) l k store l
  rw [see_self] at hsee
  show k ≤ Function.update m.view t _ t l
  rw [Function.update_self]
  exact hsee

theorem load_grows {ord : Ordering} {t : T} {l : L} {k : Nat} {v : V}
    (h : m.load ord t l k = some (v, m')) : m.Grows m' := by
  obtain ⟨store, _, hle, _, rfl⟩ := load_cases h
  refine ⟨fun _ _ _ hk => hk, fun u => ?_⟩
  show m.view u ≤ Function.update m.view t _ u
  by_cases hu : u = t
  · subst hu
    rw [Function.update_self]
    exact (le_see hle).trans (see_le_learn ord _ l k store)
  · rw [Function.update_of_ne hu]

/-- After an acquire load the thread knows what the store has kept. -/
theorem load_acquires {t : T} {l : L} {k : Nat} {v : V} {store : Store L V}
    (h : m.load .acquire t l k = some (v, m')) (hk : (m.stores l)[k]? = some store) :
    store.view ≤ m'.view t := by
  obtain ⟨store', hk', _, _, rfl⟩ := load_cases h
  rw [hk] at hk'
  obtain rfl := Option.some.inj hk'
  show store.view ≤ Function.update m.view t _ t
  rw [Function.update_self]
  exact view_le_learn _ _ _ _

theorem store_stores_self (m : Memory L V T) (ord : Ordering) (t : T) (l : L) (v : V) :
    (m.store ord t l v).stores l
      = m.stores l ++ [⟨v, kept ord (m.view t) l (m.stores l).length⟩] :=
  Function.update_self l _ m.stores

theorem store_stores_ne (m : Memory L V T) (ord : Ordering) (t : T) {l l' : L} (v : V)
    (h : l' ≠ l) : (m.store ord t l v).stores l' = m.stores l' :=
  Function.update_of_ne h _ m.stores

theorem store_view_self (m : Memory L V T) (ord : Ordering) (t : T) (l : L) (v : V) :
    (m.store ord t l v).view t = see (m.view t) l (m.stores l).length :=
  Function.update_self t _ m.view

theorem store_view_ne (m : Memory L V T) (ord : Ordering) {t u : T} (l : L) (v : V)
    (h : u ≠ t) : (m.store ord t l v).view u = m.view u :=
  Function.update_of_ne h _ m.view

/-! ## §4. Views point at stores that are there. -/

omit [DecidableEq L] [DecidableEq T] in
/-- Views point at stores that exist: those of the threads, and those that the stores
pass on. -/
structure Ok (m : Memory L V T) : Prop where
  view : ∀ t l, m.view t l < (m.stores l).length
  kept : ∀ l (k : Nat) (store : Store L V), (m.stores l)[k]? = some store →
    ∀ l', store.view l' < (m.stores l').length

omit [DecidableEq L] [DecidableEq T] in
theorem ok_init (value : L → V) : (init value : Memory L V T).Ok where
  view _ _ := Nat.zero_lt_one
  kept l k store hk l' := by
    simp only [init, List.getElem?_singleton] at hk
    split at hk
    next =>
      obtain rfl := Option.some.inj hk
      exact Nat.zero_lt_one
    next => exact absurd hk (by simp)

theorem Ok.load {ord : Ordering} {t : T} {l : L} {k : Nat} {v : V} (hm : m.Ok)
    (h : m.load ord t l k = some (v, m')) : m'.Ok := by
  obtain ⟨store, hk, _, _, rfl⟩ := load_cases h
  refine ⟨fun u l' => ?_, hm.kept⟩
  show Function.update m.view t _ u l' < (m.stores l').length
  by_cases hu : u = t
  · subst hu
    rw [Function.update_self]
    exact learn_lt (hm.view u) (List.getElem?_eq_some_iff.mp hk).1 (hm.kept l k store hk) l'
  · rw [Function.update_of_ne hu]
    exact hm.view u l'

/-- The stores of a location after one more. -/
theorem store_length (m : Memory L V T) (ord : Ordering) (t : T) (l : L) (v : V) (l' : L) :
    ((m.store ord t l v).stores l').length
      = if l' = l then (m.stores l).length + 1 else (m.stores l').length := by
  split
  next hl =>
    subst hl
    rw [store_stores_self, List.length_append, List.length_singleton]
  next hl => rw [store_stores_ne m ord t v hl]

theorem store_grows {ord : Ordering} {t : T} {l : L} {v : V} (hm : m.Ok) :
    m.Grows (m.store ord t l v) := by
  constructor
  · intro l' k store hk
    by_cases hl : l' = l
    · subst hl
      rw [store_stores_self]
      exact append_of_some _ hk
    · rw [store_stores_ne m ord t v hl]
      exact hk
  · intro u
    by_cases hu : u = t
    · subst hu
      rw [store_view_self]
      exact le_see (hm.view u l).le
    · rw [store_view_ne m ord l v hu]

theorem Ok.store {ord : Ordering} {t : T} {l : L} {v : V} (hm : m.Ok) :
    (m.store ord t l v).Ok := by
  have hsee : ∀ {view : View L}, (∀ l', view l' < (m.stores l').length) → ∀ l',
      see view l (m.stores l).length l' < ((m.store ord t l v).stores l').length := by
    intro view hview l'
    rw [store_length]
    split
    next hl =>
      subst hl
      rw [see_self]
      exact Nat.lt_succ_self _
    next hl =>
      rw [see_of_ne hl]
      exact hview l'
  have hold : ∀ {n : Nat} {l' : L}, n < (m.stores l').length →
      n < ((m.store ord t l v).stores l').length := by
    intro n l' hlt
    rw [store_length]
    split
    next hl =>
      subst hl
      exact Nat.lt_succ_of_lt hlt
    next => exact hlt
  constructor
  · intro u l'
    by_cases hu : u = t
    · subst hu
      rw [store_view_self]
      exact hsee (hm.view u) l'
    · rw [store_view_ne m ord l v hu]
      exact hold (hm.view u l')
  · intro l₁ k store hk l'
    by_cases hl : l₁ = l
    · subst hl
      rw [store_stores_self] at hk
      rcases concat_cases hk with hbefore | ⟨_, rfl⟩
      · exact hold (hm.kept l₁ k store hbefore l')
      · cases ord with
        | release => exact hsee (hm.view t) l'
        | acqRel => exact hsee (hm.view t) l'
        | _ => exact hsee (fun l' => Nat.zero_lt_of_lt (hm.view t l')) l'
    · rw [store_stores_ne m ord t v hl] at hk
      exact hold (hm.kept l₁ k store hk l')

/-- After a store its thread knows of everything at the location. -/
theorem latest_store (m : Memory L V T) (ord : Ordering) (t : T) (l : L) (v : V) :
    (m.store ord t l v).Latest t l := by
  unfold Latest
  rw [store_view_self, see_self, store_length, if_pos rfl]

omit [DecidableEq L] [DecidableEq T] in
/-- Knowledge of everything is kept while nothing is done at the location. -/
theorem Latest.mono {t u : T} {l : L} (h : m.Latest t l) (hm' : m'.Ok)
    (hview : m.view t l ≤ m'.view u l) (hstores : m'.stores l = m.stores l) : m'.Latest u l := by
  have hlt := hm'.view u l
  unfold Latest at h ⊢
  rw [hstores] at hlt ⊢
  omega

/-! ## §5. Read-modify-writes. -/

theorem modify_cases {ord : Ordering} {t : T} {l : L} {f : V → Option V} {v : V}
    (h : m.modify ord t l f = some (v, m')) :
    ∃ store value, (m.stores l).getLast? = some store ∧ v = store.value ∧ f v = some value
      ∧ m' = m.exchange ord t l store value := by
  unfold modify at h
  obtain ⟨store, hlast, h⟩ := Option.bind_eq_some_iff.mp h
  obtain ⟨value, hf, heq⟩ := Option.map_eq_some_iff.mp h
  simp only [Prod.mk.injEq] at heq
  obtain ⟨rfl, rfl⟩ := heq
  exact ⟨store, value, hlast, rfl, hf, rfl⟩

omit [DecidableEq L] [DecidableEq T] in
/-- The newest store of a location, by its number. -/
theorem newest_some {l : L} {store : Store L V} (h : (m.stores l).getLast? = some store) :
    (m.stores l)[(m.stores l).length - 1]? = some store ∧ 0 < (m.stores l).length := by
  rw [List.getLast?_eq_getElem?] at h
  have hlt := (List.getElem?_eq_some_iff.mp h).1
  exact ⟨h, by omega⟩

theorem exchange_stores_self (m : Memory L V T) (ord : Ordering) (t : T) (l : L)
    (store : Store L V) (v : V) :
    (m.exchange ord t l store v).stores l = m.stores l
      ++ [⟨v, store.view ⊔ kept ord (learn ord (m.view t) l ((m.stores l).length - 1) store) l
        (m.stores l).length⟩] :=
  Function.update_self l _ m.stores

theorem exchange_stores_ne (m : Memory L V T) (ord : Ordering) (t : T) {l l' : L}
    (store : Store L V) (v : V) (h : l' ≠ l) :
    (m.exchange ord t l store v).stores l' = m.stores l' :=
  Function.update_of_ne h _ m.stores

theorem exchange_view_self (m : Memory L V T) (ord : Ordering) (t : T) (l : L)
    (store : Store L V) (v : V) :
    (m.exchange ord t l store v).view t
      = see (learn ord (m.view t) l ((m.stores l).length - 1) store) l (m.stores l).length :=
  Function.update_self t _ m.view

theorem exchange_view_ne (m : Memory L V T) (ord : Ordering) {t u : T} (l : L)
    (store : Store L V) (v : V) (h : u ≠ t) : (m.exchange ord t l store v).view u = m.view u :=
  Function.update_of_ne h _ m.view

/-- The stores of a location after a read-modify-write. -/
theorem exchange_length (m : Memory L V T) (ord : Ordering) (t : T) (l : L) (store : Store L V)
    (v : V) (l' : L) :
    ((m.exchange ord t l store v).stores l').length
      = if l' = l then (m.stores l).length + 1 else (m.stores l').length := by
  split
  next hl =>
    subst hl
    rw [exchange_stores_self, List.length_append, List.length_singleton]
  next hl => rw [exchange_stores_ne m ord t store v hl]

omit [DecidableEq T] in
/-- What a thread has learnt of a location is among the stores that are there. -/
theorem Ok.learn_lt (hm : m.Ok) {ord : Ordering} {t : T} {l : L} {k : Nat} {store : Store L V}
    (hk : (m.stores l)[k]? = some store) (l' : L) :
    learn ord (m.view t) l k store l' < (m.stores l').length :=
  WeakMemory.learn_lt (hm.view t) (List.getElem?_eq_some_iff.mp hk).1 (hm.kept l k store hk) l'

theorem exchange_grows {ord : Ordering} {t : T} {l : L} {store : Store L V} {v : V} (hm : m.Ok)
    (hlast : (m.stores l).getLast? = some store) : m.Grows (m.exchange ord t l store v) := by
  obtain ⟨hk, hpos⟩ := newest_some hlast
  constructor
  · intro l' k old hold
    by_cases hl : l' = l
    · subst hl
      rw [exchange_stores_self]
      exact append_of_some _ hold
    · rw [exchange_stores_ne m ord t store v hl]
      exact hold
  · intro u
    by_cases hu : u = t
    · subst hu
      rw [exchange_view_self]
      have hview := hm.view u l
      have hlearn : m.view u ≤ learn ord (m.view u) l ((m.stores l).length - 1) store :=
        (le_see (by omega)).trans (see_le_learn ord _ l _ store)
      exact hlearn.trans (le_see (hm.learn_lt hk l).le)
    · rw [exchange_view_ne m ord l store v hu]

/-- After a read-modify-write that acquires, the thread knows what the store that it
has found had kept. -/
theorem exchange_acquires {t : T} {l : L} {store : Store L V} {v : V} (hm : m.Ok)
    (hlast : (m.stores l).getLast? = some store) :
    store.view ≤ (m.exchange .acqRel t l store v).view t := by
  obtain ⟨hk, _⟩ := newest_some hlast
  rw [exchange_view_self]
  have hlearn : store.view ≤ learn .acqRel (m.view t) l ((m.stores l).length - 1) store :=
    le_sup_right
  exact hlearn.trans (le_see (hm.learn_lt hk l).le)

/-- A read-modify-write that releases keeps what its thread knows. -/
theorem exchange_releases (m : Memory L V T) (t : T) (l : L) (store : Store L V) (v : V) :
    ∃ new, ((m.exchange .acqRel t l store v).stores l).getLast? = some new ∧ new.value = v
      ∧ (m.exchange .acqRel t l store v).view t ≤ new.view := by
  rw [exchange_stores_self, List.getLast?_concat, exchange_view_self]
  exact ⟨_, rfl, rfl, le_sup_right⟩

theorem Ok.exchange {ord : Ordering} {t : T} {l : L} {store : Store L V} {v : V} (hm : m.Ok)
    (hlast : (m.stores l).getLast? = some store) : (m.exchange ord t l store v).Ok := by
  obtain ⟨hk, hpos⟩ := newest_some hlast
  have hlt : ∀ {n : Nat} {l' : L}, n < (m.stores l').length →
      n < ((m.exchange ord t l store v).stores l').length := by
    intro n l' hn
    rw [exchange_length]
    split
    next hl =>
      subst hl
      exact Nat.lt_succ_of_lt hn
    next => exact hn
  have hsee : ∀ {view : View L}, (∀ l', view l' < (m.stores l').length) → ∀ l',
      see view l (m.stores l).length l' < ((m.exchange ord t l store v).stores l').length := by
    intro view hview l'
    by_cases hl : l' = l
    · subst hl
      rw [see_self, exchange_length, if_pos rfl]
      exact Nat.lt_succ_self _
    · rw [see_of_ne hl]
      exact hlt (hview l')
  have hlearn : ∀ l', learn ord (m.view t) l ((m.stores l).length - 1) store l'
      < (m.stores l').length := hm.learn_lt hk
  constructor
  · intro u l'
    by_cases hu : u = t
    · subst hu
      rw [exchange_view_self]
      exact hsee hlearn l'
    · rw [exchange_view_ne m ord l store v hu]
      exact hlt (hm.view u l')
  · intro l₁ k old hold l'
    by_cases hl : l₁ = l
    · subst hl
      rw [exchange_stores_self] at hold
      rcases concat_cases hold with hbefore | ⟨_, rfl⟩
      · exact hlt (hm.kept l₁ k old hbefore l')
      · refine max_lt (hlt (hm.kept l₁ _ store hk l')) ?_
        have hnone : ∀ l', (0 : Nat) < (m.stores l').length :=
          fun l' => Nat.zero_lt_of_lt (hm.view t l')
        cases ord with
        | release => exact hsee hlearn l'
        | acqRel => exact hsee hlearn l'
        | _ => exact hsee hnone l'
    · rw [exchange_stores_ne m ord t store v hl] at hold
      exact hlt (hm.kept l₁ k old hold l')

/-! ## §6. What one thread tells another. -/

omit [DecidableEq L] in
theorem sync_grows (m : Memory L V T) (t u : T) : m.Grows (m.sync t u) := by
  refine ⟨fun _ _ _ h => h, fun u' => ?_⟩
  show m.view u' ≤ Function.update m.view u _ u'
  by_cases hu : u' = u
  · subst hu
    rw [Function.update_self]
    exact le_sup_left
  · rw [Function.update_of_ne hu]

omit [DecidableEq L] in
theorem sync_learns (m : Memory L V T) (t u : T) : m.view t ≤ (m.sync t u).view u := by
  show m.view t ≤ Function.update m.view u _ u
  rw [Function.update_self]
  exact le_sup_right

omit [DecidableEq L] in
theorem Ok.sync (hm : m.Ok) (t u : T) : (m.sync t u).Ok := by
  refine ⟨fun u' l => ?_, hm.kept⟩
  show Function.update m.view u _ u' l < (m.stores l).length
  by_cases hu : u' = u
  · subst hu
    rw [Function.update_self]
    exact max_lt (hm.view u' l) (hm.view t l)
  · rw [Function.update_of_ne hu]
    exact hm.view u' l

end Memory

end Entangle.Lib.WeakMemory
