/-
  Entangle.Registry.PayloadTypes — what a successful `open` says about the
  payload types of the two sides (the builders in entangle/src/service/pubsub.rs,
  blackboard.rs and reqres.rs, over lifecycle.rs and config.rs).

  A config has one type name, one size and one alignment.  A ReqRes service has
  two types: their names are joined, and of the sizes and of the alignments the
  larger is kept.  `validate_compatibility` does not look at the type name.

  Main results:
    * `open_ok_iff` — a service opens if the patterns, the sizes and the
      alignments of the two configs are equal;
    * `payload_confused` — that is not agreeing on the types;
    * `open_agrees_iff` — when it is.
-/
import Entangle.Registry.ServiceRegistry

namespace Entangle.Registry.PayloadTypes

/-! ## §1. Descriptions of a service. -/

/-- A payload type: `type_name`, `size_of` and `align_of`. -/
structure PayloadType where
  name : String
  size : Nat
  align : Nat
  deriving Repr, DecidableEq

/-- A service with payloads, by its pattern. -/
inductive Description where
  | pubSub (T : PayloadType)
  | blackboard (T : PayloadType)
  | reqRes (Req Res : PayloadType)
  deriving Repr, DecidableEq

namespace Description

def pattern : Description → PatternType
  | .pubSub _ => .pubSub
  | .blackboard _ => .blackboard
  | .reqRes _ _ => .reqRes

/-- The size the builder puts into the config. -/
def payloadSize : Description → Nat
  | .pubSub T | .blackboard T => T.size
  | .reqRes Req Res => max Req.size Res.size

/-- The alignment the builder puts into the config. -/
def payloadAlign : Description → Nat
  | .pubSub T | .blackboard T => T.align
  | .reqRes Req Res => max Req.align Res.align

/-- The type name the builder puts into the config. -/
def payloadTypeName : Description → String
  | .pubSub T | .blackboard T => T.name
  | .reqRes Req Res => s!"{Req.name}:{Res.name}"

/-- The `StaticConfig::new` of the builder. -/
def config (d : Description) (serviceName : String) : StaticConfig :=
  .new d.pattern serviceName d.payloadTypeName d.payloadSize d.payloadAlign

/-- Both sides have the same pattern, and at each payload position the same
type name, size and alignment. -/
def Agree : Description → Description → Prop
  | .pubSub T, .pubSub T' => T = T'
  | .blackboard T, .blackboard T' => T = T'
  | .reqRes Req Res, .reqRes Req' Res' => Req = Req' ∧ Res = Res'
  | _, _ => False

instance decidableAgree : (a b : Description) → Decidable (Agree a b)
  | .pubSub T, .pubSub T' => inferInstanceAs (Decidable (T = T'))
  | .blackboard T, .blackboard T' => inferInstanceAs (Decidable (T = T'))
  | .reqRes Req Res, .reqRes Req' Res' => inferInstanceAs (Decidable (Req = Req' ∧ Res = Res'))
  | .pubSub _, .blackboard _ | .pubSub _, .reqRes _ _ | .blackboard _, .pubSub _
  | .blackboard _, .reqRes _ _ | .reqRes _ _, .pubSub _ | .reqRes _ _, .blackboard _ =>
      isFalse id

/-- The two sides use the same amount of memory for a payload of the pattern. -/
def SameLayout (a b : Description) : Prop :=
  a.pattern = b.pattern ∧ a.payloadSize = b.payloadSize ∧ a.payloadAlign = b.payloadAlign

instance decidableSameLayout (a b : Description) : Decidable (a.SameLayout b) :=
  inferInstanceAs (Decidable (a.pattern = b.pattern ∧ a.payloadSize = b.payloadSize
    ∧ a.payloadAlign = b.payloadAlign))

end Description

/-! ## §2. What opens. -/

/-- A service is created where there is none. -/
theorem createService_of_none {ron : Ron} (files : Files) {config : StaticConfig} {text : String}
    (hencodes : ron.Encodes config text)
    (hnone : files (servicePath config.serviceName) = none) :
    createService ron files config
      = (.ok (), Function.update files (servicePath config.serviceName) (some text)) := by
  unfold createService
  rw [register_of_none hencodes.1 hnone]

/-- The file of a service that was just created. -/
theorem lookup_of_created {ron : Ron} {files files' : Files} {config : StaticConfig}
    {text : String} (hencodes : ron.Encodes config text)
    (hcreate : createService ron files config = (.ok (), files')) :
    lookup ron files' config.serviceName = .ok config := by
  cases hfile : files (servicePath config.serviceName) with
  | none =>
      rw [createService_of_none files hencodes hfile] at hcreate
      obtain rfl := (Prod.mk.inj hcreate).2
      exact lookup_of_text (Function.update_self _ _ _) hencodes.2
  | some data =>
      unfold createService at hcreate
      rw [register_of_some hencodes.1 hfile] at hcreate
      exact absurd hcreate (by simp)

/-- **A service opens** if patterns, sizes and alignments are equal; the types
are not compared. -/
theorem open_ok_iff {ron : Ron} {files files' : Files} {name text : String} {a b : Description}
    (hencodes : ron.Encodes (a.config name) text)
    (hcreate : createService ron files (a.config name) = (.ok (), files')) :
    openService ron files' (b.config name) = .ok (a.config name) ↔ a.SameLayout b := by
  have hlookup : lookup ron files' (b.config name).serviceName = .ok (a.config name) :=
    lookup_of_created hencodes hcreate
  have hvalid := (b.config name).validateCompatibility_ok_iff (a.config name)
  unfold openService Description.SameLayout
  rw [hlookup]
  simp only
  constructor
  · intro hopen
    cases hv : (b.config name).validateCompatibility (a.config name) with
    | ok u =>
        obtain ⟨_, _, hpattern, hsize, halign⟩ := hvalid.mp hv
        exact ⟨hpattern.symm, hsize.symm, halign.symm⟩
    | error e =>
        rw [hv] at hopen
        exact absurd hopen (by simp)
  · rintro ⟨hpattern, hsize, halign⟩
    rw [hvalid.mpr ⟨rfl, rfl, hpattern.symm, hsize.symm, halign.symm⟩]

/-- Nothing else is ever returned by a successful `open`. -/
theorem open_returns {ron : Ron} {files files' : Files} {name text : String} {a b : Description}
    (hencodes : ron.Encodes (a.config name) text)
    (hcreate : createService ron files (a.config name) = (.ok (), files'))
    {c : StaticConfig} (hopen : openService ron files' (b.config name) = .ok c) :
    c = a.config name := by
  have hlookup : lookup ron files' (b.config name).serviceName = .ok (a.config name) :=
    lookup_of_created hencodes hcreate
  unfold openService at hopen
  rw [hlookup] at hopen
  simp only at hopen
  split at hopen
  next => exact absurd hopen (by simp)
  next =>
    injection hopen with hopen
    exact hopen.symm

/-! ## §3. Types that are taken for one another. -/

def u64Type : PayloadType := ⟨"u64", 8, 8⟩

def f64Type : PayloadType := ⟨"f64", 8, 8⟩

def u8Type : PayloadType := ⟨"u8", 1, 1⟩

/-- RON for the two services below. -/
def confusedRon : Ron :=
  ronOf [(Description.pubSub u64Type).config "a", (Description.reqRes u64Type u8Type).config "b"]

/-- A publisher of `u64` is opened by a subscriber of `f64`, and a server of
requests `u64` and responses `u8` by a client of requests `u8` and responses
`u64`. -/
theorem payload_confused :
    ∃ filesA filesB : Files,
      createService confusedRon (fun _ => none) ((Description.pubSub u64Type).config "a")
          = (.ok (), filesA)
        ∧ openService confusedRon filesA ((Description.pubSub f64Type).config "a")
          = .ok ((Description.pubSub u64Type).config "a")
        ∧ ¬ (Description.pubSub u64Type).Agree (.pubSub f64Type)
        ∧ createService confusedRon (fun _ => none) ((Description.reqRes u64Type u8Type).config "b")
          = (.ok (), filesB)
        ∧ openService confusedRon filesB ((Description.reqRes u8Type u64Type).config "b")
          = .ok ((Description.reqRes u64Type u8Type).config "b")
        ∧ ¬ (Description.reqRes u64Type u8Type).Agree (.reqRes u8Type u64Type) := by
  have ha : confusedRon.Encodes ((Description.pubSub u64Type).config "a")
      (ronText ((Description.pubSub u64Type).config "a")) := ⟨rfl, by decide⟩
  have hb : confusedRon.Encodes ((Description.reqRes u64Type u8Type).config "b")
      (ronText ((Description.reqRes u64Type u8Type).config "b")) := ⟨rfl, by decide⟩
  have hcreateA := createService_of_none (fun _ => none) ha rfl
  have hcreateB := createService_of_none (fun _ => none) hb rfl
  refine ⟨_, _, hcreateA, ?_, by decide, hcreateB, ?_, by decide⟩
  · exact (open_ok_iff ha hcreateA).mpr (by decide)
  · exact (open_ok_iff hb hcreateB).mpr (by decide)

/-- **When opening a service implies agreeing on every payload**: when the two
sides differ in their pattern, size or alignment, or have the same types. -/
theorem open_agrees_iff (ron : Ron) (files files' : Files) (name text : String)
    (a b : Description) (hencodes : ron.Encodes (a.config name) text)
    (hcreate : createService ron files (a.config name) = (.ok (), files')) :
    ((∃ c, openService ron files' (b.config name) = .ok c) → a.Agree b)
      ↔ a.pattern ≠ b.pattern ∨ a.payloadSize ≠ b.payloadSize
        ∨ a.payloadAlign ≠ b.payloadAlign ∨ a.Agree b := by
  have hopens : (∃ c, openService ron files' (b.config name) = .ok c) ↔ a.SameLayout b := by
    constructor
    · rintro ⟨c, hc⟩
      obtain rfl := open_returns hencodes hcreate hc
      exact (open_ok_iff hencodes hcreate).mp hc
    · intro hsame
      exact ⟨_, (open_ok_iff hencodes hcreate).mpr hsame⟩
  rw [hopens]
  unfold Description.SameLayout
  constructor
  · intro h
    by_cases hpattern : a.pattern = b.pattern
    · by_cases hsize : a.payloadSize = b.payloadSize
      · by_cases halign : a.payloadAlign = b.payloadAlign
        · exact .inr (.inr (.inr (h ⟨hpattern, hsize, halign⟩)))
        · exact .inr (.inr (.inl halign))
      · exact .inr (.inl hsize)
    · exact .inl hpattern
  · rintro (hpattern | hsize | halign | hagree) ⟨hp, hs, ha⟩
    · exact absurd hp hpattern
    · exact absurd hs hsize
    · exact absurd ha halign
    · exact hagree

/-- A service of `u64` samples, opened with the same type. -/
theorem open_agrees_iff_u64 :
    ∃ files', createService confusedRon (fun _ => none) ((Description.pubSub u64Type).config "a")
        = (.ok (), files')
      ∧ ((∃ c, openService confusedRon files' ((Description.pubSub u64Type).config "a") = .ok c) →
        (Description.pubSub u64Type).Agree (.pubSub u64Type)) := by
  have ha : confusedRon.Encodes ((Description.pubSub u64Type).config "a")
      (ronText ((Description.pubSub u64Type).config "a")) := ⟨rfl, by decide⟩
  have hcreate := createService_of_none (fun _ => none) ha rfl
  refine ⟨_, hcreate, ?_⟩
  exact (open_agrees_iff confusedRon (fun _ => none) _ "a" _ (.pubSub u64Type) (.pubSub u64Type)
    ha hcreate).mpr (by decide)

end Entangle.Registry.PayloadTypes
