/-
  Entangle.Registry.StaticConfig — what a service says about itself
  (entangle/src/service/config.rs, with the constants and errors it uses from
  contracts.rs and error.rs).

  A `StaticConfig` is written once, by whoever creates the service.  Whoever
  opens the service makes a config of its own and compares the two.

  Main result:
    * `validateCompatibility_ok_iff` — which fields the comparison is about.
-/
import Entangle.Lib.Word

namespace Entangle.Registry

/-- `PatternType`. -/
inductive PatternType where
  | pubSub
  | event
  | reqRes
  | blackboard
  deriving Repr, DecidableEq

/-- The `Debug` text of a pattern. -/
def PatternType.debug : PatternType → String
  | .pubSub => "PubSub"
  | .event => "Event"
  | .reqRes => "ReqRes"
  | .blackboard => "Blackboard"

/-- `ServiceError`, without the errors of the platform. -/
inductive ServiceError where
  | alreadyExists (name : String)
  | notFound (name : String)
  | incompatibleQos (reason : String)
  | corrupted (reason : String)
  | versionMismatch (expected found : U32)
  deriving Repr, DecidableEq

/-- `StaticConfig`. -/
structure StaticConfig where
  magic : U64
  version : U32
  pattern : PatternType
  serviceName : String
  payloadTypeName : String
  payloadSize : Nat
  payloadAlign : Nat
  deriving Repr, DecidableEq

def MAGIC_NUMBER : U64 := 0x5A4349500001#64

namespace StaticConfig

/-- `StaticConfig::new`. -/
def new (pattern : PatternType) (serviceName payloadTypeName : String)
    (payloadSize payloadAlign : Nat) : StaticConfig where
  magic := MAGIC_NUMBER
  version := 1#32
  pattern := pattern
  serviceName := serviceName
  payloadTypeName := payloadTypeName
  payloadSize := payloadSize
  payloadAlign := payloadAlign

/-- `StaticConfig::validate_compatibility`. -/
def validateCompatibility (self other : StaticConfig) : Except ServiceError Unit :=
  if self.magic ≠ other.magic then .error (.corrupted "invalid magic number")
  else if self.version ≠ other.version then
    .error (.versionMismatch self.version other.version)
  else if self.pattern ≠ other.pattern then
    .error (.incompatibleQos
      s!"pattern mismatch: expected {self.pattern.debug}, found {other.pattern.debug}")
  else if self.payloadSize ≠ other.payloadSize ∨ self.payloadAlign ≠ other.payloadAlign then
    .error (.incompatibleQos
      (s!"payload layout mismatch: {self.payloadSize}B/{self.payloadAlign}"
        ++ s!" vs {other.payloadSize}B/{other.payloadAlign}"))
  else .ok ()

/-- The fields the comparison is about: every field but the two names. -/
theorem validateCompatibility_ok_iff (self other : StaticConfig) :
    self.validateCompatibility other = .ok () ↔
      self.magic = other.magic ∧ self.version = other.version ∧ self.pattern = other.pattern
        ∧ self.payloadSize = other.payloadSize ∧ self.payloadAlign = other.payloadAlign := by
  unfold validateCompatibility
  by_cases hmagic : self.magic = other.magic
  · by_cases hversion : self.version = other.version
    · by_cases hpattern : self.pattern = other.pattern
      · by_cases hsize : self.payloadSize = other.payloadSize
        · by_cases halign : self.payloadAlign = other.payloadAlign
          · simp [hmagic, hversion, hpattern, hsize, halign]
          · simp [hmagic, hversion, hpattern, hsize, halign]
        · simp [hmagic, hversion, hpattern, hsize]
      · simp [hmagic, hversion, hpattern]
    · simp [hmagic, hversion]
  · simp [hmagic]

theorem validateCompatibility_self (c : StaticConfig) : c.validateCompatibility c = .ok () :=
  (c.validateCompatibility_ok_iff c).mpr ⟨rfl, rfl, rfl, rfl, rfl⟩

end StaticConfig

end Entangle.Registry
