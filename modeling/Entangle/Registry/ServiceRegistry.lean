/-
  Entangle.Registry.ServiceRegistry — the file-based registry of services
  (entangle/src/service/registry.rs, lifecycle.rs, and `ServiceName` of
  contracts.rs).

  A service is a RON file under `{shm_root}/services`.  The RON library is a
  parameter; of the file system, only the contents of that directory matter, and
  input and output do not fail.

  Two names whose file names are the same are one service: `/` is replaced by
  `_`, and `_` may occur in a name.

  Main definitions:
    * `call` — the registry over its files;
    * `specCall` — a map from service names to configs;
    * `Apart` — no other name with the same file is registered.

  Main results:
    * `names_collide` — the registry is not that map;
    * `registry_is_map` — it is, in runs that keep to `Apart`.
-/
import Entangle.Lib.Transition
import Entangle.Registry.StaticConfig
import Mathlib.Logic.Function.Basic

namespace Entangle.Registry

open Entangle.Lib

/-! ## §1. Service names and their files. -/

/-- A byte that `ServiceName::new` accepts. -/
def nameChar (c : Char) : Bool := c.isAlphanum || ['/', '-', '_', '.'].contains c

/-- `ServiceName`, with what `new` has checked. -/
structure ServiceName where
  name : String
  size : 1 ≤ name.utf8ByteSize ∧ name.utf8ByteSize ≤ 255
  chars : name.toList.all nameChar = true

/-- `ServiceName::new`. -/
def ServiceName.new (name : String) : Except String ServiceName :=
  if hsize : 1 ≤ name.utf8ByteSize ∧ name.utf8ByteSize ≤ 255 then
    if hchars : name.toList.all nameChar = true then .ok ⟨name, hsize, hchars⟩
    else .error "service name contains invalid characters"
  else .error "service name must be 1-255 bytes"

/-- `name.replace('/', "_")`. -/
def safeName (name : String) : String :=
  String.ofList (name.toList.map (fun c => if c = '/' then '_' else c))

/-- `service_path`, below the root of the registry. -/
def servicePath (name : String) : String := s!"{safeName name}.ron"

/-! ## §2. The registry. -/

/-- The contents of the files below the root. -/
abbrev Files := String → Option String

/-- `ron::to_string` and `ron::from_str` on configs. -/
structure Ron where
  toStr : StaticConfig → Except String String
  fromStr : String → Except String StaticConfig

/-- `create_new(true)`: an empty file, unless there is one of the name. -/
def createNew (files : Files) (path : String) : Option Files :=
  if (files path).isSome then none else some (Function.update files path (some ""))

/-- `write_all` to a file that was just created. -/
def writeAll (files : Files) (path data : String) : Files :=
  Function.update files path (some data)

/-- `ServiceRegistry::register`. -/
def register (ron : Ron) (files : Files) (config : StaticConfig) :
    Except ServiceError String × Files :=
  let path := servicePath config.serviceName
  match ron.toStr config with
  | .error e => (.error (.corrupted s!"serialization failed: {e}"), files)
  | .ok serialized =>
      match createNew files path with
      | none => (.error (.alreadyExists config.serviceName), files)
      | some created => (.ok path, writeAll created path serialized)

/-- `ServiceRegistry::lookup`. -/
def lookup (ron : Ron) (files : Files) (name : String) : Except ServiceError StaticConfig :=
  match files (servicePath name) with
  | none => .error (.notFound name)
  | some data =>
      match ron.fromStr data with
      | .error e => .error (.corrupted s!"deserialization failed: {e}")
      | .ok config => .ok config

/-- `ServiceRegistry::unregister`. -/
def unregister (files : Files) (name : String) : Except ServiceError Unit × Files :=
  if (files (servicePath name)).isSome then
    (.ok (), Function.update files (servicePath name) none)
  else (.ok (), files)

/-! ## §3. The lifecycle. -/

/-- `ServiceLifecycle::open`. -/
def openService (ron : Ron) (files : Files) (expected : StaticConfig) :
    Except ServiceError StaticConfig :=
  match lookup ron files expected.serviceName with
  | .error e => .error e
  | .ok existing =>
      match expected.validateCompatibility existing with
      | .error e => .error e
      | .ok () => .ok existing

/-- `ServiceLifecycle::create`. -/
def createService (ron : Ron) (files : Files) (config : StaticConfig) :
    Except ServiceError Unit × Files :=
  match register ron files config with
  | (.error e, files) => (.error e, files)
  | (.ok _, files) => (.ok (), files)

/-- `ServiceLifecycle::open_or_create`, run without interference. -/
def openOrCreate (ron : Ron) (files : Files) (config : StaticConfig) :
    Except ServiceError StaticConfig × Files :=
  match openService ron files config with
  | .ok existing => (.ok existing, files)
  | .error (.notFound _) =>
      match createService ron files config with
      | (.error e, files) => (.error e, files)
      | (.ok (), files) => (.ok config, files)
  | .error e => (.error e, files)

/-! ## §4. Files of a config. -/

/-- RON decodes what it encoded. -/
def Ron.Encodes (ron : Ron) (config : StaticConfig) (text : String) : Prop :=
  ron.toStr config = .ok text ∧ ron.fromStr text = .ok config

theorem createNew_of_none {files : Files} {path : String} (h : files path = none) :
    createNew files path = some (Function.update files path (some "")) := by
  unfold createNew
  rw [h]
  rfl

theorem createNew_of_some {files : Files} {path data : String} (h : files path = some data) :
    createNew files path = none := by
  unfold createNew
  rw [h]
  rfl

theorem lookup_of_none (ron : Ron) {files : Files} {name : String}
    (h : files (servicePath name) = none) : lookup ron files name = .error (.notFound name) := by
  unfold lookup
  rw [h]

theorem lookup_of_text {ron : Ron} {files : Files} {name text : String} {config : StaticConfig}
    (h : files (servicePath name) = some text) (hdec : ron.fromStr text = .ok config) :
    lookup ron files name = .ok config := by
  unfold lookup
  rw [h]
  simp only [hdec]

theorem register_of_none {ron : Ron} {files : Files} {config : StaticConfig} {text : String}
    (henc : ron.toStr config = .ok text) (h : files (servicePath config.serviceName) = none) :
    register ron files config = (.ok (servicePath config.serviceName),
      Function.update files (servicePath config.serviceName) (some text)) := by
  unfold register
  simp only [henc, createNew_of_none h, writeAll, Function.update_idem]

theorem register_of_some {ron : Ron} {files : Files} {config : StaticConfig} {text data : String}
    (henc : ron.toStr config = .ok text)
    (h : files (servicePath config.serviceName) = some data) :
    register ron files config = (.error (.alreadyExists config.serviceName), files) := by
  unfold register
  simp only [henc, createNew_of_some h]

/-! ## §5. A map from names to configs. -/

/-- A call on the registry. -/
inductive Call where
  | register (config : StaticConfig)
  | lookup (name : String)
  | unregister (name : String)
  deriving Repr, DecidableEq

/-- The name a call is about. -/
def Call.name : Call → String
  | .register config => config.serviceName
  | .lookup name => name
  | .unregister name => name

/-- What a call returns. -/
inductive Ret where
  | registered (r : Except ServiceError Unit)
  | found (r : Except ServiceError StaticConfig)
  | unregistered (r : Except ServiceError Unit)
  deriving DecidableEq

/-- A call on the files. -/
def call (ron : Ron) (files : Files) : Call → Ret × Files
  | .register config =>
      let r := register ron files config
      (.registered (r.1.map (fun _ => ())), r.2)
  | .lookup name => (.found (lookup ron files name), files)
  | .unregister name =>
      let r := unregister files name
      (.unregistered r.1, r.2)

/-- What is registered under each name. -/
abbrev Services := String → Option StaticConfig

/-- The same call on a map keyed by the service name. -/
def specCall (m : Services) : Call → Ret × Services
  | .register config =>
      match m config.serviceName with
      | some _ => (.registered (.error (.alreadyExists config.serviceName)), m)
      | none => (.registered (.ok ()), Function.update m config.serviceName (some config))
  | .lookup name =>
      match m name with
      | some config => (.found (.ok config), m)
      | none => (.found (.error (.notFound name)), m)
  | .unregister name => (.unregistered (.ok ()), Function.update m name none)

/-- The files, and what should be registered. -/
structure State where
  files : Files
  services : Services

/-- One call on both. -/
def State.after (ron : Ron) (s : State) (c : Call) : State where
  files := (call ron s.files c).2
  services := (specCall s.services c).2

def step (ron : Ron) (s : State) (c : Call) : Option State := some (s.after ron c)

def init : State := { files := fun _ => none, services := fun _ => none }

/-- RON decodes what it encodes in this call. -/
def Call.Encoded (ron : Ron) : Call → Prop
  | .register config => ∃ text, ron.Encodes config text
  | _ => True

/-- No other name with the same file is registered. -/
def Apart (m : Services) (c : Call) : Prop :=
  ∀ name, name ≠ c.name → servicePath name = servicePath c.name → m name = none

/-- The side condition of `registry_is_map`. -/
def Call.Fine (ron : Ron) (s : State) (c : Call) : Prop := c.Encoded ron ∧ Apart s.services c

/-! ## §6. Two names, one file. -/

/-- What `ron::to_string` makes of a config without quotes or backslashes. -/
def ronText (c : StaticConfig) : String :=
  s!"(magic:{c.magic.toNat},version:{c.version.toNat},pattern:{c.pattern.debug},"
    ++ s!"service_name:\"{c.serviceName}\",payload_type_name:\"{c.payloadTypeName}\","
    ++ s!"payload_size:{c.payloadSize},payload_align:{c.payloadAlign})"

/-- What `ron` 0.8.1 says of a text that does not open the struct, such as an empty file. -/
def expectedStruct : String := "1:1: Expected opening `(` for struct `StaticConfig`"

/-- RON as far as the configs of `known` need it. -/
def ronOf (known : List StaticConfig) : Ron where
  toStr c := .ok (ronText c)
  fromStr text :=
    match known.find? (fun c => ronText c == text) with
    | some c => .ok c
    | none => .error expectedStruct

/-- The config of a service of `u64` samples. -/
def u64Config (name : String) : StaticConfig := .new .pubSub name "u64" 8 8

/-- `a/b` is registered, and `a_b` is not: a lookup of `a_b` finds the config of
`a/b`, and registering it fails. -/
theorem names_collide :
    ∃ (ron : Ron) (s : State),
      Reach (step ron) (fun _ c => c.Encoded ron) init s
        ∧ (ServiceName.new "a/b").isOk = true ∧ (ServiceName.new "a_b").isOk = true
        ∧ s.services "a_b" = none
        ∧ (call ron s.files (.lookup "a_b")).1 = .found (.ok (u64Config "a/b"))
        ∧ (call ron s.files (.register (u64Config "a_b"))).1
          = .registered (.error (.alreadyExists "a_b")) := by
  refine ⟨ronOf [u64Config "a/b", u64Config "a_b"], _,
    .tail (a := .register (u64Config "a/b")) .refl ⟨ronText (u64Config "a/b"), rfl, ?_⟩ rfl, ?_⟩
  · decide
  · decide

/-! ## §7. Runs that keep names apart. -/

/-- The files are those of the services. -/
structure Agrees (ron : Ron) (s : State) : Prop where
  file : ∀ name config, s.services name = some config →
    ∃ text, ron.Encodes config text ∧ s.files (servicePath name) = some text
  service : ∀ path text, s.files path = some text →
    ∃ name config, s.services name = some config ∧ servicePath name = path

theorem agrees_init (ron : Ron) : Agrees ron init := by
  constructor
  · intro name config h
    exact absurd h (by simp [init])
  · intro path text h
    exact absurd h (by simp [init])

/-- A name that is apart and not registered has no file. -/
theorem Agrees.file_none {ron : Ron} {s : State} (h : Agrees ron s) {c : Call}
    (hapart : Apart s.services c) (hnone : s.services c.name = none) :
    s.files (servicePath c.name) = none := by
  cases hfile : s.files (servicePath c.name) with
  | none => rfl
  | some text =>
      obtain ⟨name, config, hconfig, hpath⟩ := h.service _ _ hfile
      have hne : name ≠ c.name := by
        intro he
        rw [he, hnone] at hconfig
        exact absurd hconfig (by simp)
      rw [hapart name hne hpath] at hconfig
      exact absurd hconfig (by simp)

/-- **A call on the files returns what it returns on the map.** -/
theorem Agrees.returns {ron : Ron} {s : State} (h : Agrees ron s) {c : Call}
    (hfine : c.Fine ron s) : (call ron s.files c).1 = (specCall s.services c).1 := by
  obtain ⟨henc, hapart⟩ := hfine
  cases c with
  | register config =>
      obtain ⟨text, hencode, hdecode⟩ := henc
      cases hs : s.services config.serviceName with
      | none =>
          have hfile : s.files (servicePath config.serviceName) = none :=
            h.file_none (c := .register config) hapart hs
          simp only [call, register_of_none hencode hfile, specCall, hs]
          rfl
      | some old =>
          obtain ⟨data, _, hfile⟩ := h.file _ _ hs
          simp only [call, register_of_some hencode hfile, specCall, hs]
          rfl
  | lookup name =>
      cases hs : s.services name with
      | none =>
          have hfile : s.files (servicePath name) = none :=
            h.file_none (c := .lookup name) hapart hs
          simp only [call, lookup_of_none ron hfile, specCall, hs]
      | some config =>
          obtain ⟨text, hencodes, hfile⟩ := h.file _ _ hs
          simp only [call, lookup_of_text hfile hencodes.2, specCall, hs]
  | unregister name =>
      simp only [call, specCall, unregister]
      split
      next => rfl
      next => rfl

/-- A new file under a path that had none. -/
theorem Agrees.registered {ron : Ron} {s : State} (h : Agrees ron s) {config : StaticConfig}
    {text : String} (hencodes : ron.Encodes config text)
    (hnone : s.files (servicePath config.serviceName) = none) :
    Agrees ron
      { files := Function.update s.files (servicePath config.serviceName) (some text)
        services := Function.update s.services config.serviceName (some config) } := by
  constructor
  · intro name c hc
    by_cases hn : name = config.serviceName
    · subst hn
      have hc : Function.update s.services config.serviceName (some config) config.serviceName
          = some c := hc
      rw [Function.update_self] at hc
      obtain rfl := Option.some.inj hc
      exact ⟨text, hencodes, Function.update_self _ _ _⟩
    · have hold : s.services name = some c := by
        rw [← hc]
        exact (Function.update_of_ne hn _ _).symm
      obtain ⟨data, hdata, hfile⟩ := h.file name c hold
      have hne : servicePath name ≠ servicePath config.serviceName := by
        intro he
        rw [he, hnone] at hfile
        exact absurd hfile (by simp)
      have hsame : Function.update s.files (servicePath config.serviceName) (some text)
          (servicePath name) = s.files (servicePath name) := Function.update_of_ne hne _ _
      exact ⟨data, hdata, hsame.trans hfile⟩
  · intro path data hdata
    by_cases hp : path = servicePath config.serviceName
    · exact ⟨config.serviceName, config, Function.update_self _ _ _, hp.symm⟩
    · have hold : s.files path = some data := by
        rw [← hdata]
        exact (Function.update_of_ne hp _ _).symm
      obtain ⟨name, c, hc, hpath⟩ := h.service path data hold
      have hne : name ≠ config.serviceName := by
        intro he
        rw [he] at hpath
        exact hp hpath.symm
      exact ⟨name, c, (Function.update_of_ne hne _ _).trans hc, hpath⟩

/-- The file of a name goes away, and no other name had it. -/
theorem Agrees.unregistered {ron : Ron} {s : State} (h : Agrees ron s) {name : String}
    (hapart : Apart s.services (.unregister name)) :
    Agrees ron
      { files := Function.update s.files (servicePath name) none
        services := Function.update s.services name none } := by
  constructor
  · intro other c hc
    by_cases hn : other = name
    · subst hn
      exact absurd hc (by simp)
    · have hold : s.services other = some c := by
        rw [← hc]
        exact (Function.update_of_ne hn _ _).symm
      obtain ⟨data, hdata, hfile⟩ := h.file other c hold
      have hne : servicePath other ≠ servicePath name := by
        intro he
        rw [hapart other hn he] at hold
        exact absurd hold (by simp)
      have hsame : Function.update s.files (servicePath name) none (servicePath other)
          = s.files (servicePath other) := Function.update_of_ne hne _ _
      exact ⟨data, hdata, hsame.trans hfile⟩
  · intro path data hdata
    by_cases hp : path = servicePath name
    · subst hp
      exact absurd hdata (by simp)
    · have hold : s.files path = some data := by
        rw [← hdata]
        exact (Function.update_of_ne hp _ _).symm
      obtain ⟨other, c, hc, hpath⟩ := h.service path data hold
      have hne : other ≠ name := by
        intro he
        rw [he] at hpath
        exact hp hpath.symm
      exact ⟨other, c, (Function.update_of_ne hne _ _).trans hc, hpath⟩

/-- **The step lemma.** -/
theorem Agrees.step {ron : Ron} {s s' : State} (h : Agrees ron s) {c : Call}
    (hfine : c.Fine ron s) (hs : step ron s c = some s') : Agrees ron s' := by
  injection hs with hs
  subst hs
  obtain ⟨henc, hapart⟩ := hfine
  unfold State.after
  cases c with
  | register config =>
      obtain ⟨text, hencodes⟩ := henc
      cases hs : s.services config.serviceName with
      | none =>
          have hnone : s.files (servicePath config.serviceName) = none :=
            h.file_none (c := .register config) hapart hs
          simp only [call, register_of_none hencodes.1 hnone, specCall, hs]
          exact h.registered hencodes hnone
      | some old =>
          obtain ⟨data, _, hfile⟩ := h.file _ _ hs
          simp only [call, register_of_some hencodes.1 hfile, specCall, hs]
          exact h
  | lookup name =>
      have hsame : (specCall s.services (.lookup name)).2 = s.services := by
        simp only [specCall]
        split
        next => rfl
        next => rfl
      rw [hsame]
      exact h
  | unregister name =>
      have hupdate : (unregister s.files name).2
          = Function.update s.files (servicePath name) none := by
        unfold unregister
        split
        next => rfl
        next hno =>
          have hnone : s.files (servicePath name) = none := by simpa using hno
          exact (Function.update_eq_self_iff.mpr hnone.symm).symm
      simp only [call, hupdate, specCall]
      exact h.unregistered hapart

/-- What a call returns depends on its own name only. -/
theorem specCall_congr {m m' : Services} (c : Call) (h : m' c.name = m c.name) :
    (specCall m' c).1 = (specCall m c).1 := by
  cases c with
  | register config =>
      have hg : m' config.serviceName = m config.serviceName := h
      simp only [specCall, hg]
      cases m config.serviceName with
      | none => rfl
      | some old => rfl
  | lookup name =>
      have hg : m' name = m name := h
      simp only [specCall, hg]
      cases m name with
      | none => rfl
      | some old => rfl
  | unregister name => rfl

/-- A call changes the map at its own name only. -/
theorem specCall_other (m : Services) (c : Call) {name : String} (hne : name ≠ c.name) :
    (specCall m c).2 name = m name := by
  cases c with
  | register config =>
      simp only [specCall]
      split
      next => rfl
      next => exact Function.update_of_ne hne _ _
  | lookup other =>
      simp only [specCall]
      split
      next => rfl
      next => rfl
  | unregister other => exact Function.update_of_ne hne _ _

/-- A call is apart from the names registered, listed in `names`. -/
theorem apart_of_only {m : Services} {c : Call} (names : List String)
    (honly : ∀ name, name ∉ names → m name = none)
    (hnames : ∀ name ∈ names, name = c.name ∨ servicePath name ≠ servicePath c.name) :
    Apart m c := by
  intro name hne hpath
  apply honly
  intro hmem
  rcases hnames name hmem with he | hdiff
  · exact hne he
  · exact hdiff hpath

/-- One call adds at most its own name. -/
theorem only_specCall {m : Services} {names : List String} (c : Call)
    (h : ∀ name, name ∉ names → m name = none) :
    ∀ name, name ∉ c.name :: names → (specCall m c).2 name = none := by
  intro name hmem
  rw [List.mem_cons, not_or] at hmem
  rw [specCall_other m c hmem.1]
  exact h name hmem.2

/-- **In runs that keep names apart, the registry is a map keyed by the service
name**: every call returns what it returns on the map, and so a call on one name
does not change what a call on another returns. -/
theorem registry_is_map (ron : Ron) (s : State)
    (h : Reach (step ron) (fun s c => c.Fine ron s) init s) :
    (∀ c, c.Fine ron s → (call ron s.files c).1 = (specCall s.services c).1)
      ∧ (∀ c c' s', c.Fine ron s → step ron s c = some s' → c'.Fine ron s → c'.Fine ron s' →
          c.name ≠ c'.name → (call ron s'.files c').1 = (call ron s.files c').1) := by
  have hagrees : Agrees ron s :=
    h.invariant (Agrees ron) (agrees_init ron) (fun _ _ _ hi hfine hs => hi.step hfine hs)
  constructor
  · intro c hfine
    exact hagrees.returns hfine
  · intro c c' s' hfine hs hfine' hfine'' hne
    rw [hagrees.returns hfine', (hagrees.step hfine hs).returns hfine'']
    injection hs with hs
    subst hs
    exact specCall_congr c' (specCall_other s.services c hne.symm)

/-- RON for the two services of the run below. -/
def twoRon : Ron := ronOf [u64Config "a/b", u64Config "c"]

/-- Two services are registered and the first is unregistered: it is not found
any more, and the other still is. -/
theorem registry_is_map_two :
    ∃ s, Reach (step twoRon) (fun s c => c.Fine twoRon s) init s
      ∧ (call twoRon s.files (.lookup "a/b")).1 = .found (.error (.notFound "a/b"))
      ∧ (call twoRon s.files (.lookup "c")).1 = .found (.ok (u64Config "c")) := by
  have hempty : ∀ name, name ∉ ([] : List String) → init.services name = none := fun _ _ => rfl
  have hone := only_specCall (.register (u64Config "a/b")) hempty
  have htwo := only_specCall (.register (u64Config "c")) hone
  have hthree := only_specCall (.unregister "a/b") htwo
  have hfirst : Call.Fine twoRon init (.register (u64Config "a/b")) :=
    ⟨⟨ronText (u64Config "a/b"), rfl, by decide⟩, apart_of_only _ hempty (by decide)⟩
  have hsecond : Call.Fine twoRon (init.after twoRon (.register (u64Config "a/b")))
      (.register (u64Config "c")) :=
    ⟨⟨ronText (u64Config "c"), rfl, by decide⟩, apart_of_only _ hone (by decide)⟩
  have hthird : Call.Fine twoRon ((init.after twoRon (.register (u64Config "a/b"))).after twoRon
      (.register (u64Config "c"))) (.unregister "a/b") :=
    ⟨trivial, apart_of_only _ htwo (by decide)⟩
  have hreach : Reach (step twoRon) (fun s c => c.Fine twoRon s) init _ :=
    ((Reach.refl.tail hfirst rfl).tail hsecond rfl).tail hthird rfl
  have hmap := (registry_is_map twoRon _ hreach).1
  refine ⟨_, hreach, ?_, ?_⟩
  · rw [hmap (.lookup "a/b") ⟨trivial, apart_of_only _ hthree (by decide)⟩]
    decide
  · rw [hmap (.lookup "c") ⟨trivial, apart_of_only _ hthree (by decide)⟩]
    decide

end Entangle.Registry
