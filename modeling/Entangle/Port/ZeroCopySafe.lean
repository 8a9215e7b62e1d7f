/-
  Entangle.Port.ZeroCopySafe — which payload types are admitted, and whether a
  freshly loaned sample is a value of its type (entangle-derive/src/lib.rs,
  entangle/src/contracts.rs, port/publisher.rs, sample.rs).

  The macro sees a definition: its attributes and its fields or variants.  What
  it admits lies in memory as the language says for `repr(C)`,
  `repr(transparent)` and `repr(u*)`/`repr(i*)`; `Ty.Valid` says which bytes are
  a value.  `loan` fills the payload with zero bytes, and `deref` gives out a
  reference to it.

  Main results:
    * `valid_zeros_iff` — zero bytes as a value of an admitted type, by
      induction over the type;
    * `loaned_valid_iff` — a loaned sample is valid iff every enum that is
      stored in it has a variant with discriminant 0.
-/
import Entangle.PubSub.Publisher
import Mathlib.Algebra.Order.Group.Unbundled.Int
import Mathlib.Tactic.Positivity

namespace Entangle.Port.ZeroCopySafe

open Entangle.Lib Entangle.Transport Entangle.PubSub

/-! ## §1. Definitions as the macro sees them. -/

inductive Width where
  | w8 | w16 | w32 | w64 | w128 | size
  deriving Repr, DecidableEq

/-- Its size in bytes on the supported platforms. -/
def Width.bytes : Width → Nat
  | .w8 => 1
  | .w16 => 2
  | .w32 => 4
  | .w64 | .size => 8
  | .w128 => 16

/-- The integer types, by sign and width. -/
structure IntTy where
  signed : Bool
  width : Width
  deriving Repr, DecidableEq

/-- The values of an integer type. -/
def IntTy.holds (i : IntTy) (x : Int) : Bool :=
  let modulus : Int := 2 ^ (8 * i.width.bytes)
  if i.signed then decide (-modulus ≤ 2 * x ∧ 2 * x < modulus) else decide (0 ≤ x ∧ x < modulus)

/-- The name of an integer type. -/
def IntTy.name (i : IntTy) : String :=
  (if i.signed then "i" else "u") ++
    match i.width with
    | .w8 => "8"
    | .w16 => "16"
    | .w32 => "32"
    | .w64 => "64"
    | .w128 => "128"
    | .size => "size"

/-- What may stand in `#[repr(…)]`. -/
inductive Hint where
  | c
  | transparent
  | rust
  | simd
  | packed (n : Option Nat)
  | align (n : Nat)
  | int (i : IntTy)
  deriving Repr, DecidableEq

/-- The hint as a single identifier. -/
def Hint.ident : Hint → Option String
  | .c => some "C"
  | .transparent => some "transparent"
  | .rust => some "Rust"
  | .simd => some "simd"
  | .packed none => some "packed"
  | .packed (some _) | .align _ => none
  | .int i => some i.name

/-- An attribute; only those with the path `repr` have hints. -/
structure Attr where
  path : String
  hints : List Hint
  deriving Repr, DecidableEq

/-- `attr.parse_args::<syn::Ident>()`: exactly one argument, an identifier. -/
def Attr.parseIdent (attr : Attr) : Option String :=
  match attr.hints with
  | [hint] => hint.ident
  | _ => none

/-- A variant of an enum; of its fields only their number matters here. -/
structure Variant where
  name : String
  fields : Nat
  discriminant : Option Int
  deriving Repr, DecidableEq

/-- `syn::Data`, the types of fields being `F`. -/
inductive Data (F : Type*) where
  | struct (fields : List F)
  | enum (variants : List Variant)
  | union (fields : List F)

/-! ## §2. The macro. -/

def hasValidRepr (attrs : List Attr) : Bool :=
  attrs.any (fun attr =>
    attr.path == "repr" &&
      match attr.parseIdent with
      | some repr => repr == "C" || repr == "transparent"
          -- repr(u8), repr(u16), etc. for enums
          || repr.startsWith 'u' || repr.startsWith 'i'
      | none => false)

variable {F : Type*}

def isFieldlessEnum : Data F → Bool
  | .enum variants => variants.all (fun v => v.fields == 0)
  | _ => false

/-- A placeholder in the source: nothing is checked here. -/
def validateStructFields (_fields : List F) : Except String Unit := .ok ()

/-- The types that the generated code asserts to be `ZeroCopySafe`. -/
def generateFieldAssertions : Data F → List F
  | .struct fields => fields
  | _ => []

/-- `impl_zero_copy_safe`: the types it asserts, or the error of the compiler. -/
def implZeroCopySafe (attrs : List Attr) (data : Data F) : Except String (List F) :=
  if hasValidRepr attrs = false then
    .error "ZeroCopySafe requires #[repr(C)] or #[repr(transparent)]"
  else
    match data with
    | .struct fields =>
        (validateStructFields fields).map (fun _ => generateFieldAssertions data)
    | .enum _ =>
        if isFieldlessEnum data = false then
          .error "ZeroCopySafe enums must be fieldless (no data variants)"
        else .ok (generateFieldAssertions data)
    | .union _ => .error "ZeroCopySafe cannot be derived for unions"

/-- A struct is admitted by its attributes; all its fields are asserted. -/
theorem implZeroCopySafe_struct {attrs : List Attr} {fields assertions : List F} :
    implZeroCopySafe attrs (.struct fields) = .ok assertions
      ↔ hasValidRepr attrs = true ∧ assertions = fields := by
  unfold implZeroCopySafe
  cases hrepr : hasValidRepr attrs with
  | false => simp
  | true =>
      show Except.ok fields = Except.ok assertions ↔ _
      simp [eq_comm]

/-- No union is admitted. -/
theorem implZeroCopySafe_union {attrs : List Attr} {fields assertions : List F} :
    implZeroCopySafe attrs (.union fields) ≠ .ok assertions := by
  unfold implZeroCopySafe
  split <;> simp

/-! ## §3. Enums. -/

/-- The discriminants: given, or one more than that of the variant before. -/
def discriminantsFrom : Int → List Variant → List Int
  | _, [] => []
  | next, v :: variants =>
      let x := v.discriminant.getD next
      x :: discriminantsFrom (x + 1) variants

/-- The hints of a definition, in all its attributes. -/
def hintsOf (attrs : List Attr) : List Hint := attrs.flatMap Attr.hints

/-- The integer type among the hints. -/
def intHint (hints : List Hint) : Option IntTy :=
  hints.findSome? (fun hint =>
    match hint with
    | .int i => some i
    | _ => none)

/-- The smallest integer type of at least `least` bytes that holds all of `xs`. -/
def fitting (least : Nat) (xs : List Int) : IntTy :=
  let signed := xs.any (fun x => decide (x < 0))
  let fits := fun w => decide (least ≤ Width.bytes w) && xs.all (fun x => IntTy.holds ⟨signed, w⟩ x)
  ⟨signed, ([Width.w8, .w16, .w32].find? fits).getD .w64⟩

/-- The type of the stored discriminant: the hinted one, else a `c_int` or a
larger type for `repr(C)`; nothing is stored for the one variant of an enum
that is `repr(transparent)` or has no hint. -/
def tagOf (attrs : List Attr) (variants : List Variant) : Option IntTy :=
  match intHint (hintsOf attrs) with
  | some i => some i
  | none =>
      if .c ∈ hintsOf attrs then some (fitting 4 (discriminantsFrom 0 variants))
      else if variants.length = 1 then none
      else some (fitting 1 (discriminantsFrom 0 variants))

/-- An enum.  The language requires that its discriminants are values of the
type they are stored as. -/
structure EnumItem where
  attrs : List Attr
  variants : List Variant
  fits : ∀ i ∈ tagOf attrs variants, ∀ x ∈ discriminantsFrom 0 variants, i.holds x = true

def EnumItem.discriminants (e : EnumItem) : List Int := discriminantsFrom 0 e.variants

def EnumItem.tag (e : EnumItem) : Option IntTy := tagOf e.attrs e.variants

theorem IntTy.holds_bound {i : IntTy} {x : Int} (h : i.holds x = true) :
    |x| < 2 ^ (8 * i.width.bytes) := by
  have hpos : (0 : Int) < 2 ^ (8 * i.width.bytes) := by positivity
  simp only [IntTy.holds] at h
  rw [abs_lt]
  split at h
  next =>
    have hrange := of_decide_eq_true h
    omega
  next =>
    have hrange := of_decide_eq_true h
    omega

/-- A discriminant is stored as zero bytes only if it is zero. -/
theorem IntTy.holds_emod {i : IntTy} {x : Int} (h : i.holds x = true) :
    x % 2 ^ (8 * i.width.bytes) = 0 ↔ x = 0 := by
  constructor
  · intro hmod
    exact Int.eq_zero_of_abs_lt_dvd (Int.dvd_of_emod_eq_zero hmod) (IntTy.holds_bound h)
  · rintro rfl
    exact Int.zero_emod _

/-! ## §4. Layout. -/

/-- `size_of` and `align_of`. -/
structure Layout where
  size : Nat
  align : Nat
  deriving Repr, DecidableEq

/-- The next multiple of `a` from `x` on. -/
def alignUp (x a : Nat) : Nat := x + (a - x % a) % a

theorem le_alignUp (x a : Nat) : x ≤ alignUp x a := Nat.le_add_right _ _

/-- The bound of `repr(packed)` on the alignment of the fields. -/
def packOf (hints : List Hint) : Option Nat :=
  hints.findSome? (fun hint =>
    match hint with
    | .packed n => some (n.getD 1)
    | _ => none)

/-- The least alignment that `repr(align)` asks for. -/
def alignOf (hints : List Hint) : Nat :=
  hints.foldr (fun hint a =>
    match hint with
    | .align n => max n a
    | _ => a) 1

def fieldAlign (pack : Option Nat) (field : Layout) : Nat :=
  match pack with
  | none => field.align
  | some n => min n field.align

/-- Where a field starts when the fields before it end at `off`. -/
def fieldOffset (pack : Option Nat) (off : Nat) (field : Layout) : Nat :=
  alignUp off (fieldAlign pack field)

/-- Where the last field ends. -/
def fieldsEnd (pack : Option Nat) : Nat → List Layout → Nat
  | off, [] => off
  | off, field :: fields => fieldsEnd pack (fieldOffset pack off field + field.size) fields

theorem le_fieldsEnd (pack : Option Nat) (fields : List Layout) :
    ∀ off, off ≤ fieldsEnd pack off fields := by
  induction fields with
  | nil => exact fun off => Nat.le_refl off
  | cons field fields ih =>
      intro off
      calc off ≤ fieldOffset pack off field := le_alignUp _ _
        _ ≤ fieldOffset pack off field + field.size := Nat.le_add_right _ _
        _ ≤ fieldsEnd pack off (field :: fields) := ih _

/-- The fields one after another, as `repr(C)` places them; of a
`repr(transparent)` struct at most one field takes space. -/
def structLayout (hints : List Hint) (fields : List Layout) : Layout :=
  let align := (fields.map (fieldAlign (packOf hints))).foldr max (alignOf hints)
  ⟨alignUp (fieldsEnd (packOf hints) 0 fields) align, align⟩

def unionLayout (hints : List Hint) (fields : List Layout) : Layout :=
  let align := (fields.map (fieldAlign (packOf hints))).foldr max (alignOf hints)
  ⟨alignUp ((fields.map Layout.size).foldr max 0) align, align⟩

/-- The stored discriminant, padded where `repr(align)` asks for it. -/
def EnumItem.layout (e : EnumItem) : Layout :=
  let bytes := (e.tag.map (fun i => i.width.bytes)).getD 0
  let align := max bytes (alignOf (hintsOf e.attrs))
  ⟨alignUp bytes align, align⟩

/-! ## §5. Types, and what a value of a type is. -/

/-- Payload types.  `args` are the type arguments of a generic struct, `fields`
its field types at these arguments.  A `foreign` type is one that has no
`ZeroCopySafe` impl, whatever it looks like. -/
inductive Ty where
  | int (i : IntTy)
  | f32
  | f64
  | bool
  | array (elem : Ty) (len : Nat)
  | struct (attrs : List Attr) (args fields : List Ty)
  | enum (e : EnumItem)
  | union (attrs : List Attr) (fields : List Ty)
  | foreign (layout : Layout) (valid : Memory → Nat → Prop)

mutual
def Ty.layout : Ty → Layout
  | .int i => ⟨i.width.bytes, i.width.bytes⟩
  | .f32 => ⟨4, 4⟩
  | .f64 => ⟨8, 8⟩
  | .bool => ⟨1, 1⟩
  | .array elem len => ⟨len * elem.layout.size, elem.layout.align⟩
  | .struct attrs _ fields => structLayout (hintsOf attrs) (Ty.layouts fields)
  | .enum e => e.layout
  | .union attrs fields => unionLayout (hintsOf attrs) (Ty.layouts fields)
  | .foreign layout _ => layout

def Ty.layouts : List Ty → List Layout
  | [] => []
  | t :: ts => t.layout :: Ty.layouts ts
end

/-- The number in the `n` bytes from `a` on, the lowest byte first. -/
def numberAt (mem : Memory) (a : Nat) : Nat → Nat
  | 0 => 0
  | n + 1 => numberAt mem a n + (mem (a + n)).toNat * 2 ^ (8 * n)

/-- The bytes at `a` are the discriminant of a variant. -/
def EnumItem.Valid (mem : Memory) (e : EnumItem) (a : Nat) : Prop :=
  ∀ i ∈ e.tag, ∃ x ∈ e.discriminants,
    x % 2 ^ (8 * i.width.bytes) = (numberAt mem a i.width.bytes : Int)

mutual
/-- The bytes at `a` are a value of the type. -/
def Ty.Valid (mem : Memory) : Ty → Nat → Prop
  | .int _, _ | .f32, _ | .f64, _ => True
  | .bool, a => mem a = 0#8 ∨ mem a = 1#8
  | .array elem len, a => ∀ k < len, elem.Valid mem (a + k * elem.layout.size)
  | .struct attrs _ fields, a => Ty.FieldsValid mem (packOf (hintsOf attrs)) fields a 0
  | .enum e, a => e.Valid mem a
  -- the language asks nothing of the bytes of a union
  | .union _ _, _ => True
  | .foreign _ valid, a => valid mem a

/-- The fields of a struct at `a`, those before them ending at `off`. -/
def Ty.FieldsValid (mem : Memory) (pack : Option Nat) : List Ty → Nat → Nat → Prop
  | [], _, _ => True
  | t :: ts, a, off =>
      t.Valid mem (a + fieldOffset pack off t.layout)
        ∧ Ty.FieldsValid mem pack ts a (fieldOffset pack off t.layout + t.layout.size)
end

mutual
/-- The type implements `ZeroCopySafe`: one of the impls of contracts.rs, or
derived.  The impl of a generic struct asks it of the type arguments. -/
def Ty.zeroCopySafe : Ty → Bool
  | .int i => i.width != .size
  | .f32 | .f64 | .bool => true
  | .array elem _ => elem.zeroCopySafe
  | .struct attrs args fields =>
      (implZeroCopySafe attrs (.struct fields)).isOk && Ty.allZeroCopySafe args
        && Ty.allZeroCopySafe fields
  | .enum e => (implZeroCopySafe (F := Ty) e.attrs (.enum e.variants)).isOk
  | .union attrs fields => (implZeroCopySafe attrs (.union fields)).isOk
  | .foreign _ _ => false

def Ty.allZeroCopySafe : List Ty → Bool
  | [] => true
  | t :: ts => t.zeroCopySafe && Ty.allZeroCopySafe ts
end

theorem allZeroCopySafe_iff (ts : List Ty) :
    Ty.allZeroCopySafe ts = true ↔ ∀ t ∈ ts, t.zeroCopySafe = true := by
  induction ts with
  | nil => simp [Ty.allZeroCopySafe]
  | cons t ts ih => simp [Ty.allZeroCopySafe, ih]

/-- A derived struct: the macro accepts the attributes, the type arguments are
bound, and every field type it asserts has the impl. -/
theorem zeroCopySafe_struct_iff {attrs : List Attr} {args fields : List Ty} :
    (Ty.struct attrs args fields).zeroCopySafe = true
      ↔ implZeroCopySafe attrs (.struct fields) = .ok fields
        ∧ (∀ t ∈ args, t.zeroCopySafe = true) ∧ ∀ t ∈ fields, t.zeroCopySafe = true := by
  have hok : (implZeroCopySafe attrs (.struct fields)).isOk = true
      ↔ implZeroCopySafe attrs (.struct fields) = .ok fields := by
    cases himpl : implZeroCopySafe attrs (.struct fields) with
    | error reason => simp [Except.isOk, Except.toBool]
    | ok assertions =>
        obtain ⟨_, rfl⟩ := implZeroCopySafe_struct.mp himpl
        simp [Except.isOk, Except.toBool]
  simp only [Ty.zeroCopySafe, Bool.and_eq_true, allZeroCopySafe_iff, hok, and_assoc]

/-- An enum that is part of every value of the type. -/
inductive Stores : Ty → EnumItem → Prop
  | enum (e : EnumItem) : Stores (.enum e) e
  | elem {t : Ty} {len : Nat} {e : EnumItem} : 0 < len → Stores t e → Stores (.array t len) e
  | field {attrs : List Attr} {args fields : List Ty} {t : Ty} {e : EnumItem} :
      t ∈ fields → Stores t e → Stores (.struct attrs args fields) e

/-- There is a variant with discriminant 0, if the discriminant is stored at all. -/
def EnumItem.HasZero (e : EnumItem) : Prop := e.tag = none ∨ 0 ∈ e.discriminants

/-! ## §6. Zero bytes. -/

def ZeroAt (mem : Memory) (a n : Nat) : Prop := ∀ k < n, mem (a + k) = 0#8

theorem ZeroAt.part {mem : Memory} {a n : Nat} (h : ZeroAt mem a n) {off m : Nat}
    (hle : off + m ≤ n) : ZeroAt mem (a + off) m := by
  intro k hk
  rw [Nat.add_assoc]
  exact h (off + k) (by omega)

theorem ZeroAt.start {mem : Memory} {a n m : Nat} (h : ZeroAt mem a n) (hle : m ≤ n) :
    ZeroAt mem a m := fun k hk => h k (Nat.lt_of_lt_of_le hk hle)

theorem numberAt_zeros {mem : Memory} {a : Nat} : ∀ {n : Nat}, ZeroAt mem a n →
    numberAt mem a n = 0 := by
  intro n
  induction n with
  | zero => exact fun _ => rfl
  | succ n ih =>
      intro h
      simp [numberAt, ih (h.start (Nat.le_succ n)), h n (Nat.lt_succ_self n)]

/-- The stored discriminant lies within the enum. -/
theorem EnumItem.tag_le_size {e : EnumItem} {i : IntTy} (hi : e.tag = some i) :
    i.width.bytes ≤ e.layout.size := by
  simp only [EnumItem.layout, hi, Option.map_some, Option.getD_some]
  exact le_alignUp _ _

theorem EnumItem.valid_zeros_iff {mem : Memory} {e : EnumItem} {a : Nat}
    (hz : ZeroAt mem a e.layout.size) : e.Valid mem a ↔ e.HasZero := by
  unfold EnumItem.Valid EnumItem.HasZero
  cases htag : e.tag with
  | none => simp
  | some i =>
      have hnum : numberAt mem a i.width.bytes = 0 :=
        numberAt_zeros (hz.start (e.tag_le_size htag))
      have hholds : ∀ x ∈ e.discriminants, i.holds x = true := e.fits i htag
      simp only [Option.mem_def, Option.some.injEq, forall_eq', hnum, Nat.cast_zero,
        reduceCtorEq, false_or]
      constructor
      · rintro ⟨x, hx, hmod⟩
        rw [IntTy.holds_emod (hholds x hx)] at hmod
        rw [← hmod]
        exact hx
      · intro h0
        exact ⟨0, h0, Int.zero_emod _⟩

theorem stores_enum_iff {e e' : EnumItem} : Stores (.enum e) e' ↔ e' = e := by
  constructor
  · intro h
    cases h
    rfl
  · rintro rfl
    exact .enum _

theorem stores_array_iff {t : Ty} {len : Nat} {e : EnumItem} :
    Stores (.array t len) e ↔ 0 < len ∧ Stores t e := by
  constructor
  · intro h
    cases h with
    | elem hlen ht => exact ⟨hlen, ht⟩
  · exact fun h => .elem h.1 h.2

theorem stores_struct_iff {attrs : List Attr} {args fields : List Ty} {e : EnumItem} :
    Stores (.struct attrs args fields) e ↔ ∃ t ∈ fields, Stores t e := by
  constructor
  · intro h
    cases h with
    | field ht hs => exact ⟨_, ht, hs⟩
  · rintro ⟨t, ht, hs⟩
    exact .field ht hs

/-- The element `k` lies within the array. -/
theorem elem_within {len size k : Nat} (hk : k < len) : k * size + size ≤ len * size := by
  rw [← Nat.succ_mul]
  exact Nat.mul_le_mul_right size hk

mutual
/-- **Zero bytes as a value**: by induction over the type, each element and each
field lying within the bytes of the whole. -/
theorem valid_zeros_iff {mem : Memory} : ∀ (t : Ty) (a : Nat), t.zeroCopySafe = true →
    ZeroAt mem a t.layout.size → (t.Valid mem a ↔ ∀ e, Stores t e → e.HasZero)
  | .int _, _, _, _ | .f32, _, _, _ | .f64, _, _, _ => by
      simp only [Ty.Valid, true_iff]
      intro e he
      cases he
  | .bool, a, _, hz => by
      simp only [Ty.Valid]
      constructor
      · intro _ e he
        cases he
      · intro _
        exact .inl (hz 0 Nat.one_pos)
  | .array elem len, a, hsafe, hz => by
      simp only [Ty.Valid, stores_array_iff]
      have hsafe' : elem.zeroCopySafe = true := by
        simpa only [Ty.zeroCopySafe] using hsafe
      have helem : ∀ k < len, (elem.Valid mem (a + k * elem.layout.size)
          ↔ ∀ e, Stores elem e → e.HasZero) := fun k hk =>
        valid_zeros_iff elem _ hsafe' (hz.part (elem_within hk))
      constructor
      · intro h e he
        exact (helem 0 he.1).mp (h 0 he.1) e he.2
      · intro h k hk
        exact (helem k hk).mpr (fun e he => h e ⟨Nat.zero_lt_of_lt hk, he⟩)
  | .struct attrs args fields, a, hsafe, hz => by
      simp only [Ty.Valid, stores_struct_iff]
      obtain ⟨_, _, hsafe⟩ := zeroCopySafe_struct_iff.mp hsafe
      have hfields := fieldsValid_zeros_iff fields (packOf (hintsOf attrs)) a 0 hsafe
        (hz.start (le_alignUp _ _))
      rw [hfields]
      constructor
      · rintro h e ⟨t, ht, he⟩
        exact h t ht e he
      · intro h t ht e he
        exact h e ⟨t, ht, he⟩
  | .enum e, a, _, hz => by
      simp only [Ty.Valid, stores_enum_iff, forall_eq]
      exact EnumItem.valid_zeros_iff hz
  | .union attrs fields, _, hsafe, _ => by
      -- no union is admitted
      simp only [Ty.zeroCopySafe] at hsafe
      cases himpl : implZeroCopySafe attrs (.union fields) with
      | error reason =>
          rw [himpl] at hsafe
          exact absurd hsafe (by simp [Except.isOk, Except.toBool])
      | ok assertions => exact absurd himpl implZeroCopySafe_union
  | .foreign _ _, _, hsafe, _ => by
      simp only [Ty.zeroCopySafe, Bool.false_eq_true] at hsafe

theorem fieldsValid_zeros_iff {mem : Memory} : ∀ (ts : List Ty) (pack : Option Nat) (a off : Nat),
    (∀ t ∈ ts, t.zeroCopySafe = true) → ZeroAt mem a (fieldsEnd pack off (Ty.layouts ts)) →
    (Ty.FieldsValid mem pack ts a off ↔ ∀ t ∈ ts, ∀ e, Stores t e → e.HasZero)
  | [], _, _, _, _, _ => by simp [Ty.FieldsValid]
  | t :: ts, pack, a, off, hsafe, hz => by
      obtain ⟨hsafe₁, hsafe₂⟩ := List.forall_mem_cons.mp hsafe
      have hend := le_fieldsEnd pack (Ty.layouts ts) (fieldOffset pack off t.layout + t.layout.size)
      have hhead := valid_zeros_iff t (a + fieldOffset pack off t.layout) hsafe₁
        (hz.part (by simpa only [Ty.layouts, fieldsEnd] using hend))
      have htail := fieldsValid_zeros_iff ts pack a
        (fieldOffset pack off t.layout + t.layout.size) hsafe₂
        (by simpa only [Ty.layouts, fieldsEnd] using hz)
      simp only [Ty.FieldsValid, hhead, htail, List.forall_mem_cons]
end

/-! ## §7. Loaned samples. -/

/-- `SampleMut::deref` gives a reference to a value of the type: it refers to
the place of the sample's offset. -/
def DerefValid (t : Ty) (segment : DataSegment) (offset : PointerOffset) : Prop :=
  t.Valid segment.memory offset.offset

/-- The payload of a loaned sample is zero. -/
theorem loan_zeros {size : Nat} {p p' : Publisher size} {offset : PointerOffset}
    (h : p.loan = some (.ok offset, p')) : ZeroAt p'.segment.memory offset.offset size := by
  have hread : p'.segment.read size offset = fun _ => 0#8 := by
    unfold Publisher.loan at h
    split at h
    next => simp at h
    next =>
      split at h
      next => exact absurd h (by simp)
      next => simp at h
      next segment _ =>
        simp only [Option.some.injEq, Prod.mk.injEq, Except.ok.injEq] at h
        obtain ⟨rfl, rfl⟩ := h
        exact DataSegment.read_write segment _ _
  intro k hk
  exact congrFun hread ⟨k, hk⟩

/-- **A loaned sample of an admitted type is a value of its type iff every enum
stored in it has a variant with discriminant 0.** -/
theorem loaned_valid_iff (t : Ty) (hsafe : t.zeroCopySafe = true)
    (p p' : Publisher t.layout.size) (offset : PointerOffset)
    (hloan : p.loan = some (.ok offset, p')) :
    DerefValid t p'.segment offset ↔ ∀ e, Stores t e → e.HasZero :=
  valid_zeros_iff t offset.offset hsafe (loan_zeros hloan)

def reprAttr (hint : Hint) : List Attr := [⟨"repr", [hint]⟩]

/-- `#[repr(u8)] enum Status { Active = 0, Inactive = 1, Error = 2 }`. -/
def status : EnumItem where
  attrs := reprAttr (.int ⟨false, .w8⟩)
  variants := [⟨"Active", 0, some 0⟩, ⟨"Inactive", 0, some 1⟩, ⟨"Error", 0, some 2⟩]
  fits := by decide

/-- `#[repr(u8)] enum Mode { Auto = 1, Manual }`. -/
def mode : EnumItem where
  attrs := reprAttr (.int ⟨false, .w8⟩)
  variants := [⟨"Auto", 0, some 1⟩, ⟨"Manual", 0, none⟩]
  fits := by decide

/-- `#[repr(C)] struct Reading { stamp: u64, ok: bool, history: [Status; 3] }`. -/
def reading : Ty :=
  .struct (reprAttr .c) [] [.int ⟨false, .w64⟩, .bool, .array (.enum status) 3]

example : reading.layout = ⟨16, 8⟩ := by decide

/-- A publisher of readings: what it loans is a reading. -/
theorem loaned_valid_reading :
    ∃ p p' : Publisher reading.layout.size, ∃ offset : PointerOffset,
      p.loan = some (.ok offset, p') ∧ DerefValid reading p'.segment offset := by
  have hrun : ((Publisher.create reading.layout.size ⟨4, 2⟩).bind Publisher.loan).map
      (fun r => r.1.toOption.isSome) = some true := by decide
  obtain ⟨⟨result, p'⟩, hr, hok⟩ := Option.map_eq_some_iff.mp hrun
  obtain ⟨p, _, hloan⟩ := Option.bind_eq_some_iff.mp hr
  cases result with
  | error e => exact absurd hok (by simp [Except.toOption])
  | ok offset =>
      refine ⟨p, p', offset, hloan,
        (loaned_valid_iff reading (by decide) p p' offset hloan).mpr ?_⟩
      intro e he
      simp only [reading, stores_struct_iff, List.mem_cons, List.not_mem_nil, or_false,
        exists_eq_or_imp, exists_eq_left, stores_array_iff, stores_enum_iff] at he
      rcases he with he | he | ⟨_, rfl⟩
      · cases he
      · cases he
      · exact .inr (by decide)

/-- The macro admits `Mode`; a publisher of modes loans a sample that is none. -/
theorem loaned_mode_invalid :
    (Ty.enum mode).zeroCopySafe = true
      ∧ ∃ p p' : Publisher (Ty.enum mode).layout.size, ∃ offset : PointerOffset,
        Publisher.create _ ⟨4, 2⟩ = some p ∧ p.loan = some (.ok offset, p')
          ∧ ¬ DerefValid (.enum mode) p'.segment offset := by
  have hrun : ((Publisher.create (Ty.enum mode).layout.size ⟨4, 2⟩).bind Publisher.loan).map
      (fun r => r.1.toOption.isSome) = some true := by decide
  obtain ⟨⟨result, p'⟩, hr, hok⟩ := Option.map_eq_some_iff.mp hrun
  obtain ⟨p, hcreate, hloan⟩ := Option.bind_eq_some_iff.mp hr
  cases result with
  | error e => exact absurd hok (by simp [Except.toOption])
  | ok offset =>
      refine ⟨by decide, p, p', offset, hcreate, hloan, ?_⟩
      intro hvalid
      have hzero := (EnumItem.valid_zeros_iff (loan_zeros hloan)).mp hvalid
      exact absurd hzero (by simp [EnumItem.HasZero, EnumItem.tag, EnumItem.discriminants,
        tagOf, mode, reprAttr, hintsOf, intHint, discriminantsFrom])

end Entangle.Port.ZeroCopySafe
