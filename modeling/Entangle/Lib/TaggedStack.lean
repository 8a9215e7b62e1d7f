/-
  Entangle.Lib.TaggedStack — a linked free list whose head word carries a tag.

  Threads pop and push cells with a compare-exchange on the head word.  Every
  successful compare-exchange adds one to a tag of `w` bits that shares the
  word, so that a head that has gone away and come back is told apart from one
  that never moved (ABA), as long as fewer than `2 ^ w` updates lie in between.

  `TaggedStack` is what the shared words say, `updates` the unbounded counter
  that the tag stands for, and a version is a value of `updates`.

  The rules, for an algorithm that makes its own accesses to the words:
    * `Holds.new`, `Holds.setNext` — the initial list; writes off the list;
    * `Read.fresh`, `Read.same`, `Read.exchanged` — what a thread knows about
      the head it read, and how that survives the accesses of others;
    * `Holds.pop`, `Holds.push` — the two compare-exchanges.
-/
import Entangle.Lib.FreeChain
import Entangle.Lib.Word
import Mathlib.Data.List.Range

namespace Entangle.Lib

variable {α : Type*} {w : Nat}

/-- The words of the stack, and how often the head has been exchanged. -/
structure TaggedStack (α : Type*) (w : Nat) where
  head : α
  tag : BitVec w
  next : α → Option α
  updates : Nat

namespace TaggedStack

variable {s s' : TaggedStack α w} {nil h i n : α} {g : BitVec w} {ver : Nat} {l : List α}

/-- The head becomes `n`, and the tag moves on. -/
def exchange (s : TaggedStack α w) (n : α) : TaggedStack α w :=
  { s with head := n, tag := s.tag + 1, updates := s.updates + 1 }

/-- The cells on the stack are `l`, and the tag counts the updates. -/
structure Holds (s : TaggedStack α w) (nil : α) (l : List α) : Prop where
  linked : Linked s.next nil s.head l
  tag : s.tag = BitVec.ofNat w s.updates

/-- What a thread knows that read the head `h` with tag `g` at version `ver`. -/
structure Read (s : TaggedStack α w) (h : α) (g : BitVec w) (ver : Nat) : Prop where
  past : ver ≤ s.updates
  tag : g = BitVec.ofNat w ver
  current : ver = s.updates → h = s.head

/-- What a thread knows that then loaded `n` from the cell `h`. -/
def NextRead (s : TaggedStack α w) (h : α) (ver : Nat) (n : α) : Prop :=
  ver = s.updates → s.next h = some n

/-! ## §1. Reads. -/

/-- A thread that has just read the head. -/
theorem Holds.read (hs : s.Holds nil l) : s.Read s.head s.tag s.updates :=
  ⟨Nat.le_refl _, hs.tag, fun _ => rfl⟩

/-- The head and its tag stay what they are. -/
theorem Read.same (hr : s.Read h g ver) (hhead : s'.head = s.head)
    (hupd : s'.updates = s.updates) : s'.Read h g ver := by
  constructor
  · rw [hupd]
    exact hr.past
  · exact hr.tag
  · rw [hupd, hhead]
    exact hr.current

/-- After an exchange no earlier read is current, so nothing is claimed of it. -/
theorem Read.exchanged (hr : s.Read h g ver) (n : α) : (s.exchange n).Read h g ver := by
  have hpast := hr.past
  constructor
  · show ver ≤ s.updates + 1
    omega
  · exact hr.tag
  · intro hcur
    have : ver = s.updates + 1 := hcur
    omega

/-- The next cell loaded before an exchange is not current after it. -/
theorem Read.nextRead_exchanged (hr : s.Read h g ver) (m : α) :
    (s.exchange m).NextRead h ver n := by
  intro hcur
  have hpast := hr.past
  have : ver = s.updates + 1 := hcur
  omega

/-- **The tag excludes ABA**: a compare-exchange that finds the tag it expects,
fewer than `2 ^ w` updates later, finds a head that was not updated at all. -/
theorem Read.current_of_tag (hs : s.Holds nil l) (hr : s.Read h g ver) (htag : s.tag = g)
    (hfew : s.updates - ver < 2 ^ w) : ver = s.updates := by
  apply ofNat_inj_of_close w ver s.updates hr.past hfew
  rw [← hs.tag, htag, hr.tag]

/-! ## §2. Writes to `next`. -/

/-- A write to a cell off the stack keeps the list. -/
theorem Holds.setNext (hs : s.Holds nil l) (hi : i ∉ l) (hhead : s'.head = s.head)
    (htag : s'.tag = s.tag) (hupd : s'.updates = s.updates)
    (hnext : ∀ j, j ≠ i → s'.next j = s.next j) : s'.Holds nil l := by
  constructor
  · rw [hhead]
    apply hs.linked.congr
    intro j hj
    apply hnext
    rintro rfl
    exact hi hj
  · rw [htag, hupd]
    exact hs.tag

/-- A write to a cell off the stack keeps what a thread has loaded from the
head, which is on the stack if it is current. -/
theorem NextRead.setNext (hs : s.Holds nil l) (hr : s.Read h g ver) (hn : s.NextRead h ver n)
    (hne : h ≠ nil) (hi : i ∉ l) (hupd : s'.updates = s.updates)
    (hnext : ∀ j, j ≠ i → s'.next j = s.next j) : s'.NextRead h ver n := by
  intro hcur
  rw [hupd] at hcur
  have hhead : h = s.head := hr.current hcur
  have hlinked := hs.linked
  rw [← hhead] at hlinked
  obtain ⟨m, l', hl, _, _⟩ := hlinked.eq_cons hne
  have hmem : h ∈ l := by
    rw [hl]
    exact List.mem_cons_self
  rw [hnext h (fun he => hi (he ▸ hmem))]
  exact hn hcur

/-! ## §3. The compare-exchanges. -/

/-- **Pop**: within the tag's range, an exchange that finds the head it expects
takes that head off the list. -/
theorem Holds.pop (hs : s.Holds nil l) (hr : s.Read s.head s.tag ver)
    (hn : s.NextRead s.head ver n) (hne : s.head ≠ nil) (hfew : s.updates - ver < 2 ^ w) :
    ∃ l', l = s.head :: l' ∧ (s.exchange n).Holds nil l' := by
  have hver : ver = s.updates := hr.current_of_tag hs rfl hfew
  obtain ⟨m, l', hl, hm, hrest⟩ := hs.linked.eq_cons hne
  obtain rfl : m = n := Option.some.inj (hm.symm.trans (hn hver))
  refine ⟨l', hl, hrest, ?_⟩
  show s.tag + 1 = BitVec.ofNat w (s.updates + 1)
  rw [hs.tag, ofNat_succ]

/-- **Push**: a cell whose `next` is the head becomes the head. -/
theorem Holds.push (hs : s.Holds nil l) (hi : i ≠ nil) (hn : s.next i = some s.head) :
    (s.exchange i).Holds nil (i :: l) := by
  constructor
  · exact hs.linked.push hi hn
  · show s.tag + 1 = BitVec.ofNat w (s.updates + 1)
    rw [hs.tag, ofNat_succ]

end TaggedStack

/-! ## §4. The initial list. -/

/-- A table in which each of the `c` cells points to its successor and the last
to the end marker; by induction on how many cells are left. -/
theorem Linked.successors {next : α → Option α} {nil : α} {cell : Nat → α} {c : Nat}
    (hcell : ∀ k, k < c → cell k ≠ nil)
    (hnext : ∀ k, k < c → next (cell k) = some (if k + 1 < c then cell (k + 1) else nil)) :
    ∀ m k, k + m = c → 0 < m → Linked next nil (cell k) ((List.range' k m).map cell) := by
  intro m
  induction m with
  | zero =>
      intro k _ h0
      exact absurd h0 (by omega)
  | succ m ih =>
      intro k hk _
      rw [List.range'_succ, List.map_cons]
      refine ⟨rfl, hcell k (by omega), _, hnext k (by omega), ?_⟩
      cases m with
      | zero =>
          rw [if_neg (by omega)]
          rfl
      | succ m =>
          rw [if_pos (by omega)]
          exact ih (k + 1) (by omega) (by omega)

end Entangle.Lib
