/-
  Entangle.Lib.Bytes — a byte memory with reads and writes of fixed-size values.

  A value of `n` bytes is `Fin n → Byte`.  What a write does to a later read
  depends only on whether the two ranges meet:
    * `readAt_writeAt` — the same range;
    * `readAt_writeAt_disjoint` — ranges that do not meet.
-/
import Mathlib.Logic.Function.Basic

namespace Entangle.Lib

abbrev Byte := BitVec 8

/-- Byte-addressed memory. -/
abbrev Memory := Nat → Byte

/-- The `n` bytes from `a` on. -/
def readAt (n : Nat) (m : Memory) (a : Nat) : Fin n → Byte := fun i => m (a + i.val)

/-- Store the bytes of `v` from `a` on. -/
def writeAt {n : Nat} (m : Memory) (a : Nat) (v : Fin n → Byte) : Memory :=
  fun b => if h : a ≤ b ∧ b - a < n then v ⟨b - a, h.2⟩ else m b

theorem readAt_writeAt {n : Nat} (m : Memory) (a : Nat) (v : Fin n → Byte) :
    readAt n (writeAt m a v) a = v := by
  funext i
  have hi : a ≤ a + i.val ∧ a + i.val - a < n := by
    have := i.isLt
    omega
  show (if h : _ then _ else _) = v i
  rw [dif_pos hi]
  congr 1
  exact Fin.ext (Nat.add_sub_cancel_left a i.val)

theorem readAt_writeAt_disjoint {n k : Nat} (m : Memory) (a b : Nat) (v : Fin n → Byte)
    (h : a + n ≤ b ∨ b + k ≤ a) : readAt k (writeAt m a v) b = readAt k m b := by
  funext i
  have hi : ¬ (a ≤ b + i.val ∧ b + i.val - a < n) := by
    have := i.isLt
    omega
  simp only [readAt, writeAt, dif_neg hi]

end Entangle.Lib
