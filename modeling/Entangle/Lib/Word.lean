/-
  Entangle.Lib.Word — machine words that stand for unbounded counters.

  A counter that only ever grows is stored in a word of `n` bits, so what is
  stored is `BitVec.ofNat n c`.  The lemmas say when two stored counters can
  be told apart or subtracted without knowing whether they have wrapped: when
  the true counters are closer than `2 ^ n`.
-/
import Mathlib.Data.List.Nodup
import Mathlib.Data.List.Perm.Subperm
import Mathlib.Data.Nat.Basic
import Mathlib.Tactic.NormNum

namespace Entangle

/-- `u16`. -/
abbrev U16 := BitVec 16

/-- `u32`. -/
abbrev U32 := BitVec 32

/-- `u64`, and `usize` on the supported platforms. -/
abbrev U64 := BitVec 64

end Entangle

namespace Entangle.Lib

/-- Masking with `2 ^ k - 1` is reduction modulo `2 ^ k`. -/
theorem and_mask (n k x : Nat) (hk : k ≤ n) :
    (BitVec.ofNat n x &&& BitVec.ofNat n (2 ^ k - 1)).toNat = x % 2 ^ k := by
  have hpow : 2 ^ k ≤ 2 ^ n := Nat.pow_le_pow_right (by omega) hk
  have hpos : 0 < 2 ^ k := Nat.two_pow_pos k
  have hmask : (2 ^ k - 1) % 2 ^ n = 2 ^ k - 1 := Nat.mod_eq_of_lt (by omega)
  rw [BitVec.toNat_and, BitVec.toNat_ofNat, BitVec.toNat_ofNat, hmask,
      Nat.and_two_pow_sub_one_eq_mod, Nat.mod_mod_of_dvd _ (Nat.pow_dvd_pow 2 hk)]

/-- Two fields in one word: `hi` from bit `k` on, `lo` below it. -/
theorem shiftLeft_or_mask_toNat (n k hi lo : Nat) (hk : k ≤ n) (hhi : hi * 2 ^ k < 2 ^ n) :
    ((BitVec.ofNat n hi <<< k) ||| (BitVec.ofNat n lo &&& BitVec.ofNat n (2 ^ k - 1))).toNat
      = hi * 2 ^ k + lo % 2 ^ k := by
  have hpos : 0 < 2 ^ k := Nat.two_pow_pos k
  have hlt : hi < 2 ^ n := Nat.lt_of_le_of_lt (Nat.le_mul_of_pos_right hi hpos) hhi
  rw [BitVec.toNat_or, and_mask n k lo hk, BitVec.toNat_shiftLeft, BitVec.toNat_ofNat,
      Nat.mod_eq_of_lt hlt, Nat.shiftLeft_eq, Nat.mod_eq_of_lt hhi, Nat.mul_comm hi,
      ← Nat.two_pow_add_eq_or_of_lt (Nat.mod_lt lo hpos)]

/-- The wrapping difference of two stored counters is the true difference. -/
theorem ofNat_sub_toNat (n r w : Nat) (hle : r ≤ w) (hlt : w - r < 2 ^ n) :
    (BitVec.ofNat n w - BitVec.ofNat n r).toNat = w - r := by
  have h : BitVec.ofNat n w = BitVec.ofNat n (w - r) + BitVec.ofNat n r := by
    rw [← BitVec.ofNat_add, Nat.sub_add_cancel hle]
  rw [h, BitVec.add_sub_cancel, BitVec.toNat_ofNat, Nat.mod_eq_of_lt hlt]

/-- Stored counters that agree and are closer than `2 ^ n` are equal. -/
theorem ofNat_inj_of_close (n r w : Nat) (hle : r ≤ w) (hlt : w - r < 2 ^ n)
    (h : BitVec.ofNat n w = BitVec.ofNat n r) : r = w := by
  have hd := ofNat_sub_toNat n r w hle hlt
  rw [h, BitVec.sub_self, BitVec.toNat_zero] at hd
  omega

/-- Storing the successor is adding one to the word. -/
theorem ofNat_succ (n c : Nat) : BitVec.ofNat n (c + 1) = BitVec.ofNat n c + 1 :=
  BitVec.ofNat_add c 1

/-- There are at most `c` distinct words below `c`. -/
theorem length_le_of_nodup_lt {n c : Nat} {l : List (BitVec n)} (hnodup : l.Nodup)
    (hlt : ∀ x ∈ l, x.toNat < c) : l.length ≤ c := by
  have hmap : (l.map BitVec.toNat).Nodup :=
    hnodup.map (fun _ _ he => BitVec.eq_of_toNat_eq he)
  have hsub : l.map BitVec.toNat ⊆ List.range c := by
    intro y hy
    obtain ⟨x, hx, rfl⟩ := List.mem_map.mp hy
    exact List.mem_range.mpr (hlt x hx)
  have hle := (hmap.subperm hsub).length_le
  rw [List.length_map, List.length_range] at hle
  exact hle

end Entangle.Lib
