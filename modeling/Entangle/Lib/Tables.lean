/-
  Entangle.Lib.Tables — lists that stand for tables.

  A handle on an object is its position in a list.  Objects are added at the
  end, and changed where they are; these are the two ways such a list changes:

    * `set_same`, `set_cases`, `forall_set` — an entry, after one has been replaced;
    * `set_of_some`, `mem_set_or_eq` — where the old entries are then;
    * `concat_cases`, `forall_concat`, `concat_default` — an entry, after one has
      been added;
    * `append_of_some` — the old entries are then where they were.
-/
import Mathlib.Data.List.Basic

namespace Entangle.Lib

variable {α β : Type*}

/-- An entry replaced by itself. -/
theorem set_same {l : List α} {i : Nat} {x : α} (h : l[i]? = some x) : l.set i x = l := by
  rw [← (List.getElem?_eq_some_iff.mp h).2]
  exact List.set_getElem_self _

/-- An entry of a table in which entry `i` has been replaced. -/
theorem set_cases {l : List α} {i j : Nat} {x y : α} (h : (l.set i x)[j]? = some y) :
    (j = i ∧ y = x) ∨ (j ≠ i ∧ l[j]? = some y) := by
  by_cases hj : j = i
  · left
    have hlt : i < l.length := by
      have hlt' := (List.getElem?_eq_some_iff.mp h).1
      rw [List.length_set] at hlt'
      omega
    rw [hj, List.getElem?_set_self hlt] at h
    exact ⟨hj, (Option.some.inj h).symm⟩
  · right
    rw [List.getElem?_set_ne (Ne.symm hj)] at h
    exact ⟨hj, h⟩

/-- What holds of the new entry, and held of all others, holds of every entry. -/
theorem forall_set {P : Nat → α → Prop} {l : List α} {i : Nat} {x : α} (hself : P i x)
    (hother : ∀ j y, j ≠ i → l[j]? = some y → P j y) :
    ∀ j y, (l.set i x)[j]? = some y → P j y := by
  intro j y h
  rcases set_cases h with ⟨rfl, rfl⟩ | ⟨hj, hold⟩
  · exact hself
  · exact hother j y hj hold

/-- What becomes of entry `j` when entry `i` is replaced. -/
theorem set_of_some {l : List α} {i j : Nat} {x y : α} (z : α) (hi : l[i]? = some x)
    (hj : l[j]? = some y) :
    (j = i ∧ y = x ∧ (l.set i z)[j]? = some z) ∨ (j ≠ i ∧ (l.set i z)[j]? = some y) := by
  by_cases he : j = i
  · left
    subst he
    rw [hi] at hj
    exact ⟨rfl, (Option.some.inj hj).symm,
      List.getElem?_set_self (List.getElem?_eq_some_iff.mp hi).1⟩
  · right
    rw [List.getElem?_set_ne (Ne.symm he)]
    exact ⟨he, hj⟩

/-- An entry of a table with one entry more. -/
theorem concat_cases {l : List α} {x y : α} {i : Nat} (h : (l ++ [x])[i]? = some y) :
    l[i]? = some y ∨ (i = l.length ∧ y = x) := by
  have hlt := (List.getElem?_eq_some_iff.mp h).1
  rw [List.length_append, List.length_singleton] at hlt
  by_cases hi : i < l.length
  · left
    rw [List.getElem?_append_left hi] at h
    exact h
  · right
    have hlast : i = l.length := by omega
    rw [hlast, List.getElem?_concat_length] at h
    exact ⟨hlast, (Option.some.inj h).symm⟩

/-- What held of every entry, and holds of the new one, holds of every entry. -/
theorem forall_concat {P : Nat → α → Prop} {l : List α} {x : α}
    (hold : ∀ i y, l[i]? = some y → P i y) (hnew : P l.length x) :
    ∀ i y, (l ++ [x])[i]? = some y → P i y := by
  intro i y h
  rcases concat_cases h with h | ⟨rfl, rfl⟩
  · exact hold i y h
  · exact hnew

/-- Entries that were there before stay where they are. -/
theorem append_of_some {l : List α} {i : Nat} {x : α} (l' : List α) (h : l[i]? = some x) :
    (l ++ l')[i]? = some x := by
  rw [List.getElem?_append_left (List.getElem?_eq_some_iff.mp h).1]
  exact h

/-- A new entry that counts as much as no entry changes nothing. -/
theorem concat_default (f : Option α → β) {l : List α} {x : α} (h : f (some x) = f none)
    (i : Nat) : f (l ++ [x])[i]? = f l[i]? := by
  rcases Nat.lt_trichotomy i l.length with hlt | rfl | hgt
  · rw [List.getElem?_append_left hlt]
  · rw [List.getElem?_concat_length, List.getElem?_eq_none (Nat.le_refl _), h]
  · rw [List.getElem?_eq_none (by simp; omega), List.getElem?_eq_none (by omega)]

/-- Replacing one entry leaves the others in the table. -/
theorem mem_set_or_eq {l : List α} {k : Nat} {old x : α} (new : α) (hk : l[k]? = some old)
    (hx : x ∈ l) : x = old ∨ x ∈ l.set k new := by
  obtain ⟨j, hj⟩ := List.mem_iff_getElem?.mp hx
  by_cases hjk : k = j
  · subst hjk
    rw [hk] at hj
    exact .inl (Option.some.inj hj).symm
  · right
    refine List.mem_iff_getElem?.mpr ⟨j, ?_⟩
    rw [List.getElem?_set_ne hjk]
    exact hj

end Entangle.Lib
