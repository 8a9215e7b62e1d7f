/-
  Entangle.Lib.FreeChain — singly linked lists threaded through a `next` table.

  `Linked next nil h l` says that following `next` from the cell `h` visits
  exactly the cells of `l`, in order, and then reaches the end marker `nil`.
  The table is partial (`next i = none` outside the array), so a linked list
  never leaves the array.

  The rules a lock-free stack needs:
    * `Linked.unique` — the list is a function of the table and the head;
    * `Linked.nodup` — a list that ends has no repeated cell;
    * `Linked.congr` — writes outside the list do not change it;
    * `Linked.push` / `Linked.eq_cons` — one cell in, one cell out.
-/
import Mathlib.Data.List.Basic

namespace Entangle.Lib

variable {α : Type*} {next next' : α → Option α} {nil : α}

/-- Following `next` from `h` visits the cells `l` and ends in `nil`. -/
def Linked (next : α → Option α) (nil : α) : α → List α → Prop
  | h, [] => h = nil
  | h, i :: l => h = i ∧ i ≠ nil ∧ ∃ n, next i = some n ∧ Linked next nil n l

/-- Following `next` from `h` visits `i`, whether or not it ever ends. -/
inductive OnChain (next : α → Option α) (nil : α) : α → α → Prop
  | here {h : α} : h ≠ nil → OnChain next nil h h
  | there {h n i : α} : h ≠ nil → next h = some n → OnChain next nil n i → OnChain next nil h i

theorem linked_nil {h : α} : Linked next nil h [] ↔ h = nil := Iff.rfl

namespace Linked

/-- A list from the end marker is empty. -/
theorem eq_nil {l : List α} (h : Linked next nil nil l) : l = [] := by
  cases l with
  | nil => rfl
  | cons i l => exact absurd h.1.symm h.2.1

/-- Pop: a list from a real cell starts with it, and its `next` is the new head. -/
theorem eq_cons {i : α} {l : List α} (h : Linked next nil i l) (hi : i ≠ nil) :
    ∃ n l', l = i :: l' ∧ next i = some n ∧ Linked next nil n l' := by
  cases l with
  | nil => exact absurd h hi
  | cons j l' =>
      obtain ⟨rfl, _, n, hn, hl⟩ := h
      exact ⟨n, l', rfl, hn, hl⟩

/-- The list is determined by the table and the head. -/
theorem unique {h : α} : ∀ {l l' : List α},
    Linked next nil h l → Linked next nil h l' → l = l' := by
  intro l
  induction l generalizing h with
  | nil =>
      intro l' hl hl'
      rw [linked_nil.mp hl] at hl'
      exact hl'.eq_nil.symm
  | cons i l ih =>
      intro l' hl hl'
      obtain ⟨rfl, hi, n, hn, hrest⟩ := hl
      obtain ⟨m, t, rfl, hm, hrest'⟩ := hl'.eq_cons hi
      obtain rfl : n = m := Option.some.inj (hn.symm.trans hm)
      rw [ih hrest hrest']

/-- Every cell of the list is the head of a list of its own. -/
theorem suffix {h : α} {a b : List α} {i : α} (hl : Linked next nil h (a ++ i :: b)) :
    Linked next nil i (i :: b) := by
  induction a generalizing h with
  | nil =>
      obtain ⟨rfl, hi, hn⟩ := hl
      exact ⟨rfl, hi, hn⟩
  | cons j a ih =>
      obtain ⟨_, _, n, _, hrest⟩ := hl
      exact ih hrest

/-- **A list that ends has no repeated cell**: a repetition would be the head
of two lists of different lengths. -/
theorem nodup {h : α} {l : List α} (hl : Linked next nil h l) : l.Nodup := by
  induction l generalizing h with
  | nil => exact List.nodup_nil
  | cons i l ih =>
      obtain ⟨rfl, hi, n, hn, hrest⟩ := hl
      refine List.nodup_cons.mpr ⟨?_, ih hrest⟩
      intro hmem
      obtain ⟨a, b, rfl⟩ := List.append_of_mem hmem
      have hlong : Linked next nil h (h :: (a ++ h :: b)) := ⟨rfl, hi, n, hn, hrest⟩
      have hshort : Linked next nil h (h :: b) := hrest.suffix
      have hlen := congrArg List.length (hlong.unique hshort)
      simp at hlen
      omega

/-- Every cell of the list lies in the table. -/
theorem next_isSome {h i : α} {l : List α} (hl : Linked next nil h l) (hi : i ∈ l) :
    ∃ n, next i = some n := by
  obtain ⟨a, b, rfl⟩ := List.append_of_mem hi
  obtain ⟨_, _, n, hn, _⟩ := hl.suffix
  exact ⟨n, hn⟩

/-- Writes outside the list do not change it. -/
theorem congr {h : α} {l : List α} (hl : Linked next nil h l)
    (heq : ∀ i ∈ l, next' i = next i) : Linked next' nil h l := by
  induction l generalizing h with
  | nil => exact hl
  | cons i l ih =>
      obtain ⟨rfl, hi, n, hn, hrest⟩ := hl
      refine ⟨rfl, hi, n, ?_, ih hrest (fun j hj => heq j (List.mem_cons_of_mem _ hj))⟩
      rw [heq h List.mem_cons_self, hn]

/-- Push: a cell whose `next` is the head becomes the new head. -/
theorem push {h i : α} {l : List α} (hl : Linked next nil h l) (hi : i ≠ nil)
    (hn : next i = some h) : Linked next nil i (i :: l) :=
  ⟨rfl, hi, h, hn, hl⟩

/-- On a finite chain, being visited is being a member. -/
theorem onChain_iff {h i : α} : ∀ {l : List α}, Linked next nil h l →
    (OnChain next nil h i ↔ i ∈ l) := by
  intro l
  induction l generalizing h with
  | nil =>
      intro hl
      obtain rfl : h = nil := hl
      constructor
      · intro hc
        cases hc with
        | here hne => exact absurd rfl hne
        | there hne _ _ => exact absurd rfl hne
      · intro hi
        exact absurd hi (by simp)
  | cons j l ih =>
      intro hl
      obtain ⟨rfl, hj, n, hn, hrest⟩ := hl
      constructor
      · intro hc
        cases hc with
        | here _ => simp
        | there _ hn' hc' =>
            rw [hn] at hn'
            injection hn' with hn'
            exact List.mem_cons_of_mem _ ((ih (hn' ▸ hrest)).mp hc')
      · intro hi
        rcases List.mem_cons.mp hi with rfl | hi
        · exact .here hj
        · exact .there hj hn ((ih hrest).mpr hi)

end Linked

end Entangle.Lib
