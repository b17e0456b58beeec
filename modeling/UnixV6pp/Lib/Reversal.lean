import Mathlib.Data.Nat.Notation
import Mathlib.Logic.Function.Basic
import Mathlib.Tactic.Common

/-!
# Reversing cells in place

A memory is a function from addresses to values of any type. Two cursors that move towards each
other exchange the cells under them until they meet.

* `cells`, `put` — a range of cells as a list, and a list put down cell by cell.
* `reverse` — the loop of the two cursors.
* `cells_reverse` — **the range is reversed**, and `reverse_outside`: nothing else changes.
-/

namespace Reversal

variable {α : Type*}

/-! ### Ranges of cells -/

/-- The `n` cells from `l` on. -/
def cells (mem : ℕ → α) (l n : ℕ) : List α := (List.range n).map fun i => mem (l + i)

@[simp] theorem length_cells (mem : ℕ → α) (l n : ℕ) : (cells mem l n).length = n := by
  simp [cells]

@[simp] theorem getElem_cells (mem : ℕ → α) (l n i : ℕ) (h : i < (cells mem l n).length) :
    (cells mem l n)[i] = mem (l + i) := by
  simp [cells]

theorem cells_congr {mem mem' : ℕ → α} {l n : ℕ} (h : ∀ i < n, mem' (l + i) = mem (l + i)) :
    cells mem' l n = cells mem l n := by
  apply List.ext_getElem (by simp)
  intro i hi _
  rw [length_cells] at hi
  simpa using h i hi

theorem cells_succ (mem : ℕ → α) (l n : ℕ) :
    cells mem l (n + 1) = mem l :: cells mem (l + 1) n := by
  apply List.ext_getElem (by simp)
  intro i _ _
  cases i with
  | zero => simp
  | succ i => simp [Nat.add_assoc, Nat.add_comm 1 i]

theorem cells_concat (mem : ℕ → α) (l n : ℕ) :
    cells mem l (n + 1) = cells mem l n ++ [mem (l + n)] := by
  simp [cells, List.range_succ]

/-- `text` put down from `l` on. -/
def put (mem : ℕ → α) : ℕ → List α → ℕ → α
  | _, [] => mem
  | l, c :: text => put (Function.update mem l c) (l + 1) text

theorem put_outside {text : List α} {l a : ℕ} (h : a < l ∨ l + text.length ≤ a) (mem : ℕ → α) :
    put mem l text a = mem a := by
  induction text generalizing mem l with
  | nil => rfl
  | cons c text ih =>
    rw [List.length_cons] at h
    rw [put, ih (by omega), Function.update_of_ne (by omega)]

/-- A list put down is there. -/
theorem cells_put (mem : ℕ → α) (l : ℕ) (text : List α) :
    cells (put mem l text) l text.length = text := by
  induction text generalizing mem l with
  | nil => rfl
  | cons c text ih =>
    have hfirst : put mem l (c :: text) l = c := by
      rw [put, put_outside (by omega), Function.update_self]
    rw [List.length_cons, cells_succ, hfirst, put, ih]

/-! ### The two cursors -/

/-- The cells at `l` and `r` exchanged. -/
def exchange (mem : ℕ → α) (l r : ℕ) : ℕ → α :=
  Function.update (Function.update mem l (mem r)) r (mem l)

theorem exchange_left {mem : ℕ → α} {l r : ℕ} (h : l ≠ r) : exchange mem l r l = mem r := by
  rw [exchange, Function.update_of_ne h, Function.update_self]

theorem exchange_right {mem : ℕ → α} {l r : ℕ} : exchange mem l r r = mem l :=
  Function.update_self _ _ _

theorem exchange_of_ne {mem : ℕ → α} {l r a : ℕ} (hl : a ≠ l) (hr : a ≠ r) :
    exchange mem l r a = mem a := by
  rw [exchange, Function.update_of_ne hr, Function.update_of_ne hl]

/-- The cells from `l` up to `r` are exchanged from the two ends on. -/
def reverse (mem : ℕ → α) (l r : ℕ) : ℕ → α :=
  if l < r then reverse (exchange mem l r) (l + 1) (r - 1) else mem
termination_by r - l

/-- Each cell between the cursors gets what stood at the mirrored place. -/
theorem reverse_apply (mem : ℕ → α) (l r a : ℕ) :
    reverse mem l r a = if l ≤ a ∧ a ≤ r then mem (l + r - a) else mem a := by
  induction mem, l, r using reverse.induct with
  | case1 mem l r hlt ih =>
    rw [reverse, if_pos hlt, ih]
    rcases Nat.lt_trichotomy a l with ha | rfl | ha
    · rw [if_neg (by omega), if_neg (by omega), exchange_of_ne (by omega) (by omega)]
    · rw [if_neg (by omega), if_pos (by omega), exchange_left (by omega)]
      congr 1
      omega
    · rcases Nat.lt_trichotomy a r with hr | rfl | hr
      · have hmirror : l + 1 + (r - 1) - a = l + r - a := by omega
        rw [if_pos (by omega), if_pos (by omega), hmirror, exchange_of_ne (by omega) (by omega)]
      · rw [if_neg (by omega), if_pos (by omega), exchange_right]
        congr 1
        omega
      · rw [if_neg (by omega), if_neg (by omega), exchange_of_ne (by omega) (by omega)]
  | case2 mem l r hge =>
    rw [reverse, if_neg hge]
    split
    next h =>
      -- one cell, its own mirror image
      have : l + r - a = a := by omega
      rw [this]
    next => rfl

theorem reverse_outside {l r a : ℕ} (h : a < l ∨ r < a) (mem : ℕ → α) :
    reverse mem l r a = mem a := by
  rw [reverse_apply, if_neg (by omega)]

/-- **The range is reversed.** -/
theorem cells_reverse (mem : ℕ → α) (l n : ℕ) :
    cells (reverse mem l (l + n)) l (n + 1) = (cells mem l (n + 1)).reverse := by
  apply List.ext_getElem (by simp)
  intro i hi _
  rw [length_cells] at hi
  rw [getElem_cells, List.getElem_reverse, getElem_cells, reverse_apply, if_pos (by omega)]
  congr 1
  simp
  omega

end Reversal
