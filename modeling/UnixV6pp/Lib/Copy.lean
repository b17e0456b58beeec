import Mathlib.Data.Nat.Notation
import Mathlib.Logic.Function.Basic
import Mathlib.Tactic.Common

/-!
# Copying within a memory

A memory is a function from addresses to values of any type.  A range is copied cell by
cell, upwards or downwards; where the two ranges overlap, the direction decides whether
a cell is read before it is written.

* `copyUp`, `copyDown` — the two loops.
* `copyUp_apply` — copying upwards to a lower place, or to one that does not overlap.
* `copyDown_apply` — copying downwards to a higher place.
-/

namespace Copy

variable {α : Type*}

/-- The cell at `dst` becomes the cell at `src`. -/
def cell (mem : ℕ → α) (src dst : ℕ) : ℕ → α := Function.update mem dst (mem src)

/-- `count` cells, from the lowest on. -/
def copyUp (mem : ℕ → α) (src dst : ℕ) : ℕ → ℕ → α
  | 0 => mem
  | count + 1 => copyUp (cell mem src dst) (src + 1) (dst + 1) count

/-- `count` cells, from the highest down; `src` and `dst` are the ends of the ranges. -/
def copyDown (mem : ℕ → α) (src dst : ℕ) : ℕ → ℕ → α
  | 0 => mem
  | count + 1 => copyDown (cell mem (src - 1) (dst - 1)) (src - 1) (dst - 1) count

@[simp] theorem copyUp_zero (mem : ℕ → α) (src dst : ℕ) : copyUp mem src dst 0 = mem := rfl

@[simp] theorem copyDown_zero (mem : ℕ → α) (src dst : ℕ) : copyDown mem src dst 0 = mem := rfl

theorem cell_of_ne {mem : ℕ → α} {src dst a : ℕ} (h : a ≠ dst) : cell mem src dst a = mem a :=
  Function.update_of_ne h _ _

theorem cell_self (mem : ℕ → α) (src dst : ℕ) : cell mem src dst dst = mem src :=
  Function.update_self _ _ _

/-- **Copying upwards.** -/
theorem copyUp_apply {src dst count : ℕ} (h : dst ≤ src ∨ src + count ≤ dst) (mem : ℕ → α) (a : ℕ) :
    copyUp mem src dst count a = if dst ≤ a ∧ a < dst + count then mem (src + (a - dst)) else mem a := by
  induction count generalizing mem src dst with
  | zero => rw [copyUp_zero, if_neg (by omega)]
  | succ count ih =>
    rw [copyUp, ih (by omega)]
    by_cases ha : a = dst
    · subst ha
      rw [if_neg (by omega), if_pos (by omega), cell_self, Nat.sub_self, Nat.add_zero]
    · by_cases hin : dst + 1 ≤ a ∧ a < dst + 1 + count
      · -- the cell read later has not been written
        have hsrc : src + 1 + (a - (dst + 1)) = src + (a - dst) := by omega
        rw [if_pos hin, if_pos (by omega), hsrc, cell_of_ne (by omega)]
      · rw [if_neg hin, if_neg (by omega), cell_of_ne ha]

/-- **Copying downwards.** -/
theorem copyDown_apply {src dst count : ℕ} (h : src ≤ dst) (hcount : count ≤ src) (mem : ℕ → α)
    (a : ℕ) : copyDown mem src dst count a =
      if dst - count ≤ a ∧ a < dst then mem (a - (dst - src)) else mem a := by
  induction count generalizing mem src dst with
  | zero => rw [copyDown_zero, if_neg (by omega)]
  | succ count ih =>
    rw [copyDown, ih (by omega) (by omega)]
    by_cases ha : a = dst - 1
    · subst ha
      have hsrc : dst - 1 - (dst - src) = src - 1 := by omega
      rw [if_neg (by omega), if_pos (by omega), cell_self, hsrc]
    · by_cases hin : dst - 1 - count ≤ a ∧ a < dst - 1
      · have hsrc : a - (dst - 1 - (src - 1)) = a - (dst - src) := by omega
        rw [if_pos hin, if_pos (by omega), hsrc, cell_of_ne (by omega)]
      · rw [if_neg hin, if_neg (by omega), cell_of_ne ha]

end Copy
