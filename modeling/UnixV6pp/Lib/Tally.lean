import Mathlib.Algebra.BigOperators.Group.Finset.Piecewise
import Mathlib.Algebra.Order.BigOperators.Group.Finset
import Mathlib.Data.Fintype.BigOperators
import Mathlib.Data.Nat.Cast.Basic
import Mathlib.Algebra.BigOperators.Ring.Finset
import Mathlib.Tactic.Ring

/-!
# Counting who refers to what

Holders in a finite type refer each to at most one thing, or have a number of
references to it.  A reference count is the sum over the holders, and it changes at a
point as the holder does.

* `tally` — how many holders refer to a thing.
* `tally_update`, `sum_update` — **one holder changes its mind.**
* `update_row` — one entry of a table of rows is changed.
* `one_le_tally`, `two_le_tally` — a holder counts, and two of them count twice.
-/

namespace Tally

variable {ι ρ : Type} [Fintype ι] [DecidableEq ρ]

/-- How many holders refer to `r`. -/
def tally (g : ι → Option ρ) (r : ρ) : ℤ := ∑ x, if g x = some r then 1 else 0

omit [DecidableEq ρ] in
theorem sum_update [DecidableEq ι] {δ : Type} (F : ι → δ) (x : ι) (v : δ) (g : δ → ℤ) :
    ∑ y, g (Function.update F x v y) = ∑ y, g (F y) - g (F x) + g v := by
  have hsplit : ∀ G : ι → δ, ∑ y, g (G y) = g (G x) + ∑ y ∈ Finset.univ.erase x, g (G y) :=
    fun G => (Finset.add_sum_erase _ _ (Finset.mem_univ x)).symm
  have hrest : ∑ y ∈ Finset.univ.erase x, g (Function.update F x v y) =
      ∑ y ∈ Finset.univ.erase x, g (F y) := by
    apply Finset.sum_congr rfl
    intro y hy
    rw [Function.update_of_ne (Finset.ne_of_mem_erase hy)]
  rw [hsplit (Function.update F x v), hsplit F, hrest, Function.update_self]
  ring

theorem tally_update [DecidableEq ι] (g : ι → Option ρ) (x : ι) (v : Option ρ) (r : ρ) :
    tally (Function.update g x v) r =
      tally g r - (if g x = some r then 1 else 0) + (if v = some r then 1 else 0) :=
  sum_update g x v fun o => if o = some r then 1 else 0

variable {g : ι → Option ρ} {r : ρ} {x y : ι}

theorem tally_nonneg (g : ι → Option ρ) (r : ρ) : 0 ≤ tally g r := by
  apply Finset.sum_nonneg
  intro x _
  split <;> omega

theorem one_le_tally [DecidableEq ι] (h : g x = some r) : 1 ≤ tally g r := by
  have hnone := tally_nonneg (Function.update g x none) r
  rw [tally_update, if_pos h] at hnone
  simp only [reduceCtorEq, if_false] at hnone
  omega

theorem two_le_tally [DecidableEq ι] (hxy : x ≠ y) (hx : g x = some r) (hy : g y = some r) : 2 ≤ tally g r := by
  have hone : 1 ≤ tally (Function.update g x none) r := by
    refine @one_le_tally _ _ _ _ _ _ y _ ?_
    rw [Function.update_of_ne (Ne.symm hxy)]
    exact hy
  rw [tally_update, if_pos hx] at hone
  simp only [reduceCtorEq, if_false] at hone
  omega

@[simp] theorem tally_none (r : ρ) : tally (fun _ : ι => (none : Option ρ)) r = 0 := by
  simp [tally]

theorem tally_eq_zero (h : ∀ x, g x ≠ some r) : tally g r = 0 := by
  apply Finset.sum_eq_zero
  intro x _
  rw [if_neg (h x)]

/-- The holders are as many as the card of the set of them. -/
theorem tally_eq_card (g : ι → Option ρ) (r : ρ) :
    tally g r = (Finset.univ.filter fun x => g x = some r).card := by
  unfold tally
  rw [Finset.sum_boole]

omit [DecidableEq ρ] in
/-- One holder's references are among them all. -/
theorem le_sum (F : ι → ρ → ℕ) (x : ι) (r : ρ) : (F x r : ℤ) ≤ ∑ y, (F y r : ℤ) :=
by
  have hnonneg : ∀ y ∈ Finset.univ, (0 : ℤ) ≤ F y r := fun y _ => Int.natCast_nonneg _
  exact Finset.single_le_sum hnonneg (Finset.mem_univ x)

omit [DecidableEq ρ] in
theorem add_le_sum [DecidableEq ι] (F : ι → ρ → ℕ) (hxy : x ≠ y) (r : ρ) :
    (F x r : ℤ) + F y r ≤ ∑ z, (F z r : ℤ) := by
  have h := le_sum (Function.update F x fun _ => 0) y r
  rw [Function.update_of_ne (Ne.symm hxy),
    sum_update F x (fun _ => 0) fun k => (k r : ℤ)] at h
  simp only [Nat.cast_zero] at h
  omega

/-- One entry of one row is changed. -/
theorem update_row {α β γ : Type} [DecidableEq α] [DecidableEq β] (F : α → β → γ) (p q : α)
    (x y : β) (v : γ) : Function.update F p (Function.update (F p) x v) q y =
      if q = p ∧ y = x then v else F q y := by
  by_cases hq : q = p
  · subst hq
    rw [Function.update_self, Function.update_apply]
    simp only [true_and]
  · rw [Function.update_of_ne hq, if_neg fun h => hq h.1]

end Tally
