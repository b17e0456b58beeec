import Mathlib.Data.UInt

/-!
# Flags in a word

A set of flags is kept in one word; a flag is set with `|||` and cleared with the
complement of its mask.

* `flag_or`, `flag_and` — **what setting and clearing does** to every flag.
-/

namespace Flags

variable {x y m c : UInt32}

/-- Whether one of the flags in `m` is set. -/
abbrev flag (x m : UInt32) : Bool := x &&& m != 0

theorem and_or_distrib (x y m : UInt32) : (x ||| y) &&& m = x &&& m ||| y &&& m := by
  apply UInt32.toBitVec_inj.1
  simp only [UInt32.toBitVec_and, UInt32.toBitVec_or]
  exact BitVec.and_or_distrib_right

theorem flag_or : flag (x ||| y) m = (flag x m || flag y m) := by
  unfold flag
  rw [and_or_distrib, Bool.eq_iff_iff]
  simp only [bne_iff_ne, ne_eq, UInt32.or_eq_zero_iff, Bool.or_eq_true]
  exact not_and_or

/-- A mask that contains the flag does not touch it. -/
theorem flag_and_of_eq (h : c &&& m = m) : flag (x &&& c) m = flag x m := by
  unfold flag
  rw [UInt32.and_assoc, h]

/-- A mask without the flag clears it. -/
theorem flag_and_of_zero (h : c &&& m = 0) : flag (x &&& c) m = false := by
  unfold flag
  rw [UInt32.and_assoc, h, UInt32.and_zero]
  rfl

theorem flag_or_left (h : flag x m = true) : flag (x ||| y) m = true := by
  rw [flag_or, h, Bool.true_or]

theorem flag_or_right (h : flag y m = true) : flag (x ||| y) m = true := by
  rw [flag_or, h, Bool.or_true]

end Flags
