import Mathlib.Data.List.Basic
import Mathlib.Order.Lattice

/-!
# Intervals that are covered by other intervals

Whether all points from `b` to below `e` lie in one of a few intervals is found out by going from
one interval to the next: the one that `b` lies in takes care of all points up to its
end, and beyond that it is of no more use.

* `Inside` — a point in one of the intervals.
* `covered` — the test.
* `covered_iff` — **the test is right.**
-/

namespace Cover

variable {α : Type*} [LinearOrder α]

/-- The point lies in one of the intervals, each given by its first point and its end. -/
def Inside (ivs : List (α × α)) (x : α) : Prop := ∃ iv ∈ ivs, iv.1 ≤ x ∧ x < iv.2

/-- Go on from `b`, at most as many times as the first argument says. -/
def coveredWithin : ℕ → List (α × α) → α → α → Bool
  | 0, _, b, e => e ≤ b
  | n + 1, ivs, b, e =>
    e ≤ b ||
      match ivs.find? fun iv => iv.1 ≤ b && b < iv.2 with
      | some iv => coveredWithin n (ivs.erase iv) iv.2 e
      | none => false

/-- All points from `b` to below `e` lie in one of the intervals. -/
def covered (ivs : List (α × α)) (b e : α) : Bool := coveredWithin ivs.length ivs b e

/-- An interval is of no use beyond its end. -/
theorem inside_erase {ivs : List (α × α)} {iv : α × α} {x : α} (hx : iv.2 ≤ x) :
    Inside (ivs.erase iv) x ↔ Inside ivs x := by
  constructor
  · rintro ⟨jv, hjv, hin⟩
    exact ⟨jv, List.mem_of_mem_erase hjv, hin⟩
  · rintro ⟨jv, hjv, hin⟩
    have hne : jv ≠ iv := by
      rintro rfl
      exact absurd hin.2 (not_lt.2 hx)
    exact ⟨jv, (List.mem_erase_of_ne hne).2 hjv, hin⟩

theorem coveredWithin_iff {n : ℕ} : ∀ {ivs : List (α × α)} {b e : α}, ivs.length ≤ n →
    (coveredWithin n ivs b e = true ↔ ∀ x, b ≤ x → x < e → Inside ivs x) := by
  induction n with
  | zero =>
    intro ivs b e hn
    have hnil : ivs = [] := List.eq_nil_of_length_eq_zero (Nat.le_zero.1 hn)
    subst hnil
    simp only [coveredWithin, decide_eq_true_eq]
    constructor
    · intro hle x hb he
      exact absurd (he.trans_le (hle.trans hb)) (lt_irrefl x)
    · intro h
      by_contra hlt
      obtain ⟨iv, hiv, -⟩ := h b le_rfl (not_le.1 hlt)
      cases hiv
  | succ n ih =>
    intro ivs b e hn
    simp only [coveredWithin, Bool.or_eq_true, decide_eq_true_eq]
    by_cases hle : e ≤ b
    · simp only [hle, true_or, true_iff]
      intro x hb he
      exact absurd (he.trans_le (hle.trans hb)) (lt_irrefl x)
    · simp only [hle, false_or]
      cases hfind : ivs.find? fun iv => iv.1 ≤ b && b < iv.2 with
      | none =>
        -- the first point itself is in none of them
        simp only [Bool.false_eq_true, false_iff]
        intro h
        obtain ⟨iv, hiv, hin⟩ := h b le_rfl (not_le.1 hle)
        have hno := List.find?_eq_none.1 hfind iv hiv
        simp [hin.1, hin.2] at hno
      | some iv =>
        have hmem := List.mem_of_find?_eq_some hfind
        have hin : iv.1 ≤ b ∧ b < iv.2 := by simpa using List.find?_some hfind
        have hlen : (ivs.erase iv).length ≤ n := by
          rw [List.length_erase_of_mem hmem]
          omega
        rw [ih hlen]
        constructor
        · intro h x hb he
          rcases lt_or_ge x iv.2 with hx | hx
          · exact ⟨iv, hmem, hin.1.trans hb, hx⟩
          · exact (inside_erase hx).1 (h x hx he)
        · intro h x hx he
          exact (inside_erase hx).2 (h x (hin.2.le.trans hx) he)

/-- **The test is right.** -/
theorem covered_iff {ivs : List (α × α)} {b e : α} :
    covered ivs b e = true ↔ ∀ x, b ≤ x → x < e → Inside ivs x :=
  coveredWithin_iff (Nat.le_refl _)

end Cover
