import Mathlib.Data.Nat.ModEq
import Mathlib.Data.List.Basic
import Mathlib.Order.Basic

/-!
# The least element of a rotating scan

Some choices are made by scanning a ring of `n` places from the one behind the last choice on,
and taking the first place of least key.  A place that is always of least key is then reached
before any other is chosen twice, as every choice brings the scan nearer to it.

## Main definitions

* `leastFrom` — one scan, with the best place so far and its key.
* `ahead n a b` — how many places lie between `a` and `b`.

## Main results

* `leastFrom_cases` — **what a scan finds.**
* `ahead_lt_of_le` — a choice on the way to a place brings the scan nearer to it.
-/

section Least

variable {α κ : Type*} [LinearOrder κ]

/-- Scan the places in order; a place that may be chosen and has a smaller key than the best so
far becomes the best. -/
def leastFrom (may : α → Prop) [DecidablePred may] (key : α → κ) :
    List α → Option α → κ → Option α × κ
  | [], best, least => (best, least)
  | x :: xs, best, least =>
    if may x ∧ key x < least then leastFrom may key xs (some x) (key x)
    else leastFrom may key xs best least

variable {may : α → Prop} [DecidablePred may] {key : α → κ} {xs : List α} {k : κ}

/-- The first of least key among the places that may be chosen and are below the bound. -/
structure FirstLeast (may : α → Prop) (key : α → κ) (k : κ) (xs : List α) (x : α) : Prop where
  may_self : may x
  lt : key x < k
  first : ∃ c : ℕ, xs[c]? = some x ∧ ∀ (d : ℕ) y, xs[d]? = some y → may y →
    key x ≤ key y ∧ (d < c → key x < key y)

omit [DecidablePred may] in
/-- It is least. -/
theorem FirstLeast.le {x y : α} (h : FirstLeast may key k xs x) (hy : y ∈ xs) (hmay : may y) :
    key x ≤ key y := by
  rcases h.first with ⟨c, -, hall⟩
  rcases List.mem_iff_getElem?.mp hy with ⟨d, hd⟩
  exact (hall d y hd hmay).1

omit [DecidablePred may] in
/-- Another place in front of it, with a greater key. -/
theorem FirstLeast.cons {x y : α} (h : FirstLeast may key k xs x) (hy : may y → key x < key y) :
    FirstLeast may key k (y :: xs) x := by
  rcases h.first with ⟨c, hc, hall⟩
  refine ⟨h.may_self, h.lt, c + 1, hc, ?_⟩
  rintro (_ | d) z hz hmay
  · cases hz
    exact ⟨(hy hmay).le, fun _ => hy hmay⟩
  · exact ⟨(hall d z hz hmay).1, fun hlt => (hall d z hz hmay).2 (Nat.lt_of_succ_lt_succ hlt)⟩

/-- **What a scan finds**: nothing better, or the first of least key. -/
theorem leastFrom_cases (xs : List α) (best : Option α) (k : κ) :
    (leastFrom may key xs best k = (best, k) ∧ ∀ y ∈ xs, may y → k ≤ key y) ∨
    ∃ x, leastFrom may key xs best k = (some x, key x) ∧ FirstLeast may key k xs x := by
  induction xs generalizing best k with
  | nil => exact .inl ⟨rfl, by simp⟩
  | cons x xs ih =>
    rw [leastFrom]
    split
    · next hx =>
      rcases ih (some x) (key x) with ⟨heq, hrest⟩ | ⟨y, heq, hy⟩
      · refine .inr ⟨x, heq, hx.1, hx.2, 0, rfl, ?_⟩
        rintro (_ | d) z hz hmay
        · cases hz
          exact ⟨le_rfl, fun hlt => absurd hlt (Nat.not_lt_zero 0)⟩
        · exact ⟨hrest z (List.mem_of_getElem? hz) hmay, fun hlt => absurd hlt (Nat.not_lt_zero _)⟩
      · -- the best so far is not as good
        have hbetter : FirstLeast may key k xs y := ⟨hy.may_self, hy.lt.trans hx.2, hy.first⟩
        exact .inr ⟨y, heq, hbetter.cons fun _ => hy.lt⟩
    · next hx =>
      have hle : may x → k ≤ key x := fun hmay => not_lt.mp fun hlt => hx ⟨hmay, hlt⟩
      rcases ih best k with ⟨heq, hrest⟩ | ⟨y, heq, hy⟩
      · refine .inl ⟨heq, ?_⟩
        simp only [List.mem_cons, forall_eq_or_imp]
        exact ⟨hle, hrest⟩
      · exact .inr ⟨y, heq, hy.cons fun hmay => lt_of_lt_of_le hy.lt (hle hmay)⟩

/-- A scan that meets a place below the bound finds one. -/
theorem leastFrom_isSome (best : Option α) {y : α} (hy : y ∈ xs) (hmay : may y) (hlt : key y < k) :
    ∃ x, leastFrom may key xs best k = (some x, key x) ∧ FirstLeast may key k xs x := by
  have hcases : (leastFrom may key xs best k = (best, k) ∧ ∀ z ∈ xs, may z → k ≤ key z) ∨ _ :=
    leastFrom_cases xs best k
  rcases hcases with ⟨-, hnone⟩ | hsome
  · exact absurd hlt (not_lt.mpr (hnone y hy hmay))
  · exact hsome

end Least

/-! ### A ring -/

section Ring

/-- How many places lie between `a` and `b` in a ring of `n`. -/
def ahead (n a b : ℕ) : ℕ := (b + n - a - 1) % n

variable {n a b c : ℕ}

theorem ahead_lt (hn : 0 < n) : ahead n a b < n := Nat.mod_lt _ hn

theorem ahead_eq (ha : a < n) (hb : b < n) :
    ahead n a b = if a < b then b - a - 1 else b + n - a - 1 := by
  unfold ahead
  split
  · have heq : b + n - a - 1 = (b - a - 1) + n := by omega
    rw [heq, Nat.add_mod_right, Nat.mod_eq_of_lt (by omega)]
  · exact Nat.mod_eq_of_lt (by omega)

/-- The scan meets `b` after so many places. -/
theorem rotation_ahead (ha : a < n) (hb : b < n) : (a + 1 + ahead n a b) % n = b := by
  rw [ahead_eq ha hb]
  split
  · rw [Nat.mod_eq_of_lt (by omega)]
    omega
  · have heq : a + 1 + (b + n - a - 1) = b + n := by omega
    rw [heq, Nat.add_mod_right, Nat.mod_eq_of_lt hb]

/-- No other place of the scan is `b`. -/
theorem ahead_eq_of_mod (ha : a < n) (hb : b < n) {d : ℕ} (hd : d < n)
    (h : (a + 1 + d) % n = b) : ahead n a b = d := by
  rw [ahead_eq ha hb]
  rcases Nat.lt_or_ge (a + 1 + d) n with hlt | hge
  · rw [Nat.mod_eq_of_lt hlt] at h
    split <;> omega
  · -- the scan has passed the end of the ring
    have hsub : (a + 1 + d) % n = a + 1 + d - n := by
      rw [Nat.mod_eq_sub_mod hge, Nat.mod_eq_of_lt (by omega)]
    rw [hsub] at h
    split <;> omega

/-- **A choice on the way brings the scan nearer.** -/
theorem ahead_lt_of_le (ha : a < n) (hb : b < n) (hc : c < n) (hle : ahead n a b ≤ ahead n a c)
    (hne : b ≠ c) : ahead n b c < ahead n a c := by
  rw [ahead_eq ha hb, ahead_eq ha hc] at hle
  rw [ahead_eq hb hc, ahead_eq ha hc]
  split at hle <;> split at hle <;> split <;> omega

end Ring
