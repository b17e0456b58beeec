import Mathlib.Data.List.Basic
import Mathlib.Data.Set.Lattice
import Mathlib.Order.CompletePartialOrder
import Mathlib.Order.Interval.Set.LinearOrder

/-!
# Separated extents

A list of half-open extents `[lo n, hi n)` over a linear order, given by two
functions on an arbitrary type of nodes.  The list is *separated* when no extent
is empty and each ends strictly before the next begins, so that neighbours are
never adjacent; it then stands for the set of its `units`.

## Main results

* `Separated.replace` — exchanging one node of a separated list.
* `units_carve`, `units_remove` — taking a prefix of an extent, or all of it.
* `units_extend_hi`, `units_extend_lo`, `units_join`, `units_insert` — the four
  ways a range next to or between the extents is given back.
-/

namespace Extents

variable {ν α : Type*} [LinearOrder α] (lo hi : ν → α)

/-- The units covered by a list of extents. -/
def units (l : List ν) : Set α := {u | ∃ n ∈ l, lo n ≤ u ∧ u < hi n}

/-- No extent is empty, and each ends strictly before the next begins. -/
structure Separated (l : List ν) : Prop where
  /-- No extent is empty. -/
  lt : ∀ n ∈ l, lo n < hi n
  /-- Earlier extents end strictly before later ones begin. -/
  apart : l.Pairwise fun a b => hi a < lo b

variable {lo hi} {l r : List ν} {n n' : ν}

theorem mem_units {u : α} : u ∈ units lo hi l ↔ ∃ n ∈ l, lo n ≤ u ∧ u < hi n := Iff.rfl

@[simp] theorem units_nil : units lo hi [] = ∅ := by
  ext u; simp [mem_units]

theorem units_append : units lo hi (l ++ r) = units lo hi l ∪ units lo hi r := by
  ext u
  simp only [mem_units, List.mem_append, Set.mem_union]
  constructor
  · rintro ⟨n, hn | hn, h⟩
    · exact Or.inl ⟨n, hn, h⟩
    · exact Or.inr ⟨n, hn, h⟩
  · rintro (⟨n, hn, h⟩ | ⟨n, hn, h⟩)
    · exact ⟨n, Or.inl hn, h⟩
    · exact ⟨n, Or.inr hn, h⟩

theorem units_cons : units lo hi (n :: l) = Set.Ico (lo n) (hi n) ∪ units lo hi l := by
  ext u; simp [mem_units]

/-- Extents that are all empty cover nothing. -/
theorem units_eq_empty (h : ∀ n ∈ l, hi n ≤ lo n) : units lo hi l = ∅ := by
  ext u
  simp only [mem_units, Set.mem_empty_iff_false, iff_false, not_exists, not_and]
  intro n hn hlo hhi
  exact absurd (h n hn) (not_le.mpr (hlo.trans_lt hhi))

/-! ### Separation -/

theorem separated_append :
    Separated lo hi (l ++ r) ↔
      Separated lo hi l ∧ Separated lo hi r ∧ ∀ a ∈ l, ∀ b ∈ r, hi a < lo b := by
  constructor
  · rintro ⟨hlt, hap⟩
    obtain ⟨hl, hr, hlr⟩ := List.pairwise_append.mp hap
    exact ⟨⟨fun n hn => hlt n (by simp [hn]), hl⟩, ⟨fun n hn => hlt n (by simp [hn]), hr⟩, hlr⟩
  · rintro ⟨hl, hr, hlr⟩
    refine ⟨fun n hn => ?_, List.pairwise_append.mpr ⟨hl.apart, hr.apart, hlr⟩⟩
    rcases List.mem_append.mp hn with hn | hn
    · exact hl.lt n hn
    · exact hr.lt n hn

theorem separated_cons :
    Separated lo hi (n :: r) ↔ lo n < hi n ∧ (∀ b ∈ r, hi n < lo b) ∧ Separated lo hi r := by
  constructor
  · rintro ⟨hlt, hap⟩
    obtain ⟨hn, hr⟩ := List.pairwise_cons.mp hap
    exact ⟨hlt n (by simp), hn, fun b hb => hlt b (by simp [hb]), hr⟩
  · rintro ⟨hn, hnr, hr⟩
    refine ⟨fun b hb => ?_, List.pairwise_cons.mpr ⟨hnr, hr.apart⟩⟩
    rcases List.mem_cons.mp hb with rfl | hb
    · exact hn
    · exact hr.lt b hb

/-- What separation says about the node in the middle of a list. -/
theorem separated_middle :
    Separated lo hi (l ++ n :: r) ↔
      Separated lo hi l ∧ Separated lo hi r ∧ lo n < hi n ∧ (∀ a ∈ l, hi a < lo n) ∧
        (∀ b ∈ r, hi n < lo b) ∧ ∀ a ∈ l, ∀ b ∈ r, hi a < lo b := by
  rw [separated_append, separated_cons]
  constructor
  · rintro ⟨hl, ⟨hn, hnr, hr⟩, hlr⟩
    exact ⟨hl, hr, hn, fun a ha => hlr a ha n (by simp), hnr, fun a ha b hb => hlr a ha b (by simp [hb])⟩
  · rintro ⟨hl, hr, hn, hln, hnr, hlr⟩
    refine ⟨hl, ⟨hn, hnr, hr⟩, fun a ha b hb => ?_⟩
    rcases List.mem_cons.mp hb with rfl | hb
    · exact hln a ha
    · exact hlr a ha b hb

/-- A node of a separated list may be exchanged for one that keeps its distance
from the neighbours. -/
theorem Separated.replace (h : Separated lo hi (l ++ n :: r)) (hlt : lo n' < hi n')
    (hl : ∀ a ∈ l, hi a < lo n') (hr : ∀ b ∈ r, hi n' < lo b) :
    Separated lo hi (l ++ n' :: r) := by
  obtain ⟨hsl, hsr, -, -, -, hlr⟩ := separated_middle.mp h
  exact separated_middle.mpr ⟨hsl, hsr, hlt, hl, hr, hlr⟩

/-- A node of a separated list may be left out. -/
theorem Separated.remove (h : Separated lo hi (l ++ n :: r)) : Separated lo hi (l ++ r) := by
  obtain ⟨hsl, hsr, -, -, -, hlr⟩ := separated_middle.mp h
  exact separated_append.mpr ⟨hsl, hsr, hlr⟩

/-! ### Taking units away -/

/-- The other extents of a separated list share no unit with the middle one. -/
theorem Separated.disjoint_middle (h : Separated lo hi (l ++ n :: r)) :
    Disjoint (units lo hi (l ++ r)) (Set.Ico (lo n) (hi n)) := by
  obtain ⟨-, -, -, hln, hnr, -⟩ := separated_middle.mp h
  rw [Set.disjoint_left]
  rintro u ⟨m, hm, hlo, hhi⟩ ⟨hnlo, hnhi⟩
  rcases List.mem_append.mp hm with hm | hm
  · exact absurd (hhi.trans (hln m hm)) (not_lt.mpr hnlo)
  · exact absurd (hnhi.trans (hnr m hm)) (not_lt.mpr hlo)

theorem units_middle :
    units lo hi (l ++ n :: r) = units lo hi (l ++ r) ∪ Set.Ico (lo n) (hi n) := by
  rw [units_append, units_cons, units_append, Set.union_comm (Set.Ico _ _), Set.union_assoc]

/-- Removing an extent removes exactly its units. -/
theorem units_remove (h : Separated lo hi (l ++ n :: r)) :
    units lo hi (l ++ r) = units lo hi (l ++ n :: r) \ Set.Ico (lo n) (hi n) := by
  rw [units_middle, Set.union_sdiff_right, h.disjoint_middle.sdiff_eq_left]

/-- Moving the lower end of an extent up removes exactly the prefix passed. -/
theorem units_carve (h : Separated lo hi (l ++ n :: r)) (hlo : lo n ≤ lo n')
    (hle : lo n' ≤ hi n) (hhi : hi n' = hi n) :
    units lo hi (l ++ n' :: r) = units lo hi (l ++ n :: r) \ Set.Ico (lo n) (lo n') := by
  have hdisj : Disjoint (units lo hi (l ++ r)) (Set.Ico (lo n) (lo n')) :=
    h.disjoint_middle.mono_right (Set.Ico_subset_Ico_right hle)
  rw [units_middle, units_middle, Set.union_sdiff_distrib, hdisj.sdiff_eq_left, hhi]
  congr 1
  ext u
  simp only [Set.mem_Ico, Set.mem_sdiff, not_and, not_lt]
  constructor
  · rintro ⟨h₁, h₂⟩
    exact ⟨⟨hlo.trans h₁, h₂⟩, fun _ => h₁⟩
  · rintro ⟨⟨h₁, h₂⟩, h₃⟩
    exact ⟨h₃ h₁, h₂⟩

/-! ### Giving units back -/

/-- Growing an extent upwards adds exactly the range that followed it. -/
theorem units_extend_hi (hlo : lo n' = lo n) (hle : lo n ≤ hi n) (hhi : hi n ≤ hi n') :
    units lo hi (l ++ n' :: r) = units lo hi (l ++ n :: r) ∪ Set.Ico (hi n) (hi n') := by
  rw [units_middle, units_middle, Set.union_assoc, hlo, Set.Ico_union_Ico_eq_Ico hle hhi]

/-- Growing an extent downwards adds exactly the range that preceded it. -/
theorem units_extend_lo (hhi : hi n' = hi n) (hle : lo n' ≤ lo n) (hlt : lo n ≤ hi n) :
    units lo hi (l ++ n' :: r) = units lo hi (l ++ n :: r) ∪ Set.Ico (lo n') (lo n) := by
  rw [units_middle, units_middle, Set.union_assoc, hhi, Set.union_comm (Set.Ico (lo n) _),
    Set.Ico_union_Ico_eq_Ico hle hlt]

/-- Joining two neighbours over the gap between them adds exactly the gap. -/
theorem units_join {m : ν} (hlo : lo n' = lo n) (hhi : hi n' = hi m) (hn : lo n ≤ hi n)
    (hgap : hi n ≤ lo m) (hm : lo m ≤ hi m) :
    units lo hi (l ++ n' :: r) = units lo hi (l ++ n :: m :: r) ∪ Set.Ico (hi n) (lo m) := by
  have hspan : Set.Ico (lo n') (hi n') =
      Set.Ico (lo n) (hi n) ∪ Set.Ico (hi n) (lo m) ∪ Set.Ico (lo m) (hi m) := by
    rw [Set.Ico_union_Ico_eq_Ico hn hgap, Set.Ico_union_Ico_eq_Ico (hn.trans hgap) hm, hlo, hhi]
  rw [units_middle, hspan, units_append, units_append, units_cons, units_cons]
  ext u
  simp only [Set.mem_union]
  tauto

/-- A new extent adds exactly its own units. -/
theorem units_insert :
    units lo hi (l ++ n :: r) = units lo hi (l ++ r) ∪ Set.Ico (lo n) (hi n) := units_middle

end Extents
