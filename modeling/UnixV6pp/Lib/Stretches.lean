import Mathlib.Data.Set.Card
import UnixV6pp.Lib.Extents

/-!
# The maximal runs of a set

A set in a linear order falls apart into runs, half-open intervals that lie in it and in no longer
one.  How many there are is bounded from both sides: between two neighbours of a separated list of
extents there is a run of the units left over, and intervals that cover the set are at least as
many as its runs.

## Main definitions

* `IsRun`, `runs` — the maximal runs.
* `gaps` — what lies between the extents of a list.
* `Pieces` — intervals that a set is cut into, and `remains`, what a cut leaves of one of them.

## Main results

* `length_le_ncard_runs` — **a separated list is at most one longer** than there are runs left.
* `Pieces.ncard_runs_le` — **there are no more runs than pieces.**
-/

namespace Stretches

open Extents

variable {α ν : Type*} [LinearOrder α] {S : Set α} {p q : α × α} {u a b : α}

/-- A half-open interval, given by its ends, that is not empty and lies in the set. -/
structure Within (S : Set α) (p : α × α) : Prop where
  lt : p.1 < p.2
  subset : Set.Ico p.1 p.2 ⊆ S

/-- A maximal one. -/
structure IsRun (S : Set α) (p : α × α) : Prop extends Within S p where
  maximal : ∀ q, Within S q → Set.Ico p.1 p.2 ⊆ Set.Ico q.1 q.2 → q = p

/-- The maximal runs of a set. -/
def runs (S : Set α) : Set (α × α) := {p | IsRun S p}

/-- Two intervals with a common point make up one. -/
theorem Within.join (hp : Within S p) (hq : Within S q) (hup : u ∈ Set.Ico p.1 p.2)
    (huq : u ∈ Set.Ico q.1 q.2) : Within S (min p.1 q.1, max p.2 q.2) := by
  refine ⟨(min_le_left _ _).trans_lt (hp.lt.trans_le (le_max_left _ _)), ?_⟩
  rw [← Set.Ico_union_Ico' (huq.1.trans hup.2.le) (hup.1.trans huq.2.le)]
  exact Set.union_subset hp.subset hq.subset

/-- A run contains every interval of the set that it meets. -/
theorem IsRun.absorbs (hp : IsRun S p) (hq : Within S q) (hup : u ∈ Set.Ico p.1 p.2)
    (huq : u ∈ Set.Ico q.1 q.2) : Set.Ico q.1 q.2 ⊆ Set.Ico p.1 p.2 := by
  have hjoin := hp.maximal _ (hp.join hq hup huq)
    (Set.Ico_subset_Ico (min_le_left _ _) (le_max_left _ _))
  have hlo : p.1 ≤ q.1 := by
    rw [← hjoin]
    exact min_le_right _ _
  have hhi : q.2 ≤ p.2 := by
    rw [← hjoin]
    exact le_max_right _ _
  exact Set.Ico_subset_Ico hlo hhi

/-- Two runs with a common point are the same. -/
theorem IsRun.eq_of_mem (hp : IsRun S p) (hq : IsRun S q) (hup : u ∈ Set.Ico p.1 p.2)
    (huq : u ∈ Set.Ico q.1 q.2) : p = q :=
  hq.maximal p hp.toWithin (hp.absorbs hq.toWithin hup huq)

/-- An interval between two points that are not in the set, or not far from it, is a run. -/
theorem isRun_of_ends (hlt : a < b) (hsub : Set.Ico a b ⊆ S)
    (hleft : ∀ x < a, ∃ v ∉ S, x ≤ v ∧ v < a) (hright : b ∉ S) : IsRun S (a, b) := by
  refine ⟨⟨hlt, hsub⟩, fun q hq hcover => ?_⟩
  have hmem : a ∈ Set.Ico q.1 q.2 := hcover ⟨le_rfl, hlt⟩
  have hlo : q.1 = a := by
    refine le_antisymm hmem.1 (not_lt.mp fun hqa => ?_)
    obtain ⟨v, hv, hqv, hva⟩ := hleft q.1 hqa
    exact hv (hq.subset ⟨hqv, hva.trans hmem.2⟩)
  have hhi : q.2 = b := by
    refine le_antisymm (not_lt.mp fun hbq => ?_) (not_lt.mp fun hqb => ?_)
    · exact hright (hq.subset ⟨hmem.1.trans hlt.le, hbq⟩)
    · exact lt_irrefl q.2 (hcover (show q.2 ∈ Set.Ico a b from ⟨hmem.2.le, hqb⟩)).2
  exact Prod.ext hlo hhi

/-! ### Between the extents of a list -/

section Gaps

variable {lo hi : ν → α} {es l r : List ν} {m n : ν}

/-- The intervals between the neighbours of a list. -/
def gaps (lo hi : ν → α) : List ν → List (α × α)
  | m :: n :: es => (hi m, lo n) :: gaps lo hi (n :: es)
  | _ => []

omit [LinearOrder α] in
theorem length_gaps : (gaps lo hi es).length = es.length - 1 := by
  fun_induction gaps lo hi es with
  | case1 m n es ih => simp [ih]
  | case2 es hes =>
    match es, hes with
    | [], _ => rfl
    | [m], _ => rfl
    | m :: n :: es, hes => exact absurd rfl (hes m n es)

omit [LinearOrder α] in
theorem exists_of_mem_gaps (h : p ∈ gaps lo hi es) :
    ∃ l m n r, es = l ++ m :: n :: r ∧ p = (hi m, lo n) := by
  fun_induction gaps lo hi es with
  | case1 m n es ih =>
    rcases List.mem_cons.mp h with rfl | h
    · exact ⟨[], m, n, es, rfl, rfl⟩
    · obtain ⟨l, m', n', r, heq, hp⟩ := ih h
      exact ⟨m :: l, m', n', r, congrArg (m :: ·) heq, hp⟩
  | case2 => cases h

/-- The gaps of a separated list go up. -/
theorem pairwise_gaps (h : Separated lo hi es) :
    (gaps lo hi es).Pairwise fun p q => p.1 < q.1 := by
  fun_induction gaps lo hi es with
  | case1 m n es ih =>
    obtain ⟨-, hm, hsep⟩ := separated_cons.mp h
    refine List.pairwise_cons.mpr ⟨fun p hp => ?_, ih hsep⟩
    obtain ⟨l, m', n', r, heq, rfl⟩ := exists_of_mem_gaps hp
    have hmem : m' ∈ n :: es := by simp [heq]
    exact (hm m' hmem).trans (hsep.lt m' hmem)
  | case2 => exact List.Pairwise.nil

/-- A gap of a separated list is a run of what the list leaves of an interval around it. -/
theorem isRun_gap (h : Separated lo hi es) (hin : ∀ e ∈ es, a ≤ lo e ∧ hi e ≤ b)
    (hes : es = l ++ m :: n :: r) :
    IsRun (Set.Ico a b \ units lo hi es) (hi m, lo n) := by
  have hm : m ∈ es := by simp [hes]
  have hn : n ∈ es := by simp [hes]
  obtain ⟨-, hsep, hlr⟩ := separated_append.mp (hes ▸ h)
  obtain ⟨hmlt, hmn, hsep'⟩ := separated_cons.mp hsep
  obtain ⟨hnlt, hnr, -⟩ := separated_cons.mp hsep'
  refine isRun_of_ends (hmn n (by simp)) ?_ ?_ ?_
  · rintro u ⟨hlow, hhigh⟩
    refine ⟨⟨(hin m hm).1.trans (hmlt.le.trans hlow), hhigh.trans (hnlt.trans_le (hin n hn).2)⟩, ?_⟩
    rintro ⟨e, he, h₁, h₂⟩
    rw [hes, List.mem_append, List.mem_cons, List.mem_cons] at he
    rcases he with he | rfl | rfl | he
    · -- the extents in front of `m` end before it begins
      exact absurd (h₂.trans ((hlr e he m (by simp)).trans hmlt)) (not_lt.mpr hlow)
    · exact absurd h₂ (not_lt.mpr hlow)
    · exact absurd hhigh (not_lt.mpr h₁)
    · exact absurd (hhigh.trans (hnlt.trans (hnr e he))) (not_lt.mpr h₁)
  · intro x hx
    have hlt : max x (lo m) < hi m := max_lt hx hmlt
    exact ⟨max x (lo m), fun hS => hS.2 ⟨m, hm, le_max_right _ _, hlt⟩, le_max_left _ _, hlt⟩
  · exact fun hS => hS.2 ⟨n, hn, le_rfl, hnlt⟩

/-- **A separated list is at most one longer** than there are runs of what it leaves. -/
theorem length_le_ncard_runs (h : Separated lo hi es) (hin : ∀ e ∈ es, a ≤ lo e ∧ hi e ≤ b)
    (hfin : (runs (Set.Ico a b \ units lo hi es)).Finite) :
    es.length ≤ (runs (Set.Ico a b \ units lo hi es)).ncard + 1 := by
  have hnodup : (gaps lo hi es).Nodup := (pairwise_gaps h).imp fun {p q} hlt heq => by
    rw [heq] at hlt
    exact lt_irrefl _ hlt
  have hsub : ((gaps lo hi es).toFinset : Set (α × α)) ⊆ runs (Set.Ico a b \ units lo hi es) := by
    intro p hp
    rw [Finset.mem_coe, List.mem_toFinset] at hp
    obtain ⟨l, m, n, r, heq, rfl⟩ := exists_of_mem_gaps hp
    exact isRun_gap h hin heq
  have hle := Set.ncard_le_ncard hsub hfin
  rw [Set.ncard_coe_finset, List.toFinset_card_of_nodup hnodup, length_gaps] at hle
  omega

end Gaps

/-! ### Pieces -/

/-- Intervals, none of them empty and no two with a common point, that make up the set. -/
structure Pieces (ps : List (α × α)) (S : Set α) : Prop where
  lt : ∀ p ∈ ps, p.1 < p.2
  apart : ps.Pairwise fun p q => Disjoint (Set.Ico p.1 p.2) (Set.Ico q.1 q.2)
  units_eq : units Prod.fst Prod.snd ps = S

/-- What is left of an interval when the part from `a` to below `b` is cut out of it. -/
def remains (p : α × α) (a b : α) : List (α × α) :=
  if a < b then [(p.1, a), (b, p.2)].filter fun q => q.1 < q.2 else [p]

/-- At either end a cut leaves one piece, or nothing. -/
theorem length_remains_le (h : a ≤ p.1 ∨ p.2 ≤ b) : (remains p a b).length ≤ 1 := by
  unfold remains
  split
  · rcases h with h | h
    · rw [List.filter_cons_of_neg (by simpa using h)]
      exact List.length_filter_le _ _
    · rw [List.filter_cons, List.filter_cons_of_neg (a := (b, p.2)) (by simpa using h)]
      split <;> simp
  · rfl

theorem units_remains (hlo : p.1 ≤ a) (hhi : b ≤ p.2) :
    units Prod.fst Prod.snd (remains p a b) = Set.Ico p.1 p.2 \ Set.Ico a b := by
  unfold remains
  split
  next hab =>
    ext u
    simp only [mem_units, List.mem_filter, List.mem_cons, List.not_mem_nil, or_false,
      decide_eq_true_eq, Set.mem_sdiff, Set.mem_Ico, not_and, not_lt]
    constructor
    · rintro ⟨q, ⟨rfl | rfl, -⟩, hqu, huq⟩
      · exact ⟨⟨hqu, huq.trans_le (hab.le.trans hhi)⟩, fun hau => absurd huq (not_lt.mpr hau)⟩
      · exact ⟨⟨(hlo.trans hab.le).trans hqu, huq⟩, fun _ => hqu⟩
    · rintro ⟨⟨hpu, hup⟩, hout⟩
      rcases lt_or_ge u a with hua | hau
      · exact ⟨(p.1, a), ⟨.inl rfl, hpu.trans_lt hua⟩, hpu, hua⟩
      · exact ⟨(b, p.2), ⟨.inr rfl, (hout hau).trans_lt hup⟩, hout hau, hup⟩
  next hab =>
    rw [Set.Ico_eq_empty hab, Set.sdiff_empty, units_cons, units_nil, Set.union_empty]

/-- What a cut leaves lies in the interval. -/
theorem subset_of_mem_remains (hlo : p.1 ≤ a) (hhi : b ≤ p.2) (hq : q ∈ remains p a b) :
    Set.Ico q.1 q.2 ⊆ Set.Ico p.1 p.2 := fun u hu => by
  have hmem : u ∈ units Prod.fst Prod.snd (remains p a b) := ⟨q, hq, hu.1, hu.2⟩
  rw [units_remains hlo hhi] at hmem
  exact hmem.1

theorem pairwise_remains (p : α × α) (a b : α) :
    (remains p a b).Pairwise fun p q => Disjoint (Set.Ico p.1 p.2) (Set.Ico q.1 q.2) := by
  unfold remains
  split
  next hab =>
    refine List.Pairwise.filter _ (List.pairwise_pair.mpr ?_)
    rw [Set.disjoint_left]
    exact fun u hu hu' => absurd (hu.2.trans hab) (not_lt.mpr hu'.1)
  next => exact List.pairwise_singleton _ _

theorem lt_of_mem_remains (hlt : p.1 < p.2) (hq : q ∈ remains p a b) : q.1 < q.2 := by
  unfold remains at hq
  split at hq
  · exact of_decide_eq_true (List.mem_filter.mp hq).2
  · obtain rfl := List.mem_singleton.mp hq
    exact hlt

namespace Pieces

variable {ps l r : List (α × α)}

theorem nil : Pieces ([] : List (α × α)) ∅ := ⟨by simp, List.Pairwise.nil, units_nil⟩

/-- One more interval. -/
theorem cons (h : Pieces ps S) (hlt : p.1 < p.2) (hdisj : Disjoint (Set.Ico p.1 p.2) S) :
    Pieces (p :: ps) (Set.Ico p.1 p.2 ∪ S) := by
  refine ⟨fun q hq => ?_, List.pairwise_cons.mpr ⟨fun q hq => ?_, h.apart⟩, ?_⟩
  · rcases List.mem_cons.mp hq with rfl | hq
    · exact hlt
    · exact h.lt q hq
  · refine hdisj.mono_right ?_
    rw [← h.units_eq]
    exact fun u hu => ⟨q, hq, hu.1, hu.2⟩
  · rw [units_cons, h.units_eq]

/-- **A part is cut out of one of the pieces.** -/
theorem cut (h : Pieces (l ++ p :: r) S) (hlo : p.1 ≤ a) (hhi : b ≤ p.2) :
    Pieces (l ++ (remains p a b ++ r)) (S \ Set.Ico a b) := by
  obtain ⟨hl, hpr, hlpr⟩ := List.pairwise_append.mp h.apart
  obtain ⟨hp, hr⟩ := List.pairwise_cons.mp hpr
  have hsub : ∀ q ∈ remains p a b, Set.Ico q.1 q.2 ⊆ Set.Ico p.1 p.2 :=
    fun q hq => subset_of_mem_remains hlo hhi hq
  have hothers : Disjoint (units Prod.fst Prod.snd (l ++ r)) (Set.Ico a b) := by
    rw [Set.disjoint_left]
    rintro u ⟨q, hq, hu₁, hu₂⟩ hu
    have hup : u ∈ Set.Ico p.1 p.2 := ⟨hlo.trans hu.1, hu.2.trans_le hhi⟩
    rcases List.mem_append.mp hq with hq | hq
    · exact Set.disjoint_left.mp (hlpr q hq p (by simp)) ⟨hu₁, hu₂⟩ hup
    · exact Set.disjoint_left.mp (hp q hq) hup ⟨hu₁, hu₂⟩
  refine ⟨fun q hq => ?_, List.pairwise_append.mpr ⟨hl, List.pairwise_append.mpr
    ⟨pairwise_remains p a b, hr, fun q hq q' hq' => ?_⟩, fun q hq q' hq' => ?_⟩, ?_⟩
  · rw [List.mem_append, List.mem_append] at hq
    rcases hq with hq | hq | hq
    · exact h.lt q (by simp [hq])
    · exact lt_of_mem_remains (h.lt p (by simp)) hq
    · exact h.lt q (by simp [hq])
  · exact (hp q' hq').mono_left (hsub q hq)
  · rcases List.mem_append.mp hq' with hq' | hq'
    · exact (hlpr q hq p (by simp)).mono_right (hsub q' hq')
    · exact hlpr q hq q' (by simp [hq'])
  · rw [← h.units_eq, units_middle, Set.union_sdiff_distrib, hothers.sdiff_eq_left, units_append,
      units_append, units_remains hlo hhi, units_append, Set.union_right_comm, Set.union_assoc]

/-- In each run lies a piece, which no other run meets. -/
theorem exists_piece (h : Pieces ps S) (hrun : IsRun S p) :
    ∃ q ∈ ps, p.1 ∈ Set.Ico q.1 q.2 ∧ Set.Ico q.1 q.2 ⊆ Set.Ico p.1 p.2 := by
  have hmem : p.1 ∈ S := hrun.subset ⟨le_rfl, hrun.lt⟩
  rw [← h.units_eq] at hmem
  obtain ⟨q, hq, hlow, hhigh⟩ := hmem
  refine ⟨q, hq, ⟨hlow, hhigh⟩, hrun.absorbs ⟨h.lt q hq, ?_⟩ ⟨le_rfl, hrun.lt⟩ ⟨hlow, hhigh⟩⟩
  rw [← h.units_eq]
  exact fun u hu => ⟨q, hq, hu.1, hu.2⟩

/-- A choice of pieces for the runs. -/
theorem exists_choice (h : Pieces ps S) : ∃ f : α × α → α × α, Set.InjOn f (runs S) ∧
    Set.MapsTo f (runs S) (ps.toFinset : Set (α × α)) := by
  choose! f hf using fun p (hp : p ∈ runs S) => h.exists_piece hp
  refine ⟨f, fun p hp p' hp' heq => ?_, fun p hp => ?_⟩
  · obtain ⟨-, hmem, -⟩ := hf p hp
    obtain ⟨-, -, hsub⟩ := hf p' hp'
    exact IsRun.eq_of_mem hp hp' ⟨le_rfl, hp.lt⟩ (hsub (heq ▸ hmem))
  · rw [Finset.mem_coe, List.mem_toFinset]
    exact (hf p hp).1

theorem finite_runs (h : Pieces ps S) : (runs S).Finite := by
  obtain ⟨f, hinj, hmaps⟩ := h.exists_choice
  exact Set.Finite.of_injOn hmaps hinj (Finset.finite_toSet _)

/-- **There are no more runs than pieces.** -/
theorem ncard_runs_le (h : Pieces ps S) : (runs S).ncard ≤ ps.length := by
  obtain ⟨f, hinj, hmaps⟩ := h.exists_choice
  refine (Set.ncard_le_ncard_of_injOn f hmaps hinj (Finset.finite_toSet _)).trans ?_
  rw [Set.ncard_coe_finset]
  exact List.toFinset_card_le ps

end Pieces

end Stretches
