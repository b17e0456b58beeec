import Mathlib.Data.Set.Lattice
import Mathlib.Logic.Function.Basic
import Mathlib.Order.CompletePartialOrder

/-!
# Who has what of a common pool

A pool of units is shared by owners, each with a set of units of its own, and what nobody has is
free.  Nothing is lost as long as units only move between the free ones and the owners.

* `Shares` — every unit of the pool is free or has one owner.
* `Shares.take`, `Shares.give` — **units change hands.**
* `Shares.cut`, `Shares.relabel` — the owners change.
-/

variable {α κ : Type*} {pool free S : Set α} {own own' : κ → Set α} {k l : κ}

/-- Every unit of the pool is free or has one owner. -/
structure Shares (pool free : Set α) (own : κ → Set α) : Prop where
  disjoint : ∀ k l, k ≠ l → Disjoint (own k) (own l)
  apart : ∀ k, Disjoint (own k) free
  all : ∀ u, u ∈ pool ↔ u ∈ free ∨ ∃ k, u ∈ own k

namespace Shares

theorem congr (h : Shares pool free own) (hown : ∀ k, own' k = own k) : Shares pool free own' := by
  rwa [funext hown]

theorem free_subset (h : Shares pool free own) : free ⊆ pool := fun u hu => (h.all u).2 (.inl hu)

theorem own_subset (h : Shares pool free own) (k : κ) : own k ⊆ pool :=
  fun u hu => (h.all u).2 (.inr ⟨k, hu⟩)

/-- Nobody has anything. -/
theorem nobody (pool : Set α) : Shares pool pool fun _ : κ => (∅ : Set α) where
  disjoint _ _ _ := Set.disjoint_empty _
  apart _ := Set.empty_disjoint _
  all u := by simp

/-- An owner with nothing takes free units. -/
theorem take (h : Shares pool free own) (hk : own k = ∅) (hS : S ⊆ free) (hown : own' k = S)
    (hothers : ∀ l, l ≠ k → own' l = own l) : Shares pool (free \ S) own' := by
  have hnew : ∀ l, l ≠ k → Disjoint (own' l) S := by
    intro l hl
    rw [hothers l hl]
    exact (h.apart l).mono_right hS
  refine ⟨fun l m hlm => ?_, fun l => ?_, fun u => ?_⟩
  · rcases eq_or_ne l k with rfl | hl
    · rw [hown]
      exact (hnew m hlm.symm).symm
    · rcases eq_or_ne m k with rfl | hm
      · rw [hown]
        exact hnew l hl
      · rw [hothers l hl, hothers m hm]
        exact h.disjoint l m hlm
  · rcases eq_or_ne l k with rfl | hl
    · rw [hown]
      exact Set.disjoint_sdiff_right
    · rw [hothers l hl]
      exact (h.apart l).mono_right Set.sdiff_subset
  · rw [h.all u]
    constructor
    · rintro (hfree | ⟨l, hl⟩)
      · by_cases hu : u ∈ S
        · exact .inr ⟨k, by rwa [hown]⟩
        · exact .inl ⟨hfree, hu⟩
      · rcases eq_or_ne l k with rfl | hlk
        · rw [hk] at hl
          exact hl.elim
        · exact .inr ⟨l, by rwa [hothers l hlk]⟩
    · rintro (hfree | ⟨l, hl⟩)
      · exact .inl hfree.1
      · rcases eq_or_ne l k with rfl | hlk
        · rw [hown] at hl
          exact .inl (hS hl)
        · rw [hothers l hlk] at hl
          exact .inr ⟨l, hl⟩

/-- An owner gives back what it has. -/
theorem give (h : Shares pool free own) (hown : own' k = ∅)
    (hothers : ∀ l, l ≠ k → own' l = own l) : Shares pool (free ∪ own k) own' := by
  refine ⟨fun l m hlm => ?_, fun l => ?_, fun u => ?_⟩
  · rcases eq_or_ne l k with rfl | hl
    · rw [hown]
      exact Set.empty_disjoint _
    · rcases eq_or_ne m k with rfl | hm
      · rw [hown]
        exact Set.disjoint_empty _
      · rw [hothers l hl, hothers m hm]
        exact h.disjoint l m hlm
  · rcases eq_or_ne l k with rfl | hl
    · rw [hown]
      exact Set.empty_disjoint _
    · rw [hothers l hl]
      exact Set.disjoint_union_right.2 ⟨h.apart l, h.disjoint l k hl⟩
  · rw [h.all u]
    constructor
    · rintro (hfree | ⟨l, hl⟩)
      · exact .inl (.inl hfree)
      · rcases eq_or_ne l k with rfl | hlk
        · exact .inl (.inr hl)
        · exact .inr ⟨l, by rwa [hothers l hlk]⟩
    · rintro ((hfree | hk) | ⟨l, hl⟩)
      · exact .inl hfree
      · exact .inr ⟨k, hk⟩
      · rcases eq_or_ne l k with rfl | hlk
        · rw [hown] at hl
          exact hl.elim
        · rw [hothers l hlk] at hl
          exact .inr ⟨l, hl⟩

/-- The owners are called by other names; who has none has nothing. -/
theorem relabel {ι : Type*} (h : Shares pool free own) {f : ι → κ} (hf : Function.Injective f)
    (hrest : ∀ k, (∀ i, f i ≠ k) → own k = ∅) : Shares pool free fun i => own (f i) where
  disjoint i j hij := h.disjoint _ _ fun heq => hij (hf heq)
  apart i := h.apart _
  all u := by
    rw [h.all u]
    refine or_congr_right ⟨?_, fun ⟨i, hi⟩ => ⟨f i, hi⟩⟩
    rintro ⟨k, hk⟩
    by_contra hno
    rw [hrest k fun i hi => hno ⟨i, by rwa [hi]⟩] at hk
    exact hk

/-- What an owner has is cut in two, and the second part is for a new owner. -/
theorem cut {own' : Option κ → Set α} (h : Shares pool free own)
    (hcut : own' (some k) ∪ own' none = own k) (hdisj : Disjoint (own' (some k)) (own' none))
    (hothers : ∀ l, l ≠ k → own' (some l) = own l) : Shares pool free own' := by
  have hle : own' (some k) ⊆ own k ∧ own' none ⊆ own k :=
    ⟨hcut ▸ Set.subset_union_left, hcut ▸ Set.subset_union_right⟩
  -- the owner that a part comes from
  have hfrom : ∀ o : Option κ, own' o ⊆ own (o.getD k) := by
    rintro (_ | l)
    · exact hle.2
    · by_cases hl : l = k
      · rw [hl]
        exact hle.1
      · exact (hothers l hl).subset
  refine ⟨fun o o' hne => ?_, fun o => (h.apart _).mono_left (hfrom o), fun u => ?_⟩
  · by_cases hsame : o.getD k = o'.getD k
    · cases o with
      | none =>
        cases o' with
        | none => exact absurd rfl hne
        | some l =>
          obtain rfl : k = l := hsame
          exact hdisj.symm
      | some l =>
        cases o' with
        | none =>
          obtain rfl : l = k := hsame
          exact hdisj
        | some m => exact absurd (congrArg some hsame) hne
    · exact (h.disjoint _ _ hsame).mono (hfrom o) (hfrom o')
  · rw [h.all u]
    refine or_congr_right ⟨?_, fun ⟨o, ho⟩ => ⟨_, hfrom o ho⟩⟩
    rintro ⟨l, hl⟩
    by_cases hlk : l = k
    · rw [hlk, ← hcut] at hl
      exact hl.elim (fun hk => ⟨some k, hk⟩) fun hn => ⟨none, hn⟩
    · exact ⟨some l, by rwa [hothers l hlk]⟩

end Shares
