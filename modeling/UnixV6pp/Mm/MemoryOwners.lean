import UnixV6pp.Lib.Stretches
import UnixV6pp.Mm.PageManager

/-!
# Owners of memory and of swap space

Images grow and shrink, and their pages pass from one owner to another.

* `Owned.relabel`, `Owned.cut` — the owners change, and the map does not.
* `Owned.hasRoom` — **a map has room** while there are few owners.
* `Owned.found`, `Owned.shrink`, `Owned.move` — memory is taken, some of it is given back, and one
  range is taken for another.
-/

namespace UnixV6pp
namespace Allocator

open Extents Stretches

variable {κ ι : Type*} {own own' : κ → UInt32 × UInt32} {k l : κ} {map₀ : List MapNode}
  {s : MapState} {size start n : UInt32}

namespace Owned

/-- The owners are called by other names. -/
theorem relabel {own' : ι → UInt32 × UInt32} (h : Owned map₀ s own) {f : ι → κ}
    (hf : Function.Injective f) (hown : ∀ i, own' i = own (f i))
    (hrest : ∀ k, (∀ i, f i ≠ k) → (own k).2 = 0) : Owned map₀ s own' := by
  refine ⟨h.inv, h.length, ?_⟩
  refine (h.shares.relabel hf fun k hk => ?_).congr fun i => by rw [hown]
  rw [hrest k hk, range_zero]

/-- Nobody has more or less than before. -/
theorem keep (h : Owned map₀ s own) (hk : own' k = own k)
    (hothers : ∀ l, l ≠ k → own' l = own l) : Owned map₀ s own' := by
  refine h.congr fun l => ?_
  by_cases hl : l = k
  · rw [hl, hk]
  · exact hothers l hl

/-- A range is cut in two, and the second part is for a new owner. -/
theorem cut {own' : Option κ → UInt32 × UInt32} (h : Owned map₀ s own)
    (hcut : range (own' (some k)).1 (own' (some k)).2 ∪ range (own' none).1 (own' none).2 =
      range (own k).1 (own k).2)
    (hdisj : Disjoint (range (own' (some k)).1 (own' (some k)).2)
      (range (own' none).1 (own' none).2))
    (hothers : ∀ l, l ≠ k → own' (some l) = own l) : Owned map₀ s own' := by
  refine ⟨h.inv, h.length, h.shares.cut hcut hdisj fun l hl => ?_⟩
  rw [hothers l hl]

/-- Somebody more, who has nothing. -/
theorem spare (h : Owned map₀ s own) (k : κ) :
    Owned map₀ s fun o : Option κ => o.elim (0, 0) own := by
  refine h.cut (k := k) ?_ ?_ fun l _ => rfl
  · change range (own k).1 (own k).2 ∪ range 0 0 = _
    rw [range_zero, Set.union_empty]
  · change Disjoint _ (range 0 0)
    rw [range_zero]
    exact Set.disjoint_empty _

/-- The ranges that are not empty. -/
theorem exists_pieces [Fintype κ] (h : Owned map₀ s own) :
    ∃ ps, Pieces ps (freeUnits map₀ \ freeUnits s.map) ∧ ps.length ≤ Fintype.card κ := by
  classical
  let ks := Finset.univ.toList.filter fun k => (own k).2 ≠ 0
  let ends : κ → ℕ × ℕ := fun k => ((own k).1.toNat, (own k).1.toNat + (own k).2.toNat)
  refine ⟨ks.map ends, ⟨fun p hp => ?_, ?_, ?_⟩, ?_⟩
  · obtain ⟨k, hk, rfl⟩ := List.mem_map.mp hp
    have hne := of_decide_eq_true (List.mem_filter.mp hk).2
    have hpos : (own k).2.toNat ≠ 0 := fun hzero => hne (UInt32.toNat_inj.mp hzero)
    simp only [ends]
    omega
  · refine List.pairwise_map.mpr ?_
    have hnodup : ks.Nodup := (Finset.nodup_toList _).filter _
    exact hnodup.imp fun hne => h.shares.disjoint _ _ hne
  · ext u
    rw [mem_units]
    constructor
    · rintro ⟨p, hp, hu⟩
      obtain ⟨k, -, rfl⟩ := List.mem_map.mp hp
      exact ⟨h.shares.own_subset k hu, Set.disjoint_left.mp (h.shares.apart k) hu⟩
    · rintro ⟨hpool, hfree⟩
      obtain ⟨k, hk⟩ := ((h.shares.all u).1 hpool).resolve_left hfree
      refine ⟨ends k, List.mem_map.mpr ⟨k, List.mem_filter.mpr ⟨by simp, ?_⟩, rfl⟩, hk⟩
      rw [decide_eq_true_eq]
      intro hzero
      rw [hzero, range_zero] at hk
      exact hk
  · rw [List.length_map]
    exact (List.length_filter_le _ _).trans (by rw [Finset.length_toList, Finset.card_univ])

/-- **A map has room** while the owners are fewer than its slots without three: between two entries
there is somebody's range. -/
theorem hasRoom [Fintype κ] {a b : ℕ} (h : Owned map₀ s own) (hpool : freeUnits map₀ = Set.Ico a b)
    (hlen : Fintype.card κ + 3 ≤ map₀.length) : HasRoom s.map := by
  obtain ⟨es, zs, hs, -⟩ := h.inv.wf
  obtain ⟨ps, hps, hle⟩ := h.exists_pieces
  have hsub : freeUnits s.map ⊆ Set.Ico a b := hpool ▸ h.inv.sub
  have hfin := hps.finite_runs
  have hruns := hps.ncard_runs_le
  rw [hpool, hs.freeUnits_eq] at hfin hruns
  have hentries := length_le_ncard_runs hs.sep (hs.within hsub) hfin
  have hmap := congrArg List.length hs.eq
  rw [List.length_append, h.length] at hmap
  rw [HasRoom, hs.countP]
  omega

/-- Units that are found are in a range of the map. -/
theorem hasExtent_of_ne (h : Owned map₀ s own) (hn : 0 < size) (hne : (s.alloc size).1 ≠ 0) :
    s.hasExtent size = true := by
  obtain ⟨r, map, b, halloc, -, -, -, hspec, -⟩ := allocNext_spec h.inv.wf h.inv.begin_lt hn
  have heq : s.alloc size = (r, ⟨map, b⟩) := by rw [MapState.alloc, halloc]
  rcases hspec with ⟨⟨e, he, hle⟩, -⟩ | ⟨-, rfl, -⟩
  · exact List.any_eq_true.2 ⟨e, he, decide_eq_true hle⟩
  · rw [heq] at hne
    exact absurd rfl hne

/-- A part of a range passes to somebody who has nothing, or all of it. -/
theorem pass [DecidableEq κ] (h : Owned map₀ s own) (hkl : k ≠ l) (hl : (own l).2 = 0)
    (hcut : range (own' k).1 (own' k).2 ∪ range (own' l).1 (own' l).2 = range (own k).1 (own k).2)
    (hdisj : Disjoint (range (own' k).1 (own' k).2) (range (own' l).1 (own' l).2))
    (hothers : ∀ m, m ≠ k → m ≠ l → own' m = own m) : Owned map₀ s own' := by
  have hparts : Owned map₀ s fun o : Option κ =>
      o.elim (own' l) fun m => if m = k then own' k else own m := by
    refine h.cut (k := k) ?_ ?_ fun m hm => ?_
    · simpa using hcut
    · simpa using hdisj
    · simp [hm]
  refine hparts.relabel (f := fun m => if m = l then none else some m) (fun m m' heq => ?_)
    (fun m => ?_) fun o ho => ?_
  · grind
  · by_cases hml : m = l
    · simp [hml]
    · by_cases hmk : m = k
      · simp [hmk, hkl]
      · simp [hml, hmk, hothers m hmk hml]
  · cases o with
    | none => exact absurd (if_pos rfl) (ho l)
    | some m =>
      by_cases hml : m = l
      · simp [hml, Ne.symm hkl, hl]
      · exact absurd (if_neg hml) (ho m)

end Owned

/-! ### Pages of images -/

/-- A map of one range, within the pages of 4 GiB, that has room for so many owners. -/
structure Ample (m : ℕ) (map₀ : List MapNode) : Prop where
  wf : WellFormed map₀
  pool : ∃ a b, freeUnits map₀ = Set.Ico a b ∧ 1 ≤ a ∧ b ≤ 2 ^ 20
  length : m + 3 ≤ map₀.length

variable {m : ℕ} {addr new old : UInt32}

/-- A map with one entry. -/
theorem Ample.of_split {m k : ℕ} {e : MapNode} {map : List MapNode}
    (h : Split map [e] (List.replicate k ⟨0, 0⟩)) (hlo : 1 ≤ lo e) (hstop : stop e ≤ 2 ^ 20)
    (hk : m + 2 ≤ k) : Ample m map where
  wf := ⟨_, _, h, by simp; omega⟩
  pool := by
    refine ⟨lo e, stop e, ?_, hlo, hstop⟩
    rw [h.freeUnits_eq, units_cons, units_nil, Set.union_empty]
  length := by
    rw [h.eq, List.length_append, List.length_replicate, List.length_singleton]
    omega

theorem Ample.hasRoom [Fintype κ] (hm : Ample m map₀) (h : Owned map₀ s own)
    (hcard : Fintype.card κ ≤ m) : HasRoom s.map := by
  obtain ⟨a, b, hpool, -, -⟩ := hm.pool
  have hlen := hm.length
  exact h.hasRoom hpool (by omega)

theorem Ample.mem (hm : Ample m map₀) {u : ℕ} (hu : u ∈ freeUnits map₀) : 1 ≤ u ∧ u < 2 ^ 20 := by
  obtain ⟨a, b, hpool, ha, hb⟩ := hm.pool
  rw [hpool, Set.mem_Ico] at hu
  omega

theorem toNat_pages (hn : n.toNat ≤ 2 ^ 25) : (pages n).toNat = (n.toNat + 4095) / 4096 := by
  have hsum : (n + (PAGE_SIZE - 1)).toNat = n.toNat + 4095 := by
    rw [UInt32.toNat_add, show (PAGE_SIZE - 1).toNat = 4095 from rfl]
    omega
  rw [pages, UInt32.toNat_div, hsum]
  rfl

theorem toNat_page (addr : UInt32) : (addr / PAGE_SIZE).toNat = addr.toNat / 4096 := by
  rw [UInt32.toNat_div]
  rfl

theorem range_append {a b c : UInt32} (hb : b.toNat + c.toNat = size.toNat)
    (ha : start.toNat + b.toNat = a.toNat) :
    range start b ∪ range a c = range start size ∧ Disjoint (range start b) (range a c) := by
  unfold range
  constructor
  · rw [← ha, Set.Ico_union_Ico_eq_Ico (by omega) (by omega), Nat.add_assoc, hb]
  · rw [Set.disjoint_left]
    intro u hu hu'
    simp only [Set.mem_Ico] at hu hu'
    omega

theorem toNat_add_small {a b : UInt32} (ha : a.toNat ≤ 2 ^ 24) (hb : b.toNat ≤ 2 ^ 24) :
    (a + b).toNat = a.toNat + b.toNat := by
  rw [UInt32.toNat_add]
  omega

/-- Whole pages, and something behind them. -/
theorem range_pages {d a b : UInt32} (hd : d.toNat % 4096 = 0) (ha : a.toNat % 4096 = 0)
    (ha' : a.toNat ≤ 2 ^ 24) (hb : 0 < b.toNat) (hb' : b.toNat ≤ 2 ^ 24)
    (hend : (d / PAGE_SIZE).toNat + (pages (b + a)).toNat ≤ 2 ^ 20) :
    (d + a).toNat % 4096 = 0 ∧
      range (d / PAGE_SIZE) (pages a) ∪ range ((d + a) / PAGE_SIZE) (pages b) =
        range (d / PAGE_SIZE) (pages (b + a)) ∧
      Disjoint (range (d / PAGE_SIZE) (pages a)) (range ((d + a) / PAGE_SIZE) (pages b)) := by
  have hsum := toNat_add_small hb' ha'
  rw [toNat_page, toNat_pages (by omega)] at hend
  have hdest : (d + a).toNat = d.toNat + a.toNat := by
    rw [UInt32.toNat_add]
    omega
  refine ⟨by omega, range_append ?_ ?_⟩
  · rw [toNat_pages (by omega), toNat_pages (by omega), toNat_pages (by omega)]
    omega
  · rw [toNat_page, toNat_page, toNat_pages (by omega)]
    omega

namespace Owned

/-- A range that somebody has ends below 4 GiB. -/
theorem page_le (hm : Ample m map₀) (h : Owned map₀ s own) (hk : own k = (start, size))
    (hpos : 0 < size.toNat) : 1 ≤ start.toNat ∧ start.toNat + size.toNat ≤ 2 ^ 20 := by
  have hsub := h.shares.own_subset k
  rw [hk] at hsub
  have hfirst := hm.mem (hsub (show start.toNat ∈ range start size from ⟨le_rfl, by omega⟩))
  have hlast := hm.mem (hsub (show start.toNat + size.toNat - 1 ∈ range start size from
    ⟨by omega, by omega⟩))
  omega

/-- Without enough pages in a row nothing changes. -/
theorem not_found (hm : Ample m map₀) (h : Owned map₀ s own) (hn : 0 < pages n)
    (hzero : (s.allocMemory n).1 = 0) : Owned map₀ (s.allocMemory n).2 own := by
  obtain ⟨r, map, b, halloc, hwf, hlen, hb, hspec, -⟩ := allocNext_spec h.inv.wf h.inv.begin_lt hn
  have heq : s.alloc (pages n) = (r, ⟨map, b⟩) := by rw [MapState.alloc, halloc]
  change (s.alloc (pages n)).1 * PAGE_SIZE = 0 at hzero
  change Owned map₀ (s.alloc (pages n)).2 own
  rw [heq] at hzero ⊢
  rcases hspec with ⟨-, hsub, -⟩ | ⟨-, -, rfl⟩
  · -- a page that is found does not have the address 0
    have hpos : 0 < (pages n).toNat := UInt32.lt_iff_toNat_lt.1 hn
    have hmem := hm.mem (h.inv.sub (hsub ⟨le_rfl, by omega⟩))
    have hpage := page_of_address (r := r) hmem.2
    dsimp only at hzero
    rw [hzero] at hpage
    rw [← hpage] at hmem
    exact absurd hmem.1 (by decide)
  · exact ⟨⟨h.inv.wf, h.inv.sub, hb⟩, h.length, h.shares⟩

/-- The pages that have been found are somebody's who had nothing. -/
theorem found (hm : Ample m map₀) (h : Owned map₀ s own) (hn : 0 < pages n)
    (hne : (s.allocMemory n).1 ≠ 0) (hk : (own k).2 = 0)
    (hown : own' k = ((s.allocMemory n).1 / PAGE_SIZE, pages n))
    (hothers : ∀ l, l ≠ k → own' l = own l) : Owned map₀ (s.allocMemory n).2 own' := by
  have hextent : s.hasExtent (pages n) = true := by
    refine h.hasExtent_of_ne hn fun hzero => hne ?_
    change (s.alloc (pages n)).1 * PAGE_SIZE = 0
    rw [hzero, UInt32.zero_mul]
  refine h.alloc hk (.inr hextent) ?_ hothers
  have hmem := hm.mem (h.alloc_mem hn hextent)
  rw [hown]
  change range ((s.alloc (pages n)).1 * PAGE_SIZE / PAGE_SIZE) _ = _
  rw [page_of_address hmem.2]

theorem aligned_alloc (s : MapState) (n : UInt32) : (s.allocMemory n).1.toNat % 4096 = 0 := by
  change ((s.alloc (pages n)).1 * PAGE_SIZE).toNat % 4096 = 0
  rw [UInt32.toNat_mul, show PAGE_SIZE.toNat = 4096 from rfl]
  omega

/-- **An image gets smaller**, by whole pages. -/
theorem shrink [Fintype κ] (hm : Ample m map₀) (hcard : Fintype.card κ ≤ m)
    (h : Owned map₀ s own) (hk : own k = (addr / PAGE_SIZE, pages old))
    (haddr : addr.toNat % 4096 = 0) (hle : new ≤ old)
    (hold : old.toNat ≤ 2 ^ 24) (hwhole : new = old ∨ new.toNat % 4096 = 0)
    (hown : own' k = (addr / PAGE_SIZE, pages new)) (hothers : ∀ l, l ≠ k → own' l = own l) :
    Owned map₀ (s.freeMemory (old - new) (addr + new)) own' := by
  have hle' := UInt32.le_iff_toNat_le.1 hle
  have hsub : (old - new).toNat = old.toNat - new.toNat := UInt32.toNat_sub_of_le _ _ hle
  have hcut : range (addr / PAGE_SIZE) (pages new) ∪
      range ((addr + new) / PAGE_SIZE) (pages (old - new)) =
        range (addr / PAGE_SIZE) (pages old) ∧
      Disjoint (range (addr / PAGE_SIZE) (pages new))
        (range ((addr + new) / PAGE_SIZE) (pages (old - new))) := by
    rcases eq_or_ne new old with rfl | hne
    · -- nothing is given back, wherever the image ends
      rw [UInt32.sub_self, show pages 0 = 0 from rfl, range_zero, Set.union_empty]
      exact ⟨rfl, Set.disjoint_empty _⟩
    · have hwhole := hwhole.resolve_left hne
      have hne' : new.toNat ≠ old.toNat := fun heq => hne (UInt32.toNat_inj.mp heq)
      have hend := (page_le hm h hk (by rw [toNat_pages (by omega)]; omega)).2
      rw [toNat_page, toNat_pages (by omega)] at hend
      refine range_append ?_ ?_
      · rw [toNat_pages (by omega), toNat_pages (by omega), toNat_pages (by omega), hsub]
        omega
      · rw [toNat_page, toNat_page, toNat_pages (by omega), UInt32.toNat_add]
        omega
  have hparts : Owned map₀ s fun o : Option κ =>
      o.elim ((addr + new) / PAGE_SIZE, pages (old - new)) own' := by
    refine h.cut (k := k) ?_ ?_ hothers
    · simp only [Option.elim, hown, hk]
      exact hcut.1
    · simp only [Option.elim, hown]
      exact hcut.2
  have hroom := hm.hasRoom h hcard
  have hfree : Owned map₀ (s.freeMemory (old - new) (addr + new)) fun o : Option κ =>
      o.elim (0, 0) own' :=
    hparts.free (k := none) hm.wf hroom rfl rfl fun o ho => by
      cases o with
      | none => exact absurd rfl ho
      | some l => rfl
  refine hfree.relabel (Option.some_injective κ) (fun _ => rfl) fun o ho => ?_
  cases o with
  | none => rfl
  | some l => exact absurd rfl (ho l)

/-- **An image moves** to other pages. -/
theorem move [Fintype κ] [DecidableEq κ] (hm : Ample m map₀) (hcard : Fintype.card κ < m)
    (h : Owned map₀ s own) (hn : 0 < pages new)
    (hne : (s.allocMemory new).1 ≠ 0) (hk : own k = (addr / PAGE_SIZE, pages old))
    (hown : own' k = ((s.allocMemory new).1 / PAGE_SIZE, pages new))
    (hothers : ∀ l, l ≠ k → own' l = own l) :
    Owned map₀ ((s.allocMemory new).2.freeMemory old addr) own' := by
  -- the new pages are for somebody more, until the old ones have been given back
  have hspare := h.spare k
  have hcard' : Fintype.card (Option κ) ≤ m := by
    rw [Fintype.card_option]
    exact hcard
  have hfound : Owned map₀ (s.allocMemory new).2 fun o : Option κ =>
      o.elim ((s.allocMemory new).1 / PAGE_SIZE, pages new) own :=
    hspare.found (k := none) hm hn hne rfl rfl fun o ho => by
      cases o with
      | none => exact absurd rfl ho
      | some l => rfl
  have hfree : Owned map₀ ((s.allocMemory new).2.freeMemory old addr) fun o : Option κ =>
      o.elim ((s.allocMemory new).1 / PAGE_SIZE, pages new) fun l =>
        if l = k then (0, 0) else own l :=
    hfound.free (k := some k) hm.wf (hm.hasRoom hfound hcard') hk (by simp) fun o ho => by
      cases o with
      | none => rfl
      | some l => simp [show l ≠ k from fun heq => ho (congrArg some heq)]
  refine hfree.relabel (f := fun l => if l = k then none else some l) (fun l l' heq => ?_)
    (fun l => ?_) fun o ho => ?_
  · grind
  · by_cases hl : l = k
    · simp [hl, hown]
    · simp [hl, hothers l hl]
  · cases o with
    | none => exact absurd (if_pos rfl) (ho k)
    | some l =>
      by_cases hl : l = k
      · simp [hl]
      · exact absurd (if_neg hl) (ho l)

end Owned

end Allocator
end UnixV6pp
