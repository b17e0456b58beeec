import UnixV6pp.Lib.Runs
import UnixV6pp.Mm.ExtentFree

/-!
# Runs of the map allocator

A map is used through a sequence of allocations and returns.  The units it hands
out and takes back all come from the units that were free at the start, its
*pool*, and a range may be given back while it is allocated: taken from the pool
and not free.

## Main results

* `extentMap_run` — **every run** that has room for one more entry whenever it
  gives a range back.
* `extentMap_overflow` — without that room the end mark can be overwritten.
-/

namespace UnixV6pp
namespace Allocator

open Extents

/-- A map with the pointer its next-fit allocations start from. -/
structure MapState where
  map : List MapNode
  beginNode : ℕ
  deriving DecidableEq, Repr

/-- The operations on a map. -/
inductive Op
  /-- First fit. -/
  | alloc (size : UInt32)
  /-- Next fit. -/
  | allocNext (size : UInt32)
  /-- Giving a range back. -/
  | free (size addrIdx : UInt32)
  deriving DecidableEq, Repr

/-- One call of the allocator, on a map whose units all come from `pool`:
allocations ask for at least one unit, and a range is given back only while it
is allocated, that is, was taken from the pool and is not free. -/
inductive Step (pool : Set ℕ) : MapState → Op → MapState → Prop
  | alloc {s : MapState} {size retIdx : UInt32} {map' : List MapNode} (hpos : 0 < size)
      (h : Allocator.alloc s.map size = some (retIdx, map')) :
      Step pool s (.alloc size) ⟨map', s.beginNode⟩
  | allocNext {s : MapState} {size retIdx : UInt32} {map' : List MapNode} {beginNode' : ℕ}
      (hpos : 0 < size)
      (h : Allocator.allocNext s.map size s.beginNode = some (retIdx, map', beginNode')) :
      Step pool s (.allocNext size) ⟨map', beginNode'⟩
  | free {s : MapState} {size addrIdx : UInt32} {map' : List MapNode}
      (hpool : Set.Ico addrIdx.toNat (addrIdx.toNat + size.toNat) ⊆ pool)
      (hdisj : Disjoint (Set.Ico addrIdx.toNat (addrIdx.toNat + size.toNat)) (freeUnits s.map))
      (h : Allocator.free s.map size addrIdx = some map') :
      Step pool s (.free size addrIdx) ⟨map', s.beginNode⟩

/-- A range is given back only while the array has room for one more entry. -/
def Op.Admissible (s : MapState) : Op → Prop
  | .free _ _ => HasRoom s.map
  | _ => True

/-- The invariant of a run: the list is well formed, all its units come from the
pool, and `beginNode` points into the array. -/
structure Inv (pool : Set ℕ) (s : MapState) : Prop where
  wf : WellFormed s.map
  sub : freeUnits s.map ⊆ pool
  begin_lt : s.beginNode < s.map.length

/-- A well formed map leaves some unit of the address space out. -/
theorem WellFormed.exists_not_free {map : List MapNode} (h : WellFormed map) :
    ∃ u < 2 ^ 32, u ∉ freeUnits map := by
  obtain ⟨es, zs, hs, -⟩ := h
  rw [hs.freeUnits_eq]
  cases es with
  | nil => exact ⟨0, by omega, by simp⟩
  | cons e es =>
    obtain ⟨hlt, her, -⟩ := separated_cons.mp hs.sep
    by_cases h0 : lo e = 0
    · refine ⟨stop e, ?_, ?_⟩
      · have := e.mSize.toNat_lt
        simp only [lo, stop] at h0 ⊢
        omega
      · rintro ⟨n, hn, h1, h2⟩
        rcases List.mem_cons.mp hn with rfl | hn
        · omega
        · have := her n hn; omega
    · refine ⟨0, by omega, ?_⟩
      rintro ⟨n, hn, h1, -⟩
      rcases List.mem_cons.mp hn with rfl | hn
      · omega
      · have := her n hn; omega

/-- The units of a well formed map are 32-bit numbers. -/
theorem WellFormed.lt_of_mem {map : List MapNode} (h : WellFormed map) {u : ℕ}
    (hu : u ∈ freeUnits map) : u < 2 ^ 32 := by
  obtain ⟨es, zs, hs, -⟩ := h
  rw [hs.freeUnits_eq] at hu
  obtain ⟨n, hn, -, hlt⟩ := hu
  have := hs.bound n hn
  omega

/-- **A range allocated from the pool can be given back.** -/
theorem Inv.freed {map₀ : List MapNode} (h₀ : WellFormed map₀) {s : MapState}
    (h : Inv (freeUnits map₀) s) (hroom : HasRoom s.map) {size addrIdx : UInt32}
    (hpool : Set.Ico addrIdx.toNat (addrIdx.toNat + size.toNat) ⊆ freeUnits map₀)
    (hdisj : Disjoint (Set.Ico addrIdx.toNat (addrIdx.toNat + size.toNat)) (freeUnits s.map)) :
    Freed s.map size addrIdx := by
  refine free_spec h.wf hroom ?_ hdisj ?_
  · have ha := addrIdx.toNat_lt
    by_contra hgt
    have := h₀.lt_of_mem (hpool (show addrIdx.toNat + size.toNat - 1 ∈ _ from by
      simp only [Set.mem_Ico]; omega))
    omega
  · obtain ⟨u, hu, hnot⟩ := h₀.exists_not_free
    exact ⟨u, hu, fun hf => hnot (h.sub hf), fun hr => hnot (hpool hr)⟩

/-- An allocation leaves a subset of the free units. -/
theorem Allocated.subset {map map' : List MapNode} {size retIdx : UInt32}
    (h : Allocated map size retIdx map') : freeUnits map' ⊆ freeUnits map := by
  rcases h with ⟨-, -, h⟩ | ⟨-, -, rfl⟩
  · rw [h]; exact Set.sdiff_subset
  · rfl

theorem Inv.step {map₀ : List MapNode} (h₀ : WellFormed map₀) (s : MapState) (op : Op)
    (s' : MapState) (h : Inv (freeUnits map₀) s) (hok : op.Admissible s)
    (hstep : Step (freeUnits map₀) s op s') : Inv (freeUnits map₀) s' := by
  cases hstep with
  | alloc hpos heq =>
    obtain ⟨r, m, halloc, hwf, hlen, hspec⟩ := alloc_spec h.wf hpos
    obtain ⟨rfl, rfl⟩ : r = _ ∧ m = _ := by simpa using halloc.symm.trans heq
    exact ⟨hwf, hspec.subset.trans h.sub, hlen ▸ h.begin_lt⟩
  | allocNext hpos heq =>
    obtain ⟨r, m, b, halloc, hwf, hlen, hb, hspec, -⟩ := allocNext_spec h.wf h.begin_lt hpos
    obtain ⟨rfl, rfl, rfl⟩ : r = _ ∧ m = _ ∧ b = _ := by simpa using halloc.symm.trans heq
    exact ⟨hwf, hspec.subset.trans h.sub, hlen ▸ hb⟩
  | free hpool hdisj heq =>
    obtain ⟨m, hfree, hwf, hlen, hunits⟩ := h.freed h₀ hok hpool hdisj
    obtain rfl : m = _ := by simpa using hfree.symm.trans heq
    exact ⟨hwf, hunits ▸ Set.union_subset h.sub hpool, hlen ▸ h.begin_lt⟩

/-- **The extent map over a whole run.**  From a well formed map, whatever
sequence of allocations and of returns of allocated ranges is made, as long as
the array has room for one more entry whenever a range is given back: the list
stays well formed, no access leaves the array, and every further operation does
to the set of free units exactly what it should. -/
theorem extentMap_run {map₀ : List MapNode} (h₀ : WellFormed map₀) {beginNode₀ : ℕ}
    (hbegin : beginNode₀ < map₀.length) {s : MapState}
    (hrun : Runs (Step (freeUnits map₀)) (fun s op => op.Admissible s) ⟨map₀, beginNode₀⟩ s) :
    WellFormed s.map ∧
      (∀ size : UInt32, 0 < size → ∃ retIdx map', alloc s.map size = some (retIdx, map') ∧
        WellFormed map' ∧ Allocated s.map size retIdx map') ∧
      (∀ size : UInt32, 0 < size → ∃ retIdx map' beginNode',
        allocNext s.map size s.beginNode = some (retIdx, map', beginNode') ∧ WellFormed map' ∧
          Allocated s.map size retIdx map' ∧
          ((∀ n ∈ s.map, n.mSize < size) → beginNode' = s.beginNode)) ∧
      (∀ size addrIdx : UInt32,
        Set.Ico addrIdx.toNat (addrIdx.toNat + size.toNat) ⊆ freeUnits map₀ →
        Disjoint (Set.Ico addrIdx.toNat (addrIdx.toNat + size.toNat)) (freeUnits s.map) →
        HasRoom s.map → ∃ map', free s.map size addrIdx = some map' ∧ WellFormed map' ∧
          freeUnits map' =
            freeUnits s.map ∪ Set.Ico addrIdx.toNat (addrIdx.toNat + size.toNat)) := by
  have hinv : Inv (freeUnits map₀) s :=
    hrun.invariant (Inv.step h₀) ⟨h₀, Set.Subset.rfl, hbegin⟩
  refine ⟨hinv.wf, fun size hpos => ?_, fun size hpos => ?_, fun size addrIdx hpool hdisj hroom => ?_⟩
  · obtain ⟨r, m, halloc, hwf, -, hspec⟩ := alloc_spec hinv.wf hpos
    exact ⟨r, m, halloc, hwf, hspec⟩
  · obtain ⟨r, m, b, halloc, hwf, -, -, hspec, hb⟩ := allocNext_spec hinv.wf hinv.begin_lt hpos
    exact ⟨r, m, b, halloc, hwf, hspec, hb⟩
  · obtain ⟨m, hfree, hwf, -, hunits⟩ := hinv.freed h₀ hroom hpool hdisj
    exact ⟨m, hfree, hwf, hunits⟩

/-! ### A map of ten units in three slots -/

/-- Ten free units from 0 on, and two end marks. -/
def tenUnits : List MapNode := [⟨10, 0⟩, ⟨0, 0⟩, ⟨0, 0⟩]

theorem wellFormed_tenUnits : WellFormed tenUnits :=
  ⟨[⟨10, 0⟩], [⟨0, 0⟩, ⟨0, 0⟩], ⟨rfl, ⟨by decide, by decide⟩, by decide, by decide⟩, by decide⟩

theorem Ico_subset_tenUnits {a b : ℕ} (hb : b ≤ 10) : Set.Ico a b ⊆ freeUnits tenUnits := by
  rintro u ⟨-, hu⟩
  exact ⟨⟨10, 0⟩, by simp [tenUnits], by simp [lo], by simp only [stop]; simp; omega⟩

/-- Three units are taken by next fit and two of them are given back. -/
theorem extentMap_run_tenUnits :
    ∃ s : MapState, s.map = [⟨2, 0⟩, ⟨7, 3⟩, ⟨0, 0⟩] ∧ WellFormed s.map := by
  have hbegin : 0 < tenUnits.length := by decide
  have htake : Allocator.allocNext tenUnits 3 0 = some (0, [⟨7, 3⟩, ⟨0, 0⟩, ⟨0, 0⟩], 1) := by decide
  refine ⟨⟨_, 1⟩, rfl, (extentMap_run wellFormed_tenUnits hbegin ?_).1⟩
  refine ((Runs.refl _).tail (l := .allocNext 3) trivial (.allocNext (by decide) htake)).tail
    (l := .free 2 0) ?_ (.free (Ico_subset_tenUnits (by decide)) ?_ ?_)
  · show HasRoom _
    rw [HasRoom]; decide
  · rw [Set.disjoint_left]
    rintro u ⟨-, hu⟩ ⟨n, hn, h1, h2⟩
    simp only [List.mem_cons, List.not_mem_nil, or_false] at hn
    rcases hn with rfl | rfl | rfl
    · simp [lo, stop] at hu h1 h2; omega
    · simp [lo, stop] at h1 h2
    · simp [lo, stop] at h1 h2
  · decide

/-- **Room at the start is not enough.**  Three ranges given back one after the
other, none next to another, fill the three slots of the array, and the end mark
is gone. -/
theorem extentMap_overflow :
    ∃ s₀ s : MapState, WellFormed s₀.map ∧ HasRoom s₀.map ∧ s₀.beginNode < s₀.map.length ∧
      Runs (Step (freeUnits s₀.map)) (fun _ _ => True) s₀ s ∧ ¬ WellFormed s.map := by
  refine ⟨⟨tenUnits, 0⟩, ⟨[⟨1, 1⟩, ⟨1, 3⟩, ⟨1, 5⟩], 0⟩, wellFormed_tenUnits, ?_, by decide, ?_, ?_⟩
  · rw [HasRoom]; decide
  · have hdisj : ∀ (map : List MapNode) (a b : ℕ),
        (∀ n ∈ map, stop n ≤ a ∨ b ≤ lo n) → Disjoint (Set.Ico a b) (freeUnits map) := by
      intro map a b h
      rw [Set.disjoint_left]
      rintro u ⟨ha, hb⟩ ⟨n, hn, h1, h2⟩
      rcases h n hn with h | h <;> omega
    have h₀ : Allocator.alloc tenUnits 10 = some (0, [⟨0, 0⟩, ⟨0, 0⟩, ⟨0, 0⟩]) := by decide
    have h₁ : Allocator.free [⟨0, 0⟩, ⟨0, 0⟩, ⟨0, 0⟩] 1 1 =
      some [⟨1, 1⟩, ⟨0, 0⟩, ⟨0, 0⟩] := by decide
    have h₂ : Allocator.free [⟨1, 1⟩, ⟨0, 0⟩, ⟨0, 0⟩] 1 3 =
      some [⟨1, 1⟩, ⟨1, 3⟩, ⟨0, 0⟩] := by decide
    have h₃ : Allocator.free [⟨1, 1⟩, ⟨1, 3⟩, ⟨0, 0⟩] 1 5 =
      some [⟨1, 1⟩, ⟨1, 3⟩, ⟨1, 5⟩] := by decide
    refine ((((Runs.refl _).tail (l := .alloc 10) trivial (.alloc (by decide) h₀)).tail
      (l := .free 1 1) trivial (.free ?_ ?_ h₁)).tail
      (l := .free 1 3) trivial (.free ?_ ?_ h₂)).tail
      (l := .free 1 5) trivial (.free ?_ ?_ h₃)
    all_goals first
      | exact Ico_subset_tenUnits (by decide)
      | exact hdisj _ _ _ (by decide)
  · rintro ⟨es, zs, hs, hzs⟩
    obtain ⟨z, zs, rfl⟩ := List.exists_cons_of_ne_nil hzs
    have hz := hs.zero z (by simp)
    have hmem : z ∈ es ++ z :: zs := by simp
    rw [← hs.eq] at hmem
    simp only [List.mem_cons, List.not_mem_nil, or_false] at hmem
    rcases hmem with rfl | rfl | rfl <;> exact absurd hz (by decide)

end Allocator
end UnixV6pp
