import UnixV6pp.Lib.Stretches
import UnixV6pp.Mm.NextFit
import UnixV6pp.Mm.PageManager

/-!
# The live ranges of a map

No loop of `Free` looks at the size of the array.  What keeps the map inside it is that between
two entries there is always something allocated: a map has at most one entry more than there are
maximal runs of allocated units.  A ledger beside the map keeps what is left of each allocation.
A range that is given back may be a part of an allocation, and an allocation may fall apart.

* `Ledger.Step` — a call together with the ledger.
* `Ledger.Kept` — the invariant, about an array that is two slots longer.
* `Ledger.whole_run` — nothing falls apart where parts are given back at an end only.
* `entries_run` — **how many entries a map has over a run**, and that it stays inside the array.
* `entries_overflow` — one allocation alone can fill the map of the swap area.
-/

namespace UnixV6pp
namespace Allocator

open Extents Stretches

variable {map map' map₀ : List MapNode} {size addrIdx retIdx : UInt32}

/-! ### Entries -/

/-- The number of entries, up to the first end mark. -/
def entries (map : List MapNode) : ℕ := (map.takeWhile (·.mSize ≠ 0)).length

theorem Split.entries_eq {es zs : List MapNode} (h : Split map es zs) :
    entries map = es.length := by
  have hes : ∀ e ∈ es, decide (e.mSize ≠ 0) = true := fun e he => decide_eq_true (h.ne_zero he)
  have hzs : zs.takeWhile (·.mSize ≠ 0) = [] := by
    cases zs with
    | nil => rfl
    | cons z zs =>
      have hz : ¬ decide (z.mSize ≠ 0) = true := by simp [h.zero z (by simp)]
      exact List.takeWhile_cons_of_neg hz
  rw [entries, h.eq, List.takeWhile_append_of_pos hes, hzs, List.append_nil]

theorem WellFormed.ends (h : WellFormed map) : Ends map := by
  obtain ⟨es, zs, hs, hzs⟩ := h
  obtain ⟨z, zs, rfl⟩ := List.exists_cons_of_ne_nil hzs
  exact ⟨z, by simp [hs.eq], hs.zero z (by simp)⟩

/-! ### Two more slots -/

/-- Two end marks more than the array has. -/
def marks : List MapNode := [⟨0, 0⟩, ⟨0, 0⟩]

theorem zero_of_mem_marks {z : MapNode} (h : z ∈ marks) : z.mSize = 0 := by
  rcases List.mem_pair.mp h with rfl | rfl <;> rfl

/-- The map in an array that is two slots longer. -/
def MapState.padded (s : MapState) : MapState := ⟨s.map ++ marks, s.beginNode⟩

theorem freeUnits_marks : freeUnits (map ++ marks) = freeUnits map := by
  have hmarks : units lo stop marks = ∅ :=
    units_eq_empty fun z hz => (stop_of_zero (zero_of_mem_marks hz)).le
  rw [freeUnits, units_append, hmarks, Set.union_empty, freeUnits]

/-- The longer array has room for one more entry. -/
theorem hasRoom_marks : HasRoom (map ++ marks) := by
  have hmarks : marks.countP (·.mSize == 0) = 2 := rfl
  rw [HasRoom, List.countP_append, hmarks]
  omega

/-- The entries of the longer array are those of the array. -/
theorem exists_split (h : WellFormed (map ++ marks)) : ∃ es zs, Split map es zs := by
  obtain ⟨es, zs, hs, -⟩ := h
  rcases List.append_eq_append_iff.mp hs.eq with ⟨as, hes, hmarks⟩ | ⟨bs, hmap, hzs⟩
  · -- nothing of an entry is among the two additional marks
    have hnil : as = [] := by
      refine List.eq_nil_iff_forall_not_mem.mpr fun n hn => ?_
      have hentry : n ∈ es := by simp [hes, hn]
      exact hs.ne_zero hentry (zero_of_mem_marks (by simp [hmarks, hn]))
    rw [hnil, List.append_nil] at hes
    exact ⟨es, [], by simp [hes], hs.sep, hs.bound, by simp⟩
  · exact ⟨es, bs, hmap, hs.sep, hs.bound, fun z hz => hs.zero z (by simp [hzs, hz])⟩

/-- An extent that is found in the longer array is one of the array. -/
theorem exists_marks (hpos : 0 < size) (h : ∃ n ∈ map ++ marks, size ≤ n.mSize) :
    ∃ n ∈ map, size ≤ n.mSize := by
  obtain ⟨n, hn, hfit⟩ := h
  rcases List.mem_append.mp hn with hn | hn
  · exact ⟨n, hn, hfit⟩
  · rw [zero_of_mem_marks hn] at hfit
    exact absurd hfit (UInt32.not_le.mpr hpos)

/-! ### The ledger -/

/-- A map and what is left of the ranges that were allocated from it. -/
structure Ledger where
  state : MapState
  /-- The pieces of each allocation. -/
  live : List (List (ℕ × ℕ))

namespace Ledger

/-- What is left, whoever it belongs to. -/
def pieces (g : Ledger) : List (ℕ × ℕ) := g.live.flatten

/-- The allocations of which something is left. -/
def allocations (g : Ledger) : ℕ := g.live.countP (· ≠ [])

/-- The allocated units of a pool that `map₀` was at the start. -/
def allocated (map₀ : List MapNode) (g : Ledger) : Set ℕ := freeUnits map₀ \ freeUnits g.state.map

/-- An allocation is put down, if there is an extent for it. -/
def noted (g : Ledger) (size retIdx : UInt32) : List (List (ℕ × ℕ)) :=
  if g.state.hasExtent size then [(retIdx.toNat, retIdx.toNat + size.toNat)] :: g.live else g.live

/-- One call of the allocator.  What is given back is an allocation or a part of one, all of it
still allocated. -/
inductive Step : Ledger → Op → Ledger → Prop
  | alloc {g : Ledger} {size retIdx : UInt32} {map' : List MapNode} (hpos : 0 < size)
      (h : Allocator.alloc g.state.map size = some (retIdx, map')) :
      Step g (.alloc size) ⟨⟨map', g.state.beginNode⟩, g.noted size retIdx⟩
  | allocNext {g : Ledger} {size retIdx : UInt32} {map' : List MapNode} {beginNode' : ℕ}
      (hpos : 0 < size)
      (h : Allocator.allocNext g.state.map size g.state.beginNode =
        some (retIdx, map', beginNode')) :
      Step g (.allocNext size) ⟨⟨map', beginNode'⟩, g.noted size retIdx⟩
  | free {s : MapState} {L R : List (List (ℕ × ℕ))} {l r : List (ℕ × ℕ)} {p : ℕ × ℕ}
      {size addrIdx : UInt32} {map' : List MapNode} (hlo : p.1 ≤ addrIdx.toNat)
      (hhi : addrIdx.toNat + size.toNat ≤ p.2)
      (h : Allocator.free s.map size addrIdx = some map') :
      Step ⟨s, L ++ (l ++ p :: r) :: R⟩ (.free size addrIdx)
        ⟨⟨map', s.beginNode⟩,
          L ++ (l ++ (remains p addrIdx.toNat (addrIdx.toNat + size.toNat) ++ r)) :: R⟩

/-- The invariant of a run, of which the map may also fill the whole array. -/
structure Kept (map₀ : List MapNode) (g : Ledger) : Prop where
  inv : Inv (freeUnits map₀) g.state.padded
  length : g.state.map.length = map₀.length
  pieces : Pieces g.pieces (g.allocated map₀)

variable {g g' : Ledger} {op : Op} {beginNode' : ℕ}

/-- What an allocation does to the ledger. -/
theorem Kept.took (h : Kept map₀ g) (hpos : 0 < size) (hwf : WellFormed (map' ++ marks))
    (hlen : (map' ++ marks).length = (g.state.map ++ marks).length)
    (hbegin : beginNode' < (map' ++ marks).length)
    (hspec : Allocated (g.state.map ++ marks) size retIdx (map' ++ marks)) :
    Kept map₀ ⟨⟨map', beginNode'⟩, g.noted size retIdx⟩ := by
  have hsub := hspec.subset.trans h.inv.sub
  have hlen' : map'.length = map₀.length := by
    rw [List.length_append, List.length_append, Nat.add_right_cancel_iff] at hlen
    exact hlen.trans h.length
  refine ⟨⟨hwf, hsub, hbegin⟩, hlen', ?_⟩
  rcases hspec with ⟨hsome, hrange, hfree⟩ | ⟨hnone, -, hsame⟩
  · rw [freeUnits_marks] at hrange
    rw [freeUnits_marks, freeUnits_marks] at hfree
    have hextent : g.state.hasExtent size = true := by
      obtain ⟨n, hn, hfit⟩ := exists_marks hpos hsome
      exact List.any_eq_true.mpr ⟨n, hn, decide_eq_true hfit⟩
    have hpool : Set.Ico retIdx.toNat (retIdx.toNat + size.toNat) ⊆ freeUnits map₀ := by
      refine hrange.trans ?_
      rw [← freeUnits_marks]
      exact h.inv.sub
    have hnew : freeUnits map₀ \ freeUnits map' =
        Set.Ico retIdx.toNat (retIdx.toNat + size.toNat) ∪ g.allocated map₀ := by
      rw [hfree, Set.sdiff_sdiff_right, Set.inter_eq_self_of_subset_right hpool, Set.union_comm,
        allocated]
    have hlt : 0 < size.toNat := UInt32.lt_iff_toNat_lt.mp hpos
    have hdisj : Disjoint (Set.Ico retIdx.toNat (retIdx.toNat + size.toNat))
        (g.allocated map₀) := (Set.disjoint_sdiff_right).mono_left hrange
    have hcons := h.pieces.cons (p := (retIdx.toNat, retIdx.toNat + size.toNat))
      (Nat.lt_add_of_pos_right hlt) hdisj
    rw [allocated, Ledger.pieces, noted, if_pos hextent, hnew]
    exact hcons
  · have hextent : ¬ g.state.hasExtent size = true := by
      intro hextent
      obtain ⟨n, hn, hfit⟩ := List.any_eq_true.mp hextent
      exact absurd (hnone n (by simp [hn])) (UInt32.not_lt.mpr (of_decide_eq_true hfit))
    obtain rfl : map' = g.state.map := List.append_cancel_right hsame
    rw [allocated, Ledger.pieces, noted, if_neg hextent]
    exact h.pieces

/-- What is allocated can be given back, if there is room. -/
theorem freed_of_allocated (h₀ : WellFormed (map₀ ++ marks)) {s : MapState}
    (h : Inv (freeUnits map₀) s) (hroom : HasRoom s.map)
    (hsub : Set.Ico addrIdx.toNat (addrIdx.toNat + size.toNat) ⊆
      freeUnits map₀ \ freeUnits s.map) : Freed s.map size addrIdx := by
  have hinv : Inv (freeUnits (map₀ ++ marks)) s := by
    rw [freeUnits_marks]
    exact h
  refine hinv.freed h₀ hroom ?_ (Set.disjoint_of_subset_left hsub Set.disjoint_sdiff_left)
  rw [freeUnits_marks]
  exact hsub.trans Set.sdiff_subset

theorem Kept.step (h₀ : WellFormed (map₀ ++ marks)) (h : Kept map₀ g) (hstep : Step g op g') :
    Kept map₀ g' := by
  cases hstep with
  | alloc hpos heq =>
    obtain ⟨r, m, halloc, hwf, hlen, hspec⟩ := alloc_spec h.inv.wf hpos
    obtain ⟨rfl, rfl⟩ : _ = r ∧ _ = m := by simpa using (alloc_append heq).symm.trans halloc
    exact h.took hpos hwf hlen (hlen ▸ h.inv.begin_lt) hspec
  | allocNext hpos heq =>
    obtain ⟨r, m, b, halloc, hwf, hlen, hb, hspec, -⟩ :=
      allocNext_spec h.inv.wf h.inv.begin_lt hpos
    obtain ⟨rfl, rfl, rfl⟩ : _ = r ∧ _ = m ∧ _ = b := by
      simpa using (allocNext_append heq).symm.trans halloc
    exact h.took hpos hwf hlen (hlen ▸ hb) hspec
  | @free s L R l r p size addrIdx map' hlo hhi heq =>
    have hflat : ∀ ps : List (ℕ × ℕ), (L ++ (l ++ (ps ++ r)) :: R).flatten =
        (L.flatten ++ l) ++ (ps ++ (r ++ R.flatten)) := fun ps => by simp
    have hpieces : Pieces ((L.flatten ++ l) ++ p :: (r ++ R.flatten))
        (freeUnits map₀ \ freeUnits s.map) := hflat [p] ▸ h.pieces
    have hsub : Set.Ico addrIdx.toNat (addrIdx.toNat + size.toNat) ⊆
        freeUnits map₀ \ freeUnits s.map := by
      rw [← hpieces.units_eq]
      exact fun u hu => ⟨p, by simp, hlo.trans hu.1, hu.2.trans_le hhi⟩
    obtain ⟨long, hfree, hwf, hlen, hunits⟩ : Freed (s.map ++ marks) size addrIdx := by
      refine freed_of_allocated h₀ h.inv hasRoom_marks ?_
      rwa [MapState.padded, freeUnits_marks]
    obtain rfl : map' ++ marks = long := by simpa using (free_append heq).symm.trans hfree
    have hunion : freeUnits map' =
        freeUnits s.map ∪ Set.Ico addrIdx.toNat (addrIdx.toNat + size.toNat) := by
      rwa [freeUnits_marks, freeUnits_marks] at hunits
    refine ⟨⟨hwf, ?_, hlen ▸ h.inv.begin_lt⟩, ?_, ?_⟩
    · change freeUnits (map' ++ marks) ⊆ freeUnits map₀
      rw [freeUnits_marks, hunion]
      exact Set.union_subset (freeUnits_marks ▸ h.inv.sub) (hsub.trans Set.sdiff_subset)
    · change map'.length = map₀.length
      rw [List.length_append, List.length_append, Nat.add_right_cancel_iff] at hlen
      exact hlen.trans h.length
    · rw [allocated, Ledger.pieces, hflat, hunion, ← Set.sdiff_sdiff]
      exact hpieces.cut hlo hhi

theorem Kept.run (h₀ : WellFormed (map₀ ++ marks)) {beginNode₀ : ℕ}
    (hbegin : beginNode₀ < map₀.length)
    (hrun : Runs Step (fun _ _ => True) ⟨⟨map₀, beginNode₀⟩, []⟩ g) : Kept map₀ g := by
  refine hrun.invariant (fun _ _ _ h _ hstep => h.step h₀ hstep) ⟨⟨h₀, ?_, ?_⟩, rfl, ?_⟩
  · change freeUnits (map₀ ++ marks) ⊆ freeUnits map₀
    rw [freeUnits_marks]
  · change beginNode₀ < (map₀ ++ marks).length
    rw [List.length_append]
    exact Nat.lt_add_right _ hbegin
  · rw [allocated, Set.sdiff_self]
    exact Pieces.nil

/-- In an array with two slots to spare the longer array is not needed. -/
theorem Kept.room (h : Kept map₀ g) (hshort : entries g.state.map + 2 ≤ map₀.length) :
    Inv (freeUnits map₀) ⟨g.state.map, 0⟩ ∧ HasRoom g.state.map := by
  obtain ⟨es, zs, hs⟩ := exists_split h.inv.wf
  have hlen := congrArg List.length hs.eq
  rw [List.length_append, h.length] at hlen
  rw [hs.entries_eq] at hshort
  have hzs : 2 ≤ zs.length := by omega
  have hpos : 0 < g.state.map.length := by
    rw [h.length]
    omega
  have hwf : WellFormed g.state.map := ⟨es, zs, hs, List.ne_nil_of_length_pos (by omega)⟩
  refine ⟨⟨hwf, freeUnits_marks ▸ h.inv.sub, hpos⟩, ?_⟩
  rwa [HasRoom, hs.countP]

/-! ### What falls apart -/

/-- Every allocation is left in one piece, if anything of it is left. -/
def Whole (g : Ledger) : Prop := ∀ A ∈ g.live, A.length ≤ 1

/-- A part is given back at an end of its piece only. -/
def Trims (g : Ledger) : Op → Prop
  | .free size addrIdx => ∀ p ∈ g.pieces, p.1 ≤ addrIdx.toNat →
      addrIdx.toNat + size.toNat ≤ p.2 → addrIdx.toNat = p.1 ∨ addrIdx.toNat + size.toNat = p.2
  | _ => True

theorem Whole.noted (h : Whole g) : ∀ A ∈ g.noted size retIdx, A.length ≤ 1 := by
  intro A hA
  unfold Ledger.noted at hA
  split at hA
  · rcases List.mem_cons.mp hA with rfl | hA
    · rfl
    · exact h A hA
  · exact h A hA

theorem Whole.step (h : Whole g) (hok : g.Trims op) (hstep : Step g op g') : Whole g' := by
  cases hstep with
  | alloc hpos heq => exact h.noted
  | allocNext hpos heq => exact h.noted
  | @free s L R l r p size addrIdx map' hlo hhi heq =>
    intro A hA
    rcases List.mem_append.mp hA with hA | hA
    · exact h A (by simp [hA])
    · rcases List.mem_cons.mp hA with rfl | hA
      · have hend := hok p (by simp [Ledger.pieces]) hlo hhi
        have hone : (remains p addrIdx.toNat (addrIdx.toNat + size.toNat)).length ≤ 1 :=
          length_remains_le (hend.imp le_of_eq ge_of_eq)
        have hold : (l ++ p :: r).length ≤ 1 := h (l ++ p :: r) (by simp)
        simp only [List.length_append, List.length_cons] at hold ⊢
        omega
      · exact h A (by simp [hA])

/-- **Nothing falls apart** where parts are given back at an end only. -/
theorem whole_run {s : MapState} (hrun : Runs Step Trims ⟨s, []⟩ g) : Whole g :=
  hrun.invariant (fun _ _ _ h hok hstep => h.step hok hstep) fun _ hA => absurd hA List.not_mem_nil

theorem length_flatten_of_le_one {α : Type*} {ls : List (List α)} (h : ∀ l ∈ ls, l.length ≤ 1) :
    ls.flatten.length = ls.countP (· ≠ []) := by
  induction ls with
  | nil => rfl
  | cons l ls ih =>
    have hl := h l (by simp)
    have hrest := ih fun l' hl' => h l' (by simp [hl'])
    rw [List.flatten_cons, List.length_append, hrest, List.countP_cons, Nat.add_comm]
    cases l with
    | nil => rfl
    | cons a l =>
      rw [List.length_cons] at hl
      obtain rfl : l = [] := List.length_eq_zero_iff.mp (by omega)
      simp

/-- Then there are as many pieces as allocations. -/
theorem Whole.length_pieces (h : Whole g) : g.pieces.length = g.allocations :=
  length_flatten_of_le_one h

end Ledger

/-! ### The number of entries -/

/-- **The array is long enough.**  Over any run from a map of one range the entries are at most one
more than the maximal runs of allocated units, and these no more than the pieces that are left of
the allocations; as many as the allocations, where parts are given back at an end only.  As long
as the runs are fewer than the slots without two, there is an end mark, and whatever is allocated
can be given back inside the array, which leaves an end mark again. -/
theorem entries_run {e : MapNode} {zs₀ : List MapNode} (h₀ : Split map₀ [e] zs₀) {beginNode₀ : ℕ}
    (hbegin : beginNode₀ < map₀.length) {g : Ledger}
    (hrun : Runs Ledger.Step (fun _ _ => True) ⟨⟨map₀, beginNode₀⟩, []⟩ g) :
    entries g.state.map ≤ (runs (g.allocated map₀)).ncard + 1 ∧
      (runs (g.allocated map₀)).ncard ≤ g.pieces.length ∧
      (Runs Ledger.Step Ledger.Trims ⟨⟨map₀, beginNode₀⟩, []⟩ g →
        g.pieces.length = g.allocations) ∧
      ((runs (g.allocated map₀)).ncard + 2 < map₀.length → Ends g.state.map ∧
        ∀ size addrIdx : UInt32,
          Set.Ico addrIdx.toNat (addrIdx.toNat + size.toNat) ⊆ g.allocated map₀ →
          ∃ map', free g.state.map size addrIdx = some map' ∧ map'.length = map₀.length ∧
            Ends map') := by
  have hwf₀ : WellFormed (map₀ ++ marks) := by
    refine ⟨[e], zs₀ ++ marks, ⟨by rw [h₀.eq, List.append_assoc], h₀.sep, h₀.bound, ?_⟩, by
      simp [marks]⟩
    intro z hz
    exact (List.mem_append.mp hz).elim (h₀.zero z) zero_of_mem_marks
  have hkept := Ledger.Kept.run hwf₀ hbegin hrun
  have hpool : freeUnits map₀ = Set.Ico (lo e) (stop e) := by
    rw [h₀.freeUnits_eq, units_cons, units_nil, Set.union_empty]
  have hentries : entries g.state.map ≤ (runs (g.allocated map₀)).ncard + 1 := by
    obtain ⟨es, zs, hs⟩ := exists_split hkept.inv.wf
    have hsub : freeUnits g.state.map ⊆ Set.Ico (lo e) (stop e) := by
      rw [← hpool, ← freeUnits_marks]
      exact hkept.inv.sub
    have hfin := hkept.pieces.finite_runs
    rw [Ledger.allocated, hpool, hs.freeUnits_eq] at hfin ⊢
    rw [hs.entries_eq]
    exact length_le_ncard_runs hs.sep (hs.within hsub) hfin
  refine ⟨hentries, hkept.pieces.ncard_runs_le,
    fun htrims => (Ledger.whole_run htrims).length_pieces, fun hfew => ?_⟩
  obtain ⟨hinv, hroom⟩ := hkept.room (by omega)
  refine ⟨hinv.wf.ends, fun size addrIdx hsub => ?_⟩
  obtain ⟨map', hfree, hwf, hlen, -⟩ := Ledger.freed_of_allocated hwf₀ hinv hroom hsub
  exact ⟨map', hfree, hlen.trans hkept.length, hwf.ends⟩

/-! ### The swap area -/

/-- What `SwapperManager::Initialize` leaves: blocks 18000 to 19999 in an array of 512 nodes. -/
def swapMap : List MapNode := ⟨2000, 18000⟩ :: List.replicate 0x1ff ⟨0, 0⟩

theorem split_swapMap : Split swapMap [⟨2000, 18000⟩] (List.replicate 0x1ff ⟨0, 0⟩) := by
  refine ⟨rfl, ⟨?_, List.pairwise_singleton _ _⟩, ?_, ?_⟩
  · simp [lo, stop]
  · simp [stop]
  · intro z hz
    rw [List.eq_of_mem_replicate hz]

theorem length_swapMap : swapMap.length = 512 := by
  rw [swapMap, List.length_cons, List.length_replicate]

/-- Every second block from 18001 on. -/
def spot (i : ℕ) : UInt32 := UInt32.ofNat (18001 + 2 * i)

theorem toNat_spot {i : ℕ} (h : i ≤ 512) : (spot i).toNat = 18001 + 2 * i := by
  rw [spot, UInt32.toNat_ofNat', Nat.mod_eq_of_lt (by omega)]

/-- The whole swap area has been allocated at once, and `k` single blocks have been given back. -/
def scattered (k : ℕ) : Ledger where
  state := ⟨(List.range k).map (fun i => ⟨1, spot i⟩) ++ List.replicate (512 - k) ⟨0, 0⟩, 0⟩
  live := [(List.range k).map (fun i => (18000 + 2 * i, 18001 + 2 * i)) ++ [(18000 + 2 * k, 20000)]]

theorem allocations_scattered (k : ℕ) : (scattered k).allocations = 1 := by
  simp [Ledger.allocations, scattered]

theorem length_scattered {k : ℕ} (hk : k ≤ 512) : (scattered k).state.map.length = 512 := by
  simp [scattered, hk]

/-- The search of `Free` for a block behind all entries. -/
theorem not_behind {j i : ℕ} (hj : j < i) (hi : i ≤ 512) :
    behind (spot i) ⟨1, spot j⟩ = false := by
  have hle : spot j ≤ spot i := by
    rw [UInt32.le_iff_toNat_le, toNat_spot (by omega), toNat_spot hi]
    omega
  simp [behind, hle]

theorem advance_eq {l rest : List MapNode} {n : MapNode} {halt : MapNode → Bool}
    (hl : ∀ e ∈ l, halt e = false) (hn : halt n = true) :
    advance (l ++ n :: rest) 0 halt = some l.length := by
  have hnone : l.findIdx? halt = none := List.findIdx?_eq_none_iff.mpr hl
  simp [advance, List.findIdx?_append, hnone, List.findIdx?_cons, hn]

/-- One more block becomes an entry of its own. -/
theorem free_scattered {k : ℕ} (hk : k < 512) :
    free (scattered k).state.map 1 (spot k) = some (scattered (k + 1)).state.map := by
  obtain ⟨m, hm⟩ : ∃ m, 512 - k = m + 1 := ⟨511 - k, by omega⟩
  have hm' : 512 - (k + 1) = m := by omega
  simp only [scattered, hm, hm', List.replicate_succ, List.range_succ, List.map_append,
    List.map_singleton, List.append_assoc, List.singleton_append]
  have hbefore : ∀ e ∈ (List.range k).map (fun i => (⟨1, spot i⟩ : MapNode)),
      behind (spot k) e = false := by
    intro e he
    obtain ⟨j, hj, rfl⟩ := List.mem_map.mp he
    exact not_behind (List.mem_range.mp hj) hk.le
  rw [free_eq_right rfl (advance_eq hbefore (by simp [behind])) ?_]
  · simp [shiftUp]
  · -- the entry before it ends one block earlier
    intro last hlast hmeet
    obtain ⟨j, hj, rfl⟩ := List.mem_map.mp (List.mem_of_getLast? hlast)
    have hj := List.mem_range.mp hj
    have hnat := congrArg UInt32.toNat hmeet
    rw [UInt32.toNat_add, toNat_spot hk.le, toNat_spot (by omega), UInt32.toNat_one] at hnat
    omega

theorem step_scattered {k : ℕ} (hk : k < 512) :
    Ledger.Step (scattered k) (.free 1 (spot k)) (scattered (k + 1)) := by
  have hspot := toNat_spot hk.le
  have hremains : remains (18000 + 2 * k, 20000) (spot k).toNat
      ((spot k).toNat + (1 : UInt32).toNat) =
        [(18000 + 2 * k, 18001 + 2 * k), (18000 + 2 * (k + 1), 20000)] := by
    rw [hspot, UInt32.toNat_one, remains, if_pos (Nat.lt_succ_self _)]
    have hlt : 18002 + 2 * k < 20000 := by omega
    simp [show 18001 + 2 * k + 1 = 18000 + 2 * (k + 1) by omega]
    omega
  have hstep := Ledger.Step.free (s := (scattered k).state) (L := []) (R := [])
    (l := (List.range k).map fun i => (18000 + 2 * i, 18001 + 2 * i)) (r := [])
    (p := (18000 + 2 * k, 20000)) (by rw [hspot]; omega)
    (by rw [hspot, UInt32.toNat_one]; omega) (free_scattered hk)
  rw [hremains] at hstep
  simpa [scattered, List.range_succ] using hstep

/-- The whole of a range is taken at once. -/
theorem allocNext_whole {n : MapNode} {zs : List MapNode} (hn : n.mSize ≠ 0) :
    allocNext (n :: ⟨0, 0⟩ :: zs) n.mSize 0 =
      some (n.mAddressIdx, ⟨0, 0⟩ :: ⟨0, 0⟩ :: zs, 0) := by
  simp [allocNext, advance, List.findIdx?_cons, Allocator.take, shiftDown, hn]

theorem run_scattered {k : ℕ} (hk : k ≤ 512) :
    Runs Ledger.Step (fun g _ => g.allocations + 2 < g.state.map.length) ⟨⟨swapMap, 0⟩, []⟩
      (scattered k) := by
  induction k with
  | zero =>
    have hok : (⟨⟨swapMap, 0⟩, []⟩ : Ledger).allocations + 2 < swapMap.length := by
      rw [length_swapMap]
      decide
    have htake : allocNext swapMap 2000 0 = some (18000, (scattered 0).state.map, 0) :=
      allocNext_whole (n := ⟨2000, 18000⟩) (by decide)
    have hnoted : (⟨⟨swapMap, 0⟩, []⟩ : Ledger).noted 2000 18000 = (scattered 0).live := by
      rw [Ledger.noted, if_pos (by rw [MapState.hasExtent, swapMap, List.any_cons]; rfl)]
      rfl
    have hstep := Ledger.Step.allocNext (g := ⟨⟨swapMap, 0⟩, []⟩) (by decide) htake
    rw [hnoted] at hstep
    exact Runs.single hok hstep
  | succ k ih =>
    refine (ih (by omega)).tail ?_ (step_scattered (by omega))
    rw [allocations_scattered, length_scattered (by omega)]
    omega

/-- **One allocation can fill the array.**  The swap area is allocated at once and every second
block given back.  There is one allocation all the time; but at the end no end mark is left, and
the next block cannot be given back inside the array. -/
theorem entries_overflow :
    ∃ g, Runs Ledger.Step (fun g _ => g.allocations + 2 < g.state.map.length) ⟨⟨swapMap, 0⟩, []⟩ g ∧
      g.allocations = 1 ∧ g.state.map.length = 512 ∧ ¬ Ends g.state.map ∧
      ∃ p ∈ g.pieces, ∃ addrIdx : UInt32, p.1 ≤ addrIdx.toNat ∧ addrIdx.toNat + 1 ≤ p.2 ∧
        free g.state.map 1 addrIdx = none := by
  refine ⟨scattered 512, run_scattered le_rfl, allocations_scattered _, length_scattered le_rfl, ?_,
    (19024, 20000), by simp [Ledger.pieces, scattered], spot 512, ?_, ?_, ?_⟩
  · rintro ⟨n, hn, hzero⟩
    simp only [scattered, Nat.sub_self, List.replicate_zero, List.append_nil] at hn
    obtain ⟨j, -, rfl⟩ := List.mem_map.mp hn
    cases hzero
  · rw [toNat_spot le_rfl]; omega
  · rw [toNat_spot le_rfl]; omega
  · have hnone : advance (scattered 512).state.map 0 (behind (spot 512)) = none := by
      simp only [scattered, Nat.sub_self, List.replicate_zero, List.append_nil, advance,
        List.drop_zero, Option.map_eq_none_iff, List.findIdx?_eq_none_iff]
      intro e he
      obtain ⟨j, hj, rfl⟩ := List.mem_map.mp he
      exact not_behind (List.mem_range.mp hj) le_rfl
    unfold behind at hnone
    rw [free, hnone]
    rfl

/-- Three blocks have been given back out of the middle of the swap area. -/
theorem entries_run_scattered :
    entries (scattered 3).state.map ≤ (runs ((scattered 3).allocated swapMap)).ncard + 1 ∧
      Ends (scattered 3).state.map := by
  have hbegin : 0 < swapMap.length := by
    rw [length_swapMap]
    decide
  obtain ⟨hentries, hruns, -, hends⟩ := entries_run split_swapMap hbegin
    ((run_scattered (show 3 ≤ 512 by decide)).mono fun _ _ _ => trivial)
  have hpieces : (scattered 3).pieces.length = 4 := rfl
  have hlen := length_swapMap
  exact ⟨hentries, (hends (by omega)).1⟩

end Allocator
end UnixV6pp
