import UnixV6pp.Lib.Extents
import UnixV6pp.Mm.Allocator

/-!
# The free list of a map

A well formed map is a separated list of free extents followed by end marks, and
stands for the set of its free units.  An allocation, first fit or next fit,
takes a prefix of one extent away and nothing else.

## Main definitions

* `WellFormed`, `HasRoom`, `freeUnits` — the free list, the room for one more
  entry, and the set of free units.
* `Allocated` — what an allocation does to the free units.

## Main results

* `alloc_spec`, `allocNext_spec` — the two allocations.
-/

namespace UnixV6pp
namespace Allocator

open Extents

/-- The first unit of a node. -/
def lo (n : MapNode) : ℕ := n.mAddressIdx.toNat

/-- The end of a node. -/
def stop (n : MapNode) : ℕ := n.mAddressIdx.toNat + n.mSize.toNat

/-- The set of free units a map records. -/
def freeUnits (map : List MapNode) : Set ℕ := units lo stop map

/-- The array is the free list `es` followed by the end marks `zs`. -/
structure Split (map es zs : List MapNode) : Prop where
  eq : map = es ++ zs
  /-- The entries are nonempty, sorted, disjoint and never adjacent. -/
  sep : Separated lo stop es
  /-- The entries lie in the 32-bit address space. -/
  bound : ∀ e ∈ es, stop e ≤ 2 ^ 32
  /-- Every slot after the free list has size zero. -/
  zero : ∀ z ∈ zs, z.mSize = 0

/-- The map holds a well formed free list, with at least one end mark. -/
def WellFormed (map : List MapNode) : Prop := ∃ es zs, Split map es zs ∧ zs ≠ []

/-- There is room for one more entry: a slot beyond the end mark. -/
def HasRoom (map : List MapNode) : Prop := 2 ≤ map.countP (·.mSize == 0)

/-! ### Nodes and end marks -/

theorem stop_of_zero {z : MapNode} (h : z.mSize = 0) : stop z = lo z := by simp [stop, lo, h]

theorem size_ne_zero_iff {n : MapNode} : n.mSize ≠ 0 ↔ lo n < stop n := by
  rw [← UInt32.toNat_inj.ne]
  simp only [lo, stop, UInt32.toNat_zero]
  omega

theorem Split.ne_zero {map es zs : List MapNode} (h : Split map es zs) {e : MapNode}
    (he : e ∈ es) : e.mSize ≠ 0 := size_ne_zero_iff.mpr (h.sep.lt e he)

/-- End marks cover nothing. -/
theorem Split.freeUnits_eq {map es zs : List MapNode} (h : Split map es zs) :
    freeUnits map = units lo stop es := by
  have hz : units lo stop zs = ∅ := units_eq_empty fun z hz => (stop_of_zero (h.zero z hz)).le
  rw [freeUnits, h.eq, units_append, hz, Set.union_empty]

/-- Where all free units are, the entries are. -/
theorem Split.within {map es zs : List MapNode} (h : Split map es zs) {a b : ℕ}
    (hsub : freeUnits map ⊆ Set.Ico a b) : ∀ e ∈ es, a ≤ lo e ∧ stop e ≤ b := by
  intro e he
  have hlt := h.sep.lt e he
  have hunit : ∀ u, lo e ≤ u → u < stop e → u ∈ Set.Ico a b := by
    intro u hlo hhi
    apply hsub
    rw [h.freeUnits_eq]
    exact ⟨e, he, hlo, hhi⟩
  have hfirst := hunit (lo e) le_rfl hlt
  have hlast := hunit (stop e - 1) (by omega) (by omega)
  simp only [Set.mem_Ico] at hfirst hlast
  omega

theorem Split.countP {map es zs : List MapNode} (h : Split map es zs) :
    map.countP (·.mSize == 0) = zs.length := by
  have he : es.countP (·.mSize == 0) = 0 :=
    List.countP_eq_zero.mpr fun e he => by simpa using h.ne_zero he
  have hz : zs.countP (·.mSize == 0) = zs.length :=
    List.countP_eq_length.mpr fun z hz => by simpa using h.zero z hz
  rw [h.eq, List.countP_append, he, hz, Nat.zero_add]

/-- A node of nonzero size lies in the free list. -/
theorem Split.entry {map es zs l r : List MapNode} {n : MapNode} (h : Split map es zs)
    (hmap : map = l ++ n :: r) (hn : n.mSize ≠ 0) : ∃ r', es = l ++ n :: r' ∧ r = r' ++ zs := by
  rcases List.append_eq_append_iff.mp (h.eq.symm.trans hmap) with ⟨as, hl, hz⟩ | ⟨bs, hes, hr⟩
  · exact absurd (h.zero n (by rw [hz]; simp)) hn
  · cases bs with
    | nil => exact absurd (h.zero n (by simp only [List.nil_append] at hr; simp [← hr])) hn
    | cons b bs =>
      rw [List.cons_append, List.cons.injEq] at hr
      exact ⟨bs, by rw [hes, hr.1], hr.2⟩

/-- A node of size zero is an end mark, and so is everything after it. -/
theorem Split.mark {map es zs l r : List MapNode} {n : MapNode} (h : Split map es zs)
    (hmap : map = l ++ n :: r) (hn : n.mSize = 0) : ∃ l', l = es ++ l' ∧ zs = l' ++ n :: r := by
  rcases List.append_eq_append_iff.mp (h.eq.symm.trans hmap) with ⟨as, hl, hz⟩ | ⟨bs, hes, hr⟩
  · exact ⟨as, hl, hz⟩
  · cases bs with
    | nil =>
      rw [List.append_nil] at hes
      exact ⟨[], by simp [hes], by simpa using hr.symm⟩
    | cons b bs =>
      rw [List.cons_append, List.cons.injEq] at hr
      exact absurd hn (h.ne_zero (by rw [hes, hr.1]; simp))

/-! ### The pointer loops -/

/-- A pointer loop ends at the first node from `i` on that stops it. -/
theorem exists_advance {map : List MapNode} {i : ℕ} {halt : MapNode → Bool}
    (h : ∃ x ∈ map.drop i, halt x) :
    ∃ l x r, map = l ++ x :: r ∧ i ≤ l.length ∧ halt x ∧ (∀ a ∈ l.drop i, halt a = false) ∧
      advance map i halt = some l.length := by
  obtain ⟨k, hk⟩ := Option.isSome_iff_exists.mp (List.findIdx?_isSome.trans (List.any_eq_true.mpr h))
  obtain ⟨hlt, hx, hbefore⟩ := List.findIdx?_eq_some_iff_getElem.mp hk
  rw [List.length_drop] at hlt
  have hik : i + k < map.length := by omega
  refine ⟨map.take (i + k), map[i + k], map.drop (i + k + 1), ?_, ?_, ?_, ?_, ?_⟩
  · rw [List.getElem_cons_drop, List.take_append_drop]
  · rw [List.length_take]; omega
  · simpa using hx
  · intro a ha
    obtain ⟨j, hj, rfl⟩ := List.getElem_of_mem ha
    simp only [List.length_drop, List.length_take] at hj
    have := hbefore j (by omega)
    simpa using this
  · rw [advance, hk, List.length_take]
    simp; omega

theorem shiftDown_eq {r zs : List MapNode} {z : MapNode} (hr : ∀ n ∈ r, n.mSize ≠ 0)
    (hz : z.mSize = 0) :
    ∀ x : MapNode, shiftDown (x :: (r ++ z :: zs)) = some (r ++ ⟨0, 0⟩ :: z :: zs) := by
  induction r with
  | nil => intro x; simp [shiftDown, hz]
  | cons n r ih =>
    intro x
    have hn : n.mSize ≠ 0 := hr n (by simp)
    rw [List.cons_append, shiftDown, if_pos hn, ih (fun m hm => hr m (by simp [hm]))]
    rfl

theorem shiftUp_eq {r zs : List MapNode} {z : MapNode} (hr : ∀ n ∈ r, n.mSize ≠ 0)
    (hz : z.mSize = 0) :
    ∀ t : MapNode, shiftUp t (r ++ z :: zs) = some (t :: r ++ zs) := by
  induction r with
  | nil => intro t; simp [shiftUp, hz]
  | cons n r ih =>
    intro t
    have hn : n.mSize ≠ 0 := hr n (by simp)
    rw [List.cons_append, shiftUp, if_pos hn, ih (fun m hm => hr m (by simp [hm]))]
    rfl

/-! ### Allocation -/

/-- What an allocation that returns `retIdx` and leaves the array `map'` has
done: it has taken exactly `[retIdx, retIdx + size)` from the free units, or no
entry is large enough, the result is 0 and the array is as it was. -/
def Allocated (map : List MapNode) (size retIdx : UInt32) (map' : List MapNode) : Prop :=
  ((∃ n ∈ map, size ≤ n.mSize) ∧
      Set.Ico retIdx.toNat (retIdx.toNat + size.toNat) ⊆ freeUnits map ∧
      freeUnits map' = freeUnits map \ Set.Ico retIdx.toNat (retIdx.toNat + size.toNat)) ∨
    ((∀ n ∈ map, n.mSize < size) ∧ retIdx = 0 ∧ map' = map)

/-- Shortening a node from the front by less than its size. -/
theorem lo_shorten {n : MapNode} {size : UInt32} (hn : stop n ≤ 2 ^ 32)
    (hlt : size.toNat < n.mSize.toNat) :
    lo ⟨n.mSize - size, n.mAddressIdx + size⟩ = lo n + size.toNat ∧
      stop ⟨n.mSize - size, n.mAddressIdx + size⟩ = stop n := by
  have hle : size ≤ n.mSize := UInt32.le_iff_toNat_le.mpr hlt.le
  simp only [lo, stop] at hn ⊢
  rw [UInt32.toNat_add, UInt32.toNat_sub_of_le _ _ hle]
  omega

/-- **Taking units from one entry.** -/
theorem take_spec {map es zs l r : List MapNode} {n : MapNode} {size : UInt32}
    (h : Split map es zs) (hzs : zs ≠ []) (hes : es = l ++ n :: r) (hpos : 0 < size)
    (hfit : size ≤ n.mSize) :
    ∃ vanished map', take map l.length n size = some (n.mAddressIdx, vanished, map') ∧
      WellFormed map' ∧ map'.length = map.length ∧ Allocated map size n.mAddressIdx map' := by
  obtain ⟨z, zs, rfl⟩ := List.exists_cons_of_ne_nil hzs
  have hmap : map = l ++ n :: (r ++ z :: zs) := by rw [h.eq, hes]; simp
  have hmem : n ∈ es := by simp [hes]
  have hsep : Separated lo stop (l ++ n :: r) := hes ▸ h.sep
  have hbound : stop n ≤ 2 ^ 32 := h.bound n hmem
  have hrne : ∀ m ∈ r, m.mSize ≠ 0 := fun m hm => h.ne_zero (by simp [hes, hm])
  have hfit' : size.toNat ≤ n.mSize.toNat := UInt32.le_iff_toNat_le.mp hfit
  have hpos' : 0 < size.toNat := UInt32.lt_iff_toNat_lt.mp hpos
  have hsub : (n.mSize - size).toNat = n.mSize.toNat - size.toNat := UInt32.toNat_sub_of_le _ _ hfit
  have hprefix : Set.Ico (lo n) (lo n + size.toNat) ⊆ freeUnits map := by
    rw [h.freeUnits_eq]
    rintro u ⟨hu₁, hu₂⟩
    exact ⟨n, hmem, hu₁, by simp only [lo, stop] at hu₂ ⊢; omega⟩
  have hsome : ∃ m ∈ map, size ≤ m.mSize := ⟨n, by simp [hmap], hfit⟩
  by_cases hexact : n.mSize - size = 0
  · -- the entry is used up and closed over
    have hsize : size.toNat = n.mSize.toNat := by
      have := congrArg UInt32.toNat hexact
      rw [hsub, UInt32.toNat_zero] at this
      omega
    have hdown : shiftDown (⟨n.mSize - size, n.mAddressIdx + size⟩ :: map.drop (l.length + 1)) =
        some (r ++ ⟨0, 0⟩ :: z :: zs) := by
      rw [hmap, List.drop_length_add_append, List.drop_one, List.tail_cons]
      exact shiftDown_eq hrne (h.zero z (by simp)) _
    have hsplit : Split (l ++ (r ++ ⟨0, 0⟩ :: z :: zs)) (l ++ r) (⟨0, 0⟩ :: z :: zs) := by
      refine ⟨by simp, hsep.remove, fun e he => h.bound e ?_, fun w hw => ?_⟩
      · rw [hes]; simp only [List.mem_append, List.mem_cons] at he ⊢; tauto
      · rcases List.mem_cons.mp hw with rfl | hw
        · rfl
        · exact h.zero w hw
    refine ⟨true, _, by rw [take]; simp only [hexact, if_true]; rw [← hexact, hdown]; rfl, ?_, ?_, ?_⟩
    · rw [hmap, List.take_left' rfl]
      exact ⟨_, _, hsplit, by simp⟩
    · rw [hmap]; simp; omega
    · refine Or.inl ⟨hsome, hprefix, ?_⟩
      rw [hmap, List.take_left' rfl, hsplit.freeUnits_eq, ← hmap, h.freeUnits_eq, hes,
        units_remove hsep]
      simp only [lo, stop, hsize]
  · -- the entry keeps its end
    have hlt : size.toNat < n.mSize.toNat := by
      have : (n.mSize - size).toNat ≠ 0 := fun h0 => hexact (UInt32.toNat_inj.mp h0)
      omega
    obtain ⟨hlo', hstop'⟩ := lo_shorten hbound hlt
    set n' : MapNode := ⟨n.mSize - size, n.mAddressIdx + size⟩
    have hnlt : lo n' < stop n' := size_ne_zero_iff.mp hexact
    obtain ⟨-, -, -, hln, hnr, -⟩ := separated_middle.mp hsep
    have hsplit : Split (l ++ n' :: (r ++ z :: zs)) (l ++ n' :: r) (z :: zs) := by
      refine ⟨by simp, hsep.replace hnlt (fun a ha => ?_) (fun b hb => ?_), fun e he => ?_, h.zero⟩
      · have := hln a ha; omega
      · have := hnr b hb; omega
      · rcases List.mem_append.mp he with he | he
        · exact h.bound e (by simp [hes, he])
        · rcases List.mem_cons.mp he with rfl | he
          · omega
          · exact h.bound e (by simp [hes, he])
    refine ⟨false, l ++ n' :: (r ++ z :: zs), ?_, ⟨_, _, hsplit, by simp⟩, by rw [hmap]; simp, ?_⟩
    · rw [take, if_neg hexact, hmap]; simp [n']
    · refine Or.inl ⟨hsome, hprefix, ?_⟩
      rw [hsplit.freeUnits_eq, h.freeUnits_eq, hes, units_carve hsep (by omega) (by omega) hstop',
        hlo']
      rfl

/-- The units of a map whose entries are all too small are not touched. -/
theorem Allocated.none {map : List MapNode} {size : UInt32} (h : ∀ n ∈ map, n.mSize < size) :
    Allocated map size 0 map := Or.inr ⟨h, rfl, rfl⟩

/-- A pointer loop that starts inside the array and halts at end marks ends
inside it. -/
theorem WellFormed.exists_advance {map : List MapNode} (h : WellFormed map) {i : ℕ}
    (hi : i < map.length) (halt : MapNode → Bool) (hzero : ∀ n, n.mSize = 0 → halt n = true) :
    ∃ l x r, map = l ++ x :: r ∧ i ≤ l.length ∧ halt x ∧ (∀ a ∈ l.drop i, halt a = false) ∧
      advance map i halt = some l.length := by
  obtain ⟨es, zs, hs, hzs⟩ := h
  refine Allocator.exists_advance ⟨map.getLast (by rintro rfl; simp at hi), ?_, hzero _ ?_⟩
  · rw [← List.getLast_drop (i := i) (by simpa using hi)]
    exact List.getLast_mem _
  · have : map.getLast (by rintro rfl; simp at hi) = zs.getLast hzs := by
      simp only [hs.eq]; exact List.getLast_append_of_ne_nil _ hzs
    rw [this]
    exact hs.zero _ (List.getLast_mem hzs)

/-- **First fit.** -/
theorem alloc_spec {map : List MapNode} (h : WellFormed map) {size : UInt32} (hpos : 0 < size) :
    ∃ retIdx map', alloc map size = some (retIdx, map') ∧ WellFormed map' ∧
      map'.length = map.length ∧ Allocated map size retIdx map' := by
  have hlen : 0 < map.length := by
    obtain ⟨es, zs, hs, hzs⟩ := h
    rw [hs.eq, List.length_append]
    have := List.length_pos_iff.mpr hzs
    omega
  obtain ⟨l, n, r, hmap, -, hhalt, hbefore, hadv⟩ :=
    h.exists_advance hlen (fun n => n.mSize == 0 || size ≤ n.mSize)
      (fun n hn => by simp [hn])
  obtain ⟨es, zs, hs, hzs⟩ := id h
  have hget : map[l.length]? = some n := by rw [hmap]; simp
  by_cases hzero : n.mSize = 0
  · -- every entry before the end mark is too small
    refine ⟨0, map, by simp [alloc, hadv, hget, hzero], h, rfl, Allocated.none fun m hm => ?_⟩
    obtain ⟨l', hl, hz⟩ := hs.mark hmap hzero
    have hmarks : ∀ w ∈ zs, w.mSize < size := fun w hw => by rw [hs.zero w hw]; exact hpos
    rw [hmap, List.mem_append] at hm
    rcases hm with hm | hm
    · have := hbefore m (by simpa using hm)
      simp only [Bool.or_eq_false_iff, decide_eq_false_iff_not, UInt32.not_le] at this
      exact this.2
    · exact hmarks m (by rw [hz]; simp only [List.mem_append]; exact Or.inr hm)
  · obtain ⟨r', hes, -⟩ := hs.entry hmap hzero
    have hfit : size ≤ n.mSize := by simpa [hzero] using hhalt
    obtain ⟨vanished, map', htake, hwf, hl', hspec⟩ := take_spec hs hzs hes hpos hfit
    exact ⟨n.mAddressIdx, map', by simp [alloc, hadv, hget, hzero, htake], hwf, hl', hspec⟩

/-- **Next fit**, for every `beginNode` inside the array. -/
theorem allocNext_spec {map : List MapNode} (h : WellFormed map) {beginNode : ℕ}
    (hbegin : beginNode < map.length) {size : UInt32} (hpos : 0 < size) :
    ∃ retIdx map' beginNode', allocNext map size beginNode = some (retIdx, map', beginNode') ∧
      WellFormed map' ∧ map'.length = map.length ∧ beginNode' < map.length ∧
      Allocated map size retIdx map' ∧
      ((∀ n ∈ map, n.mSize < size) → beginNode' = beginNode) := by
  obtain ⟨l, n, r, hmap, hbl, hhalt, hbefore, hadv⟩ :=
    h.exists_advance hbegin (fun n => n.mSize == 0 || size ≤ n.mSize)
      (fun n hn => by simp [hn])
  obtain ⟨es, zs, hs, hzs⟩ := id h
  have hget : map[l.length]? = some n := by rw [hmap]; simp
  -- taking from an entry, whichever pass found it
  have hfound : ∀ {l₁ r₁ : List MapNode} {m : MapNode}, map = l₁ ++ m :: r₁ → size ≤ m.mSize →
      ∃ vanished map', take map l₁.length m size = some (m.mAddressIdx, vanished, map') ∧
        WellFormed map' ∧ map'.length = map.length ∧
        (if vanished then l₁.length else l₁.length + 1) < map.length ∧
        Allocated map size m.mAddressIdx map' := by
    intro l₁ r₁ m hm hfit
    have hne : m.mSize ≠ 0 := fun h0 => absurd hpos (UInt32.not_lt.mpr (h0 ▸ hfit))
    obtain ⟨r', hes, hr₁⟩ := hs.entry hm hne
    obtain ⟨vanished, map', htake, hwf, hlen, hspec⟩ := take_spec hs hzs hes hpos hfit
    refine ⟨vanished, map', htake, hwf, hlen, ?_, hspec⟩
    have hz := List.length_pos_iff.mpr hzs
    have hml : map.length = l₁.length + (r'.length + zs.length + 1) := by rw [hm, hr₁]; simp
    split <;> omega
  by_cases hzero : n.mSize = 0
  · -- nothing from `beginNode` on is large enough
    obtain ⟨l', hl, hz⟩ := hs.mark hmap hzero
    have hmarks : ∀ w ∈ zs, w.mSize < size := fun w hw => by rw [hs.zero w hw]; exact hpos
    have hback : ∀ m ∈ map.drop beginNode, m.mSize < size := by
      intro m hm
      rw [hmap, List.drop_append_of_le_length hbl, List.mem_append] at hm
      rcases hm with hm | hm
      · have := hbefore m hm
        simp only [Bool.or_eq_false_iff, decide_eq_false_iff_not, UInt32.not_le] at this
        exact this.2
      · exact hmarks m (by rw [hz]; simp only [List.mem_append]; exact Or.inr hm)
    cases hfind : (map.take beginNode).findIdx? fun n => size ≤ n.mSize with
    | none =>
      have hall : ∀ m ∈ map, m.mSize < size := by
        intro m hm
        rw [← List.take_append_drop beginNode map, List.mem_append] at hm
        rcases hm with hm | hm
        · simpa using List.findIdx?_eq_none_iff.mp hfind m hm
        · exact hback m hm
      exact ⟨0, map, beginNode, by simp [allocNext, hadv, hget, hzero, hfind], h, rfl, hbegin,
        Allocated.none hall, fun _ => rfl⟩
    | some k =>
      obtain ⟨hk, hfit, -⟩ := List.findIdx?_eq_some_iff_getElem.mp hfind
      rw [List.length_take] at hk
      have hkm : k < map.length := by omega
      have hsplit : map = map.take k ++ map[k] :: map.drop (k + 1) := by
        rw [List.getElem_cons_drop, List.take_append_drop]
      have hfit' : size ≤ map[k].mSize := by simpa using hfit
      obtain ⟨vanished, map', htake, hwf, hlen, hb, hspec⟩ := hfound hsplit hfit'
      have hkl : (map.take k).length = k := by rw [List.length_take]; omega
      rw [hkl] at htake hb
      refine ⟨_, map', _, by simp [allocNext, hadv, hget, hzero, hfind, hkm, htake], hwf, hlen,
        hb, hspec, fun hall => ?_⟩
      exact absurd hfit' (UInt32.not_le.mpr (hall _ (List.getElem_mem hkm)))
  · have hfit : size ≤ n.mSize := by simpa [hzero] using hhalt
    obtain ⟨vanished, map', htake, hwf, hlen, hb, hspec⟩ := hfound hmap hfit
    refine ⟨_, map', _, by simp [allocNext, hadv, hget, hzero, htake], hwf, hlen, hb, hspec,
      fun hall => ?_⟩
    exact absurd hfit (UInt32.not_le.mpr (hall n (by simp [hmap])))

end Allocator
end UnixV6pp
