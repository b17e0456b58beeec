import UnixV6pp.Mm.ExtentMap

/-!
# Giving a range back to a map

`free` has four outcomes, by which of the neighbours the range touches: it joins
two entries, continues the one before it, leads up to the one behind it, or
becomes an entry of its own.  The search loop cuts the free list behind the
range, and the lemmas `Split.join`, `Split.extendLast`, `Split.extendNext` and
`Split.insert` describe the four arrays.

## Main results

* `free_spec` — giving a range back adds exactly that range.
-/

namespace UnixV6pp
namespace Allocator

open Extents

/-! ### The cut behind the range -/

/-- The search of `free` cuts the free list behind `addrIdx`. -/
theorem Split.exists_cut {map es zs : List MapNode} (h : Split map es zs) (hzs : zs ≠ [])
    (addrIdx : UInt32) :
    ∃ l r, es = l ++ r ∧ (∀ a ∈ l, lo a ≤ addrIdx.toNat) ∧
      (∀ n r', r = n :: r' → addrIdx.toNat < lo n) ∧
      advance map 0 (fun n => !(n.mAddressIdx ≤ addrIdx && n.mSize ≠ 0)) = some l.length := by
  have hlen : 0 < map.length := by
    rw [h.eq, List.length_append]
    have := List.length_pos_iff.mpr hzs
    omega
  obtain ⟨l, n, r, hmap, -, hhalt, hbefore, hadv⟩ :=
    WellFormed.exists_advance ⟨es, zs, h, hzs⟩ hlen
      (fun n => !(n.mAddressIdx ≤ addrIdx && n.mSize ≠ 0)) (fun n hn => by simp [hn])
  have hl : ∀ a ∈ l, lo a ≤ addrIdx.toNat ∧ a.mSize ≠ 0 := by
    intro a ha
    have := hbefore a (by simpa using ha)
    simpa [lo, UInt32.le_iff_toNat_le] using this
  by_cases hzero : n.mSize = 0
  · obtain ⟨l', hl', hz⟩ := h.mark hmap hzero
    have hnil : l' = [] := by
      refine List.eq_nil_iff_forall_not_mem.mpr fun a ha => ?_
      exact (hl a (by simp [hl', ha])).2 (h.zero a (by simp [hz, ha]))
    subst hnil
    rw [List.append_nil] at hl'
    exact ⟨l, [], by simp [hl'], fun a ha => (hl a ha).1, by simp, hadv⟩
  · obtain ⟨r', hes, -⟩ := h.entry hmap hzero
    refine ⟨l, n :: r', hes, fun a ha => (hl a ha).1, fun m r'' hm => ?_, hadv⟩
    obtain ⟨rfl, -⟩ := List.cons.inj hm
    simpa [lo, hzero, UInt32.lt_iff_toNat_lt] using hhalt

/-- Where a range that is not free lies between the entries around it. -/
structure Between (l r : List MapNode) (a b : ℕ) : Prop where
  /-- The entries before the range end at or before its start. -/
  left : a < b → ∀ e ∈ l, stop e ≤ a
  /-- The entries behind the range begin at or behind its end. -/
  right : ∀ e ∈ r, b ≤ lo e ∧ a < lo e

theorem between_of_disjoint {l r : List MapNode} {a b : ℕ} (hsep : Separated lo stop (l ++ r))
    (hdisj : Disjoint (Set.Ico a b) (units lo stop (l ++ r)))
    (hl : ∀ e ∈ l, lo e ≤ a) (hr : ∀ n r', r = n :: r' → a < lo n) : Between l r a b := by
  have hcover : ∀ e ∈ l ++ r, ∀ u, a ≤ u → u < b → lo e ≤ u → stop e ≤ u := by
    intro e he u hau hub hlo
    by_contra hlt
    exact Set.disjoint_left.mp hdisj ⟨hau, hub⟩ ⟨e, he, hlo, not_le.mp hlt⟩
  have hra : ∀ e ∈ r, a < lo e := by
    intro e he
    obtain _ | ⟨n, r'⟩ := r
    · simp at he
    · have hn := hr n r' rfl
      rcases List.mem_cons.mp he with rfl | he
      · exact hn
      · obtain ⟨-, hsr, -⟩ := separated_append.mp hsep
        obtain ⟨hlt, hnr, -⟩ := separated_cons.mp hsr
        have := hnr e he
        omega
  refine ⟨fun hlt e he => hcover e (by simp [he]) a le_rfl hlt (hl e he), fun e he => ⟨?_, hra e he⟩⟩
  by_contra hlt
  have h1 := hcover e (by simp [he]) (lo e) (hra e he).le (not_le.mp hlt) le_rfl
  have h2 := hsep.lt e (by simp [he])
  omega

/-! ### The four outcomes -/

theorem toNat_add_of_lt {a b : UInt32} (h : a.toNat + b.toNat < 2 ^ 32) :
    (a + b).toNat = a.toNat + b.toNat := by
  rw [UInt32.toNat_add, Nat.mod_eq_of_lt h]

section Free

variable {map l r zs : List MapNode} {n last z : MapNode} {size addrIdx : UInt32}

/-- The range closes the gap between `last` and `n`. -/
theorem Split.join (h : Split map (l ++ last :: n :: r) (z :: zs))
    (hlast : stop last = addrIdx.toNat) (hn : lo n = addrIdx.toNat + size.toNat)
    (hpart : stop n < lo last + 2 ^ 32) :
    let joined : MapNode := ⟨last.mSize + size + n.mSize, last.mAddressIdx⟩
    let map' := l ++ joined :: (r ++ ⟨0, 0⟩ :: z :: zs)
    Split map' (l ++ joined :: r) (⟨0, 0⟩ :: z :: zs) ∧
      freeUnits map' =
        freeUnits map ∪ Set.Ico addrIdx.toNat (addrIdx.toNat + size.toNat) := by
  intro joined map'
  have hsep' : Separated lo stop ((l ++ [last]) ++ n :: r) := by simpa using h.sep
  obtain ⟨-, -, hnlt, -, hnr, -⟩ := separated_middle.mp hsep'
  obtain ⟨hsl, hsr, hllt, hll, -, hlr⟩ := separated_middle.mp h.sep
  have hbn : stop n ≤ 2 ^ 32 := h.bound n (by simp)
  have hsize : joined.mSize.toNat = last.mSize.toNat + size.toNat + n.mSize.toNat := by
    simp only [lo, stop] at hlast hn hpart
    have h1 : (last.mSize + size).toNat = _ := toNat_add_of_lt (by omega)
    have h2 : (last.mSize + size + n.mSize).toNat = _ := toNat_add_of_lt (by omega)
    rw [h2, h1]
  have hlo : lo joined = lo last := rfl
  have hstop : stop joined = stop n := by
    simp only [lo, stop] at hlast hn ⊢
    rw [hsize]
    show last.mAddressIdx.toNat + _ = _
    omega
  have hsep : Separated lo stop (l ++ joined :: r) := by
    refine separated_middle.mpr ⟨hsl, (separated_cons.mp hsr).2.2, by omega, hll, fun b hb => ?_,
      fun a ha b hb => hlr a ha b (by simp [hb])⟩
    rw [hstop]
    exact hnr b hb
  have hsplit : Split map' (l ++ joined :: r) (⟨0, 0⟩ :: z :: zs) := by
    refine ⟨by simp [map'], hsep, fun e he => ?_, fun w hw => ?_⟩
    · rcases List.mem_append.mp he with he | he
      · exact h.bound e (by simp [he])
      · rcases List.mem_cons.mp he with rfl | he
        · omega
        · exact h.bound e (by simp [he])
    · rcases List.mem_cons.mp hw with rfl | hw
      · rfl
      · exact h.zero w hw
  refine ⟨hsplit, ?_⟩
  rw [hsplit.freeUnits_eq, h.freeUnits_eq,
    units_join (n := last) (m := n) hlo hstop hllt.le (by omega) hnlt.le, hlast, hn]

/-- The range continues `last` without reaching the next entry. -/
theorem Split.extendLast (h : Split map (l ++ last :: r) zs) (hlast : stop last = addrIdx.toNat)
    (hr : ∀ b ∈ r, addrIdx.toNat + size.toNat < lo b)
    (hbound : addrIdx.toNat + size.toNat ≤ 2 ^ 32)
    (hpart : addrIdx.toNat + size.toNat < lo last + 2 ^ 32) :
    let last' : MapNode := ⟨last.mSize + size, last.mAddressIdx⟩
    Split (l ++ last' :: (r ++ zs)) (l ++ last' :: r) zs ∧
      freeUnits (l ++ last' :: (r ++ zs)) =
        freeUnits map ∪ Set.Ico addrIdx.toNat (addrIdx.toNat + size.toNat) := by
  intro last'
  obtain ⟨-, -, hllt, hll, -, -⟩ := separated_middle.mp h.sep
  have hlo : lo last' = lo last := rfl
  have hstop : stop last' = addrIdx.toNat + size.toNat := by
    simp only [lo, stop] at hlast hpart
    show last.mAddressIdx.toNat + (last.mSize + size).toNat = _
    rw [toNat_add_of_lt (by omega)]
    omega
  have hsplit : Split (l ++ last' :: (r ++ zs)) (l ++ last' :: r) zs := by
    refine ⟨by simp, h.sep.replace (by omega) hll (by rw [hstop]; exact hr), fun e he => ?_, h.zero⟩
    rcases List.mem_append.mp he with he | he
    · exact h.bound e (by simp [he])
    · rcases List.mem_cons.mp he with rfl | he
      · omega
      · exact h.bound e (by simp [he])
  refine ⟨hsplit, ?_⟩
  rw [hsplit.freeUnits_eq, h.freeUnits_eq, units_extend_hi (n := last) hlo hllt.le (by omega), hstop,
    hlast]

/-- The range leads up to `n` without touching the entry before it. -/
theorem Split.extendNext (h : Split map (l ++ n :: r) zs)
    (hn : lo n = addrIdx.toNat + size.toNat) (hl : ∀ a ∈ l, stop a < addrIdx.toNat)
    (hpart : stop n < addrIdx.toNat + 2 ^ 32) :
    let n' : MapNode := ⟨n.mSize + size, addrIdx⟩
    Split (l ++ n' :: (r ++ zs)) (l ++ n' :: r) zs ∧
      freeUnits (l ++ n' :: (r ++ zs)) =
        freeUnits map ∪ Set.Ico addrIdx.toNat (addrIdx.toNat + size.toNat) := by
  intro n'
  obtain ⟨-, -, hnlt, -, hnr, -⟩ := separated_middle.mp h.sep
  have hbn : stop n ≤ 2 ^ 32 := h.bound n (by simp)
  have hlo : lo n' = addrIdx.toNat := rfl
  have hstop : stop n' = stop n := by
    simp only [lo, stop] at hn hpart ⊢
    show addrIdx.toNat + (n.mSize + size).toNat = _
    rw [toNat_add_of_lt (by omega)]
    omega
  have hsplit : Split (l ++ n' :: (r ++ zs)) (l ++ n' :: r) zs := by
    refine ⟨by simp, h.sep.replace (by omega) hl (by rw [hstop]; exact hnr), fun e he => ?_, h.zero⟩
    rcases List.mem_append.mp he with he | he
    · exact h.bound e (by simp [he])
    · rcases List.mem_cons.mp he with rfl | he
      · omega
      · exact h.bound e (by simp [he])
  refine ⟨hsplit, ?_⟩
  rw [hsplit.freeUnits_eq, h.freeUnits_eq, units_extend_lo (n := n) hstop (by omega) hnlt.le, hlo, hn]

/-- The range touches neither neighbour and becomes an entry of its own. -/
theorem Split.insert (h : Split map (l ++ r) (z :: zs)) (hpos : 0 < size.toNat)
    (hbound : addrIdx.toNat + size.toNat ≤ 2 ^ 32) (hl : ∀ a ∈ l, stop a < addrIdx.toNat)
    (hr : ∀ b ∈ r, addrIdx.toNat + size.toNat < lo b) :
    let n : MapNode := ⟨size, addrIdx⟩
    Split (l ++ n :: (r ++ zs)) (l ++ n :: r) zs ∧
      freeUnits (l ++ n :: (r ++ zs)) =
        freeUnits map ∪ Set.Ico addrIdx.toNat (addrIdx.toNat + size.toNat) := by
  intro n
  obtain ⟨hsl, hsr, hlr⟩ := separated_append.mp h.sep
  have hsplit : Split (l ++ n :: (r ++ zs)) (l ++ n :: r) zs := by
    refine ⟨by simp, separated_middle.mpr ⟨hsl, hsr, ?_, hl, hr, hlr⟩, fun e he => ?_,
      fun w hw => h.zero w (by simp [hw])⟩
    · simp only [lo, stop, n]; omega
    · rcases List.mem_append.mp he with he | he
      · exact h.bound e (by simp [he])
      · rcases List.mem_cons.mp he with rfl | he
        · exact hbound
        · exact h.bound e (by simp [he])
  refine ⟨hsplit, ?_⟩
  rw [hsplit.freeUnits_eq, h.freeUnits_eq, units_insert]
  rfl

end Free

/-! ### The comparisons of the source -/

/-- Some unit of the address space is neither free nor in the range. -/
def LeavesUnit (map : List MapNode) (size addrIdx : UInt32) : Prop :=
  ∃ u < 2 ^ 32, u ∉ freeUnits map ∧ ¬ (addrIdx.toNat ≤ u ∧ u < addrIdx.toNat + size.toNat)

/-- The end of an entry is an address equal to another one exactly when the
32-bit sum is. -/
theorem eq_stop_iff {n : MapNode} {a : UInt32} (hn : stop n ≤ 2 ^ 32) (hle : lo n ≤ a.toNat) :
    a = n.mAddressIdx + n.mSize ↔ stop n = a.toNat := by
  have ha := a.toNat_lt
  have hs := n.mSize.toNat_lt
  rw [← UInt32.toNat_inj, UInt32.toNat_add]
  simp only [lo, stop] at *
  omega

/-- The end of the range is the start of the entry behind it exactly when the
32-bit sum is. -/
theorem eq_lo_iff {n : MapNode} {size addrIdx : UInt32}
    (hrange : addrIdx.toNat + size.toNat ≤ 2 ^ 32) (hn : 0 < lo n) :
    addrIdx + size = n.mAddressIdx ↔ lo n = addrIdx.toNat + size.toNat := by
  have ha := n.mAddressIdx.toNat_lt
  rw [← UInt32.toNat_inj, UInt32.toNat_add]
  simp only [lo] at *
  omega

/-- The condition the search loop of `free` halts at. -/
def behind (addrIdx : UInt32) (n : MapNode) : Bool := !(n.mAddressIdx ≤ addrIdx && n.mSize ≠ 0)

/-- `free` when the range continues the entry before `pNode`. -/
theorem free_eq_left {map l rest : List MapNode} {last pNode : MapNode} {addrIdx : UInt32}
    (size : UInt32)
    (hmap : map = l ++ last :: pNode :: rest)
    (hadv : advance map 0 (behind addrIdx) = some (l.length + 1))
    (htouch : addrIdx = last.mAddressIdx + last.mSize) :
    free map size addrIdx =
      if addrIdx + size = pNode.mAddressIdx then
        (shiftDown (pNode :: rest)).map
          (l ++ ⟨last.mSize + size + pNode.mSize, last.mAddressIdx⟩ :: ·)
      else some (l ++ ⟨last.mSize + size, last.mAddressIdx⟩ :: pNode :: rest) := by
  have hget : map[l.length + 1]? = some pNode := by rw [hmap]; simp
  have hprev : map[l.length]? = some last := by rw [hmap]; simp
  have hdrop : map.drop (l.length + 1) = pNode :: rest := by rw [hmap]; simp
  have htake : map.take l.length = l := by rw [hmap]; simp
  have hset : ∀ m, map.set l.length m = l ++ m :: pNode :: rest := by intro m; rw [hmap]; simp
  have hadv' : advance map 0 (fun n => !(n.mAddressIdx ≤ addrIdx && n.mSize ≠ 0)) =
      some (l.length + 1) := hadv
  rw [free, hadv']
  simp only [Option.bind_eq_bind, Option.bind_some, hget, Nat.add_one_ne_zero, if_false,
    Nat.add_sub_cancel, hprev, hdrop, htake, hset, Option.filter_some, ← htouch, decide_true, if_true,
    Option.map_eq_bind, Function.comp_def]

/-- `free` when the range does not continue the entry before `pNode`. -/
theorem free_eq_right {map l rest : List MapNode} {pNode : MapNode} {size addrIdx : UInt32}
    (hmap : map = l ++ pNode :: rest)
    (hadv : advance map 0 (behind addrIdx) = some l.length)
    (hno : ∀ last ∈ l.getLast?, addrIdx ≠ last.mAddressIdx + last.mSize) :
    free map size addrIdx =
      if addrIdx + size = pNode.mAddressIdx ∧ pNode.mSize ≠ 0 then
        some (l ++ ⟨pNode.mSize + size, addrIdx⟩ :: rest)
      else if size ≠ 0 then (shiftUp ⟨size, addrIdx⟩ (pNode :: rest)).map (l ++ ·)
      else some map := by
  have hget : map[l.length]? = some pNode := by rw [hmap]; simp
  have hdrop : map.drop l.length = pNode :: rest := by rw [hmap]; simp
  have htake : map.take l.length = l := by rw [hmap]; simp
  have hset : ∀ m, map.set l.length m = l ++ m :: rest := by intro m; rw [hmap]; simp
  have hadv' : advance map 0 (fun n => !(n.mAddressIdx ≤ addrIdx && n.mSize ≠ 0)) =
      some l.length := hadv
  have hfilter : (if l.length = 0 then none else map[l.length - 1]?).filter
      (fun last => addrIdx = last.mAddressIdx + last.mSize) = none := by
    rcases List.eq_nil_or_concat' l with rfl | ⟨L, last, rfl⟩
    · rfl
    · have hne : addrIdx ≠ last.mAddressIdx + last.mSize := hno last (by simp)
      have : map[L.length]? = some last := by rw [hmap]; simp
      simp [this, hne]
  rw [free, hadv']
  simp only [Option.bind_eq_bind, Option.bind_some, hget, hdrop, htake, hset, hfilter]

/-! ### Assembling the cases -/

section FreeCases

variable {map l r zs : List MapNode} {last z z' : MapNode} {size addrIdx : UInt32}

/-- What giving a range back does. -/
def Freed (map : List MapNode) (size addrIdx : UInt32) : Prop :=
  ∃ map', free map size addrIdx = some map' ∧ WellFormed map' ∧ map'.length = map.length ∧
    freeUnits map' = freeUnits map ∪ Set.Ico addrIdx.toNat (addrIdx.toNat + size.toNat)

/-- The range continues `last`, and may reach the entry behind it as well. -/
theorem freed_left (hs : Split map (l ++ last :: r) (z :: z' :: zs))
    (hadv : advance map 0 (behind addrIdx) = some (l.length + 1))
    (htouch : stop last = addrIdx.toNat) (hrange : addrIdx.toNat + size.toNat ≤ 2 ^ 32)
    (hright : ∀ e ∈ r, addrIdx.toNat + size.toNat ≤ lo e ∧ addrIdx.toNat < lo e)
    (hpart : LeavesUnit map size addrIdx) : Freed map size addrIdx := by
  obtain ⟨u, hu, hufree, hurange⟩ := hpart
  have huout : ∀ e ∈ l ++ last :: r, ¬ (lo e ≤ u ∧ u < stop e) := fun e he hue =>
    hufree (hs.freeUnits_eq ▸ ⟨e, he, hue⟩)
  have hulast := huout last (by simp)
  have hlast := hs.sep.lt last (by simp)
  have htest := (eq_stop_iff (hs.bound last (by simp)) (by omega)).mpr htouch
  have hpart : addrIdx.toNat + size.toNat < lo last + 2 ^ 32 := by omega
  cases r with
  | nil =>
    obtain ⟨hsplit, hunits⟩ := hs.extendLast htouch (by simp) hrange hpart
    have hfree := free_eq_left size (by simpa using hs.eq) hadv htest
    by_cases hcoin : addrIdx + size = z.mAddressIdx
    · -- the end mark happens to hold the address behind the range: it is closed over
      have hz : z.mSize = 0 := hs.zero z (by simp)
      have hz' : z'.mSize = 0 := hs.zero z' (by simp)
      have hsplit' : Split (l ++ ⟨last.mSize + size, last.mAddressIdx⟩ :: ⟨0, 0⟩ :: z' :: zs)
          (l ++ [⟨last.mSize + size, last.mAddressIdx⟩]) (⟨0, 0⟩ :: z' :: zs) := by
        refine ⟨by simp, hsplit.sep, hsplit.bound, fun w hw => ?_⟩
        rcases List.mem_cons.mp hw with rfl | hw
        · rfl
        · exact hs.zero w (by simp only [List.mem_cons] at hw ⊢; tauto)
      refine ⟨_, ?_, ⟨_, _, hsplit', by simp⟩, by rw [hs.eq]; simp, ?_⟩
      · rw [hfree, if_pos hcoin]
        simp [shiftDown, hz, hz']
      · rw [hsplit'.freeUnits_eq, ← hsplit.freeUnits_eq, hunits]
    · refine ⟨_, ?_, ⟨_, _, hsplit, by simp⟩, by rw [hs.eq]; simp, hunits⟩
      rw [hfree, if_neg hcoin]
      rfl
  | cons n r =>
    have hfree := free_eq_left size (by simpa using hs.eq) hadv htest
    have hn := hright n (by simp)
    have htest' := eq_lo_iff (n := n) hrange (by omega)
    by_cases hmeet : lo n = addrIdx.toNat + size.toNat
    · have hun := huout n (by simp)
      have hbn := hs.bound n (by simp)
      obtain ⟨hsplit, hunits⟩ := hs.join htouch hmeet (by omega)
      refine ⟨_, ?_, ⟨_, _, hsplit, by simp⟩, by rw [hs.eq]; simp; omega, hunits⟩
      rw [hfree, if_pos (htest'.mpr hmeet), shiftDown_eq (fun m hm => hs.ne_zero (by simp [hm]))
        (hs.zero z (by simp))]
      rfl
    · have hr : ∀ b ∈ n :: r, addrIdx.toNat + size.toNat < lo b := by
        intro b hb
        rcases List.mem_cons.mp hb with rfl | hb
        · omega
        · obtain ⟨-, hsr, -⟩ := separated_middle.mp hs.sep
          obtain ⟨hnlt, hnr, -⟩ := separated_cons.mp hsr
          have := hnr b hb
          omega
      obtain ⟨hsplit, hunits⟩ := hs.extendLast htouch hr hrange hpart
      refine ⟨_, ?_, ⟨_, _, hsplit, by simp⟩, by rw [hs.eq]; simp, hunits⟩
      rw [hfree, if_neg (fun h => hmeet (htest'.mp h))]
      rfl

/-- The range does not continue the entry before it. -/
theorem freed_right (hs : Split map (l ++ r) (z :: z' :: zs))
    (hadv : advance map 0 (behind addrIdx) = some l.length)
    (hl : ∀ a ∈ l, lo a ≤ addrIdx.toNat) (hrange : addrIdx.toNat + size.toNat ≤ 2 ^ 32)
    (hbet : Between l r addrIdx.toNat (addrIdx.toNat + size.toNat))
    (hno : ∀ a ∈ l.getLast?, stop a ≠ addrIdx.toNat)
    (hpart : LeavesUnit map size addrIdx) : Freed map size addrIdx := by
  obtain ⟨u, hu, hufree, hurange⟩ := hpart
  have huout : ∀ e ∈ l ++ r, ¬ (lo e ≤ u ∧ u < stop e) := fun e he hue =>
    hufree (hs.freeUnits_eq ▸ ⟨e, he, hue⟩)
  have hno' : ∀ a ∈ l.getLast?, addrIdx ≠ a.mAddressIdx + a.mSize := fun a ha heq =>
    hno a ha ((eq_stop_iff (hs.bound a (List.mem_append_left _ (List.mem_of_getLast? ha)))
      (hl a (List.mem_of_getLast? ha))).mp heq)
  -- every entry before the range ends short of it
  have hleft : 0 < size.toNat → ∀ a ∈ l, stop a < addrIdx.toNat := by
    intro hpos a ha
    rcases List.eq_nil_or_concat' l with rfl | ⟨L, last, rfl⟩
    · simp at ha
    · have hlast := hbet.left (by omega) last (by simp)
      have hne := hno last (by simp)
      rcases List.mem_append.mp ha with ha | ha
      · obtain ⟨hsl, -, -⟩ := separated_append.mp hs.sep
        obtain ⟨-, hsep, hcross⟩ := separated_append.mp hsl
        have h1 := hcross a ha last (by simp)
        have h2 := hsep.lt last (by simp)
        omega
      · obtain rfl := List.mem_singleton.mp ha
        omega
  -- the array from `pNode` on
  obtain ⟨pNode, rest, hrz⟩ : ∃ pNode rest, r ++ z :: z' :: zs = pNode :: rest :=
    List.exists_cons_of_ne_nil (by simp)
  have hmap : map = l ++ pNode :: rest := by rw [hs.eq, List.append_assoc, hrz]
  rw [Freed, free_eq_right hmap hadv hno']
  -- the entry behind the range, if there is one
  have hnext : pNode.mSize ≠ 0 → ∃ r', r = pNode :: r' ∧ rest = r' ++ z :: z' :: zs := by
    intro hne
    obtain ⟨r', hlr, hrest⟩ := hs.entry hmap hne
    exact ⟨r', List.append_cancel_left hlr, hrest⟩
  by_cases hmeet : addrIdx + size = pNode.mAddressIdx ∧ pNode.mSize ≠ 0
  · -- the range leads up to the entry behind it
    obtain ⟨r', rfl, rfl⟩ := hnext hmeet.2
    obtain ⟨hle, hlt⟩ := hbet.right pNode (by simp)
    have hlo := (eq_lo_iff hrange (by omega)).mp hmeet.1
    have hun := huout pNode (by simp)
    have hbn := hs.bound pNode (by simp)
    obtain ⟨hsplit, hunits⟩ := hs.extendNext hlo (hleft (by omega)) (by omega)
    refine ⟨_, if_pos hmeet, ⟨_, _, hsplit, by simp⟩, by rw [hmap]; simp, hunits⟩
  · rw [if_neg hmeet]
    by_cases hsize : size = 0
    · -- nothing is given back
      refine ⟨map, by simp [hsize], ⟨_, _, hs, by simp⟩, rfl, ?_⟩
      simp [hsize]
    · -- the range becomes an entry of its own
      have hpos : 0 < size.toNat := by
        have : size.toNat ≠ 0 := fun h0 => hsize (UInt32.toNat_inj.mp h0)
        omega
      have hr : ∀ b ∈ r, addrIdx.toNat + size.toNat < lo b := by
        intro b hb
        obtain ⟨hle, hlt⟩ := hbet.right b hb
        obtain _ | ⟨n, r'⟩ := r
        · simp at hb
        obtain ⟨rfl, -⟩ := List.cons.inj hrz
        have hne : n.mSize ≠ 0 := hs.ne_zero (by simp)
        obtain ⟨hle', hlt'⟩ := hbet.right n (by simp)
        have hlo : lo n ≠ addrIdx.toNat + size.toNat := fun heq =>
          hmeet ⟨(eq_lo_iff hrange (by omega)).mpr heq, hne⟩
        rcases List.mem_cons.mp hb with rfl | hb
        · omega
        · obtain ⟨-, hsr, -⟩ := separated_append.mp hs.sep
          obtain ⟨hnlt, hnr, -⟩ := separated_cons.mp hsr
          have := hnr b hb
          omega
      obtain ⟨hsplit, hunits⟩ := hs.insert hpos hrange (hleft hpos) hr
      refine ⟨_, ?_, ⟨_, _, hsplit, by simp⟩, ?_, hunits⟩
      · rw [if_pos hsize, ← hrz, shiftUp_eq (fun m hm => hs.ne_zero (by simp [hm]))
          (hs.zero z (by simp))]
        rfl
      · rw [hs.eq]; simp; omega

end FreeCases

/-- **Giving a range back**, whichever neighbours it touches. -/
theorem free_spec {map : List MapNode} (h : WellFormed map) (hroom : HasRoom map)
    {size addrIdx : UInt32} (hrange : addrIdx.toNat + size.toNat ≤ 2 ^ 32)
    (hdisj : Disjoint (Set.Ico addrIdx.toNat (addrIdx.toNat + size.toNat)) (freeUnits map))
    (hpart : LeavesUnit map size addrIdx) : Freed map size addrIdx := by
  obtain ⟨es, zs, hs, hzs⟩ := h
  rw [HasRoom, hs.countP] at hroom
  obtain ⟨z, z', zs, rfl⟩ : ∃ z z' zs', zs = z :: z' :: zs' := by
    match zs, hroom with
    | z :: z' :: zs, _ => exact ⟨z, z', zs, rfl⟩
  obtain ⟨l, r, rfl, hl, hr, hadv⟩ := hs.exists_cut hzs addrIdx
  have hbet : Between l r addrIdx.toNat (addrIdx.toNat + size.toNat) :=
    between_of_disjoint hs.sep (hs.freeUnits_eq ▸ hdisj) hl hr
  by_cases htouch : ∃ a ∈ l.getLast?, stop a = addrIdx.toNat
  · obtain ⟨last, hlast, htouch⟩ := htouch
    obtain ⟨L, rfl⟩ := List.getLast?_eq_some_iff.mp hlast
    exact freed_left (by simpa using hs) (hadv.trans (by simp)) htouch hrange hbet.right hpart
  · simp only [not_exists, not_and] at htouch
    exact freed_right hs hadv hl hrange hbet htouch hpart

end Allocator
end UnixV6pp
