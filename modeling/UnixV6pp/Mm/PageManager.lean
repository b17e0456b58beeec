import UnixV6pp.Lib.Shares
import UnixV6pp.Mm.ExtentRun

/-!
# Pages and swap blocks

`PageManager` and `SwapperManager` keep a map each, and hand out and take back ranges of
pages or blocks by their size in bytes.

* `MapState.alloc`, `MapState.free` — the two operations, in units.
* `allocMemory`, `freeMemory`, `allocSwap`, `freeSwap` — the same in bytes.
* `Owned` — who has which range.
* `Owned.alloc`, `Owned.free` — **what the operations do to the owners.**
-/

namespace UnixV6pp
namespace Allocator

open Extents

/-- `Alloc` with the `beginNode` of the manager.  An access outside the array would leave the map
as it is; `Inv.alloc` excludes it. -/
def MapState.alloc (s : MapState) (size : UInt32) : UInt32 × MapState :=
  match allocNext s.map size s.beginNode with
  | some (retIdx, map, beginNode) => (retIdx, ⟨map, beginNode⟩)
  | none => (0, s)

/-- `Free`; `Inv.free` excludes an access outside the array. -/
def MapState.free (s : MapState) (size addrIdx : UInt32) : MapState :=
  match Allocator.free s.map size addrIdx with
  | some map => ⟨map, s.beginNode⟩
  | none => s

/-- Some free range has that many units. -/
def MapState.hasExtent (s : MapState) (size : UInt32) : Bool := s.map.any fun n => size ≤ n.mSize

/-- The units of a range. -/
def range (start size : UInt32) : Set ℕ := Set.Ico start.toNat (start.toNat + size.toNat)

theorem range_zero (start : UInt32) : range start 0 = ∅ := by
  simp [range]

variable {pool : Set ℕ} {s : MapState} {size start : UInt32}

/-! ### One operation -/

/-- What an allocation does, if there is a range for it. -/
structure Took (pool : Set ℕ) (s : MapState) (size : UInt32) (r : UInt32 × MapState) : Prop where
  inv : Inv pool r.2
  length : r.2.map.length = s.map.length
  subset : range r.1 size ⊆ freeUnits s.map
  free : freeUnits r.2.map = freeUnits s.map \ range r.1 size

/-- An entry from which nothing is taken stays as it is. -/
theorem take_zero {map : List MapNode} {p : ℕ} {n : MapNode} (hp : map[p]? = some n)
    (hn : n.mSize ≠ 0) : Allocator.take map p n 0 = some (n.mAddressIdx, false, map) := by
  obtain ⟨hlt, hget⟩ := List.getElem?_eq_some_iff.1 hp
  have hset : map.set p n = map := by
    rw [← hget]
    exact List.set_getElem_self hlt
  simp [Allocator.take, hn, hset]

/-- An entry that is an end mark is closed over by another end mark. -/
theorem take_mark {n n' : MapNode} {zs : List MapNode} (hn : n.mSize = 0) (hn' : n'.mSize = 0) :
    Allocator.take (n :: n' :: zs) 0 n 0 = some (n.mAddressIdx, true, ⟨0, 0⟩ :: n' :: zs) := by
  simp [Allocator.take, shiftDown, hn, hn']

/-- A map of end marks only. -/
theorem wellFormed_of_marks {map : List MapNode} (hmarks : ∀ z ∈ map, z.mSize = 0)
    (hne : map ≠ []) : WellFormed map ∧ freeUnits map = ∅ := by
  have hsplit : Split map [] map :=
    ⟨rfl, ⟨fun e he => absurd he List.not_mem_nil, List.Pairwise.nil⟩,
      fun e he => absurd he List.not_mem_nil, hmarks⟩
  exact ⟨⟨[], map, hsplit, hne⟩, by rw [hsplit.freeUnits_eq, units_nil]⟩

/-- A map that begins with an end mark. -/
theorem WellFormed.of_mark {map rest : List MapNode} {e : MapNode} (h : WellFormed map)
    (hmap : map = e :: rest) (he : e.mSize = 0) :
    freeUnits map = ∅ ∧ ∀ z ∈ rest, z.mSize = 0 := by
  obtain ⟨es, zs, hs, -⟩ := h
  obtain ⟨l, hl, hzs⟩ := hs.mark (l := []) hmap he
  have hnil : es = [] := (List.append_eq_nil_iff.1 hl.symm).1
  refine ⟨by rw [hs.freeUnits_eq, hnil, units_nil], fun z hz => hs.zero z ?_⟩
  rw [hzs]
  simp [hz]

/-- Behind an entry there is another slot. -/
theorem WellFormed.succ_lt {map : List MapNode} {p : ℕ} {n : MapNode} (h : WellFormed map)
    (hp : map[p]? = some n) (hn : n.mSize ≠ 0) : p + 1 < map.length := by
  obtain ⟨es, zs, hs, hzs⟩ := h
  obtain ⟨hlt, hget⟩ := List.getElem?_eq_some_iff.1 hp
  have hmap : map = map.take p ++ n :: map.drop (p + 1) := by
    rw [← hget, List.cons_getElem_drop_succ, List.take_append_drop]
  obtain ⟨r, -, hr⟩ := hs.entry hmap hn
  have hlen := congrArg List.length hr
  rw [List.length_drop, List.length_append] at hlen
  have hpos := List.length_pos_iff.2 hzs
  omega

/-- A range of no units. -/
theorem took_zero (h : Inv pool s) : Took pool s 0 (s.alloc 0) := by
  have htook : ∀ (s' : MapState) r, Inv pool s' → s'.map.length = s.map.length →
      freeUnits s'.map = freeUnits s.map → Took pool s 0 (r, s') := by
    intro s' r hinv hlen hfree
    refine ⟨hinv, hlen, ?_, ?_⟩
    · rw [range_zero]
      exact Set.empty_subset _
    · rw [range_zero, Set.sdiff_empty, hfree]
  have hsame : ∀ b < s.map.length, ∀ r, Took pool s 0 (r, ⟨s.map, b⟩) :=
    fun b hb r => htook _ r ⟨h.wf, h.sub, hb⟩ rfl rfl
  obtain ⟨n, hn⟩ : ∃ n, s.map[s.beginNode]? = some n :=
    ⟨_, List.getElem?_eq_getElem h.begin_lt⟩
  have hadvance : advance s.map s.beginNode (fun _ => true) = some s.beginNode := by
    have hdrop : s.map.drop s.beginNode ≠ [] := by
      rw [ne_eq, List.drop_eq_nil_iff]
      exact not_le.2 h.begin_lt
    obtain ⟨n', rest, hrest⟩ := List.exists_cons_of_ne_nil hdrop
    simp [advance, hrest, List.findIdx?_cons]
  by_cases hzero : n.mSize = 0
  · -- the second pass takes the first entry, if `beginNode` is not the first one
    rcases Nat.eq_zero_or_pos s.beginNode with hb | hb
    · have halloc : s.alloc 0 = (0, ⟨s.map, s.beginNode⟩) := by
        rw [hb] at hadvance hn
        simp [MapState.alloc, allocNext, hadvance, hn, hzero, hb]
      rw [halloc]
      exact hsame _ h.begin_lt _
    · have hlt := h.begin_lt
      obtain ⟨e, e', rest, hmap⟩ : ∃ e e' rest, s.map = e :: e' :: rest := by
        rcases hm : s.map with _ | ⟨e, _ | ⟨e', rest⟩⟩
        · simp [hm] at hlt
        · simp only [hm, List.length_singleton] at hlt
          omega
        · exact ⟨e, e', rest, rfl⟩
      have hfound : allocNext s.map 0 s.beginNode = (Allocator.take s.map 0 e 0).map fun r =>
          (r.1, r.2.2, if r.2.1 then 0 else 1) := by
        have hfind : (s.map.take s.beginNode).findIdx? (fun _ => true) = some 0 := by
          obtain ⟨b, hb'⟩ := Nat.exists_eq_succ_of_ne_zero hb.ne'
          simp [hb', hmap, List.findIdx?_cons]
        have hfirst : s.map[0]? = some e := by simp [hmap]
        simp [allocNext, hadvance, hn, hzero, hfind, hfirst, Option.map_eq_bind]
      by_cases he : e.mSize = 0
      · obtain ⟨hfree, hmarks⟩ := h.wf.of_mark hmap he
        have halloc : s.alloc 0 = (e.mAddressIdx, ⟨⟨0, 0⟩ :: e' :: rest, 0⟩) := by
          have htake : Allocator.take (e :: e' :: rest) 0 e 0 =
              some (e.mAddressIdx, true, ⟨0, 0⟩ :: e' :: rest) := take_mark he (hmarks e' (by simp))
          rw [MapState.alloc, hfound, hmap, htake]
          rfl
        have hmarks' : ∀ z ∈ (⟨0, 0⟩ : MapNode) :: e' :: rest, z.mSize = 0 := by
          intro z hz
          rcases List.mem_cons.1 hz with rfl | hz
          · rfl
          · exact hmarks z hz
        have hwf := wellFormed_of_marks hmarks' (List.cons_ne_nil _ _)
        rw [halloc]
        refine htook _ _ ⟨hwf.1, ?_, by simp⟩ (by simp [hmap]) (hwf.2.trans hfree.symm)
        rw [hwf.2]
        exact Set.empty_subset _
      · have hfirst : s.map[0]? = some e := by simp [hmap]
        have halloc : s.alloc 0 = (e.mAddressIdx, ⟨s.map, 1⟩) := by
          simp [MapState.alloc, hfound, take_zero hfirst he]
        rw [halloc]
        exact hsame 1 (by omega) _
  · have halloc : s.alloc 0 = (n.mAddressIdx, ⟨s.map, s.beginNode + 1⟩) := by
      simp [MapState.alloc, allocNext, hadvance, hn, hzero, take_zero hn hzero]
    rw [halloc]
    refine hsame _ ?_ _
    exact h.wf.succ_lt hn hzero

theorem took_alloc (h : Inv pool s) (hsize : size = 0 ∨ s.hasExtent size = true) :
    Took pool s size (s.alloc size) := by
  rcases eq_or_ne size 0 with rfl | hne
  · exact took_zero h
  · have hextent := hsize.resolve_left hne
    have hpos : 0 < size := UInt32.pos_iff_ne_zero.2 hne
    obtain ⟨r, m, b, halloc, hwf, hlen, hb, hspec, -⟩ := allocNext_spec h.wf h.begin_lt hpos
    have heq : s.alloc size = (r, ⟨m, b⟩) := by rw [MapState.alloc, halloc]
    rw [heq]
    rcases hspec with ⟨-, hsub, hfree⟩ | ⟨hnone, -⟩
    · exact ⟨⟨hwf, by rw [hfree]; exact Set.sdiff_subset.trans h.sub, hlen ▸ hb⟩, hlen, hsub, hfree⟩
    · obtain ⟨n, hn, hle⟩ := List.any_eq_true.1 hextent
      exact absurd (hnone n hn) (UInt32.not_lt.2 (of_decide_eq_true hle))

/-- A range that is given back. -/
theorem gave_free {map₀ : List MapNode} (h₀ : WellFormed map₀) (h : Inv (freeUnits map₀) s)
    (hroom : HasRoom s.map) (hpool : range start size ⊆ freeUnits map₀)
    (hdisj : Disjoint (range start size) (freeUnits s.map)) :
    Inv (freeUnits map₀) (s.free size start) ∧
      (s.free size start).map.length = s.map.length ∧
      freeUnits (s.free size start).map = freeUnits s.map ∪ range start size := by
  obtain ⟨m, hfree, hwf, hlen, hunits⟩ := h.freed h₀ hroom hpool hdisj
  have heq : s.free size start = ⟨m, s.beginNode⟩ := by rw [MapState.free, hfree]
  rw [heq]
  refine ⟨⟨hwf, ?_, hlen ▸ h.begin_lt⟩, hlen, hunits⟩
  rw [hunits]
  exact Set.union_subset h.sub hpool

/-! ### In bytes -/

def PAGE_SIZE : UInt32 := 0x1000
def BLOCK_SIZE : UInt32 := 512

/-- The number of pages, and of blocks, for so many bytes. -/
def pages (size : UInt32) : UInt32 := (size + (PAGE_SIZE - 1)) / PAGE_SIZE
def blocks (size : UInt32) : UInt32 := (size + (BLOCK_SIZE - 1)) / BLOCK_SIZE

namespace MapState

/-- `PageManager::AllocMemory`. -/
def allocMemory (s : MapState) (size : UInt32) : UInt32 × MapState :=
  ((s.alloc (pages size)).1 * PAGE_SIZE, (s.alloc (pages size)).2)

/-- `PageManager::FreeMemory`. -/
def freeMemory (s : MapState) (size startAddress : UInt32) : MapState :=
  s.free (pages size) (startAddress / PAGE_SIZE)

/-- `SwapperManager::AllocSwap`. -/
def allocSwap (s : MapState) (size : UInt32) : UInt32 × MapState := s.alloc (blocks size)

/-- `SwapperManager::FreeSwap`. -/
def freeSwap (s : MapState) (size startBlock : UInt32) : MapState := s.free (blocks size) startBlock

end MapState

/-- A page below 4 GiB is found again from its address. -/
theorem page_of_address {r : UInt32} (hr : r.toNat < 2 ^ 20) : r * PAGE_SIZE / PAGE_SIZE = r := by
  have hsize : PAGE_SIZE.toNat = 2 ^ 12 := rfl
  rw [← UInt32.toNat_inj, UInt32.toNat_div, UInt32.toNat_mul, hsize]
  omega

/-! ### Room for more entries -/

/-- Entries that are not adjacent take up every second unit at most. -/
theorem two_mul_length_le {es : List MapNode} {b : ℕ} : ∀ {a : ℕ}, Separated lo stop es →
    (∀ e ∈ es, a ≤ lo e ∧ stop e ≤ b) → es ≠ [] → a + 2 * es.length ≤ b + 1 := by
  induction es with
  | nil => intro a _ _ hne; exact absurd rfl hne
  | cons e es ih =>
    intro a hsep hin _
    obtain ⟨hlt, hnext, hrest⟩ := separated_cons.1 hsep
    have he := hin e (by simp)
    rcases eq_or_ne es [] with rfl | hes
    · simp only [List.length_singleton]
      omega
    · have hle := ih (a := stop e + 1) hrest
        (fun e' he' => ⟨hnext e' he', (hin e' (by simp [he'])).2⟩) hes
      simp only [List.length_cons]
      omega

/-- A map of few units always has room. -/
theorem hasRoom_of_short {map : List MapNode} {a b : ℕ} (h : WellFormed map)
    (hsub : freeUnits map ⊆ Set.Ico a b) (hmin : 2 ≤ map.length)
    (hlen : b + 5 ≤ a + 2 * map.length) : HasRoom map := by
  obtain ⟨es, zs, hs, hzs⟩ := h
  have hpos := List.length_pos_iff.2 hzs
  have hmap := congrArg List.length hs.eq
  rw [List.length_append] at hmap
  rw [HasRoom, hs.countP]
  rcases eq_or_ne es [] with rfl | hes
  · simp only [List.length_nil] at hmap
    omega
  · have hle := two_mul_length_le hs.sep (hs.within hsub) hes
    omega

/-! ### Owners -/

variable {κ : Type*} {own own' : κ → UInt32 × UInt32} {k : κ} {map₀ : List MapNode}

/-- Every unit of the map is free, or in the range of one owner: a range is given by its start and
its size, and an owner with a range of size zero has nothing. -/
structure Owned (map₀ : List MapNode) (s : MapState) (own : κ → UInt32 × UInt32) : Prop where
  inv : Inv (freeUnits map₀) s
  length : s.map.length = map₀.length
  shares : Shares (freeUnits map₀) (freeUnits s.map) fun k => range (own k).1 (own k).2

namespace Owned

/-- **An owner with nothing is given a new range.** -/
theorem alloc (h : Owned map₀ s own) (hk : (own k).2 = 0)
    (hsize : size = 0 ∨ s.hasExtent size = true)
    (hown : range (own' k).1 (own' k).2 = range (s.alloc size).1 size)
    (hothers : ∀ l, l ≠ k → own' l = own l) : Owned map₀ (s.alloc size).2 own' := by
  have htook := took_alloc h.inv hsize
  refine ⟨htook.inv, htook.length.trans h.length, ?_⟩
  rw [htook.free]
  refine h.shares.take ?_ htook.subset hown fun l hl => ?_
  · rw [hk, range_zero]
  · rw [hothers l hl]

/-- **An owner gives its range back.** -/
theorem free (h₀ : WellFormed map₀) (h : Owned map₀ s own) (hroom : HasRoom s.map)
    (hk : own k = (start, size)) (hown : (own' k).2 = 0) (hothers : ∀ l, l ≠ k → own' l = own l) :
    Owned map₀ (s.free size start) own' := by
  have hrange : range (own k).1 (own k).2 = range start size := by rw [hk]
  have hpool := h.shares.own_subset k
  have hdisj := h.shares.apart k
  simp only [hrange] at hpool hdisj
  obtain ⟨hinv, hlen, hfree⟩ := gave_free h₀ h.inv hroom hpool hdisj
  refine ⟨hinv, hlen.trans h.length, ?_⟩
  rw [hfree, ← hrange]
  refine h.shares.give ?_ fun l hl => ?_
  · rw [hown, range_zero]
  · rw [hothers l hl]

theorem congr (h : Owned map₀ s own) (hown : ∀ k, own' k = own k) : Owned map₀ s own' := by
  rwa [funext hown]

/-- A range that has been found is in the map. -/
theorem alloc_mem (h : Owned map₀ s own) (hpos : 0 < size) (hsize : s.hasExtent size = true) :
    (s.alloc size).1.toNat ∈ freeUnits map₀ := by
  refine h.shares.free_subset ((took_alloc h.inv (.inr hsize)).subset ⟨le_rfl, ?_⟩)
  have hnat : 0 < size.toNat := UInt32.lt_iff_toNat_lt.1 hpos
  omega

end Owned

end Allocator
end UnixV6pp
