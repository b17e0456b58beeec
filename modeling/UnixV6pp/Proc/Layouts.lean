import UnixV6pp.Proc.PageTableRewrite
import Mathlib.Order.Interval.Set.Disjoint
import Mathlib.Order.CompletePartialOrder

/-!
# Which layouts are accepted

`EstablishUserPageTable` compares one sum with one difference, and both may wrap; the
address of the data takes no part in it.  Where nothing wraps, the text and the stack are
where they should be, and it depends on the data alone.

* `establish` — the function with its test.
* `Valid` — what it should accept only: every segment has pages of its own.
* `valid_iff` — **when what is accepted is valid.**
-/

namespace UnixV6pp
namespace Paging

variable {ta ts da ds ss i size phy k : ℕ} {rw : Bool} {entrys : Oos2.UserPageTableArray}

/-- The pages that `MapEntry` writes for a segment. -/
def pagesOf (startIdx size : ℕ) : Set ℕ := Set.Ico startIdx (startIdx + entryCnt size)

/-- `MemoryDescriptor::EstablishUserPageTable` of oos2, and whether it succeeds. -/
def establish (textVirtualAddress textSize dataVirtualAddress dataSize stackSize : ℕ) (l : Located)
    (entrys : Oos2.UserPageTableArray) (t : Tables) : Option (Bool × Oos2.UserPageTableArray × Tables) :=
  if accepts textVirtualAddress textSize dataSize stackSize then
    (Oos2.establishUserPageTable textVirtualAddress textSize dataVirtualAddress dataSize stackSize l
      t).map fun (entrys, t) => (true, entrys, t)
  else some (false, entrys, t)

/-- All that `MapEntry` writes is in the table, no page belongs to two segments, and no page of the
image to the data and the stack. -/
def Valid (ta ts da ds ss : ℕ) (l : Located) : Prop :=
  ∀ entrys t, ∃ entrys' t', establish ta ts da ds ss l entrys t = some (true, entrys', t') ∧
    Disjoint (pagesOf (ta / PAGE_SIZE) ts) (pagesOf (da / PAGE_SIZE) ds) ∧
    Disjoint (pagesOf (ta / PAGE_SIZE) ts) (pagesOf (stackPage ss) ss) ∧
    Disjoint (pagesOf (da / PAGE_SIZE) ds) (pagesOf (stackPage ss) ss) ∧
    ∀ k ∈ pagesOf (da / PAGE_SIZE) ds, ∀ k' ∈ pagesOf (stackPage ss) ss,
      (entrys' k).mPageBaseAddress ≠ (entrys' k').mPageBaseAddress

/-- The page in which the stack begins, or the end of the user space if there is none. -/
def top (ss : ℕ) : ℕ := if entryCnt ss = 0 then 2048 else stackPage ss

/-- A side of the comparison wraps. -/
def Wraps (ta ts ds ss : ℕ) : Prop := USER_SPACE_SIZE < ta ∨ 2 ^ 32 ≤ ts + ds + ss + PAGE_SIZE

/-- The text, if it has pages, ends below the stack. -/
def TextFits (ta ts ss : ℕ) : Prop := entryCnt ts = 0 ∨ ta / PAGE_SIZE + entryCnt ts ≤ top ss

/-- The stack is no larger than the user space, or it has no pages. -/
def StackFits (ss : ℕ) : Prop := entryCnt ss = 0 ∨ ss ≤ USER_SPACE_SIZE

/-- The data, if it has pages, ends below the stack, and lies behind the text or before it. -/
def DataFits (ta ts da ds ss : ℕ) : Prop :=
  entryCnt ds = 0 ∨ da / PAGE_SIZE + entryCnt ds ≤ top ss ∧
    (entryCnt ts = 0 ∨ ta / PAGE_SIZE + entryCnt ts ≤ da / PAGE_SIZE ∨
      da / PAGE_SIZE + entryCnt ds ≤ ta / PAGE_SIZE)

/-! ### The table -/

/-- `MapEntry` stays in the table exactly if the segment has no pages or ends in it. -/
theorem Oos2.mapEntry_eq : Oos2.mapEntry i size phy rw entrys =
    if entryCnt size = 0 ∨ i + entryCnt size ≤ Oos2.arraySize then
      some (Oos2.withSegment i (entryCnt size) phy rw entrys, phy + entryCnt size)
    else none := by
  split
  · next h =>
    rcases h with hzero | hfit
    · have hloop : Oos2.mapLoop rw 0 i phy entrys = some entrys := rfl
      rw [Oos2.mapEntry, hzero, hloop, Option.map_some]
      congr 2
      funext k
      rw [Oos2.withSegment, if_neg (by omega)]
    · exact Oos2.mapEntry_some hfit
  · next h => exact Oos2.mapEntry_none (by omega) (by omega)

/-- The table of three segments. -/
def layout (ta ts da ds ss : ℕ) : Oos2.UserPageTableArray :=
  Oos2.withSegment (stackPage ss) (entryCnt ss) (1 + entryCnt ds) true
    (Oos2.withSegment (da / PAGE_SIZE) (entryCnt ds) 1 true
      (Oos2.withSegment (ta / PAGE_SIZE) (entryCnt ts) 0 false Oos2.clearUserPageTable))

/-- **All segments are in the table** exactly if each of them is. -/
theorem mapSegments_eq : Oos2.mapSegments ta ts da ds ss =
    if (entryCnt ts = 0 ∨ ta / PAGE_SIZE + entryCnt ts ≤ 2048) ∧
        (entryCnt ds = 0 ∨ da / PAGE_SIZE + entryCnt ds ≤ 2048) ∧
        (entryCnt ss = 0 ∨ stackPage ss + entryCnt ss ≤ 2048) then
      some (layout ta ts da ds ss)
    else none := by
  unfold Oos2.mapSegments
  rw [Oos2.mapEntry_eq]
  unfold Oos2.arraySize
  by_cases htext : entryCnt ts = 0 ∨ ta / PAGE_SIZE + entryCnt ts ≤ 2048
  · rw [if_pos htext]
    dsimp only [Option.bind_eq_bind, Option.bind_some]
    rw [Oos2.mapEntry_eq]
    unfold Oos2.arraySize
    by_cases hdata : entryCnt ds = 0 ∨ da / PAGE_SIZE + entryCnt ds ≤ 2048
    · rw [if_pos hdata]
      dsimp only [Option.bind_some]
      rw [Oos2.mapEntry_eq]
      unfold Oos2.arraySize
      by_cases hstack : entryCnt ss = 0 ∨ stackPage ss + entryCnt ss ≤ 2048
      · rw [if_pos hstack, if_pos ⟨htext, hdata, hstack⟩]
        rfl
      · rw [if_neg hstack, if_neg fun h => hstack h.2.2]
        rfl
    · rw [if_neg hdata, if_neg fun h => hdata h.2.1]
      rfl
  · rw [if_neg htext, if_neg fun h => htext h.1]
    rfl

/-- A segment that has pages ends in the user space exactly if it is no larger. -/
theorem stack_iff (hss : ss < 2 ^ 32) :
    (entryCnt ss = 0 ∨ stackPage ss + entryCnt ss ≤ 2048) ↔ StackFits ss := by
  unfold StackFits stackPage entryCnt PAGE_SIZE USER_SPACE_SIZE
  omega

/-- The stack then ends with the user space. -/
theorem stackPage_add (h : ss ≤ USER_SPACE_SIZE) : stackPage ss + entryCnt ss = 2048 := by
  unfold stackPage entryCnt PAGE_SIZE USER_SPACE_SIZE at *
  omega

/-- Where nothing wraps, the test takes care of the text and the stack. -/
theorem fits_of_accepts (haccepts : accepts ta ts ds ss = true) (hwraps : ¬Wraps ta ts ds ss) :
    TextFits ta ts ss ∧ StackFits ss := by
  unfold accepts USER_SPACE_SIZE PAGE_SIZE at haccepts
  unfold Wraps USER_SPACE_SIZE PAGE_SIZE at hwraps
  simp only [decide_eq_true_eq] at haccepts
  unfold TextFits StackFits top stackPage entryCnt USER_SPACE_SIZE PAGE_SIZE
  constructor
  · split <;> omega
  · omega

/-! ### The pages -/

theorem disjoint_pagesOf {startIdx startIdx' size' : ℕ} :
    Disjoint (pagesOf startIdx size) (pagesOf startIdx' size') ↔
      entryCnt size = 0 ∨ entryCnt size' = 0 ∨ startIdx + entryCnt size ≤ startIdx' ∨
        startIdx' + entryCnt size' ≤ startIdx := by
  unfold pagesOf
  rw [Set.Ico_disjoint_Ico]
  omega

/-- The pages of the stack and of the data in the image. -/
theorem layout_stack (hk : k ∈ pagesOf (stackPage ss) ss) : layout ta ts da ds ss k =
    ⟨true, true, (1 + entryCnt ds + (k - stackPage ss)) % 2 ^ 20⟩ := if_pos hk

theorem layout_data (hk : k ∈ pagesOf (da / PAGE_SIZE) ds) (hnot : k ∉ pagesOf (stackPage ss) ss) :
    layout ta ts da ds ss k = ⟨true, true, (1 + (k - da / PAGE_SIZE)) % 2 ^ 20⟩ := by
  have hk' : da / PAGE_SIZE ≤ k ∧ k < da / PAGE_SIZE + entryCnt ds := hk
  have hnot' : ¬(stackPage ss ≤ k ∧ k < stackPage ss + entryCnt ss) := hnot
  rw [layout, Oos2.withSegment, if_neg hnot', Oos2.withSegment, if_pos hk']

theorem layout_text (hk : k ∈ pagesOf (ta / PAGE_SIZE) ts) (hdata : k ∉ pagesOf (da / PAGE_SIZE) ds)
    (hnot : k ∉ pagesOf (stackPage ss) ss) :
    layout ta ts da ds ss k = ⟨true, false, (k - ta / PAGE_SIZE) % 2 ^ 20⟩ := by
  have hk' : ta / PAGE_SIZE ≤ k ∧ k < ta / PAGE_SIZE + entryCnt ts := hk
  have hdata' : ¬(da / PAGE_SIZE ≤ k ∧ k < da / PAGE_SIZE + entryCnt ds) := hdata
  have hnot' : ¬(stackPage ss ≤ k ∧ k < stackPage ss + entryCnt ss) := hnot
  rw [layout, Oos2.withSegment, if_neg hnot', Oos2.withSegment, if_neg hdata', Oos2.withSegment,
    if_pos hk', Nat.zero_add]

theorem layout_absent (htext : k ∉ pagesOf (ta / PAGE_SIZE) ts)
    (hdata : k ∉ pagesOf (da / PAGE_SIZE) ds) (hnot : k ∉ pagesOf (stackPage ss) ss) :
    layout ta ts da ds ss k = ⟨false, false, 0⟩ := by
  have htext' : ¬(ta / PAGE_SIZE ≤ k ∧ k < ta / PAGE_SIZE + entryCnt ts) := htext
  have hdata' : ¬(da / PAGE_SIZE ≤ k ∧ k < da / PAGE_SIZE + entryCnt ds) := hdata
  have hnot' : ¬(stackPage ss ≤ k ∧ k < stackPage ss + entryCnt ss) := hnot
  rw [layout, Oos2.withSegment, if_neg hnot', Oos2.withSegment, if_neg hdata', Oos2.withSegment,
    if_neg htext']
  rfl

/-- **The exact condition.**  For all 32-bit addresses and sizes: what is refused leaves the table
and the page tables as they were; and what is accepted is valid exactly if the data, which the test
leaves out, fits between the text and the stack, and the text and the stack fit where a side of the
comparison wraps. -/
theorem valid_iff (hss : ss < 2 ^ 32) (l : Located) :
    (accepts ta ts ds ss = false → ∀ entrys t, establish ta ts da ds ss l entrys t =
      some (false, entrys, t)) ∧
    (accepts ta ts ds ss = true → (Valid ta ts da ds ss l ↔
      DataFits ta ts da ds ss ∧ (Wraps ta ts ds ss → TextFits ta ts ss ∧ StackFits ss))) := by
  constructor
  · intro hrefused entrys t
    rw [establish, if_neg (by rw [hrefused]; exact Bool.false_ne_true)]
  · intro haccepts
    have hestablish : ∀ entrys t, establish ta ts da ds ss l entrys t =
        (Oos2.mapSegments ta ts da ds ss).map fun entrys =>
          (true, entrys, Oos2.mapToPageTable entrys l t) := by
      intro entrys t
      rw [establish, if_pos haccepts, Oos2.establishUserPageTable, Option.map_map]
      rfl
    have hall : (Wraps ta ts ds ss → TextFits ta ts ss ∧ StackFits ss) ↔
        TextFits ta ts ss ∧ StackFits ss := by
      by_cases hwraps : Wraps ta ts ds ss
      · exact ⟨fun h => h hwraps, fun h _ => h⟩
      · exact ⟨fun _ => fits_of_accepts haccepts hwraps, fun h _ => h⟩
    rw [hall]
    constructor
    · intro hvalid
      obtain ⟨entrys', t', hsome, htd, hts, hds, -⟩ :=
        hvalid Oos2.clearUserPageTable fun _ _ => runtimeEntry
      rw [hestablish, mapSegments_eq] at hsome
      split at hsome
      · next hin =>
        obtain ⟨htext, hdata, hstack⟩ := hin
        have hstack' := (stack_iff hss).mp hstack
        have hend : entryCnt ss = 0 ∨ stackPage ss + entryCnt ss = 2048 :=
          hstack'.imp_right stackPage_add
        rw [disjoint_pagesOf] at htd hts hds
        refine ⟨?_, ?_, hstack'⟩
        · unfold DataFits top
          split <;> omega
        · unfold TextFits top
          split <;> omega
      · cases hsome
    · rintro ⟨hdata, htext, hstack⟩ entrys t
      have hend : top ss ≤ 2048 ∧ (entryCnt ss ≠ 0 → top ss = stackPage ss) := by
        unfold top
        split
        · next hzero => exact ⟨le_refl _, fun h => absurd hzero h⟩
        · next hne =>
          have := stackPage_add (hstack.resolve_left hne)
          exact ⟨by omega, fun _ => rfl⟩
      unfold DataFits at hdata
      unfold TextFits at htext
      have hstack' := (stack_iff hss).mpr hstack
      have hin : (entryCnt ts = 0 ∨ ta / PAGE_SIZE + entryCnt ts ≤ 2048) ∧
          (entryCnt ds = 0 ∨ da / PAGE_SIZE + entryCnt ds ≤ 2048) ∧
          (entryCnt ss = 0 ∨ stackPage ss + entryCnt ss ≤ 2048) := by
        refine ⟨?_, ?_, hstack'⟩ <;> omega
      have hds : Disjoint (pagesOf (da / PAGE_SIZE) ds) (pagesOf (stackPage ss) ss) := by
        rw [disjoint_pagesOf]
        omega
      rw [hestablish, mapSegments_eq, if_pos hin]
      refine ⟨_, _, rfl, ?_, ?_, hds, ?_⟩
      · rw [disjoint_pagesOf]
        omega
      · rw [disjoint_pagesOf]
        omega
      · intro k hk k' hk'
        -- the pages of the image are counted on from the data to the stack
        rw [layout_data hk (Set.disjoint_left.mp hds hk), layout_stack hk']
        have hk₁ := hk.1
        have hk₂ := hk.2
        have hk₁' := hk'.1
        have hk₂' := hk'.2
        dsimp only
        omega

/-- A page of text, three pages of data behind it and one of stack. -/
theorem valid_iff_onePageText :
    Valid 0x401000 0x1000 0x402000 0x2100 0x1000 ⟨0x1000000, some 0x2000000⟩ := by
  have hfits : DataFits 0x401000 0x1000 0x402000 0x2100 0x1000 :=
    .inr ⟨by decide, .inr (.inl (by decide))⟩
  have hwraps : ¬Wraps 0x401000 0x1000 0x2100 0x1000 := by
    rintro (h | h) <;> exact absurd h (by decide)
  exact ((valid_iff (by decide) _).2 (by decide)).mpr ⟨hfits, fun h => absurd h hwraps⟩

/-- **The data may lie on the stack.**  Its address takes no part in the test. -/
theorem not_valid : accepts 0x401000 0x1000 0x1000 0x1000 = true ∧
    ∀ l, ¬Valid 0x401000 0x1000 0x7FF000 0x1000 0x1000 l := by
  refine ⟨by decide, fun l hvalid => ?_⟩
  obtain ⟨_, _, -, -, -, hds, -⟩ := hvalid Oos2.clearUserPageTable fun _ _ => runtimeEntry
  exact absurd (disjoint_pagesOf.mp hds) (by decide)

end Paging
end UnixV6pp
