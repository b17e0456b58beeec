import UnixV6pp.Proc.Break
import UnixV6pp.Proc.PageTableRewrite

/-!
# The break in the older version

In the older version `EstablishUserPageTable` writes the new sizes to the descriptor.
`SBreak` takes the difference between the new size and the one in the descriptor after
that call, so that the difference is always zero: nothing is allocated, given back or
moved.

* `Process.oldSBreak` — `SBreak` of oos1.
* `Changed` — what a change of the break should do.
* `changed_iff` — **it does so only if the break stays where it is.**
-/

namespace UnixV6pp
namespace Break

open Words Paging

variable {p p' : Process} {newEnd dataSize stackSize : ℕ} {g : Grant}

namespace Process

variable (p)

/-- `MemoryDescriptor::MapToPageTable` of oos1. -/
def oldMapToPageTable : Process :=
  { p with tables := Oos1.mapToPageTable p.md p.located p.tables }

/-- `MemoryDescriptor::EstablishUserPageTable` of oos1, and whether it succeeds. -/
def oldEstablishUserPageTable (dataSize stackSize : ℕ) : Bool × Process :=
  if accepts p.md.mTextStartAddress p.md.mTextSize dataSize stackSize then
    let (md, tables) :=
      Oos1.establishUserPageTable p.md p.md.mTextSize dataSize stackSize p.located p.tables
    (true, { p with md := md, tables := tables })
  else (false, { p with uError := some .ENOMEM })

/-- `Process::SBreak` of oos1. -/
def oldSBreak (newEnd : ℕ) (g : Grant) : Process :=
  let newSize := p.requested newEnd
  if newEnd = 0 then
    { p with eax := (p.md.mDataStartAddress + p.md.mDataSize) % 2 ^ 32 }
  else
    match p.oldEstablishUserPageTable newSize p.md.mStackSize with
    | (false, p) => p
    | (true, p) => p.resize oldMapToPageTable newSize g

end Process

/-- What a process is before the call: its size is that of the descriptor, its pages are those of
its size, and the page tables show the descriptor. -/
structure Ready (p : Process) : Prop where
  dataLt : p.md.mDataSize < 2 ^ 32
  sized : p.pSize = (USIZE + p.md.mDataSize + p.md.mStackSize) % 2 ^ 32
  pages : p.pages = frames p.pSize p.pAddr
  tables : ∃ t, p.tables = Oos1.mapToPageTable p.md p.located t

/-- What a change of the break should do. -/
structure Changed (p : Process) (newSize : ℕ) (p' : Process) : Prop where
  dataSize : p'.md.mDataSize = newSize
  sized : p'.pSize = (USIZE + p'.md.mDataSize + p'.md.mStackSize) % 2 ^ 32
  /-- The image has grown or shrunk by the difference. -/
  grown : (p'.pSize + p.md.mDataSize) % 2 ^ 32 = (p.pSize + newSize) % 2 ^ 32
  pages : p'.pages = frames p'.pSize p'.pAddr
  /-- The stack is what it was. -/
  stack : ∀ a, USER_SPACE_SIZE ≤ a + p.md.mStackSize → a < USER_SPACE_SIZE →
    readUser p' a = readUser p a
  inside : Inside p'

/-! ### What the call does -/

/-- The process with other sizes in the descriptor, and the page tables for them. -/
def Process.withData (p : Process) (dataSize : ℕ) : Process :=
  { p with
    md := { p.md with mDataSize := dataSize }
    tables := Oos1.mapToPageTable { p.md with mDataSize := dataSize } p.located p.tables
    eax := (p.md.mDataStartAddress + dataSize) % 2 ^ 32 }

@[simp] theorem withData_pSize (n : ℕ) : (p.withData n).pSize = p.pSize := rfl

@[simp] theorem withData_pAddr (n : ℕ) : (p.withData n).pAddr = p.pAddr := rfl

@[simp] theorem withData_pages (n : ℕ) : (p.withData n).pages = p.pages := rfl

@[simp] theorem withData_mDataSize (n : ℕ) : (p.withData n).md.mDataSize = n := rfl

@[simp] theorem withData_mStackSize (n : ℕ) :
    (p.withData n).md.mStackSize = p.md.mStackSize := rfl

/-- Once the page tables are established, nothing is left to do. -/
theorem resize_established (p : Process) (n : ℕ) (g : Grant) :
    ({ p with
      md := { p.md with mDataSize := n }
      tables := Oos1.mapToPageTable { p.md with mDataSize := n } p.located p.tables } : Process).resize
        Process.oldMapToPageTable n g = p.withData n :=
  Process.resize_same _ _ g

/-- **`SBreak` changes the descriptor and the page tables, and nothing else.** -/
theorem oldSBreak_eq (hend : newEnd ≠ 0)
    (haccepts : accepts p.md.mTextStartAddress p.md.mTextSize
      (p.requested newEnd) p.md.mStackSize = true) :
    p.oldSBreak newEnd g =
      p.withData (p.requested newEnd) := by
  unfold Process.oldSBreak
  dsimp only
  rw [if_neg hend]
  generalize p.requested newEnd = n at *
  rw [Process.oldEstablishUserPageTable, if_pos haccepts]
  exact resize_established p n g

/-! ### Loading the page tables again -/

/-- An entry that is present does not depend on what was there. -/
theorem mapPage_present (md : Descriptor) (l : Located) (old old' : Entry) (j : ℕ) :
    (Oos1.mapPage md l old j).mPresent = (Oos1.mapPage md l old' j).mPresent ∧
      ((Oos1.mapPage md l old j).mPresent = true →
        Oos1.mapPage md l old j = Oos1.mapPage md l old' j) := by
  have hpages : ∃ e : Option Entry, ∀ old, Oos1.mapPage md l old j =
      e.getD { old with mPresent := false } := by
    unfold Oos1.mapPage
    dsimp only
    split
    · exact ⟨some _, fun _ => rfl⟩
    · split
      · exact ⟨some _, fun _ => rfl⟩
      · split
        · exact ⟨some _, fun _ => rfl⟩
        · exact ⟨none, fun _ => rfl⟩
  obtain ⟨e, he⟩ := hpages
  rw [he old, he old']
  cases e with
  | none => exact ⟨rfl, nofun⟩
  | some x => exact ⟨rfl, fun _ => rfl⟩

/-- Neither does a page that is present. -/
theorem mapToPageTable_present (md : Descriptor) (l : Located) (t t' : Tables) (i : Fin 2)
    (j : Fin 1024) :
    (Oos1.mapToPageTable md l t i j).mPresent = (Oos1.mapToPageTable md l t' i j).mPresent ∧
      ((Oos1.mapToPageTable md l t i j).mPresent = true →
        Oos1.mapToPageTable md l t i j = Oos1.mapToPageTable md l t' i j) := by
  unfold Oos1.mapToPageTable withRuntime
  by_cases hi : i = 0
  · rw [hi, Function.update_self, Function.update_self]
    by_cases hj : j = 0
    · rw [hj, Function.update_self, Function.update_self]
      exact ⟨rfl, fun _ => rfl⟩
    · rw [Function.update_of_ne hj, Function.update_of_ne hj]
      dsimp only
      rw [if_neg (by decide), if_neg (by decide)]
      exact ⟨rfl, nofun⟩
  · rw [Function.update_of_ne hi, Function.update_of_ne hi]
    dsimp only
    rw [if_pos (by omega), if_pos (by omega)]
    exact mapPage_present md l (t i j) (t' i j) j

/-- Two processes that differ in what an absent page was before. -/
theorem readUser_congr {a : ℕ} (hmem : p'.mem = p.mem)
    (hpresent : ∀ i j, (p'.tables i j).mPresent = (p.tables i j).mPresent ∧
      ((p'.tables i j).mPresent = true → p'.tables i j = p.tables i j)) :
    readUser p' a = readUser p a := by
  unfold readUser entryOf
  dsimp only
  obtain ⟨hsame, heq⟩ := hpresent (Fin.ofNat 2 (a / PAGE_SIZE / 1024)) (Fin.ofNat 1024 (a / PAGE_SIZE))
  rw [hmem, hsame]
  split
  · next h => rw [heq (hsame.trans h.2)]
  · rfl

/-- The break stays where it is: the same page tables are loaded once more. -/
theorem withData_same (h : Ready p) (i : Fin 2) (j : Fin 1024) :
    let p' := p.withData p.md.mDataSize
    (p'.tables i j).mPresent = (p.tables i j).mPresent ∧
      ((p'.tables i j).mPresent = true → p'.tables i j = p.tables i j) := by
  obtain ⟨t, ht⟩ := h.tables
  intro p'
  rw [ht]
  exact mapToPageTable_present p.md p.located p.tables t i j

theorem inside_withData (h : Ready p) : Inside (p.withData p.md.mDataSize) ↔ Inside p := by
  unfold Inside entryOf
  refine forall_congr' fun page => forall_congr' fun _ => forall_congr' fun _ => ?_
  obtain ⟨hsame, heq⟩ :=
    withData_same h (Fin.ofNat 2 (page / 1024)) (Fin.ofNat 1024 page)
  constructor
  · intro hin hpresent
    have hpresent' := hsame.trans hpresent
    exact heq hpresent' ▸ hin hpresent'
  · intro hin hpresent
    exact (heq hpresent).symm ▸ hin (hsame.symm.trans hpresent)

/-- The entries of the second page table, and those of the first behind the kernel's page. -/
theorem entryOf_old {md : Descriptor} {l : Located} {t : Tables} {page : ℕ} (hpos : 0 < page)
    (hlt : page < 2048) (hpresent : (entryOf (Oos1.mapToPageTable md l t) page).mPresent = true) :
    ∃ j old, page = 1024 + j ∧ entryOf (Oos1.mapToPageTable md l t) page = Oos1.mapPage md l old j := by
  unfold entryOf Oos1.mapToPageTable withRuntime at *
  by_cases hi : Fin.ofNat 2 (page / 1024) = 0
  · -- the first page table
    have hj : Fin.ofNat 1024 page ≠ 0 := by
      intro hj
      have h1 := congrArg Fin.val hi
      have h2 := congrArg Fin.val hj
      rw [Fin.val_ofNat] at h1 h2
      simp only [Fin.val_zero] at h1 h2
      omega
    rw [hi, Function.update_self, Function.update_of_ne hj] at hpresent
    dsimp only at hpresent
    rw [if_neg (by decide)] at hpresent
    cases hpresent
  · have hone : Fin.ofNat 2 (page / 1024) = 1 := by omega
    refine ⟨Fin.ofNat 1024 page, t 1 (Fin.ofNat 1024 page), ?_, ?_⟩
    · have h1 := congrArg Fin.val hone
      rw [Fin.val_ofNat] at h1 ⊢
      simp only [Fin.val_one] at h1
      omega
    · rw [Function.update_of_ne hi, hone]
      dsimp only
      rw [if_pos rfl]

/-- **What is mapped is the image and the text,** if the segments have pages of their own and the
image has as many as the data and the stack. -/
theorem inside_of_placed (hplaced : Placed p.md) (h : Ready p) {x : ℕ} (htext : p.xCaddr = some x)
    (hx : x / PAGE_SIZE + entryCnt p.md.mTextSize ≤ 2 ^ 20)
    (hframes : p.pAddr / PAGE_SIZE + entryCnt p.pSize ≤ 2 ^ 20)
    (hcnt : 1 + entryCnt p.md.mDataSize + entryCnt p.md.mStackSize ≤ entryCnt p.pSize) :
    Inside p := by
  intro page hpos hlt hpresent
  obtain ⟨t, ht⟩ := h.tables
  rw [ht] at hpresent ⊢
  obtain ⟨j, old, rfl, heq⟩ := entryOf_old hpos hlt hpresent
  rw [heq, hplaced.mapPage_eq] at hpresent ⊢
  have hmem : ∀ n, 1 ≤ n → n < 1 + entryCnt p.md.mDataSize + entryCnt p.md.mStackSize →
      (n + p.located.dataEntry) % 2 ^ 20 ∈ p.pages := by
    intro n h1 hn
    have hentry : p.located.dataEntry = p.pAddr / PAGE_SIZE := rfl
    rw [h.pages, frames, Finset.mem_Ico, hentry]
    omega
  by_cases htext' : Placed.inText p.md (1024 + j)
  · have hentry : p.located.textEntry = x / PAGE_SIZE := by
      rw [Located.textEntry, Process.located, htext, Option.getD_some]
    rw [if_pos htext', InImage, if_neg Bool.false_ne_true]
    obtain ⟨h1, h2⟩ := htext'
    refine ⟨x, htext, ?_⟩
    rw [frames, Finset.mem_Ico, hentry]
    dsimp only
    omega
  · rw [if_neg htext'] at hpresent ⊢
    by_cases hdata : Placed.inData p.md (1024 + j)
    · rw [if_pos hdata, InImage, if_pos rfl]
      obtain ⟨h1, h2⟩ := hdata
      exact hmem _ (by omega) (by omega)
    · rw [if_neg hdata] at hpresent ⊢
      by_cases hstack : Placed.inStack p.md (1024 + j)
      · rw [if_pos hstack, InImage, if_pos rfl]
        obtain ⟨h1, h2⟩ := hstack
        exact hmem _ (by omega) (by omega)
      · rw [if_neg hstack] at hpresent
        cases hpresent

/-- **The break of the older version.**  For every process whose size is that of its descriptor and
every end that is accepted: `SBreak` does what it should exactly if the data keeps its size and the
pages that are mapped already are those of the image and the text. -/
theorem changed_iff (h : Ready p) (hend : newEnd ≠ 0)
    (haccepts : accepts p.md.mTextStartAddress p.md.mTextSize
      (p.requested newEnd) p.md.mStackSize = true) :
    Changed p (p.requested newEnd) (p.oldSBreak newEnd g) ↔
      p.requested newEnd = p.md.mDataSize ∧ Inside p := by
  rw [oldSBreak_eq hend haccepts]
  have hlt : p.requested newEnd < 2 ^ 32 := Nat.mod_lt _ (by decide)
  generalize p.requested newEnd = n at *
  constructor
  · intro hchanged
    -- the size of the image has not changed
    have hsize := hchanged.sized
    rw [withData_pSize, withData_mDataSize, withData_mStackSize, h.sized] at hsize
    have hdata := h.dataLt
    have hsame : n = p.md.mDataSize := by omega
    rw [hsame] at hchanged
    exact ⟨hsame, (inside_withData h).mp hchanged.inside⟩
  · rintro ⟨hsame, hinside⟩
    rw [hsame]
    constructor
    · simp
    · simpa using h.sized
    · simp
    · simpa using h.pages
    · exact fun a _ _ => readUser_congr rfl (withData_same h)
    · exact (inside_withData h).mpr hinside

/-- A process of the older version with one page of text and this much data and stack. -/
def oldLoaded (dataSize stackSize : ℕ) : Process where
  md := ⟨0x401000, 0x1000, 0x402000, dataSize, stackSize⟩
  entrys := Oos2.clearUserPageTable
  tables := Oos1.mapToPageTable ⟨0x401000, 0x1000, 0x402000, dataSize, stackSize⟩
    ⟨0x1000000, some 0x2000000⟩ fun _ _ => ⟨false, false, 0⟩
  pAddr := 0x1000000
  pSize := (USIZE + dataSize + stackSize) % 2 ^ 32
  xCaddr := some 0x2000000
  mem := fun _ => 0
  pages := frames ((USIZE + dataSize + stackSize) % 2 ^ 32) 0x1000000
  uError := none
  eax := 0

theorem ready_oldLoaded {dataSize : ℕ} (h : dataSize < 2 ^ 32) (stackSize : ℕ) :
    Ready (oldLoaded dataSize stackSize) := ⟨h, rfl, rfl, _, rfl⟩

/-- The break is set to where it is. -/
theorem changed_iff_oldLoaded : Changed (oldLoaded 0x3000 0x1000) 0x3000
    ((oldLoaded 0x3000 0x1000).oldSBreak 0x405000 (.moved 0x3000000)) := by
  have hplaced : Placed (oldLoaded 0x3000 0x1000).md :=
    ⟨by decide, by decide, by decide, by decide⟩
  have h : Ready (oldLoaded 0x3000 0x1000) := ready_oldLoaded (by decide) _
  have hinside : Inside (oldLoaded 0x3000 0x1000) :=
    inside_of_placed hplaced h rfl (by decide) (by decide) (by decide)
  have hsize : (oldLoaded 0x3000 0x1000).requested 0x405000 = 0x3000 := by decide
  rw [← hsize]
  exact (changed_iff h (by decide) (by decide)).mpr ⟨hsize, hinside⟩

/-- **One page more of data is mapped and not allocated.** -/
theorem not_changed : ∃ (p : Process) (newEnd : ℕ) (g : Grant), Ready p ∧ Inside p ∧ newEnd ≠ 0 ∧
    accepts p.md.mTextStartAddress p.md.mTextSize (p.requested newEnd) p.md.mStackSize = true ∧
    (p.oldSBreak newEnd g).md.mDataSize = p.md.mDataSize + 0x1000 ∧
    (p.oldSBreak newEnd g).pSize = p.pSize ∧ (p.oldSBreak newEnd g).pages = p.pages := by
  have hplaced : Placed (oldLoaded 0x3000 0x1000).md :=
    ⟨by decide, by decide, by decide, by decide⟩
  have h : Ready (oldLoaded 0x3000 0x1000) := ready_oldLoaded (by decide) _
  refine ⟨oldLoaded 0x3000 0x1000, 0x406000, .moved 0x3000000, h,
    inside_of_placed hplaced h rfl (by decide) (by decide) (by decide), by decide, by decide, ?_⟩
  have hsize : (oldLoaded 0x3000 0x1000).requested 0x406000 = 0x4000 := by decide
  rw [oldSBreak_eq (by decide) (by decide), hsize]
  simp [oldLoaded]

end Break
end UnixV6pp
