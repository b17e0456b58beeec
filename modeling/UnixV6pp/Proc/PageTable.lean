import Mathlib.Algebra.Group.Nat.Defs
import Mathlib.Logic.Function.Basic
import Mathlib.Tactic.Common
import UnixV6pp.Lib.Words

/-!
# The user page tables

There are two versions of the memory descriptor.  The older one computes every entry of
the page tables from the sizes of the segments; the newer one writes the segments one
after the other into a table of its own, with page numbers relative to the text and to
the process image, and adds the addresses of these when it loads the page tables.

* `Descriptor`, `Located` — the segments, and where they are in memory.
* `Oos1.mapToPageTable`, `Oos2.mapToPageTable` — loading the page tables.
* `Oos1.establishUserPageTable`, `Oos2.establishUserPageTable` — new segments.

All sizes and addresses are 32-bit numbers.
-/

namespace UnixV6pp
namespace Paging

/-- The fields of `PageTableEntry` that are written; the page base has 20 bits. -/
structure Entry where
  mPresent : Bool
  mReadWriter : Bool
  mPageBaseAddress : ℕ
  deriving DecidableEq

/-- The two page tables of the user space. -/
abbrev Tables := Fin 2 → Fin 1024 → Entry

/-- The fields of `MemoryDescriptor` other than its own table. -/
structure Descriptor where
  mTextStartAddress : ℕ
  mTextSize : ℕ
  mDataStartAddress : ℕ
  mDataSize : ℕ
  mStackSize : ℕ

/-- Where the process image is, and the text segment if there is one. -/
structure Located where
  pAddr : ℕ
  xCaddr : Option ℕ

def PAGE_SIZE : ℕ := 0x1000
def USER_SPACE_SIZE : ℕ := 0x800000

/-- The test at the beginning of `EstablishUserPageTable`, the same in both versions. -/
def accepts (textVirtualAddress textSize dataSize stackSize : ℕ) : Bool :=
  (textSize + dataSize + stackSize + PAGE_SIZE) % 2 ^ 32 ≤
    (USER_SPACE_SIZE + 2 ^ 32 - textVirtualAddress) % 2 ^ 32

/-- The number of pages of a segment. -/
def entryCnt (size : ℕ) : ℕ := (size + (PAGE_SIZE - 1)) % 2 ^ 32 / PAGE_SIZE

/-- The page in which the stack begins. -/
def stackPage (stackSize : ℕ) : ℕ := (USER_SPACE_SIZE + 2 ^ 32 - stackSize) % 2 ^ 32 / PAGE_SIZE

/-- The page base of the text segment, and of the image. -/
def Located.textEntry (l : Located) : ℕ := l.xCaddr.getD 0 / PAGE_SIZE

def Located.dataEntry (l : Located) : ℕ := l.pAddr / PAGE_SIZE

/-- The first page is the kernel's `runtime`. -/
def runtimeEntry : Entry := ⟨true, true, 0⟩

/-- The last lines of `MapToPageTable`. -/
def withRuntime (t : Tables) : Tables :=
  Function.update t 0 (Function.update (t 0) 0 runtimeEntry)

namespace Oos1

/-- The index of a page in the second page table. -/
def startIdx (page : ℕ) : ℕ := (page + 2 ^ 32 - 1024) % 2 ^ 32

/-- An entry of the second page table; of the sums it keeps 20 bits. -/
def mapPage (md : Descriptor) (l : Located) (old : Entry) (j : ℕ) : Entry :=
  let textStartIdx := startIdx (md.mTextStartAddress / PAGE_SIZE)
  let dataStartIdx := startIdx (md.mDataStartAddress / PAGE_SIZE)
  let stackStartIdx := startIdx (stackPage md.mStackSize)
  if textStartIdx ≤ j ∧ j < (textStartIdx + entryCnt md.mTextSize) % 2 ^ 32 then
    ⟨true, false, (j - textStartIdx + l.textEntry) % 2 ^ 20⟩
  else if dataStartIdx ≤ j ∧ j < (dataStartIdx + entryCnt md.mDataSize) % 2 ^ 32 then
    -- the first page of the image is the ppda
    ⟨true, true, (j - dataStartIdx + 1 + l.dataEntry) % 2 ^ 20⟩
  else if stackStartIdx ≤ j ∧ j < (stackStartIdx + entryCnt md.mStackSize) % 2 ^ 32 then
    ⟨true, true, (j + entryCnt md.mDataSize - stackStartIdx + 1 + l.dataEntry) % 2 ^ 20⟩
  else { old with mPresent := false }

/-- `MemoryDescriptor::MapToPageTable` of oos1. -/
def mapToPageTable (md : Descriptor) (l : Located) (t : Tables) : Tables :=
  withRuntime fun i j =>
    if i = 1 then mapPage md l (t i j) j else { t i j with mPresent := false }

/-- `MemoryDescriptor::EstablishUserPageTable` of oos1, for sizes that are accepted. -/
def establishUserPageTable (md : Descriptor) (textSize dataSize stackSize : ℕ) (l : Located)
    (t : Tables) : Descriptor × Tables :=
  let md := { md with mTextSize := textSize, mDataSize := dataSize, mStackSize := stackSize }
  (md, mapToPageTable md l t)

end Oos1

namespace Oos2

/-- `m_UserPageTableArray`: two page tables one behind the other. -/
abbrev UserPageTableArray := ℕ → Entry

/-- The number of its entries. -/
def arraySize : ℕ := 2048

/-- The loop of `MapEntry`; `none` stands for an access outside the array. -/
def mapLoop (isReadWrite : Bool) : ℕ → ℕ → ℕ → UserPageTableArray → Option UserPageTableArray
  | 0, _, _, entrys => some entrys
  | cnt + 1, i, phyPageIdx, entrys =>
    if i < arraySize then
      mapLoop isReadWrite cnt (i + 1) (phyPageIdx + 1)
        (Function.update entrys i ⟨true, isReadWrite, phyPageIdx % 2 ^ 20⟩)
    else none

/-- `MemoryDescriptor::MapEntry` from the given page on; the second component is the next page of
the image. -/
def mapEntry (startIdx size phyPageIdx : ℕ) (isReadWrite : Bool) (entrys : UserPageTableArray) :
    Option (UserPageTableArray × ℕ) :=
  (mapLoop isReadWrite (entryCnt size) startIdx phyPageIdx entrys).map fun entrys =>
    (entrys, phyPageIdx + entryCnt size)

/-- `MemoryDescriptor::ClearUserPageTable`. -/
def clearUserPageTable : UserPageTableArray := fun _ => ⟨false, false, 0⟩

/-- What an entry is loaded as. -/
def loadEntry (e : Entry) (l : Located) (old : Entry) : Entry :=
  if e.mPresent then
    if e.mReadWriter then ⟨true, true, (e.mPageBaseAddress + l.dataEntry) % 2 ^ 20⟩
    else ⟨true, false, (e.mPageBaseAddress + l.textEntry) % 2 ^ 20⟩
  else { old with mPresent := false }

/-- `MemoryDescriptor::MapToPageTable` of oos2. -/
def mapToPageTable (entrys : UserPageTableArray) (l : Located) (t : Tables) : Tables :=
  withRuntime fun i j => loadEntry (entrys (i * 1024 + j)) l (t i j)

/-- The segments in the table of the descriptor. -/
def mapSegments (textVirtualAddress textSize dataVirtualAddress dataSize stackSize : ℕ) :
    Option UserPageTableArray := do
  let (entrys, _) ← mapEntry (textVirtualAddress / PAGE_SIZE) textSize 0 false clearUserPageTable
  -- the first page of the image is the ppda
  let (entrys, phyPageIndex) ← mapEntry (dataVirtualAddress / PAGE_SIZE) dataSize 1 true entrys
  let (entrys, _) ← mapEntry (stackPage stackSize) stackSize phyPageIndex true entrys
  some entrys

/-- `MemoryDescriptor::EstablishUserPageTable` of oos2, for sizes that are accepted. -/
def establishUserPageTable (textVirtualAddress textSize dataVirtualAddress dataSize stackSize : ℕ)
    (l : Located) (t : Tables) : Option (UserPageTableArray × Tables) :=
  (mapSegments textVirtualAddress textSize dataVirtualAddress dataSize stackSize).map fun entrys =>
    (entrys, mapToPageTable entrys l t)

end Oos2

/-- A page is mapped to the same place by both, or by none. -/
def Same (t t' : Tables) : Prop :=
  ∀ i j, (t i j).mPresent = (t' i j).mPresent ∧
    ((t i j).mPresent = true → (t i j).mReadWriter = (t' i j).mReadWriter ∧
      (t i j).mPageBaseAddress = (t' i j).mPageBaseAddress)

/-- Both versions load the same page tables for these segments, wherever the image and the text are
and whatever was there before, and again when the image or the text has moved. -/
def Agree (md : Descriptor) : Prop :=
  ∀ (l : Located) (t t' : Tables), ∃ entrys tables,
    Oos2.establishUserPageTable md.mTextStartAddress md.mTextSize md.mDataStartAddress md.mDataSize
      md.mStackSize l t' = some (entrys, tables) ∧
    Same (Oos1.establishUserPageTable md md.mTextSize md.mDataSize md.mStackSize l t).2 tables ∧
    ∀ (l' : Located) (u u' : Tables), Same
      (Oos1.mapToPageTable
        (Oos1.establishUserPageTable md md.mTextSize md.mDataSize md.mStackSize l t).1 l' u)
      (Oos2.mapToPageTable entrys l' u')

end Paging
end UnixV6pp
