import UnixV6pp.Lib.Copy
import UnixV6pp.Lib.Words
import UnixV6pp.Proc.Exec
import Mathlib.Order.Interval.Finset.Nat

/-!
# Changing the size of a process

The image of a process is one piece of memory: a page for the kernel, the data and the
stack.  `SBreak` moves the end of the data and `SStack` adds a page to the stack; both
load the page tables for the new sizes, let `Expand` find another piece of memory if the
old one is too small, and then move the stack to the end of the image.

* `Process` — the descriptor, the page tables and the image.
* `Grant` — the memory that `Expand` gets, at once or by way of the swap area.
* `Process.expand`, `Process.sBreak`, `Process.sStack`, `Process.pageFault`.
* `readUser`, `Inside` — what a program sees, and the pages it should see.

Sizes and addresses are 32-bit numbers.
-/

namespace UnixV6pp
namespace Break

open Words Paging Copy
open Execution (ErrCode)

/-- `ProcessManager::USIZE`. -/
def USIZE : ℕ := 0x1000

/-- What a change of the size reads and writes. -/
structure Process where
  md : Descriptor
  /-- `m_UserPageTableArray`. -/
  entrys : Oos2.UserPageTableArray
  /-- The page tables of the machine. -/
  tables : Tables
  pAddr : ℕ
  pSize : ℕ
  /-- `x_caddr` of the text, if there is one. -/
  xCaddr : Option ℕ
  /-- The memory of the machine. -/
  mem : ℕ → UInt8
  /-- The pages of it that are allocated to the image. -/
  pages : Finset ℕ
  uError : Option ErrCode
  eax : ℕ

/-- The pages from an address on that `AllocMemory` and `FreeMemory` count for a size. -/
def frames (size address : ℕ) : Finset ℕ :=
  Finset.Ico (address / PAGE_SIZE) (address / PAGE_SIZE + entryCnt size)

/-- Where `Expand` finds memory for a larger image. -/
inductive Grant
  /-- `AllocMemory` has returned this address. -/
  | moved (newAddress : ℕ)
  /-- The image is swapped out, and later brought in at this address; meanwhile the memory and the
  place of the text may have changed. -/
  | swapped (newAddress : ℕ) (xCaddr : Option ℕ) (mem : ℕ → UInt8)

/-- `dst - change` for the `int` numbers of the source, as an address. -/
def minus (dst : ℕ) (change : ℤ) : ℕ := ((dst - change) % 2 ^ 32).toNat

namespace Process

variable (p : Process)

def located : Located := ⟨p.pAddr, p.xCaddr⟩

/-- `UserPageManager::FreeMemory`. -/
def freeMemory (size startAddress : ℕ) : Process :=
  { p with pages := p.pages \ frames size startAddress }

/-- `Process::Expand`; `load` is the `MapToPageTable` at its end, and after the swap area the one in
`Swtch`. -/
def expand (load : Process → Process) (newSize : ℕ) (g : Grant) : Process :=
  let oldSize := p.pSize
  let p := { p with pSize := newSize }
  if newSize ≤ oldSize then
    p.freeMemory (oldSize - newSize) ((p.pAddr + newSize) % 2 ^ 32)
  else
    match g with
    | .moved newAddress =>
      let pages := (p.pages ∪ frames newSize newAddress) \ frames oldSize p.pAddr
      load { p with pAddr := newAddress, mem := copyUp p.mem p.pAddr newAddress oldSize, pages := pages }
    | .swapped newAddress xCaddr mem =>
      let pages := (p.pages \ frames oldSize p.pAddr) ∪ frames newSize newAddress
      load { p with pAddr := newAddress, xCaddr := xCaddr, mem := mem, pages := pages }

/-- The second half of `SBreak`: the data gets its new size, and the stack moves along. -/
def resize (load : Process → Process) (newSize : ℕ) (g : Grant) : Process :=
  let change := int32 ((newSize : ℤ) - p.md.mDataSize)
  let p := { p with md := { p.md with mDataSize := newSize } }
  let newSize := (newSize + (USIZE + p.md.mStackSize)) % 2 ^ 32
  let p :=
    if change < 0 then
      let dst := (p.pAddr + newSize + 2 ^ 32 - p.md.mStackSize) % 2 ^ 32
      { p with mem := copyUp p.mem (minus dst change) dst p.md.mStackSize }.expand load newSize g
    else if 0 < change then
      let p := p.expand load newSize g
      let dst := (p.pAddr + newSize) % 2 ^ 32
      { p with mem := copyDown p.mem (minus dst change) dst p.md.mStackSize }
    else p
  { p with eax := (p.md.mDataStartAddress + p.md.mDataSize) % 2 ^ 32 }

/-- Nothing is moved when the descriptor has the new size already. -/
theorem resize_same (load : Process → Process) (p : Process) (g : Grant) :
    p.resize load p.md.mDataSize g =
      { p with eax := (p.md.mDataStartAddress + p.md.mDataSize) % 2 ^ 32 } := by
  have hzero : int32 ((p.md.mDataSize : ℤ) - p.md.mDataSize) = 0 := by
    rw [Int.sub_self, int32_eq]
    decide
  unfold resize
  dsimp only
  rw [hzero, if_neg (Int.lt_irrefl 0), if_neg (Int.lt_irrefl 0)]

/-- `MemoryDescriptor::MapToPageTable`. -/
def mapToPageTable : Process :=
  { p with tables := Oos2.mapToPageTable p.entrys p.located p.tables }

/-- `MemoryDescriptor::EstablishUserPageTable` with the text and the data where they are, and
whether it succeeds; `none` stands for an access behind its table. -/
def establishUserPageTable (dataSize stackSize : ℕ) : Option (Bool × Process) :=
  if accepts p.md.mTextStartAddress p.md.mTextSize dataSize stackSize then
    (Oos2.establishUserPageTable p.md.mTextStartAddress p.md.mTextSize p.md.mDataStartAddress dataSize
      stackSize p.located p.tables).map fun (entrys, tables) =>
        (true, { p with entrys := entrys, tables := tables })
  else some (false, { p with uError := some .ENOMEM })

/-- The size of the data that ends at `newEnd`. -/
def requested (newEnd : ℕ) : ℕ := (newEnd + 2 ^ 32 - p.md.mDataStartAddress) % 2 ^ 32

/-- `Process::SBreak`. -/
def sBreak (newEnd : ℕ) (g : Grant) : Option Process :=
  let newSize := p.requested newEnd
  if newEnd = 0 then
    some { p with eax := (p.md.mDataStartAddress + p.md.mDataSize) % 2 ^ 32 }
  else
    match p.establishUserPageTable newSize p.md.mStackSize with
    | none => none
    | some (false, p) => some p
    | some (true, p) => some (p.resize mapToPageTable newSize g)

def withStack (stackSize : ℕ) : Process := { p with md := { p.md with mStackSize := stackSize } }

/-- The second half of `SStack`: the stack moves up by the page that it has gained. -/
def raise (newSize change : ℕ) (g : Grant) : Process :=
  let p := p.expand mapToPageTable newSize g
  let dst := (p.pAddr + newSize) % 2 ^ 32
  let count := (p.md.mStackSize + 2 ^ 32 - change) % 2 ^ 32
  { p with mem := copyDown p.mem (minus dst change) dst count }.mapToPageTable

/-- `Process::SStack`. -/
def sStack (g : Grant) : Option Process :=
  let change := 4096
  let stackSize := (p.md.mStackSize + change) % 2 ^ 32
  let newSize := (USIZE + p.md.mDataSize + stackSize) % 2 ^ 32
  match (p.withStack stackSize).establishUserPageTable p.md.mDataSize stackSize with
  | none => none
  | some (false, p) => some { p with uError := some .ENOMEM }
  | some (true, p) => some (p.raise newSize change g)

/-- The test in `Exception::PageFault` by which a fault of a user program enlarges the stack. -/
def growsStack (cr2 esp : ℕ) : Bool :=
  cr2 < (USER_SPACE_SIZE + 2 ^ 32 - p.md.mStackSize) % 2 ^ 32 && (esp + 2 ^ 32 - 8) % 2 ^ 32 ≤ cr2 &&
    (p.md.mDataSize + p.md.mStackSize + PAGE_SIZE) % 2 ^ 32 <
      (USER_SPACE_SIZE + 2 ^ 32 - p.md.mDataStartAddress) % 2 ^ 32

/-- `Exception::PageFault` for a user program; other faults end in a signal. -/
def pageFault (cr2 esp : ℕ) (g : Grant) : Option Process :=
  if p.growsStack cr2 esp then p.sStack g else some p

end Process

/-! ### What a program sees -/

/-- The entry of a user page in the page tables. -/
def entryOf (t : Tables) (page : ℕ) : Entry := t (Fin.ofNat 2 (page / 1024)) (Fin.ofNat 1024 page)

/-- What is read at a user address, if a page is there. -/
def readUser (p : Process) (a : ℕ) : Option UInt8 :=
  let e := entryOf p.tables (a / PAGE_SIZE)
  if a < USER_SPACE_SIZE ∧ e.mPresent = true then
    some (p.mem (e.mPageBaseAddress * PAGE_SIZE + a % PAGE_SIZE))
  else none

/-- The page is one of the image, or of the text if it cannot be written. -/
def InImage (p : Process) (e : Entry) : Prop :=
  if e.mReadWriter then e.mPageBaseAddress ∈ p.pages
  else ∃ x, p.xCaddr = some x ∧ e.mPageBaseAddress ∈ frames p.md.mTextSize x

/-- All pages that are present are those of the image and the text; the page 0 is the kernel's
`runtime`. -/
def Inside (p : Process) : Prop :=
  ∀ page, 0 < page → page < 2048 → (entryOf p.tables page).mPresent = true →
    InImage p (entryOf p.tables page)

end Break
end UnixV6pp
