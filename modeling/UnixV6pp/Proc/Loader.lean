import UnixV6pp.Fs.Transfer
import UnixV6pp.Lib.Cover
import UnixV6pp.Proc.Exec

/-!
# The loader

`HeaderLoad` reads the headers of an executable file, and `Relocate` clears the sections and
reads them.  Where both write depends on what the file says.

* `ExeFile.delivered` — how many bytes `ReadI` brings to memory.
* `Parser`, `headerLoad`, `relocate` — the class `PEParser`.
* `Access`, `Access.InBounds` — what is written and read, and whether it should be.
* `load` — all of it, in order.

All sizes and addresses are 32-bit numbers.
-/

namespace UnixV6pp
namespace Loader

open Words Paging Execution Inode

/-- An executable file.  At a negative offset `ReadI` takes the number of the block from somewhere
before `i_addr`. -/
structure File where
  data : FlatFile
  strayCount : ℤ → ℤ → ℕ
  strayByte : ℤ → ℕ → UInt8

namespace File

/-- The number of bytes that `ReadI` brings to memory, from the offset on. -/
def delivered (f : File) (mOffset mCount : ℤ) : ℕ :=
  if mCount = 0 then 0
  -- `IOMove` counts down to zero, from wherever it begins
  else if mOffset < 0 then min (f.strayCount mOffset mCount) (mCount % 2 ^ 32).toNat
  else if (f.data.size : ℤ) - mOffset ≤ 0 then 0
  else if mCount < 0 then (mCount % 2 ^ 32).toNat
  else min mCount.toNat (f.data.size - mOffset.toNat)

/-- The `k`th of these bytes. -/
def byteAt (f : File) (mOffset : ℤ) (k : ℕ) : UInt8 :=
  if mOffset < 0 then f.strayByte mOffset k else f.data.bytes (mOffset.toNat + k)

end File

/-- Memory in which the first `n` bytes are new. -/
def overlay (old : ℕ → UInt8) (n : ℕ) (new : ℕ → UInt8) : ℕ → UInt8 :=
  fun k => if k < n then new k else old k

/-- The 32-bit word and the 16-bit word at an offset. -/
def long (b : ℕ → UInt8) (o : ℕ) : ℕ := unsigned (b o) (b (o + 1)) (b (o + 2)) (b (o + 3))
def short (b : ℕ → UInt8) (o : ℕ) : ℕ := unsigned (b o) (b (o + 1)) 0 0

/-- What was in memory before the headers are read. -/
structure Memory where
  dosHeader : ℕ → UInt8
  ntHeader : ℕ → UInt8
  sectionHeaders : ℕ → UInt8

def dosHeaderSize : ℕ := 0x40
def ntHeaderSize : ℕ := 0xf8
def sectionSize : ℕ := 0x28
def BSS_SECTION_IDX : ℕ := 3
def IDATA_SECTION_IDX : ℕ := 4

/-! ### Accesses -/

/-- What the loader does to memory. -/
inductive Access
  /-- The first bytes of a header are written. -/
  | dosHeader (n : ℕ)
  | ntHeader (n : ℕ)
  /-- The first bytes from the address on that `AllocMemory` has returned. -/
  | sectionHeaders (address n : ℕ)
  /-- A field of the section headers is read, while the given number of bytes have been loaded. -/
  | sectionField (offset n loaded : ℕ)
  /-- Bytes in the user space are written. -/
  | user (address n : ℕ)
  /-- The flag `m_ReadWriter` of some pages is changed. -/
  | readWriter (page n : ℕ)
  deriving DecidableEq

/-- The pages that `EstablishUserPageTable` maps, each segment by its first page and the number of
its pages. -/
def segments (md : Descriptor) : List (ℕ × ℕ) :=
  [(md.mTextStartAddress / PAGE_SIZE, entryCnt md.mTextSize),
    (md.mDataStartAddress / PAGE_SIZE, entryCnt md.mDataSize),
    (stackPage md.mStackSize, entryCnt md.mStackSize)]

/-- The address is in the text, the data or the stack. -/
def Own (md : Descriptor) (a : ℕ) : Prop :=
  a < USER_SPACE_SIZE ∧ ∃ s ∈ segments md, s.1 ≤ a / PAGE_SIZE ∧ a / PAGE_SIZE < s.1 + s.2

/-- Nothing but headers, loaded section headers and the segments is touched. -/
def Access.InBounds (md : Descriptor) : Access → Prop
  | .dosHeader n => n ≤ dosHeaderSize
  | .ntHeader n => n ≤ ntHeaderSize
  | .sectionHeaders address n => n = 0 ∨ address ≠ 0 ∧ n ≤ 2 * PAGE_SIZE
  | .sectionField offset n loaded => offset + n ≤ loaded
  | .user address n => ∀ k < n, Own md ((address + k) % 2 ^ 32)
  | .readWriter _ _ => True

/-! ### The parser -/

/-- The members of `PEParser`, once `HeaderLoad` has succeeded. -/
structure Parser where
  ntHeader : ℕ → UInt8
  sectionHeaders : ℕ → UInt8
  /-- The bytes of the section headers that come from the file. -/
  loaded : ℕ
  header : Header

namespace Parser

variable (p : Parser)

def imageBase : ℕ := long p.ntHeader 52

def virtualSize (i : ℕ) : ℕ := long p.sectionHeaders (sectionSize * i + 8)
def virtualAddress (i : ℕ) : ℕ := long p.sectionHeaders (sectionSize * i + 12)
def pointerToRawData (i : ℕ) : ℕ := long p.sectionHeaders (sectionSize * i + 20)

/-- Where section `i` goes. -/
def desAddress (i : ℕ) : ℕ := (p.virtualAddress i + p.imageBase) % 2 ^ 32

/-- The pages of section `i` in bytes. -/
def clearSize (i : ℕ) : ℤ := int32 ((p.virtualSize i + (PAGE_SIZE - 1)) % 2 ^ 32 / 2 ^ 12 * 2 ^ 12 : ℕ)

/-- The number of bytes that are read of section `i`. -/
def readSize (f : File) (i : ℕ) : ℕ :=
  f.delivered (int32 (p.pointerToRawData i)) (int32 (p.virtualSize i))

/-- A field of section header `i` is read. -/
def field (i offset : ℕ) : Access := .sectionField (sectionSize * i + offset) 4 p.loaded

end Parser

/-! ### `HeaderLoad` -/

section

variable (f : File) (m : Memory)

/-- The DOS header as read from the file, and its field `e_lfanew`. -/
def dosHeader : ℕ → UInt8 := overlay m.dosHeader (f.delivered 0 dosHeaderSize) (f.byteAt 0)
def eLfanew : ℕ := long (dosHeader f m) 60

/-- The NT header as read from the file. -/
def ntHeader : ℕ → UInt8 :=
  overlay m.ntHeader (f.delivered (int32 (eLfanew f m)) ntHeaderSize)
    (f.byteAt (int32 (eLfanew f m)))
def signature : ℕ := long (ntHeader f m) 0
def numberOfSections : ℕ := short (ntHeader f m) 6

/-- Where the section headers are in the file, and how many bytes of them are read. -/
def sectionOffset : ℤ := int32 (eLfanew f m + ntHeaderSize : ℕ)
def sectionBytes : ℕ := f.delivered (sectionOffset f m) (sectionSize * numberOfSections f m : ℕ)

/-- The section headers as read from the file. -/
def sectionHeaders : ℕ → UInt8 :=
  overlay m.sectionHeaders (sectionBytes f m) (f.byteAt (sectionOffset f m))

def parser : Parser where
  ntHeader := ntHeader f m
  sectionHeaders := sectionHeaders f m
  loaded := sectionBytes f m
  header := {
    signature := signature f m
    baseOfCode := long (ntHeader f m) 44
    baseOfData := long (ntHeader f m) 48
    imageBase := long (ntHeader f m) 52
    sizeOfStackCommit := long (ntHeader f m) 100
    idataVirtualAddress := long (sectionHeaders f m) (sectionSize * IDATA_SECTION_IDX + 12) }

/-- The first two calls of `ReadI`. -/
def headerReads : List Access :=
  [.dosHeader (f.delivered 0 dosHeaderSize),
    .ntHeader (f.delivered (int32 (eLfanew f m)) ntHeaderSize)]

/-- `PEParser::HeaderLoad`; `area` is what `AllocMemory` returns. -/
def headerLoad (area : ℕ) : Option Parser × List Access :=
  if signature f m ≠ 0x00004550 then (none, headerReads f m)
  else (some (parser f m), headerReads f m ++ [.sectionHeaders area (sectionBytes f m),
    (parser f m).field IDATA_SECTION_IDX 12])

end

/-! ### `Relocate` -/

/-- The index of the first section; a text that is shared is left alone. -/
def firstSection (sharedText : Bool) : ℕ := if sharedText then 1 else 0

/-- The sections from the first one up to the end. -/
def sections (sharedText : Bool) (e : ℕ) : List ℕ :=
  (List.range e).drop (firstSection sharedText)

/-- A section is cleared. -/
def clearSection (p : Parser) (i : ℕ) : List Access :=
  [p.field i 12, p.field i 8, .user (p.desAddress i) (p.clearSize i).toNat]

/-- A section is read. -/
def readSection (f : File) (p : Parser) (i : ℕ) : List Access :=
  [p.field i 20, p.field i 12, p.field i 8, .user (p.desAddress i) (p.readSize f i)]

/-- `PEParser::Relocate`. -/
def relocate (f : File) (p : Parser) (sharedText : Bool) : List Access :=
  let textBegin := p.header.descriptor.mTextStartAddress / PAGE_SIZE
  let textLength := p.header.descriptor.mTextSize / PAGE_SIZE
  (if sharedText then [] else [.readWriter textBegin textLength]) ++
    (sections sharedText (BSS_SECTION_IDX + 1)).flatMap (clearSection p) ++
    (sections sharedText BSS_SECTION_IDX).flatMap (readSection f p) ++
    (if sharedText then [] else [.readWriter 0 textLength])

/-- What `Exec` does with the file, and the descriptor then. -/
def load (f : File) (m : Memory) (area : ℕ) (sharedText : Bool) (md : Descriptor) :
    Descriptor × List Access :=
  match headerLoad f m area with
  | (none, read) => (md, read)
  | (some p, read) =>
    if p.header.tooLarge then (p.header.descriptor, read)
    else (p.header.descriptor, read ++ relocate f p sharedText)

/-- Everything is in bounds. -/
def Safe (f : File) (m : Memory) (area : ℕ) (sharedText : Bool) (md : Descriptor) : Prop :=
  ∀ a ∈ (load f m area sharedText md).2, a.InBounds (load f m area sharedText md).1

end Loader
end UnixV6pp
