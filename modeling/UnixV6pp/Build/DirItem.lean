import UnixV6pp.Build.Stored
import UnixV6pp.Fs.Directory

/-!
# Directories in a disk image

An item of a directory is 32 bytes for the builder: the number of an inode and 28 bytes of a name.
It writes the item of a new file behind the others, or over the first one without a name, and takes
the number from its own list of free inodes.

* `InodeBlock.fetchFreeInode` — the number of a free inode.
* `Directary.search`, `Directary.nameI` — the place of a new item.
* `Builder.createFile` — the item is written.
* `Built` — **the runs of the builder** in which a directory gets its items.
-/

namespace UnixV6pp
namespace Build

open Words Inode FileSystem Build.File
open FileManager (slash)

def File.IFDIR : UInt32 := 0x4000

/-! ### Numbers of inodes -/

/-- `InodeBlock`, with the part of the super block that names the free inodes. -/
structure InodeBlock where
  sIsize : ℕ
  sNinode : ℕ
  /-- `_s_inode[100]`. -/
  sInode : ℕ → ℤ
  /-- `_i_mode` of the inode of each number, on the disk. -/
  iMode : ℤ → UInt32

namespace InodeBlock

/-- `_s_inode[_s_ninode++] = no`. -/
def push (s : InodeBlock) (no : ℤ) : InodeBlock :=
  { s with sNinode := s.sNinode + 1, sInode := Function.update s.sInode s.sNinode no }

/-- Put the numbers of free inodes below `i` on the list, from the last one on. -/
def refill : ℕ → InodeBlock → InodeBlock
  | 0, s => s
  | i + 1, s =>
    if s.sNinode < 100 then refill i (if s.iMode i = 0 then s.push i else s) else s

/-- `FetchFreeInode`, or `none` for an exception. -/
def fetchFreeInode (s : InodeBlock) : Option (ℤ × InodeBlock) :=
  let s := if s.sNinode = 0 then refill (s.sIsize * (512 / 64)) s else s
  if s.sNinode = 0 then none
  else some (s.sInode (s.sNinode - 1), { s with sNinode := s.sNinode - 1 })

/-- `UpdateInodeToDisk`, as far as the mode goes. -/
def updateInodeToDisk (s : InodeBlock) (no : ℤ) (mode : UInt32) : InodeBlock :=
  { s with iMode := Function.update s.iMode no mode }

/-- `CreatInode` and `CreatMngArray`. -/
def initInodeManager (sIsize : ℕ) : InodeBlock where
  sIsize := sIsize
  sNinode := 100
  sInode i := if i < 99 then sIsize * (512 / 64) - 1 - i else 0
  iMode _ := 0

end InodeBlock

namespace DirFile

/-- The mode of a directory. -/
def mode : UInt32 :=
  IALLOC ||| IFDIR ||| IREAD ||| IWRITE ||| IEXEC ||| (IREAD >>> 3) ||| (IWRITE >>> 3) |||
    (IEXEC >>> 3) ||| (IREAD >>> 6) ||| (IWRITE >>> 6) ||| (IEXEC >>> 6)

/-- `CreateDirectory` for the root, as far as the inodes go. -/
def createRoot (s : InodeBlock) : Option InodeBlock := do
  let (fileInodeNo, s) ← s.fetchFreeInode
  return s.updateInodeToDisk fileInodeNo mode

end DirFile

/-! ### Items -/

/-- `_fileName`: the characters of the name, and zeros behind them. -/
def fileName (name : List UInt8) : ℕ → UInt8 := fun k => name.getD k 0

namespace Directary

/-- How far the inner loop of `NameI` has come in a directory. -/
structure ItemSearch where
  dirInode : InodeStr
  disk : Disk
  offset : ℕ
  firstFreeOffset : ℕ
  freeFlag : Bool
  buffer : Block

/-- Read the next block of the directory where one begins. -/
def load (s : ItemSearch) : Option ItemSearch :=
  if s.offset % 512 = 0 then do
    let (pos, dirInode, disk) ← bmap s.disk s.dirInode (s.offset / 512)
    return { s with dirInode := dirInode, disk := disk, buffer := disk.blk pos }
  else some s

/-- Whether the item in the buffer has the name. -/
def itemMatches (fileName : ℕ → UInt8) (s : ItemSearch) : Bool :=
  (List.range 28).all fun j => fileName j == s.buffer (s.offset % 512 + j + 4)

/-- The item is passed over; the first one without a name is kept in mind. -/
def nextItem (s : ItemSearch) : ItemSearch :=
  if s.buffer (s.offset % 512 + 4) = 0 ∧ s.firstFreeOffset = 0 then
    { s with firstFreeOffset := s.offset, freeFlag := true, offset := s.offset + 32 }
  else { s with offset := s.offset + 32 }

/-- The inner loop of `NameI`, with so many items left: whether one of them has the name. -/
def search (fileName : ℕ → UInt8) : ℕ → ItemSearch → Option (Bool × ItemSearch)
  | 0, s => some (false, s)
  | dirSize + 1, s => do
    let s ← load s
    if itemMatches fileName s then return (true, s)
    search fileName dirSize (nextItem s)

/-- `NameI` in the directory in which a file is to be created: where its item is written.  `none`
for `SAMEFILENAME` and for an exception. -/
def nameI (fileName : ℕ → UInt8) (dirInode : InodeStr) (d : Disk) :
    Option (ℕ × InodeStr × Disk) := do
  let dirSize := (dirInode.iSize / 32).toNat
  let (found, s) ← search fileName dirSize ⟨dirInode, d, 0, 0, false, fun _ => 0⟩
  if found then none
  else some (if s.freeFlag then s.firstFreeOffset else s.dirInode.iSize.toNat, s.dirInode, s.disk)

end Directary

namespace File

/-- `WriteDirItem`. -/
def writeDirItem (d : Disk) (dirInode : InodeStr) (fileInodeNo : ℤ) (fileName : ℕ → UInt8)
    (blankDirItem : ℕ) : Option (InodeStr × Disk) :=
  let cin : ℕ → UInt8 := fun k => if k < 4 then byteOf fileInodeNo k else fileName (k - 4)
  writeStream d dirInode cin blankDirItem 32

/-- `UpdateFatherDirInode`. -/
def updateFatherDirInode (now : ℤ) (dirInode : InodeStr) : InodeStr :=
  { dirInode with iSize := dirInode.iSize + 32, iAtime := now, iMtime := now }

end File

/-! ### Runs of the builder -/

/-- The image with its files; those without blocks are left out. -/
structure Builder (ι : Type) where
  disk : Disk
  inodeBlock : InodeBlock
  inodes : ι → InodeStr

namespace Builder

variable {ι : Type} [DecidableEq ι]

/-- `CreateFile` as far as it goes to the directory: the number of the inode of the file. -/
def createFile (now : ℤ) (name : List UInt8) (mode : UInt32) (s : Builder ι) (dir : ι) :
    Option (ℤ × Builder ι) := do
  let (blankDirItem, dirInode, d) ← Directary.nameI (fileName name) (s.inodes dir) s.disk
  let (fileInodeNo, inodeBlock) ← s.inodeBlock.fetchFreeInode
  let (dirInode, d) ← writeDirItem d dirInode fileInodeNo (fileName name) blankDirItem
  return (fileInodeNo,
    { disk := d
      inodeBlock := inodeBlock.updateInodeToDisk fileInodeNo mode
      inodes := Function.update s.inodes dir (updateFatherDirInode now dirInode) })

/-- `WriteStream` for the file `i`. -/
def writeFile (s : Builder ι) (i : ι) (cin : ℕ → UInt8) (itemNum count : ℕ) :
    Option (Builder ι) := do
  let (inode, d) ← writeStream s.disk (s.inodes i) cin itemNum count
  return { s with disk := d, inodes := Function.update s.inodes i inode }

/-- The number of an inode is taken for a file with its item elsewhere. -/
def takeInode (s : Builder ι) (mode : UInt32) : Option (Builder ι) := do
  let (fileInodeNo, inodeBlock) ← s.inodeBlock.fetchFreeInode
  return { s with inodeBlock := inodeBlock.updateInodeToDisk fileInodeNo mode }

omit [DecidableEq ι] in
/-- The root directory is there, and no file has a block. -/
structure Ready (s : Builder ι) : Prop where
  /-- The builder has put the free blocks on its list. -/
  freeList : ∃ L, FreeList s.disk.fs L
  nfree_ne : s.disk.sNfree ≠ 0
  iAddr_eq : ∀ i k, (s.inodes i).iAddr k = 0
  /-- The inodes fill the list. -/
  root : ∃ sIsize, 100 ≤ sIsize * (512 / 64) ∧ sIsize < 2 ^ 28 ∧
    DirFile.createRoot (.initInodeManager sIsize) = some s.inodeBlock

/-- The trees of the inodes. -/
def view (s : Builder ι) : View ι := ⟨s.disk.blk, fun i => (s.inodes i).iAddr⟩

/-- The free blocks are enough for the logical block of a file. -/
def Room (s : Builder ι) (i : ι) (lbn : ℕ) : Prop :=
  ∀ L, FreeList s.disk.fs L →
    missing s.view (i, (lbnPath lbn).1) (lbnPath lbn).2 ≤ L.length

end Builder

/-- A name that the builder accepts. -/
structure Accepted (name : List UInt8) : Prop where
  ne_nil : name ≠ []
  length_le : name.length ≤ 28
  chars : ∀ b ∈ name, b ≠ 0 ∧ b ≠ slash

variable {ι : Type} [DecidableEq ι]

/-- **The builder has stored these items in the directory**, with what else it does in between: it
writes to other files, and takes inodes for files in other directories.  No exception is caught. -/
inductive Built (dir : ι) : List (List UInt8 × ℤ) → Builder ι → Prop
  | start {s : Builder ι} (hready : s.Ready) (hmode : (s.inodes dir).iMode = DirFile.mode)
      (hsize : (s.inodes dir).iSize = 0) : Built dir [] s
  | item {items : List (List UInt8 × ℤ)} {s s' : Builder ι} {now number : ℤ} {name : List UInt8}
      {mode : UInt32} (h : Built dir items s) (hname : Accepted name) (hmode : mode ≠ 0)
      (hcreate : s.createFile now name mode dir = some (number, s'))
      (hroom : s.Room dir ((s.inodes dir).iSize.toNat / 512)) :
      Built dir (items ++ [(name, number)]) s'
  | write {items : List (List UInt8 × ℤ)} {s s' : Builder ι} {i : ι} {cin : ℕ → UInt8}
      {itemNum count : ℕ} (h : Built dir items s) (hi : i ≠ dir)
      (hcount : itemNum % 512 + count ≤ 512) (hwrite : s.writeFile i cin itemNum count = some s')
      (hroom : s.Room i (itemNum / 512)) : Built dir items s'
  | take {items : List (List UInt8 × ℤ)} {s s' : Builder ι} {mode : UInt32} (h : Built dir items s)
      (hmode : mode ≠ 0) (htake : s.takeInode mode = some s') : Built dir items s'

end Build
end UnixV6pp
