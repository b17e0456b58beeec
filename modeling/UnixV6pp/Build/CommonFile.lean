import UnixV6pp.Fs.INode

/-!
# Storing a file in a disk image

The builder of the disk image has its own free list and its own block map, and writes to the
blocks of the image at once. An exception of `GetFreeBlock` is caught and printed, and the block
number stays zero; one for an index outside of an array ends the builder.

* `DataBlock.getFreeBlock` — taking a block.
* `Directary.bmap` — the block of a logical block.
* `CommonFile.setCommonFileInode` — storing a file.
-/

namespace UnixV6pp
namespace Build

open Words

/-- The image, with the part of the super block that names the free blocks. -/
structure Disk where
  sNfree : ℤ
  /-- `_s_free[100]`. -/
  sFree : ℕ → ℤ
  blk : ℤ → Block

/-- `InodeStr`. -/
structure InodeStr where
  iMode : UInt32
  iIlink : ℤ
  iUid : ℤ
  iGid : ℤ
  iSize : ℤ
  /-- `_i_addr[10]`. -/
  iAddr : ℕ → ℤ
  iAtime : ℤ
  iMtime : ℤ

namespace DataBlock

/-- Clear a block. -/
def cleanBlock (d : Disk) (bno : ℤ) : Disk :=
  { d with blk := Function.update d.blk bno fun _ => 0 }

/-- The next group of free blocks, read from the block `bno`. -/
def loadGroup (d : Disk) (bno : ℤ) : Disk :=
  { d with
    sNfree := getInt (d.blk bno) 0
    sFree := fun i => if i < 100 then getInt (d.blk bno) (i + 1) else d.sFree i }

/-- `GetFreeBlock`, or `none` for an exception. -/
def getFreeBlock (d : Disk) : Option ℤ × Disk :=
  let d := { d with sNfree := d.sNfree - 1 }
  if d.sNfree < 0 ∨ d.sNfree ≥ 100 then (none, d)
  else
    let reValue := d.sFree d.sNfree.toNat
    if d.sNfree ≤ 0 ∧ reValue = 0 then (none, d)
    else
      let d := if d.sNfree ≤ 0 then loadGroup d reValue else d
      (some reValue, cleanBlock d reValue)

/-- `GetFreeBlock` where its exceptions are caught and leave a zero. -/
def getFreeBlockOrZero (d : Disk) : ℤ × Disk :=
  let r := getFreeBlock d
  (r.1.getD 0, r.2)

end DataBlock

open DataBlock

namespace Directary

/-- The element of `_i_addr` at `index`, with a new block if there is none. -/
def fillAddr (d : Disk) (inode : InodeStr) (index : ℕ) : ℤ × InodeStr × Disk :=
  if inode.iAddr index = 0 then
    let r := getFreeBlockOrZero d
    (r.1, { inode with iAddr := Function.update inode.iAddr index r.1 }, r.2)
  else (inode.iAddr index, inode, d)

/-- The entry at `index` of the index block `blockNum`, with a new block if there is none. -/
def fillEntry (d : Disk) (blockNum : ℤ) (index : ℕ) : ℤ × Disk :=
  let entry := getInt (d.blk blockNum) index
  if entry = 0 then
    let r := getFreeBlockOrZero d
    let table := setInt (r.2.blk blockNum) index r.1
    (r.1, { r.2 with blk := Function.update r.2.blk blockNum table })
  else (entry, d)

/-- `BMap`, or `none` for an index that `_i_addr` does not have. -/
def bmap (d : Disk) (inode : InodeStr) (itemNum : ℕ) : Option (ℤ × InodeStr × Disk) :=
  if itemNum < 6 then some (fillAddr d inode itemNum)
  else
    let firstIndex :=
      if itemNum < 262 then (itemNum - 6) / 128 + 6 else (itemNum - 262) / (128 * 128) + 8
    if firstIndex ≥ 10 then none
    else
      let first := fillAddr d inode firstIndex
      let table :=
        if firstIndex ≥ 8 then fillEntry first.2.2 first.1 ((itemNum - 262) / 128 % 128)
        else (first.1, first.2.2)
      let directIndex := if itemNum < 262 then (itemNum - 6) % 128 else (itemNum - 262) % 128
      let last := fillEntry table.2 table.1 directIndex
      some (last.1, first.2.1, last.2)

end Directary

namespace File

/-- `WriteStream`: no caller writes over the end of a block. -/
def writeStream (d : Disk) (dinode : InodeStr) (cin : ℕ → UInt8) (itemNum count : ℕ) :
    Option (InodeStr × Disk) := do
  let (pos, dinode, d) ← Directary.bmap d dinode (itemNum / 512)
  let data : Block := fun o =>
    if itemNum % 512 ≤ o ∧ o < itemNum % 512 + count then cin (o - itemNum % 512) else d.blk pos o
  return (dinode, { d with blk := Function.update d.blk pos data })

def IALLOC : UInt32 := 0x8000
def IREAD : UInt32 := 0x100
def IWRITE : UInt32 := 0x80
def IEXEC : UInt32 := 0x40

/-- `File.SetCommonFileInode`. -/
def setCommonFileInode (now : ℤ) (inode : InodeStr) : InodeStr :=
  { inode with iIlink := 1, iGid := 0, iUid := 0, iAtime := now, iMtime := now, iSize := 0 }

end File

namespace CommonFile

open File

/-- What `ReadFile` brings from the source file at the offset `512 * i`. -/
def readFrom (content : List UInt8) (i : ℕ) : ℕ → UInt8 := fun k => content.getD (512 * i + k) 0

/-- The first `n` turns of the loop of `WriteFileItem`. -/
def writeItems (content : List UInt8) (inode : InodeStr) (d : Disk) :
    ℕ → Option (InodeStr × Disk)
  | 0 => some (inode, d)
  | i + 1 => do
    let (inode, d) ← writeItems content inode d i
    writeStream d inode (readFrom content i) (i * 512) 512

/-- `WriteFileItem`. -/
def writeFileItem (content : List UInt8) (inode : InodeStr) (d : Disk) :
    Option (InodeStr × Disk) := do
  let fileLength := content.length
  let blockNum := fileLength / 512 + if fileLength % 512 = 0 then 0 else 1
  -- the loop is left with `i` at its bound, which may be negative
  let i := blockNum - 1
  let (inode, d) ← writeItems content inode d i
  writeStream d inode (readFrom content i) (i * 512) (inode.iSize % 512).toNat

/-- The mode of a common file. -/
def mode : UInt32 :=
  IALLOC ||| IREAD ||| IWRITE ||| IEXEC ||| (IREAD >>> 3) ||| (IWRITE >>> 3) ||| (IEXEC >>> 3) |||
    (IREAD >>> 6) ||| (IWRITE >>> 6) ||| (IEXEC >>> 6)

/-- `CommonFile.SetCommonFileInode` for a source file that can be opened. -/
def setCommonFileInode (now : ℤ) (content : List UInt8) (inode : InodeStr) (d : Disk) :
    Option (InodeStr × Disk) :=
  let inode := File.setCommonFileInode now inode
  let inode := { inode with iMode := mode, iSize := content.length }
  writeFileItem content inode d

end CommonFile

/-! ### What the kernel finds -/

/-- The file system with the super block as the builder left it. -/
def Disk.fs (d : Disk) : FsState where
  sb :=
    { sNfree := d.sNfree, sFree := d.sFree, sNinode := 0, sInode := fun _ => 0, sFlock := 0,
      sIlock := 0, sFmod := 0, sRonly := 0 }
  blk := d.blk
  uError := .NOERROR
  rablock := 0

/-- The in-core inode `IGet` makes of the one on the disk. -/
def InodeStr.load (inode : InodeStr) (number : ℤ) : Inode where
  iFlag := 0
  iMode := inode.iMode
  iCount := 1
  iNlink := inode.iIlink
  iNumber := number
  iUid := inode.iUid
  iGid := inode.iGid
  iSize := inode.iSize
  iAddr := inode.iAddr
  iLastr := -1

end Build
end UnixV6pp
