import UnixV6pp.Build.CommonFile

/-!
# The file of the disk image

The builder keeps the image in a file and finds a block by the position of its first byte.  The
position is a product of type `int`; the exception for a negative one is caught where the file is
positioned, and the next access is made at the old position.

* `RWFiles` — the file with its position.
* `Image.initDataBlock` — writing the groups of free blocks.
* `Image.getFreeBlock` — taking a block.
-/

namespace UnixV6pp
namespace Build

open Words

/-- `RWFiles`.  The bytes past the end of the file count as zeros. -/
structure RWFiles where
  bytes : ℕ → UInt8
  pos : ℕ

namespace RWFiles

/-- `OpenFile`. -/
def openFile (f : RWFiles) : RWFiles := { f with pos := 0 }

/-- `SeekFilePosition`. -/
def seekFilePosition (f : RWFiles) (toffset : ℤ) : RWFiles :=
  -- the exception is caught
  if toffset < 0 then f else { f with pos := toffset.toNat }

/-- `ConvertPosition`: the sum is an `int` before it becomes a `long`. -/
def convertPosition (blocknum blkoffset : ℤ) : ℤ := int32 (512 * blocknum + blkoffset)

/-- `WriteFile` of the four bytes of a number. -/
def writeInt (f : RWFiles) (v : ℤ) : RWFiles where
  bytes := fun p => if f.pos ≤ p ∧ p < f.pos + 4 then byteOf v (p - f.pos) else f.bytes p
  pos := f.pos + 4

/-- Write the first `n` numbers of `src`, one after the other. -/
def writeInts (f : RWFiles) (src : ℕ → ℤ) : ℕ → RWFiles
  | 0 => f
  | n + 1 => (writeInts f src n).writeInt (src n)

/-- The numbers `ReadFile` brings, from the position on. -/
def readInts (f : RWFiles) : ℕ → ℤ := getInt fun o => f.bytes (f.pos + o)

end RWFiles

open RWFiles

/-- The image, with the part of the super block that names the free blocks. -/
structure Image where
  sNfree : ℤ
  /-- `_s_free[100]`. -/
  sFree : ℕ → ℤ
  diskFile : RWFiles

namespace Image

/-- `_s_free[_s_nfree++] = blkno`. -/
def pushFree (im : Image) (blkno : ℤ) : Image :=
  { im with sNfree := im.sNfree + 1, sFree := Function.update im.sFree im.sNfree.toNat blkno }

/-- Write the full group into the block `blkno` and start a new one. -/
def storeGroup (im : Image) (blkno : ℤ) : Image :=
  let f := im.diskFile.seekFilePosition (convertPosition blkno 0)
  { im with sNfree := 0, diskFile := (f.writeInt im.sNfree).writeInts im.sFree im.sNfree.toNat }

/-- One turn of the loop of `InitDataBlock`. -/
def initTurn (im : Image) (blkno : ℤ) : Image :=
  (if im.sNfree ≥ 100 then storeGroup im blkno else im).pushFree blkno

/-- The first `m` turns, which go down from the last block. -/
def initTurns (im : Image) (dataBlkStart dataBlkNum : ℤ) : ℕ → Image
  | 0 => im
  | m + 1 => (initTurns im dataBlkStart dataBlkNum m).initTurn (dataBlkNum - 1 - m + dataBlkStart)

/-- The state before the first turn. -/
def openGroup (im : Image) : Image where
  sNfree := 1
  sFree := Function.update im.sFree 0 0
  diskFile := im.diskFile.openFile

/-- `InitDataBlock`. -/
def initDataBlock (im : Image) (dataBlkStart dataBlkNum : ℕ) : Image :=
  initTurns im.openGroup dataBlkStart dataBlkNum dataBlkNum

/-- The next group of free blocks, read from the block `bno`. -/
def loadGroup (im : Image) (bno : ℤ) : Image :=
  let f := im.diskFile.openFile.seekFilePosition (int32 (512 * bno))
  { sNfree := f.readInts 0,
    sFree := fun i => if i < 100 then f.readInts (i + 1) else im.sFree i,
    diskFile := f }

/-- `CleanBlock`. -/
def cleanBlock (im : Image) (bno : ℤ) : Image :=
  let f := im.diskFile.openFile.seekFilePosition (int32 (512 * bno))
  { im with diskFile := f.writeInts (fun _ => 0) 128 }

/-- `GetFreeBlock`, or `none` for an exception. -/
def getFreeBlock (im : Image) : Option ℤ × Image :=
  let im := { im with sNfree := im.sNfree - 1 }
  if im.sNfree < 0 ∨ im.sNfree ≥ 100 then (none, im)
  else
    let reValue := im.sFree im.sNfree.toNat
    if im.sNfree ≤ 0 ∧ reValue = 0 then (none, im)
    else
      let im := if im.sNfree ≤ 0 then loadGroup im reValue else im
      (some reValue, cleanBlock im reValue)

/-- Take `k` blocks, none of which is refused. -/
def getFreeBlocks (im : Image) : ℕ → Option (List ℤ × Image)
  | 0 => some ([], im)
  | k + 1 =>
    match getFreeBlock im with
    | (none, _) => none
    | (some b, im) => (getFreeBlocks im k).map fun r => (b :: r.1, r.2)

/-- The blocks the kernel finds in the file. -/
def blk (im : Image) : ℤ → Block := fun b o =>
  if o < 512 then im.diskFile.bytes (512 * b.toNat + o) else 0

/-- The image block by block. -/
def disk (im : Image) : Disk where
  sNfree := im.sNfree
  sFree := im.sFree
  blk := im.blk

/-- The kernel has loaded the super block of the image. -/
structure Loaded (im : Image) (s : FsState) : Prop where
  blk_eq : s.blk = im.blk
  sNfree_eq : s.sb.sNfree = im.sNfree
  sFree_eq : ∀ i < 100, s.sb.sFree i = im.sFree i
  unlocked : s.sb.sFlock = 0
  ninode_le : s.sb.sNinode ≤ 100

end Image
end Build
end UnixV6pp
