import UnixV6pp.Fs.FileSystem
import Mathlib.Data.UInt

/-!
# Inodes

The map from the logical blocks of a file to blocks of the device, its
truncation, and the transfer of bytes to and from a file.  The first six logical
blocks are named in the inode; the others through index blocks of 128 numbers,
two of them below the inode for one level and two for two levels.

All inodes are on one device.  A buffer that is held is a block number with the
contents it has at the moment; what `Bdwrite`, `Bawrite` or `Bwrite` releases is
what the block holds from then on, and what `Brelse` releases is forgotten.

* `Inode.bmap` — the physical block of a logical block.
* `Inode.itrunc`, `Inode.iput` — giving the blocks back.
* `Inode.readI`, `Inode.writeI` — reading and writing.
-/

namespace UnixV6pp

open Words FileSystem

/-- An in-core inode. -/
structure Inode where
  iFlag : UInt32
  iMode : UInt32
  iCount : ℤ
  iNlink : ℤ
  iNumber : ℤ
  iUid : ℤ
  iGid : ℤ
  iSize : ℤ
  /-- `i_addr[10]`. -/
  iAddr : ℕ → ℤ
  iLastr : ℤ

/-- A buffer in the hands of a process. -/
structure Buf where
  bBlkno : ℤ
  bAddr : Block

namespace BufferManager

/-- `BufferManager::Bread`: the contents are those last released. -/
def bread (s : FsState) (blkno : ℤ) : Buf := ⟨blkno, s.blk blkno⟩

/-- `BufferManager::Breada`: reading `rablkno` ahead shows nowhere in the contents. -/
def breada (s : FsState) (blkno _rablkno : ℤ) : Buf := bread s blkno

/-- `BufferManager::GetBlk` of a block whose contents are not needed. -/
def getBlk (buffer : ℤ → Block) (blkno : ℤ) : Buf := ⟨blkno, buffer blkno⟩

/-- `BufferManager::Bdwrite`: the contents are released. -/
def bdwrite (s : FsState) (buf : Buf) : FsState :=
  { s with blk := Function.update s.blk buf.bBlkno buf.bAddr }

/-- `BufferManager::Bawrite`, which differs in when the disk is written. -/
def bawrite (s : FsState) (buf : Buf) : FsState := bdwrite s buf

/-- `BufferManager::Bwrite`, which differs in when the disk is written. -/
def bwrite (s : FsState) (buf : Buf) : FsState := bdwrite s buf

end BufferManager

open BufferManager

namespace FileSystem

/-- `FileSystem::Alloc` with the cleared buffer it returns. -/
def allocBuf (s : FsState) : Except Stop (Option Buf × FsState) := do
  let (blkno, s) ← alloc s
  return (blkno.map fun b => ⟨b, fun _ => 0⟩, s)

/-- `FileSystem::IFree`. -/
def ifree (s : FsState) (number : ℤ) : Except Stop FsState := do
  let sb := getFS s.sb
  if sb.sIlock ≠ 0 then
    return { s with sb := sb }
  if sb.sNinode ≥ 100 then
    return { s with sb := sb }
  let sInode ← writeAt 100 sb.sInode sb.sNinode number
  return { s with sb := { sb with sInode := sInode, sNinode := sb.sNinode + 1, sFmod := 1 } }

end FileSystem

namespace Inode

/-! ### Constants -/

def ILOCK : UInt32 := 0x1
def IUPD : UInt32 := 0x2
def IACC : UInt32 := 0x4
def IWANT : UInt32 := 0x10
def IFMT : UInt32 := 0x6000
def IFCHR : UInt32 := 0x2000
def IFBLK : UInt32 := 0x6000
def ILARG : UInt32 := 0x1000
def IRWXU : UInt32 := 0x1C0
def IRWXG : UInt32 := 0x38
def IRWXO : UInt32 := 0x7

/-- Logical blocks up to here are named in the inode. -/
def smallFileBlock : ℤ := 6

/-- Logical blocks up to here are reached through one index block. -/
def largeFileBlock : ℤ := 128 * 2 + 6

/-- Logical blocks up to here are reached through two index blocks. -/
def hugeFileBlock : ℤ := 128 * 128 * 2 + 128 * 2 + 6

/-! ### The block map -/

/-- `Bmap` of a block named in the inode. -/
def bmapDirect (s : FsState) (ino : Inode) (lbn : ℤ) : Except Stop (ℤ × Inode × FsState) := do
  let phyBlkno ← readAt 10 ino.iAddr lbn
  let (buf, s) ← if phyBlkno = 0 then allocBuf s else .ok (none, s)
  let (phyBlkno, ino, s) := match buf with
    | some buf => (buf.bBlkno,
        { ino with
          iAddr := Function.update ino.iAddr lbn.toNat buf.bBlkno
          iFlag := ino.iFlag ||| IUPD },
        bdwrite s buf)
    | none => (phyBlkno, ino, s)
  return (phyBlkno, ino, { s with rablock := if lbn ≤ 4 then ino.iAddr (lbn.toNat + 1) else 0 })

/-- The part of `Bmap` that gets the index block named by `i_addr[index]`, a new
one if there is none. -/
def firstTable (s : FsState) (ino : Inode) (index : ℤ) :
    Except Stop (Option Buf × Inode × FsState) := do
  let phyBlkno ← readAt 10 ino.iAddr index
  if phyBlkno = 0 then
    let ino := { ino with iFlag := ino.iFlag ||| IUPD }
    match ← allocBuf s with
    | (none, s) => return (none, ino, s)
    | (some buf, s) =>
      return (some buf,
        { ino with iAddr := Function.update ino.iAddr index.toNat buf.bBlkno }, s)
  else
    return (some (bread s phyBlkno), ino, s)

/-- The part of `Bmap` that goes from an index block of the second level, held in
`first`, to the one of the first level named by its entry `index`. -/
def secondTable (s : FsState) (first : Buf) (index : ℤ) : Except Stop (Option Buf × FsState) := do
  let phyBlkno ← readAt 128 (getInt first.bAddr) index
  if phyBlkno = 0 then
    match ← allocBuf s with
    | (none, s) => return (none, s)
    | (some buf, s) =>
      return (some buf,
        bdwrite s { first with bAddr := setInt first.bAddr index.toNat buf.bBlkno })
  else
    return (some (bread s phyBlkno), s)

/-- The part of `Bmap` that looks up the data block in the index block `table`. -/
def lastTable (s : FsState) (table : Buf) (index : ℤ) : Except Stop (ℤ × FsState) := do
  let phyBlkno ← readAt 128 (getInt table.bAddr) index
  let (buf, s) ← if phyBlkno = 0 then allocBuf s else .ok (none, s)
  let (phyBlkno, table, s) := match buf with
    | some buf =>
      let table := { table with bAddr := setInt table.bAddr index.toNat buf.bBlkno }
      (buf.bBlkno, table, bdwrite (bdwrite s buf) table)
    | none => (phyBlkno, table, s)
  return (phyBlkno,
    { s with rablock := if index + 1 < 128 then getInt table.bAddr (index.toNat + 1) else 0 })

/-- `Inode::Bmap`. -/
def bmap (s : FsState) (ino : Inode) (lbn : ℤ) : Except Stop (ℤ × Inode × FsState) := do
  if lbn ≥ hugeFileBlock then
    return (0, ino, { s with uError := .EFBIG })
  if lbn < 6 then
    bmapDirect s ino lbn
  else
    let index := if lbn < largeFileBlock then (lbn - smallFileBlock) / 128 + 6
      else (lbn - largeFileBlock) / (128 * 128) + 8
    match ← firstTable s ino index with
    | (none, ino, s) => return (0, ino, s)
    | (some first, ino, s) =>
      let (table, s) ← if index ≥ 8 then
          secondTable s first ((lbn - largeFileBlock) / 128 % 128)
        else .ok (some first, s)
      match table with
      | none => return (0, ino, s)
      | some table =>
        let index := if lbn < largeFileBlock then (lbn - smallFileBlock) % 128
          else (lbn - largeFileBlock) % 128
        let (phyBlkno, s) ← lastTable s table index
        return (phyBlkno, ino, s)

/-! ### Truncation -/

/-- Free the nonzero numbers among the first `n` of a table, the last one first. -/
def freeEntries (buffer : ℤ → Block) (table : ℕ → ℤ) : ℕ → FsState → Except Stop FsState
  | 0, s => .ok s
  | n + 1, s => do
    let s ← if table n ≠ 0 then free buffer s (table n) else .ok s
    freeEntries buffer table n s

/-- Free the blocks named by the first `n` numbers of an index block held in a
buffer, the last one first, and before each of them, if `double`, the blocks named
in it. -/
def freeTables (buffer : ℤ → Block) (double : Bool) (first : ℕ → ℤ) :
    ℕ → FsState → Except Stop FsState
  | 0, s => .ok s
  | n + 1, s => do
    let s ← if first n ≠ 0 then do
        let s ← if double then
            freeEntries buffer (getInt (bread s (first n)).bAddr) 128 s
          else .ok s
        free buffer s (first n)
      else .ok s
    freeTables buffer double first n s

/-- Free what hangs on the first `n` elements of `i_addr`, the last one first. -/
def freeAddrs (buffer : ℤ → Block) : ℕ → FsState → Inode → Except Stop (Inode × FsState)
  | 0, s, ino => .ok (ino, s)
  | i + 1, s, ino => do
    if ino.iAddr i ≠ 0 then
      let s ← if 6 ≤ i ∧ i ≤ 9 then
          freeTables buffer (8 ≤ i ∧ i ≤ 9) (getInt (bread s (ino.iAddr i)).bAddr) 128 s
        else .ok s
      let s ← free buffer s (ino.iAddr i)
      freeAddrs buffer i s { ino with iAddr := Function.update ino.iAddr i 0 }
    else
      freeAddrs buffer i s ino

/-- Whether the mode is that of a device, as `ITrunc` tests it. -/
def isDevice (ino : Inode) : Bool := ino.iMode &&& (IFCHR &&& IFBLK) ≠ 0

/-- `Inode::ITrunc`. -/
def itrunc (buffer : ℤ → Block) (s : FsState) (ino : Inode) : Except Stop (Inode × FsState) := do
  if ino.isDevice then
    return (ino, s)
  let (ino, s) ← freeAddrs buffer 10 s ino
  return ({ ino with
    iSize := 0
    iFlag := ino.iFlag ||| IUPD
    iMode := ino.iMode &&& ~~~(ILARG &&& IRWXU &&& IRWXG &&& IRWXO)
    iNlink := 1 }, s)

/-! ### Giving up an inode -/

/-- The sixteen words of the `DiskInode` that `IUpdate` writes. -/
def diskInode (ino : Inode) (time : ℤ) : ℕ → ℤ
  | 0 => ino.iMode.toNat
  | 1 => ino.iNlink
  | 2 => ino.iUid % 2 ^ 16 + 2 ^ 16 * (ino.iGid % 2 ^ 16)
  | 3 => ino.iSize
  | 14 => if ino.iFlag &&& IACC ≠ 0 then time else 0
  | 15 => if ino.iFlag &&& IUPD ≠ 0 then time else 0
  | i => ino.iAddr (i - 4)

/-- The first sector of the inode zone. -/
def inodeZoneStartSector : ℤ := 202

/-- `Inode::IUpdate`. -/
def iupdate (s : FsState) (ino : Inode) (time : ℤ) : Except Stop FsState := do
  if ino.iFlag &&& (IUPD ||| IACC) = 0 then
    return s
  let s := { s with sb := getFS s.sb }
  if s.sb.sRonly ≠ 0 then
    return s
  let buf := bread s (inodeZoneStartSector + ino.iNumber.tdiv 8)
  let slot := ino.iNumber.tmod 8
  if slot < 0 then
    throw .outside
  return bwrite s
    { buf with bAddr := setInts buf.bAddr (16 * slot.toNat) (ino.diskInode time) 16 }

/-- `Inode::Prele`, up to the processes it wakes. -/
def prele (ino : Inode) : Inode :=
  let ino := { ino with iFlag := ino.iFlag &&& ~~~ILOCK }
  if ino.iFlag &&& IWANT ≠ 0 then { ino with iFlag := ino.iFlag &&& ~~~IWANT } else ino

/-- The part of `IPut` for an inode that no name leads to. -/
def discard (buffer : ℤ → Block) (s : FsState) (ino : Inode) : Except Stop (Inode × FsState) := do
  if ino.iNlink ≤ 0 then
    let (ino, s) ← itrunc buffer s ino
    let s ← ifree s ino.iNumber
    return ({ ino with iMode := 0 }, s)
  else
    return (ino, s)

/-- The part of `IPut` for the last reference. -/
def release (buffer : ℤ → Block) (s : FsState) (ino : Inode) (time : ℤ) :
    Except Stop (Inode × FsState) := do
  if ino.iCount = 1 then
    let (ino, s) ← discard buffer s { ino with iFlag := ino.iFlag ||| ILOCK }
    let s ← iupdate s ino time
    return ({ ino.prele with iFlag := 0, iNumber := -1 }, s)
  else
    return (ino, s)

/-- `InodeTable::IPut`. -/
def iput (buffer : ℤ → Block) (s : FsState) (ino : Inode) (time : ℤ) :
    Except Stop (Inode × FsState) := do
  let (ino, s) ← release buffer s ino time
  return (prele { ino with iCount := ino.iCount - 1 }, s)

/-! ### Reading and writing -/

/-- `u_IOParam`. -/
structure IOParameter where
  mBase : ℤ
  mOffset : ℤ
  mCount : ℤ

/-- A transfer between a file and the memory of a process. -/
structure Transfer where
  fs : FsState
  ino : Inode
  io : IOParameter
  /-- The memory that `m_Base` points into. -/
  mem : ℤ → UInt8

/-- Move the transfer on by `nbytes`. -/
def IOParameter.advance (io : IOParameter) (nbytes : ℤ) : IOParameter :=
  ⟨io.mBase + nbytes, int32 (io.mOffset + nbytes), io.mCount - nbytes⟩

/-- `Utility::IOMove` from a buffer, from `offset` on, to memory. -/
def iomoveOut (data : Block) (offset : ℤ) (mem : ℤ → UInt8) (base nbytes : ℤ) :
    Except Stop (ℤ → UInt8) :=
  if offset < 0 ∨ nbytes < 0 then .error .outside
  else .ok fun a => if base ≤ a ∧ a < base + nbytes then data (offset + (a - base)).toNat else mem a

/-- `Utility::IOMove` from memory to a buffer, from `offset` on. -/
def iomoveIn (mem : ℤ → UInt8) (base : ℤ) (data : Block) (offset nbytes : ℤ) : Except Stop Block :=
  if offset < 0 ∨ nbytes < 0 then .error .outside
  else .ok fun (o : ℕ) =>
    if offset ≤ o ∧ o < offset + nbytes then mem (base + (o - offset)) else data o

/-- The block `ReadI` reads next and how many bytes it takes from it, or `none`
where it returns. -/
def readBlkno (t : Transfer) (lbn nbytes : ℤ) : Except Stop (Option (ℤ × ℤ) × Transfer) := do
  if t.ino.iMode &&& IFMT ≠ IFBLK then
    let remain := int32 (t.ino.iSize - t.io.mOffset)
    if remain ≤ 0 then
      return (none, t)
    let (bn, ino, fs) ← bmap t.fs t.ino lbn
    let t := { t with ino := ino, fs := fs }
    if bn = 0 then
      return (none, t)
    return (some (bn, min nbytes remain), t)
  else
    return (some (lbn, nbytes), { t with fs := { t.fs with rablock := lbn + 1 } })

/-- The loop of `ReadI`, block by block; every turn transfers a byte at least. -/
def readLoop : ℕ → Transfer → Except Stop Transfer
  | 0, t => .ok t
  | fuel + 1, t => do
    if t.fs.uError ≠ .NOERROR ∨ t.io.mCount = 0 then
      return t
    let lbn := t.io.mOffset.tdiv 512
    let offset := t.io.mOffset.tmod 512
    match ← readBlkno t lbn (min (512 - offset) t.io.mCount) with
    | (none, t) => return t
    | (some (bn, nbytes), t) =>
      let buf := if t.ino.iLastr + 1 = lbn then breada t.fs bn t.fs.rablock else bread t.fs bn
      let mem ← iomoveOut buf.bAddr offset t.mem t.io.mBase nbytes
      readLoop fuel { t with
        ino := { t.ino with iLastr := lbn }
        io := t.io.advance nbytes
        mem := mem }

/-- `Inode::ReadI`. -/
def readI (t : Transfer) : Except Stop Transfer := do
  if t.io.mCount = 0 then
    return t
  let t := { t with ino := { t.ino with iFlag := t.ino.iFlag ||| IACC } }
  if t.ino.iMode &&& IFMT = IFCHR then
    throw .driver
  readLoop (t.io.mCount.toNat + 1) t

/-- The part of `WriteI` that fills the block `bn` and releases it. -/
def writeBlk (buffer : ℤ → Block) (t : Transfer) (bn offset nbytes : ℤ) : Except Stop Transfer := do
  let buf := if nbytes = 512 then getBlk buffer bn else bread t.fs bn
  let data ← iomoveIn t.mem t.io.mBase buf.bAddr offset nbytes
  let buf := { buf with bAddr := data }
  let io := t.io.advance nbytes
  let fs := if t.fs.uError ≠ .NOERROR then t.fs
    else if io.mOffset.tmod 512 = 0 then bawrite t.fs buf else bdwrite t.fs buf
  let iSize := if t.ino.iSize < io.mOffset ∧ t.ino.iMode &&& (IFBLK &&& IFCHR) = 0 then io.mOffset
    else t.ino.iSize
  return { t with
    fs := fs
    io := io
    ino := { t.ino with iSize := iSize, iFlag := t.ino.iFlag ||| IUPD } }

/-- The loop of `WriteI`, block by block; every turn transfers a byte at least. -/
def writeLoop (buffer : ℤ → Block) : ℕ → Transfer → Except Stop Transfer
  | 0, t => .ok t
  | fuel + 1, t => do
    if t.fs.uError ≠ .NOERROR ∨ t.io.mCount = 0 then
      return t
    let lbn := t.io.mOffset.tdiv 512
    let offset := t.io.mOffset.tmod 512
    let nbytes := min (512 - offset) t.io.mCount
    if t.ino.iMode &&& IFMT = IFBLK then
      -- for a block device the local variable `bn` is never set
      throw .unset
    let (bn, ino, fs) ← bmap t.fs t.ino lbn
    let t := { t with ino := ino, fs := fs }
    if bn = 0 then
      return t
    let t ← writeBlk buffer t bn offset nbytes
    writeLoop buffer fuel t

/-- `Inode::WriteI`.  A block that is overwritten whole is not read: its buffer
holds `buffer bn` before. -/
def writeI (buffer : ℤ → Block) (t : Transfer) : Except Stop Transfer := do
  let t := { t with ino := { t.ino with iFlag := t.ino.iFlag ||| (IACC ||| IUPD) } }
  if t.ino.iMode &&& IFMT = IFCHR then
    throw .driver
  if t.io.mCount = 0 then
    return t
  writeLoop buffer (t.io.mCount.toNat + 1) t

end Inode
end UnixV6pp
