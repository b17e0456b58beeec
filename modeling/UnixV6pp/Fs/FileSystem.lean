import UnixV6pp.Lib.Fallible
import UnixV6pp.Lib.Words

/-!
# The free blocks of a file system

The super block keeps the numbers of up to 100 free blocks.  The first of them
links to the rest: the block it names holds the next group, a count and 100 block
numbers, and the group after that hangs on its first number in turn, until a
first number is zero.

The contents of the device are what `Bread` returns: the block last released by
`Bwrite`, `Bawrite` or `Bdwrite`.  A buffer `GetBlk` hands out without reading
holds whatever it held before, so the operations that write one back in part take
those contents as an argument.

* `FileSystem.getFS` — the check made on every access to the super block.
* `FileSystem.alloc` — taking a block.
* `FileSystem.free` — giving a block back.
-/

namespace UnixV6pp

open Words

/-- The bytes of a disk block or of the buffer that holds it; the offsets below
512 are used. -/
abbrev Block := ℕ → UInt8

/-- The error codes of `u_error` the modelled calls report. -/
inductive ErrorCode
  | NOERROR
  | ENOENT
  | EIO
  | EACCES
  | EEXIST
  | ENOTDIR
  | EISDIR
  | EFBIG
  | ENOSPC
  | EROFS
  | EMLINK
  | EPERM
  | ENXIO
  | ENFILE
  | EMFILE
  deriving DecidableEq, Repr

/-- Why a call does not return. -/
inductive Stop
  /-- It accesses an array outside its bounds. -/
  | outside
  /-- It sleeps on a lock that nobody holds the key to in a sequential run. -/
  | sleeps
  /-- It hands the request to a device driver. -/
  | driver
  /-- It uses a variable that was never set. -/
  | unset
  /-- It sleeps for a buffer that it holds itself. -/
  | ownBuffer
  /-- It is still in a loop when the turns given to it are over. -/
  | running
  deriving DecidableEq, Repr

/-- The in-core super block: the fields that the operations on blocks and inodes use. -/
structure SuperBlock where
  /-- How many block numbers `sFree` holds. -/
  sNfree : ℤ
  /-- `s_free[100]`. -/
  sFree : ℕ → ℤ
  /-- How many inode numbers `sInode` holds. -/
  sNinode : ℤ
  /-- `s_inode[100]`. -/
  sInode : ℕ → ℤ
  /-- The lock on the free block list. -/
  sFlock : ℤ
  /-- The lock on the free inode list. -/
  sIlock : ℤ
  /-- Whether the super block has to be written back. -/
  sFmod : ℤ
  /-- Whether the file system is read-only. -/
  sRonly : ℤ

namespace SuperBlock

/-- Set `s_nfree`. -/
def setNfree (sb : SuperBlock) (n : ℤ) : SuperBlock := { sb with sNfree := n }

/-- Set the flag `s_fmod`. -/
def setFmod (sb : SuperBlock) : SuperBlock := { sb with sFmod := 1 }

variable (sb : SuperBlock) (n : ℤ)

@[simp] theorem sNfree_setNfree : (sb.setNfree n).sNfree = n := rfl
@[simp] theorem sFree_setNfree : (sb.setNfree n).sFree = sb.sFree := rfl
@[simp] theorem sNinode_setNfree : (sb.setNfree n).sNinode = sb.sNinode := rfl
@[simp] theorem sFlock_setNfree : (sb.setNfree n).sFlock = sb.sFlock := rfl
@[simp] theorem sNfree_setFmod : sb.setFmod.sNfree = sb.sNfree := rfl
@[simp] theorem sFree_setFmod : sb.setFmod.sFree = sb.sFree := rfl
@[simp] theorem sNinode_setFmod : sb.setFmod.sNinode = sb.sNinode := rfl
@[simp] theorem sFlock_setFmod : sb.setFmod.sFlock = sb.sFlock := rfl

end SuperBlock

/-- The file system as one process sees it during a system call. -/
structure FsState where
  sb : SuperBlock
  /-- The contents of the blocks of the device. -/
  blk : ℤ → Block
  uError : ErrorCode
  /-- The static member `Inode::rablock`. -/
  rablock : ℤ

namespace FileSystem

/-- The element at index `i` of an array of `len` numbers. -/
def readAt (len : ℕ) (f : ℕ → ℤ) (i : ℤ) : Except Stop ℤ :=
  if 0 ≤ i ∧ i < len then .ok (f i.toNat) else .error .outside

/-- An array of `len` numbers with `v` stored at index `i`. -/
def writeAt (len : ℕ) (f : ℕ → ℤ) (i v : ℤ) : Except Stop (ℕ → ℤ) :=
  if 0 ≤ i ∧ i < len then .ok (Function.update f i.toNat v) else .error .outside

@[simp] theorem readAt_ofNat {len : ℕ} (f : ℕ → ℤ) {i : ℕ} (h : i < len) :
    readAt len f i = .ok (f i) := by
  rw [readAt, if_pos (by omega), Int.toNat_natCast]

@[simp] theorem writeAt_ofNat {len : ℕ} (f : ℕ → ℤ) {i : ℕ} (v : ℤ) (h : i < len) :
    writeAt len f i v = .ok (Function.update f i v) := by
  rw [writeAt, if_pos (by omega), Int.toNat_natCast]

theorem writeAt_eq_ok {len : ℕ} {f g : ℕ → ℤ} {i v : ℤ} (h : writeAt len f i v = .ok g) :
    (0 ≤ i ∧ i < len) ∧ g = Function.update f i.toNat v := by
  unfold writeAt at h
  split at h
  · next hi =>
    cases h
    exact ⟨hi, rfl⟩
  · cases h

/-- `Utility::DWordCopy(src, dst, count)`. -/
def dwordCopy (src dst : ℕ → ℤ) (count : ℕ) : ℕ → ℤ := fun i => if i < count then src i else dst i

theorem dwordCopy_of_lt (src dst : ℕ → ℤ) {count i : ℕ} (h : i < count) :
    dwordCopy src dst count i = src i := if_pos h

/-- `FileSystem::GetFS`, once the mount table has named the super block. -/
def getFS (sb : SuperBlock) : SuperBlock :=
  if sb.sNfree > 100 ∨ sb.sNinode > 100 then { sb with sNfree := 0, sNinode := 0 } else sb

/-- The first sector of the data zone. -/
def dataZoneStartSector : ℤ := 1024

/-- The numbers a data block can have. -/
def DataBlock (b : ℤ) : Prop := dataZoneStartSector ≤ b ∧ b < 2 ^ 31

theorem DataBlock.bounds {b : ℤ} (h : DataBlock b) : 1024 ≤ b ∧ b < 2 ^ 31 := h

theorem DataBlock.ne_zero {b : ℤ} (h : DataBlock b) : b ≠ 0 := by
  have := h.bounds; omega

/-- `FileSystem::BadBlock`. -/
def badBlock (_sb : SuperBlock) (_blkno : ℤ) : Bool := false

/-- Read the next group of free block numbers from the block `b`, under the lock. -/
def loadGroup (sb : SuperBlock) (b : Block) : SuperBlock :=
  { sb with
    sNfree := getInt b 0
    sFree := dwordCopy (fun i => getInt b (i + 1)) sb.sFree 100
    sFlock := 0 }

theorem sFree_loadGroup (sb : SuperBlock) (b : Block) {i : ℕ} (h : i < 100) :
    (loadGroup sb b).sFree i = getInt b (i + 1) :=
  dwordCopy_of_lt (fun i => getInt b (i + 1)) sb.sFree h

@[simp] theorem sNinode_loadGroup (sb : SuperBlock) (b : Block) :
    (loadGroup sb b).sNinode = sb.sNinode := rfl

/-- Write the group of free block numbers of the super block into the buffer `b`. -/
def storeGroup (sb : SuperBlock) (b : Block) : Block :=
  setInts (setInt b 0 sb.sNfree) 1 sb.sFree 100

/-- `FileSystem::Alloc`: the number of the block handed out in a cleared buffer,
or `none` for `NULL`. -/
def alloc (s : FsState) : Except Stop (Option ℤ × FsState) := do
  let sb := getFS s.sb
  if sb.sFlock ≠ 0 then
    throw .sleeps
  let sb := sb.setNfree (sb.sNfree - 1)
  let blkno ← readAt 100 sb.sFree sb.sNfree
  if blkno = 0 then
    return (none, { s with sb := sb.setNfree 0, uError := .ENOSPC })
  if badBlock sb blkno then
    return (none, { s with sb := sb })
  -- the stack is used up: the block handed out holds the next group
  let sb := if sb.sNfree ≤ 0 then loadGroup sb (s.blk blkno) else sb
  return (some blkno, { s with sb := sb.setFmod })

/-- The stack of an exhausted super block: 0 marks the end of the chain. -/
def firstFree (sb : SuperBlock) : SuperBlock :=
  { sb with sNfree := 1, sFree := Function.update sb.sFree 0 0 }

/-- The stack after it has been spilled. -/
def spilled (sb : SuperBlock) : SuperBlock := { sb with sNfree := 0, sFlock := 0 }

/-- `s_free[s_nfree++] = blkno`. -/
def pushFree (sb : SuperBlock) (blkno : ℤ) : Except Stop SuperBlock := do
  let sFree ← writeAt 100 sb.sFree sb.sNfree blkno
  return { sb with sFree := sFree, sNfree := sb.sNfree + 1 }

/-- `FileSystem::Free`.  When the stack is full it is written into the freed
block, whose buffer holds `buffer blkno` when it is handed out. -/
def free (buffer : ℤ → Block) (s : FsState) (blkno : ℤ) : Except Stop FsState := do
  let sb := (getFS s.sb).setFmod
  if sb.sFlock ≠ 0 then
    throw .sleeps
  if badBlock sb blkno then
    return { s with sb := sb }
  let sb := if sb.sNfree ≤ 0 then firstFree sb else sb
  let blk := if sb.sNfree ≥ 100 then Function.update s.blk blkno (storeGroup sb (buffer blkno))
    else s.blk
  let sb := if sb.sNfree ≥ 100 then spilled sb else sb
  let sb ← pushFree sb blkno
  return { s with sb := sb.setFmod, blk := blk }

end FileSystem

end UnixV6pp
